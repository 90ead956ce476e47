import MumbleServer.MessagePieces

/-! # In step with the wire

What `Unmarshal` takes for the fields of a message, compared with the fields that are there.  It
reads a field number that it knows in one way, whatever the wire type of the tag.  So it is in step
as long as these agree (`round_field`, `inStep_of_agrees`), and where they do not there is always
a string with the same tags that it accepts without being in step (`fill`). -/

namespace MumbleServer.Codec

open List
open Wire

/-- The message does not know the field number, or the wire type is the one it writes. -/
def Agrees (s : Schema) (n w : ℕ) : Prop := ∀ k ∈ kindOf s n, k.wireType = w

instance (s : Schema) (n w : ℕ) : Decidable (Agrees s n w) :=
  inferInstanceAs (Decidable (∀ k ∈ kindOf s n, k.wireType = w))

/-- The field is one that the message reads. -/
def reads (s : Schema) (n w : ℕ) : Bool :=
  match kindOf s n with
  | none => false
  | some k => decide (k.wireType = w)

/-- What an `Unmarshal` in step does: it reads the fields with a number and a wire type that it
knows and skips the others. -/
def expected (s : Schema) : List RawField → List Round
  | [] => []
  | f :: fs => ⟨flat (f :: fs), f.number, f.wireType, reads s f.number f.wireType⟩ :: expected s fs

/-- `Unmarshal` fails, or it takes nothing but the fields for fields and reads all that it knows. -/
def InStep (m : Message) (fs : List RawField) : Prop :=
  (m.unmarshal (flat fs)).error ≠ none ∨
    (List.Sublist (m.unmarshal (flat fs)).rounds (expected m.schema fs) ∧
      List.Sublist ((expected m.schema fs).filter Round.known) (m.unmarshal (flat fs)).rounds)

/-! ### Where the wire types agree -/

variable {fs : List RawField} {n : ℕ}

section agree
variable {s : Schema}

theorem kindOf_of_find {f : Field} {i : Slot f s} (h : find s n = some ⟨f, i⟩) :
    kindOf s n = some f.kind := by
  rw [kindOf, h]
  rfl

theorem kindOf_of_find_none (h : find s n = none) : kindOf s n = none := by
  rw [kindOf, h]
  rfl

/-- What a round makes of a complete field does not depend on what is behind it. -/
theorem round_field (f : RawField) (hf : Agrees s f.number f.wireType) (v : Value s) :
    ∃ res : Except WireError (Value s), (kindOf s f.number = none → res = .ok v) ∧
      ∀ rest, round s v (f.bytes ++ rest) = res.map fun v' =>
        (⟨f.bytes ++ rest, f.number, f.wireType, reads s f.number f.wireType⟩, v', rest) := by
  simp only [RawField.bytes, append_assoc]
  cases hfind : find s f.number with
  | none =>
    have hreads : reads s f.number f.wireType = false := by
      rw [reads, kindOf_of_find_none hfind]
    refine ⟨.ok v, fun _ => rfl, fun rest => ?_⟩
    rw [round_unknown f.isTag hfind, skipField_of_isValue f.isValue, hreads]
    rfl
  | some p =>
    obtain ⟨g, i⟩ := p
    have hkind := kindOf_of_find hfind
    have hw : g.kind.wireType = f.wireType := hf g.kind hkind
    have hreads : reads s f.number f.wireType = true := by
      rw [reads, hkind]
      exact decide_eq_true hw
    refine ⟨(g.store (g.kind.rawOf f.content) (i.get v)).map (i.set v),
      fun h => by simp [hkind] at h, fun rest => ?_⟩
    rw [round_known f.isTag hfind v (Kind.read_isValue (hw ▸ f.isValue) rest), hreads]
    dsimp only
    cases g.store (g.kind.rawOf f.content) (i.get v) <;> rfl

theorem decodeFrom_flat (hfs : ∀ f ∈ fs, Agrees s f.number f.wireType) (v : Value s) :
    (decodeFrom s v (flat fs)).error ≠ none ∨
      (decodeFrom s v (flat fs)).rounds = expected s fs := by
  induction fs generalizing v with
  | nil => exact .inr rfl
  | cons f fs ih =>
    rw [forall_mem_cons] at hfs
    have hne := f.bytes_append_ne_nil (flat fs)
    rw [flat_cons]
    obtain ⟨e | v', -, hround⟩ := round_field f hfs.1 v
    · left
      rw [decodeFrom_of_error hne (hround _)]
      exact Option.some_ne_none e
    · rw [decodeFrom_of_ok hne (hround _)]
      rcases ih hfs.2 v' with h | h
      · exact .inl h
      · exact .inr (congrArg _ h)

theorem inStep_of_agrees {m : Message} (hfs : ∀ f ∈ fs, Agrees m.schema f.number f.wireType) :
    InStep m fs := by
  unfold InStep Message.unmarshal
  by_cases hm : m = .userList
  · right
    subst hm
    have hnone : ∀ fs, (expected Message.userList.schema fs).filter Round.known = [] := by
      intro fs
      induction fs with
      | nil => rfl
      | cons f fs ih => exact ih
    rw [if_pos rfl, hnone]
    exact ⟨nil_sublist _, List.Sublist.refl _⟩
  · rw [if_neg hm]
    rcases decodeFrom_flat hfs (zero m.schema) with h | h
    · exact .inl h
    · refine .inr ⟨h ▸ List.Sublist.refl _, ?_⟩
      have hsub := filter_sublist (l := expected m.schema fs) (p := Round.known)
      exact hsub.trans (h ▸ List.Sublist.refl _)

end agree

/-! ### Where they do not -/

/-- Four bytes that are a varint, an empty length-delimited value and a fixed32 value. -/
def fill4 : List UInt8 := [0x80, 0x80, 0x80, 0x00]

/-- Eight bytes that are a varint, an empty length-delimited value and a fixed64 value. -/
def fill8 : List UInt8 := [0x80, 0x80, 0x80, 0x80, 0x80, 0x80, 0x80, 0x00]

/-- Eight bytes that are a fixed64 value, and a fixed32 value with a field behind it. -/
def fillFloat : List UInt8 := [0, 0, 0, 0, 0xA0, 0x06, 0x80, 0x00]

/-- A value of the wire type that is accepted by whatever reader the message has. -/
def fillValue (s : Schema) (n w : ℕ) : List UInt8 :=
  if w = 1 then if kindOf s n = some .float then fillFloat else fill8 else fill4

theorem isValue_fill (s : Schema) (f : RawField) :
    IsValue f.wireType (fillValue s f.number f.wireType)
      (if f.wireType = 2 then [] else fillValue s f.number f.wireType) := by
  obtain ⟨n, w, tag, value, content, htag, hvalue⟩ := f
  cases hvalue with
  | varint h => exact .varint (show IsVarint fill4 by decide)
  | fixed64 h =>
    refine .fixed64 ?_
    unfold fillValue
    simp only [if_true]
    split_ifs <;> rfl
  | bytes h hl =>
    have hempty : varintVal fill4 % 2 ^ 64 = ([] : List UInt8).length := by decide
    exact .bytes (show IsVarint fill4 by decide) hempty
  | fixed32 h => exact .fixed32 rfl

/-- The field with another value. -/
def fill (s : Schema) (f : RawField) : RawField :=
  ⟨f.number, f.wireType, f.tag, fillValue s f.number f.wireType, _, f.isTag, isValue_fill s f⟩

/-- What is read is empty, if it is a string. -/
def Kind.Blank : (k : Kind) → k.Raw → Prop
  | .bytes, raw => raw = []
  | _, _ => True

/-- What a message reads from `fill` is no error, and it has no field 100. -/
structure Tolerant (s : Schema) : Prop where
  store : ∀ n f (i : Slot f s), find s n = some ⟨f, i⟩ →
    ∀ raw c, f.kind.Blank raw → ∃ c', f.store raw c = .ok c'
  unknown : find s 100 = none

section fill
variable {s : Schema}

/-- How a known field reads its filler: all of it, or the first four bytes of eight. -/
theorem Kind.read_fill {k : Kind} (hk : kindOf s n = some k) (w : ℕ) (rest : List UInt8) :
    ∃ raw : k.Raw, k.Blank raw ∧
      (k.read (fillValue s n w ++ rest) = .ok (some raw, rest) ∨
        k.read (fillValue s n w ++ rest) = .ok (some raw, [0xA0, 0x06, 0x80, 0x00] ++ rest)) := by
  cases k with
  | varint =>
    have hv : IsVarint (fillValue s n w) := by
      unfold fillValue
      rw [hk]
      split_ifs with h₁ h₂
      · cases h₂
      · decide
      · decide
    refine ⟨UInt64.ofNat (varintVal (fillValue s n w)), trivial, .inl ?_⟩
    rw [Kind.read_varint, readVarint_of_isVarint hv]
    rfl
  | bytes =>
    have hv : IsVarint (fillValue s n w) ∧
        varintVal (fillValue s n w) % 2 ^ 64 = ([] : List UInt8).length := by
      unfold fillValue
      rw [hk]
      split_ifs with h₁ h₂
      · cases h₂
      · decide
      · decide
    refine ⟨[], rfl, .inl ?_⟩
    have hread : readLengthDelimited (fillValue s n w ++ [] ++ rest) = .ok ([], rest) :=
      readLengthDelimited_of_isValue hv.1 hv.2 rest
    rw [append_nil] at hread
    rw [Kind.read_bytes, hread]
    rfl
  | float =>
    refine ⟨readFixed32 (fillValue s n w ++ rest), trivial, ?_⟩
    unfold fillValue
    rw [hk]
    by_cases h₁ : w = 1
    · right
      rw [if_pos h₁, if_pos rfl, Kind.read_float, if_neg (by simp [fillFloat])]
      rfl
    · left
      rw [if_neg h₁, Kind.read_float, if_neg (by simp [fill4])]
      rfl

theorem round_behind (hs : find s 100 = none) (v : Value s) (rest : List UInt8) :
    ∃ r, round s v ([0xA0, 0x06, 0x80, 0x00] ++ rest) = .ok (r, v, rest) := by
  have htag : IsTag 100 0 [0xA0, 0x06] := by
    refine ⟨by decide, by decide, by decide⟩
  have hskip := skipField_of_isValue (w := 0) (v := [0x80, 0x00]) (.varint (by decide)) rest
  have hround : round s v ([0xA0, 0x06] ++ ([0x80, 0x00] ++ rest)) = _ := round_unknown htag hs v
  rw [hskip] at hround
  exact ⟨_, hround⟩

/-- A filled field is gone over, and read if its number is known. -/
theorem decodeFrom_fill (hs : Tolerant s) (f : RawField) (v : Value s) (rest : List UInt8) :
    ∃ v' more, decodeFrom s v ((fill s f).bytes ++ rest) =
      ⟨⟨(fill s f).bytes ++ rest, f.number, f.wireType, (find s f.number).isSome⟩ ::
        (more ++ (decodeFrom s v' rest).rounds), (decodeFrom s v' rest).value,
        (decodeFrom s v' rest).error⟩ := by
  have hne := (fill s f).bytes_append_ne_nil rest
  have hassoc : (fill s f).bytes ++ rest = f.tag ++ (fillValue s f.number f.wireType ++ rest) := by
    rw [RawField.bytes, append_assoc]
    rfl
  cases hfind : find s f.number with
  | none =>
    have hround : round s v ((fill s f).bytes ++ rest) =
        .ok (⟨(fill s f).bytes ++ rest, f.number, f.wireType, false⟩, v, rest) := by
      rw [hassoc, round_unknown f.isTag hfind, skipField_of_isValue (isValue_fill s f)]
      rfl
    exact ⟨v, [], decodeFrom_of_ok hne hround⟩
  | some p =>
    obtain ⟨g, i⟩ := p
    obtain ⟨raw, hblank, hread⟩ := Kind.read_fill (kindOf_of_find hfind) f.wireType rest
    obtain ⟨c, hstore⟩ := hs.store f.number g i hfind raw (i.get v) hblank
    rcases hread with hread | hread
    · have hround := round_known f.isTag hfind v hread
      simp only [hstore, Except.map, ← hassoc] at hround
      exact ⟨i.set v c, [], decodeFrom_of_ok hne hround⟩
    · have hround := round_known f.isTag hfind v hread
      simp only [hstore, Except.map, ← hassoc] at hround
      obtain ⟨r, hr⟩ := round_behind hs.unknown (i.set v c) rest
      refine ⟨i.set v c, [r], ?_⟩
      rw [decodeFrom_of_ok hne hround, decodeFrom_of_ok (by simp) hr]
      rfl

theorem decodeFrom_fills (hs : Tolerant s) (fs : List RawField) (v : Value s) :
    (decodeFrom s v (flat (fs.map (fill s)))).error = none ∧
      ∀ f ∈ fs, ∃ place, ⟨place, f.number, f.wireType, (find s f.number).isSome⟩ ∈
        (decodeFrom s v (flat (fs.map (fill s)))).rounds := by
  induction fs generalizing v with
  | nil => exact ⟨rfl, fun f hf => absurd hf not_mem_nil⟩
  | cons f fs ih =>
    obtain ⟨v', more, hd⟩ := decodeFrom_fill hs f v (flat (fs.map (fill s)))
    obtain ⟨herr, hrounds⟩ := ih v'
    rw [map_cons, flat_cons, hd]
    refine ⟨herr, fun g hg => ?_⟩
    rcases mem_cons.mp hg with rfl | hg
    · exact ⟨_, mem_cons_self⟩
    · obtain ⟨place, hmem⟩ := hrounds g hg
      exact ⟨place, mem_cons_of_mem _ (mem_append_right _ hmem)⟩

theorem known_of_mem_expected {r : Round} (h : r ∈ expected s fs) :
    r.known = reads s r.number r.wireType := by
  induction fs with
  | nil => exact absurd h not_mem_nil
  | cons f fs ih =>
    rcases mem_cons.mp h with rfl | h
    · rfl
    · exact ih h

end fill

theorem Slot.field_mem {f : Field} {s : Schema} (i : Slot f s) : f ∈ s := by
  induction i with
  | here => exact mem_cons_self
  | there i ih => exact mem_cons_of_mem _ ih

/-- A field that accepts what is empty. -/
def Field.AcceptsBlank (f : Field) : Prop :=
  ∀ raw c, f.kind.Blank raw → ∃ c', f.store raw c = .ok c'

theorem acceptsBlank_nested (n : ℕ) (sub : Schema) (strict sparse : Bool) :
    (nested n sub strict sparse).AcceptsBlank := by
  intro raw c hraw
  have hraw' : raw = [] := hraw
  exact ⟨c ++ [zero sub], by rw [hraw']; rfl⟩

theorem tolerant (m : Message) : Tolerant m.schema := by
  have hall : m.schema.Forall Field.AcceptsBlank := by
    cases m <;> (repeat' apply And.intro) <;> first
      | exact acceptsBlank_nested _ _ _ _
      | exact fun _ _ _ => ⟨_, rfl⟩
      | trivial
  refine ⟨fun n f i _ => ?_, by cases m <;> rfl⟩
  exact forall_iff_forall_mem.mp hall f i.field_mem

/-- **When decoders stay in step.**  Of the strings of complete fields with given tags, all are
rejected or decoded in step exactly if every field number that the message knows has the wire type
that the message expects. -/
theorem in_step_iff (m : Message) (fs : List RawField) :
    (∀ gs : List RawField, gs.map (fun g => (g.number, g.wireType)) =
        fs.map (fun f => (f.number, f.wireType)) → InStep m gs) ↔
      ∀ f ∈ fs, Agrees m.schema f.number f.wireType := by
  constructor
  · intro h f hf k hk
    by_contra hw
    have hfind : (find m.schema f.number).isSome = true := by
      cases hfind : find m.schema f.number with
      | none => rw [kindOf_of_find_none hfind] at hk; cases hk
      | some p => rfl
    have hm : m ≠ .userList := by
      rintro rfl
      cases hfind
    -- the filled fields are accepted, and the field is read as if its wire type were expected
    obtain ⟨herr, hrounds⟩ := decodeFrom_fills (tolerant m) fs (zero m.schema)
    obtain ⟨place, hmem⟩ := hrounds f hf
    have hstep := h (fs.map (fill m.schema)) (by rw [map_map]; rfl)
    unfold InStep Message.unmarshal at hstep
    rw [if_neg hm] at hstep
    rcases hstep with hstep | ⟨hsub, -⟩
    · exact hstep herr
    · have hreads : reads m.schema f.number f.wireType = false := by
        rw [reads, show kindOf m.schema f.number = some k from hk]
        exact decide_eq_false hw
      have hknown := known_of_mem_expected (hsub.subset hmem)
      rw [hreads, hfind] at hknown
      cases hknown
  · intro h gs hgs
    apply inStep_of_agrees
    intro g hg
    have hmem : (g.number, g.wireType) ∈ fs.map fun f => (f.number, f.wireType) :=
      hgs ▸ mem_map_of_mem hg
    obtain ⟨f, hf, heq⟩ := mem_map.mp hmem
    obtain ⟨hn, hw⟩ := Prod.mk.inj heq
    rw [← hn, ← hw]
    exact h f hf

/-- One complete field: number 1, length-delimited, of four bytes. -/
def delimitedActor : RawField :=
  ⟨1, 2, [0x0A], [0x04, 0x2A, 0x02, 0x68, 0x69], [0x2A, 0x02, 0x68, 0x69],
    ⟨by decide, by decide, by decide⟩,
    .bytes (show IsVarint [0x04] by decide)
      (show varintVal [0x04] % 2 ^ 64 = [(0x2A : UInt8), 0x02, 0x68, 0x69].length by decide)⟩

/-- A text message takes the length of the field for the actor and its content for the text. -/
theorem text_out_of_step : ¬InStep .textMessage [delimitedActor] ∧
    (Message.textMessage.unmarshal (flat [delimitedActor])).result =
      .ok (4, [], [], [], [0x68, 0x69], ()) := by
  refine ⟨?_, rfl⟩
  rintro (herr | ⟨hsub, -⟩)
  · exact herr rfl
  · have hlen : 2 ≤ 1 := hsub.length_le
    exact absurd hlen (by decide)

/-! ### Fields that are skipped -/

/-- The field has a number that the message knows. -/
def knows (s : Schema) (f : RawField) : Bool := (kindOf s f.number).isSome

theorem result_flat {s : Schema} (hfs : ∀ f ∈ fs, Agrees s f.number f.wireType) (v : Value s) :
    (decodeFrom s v (flat (fs.filter (knows s)))).result = (decodeFrom s v (flat fs)).result := by
  induction fs generalizing v with
  | nil => rfl
  | cons f fs ih =>
    rw [forall_mem_cons] at hfs
    have hne := f.bytes_append_ne_nil
    obtain ⟨res, hskip, hround⟩ := round_field f hfs.1 v
    cases hk : kindOf s f.number with
    | none =>
      rw [hskip hk] at hround
      rw [filter_cons_of_neg (by simp [knows, hk]), ih hfs.2, flat_cons,
        decodeFrom_of_ok (hne _) (hround _)]
      rfl
    | some k =>
      rw [filter_cons_of_pos (by simp [knows, hk]), flat_cons, flat_cons]
      cases res with
      | error e =>
        rw [decodeFrom_of_error (hne _) (hround _), decodeFrom_of_error (hne _) (hround _)]
      | ok v' =>
        rw [decodeFrom_of_ok (hne _) (hround _), decodeFrom_of_ok (hne _) (hround _)]
        exact ih hfs.2 v'

/-- **Unknown fields are harmless.**  Complete fields with numbers that the message does not know,
put in or moved between the others, change nothing about what `Unmarshal` makes of them. -/
theorem unmarshal_unknown (m : Message) (fs gs : List RawField)
    (hfs : ∀ f ∈ fs, Agrees m.schema f.number f.wireType)
    (hgs : gs.filter (knows m.schema) = fs.filter (knows m.schema)) :
    (m.unmarshal (flat gs)).result = (m.unmarshal (flat fs)).result := by
  unfold Message.unmarshal
  by_cases hm : m = .userList
  · rw [if_pos hm, if_pos hm]
  · have hagrees : ∀ f ∈ gs, Agrees m.schema f.number f.wireType := by
      intro f hf k hk
      have hmem : f ∈ gs.filter (knows m.schema) :=
        mem_filter.mpr ⟨hf, Option.isSome_iff_exists.mpr ⟨k, hk⟩⟩
      rw [hgs] at hmem
      exact hfs f (mem_of_mem_filter hmem) k hk
    rw [if_neg hm, if_neg hm]
    exact (result_flat hagrees _).symm.trans (hgs ▸ result_flat hfs _)

/-- A complete field of four bytes with number 100. -/
def laterField : RawField :=
  ⟨100, 5, [0xA5, 0x06], [1, 2, 3, 4], _, ⟨by decide, by decide, by decide⟩, .fixed32 rfl⟩

theorem unmarshal_unknown_later :
    (Message.authenticate.unmarshal (flat [laterField, delimitedActor, laterField])).result =
      (Message.authenticate.unmarshal (flat [delimitedActor])).result :=
  unmarshal_unknown .authenticate [delimitedActor] _ (by decide) rfl

end MumbleServer.Codec
