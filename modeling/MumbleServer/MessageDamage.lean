import MumbleServer.MessageInStep

/-! # Damaged control messages

A string is damaged if it ends inside a field (`Cut`), or if a field that is a message itself is
damaged.  `Unmarshal` accepts a string exactly if it is complete in the way the message delimits its
fields (`Accepted`), so a damaged string is rejected exactly if it is not.  This is so as long as
the message is in step with the fields of the string up to the first damage, the end is not inside a
float, and the damaged message is one whose error is not dropped (`InOrder`). -/

namespace MumbleServer.Codec

open List Option
open Wire

/-- The string ends inside a field. -/
def Cut (b : List UInt8) : Prop :=
  ∃ (fs : List RawField) (f : RawField) (tail more : List UInt8),
    b = flat fs ++ tail ∧ f.bytes = tail ++ more ∧ tail ≠ [] ∧ more ≠ []

/-- The field is one of the complete fields of the string. -/
def Contains (b : List UInt8) (f : RawField) : Prop :=
  ∃ (fs : List RawField) (rest : List UInt8), b = flat fs ++ (f.bytes ++ rest)

/-- A number whose field is a message. -/
def isMessage (s : Schema) (n : ℕ) : Bool := (find s n).any fun p => p.1.message

/-- The field is a message that ends inside a field. -/
def CutInside (m : Message) (f : RawField) : Prop :=
  f.wireType = 2 ∧ isMessage m.schema f.number = true ∧ Cut f.content

/-- The string ends inside a field, or a message in it does. -/
def Damaged (m : Message) (b : List UInt8) : Prop := Cut b ∨ ∃ f, Contains b f ∧ CutInside m f

/-- The contents of fields that are no error: the targets of a voice target must be complete. -/
def acceptedContent (m : Message) (n : ℕ) (content : List UInt8) : Prop :=
  m = .voiceTarget → n = 2 → Complete voiceTargetTarget (fun _ _ => True) content

/-- The message is the stub, or the string is complete as the message takes its fields. -/
def Accepted (m : Message) (b : List UInt8) : Prop :=
  m = .userList ∨ Complete m.schema (acceptedContent m) b

/-- Every known field behind such fields has the wire type that is expected, and no float is
short. -/
structure Readable (s : Schema) (b : List UInt8) (before : RawField → Prop) : Prop where
  agrees : ∀ fs n w tag rest, (∀ f ∈ fs, before f) → IsTag n w tag → b = flat fs ++ (tag ++ rest) →
    Agrees s n w
  float : ∀ fs n w tag rest, (∀ f ∈ fs, before f) → IsTag n w tag → b = flat fs ++ (tag ++ rest) →
    kindOf s n = some .float → 4 ≤ rest.length

/-- The message is not the stub, and the string is readable up to the first target of a voice target
that is damaged, which is readable itself.  If the string does not end inside a field, the entries
of a ban list and the volume adjustments of a user state are not damaged. -/
structure InOrder (m : Message) (b : List UInt8) : Prop where
  notStub : m ≠ .userList
  readable : Readable m.schema b fun f => m = .voiceTarget → ¬CutInside m f
  lenient : m = .banList ∨ m = .userState → ¬Cut b → ∀ f, Contains b f → ¬CutInside m f
  strict : m = .voiceTarget → ∀ fs f rest, (∀ g ∈ fs, ¬CutInside m g) →
    b = flat fs ++ (f.bytes ++ rest) → CutInside m f →
      Readable voiceTargetTarget f.content fun _ => True

variable {f : RawField}

section readable
variable {s : Schema}
variable {tail more : List UInt8}

/-- Complete fields at the front do not hide an error behind them. -/
theorem error_of_error_behind {fs : List RawField} {b : List UInt8}
    (hagrees : ∀ f ∈ fs, Agrees s f.number f.wireType)
    (hb : ∀ v, (decodeFrom s v b).error ≠ none) (v : Value s) :
    (decodeFrom s v (flat fs ++ b)).error ≠ none := by
  induction fs generalizing v with
  | nil => exact hb v
  | cons f fs ih =>
    rw [forall_mem_cons] at hagrees
    have hne := f.bytes_append_ne_nil (flat fs ++ b)
    rw [flat_cons, append_assoc]
    obtain ⟨e | v', -, hround⟩ := round_field f hagrees.1 v
    · rw [decodeFrom_of_error hne (hround _)]
      exact some_ne_none e
    · rw [decodeFrom_of_ok hne (hround _)]
      exact ih hagrees.2 v'

/-- The fields at the front of a readable string agree. -/
theorem Readable.front {before : RawField → Prop} {fs : List RawField} {b : List UInt8}
    (h : Readable s (flat fs ++ b) before) (hfs : ∀ f ∈ fs, before f) :
    ∀ f ∈ fs, Agrees s f.number f.wireType := by
  intro f hf
  obtain ⟨gs, hs, rfl⟩ := append_of_mem hf
  refine h.agrees gs _ _ f.tag (f.value ++ (flat hs ++ b))
    (fun g hg => hfs g (mem_append_left _ hg)) f.isTag ?_
  simp only [flat_append, flat_cons, RawField.bytes, append_assoc]

/-- A value that is cut short cannot be read; a float is only passed over. -/
theorem Kind.read_cut {k : Kind} {b more c : List UInt8} (h : IsValue k.wireType (b ++ more) c)
    (hmore : more ≠ []) (hfloat : k = .float → 4 ≤ b.length) : ∃ e, k.read b = .error e := by
  have hpos := length_pos_iff.mpr hmore
  generalize hv : b ++ more = v at h
  cases k with
  | varint =>
    cases h with
    | varint h =>
      obtain ⟨e, he⟩ := readVarint_of_cut (by rwa [hv]) hmore
      exact ⟨e, by rw [Kind.read_varint, he]; rfl⟩
  | bytes =>
    cases h with
    | bytes h hl =>
      obtain ⟨e, he⟩ := readLengthDelimited_of_cut h hl hv.symm hmore
      exact ⟨e, by rw [Kind.read_bytes, he]; rfl⟩
  | float =>
    cases h with
    | fixed32 h =>
      have hlen := congrArg List.length hv
      rw [length_append] at hlen
      have h4 := hfloat rfl
      omega

theorem cut_cases (h : f.bytes = tail ++ more) :
    (∃ b, tail = f.tag ++ b ∧ f.value = b ++ more) ∨ ∃ t, t ≠ [] ∧ f.tag = tail ++ t := by
  rcases append_eq_append_iff.mp h with ⟨b, htail, hvalue⟩ | ⟨t, htag, hmore⟩
  · exact .inl ⟨b, htail, hvalue⟩
  · by_cases ht : t = []
    · subst ht
      exact .inl ⟨[], by rw [htag, append_nil, append_nil], hmore.symm⟩
    · exact .inr ⟨t, ht, htag⟩

theorem round_cut (hsplit : f.bytes = tail ++ more) (hmore : more ≠ [])
    (hagrees : ∀ b, tail = f.tag ++ b → Agrees s f.number f.wireType)
    (hfloat : ∀ b, tail = f.tag ++ b → kindOf s f.number = some .float → 4 ≤ b.length)
    (v : Value s) : ∃ e, round s v tail = .error e := by
  rcases cut_cases hsplit with ⟨b, rfl, hvalue⟩ | ⟨t, ht, htag⟩
  · have hval : IsValue f.wireType (b ++ more) f.content := hvalue ▸ f.isValue
    cases hfind : find s f.number with
    | none =>
      obtain ⟨e, he⟩ := skipField_of_cut hval hmore
      exact ⟨e, by rw [round_unknown f.isTag hfind, he]; rfl⟩
    | some p =>
      obtain ⟨g, i⟩ := p
      have hkind := kindOf_of_find hfind
      have hw : g.kind.wireType = f.wireType := hagrees b rfl g.kind hkind
      obtain ⟨e, he⟩ := Kind.read_cut (hw ▸ hval) hmore fun hg =>
        hfloat b rfl (hkind.trans (congrArg some hg))
      exact ⟨e, round_known_error f.isTag hfind v he⟩
  · obtain ⟨e, he⟩ := readTag_of_cut (htag ▸ f.isTag) ht
    exact ⟨e, by unfold round; rw [he]; rfl⟩

/-- A readable string that ends inside a field is an error. -/
theorem error_of_cut {before : RawField → Prop} {fs : List RawField}
    (hb : Readable s (flat fs ++ tail) before) (hfs : ∀ f ∈ fs, before f)
    (hsplit : f.bytes = tail ++ more) (htail : tail ≠ []) (hmore : more ≠ []) (v : Value s) :
    (decodeFrom s v (flat fs ++ tail)).error ≠ none := by
  refine error_of_error_behind (hb.front hfs) (fun v => ?_) v
  obtain ⟨e, he⟩ := round_cut hsplit hmore
    (fun b htail => hb.agrees fs _ _ f.tag b hfs f.isTag (by rw [htail]))
    (fun b htail => hb.float fs _ _ f.tag b hfs f.isTag (by rw [htail])) v
  rw [decodeFrom_of_error htail he]
  exact some_ne_none e

end readable

/-! ### Messages in messages -/

theorem isMessage_cases {m : Message} {n : ℕ} (h : isMessage m.schema n = true) :
    m = .banList ∨ m = .userState ∨ m = .voiceTarget := by
  have hplain : ∀ s : Schema, s.Forall (fun f => f.message = false) → isMessage s n = false := by
    intro s hs
    unfold isMessage
    cases hfind : find s n with
    | none => rfl
    | some p => exact forall_iff_forall_mem.mp hs p.1 p.2.field_mem
  by_contra hm
  have hfalse : isMessage m.schema n = false := by
    apply hplain
    cases m <;> first
      | exact absurd rfl (fun h => hm (.inl h))
      | exact absurd rfl (fun h => hm (.inr (.inl h)))
      | exact absurd rfl (fun h => hm (.inr (.inr h)))
      | (repeat' apply And.intro) <;> first
        | rfl
        | trivial
  rw [h] at hfalse
  cases hfalse

theorem isMessage_voiceTarget {n : ℕ} (h : isMessage voiceTarget n = true) :
    find voiceTarget n = some ⟨nested 2 voiceTargetTarget true true, .there .here⟩ := by
  unfold isMessage at h
  unfold voiceTarget find at *
  split_ifs at h ⊢
  · simp at h
  · unfold find at *
    split_ifs at h ⊢
    · rfl
    · simp [find] at h

/-- A field whose reads are no errors. -/
def Field.Stores (f : Field) : Prop := ∀ raw c, ∃ c', f.store raw c = .ok c'

theorem stores_nested (n : ℕ) (sub : Schema) (sparse : Bool) :
    (nested n sub false sparse).Stores := by
  intro raw c
  show ∃ c', storeNested sub false raw c = .ok c'
  unfold storeNested
  cases (decode sub raw).error <;> exact ⟨_, rfl⟩

theorem judges_of_stores {s : Schema} {ok : ℕ → List UInt8 → Prop} (hs : s.Forall Field.Stores)
    (hok : ∀ n content, ok n content) : Judges s ok where
  known n _ i _ content c := iff_of_true
    (forall_iff_forall_mem.mp hs _ i.field_mem _ c) (hok n content)
  unknown n content _ := hok n content

theorem judges_target : Judges voiceTargetTarget fun _ _ => True := by
  refine judges_of_stores ?_ fun _ _ => trivial
  (repeat' apply And.intro) <;> exact fun _ _ => ⟨_, rfl⟩

theorem storeNested_ok_iff (content : List UInt8) (c : List (Value voiceTargetTarget)) :
    (∃ c', storeNested voiceTargetTarget true content c = .ok c') ↔
      Complete voiceTargetTarget (fun _ _ => True) content := by
  rw [← decodeFrom_error_iff judges_target (zero voiceTargetTarget), ← decode]
  unfold storeNested
  cases (decode voiceTargetTarget content).error <;> simp

theorem judges_voiceTarget : Judges voiceTarget (acceptedContent .voiceTarget) where
  known n f i hf content c := by
    unfold voiceTarget find at hf
    split_ifs at hf with h1
    · obtain rfl : 1 = n := Option.some.inj h1
      cases hf
      exact iff_of_true ⟨_, rfl⟩ fun _ h => absurd h (by decide)
    · unfold find at hf
      split_ifs at hf with h2
      · obtain rfl : 2 = n := Option.some.inj h2
        cases hf
        exact (storeNested_ok_iff content c).trans ⟨fun h _ _ => h, fun h => h rfl rfl⟩
      · cases hf
  unknown n content hf _ hn := by
    subst hn
    cases hf

/-- The rounds of each message fail on what is not accepted. -/
theorem judges (m : Message) : Judges m.schema (acceptedContent m) := by
  by_cases hm : m = .voiceTarget
  · subst hm
    exact judges_voiceTarget
  · refine judges_of_stores ?_ fun n content h => absurd h hm
    cases m <;> first
      | exact absurd rfl hm
      | (repeat' apply And.intro) <;> first
        | exact stores_nested _ _ _
        | exact fun _ _ => ⟨_, rfl⟩
        | trivial

/-- What `Unmarshal` accepts. -/
theorem unmarshal_error_iff (m : Message) (b : List UInt8) :
    (m.unmarshal b).error = none ↔ Accepted m b := by
  unfold Message.unmarshal Accepted
  split_ifs with hm
  · simp [hm]
  · rw [decode, or_iff_right hm]
    exact decodeFrom_error_iff (judges m) (zero m.schema) b

theorem round_target (hw : f.wireType = 2) (hn : isMessage voiceTarget f.number = true)
    (herr : (decode voiceTargetTarget f.content).error ≠ none) (v : Value voiceTarget)
    (rest : List UInt8) : ∃ e, round voiceTarget v (f.bytes ++ rest) = .error e := by
  obtain ⟨e, he⟩ := ne_none_iff_exists'.mp herr
  have hread : Kind.bytes.read (f.value ++ rest) = .ok (some f.content, rest) := by
    have hvalue := f.isValue
    rw [hw] at hvalue
    generalize f.value = value, f.content = content at hvalue
    cases hvalue with
    | bytes h hl => rw [Kind.read_bytes, readLengthDelimited_of_isValue h hl]; rfl
  have hstore : ∀ c, storeNested voiceTargetTarget true f.content c = .error e := by
    intro c
    unfold storeNested
    rw [he]
    rfl
  refine ⟨e, ?_⟩
  rw [RawField.bytes, append_assoc]
  refine (round_known f.isTag (isMessage_voiceTarget hn) v hread).trans ?_
  simp only [hstore, Except.map]

/-- A damaged target behind fields that agree is an error. -/
theorem error_of_target {fs : List RawField} {rest : List UInt8}
    (hfs : ∀ g ∈ fs, Agrees voiceTarget g.number g.wireType) (hf : CutInside .voiceTarget f)
    (hread : Readable voiceTargetTarget f.content fun _ => True) (v : Value voiceTarget) :
    (decodeFrom voiceTarget v (flat fs ++ (f.bytes ++ rest))).error ≠ none := by
  obtain ⟨hw, hn, gs, g, tail, more, hcontent, hsplit, htail, hmore⟩ := hf
  have herr : (decode voiceTargetTarget f.content).error ≠ none := by
    rw [hcontent] at hread ⊢
    exact error_of_cut hread (fun _ _ => trivial) hsplit htail hmore _
  refine error_of_error_behind hfs (fun v => ?_) v
  obtain ⟨e, he⟩ := round_target hw hn herr v rest
  rw [decodeFrom_of_error (f.bytes_append_ne_nil rest) he]
  exact some_ne_none e

/-- Of fields among which one has a property, there is a first. -/
theorem exists_first {p : RawField → Prop} {fs : List RawField} (h : ∃ f ∈ fs, p f) :
    ∃ gs f hs, fs = gs ++ f :: hs ∧ p f ∧ ∀ g ∈ gs, ¬p g := by
  induction fs with
  | nil => simp at h
  | cons g fs ih =>
    by_cases hg : p g
    · exact ⟨[], g, fs, rfl, hg, by simp⟩
    · obtain ⟨gs, f, hs, rfl, hf, hgs⟩ := ih (by simpa [hg] using h)
      exact ⟨g :: gs, f, hs, rfl, hf, by simpa [hg] using hgs⟩

theorem error_of_inOrder {m : Message} {b : List UInt8} (hb : InOrder m b) (hd : Damaged m b) :
    (m.unmarshal b).error ≠ none := by
  unfold Message.unmarshal
  rw [if_neg hb.notStub]
  -- the first damaged target of a voice target is found
  have htarget : ∀ (fs : List RawField) (rest : List UInt8), b = flat fs ++ rest →
      m = .voiceTarget → (∃ f ∈ fs, CutInside m f) → (decode m.schema b).error ≠ none := by
    rintro fs rest rfl rfl hex
    obtain ⟨gs, f, hs, rfl, hf, hgs⟩ := exists_first hex
    have hsplit : flat (gs ++ f :: hs) ++ rest = flat gs ++ (f.bytes ++ (flat hs ++ rest)) := by
      simp only [flat_append, flat_cons, append_assoc]
    have hread := hb.readable
    rw [hsplit] at hread ⊢
    exact error_of_target (hread.front fun g hg _ => hgs g hg) hf
      (hb.strict rfl gs f _ hgs hsplit hf) _
  rcases Classical.em (Cut b) with hcut | hcut
  · obtain ⟨fs, f, tail, more, rfl, hsplit, htail, hmore⟩ := hcut
    by_cases hex : m = .voiceTarget ∧ ∃ g ∈ fs, CutInside m g
    · exact htarget fs tail rfl hex.1 hex.2
    · refine error_of_cut hb.readable (fun g hg hm hin => hex ⟨hm, g, hg, hin⟩) hsplit htail hmore _
  · obtain ⟨f, hcontains, hin⟩ := hd.resolve_left hcut
    rcases isMessage_cases hin.2.1 with hm | hm | hm
    · exact absurd hin (hb.lenient (.inl hm) hcut f hcontains)
    · exact absurd hin (hb.lenient (.inr hm) hcut f hcontains)
    · obtain ⟨fs, rest, heq⟩ := hcontains
      refine htarget (fs ++ [f]) rest ?_ hm ⟨f, by simp, hin⟩
      rw [heq, flat_append, flat_cons, append_assoc, append_assoc]
      rfl

/-- **Which damage is found.**  `Unmarshal` fails on a damaged string exactly if the string is not
complete in the way the message takes its fields, as is every damaged string that is in order. -/
theorem damaged_rejected (m : Message) (b : List UInt8) (hd : Damaged m b) :
    ((m.unmarshal b).error ≠ none ↔ ¬Accepted m b) ∧ (InOrder m b → ¬Accepted m b) := by
  have hiff : (m.unmarshal b).error ≠ none ↔ ¬Accepted m b := not_congr (unmarshal_error_iff m b)
  exact ⟨hiff, fun hb => hiff.mp (error_of_inOrder hb hd)⟩

/-- A field to be cut: number 16, a varint, with a tag of two bytes. -/
def cutField : RawField :=
  ⟨16, 0, [0x80, 0x01], [0x00], [0x00], ⟨by decide, by decide, by decide⟩, .varint (by decide)⟩

theorem cut_tag : Cut [0x80] :=
  ⟨[], cutField, [0x80], [0x01, 0x00], rfl, rfl, by decide, by decide⟩

theorem not_begins_cut_tag {n w : ℕ} {fs : List RawField} {tag rest : List UInt8}
    (htag : IsTag n w tag) : [0x80] ≠ flat fs ++ (tag ++ rest) := by
  intro h
  have hlen := congrArg List.length h
  have hpos := length_pos_iff.mpr htag.1.ne_nil
  simp only [length_append, length_cons, length_nil] at hlen
  have hflat : flat fs = [] := length_eq_zero_iff.mp (by omega)
  have hrest : rest = [] := length_eq_zero_iff.mp (by omega)
  rw [hflat, hrest, nil_append, append_nil] at h
  exact absurd (h ▸ htag.1) (by decide)

theorem readable_cut_tag (s : Schema) (before : RawField → Prop) : Readable s [0x80] before :=
  ⟨fun _ _ _ _ _ _ htag h => absurd h (not_begins_cut_tag htag),
    fun _ _ _ _ _ _ htag h => absurd h (not_begins_cut_tag htag)⟩

/-- A voice target whose first target ends inside a tag, with a field of another wire type behind
it. -/
def cutTarget : List UInt8 := [0x12, 0x01, 0x80, 0x0A, 0x00]

theorem cutTarget_tag {n w : ℕ} {tag rest : List UInt8} (htag : IsTag n w tag)
    (h : cutTarget = tag ++ rest) : n = 2 ∧ w = 2 ∧ rest = [0x01, 0x80, 0x0A, 0x00] := by
  have hread : readTag cutTarget = .ok ((2, 2), [0x01, 0x80, 0x0A, 0x00]) := rfl
  rw [h, readTag_of_isTag htag] at hread
  simpa [and_assoc] using Except.ok.inj hread

theorem cutTarget_first {f : RawField} {rest : List UInt8} (h : cutTarget = f.bytes ++ rest) :
    CutInside .voiceTarget f ∧ f.content = [0x80] := by
  rw [RawField.bytes, append_assoc] at h
  obtain ⟨hn, hw, hvalue⟩ := cutTarget_tag f.isTag h
  have hval := f.isValue
  have hcontent : f.content = [0x80] := by
    rw [hw] at hval
    generalize f.value = value, f.content = content at hval hvalue
    cases hval with
    | bytes hl hlen =>
      have hread := readLengthDelimited_of_isValue hl hlen rest
      rw [hvalue] at hread
      exact (Prod.mk.inj (Except.ok.inj hread)).1.symm
  exact ⟨⟨hw, by rw [hn]; rfl, hcontent ▸ cut_tag⟩, hcontent⟩

theorem cutTarget_front {fs : List RawField} {rest : List UInt8} (h : cutTarget = flat fs ++ rest)
    (hfs : ∀ f ∈ fs, ¬CutInside .voiceTarget f) : fs = [] := by
  cases fs with
  | nil => rfl
  | cons f fs =>
    rw [flat_cons, append_assoc] at h
    exact absurd (cutTarget_first h).1 (hfs f mem_cons_self)

theorem inOrder_cutTarget : InOrder .voiceTarget cutTarget where
  notStub := by decide
  readable := by
    constructor
    · intro fs n w tag rest hfs htag h
      obtain rfl := cutTarget_front h fun f hf => hfs f hf rfl
      obtain ⟨rfl, rfl, -⟩ := cutTarget_tag htag h
      exact show Agrees voiceTarget 2 2 by decide
    · intro fs n w tag rest hfs htag h hfloat
      obtain rfl := cutTarget_front h fun f hf => hfs f hf rfl
      obtain ⟨rfl, -, -⟩ := cutTarget_tag htag h
      exact absurd hfloat (show kindOf voiceTarget 2 ≠ some .float by decide)
  lenient h := absurd h (by decide)
  strict _ fs f rest hfs h _ := by
    obtain rfl := cutTarget_front h hfs
    rw [(cutTarget_first h).2]
    exact readable_cut_tag _ _

/-- The voice target is rejected for its first target. -/
theorem damaged_rejected_target : (Message.voiceTarget.unmarshal cutTarget).error ≠ none := by
  have hd : Damaged .voiceTarget cutTarget := by
    refine .inr ⟨⟨2, 2, [0x12], [0x01, 0x80], [0x80], ⟨by decide, by decide, by decide⟩,
      .bytes (l := [0x01]) (by decide) (by decide)⟩, ⟨[], [0x0A, 0x00], rfl⟩, rfl, rfl, cut_tag⟩
  obtain ⟨hiff, hinOrder⟩ := damaged_rejected .voiceTarget cutTarget hd
  exact hiff.mpr (hinOrder inOrder_cutTarget)

def floatField : RawField :=
  ⟨8, 5, [0x45], [0, 0, 0, 0], [0, 0, 0, 0], ⟨by decide, by decide, by decide⟩, .fixed32 rfl⟩

def fixedSession : RawField :=
  ⟨1, 5, [0x0D], [0, 0, 0, 0], [0, 0, 0, 0], ⟨by decide, by decide, by decide⟩, .fixed32 rfl⟩

theorem isValue_cut : IsValue 2 [0x01, 0x80] [0x80] :=
  .bytes (show IsVarint [0x01] by decide)
    (show varintVal [0x01] % 2 ^ 64 = [(0x80 : UInt8)].length by decide)

theorem isTag_cut : IsTag 1 2 [0x0A] := ⟨by decide, by decide, by decide⟩

/-- A ban entry that ends inside a tag. -/
def cutBan : RawField :=
  ⟨1, 2, [0x0A], [0x01, 0x80], [0x80], isTag_cut, isValue_cut⟩

/-- A volume adjustment that ends inside a tag. -/
def cutVolume : RawField :=
  ⟨23, 2, [0xBA, 0x01], [0x01, 0x80], [0x80], ⟨by decide, by decide, by decide⟩, isValue_cut⟩

/-- Damaged strings that are accepted: the tag of a float without its value, a ban entry and a
volume adjustment that end inside a tag, a session with another wire type, and anything as a user
list. -/
theorem damaged_accepted :
    (Damaged .ping [0x45] ∧ (Message.ping.unmarshal [0x45]).error = none) ∧
    (Damaged .banList [0x0A, 0x01, 0x80] ∧
      (Message.banList.unmarshal [0x0A, 0x01, 0x80]).error = none) ∧
    (Damaged .userState [0xBA, 0x01, 0x01, 0x80] ∧
      (Message.userState.unmarshal [0xBA, 0x01, 0x01, 0x80]).error = none) ∧
    (Damaged .userRemove [0x0D, 0x00] ∧ (Message.userRemove.unmarshal [0x0D, 0x00]).error = none) ∧
    Damaged .userList [0x80] ∧ (Message.userList.unmarshal [0x80]).error = none :=
  ⟨⟨.inl ⟨[], floatField, [0x45], [0, 0, 0, 0], rfl, rfl, by decide, by decide⟩, rfl⟩,
    ⟨.inr ⟨cutBan, ⟨[], [], rfl⟩, rfl, rfl, cut_tag⟩, rfl⟩,
    ⟨.inr ⟨cutVolume, ⟨[], [], rfl⟩, rfl, rfl, cut_tag⟩, rfl⟩,
    ⟨.inl ⟨[], fixedSession, [0x0D, 0x00], [0, 0, 0], rfl, rfl, by decide, by decide⟩, rfl⟩,
    .inl cut_tag, rfl⟩

end MumbleServer.Codec
