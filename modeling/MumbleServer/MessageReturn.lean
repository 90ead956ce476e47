import MumbleServer.ControlMessages

/-! # The round trip of control messages

Which values come back from the wire as they were sent.  For most kinds of fields all values do;
the exceptions are the negative zero, which is taken for the default and left out, a true
`InheritACLs`, which is left out although the default is false, the elements of a list that write
nothing, and the bits that are not on the wire. -/

namespace MumbleServer.Codec

open List Except SingleFloat
open Wire
variable {m : Message} {α β : Type}

/-! ### Field by field -/

section fields
variable (n : ℕ) (t : Scalar)

/-- A field that is written once or not at all. -/
theorem foldlM_once {f : α → β} {zero c : β} {raw : α} {p : Bool} (hset : p = true → f raw = c)
    (hunset : p = false → zero = c) :
    (if p then [raw] else []).foldlM (fun _ raw => (.ok (f raw) : Except WireError β)) zero =
      .ok c := by
  cases p with
  | false => exact congrArg ok (hunset rfl)
  | true => exact congrArg ok (hset rfl)

theorem back_scalar (always : Bool) (c : t.Carrier) : (scalar n t always).back c = .ok c := by
  rw [Field.back_of_number rfl]
  refine foldlM_once (fun _ => t.dec_enc c) fun h => ?_
  simp only [Bool.or_eq_false_iff, decide_eq_false_iff_not, not_not] at h
  exact h.2.symm

section
variable {c : Bool × t.Carrier} (hc : c.1 = false → c.2 = t.zero)
include hc

theorem back_flagged : (flagged n t).back c = .ok c := by
  rw [Field.back_of_number rfl]
  obtain ⟨_ | _, c⟩ := c
  · obtain rfl : c = t.zero := hc rfl
    exact foldlM_once (by simp) fun _ => rfl
  · exact congrArg (fun c => ok (true, c)) (t.dec_enc c)

theorem back_optional : (optional n t).back c = .ok c := by
  rw [Field.back_of_number rfl]
  exact foldlM_once (fun hset => Prod.ext (Eq.symm hset) (t.dec_enc c.2))
    fun hunset => Prod.ext (Eq.symm hunset) (hc hunset).symm

end

theorem back_negative (c : Bool) : (negative n).back c = .ok c ↔ c = false := by
  cases c with
  | false => exact iff_of_true rfl rfl
  | true => exact iff_of_false (fun h => Bool.false_ne_true (ok.inj h)) (by decide)

theorem foldlM_append (f : α → β) (acc : List β) (l : List α) :
    l.foldlM (fun acc raw => (.ok (acc ++ [f raw]) : Except WireError (List β))) acc =
      .ok (acc ++ l.map f) := by
  induction l generalizing acc with
  | nil => simp [pure, Except.pure]
  | cons a l ih =>
    rw [foldlM_cons]
    refine (ih (acc ++ [f a])).trans ?_
    simp

theorem back_repeated (c : List t.Carrier) : (repeated n t).back c = .ok c := by
  rw [Field.back_of_number rfl]
  have hid : t.dec ∘ t.enc = id := funext t.dec_enc
  refine (foldlM_append t.dec [] (c.map t.enc)).trans ?_
  simp [hid]

theorem back_repeatedBytes (c : List (List UInt8)) : (repeatedBytes n).back c = .ok c := by
  rw [Field.back_of_number rfl]
  refine (foldlM_append id [] c).trans ?_
  simp

theorem back_bytes (always : Bool) (c : List UInt8) : (bytes n always).back c = .ok c := by
  rw [Field.back_of_number rfl]
  refine foldlM_once (fun _ => rfl) fun h => ?_
  simp only [Bool.or_eq_false_iff, decide_eq_false_iff_not, not_not] at h
  exact h.2.symm

theorem back_flaggedBytes {c : Bool × List UInt8} (hc : c.1 = false → c.2 = []) :
    (flaggedBytes n).back c = .ok c := by
  rw [Field.back_of_number rfl]
  obtain ⟨_ | _, c⟩ := c
  · obtain rfl : c = [] := hc rfl
    rfl
  · rfl

theorem back_nilable (c : Option (List UInt8)) :
    (nilable n).back c = .ok ((nilable n).canon c) := by
  rw [Field.back_of_number rfl]
  cases c with
  | none => rfl
  | some b =>
    show ok (if b = [] then none else some b) = ok (if some b = some [] then none else some b)
    simp only [Option.some.injEq]

theorem magnitude_eq_zero_iff (c : UInt32) : magnitude c = 0 ↔ c = 0 ∨ c = 0x80000000 := by
  have hlt := c.toNat_lt
  rw [← UInt32.toNat_inj, ← UInt32.toNat_inj, magnitude]
  simp only [UInt32.toNat_zero, show (0x80000000 : UInt32).toNat = 2147483648 from rfl]
  omega

theorem back_float (c : UInt32) : (float n).back c = .ok c ↔ c ≠ 0x80000000 := by
  rw [Field.back_of_number rfl]
  show List.foldlM (fun _ raw => ok raw) 0 (if magnitude c = 0 then [] else [c]) = .ok c ↔ _
  by_cases h : magnitude c = 0
  · rw [if_pos h]
    show ok 0 = ok c ↔ _
    rcases (magnitude_eq_zero_iff c).mp h with rfl | rfl
    · exact iff_of_true rfl (by decide)
    · exact iff_of_false (fun h => absurd (ok.inj h) (by decide)) (by simp)
  · rw [if_neg h]
    refine iff_of_true rfl ?_
    rintro rfl
    exact h (by decide)

theorem back_hidden (c : UInt32) : hidden.back c = .ok c ↔ c = 0 := by
  rw [Field.back_of_none rfl]
  exact ⟨fun h => (ok.inj h).symm, fun h => congrArg ok h.symm⟩

end fields

/-! ### Messages in messages -/

section nested
variable {sub : Schema}

theorem result_eq_ok {d : Decoded sub} {v : Value sub} :
    d.result = .ok v ↔ d.error = none ∧ d.value = v := by
  unfold Decoded.result
  cases d.error <;> simp

theorem foldlM_storeNested {strict : Bool} {raws : List (List UInt8)}
    (h : ∀ raw ∈ raws, (decode sub raw).error = none) (acc : List (Value sub)) :
    raws.foldlM (fun acc raw => storeNested sub strict raw acc) acc =
      .ok (acc ++ raws.map fun raw => (decode sub raw).value) := by
  induction raws generalizing acc with
  | nil => simp [pure, Except.pure]
  | cons raw raws ih =>
    rw [forall_mem_cons] at h
    have hstore : storeNested sub strict raw acc = .ok (acc ++ [(decode sub raw).value]) := by
      unfold storeNested
      rw [h.1]
    rw [foldlM_cons, hstore]
    refine (ih h.2 (acc ++ [(decode sub raw).value])).trans ?_
    simp

theorem map_filter_eq_map_iff {p : α → Bool} {f g : α → β} {l : List α} :
    (l.filter p).map f = l.map g ↔ ∀ a ∈ l, p a = true ∧ f a = g a := by
  constructor
  · intro h
    have hlen : (l.filter p).length = l.length := by
      rw [← length_map f, h, length_map]
    have hall := length_filter_eq_length_iff.mp hlen
    rw [filter_eq_self.mpr hall] at h
    exact fun a ha => ⟨hall a ha, map_inj_left.mp h a ha⟩
  · intro h
    rw [filter_eq_self.mpr fun a ha => (h a ha).1]
    exact map_congr_left fun a ha => (h a ha).2

/-- A list of messages comes back if each of them is written and comes back. -/
theorem back_nested (hsub : WellNumbered sub) (n : ℕ) (strict sparse : Bool)
    {c : List (Value sub)} (hfit : ∀ v ∈ c, (marshal sub v).length < 2 ^ 64)
    (hok : ∀ v ∈ c, ∃ v', returned sub v = .ok v') :
    (nested n sub strict sparse).back c = .ok ((nested n sub strict sparse).canon c) ↔
      ∀ v ∈ c, (sparse = true → marshal sub v ≠ []) ∧ returned sub v = .ok (canon sub v) := by
  have hres : ∀ v ∈ c, (decode sub (marshal sub v)).result = returned sub v :=
    fun v hv => result_marshal hsub v (hfit v hv)
  have herr : ∀ v ∈ c, (decode sub (marshal sub v)).error = none := by
    intro v hv
    obtain ⟨v', hv'⟩ := hok v hv
    exact (result_eq_ok.mp ((hres v hv).trans hv')).1
  have hback : (nested n sub strict sparse).back c =
      .ok ((c.filter fun v => !sparse || decide (marshal sub v ≠ [])).map fun v =>
        (decode sub (marshal sub v)).value) := by
    rw [Field.back_of_number rfl]
    have hput : (nested n sub strict sparse).put c =
        (c.filter fun v => !sparse || decide (marshal sub v ≠ [])).map (marshal sub) := by
      show (c.map (marshal sub)).filter _ = _
      rw [filter_map]
      rfl
    rw [hput]
    refine (foldlM_storeNested ?_ []).trans ?_
    · intro raw hraw
      obtain ⟨v, hv, rfl⟩ := mem_map.mp hraw
      exact herr v (mem_of_mem_filter hv)
    · rw [nil_append, map_map]
      rfl
  rw [hback, ok.injEq, map_filter_eq_map_iff]
  refine forall₂_congr fun v hv => and_congr ?_ ?_
  · cases sparse <;> simp
  · rw [← hres v hv, result_eq_ok]
    exact (and_iff_right (herr v hv)).symm

theorem length_le_of_mem {f : Field} {n : ℕ} (hn : f.number = some n) {c : f.Carrier}
    {raw : f.kind.Raw} (h : raw ∈ f.put c) : (f.kind.write raw).length ≤ (f.write c).length := by
  unfold Field.write
  rw [hn]
  obtain ⟨pre, post, hsplit⟩ := append_of_mem h
  simp only [hsplit, flatMap_append, flatMap_cons, length_append]
  omega

end nested

/-! ### Whole messages -/

/-- Every field comes back. -/
def Returning : (s : Schema) → Value s → Prop
  | [], _ => True
  | f :: s, v => f.back v.1 = .ok (f.canon v.1) ∧ Returning s v.2

theorem returned_eq_canon_iff (s : Schema) (v : Value s) :
    returned s v = .ok (canon s v) ↔ Returning s v := by
  induction s with
  | nil => exact iff_of_true rfl trivial
  | cons f s ih =>
    rw [returned_cons]
    exact and_congr Iff.rfl (ih v.2)

def negativeZero : UInt32 := 0x80000000

/-- The values that come back: no negative zero, no inherited access lists, no target without
content, and no presence bit without a field. -/
def Comes : (m : Message) → Value m.schema → Prop
  | .ping, (_, _, _, _, _, _, _, udpAvg, udpVar, tcpAvg, tcpVar, _) =>
    udpAvg ≠ negativeZero ∧ udpVar ≠ negativeZero ∧ tcpAvg ≠ negativeZero ∧
      tcpVar ≠ negativeZero
  | .acl, (_, inheritACLs, _) => inheritACLs = false
  | .voiceTarget, (_, targets, _) => ∀ t ∈ targets, t ≠ zero voiceTargetTarget
  | .userState, (_, _, _, _, _, _, _, _, _, _, _, _, _, _, _, _, _, _, _, _, _, _, volumes, bits, _) =>
    (∀ v ∈ volumes, v.2.1 ≠ negativeZero) ∧ bits = 0
  | _, _ => True

/-- A field whose values in normal form all come back. -/
def Field.Sound (f : Field) : Prop := ∀ c, f.normal c → f.back c = .ok (f.canon c)

section sound
variable (n : ℕ) (t : Scalar)

theorem sound_scalar (always : Bool) : (scalar n t always).Sound :=
  fun c _ => back_scalar n t always c

theorem sound_flagged : (flagged n t).Sound := fun _ h => back_flagged n t h

theorem sound_optional : (optional n t).Sound := fun _ h => back_optional n t h

theorem sound_repeated : (repeated n t).Sound := fun c _ => back_repeated n t c

theorem sound_bytes (always : Bool) : (bytes n always).Sound := fun c _ => back_bytes n always c

theorem sound_flaggedBytes : (flaggedBytes n).Sound := fun _ h => back_flaggedBytes n h

theorem sound_nilable : (nilable n).Sound := fun c _ => back_nilable n c

theorem sound_repeatedBytes : (repeatedBytes n).Sound := fun c _ => back_repeatedBytes n c

end sound

theorem returning_of_sound {s : Schema} (hs : s.Forall Field.Sound) {v : Value s}
    (hv : Normal s v) : Returning s v := by
  induction s with
  | nil => trivial
  | cons f s ih =>
    rw [forall_cons] at hs
    exact ⟨hs.1 v.1 hv.1, ih hs.2 hv.2⟩

/-- The components after the first `k`. -/
def rest : (k : ℕ) → (s : Schema) → Value s → Value (s.drop k)
  | 0, _, v => v
  | _ + 1, [], v => v
  | k + 1, _ :: s, v => rest k s v.2

theorem returning_iff_rest {k : ℕ} {s : Schema} (hs : (s.take k).Forall Field.Sound) {v : Value s}
    (hv : Normal s v) : Returning s v ↔ Returning (s.drop k) (rest k s v) := by
  induction k generalizing s with
  | zero => exact Iff.rfl
  | succ k ih =>
    cases s with
    | nil => exact Iff.rfl
    | cons f s =>
      rw [take_succ_cons, forall_cons] at hs
      exact (and_iff_right (hs.1 v.1 hv.1)).trans (ih hs.2 hv.2)

theorem wellNumbered (m : Message) : WellNumbered m.schema := by
  cases m <;> exact ⟨by decide, by decide⟩

/-- The messages with sound fields only. -/
def Message.plain (m : Message) : Bool :=
  m ∉ [Message.ping, .acl, .voiceTarget, .userState, .banList]

theorem sound_plain (h : m.plain = true) : m.schema.Forall Field.Sound := by
  cases m <;> first
    | exact absurd h (by decide)
    | (repeat' apply And.intro) <;> first
      | exact sound_scalar _ _ _
      | exact sound_bytes _ _
      | exact sound_repeated _ _
      | exact sound_flagged _ _
      | exact sound_optional _ _
      | exact sound_flaggedBytes _
      | exact sound_repeatedBytes _
      | exact sound_nilable _
      | trivial

theorem sound_userState : (userState.take 22).Forall Field.Sound := by
  (repeat' apply And.intro) <;> first
    | exact sound_flagged _ _
    | exact sound_flaggedBytes _
    | exact sound_repeatedBytes _
    | exact sound_repeated _ _

section special

theorem returning_ping {v : Value ping} (hv : Normal ping v) :
    Returning ping v ↔ Comes .ping v := by
  have hs : (ping.take 7).Forall Field.Sound :=
    ⟨sound_scalar _ _ _, sound_scalar _ _ _, sound_scalar _ _ _, sound_scalar _ _ _,
      sound_scalar _ _ _, sound_scalar _ _ _, sound_scalar _ _ _⟩
  rw [returning_iff_rest hs hv]
  obtain ⟨_, _, _, _, _, _, _, a, b, c, d, _⟩ := v
  exact and_congr (back_float 8 a) (and_congr (back_float 9 b)
    (and_congr (back_float 10 c) ((and_iff_left trivial).trans (back_float 11 d))))

theorem returning_acl {v : Value acl} : Returning acl v ↔ Comes .acl v := by
  obtain ⟨a, b, c, _⟩ := v
  have ha := back_scalar 1 .uint32 true a
  have hc := back_scalar 5 .bool false c
  exact (and_iff_right ha).trans ((and_iff_left ⟨hc, trivial⟩).trans (back_negative 2 b))

theorem sound_voiceTargetTarget : voiceTargetTarget.Forall Field.Sound :=
  ⟨sound_repeated _ _, sound_flagged _ _, sound_bytes _ _, sound_scalar _ _ _, sound_scalar _ _ _⟩

theorem sound_banEntry : banEntry.Forall Field.Sound :=
  ⟨sound_bytes _ _, sound_scalar _ _ _, sound_bytes _ _, sound_bytes _ _, sound_bytes _ _,
    sound_bytes _ _, sound_scalar _ _ _⟩

theorem wellNumbered_voiceTargetTarget : WellNumbered voiceTargetTarget := ⟨by decide, by decide⟩

theorem wellNumbered_banEntry : WellNumbered banEntry := ⟨by decide, by decide⟩

theorem wellNumbered_volumeAdjustment : WellNumbered volumeAdjustment := ⟨by decide, by decide⟩

theorem marshal_voiceTargetTarget_eq_nil {v : Value voiceTargetTarget}
    (hv : Normal voiceTargetTarget v) :
    marshal voiceTargetTarget v = [] ↔ v = zero voiceTargetTarget := by
  constructor
  · intro h
    have hret := (returned_eq_canon_iff _ v).mpr (returning_of_sound sound_voiceTargetTarget hv)
    have hres := result_marshal wellNumbered_voiceTargetTarget v (by rw [h]; decide)
    rw [h, hret] at hres
    exact (ok.inj hres).symm
  · rintro rfl
    rfl

section
variable (v : Value volumeAdjustment)
include v

theorem returning_volumeAdjustment : Returning volumeAdjustment v ↔ v.2.1 ≠ negativeZero := by
  have hchannel := back_scalar 1 .uint32 true v.1
  exact (and_iff_right hchannel).trans ((and_iff_left trivial).trans (back_float 2 v.2.1))

theorem exists_returned_volumeAdjustment : ∃ v', returned volumeAdjustment v = .ok v' := by
  have hchannel := back_scalar 1 .uint32 true v.1
  have hvolume : (float 2).back v.2.1 = .ok (if magnitude v.2.1 = 0 then 0 else v.2.1) := by
    rw [Field.back_of_number rfl]
    show List.foldlM _ _ (if magnitude v.2.1 = 0 then [] else [v.2.1]) = _
    split_ifs <;> rfl
  exact ⟨(v.1, if magnitude v.2.1 = 0 then 0 else v.2.1, ()),
    returned_cons.mpr ⟨hchannel, returned_cons.mpr ⟨hvolume, rfl⟩⟩⟩

theorem marshal_volumeAdjustment_ne_nil : marshal volumeAdjustment v ≠ [] := by
  have htag : IsTag 1 0 (appendTag 1 0) := isTag_appendTag (by decide) (by decide)
  show (appendTag 1 0 ++ appendVarint v.1.toUInt64 ++ []) ++ _ ≠ []
  rw [append_assoc, append_assoc]
  exact htag.append_ne_nil

end

theorem length_marshal_rest (k : ℕ) (s : Schema) (v : Value s) :
    (marshal (s.drop k) (rest k s v)).length ≤ (marshal s v).length := by
  induction k generalizing s with
  | zero => exact le_rfl
  | succ k ih =>
    cases s with
    | nil => exact le_rfl
    | cons f s =>
      refine (ih s v.2).trans ?_
      rw [marshal, length_append]
      exact Nat.le_add_left _ _

theorem fit_of_nested {n : ℕ} {sub s : Schema} {strict sparse : Bool}
    {v : Value (nested n sub strict sparse :: s)}
    (hfit : (marshal (nested n sub strict sparse :: s) v).length < 2 ^ 63) :
    ∀ x ∈ v.1, (marshal sub x).length < 2 ^ 64 := by
  intro x hx
  by_cases hnil : marshal sub x = []
  · rw [hnil]
    decide
  · have hput : marshal sub x ∈ (nested n sub strict sparse).put v.1 :=
      mem_filter.mpr ⟨mem_map_of_mem hx, by simp [hnil]⟩
    have hwrite := length_le_of_mem (f := nested n sub strict sparse) rfl hput
    have hraw : (marshal sub x).length ≤ (Kind.bytes.write (marshal sub x)).length := by
      show _ ≤ (appendLengthDelimited (marshal sub x)).length
      rw [appendLengthDelimited, length_append]
      exact Nat.le_add_left _ _
    rw [marshal, length_append] at hfit
    exact lt_of_le_of_lt (hraw.trans hwrite) (by omega)

theorem returning_voiceTarget {v : Value voiceTarget} (hv : Normal voiceTarget v)
    (hfit : (marshal voiceTarget v).length < 2 ^ 63) :
    Returning voiceTarget v ↔ Comes .voiceTarget v := by
  have hs : (voiceTarget.take 1).Forall Field.Sound := sound_scalar _ _ _
  have hlen := length_marshal_rest 1 voiceTarget v
  have hret : ∀ x ∈ v.2.1, returned voiceTargetTarget x = .ok (canon voiceTargetTarget x) :=
    fun x hx => (returned_eq_canon_iff _ x).mpr
      (returning_of_sound sound_voiceTargetTarget (hv.2.1 x hx))
  have hback := back_nested wellNumbered_voiceTargetTarget 2 true true
    (fit_of_nested (lt_of_le_of_lt hlen hfit)) fun x hx => ⟨_, hret x hx⟩
  rw [returning_iff_rest hs hv]
  refine ((and_iff_left trivial).trans hback).trans ?_
  obtain ⟨id, targets, _⟩ := v
  refine forall₂_congr fun x hx => ?_
  rw [and_iff_left (hret x hx), Ne, marshal_voiceTargetTarget_eq_nil (hv.2.1 x hx)]
  simp

theorem returning_userState {v : Value userState} (hv : Normal userState v)
    (hfit : (marshal userState v).length < 2 ^ 63) :
    Returning userState v ↔ Comes .userState v := by
  have hlen := length_marshal_rest 22 userState v
  have hback := back_nested wellNumbered_volumeAdjustment 23 false true
    (fit_of_nested (lt_of_le_of_lt hlen hfit)) fun x _ => exists_returned_volumeAdjustment x
  rw [returning_iff_rest sound_userState hv]
  refine and_congr (hback.trans (forall₂_congr fun x hx => ?_))
    ((and_iff_left trivial).trans (back_hidden _))
  rw [returned_eq_canon_iff, returning_volumeAdjustment]
  exact and_iff_right fun _ => marshal_volumeAdjustment_ne_nil x

theorem returning_banList {v : Value banList} (hv : Normal banList v)
    (hfit : (marshal banList v).length < 2 ^ 63) : Returning banList v := by
  have hret : ∀ x ∈ v.1, returned banEntry x = .ok (canon banEntry x) :=
    fun x hx => (returned_eq_canon_iff _ x).mpr (returning_of_sound sound_banEntry (hv.1 x hx))
  have hback := back_nested wellNumbered_banEntry 1 false false (fit_of_nested hfit)
    fun x hx => ⟨_, hret x hx⟩
  exact ⟨hback.mpr fun x hx => ⟨fun h => absurd h (by decide), hret x hx⟩,
    back_scalar 2 .bool false v.2.1, trivial⟩

end special

theorem comes_plain (h : m.plain = true) (v : Value m.schema) : Comes m v := by
  cases m <;> first
    | exact absurd h (by decide)
    | trivial

theorem comes_iff_returning {v : Value m.schema} (hv : Normal m.schema v)
    (hfit : (m.marshal v).length < 2 ^ 63) : Returning m.schema v ↔ Comes m v := by
  by_cases hm : m.plain = true
  · exact iff_of_true (returning_of_sound (sound_plain hm) hv) (comes_plain hm v)
  · cases m with
    | ping => exact returning_ping hv
    | acl => exact returning_acl
    | voiceTarget => exact returning_voiceTarget hv hfit
    | userState => exact returning_userState hv hfit
    | banList => exact iff_of_true (returning_banList hv hfit) trivial
    | _ => exact absurd rfl hm

/-- **The round trip of control messages.**  A value in normal form, of a size that `Marshal` can
produce, comes back from `Unmarshal` exactly if `Comes`. -/
theorem unmarshal_marshal_iff (m : Message) (v : Value m.schema) (hv : Normal m.schema v)
    (hfit : (m.marshal v).length < 2 ^ 63) :
    (m.unmarshal (m.marshal v)).result = .ok (canon m.schema v) ↔ Comes m v := by
  rw [← comes_iff_returning hv hfit, ← returned_eq_canon_iff]
  by_cases hm : m = .userList
  · subst hm
    exact iff_of_true rfl rfl
  · unfold Message.unmarshal Message.marshal
    rw [if_neg hm, result_marshal (wellNumbered m) v (lt_trans hfit (by decide))]

/-- A text message to two sessions comes back. -/
theorem unmarshal_marshal_text :
    (Message.textMessage.unmarshal
        (Message.textMessage.marshal (7, [1, 300], [], [0], [104, 105], ()))).result =
      .ok (7, [1, 300], [], [0], [104, 105], ()) :=
  (unmarshal_marshal_iff .textMessage (7, [1, 300], [], [0], [104, 105], ())
    ⟨trivial, trivial, trivial, trivial, trivial, trivial⟩ (by decide +kernel)).mpr trivial

/-- Inherited access lists come back as not inherited, of two targets the one without content is
lost, and a negative zero becomes a positive one. -/
theorem unmarshal_marshal_differs :
    (Message.acl.unmarshal (Message.acl.marshal (3, true, false, ()))).result ≠
        .ok (canon acl (3, true, false, ())) ∧
      (Message.voiceTarget.unmarshal (Message.voiceTarget.marshal
        (1, [([], (false, 0), [], false, false, ()), ([5], (false, 0), [], false, false, ())],
          ()))).result ≠ .ok (canon voiceTarget
        (1, [([], (false, 0), [], false, false, ()), ([5], (false, 0), [], false, false, ())],
          ())) ∧
      (Message.ping.unmarshal (Message.ping.marshal
        (0, 0, 0, 0, 0, 0, 0, negativeZero, 0, 0, 0, ()))).result ≠
        .ok (canon ping (0, 0, 0, 0, 0, 0, 0, negativeZero, 0, 0, 0, ())) := by
  refine ⟨fun h => ?_, fun h => ?_, fun h => ?_⟩
  · have hflag : (false : Bool) = true :=
      congrArg (fun v : Value acl => v.2.1) (ok.inj (show ok _ = ok _ from h))
    cases hflag
  · have hcount : 1 = 2 :=
      congrArg (fun v : Value voiceTarget => v.2.1.length) (ok.inj (show ok _ = ok _ from h))
    cases hcount
  · have hbits : (0 : UInt32) = negativeZero :=
      congrArg (fun v : Value ping => v.2.2.2.2.2.2.2.1) (ok.inj (show ok _ = ok _ from h))
    exact absurd hbits (by decide)

end MumbleServer.Codec
