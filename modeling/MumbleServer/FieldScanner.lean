import MumbleServer.AudioPacket

/-! # The fields of protobuf packets

`pkg/mumble/audio/protobuf.go`: `consumeField` reads one field from the front of a packet.  What a
field is, is said apart from the code: a tag and a value, and a group holds fields up to an end
with its own number (`IsField`).  `consumeField` takes exactly such a prefix, whatever stands
behind it, and there is fuel enough for every packet (`consumeField_iff`). -/

namespace MumbleServer.Audio

open List Option Wire UInt8

/-! ### Three readers of protobuf varints -/

/-- The loop of `DecodeProtoVarint` at byte `i`, with the bits read so far. -/
def decodeProtoVarintFrom : ℕ → UInt64 → List UInt8 → Option (UInt64 × List UInt8)
  | _, _, [] => none
  | i, v, c :: b =>
    if 10 ≤ i then none
    else if i = 9 ∧ 1 < c then none
    else
      let v := v ||| ((c &&& 0x7F).toUInt64 <<< UInt64.ofNat (7 * i))
      if c &&& 0x80 = 0 then some (v, b) else decodeProtoVarintFrom (i + 1) v b

def decodeProtoVarint : List UInt8 → Option (UInt64 × List UInt8) := decodeProtoVarintFrom 0 0

/-- After `k` more bytes that go on there is a last one that does not fit. -/
def overlong : ℕ → List UInt8 → Bool
  | _, [] => false
  | 0, c :: _ => 1 < c && c < 0x80
  | k + 1, c :: b => 0x80 ≤ c && overlong k b

theorem byte_high (c : UInt8) : (c &&& 0x80 = 0 ↔ c < 0x80) ∧ (c < 0x80 → c &&& 0x7F = c) := by
  have hall : ∀ i : Fin 256, (ofNat i &&& 0x80 = 0 ↔ ofNat i < 0x80) ∧
      (ofNat i < 0x80 → ofNat i &&& 0x7F = ofNat i) := by decide +kernel
  simpa using hall ⟨c.toNat, c.toNat_lt⟩

theorem decodeProtoVarintFrom_eq {i : ℕ} (hi : i ≤ 10) (x : UInt64) (b : List UInt8) :
    decodeProtoVarintFrom i x b = uvarintFrom i x b := by
  induction b generalizing i x with
  | nil => rfl
  | cons c b ih =>
    obtain ⟨hhigh, hlow⟩ := byte_high c
    unfold decodeProtoVarintFrom uvarintFrom
    by_cases hlast : i = 10
    · simp [hlast]
    rw [if_neg (by omega), if_neg hlast]
    by_cases hc : c < 0x80
    · simp [hc, hhigh, hlow]
    · have hbig : 1 < c := by
        rw [lt_iff_toNat_lt] at hc ⊢
        simp at hc ⊢
        omega
      by_cases hnine : i = 9
      · subst hnine
        rw [if_pos ⟨rfl, hbig⟩, if_neg hc]
        cases b <;> rfl
      · simp only [hnine, false_and, if_false, hhigh, hc]
        exact ih (by omega) _

attribute [local simp] overlong

theorem readVarintFrom_eq_iff {i k : ℕ} (hik : i + k = 9) (x : UInt64) (b : List UInt8) :
    (readVarintFrom i x b).toOption = uvarintFrom i x b ↔ overlong k b = false := by
  induction b generalizing i k x with
  | nil => simp [readVarintFrom, uvarintFrom, Except.toOption]
  | cons c b ih =>
    obtain ⟨-, hlow⟩ := byte_high c
    unfold readVarintFrom uvarintFrom
    rw [if_neg (show ¬10 ≤ i by omega), if_neg (show ¬i = 10 by omega)]
    by_cases hc : c < 0x80
    · cases k with
      | zero =>
        obtain rfl : i = 9 := hik
        by_cases hone : 1 < c <;> simp [hc, hlow, hone, Except.toOption]
      | succ k => simp [hc, hlow, Except.toOption, show i ≠ 9 by omega]
    · cases k with
      | zero =>
        obtain rfl : i = 9 := hik
        cases b <;> simp [hc, readVarintFrom, uvarintFrom, Except.toOption]
      | succ k =>
        simpa [hc, UInt8.not_lt.mp hc] using ih (i := i + 1) (k := k) (by omega) _

/-- **The three readers agree** unless a varint of ten bytes has more bits than fit: control
messages then keep the bits that do. -/
theorem varint_readers_agree (b : List UInt8) :
    ((Wire.readVarint b).toOption = uvarint b ∧ decodeProtoVarint b = uvarint b) ↔
      overlong 9 b = false := by
  have hproto : decodeProtoVarint b = uvarint b := decodeProtoVarintFrom_eq (Nat.zero_le _) 0 b
  rw [and_iff_left hproto]
  exact readVarintFrom_eq_iff rfl 0 b

theorem varint_readers_differ :
    (Wire.readVarint (replicate 9 0x80 ++ [2])).toOption = some (0, []) ∧
      uvarint (replicate 9 0x80 ++ [2]) = none ∧
      decodeProtoVarint (replicate 9 0x80 ++ [2]) = none := by
  decide

/-! ### Varints on the wire -/

theorem not_overlong {k i : ℕ} {bs : List UInt8} (h : isVarint (k + 1) bs = true)
    (hik : i + k = 9) (hfit : 128 ^ i * varintVal bs < 2 ^ 64) (rest : List UInt8) :
    overlong k (bs ++ rest) = false := by
  induction k generalizing i bs with
  | zero =>
    obtain rfl : i = 9 := hik
    cases bs with
    | nil => simp [isVarint] at h
    | cons c b =>
      by_cases hc : c < 0x80
      · have hlow : c.toNat % 128 = c.toNat :=
          Nat.mod_eq_of_lt (lt_iff_toNat_lt.mp hc)
        rw [varintVal, hlow] at hfit
        have hone : ¬1 < c := by
          rw [lt_iff_toNat_lt]
          simp
          omega
        simp [hone]
      · simp [hc]
  | succ k ih =>
    cases bs with
    | nil => simp [isVarint] at h
    | cons c b =>
      by_cases hc : c < 0x80
      · simp [UInt8.not_le.mpr hc]
      · rw [cons_append, overlong, ih (i := i + 1) (by simpa [isVarint, hc] using h) (by omega),
          Bool.and_false]
        calc 128 ^ (i + 1) * varintVal b
            = 128 ^ i * (128 * varintVal b) := by rw [Nat.pow_succ, Nat.mul_assoc]
          _ ≤ 128 ^ i * varintVal (c :: b) :=
              Nat.mul_le_mul_left _ (Nat.le_add_left _ _)
          _ < 2 ^ 64 := hfit

section varints
variable {v : UInt64} {bs rest : List UInt8}

/-- The bytes are a varint for a number of 64 bits. -/
def IsNumber (v : UInt64) (bs : List UInt8) : Prop :=
  Wire.IsVarint bs ∧ Wire.varintVal bs = v.toNat

theorem IsNumber.uvarint (h : IsNumber v bs) (rest : List UInt8) :
    uvarint (bs ++ rest) = some (v, rest) := by
  have hfit := not_overlong (i := 0) h.1 rfl (by simpa [h.2] using v.toNat_lt) rest
  refine ((readVarintFrom_eq_iff rfl 0 _).mpr hfit).symm.trans ?_
  rw [show readVarintFrom 0 0 = readVarint from rfl, readVarint_of_isVarint h.1,
    h.2, UInt64.ofNat_toNat]
  rfl

theorem uvarint_appendVarint (v : UInt64) (rest : List UInt8) :
    uvarint (appendVarint v ++ rest) = some (v, rest) :=
  IsNumber.uvarint ⟨isVarint_appendVarint v, varintVal_appendVarint v⟩ rest

theorem exists_of_uvarintFrom {i k : ℕ} (hik : i + k = 9) {x : UInt64} {b : List UInt8}
    (h : uvarintFrom i x b = some (v, rest)) : ∃ bs, b = bs ++ rest ∧
      isVarint (k + 1) bs = true ∧ varintVal bs < 2 ^ (7 * k + 1) := by
  induction b generalizing i k x with
  | nil => cases h
  | cons c b ih =>
    rw [uvarintFrom, if_neg (by omega)] at h
    by_cases hc : c < 0x80
    · rw [if_pos hc] at h
      split_ifs at h with hlast
      obtain ⟨-, rfl⟩ := Prod.mk.inj (some.inj h)
      refine ⟨[c], rfl, by simp [isVarint, hc], ?_⟩
      have hlt : c.toNat < 128 := lt_iff_toNat_lt.mp hc
      rw [varintVal, varintVal]
      cases k with
      | zero =>
        have hone : c.toNat ≤ 1 := UInt8.le_iff_toNat_le.mp
          (UInt8.not_lt.mp fun hbig => hlast ⟨hik, hbig⟩)
        omega
      | succ k =>
        have hpow : 2 ^ 8 ≤ 2 ^ (7 * (k + 1) + 1) := Nat.pow_le_pow_right (by decide) (by omega)
        omega
    · rw [if_neg hc] at h
      cases k with
      | zero =>
        obtain rfl : i = 9 := hik
        cases b <;> cases h
      | succ k =>
        obtain ⟨bs, rfl, hbs, hval⟩ := ih (i := i + 1) (k := k) (by omega) h
        refine ⟨c :: bs, rfl, by simpa [isVarint, hc] using hbs, ?_⟩
        have hpow : 2 ^ (7 * (k + 1) + 1) = 128 * 2 ^ (7 * k + 1) := by ring
        rw [varintVal]
        omega

theorem uvarint_eq_some {b : List UInt8} :
    uvarint b = some (v, rest) ↔ ∃ bs, b = bs ++ rest ∧ IsNumber v bs := by
  constructor
  · intro h
    obtain ⟨bs, rfl, hbs, hval⟩ := exists_of_uvarintFrom (k := 9) rfl h
    have hnum : IsNumber (.ofNat (varintVal bs)) bs :=
      ⟨hbs, (UInt64.toNat_ofNat_of_lt' hval).symm⟩
    rw [hnum.uvarint] at h
    obtain ⟨rfl, -⟩ := Prod.mk.inj (some.inj h)
    exact ⟨bs, rfl, hnum⟩
  · rintro ⟨bs, rfl, hnum⟩
    exact hnum.uvarint rest

theorem chop_eq_some {n : ℕ} {b p : List UInt8} :
    chop n b = some (p, rest) ↔ b = p ++ rest ∧ p.length = n := by
  unfold chop
  constructor
  · intro h
    split_ifs at h
    obtain ⟨rfl, rfl⟩ := Prod.mk.inj (some.inj h)
    exact ⟨(take_append_drop n b).symm, length_take_of_le (by omega)⟩
  · rintro ⟨rfl, rfl⟩
    simp

end varints

/-! ### What a field is -/

/-- The bytes are the tag of a field: its number, from 1 to 2 ^ 29 - 1, above three bits for the
wire type. -/
def IsTag (n : UInt64) (w : ℕ) (t : List UInt8) : Prop :=
  (n ≠ 0 ∧ n ≤ 536870911) ∧ ∃ tag, IsNumber tag t ∧ tag >>> 3 = n ∧ (tag &&& 7).toNat = w

mutual

/-- The bytes are a complete field, and this is what is in it. -/
inductive IsField : RawField → List UInt8 → Prop
  | varint {n v : UInt64} {t bs : List UInt8} :
      IsTag n 0 t → IsNumber v bs → IsField ⟨n, 0, v, []⟩ (t ++ bs)
  | fixed64 {n : UInt64} {t p : List UInt8} :
      IsTag n 1 t → p.length = 8 → IsField ⟨n, 1, 0, p⟩ (t ++ p)
  | fixed32 {n : UInt64} {t p : List UInt8} :
      IsTag n 5 t → p.length = 4 → IsField ⟨n, 5, 0, p⟩ (t ++ p)
  | bytes {n size : UInt64} {t bs p : List UInt8} :
      IsTag n 2 t → IsNumber size bs → p.length = size.toNat → IsField ⟨n, 2, 0, p⟩ (t ++ (bs ++ p))
  | group {n : UInt64} {t c : List UInt8} :
      IsTag n 3 t → IsGroup n c → IsField ⟨n, 3, 0, []⟩ (t ++ c)

/-- The bytes are the fields in a group and the end of the group. -/
inductive IsGroup : UInt64 → List UInt8 → Prop
  | close {n : UInt64} {t : List UInt8} : IsTag n 4 t → IsGroup n t
  | field {n : UInt64} {f : RawField} {p c : List UInt8} :
      IsField f p → IsGroup n c → IsGroup n (p ++ c)

end

section scanner
variable {n : UInt64} {w depth : ℕ} {t p b rest : List UInt8} {f : RawField}

theorem IsTag.length_pos (h : IsTag n w t) : 0 < t.length := by
  obtain ⟨-, tag, hnum, -⟩ := h
  exact length_pos_iff.mpr hnum.1.ne_nil

theorem IsTag.read (h : IsTag n w t) (hd : depth ≤ maxPacketSize) :
    ∃ tag, (∀ rest, uvarint (t ++ rest) = some (tag, rest)) ∧ tag >>> 3 = n ∧
      (tag &&& 7).toNat = w ∧
        ¬(tag >>> 3 = 0 ∨ (536870911 : UInt64) < tag >>> 3 ∨ maxPacketSize < depth) := by
  obtain ⟨⟨hpos, hle⟩, tag, hnum, rfl, hw⟩ := h
  refine ⟨tag, hnum.uvarint, rfl, hw, ?_⟩
  rintro (hzero | hlarge | hdepth)
  · exact hpos hzero
  · exact UInt64.not_lt.mpr hle hlarge
  · exact absurd hd (Nat.not_le.mpr hdepth)

/-- A field starts with a tag, which is not the end of a group. -/
theorem IsField.tag (h : IsField f p) : ∃ n w t q, p = t ++ q ∧ IsTag n w t ∧ w ≠ 4 := by
  cases h with
  | varint ht | fixed64 ht | fixed32 ht | bytes ht | group ht =>
    exact ⟨_, _, _, _, rfl, ht, by decide⟩

theorem IsField.length_pos (h : IsField f p) : 0 < p.length := by
  obtain ⟨n, w, t, q, rfl, ht, -⟩ := h.tag
  rw [length_append]
  have := ht.length_pos
  omega

/-! ### The scanner takes fields -/

theorem consume_sound (fuel : ℕ) :
    (∀ depth b f rest, consumeField fuel depth b = some (some (f, rest)) →
      ∃ p, b = p ++ rest ∧ IsField f p) ∧
    ∀ depth n b rest, n ≠ 0 ∧ n ≤ 536870911 → consumeGroup fuel depth n b = some (some rest) →
      ∃ c, b = c ++ rest ∧ IsGroup n c := by
  induction fuel with
  | zero => exact ⟨by simp [consumeField], by simp [consumeGroup]⟩
  | succ fuel ih =>
    constructor
    · intro depth b f rest h
      rw [consumeField] at h
      split at h
      · cases h
      rename_i tag b' hu
      obtain ⟨t, rfl, hnum⟩ := uvarint_eq_some.mp hu
      split_ifs at h with hok
      · cases h
      rw [not_or, not_or, UInt64.not_lt] at hok
      have hn : tag >>> 3 ≠ 0 ∧ tag >>> 3 ≤ 536870911 := ⟨hok.1, hok.2.1⟩
      have ht : ∀ {w}, (tag &&& 7).toNat = w → IsTag (tag >>> 3) w t :=
        fun hw => ⟨hn, tag, hnum, rfl, hw⟩
      split at h
      · rename_i hw
        obtain ⟨r, hr, ⟨⟩⟩ := map_eq_some_iff.mp (some.inj h)
        obtain ⟨bs, rfl, hv⟩ := uvarint_eq_some.mp hr
        exact ⟨_, (append_assoc ..).symm, .varint (ht hw) hv⟩
      · rename_i hw
        obtain ⟨r, hr, ⟨⟩⟩ := map_eq_some_iff.mp (some.inj h)
        obtain ⟨rfl, hp⟩ := chop_eq_some.mp hr
        exact ⟨_, (append_assoc ..).symm, .fixed64 (ht hw) hp⟩
      · rename_i hw
        obtain ⟨r, hr, ⟨⟩⟩ := map_eq_some_iff.mp (some.inj h)
        obtain ⟨rfl, hp⟩ := chop_eq_some.mp hr
        exact ⟨_, (append_assoc ..).symm, .fixed32 (ht hw) hp⟩
      · rename_i hw
        split at h
        · cases h
        rename_i size b'' hs
        obtain ⟨r, hr, ⟨⟩⟩ := map_eq_some_iff.mp (some.inj h)
        obtain ⟨bs, rfl, hbs⟩ := uvarint_eq_some.mp hs
        obtain ⟨rfl, hp⟩ := chop_eq_some.mp hr
        exact ⟨_, by simp, .bytes (ht hw) hbs hp⟩
      · rename_i hw
        obtain ⟨g, hg, hr⟩ := map_eq_some_iff.mp h
        obtain ⟨r, rfl, ⟨⟩⟩ := map_eq_some_iff.mp hr
        obtain ⟨c, rfl, hc⟩ := ih.2 _ _ _ _ hn hg
        exact ⟨_, (append_assoc ..).symm, .group (ht hw) hc⟩
      · cases h
    · intro depth n b rest hn h
      rw [consumeGroup] at h
      split at h
      · cases h
      rename_i tag b' hu
      split_ifs at h with hend hsame
      · cases h
      · obtain ⟨t, rfl, hnum⟩ := uvarint_eq_some.mp hu
        obtain rfl := some.inj (some.inj h)
        exact ⟨t, rfl, .close ⟨hn, tag, hnum, not_not.mp hsame, by rw [hend]; rfl⟩⟩
      · split at h
        · cases h
        · cases h
        rename_i f b'' hf
        obtain ⟨p, rfl, hp⟩ := ih.1 _ _ _ _ hf
        obtain ⟨c, rfl, hc⟩ := ih.2 _ _ _ _ hn h
        exact ⟨p ++ c, (append_assoc ..).symm, .field hp hc⟩

/-! ### Every field is taken -/

/-- Twice as much fuel as there are bytes is enough, and a packet has not the bytes for groups that
are too deep. -/
theorem consume_complete (fuel : ℕ) :
    (∀ f p, IsField f p → ∀ depth rest, 2 * p.length ≤ fuel →
      depth + p.length ≤ maxPacketSize → consumeField fuel depth (p ++ rest) = some (some (f, rest))) ∧
    ∀ n c, IsGroup n c → ∀ depth rest, 2 * c.length + 1 ≤ fuel →
      depth + c.length < maxPacketSize → consumeGroup fuel depth n (c ++ rest) = some (some rest) := by
  induction fuel with
  | zero =>
    refine ⟨fun f p h depth rest hfuel => ?_, fun n c _ depth rest hfuel => by omega⟩
    have := h.length_pos
    omega
  | succ fuel ih =>
    constructor
    · intro f p h depth rest hfuel hdepth
      have hd : depth ≤ maxPacketSize := by omega
      rw [consumeField]
      cases h with
      | varint ht hv =>
        obtain ⟨tag, hread, rfl, hw, hok⟩ := ht.read hd
        simp only [append_assoc, hread, if_neg hok, hw, hv.uvarint, map_some]
      | fixed64 ht hp | fixed32 ht hp =>
        obtain ⟨tag, hread, rfl, hw, hok⟩ := ht.read hd
        simp only [append_assoc, hread, if_neg hok, hw, chop_eq_some.mpr ⟨rfl, hp⟩, map_some]
      | bytes ht hs hp =>
        obtain ⟨tag, hread, rfl, hw, hok⟩ := ht.read hd
        simp only [append_assoc, hread, if_neg hok, hw, hs.uvarint, chop_eq_some.mpr ⟨rfl, hp⟩,
          map_some]
      | group ht hc =>
        obtain ⟨tag, hread, rfl, hw, hok⟩ := ht.read hd
        have hpos := ht.length_pos
        rw [length_append] at hfuel hdepth
        simp only [append_assoc, hread, if_neg hok, hw,
          ih.2 _ _ hc depth rest (by omega) (by omega), map_some]
    · intro n c h depth rest hfuel hdepth
      rw [consumeGroup]
      cases h with
      | close ht =>
        obtain ⟨tag, hread, rfl, hw, -⟩ := ht.read (Nat.zero_le _)
        have hend : tag &&& 7 = 4 := UInt64.toNat_inj.mp hw
        simp [hread, hend]
      | @field _ f p c hp hc =>
        have hpos := hp.length_pos
        rw [length_append] at hfuel hdepth
        have hfield := ih.1 _ _ hp (depth + 1) (c ++ rest) (by omega) (by omega)
        have hgroup := ih.2 _ _ hc depth rest (by omega) (by omega)
        obtain ⟨n', w, t, q, rfl, ht, hw4⟩ := hp.tag
        obtain ⟨tag, hread, rfl, hw, -⟩ := ht.read (Nat.zero_le _)
        have hend : tag &&& 7 ≠ 4 := fun hend => hw4 (by rw [← hw, hend]; rfl)
        rw [append_assoc] at hfield
        simp only [append_assoc, hread, if_neg hend, hfield, hgroup]

theorem consumeField_iff (hb : b.length ≤ maxPacketSize) {fuel : ℕ} (hfuel : 2 * b.length ≤ fuel) :
    consumeField fuel 0 b = some (some (f, rest)) ↔ ∃ p, b = p ++ rest ∧ IsField f p := by
  refine ⟨(consume_sound fuel).1 0 b f rest, ?_⟩
  rintro ⟨p, rfl, hp⟩
  rw [length_append] at hb hfuel
  exact (consume_complete fuel).1 f p hp 0 rest (by omega) (by omega)

theorem nextField_iff (hb : b.length ≤ maxPacketSize) :
    nextField b = some (f, rest) ↔ ∃ p, b = p ++ rest ∧ IsField f p := by
  rw [← consumeField_iff hb (Nat.le_succ _), nextField_eq, Option.some_inj]

/-- **The field scanner is exact**: on every packet it ends, and it succeeds exactly if some prefix
is a complete field, of which it returns the number, the wire type and the value.  The bytes behind
the prefix make no difference. -/
theorem field_scanner_exact (b : List UInt8) (hb : b.length ≤ maxPacketSize) :
    (∀ fuel, 2 * b.length < fuel → consumeField fuel 0 b = some (nextField b)) ∧
    (∀ f rest, nextField b = some (f, rest) ↔ ∃ p, b = p ++ rest ∧ IsField f p) ∧
    ∀ f rest, nextField b = some (f, rest) → ∃ p, b = p ++ rest ∧
      ∀ rest', (p ++ rest').length ≤ maxPacketSize → nextField (p ++ rest') = some (f, rest') := by
  refine ⟨fun fuel hfuel => ?_, fun f rest => nextField_iff hb, fun f rest h => ?_⟩
  · obtain ⟨r, hr, -⟩ := (consume_ends fuel).1 0 b hfuel
    rw [hr, Option.some_inj]
    refine Option.ext fun ⟨f, rest⟩ => ?_
    rw [nextField_iff hb, ← consumeField_iff hb hfuel.le, hr, Option.some_inj]
  · obtain ⟨p, hp, hfield⟩ := (nextField_iff hb).mp h
    exact ⟨p, hp, fun rest' hlen => (nextField_iff hlen).mpr ⟨p, rfl, hfield⟩⟩

/-- A group with a varint in it, and a byte behind it. -/
theorem field_scanner_exact_group :
    ∃ p, [0x0b, 0x10, 0x05, 0x0c, 0xff] = p ++ [0xff] ∧ IsField ⟨1, 3, 0, []⟩ p :=
  ((field_scanner_exact [0x0b, 0x10, 0x05, 0x0c, 0xff] (by decide)).2.1 ⟨1, 3, 0, []⟩ [0xff]).mp
    (by decide)

end scanner

end MumbleServer.Audio
