import MumbleServer.FieldScanner

/-! # Voice packets survive transcoding

Each form is read back as it was written: numbers of the legacy form (`readNumber_addNumber`), the
legacy form (`received_legacy`), fields of the protobuf form, and the protobuf form.  A frame that
came in one form therefore goes out in the other with nothing lost (`audio_transcoded`). -/

namespace MumbleServer.Audio

open List Option Nat BigEndian
open Voice (Frame Delivery Context contextListen contextNormal)
open Wire (appendTag appendVarint appendFixed32 appendLengthDelimited readFixed32)
variable {d : Delivery} {sender : UInt32} {b : List UInt8}

/-! ### Numbers of the legacy form -/

/-- A first byte after which `decodeVarint` pushes `k` bytes in below `x`. -/
structure Leads (c : UInt8) (x : UInt64) (k : ℕ) : Prop where
  decode : ∀ b : List UInt8, k ≤ b.length →
    decodeVarint (c :: b) = some (BigEndian.push x (b.take k), b.drop k)
  nonnegative : ¬0xf8 ≤ c

/-- The upper bits of a number beside a tag, as the first byte of a varint. -/
def firstByte (mask tag x : UInt64) : UInt8 := ((x &&& mask) ||| tag).toUInt8

/-- What the first byte of a number that is not negative says: its upper bits and how many bytes
follow. -/
def shape (c : UInt8) : Option (UInt64 × ℕ) :=
  if c &&& 0x80 = 0 then some (c.toUInt64, 0)
  else if c &&& 0xC0 = 0x80 then some ((c &&& 0x3F).toUInt64, 1)
  else if c &&& 0xE0 = 0xC0 then some ((c &&& 0x1F).toUInt64, 2)
  else if c &&& 0xF0 = 0xE0 then some ((c &&& 0xF).toUInt64, 3)
  else if c &&& 0xFC = 0xF0 then some (0, 4)
  else if c &&& 0xFC = 0xF4 then some (0, 8)
  else none

theorem leads_of_shape {c : UInt8} {x : UInt64} {k : ℕ} (h : shape c = some (x, k) ∧ ¬0xf8 ≤ c) :
    Leads c x k := by
  refine ⟨fun b hb => ?_, h.2⟩
  replace h := h.1
  unfold shape at h
  unfold decodeVarint
  split_ifs at h
  all_goals
    obtain ⟨rfl, rfl⟩ := Prod.mk.inj (some.inj h)
    simp [*, push]

theorem shape_firstByte :
    (∀ i : Fin 64, shape (firstByte 0x3F 0x80 (.ofNat i)) = some (.ofNat i, 1) ∧
      ¬0xf8 ≤ firstByte 0x3F 0x80 (.ofNat i)) ∧
    (∀ i : Fin 32, shape (firstByte 0x1F 0xC0 (.ofNat i)) = some (.ofNat i, 2) ∧
      ¬0xf8 ≤ firstByte 0x1F 0xC0 (.ofNat i)) ∧
    (∀ i : Fin 16, shape (firstByte 0xF 0xE0 (.ofNat i)) = some (.ofNat i, 3) ∧
      ¬0xf8 ≤ firstByte 0xF 0xE0 (.ofNat i)) ∧
    ∀ i : Fin 128, shape (UInt64.ofNat i).toUInt8 = some (.ofNat i, 0) ∧
      ¬0xf8 ≤ (UInt64.ofNat i).toUInt8 := by
  refine ⟨?_, ?_, ?_, ?_⟩ <;> decide +kernel

theorem ofNat_shiftRight (v : UInt64) {k n : ℕ} (hk : k < 8) (hv : v.toNat < n * 256 ^ k) :
    ∃ i : Fin n, v >>> UInt64.ofNat (8 * k) = .ofNat i ∧
      (UInt64.ofNat i).toNat = v.toNat / 256 ^ k := by
  have hlt : v.toNat / 256 ^ k < n := Nat.div_lt_of_lt_mul (Nat.mul_comm n _ ▸ hv)
  have heq := toNat_shiftRight v hk
  have hof : v >>> UInt64.ofNat (8 * k) = .ofNat (v.toNat / 256 ^ k) := by
    rw [← heq]
    exact UInt64.ofNat_toNat.symm
  exact ⟨⟨v.toNat / 256 ^ k, hlt⟩, hof, by rw [← hof, heq]⟩

section numbers
variable {v : UInt64} (rest : List UInt8)

/-- The bytes of a number that is not negative: the first one leads the others. -/
def Numeral (v : UInt64) (b : List UInt8) : Prop :=
  ∃ c x k, b = c :: BigEndian.bytes k v ∧ Leads c x k ∧ k ≤ 8 ∧ x.toNat = v.toNat / 256 ^ k

theorem numeral_nine : Numeral v (0xF4 :: bytes 8 v) :=
  ⟨_, 0, 8, rfl, leads_of_shape (by decide), le_refl 8, (div_eq_of_lt v.toNat_lt).symm⟩

theorem numeral_wide {mask tag : UInt64} {k n : ℕ} (hk : k < 8) (hv : v.toNat < n * 256 ^ k)
    (h : ∀ i : Fin n, shape (firstByte mask tag (.ofNat i)) = some (.ofNat i, k) ∧
      ¬0xf8 ≤ firstByte mask tag (.ofNat i)) :
    Numeral v (firstByte mask tag (v >>> UInt64.ofNat (8 * k)) :: bytes k v) := by
  obtain ⟨i, hi, hval⟩ := ofNat_shiftRight v hk hv
  rw [hi]
  exact ⟨_, _, _, rfl, leads_of_shape (h i), hk.le, hval⟩

theorem numeral_encodeVarint (space : ℕ) (hv : v.toNat < 2 ^ 63) :
    Numeral v (encodeVarint (space + 1) v) := by
  obtain ⟨htwo, hthree, hfour, hone⟩ := shape_firstByte
  have hminus : ¬0xFFFFFFFFFFFFFFFC ≤ v := by
    rw [UInt64.le_iff_toNat_le]
    simp
    omega
  have hneg : ¬0x8000000000000000 ≤ v := by
    rw [UInt64.le_iff_toNat_le]
    simp
    omega
  unfold encodeVarint
  rw [if_neg hminus, if_neg hneg]
  split_ifs with h1 h2 h3 h4 h5
  · have hle : v.toNat ≤ 0x7F := UInt64.le_iff_toNat_le.mp h1
    have hlead := leads_of_shape (hone ⟨v.toNat, by omega⟩)
    simp only [UInt64.ofNat_toNat] at hlead
    exact ⟨_, v, 0, rfl, hlead, by decide, (Nat.div_one _).symm⟩
  · have hle : v.toNat ≤ 0x3FFF := UInt64.le_iff_toNat_le.mp h2
    exact numeral_wide (by decide) (by omega) htwo
  · have hle : v.toNat ≤ 0x1FFFFF := UInt64.le_iff_toNat_le.mp h3
    exact numeral_wide (by decide) (by omega) hthree
  · have hle : v.toNat ≤ 0xFFFFFFF := UInt64.le_iff_toNat_le.mp h4
    exact numeral_wide (by decide) (by omega) hfour
  · have hle : v.toNat ≤ 0x7FFFFFFF := UInt64.le_iff_toNat_le.mp h5
    exact ⟨_, 0, 4, rfl, leads_of_shape (by decide), by decide, (div_eq_of_lt (by omega)).symm⟩
  · exact numeral_nine

theorem Numeral.decode (h : Numeral v b) : decodeVarint (b ++ rest) = some (v, rest) := by
  obtain ⟨c, x, k, rfl, hlead, hk, hx⟩ := h
  have hlen := length_bytes k v
  rw [cons_append, hlead.decode _ (by simp), take_left' hlen, drop_left' hlen,
    push_bytes hk hx]

theorem Numeral.readNumber (h : Numeral v b) : readNumber (b ++ rest) = .ok (v, rest) := by
  have hdecode := h.decode rest
  obtain ⟨c, x, k, rfl, hlead, -⟩ := h
  rw [cons_append] at hdecode ⊢
  rw [Audio.readNumber, if_neg hlead.nonnegative, hdecode]

/-- **A number of the legacy form is read as it was written**, whatever it is. -/
theorem readNumber_addNumber (v : UInt64) : readNumber (addNumber v ++ rest) = .ok (v, rest) := by
  unfold addNumber
  split_ifs with hlarge
  · exact numeral_nine.readNumber rest
  · have hsmall : v.toNat ≤ 0x7FFFFFFFFFFFFFFF := by
      simpa using UInt64.le_iff_toNat_le.mp (UInt64.not_lt.mp hlarge)
    exact (numeral_encodeVarint _ (by omega)).readNumber rest

theorem decodeVarint_length {b rest : List UInt8} (h : decodeVarint b = some (v, rest)) :
    rest.length < b.length := by
  induction b generalizing v with
  | nil => cases h
  | cons c b ih =>
    unfold decodeVarint at h
    split_ifs at h
    any_goals
      obtain ⟨-, rfl⟩ := Prod.mk.inj (some.inj h)
      simp only [length_cons, length_drop]
      omega
    obtain ⟨r, hr, ⟨⟩⟩ := map_eq_some_iff.mp h
    exact Nat.lt_succ_of_lt (ih hr)

theorem decodeVarint_minus (b : List UInt8) :
    decodeVarint (0xF8 :: b) = (decodeVarint b).map fun r => (0 - r.1, r.2) := rfl

/-- **Mumble's varints are read as they were written**, in at most ten bytes and whatever follows,
except for the least number there is. -/
theorem decodeVarint_encodeVarint (v : UInt64) :
    ((1 ≤ (encodeVarint maxVarintLen v).length ∧
        (encodeVarint maxVarintLen v).length ≤ maxVarintLen) ∧
      decodeVarint (encodeVarint maxVarintLen v ++ rest) = some (v, rest)) ↔
    v ≠ 0x8000000000000000 := by
  constructor
  · rintro ⟨-, h⟩ rfl
    -- Ten bytes that say "negative", and the number is looked for in what follows.
    have hbytes : encodeVarint maxVarintLen 0x8000000000000000 = replicate 10 0xF8 := by decide
    simp only [hbytes, replicate, cons_append, nil_append, decodeVarint_minus, Option.map_map] at h
    obtain ⟨r, hr, heq⟩ := map_eq_some_iff.mp h
    have hlen := decodeVarint_length hr
    rw [show r.2 = rest from (Prod.mk.inj heq).2] at hlen
    exact lt_irrefl _ hlen
  · intro hv
    have hlength : ∀ {w b}, Numeral w b → 1 ≤ b.length ∧ b.length ≤ 9 := by
      rintro w b ⟨c, x, k, rfl, -, hk, -⟩
      rw [length_cons, length_bytes]
      omega
    by_cases hpos : v.toNat < 2 ^ 63
    · have hnum := numeral_encodeVarint 9 hpos
      exact ⟨⟨(hlength hnum).1, (hlength hnum).2.trans (by decide)⟩, hnum.decode rest⟩
    by_cases hminus : 0xFFFFFFFFFFFFFFFC ≤ v
    · have hle := UInt64.le_iff_toNat_le.mp hminus
      have hlt := v.toNat_lt
      obtain rfl | rfl | rfl | rfl : v = 0xFFFFFFFFFFFFFFFC ∨ v = 0xFFFFFFFFFFFFFFFD ∨
          v = 0xFFFFFFFFFFFFFFFE ∨ v = 0xFFFFFFFFFFFFFFFF := by
        simp only [← UInt64.toNat_inj]
        simp at hle ⊢
        omega
      all_goals exact ⟨by decide, rfl⟩
    · have hneg : 0x8000000000000000 ≤ v := by
        rw [UInt64.le_iff_toNat_le]
        simpa using hpos
      have hbytes : encodeVarint maxVarintLen v = 0xF8 :: encodeVarint 9 (0 - v) := by
        unfold maxVarintLen
        rw [encodeVarint, if_neg hminus, if_pos hneg]
      have hnum := numeral_encodeVarint (v := 0 - v) 8 (by
        have hne : v.toNat ≠ 2 ^ 63 := fun h => hv (UInt64.toNat_inj.mp h)
        have hlt := v.toNat_lt
        rw [UInt64.toNat_sub, UInt64.toNat_zero]
        omega)
      rw [hbytes, cons_append, decodeVarint_minus, hnum.decode]
      refine ⟨⟨by simp, succ_le_succ (hlength hnum).2⟩, ?_⟩
      simp

theorem decodeVarint_least :
    decodeVarint (encodeVarint maxVarintLen 0x8000000000000000 ++ []) = none := by
  decide

end numbers

/-! ### The legacy form -/

/-- What a recipient gets of a delivery. -/
structure Survives (d d' : Delivery) : Prop where
  sender : d'.frame.senderSession = d.frame.senderSession
  frameNumber : d'.frame.frameNumber = d.frame.frameNumber
  opusData : d'.frame.opusData = d.frame.opusData
  isTerminator : d'.frame.isTerminator = d.frame.isTerminator
  context : d'.context = d.context
  hasPosition : d'.frame.hasPosition = d.frame.hasPosition
  position : d.frame.hasPosition = true → d'.frame.position = d.frame.position

variable {f : Frame}

theorem toNat_sizeWord (h : f.opusData.length < 2 ^ 13) :
    (sizeWord f).toNat = f.opusData.length + if f.isTerminator then 2 ^ 13 else 0 := by
  have hlen : (UInt64.ofNat f.opusData.length).toNat = f.opusData.length :=
    UInt64.toNat_ofNat_of_lt' (h.trans (by decide))
  unfold sizeWord
  cases f.isTerminator with
  | false => simpa using hlen
  | true =>
    simp only [if_true]
    rw [UInt64.toNat_or, hlen, show (0x2000 : UInt64).toNat = 2 ^ 13 * 1 from rfl, Nat.or_comm,
      ← Nat.two_pow_add_eq_or_of_lt h]
    omega

theorem sizeWord_spec (h : f.opusData.length < 2 ^ 13) :
    ¬0x3fff < sizeWord f ∧ (sizeWord f &&& 0x1fff).toNat = f.opusData.length ∧
      decide (sizeWord f &&& 0x2000 ≠ 0) = f.isTerminator := by
  have hword := toNat_sizeWord h
  refine ⟨?_, ?_, ?_⟩
  · rw [UInt64.not_lt, UInt64.le_iff_toNat_le, hword]
    split_ifs
    · exact le_of_lt_succ (by simp; omega)
    · exact le_of_lt_succ (by simp; omega)
  · rw [UInt64.toNat_and, hword, show (0x1fff : UInt64).toNat = 2 ^ 13 - 1 from rfl,
      and_two_pow_sub_one_eq_mod]
    split_ifs <;> omega
  · have hflag : (sizeWord f &&& 0x2000).toNat = ((sizeWord f).toNat.testBit 13).toNat * 2 ^ 13 := by
      rw [UInt64.toNat_and, show (0x2000 : UInt64).toNat = 2 ^ 13 from rfl, and_two_pow]
    have hbit : (sizeWord f).toNat.testBit 13 = f.isTerminator := by
      rw [hword]
      cases f.isTerminator with
      | false => simpa using testBit_lt_two_pow h
      | true =>
        simp only [if_true]
        rw [add_comm, testBit_two_pow_add_eq, testBit_lt_two_pow h]
        rfl
    rw [hbit] at hflag
    cases hf : f.isTerminator with
    | false =>
      have hzero : sizeWord f &&& 0x2000 = 0 := UInt64.toNat_inj.mp (by simpa [hf] using hflag)
      simp [hzero]
    | true =>
      have hne : sizeWord f &&& 0x2000 ≠ 0 := fun h0 => by simp [h0, hf] at hflag
      simp [hne]

@[simp] theorem length_positionBytes (p : UInt32 × UInt32 × UInt32) :
    (positionBytes p).length = 12 := rfl

theorem readPosition_positionBytes (p : UInt32 × UInt32 × UInt32) :
    readPosition (positionBytes p) = p := by
  have hx : readFixed32 (positionBytes p) = p.1 :=
    Wire.readFixed32_appendFixed32 p.1 (appendFixed32 p.2.1 ++ appendFixed32 p.2.2)
  have hy : readFixed32 ((positionBytes p).drop 4) = p.2.1 :=
    Wire.readFixed32_appendFixed32 p.2.1 (appendFixed32 p.2.2)
  have hz : readFixed32 ((positionBytes p).drop 8) = p.2.2 :=
    Wire.readFixed32_appendFixed32 p.2.2 []
  unfold readPosition
  rw [hx, hy, hz]

theorem decodeVoice_encoded (h : f.opusData.length < 2 ^ 13) (c : UInt8) (sender : ℕ) :
    decodeVoice c sender f.frameNumber (sizeWord f)
        (f.opusData ++ if f.hasPosition then positionBytes f.position else []) =
      .ok { f with
        codec := c >>> 5
        target := (c &&& 31).toUInt32
        senderSession := sender
        position := if f.hasPosition then f.position else (0, 0, 0) } := by
  obtain ⟨hsmall, hlen, hflag⟩ := sizeWord_spec h
  unfold decodeVoice
  rw [if_neg hsmall, hlen, if_neg (by simp), drop_left, take_left, hflag]
  cases hp : f.hasPosition with
  | true => simp [readPosition_positionBytes]
  | false => simp

theorem header_spec {c : Context} (h : c ≤ contextListen) :
    ((codecOpus <<< 5) ||| c) >>> 5 = codecOpus ∧
      (((codecOpus <<< 5) ||| c) &&& 31).toUInt32.toUInt8 = c := by
  have hall : ∀ i : Fin 4, ((codecOpus <<< 5) ||| UInt8.ofNat i) >>> 5 = codecOpus ∧
      (((codecOpus <<< 5) ||| UInt8.ofNat i) &&& 31).toUInt32.toUInt8 = UInt8.ofNat i := by
    decide +kernel
  have hlt : c.toNat < 4 := lt_succ_of_le (UInt8.le_iff_toNat_le.mp h)
  have hc := hall ⟨c.toNat, hlt⟩
  simpa only [UInt8.ofNat_toNat] using hc

theorem readSender_addNumber (sender : UInt32) (rest : List UInt8) :
    readSender (addNumber (UInt64.ofNat sender.toNat) ++ rest) = .ok (sender.toNat, rest) := by
  have hval : (UInt64.ofNat sender.toNat).toNat = sender.toNat :=
    UInt64.toNat_ofNat_of_lt' (lt_trans sender.toNat_lt (by decide))
  have hle : ¬0xFFFFFFFF < UInt64.ofNat sender.toNat := by
    rw [UInt64.not_lt, UInt64.le_iff_toNat_le, hval]
    exact le_of_lt_succ sender.toNat_lt
  have hback : (UInt64.ofNat sender.toNat).toUInt32.toNat = sender.toNat := by
    rw [UInt64.toNat_toUInt32, hval]
    exact mod_eq_of_lt sender.toNat_lt
  unfold readSender
  rw [readNumber_addNumber]
  show (if _ then _ else _) = _
  rw [if_neg hle, hback]

theorem received_legacy (hcodec : d.frame.codec = codecOpus) (hctx : d.context ≤ contextListen)
    (hsender : d.frame.senderSession = sender.toNat) (hb : encodeLegacy d true = .ok b)
    (hlen : b.length ≤ maxPacketSize) : ∃ d', received .legacy b = .ok d' ∧ Survives d d' := by
  unfold encodeLegacy at hb
  by_cases hlimits : 0x1fff < d.frame.opusData.length ∨ 31 < d.frame.target
  · rw [if_pos hlimits] at hb
    cases hb
  rw [if_neg hlimits] at hb
  obtain rfl := Except.ok.inj hb
  obtain ⟨hc, htarget⟩ := header_spec hctx
  have hvoice := decodeVoice_encoded (f := d.frame) (by omega) ((codecOpus <<< 5) ||| d.context)
    sender.toNat
  let f' : Frame := { d.frame with
    codec := ((codecOpus <<< 5) ||| d.context) >>> 5
    target := (((codecOpus <<< 5) ||| d.context) &&& 31).toUInt32
    senderSession := sender.toNat
    position := if d.frame.hasPosition then d.frame.position else (0, 0, 0) }
  refine ⟨⟨f', f'.target.toUInt8, 0⟩, ?_, ⟨hsender.symm, rfl, rfl, rfl, htarget, rfl, fun hp => if_pos hp⟩⟩
  simp only [nil_append, cons_append, append_assoc, if_true, received,
    decodeLegacy, hcodec, hsender] at hlen ⊢
  rw [length_cons] at hlen
  rw [if_neg (not_lt.mpr hlen), if_neg (not_not.mpr hc), readSender_addNumber]
  show Except.map _ (readNumber _ >>= _) = _
  rw [readNumber_addNumber]
  show Except.map _ (readNumber _ >>= _) = _
  rw [readNumber_addNumber]
  show Except.map _ (decodeVoice _ _ _ _ _) = _
  rw [hvoice]
  rfl

/-! ### Fields of the protobuf form -/

attribute [local simp] Decoding.apply

structure TagParts (n w : ℕ) (tag : UInt64) : Prop where
  number : tag >>> 3 = UInt64.ofNat n
  wireType : (tag &&& 7).toNat = w

theorem tag_parts {n w : ℕ} (hn : n < 2 ^ 29) (hw : w < 8) :
    TagParts n w ((UInt64.ofNat n <<< 3) ||| UInt64.ofNat w) := by
  have htag : ((UInt64.ofNat n <<< 3) ||| UInt64.ofNat w).toNat = 8 * n + w := by
    have hmod := (Wire.isTag_appendTag (n := n) (w := w) (by omega) hw).2.1
    rw [appendTag, Wire.varintVal_appendVarint, mod_eq_of_lt (UInt64.toNat_lt _)] at hmod
    exact hmod
  constructor
  · apply UInt64.toNat_inj.mp
    rw [UInt64.toNat_shiftRight, htag, show (3 : UInt64).toNat % 64 = 3 from rfl,
      shiftRight_eq_div_pow, UInt64.toNat_ofNat', mod_eq_of_lt (by omega)]
    omega
  · rw [UInt64.toNat_and, htag, show (7 : UInt64).toNat = 2 ^ 3 - 1 from rfl,
      and_two_pow_sub_one_eq_mod]
    omega

section fields
variable {n : ℕ} (hpos : 0 < n) (hn : n < 2 ^ 29) (fuel : ℕ) (rest : List UInt8)
include hpos hn

theorem number_ok : ¬(UInt64.ofNat n = 0 ∨ (536870911 : UInt64) < UInt64.ofNat n ∨
    maxPacketSize < 0) := by
  have hval : (UInt64.ofNat n).toNat = n := UInt64.toNat_ofNat_of_lt' (hn.trans (by decide))
  rintro (hzero | hlarge | hdepth)
  · rw [hzero] at hval
    exact absurd hval (by simp; omega)
  · rw [UInt64.lt_iff_toNat_lt, hval] at hlarge
    exact absurd hlarge (by simp; omega)
  · exact absurd hdepth (by decide)

theorem consumeField_varint (v : UInt64) :
    consumeField (fuel + 1) 0 (addField n v ++ rest) = some (some (⟨.ofNat n, 0, v, []⟩, rest)) := by
  obtain ⟨hnumber, hwire⟩ := tag_parts (w := 0) hn (by decide)
  rw [addField, append_assoc, appendTag, consumeField, uvarint_appendVarint]
  simp only [hnumber, hwire, if_neg (number_ok hpos hn), uvarint_appendVarint, map_some]

theorem consumeField_bytes {data : List UInt8} (hdata : data.length < 2 ^ 64) :
    consumeField (fuel + 1) 0 (appendBytes n data ++ rest) =
      some (some (⟨.ofNat n, 2, 0, data⟩, rest)) := by
  obtain ⟨hnumber, hwire⟩ := tag_parts (w := 2) hn (by decide)
  have hsize : (UInt64.ofNat data.length).toNat = data.length := UInt64.toNat_ofNat_of_lt' hdata
  rw [appendBytes, append_assoc, appendTag, consumeField, uvarint_appendVarint]
  simp only [hnumber, hwire, if_neg (number_ok hpos hn), appendLengthDelimited, append_assoc,
    uvarint_appendVarint, hsize]
  simp [chop]

theorem consumeField_fixed32 (v : UInt32) :
    consumeField (fuel + 1) 0 (appendTag n 5 ++ appendFixed32 v ++ rest) =
      some (some (⟨.ofNat n, 5, 0, appendFixed32 v⟩, rest)) := by
  obtain ⟨hnumber, hwire⟩ := tag_parts (w := 5) hn (by decide)
  rw [append_assoc, appendTag, consumeField, uvarint_appendVarint]
  simp only [hnumber, hwire, if_neg (number_ok hpos hn)]
  simp [chop, appendFixed32]

end fields

/-! ### The protobuf form -/

section message
variable {s s' : Decoding} {b rest : List UInt8} {f : RawField}

theorem decodeFields_eq (s : Decoding) (b : List UInt8) :
    decodeFields b.length s b = some (readFields s b) := (some_get _).symm

/-- More rounds change nothing. -/
theorem decodeFields_of_le {fuel : ℕ} (s : Decoding) (h : b.length ≤ fuel) :
    decodeFields fuel s b = some (readFields s b) := by
  rw [← decodeFields_eq]
  induction fuel using Nat.strongRecOn generalizing s b with
  | _ fuel ih =>
    cases b with
    | nil => cases fuel <;> rfl
    | cons c b =>
      obtain ⟨n, rfl⟩ : ∃ n, fuel = n + 1 := ⟨fuel - 1, by simp at h; omega⟩
      rw [length_cons] at h ⊢
      rw [decodeFields, decodeFields]
      cases hf : nextField (c :: b) with
      | none => rfl
      | some r =>
        have hr := nextField_length hf
        rw [length_cons] at hr
        simp only
        cases s.apply r.1 with
        | none => rfl
        | some s' =>
          have hrest : r.2.length ≤ b.length := by omega
          exact (ih n (by omega) s' (hrest.trans (by omega))).trans
            (ih b.length (by omega) s' hrest).symm

theorem readFields_step (hf : ∀ fuel, consumeField (fuel + 1) 0 b = some (some (f, rest)))
    (ha : s.apply f = some s') : readFields s b = readFields s' rest := by
  have hnext : nextField b = some (f, rest) := some.inj ((nextField_eq b).symm.trans (hf _))
  have hlen := nextField_length hnext
  cases b with
  | nil => simp at hlen
  | cons c b =>
    rw [length_cons] at hlen
    apply some.inj
    rw [← decodeFields_eq, length_cons, decodeFields, hnext]
    simp only [ha]
    exact decodeFields_of_le s' (by omega)

theorem readFields_context {c : Context} (rest : List UInt8) :
    readFields s (addField 2 c.toUInt64 ++ rest) =
      readFields { s with delivery.frame.target := 0, delivery.context := c } rest := by
  refine readFields_step (fun fuel => consumeField_varint (by decide) (by decide) fuel rest _) ?_
  have hle : ¬0xFFFFFFFF < c.toUInt64 := by
    rw [UInt64.not_lt, UInt64.le_iff_toNat_le, UInt8.toNat_toUInt64]
    exact le_trans (le_of_lt c.toNat_lt) (by decide)
  simp [hle]

theorem readFields_sender (sender : UInt32) (rest : List UInt8) :
    readFields s (addField 3 (UInt64.ofNat sender.toNat) ++ rest) =
      readFields { s with delivery.frame.senderSession := sender.toNat } rest := by
  refine readFields_step (fun fuel => consumeField_varint (by decide) (by decide) fuel rest _) ?_
  have hle : sender.toUInt64 ≤ 0xFFFFFFFF := by
    rw [UInt64.le_iff_toNat_le, UInt32.toNat_toUInt64]
    exact le_of_lt_succ sender.toNat_lt
  simp [hle]

theorem readFields_number (hs : s.delivery.frame.frameNumber = 0) (v : UInt64)
    (rest : List UInt8) :
    readFields s ((if v ≠ 0 then addField 4 v else []) ++ rest) =
      readFields { s with delivery.frame.frameNumber := v } rest := by
  by_cases hv : v = 0
  · rw [if_neg (not_not.mpr hv), nil_append, hv, ← hs]
  · rw [if_pos hv]
    exact readFields_step (fun fuel => consumeField_varint (by decide) (by decide) fuel rest _)
      (by simp)

theorem readFields_opus {data : List UInt8} (hdata : data.length < 2 ^ 64) (rest : List UInt8) :
    readFields s (appendBytes 5 data ++ rest) =
      readFields { s with delivery.frame.opusData := data } rest :=
  readFields_step (fun fuel => consumeField_bytes (by decide) (by decide) fuel rest hdata) (by simp)

theorem place_positionBytes (hs : s.positions = 0) (p : UInt32 × UInt32 × UInt32) :
    s.place (positionBytes p) = some ⟨{ s.delivery with frame.position := p }, 3⟩ := by
  obtain ⟨x, y, z⟩ := p
  have hread : ∀ v : UInt32, readFixed32
      [v.toUInt8, (v >>> 8).toUInt8, (v >>> 16).toUInt8, (v >>> 24).toUInt8] = v :=
    fun v => Wire.readFixed32_appendFixed32 v []
  simp [positionBytes, appendFixed32, Decoding.place, hs, hread]

theorem readFields_position (hs : s.positions = 0) (has : Bool) (p : UInt32 × UInt32 × UInt32)
    (rest : List UInt8) :
    readFields s ((if has then appendBytes 6 (positionBytes p) else []) ++ rest) =
      readFields (if has then ⟨{ s.delivery with frame.position := p }, 3⟩ else s) rest := by
  cases has with
  | false => rfl
  | true =>
    refine readFields_step (fun fuel =>
      consumeField_bytes (by decide) (by decide) fuel rest (by simp)) ?_
    simp [place_positionBytes hs]

theorem readFields_volume (v : UInt32) (rest : List UInt8) :
    readFields s ((if plainVolume v = false then appendTag 7 5 ++ appendFixed32 v else []) ++ rest) =
      readFields (if plainVolume v = false then { s with delivery.volumeAdjustment := v } else s)
        rest := by
  by_cases hv : plainVolume v = false
  · rw [if_pos hv, if_pos hv]
    refine readFields_step (fun fuel =>
      consumeField_fixed32 (by decide) (by decide) fuel rest v) ?_
    have hread : readFixed32 (appendFixed32 v) = v := Wire.readFixed32_appendFixed32 v []
    simp [hread]
  · rw [if_neg hv, if_neg hv]
    rfl

theorem readFields_terminator (hs : s.delivery.frame.isTerminator = false) (flag : Bool) :
    readFields s (if flag then addField 16 1 else []) =
      some { s with delivery.frame.isTerminator := flag } := by
  cases flag with
  | false =>
    rw [if_neg (by simp)]
    show some s = _
    rw [← hs]
  | true =>
    have hstep : readFields s (addField 16 1 ++ []) =
        readFields { s with delivery.frame.isTerminator := true } [] :=
      readFields_step (fun fuel =>
        consumeField_varint (n := 16) (by decide) (by decide) fuel [] 1)
        (by simp)
    rw [append_nil] at hstep
    exact hstep

end message

/-- What is known when the last field of a packet of the server is read. -/
def decoded (d : Delivery) : Decoding where
  delivery := {
    frame := { d.frame with
      codec := codecOpus
      target := 0
      position := if d.frame.hasPosition then d.frame.position else (0, 0, 0)
      hasPosition := false }
    context := d.context
    volumeAdjustment := if plainVolume d.volumeAdjustment = false then d.volumeAdjustment else 0 }
  positions := if d.frame.hasPosition then 3 else 0

theorem readFields_encoded
    (hsender : d.frame.senderSession = sender.toNat) (hdata : d.frame.opusData.length < 2 ^ 64)
    (hb : encodeProtobuf d true = 0 :: b) : readFields blank b = some (decoded d) := by
  simp only [encodeProtobuf, if_true, true_and, hsender, append_assoc, cons_append,
    nil_append, List.cons.injEq] at hb
  rw [← hb, readFields_context, readFields_sender, readFields_number rfl, readFields_opus hdata,
    readFields_position rfl, readFields_volume, readFields_terminator]
  · unfold decoded
    rw [← hsender]
    cases d.frame.hasPosition with
    | false | true => split_ifs <;> rfl
  · cases d.frame.hasPosition with
    | false | true => split_ifs <;> rfl

theorem received_protobuf (hopus : d.frame.opusData ≠ [])
    (hsender : d.frame.senderSession = sender.toNat)
    (hlen : (encodeProtobuf d true).length ≤ maxPacketSize) :
    ∃ d', received .protobuf (encodeProtobuf d true) = .ok d' ∧ Survives d d' ∧
      (plainVolume d.volumeAdjustment = false → d'.volumeAdjustment = d.volumeAdjustment) := by
  have hdata : d.frame.opusData.length < 2 ^ 64 := by
    have : d.frame.opusData.length ≤ (encodeProtobuf d true).length := by
      simp only [encodeProtobuf, appendBytes, appendLengthDelimited, length_append]
      omega
    exact lt_of_le_of_lt (le_trans this hlen) (by decide)
  obtain ⟨b, hb⟩ : ∃ b, encodeProtobuf d true = 0 :: b := ⟨_, by simp [encodeProtobuf]; rfl⟩
  have hread := readFields_encoded hsender hdata hb
  rw [hb, length_cons] at hlen
  have hpositions : decide ((decoded d).positions = 3) = d.frame.hasPosition := by
    unfold decoded
    cases d.frame.hasPosition <;> rfl
  have hok : ¬((decoded d).delivery.frame.opusData = [] ∨
      ((decoded d).positions ≠ 0 ∧ (decoded d).positions ≠ 3)) := by
    refine not_or.mpr ⟨hopus, ?_⟩
    show ¬((if d.frame.hasPosition then 3 else 0) ≠ 0 ∧ (if d.frame.hasPosition then 3 else 0) ≠ 3)
    cases d.frame.hasPosition <;> decide
  refine ⟨{ (decoded d).delivery with frame.hasPosition := decide ((decoded d).positions = 3) }, ?_,
    ⟨rfl, rfl, rfl, rfl, rfl, hpositions, fun hp => if_pos hp⟩, fun hv => if_pos hv⟩
  rw [hb, received, decodeProtobuf, if_neg (by simpa using hlen), hread]
  simp only [if_neg hok]

/-! ### Transcoding -/

/-- A delivery that is sent, and its packet. -/
inductive Sent : WireMode → Delivery → List UInt8 → Prop
  | legacy {d : Delivery} {b : List UInt8} (codec : d.frame.codec = codecOpus)
      (context : d.context ≤ contextListen) (length : b.length ≤ maxPacketSize)
      (packet : encodeLegacy d true = .ok b) : Sent .legacy d b
  | protobuf {d : Delivery} (opusData : d.frame.opusData ≠ [])
      (length : (encodeProtobuf d true).length ≤ maxPacketSize) :
      Sent .protobuf d (encodeProtobuf d true)

theorem sent_of_encodeServerPacket {mode : WireMode}
    (h : encodeServerPacket mode d = .ok b) : Sent mode d b := by
  unfold encodeServerPacket at h
  split at h
  · cases h
  · next hlimits =>
      simp only [not_or, not_not] at hlimits
      obtain ⟨hcodec, hopus, -, hctx⟩ := hlimits
      obtain ⟨b', hb', h⟩ := Wire.bind_ok h
      split_ifs at h with hlen
      obtain rfl := Except.ok.inj h
      cases mode with
      | legacy => exact .legacy hcodec (UInt8.not_lt.mp hctx) (Nat.le_of_not_lt hlen) hb'
      | protobuf =>
        obtain rfl := Except.ok.inj hb'
        exact .protobuf hopus (Nat.le_of_not_lt hlen)
      | other value => cases hb'

/-- **Audio survives transcoding**: whatever packet of a client is accepted, in whatever form, and
whatever the session of the sender, the form, context and volume of the recipient are, what is sent
is read back with the sender, the frame number, the Opus data, the terminator flag, the context and
the position if there is one; and with the volume, if the form has one and it is neither 0 nor 1. -/
theorem audio_transcoded {mode : WireMode} {data : List UInt8} {f : Frame}
    (_hf : decodeClientPacket mode data = .ok f) (sender : UInt32) (out : WireMode) (c : Context)
    (volume : UInt32) {b : List UInt8}
    (hb : encodeServerPacket out ⟨{ f with senderSession := sender.toNat }, c, volume⟩ = .ok b) :
    ∃ d', received out b = .ok d' ∧ d'.frame.senderSession = sender.toNat ∧
      d'.frame.frameNumber = f.frameNumber ∧ d'.frame.opusData = f.opusData ∧
      d'.frame.isTerminator = f.isTerminator ∧ d'.context = c ∧
      d'.frame.hasPosition = f.hasPosition ∧
      (f.hasPosition = true → d'.frame.position = f.position) ∧
      (out = .protobuf → plainVolume volume = false → d'.volumeAdjustment = volume) := by
  cases sent_of_encodeServerPacket hb with
  | legacy hcodec hctx hlen hpacket =>
    obtain ⟨d', hd', h⟩ := received_legacy hcodec hctx rfl hpacket hlen
    exact ⟨d', hd', h.sender, h.frameNumber, h.opusData, h.isTerminator, h.context,
      h.hasPosition, h.position, fun hout => by cases hout⟩
  | protobuf hopus hlen =>
    obtain ⟨d', hd', h, hvolume⟩ := received_protobuf hopus rfl hlen
    exact ⟨d', hd', h.sender, h.frameNumber, h.opusData, h.isTerminator, h.context,
      h.hasPosition, h.position, fun _ => hvolume⟩

/-- A legacy packet with the largest frame number, a position and the terminator flag. -/
def legacyPacket : List UInt8 :=
  [0x87, 0xf4, 255, 255, 255, 255, 255, 255, 255, 255, 0xa0, 2, 0xab, 0xcd,
    0, 0, 0x80, 0x3f, 0, 0, 0, 0xc0, 0, 0, 0, 0x3f]

/-- What it is read as. -/
def legacyFrame : Frame :=
  ⟨codecOpus, 7, 0, 0xFFFFFFFFFFFFFFFF, [0xab, 0xcd], (0x3f800000, 0xc0000000, 0x3f000000), true,
    true⟩

theorem audio_transcoded_protobuf :
    decodeClientPacket .legacy legacyPacket = .ok legacyFrame ∧
    ∃ b d', encodeServerPacket .protobuf ⟨{ legacyFrame with senderSession := (42 : UInt32).toNat },
        Voice.contextWhisper, 0x3f000000⟩ = .ok b ∧ received .protobuf b = .ok d' ∧
      d'.frame.frameNumber = 0xFFFFFFFFFFFFFFFF ∧ d'.volumeAdjustment = 0x3f000000 := by
  have hf : decodeClientPacket .legacy legacyPacket = .ok legacyFrame := by decide +kernel
  have hb : encodeServerPacket .protobuf ⟨{ legacyFrame with senderSession := (42 : UInt32).toNat },
      Voice.contextWhisper, 0x3f000000⟩ = .ok (encodeProtobuf
        ⟨{ legacyFrame with senderSession := (42 : UInt32).toNat }, Voice.contextWhisper,
          0x3f000000⟩ true) := by decide +kernel
  obtain ⟨d', hd', -, hnumber, -, -, -, -, -, hvolume⟩ :=
    audio_transcoded hf 42 .protobuf Voice.contextWhisper 0x3f000000 hb
  exact ⟨hf, _, d', hb, hd', hnumber, hvolume rfl (by decide)⟩

end MumbleServer.Audio
