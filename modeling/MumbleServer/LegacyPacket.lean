import MumbleServer.IdealCiphers

/-! # One legacy packet

`decryptLegacy` in the form the later proofs use.  The received byte picks at most one nonce
to try (`candidate`): the successor of the stored nonce with that low byte, if it is ahead, or
the stored nonce with that low byte, if it is a little behind; the second case is a late
packet.  `decryptLegacy_cases` is the whole behaviour for a packet that is long enough and a
buffer that takes it. -/

namespace MumbleServer.Crypto

open List Block

/-! ### The nonce to try -/

/-- The nonce a received byte stands for, and whether the packet is late. -/
def candidate (nonce : Block 16) (ivByte : UInt8) : Option (Block 16 × Bool) :=
  if 1 ≤ nonceDiff ivByte (nonce.get 0) then some (advanceNonce nonce ivByte, false)
  else if -30 < nonceDiff ivByte (nonce.get 0) ∧ nonceDiff ivByte (nonce.get 0) < 0 then
    some (nonce.put 0 ivByte, true)
  else none

theorem nonceDiff_le (a b : UInt8) : nonceDiff a b ≤ 128 := by
  have ha : a.toNat < 256 := a.toNat_lt
  have hb : b.toNat < 256 := b.toNat_lt
  simp only [nonceDiff]
  split_ifs <;> omega

variable (nonce : Block 16)

theorem val_advanceNonce (ivByte : UInt8) :
    (advanceNonce nonce ivByte).val = ivByte.toNat +
      256 * (if ivByte.toNat < nonce.val % 256 then (nonce.val / 256 + 1) % 256 ^ 15
        else nonce.val / 256) := by
  have hiv : ivByte.toNat < 256 := ivByte.toNat_lt
  have hget : (ivByte < nonce.get 0) = (ivByte.toNat < nonce.val % 256) := by
    rw [UInt8.lt_iff_toNat_lt, get_zero_val]
  simp only [advanceNonce, hget]
  split_ifs with h
  · rw [val_bump_one, val_put_zero]
    congr 1
    · omega
    · congr 3
      omega
  · rw [val_put_zero]

theorem nonceDiff_of_lt {a b : UInt8} {g : ℕ} (hg : g < 128)
    (h : a.toNat = (b.toNat + g) % 256) : nonceDiff a b = g := by
  have hb : b.toNat < 256 := b.toNat_lt
  simp only [nonceDiff]
  split_ifs <;> omega

theorem nonceDiff_of_behind {a b : UInt8} {d : ℕ} (hd : d < 128)
    (h : b.toNat = (a.toNat + d) % 256) : nonceDiff a b = -d := by
  have ha : a.toNat < 256 := a.toNat_lt
  simp only [nonceDiff]
  split_ifs <;> omega

theorem low_advance (g : ℕ) :
    ((nonce.advance g).get 0).toNat = ((nonce.get 0).toNat + g) % 256 := by
  rw [get_zero_val, get_zero_val, val_advance]
  omega

/-- A byte up to 127 increments ahead stands for the nonce that many increments ahead. -/
theorem candidate_ahead {g : ℕ} (h0 : 0 < g) (h1 : g < 128) :
    candidate nonce ((nonce.advance g).get 0) = some (nonce.advance g, false) := by
  have hlow := low_advance nonce g
  have hnonce : advanceNonce nonce ((nonce.advance g).get 0) = nonce.advance g := by
    have hlt := nonce.val_lt
    apply val_injective
    rw [val_advanceNonce, hlow, get_zero_val, val_advance]
    split_ifs <;> omega
  rw [candidate, nonceDiff_of_lt h1 hlow, if_pos (by omega), hnonce]

/-- A byte a little behind stands for the stored nonce with that low byte. -/
theorem candidate_late {d : ℕ} (h0 : 0 < d) (h1 : d < 30) :
    candidate (nonce.advance d) (nonce.get 0) =
      some ((nonce.advance d).put 0 (nonce.get 0), true) := by
  rw [candidate, nonceDiff_of_behind (by omega) (low_advance nonce d), if_neg (by omega),
    if_pos (by omega)]

namespace CryptState

/-- The counters after a packet was counted as lost ones in between, or as late. -/
def counted (c : CryptState) (ivByte : UInt8) : CryptState :=
  if 1 ≤ nonceDiff ivByte (c.decNonce.get 0) then
    { c with lost := c.lost + UInt32.ofNat (nonceDiff ivByte (c.decNonce.get 0) - 1).toNat }
  else { c with late := c.late + 1 }

/-- The state after a packet was accepted under `nonce`. -/
def accepted (c : CryptState) (ivByte : UInt8) (nonce : Block 16) (late : Bool) : CryptState :=
  { c.counted ivByte with
    decHistory := Function.update c.decHistory ivByte (nonce.get 1)
    decNonce := if late then c.decNonce else nonce
    good := c.good + 1 }

/-- Under `nonce`, the packet is in the history or its tag is wrong. -/
def RefusedUnder (c : CryptState) (block : LegacyCipher) (nonce : Block 16) (src : Bytes) : Prop :=
  c.decHistory (src.getD 0 0) = nonce.get 1 ∨ ¬ block.Opens nonce src

end CryptState

section counted
variable (c : CryptState) (ivByte : UInt8)

open CryptState

theorem counted_decNonce : (c.counted ivByte).decNonce = c.decNonce := by
  unfold counted; split_ifs <;> rfl

theorem counted_decHistory : (c.counted ivByte).decHistory = c.decHistory := by
  unfold counted; split_ifs <;> rfl

theorem counted_good : (c.counted ivByte).good = c.good := by
  unfold counted; split_ifs <;> rfl

theorem counted_legacyBlock : (c.counted ivByte).legacyBlock = c.legacyBlock := by
  unfold counted; split_ifs <;> rfl

theorem accepted_mode (nonce : Block 16) (late : Bool) :
    (c.accepted ivByte nonce late).mode = c.mode := by
  unfold accepted counted; split_ifs <;> rfl

theorem accepted_legacyBlock (nonce : Block 16) (late : Bool) :
    (c.accepted ivByte nonce late).legacyBlock = c.legacyBlock :=
  counted_legacyBlock c ivByte

end counted

/-! ### What a packet holds -/

/-- The packet of a plaintext under a nonce. -/
def legacyPacket (block : LegacyCipher) (nonce : Block 16) (plain : Bytes) : Bytes :=
  nonce.get 0 :: ((block.encrypt nonce plain).2 ++ (block.encrypt nonce plain).1)

/-- Decryption undoes encryption under the same nonce. -/
def LegacyCipher.Inverts (block : LegacyCipher) : Prop :=
  ∀ nonce plain, block.decrypt nonce (block.encrypt nonce plain).1 (block.encrypt nonce plain).2 =
    (plain, true)

theorem ocb2Cipher_inverts (block : Ocb2.BlockCipher) : (ocb2Cipher block).Inverts :=
  fun nonce plain => Ocb2.decrypt_encrypt block plain nonce (by decide)

section packet
variable (block : LegacyCipher) (nonce : Block 16) (plain : Bytes)

theorem legacyPacket_length :
    (legacyPacket block nonce plain).length = plain.length + legacyOverhead := by
  simp only [legacyPacket, length_cons, length_append, block.tag_length,
    block.encrypt_length, legacyOverhead, legacyTagSize]
  omega

theorem legacyPacket_first : (legacyPacket block nonce plain).getD 0 0 = nonce.get 0 := rfl

theorem legacyPacket_tag :
    ((legacyPacket block nonce plain).drop 1).take 3 = (block.encrypt nonce plain).2 := by
  simp only [legacyPacket, drop_succ_cons, drop_zero]
  rw [take_append_of_le_length (block.tag_length nonce plain).ge,
    take_of_length_le (block.tag_length nonce plain).le]

theorem legacyPacket_cipher :
    (legacyPacket block nonce plain).drop 4 = (block.encrypt nonce plain).1 := by
  simp only [legacyPacket, drop_succ_cons]
  rw [← block.tag_length nonce plain, drop_left]

theorem legacyPacket_opens (h : block.Inverts) :
    block.Opens nonce (legacyPacket block nonce plain) := by
  rw [LegacyCipher.Opens, legacyPacket_cipher, legacyPacket_tag, h]

theorem padCipher_packet (nonce : Block 16) :
    padCipher.OpensOnlyUnder nonce (legacyPacket padCipher nonce (List.replicate 16 0)) := by
  have hxor : Ocb2.xorBytes nonce.bytes (List.replicate 16 0) = nonce.bytes := by
    have := xorBytes_zeros nonce.bytes
    rwa [nonce.length_bytes] at this
  have he : legacyPacket padCipher nonce (List.replicate 16 0) =
      nonce.get 0 :: [0, 0, 0] ++ nonce.bytes := by
    simp only [legacyPacket, padCipher, length_replicate, noncePad_sixteen, hxor,
      cons_append]
  rw [he]
  exact padCipher_opensOnlyUnder nonce _

theorem encryptLegacy_eq {c : CryptState} (hb : c.legacyBlock = some block) :
    c.encryptLegacy (List.replicate (plain.length + legacyOverhead) 0) plain =
      ⟨{ c with encNonce := c.encNonce.bump 0 }, legacyPacket block (c.encNonce.bump 0) plain,
        none⟩ := by
  simp [CryptState.encryptLegacy, hb, legacyPacket]

end packet

/-! ### The cases of `decryptLegacy` -/

section cases
variable {c : CryptState} {block : LegacyCipher} {dst src : Bytes}

theorem openLegacy_refused {nonce : Block 16} (save : Block 16) (restore : Bool) (dst : Bytes)
    (h : c.RefusedUnder block nonce src) :
    ∃ dst' e, dst'.length = dst.length ∧
      { c with decNonce := nonce }.openLegacy block save restore dst src =
        ⟨{ c with decNonce := save }, dst', some e⟩ := by
  unfold CryptState.openLegacy
  by_cases hh : c.decHistory (src.getD 0 0) = nonce.get 1
  · exact ⟨dst, _, rfl, if_pos hh⟩
  · rw [if_neg hh]
    have ho := h.resolve_left hh
    exact ⟨_, _, copyBytes_length _ _, if_neg ho⟩

theorem openLegacy_accepted {nonce save : Block 16} {restore : Bool}
    (h : ¬ c.RefusedUnder block nonce src) :
    { c with decNonce := nonce }.openLegacy block save restore dst src =
      ⟨{ c with
          decHistory := Function.update c.decHistory (src.getD 0 0) (nonce.get 1)
          decNonce := if restore then save else nonce
          good := c.good + 1 },
        copyBytes dst (block.decrypt nonce (src.drop 4) ((src.drop 1).take 3)).1, none⟩ := by
  obtain ⟨hh, ho⟩ := not_or.mp h
  unfold CryptState.openLegacy
  rw [if_neg hh]
  exact if_pos (not_not.mp ho)

variable (hb : c.legacyBlock = some block) (hlen : legacyOverhead ≤ src.length)
  (hfit : src.length - legacyOverhead ≤ dst.length)
include hb hlen hfit

theorem decryptLegacy_eq : c.decryptLegacy dst src =
    match candidate c.decNonce (src.getD 0 0) with
    | some (nonce, late) =>
      { c.counted (src.getD 0 0) with decNonce := nonce }.openLegacy block c.decNonce late dst src
    | none => ⟨c, dst, some .replayDetected⟩ := by
  simp only [CryptState.decryptLegacy, hb, Nat.not_lt.mpr hlen, Nat.not_lt.mpr hfit, if_false,
    candidate, CryptState.counted]
  generalize nonceDiff (src.getD 0 0) (c.decNonce.get 0) = diff
  by_cases h1 : diff = 1
  · subst h1
    simp
  by_cases h2 : diff > 1
  · have h3 : 1 ≤ diff := by omega
    simp only [h1, h2, h3, if_true, if_false]
  have h3 : ¬ 1 ≤ diff := by omega
  by_cases h4 : diff > -30 ∧ diff < 0
  · simp only [h1, h2, h3, h4, if_true, if_false, and_self]
  · simp only [h1, h2, h3, h4, if_false]

/-- Everything `decryptLegacy` can do with a packet of sufficient length. -/
theorem decryptLegacy_cases :
    (candidate c.decNonce (src.getD 0 0) = none ∧
      c.decryptLegacy dst src = ⟨c, dst, some .replayDetected⟩) ∨
    (∃ nonce late, candidate c.decNonce (src.getD 0 0) = some (nonce, late) ∧
      c.RefusedUnder block nonce src ∧ ∃ dst' e, dst'.length = dst.length ∧
        c.decryptLegacy dst src = ⟨c.counted (src.getD 0 0), dst', some e⟩) ∨
    (∃ nonce late, candidate c.decNonce (src.getD 0 0) = some (nonce, late) ∧
      ¬ c.RefusedUnder block nonce src ∧
      c.decryptLegacy dst src = ⟨c.accepted (src.getD 0 0) nonce late,
        copyBytes dst (block.decrypt nonce (src.drop 4) ((src.drop 1).take 3)).1, none⟩) := by
  rw [decryptLegacy_eq hb hlen hfit]
  rcases hcand : candidate c.decNonce (src.getD 0 0) with _ | ⟨nonce, late⟩
  · exact Or.inl ⟨rfl, rfl⟩
  right
  have href : (c.counted (src.getD 0 0)).RefusedUnder block nonce src ↔
      c.RefusedUnder block nonce src := by
    simp only [CryptState.RefusedUnder, counted_decHistory]
  by_cases hr : c.RefusedUnder block nonce src
  · left
    obtain ⟨dst', e, hl, he⟩ := openLegacy_refused c.decNonce late dst (href.mpr hr)
    refine ⟨nonce, late, rfl, hr, dst', e, hl, he.trans ?_⟩
    rw [← counted_decNonce c (src.getD 0 0)]
  · right
    refine ⟨nonce, late, rfl, hr, (openLegacy_accepted (fun h => hr (href.mp h))).trans ?_⟩
    simp only [CryptState.accepted, counted_decHistory, counted_good]

end cases

theorem decrypt_legacyPacket {c : CryptState} {block : LegacyCipher} (hm : c.mode = .legacy)
    (hb : c.legacyBlock = some block) {own nonce : Block 16} {late : Bool}
    (hc : candidate c.decNonce (own.get 0) = some (nonce, late)) (plain : Bytes) :
    (c.RefusedUnder block nonce (legacyPacket block own plain) ∧
      (c.decrypt (recvBuffer (legacyPacket block own plain))
        (legacyPacket block own plain)).err ≠ none) ∨
    (¬ c.RefusedUnder block nonce (legacyPacket block own plain) ∧
      c.decrypt (recvBuffer (legacyPacket block own plain)) (legacyPacket block own plain) =
        ⟨c.accepted (own.get 0) nonce late,
          copyBytes (recvBuffer (legacyPacket block own plain))
            (block.decrypt nonce (block.encrypt own plain).1 (block.encrypt own plain).2).1,
          none⟩) := by
  have hlen := legacyPacket_length block own plain
  have hfit : (legacyPacket block own plain).length - legacyOverhead ≤
      (recvBuffer (legacyPacket block own plain)).length := by
    simp only [recvBuffer, length_replicate]
    omega
  have hcases := decryptLegacy_cases hb (by omega) hfit
  rw [legacyPacket_first, hc, legacyPacket_cipher, legacyPacket_tag] at hcases
  simp only [CryptState.decrypt, hm]
  rcases hcases with ⟨hnone, -⟩ | ⟨n, l, he, hr, dst', e, -, hd⟩ | ⟨n, l, he, hr, hd⟩
  · cases hnone
  · cases he
    exact Or.inl ⟨hr, by rw [hd]; simp⟩
  · cases he
    exact Or.inr ⟨hr, hd⟩

end MumbleServer.Crypto
