import MumbleServer.CryptState

/-! # Ideal ciphers

What the security statements assume of the two ciphers, and a concrete cipher of each kind
that satisfies it.  `AEAD.Ideal`: `Open` succeeds exactly on sealed texts.
`LegacyCipher.OpensOnlyUnder`: a legacy packet is accepted under one nonce and no other.  A
three-byte tag cannot have this property for every packet there is, so it is asked of single
packets. -/

namespace MumbleServer.Crypto

open List

/-- `Open` succeeds exactly on sealed texts. -/
def AEAD.Ideal (aead : AEAD) : Prop :=
  ∀ nonce ct, (aead.Open nonce ct).isSome = true ↔ ∃ plain, ct = aead.Seal nonce plain

namespace LegacyCipher

/-- The ciphertext and tag of a packet are accepted under `nonce`. -/
def Opens (block : LegacyCipher) (nonce : Block 16) (src : Bytes) : Prop :=
  (block.decrypt nonce (src.drop 4) ((src.drop 1).take 3)).2 = true

/-- The packet is accepted under exactly the nonce `nonce`. -/
def OpensOnlyUnder (block : LegacyCipher) (nonce : Block 16) (src : Bytes) : Prop :=
  ∀ n, block.Opens n src ↔ n = nonce

/-- The packet is accepted under at most one nonce. -/
def OpensUnderOne (block : LegacyCipher) (src : Bytes) : Prop :=
  ∀ n m, block.Opens n src → block.Opens m src → n = m

theorem OpensOnlyUnder.opensUnderOne {block : LegacyCipher} {nonce : Block 16} {src : Bytes}
    (h : block.OpensOnlyUnder nonce src) : block.OpensUnderOne src := fun n m hn hm =>
  ((h n).mp hn).trans ((h m).mp hm).symm

theorem opens_congr {block : LegacyCipher} {nonce : Block 16} {src src' : Bytes}
    (h : src.drop 1 = src'.drop 1) : block.Opens nonce src ↔ block.Opens nonce src' := by
  have h4 : src.drop 4 = src'.drop 4 := by
    have := congrArg (List.drop 3) h
    simpa [drop_drop] using this
  rw [Opens, Opens, h, h4]

end LegacyCipher

/-! ### An AEAD with the nonce as its tag -/

/-- The nonce, filled up to sixteen bytes. -/
def nonceTag (nonce : Bytes) : Bytes := (nonce ++ List.replicate 16 0).take 16

theorem nonceTag_length (nonce : Bytes) : (nonceTag nonce).length = 16 := by
  simp [nonceTag]

/-- An AEAD that appends the tag in the clear. -/
def tagAEAD : AEAD where
  Seal nonce src := src ++ nonceTag nonce
  Open nonce ct :=
    if 16 ≤ ct.length ∧ ct.drop (ct.length - 16) = nonceTag nonce then
      some (ct.take (ct.length - 16))
    else none
  seal_length nonce src := by simp [nonceTag_length]
  open_length nonce ct plain h := by
    split_ifs at h with hc
    cases h
    rw [length_take]
    omega

theorem tagAEAD_ideal : tagAEAD.Ideal := by
  intro nonce ct
  simp only [tagAEAD]
  constructor
  · intro h
    split_ifs at h with hc
    · exact ⟨ct.take (ct.length - 16), by rw [← hc.2, take_append_drop]⟩
    · simp at h
  · rintro ⟨plain, rfl⟩
    simp [nonceTag_length]

/-! ### A pad cipher that recognises sixteen leading zero bytes -/

/-- The nonce as a pad of the given length. -/
def noncePad (nonce : Block 16) (n : ℕ) : Bytes := (nonce.bytes ++ List.replicate n 0).take n

variable (nonce : Block 16)

theorem noncePad_length (n : ℕ) : (noncePad nonce n).length = n := by
  simp only [noncePad, length_take, length_append, length_replicate]
  omega

/-- Exclusive or with the nonce; the plaintext is recognised by its first sixteen bytes. -/
def padCipher : LegacyCipher where
  encrypt nonce src := (Ocb2.xorBytes (noncePad nonce src.length) src, [0, 0, 0])
  decrypt nonce ct _ :=
    let plain := Ocb2.xorBytes (noncePad nonce ct.length) ct
    (plain, decide (plain.take 16 = List.replicate 16 0))
  encrypt_length nonce src := by simp [Ocb2.xorBytes_length, noncePad_length]
  tag_length _ _ := rfl
  decrypt_length nonce ct _ := by simp [Ocb2.xorBytes_length, noncePad_length]

theorem xorBytes_zeros (a : Bytes) : Ocb2.xorBytes a (List.replicate a.length 0) = a := by
  induction a with
  | nil => rfl
  | cons x xs ih =>
    simp only [Ocb2.xorBytes, length_cons, replicate_succ, zipWith_cons_cons] at ih ⊢
    rw [ih]
    simp

theorem noncePad_sixteen : noncePad nonce 16 = nonce.bytes := by
  rw [noncePad, take_append_of_le_length nonce.length_bytes.ge,
    take_of_length_le nonce.length_bytes.le]

/-- The pad of a zero block names its nonce. -/
theorem padCipher_opensOnlyUnder (iv : UInt8) :
    padCipher.OpensOnlyUnder nonce (iv :: [0, 0, 0] ++ nonce.bytes) := by
  intro n
  have hl := nonce.length_bytes
  simp only [LegacyCipher.Opens, padCipher, cons_append, nil_append,
    drop_succ_cons, drop_zero, hl, noncePad_sixteen, decide_eq_true_eq]
  rw [take_of_length_le (by rw [Ocb2.xorBytes_length, n.length_bytes, hl, Nat.min_self])]
  have hz : ∀ b : Block 16, Ocb2.xorBytes b.bytes (List.replicate 16 0) = b.bytes := fun b => by
    have := xorBytes_zeros b.bytes
    rwa [b.length_bytes] at this
  constructor
  · intro h
    have hc := Ocb2.xorBytes_cancel_left n.bytes nonce.bytes (by rw [n.length_bytes, hl])
    rw [h, hz] at hc
    exact Ocb2.block_ext hc
  · rintro rfl
    have hc := Ocb2.xorBytes_cancel_left n.bytes (List.replicate 16 0) (by simp [n.length_bytes])
    rwa [hz] at hc

def sampleCiphers : Ciphers where
  newLegacy _ := padCipher
  newSecure _ := tagAEAD

end MumbleServer.Crypto
