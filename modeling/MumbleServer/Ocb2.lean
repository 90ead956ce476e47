import MumbleServer.ByteBlock

/-! # OCB2 over a 16-byte block cipher

`pkg/mumble/crypto/ocb2/ocb2.go`: the authenticated mode of the legacy voice channel.  The
block cipher is a parameter (`BlockCipher`: a permutation of 16-byte blocks together with
its inverse), everything else follows the source.  The whole blocks of the message are
consumed one at a time while more than sixteen bytes remain (`encryptFull`, `decryptFull`);
the last one to sixteen bytes (or none, for an empty message) go through the pad
(`finishEncrypt`, `finishDecrypt`).

The source works in place on slices; here every buffer is a value.  The loops of `times2`
and `times3` read index `i + 1` before it is overwritten, so they are maps over adjacent
bytes.  The round trip is `decrypt_encrypt`. -/

namespace MumbleServer.Ocb2

open List
variable {rest : Bytes}

/-- A permutation of 16-byte blocks and its inverse (`cipher.Block`). -/
structure BlockCipher where
  encrypt : Block 16 → Block 16
  decrypt : Block 16 → Block 16
  decrypt_encrypt : ∀ b, decrypt (encrypt b) = b

/-- Bytewise exclusive or, as long as both operands last. -/
def xorBytes (a b : Bytes) : Bytes := List.zipWith (· ^^^ ·) a b

/-- `xor` on whole blocks. -/
def xor (a b : Block 16) : Block 16 :=
  ⟨xorBytes a.bytes b.bytes, by simp [xorBytes, a.length_bytes, b.length_bytes]⟩

/-- The shift loop of `times2`: each byte takes the top bit of the next one, the last byte
takes the reduction constant if a bit was carried out. -/
def shiftLoop (carry : UInt8) : Bytes → Bytes
  | [] => []
  | [b] => [(b <<< 1) ^^^ (carry * 135)]
  | b :: c :: bs => ((b <<< 1) ||| ((c >>> 7) &&& 1)) :: shiftLoop carry (c :: bs)

theorem shiftLoop_length (carry : UInt8) : ∀ bs, (shiftLoop carry bs).length = bs.length
  | [] => rfl
  | [_] => rfl
  | _ :: c :: bs => by simp [shiftLoop, shiftLoop_length carry (c :: bs)]

/-- Doubling in the field of the mode. -/
def times2 (b : Block 16) : Block 16 :=
  ⟨shiftLoop ((b.get 0 >>> 7) &&& 1) b.bytes, by rw [shiftLoop_length, b.length_bytes]⟩

/-- Tripling: the doubled block is added to the block itself. -/
def times3 (b : Block 16) : Block 16 := xor b (times2 b)

/-- The block holding the bit length of the last chunk in its two last bytes. -/
def lengthBlock (remain : ℕ) : Block 16 :=
  ((Block.zero 16).put 14 (UInt8.ofNat (remain * 8 / 256))).put 15 (UInt8.ofNat (remain * 8))

/-- The pad for the last chunk. -/
def padBlock (block : BlockCipher) (delta : Block 16) (remain : ℕ) : Block 16 :=
  block.encrypt (xor (lengthBlock remain) delta)

/-- The first sixteen bytes of a longer message. -/
def firstBlock (src : Bytes) : Block 16 :=
  ⟨(src ++ List.replicate 16 0).take 16, by simp⟩

/-- The last chunk filled up with the pad (`copy(tmp[remain:], pad[remain:])`). -/
def padTail (rest : Bytes) (pad : Block 16) : Block 16 :=
  ⟨(rest ++ pad.bytes.drop rest.length).take 16, by
    have := pad.length_bytes
    simp only [length_take, length_append, length_drop]
    omega⟩

/-- The full tag for a final `delta` and checksum. -/
def calcTag (block : BlockCipher) (delta checksum : Block 16) : Block 16 :=
  block.encrypt (xor (times3 delta) checksum)

/-- The last chunk of `Encrypt`: its ciphertext and the full tag. -/
def finishEncrypt (block : BlockCipher) (delta checksum : Block 16) (rest : Bytes) :
    Bytes × Block 16 :=
  let delta := times2 delta
  let pad := padBlock block delta rest.length
  let tmp := padTail rest pad
  ((xor pad tmp).bytes.take rest.length, calcTag block delta (xor checksum tmp))

/-- The loop of `Encrypt` over the blocks of the message. -/
def encryptFull (block : BlockCipher) (delta checksum : Block 16) (src : Bytes) :
    Bytes × Block 16 :=
  if 16 < src.length then
    let delta := times2 delta
    let tmp := block.encrypt (xor delta (firstBlock src))
    let out := encryptFull block delta (xor checksum (firstBlock src)) (src.drop 16)
    ((xor delta tmp).bytes ++ out.1, out.2)
  else finishEncrypt block delta checksum src
termination_by src.length
decreasing_by simp; omega

/-- `Encrypt`: the ciphertext and the tag cut to `tagLen` bytes. -/
def encrypt (block : BlockCipher) (src : Bytes) (nonce : Block 16) (tagLen : ℕ) : Bytes × Bytes :=
  let out := encryptFull block (block.encrypt nonce) (Block.zero 16) src
  (out.1, out.2.bytes.take tagLen)

/-- The last chunk of `Decrypt`: its plaintext and the full tag. -/
def finishDecrypt (block : BlockCipher) (delta checksum : Block 16) (rest : Bytes) :
    Bytes × Block 16 :=
  let delta := times2 delta
  let pad := padBlock block delta rest.length
  let tmp := padTail (xorBytes rest pad.bytes) pad
  (tmp.bytes.take rest.length, calcTag block delta (xor checksum tmp))

/-- The loop of `Decrypt` over the blocks of the ciphertext. -/
def decryptFull (block : BlockCipher) (delta checksum : Block 16) (src : Bytes) :
    Bytes × Block 16 :=
  if 16 < src.length then
    let delta := times2 delta
    let plain := xor delta (block.decrypt (xor delta (firstBlock src)))
    let out := decryptFull block delta (xor checksum plain) (src.drop 16)
    (plain.bytes ++ out.1, out.2)
  else finishDecrypt block delta checksum src
termination_by src.length
decreasing_by simp; omega

/-- `Decrypt`: the bytes written to the destination and whether the tag is the computed one
(`subtle.ConstantTimeCompare` is false on different lengths). -/
def decrypt (block : BlockCipher) (src : Bytes) (nonce : Block 16) (tag : Bytes) : Bytes × Bool :=
  let out := decryptFull block (block.encrypt nonce) (Block.zero 16) src
  (out.1, decide (out.2.bytes.take (min tag.length 16) = tag))

/-! ### Exclusive or cancels -/

theorem xorBytes_length (a b : Bytes) : (xorBytes a b).length = min a.length b.length := by
  simp [xorBytes]

theorem xorBytes_cancel_left : ∀ (a b : Bytes), b.length ≤ a.length → xorBytes a (xorBytes a b) = b
  | _, [], _ => by simp [xorBytes]
  | [], b :: bs, h => by simp at h
  | a :: as, b :: bs, h => by
    have ih := xorBytes_cancel_left as bs (by simpa using h)
    simp only [xorBytes, zipWith_cons_cons] at ih ⊢
    rw [ih, ← UInt8.xor_assoc, UInt8.xor_self, UInt8.zero_xor]

theorem xorBytes_comm (a b : Bytes) : xorBytes a b = xorBytes b a := by
  unfold xorBytes
  rw [zipWith_comm]
  simp [UInt8.xor_comm]

theorem block_ext {n : ℕ} {a b : Block n} (h : a.bytes = b.bytes) : a = b := by
  cases a; cases b; simpa using h

theorem xor_cancel_left (a b : Block 16) : xor a (xor a b) = b := by
  apply block_ext
  exact xorBytes_cancel_left a.bytes b.bytes (by rw [a.length_bytes, b.length_bytes])

/-! ### Chunks of the message -/

theorem firstBlock_bytes {src : Bytes} (h : 16 < src.length) :
    (firstBlock src).bytes = src.take 16 := by
  simp only [firstBlock]
  rw [take_append_of_le_length (by omega)]

theorem firstBlock_append (b : Block 16) (rest : Bytes) : firstBlock (b.bytes ++ rest) = b := by
  apply block_ext
  have hl := b.length_bytes
  simp only [firstBlock, append_assoc]
  rw [take_append_of_le_length (by omega), take_of_length_le (by omega)]

theorem drop_append (b : Block 16) (rest : Bytes) : (b.bytes ++ rest).drop 16 = rest := by
  have hl := b.length_bytes
  rw [drop_append_of_le_length (by omega), drop_of_length_le (by omega)]
  rfl

theorem padTail_bytes (pad : Block 16) (h : rest.length ≤ 16) :
    (padTail rest pad).bytes = rest ++ pad.bytes.drop rest.length := by
  have hl := pad.length_bytes
  simp only [padTail]
  rw [take_of_length_le]
  simp only [length_append, length_drop]
  omega

section
variable (block : BlockCipher) (delta checksum : Block 16)
include block delta checksum

theorem finishEncrypt_length
    (h : rest.length ≤ 16) : (finishEncrypt block delta checksum rest).1.length = rest.length := by
  simp only [finishEncrypt, length_take, (xor _ _).length_bytes]
  omega

theorem encryptFull_length (src : Bytes) :
    (encryptFull block delta checksum src).1.length = src.length := by
  induction delta, checksum, src using encryptFull.induct block with
  | case1 delta checksum src h delta' ih =>
    rw [encryptFull, if_pos h]
    simp only [length_append, (xor _ _).length_bytes, length_drop] at ih ⊢
    rw [ih]
    omega
  | case2 delta checksum src h =>
    rw [encryptFull, if_neg h]
    exact finishEncrypt_length block delta checksum (by omega)

theorem decryptFull_length (src : Bytes) :
    (decryptFull block delta checksum src).1.length = src.length := by
  induction delta, checksum, src using decryptFull.induct block with
  | case1 delta checksum src h delta' plain ih =>
    rw [decryptFull, if_pos h]
    simp only [length_append, (xor _ _).length_bytes, length_drop] at ih ⊢
    rw [ih]
    omega
  | case2 delta checksum src h =>
    rw [decryptFull, if_neg h]
    simp only [finishDecrypt, length_take, (padTail _ _).length_bytes]
    omega

/-! ### The round trip -/

theorem finishDecrypt_finishEncrypt (h : rest.length ≤ 16) :
    finishDecrypt block delta checksum (finishEncrypt block delta checksum rest).1 =
      (rest, (finishEncrypt block delta checksum rest).2) := by
  have hlen := finishEncrypt_length block delta checksum h
  simp only [finishDecrypt, hlen]
  simp only [finishEncrypt]
  generalize padBlock block (times2 delta) rest.length = pad
  have hp := pad.length_bytes
  -- the ciphertext of the chunk is the chunk xored with the front of the pad
  have hct : (xor pad (padTail rest pad)).bytes.take rest.length = xorBytes rest pad.bytes := by
    simp only [xor, padTail_bytes pad h, xorBytes, take_zipWith]
    rw [take_append_of_le_length le_rfl, take_length, zipWith_comm]
    conv_rhs => rw [← take_append_drop rest.length pad.bytes]
    rw [← append_nil rest, zipWith_append]
    · simp [UInt8.xor_comm]
    · simp; omega
  have hback : xorBytes (xorBytes rest pad.bytes) pad.bytes = rest := by
    rw [xorBytes_comm, xorBytes_comm rest]
    exact xorBytes_cancel_left _ _ (by omega)
  rw [hct, hback, padTail_bytes pad h, take_append_of_le_length le_rfl, take_length]

theorem decryptFull_encryptFull (src : Bytes) :
    decryptFull block delta checksum (encryptFull block delta checksum src).1 =
      (src, (encryptFull block delta checksum src).2) := by
  induction delta, checksum, src using encryptFull.induct block with
  | case1 delta checksum src h delta' ih =>
    have hlen := encryptFull_length block delta checksum src
    rw [decryptFull, hlen, if_pos h]
    rw [encryptFull, if_pos h]
    simp only [firstBlock_append, drop_append, xor_cancel_left, block.decrypt_encrypt]
    rw [ih, firstBlock_bytes h, take_append_drop]
  | case2 delta checksum src h =>
    have hlen := encryptFull_length block delta checksum src
    rw [decryptFull, hlen, if_neg h]
    rw [encryptFull, if_neg h]
    exact finishDecrypt_finishEncrypt block delta checksum (by omega)

end

section
variable (block : BlockCipher) (src : Bytes) (nonce : Block 16)
include block src nonce

theorem encrypt_length (tagLen : ℕ) : (encrypt block src nonce tagLen).1.length = src.length :=
  encryptFull_length block _ _ src

theorem encrypt_tag_length {tagLen : ℕ}
    (h : tagLen ≤ 16) : (encrypt block src nonce tagLen).2.length = tagLen := by
  simp only [encrypt, length_take, Block.length_bytes]
  omega

theorem decrypt_length (tag : Bytes) : (decrypt block src nonce tag).1.length = src.length :=
  decryptFull_length block _ _ src

/-- Decryption under the nonce of the encryption accepts the tag, however it was cut, and
returns the message. -/
theorem decrypt_encrypt {tagLen : ℕ}
    (h : tagLen ≤ 16) :
    decrypt block (encrypt block src nonce tagLen).1 nonce (encrypt block src nonce tagLen).2 =
      (src, true) := by
  have htag := encrypt_tag_length block src nonce h
  simp only [decrypt, htag]
  simp only [encrypt, decryptFull_encryptFull]
  rw [Nat.min_eq_left h]
  simp

end

end MumbleServer.Ocb2
