import MumbleServer.Ocb2

/-! # OCB2 on the buffers of its callers

`Encrypt` and `Decrypt` of `pkg/mumble/crypto/ocb2/ocb2.go` as they run: an offset and a count of
remaining bytes walk over the source, every step writes into the buffers that the caller passed
in, and the doubling of the offset block overwrites it byte by byte.  `Ocb2` describes the same
computation on values; here the two are connected (`encryptInto_eq`, `decryptInto_eq`), so that
what is left of a buffer is known to its last byte. -/

namespace MumbleServer.Ocb2

open List

/-- `copy(dst[off:], data)`. -/
def copyAt (dst : Bytes) (off : ℕ) (data : Bytes) : Bytes :=
  dst.take off ++ data.take (dst.length - off) ++ dst.drop (off + data.length)

theorem copyAt_length (dst : Bytes) (off : ℕ) (data : Bytes) :
    (copyAt dst off data).length = dst.length := by
  simp only [copyAt, length_append, length_take, length_drop]
  omega

/-- `copy` into an array. -/
def overlay (b : Block 16) (off : ℕ) (data : Bytes) : Block 16 :=
  ⟨copyAt b.bytes off data, by rw [copyAt_length, b.length_bytes]⟩

/-- The sixteen bytes `src[off:off+16]`. -/
def blockAt (src : Bytes) (off : ℕ) : Block 16 := firstBlock (src.drop off)

/-- A loop that overwrites byte `i` with a function of bytes `i` and `i + 1`, for `i < k`. -/
def sweep (f : UInt8 → UInt8 → UInt8) (b : Block 16) (k : ℕ) : Block 16 :=
  (List.range k).foldl (fun b i => b.put i (f (b.get i) (b.get (i + 1)))) b

/-- What `times2` puts at an index before the last. -/
def shifted (x next : UInt8) : UInt8 := (x <<< 1) ||| ((next >>> 7) &&& 1)

def times2Loop (b : Block 16) : Block 16 :=
  let carry := (b.get 0 >>> 7) &&& 1
  let b := sweep shifted b 15
  b.put 15 ((b.get 15 <<< 1) ^^^ (carry * 135))

def times3Loop (b : Block 16) : Block 16 :=
  let carry := (b.get 0 >>> 7) &&& 1
  let b := sweep (fun x next => x ^^^ shifted x next) b 15
  b.put 15 (b.get 15 ^^^ ((b.get 15 <<< 1) ^^^ (carry * 135)))

/-- The end of both directions: the full tag. -/
def tagOf (block : BlockCipher) (delta checksum : Block 16) : Block 16 :=
  block.encrypt (xor (times3Loop delta) checksum)

/-- The end of `Encrypt`, for the last chunk: the destination and the full tag. -/
def encryptLast (block : BlockCipher) (src dst : Bytes) (delta checksum : Block 16)
    (off remain : ℕ) : Bytes × Block 16 :=
  let delta := times2Loop delta
  let tmp := xor (lengthBlock remain) delta
  let pad := block.encrypt tmp
  let tmp := overlay (overlay tmp 0 (src.drop off)) remain (pad.bytes.drop remain)
  (copyAt dst off ((xor pad tmp).bytes.take remain), tagOf block delta (xor checksum tmp))

def encryptLoop (block : BlockCipher) (src dst : Bytes) (delta checksum : Block 16)
    (off remain : ℕ) : Bytes × Block 16 :=
  if 16 < remain then
    let delta := times2Loop delta
    let tmp := block.encrypt (xor delta (blockAt src off))
    encryptLoop block src (copyAt dst off (xor delta tmp).bytes) delta
      (xor checksum (blockAt src off)) (off + 16) (remain - 16)
  else encryptLast block src dst delta checksum off remain
termination_by remain

/-- `Encrypt`: the destination and the tag buffer afterwards. -/
def encryptInto (block : BlockCipher) (dst src : Bytes) (nonce : Block 16) (tag : Bytes)
    (tagLen : ℕ) : Bytes × Bytes :=
  let out := encryptLoop block src dst (block.encrypt nonce) (Block.zero 16) 0 src.length
  (out.1, copyAt tag 0 (out.2.bytes.take tagLen))

/-- The end of `Decrypt`, for the last chunk: the destination and the full tag. -/
def decryptLast (block : BlockCipher) (src dst : Bytes) (delta checksum : Block 16)
    (off remain : ℕ) : Bytes × Block 16 :=
  let delta := times2Loop delta
  let tmp := xor (lengthBlock remain) delta
  let pad := block.encrypt tmp
  let tmp := overlay (overlay tmp 0 (xorBytes ((src.drop off).take remain) pad.bytes)) remain
    (pad.bytes.drop remain)
  (copyAt dst off (tmp.bytes.take remain), tagOf block delta (xor checksum tmp))

/-- The loop of `Decrypt`; the checksum is taken over what was written. -/
def decryptLoop (block : BlockCipher) (src dst : Bytes) (delta checksum : Block 16)
    (off remain : ℕ) : Bytes × Block 16 :=
  if 16 < remain then
    let delta := times2Loop delta
    let tmp := block.decrypt (xor delta (blockAt src off))
    let dst := copyAt dst off (xor delta tmp).bytes
    decryptLoop block src dst delta (xor checksum (blockAt dst off)) (off + 16) (remain - 16)
  else decryptLast block src dst delta checksum off remain
termination_by remain

/-- `Decrypt`: the destination afterwards and whether the tag is the computed one. -/
def decryptInto (block : BlockCipher) (dst src : Bytes) (nonce : Block 16) (tag : Bytes) :
    Bytes × Bool :=
  let out := decryptLoop block src dst (block.encrypt nonce) (Block.zero 16) 0 src.length
  (out.1, decide (out.2.bytes.take (min tag.length 16) = tag))

/-! ### Doubling in place -/

theorem block_ext_get {a b : Block 16} (h : ∀ i < 16, a.get i = b.get i) : a = b := by
  apply block_ext
  have ha := a.length_bytes
  have hb := b.length_bytes
  apply ext_getElem (by omega)
  intro i h₁ h₂
  have hi := h i (by omega)
  simpa [Block.get, getD_eq_getElem?_getD, h₁, h₂] using hi

variable (b : Block 16)

/-- The loop reads a byte before it is overwritten. -/
theorem get_sweep (f : UInt8 → UInt8 → UInt8) (b : Block 16) {k : ℕ} (hk : k ≤ 16) (j : ℕ) :
    (sweep f b k).get j = if j < k then f (b.get j) (b.get (j + 1)) else b.get j := by
  induction k generalizing j with
  | zero => rfl
  | succ k ih =>
    have hstep : sweep f b (k + 1) =
        (sweep f b k).put k (f ((sweep f b k).get k) ((sweep f b k).get (k + 1))) := by
      simp [sweep, range_succ]
    have hhere : (sweep f b k).get k = b.get k := by rw [ih (by omega), if_neg (by omega)]
    have hnext : (sweep f b k).get (k + 1) = b.get (k + 1) := by
      rw [ih (by omega), if_neg (by omega)]
    rw [hstep, Block.get_put _ (by omega), hhere, hnext, ih (by omega)]
    rcases Nat.lt_trichotomy j k with h | h | h
    · rw [if_neg (by omega), if_pos h, if_pos (by omega)]
    · rw [if_pos h, if_pos (by omega), h]
    · rw [if_neg (by omega), if_neg (by omega), if_neg (by omega)]

theorem getD_shiftLoop (carry : UInt8) : ∀ (bs : Bytes) (j : ℕ), j < bs.length →
    (shiftLoop carry bs).getD j 0 =
      if j + 1 < bs.length then shifted (bs.getD j 0) (bs.getD (j + 1) 0)
      else (bs.getD j 0 <<< 1) ^^^ (carry * 135)
  | [], j, h => by simp at h
  | [b], j, h => by
    have hj : j = 0 := by simpa using h
    subst hj
    simp [shiftLoop]
  | b :: c :: bs, 0, _ => by simp [shiftLoop, shifted]
  | b :: c :: bs, j + 1, h => by
    have ih := getD_shiftLoop carry (c :: bs) j (by simpa using h)
    simpa [shiftLoop] using ih

theorem get_times2 {j : ℕ} (hj : j < 16) :
    (times2 b).get j = if j < 15 then shifted (b.get j) (b.get (j + 1))
      else (b.get j <<< 1) ^^^ (((b.get 0 >>> 7) &&& 1) * 135) := by
  have hb := b.length_bytes
  have hget := getD_shiftLoop ((b.get 0 >>> 7) &&& 1) b.bytes j (by omega)
  rw [hb] at hget
  rw [Block.get, times2, hget]
  by_cases h : j < 15
  · rw [if_pos h, if_pos (by omega)]
    rfl
  · rw [if_neg h, if_neg (by omega)]
    rfl

theorem times2Loop_eq : times2Loop b = times2 b := by
  apply block_ext_get
  intro j hj
  rw [get_times2 b hj, times2Loop]
  simp only [Block.get_put _ (show 15 < 16 by decide),
    get_sweep _ _ (show 15 ≤ 16 by decide)]
  by_cases h : j < 15
  · rw [if_neg (by omega), if_pos h, if_pos h]
  · have h15 : j = 15 := by omega
    rw [if_pos h15, if_neg h, if_neg (by decide), h15]

theorem get_xor (a b : Block 16) {j : ℕ} (hj : j < 16) : (xor a b).get j = a.get j ^^^ b.get j := by
  have ha := a.length_bytes
  have hb := b.length_bytes
  have hja : j < a.bytes.length := by omega
  have hjb : j < b.bytes.length := by omega
  simp [Block.get, xor, xorBytes, getD_eq_getElem?_getD, hja, hjb]

theorem times3Loop_eq : times3Loop b = times3 b := by
  apply block_ext_get
  intro j hj
  rw [times3, get_xor _ _ hj, get_times2 b hj, times3Loop]
  simp only [Block.get_put _ (show 15 < 16 by decide),
    get_sweep _ _ (show 15 ≤ 16 by decide)]
  by_cases h : j < 15
  · rw [if_neg (by omega), if_pos h, if_pos h]
  · have h15 : j = 15 := by omega
    rw [if_pos h15, if_neg h, if_neg (by decide), h15]

/-! ### Writing the chunks -/

section copying
variable {dst : Bytes}
variable {off : ℕ} {data : Bytes}

theorem copyAt_eq (h : off + data.length ≤ dst.length) :
    copyAt dst off data = dst.take off ++ data ++ dst.drop (off + data.length) := by
  have hdata : data.take (dst.length - off) = data := take_of_length_le (by omega)
  rw [copyAt, hdata]

theorem blockAt_copyAt (h : off + 16 ≤ dst.length) : blockAt (copyAt dst off b.bytes) off = b := by
  have hb := b.length_bytes
  rw [blockAt, copyAt_eq (by omega), append_assoc, drop_left' (by simp; omega),
    firstBlock_append]

theorem take_copyAt (h : off + data.length ≤ dst.length) :
    (copyAt dst off data).take (off + data.length) = dst.take off ++ data := by
  rw [copyAt_eq h, take_left' (by simp; omega)]

theorem drop_copyAt {off n : ℕ} (h : off + data.length ≤ n)
    (hn : off + data.length ≤ dst.length) : (copyAt dst off data).drop n = dst.drop n := by
  have hlen : (dst.take off ++ data).length = off + data.length := by simp; omega
  rw [copyAt_eq hn, List.drop_append, List.drop_of_length_le (by omega), hlen, List.nil_append,
    List.drop_drop]
  congr 1
  omega

theorem take_copyAt_block (h : off + 16 ≤ dst.length) :
    (copyAt dst off b.bytes).take (off + 16) = dst.take off ++ b.bytes := by
  have hb := b.length_bytes
  have htake : (copyAt dst off b.bytes).take (off + b.bytes.length) = dst.take off ++ b.bytes :=
    take_copyAt (by omega)
  rwa [hb] at htake

theorem drop_copyAt_block {off n : ℕ} (h : off + 16 ≤ n)
    (hn : n ≤ dst.length) : (copyAt dst off b.bytes).drop n = dst.drop n := by
  have hb := b.length_bytes
  exact drop_copyAt (by omega) (by omega)

theorem overlay_overlay (tmp pad : Block 16) {rest : Bytes} (h : rest.length ≤ 16) :
    overlay (overlay tmp 0 rest) rest.length (pad.bytes.drop rest.length) = padTail rest pad := by
  have ht := tmp.length_bytes
  have hp := pad.length_bytes
  apply block_ext
  rw [padTail_bytes pad h]
  have hfront : (copyAt tmp.bytes 0 rest).take rest.length = rest := by
    have htake : (copyAt tmp.bytes 0 rest).take (0 + rest.length) = tmp.bytes.take 0 ++ rest :=
      take_copyAt (by omega)
    simpa using htake
  have hlen := copyAt_length tmp.bytes 0 rest
  have hpad : (pad.bytes.drop rest.length).length = 16 - rest.length := by simp [hp]
  simp only [overlay]
  rw [copyAt_eq (by omega), hfront, hpad]
  rw [drop_of_length_le (show (copyAt tmp.bytes 0 rest).length ≤ _ by omega),
    append_nil]

end copying

/-! ### The loops compute the values -/

section loops
variable {block : BlockCipher} {src : Bytes}
variable {dst : Bytes} {off remain : ℕ}

section
variable (delta checksum : Block 16)
include delta checksum

theorem tagOf_eq : tagOf block delta checksum = calcTag block delta checksum := by
  rw [tagOf, calcTag, times3Loop_eq]

section
variable (hoff : off + remain = src.length) (hdst : src.length ≤ dst.length)
include hoff hdst

theorem encryptLast_eq (hlast : remain ≤ 16) :
    encryptLast block src dst delta checksum off remain =
      (dst.take off ++ (finishEncrypt block delta checksum (src.drop off)).1 ++
        dst.drop src.length, (finishEncrypt block delta checksum (src.drop off)).2) := by
  have hrest : (src.drop off).length = remain := by rw [length_drop]; omega
  subst hrest
  have hlen := finishEncrypt_length block delta checksum hlast
  unfold encryptLast
  simp only [times2Loop_eq, tagOf_eq, overlay_overlay _ _ hlast]
  rw [← hoff, ← hlen, ← copyAt_eq (by omega), hlen]
  rfl

theorem encryptLoop_eq :
    encryptLoop block src dst delta checksum off remain =
      (dst.take off ++ (encryptFull block delta checksum (src.drop off)).1 ++
        dst.drop src.length, (encryptFull block delta checksum (src.drop off)).2) := by
  have hrest : (src.drop off).length = remain := by rw [length_drop]; omega
  induction dst, delta, checksum, off, remain using encryptLoop.induct block src with
  | case1 dst delta checksum off remain h delta' tmp ih =>
    rw [encryptLoop, if_pos h, encryptFull, hrest, if_pos h]
    have hnext := ih (by omega) (by rw [copyAt_length]; exact hdst) (by rw [length_drop]; omega)
    refine hnext.trans ?_
    rw [take_copyAt_block _ (by omega), drop_copyAt_block _ (by omega) hdst, ← drop_drop]
    simp only [delta', tmp, times2Loop_eq, blockAt, append_assoc]
  | case2 dst delta checksum off remain h =>
    rw [encryptLoop, if_neg h, encryptFull, hrest, if_neg h]
    exact encryptLast_eq delta checksum hoff hdst (by omega)

theorem decryptLast_eq (hlast : remain ≤ 16) :
    decryptLast block src dst delta checksum off remain =
      (dst.take off ++ (finishDecrypt block delta checksum (src.drop off)).1 ++
        dst.drop src.length, (finishDecrypt block delta checksum (src.drop off)).2) := by
  have hrest : (src.drop off).length = remain := by rw [length_drop]; omega
  subst hrest
  unfold decryptLast
  simp only [times2Loop_eq, tagOf_eq, take_length]
  generalize hpad : block.encrypt (xor (lengthBlock (src.drop off).length) (times2 delta)) = pad
  have hp := pad.length_bytes
  have hplain : (xorBytes (src.drop off) pad.bytes).length = (src.drop off).length := by
    rw [xorBytes_length]
    omega
  have hfill := overlay_overlay (xor (lengthBlock (src.drop off).length) (times2 delta)) pad
    (show (xorBytes (src.drop off) pad.bytes).length ≤ 16 by omega)
  rw [hplain] at hfill
  have hout : ((padTail (xorBytes (src.drop off) pad.bytes) pad).bytes.take
      (src.drop off).length).length = (src.drop off).length := by
    rw [length_take, Block.length_bytes]
    omega
  have hcopy : copyAt dst off ((padTail (xorBytes (src.drop off) pad.bytes) pad).bytes.take
      (src.drop off).length) = dst.take off ++ (padTail (xorBytes (src.drop off) pad.bytes)
        pad).bytes.take (src.drop off).length ++ dst.drop src.length := by
    rw [copyAt_eq (by omega), hout, hoff]
  rw [hfill, hcopy]
  simp only [finishDecrypt, padBlock, hpad]

theorem decryptLoop_eq :
    decryptLoop block src dst delta checksum off remain =
      (dst.take off ++ (decryptFull block delta checksum (src.drop off)).1 ++
        dst.drop src.length, (decryptFull block delta checksum (src.drop off)).2) := by
  have hrest : (src.drop off).length = remain := by rw [length_drop]; omega
  induction dst, delta, checksum, off, remain using decryptLoop.induct block src with
  | case1 dst delta checksum off remain h delta' tmp dst' ih =>
    rw [decryptLoop, if_pos h, decryptFull, hrest, if_pos h]
    have hnext := ih (by omega) (by simp only [dst', copyAt_length]; exact hdst)
      (by rw [length_drop]; omega)
    refine hnext.trans ?_
    simp only [dst']
    rw [blockAt_copyAt _ (by omega)]
    rw [take_copyAt_block _ (by omega), drop_copyAt_block _ (by omega) hdst, ← drop_drop]
    simp only [delta', tmp, times2Loop_eq, blockAt, append_assoc]
  | case2 dst delta checksum off remain h =>
    rw [decryptLoop, if_neg h, decryptFull, hrest, if_neg h]
    exact decryptLast_eq delta checksum hoff hdst (by omega)

end

end

/-- `Encrypt` writes the ciphertext and the tag to the front of their buffers and nothing else. -/
theorem encryptInto_eq {dst tag : Bytes} {tagLen : ℕ} (nonce : Block 16)
    (hdst : src.length ≤ dst.length) (h16 : tagLen ≤ 16) (htag : tagLen ≤ tag.length) :
    encryptInto block dst src nonce tag tagLen =
      ((encrypt block src nonce tagLen).1 ++ dst.drop src.length,
        (encrypt block src nonce tagLen).2 ++ tag.drop tagLen) := by
  have hlen := encrypt_tag_length block src nonce h16
  have hcopy : copyAt tag 0 (encrypt block src nonce tagLen).2 =
      (encrypt block src nonce tagLen).2 ++ tag.drop tagLen := by
    rw [copyAt_eq (by omega), hlen]
    simp
  unfold encryptInto
  rw [encryptLoop_eq _ _ (by omega) hdst]
  simpa [encrypt] using hcopy

/-- `Decrypt` writes the plaintext to the front of the destination and nothing else. -/
theorem decryptInto_eq (nonce : Block 16) (tag : Bytes)
    (hdst : src.length ≤ dst.length) :
    decryptInto block dst src nonce tag =
      ((decrypt block src nonce tag).1 ++ dst.drop src.length,
        (decrypt block src nonce tag).2) := by
  unfold decryptInto
  rw [decryptLoop_eq _ _ (by omega) hdst]
  simp [decrypt]

end loops

/-- **OCB2 is correct.**  Whatever the caller's buffers held, `Decrypt` under the nonce of
`Encrypt` accepts the tag, however far it was cut, and puts the plaintext into its destination. -/
theorem decryptInto_encryptInto (block : BlockCipher) (nonce : Block 16) (src dst out tag : Bytes)
    {tagLen : ℕ} (h16 : tagLen ≤ 16) (hdst : src.length ≤ dst.length)
    (hout : src.length ≤ out.length) (htag : tagLen ≤ tag.length) :
    decryptInto block out ((encryptInto block dst src nonce tag tagLen).1.take src.length) nonce
        ((encryptInto block dst src nonce tag tagLen).2.take tagLen) =
      (src ++ out.drop src.length, true) := by
  have hcipher := encrypt_length block src nonce tagLen
  have hcut := encrypt_tag_length block src nonce h16
  rw [encryptInto_eq nonce hdst h16 htag]
  rw [take_left' hcipher, take_left' hcut, decryptInto_eq nonce _ (by omega), hcipher,
    decrypt_encrypt block src nonce h16]

/-- A permutation of blocks for the examples: the bytes in the opposite order. -/
def mirrorCipher : BlockCipher where
  encrypt b := ⟨b.bytes.reverse, by rw [length_reverse, b.length_bytes]⟩
  decrypt b := ⟨b.bytes.reverse, by rw [length_reverse, b.length_bytes]⟩
  decrypt_encrypt b := block_ext (reverse_reverse b.bytes)

/-- Seventeen bytes, a whole block and a partial one, with the tag cut to three bytes. -/
theorem decryptInto_encryptInto_mirror :
    3 ≤ 16 ∧ decryptInto mirrorCipher (List.replicate 20 9)
        ((encryptInto mirrorCipher (List.replicate 18 0) (List.range 17 |>.map UInt8.ofNat)
          (Block.zero 16) [7, 7, 7] 3).1.take 17) (Block.zero 16)
        ((encryptInto mirrorCipher (List.replicate 18 0) (List.range 17 |>.map UInt8.ofNat)
          (Block.zero 16) [7, 7, 7] 3).2.take 3) =
      ((List.range 17).map UInt8.ofNat ++ [9, 9, 9], true) :=
  ⟨by decide, decryptInto_encryptInto mirrorCipher (Block.zero 16)
    ((List.range 17).map UInt8.ofNat) (List.replicate 18 0) (List.replicate 20 9) [7, 7, 7]
    (by decide) (by decide) (by decide) (by decide)⟩

end MumbleServer.Ocb2
