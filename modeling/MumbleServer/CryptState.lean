import MumbleServer.Ocb2

/-! # The crypt state of a voice session

`pkg/mumble/crypto/cryptstate.go`: per-session encryption of UDP voice packets, in legacy
mode (OCB2-AES128) or secure mode (AES-256-GCM), and the receive state of both.

AES and GCM come from outside the program, so the two ciphers a key installs are a
parameter (`Ciphers`): for legacy mode what `ocb2.Encrypt`/`ocb2.Decrypt` compute with the
block cipher of the key (`LegacyCipher`; `ocb2Cipher` is the instance the source uses), for
secure mode the `Seal` and `Open` of the AEAD.  The buffers `dst` are values: an operation
returns the buffer it leaves behind, also on failure (`Outcome`).  Bytes and counters have
the fixed widths of the source, with its wrapping arithmetic; shifts of a byte by eight or
more give zero (`shl`, `shr`). -/

namespace MumbleServer.Crypto

inductive Mode where
  | lite
  | legacy
  | secure
deriving DecidableEq, Repr

inductive CryptError where
  | decryptFailed
  | invalidPacket
  | replayDetected
  | legacyDecNonceSize
  | legacySizeMismatch
  | secureKeySize
  | keyNotSet
  | dstTooSmall
deriving DecidableEq, Repr

def legacyKeySize : ℕ := 16
def legacyTagSize : ℕ := 3
def legacyOverhead : ℕ := 1 + legacyTagSize
def secureKeySize : ℕ := 32
def secureNonceSize : ℕ := 12
def secureTagSize : ℕ := 16
def secureOverhead : ℕ := secureNonceSize + secureTagSize

/-! ### Ciphers -/

/-- What a legacy key provides: encryption under a nonce to a ciphertext and a three-byte
tag, and decryption to the bytes written and whether the tag was accepted. -/
structure LegacyCipher where
  encrypt : Block 16 → Bytes → Bytes × Bytes
  decrypt : Block 16 → Bytes → Bytes → Bytes × Bool
  encrypt_length : ∀ nonce src, (encrypt nonce src).1.length = src.length
  tag_length : ∀ nonce src, (encrypt nonce src).2.length = 3
  decrypt_length : ∀ nonce ct tag, (decrypt nonce ct tag).1.length = ct.length

/-- OCB2 with a block cipher and a three-byte tag. -/
def ocb2Cipher (block : Ocb2.BlockCipher) : LegacyCipher where
  encrypt nonce src := Ocb2.encrypt block src nonce legacyTagSize
  decrypt nonce ct tag := Ocb2.decrypt block ct nonce tag
  encrypt_length nonce src := Ocb2.encrypt_length block src nonce _
  tag_length nonce src := Ocb2.encrypt_tag_length block src nonce (by decide)
  decrypt_length nonce ct tag := Ocb2.decrypt_length block ct nonce tag

/-- What a secure key provides (`cipher.AEAD`); the sealed text is sixteen bytes longer. -/
structure AEAD where
  Seal : Bytes → Bytes → Bytes
  Open : Bytes → Bytes → Option Bytes
  seal_length : ∀ nonce src, (Seal nonce src).length = src.length + 16
  open_length : ∀ nonce ct plain, Open nonce ct = some plain → plain.length + 16 = ct.length

/-- The ciphers that keys install (`aes.NewCipher`, `cipher.NewGCM`). -/
structure Ciphers where
  newLegacy : Bytes → LegacyCipher
  newSecure : Bytes → AEAD

/-! ### State -/

structure CryptState where
  mode : Mode
  legacyBlock : Option LegacyCipher
  encNonce : Block 16
  decNonce : Block 16
  decHistory : UInt8 → UInt8
  secureAEAD : Option AEAD
  encCounter : UInt64
  decMax : UInt64
  decBitmap : Block 8
  good : UInt32
  late : UInt32
  lost : UInt32
  resync : UInt32

def newCryptState (mode : Mode) : CryptState where
  mode := mode
  legacyBlock := none
  encNonce := Block.zero 16
  decNonce := Block.zero 16
  decHistory := fun _ => 0
  secureAEAD := none
  encCounter := 0
  decMax := 0
  decBitmap := Block.zero 8
  good := 0
  late := 0
  lost := 0
  resync := 0

/-- The result of an operation: the state and the buffer it leaves, and its error. -/
structure Outcome where
  state : CryptState
  dst : Bytes
  err : Option CryptError

namespace CryptState

/-- `SetKey`: install the key and, in legacy mode, the two nonces. -/
def setKey (ciphers : Ciphers) (c : CryptState) (key encNonce decNonce : Bytes) :
    CryptState × Option CryptError :=
  match c.mode with
  | .lite => (c, none)
  | .legacy =>
    if h : key.length = legacyKeySize ∧ encNonce.length = 16 ∧ decNonce.length = 16 then
      ({ c with
          legacyBlock := some (ciphers.newLegacy key)
          encNonce := ⟨encNonce, h.2.1⟩
          decNonce := ⟨decNonce, h.2.2⟩ }, none)
    else (c, some .legacySizeMismatch)
  | .secure =>
    if key.length = secureKeySize then
      ({ c with secureAEAD := some (ciphers.newSecure key) }, none)
    else (c, some .secureKeySize)

/-- A new state of the given mode right after `SetKey`. -/
def keyed (ciphers : Ciphers) (mode : Mode) (key encNonce decNonce : Bytes) : CryptState :=
  ((newCryptState mode).setKey ciphers key encNonce decNonce).1

/-- `Overhead`: bytes added to each packet. -/
def overhead (c : CryptState) : ℕ :=
  match c.mode with
  | .lite => 0
  | .legacy => legacyOverhead
  | .secure => secureOverhead

end CryptState

/-- Go's `copy(dst, src)`: as many bytes as both have. -/
def copyBytes (dst src : Bytes) : Bytes := src.take dst.length ++ dst.drop src.length

theorem copyBytes_length (dst src : Bytes) : (copyBytes dst src).length = dst.length := by
  simp only [copyBytes, List.length_append, List.length_take, List.length_drop]
  omega

/-! ### Legacy mode -/

namespace CryptState

/-- `encryptLegacy`: step the nonce, then send its lowest byte, the tag and the
ciphertext. -/
def encryptLegacy (c : CryptState) (dst src : Bytes) : Outcome :=
  match c.legacyBlock with
  | none => ⟨c, dst, some .keyNotSet⟩
  | some block =>
    if dst.length < src.length + legacyOverhead then ⟨c, dst, some .dstTooSmall⟩
    else
      let nonce := c.encNonce.bump 0
      let out := block.encrypt nonce src
      ⟨{ c with encNonce := nonce },
        nonce.get 0 :: (out.2 ++ out.1) ++ dst.drop (src.length + legacyOverhead), none⟩

end CryptState

/-- The signed distance of the received byte from the lowest byte of the nonce. -/
def nonceDiff (ivByte decFirst : UInt8) : ℤ :=
  let diff : ℤ := (ivByte.toNat : ℤ) - (decFirst.toNat : ℤ)
  if diff < -128 then diff + 256
  else if diff > 128 then diff - 256
  else diff

/-- The nonce of a packet ahead: the received byte, with a carry when it is the smaller. -/
def advanceNonce (nonce : Block 16) (ivByte : UInt8) : Block 16 :=
  if ivByte < nonce.get 0 then (nonce.put 0 ivByte).bump 1 else nonce.put 0 ivByte

namespace CryptState

/-- The second half of `decryptLegacy`, on the state `c` that already has the nonce of the
packet: the history check, the decryption, and what is kept of both. -/
def openLegacy (c : CryptState) (block : LegacyCipher) (saveNonce : Block 16) (restore : Bool)
    (dst src : Bytes) : Outcome :=
  let ivByte := src.getD 0 0
  if c.decHistory ivByte = c.decNonce.get 1 then
    ⟨{ c with decNonce := saveNonce }, dst, some .replayDetected⟩
  else
    let out := block.decrypt c.decNonce (src.drop 4) ((src.drop 1).take 3)
    if out.2 then
      ⟨{ c with
          decHistory := Function.update c.decHistory ivByte (c.decNonce.get 1)
          decNonce := if restore then saveNonce else c.decNonce
          good := c.good + 1 }, copyBytes dst out.1, none⟩
    else ⟨{ c with decNonce := saveNonce }, copyBytes dst out.1, some .decryptFailed⟩

/-- `decryptLegacy`: rebuild the nonce from the received byte and the stored nonce. -/
def decryptLegacy (c : CryptState) (dst src : Bytes) : Outcome :=
  match c.legacyBlock with
  | none => ⟨c, dst, some .keyNotSet⟩
  | some block =>
    if src.length < legacyOverhead then ⟨c, dst, some .invalidPacket⟩
    else if dst.length < src.length - legacyOverhead then ⟨c, dst, some .dstTooSmall⟩
    else
      let ivByte := src.getD 0 0
      let diff := nonceDiff ivByte (c.decNonce.get 0)
      if diff = 1 then
        openLegacy { c with decNonce := advanceNonce c.decNonce ivByte } block c.decNonce false
          dst src
      else if diff > 1 then
        openLegacy { c with
            lost := c.lost + UInt32.ofNat (diff - 1).toNat
            decNonce := advanceNonce c.decNonce ivByte } block c.decNonce false dst src
      else if diff > -30 ∧ diff < 0 then
        openLegacy { c with
            late := c.late + 1
            decNonce := c.decNonce.put 0 ivByte } block c.decNonce true dst src
      else ⟨c, dst, some .replayDetected⟩

end CryptState

/-! ### Secure mode -/

def beVal (bs : Bytes) : ℕ := bs.foldl (fun acc b => acc * 256 + b.toNat) 0

/-- `binary.BigEndian.Uint64` of the last eight bytes of a nonce. -/
def nonceCounter (src : Bytes) : UInt64 :=
  UInt64.ofNat (beVal (((src.take secureNonceSize).drop 4).take 8))

def putUint64 (x : UInt64) : Bytes :=
  (List.range 8).map (fun i => UInt8.ofNat (x.toNat / 256 ^ (7 - i)))

/-- The nonce of a counter: four zero bytes and the counter. -/
def secureNonce (counter : UInt64) : Bytes := List.replicate 4 0 ++ putUint64 counter

/-- Go's `b << s` on a byte. -/
def shl (b : UInt8) (s : UInt64) : UInt8 := if s < 8 then b <<< s.toUInt8 else 0

/-- Go's `b >> s` on a byte. -/
def shr (b : UInt8) (s : UInt64) : UInt8 := if s < 8 then b >>> s.toUInt8 else 0

/-- The loop that shifts the replay bitmap: byte `i` takes bits of byte `i + 1`, which is
still the old one. -/
def shiftLoop (shift : UInt64) : Bytes → Bytes
  | [] => []
  | [b] => [shl b shift]
  | b :: c :: bs => (shl b shift ||| shr c (8 - shift)) :: shiftLoop shift (c :: bs)

theorem shiftLoop_length (shift : UInt64) : ∀ bs, (shiftLoop shift bs).length = bs.length
  | [] => rfl
  | [_] => rfl
  | _ :: c :: bs => by simp [shiftLoop, shiftLoop_length shift (c :: bs)]

/-- The bitmap after the window moved up by `shift`. -/
def shiftBitmap (bitmap : Block 8) (shift : UInt64) : Block 8 :=
  if shift > 64 then Block.zero 8
  else ⟨shiftLoop shift bitmap.bytes, by rw [shiftLoop_length, bitmap.length_bytes]⟩

/-- The index the window check uses for `counter`: 63 is the highest counter. -/
def windowIdx (decMax counter : UInt64) : ℕ := (63 - (decMax - counter)).toNat

/-- The bitmap bit at an index, as a byte mask. -/
def bitMask (idx : ℕ) : UInt8 := 1 <<< UInt8.ofNat (idx % 8)

namespace CryptState

/-- The replay bit that is consulted for `counter` is set. -/
def windowBit (c : CryptState) (counter : UInt64) : Bool :=
  c.decBitmap.get (windowIdx c.decMax counter / 8) &&& bitMask (windowIdx c.decMax counter) != 0

/-- The window update for a counter that is not above the highest one. -/
def markLate (c : CryptState) (counter : UInt64) : CryptState :=
  let idx := windowIdx c.decMax counter
  { c with
    decBitmap := c.decBitmap.put (idx / 8) (c.decBitmap.get (idx / 8) ||| bitMask idx)
    late := c.late + 1 }

/-- The window update for a counter above the highest one. -/
def markAhead (c : CryptState) (counter : UInt64) : CryptState :=
  let moved := shiftBitmap c.decBitmap (counter - c.decMax)
  let shift := if counter - c.decMax > 64 then 64 else counter - c.decMax
  { c with
    decBitmap := moved.put 0 (moved.get 0 ||| ((1 : UInt8) <<< 7))
    decMax := counter
    lost := if shift > 1 then c.lost + (shift - 1).toUInt32 else c.lost
    good := c.good + 1 }

/-- The end of `decryptSecure`: authenticate and copy the plaintext out. -/
def openSecure (c : CryptState) (aead : AEAD) (dst src : Bytes) : Outcome :=
  match aead.Open (src.take secureNonceSize) (src.drop secureNonceSize) with
  | none => ⟨c, dst, some .decryptFailed⟩
  | some plain =>
    if dst.length < plain.length then ⟨c, dst, some .dstTooSmall⟩
    else ⟨c, copyBytes dst plain, none⟩

/-- `decryptSecure`: the window is updated first, then the packet is authenticated. -/
def decryptSecure (c : CryptState) (dst src : Bytes) : Outcome :=
  match c.secureAEAD with
  | none => ⟨c, dst, some .keyNotSet⟩
  | some aead =>
    if src.length < secureOverhead then ⟨c, dst, some .invalidPacket⟩
    else
      let counter := nonceCounter src
      if counter ≤ c.decMax then
        if c.decMax - counter ≥ 64 then ⟨c, dst, some .replayDetected⟩
        else if c.windowBit counter then ⟨c, dst, some .replayDetected⟩
        else (c.markLate counter).openSecure aead dst src
      else (c.markAhead counter).openSecure aead dst src

/-- `encryptSecure`: step the counter and seal under its nonce. -/
def encryptSecure (c : CryptState) (dst src : Bytes) : Outcome :=
  match c.secureAEAD with
  | none => ⟨c, dst, some .keyNotSet⟩
  | some aead =>
    if dst.length < src.length + secureOverhead then ⟨c, dst, some .dstTooSmall⟩
    else
      let counter := c.encCounter + 1
      let nonce := secureNonce counter
      ⟨{ c with encCounter := counter },
        copyBytes dst (nonce ++ aead.Seal nonce src), none⟩

/-! ### Entry points -/

def encrypt (c : CryptState) (dst src : Bytes) : Outcome :=
  match c.mode with
  | .lite => ⟨c, copyBytes dst src, none⟩
  | .legacy => c.encryptLegacy dst src
  | .secure => c.encryptSecure dst src

def decrypt (c : CryptState) (dst src : Bytes) : Outcome :=
  match c.mode with
  | .lite => ⟨c, copyBytes dst src, none⟩
  | .legacy => c.decryptLegacy dst src
  | .secure => c.decryptSecure dst src

end CryptState

/-- The buffer `HandleUDP` of the Core allocates for a datagram. -/
def recvBuffer (data : Bytes) : Bytes := List.replicate (data.length + 256) 0

end MumbleServer.Crypto
