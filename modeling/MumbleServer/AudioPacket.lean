import MumbleServer.BigEndian
import MumbleServer.WireGrammar
import MumbleServer.VoiceRouting

/-! # Voice packets

`pkg/mumble/audio`: the two forms in which a voice frame goes over the wire.  The legacy form has a
header byte, varints of Mumble's own kind, and a word that is both the length of the Opus data and
the terminator flag (`legacy.go`, `varint.go`); the form of newer clients is a protobuf message
(`protobuf.go`).  `frame.go` puts limits around both.

A Go reader returns the number of bytes it consumed; here it returns the bytes that are left.  What
a decoder returns besides an error is not modelled. -/

namespace MumbleServer.Audio

open Voice (Frame Delivery Context contextListen contextNormal)
open Wire (appendTag appendVarint appendFixed32 appendLengthDelimited readFixed32)

/-- `WireMode`; there are two, and what is neither is refused. -/
inductive WireMode
  | legacy
  | protobuf
  | other (value : UInt8)
deriving DecidableEq

/-- `ErrPacketTooShort` and `ErrInvalidPacket`. -/
inductive PacketError
  | packetTooShort
  | invalidPacket
deriving DecidableEq

def codecOpus : UInt8 := 4

def maxPacketSize : ℕ := 1024

def maxVarintLen : ℕ := 10

/-! ### Mumble's varints -/

/-- `DecodeVarint`; the number is an `int64`, given by its 64 bits. -/
def decodeVarint : List UInt8 → Option (UInt64 × List UInt8)
  | [] => none
  | c :: b =>
    let wide (x : UInt8) (k : ℕ) : Option (UInt64 × List UInt8) :=
      some (BigEndian.push x.toUInt64 (b.take k), b.drop k)
    if c &&& 0x80 = 0 then some (c.toUInt64, b)
    else if c &&& 0xC0 = 0x80 ∧ 1 ≤ b.length then wide (c &&& 0x3F) 1
    else if c &&& 0xE0 = 0xC0 ∧ 2 ≤ b.length then wide (c &&& 0x1F) 2
    else if c &&& 0xF0 = 0xE0 ∧ 3 ≤ b.length then wide (c &&& 0xF) 3
    else if c &&& 0xFC = 0xF0 ∧ 4 ≤ b.length then wide 0 4
    else if c &&& 0xFC = 0xF4 ∧ 8 ≤ b.length then wide 0 8
    else if c &&& 0xFC = 0xF8 then (decodeVarint b).map fun r => (0 - r.1, r.2)
    else if c &&& 0xFC = 0xFC then some (~~~(c &&& 0x03).toUInt64, b)
    else none

/-- `EncodeVarint` into a buffer of the given length.  The number is an `int64`, given by its 64
bits; the negative ones are the upper half. -/
def encodeVarint : ℕ → UInt64 → List UInt8
  | 0, _ => []
  | space + 1, v =>
    let wide (mask tag : UInt64) (k : ℕ) : List UInt8 :=
      (((v >>> UInt64.ofNat (8 * k)) &&& mask) ||| tag).toUInt8 :: BigEndian.bytes k v
    if 0xFFFFFFFFFFFFFFFC ≤ v then [0xFC ||| (~~~v).toUInt8]
    else if 0x8000000000000000 ≤ v then 0xF8 :: encodeVarint space (0 - v)
    else if v ≤ 0x7F then [v.toUInt8]
    else if v ≤ 0x3FFF then wide 0x3F 0x80 1
    else if v ≤ 0x1FFFFF then wide 0x1F 0xC0 2
    else if v ≤ 0xFFFFFFF then wide 0xF 0xE0 3
    else if v ≤ 0x7FFFFFFF then 0xF0 :: BigEndian.bytes 4 v
    else 0xF4 :: BigEndian.bytes 8 v

/-! ### The legacy form -/

/-- `read` of `decodeLegacy`: no negative numbers. -/
def readNumber (b : List UInt8) : Except PacketError (UInt64 × List UInt8) :=
  match b with
  | [] => .error .packetTooShort
  | c :: _ =>
    if 0xf8 ≤ c then .error .invalidPacket
    else
      match decodeVarint b with
      | none => .error .packetTooShort
      | some r => .ok r

/-- `add` of `encodeLegacy`. -/
def addNumber (v : UInt64) : List UInt8 :=
  if 0x7FFFFFFFFFFFFFFF < v then 0xf4 :: BigEndian.bytes 8 v else encodeVarint maxVarintLen v

/-- The session of the sender, in packets of the server. -/
def readSender (b : List UInt8) : Except PacketError (ℕ × List UInt8) := do
  let (v, rest) ← readNumber b
  if 0xFFFFFFFF < v then .error .invalidPacket else .ok (v.toUInt32.toNat, rest)

/-- Three single-precision numbers. -/
def readPosition (b : List UInt8) : UInt32 × UInt32 × UInt32 :=
  (readFixed32 b, readFixed32 (b.drop 4), readFixed32 (b.drop 8))

def positionBytes (p : UInt32 × UInt32 × UInt32) : List UInt8 :=
  appendFixed32 p.1 ++ appendFixed32 p.2.1 ++ appendFixed32 p.2.2

/-- `decodeLegacy` after its length word. -/
def decodeVoice (c : UInt8) (sender : ℕ) (seq size : UInt64) (b : List UInt8) :
    Except PacketError Frame :=
  if 0x3fff < size then .error .invalidPacket
  else if b.length < (size &&& 0x1fff).toNat then .error .packetTooShort
  else
    let rest := b.drop (size &&& 0x1fff).toNat
    if rest.length ≠ 0 ∧ rest.length ≠ 12 then .error .invalidPacket
    else .ok {
      codec := c >>> 5
      target := (c &&& 31).toUInt32
      senderSession := sender
      frameNumber := seq
      opusData := b.take (size &&& 0x1fff).toNat
      position := if rest.length = 12 then readPosition rest else (0, 0, 0)
      hasPosition := decide (rest.length = 12)
      isTerminator := decide (size &&& 0x2000 ≠ 0) }

def decodeLegacy (server : Bool) : List UInt8 → Except PacketError Frame
  | [] => .error .packetTooShort
  | c :: b =>
    if maxPacketSize < b.length + 1 then .error .invalidPacket
    else if c >>> 5 ≠ codecOpus then .error .invalidPacket
    else do
      let (sender, b) ← if server then readSender b else .ok (0, b)
      let (seq, b) ← readNumber b
      let (size, b) ← readNumber b
      decodeVoice c sender seq size b

/-- The length of the Opus data with the terminator flag. -/
def sizeWord (f : Frame) : UInt64 :=
  UInt64.ofNat f.opusData.length ||| (if f.isTerminator then 0x2000 else 0)

def encodeLegacy (d : Delivery) (server : Bool) : Except PacketError (List UInt8) :=
  if 0x1fff < d.frame.opusData.length ∨ 31 < d.frame.target then .error .invalidPacket
  else .ok ([(d.frame.codec <<< 5) ||| (if server then d.context else d.frame.target.toUInt8)] ++
    (if server then addNumber (UInt64.ofNat d.frame.senderSession) else []) ++
    addNumber d.frame.frameNumber ++ addNumber (sizeWord d.frame) ++ d.frame.opusData ++
    if d.frame.hasPosition then positionBytes d.frame.position else [])

/-! ### The protobuf form -/

/-- The loop of `binary.Uvarint` at byte `i`, with the bits read so far. -/
def uvarintFrom : ℕ → UInt64 → List UInt8 → Option (UInt64 × List UInt8)
  | _, _, [] => none
  | i, x, c :: b =>
    if i = 10 then none
    else if c < 0x80 then
      if i = 9 ∧ 1 < c then none else some (x ||| (c.toUInt64 <<< UInt64.ofNat (7 * i)), b)
    else uvarintFrom (i + 1) (x ||| ((c &&& 0x7F).toUInt64 <<< UInt64.ofNat (7 * i))) b

/-- `binary.Uvarint`; what is too long or cut short is refused alike. -/
def uvarint : List UInt8 → Option (UInt64 × List UInt8) := uvarintFrom 0 0

/-- What `consumeField` returns. -/
structure RawField where
  field : UInt64
  typ : ℕ
  value : UInt64 := 0
  payload : List UInt8 := []
deriving DecidableEq

/-- The next `n` bytes. -/
def chop (n : ℕ) (b : List UInt8) : Option (List UInt8 × List UInt8) :=
  if b.length < n then none else some (b.take n, b.drop n)

mutual

/-- `consumeField`.  A group holds fields itself, so the recursion is on fuel; `none` if it runs
out, which it does not with more than twice the number of bytes (`consume_ends`). -/
def consumeField : ℕ → ℕ → List UInt8 → Option (Option (RawField × List UInt8))
  | 0, _, _ => none
  | fuel + 1, depth, b =>
    match uvarint b with
    | none => some none
    | some (tag, rest) =>
      if tag >>> 3 = 0 ∨ (536870911 : UInt64) < tag >>> 3 ∨ maxPacketSize < depth then some none
      else
        match (tag &&& 7).toNat with
        | 0 => some ((uvarint rest).map fun r => (⟨tag >>> 3, 0, r.1, []⟩, r.2))
        | 1 => some ((chop 8 rest).map fun r => (⟨tag >>> 3, 1, 0, r.1⟩, r.2))
        | 5 => some ((chop 4 rest).map fun r => (⟨tag >>> 3, 5, 0, r.1⟩, r.2))
        | 2 =>
          match uvarint rest with
          | none => some none
          | some (size, rest) =>
            some ((chop size.toNat rest).map fun r => (⟨tag >>> 3, 2, 0, r.1⟩, r.2))
        | 3 =>
          (consumeGroup fuel depth (tag >>> 3) rest).map fun g =>
            g.map fun r => (⟨tag >>> 3, 3, 0, []⟩, r)
        | _ => some none

/-- The loop of `consumeField` for a group: fields up to the end of the group. -/
def consumeGroup : ℕ → ℕ → UInt64 → List UInt8 → Option (Option (List UInt8))
  | 0, _, _, _ => none
  | fuel + 1, depth, field, b =>
    match uvarint b with
    | none => some none
    | some (tag, rest) =>
      if tag &&& 7 = 4 then if tag >>> 3 ≠ field then some none else some (some rest)
      else
        match consumeField fuel (depth + 1) b with
        | none => none
        | some none => some none
        | some (some (_, rest)) => consumeGroup fuel depth field rest

end

section ends
variable {b rest : List UInt8}

theorem uvarintFrom_length {i : ℕ} {x v : UInt64} (h : uvarintFrom i x b = some (v, rest)) :
    rest.length < b.length := by
  induction b generalizing i x with
  | nil => cases h
  | cons c b ih =>
    unfold uvarintFrom at h
    split_ifs at h
    · obtain ⟨-, rfl⟩ := Prod.mk.inj (Option.some.inj h)
      exact Nat.lt_succ_self _
    · exact (ih h).trans (Nat.lt_succ_self _)

theorem chop_length {n : ℕ} {p : List UInt8} (h : chop n b = some (p, rest)) :
    rest.length ≤ b.length := by
  unfold chop at h
  split_ifs at h
  obtain ⟨-, rfl⟩ := Prod.mk.inj (Option.some.inj h)
  rw [List.length_drop]
  omega

theorem taken_ends {α : Type} {o : Option (α × List UInt8)} {g : α × List UInt8 → RawField}
    (hlt : rest.length < b.length) (ho : ∀ r, o = some r → r.2.length ≤ rest.length) :
    ∃ r, some (o.map fun r => (g r, r.2)) = some r ∧
      ∀ f rest, r = some (f, rest) → rest.length < b.length := by
  refine ⟨_, rfl, fun f rest hr => ?_⟩
  obtain ⟨r, hread, ⟨⟩⟩ := Option.map_eq_some_iff.mp hr
  exact lt_of_le_of_lt (ho r hread) hlt

/-- The scan of a field ends, and what it has taken is not empty. -/
theorem consume_ends (fuel : ℕ) :
    (∀ depth b, 2 * b.length < fuel → ∃ r, consumeField fuel depth b = some r ∧
      ∀ f rest, r = some (f, rest) → rest.length < b.length) ∧
    ∀ depth n b, 2 * b.length + 1 < fuel → ∃ r, consumeGroup fuel depth n b = some r ∧
      ∀ rest, r = some rest → rest.length ≤ b.length := by
  induction fuel with
  | zero => exact ⟨fun _ _ h => by omega, fun _ _ _ h => by omega⟩
  | succ fuel ih =>
    constructor
    · intro depth b hb
      rw [consumeField]
      cases hu : uvarint b with
      | none => exact ⟨none, rfl, by simp⟩
      | some t =>
        obtain ⟨tag, b'⟩ := t
        have hlt := uvarintFrom_length hu
        dsimp only
        split_ifs
        · exact ⟨none, rfl, by simp⟩
        split
        · exact taken_ends hlt fun r hr => (uvarintFrom_length hr).le
        · exact taken_ends hlt fun r hr => chop_length hr
        · exact taken_ends hlt fun r hr => chop_length hr
        · split
          · exact ⟨none, rfl, by simp⟩
          · rename_i size b'' hs
            exact taken_ends ((uvarintFrom_length hs).trans hlt) fun r hr => chop_length hr
        · obtain ⟨g, hg, hgroup⟩ := ih.2 depth (tag >>> 3) b' (by omega)
          rw [hg]
          refine ⟨_, rfl, fun f rest hr => ?_⟩
          obtain ⟨r, hread, ⟨⟩⟩ := Option.map_eq_some_iff.mp hr
          exact lt_of_le_of_lt (hgroup _ hread) hlt
        · exact ⟨none, rfl, by simp⟩
    · intro depth n b hb
      rw [consumeGroup]
      cases hu : uvarint b with
      | none => exact ⟨none, rfl, by simp⟩
      | some t =>
        obtain ⟨tag, b'⟩ := t
        have hlt := uvarintFrom_length hu
        dsimp only
        split_ifs
        · exact ⟨none, rfl, by simp⟩
        · exact ⟨some b', rfl, fun rest hr => Option.some.inj hr ▸ hlt.le⟩
        · obtain ⟨r, hr, hfield⟩ := ih.1 (depth + 1) b (by omega)
          rw [hr]
          cases r with
          | none => exact ⟨none, rfl, by simp⟩
          | some r =>
            have hshort := hfield r.1 r.2 rfl
            obtain ⟨g, hg, hgroup⟩ := ih.2 depth n r.2 (by omega)
            exact ⟨g, hg, fun rest hrest => (hgroup rest hrest).trans hshort.le⟩

end ends

/-- `consumeField` at the front of a packet. -/
def nextField (b : List UInt8) : Option (RawField × List UInt8) :=
  (consumeField (2 * b.length + 1) 0 b).get
    (Option.isSome_iff_exists.mpr
      (((consume_ends _).1 0 b (Nat.lt_succ_self _)).imp fun _ h => h.1))

theorem nextField_eq (b : List UInt8) :
    consumeField (2 * b.length + 1) 0 b = some (nextField b) := (Option.some_get _).symm

theorem nextField_length {b rest : List UInt8} {f : RawField} (h : nextField b = some (f, rest)) :
    rest.length < b.length := by
  obtain ⟨r, hr, hlen⟩ := (consume_ends (2 * b.length + 1)).1 0 b (Nat.lt_succ_self _)
  rw [nextField_eq, Option.some_inj] at hr
  exact hlen f rest (hr ▸ h)

/-- What the loop of `decodeProtobuf` has so far. -/
structure Decoding where
  delivery : Delivery
  /-- How many numbers of the position there were. -/
  positions : ℕ
deriving DecidableEq

/-- The numbers of a position, one after the other. -/
def Decoding.place (s : Decoding) : List UInt8 → Option Decoding
  | b0 :: b1 :: b2 :: b3 :: p =>
    let v := readFixed32 [b0, b1, b2, b3]
    let (x, y, z) := s.delivery.frame.position
    match s.positions with
    | 0 => Decoding.place ⟨{ s.delivery with frame.position := (v, y, z) }, 1⟩ p
    | 1 => Decoding.place ⟨{ s.delivery with frame.position := (x, v, z) }, 2⟩ p
    | 2 => Decoding.place ⟨{ s.delivery with frame.position := (x, y, v) }, 3⟩ p
    | _ => none
  | _ => some s

/-- One field of `decodeProtobuf`. -/
def Decoding.apply (s : Decoding) (f : RawField) : Option Decoding :=
  match f.field.toNat with
  | 1 =>
    if f.typ ≠ 0 ∨ 0xFFFFFFFF < f.value then none
    else some { s with
      delivery.frame.target := f.value.toUInt32, delivery.context := contextNormal }
  | 2 =>
    if f.typ ≠ 0 ∨ 0xFFFFFFFF < f.value then none
    else some { s with delivery.frame.target := 0, delivery.context := f.value.toUInt8 }
  | 3 =>
    if f.typ ≠ 0 ∨ 0xFFFFFFFF < f.value then none
    else some { s with delivery.frame.senderSession := f.value.toUInt32.toNat }
  | 4 => if f.typ ≠ 0 then none else some { s with delivery.frame.frameNumber := f.value }
  | 16 =>
    if f.typ ≠ 0 then none
    else some { s with delivery.frame.isTerminator := decide (f.value ≠ 0) }
  | 5 => if f.typ ≠ 2 then none else some { s with delivery.frame.opusData := f.payload }
  | 6 =>
    if (f.typ ≠ 2 ∧ f.typ ≠ 5) ∨ f.payload.length % 4 ≠ 0 then none else s.place f.payload
  | 7 =>
    if f.typ ≠ 5 then none
    else some { s with delivery.volumeAdjustment := readFixed32 f.payload }
  | _ => some s

/-- The fields of a message; `none` if the rounds run out. -/
def decodeFields : ℕ → Decoding → List UInt8 → Option (Option Decoding)
  | _, s, [] => some (some s)
  | 0, _, _ :: _ => none
  | fuel + 1, s, c :: b =>
    match nextField (c :: b) with
    | none => some none
    | some (f, rest) =>
      match s.apply f with
      | none => some none
      | some s => decodeFields fuel s rest

/-- A round for every byte is enough. -/
theorem decodeFields_isSome {fuel : ℕ} (s : Decoding) {b : List UInt8} (hb : b.length ≤ fuel) :
    (decodeFields fuel s b).isSome = true := by
  induction fuel generalizing s b with
  | zero =>
    obtain rfl := List.eq_nil_of_length_eq_zero (Nat.le_zero.mp hb)
    rfl
  | succ n ih =>
    cases b with
    | nil => rfl
    | cons c b =>
      unfold decodeFields
      cases hf : nextField (c :: b) with
      | none => rfl
      | some r =>
        have hlen := nextField_length hf
        dsimp only
        cases s.apply r.1 with
        | none => rfl
        | some s' => exact ih s' (by omega)

/-- The fields of a message, read after what is known. -/
def readFields (s : Decoding) (b : List UInt8) : Option Decoding :=
  (decodeFields b.length s b).get (decodeFields_isSome s le_rfl)

/-- A delivery before its first field. -/
def blank : Decoding := ⟨⟨⟨codecOpus, 0, 0, 0, [], (0, 0, 0), false, false⟩, contextNormal, 0⟩, 0⟩

def decodeProtobuf : List UInt8 → Except PacketError Delivery
  | [] => .error .invalidPacket
  | c :: b =>
    if maxPacketSize < b.length + 1 ∨ c ≠ 0 then .error .invalidPacket
    else
      match readFields blank b with
      | none => .error .invalidPacket
      | some s =>
        if s.delivery.frame.opusData = [] ∨ (s.positions ≠ 0 ∧ s.positions ≠ 3) then
          .error .invalidPacket
        else .ok { s.delivery with frame.hasPosition := decide (s.positions = 3) }

/-- `add` of `encodeProtobuf`. -/
def addField (field : ℕ) (v : UInt64) : List UInt8 := appendTag field 0 ++ appendVarint v

def appendBytes (field : ℕ) (data : List UInt8) : List UInt8 :=
  appendTag field 2 ++ appendLengthDelimited data

/-- The volume is 0 or 1, as a number. -/
def plainVolume (v : UInt32) : Bool :=
  decide (SingleFloat.magnitude v = 0) || decide (v = SingleFloat.one)

def encodeProtobuf (d : Delivery) (server : Bool) : List UInt8 :=
  [0] ++
    (if server then addField 2 d.context.toUInt64 ++
      addField 3 (UInt64.ofNat d.frame.senderSession)
    else addField 1 d.frame.target.toUInt64) ++
    (if d.frame.frameNumber ≠ 0 then addField 4 d.frame.frameNumber else []) ++
    appendBytes 5 d.frame.opusData ++
    (if d.frame.hasPosition then appendBytes 6 (positionBytes d.frame.position) else []) ++
    (if server ∧ plainVolume d.volumeAdjustment = false then
      appendTag 7 5 ++ appendFixed32 d.volumeAdjustment else []) ++
    if d.frame.isTerminator then addField 16 1 else []

/-! ### Packets of clients and of the server -/

/-- The form of a packet of a client. -/
def decodeIn : WireMode → List UInt8 → Except PacketError Frame
  | .legacy, data => decodeLegacy false data
  | .protobuf, data => (decodeProtobuf data).map Delivery.frame
  | .other _, _ => .error .invalidPacket

def decodeClientPacket (mode : WireMode) (data : List UInt8) : Except PacketError Frame :=
  if data = [] then .error .packetTooShort
  else if maxPacketSize < data.length then .error .invalidPacket
  else do
    let f ← decodeIn mode data
    if 31 < f.target ∨ f.codec ≠ codecOpus ∨ f.opusData = [] then .error .invalidPacket
    else .ok { f with senderSession := 0 }

/-- The form of a packet of the server. -/
def encodeIn : WireMode → Delivery → Except PacketError (List UInt8)
  | .legacy, d => encodeLegacy d true
  | .protobuf, d => .ok (encodeProtobuf d true)
  | .other _, _ => .error .invalidPacket

def encodeServerPacket (mode : WireMode) (d : Delivery) : Except PacketError (List UInt8) :=
  if d.frame.codec ≠ codecOpus ∨ d.frame.opusData = [] ∨ maxPacketSize < d.frame.opusData.length ∨
      contextListen < d.context then .error .invalidPacket
  else do
    let b ← encodeIn mode d
    if maxPacketSize < b.length then .error .invalidPacket else .ok b

/-- What a client reads from a packet of the server.  The legacy form has the context where a packet
of a client has the target, and no volume. -/
def received (mode : WireMode) (b : List UInt8) : Except PacketError Delivery :=
  match mode with
  | .legacy => (decodeLegacy true b).map fun f => ⟨f, f.target.toUInt8, 0⟩
  | .protobuf => decodeProtobuf b
  | .other _ => .error .invalidPacket

end MumbleServer.Audio
