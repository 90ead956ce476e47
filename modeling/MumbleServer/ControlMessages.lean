import MumbleServer.CodecReturn
import MumbleServer.SingleFloat

/-! # The control messages

The message types of `pkg/mumble/protocol/messages`, each with the fields that its `Marshal` writes
and its `Unmarshal` knows, in the order of `Marshal`.  First the kinds of fields; they differ in the
type of the value, in when `Marshal` leaves a field out, and in whether the presence of the field is
kept.  A Go string is its bytes.  The presence bits of a `UserState` (`SetFields`) stand beside the
fields they belong to; the bits that belong to no field are the last component. -/

namespace MumbleServer.Codec

open Wire

/-! ### Kinds of fields -/

/-- A type of numbers that are written as varints. -/
structure Scalar where
  Carrier : Type
  [decidableEq : DecidableEq Carrier]
  zero : Carrier
  enc : Carrier → UInt64
  dec : UInt64 → Carrier
  dec_enc : ∀ c, dec (enc c) = c

instance (t : Scalar) : DecidableEq t.Carrier := t.decidableEq

abbrev Scalar.uint64 : Scalar := ⟨UInt64, 0, id, id, fun _ => rfl⟩

abbrev Scalar.uint32 : Scalar :=
  ⟨UInt32, 0, UInt32.toUInt64, UInt64.toUInt32, fun c => by simp⟩

/-- A signed number is extended to 64 bits. -/
abbrev Scalar.int32 : Scalar :=
  ⟨Int32, 0, fun c => c.toInt64.toUInt64, fun v => v.toUInt32.toInt32, fun c => by
    apply Int32.toBitVec_inj.mp
    simp only [UInt32.toBitVec_toInt32, UInt64.toBitVec_toUInt32, Int64.toBitVec_toUInt64,
      Int32.toBitVec_toInt64]
    ext i hi
    have hi64 : i < 64 := by omega
    simp [hi64, BitVec.getElem_signExtend, hi]⟩

abbrev Scalar.bool : Scalar :=
  ⟨Bool, false, fun c => if c then 1 else 0, fun v => v != 0, fun c => by cases c <;> decide⟩

/-- A number; `always` if it is also written when it is zero. -/
abbrev scalar (n : ℕ) (t : Scalar) (always : Bool) : Field where
  number := some n
  kind := .varint
  message := false
  Carrier := t.Carrier
  zero := t.zero
  put c := if always || decide (c ≠ t.zero) then [t.enc c] else []
  store raw _ := .ok (t.dec raw)
  normal _ := True
  canon := id

/-- A number with its presence flag. -/
abbrev flagged (n : ℕ) (t : Scalar) : Field where
  number := some n
  kind := .varint
  message := false
  Carrier := Bool × t.Carrier
  zero := (false, t.zero)
  put c := if c.1 || decide (c.2 ≠ t.zero) then [t.enc c.2] else []
  store raw _ := .ok (true, t.dec raw)
  normal c := c.1 = false → c.2 = t.zero
  canon := id

/-- A number that is written exactly if its presence flag is set (`HasParent`). -/
abbrev optional (n : ℕ) (t : Scalar) : Field where
  number := some n
  kind := .varint
  message := false
  Carrier := Bool × t.Carrier
  zero := (false, t.zero)
  put c := if c.1 then [t.enc c.2] else []
  store raw _ := .ok (true, t.dec raw)
  normal c := c.1 = false → c.2 = t.zero
  canon := id

/-- A flag that is written exactly if it is false (`InheritACLs`). -/
abbrev negative (n : ℕ) : Field where
  number := some n
  kind := .varint
  message := false
  Carrier := Bool
  zero := false
  put c := if !c then [0] else []
  store raw _ := .ok (raw != 0)
  normal _ := True
  canon := id

abbrev repeated (n : ℕ) (t : Scalar) : Field where
  number := some n
  kind := .varint
  message := false
  Carrier := List t.Carrier
  zero := []
  put c := c.map t.enc
  store raw c := .ok (c ++ [t.dec raw])
  normal _ := True
  canon := id

/-- A string or bytes; `always` if they are also written when they are empty. -/
abbrev bytes (n : ℕ) (always : Bool) : Field where
  number := some n
  kind := .bytes
  message := false
  Carrier := List UInt8
  zero := []
  put c := if always || decide (c ≠ []) then [c] else []
  store raw _ := .ok raw
  normal _ := True
  canon := id

/-- A string or bytes with a presence flag. -/
abbrev flaggedBytes (n : ℕ) : Field where
  number := some n
  kind := .bytes
  message := false
  Carrier := Bool × List UInt8
  zero := (false, [])
  put c := if c.1 || decide (c.2 ≠ []) then [c.2] else []
  store raw _ := .ok (true, raw)
  normal c := c.1 = false → c.2 = []
  canon := id

/-- Bytes that are written exactly if they are not nil (`Key`); reading no bytes gives nil. -/
abbrev nilable (n : ℕ) : Field where
  number := some n
  kind := .bytes
  message := false
  Carrier := Option (List UInt8)
  zero := none
  put c := c.toList
  store raw _ := .ok (if raw = [] then none else some raw)
  normal _ := True
  canon c := if c = some [] then none else c

abbrev repeatedBytes (n : ℕ) : Field where
  number := some n
  kind := .bytes
  message := false
  Carrier := List (List UInt8)
  zero := []
  put c := c
  store raw c := .ok (c ++ [raw])
  normal _ := True
  canon := id

/-- A single-precision number, by its bits; it is left out if it compares equal to zero. -/
abbrev float (n : ℕ) : Field where
  number := some n
  kind := .float
  message := false
  Carrier := UInt32
  zero := 0
  put c := if SingleFloat.magnitude c = 0 then [] else [c]
  store raw _ := .ok raw
  normal _ := True
  canon := id

/-- What is done with a message in a message: it is appended as far as it decodes, or its error is
an error if `strict`. -/
def storeNested (sub : Schema) (strict : Bool) (raw : List UInt8) (c : List (Value sub)) :
    Except WireError (List (Value sub)) :=
  match (decode sub raw).error with
  | none => .ok (c ++ [(decode sub raw).value])
  | some e => if strict then .error e else .ok (c ++ [(decode sub raw).value])

/-- A list of messages; `strict` if one that does not decode is an error, `sparse` if one that
writes nothing is left out. -/
abbrev nested (n : ℕ) (sub : Schema) (strict sparse : Bool) : Field where
  number := some n
  kind := .bytes
  message := true
  Carrier := List (Value sub)
  zero := []
  put c := (c.map (marshal sub)).filter fun b => !sparse || decide (b ≠ [])
  store := storeNested sub strict
  normal c := ∀ v ∈ c, Normal sub v
  canon c := c.map (canon sub)

/-- Bits that are not on the wire. -/
abbrev hidden : Field where
  number := none
  kind := .varint
  message := false
  Carrier := UInt32
  zero := 0
  put _ := []
  store _ c := .ok c
  normal _ := True
  canon := id

/-! ### The messages -/

section messages

open Scalar

def version : Schema :=
  [scalar 1 uint32 false,   -- VersionV1
    bytes 2 false,          -- Release
    bytes 3 false,          -- OS
    bytes 4 false,          -- OSVersion
    scalar 5 uint64 false,  -- VersionV2
    scalar 6 uint32 false]  -- CryptoModes

def authenticate : Schema :=
  [bytes 1 false,           -- Username
    bytes 2 false,          -- Password
    repeatedBytes 3,        -- Tokens
    repeated 4 int32,       -- CeltVersions
    scalar 5 bool false,    -- Opus
    scalar 6 int32 false]   -- ClientType

def ping : Schema :=
  [scalar 1 uint64 false,   -- Timestamp
    scalar 2 uint32 false,  -- Good
    scalar 3 uint32 false,  -- Late
    scalar 4 uint32 false,  -- Lost
    scalar 5 uint32 false,  -- Resync
    scalar 6 uint32 false,  -- UDPPackets
    scalar 7 uint32 false,  -- TCPPackets
    float 8,                -- UDPPingAvg
    float 9,                -- UDPPingVar
    float 10,               -- TCPPingAvg
    float 11]               -- TCPPingVar

def reject : Schema :=
  [scalar 1 uint32 false,   -- Type
    bytes 2 false]          -- Reason

def serverSync : Schema :=
  [scalar 1 uint32 false,   -- Session
    scalar 2 uint32 false,  -- MaxBandwidth
    bytes 3 false,          -- WelcomeText
    scalar 4 uint64 false]  -- Permissions

def channelRemove : Schema := [scalar 1 uint32 true]  -- ChannelID

def channelState : Schema :=
  [scalar 1 uint32 true,    -- ChannelID
    optional 2 uint32,      -- HasParent, Parent
    bytes 3 false,          -- Name
    repeated 4 uint32,      -- Links
    bytes 5 false,          -- Description
    repeated 6 uint32,      -- LinksAdd
    repeated 7 uint32,      -- LinksRemove
    scalar 8 bool false,    -- Temporary
    scalar 9 int32 false,   -- Position
    bytes 10 false,         -- DescriptionHash
    scalar 11 uint32 false, -- MaxUsers
    flagged 12 bool,        -- HasEnterRestricted, IsEnterRestricted
    flagged 13 bool]        -- HasCanEnter, CanEnter

def userRemove : Schema :=
  [scalar 1 uint32 true,    -- Session
    scalar 2 uint32 false,  -- Actor
    bytes 3 false,          -- Reason
    scalar 4 bool false]    -- Ban

def volumeAdjustment : Schema :=
  [scalar 1 uint32 true,    -- ListeningChannel
    float 2]                -- VolumeAdjustment

def userState : Schema :=
  [flagged 1 uint32,        -- Session
    flagged 2 uint32,       -- Actor
    flaggedBytes 3,         -- Name
    flagged 4 uint32,       -- UserID
    flagged 5 uint32,       -- ChannelID
    flagged 6 bool,         -- Mute
    flagged 7 bool,         -- Deaf
    flagged 8 bool,         -- Suppress
    flagged 9 bool,         -- SelfMute
    flagged 10 bool,        -- SelfDeaf
    flaggedBytes 11,        -- Texture
    flaggedBytes 12,        -- PluginContext
    flaggedBytes 13,        -- PluginIdentity
    flaggedBytes 14,        -- Comment
    flaggedBytes 15,        -- Hash
    flaggedBytes 16,        -- CommentHash
    flaggedBytes 17,        -- TextureHash
    flagged 18 bool,        -- PrioritySpeaker
    flagged 19 bool,        -- Recording
    repeatedBytes 20,       -- TemporaryAccessTokens
    repeated 21 uint32,     -- ListeningChannelAdd
    repeated 22 uint32,     -- ListeningChannelRemove
    nested 23 volumeAdjustment false true,  -- ListeningVolumeAdjustment
    hidden]                 -- the bits of SetFields above the nineteenth

def banEntry : Schema :=
  [bytes 1 true,            -- Address
    scalar 2 uint32 true,   -- Mask
    bytes 3 false,          -- Name
    bytes 4 false,          -- Hash
    bytes 5 false,          -- Reason
    bytes 6 false,          -- Start
    scalar 7 uint32 false]  -- Duration

def banList : Schema :=
  [nested 1 banEntry false false,  -- Bans
    scalar 2 bool false]    -- Query

def textMessage : Schema :=
  [scalar 1 uint32 false,   -- Actor
    repeated 2 uint32,      -- Session
    repeated 3 uint32,      -- ChannelID
    repeated 4 uint32,      -- TreeID
    bytes 5 true]           -- Message

def permissionDenied : Schema :=
  [scalar 1 uint32 false,   -- Permission
    scalar 2 uint32 true,   -- ChannelID
    scalar 3 uint32 false,  -- Session
    bytes 4 false,          -- Reason
    scalar 5 uint32 false,  -- Type
    bytes 6 false]          -- Name

def acl : Schema :=
  [scalar 1 uint32 true,    -- ChannelID
    negative 2,             -- InheritACLs
    scalar 5 bool false]    -- Query

def queryUsers : Schema :=
  [repeated 1 uint32,       -- IDs
    repeatedBytes 2]        -- Names

def cryptSetup : Schema :=
  [nilable 1,               -- Key
    bytes 2 false,          -- ClientNonce
    bytes 3 false]          -- ServerNonce

def contextActionModify : Schema :=
  [bytes 1 true,            -- Action
    bytes 2 false,          -- Text
    scalar 3 uint32 false,  -- Context
    scalar 4 uint32 false]  -- Operation

def contextAction : Schema :=
  [scalar 1 uint32 false,   -- Session
    scalar 2 uint32 true,   -- ChannelID
    bytes 3 true]           -- Action

def userList : Schema := []

def voiceTargetTarget : Schema :=
  [repeated 1 uint32,       -- Session
    flagged 2 uint32,       -- HasChannelID, ChannelID
    bytes 3 false,          -- Group
    scalar 4 bool false,    -- Links
    scalar 5 bool false]    -- Children

def voiceTarget : Schema :=
  [scalar 1 uint32 false,   -- ID
    nested 2 voiceTargetTarget true true]  -- Targets

def permissionQuery : Schema :=
  [scalar 1 uint32 true,    -- ChannelID
    scalar 2 uint32 false,  -- Permissions
    scalar 3 bool false]    -- Flush

def codecVersion : Schema :=
  [scalar 1 int32 true,     -- Alpha
    scalar 2 int32 true,    -- Beta
    scalar 3 bool true,     -- PreferAlpha
    scalar 4 bool false]    -- Opus

def userStats : Schema := [scalar 1 uint32 false]  -- Session

def requestBlob : Schema :=
  [repeated 1 uint32,       -- SessionTexture
    repeated 2 uint32,      -- SessionComment
    repeated 3 uint32]      -- ChannelDescription

def serverConfig : Schema :=
  [scalar 1 uint32 false,   -- MaxBandwidth
    bytes 2 false,          -- WelcomeText
    scalar 3 bool false,    -- AllowHTML
    scalar 4 uint32 false,  -- MessageLength
    scalar 5 uint32 false,  -- ImageMessageLength
    scalar 6 uint32 false,  -- MaxUsers
    scalar 7 bool false]    -- RecordingAllowed

def suggestConfig : Schema :=
  [scalar 1 uint32 false,   -- VersionV1
    scalar 2 bool false,    -- Positional
    scalar 3 bool false,    -- PushToTalk
    scalar 4 uint64 false]  -- VersionV2

def pluginDataTransmission : Schema :=
  [scalar 1 uint32 false,   -- SenderSession
    repeated 2 uint32,      -- ReceiverSessions
    bytes 3 false,          -- Data
    bytes 4 false]          -- DataID

end messages

/-- The messages that have a codec: all but the tunnelled voice packets. -/
inductive Message
  | version | authenticate | ping | reject | serverSync | channelRemove | channelState
  | userRemove | userState | banList | textMessage | permissionDenied | acl | queryUsers
  | cryptSetup | contextActionModify | contextAction | userList | voiceTarget | permissionQuery
  | codecVersion | userStats | requestBlob | serverConfig | suggestConfig
  | pluginDataTransmission
deriving DecidableEq

namespace Message

def schema : Message → Schema
  | .version => Codec.version
  | .authenticate => Codec.authenticate
  | .ping => Codec.ping
  | .reject => Codec.reject
  | .serverSync => Codec.serverSync
  | .channelRemove => Codec.channelRemove
  | .channelState => Codec.channelState
  | .userRemove => Codec.userRemove
  | .userState => Codec.userState
  | .banList => Codec.banList
  | .textMessage => Codec.textMessage
  | .permissionDenied => Codec.permissionDenied
  | .acl => Codec.acl
  | .queryUsers => Codec.queryUsers
  | .cryptSetup => Codec.cryptSetup
  | .contextActionModify => Codec.contextActionModify
  | .contextAction => Codec.contextAction
  | .userList => Codec.userList
  | .voiceTarget => Codec.voiceTarget
  | .permissionQuery => Codec.permissionQuery
  | .codecVersion => Codec.codecVersion
  | .userStats => Codec.userStats
  | .requestBlob => Codec.requestBlob
  | .serverConfig => Codec.serverConfig
  | .suggestConfig => Codec.suggestConfig
  | .pluginDataTransmission => Codec.pluginDataTransmission

def marshal (m : Message) (v : Value m.schema) : List UInt8 := Codec.marshal m.schema v

/-- `Unmarshal` into a zero value.  That of `UserList` is a stub that reads nothing. -/
def unmarshal (m : Message) (b : List UInt8) : Decoded m.schema :=
  if m = .userList then ⟨[], zero m.schema, none⟩ else decode m.schema b

/-- **`Unmarshal` ends.**  Whatever the bytes, the loop of each message returns within as many
rounds as there are bytes, since every round begins behind the one before. -/
theorem unmarshal_ends (m : Message) (b : List UInt8) :
    ∃ d, decodeLoop m.schema b.length (zero m.schema) b = some d ∧
      (m ≠ .userList → m.unmarshal b = d) ∧
      (d.rounds.map fun r => r.place.length).Pairwise (· > ·) ∧
      ∀ r ∈ d.rounds, 0 < r.place.length ∧ r.place.length ≤ b.length := by
  obtain ⟨hpair, hall⟩ := rounds_advance (zero m.schema) b
  exact ⟨_, decodeLoop_eq _ b, fun hm => if_neg hm, hpair, hall⟩

end Message

end MumbleServer.Codec
