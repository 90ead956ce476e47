import MumbleServer.ChannelTree
import MumbleServer.Reads
import MumbleServer.UserManager

/-! # Access control lists

`internal/acl`: the permissions of a subject in a channel.  `evaluate` walks the channels from
the root down to the target and lets the ACL rows of each grant and deny; a row names a user or
selects a group, and groups are stored rows, temporary members or properties of the session.

The evaluator reads the channel tree, the database and the temporary members one access at a
time, so it is a computation over a shared `World`, with one access for each place where the
source takes a lock or queries the database.  The texts of errors are those of the source.

Unicode case folding comes from the Go library and is a parameter, `fold`. -/

namespace MumbleServer.Acl

/-! ### Permissions -/

/-- A permission mask (`mumble.Permission`). -/
abbrev Permission := BitVec 32

namespace Permission

def write : Permission := 0x1
def traverse : Permission := 0x2
def enter : Permission := 0x4
def speak : Permission := 0x8
def muteDeafen : Permission := 0x10
def move : Permission := 0x20
def makeChannel : Permission := 0x40
def linkChannel : Permission := 0x80
def whisper : Permission := 0x100
def textMessage : Permission := 0x200
def makeTempChannel : Permission := 0x400
def listen : Permission := 0x800
def kick : Permission := 0x10000
def ban : Permission := 0x20000
def register : Permission := 0x40000
def selfRegister : Permission := 0x80000
def resetUser : Permission := 0x100000

/-- `PermissionAll`. -/
def all : Permission :=
  write ||| traverse ||| enter ||| speak ||| muteDeafen ||| move ||| makeChannel ||| linkChannel |||
    whisper ||| textMessage ||| makeTempChannel ||| listen ||| kick ||| ban ||| register |||
    selfRegister ||| resetUser

end Permission

def defaultPermissions : Permission :=
  Permission.traverse ||| Permission.enter ||| Permission.speak ||| Permission.whisper |||
    Permission.textMessage ||| Permission.listen

def rootPermissions : Permission :=
  Permission.kick ||| Permission.ban ||| Permission.register ||| Permission.selfRegister |||
    Permission.resetUser

def writePermissions : Permission :=
  Permission.traverse ||| Permission.enter ||| Permission.muteDeafen ||| Permission.move |||
    Permission.makeChannel ||| Permission.linkChannel ||| Permission.textMessage |||
    Permission.makeTempChannel ||| Permission.listen

/-- The mask has one of the bits of `p`. -/
def has (mask p : Permission) : Bool := mask &&& p != 0

/-! ### The world the evaluator reads -/

structure ChannelACL where
  id : ℕ
  serverID : ℕ
  channelID : ℕ
  priority : Int
  applyHere : Bool
  applySubs : Bool
  userID : Option Int32
  groupName : String
  accessToken : String
  evalHere : Bool
  invert : Bool
  grant : Permission
  deny : Permission

structure ChannelGroup where
  id : ℕ
  serverID : ℕ
  channelID : ℕ
  name : String
  inherit : Bool
  inheritable : Bool
  addUserIDs : List UInt32
  removeUserIDs : List UInt32

inductive Role where
  | admin
  | user
deriving DecidableEq, Repr

/-- `models.User`, an API account. -/
structure Account where
  id : ℕ
  role : Role

/-- The tables the evaluator queries. -/
structure Database where
  acls : List ChannelACL
  groups : List ChannelGroup
  accounts : List Account

structure GroupKey where
  channelID : ℕ
  name : String
deriving DecidableEq

/-- `temporaryMembers`; sessions with their generation. -/
structure TemporaryMembers where
  users : List UInt32
  sessions : List SessionRef

/-- What the evaluator reads.  `dbError` is the error every database query returns, if any. -/
structure World where
  serverID : ℕ
  channels : Channels
  db : Database
  dbError : Option String
  temporary : List (GroupKey × TemporaryMembers)

abbrev Query (α : Type) : Type := Fallible World String α

/-- One look at the world, under a lock. -/
def look {α : Type} (f : World → α) : Query α := Fallible.ask fun w => .ok (f w)

def query {α : Type} (f : World → α) : Query α :=
  Fallible.ask fun w =>
    match w.dbError with
    | some e => .error e
    | none => .ok (f w)

/-- `e.temporary[key]`. -/
def World.temporaryMembers (w : World) (key : GroupKey) : Option TemporaryMembers :=
  (w.temporary.find? (fun e => decide (e.1 = key))).map Prod.snd

/-- The order of `Order("priority, id")`. -/
def rowLe (a b : ChannelACL) : Bool :=
  decide (a.priority < b.priority) || (decide (a.priority = b.priority) && decide (a.id ≤ b.id))

def World.aclRows (w : World) (cid : ℕ) : List ChannelACL :=
  (w.db.acls.filter (fun r => decide (r.serverID = w.serverID) && decide (r.channelID = cid))).mergeSort
    rowLe

/-- The group rows of a channel under a name, in order. -/
def World.groupRows (w : World) (cid : ℕ) (name : String) : List ChannelGroup :=
  (w.db.groups.filter (fun g => decide (g.serverID = w.serverID) && decide (g.channelID = cid) &&
    decide (g.name = name))).mergeSort (fun a b => decide (a.id ≤ b.id))

/-! ### API accounts -/

def apiUserIDBase : UInt32 := 0x80000000

def isAPIUserID (userID : UInt32) : Bool := decide (apiUserIDBase ≤ userID)

def apiUserIDToDBID (userID : UInt32) : ℕ :=
  if isAPIUserID userID then (userID &&& 0x7FFFFFFF).toNat else 0

def apiAdmin (id : UInt32) : Query Bool :=
  query fun w =>
    match w.db.accounts.find? (fun a => decide (a.id = apiUserIDToDBID id)) with
    | none => false
    | some account => decide (account.role = .admin)

/-! ### Selectors -/

structure Selector where
  name : String
  invert : Bool
  here : Bool
  token : Bool
  cert : Bool

def parseSelectorLoop (s : Selector) : List Char → Selector
  | [] => s
  | '!' :: rest => parseSelectorLoop { s with invert := true } rest
  | '~' :: rest => parseSelectorLoop { s with here := true } rest
  | '#' :: rest => parseSelectorLoop { s with token := true } rest
  | '$' :: rest => parseSelectorLoop { s with cert := true } rest
  | c :: rest => { s with name := String.ofList (c :: rest) }

/-- `parseSelector`: leading marks, then the name. -/
def parseSelector (name : String) : Selector :=
  parseSelectorLoop ⟨"", false, false, false, false⟩ name.toList

def isSpace (c : Char) : Bool :=
  [0x9, 0xA, 0xB, 0xC, 0xD, 0x20, 0x85, 0xA0, 0x1680, 0x2028, 0x2029, 0x202F, 0x205F,
    0x3000].contains c.toNat || (decide (0x2000 ≤ c.toNat) && decide (c.toNat ≤ 0x200A))

def trimSpace (cs : List Char) : List Char :=
  ((cs.dropWhile isSpace).reverse.dropWhile isSpace).reverse

/-- The digits of a decimal number. -/
def parseDigits (cs : List Char) : Option ℕ :=
  if cs ≠ [] ∧ cs.all Char.isDigit then some (Nat.ofDigitChars 10 cs 0) else none

/-- `strconv.ParseInt(s, 10, 32)`. -/
def parseInt32 (cs : List Char) : Option Int :=
  let parsed : Option Int :=
    match cs with
    | '-' :: ds => (parseDigits ds).map fun n : ℕ => -(n : Int)
    | '+' :: ds => (parseDigits ds).map fun n : ℕ => (n : Int)
    | ds => (parseDigits ds).map fun n : ℕ => (n : Int)
  parsed.filter fun n => decide (-2147483648 ≤ n ∧ n ≤ 2147483647)

def selectorInt (value : List Char) : Int := (parseInt32 (trimSpace value)).getD 0

/-- `strings.Split(s, ",")`. -/
def splitCommas : List Char → List (List Char)
  | [] => [[]]
  | ',' :: rest => [] :: splitCommas rest
  | c :: rest =>
    match splitCommas rest with
    | [] => [[c]]
    | field :: fields => (c :: field) :: fields

def subValue (args : List (List Char)) (i : ℕ) (dflt : Int) : Int :=
  match args[i]? with
  | some arg => if arg = [] then dflt else selectorInt arg
  | none => dflt

/-- The three numbers of a `sub` selector, with their defaults. -/
def subValues (name : String) : Int × Int × Int :=
  let args := if name = "sub" then [] else splitCommas (name.toList.drop 4)
  (subValue args 0 0, subValue args 1 1, subValue args 2 1000)

def matchSub (name : String) (target context : ℕ) (u : Option Authorization) : Query Bool :=
  match u with
  | none => pure false
  | some u => do
      let values := subValues name
      let path := (← look fun w => w.channels.ancestorChain target).reverse
      match path.findIdx? (fun c => decide (c = context)) with
      | none => pure false
      | some index => do
          let required := max ((index : Int) + values.1) 0
          if (path.length : Int) ≤ required then pure false
          else do
            let home ← look fun w => w.channels.ancestorChain u.channelID
            if home.contains (path.getD required.toNat 0) then
              let depth := (home.length : Int) - 1
              pure (decide (required + values.2.1 ≤ depth) && decide (depth ≤ required + values.2.2))
            else pure false

section matching
variable (fold : Char → Char)

/-- `userHasToken`, with `strings.EqualFold`. -/
def userHasToken (u : Option Authorization) (token : String) : Bool :=
  match u with
  | none => false
  | some u => token != "" && u.accessTokens.any (fun t => t.toList.map fold == token.toList.map fold)

end matching

/-! ### Groups -/

/-- A connected user as the evaluator sees it: the session, and what its permissions depend
on. -/
structure Viewer extends Authorization where
  ref : SessionRef
deriving DecidableEq

def temporaryMatch (key : GroupKey) (id : UInt32) (u : Option Viewer) : Query Bool :=
  look fun w =>
    match w.temporaryMembers key with
    | none => false
    | some members =>
      (decide (id ≠ 0) && members.users.contains id) ||
        u.any (fun v => decide (v.ref.generation ≠ 0) && members.sessions.contains v.ref)

/-- The group of a channel in `storedGroup`: the stored row, else one made up for temporary
members. -/
def groupAt (name : String) (cid : ℕ) : List ChannelGroup → Query (Option ChannelGroup)
  | g :: _ => pure (some g)
  | [] => do
      let temporary ← look fun w => (w.temporaryMembers ⟨cid, name⟩).isSome
      pure (if temporary then some ⟨0, 0, cid, "", true, true, [], []⟩ else none)

/-- The first loop of `storedGroup`: the group rows that count, from the channel up. -/
def groupStack (name : String) (context : ℕ) : List ℕ → Query (List ChannelGroup)
  | [] => pure []
  | cid :: rest => do
      let rows ← query fun w => w.groupRows cid name
      match ← groupAt name cid rows with
      | none => groupStack name context rest
      | some g =>
        if cid ≠ context ∧ ¬ g.inheritable then pure []
        else if ¬ g.inherit then pure [g]
        else do
          let above ← groupStack name context rest
          pure (g :: above)

/-- The second loop of `storedGroup`: members are added and removed from the top down. -/
def groupMembers (name : String) (id : UInt32) (u : Option Viewer) :
    List ChannelGroup → Bool → Query Bool
  | [], isMember => pure isMember
  | g :: below, isMember => do
      let stored := decide (id ≠ 0) && g.addUserIDs.contains id
      let temporary ←
        (if stored then pure false else temporaryMatch ⟨g.channelID, name⟩ id u : Query Bool)
      let added := isMember || stored || temporary
      groupMembers name id u below
        (if id ≠ 0 ∧ g.removeUserIDs.contains id then false else added)

def storedGroup (id : UInt32) (name : String) (context : ℕ) (u : Option Viewer) : Query Bool := do
  let chain ← look fun w => w.channels.ancestorChain context
  if chain.getLast? ≠ some rootChannelID then throw "Group 频道路径无效"
  else do
    let stack ← groupStack name context chain
    groupMembers name id u stack.reverse false

/-! ### Rows -/

section rows
variable (fold : Char → Char)

/-- The switch of `matchSelector`. -/
def selectorHolds (s : Selector) (id : UInt32) (target context : ℕ) (u : Option Viewer) :
    Query Bool :=
  let auth := u.map Viewer.toAuthorization
  if s.token then pure (userHasToken fold auth s.name)
  else if s.cert then pure (auth.any (fun v => decide (v.certHash = s.name)))
  else if s.name = "none" then pure false
  else if s.name = "all" then pure true
  else if s.name = "auth" then pure (decide (0 < id))
  else if s.name = "strong" then pure (auth.any (fun v => v.certificateVerified))
  else if s.name = "in" then pure (auth.any (fun v => decide (v.channelID = context)))
  else if s.name = "out" then pure (auth.all (fun v => decide (v.channelID ≠ context)))
  else if s.name = "sub" ∨ s.name.toList.take 4 = "sub,".toList then
    matchSub s.name target context auth
  else if auth.any (fun v => v.externalIdentity && v.externalGroups.contains s.name) then pure true
  else if s.name = "admin" ∧ isAPIUserID id then apiAdmin id
  else storedGroup id s.name context u

def matchSelector (s : Selector) (id : UInt32) (target definition : ℕ) (u : Option Viewer) :
    Query Bool :=
  if s.name = "" then pure false
  else do
    let isMatch ← selectorHolds fold s id target (if s.here then definition else target) u
    pure (if s.invert then !isMatch else isMatch)

/-- The selector of a row without a user. -/
def rowSelector (row : ChannelACL) : Selector :=
  let s := if row.accessToken ≠ "" then ⟨row.accessToken, false, false, true, false⟩
    else parseSelector row.groupName
  { s with here := s.here || row.evalHere, invert := s.invert || row.invert }

def entryMatches (row : ChannelACL) (id : UInt32) (target : ℕ) (u : Option Viewer) : Query Bool :=
  match row.userID with
  | some uid =>
    let isMatch := decide (id ≠ 0) && decide (uid ≠ -1) && decide (uid.toUInt32 = id)
    pure (if row.invert then !isMatch else isMatch)
  | none => matchSelector fold (rowSelector row) id target row.channelID u

/-! ### The evaluator -/

/-- What `evaluate` carries from row to row. -/
structure Tally where
  granted : Permission
  traverse : Bool
  write : Bool

/-- The body of the row loop, for a row that matches. -/
def Tally.apply (target cid : ℕ) (row : ChannelACL) (t : Tally) : Tally :=
  let self := decide (cid = target) && row.applyHere
  let inherited := decide (cid ≠ target) && row.applySubs
  let apply := self || inherited
  let track := inherited || row.applyHere
  let traverse := if track && has row.grant Permission.traverse then true else t.traverse
  let traverse := if track && has row.deny Permission.traverse then false else traverse
  let write := if apply && has row.grant Permission.write then true else t.write
  let write := if apply && has row.deny Permission.write then false else write
  let granted := if decide (cid = rootChannelID) && self
    then t.granted ||| (row.grant &&& rootPermissions) else t.granted
  let granted := if apply
    then (granted ||| (row.grant &&& (Permission.all &&& ~~~ rootPermissions))) &&& ~~~ row.deny
    else granted
  ⟨granted, traverse, write⟩

/-- The row loop of one channel. -/
def visitRows (id : UInt32) (target cid : ℕ) (u : Option Viewer) :
    List ChannelACL → Tally → Query Tally
  | [], t => pure t
  | row :: rows, t => do
      let isMatch ← entryMatches fold row id target u
      visitRows id target cid u rows (if isMatch then t.apply target cid row else t)

/-- The channel loop, from the root down; `none` if the target cannot be reached. -/
def visitChannels (dflt : Permission) (id : UInt32) (target : ℕ) (u : Option Viewer) :
    List ℕ → Tally → Query (Option Tally)
  | [], t => pure (some t)
  | cid :: rest, t => do
      match ← look fun w => w.channels.getChannelWithMeta cid with
      | none => throw "频道已删除"
      | some (_, inherit) => do
          let rows ← query fun w => w.aclRows cid
          let t ← visitRows fold id target cid u rows
            (if inherit then t else { t with granted := dflt })
          if ¬ t.traverse ∧ ¬ t.write then pure none
          else visitChannels dflt id target u rest t

/-- The end of `evaluate`: a final Write brings the other permissions with it. -/
def finish (target : ℕ) (t : Tally) : Permission :=
  let granted := t.granted
  let granted := if has granted Permission.write then
      if target = rootChannelID then granted ||| writePermissions ||| rootPermissions
      else granted ||| writePermissions
    else granted
  granted &&& Permission.all

/-- The permissions everybody starts from; administrators of the API have Write as well. -/
def baseline (id : UInt32) : Query Permission :=
  if isAPIUserID id then do
    let admin ← apiAdmin id
    pure (if admin then defaultPermissions ||| Permission.write else defaultPermissions)
  else pure defaultPermissions

def evaluate (id : UInt32) (target : ℕ) (u : Option Viewer) : Query Permission := do
  let chain ← look fun w => w.channels.ancestorChain target
  if chain.getLast? ≠ some rootChannelID then throw "频道路径不存在或不完整"
  else do
    let dflt ← baseline id
    match ← visitChannels fold dflt id target u chain.reverse
        ⟨dflt, true, has dflt Permission.write⟩ with
    | none => pure 0
    | some t => pure (finish target t)

end rows

end MumbleServer.Acl
