import MumbleServer.Acl
import MumbleServer.Runs

/-! # Local accounts

`internal/mumble/identity_authority.go`: `localAuthority` decides who may connect, from the
server password, the API accounts (`users`) and the registered users (`registered_users`).  The
REST handlers and the user service create, change and delete the rows of these two tables.  A
deletion only marks the row; queries through the model hide marked rows, and the two lookups of
the authentication go to the table itself and do not.

The password hashes are third-party code and a parameter, `Hashing`; nothing below depends on
what they compute.  `fold` is Unicode case folding, as in `Acl`. -/

namespace MumbleServer.Accounts

open List
open Acl (Role apiUserIDBase trimSpace)

/-! ### The tables -/

/-- `models.User`, an API account. -/
structure APIUser where
  id : ℕ
  username : String
  passwordHash : String
  role : Role
  deleted : Bool
deriving DecidableEq

structure RegisteredUser where
  serverID : ℕ
  userID : Int32
  name : String
  certHash : String
  passwordHash : String
  deleted : Bool
deriving DecidableEq

/-- The tables, each in the order of its primary key.  Rows are never taken out, so the primary
key of a new row is its position. -/
structure Tables where
  users : List APIUser
  registered : List RegisteredUser
deriving DecidableEq

/-- Password hashing (`internal/auth`, over bcrypt and Argon2id).  Hashing draws a salt and can
fail. -/
structure Hashing where
  hashPassword : ℕ → String → Option String
  comparePassword : String → String → Bool
  hashArgon2id : ℕ → String → Option String
  compareArgon2id : String → String → Bool

def hasPrefix (s p : String) : Bool := p.toList.isPrefixOf s.toList

/-- `sanitize.Username`: empty if the name is not acceptable. -/
def sanitizeUsername (s : String) : String :=
  let cs := trimSpace s.toList
  if cs = [] ∨ 64 < (String.ofList cs).utf8ByteSize then ""
  else if cs.all (fun c => c.isAlphanum || c == '_') then String.ofList cs
  else ""

/-! ### Management -/

section management
variable (h : Hashing)

/-- `UserService.Register`.  The first check sees the rows that are not deleted, the unique index
of the table all of them. -/
def Tables.register (db : Tables) (input password : String) (salt : ℕ) : Tables :=
  let username := sanitizeUsername input
  if username = "" then db
  else if password.utf8ByteSize < 8 then db
  else
    let role := if db.users.all (fun u => u.deleted) then Role.admin else Role.user
    match h.hashPassword salt password with
    | none => db
    | some hash =>
      if db.users.any (fun u => !u.deleted && decide (u.username = username)) then db
      else if db.users.any (fun u => decide (u.username = username)) then db
      else { db with users := db.users ++ [⟨db.users.length + 1, username, hash, role, false⟩] }

/-- `UserService.UpdateUserRole`; `none` is a role that does not exist. -/
def Tables.updateUserRole (db : Tables) (id : ℕ) (newRole : Option Role) (currentUserID : ℕ) :
    Tables :=
  if id = currentUserID then db
  else
    match newRole with
    | none => db
    | some r =>
      { db with users := db.users.map fun u =>
          if u.id = id ∧ u.deleted = false then { u with role := r } else u }

def Tables.deleteUser (db : Tables) (id currentUserID : ℕ) : Tables :=
  if id = currentUserID then db
  else { db with users := db.users.map fun u =>
    if u.id = id ∧ u.deleted = false then { u with deleted := true } else u }

/-- `MAX(user_id)` over the rows of a server that are not deleted. -/
def Tables.maxUserID (db : Tables) (serverID : ℕ) : Option Int32 :=
  ((db.registered.filter fun r => decide (r.serverID = serverID) && !r.deleted).map
    RegisteredUser.userID).foldl (fun m x => some (m.elim x (max x))) none

/-- The ID of the next registered user of a server. -/
def Tables.nextUserID (db : Tables) (serverID : ℕ) : Int32 :=
  match db.maxUserID serverID with
  | some m => if 0 ≤ m then m + 1 else 1
  | none => 1

/-- `RegisteredUserHandler.Create`. -/
def Tables.createRegistered (db : Tables) (serverID : ℕ) (name password : String) (salt : ℕ) :
    Tables :=
  if name = "" then db
  else if password = "" then db
  else
    match h.hashArgon2id salt password with
    | none => db
    | some hash =>
      { db with registered := db.registered ++
          [⟨serverID, db.nextUserID serverID, name, "", hash, false⟩] }

/-- `RegisteredUserHandler.Update`: the first row of that ID that is not deleted. -/
def Tables.updateRegistered (db : Tables) (serverID : ℕ) (userID : Int32)
    (name password : Option String) (salt : ℕ) : Tables :=
  let update (hash : Option String) : Tables :=
    { db with registered := db.registered.replaceF fun r =>
        if r.serverID = serverID ∧ r.userID = userID ∧ r.deleted = false then
          some { r with name := name.getD r.name, passwordHash := hash.getD r.passwordHash }
        else none }
  match password.filter (· ≠ "") with
  | none => update none
  | some p =>
    match h.hashArgon2id salt p with
    | none => db
    | some hash => update (some hash)

/-- `RegisteredUserHandler.Delete`. -/
def Tables.deleteRegistered (db : Tables) (serverID : ℕ) (userID : Int32) : Tables :=
  { db with registered := db.registered.map fun r =>
      if r.serverID = serverID ∧ r.userID = userID ∧ r.deleted = false then
        { r with deleted := true } else r }

/-- The requests that change the tables. -/
inductive Op where
  | register (username password : String) (salt : ℕ)
  | updateUserRole (id : ℕ) (newRole : Option Role) (currentUserID : ℕ)
  | deleteUser (id currentUserID : ℕ)
  | createRegistered (serverID : ℕ) (name password : String) (salt : ℕ)
  | updateRegistered (serverID : ℕ) (userID : Int32) (name password : Option String) (salt : ℕ)
  | deleteRegistered (serverID : ℕ) (userID : Int32)

def step (db : Tables) : Op → Tables
  | .register username password salt => db.register h username password salt
  | .updateUserRole id newRole current => db.updateUserRole id newRole current
  | .deleteUser id current => db.deleteUser id current
  | .createRegistered serverID name password salt => db.createRegistered h serverID name password salt
  | .updateRegistered serverID userID name password salt =>
    db.updateRegistered h serverID userID name password salt
  | .deleteRegistered serverID userID => db.deleteRegistered serverID userID

def tablesAfter (ops : List Op) : Tables := run (step h) ⟨[], []⟩ ops

end management

/-! ### Authentication -/

/-- What `localAuthority` reads of the configuration. -/
structure Config where
  serverPassword : String
  serverID : ℕ

/-- `identity.AuthenticateRequest`. -/
structure Request where
  username : String
  password : String
  certificateHash : String

/-- `identity.AuthenticateResult`: the user ID of an admitted client, 0 for one without an
account. -/
inductive Result where
  | deny
  | allow (userID : UInt32)
deriving DecidableEq

def makeAPIUserID (id : ℕ) : UInt32 :=
  if id = 0 then 0 else apiUserIDBase ||| UInt32.ofNat (id &&& 0x7FFFFFFF)

/-- `LookupAPIUser`, on the table itself. -/
def Tables.lookupAPIUser (db : Tables) (username : String) : Option APIUser :=
  db.users.find? fun u => decide (u.username = username)

/-- The ID of an API account as `LookupAPIUser` returns it, in 32 bits. -/
def APIUser.lookupID (u : APIUser) : ℕ := u.id % UInt32.size

/-- The first row with the least user ID, which `First` returns for a query without a primary key. -/
def leastUserID (rows : List RegisteredUser) : Option RegisteredUser :=
  rows.find? fun r => rows.all fun s => decide (r.userID ≤ s.userID)

/-- `lookupRegisteredUser`, on the table itself. -/
def Tables.lookupRegisteredUser (db : Tables) (serverID : ℕ) (username : String) :
    Option RegisteredUser :=
  leastUserID (db.registered.filter fun r =>
    decide (r.serverID = serverID) && decide (r.name = username))

section authentication
variable (h : Hashing) (fold : Char → Char)

def registeredUserCredentialsValid
    (storedPasswordHash storedCertHash providedPassword presentedCertHash : String) : Bool :=
  let certMatches := storedCertHash != "" && presentedCertHash != "" &&
    storedCertHash.toList.map fold == presentedCertHash.toList.map fold
  let passwordMatches := providedPassword != "" && storedPasswordHash != "" &&
    ((hasPrefix storedPasswordHash "$argon2id$" &&
        h.compareArgon2id storedPasswordHash providedPassword) ||
      (hasPrefix storedPasswordHash "$2" && h.comparePassword storedPasswordHash providedPassword))
  certMatches || passwordMatches

variable (cfg : Config) (db : Tables) (req : Request)

/-- The first part of `Authenticate`: the API account that the password belongs to, 0 for none;
nothing if the request is denied. -/
def authenticateAPIUser : Option ℕ :=
  if cfg.serverPassword ≠ "" then
    if req.password ≠ cfg.serverPassword then
      match db.lookupAPIUser req.username with
      | none => none
      | some u => if h.comparePassword u.passwordHash req.password then some u.lookupID else none
    else some 0
  else if req.password ≠ "" then
    match db.lookupAPIUser req.username with
    | none => some 0
    | some u => if h.comparePassword u.passwordHash req.password then some u.lookupID else none
  else some 0

/-- The end of `Authenticate`: the name `SuperUser` needs an account. -/
def allowUser (userID : UInt32) : Result :=
  if req.username = "SuperUser" ∧ userID = 0 then .deny else .allow userID

/-- The second part of `Authenticate`, without an API account. -/
def authenticateRegistered : Result :=
  match db.lookupRegisteredUser cfg.serverID req.username with
  | none => allowUser req 0
  | some r =>
    if registeredUserCredentialsValid h fold r.passwordHash r.certHash req.password
        req.certificateHash then allowUser req r.userID.toUInt32
    else .deny

def authenticate : Result :=
  match authenticateAPIUser h cfg db req with
  | none => .deny
  | some apiUserID =>
    if apiUserID ≠ 0 then allowUser req (makeAPIUserID apiUserID)
    else authenticateRegistered h fold cfg db req

end authentication

/-! ### Soundness -/

/-- A row of one of the two tables. -/
inductive Account where
  | api (u : APIUser)
  | registered (r : RegisteredUser)

namespace Account

def name : Account → String
  | api u => u.username
  | registered r => r.name

def deleted : Account → Bool
  | api u => u.deleted
  | registered r => r.deleted

def userID : Account → UInt32
  | api u => makeAPIUserID u.id
  | registered r => r.userID.toUInt32

/-- The request proves that it comes from the owner of the account. -/
def accepts (h : Hashing) (fold : Char → Char) (req : Request) : Account → Bool
  | api u => h.comparePassword u.passwordHash req.password
  | registered r =>
    registeredUserCredentialsValid h fold r.passwordHash r.certHash req.password
      req.certificateHash

end Account

/-- The accounts of a server, deleted ones included. -/
def Tables.accounts (db : Tables) (serverID : ℕ) : List Account :=
  db.users.map .api ++ (db.registered.filter fun r => decide (r.serverID = serverID)).map .registered

section soundness
variable (h : Hashing) (fold : Char → Char) (cfg : Config) (db : Tables) (req : Request)

/-- The user ID belongs to an account of the requested name that is not deleted and accepts the
request. -/
def Owned (userID : UInt32) : Prop :=
  ∃ a ∈ db.accounts cfg.serverID, a.deleted = false ∧ a.name = req.username ∧
    a.userID = userID ∧ a.accepts h fold req = true

/-- Who is admitted as an account owns it. -/
def Sound : Prop :=
  ∀ userID, authenticate h fold cfg db req = .allow userID → userID ≠ 0 →
    Owned h fold cfg db req userID

/-- `Authenticate` comes to the registered users: the password is the one of the server, or it is
not, and then no API account of the name stands in the way and there is one or no server password. -/
def RegisteredTurn : Prop :=
  req.password = cfg.serverPassword ∨
    (cfg.serverPassword = "" ∨ ∃ u ∈ db.users, u.username = req.username) ∧
      ∀ u ∈ db.users, u.username = req.username →
        u.lookupID = 0 ∧ h.comparePassword u.passwordHash req.password = true

/-- Among the rows of the server and the name, deleted or not, no row has a smaller user ID, and no
earlier row the same. -/
def First (r : RegisteredUser) : Prop :=
  ∃ before after, (db.registered.filter fun r =>
      decide (r.serverID = cfg.serverID) && decide (r.name = req.username)) =
        before ++ r :: after ∧
    (∀ s ∈ before, r.userID < s.userID) ∧ ∀ s ∈ after, r.userID ≤ s.userID

/-- The request is decided by the row: an API account if the password is not the one of the server,
a registered user otherwise or if there is no such account. -/
def Decides : Account → Prop
  | .api u => req.password ≠ cfg.serverPassword ∧ u.lookupID ≠ 0
  | .registered r => RegisteredTurn h cfg db req ∧ First cfg db req r

variable {h fold cfg db req}

theorem allowUser_eq_allow {x userID : UInt32} (hid : userID ≠ 0) :
    allowUser req x = .allow userID ↔ x = userID := by
  unfold allowUser
  split_ifs with hsuper
  · simp [hsuper.2, hid.symm]
  · simp

/-- `First` of gorm finds the first row. -/
theorem lookupRegisteredUser_iff {r : RegisteredUser} :
    db.lookupRegisteredUser cfg.serverID req.username = some r ↔ First cfg db req r := by
  unfold Tables.lookupRegisteredUser leastUserID First
  generalize db.registered.filter _ = rows
  rw [find?_eq_some_iff_append, all_eq_true]
  simp only [decide_eq_true_eq, Bool.not_eq_true', all_eq_false]
  constructor
  · rintro ⟨hleast, before, after, rfl, hbefore⟩
    refine ⟨before, after, rfl, fun s hs => ?_, fun s hs => hleast s (by simp [hs])⟩
    obtain ⟨t, ht, hnot⟩ := hbefore s hs
    exact Int32.lt_of_le_of_lt (hleast t ht) (Int32.not_le.mp hnot)
  · rintro ⟨before, after, rfl, hbefore, hafter⟩
    refine ⟨fun s hs => ?_, before, after, rfl, fun s hs =>
      ⟨r, by simp, Int32.not_le.mpr (hbefore s hs)⟩⟩
    rcases mem_append.mp hs with hs | hs
    · exact Int32.le_of_lt (hbefore s hs)
    · rcases mem_cons.mp hs with rfl | hs
      · exact Int32.le_refl _
      · exact hafter s hs

theorem First.mem {r : RegisteredUser} (hr : First cfg db req r) :
    .registered r ∈ db.accounts cfg.serverID ∧ r.name = req.username := by
  obtain ⟨before, after, hrows, -⟩ := hr
  have hmem : r ∈ before ++ r :: after := by simp
  rw [← hrows, mem_filter, Bool.and_eq_true, decide_eq_true_eq, decide_eq_true_eq] at hmem
  exact ⟨mem_append_right _ (mem_map_of_mem (mem_filter.mpr ⟨hmem.1, decide_eq_true hmem.2.1⟩)),
    hmem.2.2⟩

theorem makeAPIUserID_lookupID {u : APIUser} (hu : u.lookupID ≠ 0) :
    makeAPIUserID u.lookupID = makeAPIUserID u.id := by
  have hid : u.id ≠ 0 := by
    intro h0
    exact hu (by simp [APIUser.lookupID, h0])
  have hmask : u.lookupID &&& 0x7FFFFFFF = u.id &&& 0x7FFFFFFF := by
    rw [show (0x7FFFFFFF : ℕ) = 2 ^ 31 - 1 from rfl, Nat.and_two_pow_sub_one_eq_mod,
      Nat.and_two_pow_sub_one_eq_mod, APIUser.lookupID, UInt32.size]
    omega
  unfold makeAPIUserID
  rw [if_neg hu, if_neg hid, hmask]

theorem authenticateRegistered_allow {userID : UInt32} (hid : userID ≠ 0) :
    authenticateRegistered h fold cfg db req = .allow userID ↔
      ∃ r, First cfg db req r ∧ (Account.registered r).accepts h fold req = true ∧
        r.userID.toUInt32 = userID := by
  simp only [← lookupRegisteredUser_iff]
  unfold authenticateRegistered
  cases db.lookupRegisteredUser cfg.serverID req.username with
  | none => simp [allowUser_eq_allow hid, hid.symm]
  | some r =>
    dsimp only [Account.accepts]
    split_ifs with hvalid
    · simp [allowUser_eq_allow hid, hvalid]
    · simp [hvalid]

theorem lookupAPIUser_none (hu : db.lookupAPIUser req.username = none) :
    ∀ u ∈ db.users, u.username ≠ req.username := by
  simpa [Tables.lookupAPIUser] using hu

theorem lookupAPIUser_some {u : APIUser} (hu : db.lookupAPIUser req.username = some u) :
    u ∈ db.users ∧ u.username = req.username :=
  ⟨mem_of_find?_eq_some hu, by simpa using find?_some hu⟩

theorem authenticateAPIUser_eq : authenticateAPIUser h cfg db req =
    if req.password = cfg.serverPassword then some 0
    else match db.lookupAPIUser req.username with
      | none => if cfg.serverPassword = "" then some 0 else none
      | some u =>
        if h.comparePassword u.passwordHash req.password then some u.lookupID else none := by
  unfold authenticateAPIUser
  by_cases hs : cfg.serverPassword = ""
  · by_cases hp : req.password = "" <;> simp [hs, hp]
  · by_cases hp : req.password = cfg.serverPassword <;> simp [hs, hp]

/-- The names of the API accounts are unique. -/
def Named (db : Tables) : Prop := (db.users.map APIUser.username).Nodup

section deciding
variable (h fold cfg db req) in
/-- The user ID belongs to an account that decides the request and accepts it. -/
def Granted (userID : UInt32) : Prop :=
  ∃ a ∈ db.accounts cfg.serverID, a.name = req.username ∧ a.accepts h fold req = true ∧
    Decides h cfg db req a ∧ a.userID = userID

variable {userID : UInt32}

theorem granted_of_turn (hturn : RegisteredTurn h cfg db req) :
    Granted h fold cfg db req userID ↔ ∃ r, First cfg db req r ∧
      (Account.registered r).accepts h fold req = true ∧ r.userID.toUInt32 = userID := by
  constructor
  · rintro ⟨a, ha, hname, hacc, hdecides, rfl⟩
    cases a with
    | api u =>
      obtain ⟨hp, hzero⟩ := hdecides
      rcases hturn with hturn | ⟨-, hturn⟩
      · exact absurd hturn hp
      · exact absurd (hturn u (by simpa [Tables.accounts] using ha) hname).1 hzero
    | registered r => exact ⟨r, hdecides.2, hacc, rfl⟩
  · rintro ⟨r, hr, hacc, rfl⟩
    exact ⟨.registered r, hr.mem.1, hr.mem.2, hacc, ⟨hturn, hr⟩, rfl⟩

theorem granted_of_not_turn (hturn : ¬RegisteredTurn h cfg db req) :
    Granted h fold cfg db req userID ↔ ∃ u ∈ db.users, u.username = req.username ∧
      h.comparePassword u.passwordHash req.password = true ∧ u.lookupID ≠ 0 ∧
      makeAPIUserID u.id = userID := by
  have hp : req.password ≠ cfg.serverPassword := fun hp => hturn (.inl hp)
  constructor
  · rintro ⟨a, ha, hname, hacc, hdecides, rfl⟩
    cases a with
    | api u =>
      exact ⟨u, by simpa [Tables.accounts] using ha, hname, hacc, hdecides.2, rfl⟩
    | registered r => exact absurd hdecides.1 hturn
  · rintro ⟨u, hu, hname, hacc, hzero, rfl⟩
    exact ⟨.api u, mem_append_left _ (mem_map_of_mem hu), hname, hacc, ⟨hp, hzero⟩, rfl⟩

/-- Who is admitted as an account is the owner of a row that decides. -/
theorem authenticate_allow (hnamed : Named db) (hid : userID ≠ 0) :
    authenticate h fold cfg db req = .allow userID ↔ Granted h fold cfg db req userID := by
  have hreg (hturn : RegisteredTurn h cfg db req) :
      authenticateRegistered h fold cfg db req = .allow userID ↔
        Granted h fold cfg db req userID := by
    rw [authenticateRegistered_allow hid, granted_of_turn hturn]
  unfold authenticate
  rw [authenticateAPIUser_eq]
  by_cases hp : req.password = cfg.serverPassword
  · rw [if_pos hp]
    exact hreg (.inl hp)
  rw [if_neg hp]
  cases hl : db.lookupAPIUser req.username with
  | none =>
    have hno := lookupAPIUser_none hl
    by_cases hs : cfg.serverPassword = ""
    · simp only [hs, if_true]
      exact hreg (.inr ⟨.inl hs, fun u hu hname => absurd hname (hno u hu)⟩)
    · have hturn : ¬RegisteredTurn h cfg db req := by
        rintro (h' | ⟨h' | ⟨u, hu, hname⟩, -⟩)
        · exact hp h'
        · exact hs h'
        · exact hno u hu hname
      rw [granted_of_not_turn hturn]
      simp only [hs, if_false]
      exact ⟨nofun, fun ⟨u, hu, hname, _⟩ => absurd hname (hno u hu)⟩
  | some u =>
    obtain ⟨hu, hname⟩ := lookupAPIUser_some hl
    have honly : ∀ v ∈ db.users, v.username = req.username → v = u := fun v hv hv' =>
      inj_on_of_nodup_map hnamed hv hu (hv'.trans hname.symm)
    have hturn : RegisteredTurn h cfg db req →
        u.lookupID = 0 ∧ h.comparePassword u.passwordHash req.password = true := by
      rintro (h' | ⟨-, hall⟩)
      · exact absurd h' hp
      · exact hall u hu hname
    by_cases hc : h.comparePassword u.passwordHash req.password = true
    · by_cases hzero : u.lookupID = 0
      · simp only [hc, if_true, hzero, ne_eq, not_true_eq_false, if_false]
        exact hreg (.inr ⟨.inr ⟨u, hu, hname⟩, fun v hv hv' => honly v hv hv' ▸ ⟨hzero, hc⟩⟩)
      · rw [granted_of_not_turn fun ht => hzero (hturn ht).1]
        simp only [hc, if_true, ne_eq, hzero, not_false_eq_true, allowUser_eq_allow hid,
          makeAPIUserID_lookupID hzero]
        constructor
        · exact fun heq => ⟨u, hu, hname, hc, hzero, heq⟩
        · rintro ⟨v, hv, hv', -, -, heq⟩
          exact honly v hv hv' ▸ heq
    · rw [granted_of_not_turn fun ht => hc (hturn ht).2]
      simp only [hc]
      exact ⟨nofun, fun ⟨v, hv, hv', hacc, _⟩ => absurd (honly v hv hv' ▸ hacc) hc⟩

end deciding

theorem named_step (hdb : Named db) (op : Op) : Named (step h db op) := by
  have hmap : ∀ f : APIUser → APIUser, (∀ u, (f u).username = u.username) →
      ((db.users.map f).map APIUser.username).Nodup := by
    intro f hf
    rwa [map_map, show APIUser.username ∘ f = APIUser.username from funext hf]
  cases op with
  | register username password salt =>
    dsimp only [step, Tables.register]
    generalize (if db.users.all (fun u => u.deleted) then Role.admin else Role.user) = role
    cases h.hashPassword salt password with
    | none => split_ifs <;> exact hdb
    | some hash =>
      split_ifs with _ _ _ hused
      · exact hdb
      · exact hdb
      · exact hdb
      · exact hdb
      · show ((db.users ++ [_]).map APIUser.username).Nodup
        rw [map_append]
        refine nodup_append_comm.mpr (nodup_cons.mpr ⟨fun hmem => hused ?_, hdb⟩)
        obtain ⟨v, hv, hv'⟩ := mem_map.mp hmem
        exact any_eq_true.mpr ⟨v, hv, decide_eq_true hv'⟩
  | updateUserRole id newRole current =>
    dsimp only [step, Tables.updateUserRole]
    split_ifs
    · exact hdb
    · split
      · exact hdb
      · refine hmap _ fun u => ?_
        split_ifs <;> rfl
  | deleteUser id current =>
    dsimp only [step, Tables.deleteUser]
    split_ifs
    · exact hdb
    · refine hmap _ fun u => ?_
      split_ifs <;> rfl
  | createRegistered | updateRegistered =>
    -- the API accounts stay as they are
    dsimp only [step, Tables.createRegistered, Tables.updateRegistered]
    repeat' split
    all_goals exact hdb
  | deleteRegistered serverID userID => exact hdb

theorem named_tablesAfter (ops : List Op) : Named (tablesAfter h ops) := by
  have hstep : ∀ (db : Tables) (op : Op), Named db → True → Named (step h db op) :=
    fun _ op hdb _ => named_step hdb op
  exact run_inv hstep (s := ⟨[], []⟩) nodup_nil (along_true _ ops)

end soundness

/-- **Local authentication admits the owners of accounts, as long as no deleted row decides**: a
deleted row still admits its former owner, and that is harmless only if its ID has gone to another
account of the same name that accepts the request as well. -/
theorem authenticate_sound_iff (h : Hashing) (fold : Char → Char) (ops : List Op) (cfg : Config)
    (req : Request) :
    Sound h fold cfg (tablesAfter h ops) req ↔
      ∀ a ∈ (tablesAfter h ops).accounts cfg.serverID, a.deleted = true → a.userID ≠ 0 →
        a.name = req.username → a.accepts h fold req = true →
        Decides h cfg (tablesAfter h ops) req a →
          ∃ b ∈ (tablesAfter h ops).accounts cfg.serverID, b.deleted = false ∧
            b.name = a.name ∧ b.userID = a.userID ∧ b.accepts h fold req = true := by
  have hnamed := named_tablesAfter (h := h) ops
  constructor
  · intro hsound a ha _ hid hname hacc hdecides
    obtain ⟨b, hb, hlive, hbname, hbid, hbacc⟩ :=
      hsound a.userID ((authenticate_allow hnamed hid).mpr ⟨a, ha, hname, hacc, hdecides, rfl⟩) hid
    exact ⟨b, hb, hlive, hbname.trans hname.symm, hbid, hbacc⟩
  · intro hlive userID hallow hid
    obtain ⟨a, ha, hname, hacc, hdecides, rfl⟩ := (authenticate_allow hnamed hid).mp hallow
    cases hdel : a.deleted with
    | false => exact ⟨a, ha, hdel, hname, rfl, hacc⟩
    | true =>
      obtain ⟨b, hb, hbl, hbname, hbid, hbacc⟩ := hlive a ha hdel hid hname hacc hdecides
      exact ⟨b, hb, hbl, hbname.trans hname, hbid, hbacc⟩

/-- Hashes that can be read back. -/
def plainHashing : Hashing where
  hashPassword _ password := some ("$2a$" ++ password)
  comparePassword hash password := decide (hash = "$2a$" ++ password)
  hashArgon2id _ password := some ("$argon2id$" ++ password)
  compareArgon2id hash password := decide (hash = "$argon2id$" ++ password)

def deletedRegistered : Tables :=
  tablesAfter plainHashing [.createRegistered 1 "bob" "password" 0, .deleteRegistered 1 1]

def deletedAPIUser : Tables :=
  tablesAfter plainHashing [.register "bob" "password" 0, .deleteUser 1 2]

/-- A registered user who has been deleted is admitted under the old ID, and so is a deleted API
account. -/
theorem deleted_account_admitted :
    (authenticate plainHashing id ⟨"", 1⟩ deletedRegistered ⟨"bob", "password", ""⟩ = .allow 1 ∧
      ¬ Sound plainHashing id ⟨"", 1⟩ deletedRegistered ⟨"bob", "password", ""⟩) ∧
    authenticate plainHashing id ⟨"", 1⟩ deletedAPIUser ⟨"bob", "password", ""⟩ =
        .allow 0x80000001 ∧
      ¬ Sound plainHashing id ⟨"", 1⟩ deletedAPIUser ⟨"bob", "password", ""⟩ := by
  have hnot : ∀ {db : Tables} {userID : UInt32},
      authenticate plainHashing id ⟨"", 1⟩ db ⟨"bob", "password", ""⟩ = .allow userID →
      userID ≠ 0 → (∀ a ∈ db.accounts 1, a.deleted = true) →
      ¬ Sound plainHashing id ⟨"", 1⟩ db ⟨"bob", "password", ""⟩ := by
    intro db userID hallow hid hdel hsound
    obtain ⟨a, ha, hlive, -⟩ := hsound userID hallow hid
    cases hlive.symm.trans (hdel a ha)
  have hreg : authenticate plainHashing id ⟨"", 1⟩ deletedRegistered ⟨"bob", "password", ""⟩ =
      .allow 1 := by decide +kernel
  have hapi : authenticate plainHashing id ⟨"", 1⟩ deletedAPIUser ⟨"bob", "password", ""⟩ =
      .allow 0x80000001 := by decide +kernel
  exact ⟨⟨hreg, hnot hreg (by decide) (by decide +kernel)⟩,
    hapi, hnot hapi (by decide) (by decide +kernel)⟩

end MumbleServer.Accounts
