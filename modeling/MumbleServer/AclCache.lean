import MumbleServer.Acl
import MumbleServer.GuardedCache
import MumbleServer.Runs

/-! # The permission cache

`internal/acl/evaluator.go`: `EffectivePermissions` answers from a cache that `InvalidateCache`
empties, and the managers of users and channels notify the evaluator after each change that
matters.  The loop of `permissions` is a request of `GuardedCache`: it notes the generation,
resolves the user (`permissionsStart`), looks into the cache, evaluates, and stores its result
if the generation has not moved.  `ReplaceTemporaryMembers` is a guarded writer.

A mutator changes its manager under that manager's lock and notifies after releasing it, so
between the two anything can happen: it is a change that is settled later.  `Action` lists the
mutators; adding a session and updates that leave the authorization alone notify nobody and are
silent. -/

namespace MumbleServer.Acl

open UserManager
variable {sv : Server}

/-! ### Requests -/

structure Subject where
  sessionID : ℕ
  userID : UInt32
  generation : ℕ
deriving DecidableEq

def subjectOf (u : User) : Subject := ⟨u.sessionID, u.userID, u.sessionGeneration⟩

def viewer (u : User) : Viewer := ⟨u.toAuthorization, ⟨u.sessionID, u.sessionGeneration⟩⟩

structure CacheKey where
  subject : Subject
  channelID : ℕ
  revision : ℕ
deriving DecidableEq

/-- The evaluator's world and the connected users. -/
structure Server where
  world : World
  users : UserManager

def resolveUser (m : UserManager) (subject : Subject) : Except String (Option User) :=
  if subject.sessionID = 0 then .ok none
  else
    match m.snapshot subject.sessionID with
    | some u =>
      if u.userID = subject.userID ∧
          (subject.generation = 0 ∨ subject.generation = u.sessionGeneration) then .ok (some u)
      else .error "会话不存在或已复用"
    | none => .error "会话不存在或已复用"

/-- The key in `permissions`. -/
def cacheKey (subject : Subject) (channelID : ℕ) : Option User → CacheKey
  | none => ⟨subject, channelID, 0⟩
  | some u => ⟨subjectOf u, channelID, u.authorizationRevision⟩

/-- The permissions of the super user: no Speak and no Whisper. -/
def superPermissions : Permission := Permission.all &&& ~~~ (Permission.speak ||| Permission.whisper)

/-- The loop of `permissions` up to the cache. -/
def permissionsStart (fold : Char → Char) (sv : Server) (q : Subject × ℕ) :
    GuardedCache.Start World CacheKey Permission String :=
  match resolveUser sv.users q.1 with
  | .error _ => .answer 0
  | .ok u =>
    if u.any (fun u => u.isSuperUser) then .answer superPermissions
    else .compute (cacheKey q.1 q.2 u) (evaluate fold q.1.userID q.2 (u.map viewer)).run

theorem resolveUser_cases {m : UserManager} {subject : Subject} {u : Option User}
    (h : resolveUser m subject = .ok u) :
    (u = none ∧ subject.sessionID = 0) ∨
    ∃ v, u = some v ∧ subject.sessionID ≠ 0 ∧ m.snapshot subject.sessionID = some v ∧
      v.userID = subject.userID := by
  unfold resolveUser at h
  split at h
  case isTrue hzero => exact .inl ⟨(Except.ok.inj h).symm, hzero⟩
  case isFalse hzero =>
      split at h
      case h_1 v hv =>
          split at h
          case isTrue hmatch =>
              exact .inr ⟨v, (Except.ok.inj h).symm, hzero, hv, hmatch.1⟩
          case isFalse => cases h
      case h_2 => cases h

theorem permissionsStart_compute {fold : Char → Char} {q : Subject × ℕ}
    {key : CacheKey} {p : Reads World (Except String Permission)}
    (h : permissionsStart fold sv q = .compute key p) :
    ∃ u, resolveUser sv.users q.1 = .ok u ∧ key = cacheKey q.1 q.2 u ∧
      p = (evaluate fold q.1.userID q.2 (u.map viewer)).run := by
  unfold permissionsStart at h
  split at h
  case h_1 => cases h
  case h_2 u hu =>
      split at h
      · cases h
      · cases h
        exact ⟨u, hu, rfl, rfl⟩

theorem permissionsStart_key {fold : Char → Char} {q q' : Subject × ℕ}
    {key : CacheKey} {p p' : Reads World (Except String Permission)}
    (h : permissionsStart fold sv q = .compute key p)
    (h' : permissionsStart fold sv q' = .compute key p') : p = p' := by
  obtain ⟨u, hu, rfl, rfl⟩ := permissionsStart_compute h
  obtain ⟨u', hu', hkey, rfl⟩ := permissionsStart_compute h'
  rcases resolveUser_cases hu with ⟨rfl, hzero⟩ | ⟨v, rfl, hne, hv, hid⟩ <;>
    rcases resolveUser_cases hu' with ⟨rfl, hzero'⟩ | ⟨v', rfl, hne', hv', hid'⟩ <;>
    simp only [cacheKey, CacheKey.mk.injEq] at hkey
  · rw [hkey.1, hkey.2.1]
  · -- the session of a user is not 0
    have hsid := (mem_of_snapshot hv').2
    rw [hkey.1] at hzero
    exact absurd (hsid.symm.trans hzero) hne'
  · have hsid := (mem_of_snapshot hv).2
    rw [← hkey.1] at hzero'
    exact absurd (hsid.symm.trans hzero') hne
  · simp only [subjectOf, Subject.mk.injEq] at hkey
    have hsid := (mem_of_snapshot hv).2
    have hsid' := (mem_of_snapshot hv').2
    rw [← hsid, hkey.1.1, hsid', hv'] at hv
    obtain rfl := Option.some.inj hv
    rw [← hid, ← hid', hkey.2.1]

/-- The requests of the evaluator. -/
def source (fold : Char → Char) :
    GuardedCache.Source Server World (Subject × ℕ) CacheKey Permission String where
  part sv := sv.world
  put sv w := { sv with world := w }
  start := permissionsStart fold
  refused := 0
  key_determines := permissionsStart_key

/-! ### Mutators -/

inductive Notice where
  /-- The authorization of a session changed, or rows of the database did. -/
  | changed
  /-- A session was removed. -/
  | removed (subject : Subject)
  /-- The channels changed. -/
  | channels

/-- `ClearSessionMembers`, on the temporary members. -/
def clearSessionMembers (subject : Subject) (temporary : List (GroupKey × TemporaryMembers)) :
    List (GroupKey × TemporaryMembers) :=
  (temporary.map fun e => (e.1, { e.2 with
    sessions := e.2.sessions.filter (fun ref => !(decide (ref.sessionID = subject.sessionID) &&
      (decide (subject.generation = 0) || decide (ref.generation = subject.generation)))) })).filter
    fun e => !(e.2.sessions.isEmpty && e.2.users.isEmpty)

/-- What a listener does to the temporary members before it empties the cache.  The channels can
change while the listener looks them up; `gone` is what it found. -/
def Notice.settle (gone : ℕ → Bool) (w : World) : Notice → World
  | .changed => w
  | .removed subject => { w with temporary := clearSessionMembers subject w.temporary }
  | .channels => { w with temporary := w.temporary.filter (fun e => !gone e.1.channelID) }

/-- The sessions loop of `ReplaceTemporaryMembers`. -/
def memberSessions : List Subject → Fallible Server String (List SessionRef)
  | [] => pure []
  | subject :: rest => do
      match ← Fallible.ask fun sv => resolveUser sv.users subject with
      | none => throw "临时会话成员需要在线连接"
      | some u => do
          let refs ← memberSessions rest
          pure (⟨u.sessionID, u.sessionGeneration⟩ :: refs)

/-- `ReplaceTemporaryMembers`, up to the write. -/
def replaceTemporaryMembers (key : GroupKey) (ids : List UInt32) (sessions : List Subject) :
    Fallible Server String (World → World) :=
  if key.name = "" then throw "组名不能为空"
  else do
    let channel ← Fallible.ask fun sv => .ok (sv.world.channels.getChannel key.channelID)
    if channel.isNone then throw "频道不存在"
    else do
      let refs ← memberSessions sessions
      pure fun w => { w with
        temporary := (key, ⟨ids.filter (fun id => decide (id ≠ 0)), refs⟩) ::
          w.temporary.filter (fun e => decide (e.1 ≠ key)) }

/-- `ACLHandler.Put`, the transaction; the rows come with the IDs the database gives them. -/
def World.putACL (w : World) (channelID : ℕ) (groups : List ChannelGroup)
    (acls : List ChannelACL) : World :=
  { w with db := { w.db with
    groups := w.db.groups.filter (fun g =>
        !(decide (g.serverID = w.serverID) && decide (g.channelID = channelID))) ++
      (groups.filter (fun g => decide (g.name ≠ ""))).map
        (fun g => { g with serverID := w.serverID, channelID := channelID })
    acls := w.db.acls.filter (fun r =>
        !(decide (r.serverID = w.serverID) && decide (r.channelID = channelID))) ++
      acls.map (fun r => { r with serverID := w.serverID, channelID := channelID }) } }

inductive Action where
  /-- `permissions` is called; `cached` is false in `CheckCurrent`. -/
  | permissions (i : ℕ) (subject : Subject) (channelID : ℕ) (cached : Bool)
  | permissionsTurn (i : ℕ)
  | add (u : User)
  | updateUser (sid : ℕ) (fn : User → User)
  | updateIdentity (ref : SessionRef) (checkGeneration : Bool) (fn : User → User)
  | remove (sid generation : ℕ) (conditional : Bool)
  | createChannel (newID parentID : ℕ) (name description : String) (position : Int)
      (temporary : Bool) (maxUsers : ℕ)
  | updateChannel (id : ℕ) (opts : Channels.UpdateOpts)
  | removeChannel (id : ℕ)
  | cleanEmptyTempChannels (hasUsers : ℕ → Bool)
  | putACL (channelID : ℕ) (groups : List ChannelGroup) (acls : List ChannelACL)
  | updateUserRole (id : ℕ) (role : Role)
  | deleteUser (id : ℕ)
  /-- One of the listeners that are still to be told runs. -/
  | notify (n : ℕ) (gone : ℕ → Bool)
  | invalidateCache
  /-- `ReplaceTemporaryMembers` is called. -/
  | replaceMembers (i : ℕ) (key : GroupKey) (ids : List UInt32) (sessions : List Subject)
  | replaceTurn (i : ℕ)

/-- The server with its evaluator. -/
abbrev Cache := GuardedCache.State Server World (Subject × ℕ) CacheKey Permission String Notice

/-- The users after an update: listeners hear of it if the authorization changed. -/
def usersUpdated (sv : Server) :
    UserManager × Option (User × Bool) → GuardedCache.Action Server World (Subject × ℕ) String Notice
  | (users, some (_, true)) => .change { sv with users := users } .changed
  | (users, _) => .silent { sv with users := users }

/-- The channels after an operation; listeners always hear of it.  Without the database it does
nothing. -/
def channelsChanged (sv : Server) (channels : Channels) :
    GuardedCache.Action Server World (Subject × ℕ) String Notice :=
  .change { sv with world := { sv.world with
    channels := if sv.world.dbError.isSome then sv.world.channels else channels } } .channels

/-- The rows after a transaction; a failed one changes nothing and tells nobody. -/
def databaseSaved (sv : Server) (world : World) :
    GuardedCache.Action Server World (Subject × ℕ) String Notice :=
  if sv.world.dbError.isSome then .silent sv else .change { sv with world := world } .changed

/-- What an action is to the cache. -/
def Action.toCache (s : Cache) : Action → GuardedCache.Action Server World (Subject × ℕ) String Notice
  | .permissions i subject channelID cached =>
    .ask i (subject, channelID) (cached && !isAPIUserID subject.userID)
  | .permissionsTurn i => .turn i
  | .add u => .silent { s.world with users := (s.world.users.add u).1 }
  | .updateUser sid fn => usersUpdated s.world (s.world.users.updateUser sid fn)
  | .updateIdentity ref check fn => usersUpdated s.world (s.world.users.updateIdentity ref check fn)
  | .remove sid generation conditional =>
    match s.world.users.remove sid generation conditional with
    | (users, some u) => .change { s.world with users := users } (.removed (subjectOf u))
    | (users, none) => .silent { s.world with users := users }
  | .createChannel newID parentID name description position temporary maxUsers =>
    channelsChanged s.world
      (s.world.world.channels.create newID parentID name description position temporary maxUsers).1
  | .updateChannel id opts =>
    -- the fields in memory are set before the database is asked
    .change { s.world with world := { s.world.world with
      channels := s.world.world.channels.update id opts } } .channels
  | .removeChannel id => channelsChanged s.world (s.world.world.channels.remove id).1
  | .cleanEmptyTempChannels hasUsers =>
    channelsChanged s.world (s.world.world.channels.cleanEmptyTempChannels hasUsers)
  | .putACL channelID groups acls =>
    databaseSaved s.world (s.world.world.putACL channelID groups acls)
  | .updateUserRole id role =>
    databaseSaved s.world { s.world.world with db := { s.world.world.db with
      accounts := s.world.world.db.accounts.map
        (fun a => if a.id = id then { a with role := role } else a) } }
  | .deleteUser id =>
    databaseSaved s.world { s.world.world with db := { s.world.world.db with
      accounts := s.world.world.db.accounts.filter (fun a => decide (a.id ≠ id)) } }
  | .notify n gone =>
    match s.pending[n]? with
    | some (notice, _) => .settle n { s.world with world := notice.settle gone s.world.world }
    | none => .silent s.world
  | .invalidateCache => .invalidate
  | .replaceMembers i key ids sessions =>
    .write i (replaceTemporaryMembers key ids sessions).run
  | .replaceTurn i => .writeTurn i

def cacheStep (fold : Char → Char) (s : Cache) (a : Action) : Cache :=
  s.step (source fold) (a.toCache s)

/-! ### Silent changes -/

/-- What a request depends on in the record of a session. -/
def sight (u : User) : Viewer × ℕ := (viewer u, u.authorizationRevision)

theorem sight_eq_iff {u v : User} : sight u = sight v ↔
    u.toAuthorization = v.toAuthorization ∧ u.sessionID = v.sessionID ∧
      u.sessionGeneration = v.sessionGeneration ∧
      u.authorizationRevision = v.authorizationRevision := by
  simp [sight, viewer, and_assoc]

variable (fold : Char → Char)

theorem permissionsStart_congr {sv sv' : Server} {q : Subject × ℕ} {u v : User}
    (hu : sv.users.snapshot q.1.sessionID = some u) (hv : sv'.users.snapshot q.1.sessionID = some v)
    (hsight : sight v = sight u) : permissionsStart fold sv' q = permissionsStart fold sv q := by
  obtain ⟨hauth, hsid, hgen, hrev⟩ := sight_eq_iff.mp hsight
  have hid : v.userID = u.userID := congrArg Authorization.userID hauth
  have hsuper : v.isSuperUser = u.isSuperUser := congrArg Authorization.isSuperUser hauth
  have hkey : cacheKey q.1 q.2 (some v) = cacheKey q.1 q.2 (some u) := by
    simp only [cacheKey, subjectOf, hsid, hid, hgen, hrev]
  have hviewer : viewer v = viewer u := congrArg Prod.fst hsight
  unfold permissionsStart resolveUser
  rw [hu, hv]
  dsimp only
  rw [hid, hgen]
  split_ifs
  · rfl
  · simp only [Option.any_some, Option.map_some, hsuper, hkey, hviewer]
  · rfl

/-- A change of the users is silent if every session looks the same afterwards. -/
theorem silent_of_sight {users : UserManager}
    (h : ∀ sid u, sv.users.snapshot sid = some u →
      ∃ v, users.snapshot sid = some v ∧ sight v = sight u) :
    (source fold).Silent sv { sv with users := users } := by
  refine ⟨rfl, fun q key p hstart => ?_⟩
  obtain ⟨u, hu, rfl, rfl⟩ := permissionsStart_compute hstart
  rcases resolveUser_cases hu with ⟨rfl, hzero⟩ | ⟨v, rfl, -, hv, -⟩
  · have hnone : ∀ m, resolveUser m q.1 = .ok none := fun m => if_pos hzero
    show permissionsStart fold _ q = _
    unfold permissionsStart
    rw [hnone]
    rfl
  · obtain ⟨v', hv', hsight⟩ := h _ v hv
    exact (permissionsStart_congr fold hv hv' hsight).trans hstart

theorem silent_add (hvalid : sv.users.Valid) (u : User) :
    (source fold).Silent sv { sv with users := (sv.users.add u).1 } :=
  silent_of_sight fold fun _ v hv => ⟨v, snapshot_add hvalid rfl hv, rfl⟩

theorem sight_updated {u : User} {fn : User → User}
    (h : authorizationChanged u (updated u fn) = false) :
    sight (updated u fn) = sight u := by
  refine sight_eq_iff.mpr ⟨(authorizationChanged_eq_false.mp h).symm, ?_, ?_, ?_⟩
  · exact updated_sessionID u fn
  · exact updated_generation u fn
  · rw [updated_revision, h]
    rfl

variable {r : UserManager × Option (User × Bool)}

theorem silent_updates (hr : sv.users.Updates r) (hquiet : ∀ u, r.2 ≠ some (u, true)) :
    (source fold).Silent sv { sv with users := r.1 } := by
  rcases hr with rfl | ⟨u, fn, m', hu, hm', rfl⟩
  · exact .refl sv
  · have hauth : authorizationChanged u (updated u fn) = false := by
      rw [← Bool.not_eq_true]
      intro h
      exact hquiet _ (by rw [h])
    refine silent_of_sight fold fun sid v hv => ?_
    by_cases hsid : sid = (updated u fn).sessionID
    · subst hsid
      refine ⟨_, (hm' _).trans (snapshot_put_self hv), ?_⟩
      rw [updated_sessionID, hu] at hv
      cases hv
      exact sight_updated hauth
    · exact ⟨v, (hm' _).trans ((snapshot_put_of_ne hsid).trans hv), rfl⟩

/-! ### Coherence -/

/-- What holds at the server in every run. -/
structure CacheInv (fold : Char → Char) (s : Cache) : Prop where
  users : s.world.users.Valid
  inv : s.Inv (source fold)

section coherence
variable {fold : Char → Char} {s : Cache}

/-- An action leaves the users valid, and what it changes without telling the evaluator no
computation notices. -/
def Accounted (fold : Char → Char) (sv : Server)
    (a : GuardedCache.Action Server World (Subject × ℕ) String Notice) : Prop :=
  (∀ sv', a.world? = some sv' → sv'.users.Valid) ∧
    ∀ sv', a = .silent sv' → (source fold).Silent sv sv'

section accounted
variable {sv sv' : Server}

theorem accounted_silent (h : sv'.users.Valid) (hs : (source fold).Silent sv sv') :
    Accounted fold sv (.silent sv') := by
  constructor
  · intro _ ha
    cases ha
    exact h
  · intro _ ha
    cases ha
    exact hs

theorem accounted_change {world : World} {users : UserManager} (h : users.Valid)
    (notice : Notice) : Accounted fold sv (.change ⟨world, users⟩ notice) := by
  constructor
  · intro _ ha
    cases ha
    exact h
  · intro _ ha
    cases ha

theorem accounted_databaseSaved (h : sv.users.Valid) (world : World) :
    Accounted fold sv (databaseSaved sv world) := by
  unfold databaseSaved
  split_ifs
  · exact accounted_silent h (.refl sv)
  · exact accounted_change h .changed

theorem accounted_usersUpdated (hr : r.1.Valid) (hu : sv.users.Updates r) :
    Accounted fold sv (usersUpdated sv r) := by
  rcases r with ⟨users, _ | ⟨u, _ | _⟩⟩
  · exact accounted_silent hr (silent_updates fold hu (by simp))
  · exact accounted_silent hr (silent_updates fold hu (by simp))
  · exact accounted_change hr .changed

end accounted

theorem accounted_toCache (h : s.world.users.Valid) (a : Action) :
    Accounted fold s.world (a.toCache s) := by
  cases a with
  | permissions i subject channelID cached | permissionsTurn i | invalidateCache
  | replaceMembers i key ids sessions | replaceTurn i => exact ⟨nofun, nofun⟩
  | add u => exact accounted_silent (valid_add h (u := u) rfl) (silent_add fold h u)
  | updateUser sid fn =>
    exact accounted_usersUpdated (valid_updateUser h sid fn)
      (updateUser_updates s.world.users sid fn)
  | updateIdentity ref check fn =>
    exact accounted_usersUpdated (valid_updateIdentity h ref check fn)
      (updateIdentity_updates s.world.users ref check fn)
  | remove sid generation conditional =>
    have hr := valid_remove h sid generation conditional
    simp only [Action.toCache]
    split
    case h_1 users u he => exact accounted_change (by rwa [he] at hr) _
    case h_2 users he =>
      rw [remove_none he]
      exact accounted_silent h (.refl _)
  | createChannel newID parentID name description position temporary maxUsers =>
    exact accounted_change h _
  | updateChannel id opts => exact accounted_change h _
  | removeChannel id => exact accounted_change h _
  | cleanEmptyTempChannels hasUsers => exact accounted_change h _
  | putACL channelID groups acls => exact accounted_databaseSaved h _
  | updateUserRole id role => exact accounted_databaseSaved h _
  | deleteUser id => exact accounted_databaseSaved h _
  | notify n gone =>
    simp only [Action.toCache]
    split
    case h_1 =>
      constructor
      · intro _ ha
        cases ha
        exact h
      · intro _ ha
        cases ha
    case h_2 => exact accounted_silent h (.refl _)

theorem CacheInv.step (h : CacheInv fold s) (a : Action) : CacheInv fold (cacheStep fold s a) where
  users := GuardedCache.State.step_world (P := fun sv : Server => sv.users.Valid) h.users
    (fun _ _ hv => hv) fun sv => (@accounted_toCache fold s h.users a).1 sv
  inv := h.inv.step fun sv => (accounted_toCache h.users a).2 sv

def Cache.start (world : World) (maxUsers : ℕ) : Cache :=
  GuardedCache.State.new ⟨world, UserManager.new maxUsers⟩

def Cache.after (fold : Char → Char) (world : World) (maxUsers : ℕ) (actions : List Action) : Cache :=
  run (cacheStep fold) (Cache.start world maxUsers) actions

theorem CacheInv.after (world : World) (maxUsers : ℕ) (actions : List Action) :
    CacheInv fold (Cache.after fold world maxUsers actions) :=
  run_inv (fun _ a h _ => h.step a) ⟨valid_new maxUsers, .new _⟩ (along_true _ actions)

/-- `permissions`, run alone for at most `n` steps. -/
def Cache.permissions (fold : Char → Char) (s : Cache) (n : ℕ) (subject : Subject)
    (channelID : ℕ) (cached : Bool) : Option Permission :=
  s.solo (source fold) n
    ⟨(subject, channelID), cached && !isAPIUserID subject.userID, .top, true, s.settled, 0⟩

end coherence

/-- **The cache is coherent**, in every run of permission queries and mutators of users,
channels, rows, accounts and temporary members.  While nobody is still to be notified of a
change, `EffectivePermissions` of any subject in any channel and the evaluation without the cache
return the same, and so does every query during whose time nothing has changed.  What a query
returns never rests on an access made before a change whose invalidation has completed; if its
evaluation fails it returns no permissions, and then rests on no access made before a change
whose invalidation had completed when it was called. -/
theorem cache_coherent (fold : Char → Char) (world : World) (maxUsers : ℕ) (actions : List Action) :
    let s := Cache.after fold world maxUsers actions
    (s.pending = [] → ∀ subject channelID, ∃ n m,
      s.permissions fold n subject channelID true =
        some ((source fold).direct s.world (subject, channelID)) ∧
      s.permissions fold m subject channelID false =
        some ((source fold).direct s.world (subject, channelID))) ∧
    ∀ i c v basis failed store, s.calls i = some c →
      s.turn (source fold) c = .answer v basis failed store →
      (c.calm = true → v = (source fold).direct s.world c.q) ∧
      (failed = false → ∀ change ∈ s.settled, change ≤ basis) ∧
      (failed = true → v = 0) ∧ ∀ change ∈ c.before, change ≤ basis := by
  intro s
  have hinv : s.Inv (source fold) := (CacheInv.after world maxUsers actions).inv
  constructor
  · intro hpending subject channelID
    obtain ⟨n, hn⟩ := hinv.solo hpending (subject, channelID)
      (true && !isAPIUserID subject.userID) true s.settled 0
    obtain ⟨m, hm⟩ := hinv.solo hpending (subject, channelID)
      (false && !isAPIUserID subject.userID) true s.settled 0
    exact ⟨n, m, hn, hm⟩
  · intro i c v basis failed store hi ht
    have hc := hinv.calls i c hi
    obtain ⟨hsince, hbefore⟩ := hinv.answer_since hc ht
    refine ⟨hinv.answer_calm hc ht, hsince, ?_, hbefore⟩
    rintro rfl
    exact GuardedCache.State.answer_failed ht

/-- A session joins and moves to another channel, and the evaluator is told. -/
def moveActions : List Action :=
  [.add ⟨⟨7, 0, false, "", false, false, 0, 0, [], []⟩, 0, 0, 0, "alice"⟩,
    .updateUser 1 (fun u => { u with channelID := 1 }), .notify 0 (fun _ => false)]

def moveWorld : World :=
  ⟨1, [⟨0, 0, "Root", "", 0, 0, false, [], true⟩, ⟨1, 0, "Lobby", "", 0, 0, false, [], true⟩],
    ⟨[], [], []⟩, none, []⟩

/-- After the move the change is settled and the cache agrees for every subject and channel. -/
theorem cache_coherent_move :
    (Cache.after id moveWorld 8 moveActions).pending = [] ∧
    (Cache.after id moveWorld 8 moveActions).settled = [1] ∧
    ∀ subject channelID, ∃ n m,
      (Cache.after id moveWorld 8 moveActions).permissions id n subject channelID true =
        some ((source id).direct (Cache.after id moveWorld 8 moveActions).world
          (subject, channelID)) ∧
      (Cache.after id moveWorld 8 moveActions).permissions id m subject channelID false =
        some ((source id).direct (Cache.after id moveWorld 8 moveActions).world
          (subject, channelID)) :=
  ⟨rfl, rfl, (cache_coherent id moveWorld 8 moveActions).1 rfl⟩

end MumbleServer.Acl
