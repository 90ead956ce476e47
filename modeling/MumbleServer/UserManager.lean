import Mathlib.Order.Nat
import MumbleServer.AssocList

/-! # Connected users

`internal/user/manager.go`: the sessions of a server, the pool of session IDs and the
operations on them.  IDs are reused, last freed first; what tells two sessions with one ID
apart is the generation, a counter of all sessions ever added.  The authorization revision of
a session counts the changes to what its permissions depend on.

`UserManager.Valid` collects what the operations keep: the sessions have distinct IDs that are
in use in the pool, and an ID is never free and in use at once. -/

namespace MumbleServer

open List

/-- What the permissions of a user depend on: the fields `authorizationChanged` compares. -/
structure Authorization where
  userID : UInt32
  channelID : ℕ
  isSuperUser : Bool
  certHash : String
  certificateVerified : Bool
  externalIdentity : Bool
  identityVersion : ℕ
  policyVersion : ℕ
  accessTokens : List String
  externalGroups : List String
deriving DecidableEq

structure User extends Authorization where
  sessionID : ℕ
  sessionGeneration : ℕ
  authorizationRevision : ℕ
  name : String
deriving DecidableEq

def authorizationChanged (a b : User) : Bool :=
  a.userID != b.userID || a.channelID != b.channelID || a.isSuperUser != b.isSuperUser ||
    a.certHash != b.certHash || a.certificateVerified != b.certificateVerified ||
    a.externalIdentity != b.externalIdentity || a.identityVersion != b.identityVersion ||
    a.policyVersion != b.policyVersion || a.accessTokens != b.accessTokens ||
    a.externalGroups != b.externalGroups

theorem authorizationChanged_eq_false {a b : User} :
    authorizationChanged a b = false ↔ a.toAuthorization = b.toAuthorization := by
  rcases a with ⟨⟨⟩⟩
  rcases b with ⟨⟨⟩⟩
  simp [authorizationChanged, and_assoc]

/-- `sessionPool`: freed IDs are kept as a stack. -/
structure SessionPool where
  next : ℕ
  free : List ℕ
  inUse : List ℕ
  max : ℕ
deriving DecidableEq

namespace SessionPool

/-- `newSessionPool`. -/
def new (max : ℕ) : SessionPool := ⟨1, [], [], max⟩

/-- `Alloc`: the ID freed last, else a new one. -/
def alloc (p : SessionPool) : SessionPool × Option ℕ :=
  if p.max ≤ p.inUse.length ∧ 0 < p.max then (p, none)
  else
    match p.free with
    | sid :: free => ({ p with free := free, inUse := sid :: p.inUse }, some sid)
    | [] =>
      if 0 < p.max ∧ p.max * 2 ≤ p.next then ({ p with next := p.next + 1 }, none)
      else ({ p with next := p.next + 1, inUse := p.next :: p.inUse }, some p.next)

/-- `Free`. -/
def release (p : SessionPool) (sid : ℕ) : SessionPool :=
  if sid ∈ p.inUse then
    { p with inUse := p.inUse.filter (fun s => decide (s ≠ sid)), free := sid :: p.free }
  else p

/-- No ID is free and in use, none is free twice, and all are below the next new one. -/
structure Valid (p : SessionPool) : Prop where
  free_nodup : p.free.Nodup
  disjoint : ∀ sid ∈ p.free, sid ∉ p.inUse
  free_lt : ∀ sid ∈ p.free, 0 < sid ∧ sid < p.next
  inUse_lt : ∀ sid ∈ p.inUse, 0 < sid ∧ sid < p.next
  next_pos : 0 < p.next

theorem valid_new (max : ℕ) : (new max).Valid := by
  constructor <;> simp [new]

/-- What `Alloc` can do: nothing, reuse an ID, run out, or give out a new one. -/
theorem alloc_cases (p : SessionPool) :
    p.alloc = (p, none) ∨
    (∃ sid free, p.free = sid :: free ∧
      p.alloc = ({ p with free := free, inUse := sid :: p.inUse }, some sid)) ∨
    p.alloc = ({ p with next := p.next + 1 }, none) ∨
    (p.free = [] ∧
      p.alloc = ({ p with next := p.next + 1, inUse := p.next :: p.inUse }, some p.next)) := by
  unfold alloc
  by_cases hfull : p.max ≤ p.inUse.length ∧ 0 < p.max
  · exact Or.inl (if_pos hfull)
  rw [if_neg hfull]
  cases hf : p.free with
  | cons sid free => exact Or.inr (Or.inl ⟨sid, free, rfl, by simp⟩)
  | nil =>
    by_cases hmax : 0 < p.max ∧ p.max * 2 ≤ p.next
    · exact Or.inr (Or.inr (Or.inl (by simp [hmax])))
    · exact Or.inr (Or.inr (Or.inr ⟨rfl, by simp [hmax]⟩))

theorem alloc_spec {p p' : SessionPool} (h : p.Valid) {sid : ℕ} (ha : p.alloc = (p', some sid)) :
    sid ∉ p.inUse ∧ 0 < sid ∧ p'.inUse = sid :: p.inUse := by
  rcases alloc_cases p with he | ⟨s, free, hf, he⟩ | he | ⟨hf, he⟩
  · simp [he] at ha
  · obtain ⟨rfl, hs⟩ := Prod.mk.inj (he.symm.trans ha)
    obtain rfl := Option.some.inj hs
    have hmem : s ∈ p.free := by rw [hf]; exact mem_cons_self ..
    exact ⟨h.disjoint s hmem, (h.free_lt s hmem).1, rfl⟩
  · simp [he] at ha
  · obtain ⟨rfl, hs⟩ := Prod.mk.inj (he.symm.trans ha)
    obtain rfl := Option.some.inj hs
    exact ⟨fun hm => absurd (h.inUse_lt _ hm).2 (Nat.lt_irrefl _), h.next_pos, rfl⟩

theorem alloc_none {p p' : SessionPool} (ha : p.alloc = (p', none)) : p'.inUse = p.inUse := by
  rcases alloc_cases p with he | ⟨s, free, -, he⟩ | he | ⟨-, he⟩ <;> rw [he] at ha <;> cases ha <;>
    rfl

theorem alloc_valid {p : SessionPool} (h : p.Valid) : p.alloc.1.Valid := by
  rcases alloc_cases p with he | ⟨s, free, hf, he⟩ | he | ⟨hf, he⟩
  · rw [he]
    exact h
  · have hnd := h.free_nodup
    rw [hf, nodup_cons] at hnd
    have hmem : ∀ t ∈ s :: free, t ∈ p.free := fun t ht => hf ▸ ht
    rw [he]
    refine ⟨hnd.2, fun t ht => ?_, fun t ht => h.free_lt t (hmem t (mem_cons_of_mem _ ht)),
      fun t ht => ?_, h.next_pos⟩
    · rw [mem_cons, not_or]
      exact ⟨fun hts => hnd.1 (hts ▸ ht), h.disjoint t (hmem t (mem_cons_of_mem _ ht))⟩
    · rcases mem_cons.mp ht with rfl | ht
      · exact h.free_lt _ (hmem _ (mem_cons_self ..))
      · exact h.inUse_lt t ht
  · rw [he]
    refine ⟨h.free_nodup, h.disjoint, fun t ht => ?_, fun t ht => ?_, Nat.succ_pos _⟩
    · exact (h.free_lt t ht).imp_right Nat.lt_succ_of_lt
    · exact (h.inUse_lt t ht).imp_right Nat.lt_succ_of_lt
  · rw [he]
    refine ⟨h.free_nodup, ?_, ?_, fun t ht => ?_, Nat.succ_pos _⟩
    · simp [hf]
    · simp [hf]
    · rcases mem_cons.mp ht with rfl | ht
      · exact ⟨h.next_pos, Nat.lt_succ_self _⟩
      · exact (h.inUse_lt t ht).imp_right Nat.lt_succ_of_lt

theorem release_valid {p : SessionPool} (h : p.Valid) (sid : ℕ) : (p.release sid).Valid := by
  unfold release
  split_ifs with hm
  · refine ⟨nodup_cons.mpr ⟨fun hf => h.disjoint sid hf hm, h.free_nodup⟩, ?_, ?_, ?_,
      h.next_pos⟩
    · intro t ht hu
      rw [mem_filter] at hu
      rcases mem_cons.mp ht with rfl | ht
      · simp at hu
      · exact h.disjoint t ht hu.1
    · intro t ht
      rcases mem_cons.mp ht with rfl | ht
      · exact h.inUse_lt _ hm
      · exact h.free_lt t ht
    · exact fun t ht => h.inUse_lt t (mem_filter.mp ht).1
  · exact h

end SessionPool

/-- A reference to one session: its ID and generation (`cluster.SessionRef`). -/
structure SessionRef where
  sessionID : ℕ
  generation : ℕ
deriving DecidableEq

/-- `user.Manager`; the name index refers to sessions by ID. -/
structure UserManager where
  bySession : List User
  byName : List (String × ℕ)
  pool : SessionPool
  maxUsers : ℕ
  generation : ℕ
deriving DecidableEq

/-- The reference to the session of a user record. -/
def User.ref (u : User) : SessionRef := ⟨u.sessionID, u.sessionGeneration⟩

namespace UserManager
variable {m m' : UserManager} {u v : User}

/-- `NewManager`. -/
def new (maxUsers : ℕ) : UserManager := ⟨[], [], SessionPool.new (maxUsers * 2), maxUsers, 0⟩

def snapshot (m : UserManager) (sid : ℕ) : Option User :=
  m.bySession.find? (fun u => decide (u.sessionID = sid))

def snapshotRef (m : UserManager) (ref : SessionRef) : Option User :=
  match m.snapshot ref.sessionID with
  | none => none
  | some u => if u.sessionGeneration ≠ ref.generation then none else some u

/-- `byName[name]`. -/
def named (m : UserManager) (name : String) : Option ℕ :=
  (m.byName.find? (fun e => decide (e.1 = name))).map Prod.snd

/-- `Add`: the stored record, with the session ID and generation it was given. -/
def add (m : UserManager) (u : User) : UserManager × Option User :=
  if (m.named u.name).isSome then (m, none)
  else if m.maxUsers ≤ m.bySession.length ∧ 0 < m.maxUsers then (m, none)
  else
    match m.pool.alloc with
    | (pool, none) => ({ m with pool := pool }, none)
    | (pool, some sid) =>
      let stored : User := { u with
        sessionID := sid
        sessionGeneration := m.generation + 1
        authorizationRevision := 1 }
      ({ m with
          pool := pool
          generation := m.generation + 1
          bySession := stored :: m.bySession
          byName := (stored.name, sid) :: m.byName }, some stored)

def without (m : UserManager) (sid : ℕ) : List User :=
  m.bySession.filter (fun u => decide (u.sessionID ≠ sid))

/-- `remove`: unconditionally, or only the session of the given generation. -/
def remove (m : UserManager) (sid generation : ℕ) (conditional : Bool) :
    UserManager × Option User :=
  match m.snapshot sid with
  | none => (m, none)
  | some u =>
    if conditional ∧ u.sessionGeneration ≠ generation then (m, none)
    else
      ({ m with
          bySession := m.without sid
          byName := m.byName.filter (fun e => decide (e.1 ≠ u.name))
          pool := m.pool.release sid }, some u)

def removeIfGeneration (m : UserManager) (ref : SessionRef) : UserManager × Option User :=
  m.remove ref.sessionID ref.generation true

def put (m : UserManager) (u : User) : UserManager :=
  { m with bySession := m.bySession.map (fun v => if v.sessionID = u.sessionID then u else v) }

/-- The counters of a session are the manager's, and no update changes its ID. -/
def pinned (before after : User) : User :=
  { after with
    sessionID := before.sessionID
    sessionGeneration := before.sessionGeneration
    authorizationRevision := before.authorizationRevision }

def updated (before : User) (fn : User → User) : User :=
  if authorizationChanged before (pinned before (fn before)) then
    { pinned before (fn before) with authorizationRevision := before.authorizationRevision + 1 }
  else pinned before (fn before)

/-- `UpdateUser`: the new record, and whether listeners are to be notified. -/
def updateUser (m : UserManager) (sid : ℕ) (fn : User → User) :
    UserManager × Option (User × Bool) :=
  match m.snapshot sid with
  | none => (m, none)
  | some u => (m.put (updated u fn), some (updated u fn, authorizationChanged u (updated u fn)))

/-- Store the record of a session and move its entry in the name index. -/
def reindex (m : UserManager) (oldName : String) (after : User) : UserManager :=
  if oldName = after.name then m.put after
  else
    { m.put after with
      byName := (after.name, after.sessionID) ::
        m.byName.filter (fun e => decide (e.1 ≠ oldName ∧ e.1 ≠ after.name)) }

/-- `updateIdentity`: as `UpdateUser`, for one generation, and the name index follows; a name
that is in use by another session is refused. -/
def updateIdentity (m : UserManager) (ref : SessionRef) (checkGeneration : Bool)
    (fn : User → User) : UserManager × Option (User × Bool) :=
  match m.snapshot ref.sessionID with
  | none => (m, none)
  | some u =>
    if checkGeneration ∧ u.sessionGeneration ≠ ref.generation then (m, none)
    else if (m.named (updated u fn).name).any (fun other => decide (other ≠ ref.sessionID)) then
      (m, none)
    else
      (m.reindex u.name (updated u fn),
        some (updated u fn, authorizationChanged u (updated u fn)))

/-- What an update can do: nothing, or store the record of a session anew and report whether its
authorization changed. -/
def Updates (m : UserManager) (r : UserManager × Option (User × Bool)) : Prop :=
  r = (m, none) ∨
    ∃ u fn m', m.snapshot u.sessionID = some u ∧
      (∀ sid, UserManager.snapshot m' sid = (m.put (updated u fn)).snapshot sid) ∧
      r = (m', some (updated u fn, authorizationChanged u (updated u fn)))

/-! ### What the operations keep -/

/-- Sessions have distinct IDs, all in use, and generations up to the counter. -/
structure Valid (m : UserManager) : Prop where
  pool : m.pool.Valid
  nodup : (m.bySession.map User.sessionID).Nodup
  inUse : ∀ u ∈ m.bySession, u.sessionID ∈ m.pool.inUse
  generation_le : ∀ u ∈ m.bySession, u.sessionGeneration ≤ m.generation

open SessionPool

theorem valid_new (maxUsers : ℕ) : (new maxUsers).Valid := by
  refine ⟨SessionPool.valid_new _, ?_, ?_, ?_⟩ <;> simp [new]

section snapshot
variable {sid : ℕ}

theorem mem_of_snapshot (h : m.snapshot sid = some u) : u ∈ m.bySession ∧ u.sessionID = sid :=
  ⟨mem_of_find?_eq_some h, by simpa using find?_some h⟩

theorem snapshot_of_mem (h : m.Valid) (hu : u ∈ m.bySession) : m.snapshot u.sessionID = some u :=
  AssocList.find?_of_mem h.nodup hu

theorem snapshot_put (m : UserManager) (v : User) (sid : ℕ) :
    (m.put v).snapshot sid =
      (m.snapshot sid).map (fun u => if u.sessionID = v.sessionID then v else u) := by
  unfold snapshot put
  rw [find?_map]
  congr 2
  funext u
  by_cases hu : u.sessionID = v.sessionID <;> simp [hu]

theorem snapshot_put_self {v : User} (hu : m.snapshot v.sessionID = some u) :
    (m.put v).snapshot v.sessionID = some v := by
  rw [snapshot_put, hu, Option.map_some, if_pos (mem_of_snapshot hu).2]

theorem snapshot_put_of_ne {v : User} (hne : sid ≠ v.sessionID) :
    (m.put v).snapshot sid = m.snapshot sid := by
  rw [snapshot_put]
  cases h : m.snapshot sid with
  | none => rfl
  | some u => rw [Option.map_some, if_neg ((mem_of_snapshot h).2 ▸ hne)]

theorem snapshot_without_of_ne {other : ℕ} (hne : sid ≠ other) :
    (m.without other).find? (fun u => decide (u.sessionID = sid)) = m.snapshot sid := by
  unfold snapshot without
  rw [find?_filter]
  congr 1
  funext u
  by_cases hu : u.sessionID = sid <;> simp [hu, hne]

theorem snapshot_without_self (m : UserManager) (sid : ℕ) :
    (m.without sid).find? (fun u => decide (u.sessionID = sid)) = none := by
  rw [find?_eq_none]
  intro u hu
  simpa using (mem_filter.mp hu).2

end snapshot

section updated
variable (u : User) (fn : User → User)

@[simp] theorem updated_sessionID : (updated u fn).sessionID = u.sessionID := by
  unfold updated
  split_ifs <;> rfl

@[simp] theorem updated_generation : (updated u fn).sessionGeneration = u.sessionGeneration := by
  unfold updated
  split_ifs <;> rfl

/-- The revision moves exactly with the authorization. -/
theorem updated_revision : (updated u fn).authorizationRevision =
    if authorizationChanged u (updated u fn) then u.authorizationRevision + 1
    else u.authorizationRevision := by
  have hauth : authorizationChanged u (updated u fn) =
      authorizationChanged u (pinned u (fn u)) := by
    unfold updated
    split_ifs <;> rfl
  rw [hauth]
  unfold updated
  split_ifs <;> rfl

end updated

/-- `Add` refuses: nothing happens, or the pool has run out. -/
theorem add_none (ha : m.add u = (m', none)) :
    m' = m ∧ ((m.named u.name).isSome ∨ m.maxUsers ≤ m.bySession.length ∧ 0 < m.maxUsers) ∨
      ∃ pool, m.pool.alloc = (pool, none) ∧
        ¬(m.maxUsers ≤ m.bySession.length ∧ 0 < m.maxUsers) ∧ m' = { m with pool := pool } := by
  unfold add at ha
  split_ifs at ha with hname hfull
  · exact .inl ⟨(congrArg Prod.fst ha).symm, .inl hname⟩
  · exact .inl ⟨(congrArg Prod.fst ha).symm, .inr hfull⟩
  · rcases halloc : m.pool.alloc with ⟨pool, _ | sid⟩ <;> rw [halloc] at ha
    · exact .inr ⟨pool, rfl, hfull, (congrArg Prod.fst ha).symm⟩
    · cases congrArg Prod.snd ha

/-- `Add` stores the record under an ID from the pool. -/
theorem add_some {stored : User} (ha : m.add u = (m', some stored)) :
    ∃ pool, m.named u.name = none ∧ m.pool.alloc = (pool, some stored.sessionID) ∧
      stored = { u with
        sessionID := stored.sessionID
        sessionGeneration := m.generation + 1
        authorizationRevision := 1 } ∧
      m' = { m with
        pool := pool
        generation := m.generation + 1
        bySession := stored :: m.bySession
        byName := (stored.name, stored.sessionID) :: m.byName } := by
  unfold add at ha
  split_ifs at ha with hname hfull
  · cases congrArg Prod.snd ha
  · cases congrArg Prod.snd ha
  · rcases halloc : m.pool.alloc with ⟨pool, _ | sid⟩ <;> rw [halloc] at ha
    · cases congrArg Prod.snd ha
    · obtain ⟨rfl, hs⟩ := Prod.mk.inj ha
      obtain rfl := Option.some.inj hs
      exact ⟨pool, by simpa using hname, rfl, rfl, rfl⟩

theorem same_of_add (ha : m.add u = (m', none)) :
    m'.bySession = m.bySession ∧ m'.generation = m.generation := by
  rcases add_none ha with ⟨rfl, -⟩ | ⟨pool, -, -, rfl⟩ <;> exact ⟨rfl, rfl⟩

section added
variable {stored : User} (ha : m.add u = (m', some stored))
include ha

theorem bySession_of_add : m'.bySession = stored :: m.bySession := by
  obtain ⟨pool, -, -, -, rfl⟩ := add_some ha
  rfl

theorem generation_of_add :
    stored.sessionGeneration = m.generation + 1 ∧ m'.generation = m.generation + 1 := by
  obtain ⟨pool, -, -, hs, rfl⟩ := add_some ha
  exact ⟨by rw [hs], rfl⟩

/-- The ID of a new session was not in use. -/
theorem unused_of_add (h : m.Valid) : stored.sessionID ∉ m.pool.inUse ∧ 0 < stored.sessionID := by
  obtain ⟨pool, -, halloc, -⟩ := add_some ha
  obtain ⟨hnot, hpos, -⟩ := alloc_spec h.pool halloc
  exact ⟨hnot, hpos⟩

/-- Who is there after a login: the new session, under an ID that was not in use, and those who
were there before. -/
theorem snapshot_added (h : m.Valid) :
    m.snapshot stored.sessionID = none ∧ ∀ sid, m'.snapshot sid =
      if sid = stored.sessionID then some stored else m.snapshot sid := by
  refine ⟨Option.eq_none_iff_forall_ne_some.mpr fun v hsnap => ?_, fun sid => ?_⟩
  · obtain ⟨hmem, hid⟩ := mem_of_snapshot hsnap
    exact (unused_of_add ha h).1 (hid ▸ h.inUse v hmem)
  · unfold snapshot
    rw [bySession_of_add ha, find?_cons]
    by_cases hsid : sid = stored.sessionID
    · simp [hsid]
    · simp [hsid, Ne.symm hsid]

end added

variable {found : Option User}

theorem snapshot_add (h : m.Valid) (ha : m.add u = (m', found)) {sid : ℕ}
    (hv : m.snapshot sid = some v) : m'.snapshot sid = some v := by
  rcases found with _ | stored
  · rw [snapshot, (same_of_add ha).1]
    exact hv
  · obtain ⟨hnone, hsnap⟩ := snapshot_added ha h
    rw [hsnap, if_neg, hv]
    rintro rfl
    rw [hnone] at hv
    cases hv

/-- A lookup finds a new session under the ID the pool gives out, or what it found before. -/
theorem snapshot_add_or (m : UserManager) (u : User) (sid : ℕ) :
    (m.add u).1.snapshot sid = m.snapshot sid ∨ m.pool.alloc.2 = some sid := by
  rcases ha : m.add u with ⟨m', _ | stored⟩
  · rw [snapshot, (same_of_add ha).1]
    exact .inl rfl
  · by_cases hid : stored.sessionID = sid
    · obtain ⟨pool, -, halloc, -⟩ := add_some ha
      exact .inr (by rw [halloc, hid])
    · rw [snapshot, bySession_of_add ha]
      exact .inl (find?_cons_of_neg (by simpa using hid))

/-- The generation counter moves only forward, and a new session gets its next value. -/
theorem generation_add_le (ha : m.add u = (m', found)) : m.generation ≤ m'.generation := by
  rcases found with _ | stored
  · exact (same_of_add ha).2.ge
  · exact (generation_of_add ha).2 ▸ Nat.le_succ _

@[simp] theorem generation_remove (m : UserManager) (sid generation : ℕ) (conditional : Bool) :
    (m.remove sid generation conditional).1.generation = m.generation := by
  unfold remove
  split
  · rfl
  · split_ifs <;> rfl

theorem valid_add (h : m.Valid) (ha : m.add u = (m', found)) : m'.Valid := by
  have hvalid := alloc_valid h.pool
  rcases found with _ | stored
  · rcases add_none ha with ⟨rfl, -⟩ | ⟨pool, halloc, -, rfl⟩
    · exact h
    · rw [halloc] at hvalid
      exact { h with
        pool := hvalid
        inUse := fun v hv => alloc_none halloc ▸ h.inUse v hv }
  · obtain ⟨pool, -, halloc, hs, rfl⟩ := add_some ha
    obtain ⟨hnot, -, huse⟩ := alloc_spec h.pool halloc
    rw [halloc] at hvalid
    refine ⟨hvalid, nodup_cons.mpr ⟨fun hm => ?_, h.nodup⟩, fun v hv => ?_, fun v hv => ?_⟩
    · obtain ⟨v, hv, he⟩ := mem_map.mp hm
      exact hnot (he ▸ h.inUse v hv)
    · rw [huse]
      rcases mem_cons.mp hv with rfl | hv
      · exact mem_cons_self ..
      · exact mem_cons_of_mem _ (h.inUse v hv)
    · rcases mem_cons.mp hv with rfl | hv
      · exact (generation_of_add ha).1.le
      · exact (h.generation_le v hv).trans (Nat.le_succ _)

theorem valid_remove (h : m.Valid) (sid generation : ℕ) (conditional : Bool) :
    (m.remove sid generation conditional).1.Valid := by
  unfold remove
  split
  · exact h
  · split_ifs
    · exact h
    · refine ⟨release_valid h.pool sid, ?_, ?_, ?_⟩
      · exact h.nodup.sublist (filter_sublist.map _)
      · intro v hv
        obtain ⟨hv, hne⟩ := mem_filter.mp hv
        have hne' : v.sessionID ≠ sid := by simpa using hne
        show v.sessionID ∈ (m.pool.release sid).inUse
        unfold release
        split_ifs
        · exact mem_filter.mpr ⟨h.inUse v hv, by simpa using hne'⟩
        · exact h.inUse v hv
      · exact fun v hv => h.generation_le v (mem_filter.mp hv).1

variable {conditional : Bool} {sid generation other : ℕ}

theorem snapshot_remove :
    (m.remove sid generation conditional).1.snapshot other = some u ↔ m.snapshot other = some u ∧
      (other = sid → conditional = true ∧ u.sessionGeneration ≠ generation) := by
  unfold remove
  cases hs : m.snapshot sid with
  | none =>
    refine (and_iff_left_of_imp fun hu hid => ?_).symm
    rw [hid, hs] at hu
    cases hu
  | some v =>
    dsimp only
    split_ifs with hg
    · refine (and_iff_left_of_imp fun hu hid => ?_).symm
      rw [hid, hs] at hu
      exact Option.some.inj hu ▸ hg
    · by_cases hid : other = sid
      · subst hid
        rw [snapshot, snapshot_without_self, hs]
        refine iff_of_false nofun fun h => hg ?_
        exact Option.some.inj h.1 ▸ h.2 rfl
      · rw [snapshot, snapshot_without_of_ne hid]
        exact (and_iff_left fun h => absurd h hid).symm

theorem snapshot_of_remove {u : User}
    (h : (m.remove sid generation conditional).1.snapshot other = some u) :
    m.snapshot other = some u := by
  exact (snapshot_remove.mp h).1

theorem remove_none {sid generation : ℕ} (h : m.remove sid generation conditional = (m', none)) :
    m' = m := by
  unfold remove at h
  split at h
  · exact (congrArg Prod.fst h).symm
  · split at h
    · exact (congrArg Prod.fst h).symm
    · cases congrArg Prod.snd h

/-! ### Sessions by reference -/

theorem snapshotRef_eq (m : UserManager) (ref : SessionRef) : m.snapshotRef ref =
    (m.snapshot ref.sessionID).filter fun u => decide (u.sessionGeneration = ref.generation) := by
  unfold snapshotRef
  cases m.snapshot ref.sessionID with
  | none => rfl
  | some u => by_cases hg : u.sessionGeneration = ref.generation <;> simp [Option.filter_some, hg]

theorem snapshotRef_eq_some {ref : SessionRef} {u : User} :
    m.snapshotRef ref = some u ↔
      m.snapshot ref.sessionID = some u ∧ u.sessionGeneration = ref.generation := by
  rw [snapshotRef_eq, Option.filter_eq_some_iff, decide_eq_true_iff]

theorem snapshotRef_congr (h : m'.bySession = m.bySession)
    (ref : SessionRef) : m'.snapshotRef ref = m.snapshotRef ref := by
  unfold snapshotRef snapshot
  rw [h]

theorem eq_of_snapshotRef {x y : SessionRef}
    (hx : m.snapshotRef x = some u) (hy : m.snapshotRef y = some v)
    (hid : x.sessionID = y.sessionID) : x = y := by
  obtain ⟨hu, hgu⟩ := snapshotRef_eq_some.mp hx
  obtain ⟨hv, hgv⟩ := snapshotRef_eq_some.mp hy
  rw [hid, hv] at hu
  obtain rfl := Option.some.inj hu
  cases x
  cases y
  simp_all

theorem snapshotRef_add (h : m.Valid) {u stored : User}
    (ha : m.add u = (m', some stored)) (x : SessionRef) :
    m'.snapshotRef x = if x = stored.ref then some stored else m.snapshotRef x := by
  obtain ⟨hnone, hsnap⟩ := snapshot_added ha h
  obtain ⟨sid, generation⟩ := x
  rw [snapshotRef_eq, snapshotRef_eq, hsnap]
  by_cases hid : sid = stored.sessionID
  · subst hid
    by_cases hg : stored.sessionGeneration = generation <;>
      simp [User.ref, hnone, hg, Option.filter_some, eq_comm]
  · simp [User.ref, hid]

theorem snapshotRef_remove (m : UserManager) (ref x : SessionRef) :
    (m.removeIfGeneration ref).1.snapshotRef x =
      if x = ref then none else m.snapshotRef x := by
  ext v
  rw [snapshotRef_eq_some, removeIfGeneration, snapshot_remove]
  split_ifs with hx
  · subst hx
    simp
  · rw [snapshotRef_eq_some]
    refine ⟨fun h => ⟨h.1.1, h.2⟩, fun h => ⟨⟨h.1, fun hid => ⟨rfl, fun hg => hx ?_⟩⟩, h.2⟩⟩
    cases x
    cases ref
    simp_all

theorem valid_put (h : m.Valid)
    (hu : m.snapshot v.sessionID = some u) (hgen : v.sessionGeneration = u.sessionGeneration) :
    (m.put v).Valid := by
  have hids : (m.put v).bySession.map User.sessionID = m.bySession.map User.sessionID := by
    simp only [put, map_map]
    refine map_congr_left fun w _ => ?_
    by_cases hw : w.sessionID = v.sessionID <;> simp [hw]
  refine ⟨h.pool, by rw [hids]; exact h.nodup, fun w hw => ?_, fun w hw => ?_⟩
  · have hm : w.sessionID ∈ (m.put v).bySession.map User.sessionID := mem_map_of_mem hw
    rw [hids] at hm
    obtain ⟨x, hx, he⟩ := mem_map.mp hm
    exact he ▸ h.inUse x hx
  · obtain ⟨x, hx, he⟩ := mem_map.mp hw
    split_ifs at he with hid
    · rw [← he, hgen]
      exact h.generation_le u (mem_of_snapshot hu).1
    · exact he ▸ h.generation_le x hx

theorem updateUser_updates (m : UserManager) (sid : ℕ) (fn : User → User) :
    m.Updates (m.updateUser sid fn) := by
  unfold updateUser
  cases hs : m.snapshot sid with
  | none => exact .inl rfl
  | some u =>
    have hid := (mem_of_snapshot hs).2
    exact .inr ⟨u, fn, _, hid ▸ hs, fun _ => rfl, rfl⟩

theorem snapshot_reindex (m : UserManager) (oldName : String) (after : User) (sid : ℕ) :
    (m.reindex oldName after).snapshot sid = (m.put after).snapshot sid := by
  unfold reindex
  split <;> rfl

theorem updateIdentity_updates (m : UserManager) (ref : SessionRef) (check : Bool)
    (fn : User → User) : m.Updates (m.updateIdentity ref check fn) := by
  unfold updateIdentity
  cases hs : m.snapshot ref.sessionID with
  | none => exact .inl rfl
  | some u =>
    have hid := (mem_of_snapshot hs).2
    simp only
    split_ifs
    · exact .inl rfl
    · exact .inl rfl
    · exact .inr ⟨u, fn, _, hid ▸ hs, snapshot_reindex m _ _, rfl⟩

theorem valid_updateUser (h : m.Valid) (sid : ℕ) (fn : User → User) :
    (m.updateUser sid fn).1.Valid := by
  unfold updateUser
  cases hs : m.snapshot sid with
  | none => exact h
  | some u =>
    have hid := (mem_of_snapshot hs).2
    exact valid_put h (u := u) (by rw [updated_sessionID, hid]; exact hs) (updated_generation u fn)

theorem valid_updateIdentity (h : m.Valid) (ref : SessionRef) (check : Bool)
    (fn : User → User) : (m.updateIdentity ref check fn).1.Valid := by
  unfold updateIdentity
  cases hs : m.snapshot ref.sessionID with
  | none => exact h
  | some u =>
    have hid := (mem_of_snapshot hs).2
    have hput := valid_put h (u := u) (v := updated u fn)
      (by rw [updated_sessionID, hid]; exact hs) (updated_generation u fn)
    simp only
    split_ifs
    · exact h
    · exact h
    · unfold reindex
      split_ifs
      · exact hput
      · exact { hput with }

theorem generation_updateUser (m : UserManager) (sid : ℕ) (fn : User → User) :
    (m.updateUser sid fn).1.generation = m.generation := by
  unfold updateUser
  split <;> rfl

theorem generation_updateIdentity (m : UserManager) (ref : SessionRef) (check : Bool)
    (fn : User → User) : (m.updateIdentity ref check fn).1.generation = m.generation := by
  unfold updateIdentity
  split
  · rfl
  · split_ifs
    · rfl
    · rfl
    · unfold reindex
      split <;> rfl

theorem Updates.snapshotRef_eq_none {r : UserManager × Option (User × Bool)}
    (h : m.Updates r) {x : SessionRef} (hx : m.snapshotRef x = none) :
    r.1.snapshotRef x = none := by
  obtain rfl | ⟨u, fn, m', hu, hs, rfl⟩ := h
  · exact hx
  · unfold snapshotRef at hx ⊢
    rw [hs]
    by_cases hid : x.sessionID = (updated u fn).sessionID
    · have hid' : x.sessionID = u.sessionID := hid.trans (updated_sessionID u fn)
      rw [hid, snapshot_put_self ((updated_sessionID u fn).symm ▸ hu)]
      rw [hid', hu] at hx
      simpa using hx
    · rw [snapshot_put_of_ne hid]
      exact hx

/-! ### The name index -/

/-- A name in the index is that of the user whose session ID it stands for. -/
def Indexed (m : UserManager) : Prop :=
  ∀ e ∈ m.byName, ∃ u, m.snapshot e.2 = some u ∧ u.name = e.1

theorem indexed_new (maxUsers : ℕ) : (new maxUsers).Indexed := by simp [Indexed, new]

theorem Indexed.of_named (h : m.Indexed) {name : String} {sid : ℕ}
    (hn : m.named name = some sid) : ∃ u, m.snapshot sid = some u ∧ u.name = name := by
  obtain ⟨e, he, rfl⟩ := Option.map_eq_some_iff.mp hn
  have hname : e.1 = name := by simpa using find?_some he
  exact hname ▸ h e (mem_of_find?_eq_some he)

theorem indexed_add (hv : m.Valid) (h : m.Indexed) (ha : m.add u = (m', found)) : m'.Indexed := by
  have hold : ∀ e ∈ m.byName, ∃ v, m'.snapshot e.2 = some v ∧ v.name = e.1 := by
    intro e he
    obtain ⟨v, hs, hn⟩ := h e he
    exact ⟨v, snapshot_add hv ha hs, hn⟩
  rcases found with _ | stored
  · rcases add_none ha with ⟨rfl, -⟩ | ⟨pool, -, -, rfl⟩ <;> exact hold
  · obtain ⟨pool, -, -, -, rfl⟩ := add_some ha
    exact forall_mem_cons.mpr ⟨⟨stored, find?_cons_of_pos (by simp), rfl⟩, hold⟩

theorem indexed_remove (h : m.Indexed) (sid generation : ℕ)
    (conditional : Bool) : (m.remove sid generation conditional).1.Indexed := by
  unfold remove
  split
  · exact h
  · rename_i u hs
    split_ifs
    · exact h
    · intro e he
      obtain ⟨he, hne⟩ := mem_filter.mp he
      obtain ⟨v, hv, hn⟩ := h e he
      have hsid : e.2 ≠ sid := by
        rintro rfl
        rw [hs] at hv
        cases hv
        exact absurd hn.symm (by simpa using hne)
      exact ⟨v, (snapshot_without_of_ne hsid).trans hv, hn⟩

theorem updated_name (u : User) (fn : User → User) : (updated u fn).name = (fn u).name := by
  unfold updated
  split_ifs <;> rfl

theorem indexed_put (h : m.Indexed)
    (hu : m.snapshot v.sessionID = some u) (hname : v.name = u.name) : (m.put v).Indexed := by
  intro e he
  obtain ⟨w, hw, hn⟩ := h e he
  by_cases hid : e.2 = v.sessionID
  · rw [hid, hu] at hw
    cases hw
    exact ⟨v, by rw [hid, snapshot_put_self hu], hname.trans hn⟩
  · exact ⟨w, by rw [snapshot_put_of_ne hid, hw], hn⟩

theorem indexed_reindex (h : m.Indexed)
    (hu : m.snapshot v.sessionID = some u) : (m.reindex u.name v).Indexed := by
  unfold reindex
  split_ifs with hname
  · exact indexed_put h hu hname.symm
  · intro e he
    rcases mem_cons.mp he with rfl | he
    · exact ⟨v, snapshot_put_self hu, rfl⟩
    · obtain ⟨he, hne⟩ := mem_filter.mp he
      obtain ⟨w, hw, hn⟩ := h e he
      have hid : e.2 ≠ v.sessionID := by
        intro heq
        rw [heq, hu] at hw
        cases hw
        simp [hn] at hne
      exact ⟨w, (snapshot_put_of_ne hid).trans hw, hn⟩

theorem indexed_updateUser (h : m.Indexed) (sid : ℕ) {fn : User → User}
    (hfn : ∀ u, (fn u).name = u.name) : (m.updateUser sid fn).1.Indexed := by
  unfold updateUser
  cases hs : m.snapshot sid with
  | none => exact h
  | some u =>
    have hid := (mem_of_snapshot hs).2
    exact indexed_put h (u := u) (by rw [updated_sessionID, hid, hs])
      ((updated_name u fn).trans (hfn u))

theorem indexed_updateIdentity (h : m.Indexed) (ref : SessionRef)
    (check : Bool) (fn : User → User) : (m.updateIdentity ref check fn).1.Indexed := by
  unfold updateIdentity
  cases hs : m.snapshot ref.sessionID with
  | none => exact h
  | some u =>
    have hid := (mem_of_snapshot hs).2
    simp only
    split_ifs
    · exact h
    · exact h
    · exact indexed_reindex h (by rw [updated_sessionID, hid, hs])

end UserManager

end MumbleServer
