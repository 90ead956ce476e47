import MumbleServer.LocalLogin

/-! # A new session ID is free in the registry

The user manager gives session IDs out and takes them back; the registry has its own table of
them.  The two are brought up to date one after the other, in an order that differs: a session
that ends by itself is unbound before its record goes, and one that is kicked or banned loses its
record first.  Here the goroutines of a server that add, bind, close, unbind and remove sessions
run in any order, and `new_session_free` says when an ID that was just given out can be bound.

A goroutine is a `Task`: the call it makes next. -/

namespace MumbleServer.SessionIDs

open List UserManager Registry
open LocalLogin (localEdgeID)

/-! ### The goroutines -/

inductive Task
  /-- `KickSessionRef`, which gives up when `BeginCloseAndNotify` fails (`strict`), `BanAndKickSession`
  and `handleUserRemove`: `SnapshotRef`, `BeginClose`, `RemoveIfGeneration`, `UnregisterConn`. -/
  | looking (ref : SessionRef) (strict : Bool)
  | telling (ref : SessionRef) (strict : Bool)
  | expelling (ref : SessionRef)
  | dropping (ref : SessionRef)
  /-- `controlFailed` starts with `BeginClose`; then, as in `OnClose`, `cleanupRemote` and
  `closeFailedSync`, `UnregisterConn` and `RemoveIfGeneration`. -/
  | failing (ref : SessionRef)
  | leaving (ref : SessionRef)
  | removing (ref : SessionRef)
  /-- `handleAuthenticate` and `AuthenticateRemote`: `Add` and `Bind`. -/
  | adding (u : User) (edge : String)
  | binding (ref : SessionRef) (edge : String)
  /-- `BeginSync` of `handleAuthenticate`, and its failure: `BeginClose`, `Unbind`. -/
  | beginning (ref : SessionRef)
  | closing (ref : SessionRef)
  | backing (ref : SessionRef)
  /-- `RemoveIfGeneration` after a setup that failed. -/
  | undoing (ref : SessionRef)
  /-- `BeginSync` of `TransportReadyRemote`. -/
  | readying (ref : SessionRef)
  /-- The initial messages and `CommitSyncAndAnnounce`. -/
  | syncing (ref : SessionRef)
  | done
deriving DecidableEq

namespace Task

def starts : Task → Bool
  | looking _ _ | failing _ | leaving _ | adding _ _ | readying _ => true
  | _ => false

/-- The session that an authentication has added and not finished setting up. -/
def pending : Task → Option SessionRef
  | binding ref _ | beginning ref | closing ref | backing ref | undoing ref => some ref
  | _ => none

/-- The session that a goroutine takes for not bound. -/
def unbound : Task → Option SessionRef
  | removing ref | binding ref _ | undoing ref => some ref
  | _ => none

/-- The session whose record a kick or a ban has removed and whose binding is next. -/
def expelled : Task → Option SessionRef
  | dropping ref => some ref
  | _ => none

end Task

/-- `BeginClose`, its error ignored. -/
def closeAnyway (r : Registry) (ref : SessionRef) : Registry :=
  match r.beginClose ref with
  | .ok (r', _) => r'
  | .error _ => r

def unregisterConn (r : Registry) (ref : SessionRef) : Registry :=
  match r.closeAndUnbind ref with
  | .ok (r', _) => r'
  | .error _ => r

/-- The records, the bindings and the goroutines. -/
structure State where
  users : UserManager
  registry : Registry
  tasks : List Task
deriving DecidableEq

/-- The next call of a goroutine; `ok` is the outcome of what the tables do not decide. -/
def advance (m : UserManager) (r : Registry) (ok : Bool) : Task → UserManager × Registry × Task
  | .looking ref strict =>
    (m, r, if m.snapshotRef ref = none then .done else .telling ref strict)
  | .telling ref strict =>
    match r.beginClose ref with
    | .ok (r', _) => (m, r', .expelling ref)
    | .error _ => (m, r, if strict then .done else .expelling ref)
  | .expelling ref => ((m.removeIfGeneration ref).1, r, .dropping ref)
  | .dropping ref => (m, unregisterConn r ref, .done)
  | .failing ref => (m, closeAnyway r ref, .leaving ref)
  | .leaving ref => (m, unregisterConn r ref, .removing ref)
  | .removing ref => ((m.removeIfGeneration ref).1, r, .done)
  | .adding u edge =>
    match m.add u with
    | (m', none) => (m', r, .done)
    | (m', some stored) => (m', r, .binding stored.ref edge)
  | .binding ref edge =>
    match r.bind ref edge with
    | .error _ => (m, r, .undoing ref)
    | .ok r' => (m, r', if edge = localEdgeID then .beginning ref else .done)
  | .beginning ref =>
    (m, r,
      if ok ∧ (r.snapshot ref).any (fun e => decide (e.state = .syncing)) then .syncing ref
      else .closing ref)
  | .closing ref => (m, closeAnyway r ref, .backing ref)
  | .backing ref => (m, r.unbind ref, .undoing ref)
  | .undoing ref => ((m.removeIfGeneration ref).1, r, .done)
  | .readying ref =>
    (m, r,
      if ok ∧ (r.snapshot ref).any (fun e => decide (e.state = .syncing)) then .syncing ref
      else .done)
  | .syncing ref =>
    match r.commitActive ref with
    | .ok r' => if ok then (m, r', .done) else (m, r, .leaving ref)
    | .error _ => (m, r, .leaving ref)
  | .done => (m, r, .done)

inductive Event
  | spawn (t : Task)
  | advance (i : ℕ) (ok : Bool)
  | registerEdge (i : EdgeInstance)
  | removeEdge (i : EdgeInstance)
deriving DecidableEq

def step (s : State) : Event → State
  | .spawn t => if t.starts then { s with tasks := s.tasks ++ [t] } else s
  | .advance i ok =>
    match s.tasks[i]? with
    | none => s
    | some t =>
      let (m, r, t') := advance s.users s.registry ok t
      ⟨m, r, s.tasks.set i t'⟩
  | .registerEdge i =>
    match s.registry.registerEdge i with
    | .ok r => { s with registry := r }
    | .error _ => s
  | .removeEdge i => { s with registry := s.registry.removeEdge i }

def start (maxUsers : ℕ) : State := ⟨.new maxUsers, ⟨[(localEdgeID, 1)], []⟩, []⟩

/-! ### The sessions that are bound -/

def bound (r : Registry) : List SessionRef := r.sessions.map Entry.ref

def Distinct (refs : List SessionRef) : Prop := (refs.map SessionRef.sessionID).Nodup

section bound
variable {r r' : Registry} {ref : SessionRef}

theorem valid_of_distinct (h : Distinct (bound r)) : r.Valid := by
  unfold Distinct bound at h
  rwa [map_map] at h

theorem entry_eq_none_iff {sid : ℕ} : r.entry sid = none ↔ ∀ x ∈ bound r, x.sessionID ≠ sid := by
  simp [entry, bound]

theorem mem_bound_of_snapshot {e : Entry} (h : r.snapshot ref = some e) : ref ∈ bound r := by
  obtain ⟨he, rfl⟩ := mem_of_snapshot h
  exact mem_map_of_mem he

theorem snapshot_eq_none_iff (h : Distinct (bound r)) : r.snapshot ref = none ↔ ref ∉ bound r := by
  constructor
  · intro hnone hmem
    obtain ⟨e, he, rfl⟩ := mem_map.mp hmem
    rw [snapshot_of_mem (valid_of_distinct h) he] at hnone
    cases hnone
  · intro hnot
    cases hs : r.snapshot ref with
    | none => rfl
    | some e => exact absurd (mem_bound_of_snapshot hs) hnot

theorem bound_modify (f : Entry → Entry) : bound (r.modify ref f) = bound r := by
  unfold bound Registry.modify
  rw [map_map]
  refine map_congr_left fun e _ => ?_
  by_cases he : e.ref = ref
  · simp [he]
  · simp [he]

theorem bound_beginClose {x : Registry × Entry} (h : r.beginClose ref = .ok x) :
    bound x.1 = bound r := by
  rcases beginClose_cases h with hx | hx <;> rw [hx]
  exact bound_modify _

theorem bound_closeAnyway : bound (closeAnyway r ref) = bound r := by
  unfold closeAnyway
  cases hc : r.beginClose ref with
  | error _ => rfl
  | ok x => exact bound_beginClose hc

theorem bound_commitActive (h : r.commitActive ref = .ok r') : bound r' = bound r :=
  (commitActive_spec h).1 ▸ bound_modify _

theorem bound_unbind : bound (r.unbind ref) = (bound r).filter (fun x => decide (x ≠ ref)) := by
  unfold bound unbind
  rw [filter_map]
  rfl

theorem bound_unregisterConn (h : Distinct (bound r)) :
    bound (unregisterConn r ref) = (bound r).filter (fun x => decide (x ≠ ref)) := by
  unfold unregisterConn closeAndUnbind
  cases hs : r.snapshot ref with
  | some e => exact bound_unbind
  | none =>
    refine (filter_eq_self.mpr fun x hx => ?_).symm
    rw [snapshot_eq_none_iff h] at hs
    exact decide_eq_true fun heq => hs (heq ▸ hx)

theorem bound_bind {edge : String} (h : r.bind ref edge = .ok r')
    (hnone : r.snapshot ref = none) :
    bound r' = ref :: bound r ∧ ∀ x ∈ bound r, x.sessionID ≠ ref.sessionID := by
  obtain ⟨hfree, rfl⟩ := bind_cases h hnone
  exact ⟨rfl, entry_eq_none_iff.mp hfree⟩

theorem bound_removeEdge (i : EdgeInstance) : (bound (r.removeEdge i)).Sublist (bound r) := by
  unfold removeEdge
  split_ifs
  · exact filter_sublist.map _
  · exact List.Sublist.refl _

end bound

/-! ### What a run keeps -/

/-- When `Add` runs, no kick or ban is between its `RemoveIfGeneration` and its `UnregisterConn`;
when `Bind` runs, the record that was added is still there and no cleanup is between the
`UnregisterConn` and the `RemoveIfGeneration` of this session. -/
def SpacedAt (s : State) : Task → Prop
  | .adding _ _ => ∀ t ∈ s.tasks, t.expelled = none
  | .binding ref _ => s.users.snapshotRef ref ≠ none ∧ .removing ref ∉ s.tasks
  | _ => True

/-- The next call of a goroutine is made at such a time. -/
def Spaced (s : State) : Event → Prop
  | .advance i _ => ∀ t ∈ s.tasks[i]?, SpacedAt s t
  | _ => True

/-- `Add` returns a session whose ID is not in the registry, and `Bind` does not find the ID of a
new session taken. -/
def BindableAt (s : State) : Task → Prop
  | .adding u _ => ∀ stored ∈ (s.users.add u).2, s.registry.entry stored.sessionID = none
  | .binding ref edge => s.registry.bind ref edge ≠ .error .sessionBound
  | _ => True

/-- What the next call of a goroutine finds. -/
def Bindable (s : State) : Event → Prop
  | .advance i _ => ∀ t ∈ s.tasks[i]?, BindableAt s t
  | _ => True

instance SpacedAt.decidable (s : State) : ∀ t, Decidable (SpacedAt s t)
  | .adding _ _ => inferInstanceAs (Decidable (∀ t ∈ s.tasks, t.expelled = none))
  | .binding ref _ =>
    inferInstanceAs (Decidable (s.users.snapshotRef ref ≠ none ∧ .removing ref ∉ s.tasks))
  | .looking _ _ | .telling _ _ | .expelling _ | .dropping _ | .failing _ | .leaving _
  | .removing _ | .beginning _ | .closing _ | .backing _ | .undoing _ | .readying _
  | .syncing _ | .done => isTrue trivial

instance Spaced.decidable (s : State) : ∀ e, Decidable (Spaced s e)
  | .advance i _ => inferInstanceAs (Decidable (∀ t ∈ s.tasks[i]?, SpacedAt s t))
  | .spawn _ | .registerEdge _ | .removeEdge _ => isTrue trivial

instance BindableAt.decidable (s : State) : ∀ t, Decidable (BindableAt s t)
  | .adding u _ =>
    inferInstanceAs (Decidable (∀ stored ∈ (s.users.add u).2,
      s.registry.entry stored.sessionID = none))
  | .binding ref edge =>
    inferInstanceAs (Decidable (s.registry.bind ref edge ≠ .error .sessionBound))
  | .looking _ _ | .telling _ _ | .expelling _ | .dropping _ | .failing _ | .leaving _
  | .removing _ | .beginning _ | .closing _ | .backing _ | .undoing _ | .readying _
  | .syncing _ | .done => isTrue trivial

instance Bindable.decidable (s : State) : ∀ e, Decidable (Bindable s e)
  | .advance i _ => inferInstanceAs (Decidable (∀ t ∈ s.tasks[i]?, BindableAt s t))
  | .spawn _ | .registerEdge _ | .removeEdge _ => isTrue trivial

/-- The records, the bindings and the goroutines fit. -/
structure Kept (s : State) : Prop where
  users : s.users.Valid
  distinct : Distinct (bound s.registry)
  old : ∀ x ∈ bound s.registry, x.generation ≤ s.users.generation
  recorded : ∀ x ∈ bound s.registry, s.users.snapshotRef x ≠ none ∨ .dropping x ∈ s.tasks
  unbound : ∀ t ∈ s.tasks, ∀ ref, t.unbound = some ref → ref ∉ bound s.registry
  free : ∀ ref edge, .binding ref edge ∈ s.tasks → s.users.snapshotRef ref ≠ none →
    ∀ x ∈ bound s.registry, x.sessionID ≠ ref.sessionID
  known : ∀ t ∈ s.tasks, ∀ ref, t.pending = some ref → ref.generation ≤ s.users.generation
  own : ∀ (i j : ℕ) (t t' : Task) (ref : SessionRef), s.tasks[i]? = some t → s.tasks[j]? = some t' →
    t.pending = some ref → t'.pending = some ref → i = j

theorem kept_start (maxUsers : ℕ) : Kept (start maxUsers) where
  users := valid_new maxUsers
  distinct := nodup_nil
  old := by simp [start, bound]
  recorded := by simp [start, bound]
  unbound := by simp [start]
  free := by simp [start]
  known := by simp [start]
  own := by simp [start]

section kept
variable {s : State} {i : ℕ} {t t' : Task}
variable {m : UserManager} {r : Registry} {ref : SessionRef}

section
variable (h : Kept s)
include h

theorem Kept.spawn (ht : t.starts = true) : Kept { s with tasks := s.tasks ++ [t] } := by
  have hpending : t.pending = none := by cases t <;> first | rfl | cases ht
  have hunbound : t.unbound = none := by cases t <;> first | rfl | cases ht
  have hmem : ∀ {x}, x ∈ s.tasks ++ [t] → x ∈ s.tasks ∨ x = t := by simp
  refine { h with recorded := ?_, unbound := ?_, free := ?_, known := ?_, own := ?_ }
  · exact fun x hx => (h.recorded x hx).imp_right (mem_append_left _)
  · intro x hx ref href
    rcases hmem hx with hx | rfl
    · exact h.unbound x hx ref href
    · rw [hunbound] at href
      cases href
  · intro ref edge hx
    rcases hmem hx with hx | rfl
    · exact h.free ref edge hx
    · cases hunbound
  · intro x hx ref href
    rcases hmem hx with hx | rfl
    · exact h.known x hx ref href
    · rw [hpending] at href
      cases href
  · intro i j x y ref hx hy hxr hyr
    rcases getElem?_concat_cases hx with ⟨-, rfl⟩ | hx
    · rw [hpending] at hxr
      cases hxr
    rcases getElem?_concat_cases hy with ⟨-, rfl⟩ | hy
    · rw [hpending] at hyr
      cases hyr
    exact h.own i j x y ref hx hy hxr hyr

section
variable (ht : s.tasks[i]? = some t)
include ht

/-- A goroutine that moves and has the session it had, or none. -/
theorem Kept.pendings (hpending : t'.pending = none ∨ t'.pending = t.pending) :
    (∀ x ∈ s.tasks.set i t', ∀ ref, x.pending = some ref → ref.generation ≤ s.users.generation) ∧
    ∀ (j k : ℕ) (x y : Task) (ref : SessionRef), (s.tasks.set i t')[j]? = some x →
      (s.tasks.set i t')[k]? = some y → x.pending = some ref → y.pending = some ref → j = k := by
  have hwas : ∀ {j : ℕ} {x : Task} {ref : SessionRef}, (s.tasks.set i t')[j]? = some x →
      x.pending = some ref → ∃ y, s.tasks[j]? = some y ∧ y.pending = some ref := by
    intro j x ref hx href
    rcases getElem?_set_cases hx with ⟨rfl, rfl⟩ | ⟨-, hx⟩
    · rcases hpending with hp | hp
      · rw [hp] at href
        cases href
      · exact ⟨t, ht, hp ▸ href⟩
    · exact ⟨x, hx, href⟩
  constructor
  · intro x hx ref href
    obtain ⟨j, hj⟩ := mem_iff_getElem?.mp hx
    obtain ⟨y, hy, hyr⟩ := hwas hj href
    exact h.known y (mem_of_getElem? hy) ref hyr
  · intro j k x y ref hx hy hxr hyr
    obtain ⟨x', hx', hxr'⟩ := hwas hx hxr
    obtain ⟨y', hy', hyr'⟩ := hwas hy hyr
    exact h.own j k x' y' ref hx' hy' hxr' hyr'

theorem Kept.recorded_set (hexpelled : t.expelled = none) {x : SessionRef}
    (hx : x ∈ bound s.registry) :
    s.users.snapshotRef x ≠ none ∨ .dropping x ∈ s.tasks.set i t' := by
  refine (h.recorded x hx).imp_right fun hx => mem_set_of_ne ht hx ?_ _
  rintro rfl
  cases hexpelled

theorem Kept.move (hm : m.Valid) (hgen : m.generation = s.users.generation)
    (hrec : ∀ x, m.snapshotRef x ≠ none → s.users.snapshotRef x ≠ none)
    (hsub : (bound r).Sublist (bound s.registry))
    (hrecorded : ∀ x ∈ bound r, m.snapshotRef x ≠ none ∨ .dropping x ∈ s.tasks.set i t')
    (hpending : t'.pending = none ∨ t'.pending = t.pending)
    (hunbound : ∀ ref, t'.unbound = some ref → ref ∉ bound r)
    (hbinding : ∀ ref edge, t' ≠ .binding ref edge) : Kept ⟨m, r, s.tasks.set i t'⟩ where
  users := hm
  distinct := h.distinct.sublist (hsub.map _)
  old := fun x hx => hgen.symm ▸ h.old x (hsub.subset hx)
  recorded := hrecorded
  unbound := by
    intro x hx ref href
    rcases mem_set_cases hx with rfl | hx
    · exact hunbound ref href
    · exact fun hb => h.unbound x hx ref href (hsub.subset hb)
  free := by
    intro ref edge hx hr x hxb
    rcases mem_set_cases hx with heq | hx
    · exact absurd heq.symm (hbinding ref edge)
    · exact h.free ref edge hx (hrec ref hr) x (hsub.subset hxb)
  known := hgen.symm ▸ (h.pendings ht hpending).1
  own := (h.pendings ht hpending).2

theorem Kept.stay (hr : bound r = bound s.registry) (hexpelled : t.expelled = none)
    (hpending : t'.pending = none ∨ t'.pending = t.pending) (hunbound : t'.unbound = none) :
    Kept ⟨s.users, r, s.tasks.set i t'⟩ := by
  refine h.move ht h.users rfl (fun _ => id) (hr ▸ List.Sublist.refl _) ?_ hpending ?_ ?_
  · exact fun x hx => h.recorded_set ht hexpelled (hr ▸ hx)
  · rw [hunbound]
    simp
  · rintro ref edge rfl
    cases hunbound

/-- `RemoveIfGeneration` of a session that is not bound, or by a kick or a ban. -/
theorem Kept.remove
    (hexpelled : t.expelled = none) (hpending : t'.pending = none) (hunbound : t'.unbound = none)
    (hend : ref ∉ bound s.registry ∨ t' = .dropping ref) :
    Kept ⟨(s.users.removeIfGeneration ref).1, s.registry, s.tasks.set i t'⟩ := by
  refine h.move ht (valid_remove h.users _ _ _) (generation_remove ..)
    ?_ (List.Sublist.refl _) ?_ (.inl hpending) ?_ ?_
  · intro x hx
    rw [snapshotRef_remove] at hx
    split_ifs at hx with heq
    · exact absurd rfl hx
    · exact hx
  · intro x hx
    by_cases heq : x = ref
    · subst heq
      rcases hend with hnot | rfl
      · exact absurd hx hnot
      · exact .inr (mem_set_self ht _)
    · rw [snapshotRef_remove, if_neg heq]
      exact h.recorded_set ht hexpelled hx
  · rw [hunbound]
    simp
  · rintro ref edge rfl
    cases hunbound

theorem Kept.unbind (hr : bound r = (bound s.registry).filter (fun x => decide (x ≠ ref)))
    (hexpelled : t.expelled = none ∨ t = .dropping ref)
    (hpending : t'.pending = none ∨ t'.pending = t.pending)
    (hunbound : t'.unbound = none ∨ t'.unbound = some ref)
    (hbinding : ∀ ref edge, t' ≠ .binding ref edge) :
    Kept ⟨s.users, r, s.tasks.set i t'⟩ := by
  have hmem : ∀ {x}, x ∈ bound r → x ∈ bound s.registry ∧ x ≠ ref := by
    intro x hx
    rw [hr, mem_filter] at hx
    exact ⟨hx.1, of_decide_eq_true hx.2⟩
  refine h.move ht h.users rfl (fun _ => id) (hr ▸ filter_sublist) ?_ hpending ?_ hbinding
  · intro x hx
    obtain ⟨hx, hne⟩ := hmem hx
    refine (h.recorded x hx).imp_right fun hx => mem_set_of_ne ht hx ?_ _
    rintro rfl
    rcases hexpelled with hnone | heq
    · cases hnone
    · exact hne (Task.dropping.inj heq)
  · intro x hx hxb
    rcases hunbound with hu | hu
    · rw [hu] at hx
      cases hx
    · rw [hu] at hx
      exact (hmem hxb).2 (Option.some.inj hx).symm

theorem Kept.addNone (hexpelled : t.expelled = none)
    {u : User} (ha : s.users.add u = (m, none)) :
    Kept ⟨m, s.registry, s.tasks.set i .done⟩ := by
  obtain ⟨hby, hgen⟩ := same_of_add ha
  have hsame := snapshotRef_congr hby
  refine h.move ht (valid_add h.users ha) hgen (fun x hx => hsame x ▸ hx) (List.Sublist.refl _) ?_
    (.inl rfl) (by simp [Task.unbound]) (by simp)
  intro x hx
  rw [hsame]
  exact h.recorded_set ht hexpelled hx

end

section
variable (hspaced : ∀ t ∈ s.tasks, t.expelled = none) {u stored : User}
  (ha : s.users.add u = (m, some stored))
include hspaced ha

/-- While no kick or ban is about to unbind, the ID that `Add` gives out is not bound. -/
theorem Kept.unused : ∀ x ∈ bound s.registry, x.sessionID ≠ stored.sessionID := by
  intro x hx heq
  have hnot := (unused_of_add ha h.users).1
  rcases h.recorded x hx with hrec | hdrop
  · obtain ⟨v, hv⟩ := Option.ne_none_iff_exists'.mp hrec
    obtain ⟨hmem, hid⟩ := mem_of_snapshot (snapshotRef_eq_some.mp hv).1
    exact hnot (heq ▸ hid ▸ h.users.inUse v hmem)
  · cases hspaced _ hdrop

theorem Kept.add (edge : String) :
    Kept ⟨m, s.registry, s.tasks.set i (.binding stored.ref edge)⟩ := by
  have hvalid := valid_add h.users ha
  obtain ⟨hnew, hgen⟩ := generation_of_add ha
  have hle : s.users.generation ≤ m.generation := hgen ▸ Nat.le_succ _
  have hrec := snapshotRef_add h.users ha
  have hunused := h.unused hspaced ha
  have hfresh : ∀ {x : SessionRef}, x.generation ≤ s.users.generation → x ≠ stored.ref :=
    fresh_of_add ha
  refine ⟨hvalid, h.distinct, fun x hx => (h.old x hx).trans hle, ?_, ?_, ?_, ?_, ?_⟩
  · intro x hx
    rcases h.recorded x hx with hx' | hdrop
    · left
      rw [hrec]
      split_ifs
      · exact Option.some_ne_none _
      · exact hx'
    · cases hspaced _ hdrop
  · intro x hx ref href hb
    rcases mem_set_cases hx with rfl | hx
    · obtain rfl := Option.some.inj href
      exact hunused _ hb rfl
    · exact h.unbound x hx ref href hb
  · intro ref e hx hr
    rcases mem_set_cases hx with heq | hx
    · obtain ⟨rfl, -⟩ := Task.binding.inj heq
      exact hunused
    · rw [hrec, if_neg (hfresh (h.known _ hx ref rfl))] at hr
      exact h.free ref e hx hr
  · intro x hx ref href
    rcases mem_set_cases hx with rfl | hx
    · obtain rfl := Option.some.inj href
      exact (hnew.trans hgen.symm).le
    · exact (h.known x hx ref href).trans hle
  · -- the new session has a generation that no other goroutine can know
    have hother : ∀ {j : ℕ} {x : Task} {ref : SessionRef}, s.tasks[j]? = some x →
        x.pending = some ref → ref ≠ stored.ref :=
      fun hx href => hfresh (h.known _ (mem_of_getElem? hx) _ href)
    intro j k x y ref hx hy hxr hyr
    rcases getElem?_set_cases hx with ⟨hj, rfl⟩ | ⟨-, hx⟩ <;>
      rcases getElem?_set_cases hy with ⟨hk, rfl⟩ | ⟨-, hy⟩
    · exact hj.trans hk.symm
    · exact absurd (Option.some.inj hxr).symm (hother hy hyr)
    · exact absurd (Option.some.inj hyr).symm (hother hx hxr)
    · exact h.own j k x y ref hx hy hxr hyr

end

theorem Kept.bind {edge : String}
    (ht : s.tasks[i]? = some (.binding ref edge)) (hrec : s.users.snapshotRef ref ≠ none)
    (hremoving : .removing ref ∉ s.tasks) (hb : s.registry.bind ref edge = .ok r)
    (ht' : t' = .beginning ref ∨ t' = .done) : Kept ⟨s.users, r, s.tasks.set i t'⟩ := by
  have hmem := mem_of_getElem? ht
  have hnot := h.unbound _ hmem ref rfl
  obtain ⟨hr, hfree⟩ := bound_bind hb ((snapshot_eq_none_iff h.distinct).mpr hnot)
  have hunbound : t'.unbound = none := by rcases ht' with rfl | rfl <;> rfl
  have hpending : t'.pending = none ∨ t'.pending = some ref := by
    rcases ht' with rfl | rfl
    · exact .inr rfl
    · exact .inl rfl
  have hpendings := h.pendings ht hpending
  have hown : ∀ {j : ℕ} {x : Task}, s.tasks[j]? = some x → x.pending = some ref → j = i :=
    fun hx href => h.own _ _ _ _ ref hx ht href rfl
  refine ⟨h.users, ?_, ?_, ?_, ?_, ?_, hpendings.1, hpendings.2⟩
  · show Distinct (bound r)
    rw [hr]
    refine nodup_cons.mpr ⟨fun hm => ?_, h.distinct⟩
    obtain ⟨x, hx, hid⟩ := mem_map.mp hm
    exact hfree x hx hid
  · show ∀ x ∈ bound r, _
    rw [hr, forall_mem_cons]
    exact ⟨h.known _ hmem ref rfl, h.old⟩
  · show ∀ x ∈ bound r, _
    rw [hr, forall_mem_cons]
    exact ⟨.inl hrec, fun x hx => h.recorded_set ht rfl hx⟩
  · intro x hx ref' href hxb
    obtain ⟨j, hj⟩ := mem_iff_getElem?.mp hx
    rcases getElem?_set_cases hj with ⟨-, rfl⟩ | ⟨hne, hj⟩
    · rw [hunbound] at href
      cases href
    have hx := mem_of_getElem? hj
    rw [show bound _ = ref :: bound s.registry from hr] at hxb
    rcases mem_cons.mp hxb with rfl | hxb
    · -- a cleanup of the session is excluded, and its authentication is the one that binds
      cases x with
      | removing ref =>
        obtain rfl := Option.some.inj href
        exact hremoving hx
      | binding | undoing => exact hne (hown hj href)
      | _ => cases href
    · exact h.unbound x hx ref' href hxb
  · intro ref' e hx hr'
    obtain ⟨j, hj⟩ := mem_iff_getElem?.mp hx
    rcases getElem?_set_cases hj with ⟨-, heq⟩ | ⟨hne, hj⟩
    · rw [← heq] at hunbound
      cases hunbound
    show ∀ x ∈ bound r, _
    rw [hr, forall_mem_cons]
    refine ⟨fun hid => ?_, h.free ref' e (mem_of_getElem? hj) hr'⟩
    obtain ⟨v, hv⟩ := Option.ne_none_iff_exists'.mp hrec
    obtain ⟨w, hw⟩ := Option.ne_none_iff_exists'.mp hr'
    obtain rfl := eq_of_snapshotRef hv hw hid
    exact hne (hown hj rfl)

open SessionIDs

theorem Kept.advance (ht : s.tasks[i]? = some t) (ok : Bool)
    (hspaced : Spaced s (.advance i ok)) :
    Kept ⟨(advance s.users s.registry ok t).1, (advance s.users s.registry ok t).2.1,
      s.tasks.set i (advance s.users s.registry ok t).2.2⟩ := by
  have hmem := mem_of_getElem? ht
  cases t with
  | looking ref strict | readying ref =>
    refine h.stay ht rfl rfl (.inl ?_) ?_ <;>
      · simp only [advance]
        split_ifs <;> rfl
  | telling ref strict =>
    simp only [advance]
    cases hc : s.registry.beginClose ref with
    | ok x => exact h.stay ht (bound_beginClose hc) rfl (.inl rfl) rfl
    | error _ => refine h.stay ht rfl rfl (.inl ?_) ?_ <;> cases strict <;> rfl
  | expelling ref => exact h.remove ht rfl rfl rfl (.inr rfl)
  | dropping ref =>
    exact h.unbind ht (bound_unregisterConn h.distinct) (.inr rfl) (.inl rfl) (.inl rfl)
      (by simp [advance])
  | failing ref => exact h.stay ht bound_closeAnyway rfl (.inl rfl) rfl
  | leaving ref =>
    exact h.unbind ht (bound_unregisterConn h.distinct) (.inl rfl) (.inl rfl) (.inr rfl)
      (by simp [advance])
  | removing ref | undoing ref => exact h.remove ht rfl rfl rfl (.inl (h.unbound _ hmem ref rfl))
  | adding u edge =>
    have hspaced : ∀ t ∈ s.tasks, t.expelled = none := hspaced _ ht
    simp only [advance]
    rcases ha : s.users.add u with ⟨m, _ | stored⟩
    · exact h.addNone ht rfl ha
    · exact h.add hspaced ha edge
  | binding ref edge =>
    obtain ⟨hrec, hremoving⟩ := hspaced _ ht
    simp only [advance]
    cases hb : s.registry.bind ref edge with
    | error _ =>
      exact h.move ht h.users rfl (fun _ => id) (List.Sublist.refl _)
        (fun _ hx => h.recorded_set ht rfl hx) (.inr rfl) (fun x hx => h.unbound _ hmem x hx)
        (by simp)
    | ok r =>
      refine h.bind ht hrec hremoving hb ?_
      split_ifs
      · exact .inl rfl
      · exact .inr rfl
  | beginning ref =>
    simp only [advance]
    split_ifs
    · exact h.stay ht rfl rfl (.inl rfl) rfl
    · exact h.stay ht rfl rfl (.inr rfl) rfl
  | closing ref => exact h.stay ht bound_closeAnyway rfl (.inr rfl) rfl
  | backing ref =>
    exact h.unbind ht bound_unbind (.inl rfl) (.inr rfl) (.inr rfl) (by simp [advance])
  | syncing ref =>
    simp only [advance]
    cases hc : s.registry.commitActive ref with
    | error _ => exact h.stay ht rfl rfl (.inl rfl) rfl
    | ok r =>
      cases ok with
      | true => exact h.stay ht (bound_commitActive hc) rfl (.inl rfl) rfl
      | false => exact h.stay ht rfl rfl (.inl rfl) rfl
  | done => exact h.stay ht rfl rfl (.inl rfl) rfl

end

end kept

theorem Kept.step {s : State} (h : Kept s) {e : Event} (hspaced : Spaced s e) :
    Kept (step s e) := by
  have hshrink : ∀ {r}, (bound r).Sublist (bound s.registry) → Kept { s with registry := r } :=
    fun hsub =>
      { h with
        distinct := h.distinct.sublist (hsub.map _)
        old := fun x hx => h.old x (hsub.subset hx)
        recorded := fun x hx => h.recorded x (hsub.subset hx)
        unbound := fun t ht ref href hb => h.unbound t ht ref href (hsub.subset hb)
        free := fun ref edge ht hr x hx => h.free ref edge ht hr x (hsub.subset hx) }
  cases e with
  | spawn t =>
    simp only [SessionIDs.step]
    split_ifs with ht
    · exact h.spawn ht
    · exact h
  | advance i ok =>
    cases ht : s.tasks[i]? with
    | none =>
      simp only [SessionIDs.step, ht]
      exact h
    | some t =>
      simp only [SessionIDs.step, ht]
      exact h.advance ht ok hspaced
  | registerEdge i =>
    simp only [SessionIDs.step]
    cases hr : s.registry.registerEdge i with
    | error _ => exact h
    | ok r =>
      have hsame : bound r = bound s.registry :=
        congrArg (List.map Entry.ref) (registerEdge_ok hr).1
      exact hshrink (hsame ▸ List.Sublist.refl _)
  | removeEdge i => exact hshrink (bound_removeEdge i)

theorem Kept.bindable {s : State} (h : Kept s) {e : Event} (hspaced : Spaced s e) :
    Bindable s e := by
  cases e with
  | advance i ok =>
    intro t ht
    have hspaced := hspaced t ht
    cases t with
    | adding u edge =>
      intro stored hs
      exact entry_eq_none_iff.mpr (h.unused hspaced (Prod.ext rfl hs))
    | binding ref edge =>
      have hfree := h.free ref edge (mem_of_getElem? ht) hspaced.1
      show s.registry.bind ref edge ≠ _
      unfold Registry.bind
      rw [entry_eq_none_iff.mpr hfree]
      split_ifs <;> simp
    | _ => trivial
  | _ => trivial

/-- **A new session ID is free.**  However kicks, bans, disconnects, failed syncs and
authentications run, as long as no `Add` runs while a kick or a ban has removed a record and not
yet unbound its session, and no `Bind` runs for a session that is being cleaned up: every session
that `Add` returns has an ID that is not in the registry, and its `Bind` does not find it taken. -/
theorem new_session_free (maxUsers : ℕ) {es : List Event}
    (h : Along step Spaced (start maxUsers) es) : Along step Bindable (start maxUsers) es := by
  have hstep : ∀ s e, Kept s → Spaced s e → Bindable s e ∧ Kept (step s e) :=
    fun _ _ hk hs => ⟨hk.bindable hs, hk.step hs⟩
  exact Along.of_inv hstep (kept_start maxUsers) h

def guest (name : String) : User := ⟨⟨0, 0, false, "", false, false, 0, 0, [], []⟩, 0, 0, 0, name⟩

def first : SessionRef := ⟨1, 1⟩

/-- Alice authenticates, and a kick of the session has made its first calls; Bob authenticates. -/
def kickedThenNew (calls : ℕ) : List Event :=
  [.spawn (.adding (guest "alice") localEdgeID), .advance 0 true, .advance 0 true, .advance 0 true,
    .advance 0 true, .spawn (.looking first true)] ++ List.replicate calls (.advance 1 true) ++
  [.spawn (.adding (guest "bob") localEdgeID), .advance 2 true, .advance 2 true]

/-- Once the kick is complete, Bob gets the ID of Alice and can bind it. -/
theorem new_session_free_after_kick :
    Along step Spaced (start 10) (kickedThenNew 4) ∧
      Along step Bindable (start 10) (kickedThenNew 4) :=
  have h : Along step Spaced (start 10) (kickedThenNew 4) := by decide
  ⟨h, new_session_free 10 h⟩

/-- Between the last two calls of the kick, Bob gets the ID of Alice, which is still bound, and
the authentication fails. -/
theorem new_session_taken :
    ¬Along step Bindable (start 10) (kickedThenNew 3) ∧
      (run step (start 10) (kickedThenNew 3)).registry.bind ⟨1, 2⟩ localEdgeID =
        .error .sessionBound ∧
      (run step (start 10) (kickedThenNew 3)).tasks =
        [.done, .dropping first, .undoing ⟨1, 2⟩] := by
  decide

end MumbleServer.SessionIDs
