import MumbleServer.AssocList
import MumbleServer.EdgeIncarnation
import MumbleServer.Runs
import MumbleServer.Slots

/-! # Incarnations kept apart

The invariant behind `incarnations_apart`, for the runs in which closing an incarnation and
authenticating through it do not overlap.  The thread of the argument is `System.Inv.flight`: while
a client is being authenticated through an incarnation nobody is past asking for its sessions, so
it is still the registered one when the session is bound, and nothing is bound to an edge that is
being swept (`System.Left`). -/

namespace MumbleServer.EdgeIncarnation

open List Option UserManager Registry

/-! ### The invariant -/

/-- The session whose user record a goroutine has to deal with. -/
def Thread.handles : Thread → Option SessionRef
  | .binding _ ref => some ref
  | .undoing _ ref => some ref
  | .removing ref => some ref
  | .sweepRemoving _ ref _ => some ref
  | _ => none

/-- At most `refs` are left of the sessions of an incarnation. -/
def System.Left (s : System) (i : EdgeInstance) (refs : List SessionRef) : Prop :=
  (∀ e ∈ s.registry.sessions, e.edge = i.edgeID → e.ref ∈ refs) ∧ ∀ ref ∈ refs, (ref, i) ∈ s.origin

/-- What a goroutine may assume. -/
def Thread.Ok (s : System) : Thread → Prop
  | .checking i => i ∈ s.links
  | .asking i => i ∈ s.links
  | .adding i _ => i ∈ s.links
  | .binding i ref => i ∈ s.links ∧ (ref, i) ∈ s.origin
  | .undoing i ref => i ∈ s.links ∧ (ref, i) ∈ s.origin
  | .closing i => i ∈ s.links
  | .sweeping i refs => i ∈ s.links ∧ s.Left i refs
  | .sweepRemoving i ref refs => i ∈ s.links ∧ (ref, i) ∈ s.origin ∧ s.Left i refs
  | .dropping i => i ∈ s.links ∧ s.Left i []
  | .closed i => i ∈ s.links
  | _ => True

/-- The invariant of the runs in which closing and authenticating do not overlap. -/
structure System.Inv (s : System) : Prop where
  users : s.users.Valid
  registry : s.registry.Valid
  hellos : s.hellos.Nodup
  fresh : ∀ i ∈ s.hellos, i ∉ s.links
  bounded : ∀ i, i ∈ s.hellos ∨ i ∈ s.links → i.generation ≤ s.nextGen i.edgeID
  /-- A link is registered until it is closed. -/
  live : ∀ i ∈ s.links, .closed i ∉ s.threads → s.registered i
  ended : ∀ i, .closed i ∈ s.threads → ¬s.registered i
  born : ∀ ref i, (ref, i) ∈ s.origin → ref.generation ≤ s.users.generation
  origin : ∀ ref i i', (ref, i) ∈ s.origin → (ref, i') ∈ s.origin → i = i'
  owned : s.Owned
  queues : ∀ ref ∈ s.control, (s.registry.snapshot ref).isSome
  /-- A user has a session, or somebody is busy with the record. -/
  records : ∀ u ∈ s.users.bySession, (∃ i, (u.ref, i) ∈ s.origin) ∧
    ((s.registry.snapshot u.ref).isSome ∨ ∃ t ∈ s.threads, t.handles = some u.ref)
  ok : ∀ t ∈ s.threads, t.Ok s
  closers : ∀ (j k : ℕ) (t t' : Thread) (i : EdgeInstance), s.threads[j]? = some t →
    s.threads[k]? = some t' → t.closer = some i → t'.closer = some i → j = k
  flight : ∀ t ∈ s.threads, ∀ t' ∈ s.threads, ∀ i, t.inflight = some i →
    t'.sweeps ≠ some i ∧ t' ≠ .closed i

section moves
variable {s : System} {k : ℕ} {t t' : Thread}

theorem Thread.sweeps_of_inflight {i : EdgeInstance} (h : t.inflight = some i) :
    t.sweeps = none ∧ ∀ i', t ≠ .closed i' := by
  cases t <;> cases h <;> exact ⟨rfl, by simp⟩

theorem closed_mem_set (hk : s.threads[k]? = some t) (hclosed : ∀ i, t' = .closed i ↔ t = .closed i)
    (i : EdgeInstance) : .closed i ∈ s.threads.set k t' ↔ .closed i ∈ s.threads := by
  constructor
  · intro hi
    rcases mem_set_cases hi with hi | hi
    · exact (hclosed i).mp hi.symm ▸ mem_of_getElem? hk
    · exact hi
  · intro hi
    by_cases ht : .closed i = t
    · rw [(hclosed i).mpr ht.symm]
      exact mem_set_self hk _
    · exact mem_set_of_ne hk hi ht t'

/-- Who is busy with a record is so beside a goroutine that was not. -/
theorem handled_set (hk : s.threads[k]? = some t) (hnone : t.handles = none) {ref : SessionRef}
    (h : ∃ w ∈ s.threads, w.handles = some ref) :
    ∃ w ∈ s.threads.set k t', w.handles = some ref := by
  obtain ⟨w, hw, hwh⟩ := h
  refine ⟨w, mem_set_of_ne hk hw ?_ _, hwh⟩
  rintro rfl
  rw [hnone] at hwh
  cases hwh

section
variable (h : s.Inv) (hk : s.threads[k]? = some t)
include h hk

theorem System.Inv.closers_set
    (hcloser : t'.closer = t.closer) (j j' : ℕ) (u u' : Thread) (i : EdgeInstance)
    (hj : (s.threads.set k t')[j]? = some u) (hj' : (s.threads.set k t')[j']? = some u')
    (hu : u.closer = some i) (hu' : u'.closer = some i) : j = j' := by
  have hcl : ∀ (j : ℕ) (u : Thread), (s.threads.set k t')[j]? = some u → u.closer = some i →
      ∃ w, s.threads[j]? = some w ∧ w.closer = some i := by
    intro j u hj hu
    rw [getElem?_set] at hj
    split_ifs at hj with hkj
    · obtain rfl := some.inj hj
      exact ⟨t, hkj ▸ hk, hcloser ▸ hu⟩
    · exact ⟨u, hj, hu⟩
  obtain ⟨w, hw, hwc⟩ := hcl j u hj hu
  obtain ⟨w', hw', hwc'⟩ := hcl j' u' hj' hu'
  exact h.closers j j' w w' i hw hw' hwc hwc'

theorem System.Inv.flight_set (hclosed : ∀ i, t' = .closed i → t.sweeps = some i ∨ t = .closed i)
    (hin : ∀ i, t'.inflight = some i → t.inflight = some i ∨
      ∀ u ∈ s.threads, u.sweeps ≠ some i ∧ u ≠ .closed i)
    (hsweeps : ∀ i, t'.sweeps = some i → t.sweeps = some i ∨ ∀ u ∈ s.threads, u.inflight ≠ some i) :
    ∀ u ∈ s.threads.set k t', ∀ u' ∈ s.threads.set k t', ∀ i, u.inflight = some i →
      u'.sweeps ≠ some i ∧ u' ≠ .closed i := by
  have htmem : t ∈ s.threads := mem_of_getElem? hk
  intro u hu u' hu' i hi
  rcases mem_set_cases hu with hut | hum <;> rcases mem_set_cases hu' with hut' | hum'
  · obtain ⟨hs, hc⟩ := Thread.sweeps_of_inflight hi
    rw [hut', ← hut]
    exact ⟨by simp [hs], hc i⟩
  · rcases hin i (hut ▸ hi) with ht | hnone
    · exact h.flight t htmem u' hum' i ht
    · exact hnone u' hum'
  · obtain ⟨hs, hc⟩ := h.flight u hum t htmem i hi
    rw [hut']
    refine ⟨fun ht' => ?_, fun ht' => (hclosed i ht').elim hs hc⟩
    rcases hsweeps i ht' with ht | hnone
    · exact hs ht
    · exact hnone u hum hi
  · exact h.flight u hum u' hum' i hi

open EdgeIncarnation.System

theorem System.Inv.move (hok : t'.Ok s)
    (hcloser : t'.closer = t.closer) (hclosed : ∀ i, t' = .closed i ↔ t = .closed i)
    (hin : ∀ i, t'.inflight = some i → t.inflight = some i ∨
      ∀ u ∈ s.threads, u.sweeps ≠ some i ∧ u ≠ .closed i)
    (hsweeps : ∀ i, t'.sweeps = some i → t.sweeps = some i ∨ ∀ u ∈ s.threads, u.inflight ≠ some i)
    (hhandles : ∀ ref, t.handles = some ref → t'.handles = some ref ∨
      (s.registry.snapshot ref).isSome ∨ ∀ u ∈ s.users.bySession, u.ref ≠ ref) :
    Inv { s with threads := s.threads.set k t' } where
  __ := h
  live i hi hc := h.live i hi fun hc' => hc ((closed_mem_set hk hclosed i).mpr hc')
  ended i hc := h.ended i ((closed_mem_set hk hclosed i).mp hc)
  records u hu := by
    obtain ⟨horigin, hrec⟩ := h.records u hu
    refine ⟨horigin, ?_⟩
    rcases hrec with hsnap | ⟨w, hw, hwh⟩
    · exact .inl hsnap
    · by_cases hwt : w = t
      · subst hwt
        rcases hhandles _ hwh with ht' | hsnap | hnone
        · exact .inr ⟨t', mem_set_self hk _, ht'⟩
        · exact .inl hsnap
        · exact absurd rfl (hnone u hu)
      · exact .inr ⟨w, mem_set_of_ne hk hw hwt t', hwh⟩
  ok u hu := by
    rcases mem_set_cases hu with rfl | hu
    · exact hok
    · exact h.ok u hu
  closers := h.closers_set hk hcloser
  flight := h.flight_set hk (fun i hi => .inr ((hclosed i).mp hi)) hin hsweeps

end

end moves

/-! ### What the accesses keep -/

section accesses
variable {s s' : System} {t : Thread} {i : EdgeInstance} {ref : SessionRef}

/-- What a goroutine assumes stays true if no sessions are bound to the edge it is closing and none
of the rest goes away. -/
theorem Thread.Ok.mono (h : t.Ok s) (hlinks : ∀ i ∈ s.links, i ∈ s'.links)
    (horigin : ∀ p ∈ s.origin, p ∈ s'.origin)
    (hsessions : ∀ e ∈ s'.registry.sessions,
      (∃ e' ∈ s.registry.sessions, e'.ref = e.ref ∧ e'.edge = e.edge) ∨
        ∀ i, t.sweeps = some i → e.edge ≠ i.edgeID) : t.Ok s' := by
  have hleft : ∀ i refs, t.sweeps = some i → s.Left i refs → s'.Left i refs := by
    rintro i refs ht ⟨hleft, hrefs⟩
    refine ⟨fun e he hedge => ?_, fun ref hr => horigin _ (hrefs ref hr)⟩
    rcases hsessions e he with ⟨e', he', hr, hedge'⟩ | hother
    · exact hr ▸ hleft e' he' (hedge'.trans hedge)
    · exact absurd hedge (hother i ht)
  cases t with
  | checking i | asking i | adding i u | closing i | closed i => exact hlinks i h
  | binding i ref | undoing i ref => exact ⟨hlinks i h.1, horigin _ h.2⟩
  | sweeping i refs => exact ⟨hlinks i h.1, hleft i refs rfl h.2⟩
  | sweepRemoving i ref refs => exact ⟨hlinks i h.1, horigin _ h.2.1, hleft i refs rfl h.2.2⟩
  | dropping i => exact ⟨hlinks i h.1, hleft i [] rfl h.2⟩
  | _ => trivial

theorem Thread.Ok.linked (h : t.Ok s) (ht : t.closer = some i) : i ∈ s.links := by
  cases t <;> cases ht <;> first | exact h | exact h.1

theorem Thread.closer_of_sweeps (h : t.sweeps = some i) : t.closer = some i := by
  cases t <;> cases h <;> rfl

theorem System.Inv.not_closed (h : s.Inv) (ht : t ∈ s.threads) (hcloser : t.closer = some i)
    (hne : t ≠ .closed i) : .closed i ∉ s.threads := by
  intro hc
  obtain ⟨j, hj⟩ := mem_iff_getElem?.mp ht
  obtain ⟨k, hk⟩ := mem_iff_getElem?.mp hc
  obtain rfl := h.closers j k t _ i hj hk hcloser rfl
  rw [hk] at hj
  exact hne (some.inj hj).symm

theorem Thread.not_closed_of_sweeps (h : t.sweeps = some i) : t ≠ .closed i := by
  rintro rfl
  cases h

theorem mem_removeIfGeneration {m : UserManager} (h : m.Valid) {u : User}
    (hu : u ∈ (m.removeIfGeneration ref).1.bySession) : u ∈ m.bySession ∧ u.ref ≠ ref := by
  have hvalid : (m.removeIfGeneration ref).1.Valid :=
    valid_remove h ref.sessionID ref.generation true
  have hsnap := snapshot_of_mem hvalid hu
  have hmem := mem_of_snapshot (snapshot_of_remove hsnap)
  refine ⟨hmem.1, ?_⟩
  rintro rfl
  have href : (m.removeIfGeneration u.ref).1.snapshotRef u.ref = some u :=
    snapshotRef_eq_some.mpr ⟨hsnap, rfl⟩
  rw [snapshotRef_remove, if_pos rfl] at href
  cases href

theorem System.Inv.removeUser (h : s.Inv) (ref : SessionRef) : (s.removeUser ref).Inv where
  __ := h
  users := valid_remove h.users ref.sessionID ref.generation true
  born r i hr := (h.born r i hr).trans_eq (generation_remove ..).symm
  records u hu := h.records u (mem_removeIfGeneration h.users hu).1
  ok t ht := h.ok t ht

theorem removeUser_gone (h : s.Inv) (ref : SessionRef) :
    ∀ u ∈ (s.removeUser ref).users.bySession, u.ref ≠ ref := fun _ hu =>
  (mem_removeIfGeneration h.users hu).2

theorem unregister_eq (s : System) (ref : SessionRef) :
    s.unregister ref = s ∨ s.unregister ref = { s with
      registry := s.registry.unbind ref
      control := s.control.filter fun x => decide (x ≠ ref) } := by
  unfold System.unregister closeAndUnbind
  cases s.registry.snapshot ref with
  | none => exact .inl rfl
  | some e => exact .inr rfl

theorem System.Inv.mem_unregister (h : s.Inv) {e : Entry}
    (he : e ∈ (s.unregister ref).registry.sessions) : e ∈ s.registry.sessions ∧ e.ref ≠ ref := by
  unfold unregister closeAndUnbind at he
  cases hs : s.registry.snapshot ref with
  | none =>
    rw [hs] at he
    refine ⟨he, ?_⟩
    rintro rfl
    rw [snapshot_of_mem h.registry he] at hs
    cases hs
  | some e' =>
    rw [hs] at he
    obtain ⟨he, hne⟩ := mem_filter.mp he
    exact ⟨he, by simpa using hne⟩

/-- A session is unbound by a goroutine that then has its user record to deal with. -/
theorem System.Inv.unregister (h : s.Inv) {k : ℕ} {t' : Thread} (hk : s.threads[k]? = some t)
    (hnone : t.handles = none) (hbusy : t'.handles = some ref) (hok : t'.Ok (s.unregister ref))
    (hcloser : t'.closer = t.closer) (hopen : ∀ i, t ≠ .closed i) (hin : t'.inflight = none)
    (hsweeps : t'.sweeps = t.sweeps) :
    Inv { s.unregister ref with threads := s.threads.set k t' } := by
  have hopen' : ∀ i, t' ≠ .closed i := by
    rintro i rfl
    cases hbusy
  have hclosed : ∀ i, t' = .closed i ↔ t = .closed i := fun i =>
    ⟨fun hc => absurd hc (hopen' i), fun hc => absurd hc (hopen i)⟩
  rcases unregister_eq s ref with heq | heq
  · rw [heq] at hok ⊢
    exact h.move hk hok hcloser hclosed (by simp [hin]) (fun i hi => .inl (hsweeps ▸ hi))
      (by simp [hnone])
  · rw [heq] at hok ⊢
    have hsub : ∀ e ∈ (s.registry.unbind ref).sessions, e ∈ s.registry.sessions :=
      fun e he => (mem_filter.mp he).1
    exact { h with
      registry := valid_unbind h.registry ref
      live := fun i hi hc => h.live i hi fun hc' => hc ((closed_mem_set hk hclosed i).mpr hc')
      ended := fun i hc => h.ended i ((closed_mem_set hk hclosed i).mp hc)
      owned := fun e he => h.owned e (hsub e he)
      queues := by
        intro x hx
        obtain ⟨hx, hne⟩ := mem_filter.mp hx
        have hne : x ≠ ref := by simpa using hne
        show ((s.registry.unbind ref).snapshot x).isSome
        rw [snapshot_unbind h.registry, if_neg hne]
        exact h.queues x hx
      records := by
        intro u hu
        obtain ⟨horigin, hrec⟩ := h.records u hu
        refine ⟨horigin, ?_⟩
        by_cases hur : u.ref = ref
        · exact .inr ⟨t', mem_set_self hk _, hur ▸ hbusy⟩
        · show ((s.registry.unbind ref).snapshot u.ref).isSome ∨ _
          rw [snapshot_unbind h.registry, if_neg hur]
          exact hrec.imp_right (handled_set hk hnone)
      ok := by
        intro u hu
        rcases mem_set_cases hu with rfl | hu
        · exact hok
        · exact (h.ok u hu).mono (fun _ hi => hi) (fun _ hp => hp)
            fun e he => .inl ⟨e, hsub e he, rfl, rfl⟩
      closers := h.closers_set hk hcloser
      flight := h.flight_set hk (fun i hc => absurd hc (hopen' i)) (by simp [hin])
        (fun i hi => .inl (hsweeps ▸ hi)) }

theorem beginSync_threads (s : System) (ref : SessionRef) :
    (s.beginSync ref).threads = s.threads := by
  unfold System.beginSync
  split_ifs <;> rfl

theorem registered_unique {i' : EdgeInstance} (h : s.registered i) (h' : s.registered i')
    (hedge : i.edgeID = i'.edgeID) : i = i' := by
  obtain ⟨id, g⟩ := i
  obtain ⟨id', g'⟩ := i'
  obtain rfl : id = id' := hedge
  have hg : g = g' := some.inj (h.symm.trans h')
  rw [hg]

section
variable (h : s.Inv)
include h

/-- A session is bound through an incarnation that nobody is closing. -/
theorem System.Inv.bind (ht : .binding i ref ∈ s.threads) {registry : Registry}
    (hb : s.registry.bind ref i.edgeID = .ok registry) :
    Inv { s with registry := registry } ∧ (registry.snapshot ref).isSome := by
  obtain ⟨hlink, horigin⟩ := h.ok _ ht
  have hopen : .closed i ∉ s.threads := fun hc => (h.flight _ ht _ hc i rfl).2 rfl
  rcases (bind_ok hb).2 with ⟨rfl, e, he⟩ | ⟨hfree, rfl⟩
  · exact ⟨h, isSome_iff_exists.mpr ⟨e, he⟩⟩
  · have hnone : s.registry.snapshot ref = none := by
      rw [Registry.snapshot, hfree]
      rfl
    have hsnap : ∀ x, (s.registry.snapshot x).isSome → (Registry.snapshot
        { s.registry with sessions := ⟨ref, i.edgeID, .syncing, false⟩ :: s.registry.sessions }
          x).isSome := by
      intro x hx
      obtain ⟨e, he⟩ := isSome_iff_exists.mp hx
      exact isSome_iff_exists.mpr ⟨e, snapshot_bind_of_some hb he⟩
    refine ⟨{ h with
      registry := valid_bind h.registry hb hnone
      owned := ?_
      queues := fun x hx => hsnap x (h.queues x hx)
      records := fun u hu => ⟨(h.records u hu).1, (h.records u hu).2.imp_left (hsnap u.ref)⟩
      ok := ?_ }, ?_⟩
    · intro e he
      rcases mem_cons.mp he with rfl | he
      · exact ⟨i, horigin, rfl, h.live i hlink hopen⟩
      · exact h.owned e he
    · intro t ht'
      refine (h.ok t ht').mono (fun _ hi => hi) (fun _ hp => hp) fun e he => ?_
      rcases mem_cons.mp he with rfl | he
      · -- another incarnation of this edge cannot be there to be closed
        refine .inr fun i' hi' hedge => ?_
        have hlink' := (h.ok t ht').linked (Thread.closer_of_sweeps hi')
        have hreg' := h.live i' hlink'
          (h.not_closed ht' (Thread.closer_of_sweeps hi') (Thread.not_closed_of_sweeps hi'))
        obtain rfl := registered_unique (h.live i hlink hopen) hreg' hedge
        exact (h.flight _ ht t ht' i rfl).1 hi'
      · exact .inl ⟨e, he, rfl, rfl⟩
    · rw [snapshot_bind hb hnone, if_pos rfl]
      rfl

theorem System.Inv.beginSync (ref : SessionRef) : (s.beginSync ref).Inv := by
  unfold System.beginSync
  split_ifs with hc
  · refine { h with queues := fun x hx => ?_ }
    rcases mem_cons.mp hx with rfl | hx
    · show (s.registry.snapshot x).isSome
      cases hs : s.registry.snapshot x with
      | none => simp [hs] at hc
      | some e => rfl
    · exact h.queues x hx
  · exact h

theorem System.Inv.add_none {u : User} {users : UserManager}
    (ha : s.users.add u = (users, none)) : Inv { s with users := users } := by
  obtain ⟨hby, hgen⟩ := same_of_add ha
  exact { h with
    users := valid_add h.users ha
    born := fun ref i hr => (h.born ref i hr).trans_eq hgen.symm
    records := fun v hv => h.records v (hby ▸ hv) }

theorem System.Inv.add {k : ℕ} {u stored : User} {users : UserManager}
    (hk : s.threads[k]? = some (.adding i u)) (ha : s.users.add u = (users, some stored)) :
    Inv { s with
      users := users
      origin := (stored.ref, i) :: s.origin
      threads := s.threads.set k (.binding i stored.ref) } := by
  obtain ⟨hgen, hgen'⟩ := generation_of_add ha
  have hby := bySession_of_add ha
  have hnew : ∀ i, (stored.ref, i) ∉ s.origin := by
    intro i hi
    have hle : stored.sessionGeneration ≤ s.users.generation := h.born _ i hi
    omega
  have hclosed : ∀ i', Thread.binding i stored.ref = .closed i' ↔ Thread.adding i u = .closed i' := by
    simp
  have hlink : i ∈ s.links := h.ok _ (mem_of_getElem? hk)
  exact { h with
    users := valid_add h.users ha
    live := fun i hi hc => h.live i hi fun hc' => hc ((closed_mem_set hk hclosed i).mpr hc')
    ended := fun i hc => h.ended i ((closed_mem_set hk hclosed i).mp hc)
    born := by
      intro ref i hr
      show ref.generation ≤ users.generation
      rw [hgen']
      rcases mem_cons.mp hr with hr | hr
      · obtain ⟨rfl, rfl⟩ := Prod.mk.inj hr
        exact hgen.le
      · exact Nat.le_succ_of_le (h.born ref i hr)
    origin := by
      intro ref i₁ i₂ h₁ h₂
      rcases mem_cons.mp h₁ with h₁ | h₁ <;> rcases mem_cons.mp h₂ with h₂ | h₂
      · exact (Prod.mk.inj h₁).2.trans (Prod.mk.inj h₂).2.symm
      · rw [(Prod.mk.inj h₁).1] at h₂
        exact absurd h₂ (hnew i₂)
      · rw [(Prod.mk.inj h₂).1] at h₁
        exact absurd h₁ (hnew i₁)
      · exact h.origin ref i₁ i₂ h₁ h₂
    owned := by
      intro e he
      obtain ⟨i', hi', hrest⟩ := h.owned e he
      exact ⟨i', mem_cons_of_mem _ hi', hrest⟩
    records := by
      intro v hv
      have hv' : v ∈ stored :: s.users.bySession := hby ▸ hv
      rcases mem_cons.mp hv' with rfl | hv'
      · exact ⟨⟨i, mem_cons_self ..⟩, .inr ⟨_, mem_set_self hk _, rfl⟩⟩
      · obtain ⟨⟨i', hi'⟩, hrec⟩ := h.records v hv'
        exact ⟨⟨i', mem_cons_of_mem _ hi'⟩, hrec.imp_right (handled_set hk rfl)⟩
    ok := by
      intro t ht
      rcases mem_set_cases ht with rfl | ht
      · exact ⟨hlink, mem_cons_self ..⟩
      · exact (h.ok t ht).mono (fun _ hi => hi) (fun _ hp => mem_cons_of_mem _ hp)
          fun e he => .inl ⟨e, he, rfl, rfl⟩
    closers := h.closers_set hk rfl
    flight := h.flight_set hk (by simp) (fun _ hi => .inl hi) (by simp [Thread.sweeps]) }

theorem System.Inv.drop {k : ℕ} (hk : s.threads[k]? = some (.dropping i)) :
    Inv { s with
      registry := s.registry.removeEdge i
      threads := s.threads.set k (.closed i) } := by
  have htmem := mem_of_getElem? hk
  obtain ⟨hlink, hleft, -⟩ := h.ok _ htmem
  have hopen := h.not_closed htmem rfl (by simp)
  have hreg : s.registered i := h.live i hlink hopen
  -- nothing of it is left
  have hremove : s.registry.removeEdge i =
      { s.registry with edges := AssocList.delete s.registry.edges i.edgeID } := by
    rw [removeEdge_registered hreg]
    congr 1
    refine filter_eq_self.mpr fun e he => ?_
    simpa using fun hedge => absurd (hleft e he hedge) not_mem_nil
  have hedges := AssocList.lookup_delete s.registry.edges i.edgeID
  rw [hremove]
  exact { h with
    live := by
      intro i' hi' hc
      have hopen' : .closed i' ∉ s.threads := fun hc' => hc (mem_set_of_ne hk hc' (by simp) _)
      have hedge : i'.edgeID ≠ i.edgeID := by
        intro he
        obtain rfl := registered_unique (h.live i' hi' hopen') hreg he
        exact hc (mem_set_self hk _)
      exact (hedges _).trans ((if_neg hedge).trans (h.live i' hi' hopen'))
    ended := by
      intro i' hc hr'
      have hr' := (hedges i'.edgeID).symm.trans hr'
      split_ifs at hr' with hedge
      rcases mem_set_cases hc with hc | hc
      · cases hc
        exact hedge rfl
      · exact h.ended i' hc hr'
    owned := by
      intro e he
      obtain ⟨i', hi', hedge, hreg'⟩ := h.owned e he
      refine ⟨i', hi', hedge, (hedges _).trans ((if_neg fun hi => ?_).trans hreg')⟩
      exact absurd (hleft e he (hedge.symm.trans hi)) not_mem_nil
    records := by
      intro u hu
      obtain ⟨horigin, hrec⟩ := h.records u hu
      exact ⟨horigin, hrec.imp_right (handled_set hk rfl)⟩
    ok := by
      intro t ht
      rcases mem_set_cases ht with rfl | ht
      · exact hlink
      · exact (h.ok t ht).mono (fun _ hi => hi) (fun _ hp => hp)
          fun e he => .inl ⟨e, he, rfl, rfl⟩
    closers := h.closers_set hk rfl
    flight := h.flight_set hk (by simp [Thread.sweeps]) (by simp [Thread.inflight])
      (by simp [Thread.sweeps]) }

theorem System.Inv.hello (edge : String) : (s.hello edge).Inv := by
  have hle : ∀ id, s.nextGen id ≤ Function.update s.nextGen edge (s.nextGen edge + 1) id := by
    intro id
    rw [Function.update_apply]
    split_ifs with hid
    · rw [hid]
      exact Nat.le_succ _
    · exact Nat.le_refl _
  have hnew : ∀ i, i ∈ s.hellos ∨ i ∈ s.links → i ≠ ⟨edge, s.nextGen edge + 1⟩ := by
    rintro i hi rfl
    exact absurd (h.bounded _ hi) (Nat.not_succ_le_self _)
  exact { h with
    hellos := nodup_cons.mpr ⟨fun hm => hnew _ (.inl hm) rfl, h.hellos⟩
    fresh := by
      intro i hi hl
      rcases mem_cons.mp hi with rfl | hi
      · exact hnew _ (.inr hl) rfl
      · exact h.fresh i hi hl
    bounded := by
      intro i hi
      have hcases : i = ⟨edge, s.nextGen edge + 1⟩ ∨ i ∈ s.hellos ∨ i ∈ s.links := by
        rcases hi with hi | hi
        · exact (mem_cons.mp hi).imp_right .inl
        · exact .inr (.inr hi)
      rcases hcases with rfl | hi
      · show _ ≤ Function.update s.nextGen edge (s.nextGen edge + 1) edge
        rw [Function.update_self]
      · exact (h.bounded i hi).trans (hle i.edgeID) }

theorem System.Inv.forget (i : EdgeInstance) : Inv { s with hellos := s.hellos.erase i } where
  __ := h
  hellos := h.hellos.erase i
  fresh i' hi' := h.fresh i' (mem_of_mem_erase hi')
  bounded i' hi' := h.bounded i' (hi'.imp_left mem_of_mem_erase)

/-- A link is registered, or refused because the edge has one already. -/
theorem System.Inv.register (i : EdgeInstance) : (s.register i).Inv := by
  unfold System.register
  split_ifs with hi
  · cases hr : s.registry.registerEdge i with
    | error err => exact h.forget i
    | ok registry =>
      obtain ⟨hsessions, hedges, hsame⟩ := registerEdge_ok hr
      obtain ⟨edges, sessions⟩ := registry
      obtain rfl : sessions = s.registry.sessions := hsessions
      have hreg : ∀ i', Registry.edgeGeneration ⟨edges, s.registry.sessions⟩ i'.edgeID =
          some i'.generation ↔ i' = i ∨ s.registered i' := by
        rintro ⟨id, g⟩
        obtain ⟨id₀, g₀⟩ := i
        dsimp only at hedges hsame ⊢
        unfold registered
        rw [hedges]
        split_ifs with hid
        · subst hid
          constructor
          · intro hg
            rw [some.inj hg]
            exact .inl rfl
          · rintro (heq | hg)
            · rw [(EdgeInstance.mk.inj heq).2]
            · rw [hsame g hg]
        · simp [hid]
      have hforget := h.forget i
      exact { hforget with
        fresh := by
          intro i' hi' hl
          rcases mem_cons.mp hl with rfl | hl
          · exact h.hellos.not_mem_erase hi'
          · exact hforget.fresh i' hi' hl
        bounded := by
          intro i' hi'
          rcases hi' with hi' | hi'
          · exact hforget.bounded i' (.inl hi')
          · rcases mem_cons.mp hi' with rfl | hi'
            · exact h.bounded _ (.inl hi)
            · exact hforget.bounded i' (.inr hi')
        live := by
          intro i' hi' hc
          refine (hreg i').mpr ?_
          exact (mem_cons.mp hi').imp_right fun hl => h.live i' hl hc
        ended := by
          intro i' hc hr'
          rcases (hreg i').mp hr' with rfl | hr'
          · exact h.fresh _ hi (h.ok _ hc)
          · exact h.ended i' hc hr'
        owned := by
          intro e he
          obtain ⟨i', hi', hedge, hr'⟩ := h.owned e he
          exact ⟨i', hi', hedge, (hreg i').mpr (.inr hr')⟩
        ok := by
          intro t ht
          exact (h.ok t ht).mono (fun _ hl => mem_cons_of_mem _ hl) (fun _ hp => hp)
            fun e he => .inl ⟨e, he, rfl, rfl⟩ }
  · exact h

theorem System.Inv.spawn (hok : t.Ok s) (hin : t.inflight = none)
    (hsweeps : t.sweeps = none) (hclosed : ∀ i, t ≠ .closed i)
    (hcloser : ∀ i, t.closer = some i → ∀ u ∈ s.threads, u.closer ≠ some i) : (s.spawn t).Inv := by
  have hold : ∀ u ∈ s.threads ++ [t], u ∈ s.threads ∨ u = t := by simp
  have hclosed' : ∀ i, .closed i ∈ s.threads ++ [t] ↔ .closed i ∈ s.threads := by
    intro i
    simp [Ne.symm (hclosed i)]
  exact { h with
    live := fun i hi hc => h.live i hi fun hc' => hc ((hclosed' i).mpr hc')
    ended := fun i hc => h.ended i ((hclosed' i).mp hc)
    records := by
      intro u hu
      obtain ⟨horigin, hrec⟩ := h.records u hu
      refine ⟨horigin, hrec.imp_right ?_⟩
      rintro ⟨w, hw, hwh⟩
      exact ⟨w, mem_append_left _ hw, hwh⟩
    ok := by
      intro u hu
      rcases hold u hu with hu | rfl
      · exact h.ok u hu
      · exact hok
    closers := by
      intro j j' u u' i hj hj' hu hu'
      rcases getElem?_concat_cases hj with ⟨hl, ht⟩ | ho <;>
        rcases getElem?_concat_cases hj' with ⟨hl', ht'⟩ | ho'
      · exact hl.trans hl'.symm
      · exact absurd hu' (hcloser i (ht ▸ hu) u' (mem_of_getElem? ho'))
      · exact absurd hu (hcloser i (ht' ▸ hu') u (mem_of_getElem? ho))
      · exact h.closers j j' u u' i ho ho' hu hu'
    flight := by
      intro u hu u' hu' i hi
      rcases hold u hu with hum | rfl
      · rcases hold u' hu' with hum' | rfl
        · exact h.flight u hum u' hum' i hi
        · exact ⟨by simp [hsweeps], hclosed i⟩
      · rw [hin] at hi
        cases hi }

theorem System.Inv.abort (ref : SessionRef) : (s.step (.abort ref)).Inv where
  __ := h
  queues x hx := h.queues x (mem_filter.mp hx).1

theorem System.Inv.commit (ref : SessionRef) : (s.commit ref).Inv := by
  unfold System.commit
  cases hc : s.registry.commitActive ref with
  | error err => exact h
  | ok registry =>
    obtain ⟨rfl, -⟩ := commitActive_spec hc
    have hpre : ∀ e ∈ (s.registry.modify ref fun e => { e with state := .active }).sessions,
        ∃ e' ∈ s.registry.sessions, e'.ref = e.ref ∧ e'.edge = e.edge := by
      intro e he
      obtain ⟨e', he', rfl⟩ := mem_map.mp he
      refine ⟨e', he', ?_⟩
      split_ifs with hr
      · exact ⟨hr, rfl⟩
      · exact ⟨rfl, rfl⟩
    have hsnap : ∀ x, ((s.registry.modify ref fun e => { e with state := .active }).snapshot
        x).isSome = (s.registry.snapshot x).isSome := by
      intro x
      rw [snapshot_modify]
      split_ifs <;> simp
    exact { h with
      registry := valid_modify h.registry ref _
      owned := by
        intro e he
        obtain ⟨e', he', hr, hedge⟩ := hpre e he
        obtain ⟨i, hi, hi', hreg⟩ := h.owned e' he'
        exact ⟨i, hr ▸ hi, hi'.trans hedge, hreg⟩
      queues := fun x hx => (hsnap x).trans (h.queues x hx)
      records := by
        intro u hu
        obtain ⟨horigin, hrec⟩ := h.records u hu
        exact ⟨horigin, hrec.imp_left fun hsome => (hsnap u.ref).trans hsome⟩
      ok := fun t ht => (h.ok t ht).mono (fun _ hi => hi) (fun _ hp => hp)
        fun e he => .inl (hpre e he) }

end

end accesses

/-! ### Runs -/

section steps
variable {s : System} {k : ℕ} {t t' : Thread}

/-- A goroutine that neither authenticates nor closes anything goes on like that. -/
structure Thread.Idle (t : Thread) : Prop where
  inflight : t.inflight = none
  sweeps : t.sweeps = none
  closer : t.closer = none

theorem Thread.Idle.not_closed (h : t.Idle) (i : EdgeInstance) : t ≠ .closed i := by
  rintro rfl
  cases h.closer

theorem System.Inv.idle (h : s.Inv) (hk : s.threads[k]? = some t) (ht : t.closer = none)
    (ht' : t'.Idle) (hok : t'.Ok s)
    (hhandles : ∀ ref, t.handles = some ref → t'.handles = some ref ∨
      (s.registry.snapshot ref).isSome ∨ ∀ u ∈ s.users.bySession, u.ref ≠ ref) :
    Inv { s with threads := s.threads.set k t' } := by
  refine h.move hk hok (ht'.closer.trans ht.symm) (fun i => ?_) ?_ ?_ hhandles
  · constructor
    · exact fun hc => absurd hc (ht'.not_closed i)
    · rintro rfl
      cases ht
  · simp [ht'.inflight]
  · simp [ht'.sweeps]

theorem Thread.idle_returned : Thread.returned.Idle := ⟨rfl, rfl, rfl⟩

theorem System.Inv.finish (h : s.Inv) (hk : s.threads[k]? = some t) (ht : t.closer = none)
    (hnone : t.handles = none) : Inv { s with threads := s.threads.set k .returned } :=
  h.idle hk ht Thread.idle_returned trivial (by simp [hnone])

/-- The sessions of an incarnation are those of its edge. -/
theorem System.Inv.left {i : EdgeInstance} (h : s.Inv) (hlink : i ∈ s.links)
    (hopen : .closed i ∉ s.threads) : s.Left i (s.registry.sessionsForEdge i) := by
  have hreg : s.registered i := h.live i hlink hopen
  have hfor : s.registry.sessionsForEdge i =
      (s.registry.sessions.filter fun e => decide (e.edge = i.edgeID)).map Entry.ref := if_pos hreg
  rw [hfor]
  constructor
  · intro e he hedge
    exact mem_map_of_mem (mem_filter.mpr ⟨he, by simpa using hedge⟩)
  · intro ref hr
    obtain ⟨e, he, rfl⟩ := mem_map.mp hr
    obtain ⟨he, hedge⟩ := mem_filter.mp he
    have hedge : e.edge = i.edgeID := by simpa using hedge
    obtain ⟨i', hi', hedge', hreg'⟩ := h.owned e he
    rwa [registered_unique hreg' hreg (hedge'.trans hedge)] at hi'

attribute [local simp] Thread.handles Thread.sweeps Thread.inflight System.advance

/-- The system after a step of its goroutine `k`. -/
def System.goOn (s : System) (k : ℕ) (answer : Option User) (t : Thread) : System :=
  { (s.advance answer t).1 with threads := s.threads.set k (s.advance answer t).2 }

section goroutine
variable {i : EdgeInstance} {ref : SessionRef} {refs : List SessionRef} {answer : Option User}
variable (h : s.Inv)
include h

theorem System.Inv.checking (hk : s.threads[k]? = some (.checking i)) (hgo : s.MayGo (.checking i)) :
    (s.goOn k answer (.checking i)).Inv := by
  have hok := h.ok _ (mem_of_getElem? hk)
  unfold System.goOn
  by_cases hreg : s.registered i
  · simp only [advance, if_pos hreg]
    refine h.move hk hok rfl (by simp) (fun i' hi' => ?_) (by simp) (by simp)
    obtain rfl := some.inj hi'
    refine .inr fun u hu => ⟨hgo u hu, ?_⟩
    rintro rfl
    exact h.ended _ hu hreg
  · simp only [advance, if_neg hreg]
    exact h.finish hk rfl rfl

theorem System.Inv.binding (hk : s.threads[k]? = some (.binding i ref)) :
    (s.goOn k answer (.binding i ref)).Inv := by
  have hok := h.ok _ (mem_of_getElem? hk)
  unfold System.goOn
  cases hb : s.registry.bind ref i.edgeID with
  | ok registry =>
    obtain ⟨hinv, hsome⟩ := h.bind (mem_of_getElem? hk) hb
    simp only [advance, hb]
    refine hinv.idle hk rfl Thread.idle_returned trivial fun x hx => .inr (.inl ?_)
    obtain rfl := some.inj hx
    exact hsome
  | error err =>
    simp only [advance, hb]
    exact h.move hk hok rfl (by simp) (fun _ hi => .inl hi) (by simp) (fun _ hx => .inl hx)

theorem System.Inv.closing (hk : s.threads[k]? = some (.closing i)) (hgo : s.MayGo (.closing i)) :
    (s.goOn k answer (.closing i)).Inv := by
  have htmem := mem_of_getElem? hk
  have hok := h.ok _ htmem
  refine h.move hk ⟨hok, h.left hok (h.not_closed htmem rfl (by simp))⟩ rfl (by simp)
    (by simp) (fun i' hi' => ?_) (by simp)
  obtain rfl := some.inj hi'
  exact .inr hgo

theorem System.Inv.sweeping (hk : s.threads[k]? = some (.sweeping i refs)) :
    (s.goOn k answer (.sweeping i refs)).Inv := by
  have hok := h.ok _ (mem_of_getElem? hk)
  cases refs with
  | nil => exact h.move hk hok rfl (by simp) (by simp) (fun _ hi => .inl hi) (by simp)
  | cons ref refs =>
    obtain ⟨hlink, hleft, hrefs⟩ := hok
    have hlinks : (s.unregister ref).links = s.links ∧
        (s.unregister ref).origin = s.origin := by
      rcases unregister_eq s ref with heq | heq <;> rw [heq] <;> exact ⟨rfl, rfl⟩
    refine h.unregister hk rfl rfl ⟨?_, ?_, ?_, ?_⟩ rfl (by simp) rfl rfl
    · rw [hlinks.1]
      exact hlink
    · rw [hlinks.2]
      exact hrefs ref (mem_cons_self ..)
    · intro e he hedge
      obtain ⟨he, hne⟩ := h.mem_unregister he
      exact (mem_cons.mp (hleft e he hedge)).resolve_left hne
    · intro r hr
      rw [hlinks.2]
      exact hrefs r (mem_cons_of_mem _ hr)

theorem System.Inv.sweepRemoving (hk : s.threads[k]? = some (.sweepRemoving i ref refs)) :
    (s.goOn k answer (.sweepRemoving i ref refs)).Inv := by
  obtain ⟨hlink, -, hleft⟩ := h.ok _ (mem_of_getElem? hk)
  refine (h.removeUser ref).move hk ⟨hlink, hleft⟩ rfl (by simp) (by simp)
    (fun _ hi => .inl hi) fun x hx => .inr (.inr ?_)
  obtain rfl := some.inj hx
  exact removeUser_gone h _

end goroutine

/-- **A step of a goroutine keeps the invariant**, if closing and authenticating stay apart. -/
theorem System.Inv.advance (h : s.Inv) (hk : s.threads[k]? = some t) (hgo : s.MayGo t)
    (answer : Option User) : (s.goOn k answer t).Inv := by
  have hok := h.ok t (mem_of_getElem? hk)
  cases t with
  | checking i => exact h.checking hk hgo
  | binding i ref => exact h.binding hk
  | closing i => exact h.closing hk hgo
  | sweeping i refs => exact h.sweeping hk
  | sweepRemoving i ref refs => exact h.sweepRemoving hk
  | asking i =>
    cases answer with
    | none => exact h.finish hk rfl rfl
    | some u => exact h.move hk hok rfl (by simp) (fun _ hi => .inl hi) (by simp) (by simp)
  | adding i u =>
    rcases ha : s.users.add u with ⟨users, _ | stored⟩ <;> simp only [goOn, advance, ha]
    · exact (h.add_none ha).finish hk rfl rfl
    · exact h.add hk ha
  | readying i ref | owning i ref | loading ref =>
    simp only [goOn, advance]
    split_ifs
    · exact h.idle hk rfl ⟨rfl, rfl, rfl⟩ trivial (by simp)
    · exact h.finish hk rfl rfl
  | syncing ref =>
    unfold goOn
    rw [← beginSync_threads s ref] at hk ⊢
    exact (h.beginSync ref).finish hk rfl rfl
  | unregistering ref => exact h.unregister hk rfl rfl trivial rfl (by simp) rfl rfl
  | undoing i ref | removing ref =>
    refine (h.removeUser ref).idle hk rfl Thread.idle_returned trivial fun x hx => .inr (.inr ?_)
    obtain rfl := some.inj hx
    exact removeUser_gone h _
  | dropping i => exact h.drop hk
  | closed i => exact h.move hk hok rfl (by simp) (by simp) (by simp) (by simp)
  | returned => exact h.finish hk rfl rfl

theorem System.Inv.step (h : s.Inv) (e : Event) (ha : Apart s e) : (s.step e).Inv := by
  cases e with
  | hello edge => exact h.hello edge
  | register i => exact h.register i
  | authenticate i =>
    simp only [System.step]
    split_ifs with hi
    · exact h.spawn hi rfl rfl (by simp) (by simp [Thread.closer])
    · exact h
  | ready i ref =>
    simp only [System.step]
    split_ifs
    · exact h.spawn trivial rfl rfl (by simp) (by simp [Thread.closer])
    · exact h
  | clean ref => exact h.spawn trivial rfl rfl (by simp) (by simp [Thread.closer])
  | abort ref => exact h.abort ref
  | commit ref => exact h.commit ref
  | close i =>
    simp only [System.step]
    split_ifs with hi
    · refine h.spawn hi.1 rfl rfl (by simp) fun i' hi' => ?_
      obtain rfl := some.inj hi'
      exact hi.2
    · exact h
  | step k answer =>
    simp only [System.step]
    cases hk : s.threads[k]? with
    | none => exact h
    | some t => exact h.advance hk (ha t hk) answer

theorem System.Inv.gone (h : s.Inv) : s.Gone := by
  intro ref i horigin hclosed
  have hentry : ∀ e ∈ s.registry.sessions, e.ref ≠ ref := by
    rintro e he rfl
    obtain ⟨i', hi', -, hreg⟩ := h.owned e he
    rw [h.origin e.ref i' i hi' horigin] at hreg
    exact h.ended i hclosed hreg
  have hsnap : s.registry.snapshot ref = none := by
    cases hs : s.registry.snapshot ref with
    | none => rfl
    | some e =>
      obtain ⟨he, hr⟩ := mem_of_snapshot hs
      exact absurd hr (hentry e he)
  refine ⟨hentry, fun hq => ?_, ?_⟩
  · have hsome := h.queues ref hq
    rw [hsnap] at hsome
    cases hsome
  · rintro u hu rfl
    rcases (h.records u hu).2 with hsome | ⟨t, ht, hhandles⟩
    · rw [hsnap] at hsome
      cases hsome
    · -- who is busy with the record is neither authenticating nor closing
      have hok := h.ok t ht
      cases t with
      | binding i' ref | undoing i' ref =>
        obtain rfl := some.inj hhandles
        rw [h.origin _ i' i hok.2 horigin] at ht
        exact absurd rfl (h.flight _ ht _ hclosed i rfl).2
      | removing ref =>
        obtain rfl := some.inj hhandles
        exact ht
      | sweepRemoving i' ref refs =>
        obtain rfl := some.inj hhandles
        rw [h.origin _ i' i hok.2.1 horigin] at ht
        exact absurd hclosed (h.not_closed ht rfl (by simp))
      | _ => cases hhandles

end steps

attribute [local simp] System.start

theorem System.Inv.start (maxUsers : ℕ) : (start maxUsers).Inv where
  users := valid_new maxUsers
  registry := nodup_nil
  hellos := nodup_nil
  fresh := by simp
  bounded := by simp
  live := by simp
  ended := by simp
  born := by simp
  origin := by simp
  owned := by simp [Owned]
  queues := by simp
  records := by simp [UserManager.new]
  ok := by simp
  closers := by simp
  flight := by simp

/-- **Incarnations are kept apart**: in every run in which closing an incarnation does not overlap
with authenticating through it, sessions are bound to the incarnation that authenticated them, and
one that has finished closing has left nothing behind. -/
theorem incarnations_apart (maxUsers : ℕ) (es : List Event)
    (h : Along System.step Apart (System.start maxUsers) es) :
    (run System.step (System.start maxUsers) es).Owned ∧
      (run System.step (System.start maxUsers) es).Gone := by
  have hstep : ∀ s e, System.Inv s → Apart s e → (System.step s e).Inv := fun _ e hs ha => hs.step e ha
  have hinv := run_inv hstep (System.Inv.start maxUsers) h
  exact ⟨hinv.owned, hinv.gone⟩

def client (name : String) : User := ⟨⟨7, 0, false, "", false, false, 0, 0, [], []⟩, 0, 0, 0, name⟩

/-- A client is authenticated and synced, the link is lost, and the edge connects again. -/
def reconnect : List Event :=
  [.hello "edge", .register ⟨"edge", 1⟩, .authenticate ⟨"edge", 1⟩, .step 0 none,
    .step 0 (some (client "alice")), .step 0 none, .step 0 none, .ready ⟨"edge", 1⟩ ⟨1, 1⟩,
    .step 1 none, .step 1 none, .step 1 none, .step 1 none, .close ⟨"edge", 1⟩, .step 2 none,
    .step 2 none, .step 2 none, .step 2 none, .step 2 none, .hello "edge", .register ⟨"edge", 2⟩]

theorem incarnations_apart_reconnect :
    Along System.step Apart (System.start 10) reconnect ∧
    (run System.step (System.start 10) reconnect).origin = [(⟨1, 1⟩, ⟨"edge", 1⟩)] ∧
    .closed ⟨"edge", 1⟩ ∈ (run System.step (System.start 10) reconnect).threads ∧
    (run System.step (System.start 10) reconnect).Owned ∧
    (run System.step (System.start 10) reconnect).Gone :=
  have h : Along System.step Apart (System.start 10) reconnect := by decide +kernel
  ⟨h, by decide +kernel, by decide +kernel, incarnations_apart 10 reconnect h⟩

/-- The identity authority answers after the link was lost and the edge has connected again. -/
def lateAnswer : List Event :=
  [.hello "edge", .register ⟨"edge", 1⟩, .authenticate ⟨"edge", 1⟩, .step 0 none,
    .close ⟨"edge", 1⟩, .step 1 none, .step 1 none, .step 1 none, .hello "edge",
    .register ⟨"edge", 2⟩, .step 0 (some (client "alice")), .step 0 none, .step 0 none]

/-- It answers after `close` has asked for the sessions, and the session is bound before the edge is
removed. -/
def answerInBetween : List Event :=
  [.hello "edge", .register ⟨"edge", 1⟩, .authenticate ⟨"edge", 1⟩, .step 0 none,
    .close ⟨"edge", 1⟩, .step 1 none, .step 0 (some (client "alice")), .step 0 none, .step 0 none,
    .step 1 none, .step 1 none]

/-- The session is bound to the new incarnation though the old one authenticated it; or its user
stays though nothing else of it is there. -/
theorem late_answer_misplaced :
    ¬(run System.step (System.start 10) lateAnswer).Owned ∧
    ¬(run System.step (System.start 10) lateAnswer).Gone ∧
    ¬(run System.step (System.start 10) answerInBetween).Gone := by
  refine ⟨fun h => ?_, fun h => ?_, fun h => ?_⟩
  · obtain ⟨i, hi, -, hreg⟩ := h ⟨⟨1, 1⟩, "edge", .syncing, false⟩ (by decide +kernel)
    have horigin : (run System.step (System.start 10) lateAnswer).origin =
        [(⟨1, 1⟩, ⟨"edge", 1⟩)] := by decide +kernel
    rw [horigin, mem_singleton] at hi
    rw [(Prod.mk.inj hi).2] at hreg
    exact absurd hreg (by decide +kernel)
  · exact (h ⟨1, 1⟩ ⟨"edge", 1⟩ (by decide +kernel) (by decide +kernel)).1
      ⟨⟨1, 1⟩, "edge", .syncing, false⟩ (by decide +kernel) rfl
  · have hremoving := (h ⟨1, 1⟩ ⟨"edge", 1⟩ (by decide +kernel) (by decide +kernel)).2.2
      { client "alice" with sessionID := 1, sessionGeneration := 1, authorizationRevision := 1 }
      (by decide +kernel) rfl
    exact absurd hremoving (by decide +kernel)

end MumbleServer.EdgeIncarnation
