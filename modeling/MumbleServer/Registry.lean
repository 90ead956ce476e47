import MumbleServer.UserManager

/-! # The session registry

`internal/cluster/registry.go`: where each live session is and which state of its life it is
in.  A session is bound in state Syncing, becomes Active when its initial sync is committed,
Closing when it is told to go, and leaves the registry when it is unbound (the state Closed of
the source is only ever that of an entry that is no longer in the map).

The operations that the source runs under the transition lock of an entry are single functions
here; what happens between two of them is the business of the modules that use them.  Session IDs
are bound once (`Registry.Valid`). -/

namespace MumbleServer

open List

def SessionRef.valid (ref : SessionRef) : Bool := decide (ref.sessionID ≠ 0 ∧ ref.generation ≠ 0)

inductive SessionState
  | syncing
  | active
  | closing
deriving DecidableEq

/-- `entry`, and `SessionSnapshot`. -/
structure Entry where
  ref : SessionRef
  edge : String
  state : SessionState
  announced : Bool
deriving DecidableEq

/-- `cluster.EdgeInstanceRef`: an edge and which of its connections this is. -/
structure EdgeInstance where
  edgeID : String
  generation : ℕ
deriving DecidableEq

inductive RegistryError
  | invalidSession
  | edgeNotFound
  | sessionBound
  | staleSession
  | invalidState
deriving DecidableEq

structure Registry where
  edges : List (String × ℕ)
  sessions : List Entry
deriving DecidableEq

namespace Registry

def edgeGeneration (r : Registry) (id : String) : Option ℕ := r.edges.lookup id

/-- `r.sessions[sid]`. -/
def entry (r : Registry) (sid : ℕ) : Option Entry :=
  r.sessions.find? (fun e => decide (e.ref.sessionID = sid))

/-- `Snapshot`: the entry of exactly this generation. -/
def snapshot (r : Registry) (ref : SessionRef) : Option Entry :=
  (r.entry ref.sessionID).filter (fun e => decide (e.ref = ref))

def ref (r : Registry) (sid : ℕ) : Option SessionRef := (r.entry sid).map Entry.ref

def active (r : Registry) (ref : SessionRef) : Bool :=
  (r.snapshot ref).any (fun e => decide (e.state = .active))

def sessionsForEdge (r : Registry) (i : EdgeInstance) : List SessionRef :=
  if r.edgeGeneration i.edgeID = some i.generation then
    (r.sessions.filter (fun e => decide (e.edge = i.edgeID))).map Entry.ref
  else []

def bind (r : Registry) (ref : SessionRef) (edge : String) : Except RegistryError Registry :=
  if ref.valid = false then .error .invalidSession
  else if r.edgeGeneration edge = none then .error .edgeNotFound
  else
    match r.entry ref.sessionID with
    | some old => if old.ref = ref ∧ old.edge = edge then .ok r else .error .sessionBound
    | none => .ok { r with sessions := ⟨ref, edge, .syncing, false⟩ :: r.sessions }

def modify (r : Registry) (ref : SessionRef) (f : Entry → Entry) : Registry :=
  { r with sessions := r.sessions.map (fun e => if e.ref = ref then { f e with ref := ref } else e) }

def commitActive (r : Registry) (ref : SessionRef) : Except RegistryError Registry :=
  match r.snapshot ref with
  | none => .error .staleSession
  | some e =>
    if e.state = .syncing then .ok (r.modify ref (fun e => { e with state := .active }))
    else .error .invalidState

/-- `beginClose`: a session that is already closing counts as not announced, so that its removal
is announced once. -/
def beginClose (r : Registry) (ref : SessionRef) : Except RegistryError (Registry × Entry) :=
  match r.snapshot ref with
  | none => .error .staleSession
  | some e =>
    if e.state = .closing then .ok (r, { e with announced := false })
    else
      .ok (r.modify ref (fun e => { e with state := .closing }), { e with state := .closing })

def unbind (r : Registry) (ref : SessionRef) : Registry :=
  { r with sessions := r.sessions.filter (fun e => decide (e.ref ≠ ref)) }

/-- `CloseAndUnbind`: what the cleanup is told about the session. -/
def closeAndUnbind (r : Registry) (ref : SessionRef) : Except RegistryError (Registry × Entry) :=
  match r.snapshot ref with
  | none => .error .staleSession
  | some e =>
    .ok (r.unbind ref, if e.state = .closing then { e with announced := false } else e)

/-- `RegisterEdge`: an edge has one incarnation at a time. -/
def registerEdge (r : Registry) (i : EdgeInstance) : Except RegistryError Registry :=
  if i.edgeID = "" ∨ i.generation = 0 then .error .edgeNotFound
  else
    match r.edgeGeneration i.edgeID with
    | some current => if current = i.generation then .ok r else .error .sessionBound
    | none => .ok { r with edges := (i.edgeID, i.generation) :: r.edges }

def removeEdge (r : Registry) (i : EdgeInstance) : Registry :=
  if r.edgeGeneration i.edgeID = some i.generation then
    { edges := r.edges.filter (fun p => decide (p.1 ≠ i.edgeID))
      sessions := r.sessions.filter (fun e => decide (e.edge ≠ i.edgeID)) }
  else r

theorem registerEdge_ok {r r' : Registry} {i : EdgeInstance} (h : r.registerEdge i = .ok r') :
    r'.sessions = r.sessions ∧
    (∀ id, r'.edgeGeneration id = if id = i.edgeID then some i.generation else r.edgeGeneration id) ∧
    ∀ g, r.edgeGeneration i.edgeID = some g → g = i.generation := by
  unfold registerEdge at h
  split_ifs at h
  cases hg : r.edgeGeneration i.edgeID with
  | none =>
    rw [hg] at h
    obtain rfl := Except.ok.inj h
    refine ⟨rfl, fun id => ?_, by simp⟩
    unfold edgeGeneration
    rw [lookup_cons]
    by_cases hid : id = i.edgeID
    · simp [hid]
    · rw [beq_eq_false_iff_ne.mpr hid, if_neg hid]
  | some g =>
    rw [hg] at h
    simp only at h
    split_ifs at h with heq
    obtain rfl := Except.ok.inj h
    refine ⟨rfl, fun id => ?_, fun g' hg' => (Option.some.inj hg').symm.trans heq⟩
    split_ifs with hid
    · rw [hid, hg, heq]
    · rfl

theorem removeEdge_registered {r : Registry} {i : EdgeInstance}
    (h : r.edgeGeneration i.edgeID = some i.generation) : r.removeEdge i =
      { edges := r.edges.filter (fun p => decide (p.1 ≠ i.edgeID))
        sessions := r.sessions.filter (fun e => decide (e.edge ≠ i.edgeID)) } :=
  if_pos h

/-! ### Other sessions -/

section snapshot
variable {r : Registry} {ref other : SessionRef} {e : Entry}

theorem snapshot_eq_some :
    r.snapshot ref = some e ↔ r.entry ref.sessionID = some e ∧ e.ref = ref := by
  unfold snapshot
  rw [Option.filter_eq_some_iff]
  simp

theorem find?_filter_of_some {p q : Entry → Bool} {l : List Entry} (h : l.find? p = some e)
    (hq : q e = true) : (l.filter q).find? p = some e := by
  induction l with
  | nil => cases h
  | cons x l ih =>
    by_cases hx : p x = true
    · rw [find?_cons_of_pos hx] at h
      obtain rfl := Option.some.inj h
      rw [filter_cons_of_pos hq, find?_cons_of_pos hx]
    · rw [find?_cons_of_neg hx] at h
      by_cases hqx : q x = true
      · rw [filter_cons_of_pos hqx, find?_cons_of_neg hx]
        exact ih h
      · rw [filter_cons_of_neg hqx]
        exact ih h

theorem entry_modify (r : Registry) (ref : SessionRef) (f : Entry → Entry) (sid : ℕ) :
    (r.modify ref f).entry sid =
      (r.entry sid).map (fun e => if e.ref = ref then { f e with ref := ref } else e) := by
  unfold entry modify
  rw [find?_map]
  congr 2
  funext e
  by_cases he : e.ref = ref
  · simp [he]
  · simp [he]

theorem snapshot_modify (r : Registry) (ref : SessionRef) (f : Entry → Entry) (x : SessionRef) :
    (r.modify ref f).snapshot x =
      if x = ref then (r.snapshot x).map (fun e => { f e with ref := ref }) else r.snapshot x := by
  unfold snapshot
  rw [entry_modify]
  cases r.entry x.sessionID with
  | none => split_ifs <;> rfl
  | some e =>
    rw [Option.map_some]
    by_cases he : e.ref = ref
    · by_cases hx : x = ref
      · rw [if_pos he, if_pos hx]
        simp [Option.filter, he, hx]
      · have hxe : ¬ref = x := fun h => hx h.symm
        rw [if_pos he, if_neg hx]
        simp [Option.filter, he, hxe]
    · by_cases hx : x = ref
      · rw [if_neg he, if_pos hx]
        simp [Option.filter, he, hx]
      · rw [if_neg he, if_neg hx]

theorem snapshot_unbind_of_ne (hne : other ≠ ref) (h : r.snapshot other = some e) :
    (r.unbind ref).snapshot other = some e := by
  obtain ⟨he, hr⟩ := snapshot_eq_some.mp h
  refine snapshot_eq_some.mpr ⟨find?_filter_of_some he ?_, hr⟩
  rw [hr]
  exact decide_eq_true hne

variable {r' : Registry} {edge : String}

/-- `Bind` finds the session bound, or binds it under an ID that is free. -/
theorem bind_ok (hb : r.bind ref edge = .ok r') :
    ref.valid = true ∧ ((r' = r ∧ ∃ e, r.snapshot ref = some e) ∨
      (r.entry ref.sessionID = none ∧
        r' = { r with sessions := ⟨ref, edge, .syncing, false⟩ :: r.sessions })) := by
  unfold bind at hb
  split_ifs at hb with hvalid
  refine ⟨by simpa using hvalid, ?_⟩
  cases hold : r.entry ref.sessionID with
  | some old =>
    rw [hold] at hb
    simp only at hb
    split_ifs at hb with hsame
    exact .inl ⟨(Except.ok.inj hb).symm, old, snapshot_eq_some.mpr ⟨hold, hsame.1⟩⟩
  | none =>
    rw [hold] at hb
    exact .inr ⟨rfl, (Except.ok.inj hb).symm⟩

/-- `commitActive` makes the session active. -/
theorem commitActive_spec (hc : r.commitActive ref = .ok r') :
    r' = r.modify ref (fun e => { e with state := .active }) ∧ r'.active ref = true := by
  unfold commitActive at hc
  cases he : r.snapshot ref with
  | none =>
    rw [he] at hc
    cases hc
  | some e =>
    rw [he] at hc
    dsimp only at hc
    split_ifs at hc
    obtain rfl := Except.ok.inj hc
    refine ⟨rfl, ?_⟩
    unfold active
    rw [snapshot_modify, if_pos rfl, he]
    rfl

variable {x : Registry × Entry}

/-- `beginClose` finds the session closing, or makes it so. -/
theorem beginClose_cases (hc : r.beginClose ref = .ok x) :
    x.1 = r ∨ x.1 = r.modify ref (fun e => { e with state := .closing }) := by
  unfold beginClose at hc
  split at hc
  · cases hc
  · split_ifs at hc
    · exact .inl (Except.ok.inj hc ▸ rfl)
    · exact .inr (Except.ok.inj hc ▸ rfl)

theorem snapshot_bind_of_some (hb : r.bind ref edge = .ok r') (h : r.snapshot other = some e) :
    r'.snapshot other = some e := by
  rcases (bind_ok hb).2 with ⟨rfl, -⟩ | ⟨hfree, rfl⟩
  · exact h
  · obtain ⟨he, hr⟩ := snapshot_eq_some.mp h
    refine snapshot_eq_some.mpr ⟨?_, hr⟩
    show List.find? _ (_ :: r.sessions) = _
    rw [find?_cons_of_neg]
    · exact he
    · intro hsid
      have hid : ref.sessionID = other.sessionID := by simpa using hsid
      rw [hid, he] at hfree
      cases hfree

end snapshot

/-! ### Session IDs are bound once -/

/-- No session ID is bound twice. -/
def Valid (r : Registry) : Prop := (r.sessions.map (fun e => e.ref.sessionID)).Nodup

section valid
variable {r : Registry} {ref x y : SessionRef} {e e' : Entry}
variable {r' : Registry} {edge : String}

theorem mem_of_snapshot (h : r.snapshot ref = some e) : e ∈ r.sessions ∧ e.ref = ref := by
  obtain ⟨he, hr⟩ := snapshot_eq_some.mp h
  exact ⟨mem_of_find?_eq_some he, hr⟩

theorem snapshot_of_mem (h : r.Valid) (he : e ∈ r.sessions) : r.snapshot e.ref = some e :=
  snapshot_eq_some.mpr ⟨AssocList.find?_of_mem h he, rfl⟩

theorem eq_of_snapshot (hx : r.snapshot x = some e) (hy : r.snapshot y = some e')
    (hid : x.sessionID = y.sessionID) : x = y := by
  obtain ⟨hex, hrx⟩ := snapshot_eq_some.mp hx
  obtain ⟨hey, hry⟩ := snapshot_eq_some.mp hy
  rw [hid, hey] at hex
  rw [← hrx, ← hry, Option.some.inj hex]

theorem snapshot_unbind (h : r.Valid) (ref x : SessionRef) :
    (r.unbind ref).snapshot x = if x = ref then none else r.snapshot x := by
  split_ifs with heq
  · cases hs : (r.unbind ref).snapshot x with
    | none => rfl
    | some e =>
      obtain ⟨hm, hr⟩ := mem_of_snapshot hs
      have hne : e.ref ≠ ref := by simpa using (mem_filter.mp hm).2
      exact absurd (hr.trans heq) hne
  · cases hs : r.snapshot x with
    | some e => exact snapshot_unbind_of_ne heq hs
    | none =>
      cases hs' : (r.unbind ref).snapshot x with
      | none => rfl
      | some e =>
        obtain ⟨hm, rfl⟩ := mem_of_snapshot hs'
        rw [snapshot_of_mem h (mem_filter.mp hm).1] at hs
        cases hs

theorem bind_cases (hb : r.bind ref edge = .ok r')
    (hnone : r.snapshot ref = none) :
    r.entry ref.sessionID = none ∧
      r' = { r with sessions := ⟨ref, edge, .syncing, false⟩ :: r.sessions } := by
  refine (bind_ok hb).2.resolve_left ?_
  rintro ⟨-, e, he⟩
  rw [hnone] at he
  cases he

theorem snapshot_bind (hb : r.bind ref edge = .ok r')
    (hnone : r.snapshot ref = none) (x : SessionRef) :
    r'.snapshot x = if x = ref then some ⟨ref, edge, .syncing, false⟩ else r.snapshot x := by
  obtain ⟨hfree, rfl⟩ := bind_cases hb hnone
  by_cases hid : ref.sessionID = x.sessionID
  · have hentry : ({ r with sessions := ⟨ref, edge, .syncing, false⟩ :: r.sessions } :
        Registry).entry x.sessionID = some ⟨ref, edge, .syncing, false⟩ :=
      find?_cons_of_pos (by simpa using hid)
    unfold snapshot
    rw [hentry, ← hid, hfree]
    by_cases hx : x = ref
    · simp [Option.filter, hx]
    · have hx' : ¬ref = x := fun h => hx h.symm
      simp [Option.filter, hx, hx']
  · have hx : ¬x = ref := fun h => hid (h ▸ rfl)
    have hentry : ({ r with sessions := ⟨ref, edge, .syncing, false⟩ :: r.sessions } :
        Registry).entry x.sessionID = r.entry x.sessionID :=
      find?_cons_of_neg (by simpa using hid)
    unfold snapshot
    rw [hentry, if_neg hx]

theorem valid_bind (h : r.Valid)
    (hb : r.bind ref edge = .ok r') (hnone : r.snapshot ref = none) : r'.Valid := by
  obtain ⟨hfree, rfl⟩ := bind_cases hb hnone
  refine nodup_cons.mpr ⟨?_, h⟩
  intro hm
  obtain ⟨e, he, hid⟩ := mem_map.mp hm
  exact absurd (find?_eq_none.mp hfree e he) (by simp [hid])

theorem valid_modify (h : r.Valid) (ref : SessionRef) (f : Entry → Entry) :
    (r.modify ref f).Valid := by
  have hids : (r.modify ref f).sessions.map (fun e => e.ref.sessionID) =
      r.sessions.map (fun e => e.ref.sessionID) := by
    simp only [modify, map_map]
    refine map_congr_left fun e _ => ?_
    by_cases he : e.ref = ref <;> simp [he]
  unfold Valid
  rw [hids]
  exact h

theorem valid_unbind (h : r.Valid) (ref : SessionRef) : (r.unbind ref).Valid :=
  h.sublist (filter_sublist.map _)

end valid

end Registry

end MumbleServer
