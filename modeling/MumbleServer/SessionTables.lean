import MumbleServer.Registry

/-! # Users and bindings together

A session has a record in the user manager and a binding in the registry.  `Serves` and `Fades` say
what the operations of a server do to the sessions that are there: they stay or end, and none comes
back. -/

namespace MumbleServer

open Registry
open UserManager

/-- A user manager and a registry that fit together. -/
structure Fit (u : UserManager) (r : Registry) : Prop where
  users : u.Valid
  registry : r.Valid
  bindings : ∀ e ∈ r.sessions, e.ref.generation ≤ u.generation

/-- The tables fit together, and no session is bound again. -/
structure Serves (u u' : UserManager) (r r' : Registry) : Prop where
  fit : Fit u' r'
  generation : u.generation ≤ u'.generation
  binding : ∀ x, x.generation ≤ u.generation → r.snapshot x = none → r'.snapshot x = none

theorem Serves.trans {u u' u'' : UserManager} {r r' r'' : Registry} (h : Serves u u' r r')
    (h' : Serves u' u'' r' r'') : Serves u u'' r r'' :=
  ⟨h'.fit, h.generation.trans h'.generation,
    fun x hx hnone => h'.binding x (hx.trans h.generation) (h.binding x hx hnone)⟩

theorem fresh_of_add {u u' : UserManager} {w stored : User} (ha : u.add w = (u', some stored))
    {x : SessionRef} (hx : x.generation ≤ u.generation) : x ≠ stored.ref := by
  rintro rfl
  have hgen : stored.ref.generation = u.generation + 1 := (generation_of_add ha).1
  omega

variable {ref : SessionRef} {u' : UserManager} {r' : Registry} {edge : String}

section serves
variable {u : UserManager} {r : Registry} (h : Fit u r)
include h

theorem Fit.refl : Serves u u r r := ⟨h, Nat.le_refl _, fun _ _ hx => hx⟩

theorem Fit.modify (ref : SessionRef) (f : Entry → Entry) : Serves u u r (r.modify ref f) where
  fit :=
    { h with
      registry := valid_modify h.registry ref f
      bindings := by
        intro e he
        obtain ⟨e', he', rfl⟩ := List.mem_map.mp he
        split_ifs with heq
        · exact heq ▸ h.bindings e' he'
        · exact h.bindings e' he' }
  generation := Nat.le_refl _
  binding := by
    intro x _ hx
    rw [snapshot_modify]
    split_ifs
    · rw [hx, Option.map_none]
    · exact hx

theorem Fit.unbind (ref : SessionRef) : Serves u u r (r.unbind ref) where
  fit := ⟨h.users, valid_unbind h.registry ref, fun e he => h.bindings e (List.mem_filter.mp he).1⟩
  generation := Nat.le_refl _
  binding := by
    intro x _ hx
    rw [snapshot_unbind h.registry, hx, ite_self]

theorem Fit.drop : Serves u (u.removeIfGeneration ref).1 r r := by
  have hgen : (u.removeIfGeneration ref).1.generation = u.generation := generation_remove ..
  exact ⟨⟨valid_remove h.users _ _ _, h.registry, hgen ▸ h.bindings⟩, hgen.ge, fun _ _ hx => hx⟩

theorem Fit.add {w : User} {found : Option User} (ha : u.add w = (u', found)) :
    Serves u u' r r := by
  have hgen := generation_add_le ha
  exact ⟨⟨valid_add h.users ha, h.registry, fun e he => (h.bindings e he).trans hgen⟩, hgen,
    fun _ _ hx => hx⟩

variable {w stored : User} {u' : UserManager} (ha : u.add w = (u', some stored))
include ha

theorem Fit.undo : Serves u (u'.removeIfGeneration stored.ref).1 r r :=
  (h.add ha).trans (h.add ha).fit.drop

theorem Fit.unbound : r.snapshot stored.ref = none := by
  cases hs : r.snapshot stored.ref with
  | none => rfl
  | some e =>
    obtain ⟨he, heq⟩ := mem_of_snapshot hs
    exact absurd heq (fresh_of_add ha (h.bindings e he))

theorem Fit.bind (hb : r.bind stored.ref edge = .ok r') : Serves u u' r r' := by
  obtain ⟨hgen, hnext⟩ := generation_of_add ha
  have hnone := h.unbound ha
  have hadd := h.add ha
  refine ⟨⟨hadd.fit.users, valid_bind h.registry hb hnone, ?_⟩, hadd.generation, fun x hx hn => ?_⟩
  · obtain ⟨-, rfl⟩ := bind_cases hb hnone
    intro e he
    rcases List.mem_cons.mp he with rfl | he
    · exact (hgen.trans hnext.symm).le
    · exact hadd.fit.bindings e he
  · rw [snapshot_bind hb hnone, if_neg (fresh_of_add ha hx)]
    exact hn

end serves

/-! ### Sessions that end -/

/-- What anybody may do to sessions that are there: change their records or end them, records and
bindings apart from each other; none comes back. -/
structure Fades (u u' : UserManager) (r r' : Registry) : Prop extends Serves u u' r r' where
  indexed : u'.Indexed
  record : ∀ x, x.generation ≤ u.generation → u.snapshotRef x = none → u'.snapshotRef x = none

section fades
variable {u : UserManager} {r : Registry} (h : Fit u r) (hi : u.Indexed)
include h hi

theorem Fades.refl : Fades u u r r :=
  { h.refl with indexed := hi, record := fun _ _ hx => hx }

theorem Fades.modify (ref : SessionRef) (f : Entry → Entry) : Fades u u r (r.modify ref f) :=
  { h.modify ref f with indexed := hi, record := fun _ _ hx => hx }

theorem Fades.commit (hc : r.commitActive ref = .ok r') : Fades u u r r' :=
  (commitActive_spec hc).1 ▸ Fades.modify h hi ref _

theorem Fades.beginClose {x : Registry × Entry} (hc : r.beginClose ref = .ok x) :
    Fades u u r x.1 := by
  rcases beginClose_cases hc with hx | hx <;> rw [hx]
  · exact Fades.refl h hi
  · exact Fades.modify h hi ref _

theorem Fades.unbind (ref : SessionRef) : Fades u u r (r.unbind ref) :=
  { h.unbind ref with indexed := hi, record := fun _ _ hx => hx }

theorem Fades.remove (ref : SessionRef) : Fades u (u.removeIfGeneration ref).1 r r :=
  { h.drop with
    indexed := indexed_remove hi _ _ _
    record := by
      intro x _ hx
      rw [snapshotRef_remove]
      split_ifs
      · rfl
      · exact hx }

theorem Fades.add {w : User} {found : Option User} (ha : u.add w = (u', found)) :
    Fades u u' r r :=
  { h.add ha with
    indexed := indexed_add h.users hi ha
    record := by
      intro x hx hnone
      rcases found with _ | stored
      · exact (snapshotRef_congr (same_of_add ha).1 x).trans hnone
      · rw [snapshotRef_add h.users ha]
        exact (if_neg (fresh_of_add ha hx)).trans hnone }

theorem Fades.update (sid : ℕ) {fn : User → User} (hfn : ∀ v, (fn v).name = v.name) :
    Fades u (u.updateUser sid fn).1 r r :=
  have hgen := generation_updateUser u sid fn
  { Fades.refl h hi with
    fit := ⟨valid_updateUser h.users sid fn, h.registry, hgen.symm ▸ h.bindings⟩
    indexed := indexed_updateUser hi sid hfn
    generation := hgen.ge
    record := fun _ _ => (updateUser_updates u sid fn).snapshotRef_eq_none }

theorem Fades.identity (ref : SessionRef) (check : Bool) (fn : User → User) :
    Fades u (u.updateIdentity ref check fn).1 r r :=
  have hgen := generation_updateIdentity u ref check fn
  { Fades.refl h hi with
    fit :=
      ⟨valid_updateIdentity h.users ref check fn, h.registry, hgen.symm ▸ h.bindings⟩
    indexed := indexed_updateIdentity hi ref check fn
    generation := hgen.ge
    record := fun _ _ => (updateIdentity_updates u ref check fn).snapshotRef_eq_none }

theorem Fades.login {w stored : User} (ha : u.add w = (u', some stored))
    (hb : r.bind stored.ref edge = .ok r') : Fades u u' r r' :=
  { h.bind ha hb with
    indexed := indexed_add h.users hi ha
    record := (Fades.add h hi ha).record }

end fades

theorem Fades.trans {u u' u'' : UserManager} {r r' r'' : Registry} (h : Fades u u' r r')
    (h' : Fades u' u'' r' r'') : Fades u u'' r r'' :=
  { h.toServes.trans h'.toServes with
    indexed := h'.indexed
    record := fun x hx hnone => h'.record x (hx.trans h.generation) (h.record x hx hnone) }

end MumbleServer
