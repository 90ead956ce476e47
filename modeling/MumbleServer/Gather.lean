import MumbleServer.AssocList
import Mathlib.Data.List.Induction
import Mathlib.Data.List.Nodup

/-! # Gathering values by key

A map is filled from a list of keys with values; a value for a key that is there already is merged
into the one that is there.  Every key comes out once, with all its values merged in their order
(`mem_gather`).

When merging picks one of two values, and one that is no worse than either, then what comes out is
one of the values of the key and no worse than any (`Picks.mergeAll`). -/

namespace MumbleServer.Gather

open List

section gather
variable {K V : Type*} [DecidableEq K] (merge : V → V → V)
variable {ways : List (K × V)}

/-- A value is merged into that of its key, or put at the end. -/
def insert (k : K) (v : V) : List (K × V) → List (K × V)
  | [] => [(k, v)]
  | (k', v') :: rest => if k' = k then (k', merge v' v) :: rest else (k', v') :: insert k v rest

def gather (ways : List (K × V)) : List (K × V) :=
  ways.foldl (fun m w => insert merge w.1 w.2 m) []

/-- The values of a key, in their order. -/
def valuesOf (ways : List (K × V)) (k : K) : List V :=
  (ways.filter fun w => decide (w.1 = k)).map Prod.snd

def mergeAll : List V → Option V
  | [] => none
  | v :: vs => some (vs.foldl merge v)

variable {merge} {k : K}

theorem mem_valuesOf {v : V} : v ∈ valuesOf ways k ↔ (k, v) ∈ ways := by
  simp [valuesOf]

theorem keys_insert (k : K) (v : V) (m : List (K × V)) :
    (insert merge k v m).map Prod.fst =
      if k ∈ m.map Prod.fst then m.map Prod.fst else m.map Prod.fst ++ [k] := by
  induction m with
  | nil => rfl
  | cons w rest ih =>
    obtain ⟨k', v'⟩ := w
    unfold insert
    by_cases hk : k' = k
    · simp [hk]
    · have hk' : k ≠ k' := fun h => hk h.symm
      rw [if_neg hk, map_cons, ih]
      by_cases hmem : k ∈ rest.map Prod.fst
      · simp [hmem]
      · rw [if_neg hmem, if_neg]
        · rfl
        · simp only [map_cons, mem_cons]
          exact not_or.mpr ⟨hk', hmem⟩

theorem lookup_insert (k k' : K) (v : V) (m : List (K × V)) :
    (insert merge k v m).lookup k' =
      if k' = k then some (((m.lookup k).map (merge · v)).getD v) else m.lookup k' := by
  have hne : ∀ {a b : K}, a ≠ b → (a == b) = false := fun h => beq_eq_false_iff_ne.mpr h
  induction m with
  | nil =>
    unfold insert
    by_cases hk : k' = k
    · simp [hk]
    · simp [lookup_cons, hne hk, hk]
  | cons w rest ih =>
    obtain ⟨a, x⟩ := w
    unfold insert
    by_cases ha : a = k
    · subst ha
      by_cases hk : k' = a
      · simp [hk]
      · simp [lookup_cons, hne hk, hk]
    · rw [if_neg ha, lookup_cons, ih]
      by_cases hk : k' = k
      · subst hk
        simp [lookup_cons, hne fun h : k' = a => ha h.symm]
      · rw [if_neg hk, if_neg hk, lookup_cons]

theorem forall_insert {P : V → Prop} (hmerge : ∀ a b, P a → P (merge a b)) {v : V} (hv : P v)
    {m : List (K × V)} (hm : ∀ e ∈ m, P e.2) : ∀ e ∈ insert merge k v m, P e.2 := by
  induction m with
  | nil =>
    intro e he
    rw [mem_singleton.mp he]
    exact hv
  | cons w rest ih =>
    rw [forall_mem_cons] at hm
    unfold insert
    split_ifs
    · exact forall_mem_cons.mpr ⟨hmerge _ _ hm.1, hm.2⟩
    · exact forall_mem_cons.mpr ⟨hm.1, ih hm.2⟩

theorem gather_concat (ways : List (K × V)) (w : K × V) :
    gather merge (ways ++ [w]) = insert merge w.1 w.2 (gather merge ways) := by
  simp [gather, foldl_append]

theorem nodup_gather (ways : List (K × V)) : ((gather merge ways).map Prod.fst).Nodup := by
  induction ways using List.reverseRecOn with
  | nil => exact nodup_nil
  | append_singleton ways w ih =>
    rw [gather_concat, keys_insert]
    split_ifs with hmem
    · exact ih
    · exact nodup_append.mpr ⟨ih, nodup_singleton _, fun a ha b hb hab =>
        hmem (mem_singleton.mp hb ▸ hab ▸ ha)⟩

theorem lookup_gather (ways : List (K × V)) (k : K) :
    (gather merge ways).lookup k = mergeAll merge (valuesOf ways k) := by
  induction ways using List.reverseRecOn with
  | nil => rfl
  | append_singleton ways w ih =>
    obtain ⟨k', v⟩ := w
    rw [gather_concat, lookup_insert]
    unfold valuesOf at ih ⊢
    rw [filter_append, map_append]
    by_cases hk : k = k'
    · subst hk
      rw [if_pos rfl, ih]
      have hlast : ([(k, v)].filter fun w => decide (w.1 = k)).map Prod.snd = [v] := by simp
      rw [hlast]
      cases (ways.filter fun w => decide (w.1 = k)).map Prod.snd with
      | nil => rfl
      | cons x xs => simp [mergeAll, foldl_append]
    · have hnone : ([(k', v)].filter fun w => decide (w.1 = k)) = [] := by
        simpa using fun h : k' = k => hk h.symm
      rw [if_neg hk, ih, hnone, map_nil, append_nil]

theorem mem_gather {x : V} :
    (k, x) ∈ gather merge ways ↔ mergeAll merge (valuesOf ways k) = some x := by
  rw [← lookup_gather]
  exact ⟨AssocList.lookup_of_mem (nodup_gather ways), AssocList.mem_of_lookup⟩

theorem mem_keys_gather : k ∈ (gather merge ways).map Prod.fst ↔ ∃ v, (k, v) ∈ ways := by
  simp only [mem_map, Prod.exists, exists_and_right, exists_eq_right, mem_gather]
  simp only [← mem_valuesOf]
  cases valuesOf ways k with
  | nil => simp [mergeAll]
  | cons v vs => exact ⟨fun _ => ⟨v, mem_cons_self⟩, fun _ => ⟨_, rfl⟩⟩

theorem exists_of_mergeAll {W : Type*} {f : V → W} (hf : ∀ a b, f (merge a b) = f a) {vs : List V}
    {x : V} (h : mergeAll merge vs = some x) : ∃ v ∈ vs, f x = f v := by
  cases vs with
  | nil => cases h
  | cons v vs =>
    obtain rfl := Option.some.inj h
    refine ⟨v, mem_cons_self, ?_⟩
    clear h
    induction vs generalizing v with
    | nil => rfl
    | cons w vs ih => rw [foldl_cons, ih, hf]

theorem mergeAll_map {W : Type*} {merge' : W → W → W} {f : V → W}
    (hf : ∀ a b, f (merge a b) = merge' (f a) (f b)) (vs : List V) :
    mergeAll merge' (vs.map f) = (mergeAll merge vs).map f := by
  cases vs with
  | nil => rfl
  | cons v vs =>
    rw [map_cons, mergeAll, mergeAll, Option.map_some]
    congr 1
    induction vs generalizing v with
    | nil => rfl
    | cons w vs ih => rw [map_cons, foldl_cons, foldl_cons, ← hf, ih]

end gather

/-! ### Picking the best -/

section picks
variable {V C : Type*}

/-- Merging picks one of two values, and one that is no worse than either, if both are good
values. -/
structure Picks (good : C → Prop) (op : C → C → C) (le : C → C → Prop) : Prop where
  pick : ∀ a b, op a b = a ∨ op a b = b
  left : ∀ a b, good a → good b → le a (op a b)
  right : ∀ a b, good a → good b → le b (op a b)
  refl : ∀ a, good a → le a a
  trans : ∀ a b c, good a → good b → good c → le a b → le b c → le a c

variable {good : C → Prop} {op : C → C → C} {le : C → C → Prop} {merge : V → V → V} {f : V → C}

theorem Picks.op_good (h : Picks good op le) {a b : C} (ha : good a) (hb : good b) :
    good (op a b) := by
  rcases h.pick a b with hp | hp <;> rwa [hp]

/-- A part of what comes out is that part of one of the values, and no worse than that of any. -/
theorem Picks.mergeAll (h : Picks good op le) (hf : ∀ a b, f (merge a b) = op (f a) (f b))
    {vs : List V} (hgood : ∀ v ∈ vs, good (f v)) {x : V} (hx : mergeAll merge vs = some x) :
    (∃ v ∈ vs, f x = f v) ∧ ∀ v ∈ vs, le (f v) (f x) := by
  cases vs with
  | nil => cases hx
  | cons v vs =>
    obtain rfl := Option.some.inj hx
    clear hx
    induction vs generalizing v with
    | nil => exact ⟨⟨v, by simp⟩, by simpa using h.refl (f v) (hgood v (by simp))⟩
    | cons w vs ih =>
      have hv := hgood v (by simp)
      have hw := hgood w (by simp)
      have hvw : good (f (merge v w)) := hf v w ▸ h.op_good hv hw
      obtain ⟨⟨y, hy, heq⟩, hle⟩ := ih (merge v w) fun z hz => by
        rcases mem_cons.mp hz with rfl | hz
        · exact hvw
        · exact hgood z (by simp [hz])
      rw [← foldl_cons] at heq hle
      have hfirst := hle _ mem_cons_self
      have hx : good (f ((w :: vs).foldl merge v)) := by
        rw [heq]
        rcases mem_cons.mp hy with rfl | hy
        · exact hvw
        · exact hgood y (by simp [hy])
      constructor
      · rcases mem_cons.mp hy with rfl | hy
        · rcases h.pick (f v) (f w) with hp | hp
          · exact ⟨v, by simp, by rw [heq, hf, hp]⟩
          · exact ⟨w, by simp, by rw [heq, hf, hp]⟩
        · exact ⟨y, by simp [hy], heq⟩
      · intro z hz
        rcases mem_cons.mp hz with rfl | hz
        · exact h.trans _ _ _ hv hvw hx (hf z w ▸ h.left _ _ hv hw) hfirst
        · rcases mem_cons.mp hz with rfl | hz
          · exact h.trans _ _ _ hw hvw hx (hf v z ▸ h.right _ _ hv hw) hfirst
          · exact hle z (mem_cons_of_mem _ hz)

end picks

end MumbleServer.Gather
