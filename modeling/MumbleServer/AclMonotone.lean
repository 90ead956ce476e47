import MumbleServer.AclFrame

/-! # Rows are monotone

An ACL row that grants nothing only takes permissions away, and one that denies nothing only gives
them, whatever its channel, its priority and its selector.  Two evaluations that differ in such a
row are compared channel by channel: their tallies stay ordered (`visit_le`), a tally that is below
another is blind before it, and the end of the evaluation keeps the order (`outcome_le`). -/

namespace MumbleServer.Acl

open List Bool

/-! ### The order of tallies -/

/-- Every permission of `p` is one of `q`. -/
def Within (p q : Permission) : Prop := ∀ i, p.getLsbD i = true → q.getLsbD i = true

/-- A tally with less of everything. -/
structure Tally.Le (t t' : Tally) : Prop where
  granted : Within t.granted t'.granted
  traverse : t.traverse = true → t'.traverse = true
  write : t.write = true → t'.write = true

section order
variable {t t' : Tally} {target : ℕ} {x : ℕ × ChannelACL}

theorem Tally.Le.refl (t : Tally) : t.Le t := ⟨fun _ h => h, id, id⟩

theorem Tally.Le.trans {t'' : Tally} (h : t.Le t') (h' : t'.Le t'') : t.Le t'' :=
  ⟨fun i hi => h'.granted i (h.granted i hi), h'.traverse ∘ h.traverse, h'.write ∘ h.write⟩

theorem Tally.Le.atRoot (h : t.Le t') (target : ℕ) (x : ℕ × ChannelACL) :
    Within (t.atRoot target x.1 x.2) (t'.atRoot target x.1 x.2) := by
  intro i
  unfold Tally.atRoot
  split
  · simp only [BitVec.getLsbD_or, or_eq_true]
    exact Or.imp_left (h.granted i)
  · exact h.granted i

theorem Tally.Le.apply (h : t.Le t') (target : ℕ) (x : ℕ × ChannelACL) :
    (t.apply target x.1 x.2).Le (t'.apply target x.1 x.2) := by
  refine ⟨fun i => ?_, ?_, ?_⟩
  · rw [apply_granted_eq, apply_granted_eq]
    split
    · simp only [getLsbD_sdiff, BitVec.getLsbD_or, and_eq_true, or_eq_true]
      exact And.imp_left (Or.imp_left (h.atRoot target x i))
    · exact h.atRoot target x i
  · rw [apply_traverse, apply_traverse]
    split
    · cases decision 1 x.2 with
      | none => exact h.traverse
      | some b => exact id
    · exact h.traverse
  · rw [apply_write, apply_write]
    split
    · cases decision 0 x.2 with
      | none => exact h.write
      | some b => exact id
    · exact h.write

theorem Tally.apply_le (t : Tally) (target : ℕ) (hgrant : x.2.grant = 0) :
    (t.apply target x.1 x.2).Le t := by
  have hdecision : ∀ i, decision i x.2 ≠ some true := by
    intro i
    unfold decision
    rw [hgrant]
    split_ifs <;> simp_all
  have hroot : t.atRoot target x.1 x.2 = t.granted := by
    unfold Tally.atRoot
    simp [hgrant]
  have hword : ∀ {i : ℕ} {b : Bool}, (decision i x.2).getD b = true → b = true := by
    intro i b hb
    cases hd : decision i x.2 with
    | none => rwa [hd] at hb
    | some c =>
      rw [hd] at hb
      exact absurd (hd.trans (congrArg some hb)) (hdecision i)
  refine ⟨fun i => ?_, ?_, ?_⟩
  · rw [apply_granted_eq, hroot, hgrant]
    split
    · rw [getLsbD_sdiff, and_eq_true]
      exact fun h => by simpa using h.1
    · exact id
  · rw [apply_traverse]
    split
    · exact hword
    · exact id
  · rw [apply_write]
    split
    · exact hword
    · exact id

theorem Tally.le_apply (t : Tally) (target : ℕ) (hdeny : x.2.deny = 0) :
    t.Le (t.apply target x.1 x.2) := by
  have hword : ∀ {i : ℕ} {b : Bool}, b = true → (decision i x.2).getD b = true := by
    intro i b hb
    unfold decision
    rw [hdeny]
    split_ifs <;> simp_all
  refine ⟨fun i hi => ?_, ?_, ?_⟩
  · have hroot : (t.atRoot target x.1 x.2).getLsbD i = true := by
      unfold Tally.atRoot
      split
      · rw [BitVec.getLsbD_or, hi, Bool.true_or]
      · exact hi
    rw [apply_granted_eq, hdeny]
    split
    · rw [getLsbD_sdiff, BitVec.getLsbD_or, hroot]
      simp
    · exact hroot
  · rw [apply_traverse]
    split
    · exact hword
    · exact id
  · rw [apply_write]
    split
    · exact hword
    · exact id

end order

/-! ### A row more -/

def World.addRow (w : World) (row : ChannelACL) : World :=
  { w with db := { w.db with acls := row :: w.db.acls } }

section addRow
variable {fold : Char → Char} {w : World} {row : ChannelACL} {id : UInt32} {target : ℕ}
  {u : Option Viewer}
variable {t t' : Tally} {new : List (ℕ × ChannelACL)}

theorem matchAlike_addRow (w : World) (row : ChannelACL) :
    MatchAlike (fun _ => True) (w.addRow row) w := by
  constructor <;> intros <;> trivial

/-- Which rows match does not depend on the rows. -/
theorem rowMatches_addRow : rowMatches fold (w.addRow row) id target u =
    rowMatches fold w id target u := by
  funext r
  have hmatch : (entryMatches fold r id target u).Agrees (w.addRow row) w :=
    (matchAlike_addRow w row).entryMatches fold (query_agrees rfl rfl) trivial
      (fun _ _ => trivial) trivial
  unfold rowMatches
  rw [hmatch]

theorem rowLe_trans (a b c : ChannelACL) (hab : rowLe a b = true) (hbc : rowLe b c = true) :
    rowLe a c = true := by
  simp only [rowLe, or_eq_true, and_eq_true, decide_eq_true_eq] at *
  omega

theorem rowLe_total (a b : ChannelACL) : (rowLe a b || rowLe b a) = true := by
  simp only [rowLe, or_eq_true, and_eq_true, decide_eq_true_eq]
  omega

/-- The new row stands somewhere among the rows of its channel, if it matches. -/
theorem channelRows_addRow (fold : Char → Char) (w : World) (row : ChannelACL) (id : UInt32)
    (target : ℕ) (u : Option Viewer) (c : ℕ) : ∃ before new after,
    channelRows fold (w.addRow row) id target u c = before ++ new ++ after ∧
    channelRows fold w id target u c = before ++ after ∧ ∀ x ∈ new, x.2 = row := by
  have hrows : ∃ l new r, (w.addRow row).aclRows c = l ++ new ++ r ∧ w.aclRows c = l ++ r ∧
      ∀ x ∈ new, x = row := by
    unfold World.aclRows
    show ∃ l new r, ((row :: w.db.acls).filter _).mergeSort rowLe = _ ∧ _
    rw [filter_cons]
    split
    · obtain ⟨l, r, hcons, hrest, -⟩ := mergeSort_cons rowLe_trans rowLe_total row
        (w.db.acls.filter fun r => decide (r.serverID = w.serverID) && decide (r.channelID = c))
      refine ⟨l, [row], r, ?_, hrest, by simp⟩
      rw [append_assoc]
      exact hcons
    · exact ⟨[], [], _, rfl, rfl, by simp⟩
  obtain ⟨l, new, r, hnew, hold, hrow⟩ := hrows
  unfold channelRows
  rw [hnew, hold, rowMatches_addRow]
  simp only [filter_append, map_append]
  refine ⟨_, _, _, rfl, rfl, fun x hx => ?_⟩
  obtain ⟨r', hr', rfl⟩ := mem_map.mp hx
  exact hrow r' (mem_filter.mp hr').1

theorem foldl_apply_le (rows : List (ℕ × ChannelACL)) (h : t.Le t') :
    (rows.foldl (fun t x => t.apply target x.1 x.2) t).Le
      (rows.foldl (fun t x => t.apply target x.1 x.2) t') := by
  induction rows generalizing t t' with
  | nil => exact h
  | cons x rows ih => exact ih (h.apply target x)

theorem foldl_new_le (hnew : ∀ x ∈ new, x.2.grant = 0) (t : Tally) :
    (new.foldl (fun t x => t.apply target x.1 x.2) t).Le t := by
  induction new generalizing t with
  | nil => exact .refl t
  | cons x new ih =>
    rw [forall_mem_cons] at hnew
    exact (ih hnew.2 _).trans (t.apply_le target hnew.1)

theorem le_foldl_new (hnew : ∀ x ∈ new, x.2.deny = 0) (t : Tally) :
    t.Le (new.foldl (fun t x => t.apply target x.1 x.2) t) := by
  induction new generalizing t with
  | nil => exact .refl t
  | cons x new ih =>
    rw [forall_mem_cons] at hnew
    exact (t.le_apply target hnew.1).trans (ih hnew.2 _)

theorem start_le (h : t.Le t') (inherit : Bool) (dflt : Permission) :
    (if inherit then t else { t with granted := dflt }).Le
      (if inherit then t' else { t' with granted := dflt }) := by
  split
  · exact h
  · exact ⟨fun _ hi => hi, h.traverse, h.write⟩

theorem visit_addRow_le (hgrant : row.grant = 0) (c : ℕ) (h : t.Le t') :
    (visit fold (w.addRow row) id target u t c).Le (visit fold w id target u t' c) := by
  obtain ⟨before, new, after, hnew, hold, hrow⟩ :=
    channelRows_addRow fold w row id target u c
  unfold visit
  rw [hnew, hold, foldl_append, foldl_append, foldl_append]
  refine foldl_apply_le after ((foldl_new_le (fun x hx => hrow x hx ▸ hgrant) _).trans ?_)
  exact foldl_apply_le before (start_le h _ _)

theorem visit_le_addRow (hdeny : row.deny = 0) (c : ℕ) (h : t.Le t') :
    (visit fold w id target u t c).Le (visit fold (w.addRow row) id target u t' c) := by
  obtain ⟨before, new, after, hnew, hold, hrow⟩ :=
    channelRows_addRow fold w row id target u c
  unfold visit
  rw [hnew, hold, foldl_append, foldl_append, foldl_append]
  refine foldl_apply_le after (.trans ?_ (le_foldl_new (fun x hx => hrow x hx ▸ hdeny) _))
  exact foldl_apply_le before (start_le h _ _)

end addRow

/-! ### Whole evaluations -/

section evaluations
variable {fold : Char → Char} {w w' : World} {id : UInt32} {target : ℕ} {u : Option Viewer}

/-- What the descent to a channel comes down to. -/
def outcome (target : ℕ) : Option Tally → Permission
  | none => 0
  | some t => finish target t

theorem finish_le {t t' : Tally} (h : t.Le t') : Within (finish target t) (finish target t') := by
  intro i
  simp only [finish_bit, and_eq_true, or_eq_true]
  exact And.imp_right (Or.imp (h.granted i) (And.imp_left (h.granted 0)))

theorem outcome_le (hvisit : ∀ c t t', t.Le t' →
      (visit fold w id target u t c).Le (visit fold w' id target u t' c))
    (path : List ℕ) {t t' : Tally} (h : t.Le t') :
    Within (outcome target (descend fold w id target u path t))
      (outcome target (descend fold w' id target u path t')) := by
  induction path generalizing t t' with
  | nil => exact finish_le h
  | cons c rest ih =>
    have hle := hvisit c t t' h
    rw [descend, descend]
    by_cases hblind : (visit fold w id target u t c).Blind
    · rw [if_pos hblind]
      intro i hi
      simp [outcome] at hi
    · rw [if_neg hblind, if_neg fun hblind' => hblind ?_]
      · exact ih hle
      · -- whoever sees nothing with more sees nothing with less
        refine ⟨eq_false_iff.mpr fun ht => ?_, eq_false_iff.mpr fun hw => ?_⟩
        · exact eq_false_iff.mp hblind'.1 (hle.traverse ht)
        · exact eq_false_iff.mp hblind'.2 (hle.write hw)

end evaluations

/-- **Rows are monotone**: in every channel tree, for every set of rows and groups, every subject
and every channel, without database errors, one more row that grants nothing adds no permission,
and one more row that denies nothing takes none away. -/
theorem evaluate_monotone (fold : Char → Char) (tree : ChannelTree) (w : World)
    (hw : w.channels = tree.channels) (hdb : w.dbError = none) (id : UInt32) (target : ℕ)
    (htarget : ∃ n, w.channels.getChannel target = some n) (u : Option Viewer)
    (row : ChannelACL) :
    ∃ perm perm', (evaluate fold id target u).on w = .ok perm ∧
      (evaluate fold id target u).on (w.addRow row) = .ok perm' ∧
      (row.grant = 0 → Within perm' perm) ∧ (row.deny = 0 → Within perm perm') := by
  obtain ⟨n, hn⟩ := htarget
  obtain ⟨p, hpath⟩ := tree.path target n (hw ▸ hn)
  have hp : IsPath w.channels target p := hw ▸ hpath
  refine ⟨outcome target (descend fold w id target u p (w.start id)),
    outcome target (descend fold (w.addRow row) id target u p (w.start id)), ?_, ?_, ?_, ?_⟩
  · exact evaluate_on hdb hp
  · exact evaluate_on (w := w.addRow row) hdb hp
  · exact fun hgrant => outcome_le (fun c _ _ h => visit_addRow_le hgrant c h) p (.refl _)
  · exact fun hdeny => outcome_le (fun c _ _ h => visit_le_addRow hdeny c h) p (.refl _)

/-- A row of the lobby that denies Enter to everybody. -/
def closedLobby : ChannelACL :=
  ⟨2, 1, 1, 0, true, false, none, "all", "", false, false, 0, Permission.enter⟩

theorem evaluate_monotone_lobby :
    closedLobby.grant = 0 ∧
    ∃ perm perm', (evaluate id 7 1 none).on lobbyWorld = .ok perm ∧
      (evaluate id 7 1 none).on (lobbyWorld.addRow closedLobby) = .ok perm' ∧
      (closedLobby.grant = 0 → Within perm' perm) ∧ (closedLobby.deny = 0 → Within perm perm') :=
  ⟨rfl, evaluate_monotone _ lobbyTree lobbyWorld rfl rfl 7 1 ⟨_, rfl⟩ none closedLobby⟩

end MumbleServer.Acl
