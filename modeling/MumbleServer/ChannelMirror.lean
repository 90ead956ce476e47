import MumbleServer.AssocList
import MumbleServer.ChannelStore

/-! # When memory and database agree

Each call of the channel manager, seen through the lookups in memory and in the table.  All but
`Update` do the same to both or nothing to either, whichever of their statements fail. -/

namespace MumbleServer.ChannelStore

open List
open Channels (UpdateOpts)

variable {s : Store}
variable {updated : List (ℕ × List ℕ)} {c : Channel} {opts : UpdateOpts}

/-- Every lookup gives the same in memory and in the database, as far as `π` shows. -/
def AgreeOn {α : Type*} (π : Shown → α) (s : Store) : Prop :=
  ∀ id, (s.memory.getChannel id).map (fun c => π (shown c)) =
    (s.row id).map fun r => π r.shown

theorem agree_iff : Agree s ↔ AgreeOn (fun x => x) s := by
  constructor
  · intro h id
    cases hc : s.memory.getChannel id with
    | some c =>
      obtain rfl := id_of_getChannel hc
      obtain ⟨r, hr, hlive, hid, hshown⟩ := h.stored c (mem_of_getChannel hc)
      rw [Store.row, Table.row_eq_some_iff.mpr ⟨hr, hlive, hid⟩, Option.map_some, Option.map_some,
        hshown]
    | none =>
      cases hr : s.row id with
      | none => rfl
      | some r =>
        obtain ⟨hmem, hlive, rfl⟩ := Table.row_eq_some_iff.mp hr
        obtain ⟨c, hmem, hid⟩ := h.loaded r hmem hlive
        rw [← hid, getChannel_of_mem s.keyed hmem] at hc
        cases hc
  · intro h
    refine ⟨fun c hc => ?_, fun r hr hlive => ?_⟩
    · have hsame := h c.id
      rw [getChannel_of_mem s.keyed hc, Option.map_some] at hsame
      obtain ⟨r, hr, hshown⟩ := Option.map_eq_some_iff.mp hsame.symm
      obtain ⟨hmem, hlive, hid⟩ := Table.row_eq_some_iff.mp hr
      exact ⟨r, hmem, hlive, hid, hshown⟩
    · have hsame := h r.id
      rw [Store.row, Table.row_eq_some_iff.mpr ⟨hr, hlive, rfl⟩, Option.map_some] at hsame
      obtain ⟨c, hc, -⟩ := Option.map_eq_some_iff.mp hsame
      exact ⟨c, mem_of_getChannel hc, id_of_getChannel hc⟩

section lookups
variable {α : Type*} {π : Shown → α} (h : AgreeOn π s)
include h

theorem AgreeOn.row {id : ℕ} {c : Channel} (hc : s.memory.getChannel id = some c) :
    ∃ r, s.row id = some r ∧ π r.shown = π (shown c) := by
  have hsame := h id
  rw [hc, Option.map_some] at hsame
  exact Option.map_eq_some_iff.mp hsame.symm

theorem AgreeOn.row_none {id : ℕ} (hc : s.memory.getChannel id = none) : s.row id = none := by
  have hsame := h id
  rw [hc] at hsame
  exact Option.map_eq_none_iff.mp hsame.symm

end lookups

/-! ### Create and Remove -/

theorem getChannel_filter (cs : Channels) (id other : ℕ) :
    Channels.getChannel (cs.filter fun c => decide (c.id ≠ id)) other =
      if other = id then none else cs.getChannel other := by
  split_ifs with h
  · subst h
    exact getChannel_filter_self cs other
  · exact getChannel_filter_ne h

section calls
variable {α : Type*} {π : Shown → α}

section
variable (h : AgreeOn π s)
include h

theorem AgreeOn.drop (id : ℕ) : AgreeOn π (s.drop id) := by
  intro other
  have hrow : (s.drop id).row other = if other = id then none else s.row other :=
    Table.row_delete s.table s.serverID id other
  have hchannel : (s.drop id).memory.getChannel other =
      if other = id then none else s.memory.getChannel other := getChannel_filter s.memory id other
  rw [hrow, hchannel]
  split_ifs
  · rfl
  · exact h other

theorem AgreeOn.enter {r : Record}
    (hnew : r.id ∉ s.table.records.map fun r => r.id) (hlive : r.live s.serverID = true) :
    AgreeOn π (s.enter r hnew) := by
  intro other
  have hrow : (s.enter r hnew).row other = if other = r.id then some r else s.row other :=
    Table.row_insert hnew hlive other
  have hchannel : (s.enter r hnew).memory.getChannel other =
      if other = r.id then some r.channel else s.memory.getChannel other := by
    show List.find? _ (r.channel :: _) = _
    rw [find?_cons]
    by_cases hid : r.id = other
    · simp [Nodes.Row.channel, hid]
    · rw [decide_eq_false (show r.channel.id ≠ other from hid), if_neg (Ne.symm hid)]
      exact getChannel_filter_ne (Ne.symm hid)
  rw [hrow, hchannel]
  split_ifs
  · rfl
  · exact h other

theorem AgreeOn.create (newID parentID : ℕ) (name description : String)
    (position : Int) (temporary : Bool) (maxUsers : ℕ) (ok : Bool) :
    AgreeOn π (s.create newID parentID name description position temporary maxUsers ok).1 := by
  unfold Store.create
  split_ifs
  · exact h
  · exact h
  · exact h
  · exact h.enter _ (by simp [Record.live])

theorem AgreeOn.remove (id : ℕ) (ok : Bool) : AgreeOn π (s.remove id ok).1 := by
  unfold Store.remove
  split_ifs
  · exact h
  · exact h
  · exact h
  · exact h
  · exact h.drop id

theorem AgreeOn.clean (hasUsers : ℕ → Bool) (order : ℕ → List ℕ)
    (ok : ℕ → ℕ → Bool) (fuel : ℕ) :
    AgreeOn π (Store.cleanLoop hasUsers order ok fuel s) := by
  induction fuel generalizing s with
  | zero => exact h
  | succ fuel ih =>
    unfold Store.cleanLoop
    cases hround : s.cleanRound hasUsers (order fuel) (ok fuel) with
    | none => exact h
    | some s' =>
      obtain ⟨id, -, rfl⟩ := Option.map_eq_some_iff.mp hround
      exact ih (h.drop id)

end

end calls

/-! ### UpdateLinks -/

theorem row_statements {tx : Tx} {serverID : ℕ}
    (hkeys : (updated.map Prod.fst).Nodup) {t t' : Table}
    (h : updated.foldlM (fun (t : Table) e => if tx.updates e.1 then
      some (t.write serverID e.1 fun r => { r with links := e.2 }) else none) t = some t')
    (id : ℕ) : t'.row serverID id = (t.row serverID id).map fun r =>
      { r with links := (updated.lookup id).getD r.links } := by
  induction updated generalizing t with
  | nil =>
    obtain rfl := Option.some.inj h
    simp
  | cons e rest ih =>
    rw [map_cons, nodup_cons] at hkeys
    rw [foldlM_cons] at h
    obtain ⟨t₁, h₁, h⟩ := Option.bind_eq_some_iff.mp h
    split_ifs at h₁
    obtain rfl := Option.some.inj h₁
    rw [ih hkeys.2 h, Table.row_write, lookup_cons]
    split_ifs with hid
    · -- the row that this statement writes is not written again
      subst hid
      have hrest : rest.lookup e.1 = none :=
        lookup_eq_none_iff.mpr fun e' he' => bne_iff_ne.mpr fun heq =>
          hkeys.1 (heq ▸ mem_map_of_mem he')
      rw [Option.map_map, hrest, beq_self_eq_true]
      rfl
    · rw [beq_eq_false_iff_ne.mpr hid]

theorem statements_of_execute {tx : Tx} {t t' : Table} {serverID : ℕ}
    (h : tx.execute t serverID updated = some t') :
    updated.foldlM (fun (t : Table) e => if tx.updates e.1 then
      some (t.write serverID e.1 fun r => { r with links := e.2 }) else none) t = some t' := by
  unfold Tx.execute at h
  by_cases hbegins : tx.begins = false
  · rw [if_pos hbegins] at h
    cases h
  · rw [if_neg hbegins] at h
    split at h
    · cases h
    · rename_i t₁ hdone
      split_ifs at h
      rwa [← Option.some.inj h]

theorem keys_linkUpdates (s : Store) (node : Channel) (desired : List ℕ) :
    ((s.linkUpdates node desired).map Prod.fst).Nodup := by
  unfold Store.linkUpdates
  rw [map_map]
  exact keyed_filter s.keyed _

theorem lookup_linkUpdates (s : Store) (node : Channel) (desired : List ℕ)
    (hc : c ∈ s.memory) : (s.linkUpdates node desired).lookup c.id =
      if s.memory.linksAffected node desired c then some (s.memory.relinked node desired c)
      else none := by
  split_ifs with haffected
  · refine AssocList.lookup_of_mem (keys_linkUpdates s node desired) ?_
    exact mem_map.mpr ⟨c, mem_filter.mpr ⟨hc, haffected⟩, rfl⟩
  · refine lookup_eq_none_iff.mpr fun e he => bne_iff_ne.mpr fun heq => haffected ?_
    obtain ⟨d, hd, rfl⟩ := mem_map.mp he
    obtain ⟨hd, hdaffected⟩ := mem_filter.mp hd
    rwa [inj_on_of_nodup_map s.keyed hc hd heq]

theorem shown_relink (s : Store) (node : Channel) (desired : List ℕ)
    (hc : c ∈ s.memory) : shown (s.memory.relink node desired c) =
      { shown c with links := ((s.linkUpdates node desired).lookup c.id).getD c.links } := by
  rw [lookup_linkUpdates s node desired hc]
  unfold Channels.relink
  split_ifs <;> rfl

theorem AgreeOn.updateLinks {α : Type*} {π : Shown → α}
    (hπ : ∀ x y links, π x = π y → π { x with links := Option.getD links x.links } =
      π { y with links := Option.getD links y.links })
    (h : AgreeOn π s) (id : ℕ) (desired : List ℕ) (tx : Tx) :
    AgreeOn π (s.updateLinks id desired tx).1 := by
  unfold Store.updateLinks
  cases s.memory.getChannel id with
  | none => exact h
  | some node =>
    dsimp only
    split_ifs
    · exact h
    · exact h
    · cases htx : tx.execute s.table s.serverID (s.linkUpdates node desired) with
      | none => exact h
      | some table =>
        intro other
        show (Channels.getChannel (s.memory.map _) other).map _ = (table.row s.serverID other).map _
        rw [getChannel_map _ (relink_id node desired),
          row_statements (keys_linkUpdates s node desired) (statements_of_execute htx),
          Option.map_map, Option.map_map]
        cases hc : s.memory.getChannel other with
        | none =>
          rw [show s.table.row s.serverID other = none from h.row_none hc]
          rfl
        | some c =>
          obtain ⟨r, hr, hshown⟩ := h.row hc
          obtain rfl := id_of_getChannel hc
          rw [show s.table.row s.serverID c.id = some r from hr]
          refine congrArg some ?_
          show π (shown (s.memory.relink node desired c)) = _
          rw [shown_relink s node desired (mem_of_getChannel hc)]
          exact hπ (shown c) r.shown _ hshown.symm

/-! ### Update -/

theorem getChannel_edit (s : Store) (id : ℕ) (opts : UpdateOpts) (other : ℕ) :
    (s.edit id opts).memory.getChannel other =
      if other = id then (s.memory.getChannel id).map (edited opts)
      else s.memory.getChannel other := by
  show Channels.getChannel (s.memory.map _) other = _
  rw [getChannel_map _ fun d => by split_ifs <;> rfl]
  split_ifs with hid
  · subst hid
    refine Option.map_congr fun c hc => ?_
    rw [if_pos (id_of_getChannel hc)]
    rfl
  · cases hc : s.memory.getChannel other with
    | none => rfl
    | some c => rw [Option.map_some, if_neg (by rwa [id_of_getChannel hc])]

theorem edited_eq (h : hasUpdates opts = false) (c : Channel) : edited opts c = c := by
  obtain ⟨name, description, position, maxUsers, temporary, links, linksAdd, linksRemove⟩ := opts
  simp only [hasUpdates, hasLinkUpdates, Bool.or_eq_false_iff, Option.isSome_eq_false_iff,
    Option.isNone_iff_eq_none, Bool.not_eq_false', List.isEmpty_iff] at h
  obtain ⟨⟨⟨⟨⟨rfl, rfl⟩, rfl⟩, rfl⟩, rfl⟩, ⟨rfl, rfl⟩, rfl⟩ := h
  rfl

theorem newLinks_eq (h : hasLinkUpdates opts = false) (links : List ℕ) :
    opts.newLinks links = links := by
  simp only [hasLinkUpdates, Bool.or_eq_false_iff, Option.isSome_eq_false_iff,
    Option.isNone_iff_eq_none, Bool.not_eq_false', List.isEmpty_iff] at h
  unfold UpdateOpts.newLinks
  rw [h.1.1, h.1.2, h.2]
  exact if_pos ⟨rfl, rfl⟩

theorem shown_edited {r : Record} (h : r.shown = shown c) :
    (Record.edited opts (opts.newLinks c.links) r).shown = shown (edited opts c) := by
  have hparent : r.parentID.getD 0 = c.parentID := congrArg Shown.parentID h
  have hname : r.name = c.name := congrArg Shown.name h
  have hdescription : r.description = c.description := congrArg Shown.description h
  have hposition : r.position = c.position := congrArg Shown.position h
  have hmax : r.maxUsers = c.maxUsers := congrArg Shown.maxUsers h
  have htemp : r.isTemporary = c.isTemporary := congrArg Shown.isTemporary h
  have hlinks : r.links = c.links := congrArg Shown.links h
  have hnew : (if hasLinkUpdates opts then opts.newLinks c.links else c.links) =
      opts.newLinks c.links := by
    split_ifs with hany
    · rfl
    · rw [newLinks_eq (by simpa using hany)]
  simp only [Record.shown, Record.edited, edited, shown, Nodes.Row.channel, hparent, hname,
    hdescription, hposition, hmax, htemp, hlinks, hnew]

/-- Memory alone changes: they still agree only if there was nothing to change. -/
theorem Agree.edit_iff (h : Agree s) (id : ℕ) (opts : UpdateOpts) :
    Agree (s.edit id opts) ↔ ∀ c ∈ s.memory.getChannel id, shown (edited opts c) = shown c := by
  rw [agree_iff] at h ⊢
  constructor
  · intro hall c hc
    have hafter := hall id
    rw [getChannel_edit, if_pos rfl, show (s.edit id opts).row id = s.row id from rfl, ← h id,
      hc] at hafter
    exact Option.some.inj hafter
  · intro hsame other
    rw [getChannel_edit, show (s.edit id opts).row other = s.row other from rfl, ← h other]
    split_ifs with hid
    · subst hid
      rw [Option.map_map]
      exact Option.map_congr hsame
    · rfl

theorem Agree.write (h : Agree s) {id : ℕ} (hc : s.memory.getChannel id = some c)
    (opts : UpdateOpts) :
    Agree { s.edit id opts with
      table := s.table.write s.serverID id (.edited opts (opts.newLinks c.links)) } := by
  refine agree_iff.mpr fun other => ?_
  have hrow : (s.table.write s.serverID id (.edited opts (opts.newLinks c.links))).row s.serverID
      other = if other = id then (s.row id).map (.edited opts (opts.newLinks c.links))
        else s.row other :=
    Table.row_write s.table s.serverID id other _
  show ((s.edit id opts).memory.getChannel other).map shown =
    ((s.table.write s.serverID id (.edited opts (opts.newLinks c.links))).row s.serverID other).map
      Record.shown
  rw [getChannel_edit, hrow]
  split_ifs with hid
  · obtain ⟨r, hr, hshown⟩ := (agree_iff.mp h).row hc
    rw [hc, hr]
    exact congrArg some (shown_edited hshown).symm
  · exact agree_iff.mp h other

/-- The database takes the update, or there is nothing to change, and every other call does as it
likes. -/
def Lands (s : Store) : Call → Prop
  | .update id opts ok =>
    ok = true ∨ ∀ c ∈ s.memory.getChannel id, shown (edited opts c) = shown c
  | _ => True

theorem Agree.update_iff (h : Agree s) (id : ℕ) (opts : UpdateOpts) (ok : Bool) :
    Agree (s.update id opts ok).1 ↔ Lands s (.update id opts ok) := by
  unfold Store.update
  cases hc : s.memory.getChannel id with
  | none => exact iff_of_true h (.inr fun c hc' => by rw [hc] at hc'; cases hc')
  | some c =>
    split_ifs with hnothing hfails
    · have hsame : ∀ c ∈ s.memory.getChannel id, shown (edited opts c) = shown c :=
        fun c _ => by rw [edited_eq hnothing]
      exact iff_of_true ((h.edit_iff id opts).mpr hsame) (.inr hsame)
    · rw [h.edit_iff]
      exact ⟨.inr, fun hlands => hlands.resolve_left (by simp [hfails])⟩
    · exact iff_of_true (h.write hc opts) (.inl (by simpa using hfails))

/-! ### Runs -/

theorem agree_step_iff (h : Agree s) (call : Call) : Agree (step s call) ↔ Lands s call := by
  cases call with
  | create newID parentID name description position temporary maxUsers ok =>
    exact iff_of_true (agree_iff.mpr ((agree_iff.mp h).create newID parentID name description
      position temporary maxUsers ok)) trivial
  | update id opts ok => exact h.update_iff id opts ok
  | remove id ok => exact iff_of_true (agree_iff.mpr ((agree_iff.mp h).remove id ok)) trivial
  | updateLinks id desired tx =>
    refine iff_of_true (agree_iff.mpr ((agree_iff.mp h).updateLinks ?_ id desired tx)) trivial
    rintro x y links rfl
    rfl
  | clean hasUsers order ok =>
    exact iff_of_true (agree_iff.mpr ((agree_iff.mp h).clean hasUsers order ok _)) trivial

/-- **Channel memory equals the database** after every call of a run exactly if every update of the
run that the database refuses has nothing to change. -/
theorem memory_equals_database_iff {s : Store} (h : Agree s) (calls : List Call) :
    Along step (fun s call => Agree (step s call)) s calls ↔ Along step Lands s calls :=
  along_iff_of_inv_true Agree (fun _ call h => agree_step_iff h call) (fun _ _ _ h => h) h calls

/-! ### From the database -/

theorem keyed_load (t : Table) (serverID : ℕ) :
    (((t.records.filter fun r => r.live serverID).map fun r => r.channel).map
      Channel.id).Nodup := by
  rw [map_map]
  exact t.primary.sublist (filter_sublist.map _)

/-- `load`, of a table with the root channel of the server at 0. -/
def load (t : Table) (serverID : ℕ) : Store where
  serverID := serverID
  memory := (t.records.filter fun r => r.live serverID).map fun r => r.channel
  keyed := keyed_load t serverID
  table := t

theorem agree_load (t : Table) (serverID : ℕ) : Agree (load t serverID) where
  stored := by
    intro c hc
    obtain ⟨r, hr, rfl⟩ := mem_map.mp hc
    obtain ⟨hr, hlive⟩ := mem_filter.mp hr
    exact ⟨r, hr, hlive, rfl, rfl⟩
  loaded := by
    intro r hr hlive
    exact ⟨r.channel, mem_map.mpr ⟨r, mem_filter.mpr ⟨hr, hlive⟩, rfl⟩, rfl⟩

/-- A table with the root channel of one server. -/
def rootOnly : Table where
  records := [⟨⟨0, none, "Root", "", 0, 0, false, [], true⟩, 1, false⟩]
  primary := nodup_singleton _

instance (s : Store) : ∀ call : Call, Decidable (Lands s call)
  | .update id opts ok => inferInstanceAs (Decidable
      (ok = true ∨ ∀ c ∈ s.memory.getChannel id, shown (edited opts c) = shown c))
  | .create .. | .remove .. | .updateLinks .. | .clean .. => isTrue trivial

/-- A channel is made and linked with the root, an update, a commit and a deletion fail. -/
def stormy : List Call :=
  [.create 1 0 "Lounge" "" 0 true 0 true,
    .updateLinks 0 [1] ⟨true, fun _ => true, false⟩,
    .updateLinks 0 [1] ⟨true, fun _ => true, true⟩,
    .update 1 ⟨some "Hall", none, none, none, none, none, [], []⟩ true,
    .update 1 ⟨some "Hall", none, none, none, none, none, [], []⟩ false,
    .remove 1 false,
    .clean (fun _ => false) (fun _ => [0, 1]) fun _ _ => false]

theorem memory_equals_database_stormy :
    Along step (fun s call => Agree (step s call)) (load rootOnly 1) stormy :=
  (memory_equals_database_iff (agree_load rootOnly 1) stormy).mpr (by decide +kernel)

/-- The database refuses a new name, and memory has it. -/
theorem update_diverges :
    let calls := [.create 1 0 "Lounge" "" 0 false 0 true,
      .update 1 ⟨some "Hall", none, none, none, none, none, [], []⟩ false]
    ¬Agree (run step (load rootOnly 1) calls) := by
  intro calls h
  have hname := agree_iff.mp h 1
  revert hname
  decide +kernel

end MumbleServer.ChannelStore
