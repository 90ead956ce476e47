import MumbleServer.ChannelMirror
import MumbleServer.LinkComponent
import MumbleServer.LinkGraph

/-! # What `UpdateLinks` does

The links that are stored may be one-sided, repeated, or lead nowhere.  What counts are the links
between two channels that exist (`LinksTo`); of these `UpdateLinks` changes those of the channel it
is called for and no others. -/

namespace MumbleServer

/-- A channel is linked to another one, and both exist. -/
def Channels.LinksTo (cs : Channels) (a b : ℕ) : Prop :=
  a ≠ b ∧ cs.has b = true ∧ ∃ c ∈ cs, c.id = a ∧ b ∈ c.links

section relink
variable {cs : Channels} {node : Channel} {desired : List ℕ} {a b : ℕ}

open Channels

theorem linksTo_map : LinksTo (cs.map (cs.relink node desired)) a b ↔
    a ≠ b ∧ cs.has b = true ∧ ∃ c ∈ cs, c.id = a ∧ b ∈ (cs.relink node desired c).links := by
  unfold LinksTo
  rw [has_map (relink_id node desired)]
  simp only [List.mem_map, exists_exists_and_eq_and, relink_id]

theorem linksTo_relink : LinksTo (cs.map (cs.relink node desired)) a b ↔
    a ≠ b ∧ cs.has b = true ∧ ∃ c ∈ cs, c.id = a ∧
      if a = node.id then b ∈ desired
      else (b ∈ c.links ∧ b ≠ node.id) ∨ (b = node.id ∧ a ∈ desired) := by
  rw [linksTo_map]
  refine and_congr_right fun hne => and_congr_right fun hb => ?_
  refine exists_congr fun c => and_congr_right fun _ => and_congr_right fun hid => ?_
  subst hid
  exact mem_links_relink_iff (by simp [liveLinks, hne.symm, hb])

/-- If nothing is to be done, the links of the channel are the desired ones, in both directions. -/
theorem linksTo_of_linksStable (hkeyed : (cs.map Channel.id).Nodup)
    (hnode : node ∈ cs) (hs : cs.linksStable node desired = true)
    (hdes : ∀ l ∈ desired, l ≠ node.id ∧ cs.has l = true) (b : ℕ) :
    (cs.LinksTo node.id b ↔ b ∈ desired) ∧ (cs.LinksTo b node.id ↔ b ∈ desired) := by
  constructor
  · rw [← LinkGraph.mem_of_linksStable hs]
    unfold LinksTo liveLinks
    constructor
    · rintro ⟨hne, hb, c, hc, hid, hl⟩
      obtain rfl := List.inj_on_of_nodup_map hkeyed hc hnode hid
      simp [hl, hb, hne.symm]
    · intro hl
      simp only [List.mem_filter, Bool.and_eq_true, decide_eq_true_eq] at hl
      exact ⟨hl.2.1.symm, hl.2.2, node, hnode, rfl, hl.1⟩
  · simp only [linksStable, Bool.and_eq_true, List.all_eq_true, Bool.or_eq_true,
      decide_eq_true_eq, beq_iff_eq, decide_eq_decide] at hs
    constructor
    · rintro ⟨hne, -, c, hc, rfl, hl⟩
      exact ((hs.2 c hc).resolve_left hne).mp hl
    · intro hb
      obtain ⟨hne, hhas⟩ := hdes b hb
      obtain ⟨c, hc, rfl⟩ := List.mem_map.mp (has_iff.mp hhas)
      exact ⟨hne, has_of_mem hnode, c, hc, rfl, ((hs.2 c hc).resolve_left hne).mpr hb⟩

theorem linksTo_node (hnode : node ∈ cs)
    (hdes : ∀ l ∈ desired, l ≠ node.id ∧ cs.has l = true) (b : ℕ) :
    (LinksTo (cs.map (cs.relink node desired)) node.id b ↔ b ∈ desired) ∧
    (LinksTo (cs.map (cs.relink node desired)) b node.id ↔ b ∈ desired) := by
  rw [linksTo_relink, linksTo_relink]
  constructor
  · refine ⟨fun ⟨_, _, c, _, _, hb⟩ => by simpa using hb, fun hb => ?_⟩
    obtain ⟨hne, hhas⟩ := hdes b hb
    exact ⟨hne.symm, hhas, node, hnode, rfl, by simpa using hb⟩
  · constructor
    · rintro ⟨hne, -, c, -, -, h⟩
      simpa [hne] using h
    · intro hb
      obtain ⟨hne, hhas⟩ := hdes b hb
      obtain ⟨c, hc, rfl⟩ := List.mem_map.mp (has_iff.mp hhas)
      exact ⟨hne, has_of_mem hnode, c, hc, rfl, by simp [hne, hb]⟩

theorem linksTo_of_not_affected
    (hout : ∀ c ∈ cs, c.id = a → cs.linksAffected node desired c ≠ true) :
    LinksTo (cs.map (cs.relink node desired)) a b ↔ cs.LinksTo a b := by
  rw [linksTo_map]
  refine and_congr_right fun _ => and_congr_right fun _ => exists_congr fun c => ?_
  refine and_congr_right fun hc => and_congr_right fun hid => ?_
  rw [relink, if_neg (hout c hc hid)]

end relink

namespace ChannelStore

/-- The row and the channel have the links of the statement for it. -/
theorem links_of_execute {s : Store} {node : Channel} {desired : List ℕ} {tx : Tx} {table : Table}
    (htx : tx.execute s.table s.serverID (s.linkUpdates node desired) = some table) {c : Channel}
    (hc : c ∈ s.memory) (haffected : s.memory.linksAffected node desired c = true) {r : Record}
    (hr : r ∈ table.row s.serverID c.id) : r.links = (s.memory.relink node desired c).links := by
  rw [row_statements (keys_linkUpdates s node desired) (statements_of_execute htx),
    lookup_linkUpdates s node desired hc, if_pos haffected] at hr
  obtain ⟨r₀, -, rfl⟩ := Option.map_eq_some_iff.mp hr
  simp [Channels.relink, haffected]

attribute [local simp] Store.updateLinks

/-- After `UpdateLinks` has succeeded, the channel and the desired ones are linked to each other,
all other links are as before, and what was rewritten is in the table and in the answer; if it
fails, nothing has changed. -/
theorem updateLinks_exact (s : Store) (id : ℕ) (desired : List ℕ) (tx : Tx) :
    let s' := (s.updateLinks id desired tx).1
    (∀ changed, (s.updateLinks id desired tx).2 = some changed →
      (∀ b, s'.memory.LinksTo id b ↔ b ∈ desired) ∧
      (∀ a, s'.memory.LinksTo a id ↔ a ∈ desired) ∧
      (∀ a b, a ≠ id → b ≠ id → (s'.memory.LinksTo a b ↔ s.memory.LinksTo a b)) ∧
      (∀ a ∈ changed, ∀ r ∈ s'.row a, ∀ c ∈ s'.memory.getChannel a, r.links = c.links) ∧
      ∀ a b, ¬(s'.memory.LinksTo a b ↔ s.memory.LinksTo a b) → a ∈ changed) ∧
    ((s.updateLinks id desired tx).2 = none → s'.memory = s.memory) := by
  intro s'
  cases hnode : s.memory.getChannel id with
  | none => simp [s', hnode]
  | some node =>
    obtain rfl := id_of_getChannel hnode
    have hmem := mem_of_getChannel hnode
    by_cases hany : desired.any (fun l => decide (l = node.id) || !s.memory.has l) = true
    · simp [s', hnode, hany]
    · have hdes : ∀ l ∈ desired, l ≠ node.id ∧ s.memory.has l = true := by simpa using hany
      by_cases hstable : s.memory.linksStable node desired = true
      · have hs : s.updateLinks node.id desired tx = (s, some []) := by
          simp [hnode, hany, hstable]
        have hlinks := linksTo_of_linksStable s.keyed hmem hstable hdes
        rw [show s' = s from congrArg Prod.fst hs, hs]
        refine ⟨fun changed hchanged => ?_, by simp⟩
        cases hchanged
        exact ⟨fun b => (hlinks b).1, fun a => (hlinks a).2, fun _ _ _ _ => Iff.rfl, by simp,
          fun _ _ h => absurd Iff.rfl h⟩
      · cases htx : tx.execute s.table s.serverID (s.linkUpdates node desired) with
        | none => simp [s', hnode, hany, hstable, htx]
        | some table =>
          let cs' : Channels := s.memory.map (s.memory.relink node desired)
          have hmemory : s'.memory = cs' := by
            simp [s', cs', hnode, hany, hstable, htx]
          have hanswer : (s.updateLinks node.id desired tx).2 = some (Channels.sortedLinkIDs
              ((s.memory.filter (s.memory.linksAffected node desired)).map Channel.id)) := by
            simp [hnode, hany, hstable, htx]
          have hrow : ∀ a, s'.row a = table.row s.serverID a := by
            simp [s', Store.row, hnode, hany, hstable, htx]
          rw [hanswer, hmemory]
          refine ⟨fun changed hchanged => ?_, by simp⟩
          cases hchanged
          have hlinks := linksTo_node hmem hdes
          refine ⟨fun b => (hlinks b).1, fun a => (hlinks a).2, fun a b ha hb => ?_,
            fun a ha r hr c' hc' => ?_, fun a b h => ?_⟩
          · rw [linksTo_relink]
            simp [ha, hb, Channels.LinksTo]
          · rw [mem_sortedLinkIDs] at ha
            obtain ⟨c, hc, rfl⟩ := List.mem_map.mp ha
            obtain ⟨hc, haffected⟩ := List.mem_filter.mp hc
            rw [getChannel_map _ (relink_id node desired), getChannel_of_mem s.keyed hc] at hc'
            cases hc'
            exact links_of_execute htx hc haffected (hrow c.id ▸ hr)
          · rw [mem_sortedLinkIDs]
            by_contra hout
            refine h (linksTo_of_not_affected fun c hc hid haffected => hout ?_)
            exact List.mem_map.mpr ⟨c, List.mem_filter.mpr ⟨hc, haffected⟩, hid⟩

end ChannelStore
end MumbleServer
