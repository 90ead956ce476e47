import MumbleServer.ChannelEdits

/-! # Edits of channels that are made as a whole

The two halves of the handler of a ChannelState, one lemma for what each does, and from them when
a message is dealt with as a whole (`edits_all_or_nothing_iff`). -/

namespace MumbleServer.ChannelStore

open List Channels
open ServerOps (Config ChannelState Output refused mayUpdate)

/-! ### Metadata -/

section metadata
variable {m : ChannelState} {c : Channel}

theorem hasLinkUpdates_opts (m : ChannelState) : hasLinkUpdates m.opts = false := rfl

theorem hasUpdates_opts (m : ChannelState) : hasUpdates m.opts = m.hasMetadataChange := by
  have hsome : ∀ {α : Type} (p : Prop) [Decidable p] (a : α),
      (if p then none else some a).isSome = decide ¬p := by
    intro α p _ a
    split_ifs with hp <;> simp [hp]
  have htemp : (if m.temporary = true then some true else none).isSome = m.temporary := by
    cases m.temporary <;> rfl
  unfold hasUpdates ChannelState.hasMetadataChange
  rw [hasLinkUpdates_opts, Bool.or_false]
  unfold ChannelState.opts
  simp only [hsome, htemp, ne_eq]

theorem granted_edited (m : ChannelState) (c : Channel) : Granted m (edited m.opts c) := by
  unfold Granted edited ChannelState.opts
  refine ⟨fun h => ?_, fun h => ?_, fun h => ?_, fun h => ?_, fun h => ?_⟩ <;> simp [h]

theorem edited_of_granted (h : Granted m c) : edited m.opts c = c := by
  have hkeep : ∀ {α : Type} {p : Prop} [Decidable p] {a b : α}, (¬p → b = a) →
      (if p then none else some a).getD b = b := by
    intro α p _ a b hab
    split_ifs with hp
    · rfl
    · exact (hab hp).symm
  obtain ⟨hname, hdescription, hposition, hmax, htemp⟩ := h
  have htemporary : (if m.temporary = true then some true else none).getD c.isTemporary =
      c.isTemporary := by
    split_ifs with ht
    · exact (htemp ht).symm
    · rfl
  unfold edited ChannelState.opts
  dsimp only
  rw [hkeep hname, hkeep hdescription, hkeep hposition, hkeep hmax, htemporary]
  rfl

theorem granted_of_not_hasMetadataChange (h : m.hasMetadataChange = false) (c : Channel) :
    Granted m c := by
  have hsame := edited_eq (hasUpdates_opts m ▸ h) c
  rw [← hsame]
  exact granted_edited m c

end metadata

/-! ### Link updates do not look at the metadata -/

section rename
variable {cs : Channels} {f : Channel → Channel} (hid : ∀ d, (f d).id = d.id)
  (hlinks : ∀ d, (f d).links = d.links)
include hid hlinks

theorem liveLinks_map (d : Channel) : liveLinks (cs.map f) (f d) = cs.liveLinks d := by
  unfold liveLinks
  rw [hlinks, hid]
  simp only [has_map hid]

section
variable (node : Channel) (desired : List ℕ)
include node desired

theorem linksStable_map :
    linksStable (cs.map f) (f node) desired = cs.linksStable node desired := by
  unfold linksStable
  rw [liveLinks_map hid hlinks, all_map]
  simp only [Function.comp_def, hid, hlinks]

theorem linksAffected_map (d : Channel) :
    linksAffected (cs.map f) (f node) desired (f d) = cs.linksAffected node desired d := by
  unfold linksAffected
  rw [liveLinks_map hid hlinks, hid, hid, hlinks]

theorem relinked_map (d : Channel) :
    relinked (cs.map f) (f node) desired (f d) = cs.relinked node desired d := by
  unfold relinked
  rw [liveLinks_map hid hlinks, hid, hid]

end

theorem linkUpdates_map {s s' : Store} (hs : s'.memory = s.memory.map f) (node : Channel)
    (desired : List ℕ) : s'.linkUpdates (f node) desired = s.linkUpdates node desired := by
  unfold Store.linkUpdates
  rw [hs, filter_map, map_map]
  have haffected : linksAffected (s.memory.map f) (f node) desired ∘ f =
      s.memory.linksAffected node desired :=
    funext (linksAffected_map hid hlinks node desired)
  rw [haffected]
  refine map_congr_left fun d _ => ?_
  show ((f d).id, _) = _
  rw [hid, relinked_map hid hlinks]

end rename

/-! ### The first half -/

section first
variable {s : Store} {m : ChannelState} {ch : Channel}

/-- A channel after the first half. -/
def retitled (m : ChannelState) (d : Channel) : Channel :=
  if d.id = m.channelID then edited m.opts d else d

theorem retitled_id (m : ChannelState) (d : Channel) : (retitled m d).id = d.id := by
  unfold retitled
  split_ifs <;> rfl

theorem retitled_links (m : ChannelState) (d : Channel) : (retitled m d).links = d.links := by
  unfold retitled
  split_ifs
  · exact newLinks_eq (hasLinkUpdates_opts m) d.links
  · rfl

/-- What the first half does.  In memory the metadata change whether or not the database takes
them. -/
theorem editMetadata_spec (hch : s.memory.getChannel m.channelID = some ch) (ok : Bool) :
    (editMetadata s m ok).1.serverID = s.serverID ∧
    (editMetadata s m ok).1.memory = s.memory.map (retitled m) ∧
    (editMetadata s m ok).1.table =
      (if m.hasMetadataChange && ok then
        s.table.write s.serverID m.channelID (.edited m.opts ch.links) else s.table) ∧
    (editMetadata s m ok).2 =
      if m.hasMetadataChange && ok then [.channel (edited m.opts ch)] else [] := by
  have hself : getChannel (s.memory.map (retitled m)) m.channelID = some (edited m.opts ch) := by
    rw [getChannel_map _ (retitled_id m), hch, Option.map_some, retitled,
      if_pos (id_of_getChannel hch)]
  unfold editMetadata
  cases hmeta : m.hasMetadataChange with
  | false =>
    have hsame : ∀ d, retitled m d = d := by
      intro d
      unfold retitled
      split_ifs
      · exact edited_eq ((hasUpdates_opts m).trans hmeta) d
      · rfl
    refine ⟨rfl, ?_, rfl, rfl⟩
    rw [if_pos rfl, map_congr_left fun d _ => hsame d, map_id']
  | true =>
    have hsome : hasUpdates m.opts = true := (hasUpdates_opts m).trans hmeta
    rw [if_neg Bool.true_eq_false.mp]
    unfold Store.update
    rw [hch]
    dsimp only
    rw [if_neg (by rw [hsome]; exact Bool.true_eq_false.mp)]
    cases ok with
    | false => exact ⟨rfl, rfl, rfl, rfl⟩
    | true =>
      refine ⟨rfl, rfl, ?_, ?_⟩
      · rw [newLinks_eq (hasLinkUpdates_opts m)]
        rfl
      · show announce _ [m.channelID] = _
        unfold announce
        rw [filterMap_cons_some (b := .channel (edited m.opts ch))]
        · rfl
        · exact congrArg (Option.map Output.channel) hself

end first

/-! ### The second half -/

theorem statements_isSome (tx : Tx) (serverID : ℕ) (updated : List (ℕ × List ℕ)) (t : Table) :
    (updated.foldlM (fun (t : Table) e => if tx.updates e.1 then
      some (t.write serverID e.1 fun r => { r with links := e.2 }) else none) t).isSome =
      updated.all fun e => tx.updates e.1 := by
  induction updated generalizing t with
  | nil => rfl
  | cons e rest ih =>
    rw [foldlM_cons, all_cons]
    cases tx.updates e.1 with
    | false => rfl
    | true => exact ih _

theorem execute_isSome (tx : Tx) (t : Table) (serverID : ℕ) (updated : List (ℕ × List ℕ)) :
    (tx.execute t serverID updated).isSome = tx.succeeds updated := by
  have hall := statements_isSome tx serverID updated t
  unfold Tx.execute Tx.succeeds
  cases tx.begins with
  | false => rfl
  | true =>
    rw [if_neg Bool.true_eq_false.mp, ← hall]
    split
    · rename_i hnone
      rw [hnone]
      rfl
    · rename_i t₁ hsome
      rw [hsome]
      cases tx.commits <;> rfl

section second
variable {s : Store} {m : ChannelState} {ch : Channel} {tx : Tx}

theorem editLinks_refused (hch : s.memory.getChannel m.channelID = some ch)
    (h : linksRefused s m ch tx = true) : editLinks s m (m.desiredLinks ch.links) tx =
      (s, refused { channelID := m.channelID, type := .permission }) := by
  unfold linksRefused at h
  rw [Bool.and_eq_true, Bool.or_eq_true, Bool.and_eq_true, Bool.not_eq_true', Bool.not_eq_true',
    ← execute_isSome tx s.table s.serverID, Option.isSome_eq_false_iff,
    Option.isNone_iff_eq_none] at h
  obtain ⟨hlink, hwhy⟩ := h
  unfold editLinks Store.updateLinks
  rw [hlink, if_neg Bool.true_eq_false.mp, hch]
  dsimp only
  rcases hwhy with hbad | ⟨hstable, hfails⟩
  · rw [if_pos hbad]
  · rw [hstable, hfails]
    split_ifs
    · rfl
    · rename_i hnot
      cases hnot
    · rfl

/-- The links as they are after the second half. -/
def relinkedStore (s : Store) (node : Channel) (desired : List ℕ) (table : Table) : Store where
  serverID := s.serverID
  memory := s.memory.map (s.memory.relink node desired)
  keyed := keyed_map s.keyed (relink_id node desired)
  table := table

theorem announce_not_denied (s : Store) (ids : List ℕ) : (announce s ids).any isDenied = false := by
  rw [any_eq_false]
  intro o ho
  obtain ⟨id, -, hid⟩ := mem_filterMap.mp ho
  obtain ⟨c, -, rfl⟩ := Option.map_eq_some_iff.mp hid
  exact Bool.false_ne_true

theorem editLinks_accepted (hch : s.memory.getChannel m.channelID = some ch)
    (h : linksRefused s m ch tx = false) :
    (editLinks s m (m.desiredLinks ch.links) tx).2.any isDenied = false ∧
    (((editLinks s m (m.desiredLinks ch.links) tx).1 = s ∧
        (m.hasLinkChange = true →
          s.memory.linksStable ch (m.desiredLinks ch.links) = true)) ∨
      (m.hasLinkChange = true ∧ s.memory.linksStable ch (m.desiredLinks ch.links) = false ∧
        ∃ table, tx.execute s.table s.serverID (s.linkUpdates ch (m.desiredLinks ch.links)) =
            some table ∧
          (editLinks s m (m.desiredLinks ch.links) tx).1 =
            relinkedStore s ch (m.desiredLinks ch.links) table)) := by
  unfold editLinks Store.updateLinks
  cases hlink : m.hasLinkChange with
  | false => exact ⟨rfl, .inl ⟨rfl, fun hnot => by cases hnot⟩⟩
  | true =>
    unfold linksRefused at h
    rw [hlink, Bool.true_and, Bool.or_eq_false_iff] at h
    rw [if_neg Bool.true_eq_false.mp, hch]
    dsimp only
    rw [if_neg (by rw [h.1]; exact Bool.false_ne_true)]
    cases hstable : s.memory.linksStable ch (m.desiredLinks ch.links) with
    | true => exact ⟨rfl, .inl ⟨rfl, fun _ => rfl⟩⟩
    | false =>
      rw [hstable, Bool.not_false, Bool.true_and, Bool.not_eq_false',
        ← execute_isSome tx s.table s.serverID] at h
      obtain ⟨table, htable⟩ := Option.isSome_iff_exists.mp h.2
      rw [if_neg Bool.false_ne_true, htable]
      exact ⟨announce_not_denied _ _, .inr ⟨rfl, rfl, table, rfl, rfl⟩⟩

end second

/-! ### Links in force -/

/-- The links of a channel, and those of the others to it, are the desired ones. -/
def LinkedAs (id : ℕ) (desired : List ℕ) (look : ℕ → Option Channel) : Prop :=
  (∀ c ∈ look id, ∀ l, l ∈ c.links ↔ l ∈ desired) ∧
    ∀ other, other ≠ id → ∀ c ∈ look other, (id ∈ c.links ↔ other ∈ desired)

variable {m : ChannelState} {desired : List ℕ}

theorem inForce_iff {look : ℕ → Option Channel} :
    InForce m desired look ↔ (∀ c ∈ look m.channelID, Granted m c) ∧
      (m.hasLinkChange = true → LinkedAs m.channelID desired look) :=
  ⟨fun h => ⟨h.metadata, fun hlink => ⟨h.links hlink, h.back hlink⟩⟩,
    fun h => ⟨h.1, fun hlink => (h.2 hlink).1, fun hlink => (h.2 hlink).2⟩⟩

section looks
variable {look look' : ℕ → Option Channel}

theorem LinkedAs.congr {id : ℕ}
    (hsame : ∀ i, (look i).map Channel.links = (look' i).map Channel.links)
    (h : LinkedAs id desired look) : LinkedAs id desired look' := by
  have hback : ∀ i, ∀ c' ∈ look' i, ∃ c ∈ look i, c.links = c'.links := by
    intro i c' hc'
    have hi := hsame i
    rw [show look' i = some c' from hc', Option.map_some] at hi
    exact Option.map_eq_some_iff.mp hi
  refine ⟨fun c' hc' => ?_, fun other hne c' hc' => ?_⟩
  · obtain ⟨c, hc, hlinks⟩ := hback id c' hc'
    exact hlinks ▸ h.1 c hc
  · obtain ⟨c, hc, hlinks⟩ := hback other c' hc'
    exact hlinks ▸ h.2 other hne c hc

def bare (c : Channel) : Channel := { c with links := [] }

theorem granted_of_bare {id : ℕ} (hsame : (look id).map bare = (look' id).map bare)
    (h : ∀ c ∈ look id, Granted m c) : ∀ c ∈ look' id, Granted m c := by
  intro c' hc'
  rw [show look' id = some c' from hc', Option.map_some] at hsame
  obtain ⟨c, hc, hbare⟩ := Option.map_eq_some_iff.mp hsame
  have hgranted : Granted m (bare c) := h c hc
  rw [hbare] at hgranted
  exact hgranted

end looks

variable {s : Store}

theorem paired_links (h : Paired s) (id : ℕ) :
    (s.memory.getChannel id).map Channel.links = (s.stored id).map Channel.links := by
  rw [Store.stored, Option.map_map]
  exact h id

theorem Paired.linkedAs_iff (h : Paired s) (id : ℕ) (desired : List ℕ) :
    LinkedAs id desired s.stored ↔ LinkedAs id desired s.memory.getChannel :=
  ⟨fun hl => hl.congr fun i => (paired_links h i).symm, fun hl => hl.congr (paired_links h)⟩

section links
variable {cs : Channels} {node : Channel} {desired : List ℕ}

theorem linkedAs_relink (hnode : cs.getChannel node.id = some node) :
    LinkedAs node.id desired (getChannel (cs.map (cs.relink node desired))) := by
  constructor
  · intro c hc l
    rw [getChannel_map _ (relink_id node desired), hnode] at hc
    obtain rfl := Option.some.inj hc
    rw [relink, if_pos (by simp [linksAffected]), relinked,
      mem_sortedLinkIDs, if_pos rfl]
  · intro other hne c hc
    rw [getChannel_map _ (relink_id node desired)] at hc
    obtain ⟨d, hd, rfl⟩ := Option.map_eq_some_iff.mp hc
    obtain rfl := id_of_getChannel hd
    unfold relink
    split_ifs with haffected
    · rw [relinked, mem_sortedLinkIDs, if_neg hne, mem_append]
      by_cases hwanted : d.id ∈ desired <;> simp [hwanted]
    · simp only [linksAffected, Bool.or_eq_true, decide_eq_true_eq, not_or] at haffected
      exact iff_of_false haffected.2 haffected.1.2

/-- If nothing is to be done then the links are as desired, up to those to channels that are
gone. -/
theorem linkedAs_of_stable (hnode : cs.getChannel node.id = some node)
    (hs : cs.linksStable node desired = true) :
    LinkedAs node.id desired cs.getChannel ↔
      ∀ l ∈ node.links, l ≠ node.id ∧ cs.has l = true := by
  have hlive := fun l => LinkGraph.mem_of_linksStable (l := l) hs
  constructor
  · rintro ⟨hlinks, -⟩ l hl
    have hmem := (hlive l).mpr ((hlinks node hnode l).mp hl)
    simpa using (mem_filter.mp hmem).2
  · intro hall
    refine ⟨fun c hc l => ?_, fun other hne c hc => ?_⟩
    · obtain rfl := Option.some.inj (hnode.symm.trans hc)
      rw [← hlive l]
      refine ⟨fun hl => mem_filter.mpr ⟨hl, by simpa using hall l hl⟩, fun hl => ?_⟩
      exact (mem_filter.mp hl).1
    · obtain rfl := id_of_getChannel hc
      simp only [linksStable, Bool.and_eq_true, all_eq_true, Bool.or_eq_true,
        decide_eq_true_eq, beq_iff_eq] at hs
      have hback := (hs.2 c (mem_of_getChannel hc)).resolve_left hne
      exact decide_eq_decide.mp hback

end links

/-! ### What the halves keep -/

section kept
variable {s : Store} {m : ChannelState} {ch : Channel}

theorem paired_editMetadata (h : Paired s) (m : ChannelState) (ok : Bool) :
    Paired (editMetadata s m ok).1 := by
  have hupdate := h.update (hasLinkUpdates_opts m) m.channelID ok
  unfold editMetadata
  split_ifs
  · exact h
  · rcases hu : s.update m.channelID m.opts ok with ⟨s', _ | _⟩ <;> rw [hu] at hupdate <;>
      exact hupdate

theorem paired_editLinks (h : Paired s) (desired : List ℕ) (tx : Tx) :
    Paired (editLinks s m desired tx).1 := by
  have hupdate := h.updateLinks m.channelID desired tx
  unfold editLinks
  split_ifs
  · exact h
  · rcases hu : s.updateLinks m.channelID desired tx with ⟨s', _ | _⟩ <;> rw [hu] at hupdate <;>
      exact hupdate

theorem bare_editLinks {tx : Tx} (hch : s.memory.getChannel m.channelID = some ch)
    (h : linksRefused s m ch tx = false) (id : ℕ) :
    ((editLinks s m (m.desiredLinks ch.links) tx).1.memory.getChannel id).map bare =
      (s.memory.getChannel id).map bare ∧
    ((editLinks s m (m.desiredLinks ch.links) tx).1.stored id).map bare =
      (s.stored id).map bare := by
  obtain ⟨-, hsame | ⟨-, -, table, htable, hrelinked⟩⟩ := editLinks_accepted hch h
  · rw [hsame.1]
    exact ⟨rfl, rfl⟩
  · rw [hrelinked]
    constructor
    · show (getChannel (s.memory.map _) id).map bare = _
      rw [getChannel_map _ (relink_id _ _), Option.map_map]
      refine Option.map_congr fun c _ => ?_
      show bare (s.memory.relink _ _ c) = bare c
      unfold relink
      split_ifs <;> rfl
    · show ((table.row s.serverID id).map fun r => r.channel).map bare = _
      rw [row_statements (keys_linkUpdates s _ _) (statements_of_execute htable), Store.stored,
        Option.map_map, Option.map_map, Option.map_map]
      rfl

theorem granted_stored_iff (hch : s.memory.getChannel m.channelID = some ch) (ok : Bool) :
    (∀ c ∈ (editMetadata s m ok).1.stored m.channelID, Granted m c) ↔
      (m.hasMetadataChange = true → ok = true ∨ ∀ c ∈ s.stored m.channelID, Granted m c) := by
  obtain ⟨hserver, -, htable, -⟩ := editMetadata_spec hch ok
  unfold Store.stored Store.row
  rw [hserver, htable]
  cases hmeta : m.hasMetadataChange with
  | false =>
    exact iff_of_true (fun c _ => granted_of_not_hasMetadataChange hmeta c)
      fun hnot => by cases hnot
  | true =>
    cases ok with
    | false => simp
    | true =>
      refine iff_of_true (fun c hc => ?_) fun _ => .inl rfl
      rw [if_pos (Bool.and_self true), Table.row_write, if_pos rfl, Option.map_map] at hc
      obtain ⟨r, -, rfl⟩ := Option.map_eq_some_iff.mp hc
      exact granted_edited m r.channel

end kept

/-! ### The handler -/

section handler
variable {s : Store} {m : ChannelState} {ch : Channel} {o : Outcome}

theorem after_editMetadata (hch : s.memory.getChannel m.channelID = some ch) (ok : Bool)
    (tx : Tx) :
    (editMetadata s m ok).1.memory.getChannel m.channelID = some (retitled m ch) ∧
    Granted m (retitled m ch) ∧
    linksRefused (editMetadata s m ok).1 m (retitled m ch) tx = linksRefused s m ch tx ∧
    (editMetadata s m ok).1.memory.linksStable (retitled m ch) (m.desiredLinks ch.links) =
      s.memory.linksStable ch (m.desiredLinks ch.links) ∧
    ∀ l, (editMetadata s m ok).1.memory.has l = s.memory.has l := by
  obtain ⟨-, hmemory, -, -⟩ := editMetadata_spec hch ok
  have hstable : ∀ desired, linksStable (s.memory.map (retitled m)) (retitled m ch)
      desired = s.memory.linksStable ch desired :=
    linksStable_map (retitled_id m) (retitled_links m) ch
  have hhas : ∀ l, has (s.memory.map (retitled m)) l = s.memory.has l :=
    has_map (retitled_id m)
  refine ⟨?_, ?_, ?_, ?_, ?_⟩
  · rw [hmemory, getChannel_map _ (retitled_id m), hch, Option.map_some]
  · rw [retitled, if_pos (id_of_getChannel hch)]
    exact granted_edited m ch
  · unfold linksRefused
    rw [retitled_links, linkUpdates_map (retitled_id m) (retitled_links m) hmemory, hmemory,
      hstable]
    simp only [hhas]
  · rw [hmemory, hstable]
  · intro l
    rw [hmemory, hhas]

/-- A message whose links cannot be set: nothing may have been done before. -/
theorem refused_iff (hch : s.memory.getChannel m.channelID = some ch) :
    ((editMetadata s m o.update).1 = s ∧
      (editMetadata s m o.update).2.any isChannelState = false) ↔
      (m.hasMetadataChange = true → o.update = false ∧ Granted m ch) := by
  obtain ⟨hserver, hmemory, htable, hout⟩ := editMetadata_spec hch o.update
  obtain ⟨hself, hgranted, -⟩ := after_editMetadata hch o.update o.links
  constructor
  · rintro ⟨hsame, hquiet⟩ hmeta
    rw [hsame, hch] at hself
    refine ⟨?_, Option.some.inj hself ▸ hgranted⟩
    cases hok : o.update with
    | false => rfl
    | true =>
      rw [hout, hmeta, hok] at hquiet
      cases hquiet
  · intro h
    have hskip : (m.hasMetadataChange && o.update) = false := by
      cases hmeta : m.hasMetadataChange with
      | false => rfl
      | true => rw [(h hmeta).1, Bool.and_false]
    have hgr : Granted m ch := by
      cases hmeta : m.hasMetadataChange with
      | false => exact granted_of_not_hasMetadataChange hmeta ch
      | true => exact (h hmeta).2
    have hkeep : s.memory.map (retitled m) = s.memory := by
      refine (map_congr_left fun d hd => ?_).trans (map_id' s.memory)
      unfold retitled
      split_ifs with hid
      · have hsame := hch
        rw [← hid, getChannel_of_mem s.keyed hd] at hsame
        rw [Option.some.inj hsame]
        exact edited_of_granted hgr
      · rfl
    rw [hskip] at htable hout
    rw [hkeep] at hmemory
    exact ⟨Store.ext hserver hmemory htable, by rw [hout]; rfl⟩

/-- A message whose links can be set: what it asks for is in force. -/
theorem accepted_iff (h : Paired s) (hch : s.memory.getChannel m.channelID = some ch)
    (hok : linksRefused s m ch o.links = false) :
    (InForce m (m.desiredLinks ch.links) (editChannel s m ch o).1.memory.getChannel ∧
      InForce m (m.desiredLinks ch.links) (editChannel s m ch o).1.stored) ↔
      (m.hasMetadataChange = true →
        o.update = true ∨ ∀ c ∈ s.stored m.channelID, Granted m c) ∧
      (m.hasLinkChange = true → s.memory.linksStable ch (m.desiredLinks ch.links) = true →
        ∀ l ∈ ch.links, l ≠ m.channelID ∧ s.memory.has l = true) := by
  obtain ⟨hself, hgranted, hrefused, hstable, hhas⟩ := after_editMetadata hch o.update o.links
  have hid : (retitled m ch).id = m.channelID := id_of_getChannel hself
  have hlinks : (retitled m ch).links = ch.links := retitled_links m ch
  have hpaired : Paired (editChannel s m ch o).1 :=
    paired_editLinks (paired_editMetadata h m o.update) _ _
  rw [← hrefused] at hok
  have hbare := bare_editLinks hself hok
  have haccepted := editLinks_accepted hself hok
  rw [hlinks] at hbare haccepted
  have hmemory : ∀ c ∈ (editChannel s m ch o).1.memory.getChannel m.channelID, Granted m c := by
    refine granted_of_bare (hbare m.channelID).1.symm fun c hc => ?_
    obtain rfl := Option.some.inj (hself.symm.trans hc)
    exact hgranted
  have hstored : (∀ c ∈ (editChannel s m ch o).1.stored m.channelID, Granted m c) ↔
      (m.hasMetadataChange = true → o.update = true ∨ ∀ c ∈ s.stored m.channelID, Granted m c) := by
    rw [← granted_stored_iff hch]
    exact ⟨granted_of_bare (hbare m.channelID).2, granted_of_bare (hbare m.channelID).2.symm⟩
  have hlinked : m.hasLinkChange = true →
      (LinkedAs m.channelID (m.desiredLinks ch.links) (editChannel s m ch o).1.memory.getChannel ↔
        (s.memory.linksStable ch (m.desiredLinks ch.links) = true →
          ∀ l ∈ ch.links, l ≠ m.channelID ∧ s.memory.has l = true)) := by
    intro hlink
    have hself' : (editMetadata s m o.update).1.memory.getChannel (retitled m ch).id =
        some (retitled m ch) := hid.symm ▸ hself
    unfold editChannel
    dsimp only
    rcases haccepted.2 with ⟨hsame, hst⟩ | ⟨-, hst, table, -, hrelinked⟩
    · have hiff := linkedAs_of_stable hself' (hst hlink)
      simp only [hid, hlinks, hhas] at hiff
      rw [hsame, hiff, ← hstable]
      exact ⟨fun hall _ => hall, fun hall => hall (hst hlink)⟩
    · rw [hrelinked, ← hstable, hst]
      refine iff_of_true ?_ fun hnot => absurd hnot Bool.false_ne_true
      have hlinkedAs : LinkedAs (retitled m ch).id (m.desiredLinks ch.links) _ :=
        linkedAs_relink hself'
      rwa [hid] at hlinkedAs
  rw [inForce_iff, inForce_iff, hpaired.linkedAs_iff]
  constructor
  · rintro ⟨⟨-, hl⟩, hs, -⟩
    exact ⟨hstored.mp hs, fun hlink => (hlinked hlink).mp (hl hlink)⟩
  · rintro ⟨hs, hl⟩
    have hforce := fun hlink => (hlinked hlink).mpr (hl hlink)
    exact ⟨⟨hmemory, hforce⟩, hstored.mpr hs, hforce⟩

end handler

theorem editChannel_consistent_iff (h : Paired s) {ch : Channel}
    (hch : s.memory.getChannel m.channelID = some ch) (o : Outcome) :
    Consistent m (m.desiredLinks ch.links) s (editChannel s m ch o).1 (editChannel s m ch o).2 ↔
      if linksRefused s m ch o.links then
        m.hasMetadataChange = true → o.update = false ∧ Granted m ch
      else
        (m.hasMetadataChange = true →
          o.update = true ∨ ∀ c ∈ s.stored m.channelID, Granted m c) ∧
        (m.hasLinkChange = true → s.memory.linksStable ch (m.desiredLinks ch.links) = true →
          ∀ l ∈ ch.links, l ≠ m.channelID ∧ s.memory.has l = true) := by
  obtain ⟨hself, -, hrefused, -⟩ := after_editMetadata hch o.update o.links
  obtain ⟨-, -, -, hout⟩ := editMetadata_spec hch o.update
  have hlinks : (retitled m ch).links = ch.links := retitled_links m ch
  have hedit : editChannel s m ch o =
      ((editLinks (editMetadata s m o.update).1 m (m.desiredLinks ch.links) o.links).1,
        (editMetadata s m o.update).2 ++
          (editLinks (editMetadata s m o.update).1 m (m.desiredLinks ch.links) o.links).2) := rfl
  unfold Consistent
  cases hcase : linksRefused s m ch o.links with
  | true =>
    have hsecond := editLinks_refused hself (hrefused.trans hcase)
    rw [hlinks] at hsecond
    have hdenied : (editChannel s m ch o).2.any isDenied = true := by
      rw [hedit, hsecond, any_append]
      exact Bool.or_true _
    have hquiet : (editChannel s m ch o).2.any isChannelState =
        (editMetadata s m o.update).2.any isChannelState := by
      rw [hedit, hsecond, any_append]
      exact Bool.or_false _
    have hstore : (editChannel s m ch o).1 = (editMetadata s m o.update).1 := by
      rw [hedit, hsecond]
    rw [if_pos hdenied, if_pos rfl, hquiet, hstore]
    exact refused_iff hch
  | false =>
    have hsecond := (editLinks_accepted hself (hrefused.trans hcase)).1
    rw [hlinks] at hsecond
    have hfirst : (editMetadata s m o.update).2.any isDenied = false := by
      rw [hout]
      split_ifs <;> rfl
    have hdenied : (editChannel s m ch o).2.any isDenied = false := by
      rw [hedit, any_append, hfirst, hsecond]
      rfl
    rw [if_neg (by rw [hdenied]; exact Bool.false_ne_true), if_neg Bool.false_ne_true]
    exact accepted_iff h hch hcase

/-- **Denied edits change nothing, and the others are made**: a ChannelState for a channel that
exists is dealt with as a whole exactly if `Whole` holds. -/
theorem edits_all_or_nothing_iff (cfg : Config) {d : Desk} (h : Paired d.store) (m : ChannelState)
    (c : SessionRef) (o : Outcome) (hnew : m.channelID ≠ 0) (ch : Channel)
    (hch : d.store.memory.getChannel m.channelID = some ch) :
    AllOrNothing cfg d m c o (m.desiredLinks ch.links) ↔ Whole cfg d m c o ch := by
  unfold AllOrNothing Whole
  cases hs : sender d c with
  | none =>
    have hhandle : handleChannelState m cfg d c o = (d, []) := by
      unfold handleChannelState
      rw [hs]
    rw [hhandle]
    exact Iff.rfl
  | some u =>
    have hhandle : handleChannelState m cfg d c o =
        if mayUpdate cfg d.site u m ch = false then
          (d, refused { channelID := m.channelID, type := .permission })
        else ({ d with store := (editChannel d.store m ch o).1 },
          (editChannel d.store m ch o).2) := by
      unfold handleChannelState
      rw [hs]
      dsimp only
      rw [if_neg hnew, hch]
    rw [hhandle]
    dsimp only
    by_cases hmay : mayUpdate cfg d.site u m ch = false
    · rw [if_pos hmay]
      refine iff_of_true ?_ fun hnot => ?_
      · exact ⟨rfl, rfl⟩
      · rw [hmay] at hnot
        cases hnot
    · rw [if_neg hmay, forall_prop_of_true (by simpa using hmay)]
      exact editChannel_consistent_iff h hch o

/-! ### Messages that are dealt with as a whole, and others -/

/-- Two channels below the root, one of which has a link to a third that is gone. -/
def linkedRooms : List Call :=
  [.create 1 0 "Lounge" "" 0 false 0 true, .create 2 0 "Attic" "" 0 false 0 true,
    .create 3 0 "Cellar" "" 0 false 0 true, .updateLinks 1 [3] ⟨true, fun _ => true, true⟩,
    .remove 3 true]

/-- A super user is on the server. -/
def rooms : Desk where
  state := (run (ServerOps.step ServerOps.config) ServerOps.newSite
    [.login { ServerOps.client 9 "SuperUser" with isSuperUser := true } "local"]).state
  store := run step (load rootOnly 1) linkedRooms

theorem paired_rooms : Paired rooms.store :=
  paired_run (paired_of_agree (agree_load rootOnly 1)) (by simp [linkedRooms, Plain])

/-- The channel without stale links gets a new name and a link. -/
theorem edits_all_or_nothing_attic :
    AllOrNothing ServerOps.config rooms { channelID := 2, name := "Loft", linksAdd := [0] } ⟨1, 1⟩
      (.all 4 true) [0] := by
  refine (edits_all_or_nothing_iff ServerOps.config paired_rooms
    { channelID := 2, name := "Loft", linksAdd := [0] } ⟨1, 1⟩ (.all 4 true) (by decide)
    ⟨2, 0, "Attic", "", 0, 0, false, [], true⟩ (by decide +kernel)).mpr ?_
  unfold Whole
  split
  · rename_i hnone
    exact absurd hnone (by decide +kernel)
  · intro _
    rw [if_neg (by decide +kernel)]
    exact ⟨fun _ => .inl rfl, fun _ hstable => absurd hstable (by decide +kernel)⟩

/-- A new name and a link for the channel with the stale one: the name is announced and the sender
refused.  A new name that the database refuses: the sender is not told.  The stale link is to go: it
stays. -/
theorem edits_by_halves :
    ¬AllOrNothing ServerOps.config rooms { channelID := 1, name := "Hall", linksAdd := [2] } ⟨1, 1⟩
      (.all 4 true) [3, 2] ∧
    ¬AllOrNothing ServerOps.config rooms { channelID := 2, name := "Loft" } ⟨1, 1⟩ (.all 4 false)
      [] ∧
    ¬AllOrNothing ServerOps.config rooms { channelID := 1, linksRemove := [3] } ⟨1, 1⟩ (.all 4 true)
      [] := by
  refine ⟨fun h => ?_, fun h => ?_, fun h => ?_⟩
  · unfold AllOrNothing Consistent at h
    rw [if_pos (by decide +kernel)] at h
    exact absurd h.2 (by decide +kernel)
  · unfold AllOrNothing Consistent at h
    rw [if_neg (by decide +kernel)] at h
    exact absurd (h.2.metadata ⟨2, 0, "Attic", "", 0, 0, false, [], true⟩ (by decide +kernel)).1
      (by decide)
  · unfold AllOrNothing Consistent at h
    rw [if_neg (by decide +kernel)] at h
    exact absurd ((h.1.links rfl ⟨1, 0, "Lounge", "", 0, 0, false, [3], true⟩ (by decide +kernel)
      3).mp (by decide)) (by decide)

end MumbleServer.ChannelStore
