import MumbleServer.ChannelView

/-! # The links between channels as a graph

Links are to be two-sided, no channel is linked to itself, and links lead to channels that exist
(`LinkGraph`).  `UpdateLinks` keeps them so, and so does everything that creates or renames
channels.  Only what removes a channel leaves the links of the others as they are: `Remove`, for a
ChannelRemove and for the REST interface, and the cleanup of temporary channels.

While the links are a graph, every request for links that names other channels that exist and
passes the checks is granted (`Granted`). -/

namespace MumbleServer

open List

/-- The links are two-sided and lead to other channels that exist. -/
structure LinkGraph (cs : Channels) : Prop where
  other : ∀ c ∈ cs, c.id ∉ c.links
  live : ∀ c ∈ cs, ∀ l ∈ c.links, cs.has l = true
  symm : ∀ c ∈ cs, ∀ d ∈ cs, d.id ∈ c.links → c.id ∈ d.links

/-! ### The graph and the calls of the channel manager -/

namespace LinkGraph
variable {cs : Channels} (h : LinkGraph cs)
include h

theorem liveLinks_eq {c : Channel} (hc : c ∈ cs) : cs.liveLinks c = c.links := by
  refine filter_eq_self.mpr fun l hl => ?_
  rw [Bool.and_eq_true, decide_eq_true_eq]
  exact ⟨fun heq => h.other c hc (heq ▸ hl), h.live c hc l hl⟩

theorem map {f : Channel → Channel} (hid : ∀ d, (f d).id = d.id)
    (hlinks : ∀ d, (f d).links = d.links) : LinkGraph (cs.map f) := by
  refine ⟨fun c' hc' => ?_, fun c' hc' l hl => ?_, fun c' hc' d' hd' hl => ?_⟩
  · obtain ⟨c, hc, rfl⟩ := mem_map.mp hc'
    rw [hid, hlinks]
    exact h.other c hc
  · obtain ⟨c, hc, rfl⟩ := mem_map.mp hc'
    rw [hlinks] at hl
    rw [has_map hid]
    exact h.live c hc l hl
  · obtain ⟨c, hc, rfl⟩ := mem_map.mp hc'
    obtain ⟨d, hd, rfl⟩ := mem_map.mp hd'
    rw [hid, hlinks] at hl ⊢
    exact h.symm c hc d hd hl

theorem cons {ch : Channel} (hnew : ch.id ∉ cs.map Channel.id) (hnone : ch.links = []) :
    LinkGraph (ch :: cs) := by
  refine ⟨fun c hc => ?_, fun c hc l hl => ?_, fun c hc d hd hl => ?_⟩
  · rcases mem_cons.mp hc with rfl | hc
    · simp [hnone]
    · exact h.other c hc
  · rcases mem_cons.mp hc with rfl | hc
    · simp [hnone] at hl
    · exact has_iff.mpr (mem_cons_of_mem _ (has_iff.mp (h.live c hc l hl)))
  · rcases mem_cons.mp hc with rfl | hold
    · simp [hnone] at hl
    · rcases mem_cons.mp hd with rfl | hd
      · exact absurd (has_iff.mp (h.live c hold _ hl)) hnew
      · exact h.symm c hold d hd hl

theorem prune {cs' : Channels} (hsub : cs' ⊆ cs)
    (hkeep : ∀ c ∈ cs, c.links ≠ [] → c ∈ cs') : LinkGraph cs' := by
  refine ⟨fun c hc => h.other c (hsub hc), fun c hc l hl => ?_,
    fun c hc d hd => h.symm c (hsub hc) d (hsub hd)⟩
  obtain ⟨d, hd, rfl⟩ := mem_map.mp (has_iff.mp (h.live c (hsub hc) l hl))
  have hback := h.symm c (hsub hc) d hd hl
  exact has_iff.mpr (mem_map_of_mem (hkeep d hd (ne_nil_of_mem hback)))

section updateLinks
variable {node : Channel} {desired : List ℕ}

theorem mem_links_relink {d : Channel} (hd : d ∈ cs) {l : ℕ} :
    l ∈ (cs.relink node desired d).links ↔
      if d.id = node.id then l ∈ desired
      else (l ∈ d.links ∧ l ≠ node.id) ∨ (l = node.id ∧ d.id ∈ desired) :=
  mem_links_relink_iff (by rw [h.liveLinks_eq hd])

theorem relink (hnode : node ∈ cs)
    (hdes : ∀ l ∈ desired, l ≠ node.id ∧ cs.has l = true) :
    LinkGraph (cs.map (cs.relink node desired)) := by
  refine ⟨fun c' hc' => ?_, fun c' hc' l hl => ?_, fun c' hc' d' hd' hl => ?_⟩
  · obtain ⟨c, hc, rfl⟩ := mem_map.mp hc'
    rw [relink_id, h.mem_links_relink hc]
    split_ifs with heq
    · exact fun hl => (hdes _ hl).1 heq
    · rintro (⟨hl, -⟩ | ⟨hl, -⟩)
      · exact h.other c hc hl
      · exact heq hl
  · obtain ⟨c, hc, rfl⟩ := mem_map.mp hc'
    rw [h.mem_links_relink hc] at hl
    rw [has_map (relink_id _ _)]
    split_ifs at hl
    · exact (hdes l hl).2
    · rcases hl with ⟨hl, -⟩ | ⟨rfl, -⟩
      · exact h.live c hc l hl
      · exact has_iff.mpr (mem_map_of_mem hnode)
  · obtain ⟨c, hc, rfl⟩ := mem_map.mp hc'
    obtain ⟨d, hd, rfl⟩ := mem_map.mp hd'
    rw [relink_id, h.mem_links_relink hc] at hl
    rw [relink_id, h.mem_links_relink hd]
    split_ifs at hl with hcn
    · -- the channel itself: what it is to be linked to gets it as a link
      rw [if_neg (hdes _ hl).1]
      exact .inr ⟨hcn, hl⟩
    · rcases hl with ⟨hl, hdn⟩ | ⟨hdn, hcd⟩
      · rw [if_neg hdn]
        exact .inl ⟨h.symm c hc d hd hl, hcn⟩
      · rw [if_pos hdn]
        exact hcd

omit h in
theorem mem_of_linksStable (hs : cs.linksStable node desired = true) {l : ℕ} :
    l ∈ cs.liveLinks node ↔ l ∈ desired := by
  simp only [Channels.linksStable, Bool.and_eq_true, decide_eq_true_eq, all_eq_true] at hs
  obtain ⟨⟨hlen, hsub⟩, -⟩ := hs
  have hperm : (cs.liveLinks node).dedup.Perm desired.dedup :=
    ((nodup_dedup _).subperm fun l hl =>
      mem_dedup.mpr (hsub l (mem_dedup.mp hl))).perm_of_length_le hlen.ge
  rw [← mem_dedup, hperm.mem_iff, mem_dedup]

/-- `UpdateLinks` does as it is told, if it is told of other channels that exist. -/
theorem updateLinks {id : ℕ} (hid : cs.getChannel id = some node)
    (hdes : ∀ l ∈ desired, l ≠ id ∧ cs.has l = true) :
    ∃ cs' changed node', cs.updateLinks id desired true = some (cs', changed) ∧
      cs'.getChannel id = some node' ∧ ∀ l, l ∈ node'.links ↔ l ∈ desired := by
  have hmem := mem_of_getChannel hid
  have hnid := id_of_getChannel hid
  have hgood : ¬desired.any (fun l => decide (l = id) || !cs.has l) = true := by
    simpa using hdes
  unfold Channels.updateLinks
  simp only [hid, if_neg hgood]
  by_cases hs : cs.linksStable node desired = true
  · rw [if_pos hs]
    refine ⟨cs, [], node, rfl, hid, fun l => ?_⟩
    rw [← h.liveLinks_eq hmem]
    exact mem_of_linksStable hs
  · rw [if_neg hs]
    refine ⟨_, _, cs.relink node desired node, rfl, ?_, fun l => ?_⟩
    · rw [getChannel_map _ (relink_id _ _), hid, Option.map_some]
    · rw [h.mem_links_relink hmem, if_pos rfl]

end updateLinks

end LinkGraph

namespace ServerOps

open Moderation (State countInChannel)

/-! ### Runs -/

/-- The cleanup of temporary channels leaves every channel that has links: in it or below it is a
channel that is permanent or has users. -/
def LinkedStay (sv : Acl.Server) : Prop :=
  ∀ c ∈ sv.world.channels, c.links ≠ [] → ∃ n ∈ sv.world.channels,
    c.id ∈ sv.world.channels.ancestorChain n.id ∧
      (n.isTemporary = false ∨ 0 < countInChannel sv n.id)

/-- No channel that has links is removed, by a client, by the REST interface or by the cleanup when
a session ends. -/
def Unlinked (s : Site) : Op → Prop
  | .channelRemove _ id _ => ∀ ch ∈ s.channels.getChannel id, ch.links = []
  | .restDelete id _ => ∀ ch ∈ s.channels.getChannel id, ch.links = []
  | .disconnect _ => LinkedStay s.state.server
  | .kick ref => ∀ s' ∈ kicked s ref, LinkedStay s'.state.server
  | _ => True

/-- A channel tree whose links are a graph. -/
structure Knit (s : Site) : Prop extends Planted s where
  links : LinkGraph s.channels

namespace Knit
variable {s s' : Site} (h : Knit s)
include h

theorem congr (hcs : s'.channels = s.channels) (hrows : s'.rows = s.rows) : Knit s' :=
  ⟨h.toPlanted.congr hcs hrows, hcs ▸ h.links⟩

theorem edit {P : Channels → ℕ → List ℕ → Prop} {outs : List Output} (he : Edit P s s' outs) :
    Knit s' := by
  induction he with
  | quiet => exact h
  | announce => exact h
  | @create s s' ch newID parentID name description position temporary maxUsers hc =>
    refine ⟨h.toPlanted.create hc, ?_⟩
    rw [h.toPlanted.channels_create hc]
    obtain ⟨-, -, -, -, hnone, -⟩ := create_cases hc
    exact h.links.cons (h.toPlanted.notMem_create hc) hnone
  | update s id opts =>
    refine ⟨h.toPlanted.update id _, h.links.map (fun d => ?_) (fun d => ?_)⟩ <;> split <;> rfl
  | links id desired dbOk _ hu =>
    refine ⟨h.toPlanted.updateLinks hu, ?_⟩
    rcases updateLinks_cases hu with ⟨rfl, -⟩ | ⟨node, hnode, hdes, rfl, -⟩
    · exact h.links
    · obtain rfl := id_of_getChannel hnode
      exact h.links.relink (mem_of_getChannel hnode) hdes
  | trans _ _ ih ih' => exact ih' (ih h)

theorem remove (id : ℕ) (dbOk : Bool) (hnone : ∀ ch ∈ s.channels.getChannel id, ch.links = []) :
    Knit (s.remove id dbOk).1 := by
  refine ⟨h.toPlanted.remove id dbOk, ?_⟩
  rcases remove_cases s id dbOk with hr | ⟨-, -, hr⟩ <;> rw [hr]
  · exact h.links
  · refine h.links.prune (filter_sublist (l := s.channels)).subset fun c hc hlinks => ?_
    refine mem_filter.mpr ⟨hc, decide_eq_true ?_⟩
    rintro rfl
    exact hlinks (hnone c (getChannel_of_mem h.ids_nodup hc))

theorem mem_clean (hstay : LinkedStay s.state.server) {c : Channel} (hc : c ∈ s.channels)
    (hlinks : c.links ≠ []) : c ∈ (clean s).channels := by
  obtain ⟨n, hn, hchain, hwhy⟩ := hstay c hc hlinks
  obtain ⟨hplanted, hkeep⟩ := h.toPlanted.clean
  have hkept := hkeep n.id n (getChannel_of_mem h.ids_nodup hn) hwhy
  have hsub : (ServerOps.clean s).channels ⊆ s.channels := (cleanLoop_sublist _ _ _).subset
  obtain ⟨p, hp⟩ := hplanted.path (c := n.id) (by simp [Channels.has, hkept])
  -- the path to the channel that stays is the one it had before
  have hsame : ∀ d ∈ p, s.channels.getChannel d = (ServerOps.clean s).channels.getChannel d := by
    intro d hd
    obtain ⟨q, hq, -⟩ := hp.of_mem hd
    obtain ⟨m, hm⟩ := hq.getChannel
    obtain rfl := id_of_getChannel hm
    rw [hm, getChannel_of_mem h.ids_nodup (hsub (mem_of_getChannel hm))]
  have hold := hp.congr hsame
  have hcp : c.id ∈ p := by
    have hrev : c.id ∈ p.reverse := ancestorChain_of_path hold ▸ hchain
    exact mem_reverse.mp hrev
  exact mem_of_getChannel ((hsame c.id hcp).symm.trans (getChannel_of_mem h.ids_nodup hc))

theorem clean (hstay : LinkedStay s.state.server) : Knit (clean s) :=
  ⟨h.toPlanted.clean.1, h.links.prune (cleanLoop_sublist _ _ _).subset fun _ hc hlinks =>
    h.mem_clean hstay hc hlinks⟩

theorem unregisterConn (ref : SessionRef) (hstay : LinkedStay s.state.server) :
    Knit (unregisterConn s ref) := by
  unfold ServerOps.unregisterConn
  split_ifs
  · exact h
  · have hdetach : Knit { s with state := detach s.state ref } :=
      h.congr (channels_detach s ref) rfl
    exact hdetach.clean ((server_detach s.state ref).symm ▸ hstay)

theorem kick (ref : SessionRef) (hstay : ∀ s' ∈ kicked s ref, LinkedStay s'.state.server) :
    Knit (kick s ref) := by
  refine kick_rule h fun s' hk => ?_
  obtain ⟨hcs, hrows⟩ := channels_kicked hk
  exact (h.congr hcs hrows).unregisterConn ref (hstay s' hk)

theorem channelRemove (cfg : Config) (c : SessionRef) (id : ℕ) (dbOk : Bool)
    (hnone : ∀ ch ∈ s.channels.getChannel id, ch.links = []) :
    Knit (handleChannelRemove cfg s c id dbOk).1 := by
  refine handleChannelRemove_rule cfg s c id h fun ch _ => ?_
  have hcs := channels_vacate cfg s ch
  refine (h.congr hcs rfl).remove id dbOk ?_
  rw [hcs]
  exact hnone

end Knit

theorem knit_step (cfg : Config) (s : Site) (op : Op) (h : Knit s) (hop : Unlinked s op) :
    Knit (step cfg s op) := by
  cases op with
  | login u edge =>
    obtain ⟨hcs, hrows, -⟩ := channels_login (s := s) cfg u edge
    exact h.congr hcs hrows
  | userState rateAllows c us =>
    exact h.congr (channels_userState cfg s rateAllows c us) rfl
  | channelState | restCreate | restUpdate => exact h.edit (step_edit cfg s rfl)
  | channelRemove c id dbOk => exact h.channelRemove cfg c id dbOk hop
  | restDelete id dbOk => exact h.remove id dbOk hop
  | disconnect ref => exact (h.unregisterConn ref hop).congr rfl rfl
  | kick ref => exact h.kick ref hop
  | editACL db => exact h.congr (channels_editACL cfg s db) rfl

/-! ### Requests -/

/-- A client asks for links of a channel other than the root, names only other channels that exist
and passes the checks. -/
structure LinkRequest (cfg : Config) (s : Site) (c : SessionRef) (u : User) (m : ChannelState)
    (ch : Channel) : Prop where
  active : s.state.registry.active c = true
  user : s.users.snapshot c.sessionID = some u
  notRoot : m.channelID ≠ rootChannelID
  channel : s.channels.getChannel m.channelID = some ch
  change : m.hasLinkChange = true
  named : ∀ id ∈ m.links ++ m.linksAdd ++ m.linksRemove,
    id ≠ m.channelID ∧ s.channels.has id = true
  may : mayUpdate cfg s u m ch = true

/-- Nothing is refused, and the channel has the links asked for. -/
def Granted (m : ChannelState) (ch : Channel) (r : Site × List Output) : Prop :=
  (∀ d, Output.user (.denied d) ∉ r.2) ∧
    ∃ ch', r.1.channels.getChannel m.channelID = some ch' ∧
      ∀ l, l ∈ ch'.links ↔ l ∈ m.desiredLinks ch.links

section requests
variable {s : Site} {m : ChannelState} {ch : Channel}

theorem mem_desiredLinks {links : List ℕ} {id : ℕ} (h : id ∈ m.desiredLinks links) :
    id ∈ links ∨ id ∈ m.links ∨ id ∈ m.linksAdd := by
  rcases mem_append.mp (mem_filter.mp h).1 with h | h
  · split_ifs at h
    · exact .inl h
    · exact .inr (.inl h)
  · exact .inr (.inr h)

theorem channels_updateMetadata (s : Site) (m : ChannelState) (dbOk : Bool) :
    ∃ f : Channel → Channel, (∀ d, (f d).id = d.id) ∧ (∀ d, (f d).links = d.links) ∧
      (updateMetadata s m dbOk).1.channels = s.channels.map f := by
  unfold updateMetadata
  by_cases hmeta : m.hasMetadataChange = true
  · rw [if_pos hmeta]
    refine ⟨_, fun d => ?_, fun d => ?_, rfl⟩ <;> split <;> rfl
  · rw [if_neg hmeta]
    exact ⟨id, fun _ => rfl, fun _ => rfl, (map_id _).symm⟩

theorem not_denied_announce (s : Site) (ids : List ℕ) (d : Moderation.PermissionDenied) :
    Output.user (.denied d) ∉ s.announce ids := by
  intro h
  obtain ⟨id, -, hid⟩ := mem_filterMap.mp h
  obtain ⟨c, -, hc⟩ := Option.map_eq_some_iff.mp hid
  cases hc

theorem not_denied_updateMetadata (s : Site) (m : ChannelState) (dbOk : Bool)
    (d : Moderation.PermissionDenied) :
    Output.user (.denied d) ∉ (updateMetadata s m dbOk).2 := by
  unfold updateMetadata
  split_ifs
  · exact not_denied_announce _ _ d
  · exact not_mem_nil
  · exact not_mem_nil

/-- The links of the channel, and with them those that are asked for, lead to other channels that
exist. -/
theorem Knit.desired_exist (h : Knit s) (hch : s.channels.getChannel m.channelID = some ch)
    (hnamed : ∀ id ∈ m.links ++ m.linksAdd ++ m.linksRemove,
      id ≠ m.channelID ∧ s.channels.has id = true) :
    ∀ l ∈ m.desiredLinks ch.links, l ≠ m.channelID ∧ s.channels.has l = true := by
  intro l hl
  have hmem := mem_of_getChannel hch
  rcases mem_desiredLinks hl with hl | hl | hl
  · refine ⟨fun heq => h.links.other ch hmem ?_, h.links.live ch hmem l hl⟩
    rw [id_of_getChannel hch, ← heq]
    exact hl
  · exact hnamed l (by simp [hl])
  · exact hnamed l (by simp [hl])

theorem Knit.granted (h : Knit s) {cfg : Config} {c : SessionRef} {u : User}
    (hr : LinkRequest cfg s c u m ch) (newID : ℕ) :
    Granted m ch (handleChannelState cfg s m c newID ⟨true, true, true⟩) := by
  have hdes := h.desired_exist hr.channel hr.named
  obtain ⟨f, hid, hlinks, hcs⟩ := channels_updateMetadata s m true
  have hgraph := h.links.map hid hlinks
  have hch : Channels.getChannel (s.channels.map f) m.channelID = some (f ch) := by
    rw [getChannel_map f hid, hr.channel, Option.map_some]
  have hhas : ∀ l ∈ m.desiredLinks ch.links,
      l ≠ m.channelID ∧ Channels.has (s.channels.map f) l = true := by
    intro l hl
    rw [has_map hid]
    exact hdes l hl
  obtain ⟨cs', changed, node', hu, hnode', hset⟩ := hgraph.updateLinks hch hhas
  have hrun : handleChannelState cfg s m c newID ⟨true, true, true⟩ =
      updateChannel cfg s u m ch ⟨true, true, true⟩ := by
    unfold handleChannelState
    simp only [hr.active, hr.user, hr.channel, show ¬m.channelID = 0 from hr.notRoot,
      Bool.true_eq_false, if_false]
  rw [hrun]
  unfold updateChannel
  rw [if_neg (by simp [hr.may])]
  dsimp only
  rw [if_pos hr.change]
  unfold Site.updateLinks
  rw [hcs, hu]
  refine ⟨fun d hd => ?_, node', hnode', hset⟩
  rcases mem_append.mp hd with hd | hd
  · exact not_denied_updateMetadata s m true d hd
  · exact not_denied_announce _ _ d hd

end requests

/-- **Link graph**: while no channel with links is removed, the links are two-sided and lead to
other channels that exist, and every request for links of a channel other than the root that names
such channels and passes the checks is granted, if the database takes the change. -/
theorem link_graph (cfg : Config) {s : Site} (hs : Planted s) (hlinks : LinkGraph s.channels)
    (ops : List Op) (hops : Along (step cfg) Unlinked s ops) :
    LinkGraph (run (step cfg) s ops).channels ∧
      ∀ c u m ch newID, LinkRequest cfg (run (step cfg) s ops) c u m ch →
        Granted m ch
          (handleChannelState cfg (run (step cfg) s ops) m c newID ⟨true, true, true⟩) := by
  have hknit : Knit (run (step cfg) s ops) := run_inv (knit_step cfg) ⟨hs, hlinks⟩ hops
  exact ⟨hknit.links, fun _ _ _ _ newID hr => hknit.granted hr newID⟩

/-! ### A run -/

instance (sv : Acl.Server) : Decidable (LinkedStay sv) :=
  inferInstanceAs (Decidable (∀ c ∈ sv.world.channels, c.links ≠ [] → ∃ n ∈ sv.world.channels,
    c.id ∈ sv.world.channels.ancestorChain n.id ∧
      (n.isTemporary = false ∨ 0 < countInChannel sv n.id)))

instance (s : Site) : ∀ op : Op, Decidable (Unlinked s op)
  | .channelRemove _ id _ =>
    inferInstanceAs (Decidable (∀ ch ∈ s.channels.getChannel id, ch.links = []))
  | .restDelete id _ =>
    inferInstanceAs (Decidable (∀ ch ∈ s.channels.getChannel id, ch.links = []))
  | .disconnect _ => inferInstanceAs (Decidable (LinkedStay s.state.server))
  | .kick ref => inferInstanceAs (Decidable (∀ s' ∈ kicked s ref, LinkedStay s'.state.server))
  | .login .. | .userState .. | .channelState .. | .restCreate .. | .restUpdate ..
  | .editACL .. => isTrue trivial

/-- The record of a superuser, as the server keeps it. -/
def linkAdmin : User := ⟨⟨1, 0, true, "", false, false, 0, 0, [], []⟩, 1, 1, 1, "admin"⟩

/-- A superuser logs in, three channels are made and the first two are linked. -/
def halls : List Op :=
  [.login linkAdmin "local", .restCreate 1 0 "Lounge" "" 0 false 0,
    .restCreate 2 0 "Hall" "" 0 false 0, .restCreate 3 0 "Bar" "" 0 false 0, relinkLounge [2]]

/-- The first channel as the halls leave it. -/
def lounge : Channel := ⟨1, 0, "Lounge", "", 0, 0, false, [2], true⟩

theorem linkGraph_newSite : LinkGraph newSite.channels :=
  ⟨by decide, by decide, by decide⟩

theorem link_graph_halls :
    Granted { channelID := 1, linksAdd := [3] } lounge (handleChannelState config
      (run (step config) newSite halls) { channelID := 1, linksAdd := [3] } ⟨1, 1⟩ 4
      ⟨true, true, true⟩) :=
  (link_graph config planted_newSite linkGraph_newSite halls (by decide +kernel)).2 ⟨1, 1⟩
    linkAdmin _ lounge 4
    { active := by decide +kernel
      user := by decide +kernel
      notRoot := by decide
      channel := by decide +kernel
      change := by decide
      named := by decide +kernel
      may := by decide +kernel }

theorem Granted.not_of_denied {m : ChannelState} {ch : Channel} {r : Site × List Output}
    {d : Moderation.PermissionDenied} (h : Output.user (.denied d) ∈ r.2) : ¬Granted m ch r :=
  fun hg => hg.1 d h

/-- A linked channel is deleted: its neighbour keeps the link, and the next request for links of the
neighbour is refused although it names a channel that exists and passes the checks.  A request for
links of the root is refused in any case: it is taken for the creation of a channel. -/
theorem deleted_under_link :
    ¬LinkGraph (run (step config) newSite (halls ++ [.restDelete 2 true])).channels ∧
    (LinkRequest config (run (step config) newSite (halls ++ [.restDelete 2 true])) ⟨1, 1⟩ linkAdmin
        { channelID := 1, linksAdd := [3] } lounge ∧
      ¬Granted { channelID := 1, linksAdd := [3] } lounge (handleChannelState config
        (run (step config) newSite (halls ++ [.restDelete 2 true]))
        { channelID := 1, linksAdd := [3] } ⟨1, 1⟩ 4 ⟨true, true, true⟩)) ∧
    (∀ root ∈ (run (step config) newSite halls).channels.getChannel rootChannelID,
      mayUpdate config (run (step config) newSite halls) linkAdmin
        { channelID := 0, linksAdd := [3] } root = true ∧
      ¬Granted { channelID := 0, linksAdd := [3] } root (handleChannelState config
        (run (step config) newSite halls) { channelID := 0, linksAdd := [3] } ⟨1, 1⟩ 4
        ⟨true, true, true⟩)) := by
  refine ⟨fun h => ?_, ⟨?_, Granted.not_of_denied (d := { channelID := 1, type := .permission })
    (by decide +kernel)⟩, fun root hroot => ⟨?_, Granted.not_of_denied
      (d := { type := .permission, reason := "Cannot create channel" }) (by decide +kernel)⟩⟩
  · exact absurd (h.live lounge (by decide +kernel) 2 (by decide)) (by decide +kernel)
  · exact
      { active := by decide +kernel
        user := by decide +kernel
        notRoot := by decide
        channel := by decide +kernel
        change := by decide
        named := by decide +kernel
        may := by decide +kernel }
  · revert root
    decide +kernel

end ServerOps

end MumbleServer
