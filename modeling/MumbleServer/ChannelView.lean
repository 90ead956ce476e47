import MumbleServer.Whereabouts

/-! # What an observer sees of the channels

A client is shown all channels when it logs in and from then on follows the ChannelState and
ChannelRemove messages.  On the wire the parent of the root is absent, and so is an empty list of
links, which leaves what the client knows as it is.

`View` is what the client knows, `Mirrors` that it is what the server has: the same channels, with
the same parents and the same links between them. -/

namespace MumbleServer.ServerOps

open List Option Channels
open Moderation (State countInChannel world_updateUser)

/-- What a client knows of a channel. -/
structure Shown where
  parent : Option ℕ
  links : List ℕ
deriving DecidableEq

/-- What a client knows, by channel ID. -/
abbrev View := ℕ → Option Shown

/-- `channelToState`: the parent of a channel on the wire. -/
def wireParent (ch : Channel) : Option ℕ := if ch.id = rootChannelID then none else some ch.parentID

/-- A ChannelState creates or updates a channel; what is absent stays. -/
def Shown.merge (old : Option Shown) (ch : Channel) : Shown :=
  match old with
  | none => ⟨wireParent ch, ch.links⟩
  | some x => ⟨(wireParent ch).or x.parent, if ch.links = [] then x.links else ch.links⟩

namespace View

def channelState (v : View) (ch : Channel) : View :=
  Function.update v ch.id (some (.merge (v ch.id) ch))

/-- A ChannelRemove deletes a channel and its links. -/
def channelRemove (v : View) (id : ℕ) : View := fun d =>
  if d = id then none
  else (v d).map fun x => { x with links := x.links.filter fun l => decide (l ≠ id) }

def channelStates (v : View) (chs : List Channel) : View := chs.foldl channelState v

/-- What a session receives. -/
def apply (me : ℕ) (v : View) : Output → View
  | .channel ch => v.channelState ch
  | .channelRemove id => v.channelRemove id
  | .refresh sid tree => if sid = me then v.channelStates tree else v
  | .user _ => v

def applyAll (me : ℕ) (v : View) (outs : List Output) : View := outs.foldl (apply me) v

end View

/-- The channels of the initial sync. -/
def sync (s : Site) : View := View.channelStates (fun _ => none) s.channels.getTree

/-- The server and a session that watches it. -/
def observe (cfg : Config) (me : ℕ) (p : Site × View) (op : Op) : Site × View :=
  ((perform cfg p.1 op).1, p.2.applyAll me (perform cfg p.1 op).2)

/-- What a client knows of a channel is right. -/
structure Shown.Right (cs : Channels) (c : Channel) (x : Shown) : Prop where
  parent : x.parent = wireParent c
  links : ∀ l, cs.has l = true → (l ∈ x.links ↔ l ∈ c.links)

/-- The client has exactly the server's channels, with the same parents and the same links between
them. -/
structure Mirrors (v : View) (cs : Channels) : Prop where
  channels : ∀ id, (v id).isSome = cs.has id
  right : ∀ c ∈ cs, ∀ x ∈ v c.id, x.Right cs c

/-! ### Announcements -/

variable {id : ℕ} {c : Channel}

section announcements
variable {cs : Channels} {v : View}
variable {chs : List Channel}

theorem Shown.merge_merge (old : Option Shown) (ch : Channel) :
    Shown.merge (some (.merge old ch)) ch = .merge old ch := by
  cases old with
  | none => simp [Shown.merge]
  | some x =>
    simp only [Shown.merge]
    cases wireParent ch <;> split_ifs <;> rfl

theorem channelStates_of_notMem (h : id ∉ chs.map Channel.id) : v.channelStates chs id = v id := by
  induction chs generalizing v with
  | nil => rfl
  | cons c rest ih =>
    obtain ⟨hc, hrest⟩ := not_or.mp (fun hmem => h (mem_cons.mpr hmem))
    exact (ih hrest).trans (Function.update_of_ne hc _ _)

/-- Announcing channels as they are, in any order and number, merges each of them once. -/
theorem channelStates_of_mem (h : ∀ c ∈ chs, cs.getChannel c.id = some c) (hc : c ∈ chs) :
    v.channelStates chs c.id = some (.merge (v c.id) c) := by
  induction chs generalizing v with
  | nil => cases hc
  | cons d rest ih =>
    have hsame : ∀ e ∈ d :: rest, e.id = c.id → e = c := by
      intro e he hid
      exact some.inj ((h e he).symm.trans (hid ▸ h c hc))
    have hfirst : v.channelState d c.id =
        if c.id = d.id then some (.merge (v c.id) c) else v c.id := by
      unfold View.channelState
      rw [Function.update_apply]
      split_ifs with hid
      · rw [hsame d mem_cons_self hid.symm]
      · rfl
    show (v.channelState d).channelStates rest c.id = _
    by_cases hrest : c ∈ rest
    · rw [ih (fun e he => h e (mem_cons_of_mem _ he)) hrest, hfirst]
      split_ifs
      · rw [Shown.merge_merge]
      · rfl
    · have hcd : c = d := (mem_cons.mp hc).resolve_right hrest
      have hnot : c.id ∉ rest.map Channel.id := by
        intro hmem
        obtain ⟨e, he, hid⟩ := mem_map.mp hmem
        exact hrest (hsame e (mem_cons_of_mem _ he) hid ▸ he)
      rw [channelStates_of_notMem hnot, hfirst, if_pos (congrArg Channel.id hcd)]

theorem isSome_channelStates (h : ∀ c ∈ chs, cs.getChannel c.id = some c)
    (hv : ∀ id, id ∉ chs.map Channel.id → (v id).isSome = cs.has id) (id : ℕ) :
    (v.channelStates chs id).isSome = cs.has id := by
  by_cases hid : id ∈ chs.map Channel.id
  · obtain ⟨c, hc, rfl⟩ := mem_map.mp hid
    rw [channelStates_of_mem h hc]
    simp [has, h c hc]
  · rw [channelStates_of_notMem hid, hv id hid]

/-- Announcements make a view right that has the right channels and parents, and the right links
of all channels but those that are announced with links. -/
theorem Mirrors.of_announced (hnodup : (cs.map Channel.id).Nodup)
    (hchs : ∀ c ∈ chs, cs.getChannel c.id = some c) (hchannels : ∀ id, (v id).isSome = cs.has id)
    (hparent : ∀ c ∈ cs, ∀ x ∈ v c.id, x.parent = wireParent c)
    (hlinks : ∀ c ∈ cs, ∀ x ∈ v c.id, c ∉ chs ∨ c.links = [] →
      ∀ l, cs.has l = true → (l ∈ x.links ↔ l ∈ c.links)) :
    Mirrors (v.channelStates chs) cs where
  channels := isSome_channelStates hchs fun id _ => hchannels id
  right c hc x hx := by
    by_cases hmem : c ∈ chs
    · rw [channelStates_of_mem hchs hmem] at hx
      obtain rfl := some.inj hx
      obtain ⟨y, hy⟩ : ∃ y, v c.id = some y := by
        rw [← isSome_iff_exists, hchannels]
        simp [has, hchs c hmem]
      rw [hy]
      refine ⟨?_, fun l hl => ?_⟩
      · simp [Shown.merge, hparent c hc y hy]
      · unfold Shown.merge
        split_ifs with hnil
        · exact hlinks c hc y hy (.inr hnil) l hl
        · exact Iff.rfl
    · have hid : c.id ∉ chs.map Channel.id := by
        intro hid
        obtain ⟨d, hd, heq⟩ := mem_map.mp hid
        have hcd : some d = some c :=
          (hchs d hd).symm.trans (heq.symm ▸ getChannel_of_mem hnodup hc)
        exact hmem (some.inj hcd ▸ hd)
      rw [channelStates_of_notMem hid] at hx
      exact ⟨hparent c hc x hx, hlinks c hc x hx (.inl hmem)⟩

theorem Mirrors.announced (h : Mirrors v cs) (hnodup : (cs.map Channel.id).Nodup)
    (hchs : ∀ c ∈ chs, cs.getChannel c.id = some c) :
    Mirrors (v.channelStates chs) cs :=
  .of_announced hnodup hchs h.channels (fun c hc x hx => (h.right c hc x hx).parent)
    fun c hc x hx _ => (h.right c hc x hx).links

end announcements

/-! ### The initial sync -/

section initialSync
variable {cs : Channels}

theorem getChannel_of_mem_walk {fuel id : ℕ} (h : c ∈ cs.walk fuel id) :
    cs.getChannel c.id = some c := by
  induction fuel generalizing id with
  | zero => cases h
  | succ fuel ih =>
    unfold walk at h
    split at h
    · cases h
    · rename_i n hn
      rcases mem_cons.mp h with rfl | h
      · exact id_of_getChannel hn ▸ hn
      · obtain ⟨d, -, hd⟩ := mem_flatMap.mp h
        exact ih hd

theorem mem_walk_parent {fuel : ℕ} {n m x : Channel} (hn : cs.getChannel n.id = some n)
    (hroot : n.id ≠ rootChannelID) (hm : cs.getChannel n.parentID = some m)
    (hx : x ∈ cs.walk fuel n.id) : x ∈ cs.walk (fuel + 1) n.parentID := by
  unfold walk
  rw [hm]
  refine mem_cons_of_mem _ (mem_flatMap.mpr ⟨n, ?_, hx⟩)
  unfold childrenOf
  rw [mem_insertionSort, mem_filter]
  exact ⟨mem_of_getChannel hn, by simp [hroot]⟩

theorem mem_walk_root {c : ℕ} {p : List ℕ} (h : IsPath cs c p) {fuel : ℕ} {x : Channel}
    (hx : x ∈ cs.walk fuel c) : x ∈ cs.walk (fuel + (p.length - 1)) rootChannelID := by
  induction h generalizing fuel with
  | root => exact hx
  | @child c n p hn hroot hp ih =>
    obtain rfl := id_of_getChannel hn
    obtain ⟨m, hm⟩ := hp.getChannel
    have hlen := hp.length_pos
    have hup := ih (mem_walk_parent hn hroot hm hx)
    have hfuel : fuel + 1 + (p.length - 1) = fuel + ((p ++ [n.id]).length - 1) := by
      rw [length_append, length_singleton]
      omega
    rwa [hfuel] at hup

/-- `GetTree` lists the channels. -/
theorem mem_getTree (t : ChannelTree) :
    c ∈ t.channels.getTree ↔ t.channels.getChannel c.id = some c := by
  refine ⟨getChannel_of_mem_walk, fun hc => ?_⟩
  obtain ⟨p, hp⟩ := t.path c.id c hc
  have hle := hp.length_le
  have hpos := hp.length_pos
  obtain ⟨k, hk⟩ : ∃ k, t.channels.length = k + 1 + (p.length - 1) :=
    ⟨t.channels.length - p.length, by omega⟩
  unfold getTree
  rw [hk]
  refine mem_walk_root hp ?_
  unfold walk
  rw [hc]
  exact mem_cons_self

theorem mirrors_sync {s : Site} (h : Planted s) : Mirrors (sync s) s.channels := by
  obtain ⟨t, ht⟩ := h.tree
  have htree : ∀ c, c ∈ s.channels.getTree ↔ s.channels.getChannel c.id = some c :=
    fun c => ht ▸ mem_getTree t
  refine ⟨isSome_channelStates (fun c hc => (htree c).mp hc) fun id hid => ?_, fun c hc x hx => ?_⟩
  · refine (Bool.eq_false_iff.mpr fun hhas => hid ?_).symm
    obtain ⟨c, hg⟩ := isSome_iff_exists.mp hhas
    exact id_of_getChannel hg ▸ mem_map_of_mem ((htree c).mpr (id_of_getChannel hg ▸ hg))
  · have hg := getChannel_of_mem h.ids_nodup hc
    rw [sync, channelStates_of_mem (fun c hc => (htree c).mp hc) ((htree c).mpr hg)] at hx
    obtain rfl := some.inj hx
    exact ⟨rfl, fun _ _ => Iff.rfl⟩

end initialSync

/-! ### Changes -/

/-- A change of links leaves no channel without links that had some: what is compared are links to
channels that exist, before and after. -/
def LeavesLinked (cs : Channels) (id : ℕ) (desired : List ℕ) : Prop :=
  ∀ node ∈ cs.getChannel id, ∀ d ∈ cs, cs.linksAffected node desired d = true →
    (∃ l ∈ d.links, cs.has l = true) →
      if d.id = id then desired ≠ []
      else d.id ∈ desired ∨ ∃ l ∈ d.links, l ≠ id ∧ l ≠ d.id ∧ cs.has l = true

/-- There is no temporary channel that the cleanup would remove. -/
def NothingToClean (s : Site) : Prop :=
  ∀ c ∈ s.channels, c.id ≠ rootChannelID → c.isTemporary = true →
    s.channels.hasChildren c.id = true ∨ 0 < countInChannel s.state.server c.id

/-- What an observer follows: its view is right, and links name channels that the database
knows. -/
structure Follows (v : View) (s : Site) : Prop extends Planted s where
  mirrors : Mirrors v s.channels
  linked : ∀ c ∈ s.channels, ∀ l ∈ c.links, l ∈ s.rows
  shown : ∀ id, ∀ x ∈ v id, ∀ l ∈ x.links, l ∈ s.rows

/-- Nothing about channels, or the channels as they are. -/
def Plain (cs : Channels) (outs : List Output) : Prop :=
  ∀ o ∈ outs, (∃ d, o = .user d) ∨ ∃ sid, o = .refresh sid cs.getTree

section changes
variable {s s' : Site} {v : View}
variable {cs : Channels} {desired : List ℕ}

theorem Quiet.plain {outs : List Output} (h : Quiet outs) (cs : Channels) : Plain cs outs :=
  fun o ho => .inl (h o ho)

theorem relinked_ne_nil {node d : Channel}
    (h : if d.id = node.id then desired ≠ []
      else d.id ∈ desired ∨ ∃ l ∈ d.links, l ≠ node.id ∧ l ≠ d.id ∧ cs.has l = true) :
    cs.relinked node desired d ≠ [] := by
  have hmem : ∃ l, l ∈ cs.relinked node desired d := by
    simp only [relinked, mem_sortedLinkIDs]
    split_ifs at h ⊢ with hid hdes
    · exact exists_mem_of_ne_nil _ h
    · exact ⟨node.id, by simp⟩
    · obtain ⟨l, hl, hne, hself, hhas⟩ := h.resolve_left hdes
      exact ⟨l, by simp [liveLinks, hl, hne, hself, hhas]⟩
  intro hnil
  simp [hnil] at hmem

theorem applyAll_announce (me : ℕ) (v : View) (s : Site) (ids : List ℕ) :
    v.applyAll me (s.announce ids) =
      v.channelStates (ids.filterMap fun id => s.channels.getChannel id) := by
  unfold View.applyAll Site.announce View.channelStates
  induction ids generalizing v with
  | nil => rfl
  | cons id rest ih =>
    cases hg : s.channels.getChannel id with
    | none => simpa [hg] using ih v
    | some ch => simpa [hg, View.apply] using ih (v.channelState ch)

theorem getChannel_of_mem_lookups {ids : List ℕ} :
    ∀ c ∈ ids.filterMap (fun id => cs.getChannel id), cs.getChannel c.id = some c := by
  intro c hc
  obtain ⟨id, -, hg⟩ := mem_filterMap.mp hc
  exact id_of_getChannel hg ▸ hg

theorem shown_channelStates {rows : List ℕ} {chs : List Channel}
    (hv : ∀ id, ∀ x ∈ v id, ∀ l ∈ x.links, l ∈ rows)
    (hchs : ∀ c ∈ chs, ∀ l ∈ c.links, l ∈ rows) :
    ∀ id, ∀ x ∈ v.channelStates chs id, ∀ l ∈ x.links, l ∈ rows := by
  induction chs generalizing v with
  | nil => exact hv
  | cons c rest ih =>
    refine ih (fun id x hx l hl => ?_) fun d hd => hchs d (mem_cons_of_mem _ hd)
    have hc := hchs c mem_cons_self
    unfold View.channelState at hx
    rw [Function.update_apply] at hx
    split_ifs at hx with hid
    · obtain rfl := some.inj hx
      unfold Shown.merge at hl
      split at hl
      · exact hc l hl
      · rename_i y hy
        split_ifs at hl
        · exact hv c.id y hy l hl
        · exact hc l hl
    · exact hv id x hx l hl

namespace Follows
variable (h : Follows v s)
variable {outs : List Output}
include h

theorem channelStates {chs : List Channel} (hchs : ∀ c ∈ chs, s.channels.getChannel c.id = some c) :
    Follows (v.channelStates chs) s :=
  { toPlanted := h.toPlanted
    mirrors := h.mirrors.announced h.ids_nodup hchs
    linked := h.linked
    shown := shown_channelStates h.shown fun c hc => h.linked c (mem_of_getChannel (hchs c hc)) }

/-- The server sends nothing about channels but the channels as they are. -/
theorem plain (me : ℕ) (hp : Plain s.channels outs) : Follows (v.applyAll me outs) s := by
  induction outs generalizing v with
  | nil => exact h
  | cons o rest ih =>
    have hrest : Plain s.channels rest := fun o ho => hp o (mem_cons_of_mem _ ho)
    rcases hp o mem_cons_self with ⟨d, rfl⟩ | ⟨sid, rfl⟩
    · exact ih h hrest
    · refine ih ?_ hrest
      dsimp only [View.apply]
      split_ifs
      · exact h.channelStates fun c hc => getChannel_of_mem_walk hc
      · exact h

theorem congr (hcs : s'.channels = s.channels) (hrows : s'.rows = s.rows) : Follows v s' :=
  { toPlanted := h.toPlanted.congr hcs hrows
    mirrors := hcs ▸ h.mirrors
    linked := by rw [hcs, hrows]; exact h.linked
    shown := by rw [hrows]; exact h.shown }

theorem create {newID parentID : ℕ} {name description : String} {position : Int}
    {temporary : Bool} {maxUsers : ℕ} {ch : Channel}
    (hc : s.create newID parentID name description position temporary maxUsers = (s', some ch)) :
    Follows (v.channelState ch) s' := by
  have hcs := h.channels_create hc
  have hplanted := h.toPlanted.create hc
  obtain ⟨hnew, -, hid, -, hlinks, hs'⟩ := create_cases hc
  have hrows : s'.rows = newID :: s.rows := by rw [hs']
  have hlink : ∀ {ls : List ℕ}, (∀ l ∈ ls, l ∈ s.rows) → ch.id ∉ ls :=
    fun hls hmem => hnew (hid ▸ hls _ hmem)
  have hids := h.notMem_create hc
  have hnot : s.channels.has ch.id = false := by
    rwa [Bool.eq_false_iff, ne_eq, has_iff]
  have hfresh : v ch.id = none := by
    rw [← not_isSome_iff_eq_none, h.mirrors.channels, hnot]
    exact Bool.false_ne_true
  have hhas : ∀ d, s'.channels.has d = true ↔ d = ch.id ∨ s.channels.has d = true := by
    intro d
    rw [hcs, has_iff, has_iff, map_cons, mem_cons]
  have hstate : ∀ d, v.channelState ch d =
      if d = ch.id then some ⟨wireParent ch, []⟩ else v d := by
    intro d
    rw [View.channelState, Function.update_apply, hfresh, Shown.merge, hlinks]
  refine { toPlanted := hplanted, mirrors := ⟨fun d => ?_, fun c hc x hx => ?_⟩, linked := ?_,
           shown := ?_ }
  · rw [hstate, Bool.eq_iff_iff, hhas]
    split_ifs with hd
    · simp [hd]
    · rw [h.mirrors.channels]
      simp [hd]
  · rw [hcs] at hc
    rw [hstate] at hx
    rcases mem_cons.mp hc with rfl | hc
    · rw [if_pos rfl] at hx
      obtain rfl := some.inj hx
      exact ⟨rfl, fun l _ => by rw [hlinks]⟩
    · have hne : c.id ≠ ch.id := fun heq => hids (heq ▸ mem_map_of_mem hc)
      rw [if_neg hne] at hx
      obtain ⟨hp, hl⟩ := h.mirrors.right c hc x hx
      refine ⟨hp, fun l hh => ?_⟩
      rcases (hhas l).mp hh with rfl | hh
      · exact iff_of_false (hlink (h.shown _ x hx)) (hlink (h.linked c hc))
      · exact hl l hh
  · intro c hc l hl
    rw [hcs] at hc
    rw [hrows]
    rcases mem_cons.mp hc with rfl | hc
    · rw [hlinks] at hl
      cases hl
    · exact mem_cons_of_mem _ (h.linked c hc l hl)
  · intro d x hx l hl
    rw [hstate] at hx
    rw [hrows]
    split_ifs at hx
    · obtain rfl := some.inj hx
      cases hl
    · exact mem_cons_of_mem _ (h.shown d x hx l hl)

theorem rename {f : Channel → Channel} (hid : ∀ d, (f d).id = d.id)
    (hparent : ∀ d, (f d).parentID = d.parentID) (hlinks : ∀ d, (f d).links = d.links) :
    Follows v (s.setChannels (s.channels.map f)) := by
  refine { toPlanted := h.toPlanted.rename hid hparent, mirrors := ⟨fun id => ?_, ?_⟩, linked := ?_,
           shown := h.shown }
  · exact (h.mirrors.channels id).trans (has_map hid id).symm
  · intro c hc x hx
    obtain ⟨d, hd, rfl⟩ := mem_map.mp hc
    rw [hid] at hx
    obtain ⟨hp, hl⟩ := h.mirrors.right d hd x hx
    refine ⟨?_, fun l hh => ?_⟩
    · rw [hp, wireParent, wireParent, hid, hparent]
    · rw [hlinks]
      exact hl l ((has_map hid l).symm.trans hh)
  · intro c hc
    obtain ⟨d, hd, rfl⟩ := mem_map.mp hc
    rw [hlinks]
    exact h.linked d hd

/-- The links change, and all channels that are affected are announced. -/
theorem links (me : ℕ) {desired : List ℕ} {dbOk : Bool}
    (hu : s.updateLinks id desired dbOk = (s', some outs))
    (hkeep : LeavesLinked s.channels id desired) : Follows (v.applyAll me outs) s' := by
  have hplanted := h.toPlanted.updateLinks hu
  rcases updateLinks_cases hu with ⟨rfl, rfl⟩ | ⟨node, hnode, hdesired, hs', rfl⟩
  · exact h
  · obtain rfl := id_of_getChannel hnode
    have hcs : s'.channels = s.channels.map (s.channels.relink node desired) := by rw [hs']; rfl
    have hhas : ∀ id, s'.channels.has id = s.channels.has id := by
      intro id
      rw [hcs, has_map (relink_id node desired)]
    have hrows : s'.rows = s.rows := by rw [hs']; rfl
    have hlinked : ∀ c ∈ s'.channels, ∀ l ∈ c.links, l ∈ s'.rows := by
      intro c hc l hl
      rw [hcs] at hc
      obtain ⟨d, hd, rfl⟩ := mem_map.mp hc
      rw [hrows]
      rcases mem_links_relink hl with hl | hl | rfl
      · exact h.linked d hd l hl
      · exact h.mem_rows (hdesired l hl).2
      · exact h.known node (mem_of_getChannel hnode)
    rw [applyAll_announce]
    refine { toPlanted := hplanted, mirrors := ?_, linked := hlinked, shown := ?_ }
    · refine .of_announced hplanted.ids_nodup getChannel_of_mem_lookups
        (fun id => (h.mirrors.channels id).trans (hhas id).symm) (fun c hc x hx => ?_)
        fun c hc x hx hor l hl => ?_
      · rw [hcs] at hc
        obtain ⟨d, hd, rfl⟩ := mem_map.mp hc
        rw [relink_id] at hx
        rw [(h.mirrors.right d hd x hx).parent, wireParent, wireParent, relink_id, relink_parentID]
      · rw [hcs] at hc
        obtain ⟨d, hd, rfl⟩ := mem_map.mp hc
        rw [relink_id] at hx
        rw [hhas] at hl
        have hright := (h.mirrors.right d hd x hx).links l hl
        by_cases haff : s.channels.linksAffected node desired d = true
        · -- a channel that is affected is announced, so it is without links; it had none before
          have hann : s.channels.relink node desired d ∈
              (sortedLinkIDs ((s.channels.filter
                (s.channels.linksAffected node desired)).map Channel.id)).filterMap
                  fun id => s'.channels.getChannel id := by
            refine mem_filterMap.mpr ⟨d.id, mem_sortedLinkIDs.mpr ?_, ?_⟩
            · exact mem_map_of_mem (mem_filter.mpr ⟨hd, haff⟩)
            · rw [hcs, getChannel_map _ (relink_id node desired),
                getChannel_of_mem h.ids_nodup hd, map_some]
          have hnil := hor.resolve_left (not_not.mpr hann)
          have hnone : ¬∃ l ∈ d.links, s.channels.has l = true := by
            intro hsome
            have hkept := hkeep node hnode d hd haff hsome
            rw [relink, if_pos haff] at hnil
            exact relinked_ne_nil hkept hnil
          rw [hright, hnil]
          exact iff_of_false (fun hmem => hnone ⟨l, hmem, hl⟩) not_mem_nil
        · rw [relink, if_neg haff]
          exact hright
    · rw [hrows]
      exact shown_channelStates h.shown fun c hc =>
        hrows ▸ hlinked c (mem_of_getChannel (getChannel_of_mem_lookups c hc))

theorem remove (me id : ℕ) (dbOk : Bool) :
    Follows (v.applyAll me (if (s.remove id dbOk).2 then [.channelRemove id] else []))
      (s.remove id dbOk).1 := by
  have hplanted := h.toPlanted.remove id dbOk
  rcases remove_cases s id dbOk with hr | ⟨hroot, -, hr⟩
  · rw [hr]
    exact h
  · rw [hr] at hplanted ⊢
    have hself : has (s.channels.filter fun c => decide (c.id ≠ id)) id = false := by
      rw [has, getChannel_filter_self]
      rfl
    have hhas : ∀ d, d ≠ id →
        has (s.channels.filter fun c => decide (c.id ≠ id)) d = s.channels.has d := by
      intro d hd
      unfold has
      rw [getChannel_filter_ne hd]
    refine { toPlanted := hplanted, mirrors := ⟨fun d => ?_, fun c hc x hx => ?_⟩,
             linked := fun c hc => h.linked c (mem_filter.mp hc).1,
             shown := fun d x hx l hl => ?_ }
    · show (v.channelRemove id d).isSome =
        has (s.channels.filter fun c => decide (c.id ≠ id)) d
      unfold View.channelRemove
      split_ifs with hd
      · rw [hd, hself]
        rfl
      · rw [hhas d hd, isSome_map, h.mirrors.channels]
    · obtain ⟨hc, hne⟩ := mem_filter.mp hc
      have hx : x ∈ v.channelRemove id c.id := hx
      rw [View.channelRemove, if_neg (of_decide_eq_true hne)] at hx
      obtain ⟨y, hy, rfl⟩ := map_eq_some_iff.mp hx
      obtain ⟨hp, hl⟩ := h.mirrors.right c hc y hy
      refine ⟨hp, fun l hh => ?_⟩
      have hlid : l ≠ id := by
        rintro rfl
        exact absurd (hself.symm.trans hh) Bool.false_ne_true
      rw [mem_filter, hl l ((hhas l hlid).symm.trans hh)]
      simp [hlid]
    · have hx : x ∈ v.channelRemove id d := hx
      unfold View.channelRemove at hx
      split_ifs at hx
      · cases hx
      · obtain ⟨y, hy, rfl⟩ := map_eq_some_iff.mp hx
        exact h.shown d y hy l (mem_filter.mp hl).1

theorem clean (hnone : NothingToClean s) : Follows v (clean s) := by
  refine h.congr ?_ rfl
  show cleanLoop _ s.channels.length s.channels = s.channels
  cases hlen : s.channels.length with
  | zero => rfl
  | succ n =>
    unfold cleanLoop
    have hfind : s.channels.find? (fun c => decide (c.id ≠ rootChannelID) && c.isTemporary &&
        !s.channels.hasChildren c.id &&
        !decide (0 < countInChannel s.state.server c.id)) = none := by
      refine find?_eq_none.mpr fun c hc => ?_
      simp only [Bool.and_eq_true, decide_eq_true_eq, Bool.not_eq_true', decide_eq_false_iff_not]
      rintro ⟨⟨⟨hroot, htemp⟩, hleaf⟩, hempty⟩
      rcases hnone c hc hroot htemp with hchild | husers
      · exact absurd (hleaf.symm.trans hchild) Bool.false_ne_true
      · exact hempty husers
    rw [hfind]

theorem edit (me : ℕ) (he : Edit LeavesLinked s s' outs) : Follows (v.applyAll me outs) s' := by
  induction he generalizing v with
  | quiet s hq => exact h.plain me (hq.plain _)
  | announce s id =>
    rw [applyAll_announce]
    exact h.channelStates getChannel_of_mem_lookups
  | create newID parentID name description position temporary maxUsers hc => exact h.create hc
  | update s id opts =>
    refine h.rename (fun d => ?_) (fun d => ?_) (fun d => ?_) <;> split <;> rfl
  | links id desired dbOk hkeep hu => exact h.links me hu hkeep
  | trans _ _ ih ih' =>
    rw [View.applyAll, foldl_append]
    exact ih' (ih h)

end Follows

theorem leavesLinked_map {f : Channel → Channel} (hid : ∀ d, (f d).id = d.id)
    (hlinks : ∀ d, (f d).links = d.links) (h : LeavesLinked cs id desired) :
    LeavesLinked (cs.map f) id desired := by
  intro node hnode d hd haff hlive
  rw [mem_def, getChannel_map f hid] at hnode
  obtain ⟨n, hn, rfl⟩ := map_eq_some_iff.mp hnode
  obtain ⟨e, he, rfl⟩ := mem_map.mp hd
  simp only [linksAffected, liveLinks, hid, hlinks, has_map hid] at haff hlive ⊢
  exact h n hn e he haff hlive

/-! ### Operations -/

theorem quiet_evictAll (cfg : Config) (parentID : ℕ) (st : State) (us : List User) :
    Quiet (evictAll cfg parentID st us).2 := by
  induction us generalizing st with
  | nil => exact fun o ho => (by cases ho)
  | cons u rest ih =>
    intro o ho
    rw [evictAll_cons] at ho
    rcases mem_append.mp ho with ho | ho
    · dsimp only [evict] at ho
      split at ho
      · cases ho
      · exact ⟨_, mem_singleton.mp ho⟩
    · exact ih _ o ho

theorem quiet_vacate (cfg : Config) (st : State) (ch : Channel) : Quiet (vacate cfg st ch).2 := by
  intro o ho
  rcases mem_append.mp ho with ho | ho
  · exact quiet_evictAll cfg _ _ _ o ho
  · obtain ⟨l, -, rfl⟩ := mem_map.mp ho
    exact ⟨_, rfl⟩

theorem quiet_refreshSuppressStates (cfg : Config) (st : State) (us : List User) :
    Quiet (refreshSuppressStates cfg st us).2 := by
  induction us generalizing st with
  | nil => exact fun o ho => (by cases ho)
  | cons u rest ih =>
    intro o ho
    rcases mem_append.mp ho with ho | ho
    · split at ho
      · exact ⟨_, mem_singleton.mp ho⟩
      · cases ho
    · exact ih _ o ho

theorem plain_relay (st : State) (outs : List Moderation.Output) :
    Plain st.server.world.channels (outs.map (relay st)) := by
  intro o ho
  obtain ⟨m, -, rfl⟩ := mem_map.mp ho
  unfold relay
  split
  · exact .inr ⟨_, rfl⟩
  · exact .inl ⟨_, rfl⟩

section
variable (cfg : Config)
include cfg

theorem channels_login (u : User) (edge : String) :
    (login cfg s u edge).1.channels = s.channels ∧ (login cfg s u edge).1.rows = s.rows ∧
      (login cfg s u edge).2 = [] := by
  unfold login
  split
  · exact ⟨rfl, rfl, rfl⟩
  · split
    · exact ⟨rfl, rfl, rfl⟩
    · split <;> exact ⟨rfl, rfl, rfl⟩

theorem channels_userState (s : Site) (rateAllows : Bool) (c : SessionRef)
    (us : Moderation.UserState) : (step cfg s (.userState rateAllows c us)).channels = s.channels :=
  congrArg Acl.World.channels (settles_handleUserState cfg.pol s.state rateAllows c us).world

theorem channels_editACL (s : Site) (db : Acl.Database) :
    (editACL cfg s db).1.channels = s.channels := by
  have hcs := congrArg Acl.World.channels (settles_refreshSuppressStates cfg { s.state with
    server := { s.state.server with world := { s.state.server.world with db := db } } }
    s.users.bySession).world
  exact hcs

end

theorem channels_detach (s : Site) (ref : SessionRef) :
    Site.channels { s with state := detach s.state ref } = s.channels :=
  congrArg (fun sv => sv.world.channels) (server_detach s.state ref)

theorem channels_kicked {s' : Site} {ref : SessionRef} (hk : kicked s ref = some s') :
    s'.channels = s.channels ∧ s'.rows = s.rows := by
  obtain ⟨u, r, e, -, -, rfl⟩ := kicked_cases hk
  exact ⟨rfl, rfl⟩

theorem leavesLinked_update (at' : ℕ) (opts : UpdateOpts)
    (h : LeavesLinked cs id desired) :
    LeavesLinked (cs.update at' (metadataOnly opts)) id desired := by
  refine leavesLinked_map (fun d => ?_) (fun d => ?_) h <;> split <;> rfl

/-- No change of links leaves a channel without links that had some, and no session ends while
there is a temporary channel to clean up. -/
def Visible (s : Site) : Op → Prop
  | .channelState _ m _ _ => ∀ ch ∈ s.channels.getChannel m.channelID, m.hasLinkChange = true →
      LeavesLinked s.channels m.channelID (m.desiredLinks ch.links)
  | .restUpdate id _ links _ => ∀ desired ∈ links, LeavesLinked s.channels id desired
  | .disconnect ref => NothingToClean { s with state := detach s.state ref }
  | .kick ref => ∀ s' ∈ kicked s ref, NothingToClean { s' with state := detach s'.state ref }
  | _ => True

namespace Follows
variable (cfg : Config) (me : ℕ) (h : Follows v s)
include h

theorem unregisterConn (ref : SessionRef)
    (hnone : NothingToClean { s with state := detach s.state ref }) :
    Follows v (unregisterConn s ref) := by
  unfold ServerOps.unregisterConn
  split_ifs
  · exact h
  · have hdetach : Follows v { s with state := detach s.state ref } :=
      h.congr (channels_detach s ref) rfl
    exact hdetach.clean hnone

theorem kick (ref : SessionRef)
    (hnone : ∀ s' ∈ kicked s ref, NothingToClean { s' with state := detach s'.state ref }) :
    Follows v (kick s ref) := by
  refine kick_rule h fun s' hk => ?_
  obtain ⟨hcs, hrows⟩ := channels_kicked hk
  exact (h.congr hcs hrows).unregisterConn ref (hnone s' hk)

theorem channelRemove (c : SessionRef) (id : ℕ) (dbOk : Bool) :
    Follows (v.applyAll me (handleChannelRemove cfg s c id dbOk).2)
      (handleChannelRemove cfg s c id dbOk).1 := by
  rcases handleChannelRemove_cases cfg s c id dbOk with ⟨-, hsame, hout⟩ | ⟨ch, -, -, hremove⟩
  · rw [hsame]
    rcases hout with hout | hout <;> rw [hout]
    · exact h
    · exact h.plain me ((quiet_refused _).plain _)
  · have hvacate : Follows (v.applyAll me (vacate cfg s.state ch).2)
        { s with state := (vacate cfg s.state ch).1 } :=
      (h.plain me ((quiet_vacate cfg s.state ch).plain _)).congr (channels_vacate cfg s ch) rfl
    rw [hremove, View.applyAll, foldl_append]
    exact hvacate.remove me id dbOk

theorem editACL (db : Acl.Database) :
    Follows (v.applyAll me (editACL cfg s db).2) (editACL cfg s db).1 := by
  have hs' : Follows v (ServerOps.editACL cfg s db).1 := h.congr (channels_editACL cfg s db) rfl
  refine hs'.plain me fun o ho => ?_
  rcases mem_append.mp ho with ho | ho
  · exact .inl (quiet_refreshSuppressStates cfg _ _ o ho)
  · obtain ⟨u, -, rfl⟩ := mem_map.mp ho
    exact .inr ⟨_, rfl⟩

end Follows

theorem follows_observe (cfg : Config) (me : ℕ) (p : Site × View) (op : Op)
    (h : Follows p.2 p.1) (hop : Visible p.1 op) :
    Follows (observe cfg me p op).2 (observe cfg me p op).1 := by
  obtain ⟨s, v⟩ := p
  cases op with
  | login u edge =>
    obtain ⟨hcs, hrows, hout⟩ := channels_login (s := s) cfg u edge
    show Follows (v.applyAll me (login cfg s u edge).2) (login cfg s u edge).1
    rw [hout]
    exact h.congr hcs hrows
  | userState rateAllows c us =>
    have hs' : Follows v
        { s with state := (Moderation.handleUserState cfg.pol s.state rateAllows c us).state } :=
      h.congr (channels_userState cfg s rateAllows c us) rfl
    exact hs'.plain me (plain_relay _ _)
  | channelState c m newID db =>
    refine h.edit me (handleChannelState_edit cfg m c newID db fun ch hch hlinks => ?_)
    have hkeep := hop ch hch hlinks
    unfold updateMetadata
    by_cases hmeta : m.hasMetadataChange = true
    · rw [if_pos hmeta]
      exact leavesLinked_update m.channelID m.opts hkeep
    · rw [if_neg hmeta]
      exact hkeep
  | channelRemove c id dbOk => exact h.channelRemove cfg me c id dbOk
  | restCreate newID parentID name description position temporary maxUsers =>
    exact h.edit me (restCreate_edit newID parentID name description position temporary maxUsers)
  | restUpdate id opts links dbOk =>
    refine h.edit me (restUpdate_edit id opts links dbOk fun desired hd => ?_)
    have hkeep := hop desired hd
    unfold restMetadata
    split_ifs
    · exact leavesLinked_update id opts hkeep
    · exact hkeep
  | restDelete id dbOk => exact h.remove me id dbOk
  | disconnect ref => exact (h.unregisterConn ref hop).congr rfl rfl
  | kick ref => exact h.kick ref hop
  | editACL db => exact h.editACL cfg me db

/-- **Client channel view**: a client that starts from its initial sync and follows the messages
has exactly the server's channels, with the same parents and the same links between them, after
every run of operations whose effects can be seen. -/
theorem client_channel_view (cfg : Config) (me : ℕ) (hs : Planted s)
    (hlinked : ∀ c ∈ s.channels, ∀ l ∈ c.links, l ∈ s.rows) (ops : List Op)
    (h : Along (observe cfg me) (fun p => Visible p.1) (s, sync s) ops) :
    Mirrors (run (observe cfg me) (s, sync s) ops).2
      (run (observe cfg me) (s, sync s) ops).1.channels := by
  have hstart : Follows (sync s) s :=
    { toPlanted := hs
      mirrors := mirrors_sync hs
      linked := hlinked
      shown := shown_channelStates (fun _ x hx => (by cases hx))
        fun c hc => hlinked c (mem_of_getChannel (getChannel_of_mem_walk hc)) }
  exact (@run_inv _ _ _ (fun p : Site × View => Follows p.2 p.1) _ (follows_observe cfg me) _ hstart
    _ h).mirrors

/-! ### A run -/

instance (cs : Channels) (id : ℕ) (desired : List ℕ) : Decidable (LeavesLinked cs id desired) :=
  inferInstanceAs (Decidable (∀ node ∈ cs.getChannel id, ∀ d ∈ cs,
    cs.linksAffected node desired d = true → (∃ l ∈ d.links, cs.has l = true) →
      if d.id = id then desired ≠ []
      else d.id ∈ desired ∨ ∃ l ∈ d.links, l ≠ id ∧ l ≠ d.id ∧ cs.has l = true))

instance (s : Site) : Decidable (NothingToClean s) :=
  inferInstanceAs (Decidable (∀ c ∈ s.channels, c.id ≠ rootChannelID → c.isTemporary = true →
    s.channels.hasChildren c.id = true ∨ 0 < countInChannel s.state.server c.id))

instance (s : Site) : ∀ op : Op, Decidable (Visible s op)
  | .channelState _ m _ _ => inferInstanceAs (Decidable
      (∀ ch ∈ s.channels.getChannel m.channelID, m.hasLinkChange = true →
        LeavesLinked s.channels m.channelID (m.desiredLinks ch.links)))
  | .restUpdate id _ links _ =>
    inferInstanceAs (Decidable (∀ desired ∈ links, LeavesLinked s.channels id desired))
  | .disconnect ref =>
    inferInstanceAs (Decidable (NothingToClean { s with state := detach s.state ref }))
  | .kick ref => inferInstanceAs (Decidable
      (∀ s' ∈ kicked s ref, NothingToClean { s' with state := detach s'.state ref }))
  | .login .. | .userState .. | .channelRemove .. | .restCreate .. | .restDelete ..
  | .editACL .. => isTrue trivial

/-- The links of the first channel are replaced. -/
def relinkLounge (links : List ℕ) : Op :=
  .restUpdate 1 ⟨none, none, none, none, none, none, [], []⟩ (some links) true

def linking : List Op :=
  opening false ++ [.restCreate 2 0 "Hall" "" 0 false 0, relinkLounge [2]]

theorem client_channel_view_linking :
    ((run (observe config 1) (newSite, sync newSite) linking).2 1).map Shown.links = some [2] ∧
    Mirrors (run (observe config 1) (newSite, sync newSite) (linking ++ [.restDelete 2 true])).2
      (run (observe config 1) (newSite, sync newSite)
        (linking ++ [.restDelete 2 true])).1.channels :=
  ⟨by decide +kernel,
    client_channel_view config 1 planted_newSite (by decide) _ (by decide +kernel)⟩

/-- The last link of a channel is taken away, and a temporary channel is cleaned up when a session
ends: the observer still has the link and the channel. -/
theorem stale_channel_view :
    ¬Mirrors (run (observe config 1) (newSite, sync newSite) (linking ++ [relinkLounge []])).2
      (run (observe config 1) (newSite, sync newSite) (linking ++ [relinkLounge []])).1.channels ∧
    ¬Mirrors (run (observe config 1) (newSite, sync newSite)
        (opening true ++ [.disconnect ⟨2, 2⟩])).2
      (run (observe config 1) (newSite, sync newSite)
        (opening true ++ [.disconnect ⟨2, 2⟩])).1.channels := by
  refine ⟨fun h => ?_, fun h => ?_⟩
  · have hlinks := (h.right ⟨1, 0, "Lounge", "", 0, 0, false, [], true⟩ (by decide +kernel)
      ⟨some 0, [2]⟩ (by decide +kernel)).links 2 (by decide +kernel)
    exact absurd hlinks (by decide)
  · exact absurd (h.channels 1) (by decide +kernel)

end changes

end MumbleServer.ServerOps
