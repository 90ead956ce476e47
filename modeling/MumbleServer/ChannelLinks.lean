import Mathlib.Data.List.Sort
import MumbleServer.AssocList
import MumbleServer.ChannelTree

/-! # Links between channels

`internal/channel/manager.go`: `UpdateLinks` replaces the links of a channel and keeps every link
that it touches two-sided.  Links are lists of IDs; an ID in them may be that of a channel that is
gone, because removing a channel leaves the lists of the others alone.  So what counts is which
channels that exist a channel is linked to (`liveLinks`).

`GetTree` is the walk from the root that a new client is shown. -/

namespace MumbleServer

open List Option

namespace Channels
variable (cs : Channels)

def has (id : ℕ) : Bool := (cs.getChannel id).isSome

/-- The other channels, among those that exist, that a channel is linked to. -/
def liveLinks (c : Channel) : List ℕ := c.links.filter fun l => decide (l ≠ c.id) && cs.has l

def sortedLinkIDs (ids : List ℕ) : List ℕ := ids.dedup.insertionSort (· ≤ ·)

section updateLinks
variable (node : Channel) (desired : List ℕ)

/-- `stable`: nothing would change. -/
def linksStable : Bool :=
  decide ((cs.liveLinks node).dedup.length = desired.dedup.length) &&
    (cs.liveLinks node).all (fun l => decide (l ∈ desired)) &&
    cs.all fun d => decide (d.id = node.id) ||
      (decide (node.id ∈ d.links) == decide (d.id ∈ desired))

/-- `changedSet`. -/
def linksAffected (d : Channel) : Bool :=
  decide (d.id = node.id) || decide (d.id ∈ cs.liveLinks node) || decide (d.id ∈ desired) ||
    decide (node.id ∈ d.links)

def relinked (d : Channel) : List ℕ :=
  sortedLinkIDs
    (if d.id = node.id then desired
    else (cs.liveLinks d).filter (fun l => decide (l ≠ node.id)) ++
      if d.id ∈ desired then [node.id] else [])

def relink (d : Channel) : Channel :=
  if cs.linksAffected node desired d then { d with links := cs.relinked node desired d } else d

end updateLinks

/-- `UpdateLinks`: the channels and the IDs of those that have changed; the database takes it or
not. -/
def updateLinks (id : ℕ) (desired : List ℕ) (dbOk : Bool) : Option (Channels × List ℕ) :=
  match cs.getChannel id with
  | none => none
  | some node =>
    if desired.any (fun l => decide (l = id) || !cs.has l) then none
    else if cs.linksStable node desired then some (cs, [])
    else if dbOk = false then none
    else some (cs.map (cs.relink node desired),
      sortedLinkIDs ((cs.filter (cs.linksAffected node desired)).map Channel.id))

/-- `Children`, in the order of their positions. -/
def childrenOf (id : ℕ) : List Channel :=
  (cs.filter fun c => decide (c.id ≠ rootChannelID) && decide (c.parentID = id)).insertionSort
    fun a b => a.position ≤ b.position

/-- The walk of `GetTree`. -/
def walk : ℕ → ℕ → List Channel
  | 0, _ => []
  | fuel + 1, id =>
    match cs.getChannel id with
    | none => []
    | some n => n :: (cs.childrenOf id).flatMap fun c => walk fuel c.id

def getTree : List Channel := cs.walk cs.length rootChannelID

end Channels

/-! ### Lookups -/

variable {f : Channel → Channel}

section lookups
variable {cs : Channels} {id : ℕ} {c : Channel}

theorem id_of_getChannel (h : cs.getChannel id = some c) : c.id = id := by
  simpa using find?_some h

theorem mem_of_getChannel (h : cs.getChannel id = some c) : c ∈ cs := mem_of_find?_eq_some h

open Channels

theorem has_iff : cs.has id = true ↔ id ∈ cs.map Channel.id := by
  unfold has getChannel
  rw [find?_isSome]
  simp [eq_comm]

theorem getChannel_map (f : Channel → Channel) (hf : ∀ d, (f d).id = d.id) (id : ℕ) :
    getChannel (cs.map f) id = (cs.getChannel id).map f := by
  unfold getChannel
  rw [find?_map]
  congr 2
  funext d
  simp [hf]

theorem has_map (hf : ∀ d, (f d).id = d.id) (id : ℕ) : has (cs.map f) id = cs.has id := by
  rw [has, getChannel_map f hf, isSome_map, has]

theorem getChannel_of_mem (h : (cs.map Channel.id).Nodup) (hc : c ∈ cs) :
    cs.getChannel c.id = some c :=
  AssocList.find?_of_mem h hc

theorem mem_sortedLinkIDs {l : ℕ} {ids : List ℕ} : l ∈ sortedLinkIDs ids ↔ l ∈ ids := by
  simp [sortedLinkIDs]

@[simp] theorem relink_id (node : Channel) (desired : List ℕ) (d : Channel) :
    (cs.relink node desired d).id = d.id := by
  unfold relink
  split <;> rfl

@[simp] theorem relink_parentID (node : Channel) (desired : List ℕ) (d : Channel) :
    (cs.relink node desired d).parentID = d.parentID := by
  unfold relink
  split <;> rfl

section
variable {node : Channel} {desired : List ℕ} {d : Channel} {l : ℕ}

theorem mem_links_relink
    (h : l ∈ (cs.relink node desired d).links) : l ∈ d.links ∨ l ∈ desired ∨ l = node.id := by
  unfold relink at h
  split_ifs at h
  · simp only [relinked, mem_sortedLinkIDs] at h
    split_ifs at h
    · exact .inr (.inl h)
    · rcases mem_append.mp h with h | h
      · exact .inl (mem_filter.mp (mem_filter.mp h).1).1
      · exact .inr (.inr (mem_singleton.mp h))
    · rw [append_nil] at h
      exact .inl (mem_filter.mp (mem_filter.mp h).1).1
  · exact .inl h

/-- The links that `UpdateLinks` writes, for a link that it does not drop as stale. -/
theorem mem_links_relink_iff
    (hlive : l ∈ cs.liveLinks d ↔ l ∈ d.links) : l ∈ (cs.relink node desired d).links ↔
      if d.id = node.id then l ∈ desired
      else (l ∈ d.links ∧ l ≠ node.id) ∨ (l = node.id ∧ d.id ∈ desired) := by
  unfold relink
  by_cases ha : cs.linksAffected node desired d = true
  · rw [if_pos ha]
    simp only [relinked, mem_sortedLinkIDs]
    by_cases hnode : d.id = node.id
    · simp only [hnode, if_true]
    · by_cases hdes : d.id ∈ desired <;> simp [hnode, hdes, hlive]
  · rw [if_neg ha]
    simp only [linksAffected, Bool.or_eq_true, decide_eq_true_eq, not_or] at ha
    obtain ⟨⟨⟨hnode, -⟩, hdes⟩, hback⟩ := ha
    rw [if_neg hnode]
    refine ⟨fun hl => .inl ⟨hl, fun heq => hback (heq ▸ hl)⟩, ?_⟩
    rintro (⟨hl, -⟩ | ⟨-, hbad⟩)
    · exact hl
    · exact absurd hbad hdes

end

end lookups

/-! ### Trees -/

section trees
variable {c : ℕ} {cs : Channels} {p : List ℕ}

theorem IsPath.length_pos (h : IsPath cs c p) : 0 < p.length := by
  cases h <;> simp

theorem IsPath.map (h : IsPath cs c p) (hid : ∀ d, (f d).id = d.id)
    (hparent : ∀ d, (f d).parentID = d.parentID) : IsPath (cs.map f) c p := by
  induction h with
  | root hn =>
    exact .root (by rw [getChannel_map f hid, hn, map_some])
  | @child c n p hn hne _ ih =>
    refine .child (by rw [getChannel_map f hid, hn, map_some]) hne ?_
    rw [hparent]
    exact ih

/-- The tree with other names, links and so on. -/
def ChannelTree.map (t : ChannelTree) (f : Channel → Channel) (hid : ∀ d, (f d).id = d.id)
    (hparent : ∀ d, (f d).parentID = d.parentID) : ChannelTree where
  channels := t.channels.map f
  ids_nodup := by
    have hids : (t.channels.map f).map Channel.id = t.channels.map Channel.id := by
      simp [hid]
    rw [hids]
    exact t.ids_nodup
  root := by
    obtain ⟨n, hn⟩ := t.root
    exact ⟨f n, by rw [getChannel_map f hid, hn, map_some]⟩
  path c n hn := by
    rw [getChannel_map f hid] at hn
    obtain ⟨m, hm, -⟩ := map_eq_some_iff.mp hn
    obtain ⟨p, hp⟩ := t.path c m hm
    exact ⟨p, hp.map hid hparent⟩

section
variable (t : ChannelTree) {n : Channel} (h : t.channels.getChannel c = some n)
  (hne : c ≠ rootChannelID)
include t h hne

theorem ChannelTree.parent_path : ∃ p, IsPath t.channels n.parentID p := by
  obtain ⟨p, hp⟩ := t.path c n h
  cases hp with
  | root _ => exact absurd rfl hne
  | child hn _ hparent =>
    obtain rfl := some.inj (hn.symm.trans h)
    exact ⟨_, hparent⟩

theorem ChannelTree.parent : t.channels.has n.parentID = true := by
  obtain ⟨p, hparent⟩ := t.parent_path h hne
  obtain ⟨m, hm⟩ := hparent.getChannel
  simp [Channels.has, hm]

theorem ChannelTree.parent_ne : n.parentID ≠ c := by
  intro heq
  obtain ⟨p, hparent⟩ := t.parent_path h hne
  rw [heq] at hparent
  have hloop := congrArg List.length (hparent.unique (.child h hne (heq ▸ hparent)))
  simp at hloop

end

/-- `CleanEmptyTempChannels` leaves a tree; what it removes is temporary and nobody is in it. -/
theorem cleanLoop_channelTree (hasUsers : ℕ → Bool) (fuel : ℕ) (t : ChannelTree) :
    ∃ t' : ChannelTree, t'.channels = Channels.cleanLoop hasUsers fuel t.channels ∧
      ∀ id n, t.channels.getChannel id = some n →
        n.isTemporary = false ∨ hasUsers id = true → t'.channels.getChannel id = some n := by
  induction fuel generalizing t with
  | zero => exact ⟨t, rfl, fun id n hn _ => hn⟩
  | succ fuel ih =>
    unfold Channels.cleanLoop
    split
    · exact ⟨t, rfl, fun id n hn _ => hn⟩
    · rename_i c hc
      have hcond := find?_some hc
      simp only [Bool.and_eq_true, decide_eq_true_eq, Bool.not_eq_true'] at hcond
      obtain ⟨⟨⟨hroot, htemp⟩, hleaf⟩, hempty⟩ := hcond
      obtain ⟨t', ht', hkeep⟩ := ih (t.remove c.id hroot hleaf)
      refine ⟨t', ht', fun id n hn hwhy => hkeep id n ?_ hwhy⟩
      have hne : id ≠ c.id := by
        rintro rfl
        have hcn : t.channels.getChannel c.id = some c :=
          getChannel_of_mem t.ids_nodup (mem_of_find?_eq_some hc)
        obtain rfl := some.inj (hcn.symm.trans hn)
        rcases hwhy with h | h
        · rw [h] at htemp
          cases htemp
        · rw [h] at hempty
          cases hempty
      exact (getChannel_filter_ne hne).trans hn

theorem cleanLoop_sublist (hasUsers : ℕ → Bool) (fuel : ℕ) (cs : Channels) :
    (Channels.cleanLoop hasUsers fuel cs).Sublist cs := by
  induction fuel generalizing cs with
  | zero => exact .refl cs
  | succ fuel ih =>
    unfold Channels.cleanLoop
    split
    · exact .refl cs
    · exact (ih _).trans filter_sublist

end trees

end MumbleServer
