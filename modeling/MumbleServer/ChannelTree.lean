import Mathlib.Data.List.Dedup
import Mathlib.Data.List.Nodup
import Mathlib.Data.List.Perm.Subperm
import Mathlib.Tactic.Common

/-! # The channel tree

`internal/channel/manager.go`: the channels of a server, indexed by ID, each with the ID of its
parent.  The root has ID 0.  `AncestorChain` climbs from a channel to the root with a guard
against cycles; the number of channels bounds the climb, so the loop is a recursion with that
much fuel (`ancestorLoop_of_path` shows that it is enough).

`IsPath cs c p` is the declarative path from the root to `c`.  A `ChannelTree` is a collection
of channels with distinct IDs in which every channel has a path. -/

namespace MumbleServer

open List

structure Channel where
  id : ℕ
  parentID : ℕ
  name : String
  description : String
  position : Int
  maxUsers : ℕ
  isTemporary : Bool
  links : List ℕ
  inheritACL : Bool
deriving DecidableEq

def rootChannelID : ℕ := 0

/-- The channels of a manager (`Manager.tree`). -/
abbrev Channels := List Channel

namespace Channels

def getChannel (cs : Channels) (id : ℕ) : Option Channel := cs.find? (fun c => decide (c.id = id))

/-- `GetChannelWithMeta`, the inheritance flag. -/
def getChannelWithMeta (cs : Channels) (id : ℕ) : Option (Channel × Bool) :=
  (cs.getChannel id).map (fun c => (c, c.inheritACL))

/-- The loop of `AncestorChain`; the channels seen are those of the chain. -/
def ancestorLoop (cs : Channels) : ℕ → List ℕ → ℕ → List ℕ
  | 0, chain, _ => chain
  | fuel + 1, chain, cid =>
    match cs.getChannel cid with
    | none => chain
    | some n =>
      if cid ∈ chain then chain
      else if cid = rootChannelID then chain ++ [cid]
      else cs.ancestorLoop fuel (chain ++ [cid]) n.parentID

/-- `AncestorChain`: the IDs from the channel up to the root. -/
def ancestorChain (cs : Channels) (id : ℕ) : List ℕ := cs.ancestorLoop (cs.length + 1) [] id

def hasChildren (cs : Channels) (id : ℕ) : Bool :=
  cs.any (fun c => decide (c.id ≠ rootChannelID) && decide (c.parentID = id))

/-- `Create`, with the ID the database assigns; the schema's default for the ACL flag is
true. -/
def create (cs : Channels) (newID parentID : ℕ) (name description : String) (position : Int)
    (temporary : Bool) (maxUsers : ℕ) : Channels × Option Channel :=
  if (cs.getChannel parentID).isNone then (cs, none)
  else if name = "" then (cs, none)
  else
    let c : Channel := ⟨newID, parentID, name, description, position, maxUsers, temporary, [], true⟩
    (c :: cs.filter (fun d => decide (d.id ≠ newID)), some c)

/-- `UpdateOpts`; absent fields are kept. -/
structure UpdateOpts where
  name : Option String
  description : Option String
  position : Option Int
  maxUsers : Option ℕ
  temporary : Option Bool
  links : Option (List ℕ)
  linksAdd : List ℕ
  linksRemove : List ℕ

/-- The links after an update: replaced, or edited as a set. -/
def UpdateOpts.newLinks (opts : UpdateOpts) (links : List ℕ) : List ℕ :=
  match opts.links with
  | some links => links
  | none =>
    if opts.linksAdd = [] ∧ opts.linksRemove = [] then links
    else (links.filter (fun id => decide (id ∉ opts.linksRemove)) ++ opts.linksAdd).dedup

/-- `Update`, in memory. -/
def update (cs : Channels) (id : ℕ) (opts : UpdateOpts) : Channels :=
  cs.map fun c =>
    if c.id = id then
      { c with
        name := opts.name.getD c.name
        description := opts.description.getD c.description
        position := opts.position.getD c.position
        maxUsers := opts.maxUsers.getD c.maxUsers
        isTemporary := opts.temporary.getD c.isTemporary
        links := opts.newLinks c.links }
    else c

/-- `Remove`: not the root and not a channel with children. -/
def remove (cs : Channels) (id : ℕ) : Channels × Bool :=
  if id = rootChannelID then (cs, false)
  else if (cs.getChannel id).isNone then (cs, false)
  else if cs.hasChildren id then (cs, false)
  else (cs.filter (fun c => decide (c.id ≠ id)), true)

/-- The loop of `CleanEmptyTempChannels`; each round removes a channel. -/
def cleanLoop (hasUsers : ℕ → Bool) : ℕ → Channels → Channels
  | 0, cs => cs
  | fuel + 1, cs =>
    match cs.find? (fun c => decide (c.id ≠ rootChannelID) && c.isTemporary &&
        !cs.hasChildren c.id && !hasUsers c.id) with
    | none => cs
    | some c => cleanLoop hasUsers fuel (cs.filter (fun d => decide (d.id ≠ c.id)))

def cleanEmptyTempChannels (cs : Channels) (hasUsers : ℕ → Bool) : Channels :=
  cleanLoop hasUsers cs.length cs

end Channels

/-- `p` lists the IDs from the root down to `c`. -/
inductive IsPath (cs : Channels) : ℕ → List ℕ → Prop where
  | root {n : Channel} : cs.getChannel rootChannelID = some n → IsPath cs rootChannelID [rootChannelID]
  | child {c : ℕ} {n : Channel} {p : List ℕ} : cs.getChannel c = some n → c ≠ rootChannelID →
      IsPath cs n.parentID p → IsPath cs c (p ++ [c])

/-- Channels with distinct IDs that all hang below the root. -/
structure ChannelTree where
  channels : Channels
  ids_nodup : (channels.map Channel.id).Nodup
  root : ∃ n, channels.getChannel rootChannelID = some n
  path : ∀ c n, channels.getChannel c = some n → ∃ p, IsPath channels c p

/-! ### Paths -/

section paths
variable {cs : Channels} {c : ℕ} {p : List ℕ}

theorem IsPath.getChannel (h : IsPath cs c p) : ∃ n, cs.getChannel c = some n := by
  cases h with
  | root hn | child hn _ _ => exact ⟨_, hn⟩

theorem IsPath.getLast (h : IsPath cs c p) : p.getLast? = some c := by
  cases h with
  | root _ => rfl
  | child _ _ _ => simp

theorem IsPath.head (h : IsPath cs c p) : p.head? = some rootChannelID := by
  induction h with
  | root _ => rfl
  | child _ _ _ ih => rw [head?_append, ih]; rfl

theorem IsPath.of_root (h : IsPath cs rootChannelID p) : p = [rootChannelID] := by
  cases h with
  | root _ => rfl
  | child _ hne _ => exact absurd rfl hne

theorem IsPath.unique (h : IsPath cs c p) {q : List ℕ} (hq : IsPath cs c q) : p = q := by
  induction h generalizing q with
  | root hn =>
    cases hq with
    | root _ => rfl
    | child _ hne _ => exact absurd rfl hne
  | child hn hne _ ih =>
    cases hq with
    | root _ => exact absurd rfl hne
    | child hn' _ hq' =>
      obtain rfl := Option.some.inj (hn.symm.trans hn')
      rw [ih hq']

/-- Every channel on a path has a path of its own, a part of that path. -/
theorem IsPath.of_mem (h : IsPath cs c p) {d : ℕ} (hd : d ∈ p) : ∃ q, IsPath cs d q ∧ q <+: p := by
  induction h with
  | root hn =>
    rw [mem_singleton] at hd
    subst hd
    exact ⟨_, .root hn, prefix_rfl⟩
  | @child c n p hn hne hp ih =>
    rw [mem_append, mem_singleton] at hd
    rcases hd with hd | rfl
    · obtain ⟨q, hq, hpre⟩ := ih hd
      exact ⟨q, hq, hpre.trans (prefix_append _ _)⟩
    · exact ⟨_, .child hn hne hp, prefix_rfl⟩

theorem IsPath.nodup (h : IsPath cs c p) : p.Nodup := by
  induction h with
  | root _ => simp
  | @child c n p hn hne hp ih =>
    rw [nodup_append]
    refine ⟨ih, by simp, fun a ha b hb => ?_⟩
    rw [mem_singleton] at hb
    subst hb
    rintro rfl
    -- the channel would have a shorter path besides this one
    obtain ⟨q, hq, hpre⟩ := hp.of_mem ha
    have hlen := hpre.length_le
    rw [hq.unique (.child hn hne hp), length_append, length_singleton] at hlen
    omega

theorem mem_ids_of_getChannel {n : Channel} (h : cs.getChannel c = some n) :
    c ∈ cs.map Channel.id := by
  have hid : n.id = c := by simpa using find?_some h
  exact mem_map.mpr ⟨n, mem_of_find?_eq_some h, hid⟩

theorem IsPath.length_le (h : IsPath cs c p) : p.length ≤ cs.length := by
  have hsub : p ⊆ cs.map Channel.id := fun d hd => by
    obtain ⟨q, hq, -⟩ := h.of_mem hd
    obtain ⟨n, hn⟩ := hq.getChannel
    exact mem_ids_of_getChannel hn
  have hlen := (h.nodup.subperm hsub).length_le
  rwa [length_map] at hlen

theorem ancestorLoop_of_path (h : IsPath cs c p) {fuel : ℕ} (hfuel : p.length ≤ fuel)
    {chain : List ℕ} (hnew : ∀ d ∈ p, d ∉ chain) :
    cs.ancestorLoop fuel chain c = chain ++ p.reverse := by
  induction h generalizing fuel chain with
  | root hn =>
    obtain ⟨fuel, rfl⟩ : ∃ k, fuel = k + 1 := ⟨fuel - 1, by simp at hfuel; omega⟩
    have hseen := hnew rootChannelID (by simp)
    simp [Channels.ancestorLoop, hn, hseen]
  | @child c n p hn hne hp ih =>
    obtain ⟨fuel, rfl⟩ : ∃ k, fuel = k + 1 := ⟨fuel - 1, by simp at hfuel; omega⟩
    have hseen : c ∉ chain := hnew c (by simp)
    have hnodup := (IsPath.child hn hne hp).nodup
    rw [Channels.ancestorLoop, hn]
    simp only [hseen, hne, if_false]
    rw [ih (by simpa using hfuel) fun d hd => ?_]
    · simp
    · rw [mem_append, mem_singleton]
      rintro (hc | rfl)
      · exact hnew d (by simp [hd]) hc
      · exact absurd rfl ((nodup_append.mp hnodup).2.2 d hd d (by simp))

/-- `AncestorChain` is the path, from the channel up. -/
theorem ancestorChain_of_path (h : IsPath cs c p) : cs.ancestorChain c = p.reverse := by
  have hlen := h.length_le
  rw [Channels.ancestorChain, ancestorLoop_of_path h (by omega) (by simp), nil_append]

end paths

/-! ### The operations keep the tree -/

section operations

theorem IsPath.congr {cs cs' : Channels} {c : ℕ} {p : List ℕ} (h : IsPath cs c p)
    (hsame : ∀ d ∈ p, cs'.getChannel d = cs.getChannel d) : IsPath cs' c p := by
  induction h with
  | root hn => exact .root ((hsame _ (by simp)).trans hn)
  | child hn hne _ ih =>
    refine .child ((hsame _ (by simp)).trans hn) hne (ih fun d hd => hsame d (by simp [hd]))

theorem getChannel_filter_ne {cs : Channels} {id d : ℕ} (h : d ≠ id) :
    Channels.getChannel (cs.filter (fun c => decide (c.id ≠ id))) d = cs.getChannel d := by
  unfold Channels.getChannel
  rw [find?_filter]
  congr 1
  funext c
  by_cases hc : c.id = d
  · simp [hc, h]
  · simp [hc]

theorem getChannel_filter_self (cs : Channels) (id : ℕ) :
    Channels.getChannel (cs.filter (fun c => decide (c.id ≠ id))) id = none := by
  unfold Channels.getChannel
  rw [find?_eq_none]
  intro c hc
  simpa using (mem_filter.mp hc).2

/-- A channel whose path leads through another one has it as parent or below a child of it. -/
theorem hasChildren_of_mem_path {cs : Channels} {c d : ℕ} {p : List ℕ} (h : IsPath cs c p)
    (hd : d ∈ p) (hne : d ≠ c) : cs.hasChildren d = true := by
  induction h with
  | root _ => exact absurd (mem_singleton.mp hd) hne
  | @child c n p hn hroot hp ih =>
    rw [mem_append, mem_singleton] at hd
    have hd' := hd.resolve_right hne
    by_cases hpar : d = n.parentID
    · have hid : n.id = c := by simpa using find?_some hn
      refine any_eq_true.mpr ⟨n, mem_of_find?_eq_some hn, ?_⟩
      simp [hid, hroot, hpar]
    · exact ih hd' hpar

namespace ChannelTree

/-- Removing a channel without children leaves a tree. -/
def remove (t : ChannelTree) (id : ℕ) (hroot : id ≠ rootChannelID)
    (hleaf : t.channels.hasChildren id = false) : ChannelTree where
  channels := t.channels.filter (fun c => decide (c.id ≠ id))
  ids_nodup := t.ids_nodup.sublist (filter_sublist.map _)
  root := by
    obtain ⟨n, hn⟩ := t.root
    exact ⟨n, (getChannel_filter_ne (Ne.symm hroot)).trans hn⟩
  path c n hn := by
    have hne : c ≠ id := by
      rintro rfl
      rw [getChannel_filter_self] at hn
      cases hn
    rw [getChannel_filter_ne hne] at hn
    obtain ⟨p, hp⟩ := t.path c n hn
    refine ⟨p, hp.congr fun d hd => getChannel_filter_ne ?_⟩
    rintro rfl
    have hchild := hasChildren_of_mem_path hp hd (Ne.symm hne)
    rw [hleaf] at hchild
    cases hchild

/-- Adding a channel with a new ID below an existing one leaves a tree. -/
def add (t : ChannelTree) (c : Channel) (hnew : c.id ∉ t.channels.map Channel.id)
    (hparent : ∃ n, t.channels.getChannel c.parentID = some n) : ChannelTree where
  channels := c :: t.channels
  ids_nodup := nodup_cons.mpr ⟨hnew, t.ids_nodup⟩
  root := by
    obtain ⟨n, hn⟩ := t.root
    refine ⟨n, (find?_cons_of_neg ?_).trans hn⟩
    intro he
    have hid : c.id = rootChannelID := by simpa using he
    exact hnew (hid ▸ mem_ids_of_getChannel hn)
  path d n hn := by
    have hold : ∀ e m, t.channels.getChannel e = some m →
        Channels.getChannel (c :: t.channels) e = t.channels.getChannel e := fun e m hm =>
      find?_cons_of_neg fun he => hnew (by
        have hid : c.id = e := by simpa using he
        exact hid ▸ mem_ids_of_getChannel hm)
    have hpaths : ∀ e p, IsPath t.channels e p → IsPath (c :: t.channels) e p := fun e p hp =>
      hp.congr fun d hd => by
        obtain ⟨q, hq, -⟩ := hp.of_mem hd
        obtain ⟨m, hm⟩ := hq.getChannel
        exact hold d m hm
    by_cases hd : c.id = d
    · obtain ⟨m, hm⟩ := hparent
      obtain ⟨p, hp⟩ := t.path _ m hm
      have hself : Channels.getChannel (c :: t.channels) d = some c :=
        find?_cons_of_pos (by simpa using hd)
      have hne : d ≠ rootChannelID := by
        rintro rfl
        obtain ⟨r, hr⟩ := t.root
        exact hnew (hd ▸ mem_ids_of_getChannel hr)
      exact ⟨p ++ [d], .child hself hne (hpaths _ p hp)⟩
    · have hold' : Channels.getChannel (c :: t.channels) d = t.channels.getChannel d :=
        find?_cons_of_neg (by simpa using hd)
      obtain ⟨p, hp⟩ := t.path d n (hold' ▸ hn)
      exact ⟨p, hpaths d p hp⟩

def rootOnly (n : Channel) (h : n.id = rootChannelID) : ChannelTree where
  channels := [n]
  ids_nodup := by simp
  root := ⟨n, by simp [Channels.getChannel, h]⟩
  path c m hm := by
    have hself : Channels.getChannel [n] rootChannelID = some n := by simp [Channels.getChannel, h]
    have hc : c = rootChannelID := by
      have := mem_ids_of_getChannel hm
      simpa [h] using this
    exact ⟨[rootChannelID], hc ▸ .root hself⟩

end ChannelTree

end operations

end MumbleServer
