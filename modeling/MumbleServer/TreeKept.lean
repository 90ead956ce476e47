import MumbleServer.ServerOps

/-! # The channels stay a tree

What each of the calls to the channel manager does to the channels, once and for all, and that
they stay a tree below the root whose IDs the database knows. -/

namespace MumbleServer.ServerOps

open List Channels
open Moderation (State countInChannel)

/-- The channels form a tree, and their IDs are known to the database. -/
structure Planted (s : Site) : Prop where
  tree : ∃ t : ChannelTree, t.channels = s.channels
  top : ∀ c ∈ s.channels, c.id = rootChannelID → c.parentID = rootChannelID
  known : ∀ c ∈ s.channels, c.id ∈ s.rows

/-! ### What the calls do -/

variable {outs : List Output} {desired : List ℕ}

section calls
variable {s s' : Site} {id : ℕ} {dbOk : Bool}

/-- A channel that is created has a new ID, hangs below one that exists and has no links. -/
theorem create_cases {newID parentID : ℕ} {name description : String} {position : Int}
    {temporary : Bool} {maxUsers : ℕ} {ch : Channel}
    (h : s.create newID parentID name description position temporary maxUsers = (s', some ch)) :
    newID ∉ s.rows ∧ s.channels.has parentID = true ∧ ch.id = newID ∧ ch.parentID = parentID ∧
      ch.links = [] ∧ s' = { s.setChannels (ch :: s.channels.filter fun d => decide (d.id ≠ newID))
        with rows := newID :: s.rows } := by
  unfold Site.create at h
  split_ifs at h with hrow
  · cases h
  · rcases hc : s.channels.create newID parentID name description position temporary maxUsers
      with ⟨cs, _ | ch'⟩
    · rw [hc] at h
      cases h
    · rw [hc] at h
      cases h
      unfold create at hc
      split_ifs at hc with hparent
      all_goals cases hc
      refine ⟨hrow, ?_, rfl, rfl, rfl, rfl⟩
      simpa [has, ← Option.isSome_iff_ne_none] using hparent

/-- A change of links leaves everything as it is, or sets the links of all channels that are
affected and announces them. -/
theorem updateLinks_cases (h : s.updateLinks id desired dbOk = (s', some outs)) :
    (s' = s ∧ outs = []) ∨
      ∃ node, s.channels.getChannel id = some node ∧
        (∀ l ∈ desired, l ≠ id ∧ s.channels.has l = true) ∧
        s' = s.setChannels (s.channels.map (s.channels.relink node desired)) ∧
        outs = s'.announce (sortedLinkIDs
          ((s.channels.filter (s.channels.linksAffected node desired)).map Channel.id)) := by
  unfold Site.updateLinks updateLinks at h
  cases hn : s.channels.getChannel id with
  | none =>
    rw [hn] at h
    cases h
  | some node =>
    simp only [hn] at h
    split_ifs at h with hbad hstable hdb
    · cases h
    · cases h
      exact .inl ⟨rfl, rfl⟩
    · cases h
    · cases h
      refine .inr ⟨node, rfl, fun l hl => ?_, rfl, rfl⟩
      simpa using (any_eq_false.mp (Bool.eq_false_iff.mpr hbad)) l hl

theorem remove_cases (s : Site) (id : ℕ) (dbOk : Bool) :
    s.remove id dbOk = (s, false) ∨
      (id ≠ rootChannelID ∧ s.channels.hasChildren id = false ∧
        s.remove id dbOk =
          (s.setChannels (s.channels.filter fun c => decide (c.id ≠ id)), true)) := by
  unfold Site.remove remove
  split_ifs with hdb hroot hnone hchild
  · exact .inl rfl
  · exact .inl rfl
  · exact .inl rfl
  · exact .inl rfl
  · exact .inr ⟨hroot, by simpa using hchild, rfl⟩

end calls

/-! ### The tree -/

namespace Planted
variable {s s' : Site} (h : Planted s)
variable {ch : Channel} {name description : String}
include h

theorem ids_nodup : (s.channels.map Channel.id).Nodup := by
  obtain ⟨t, ht⟩ := h.tree
  exact ht ▸ t.ids_nodup

theorem hasRoot : s.channels.has rootChannelID = true := by
  obtain ⟨t, ht⟩ := h.tree
  obtain ⟨n, hn⟩ := t.root
  simp [has, ← ht, hn]

theorem hasParent {id : ℕ}
    (hch : s.channels.getChannel id = some ch) : s.channels.has ch.parentID = true := by
  obtain ⟨t, ht⟩ := h.tree
  obtain rfl := id_of_getChannel hch
  by_cases hroot : ch.id = rootChannelID
  · rw [h.top ch (mem_of_getChannel hch) hroot]
    exact h.hasRoot
  · rw [← ht] at hch ⊢
    exact t.parent hch hroot

theorem path {c : ℕ} (hc : s.channels.has c = true) : ∃ p, IsPath s.channels c p := by
  obtain ⟨t, ht⟩ := h.tree
  obtain ⟨n, hn⟩ := Option.isSome_iff_exists.mp hc
  rw [← ht] at hn ⊢
  exact t.path c n hn

theorem mem_rows {cid : ℕ} (hc : s.channels.has cid = true) : cid ∈ s.rows := by
  obtain ⟨c, hmem, rfl⟩ := mem_map.mp (has_iff.mp hc)
  exact h.known c hmem

theorem congr (hcs : s'.channels = s.channels) (hrows : s'.rows = s.rows) : Planted s' :=
  ⟨by rw [hcs]; exact h.tree, by rw [hcs]; exact h.top, by rw [hcs, hrows]; exact h.known⟩

theorem rename {f : Channel → Channel} (hid : ∀ d, (f d).id = d.id)
    (hparent : ∀ d, (f d).parentID = d.parentID) : Planted (s.setChannels (s.channels.map f)) := by
  obtain ⟨t, ht⟩ := h.tree
  refine ⟨⟨t.map f hid hparent, by rw [← ht]; rfl⟩, fun c hc => ?_, fun c hc => ?_⟩
  · obtain ⟨d, hd, rfl⟩ := mem_map.mp hc
    rw [hid, hparent]
    exact h.top d hd
  · obtain ⟨d, hd, rfl⟩ := mem_map.mp hc
    rw [hid]
    exact h.known d hd

theorem prune {t : ChannelTree} (hsub : t.channels.Sublist s.channels) :
    Planted (s.setChannels t.channels) :=
  ⟨⟨t, rfl⟩, fun c hc => h.top c (hsub.subset hc), fun c hc => h.known c (hsub.subset hc)⟩

theorem update (id : ℕ) (opts : UpdateOpts) :
    Planted (s.setChannels (s.channels.update id opts)) := by
  refine h.rename (fun d => ?_) (fun d => ?_) <;> split <;> rfl

section
variable {newID parentID : ℕ} {position : Int} {temporary : Bool} {maxUsers : ℕ}
  (hc : s.create newID parentID name description position temporary maxUsers = (s', some ch))
include hc

theorem channels_create : s'.channels = ch :: s.channels := by
  obtain ⟨hnew, -, -, -, -, rfl⟩ := create_cases hc
  have hall : s.channels.filter (fun d => decide (d.id ≠ newID)) = s.channels := by
    refine filter_eq_self.mpr fun d hd => decide_eq_true ?_
    rintro rfl
    exact hnew (h.known d hd)
  exact congrArg (ch :: ·) hall

theorem notMem_create : ch.id ∉ s.channels.map Channel.id := by
  obtain ⟨hnew, -, hid, -⟩ := create_cases hc
  exact fun hmem => hnew (hid ▸ h.mem_rows (has_iff.mpr hmem))

theorem create : Planted s' := by
  have hcs := h.channels_create hc
  have hfresh := h.notMem_create hc
  obtain ⟨-, hparent, hid, hpid, -, rfl⟩ := create_cases hc
  obtain ⟨t, ht⟩ := h.tree
  rw [← ht] at hfresh
  have hbelow : ∃ n, t.channels.getChannel ch.parentID = some n := by
    rw [ht, hpid]
    exact Option.isSome_iff_exists.mp hparent
  refine ⟨⟨t.add ch hfresh hbelow, hcs ▸ congrArg (ch :: ·) ht⟩, fun c hmem hroot => ?_,
    fun c hmem => ?_⟩
  · rw [hcs] at hmem
    rcases mem_cons.mp hmem with rfl | hmem
    · exact absurd (hroot ▸ has_iff.mp (ht ▸ h.hasRoot)) hfresh
    · exact h.top c hmem hroot
  · rw [hcs] at hmem
    rcases mem_cons.mp hmem with rfl | hmem
    · exact hid ▸ mem_cons_self
    · exact mem_cons_of_mem _ (h.known c hmem)

end

theorem updateLinks {id : ℕ} {dbOk : Bool} (hu : s.updateLinks id desired dbOk = (s', some outs)) :
    Planted s' := by
  rcases updateLinks_cases hu with ⟨rfl, -⟩ | ⟨node, -, -, rfl, -⟩
  · exact h
  · exact h.rename (relink_id _ _) (relink_parentID _ _)

theorem edit {P : Channels → ℕ → List ℕ → Prop} (he : Edit P s s' outs) : Planted s' := by
  induction he with
  | quiet => exact h
  | announce => exact h
  | create newID parentID name description position temporary maxUsers hc => exact h.create hc
  | update s id opts => exact h.update id _
  | links id desired dbOk _ hu => exact h.updateLinks hu
  | trans _ _ ih ih' => exact ih' (ih h)

theorem remove (id : ℕ) (dbOk : Bool) : Planted (s.remove id dbOk).1 := by
  rcases remove_cases s id dbOk with hr | ⟨hroot, hleaf, hr⟩
  · rw [hr]
    exact h
  · rw [hr]
    obtain ⟨t, ht⟩ := h.tree
    rw [← ht] at hleaf ⊢
    exact h.prune (t := t.remove id hroot hleaf) (ht ▸ filter_sublist)

theorem clean : Planted (clean s) ∧
    ∀ id n, s.channels.getChannel id = some n →
      n.isTemporary = false ∨ 0 < countInChannel s.state.server id →
      (ServerOps.clean s).channels.getChannel id = some n := by
  obtain ⟨t, ht⟩ := h.tree
  obtain ⟨t', ht', hkeep⟩ := cleanLoop_channelTree
    (fun id => decide (0 < countInChannel s.state.server id)) t.channels.length t
  rw [ht] at ht' hkeep
  have hcs : (ServerOps.clean s).channels = t'.channels := ht'.symm
  constructor
  · have hplanted := h.prune (t := t') (ht' ▸ cleanLoop_sublist _ _ _)
    rwa [← hcs] at hplanted
  · intro id n hn hwhy
    rw [hcs]
    exact hkeep id n hn (hwhy.imp_right decide_eq_true)

end Planted

end MumbleServer.ServerOps
