import MumbleServer.HomeRights

/-! # What the cleanup of temporary channels leaves

`CleanEmptyTempChannels` removes temporary channels without children and without users, one after
the other, until there is none.  So a channel goes exactly if everything in it and below it can go
(`clean_leaves_iff`). -/

namespace MumbleServer

open List

/-- The loop ends when nothing is left to remove: every round takes a channel away. -/
theorem busy_of_cleaned_leaf (busy : ℕ → Bool) {fuel : ℕ} {cs : Channels}
    (hfuel : cs.length ≤ fuel) {c : Channel} (hc : c ∈ Channels.cleanLoop busy fuel cs)
    (hroot : c.id ≠ rootChannelID) (htemp : c.isTemporary = true)
    (hleaf : (Channels.cleanLoop busy fuel cs).hasChildren c.id = false) : busy c.id = true := by
  induction fuel generalizing cs with
  | zero =>
    obtain rfl := length_eq_zero_iff.mp (Nat.le_zero.mp hfuel)
    cases hc
  | succ fuel ih =>
    unfold Channels.cleanLoop at hc hleaf
    split at hc
    · rename_i hnone
      rw [hnone] at hleaf
      have hstays := find?_eq_none.mp hnone c hc
      simpa [hroot, htemp, hleaf] using hstays
    · rename_i d hd
      rw [hd] at hleaf
      have hshorter : (cs.filter fun e => decide (e.id ≠ d.id)).length < cs.length :=
        length_filter_lt_length_iff_exists.mpr ⟨d, mem_of_find?_eq_some hd, by simp⟩
      exact ih (Nat.le_of_lt_succ (hshorter.trans_le hfuel)) hc hleaf

section tree
variable (t : ChannelTree)
variable {p : List ℕ}

theorem ChannelTree.path_of_mem {c : Channel} (hc : c ∈ t.channels) :
    ∃ p, IsPath t.channels c.id p :=
  t.path c.id c (getChannel_of_mem t.ids_nodup hc)

theorem ChannelTree.path_child {c : ℕ} (hp : IsPath t.channels c p)
    (hchildren : t.channels.hasChildren c = true) :
    ∃ d ∈ t.channels, IsPath t.channels d.id (p ++ [d.id]) := by
  obtain ⟨d, hd, hparent⟩ := any_eq_true.mp hchildren
  simp only [Bool.and_eq_true, decide_eq_true_eq] at hparent
  exact ⟨d, hd, .child (getChannel_of_mem t.ids_nodup hd) hparent.1 (hparent.2 ▸ hp)⟩

/-- Below every channel is one without children. -/
theorem ChannelTree.leaf_below {c : ℕ} (hp : IsPath t.channels c p) :
    ∃ n q, IsPath t.channels n q ∧ p <+: q ∧ t.channels.hasChildren n = false := by
  -- the paths are no longer than the tree has channels
  induction hroom : t.channels.length - p.length using Nat.strong_induction_on generalizing c p with
  | _ room ih =>
    by_cases hchildren : t.channels.hasChildren c = true
    · obtain ⟨d, -, hd⟩ := t.path_child hp hchildren
      have hlen := hd.length_le
      rw [length_append, length_singleton] at hlen
      obtain ⟨n, q, hq, hpre, hleaf⟩ := ih _ (by
        rw [length_append, length_singleton]
        omega) hd rfl
      exact ⟨n, q, hq, (prefix_append _ _).trans hpre, hleaf⟩
    · exact ⟨c, p, hp, prefix_rfl, Bool.eq_false_iff.mpr hchildren⟩

theorem IsPath.self_mem {cs : Channels} {c : ℕ} (h : IsPath cs c p) : c ∈ p :=
  mem_of_getLast? h.getLast

end tree

/-! ### The channels that are left -/

section cleaned
variable (t : ChannelTree) (busy : ℕ → Bool)

theorem cleaned_tree : ∃ t' : ChannelTree,
    t'.channels = t.channels.cleanEmptyTempChannels busy ∧ t'.channels ⊆ t.channels ∧
    (∀ {c p}, IsPath t'.channels c p → IsPath t.channels c p) ∧
    (∀ n ∈ t.channels, n.id = rootChannelID ∨ n.isTemporary = false ∨ busy n.id = true →
      n ∈ t'.channels) := by
  obtain ⟨t', ht', hkeep⟩ := cleanLoop_channelTree busy t.channels.length t
  have hsub : t'.channels.Sublist t.channels := ht' ▸ cleanLoop_sublist _ _ _
  refine ⟨t', ht', hsub.subset, fun hp => (grows_of_sublist t.ids_nodup hsub).path hp,
    fun n hn hwhy => ?_⟩
  rcases hwhy with hroot | hwhy
  · obtain ⟨r, hr⟩ := t'.root
    have hsame : t.channels.getChannel rootChannelID = some r := by
      obtain hid := id_of_getChannel hr
      exact hid ▸ getChannel_of_mem t.ids_nodup (hsub.subset (mem_of_getChannel hr))
    rw [← hroot, getChannel_of_mem t.ids_nodup hn] at hsame
    exact Option.some.inj hsame ▸ mem_of_getChannel hr
  · exact mem_of_getChannel (hkeep n.id n (getChannel_of_mem t.ids_nodup hn) hwhy)

variable {t busy} {occupied stays : ℕ → Prop} {deletes : ℕ → Bool}

/-- **When the cleanup leaves no empty temporary leaf.**  During the cleanup the channels that are
`occupied` count as having users, and afterwards those that are `stays`: a channel that will have
nobody in it and below it, and is temporary with all that is below, must not be the root, its row
must go and nobody may count as being in it. -/
theorem clean_leaves_iff (hbusy : ∀ id, busy id = true ↔ occupied id ∨ deletes id = false)
    (hstays : ∀ id, stays id → occupied id) :
    (∀ c ∈ t.channels.cleanEmptyTempChannels busy, c.isTemporary = true →
      (t.channels.cleanEmptyTempChannels busy).hasChildren c.id = false → stays c.id) ↔
    ∀ c ∈ t.channels, (∀ n ∈ t.channels, c.id ∈ t.channels.ancestorChain n.id →
        n.isTemporary = true ∧ ¬stays n.id) →
      c.id ≠ rootChannelID ∧ deletes c.id = true ∧ ¬occupied c.id := by
  obtain ⟨t', ht', hsub, hpath, hkept⟩ := cleaned_tree t busy
  have hdone : ∀ c ∈ t'.channels, c.id ≠ rootChannelID → c.isTemporary = true →
      t'.channels.hasChildren c.id = false → busy c.id = true := by
    intro c hc hroot htemp hleaf
    rw [ht'] at hc hleaf
    exact busy_of_cleaned_leaf busy (Nat.le_refl _) hc hroot htemp hleaf
  rw [← ht']
  constructor
  · intro hleaves c hc hidle
    by_contra hwhy
    -- the channel is still there, and below it a leaf with nobody in it
    have hthere : c ∈ t'.channels := by
      refine hkept c hc ?_
      by_cases hroot : c.id = rootChannelID
      · exact .inl hroot
      · refine .inr (.inr ((hbusy c.id).mpr ?_))
        by_contra hfree
        push Not at hfree
        exact hwhy ⟨hroot, by simpa using hfree.2, hfree.1⟩
    obtain ⟨p, hp⟩ := t'.path_of_mem hthere
    obtain ⟨n, q, hq, hpre, hleaf⟩ := t'.leaf_below hp
    obtain ⟨ch, hch⟩ := hq.getChannel
    obtain rfl := id_of_getChannel hch
    have hbelow : c.id ∈ t.channels.ancestorChain ch.id := by
      rw [ancestorChain_of_path (hpath hq), mem_reverse]
      exact hpre.subset hp.self_mem
    obtain ⟨htemp, hempty⟩ := hidle ch (hsub (mem_of_getChannel hch)) hbelow
    exact hempty (hleaves ch (mem_of_getChannel hch) htemp hleaf)
  · intro hidle c hc htemp hleaf
    by_contra hempty
    obtain ⟨hroot, hdeletes, hnobody⟩ := hidle c (hsub hc) fun n hn hbelow => by
      by_cases heq : n.id = c.id
      · have hsame : n = c := inj_on_of_nodup_map t.ids_nodup hn (hsub hc) heq
        exact hsame ▸ ⟨htemp, hempty⟩
      -- what is further down is gone, because the channel has no children left
      · have hgone : n ∉ t'.channels := by
          intro hthere
          obtain ⟨p, hp⟩ := t'.path_of_mem hthere
          rw [ancestorChain_of_path (hpath hp), mem_reverse] at hbelow
          rw [hasChildren_of_mem_path hp hbelow (Ne.symm heq)] at hleaf
          cases hleaf
        have hfree := mt (hkept n hn) hgone
        push Not at hfree
        obtain ⟨-, htemp, hfree⟩ := hfree
        exact ⟨by simpa using htemp, fun h => hfree ((hbusy n.id).mpr (.inl (hstays _ h)))⟩
    rcases (hbusy c.id).mp (hdone c hc hroot htemp hleaf) with hin | hkeeps
    · exact hnobody hin
    · rw [hdeletes] at hkeeps
      cases hkeeps

end cleaned

end MumbleServer
