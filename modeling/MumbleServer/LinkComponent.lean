import MumbleServer.BreadthFirst
import MumbleServer.ChannelLinks

/-! # The channels that are linked to each other

`ConnectedChannelIDs` searches the channels that can be reached over links, where a link counts in
both directions no matter which of the two channels has it. -/

namespace MumbleServer

namespace Channels
variable (cs : Channels)

/-- `adjacent`: every link to another channel that exists is an edge in both directions. -/
def adjacent (id : ℕ) : List ℕ :=
  cs.flatMap fun n => n.links.flatMap fun l =>
    if l = n.id ∨ cs.has l = false then []
    else (if n.id = id then [l] else []) ++ if l = id then [n.id] else []

/-- Two channels are linked: one of them, and both exist, has a link to the other. -/
def Linked (a b : ℕ) : Prop :=
  a ≠ b ∧ cs.has a = true ∧ cs.has b = true ∧
    ∃ n ∈ cs, (n.id = a ∧ b ∈ n.links) ∨ (n.id = b ∧ a ∈ n.links)

/-- The link component of a channel; a channel that does not exist is alone. -/
def Connected : ℕ → ℕ → Prop := Relation.ReflTransGen cs.Linked

end Channels

section component
variable {cs : Channels}
variable {a b : ℕ}

theorem has_of_mem {n : Channel} (h : n ∈ cs) : cs.has n.id = true :=
  has_iff.mpr (List.mem_map_of_mem h)

theorem mem_adjacent : b ∈ cs.adjacent a ↔ cs.Linked a b := by
  simp only [Channels.adjacent, List.mem_flatMap]
  constructor
  · rintro ⟨n, hn, l, hl, hb⟩
    by_cases hbad : l = n.id ∨ cs.has l = false
    · rw [if_pos hbad] at hb
      cases hb
    · rw [if_neg hbad] at hb
      obtain ⟨hne, hhas⟩ := not_or.mp hbad
      rw [Bool.not_eq_false] at hhas
      rcases List.mem_append.mp hb with hb | hb <;> split_ifs at hb with ha
      · obtain rfl := List.mem_singleton.mp hb
        exact ⟨ha ▸ Ne.symm hne, ha ▸ has_of_mem hn, hhas, n, hn, .inl ⟨ha, hl⟩⟩
      · cases hb
      · obtain rfl := List.mem_singleton.mp hb
        exact ⟨ha ▸ hne, ha ▸ hhas, has_of_mem hn, n, hn, .inr ⟨rfl, ha ▸ hl⟩⟩
      · cases hb
  · rintro ⟨hne, ha, hb, n, hn, ⟨rfl, hl⟩ | ⟨rfl, hl⟩⟩
    · exact ⟨n, hn, b, hl, by simp [hne.symm, hb]⟩
    · exact ⟨n, hn, a, hl, by simp [hne, ha]⟩

theorem adjacent_has (a b : ℕ) (h : b ∈ cs.adjacent a) : b ∈ cs.map Channel.id :=
  has_iff.mp (mem_adjacent.mp h).2.2.1

theorem search_isSome (ha : ¬cs.has a = false) :
    (BreadthFirst.search cs.adjacent (cs.map Channel.id).length [a] [a]).isSome = true := by
  obtain ⟨found, hfound, -⟩ := BreadthFirst.search_inv (@adjacent_has cs)
    (has_iff.mp (Bool.eq_true_of_not_eq_false ha))
  rw [hfound]
  rfl

def Channels.connectedChannelIDs (cs : Channels) (id : ℕ) : List ℕ :=
  if h : cs.has id = false then []
  else ((BreadthFirst.search cs.adjacent (cs.map Channel.id).length [id] [id]).get
    (search_isSome h)).insertionSort (· ≤ ·)

/-- What the search finds from a channel that exists. -/
theorem connectedChannelIDs_eq (ha : cs.has a = true) : ∃ found,
    BreadthFirst.Inv cs.adjacent a [] found ∧
      cs.connectedChannelIDs a = found.insertionSort (· ≤ ·) := by
  obtain ⟨found, hfound, hinv⟩ := BreadthFirst.search_inv (@adjacent_has cs) (has_iff.mp ha)
  refine ⟨found, hinv, ?_⟩
  rw [Channels.connectedChannelIDs, dif_neg (by simp [ha])]
  simp only [hfound, Option.get_some]

/-- `ConnectedChannelIDs` is the link component, in any order of the channels. -/
theorem mem_connectedChannelIDs :
    b ∈ cs.connectedChannelIDs a ↔ cs.has a = true ∧ cs.Connected a b := by
  by_cases ha : cs.has a = true
  · obtain ⟨found, hinv, heq⟩ := connectedChannelIDs_eq ha
    have hreach : BreadthFirst.Reach cs.adjacent = cs.Connected := by
      unfold BreadthFirst.Reach Channels.Connected
      congr 1
      funext x y
      exact propext mem_adjacent
    rw [heq, List.mem_insertionSort, hinv.mem_iff, hreach]
    simp [ha]
  · simp [Channels.connectedChannelIDs, ha]

theorem connectedChannelIDs_sorted (a : ℕ) : (cs.connectedChannelIDs a).Pairwise (· < ·) := by
  by_cases ha : cs.has a = true
  · obtain ⟨found, hinv, heq⟩ := connectedChannelIDs_eq ha
    have hnodup := (List.perm_insertionSort (· ≤ ·) found).nodup_iff.mpr hinv.nodup
    rw [heq]
    exact ((List.pairwise_insertionSort (· ≤ ·) _).sortedLE.sortedLT_of_nodup hnodup).pairwise
  · simp [Channels.connectedChannelIDs, ha]

theorem Channels.Connected.symm (h : cs.Connected a b) : cs.Connected b a :=
  have : Std.Symm cs.Linked :=
    ⟨fun _ _ ⟨hne, ha, hb, n, hn, hl⟩ => ⟨hne.symm, hb, ha, n, hn, hl.symm⟩⟩
  Relation.ReflTransGen.stdSymm.symm _ _ h

theorem Channels.Connected.has (h : cs.Connected a b) (ha : cs.has a = true) : cs.has b = true := by
  induction h with
  | refl => exact ha
  | tail _ hlink _ => exact hlink.2.2.1

/-- `ConnectedChannelIDs` is the sorted component of the channels that exist, and components are
equal or have no channel in common. -/
theorem link_components (cs : Channels) (a : ℕ) :
    (cs.connectedChannelIDs a).Pairwise (· < ·) ∧
    (∀ b, b ∈ cs.connectedChannelIDs a ↔
      cs.has a = true ∧ cs.has b = true ∧ cs.Connected a b) ∧
    ∀ b, cs.connectedChannelIDs a = cs.connectedChannelIDs b ∨
      (cs.connectedChannelIDs a).Disjoint (cs.connectedChannelIDs b) := by
  refine ⟨connectedChannelIDs_sorted a, fun b => ?_, fun b => ?_⟩
  · rw [mem_connectedChannelIDs]
    exact ⟨fun ⟨ha, h⟩ => ⟨ha, h.has ha, h⟩, fun ⟨ha, _, h⟩ => ⟨ha, h⟩⟩
  · refine or_iff_not_imp_right.mpr fun hmeet => ?_
    obtain ⟨c, ha, hb⟩ : ∃ c ∈ cs.connectedChannelIDs a, c ∈ cs.connectedChannelIDs b := by
      simpa [List.Disjoint] using hmeet
    rw [mem_connectedChannelIDs] at ha hb
    -- both components are the one of the common channel
    refine (connectedChannelIDs_sorted a).eq_of_mem_iff (connectedChannelIDs_sorted b) fun d => ?_
    rw [mem_connectedChannelIDs, mem_connectedChannelIDs]
    exact ⟨fun h => ⟨hb.1, (hb.2.trans ha.2.symm).trans h.2⟩,
      fun h => ⟨ha.1, (ha.2.trans hb.2.symm).trans h.2⟩⟩

end component

end MumbleServer
