import MumbleServer.VoiceDelivery

/-! # Voice by edge

`internal/cluster/dispatcher.go`: the recipients of a frame are grouped by the edge that they are
bound to, and every edge is sent its group.  The groups are a Go map, which is walked in any
order.  What a transport returns is logged and nothing else. -/

namespace MumbleServer.Voice

open List

/-- `VoiceTransport`: whether a batch is delivered. -/
abbrev VoiceTransport := VoiceBatch → Bool

/-- A call of `DeliverVoice`, with its answer. -/
structure EdgeCall where
  edge : String
  batch : VoiceBatch
  delivered : Bool

/-- `groups`, after one more recipient. -/
def addRecipient (r : Registry) (groups : List (String × List VoiceRecipient))
    (recipient : VoiceRecipient) : List (String × List VoiceRecipient) :=
  match r.snapshot recipient.session with
  | none => groups
  | some s =>
    if s.state ≠ .active then groups
    else AssocList.put groups s.edge ((groups.lookup s.edge).getD [] ++ [recipient])

/-- `groups`. -/
def groupByEdge (r : Registry) (recipients : List VoiceRecipient) :
    List (String × List VoiceRecipient) :=
  recipients.foldl (addRecipient r) []

/-- The last loop of `DispatchVoice`, over the groups in some order. -/
def deliverGroups (voice : String → Option VoiceTransport) (batch : VoiceBatch)
    (groups : List (String × List VoiceRecipient)) : List EdgeCall :=
  groups.filterMap fun g => (voice g.1).map fun transport =>
    let copied := { batch with recipients := g.2 }
    ⟨g.1, copied, transport copied⟩

/-- `DispatchVoice`; `walk` is the order in which the map is walked. -/
def dispatchVoice (r : Registry) (voice : String → Option VoiceTransport)
    (walk : List (String × List VoiceRecipient) → List (String × List VoiceRecipient))
    (batch : VoiceBatch) : List EdgeCall :=
  if r.active batch.sender = false then []
  else deliverGroups voice batch (walk (groupByEdge r batch.recipients))

/-- The recipient is an active session of the edge. -/
def boundTo (r : Registry) (edge : String) (recipient : VoiceRecipient) : Bool :=
  (r.snapshot recipient.session).any fun s => decide (s.state = .active ∧ s.edge = edge)

section
variable {r : Registry}

theorem lookup_groupByEdge (recipients : List VoiceRecipient) (edge : String) :
    (groupByEdge r recipients).lookup edge =
      if recipients.filter (boundTo r edge) = [] then none
      else some (recipients.filter (boundTo r edge)) := by
  induction recipients using reverseRecOn with
  | nil => rfl
  | append_singleton recipients x ih =>
    have hlast : groupByEdge r (recipients ++ [x]) =
        addRecipient r (groupByEdge r recipients) x := by simp [groupByEdge]
    rw [hlast, addRecipient, filter_append]
    cases hsnap : r.snapshot x.session with
    | none => simp [boundTo, hsnap, ih]
    | some s =>
      by_cases hactive : s.state = .active
      · simp only [hactive, ne_eq, not_true, if_false, AssocList.lookup_put]
        by_cases hedge : edge = s.edge
        · subst hedge
          have hx : boundTo r s.edge x = true := by simp [boundTo, hsnap, hactive]
          rw [if_pos rfl, ih]
          split_ifs <;> simp_all
        · have hx : boundTo r edge x = false := by
            simp [boundTo, hsnap, Ne.symm hedge]
          simp [hedge, hx, ih]
      · simp [boundTo, hsnap, hactive, ih]

theorem keys_groupByEdge (recipients : List VoiceRecipient) :
    ((groupByEdge r recipients).map Prod.fst).Nodup := by
  refine foldlRecOn (motive := fun groups => (groups.map Prod.fst).Nodup) recipients
    (addRecipient r) ?_ fun groups h x _ => ?_
  · exact nodup_nil
  · unfold addRecipient
    split
    · exact h
    · split_ifs
      · exact h
      · rw [AssocList.put, map_cons, nodup_cons]
        exact ⟨by simp, h.sublist (filter_sublist.map _)⟩

theorem mem_groupByEdge {recipients : List VoiceRecipient} {edge : String}
    {group : List VoiceRecipient} : (edge, group) ∈ groupByEdge r recipients ↔
      group ≠ [] ∧ group = recipients.filter (boundTo r edge) := by
  have hlookup := lookup_groupByEdge (r := r) recipients edge
  constructor
  · intro h
    rw [AssocList.lookup_of_mem (keys_groupByEdge recipients) h] at hlookup
    split_ifs at hlookup with hnil
    cases hlookup
    exact ⟨hnil, rfl⟩
  · rintro ⟨hne, rfl⟩
    rw [if_neg hne] at hlookup
    exact AssocList.mem_of_lookup hlookup

theorem edges_deliverGroups (voice : String → Option VoiceTransport) (batch : VoiceBatch)
    (groups : List (String × List VoiceRecipient)) :
    ((deliverGroups voice batch groups).map EdgeCall.edge).Sublist (groups.map Prod.fst) := by
  induction groups with
  | nil => exact .slnil
  | cons g groups ih =>
    unfold deliverGroups at ih ⊢
    rw [filterMap_cons]
    cases voice g.1 with
    | none => exact ih.cons _
    | some transport => exact ih.cons_cons _

section
variable {voice : String → Option VoiceTransport} {batch : VoiceBatch} {call : EdgeCall}
  {walk : List (String × List VoiceRecipient) → List (String × List VoiceRecipient)}
  (hwalk : ∀ groups, (walk groups).Perm groups) (hsender : r.active batch.sender = true)
include hwalk hsender

theorem mem_dispatchVoice : call ∈ dispatchVoice r voice walk batch ↔
    ∃ transport, voice call.edge = some transport ∧
      batch.recipients.filter (boundTo r call.edge) ≠ [] ∧
      call.batch = { batch with recipients := batch.recipients.filter (boundTo r call.edge) } ∧
      call.delivered = transport call.batch := by
  have hperm := hwalk (groupByEdge r batch.recipients)
  obtain ⟨edge, sent, delivered⟩ := call
  rw [dispatchVoice, if_neg (by simp [hsender])]
  simp only [deliverGroups, mem_filterMap, Option.map_eq_some_iff]
  constructor
  · rintro ⟨⟨e, group⟩, hg, transport, htransport, hcall⟩
    obtain ⟨hne, rfl⟩ := mem_groupByEdge.mp (hperm.mem_iff.mp hg)
    cases hcall
    exact ⟨transport, htransport, hne, rfl, rfl⟩
  · rintro ⟨transport, htransport, hne, rfl, rfl⟩
    exact ⟨(edge, _), hperm.mem_iff.mpr (mem_groupByEdge.mpr ⟨hne, rfl⟩), transport, htransport,
      rfl⟩

/-- An edge is sent what `Audio.dispatchVoice` says. -/
theorem batch_of_mem_dispatchVoice (h : call ∈ dispatchVoice r voice walk batch) :
    Audio.dispatchVoice r (fun _ => r) call.edge batch = some call.batch := by
  obtain ⟨-, -, -, hbatch, -⟩ := (mem_dispatchVoice hwalk hsender).mp h
  have hfilter : (batch.recipients.zipIdx.filter fun e =>
      (r.snapshot e.1.session).any fun s =>
        decide (s.state = .active) && decide (s.edge = call.edge)).map Prod.fst =
      batch.recipients.filter (boundTo r call.edge) := by
    rw [← zipIdx_map_fst 0 batch.recipients, filter_map]
    simp [boundTo, Function.comp_def]
  rw [Audio.dispatchVoice, if_neg (by simp [hsender]), hfilter, hbatch]

end

/-- Every edge that has a transport and active recipients is called once, with these in the order
of the batch, whatever the other edges do. -/
theorem dispatch_partitions (r : Registry) (voice : String → Option VoiceTransport)
    (walk : List (String × List VoiceRecipient) → List (String × List VoiceRecipient))
    (batch : VoiceBatch) (hwalk : ∀ groups, (walk groups).Perm groups)
    (hsender : r.active batch.sender = true) :
    ((dispatchVoice r voice walk batch).map EdgeCall.edge).Nodup ∧
    ∀ call, call ∈ dispatchVoice r voice walk batch ↔
      ∃ transport, voice call.edge = some transport ∧
        batch.recipients.filter (boundTo r call.edge) ≠ [] ∧
        call.batch = { batch with recipients := batch.recipients.filter (boundTo r call.edge) } ∧
        call.delivered = transport call.batch := by
  refine ⟨?_, fun call => mem_dispatchVoice hwalk hsender⟩
  have hperm := hwalk (groupByEdge r batch.recipients)
  have hkeys := (hperm.map Prod.fst).nodup_iff.mpr (keys_groupByEdge batch.recipients)
  rw [dispatchVoice, if_neg (by simp [hsender])]
  exact hkeys.sublist (edges_deliverGroups voice batch _)

/-- Of three recipients two are on one edge and one on an edge without a transport. -/
theorem dispatch_partitions_two :
    let bound (sid : ℕ) (edge : String) : Entry := ⟨⟨sid, 1⟩, edge, .active, false⟩
    let r : Registry := ⟨[], [bound 1 "a", bound 2 "a", bound 3 "b"]⟩
    let peer (sid : ℕ) : VoiceRecipient := ⟨⟨sid, 1⟩, 0, 0, false, false⟩
    let batch : VoiceBatch :=
      ⟨⟨1, 1⟩, ⟨4, 0, 1, 0, [], (0, 0, 0), false, false⟩, [peer 2, peer 3, peer 1, peer 2]⟩
    let voice (edge : String) := if edge = "a" then some (fun _ : VoiceBatch => false) else none
    ⟨"a", { batch with recipients := [peer 2, peer 1, peer 2] }, false⟩ ∈
      dispatchVoice r voice List.reverse batch := by
  intro bound r peer batch voice
  refine ((dispatch_partitions r voice reverse batch reverse_perm (by decide)).2 _).mpr ?_
  exact ⟨fun _ => false, rfl, by decide, by decide, rfl⟩

end

end MumbleServer.Voice
