import MumbleServer.Entering

/-! # The removal of a channel, all or nothing

The handler of a ChannelRemove first moves everybody out of the channel, takes all listeners off it
and tells everybody, and only then asks the channel manager to remove it.  The manager refuses for
the root channel, for a channel with children and when the database fails, and nothing is undone
then. -/

namespace MumbleServer.ServerOps

open List
open Acl (Permission Subject subjectOf)
open Moderation (State Member aclCheck world_updateUser)

/-- What goes to more than one client. -/
def Output.isBroadcast : Output → Bool
  | .channel _ | .channelRemove _ | .user (.broadcast _ _) => true
  | _ => false

/-- A removal that does not happen leaves no trace: if the channel is still there then so are all
users, as they were, and whoever listened, and nothing was broadcast. -/
def RemovesOrNothing (cfg : Config) (s : Site) (c : SessionRef) (id : ℕ) (dbOk : Bool) : Prop :=
  (handleChannelRemove cfg s c id dbOk).1.channels.getChannel id = s.channels.getChannel id →
    (∀ sid, (handleChannelRemove cfg s c id dbOk).1.state.member sid = s.state.member sid) ∧
    (handleChannelRemove cfg s c id dbOk).1.state.listeners = s.state.listeners ∧
    ∀ o ∈ (handleChannelRemove cfg s c id dbOk).2, o.isBroadcast = false

/-- The channel manager and the database go along. -/
def Removable (s : Site) (id : ℕ) (dbOk : Bool) : Prop :=
  dbOk = true ∧ id ≠ rootChannelID ∧ s.channels.hasChildren id = false

/-- Nobody is in the channel and nobody listens to it. -/
def Vacant (st : State) (id : ℕ) : Prop :=
  (∀ u ∈ st.server.users.bySession, u.channelID ≠ id) ∧ ∀ l ∈ st.listeners, l.2 ≠ id

/-! ### What the handler does before it removes the channel -/

section vacate
variable {st : State} {ch : Channel}

section
variable (cfg : Config)
include cfg

theorem removable_vacate (s : Site) (ch : Channel) (id : ℕ) (dbOk : Bool) :
    Removable { s with state := (vacate cfg s.state ch).1 } id dbOk ↔ Removable s id dbOk := by
  unfold Removable
  rw [channels_vacate]

theorem listeners_evictAll (parentID : ℕ) (st : State) (us : List User) :
    (evictAll cfg parentID st us).1.listeners = st.listeners := by
  induction us generalizing st with
  | nil => rfl
  | cons u rest ih =>
    rw [evictAll_cons, ih]
    exact (Moderation.listeners_updateUser _ _).trans (Moderation.listeners_updateUser _ _)

theorem Vacant.vacate (h : Vacant st ch.id) : ∃ volumes,
    vacate cfg st ch = ({ st with volumes := volumes }, []) := by
  have hnobody : st.server.users.bySession.filter (fun u => decide (u.channelID = ch.id)) = [] :=
    filter_eq_nil_iff.mpr fun u hu => by simpa using h.1 u hu
  have hnone : st.listeners.filter (fun l => decide (l.2 = ch.id)) = [] :=
    filter_eq_nil_iff.mpr fun l hl => by simpa using h.2 l hl
  have hall : st.listeners.filter (fun l => decide (l.2 ≠ ch.id)) = st.listeners :=
    filter_eq_self.mpr fun l hl => by simpa using h.2 l hl
  unfold ServerOps.vacate unlistenChannel
  rw [hnobody]
  dsimp only [evictAll]
  rw [hnone, hall]
  exact ⟨_, rfl⟩

theorem broadcast_of_evict (parentID : ℕ) {u : User}
    (hu : u ∈ st.server.users.bySession) :
    ∃ o ∈ (evict cfg parentID st u).2, o.isBroadcast = true := by
  have hthere : (st.server.users.snapshot u.sessionID).isSome = true := by
    unfold UserManager.snapshot
    rw [find?_isSome]
    exact ⟨u, hu, by simp⟩
  obtain ⟨v, hv⟩ := Option.isSome_iff_exists.mp hthere
  have hmoved : ((st.setChannel u.sessionID parentID).member u.sessionID).isSome = true := by
    rw [State.setChannel, Moderation.member_updateUser, if_pos rfl, member_of_snapshot hv]
    rfl
  obtain ⟨m, hm⟩ := Option.isSome_iff_exists.mp hmoved
  unfold evict
  dsimp only
  rw [hm]
  exact ⟨_, mem_singleton_self _, rfl⟩

theorem broadcast_of_not_vacant (h : ¬Vacant st ch.id) :
    ∃ o ∈ (vacate cfg st ch).2, o.isBroadcast = true := by
  unfold vacate unlistenChannel
  dsimp only
  rw [listeners_evictAll]
  -- the first user who is moved, or any listener
  cases hin : st.server.users.bySession.filter fun u => decide (u.channelID = ch.id) with
  | nil =>
    obtain ⟨l, hl, hid⟩ : ∃ l ∈ st.listeners, l.2 = ch.id := by
      by_contra hnone
      push Not at hnone
      refine h ⟨fun u hu hchannel => ?_, hnone⟩
      have hmem := mem_occupants.mpr ⟨hu, hchannel⟩
      rw [hin] at hmem
      cases hmem
    refine ⟨_, mem_append_right _ (mem_map.mpr ⟨l, ?_, rfl⟩), rfl⟩
    exact mem_filter.mpr ⟨hl, decide_eq_true hid⟩
  | cons u rest =>
    have hu : u ∈ st.server.users.bySession ∧ u.channelID = ch.id := by
      rw [← mem_occupants, hin]
      exact mem_cons_self
    obtain ⟨o, ho, hbroadcast⟩ := broadcast_of_evict cfg ch.parentID hu.1
    refine ⟨o, mem_append_left _ ?_, hbroadcast⟩
    rw [evictAll_cons]
    exact mem_append_left _ ho

end

end vacate

section remove
variable {s : Site} {id : ℕ} {dbOk : Bool}

theorem remove_of_not_removable (h : ¬Removable s id dbOk) : s.remove id dbOk = (s, false) := by
  unfold Site.remove Channels.remove
  split_ifs with hdb hroot hnone hchild
  · rfl
  · rfl
  · rfl
  · rfl
  · exact absurd ⟨by simpa using hdb, hroot, by simpa using hchild⟩ h

theorem gone_of_removable {ch : Channel} (hch : s.channels.getChannel id = some ch)
    (h : Removable s id dbOk) : (s.remove id dbOk).1.channels.getChannel id = none := by
  obtain ⟨hdb, hroot, hleaf⟩ := h
  unfold Site.remove Channels.remove
  rw [if_neg (by simp [hdb]), if_neg hroot, if_neg (by simp [hch]), if_neg (by simp [hleaf])]
  exact getChannel_filter_self s.channels id

end remove

/-- **Removal is all or nothing** exactly if the request is dropped or refused, the channel can be
removed, or nobody is in it or listens to it. -/
theorem removes_or_nothing_iff (cfg : Config) (s : Site) (c : SessionRef) (id : ℕ) (dbOk : Bool) :
    RemovesOrNothing cfg s c id dbOk ↔
      ((reached cfg s c id).isSome = true → Removable s id dbOk ∨ Vacant s.state id) := by
  unfold RemovesOrNothing
  rcases handleChannelRemove_cases cfg s c id dbOk with
    ⟨hnone, hsame, houts⟩ | ⟨ch, hreached, hch, hremove⟩
  · rw [hnone, hsame]
    refine iff_of_true (fun _ => ⟨fun _ => rfl, rfl, fun o ho => ?_⟩) fun h => Bool.noConfusion h
    rcases houts with houts | houts <;> rw [houts] at ho
    · cases ho
    · obtain rfl := mem_singleton.mp ho
      rfl
  · obtain rfl := id_of_getChannel hch
    have hch' : Channels.getChannel (Site.channels { s with state := (vacate cfg s.state ch).1 })
        ch.id = some ch := (channels_vacate cfg s ch).symm ▸ hch
    have hsame := removable_vacate cfg s ch ch.id dbOk
    rw [hremove, hreached, hch]
    constructor
    · intro h _
      by_contra hneither
      obtain ⟨hstuck, hoccupied⟩ := not_or.mp hneither
      have hkept := remove_of_not_removable (hsame.not.mpr hstuck)
      obtain ⟨o, ho, hbroadcast⟩ := broadcast_of_not_vacant cfg hoccupied
      rw [hkept] at h
      have hquiet := (h hch').2.2 o (mem_append_left _ ho)
      rw [hbroadcast] at hquiet
      cases hquiet
    · intro h hkept
      have hstuck : ¬Removable s ch.id dbOk := by
        intro hrem
        rw [gone_of_removable hch' (hsame.mpr hrem)] at hkept
        cases hkept
      obtain ⟨volumes, hv⟩ := ((h rfl).resolve_left hstuck).vacate cfg
      rw [remove_of_not_removable (hsame.not.mpr hstuck), hv]
      exact ⟨fun _ => rfl, rfl, fun o ho => by cases ho⟩

/-- The Lounge has a room below it, and somebody is in the Lounge. -/
def loungeWithRoom : List Op :=
  [.restCreate 1 0 "Lounge" "" 0 false 0, .restCreate 2 1 "Room" "" 0 false 0,
    .login (client 7 "alice") "local", enter,
    .login { client 9 "SuperUser" with isSuperUser := true } "local"]

/-- The Lounge is not removed and its user is in the root channel. -/
theorem removal_refused_after_move :
    ¬RemovesOrNothing config (run (step config) newSite loungeWithRoom) ⟨2, 2⟩ 1 true := by
  intro h
  have hmember := (h (by decide +kernel)).1 1
  revert hmember
  decide +kernel

end MumbleServer.ServerOps
