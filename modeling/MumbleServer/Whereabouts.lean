import MumbleServer.TreeKept

/-! # Everybody is somewhere

The channel of every connected user exists, and so does every channel that somebody listens to.
Most operations see to it themselves: a new user and a move need a channel that exists, and a
ChannelRemove moves the users out and ends the listening first.  Two do not: the deletion of a
channel by the REST interface, and the removal of empty temporary channels, which asks for users
but not for listeners. -/

namespace MumbleServer.ServerOps

open List Option UserManager Moderation
open Acl (Permission Subject subjectOf)

/-! ### Users are in channels -/

def Placed (cs : Channels) (m : UserManager) : Prop := ∀ u ∈ m.bySession, cs.has u.channelID = true

/-- Somebody listens only to channels. -/
def Heard (cs : Channels) (ls : List (ℕ × ℕ)) : Prop := ∀ l ∈ ls, cs.has l.2 = true

section placed
variable {cs cs' : Channels} {m : UserManager}

theorem Placed.mono (h : Placed cs m) (hcs : ∀ id, cs.has id = true → cs'.has id = true) :
    Placed cs' m := fun u hu => hcs _ (h u hu)

theorem Heard.mono {ls : List (ℕ × ℕ)} (h : Heard cs ls)
    (hcs : ∀ id, cs.has id = true → cs'.has id = true) : Heard cs' ls :=
  fun l hl => hcs _ (h l hl)

theorem Heard.filter {ls : List (ℕ × ℕ)} (h : Heard cs ls) (p : ℕ × ℕ → Bool) :
    Heard cs (ls.filter p) := fun l hl => h l (mem_filter.mp hl).1

theorem Placed.add (h : Placed cs m) {u : User} (hu : cs.has u.channelID = true) :
    Placed cs (m.add u).1 := by
  intro v hv
  rcases ha : m.add u with ⟨m', _ | stored⟩ <;> rw [ha] at hv
  · exact h v ((same_of_add ha).1 ▸ hv)
  · obtain ⟨pool, -, -, hstored, rfl⟩ := add_some ha
    rcases mem_cons.mp hv with rfl | hv
    · rw [hstored]
      exact hu
    · exact h v hv

theorem Placed.remove (h : Placed cs m) (ref : SessionRef) :
    Placed cs (m.removeIfGeneration ref).1 := by
  unfold UserManager.removeIfGeneration UserManager.remove
  split
  · exact h
  · split_ifs
    · exact h
    · exact fun v hv => h v (mem_filter.mp hv).1

theorem updated_channelID (u : User) (fn : User → User) :
    (updated u fn).channelID = (fn u).channelID := by
  unfold updated
  split_ifs <;> rfl

theorem Placed.updateUser (h : Placed cs m) (sid : ℕ) {fn : User → User}
    (hfn : ∀ u ∈ m.bySession, cs.has (fn u).channelID = true) :
    Placed cs (m.updateUser sid fn).1 := by
  unfold UserManager.updateUser
  cases hs : m.snapshot sid with
  | none => exact h
  | some u =>
    intro v hv
    obtain ⟨w, hw, rfl⟩ := mem_map.mp hv
    split_ifs
    · rw [updated_channelID]
      exact hfn u (mem_of_snapshot hs).1
    · exact h w hw

end placed

/-! ### UserState -/

variable {fn : Moderation.Member → Moderation.Member}

section userState
variable {st : State} {cs : Channels}

section
variable (h : Placed cs st.server.users) (sid : ℕ)
include h sid

theorem placed_updateState (hfn : ∀ m : Member, cs.has m.user.channelID = true →
      cs.has (fn m).user.channelID = true) : Placed cs (st.updateUser sid fn).server.users := by
  unfold State.updateUser
  split
  · exact h
  · exact h.updateUser sid fun u hu => hfn ⟨u, st.profiles sid⟩ (h u hu)

theorem placed_setChannel {channelID : ℕ}
    (hc : cs.has channelID = true) : Placed cs (st.setChannel sid channelID).server.users :=
  placed_updateState h sid fun _ _ => hc

theorem placed_updateProfile (f : Profile → Profile) :
    Placed cs (st.updateUser sid fun m => { m with profile := f m.profile }).server.users :=
  placed_updateState h sid fun _ hm => hm

end

variable (pol : Policy) (target : User)

theorem heard_listenAll (st : State) (cids : List ℕ)
    (h : Heard st.server.world.channels st.listeners) :
    Heard st.server.world.channels (listenAll pol target st cids).1.listeners := by
  induction cids generalizing st with
  | nil => exact h
  | cons cid rest ih =>
    have hone : Heard st.server.world.channels (listen pol target st cid).1.listeners := by
      unfold Moderation.listen
      split
      · exact h
      · rename_i ch hch
        split_ifs
        · exact h
        · exact h
        · exact h
        · exact h
        · intro l hl
          rcases mem_cons.mp hl with rfl | hl
          · simp [Channels.has, hch]
          · exact h l hl
    have hserver := (listen_spec pol target st cid).1.server
    have hrest := ih (listen pol target st cid).1 (by rw [hserver]; exact hone)
    rwa [hserver] at hrest

theorem heard_unlistenAll (st : State) (cids : List ℕ) (h : Heard cs st.listeners) :
    Heard cs (unlistenAll target st cids).1.listeners := by
  induction cids generalizing st with
  | nil => exact h
  | cons cid rest ih =>
    unfold unlistenAll
    split_ifs
    · exact ih _ (h.filter _)
    · exact ih st h

theorem heard_adjustVolumes (st : State) (vas : List VolumeAdjustment)
    (h : Heard cs st.listeners) :
    Heard cs (adjustVolumes target st vas).1.listeners := by
  induction vas generalizing st with
  | nil => exact h
  | cons va rest ih =>
    unfold adjustVolumes
    split_ifs
    · exact ih _ h
    · exact ih st h

theorem heard_applyListening (st : State) (actor : ℕ) (us : UserState)
    (h : Heard st.server.world.channels st.listeners) :
    Heard st.server.world.channels (applyListening pol target st actor us).1.listeners := by
  have hadd := heard_listenAll pol target st us.listeningChannelAdd h
  have hall := heard_adjustVolumes target _ us.listeningVolumeAdjustment
    (heard_unlistenAll target _ us.listeningChannelRemove hadd)
  unfold applyListening
  dsimp only
  split_ifs <;> exact hall

section
variable {st : State} {sender : User} {target : Moderation.Member} {admin : Bool}

theorem has_of_checkMove
    {us : UserState} (h : (checkMove pol sender target admin us).on st = .ok ())
    {cid : ℕ} (hc : us.channelID = some cid) : st.server.world.channels.has cid = true := by
  rw [checkMove, hc] at h
  simp only [on_bind_eq_ok, refuseIf_eq_ok, on_look_eq_ok] at h
  obtain ⟨channel, rfl, _, hsome, -⟩ := h
  simpa [Channels.has, ← isSome_iff_ne_none] using hsome

theorem has_of_checkAll
    {us us' : UserState} (h : (checkAll pol sender target admin us).on st = .ok us')
    {cid : ℕ} (hc : us'.channelID = some cid) : st.server.world.channels.has cid = true := by
  simp only [checkAll, on_bind_eq_ok, on_pure_eq_ok] at h
  obtain ⟨_, -, _, -, _, -, _, -, _, -, _, -, _, -, _, hmove, rfl⟩ := h
  exact has_of_checkMove pol hmove hc

end

/-- What the handler of a UserState comes down to: what the target listens to may change, and then,
if the message has passed the checks, the updates follow. -/
theorem handleUserState_cases (pol : Policy) (st : State) (rateAllows : Bool) (c : SessionRef)
    (us : UserState) :
    ((handleUserState pol st rateAllows c us).applied = false ∧
      ListenOnly st (handleUserState pol st rateAllows c us).state) ∨
    ∃ st₁ actor target us', ListenOnly st st₁ ∧
      st.member (us.session.getD c.sessionID) = some target ∧
      us'.suppress = us.suppress ∧ us'.channelID = us.channelID ∧
      (∀ cid, us'.channelID = some cid → st.server.world.channels.has cid = true) ∧
      (handleUserState pol st rateAllows c us).state =
        (applyChecked pol st₁ actor target.user us').1 := by
  unfold handleUserState
  split_ifs
  · exact .inl ⟨rfl, .refl st⟩
  · split
    · rename_i sender target _ ht
      unfold handleTarget
      split
      · exact .inl ⟨rfl, .refl st⟩
      · have hl : ListenOnly st (if us.hasListening then
            applyListening pol target.user st sender.sessionID us
            else (st, [])).1 := by
          split_ifs
          · exact (applyListening_spec pol target.user st sender.sessionID us).1
          · exact .refl st
        dsimp only
        unfold finishUserState
        split
        · exact .inl ⟨rfl, hl⟩
        · rename_i us' hok
          have hus : us'.suppress = us.suppress ∧ us'.channelID = us.channelID := by
            simp only [checkAll, on_bind_eq_ok, on_pure_eq_ok]
              at hok
            obtain ⟨_, -, _, -, _, -, _, -, _, -, _, -, _, -, _, -, rfl⟩ := hok
            unfold UserState.dropRecording
            split_ifs <;> exact ⟨rfl, rfl⟩
          refine .inr ⟨_, sender.sessionID, target, us', hl, ht, hus.1, hus.2, ?_, rfl⟩
          intro cid hcid
          have hhas := has_of_checkAll pol hok hcid
          rwa [hl.server] at hhas
    · exact .inl ⟨rfl, .refl st⟩

/-- What the handler of a UserState leaves as it is, and what it keeps. -/
structure Settles (st st' : State) : Prop where
  world : st'.server.world = st.server.world
  placed : Placed st.server.world.channels st.server.users →
    Placed st.server.world.channels st'.server.users
  heard : Heard st.server.world.channels st.listeners →
    Heard st.server.world.channels st'.listeners

theorem Settles.refl (st : State) : Settles st st := ⟨rfl, id, id⟩

theorem Settles.trans {st st' st'' : State} (h : Settles st st') (h' : Settles st' st'') :
    Settles st st'' where
  world := h'.world.trans h.world
  placed := fun hp => h.world ▸ h'.placed (h.world.symm ▸ h.placed hp)
  heard := fun hh => h.world ▸ h'.heard (h.world.symm ▸ h.heard hh)

theorem settles_applyListening (st : State) (actor : ℕ) (us : UserState) :
    Settles st (applyListening pol target st actor us).1 := by
  have hserver := (applyListening_spec pol target st actor us).1.server
  exact ⟨by rw [hserver], by rw [hserver]; exact id, heard_applyListening pol target st actor us⟩

theorem settles_updateRecord (st : State) (sid : ℕ) (us : UserState) (maySpeak : Option Bool) :
    Settles st (updateRecord st sid us maySpeak) := by
  unfold updateRecord
  exact ⟨world_updateUser _ _,
    fun h => placed_updateProfile h sid fun p => (applyUserState us maySpeak p).1,
    by rw [listeners_updateUser]; exact id⟩

theorem settles_setChannel (st : State) (sid : ℕ) {cid : ℕ}
    (hc : st.server.world.channels.has cid = true) : Settles st (st.setChannel sid cid) :=
  ⟨world_updateUser _ _, fun h => placed_setChannel h sid hc,
    by rw [State.setChannel, listeners_updateUser]; exact id⟩

theorem settles_applyChecked (st : State) (actor : ℕ) (us : UserState)
    (hc : ∀ cid, us.channelID = some cid → st.server.world.channels.has cid = true) :
    Settles st (applyChecked pol st actor target us).1 := by
  unfold applyChecked
  cases hcid : us.channelID with
  | none => exact settles_updateRecord st target.sessionID us none
  | some cid =>
    exact (settles_setChannel st target.sessionID (hc cid hcid)).trans
      (settles_updateRecord _ target.sessionID us _)

theorem settles_finishUserState (st : State) (out : List Moderation.Output) (sender : User)
    (target : Moderation.Member) (us : UserState) :
    Settles st (Moderation.finishUserState pol st out sender target us).state := by
  unfold Moderation.finishUserState
  split
  · exact .refl st
  · rename_i us' hok
    exact settles_applyChecked pol target.user st sender.sessionID us'
      fun cid hcid => has_of_checkAll pol hok hcid

theorem settles_handleUserState (st : State) (rateAllows : Bool) (c : SessionRef) (us : UserState) :
    Settles st (handleUserState pol st rateAllows c us).state := by
  unfold handleUserState
  split_ifs
  · exact .refl st
  · split
    · rename_i sender target _ _
      unfold handleTarget
      split
      · exact .refl st
      · have hlisten : Settles st (if us.hasListening then
            applyListening pol target.user st sender.sessionID us else (st, [])).1 := by
          split_ifs
          · exact settles_applyListening pol target.user st sender.sessionID us
          · exact .refl st
        exact hlisten.trans (settles_finishUserState pol _ _ sender target us.strip)
    · exact .refl st

theorem server_detach (st : State) (ref : SessionRef) : (detach st ref).server = st.server := by
  unfold detach
  split <;> rfl

theorem settles_detach (st : State) (ref : SessionRef) : Settles st (detach st ref) := by
  unfold detach
  split
  · exact .refl st
  · exact ⟨rfl, id, fun h => h.filter _⟩

end userState

/-- What no update of a record touches, and nothing that is listened to. -/
structure Stable (P : State → Prop) : Prop where
  update : ∀ st sid fn, P st → P (st.updateUser sid fn)
  listen : ∀ st st', Moderation.ListenOnly st st' → P st → P st'

section stable
variable {P : State → Prop} (h : Stable P) {st : State} (hst : P st)
include h hst

theorem Stable.updateRecord (sid : ℕ) (us : UserState) (maySpeak : Option Bool) :
    P (updateRecord st sid us maySpeak) := h.update st sid _ hst

theorem Stable.handleUserState (pol : Policy) (rateAllows : Bool) (c : SessionRef)
    (us : UserState) : P (handleUserState pol st rateAllows c us).state := by
  rcases handleUserState_cases pol st rateAllows c us with
    ⟨-, hl⟩ | ⟨st₁, actor, target, us', hl, -, -, -, -, hstate⟩
  · exact h.listen _ _ hl hst
  · have hlisten := h.listen _ _ hl hst
    rw [hstate]
    unfold applyChecked
    cases us'.channelID with
    | none => exact h.updateRecord hlisten target.user.sessionID us' none
    | some cid =>
      have hmove : P (st₁.setChannel target.user.sessionID cid) := h.update _ _ _ hlisten
      exact h.updateRecord hmove target.user.sessionID us' _

theorem Stable.evictAll (cfg : Config) (parentID : ℕ) (us : List User) :
    P (evictAll cfg parentID st us).1 := by
  induction us generalizing st with
  | nil => exact hst
  | cons u rest ih =>
    rw [evictAll_cons]
    exact ih (h.update _ _ _ (h.update _ _ _ hst))

theorem Stable.refreshSuppressStates (cfg : Config) (us : List User) :
    P (refreshSuppressStates cfg st us).1 := by
  induction us generalizing st with
  | nil => exact hst
  | cons u rest ih => exact ih (h.update _ _ _ hst)

end stable

theorem stable_world (w : Acl.World) : Stable fun st => st.server.world = w where
  update _ _ _ h := (world_updateUser _ _).trans h
  listen _ _ hl h := by rw [hl.server, h]

theorem channels_vacate (cfg : Config) (s : Site) (ch : Channel) :
    Site.channels { s with state := (vacate cfg s.state ch).1 } = s.channels :=
  congrArg Acl.World.channels ((stable_world _).evictAll rfl cfg _ _)

/-! ### The server -/

/-- Everybody is somewhere. -/
structure Housed (s : Site) : Prop where
  placed : Placed s.channels s.users
  heard : Heard s.channels s.state.listeners

/-- The invariant of orderly runs. -/
structure Sound (s : Site) : Prop extends Housed s, Planted s

/-- Somebody is in every temporary channel that somebody listens to. -/
def Attended (st : State) : Prop :=
  ∀ l ∈ st.listeners, ∀ ch ∈ st.server.world.channels.getChannel l.2,
    ch.isTemporary = true → 0 < countInChannel st.server l.2

namespace Sound
variable {s s' : Site} (h : Sound s)
include h

theorem settle {st : State} (hst : Settles s.state st) : Sound { s with state := st } := by
  have hcs : Site.channels { s with state := st } = s.channels :=
    congrArg Acl.World.channels hst.world
  exact
    { toHoused := ⟨by rw [hcs]; exact hst.placed h.placed, by rw [hcs]; exact hst.heard h.heard⟩
      toPlanted := h.toPlanted.congr hcs rfl }

theorem edit {P : Channels → ℕ → List ℕ → Prop} {outs : List Output} (he : Edit P s s' outs) :
    Sound s' := by
  have hrename : ∀ {s : Site} {f : Channel → Channel}, (∀ d, (f d).id = d.id) → Housed s →
      Housed (s.setChannels (s.channels.map f)) := by
    intro s f hf hs
    have hhas : ∀ id, s.channels.has id = true → Channels.has (s.channels.map f) id = true :=
      fun id hid => (has_map hf id).trans hid
    exact ⟨hs.placed.mono hhas, hs.heard.mono hhas⟩
  induction he with
  | quiet => exact h
  | announce => exact h
  | @create s s' ch newID parentID name description position temporary maxUsers hc =>
    have hhas : ∀ id, s.channels.has id = true → s'.channels.has id = true := by
      intro id hid
      rw [h.toPlanted.channels_create hc, has_iff]
      exact mem_cons_of_mem _ (has_iff.mp hid)
    refine { toHoused := ?_, toPlanted := h.toPlanted.create hc }
    have hst : s'.users = s.users ∧ s'.state.listeners = s.state.listeners := by
      obtain ⟨-, -, -, -, -, rfl⟩ := create_cases hc
      exact ⟨rfl, rfl⟩
    exact ⟨hst.1 ▸ h.placed.mono hhas, hst.2 ▸ h.heard.mono hhas⟩
  | update s id opts =>
    refine { toHoused := hrename (fun d => ?_) h.toHoused, toPlanted := h.toPlanted.update id _ }
    split <;> rfl
  | links id desired dbOk _ hu =>
    refine { toHoused := ?_, toPlanted := h.toPlanted.updateLinks hu }
    rcases updateLinks_cases hu with ⟨rfl, -⟩ | ⟨node, -, -, rfl, -⟩
    · exact h.toHoused
    · exact hrename (relink_id _ _) h.toHoused
  | trans _ _ ih ih' => exact ih' (ih h)

theorem remove (id : ℕ) (dbOk : Bool)
    (husers : id ≠ rootChannelID → ∀ u ∈ s.users.bySession, u.channelID ≠ id)
    (hlisten : ∀ l ∈ s.state.listeners, l.2 ≠ id) : Sound (s.remove id dbOk).1 := by
  refine { toHoused := ?_, toPlanted := h.toPlanted.remove id dbOk }
  rcases remove_cases s id dbOk with hr | ⟨hroot, -, hr⟩ <;> rw [hr]
  · exact h.toHoused
  · have hkeep : ∀ d, d ≠ id → s.channels.has d = true →
        Channels.has (s.channels.filter fun c => decide (c.id ≠ id)) d = true := by
      intro d hd hh
      unfold Channels.has at hh ⊢
      rwa [getChannel_filter_ne hd]
    exact ⟨fun u hu => hkeep _ (husers hroot u hu) (h.placed u hu),
      fun l hl => hkeep _ (hlisten l hl) (h.heard l hl)⟩

theorem clean (hlisten : Attended s.state) : Sound (clean s) := by
  obtain ⟨hplanted, hkeep⟩ := h.toPlanted.clean
  have hhas : ∀ id, s.channels.has id = true → (∀ n ∈ s.channels.getChannel id,
      n.isTemporary = true → 0 < countInChannel s.state.server id) →
      (ServerOps.clean s).channels.has id = true := by
    intro id hid hwhy
    obtain ⟨n, hn⟩ := isSome_iff_exists.mp hid
    have hkept : (ServerOps.clean s).channels.getChannel id = some n := by
      refine hkeep id n hn ?_
      cases htemp : n.isTemporary with
      | false => exact .inl rfl
      | true => exact .inr (hwhy n hn htemp)
    simp [Channels.has, hkept]
  refine { toHoused := ⟨fun u hu => ?_, fun l hl => ?_⟩, toPlanted := hplanted }
  · refine hhas _ (h.placed u hu) fun n _ _ => ?_
    exact countP_pos_iff.mpr ⟨u, hu, by simp⟩
  · exact hhas _ (h.heard l hl) (hlisten l hl)

theorem unregisterConn (ref : SessionRef) (hlisten : Attended (detach s.state ref)) :
    Sound (unregisterConn s ref) := by
  unfold ServerOps.unregisterConn
  split_ifs
  · exact h
  · exact (h.settle (settles_detach s.state ref)).clean hlisten

theorem removeUser (ref : SessionRef) : Sound (removeUser s ref) :=
  ⟨⟨h.placed.remove ref, h.heard⟩, h.tree, h.top, h.known⟩

end Sound

/-! ### ChannelRemove -/

section channelRemove
variable (cfg : Config)

section
variable (st : State) {parentID : ℕ} (hp : st.server.world.channels.has parentID = true)
include st hp

theorem settles_evict (u : User) : Settles st (evict cfg parentID st u).1 :=
  (settles_setChannel st u.sessionID hp).trans
    ⟨world_updateUser _ _, fun h => placed_updateState h _ fun _ hm => hm,
      by rw [evict, listeners_updateUser]; exact id⟩

theorem settles_evictAll (us : List User) : Settles st (evictAll cfg parentID st us).1 := by
  induction us generalizing st with
  | nil => exact .refl st
  | cons u rest ih =>
    have hone := settles_evict cfg st hp u
    exact hone.trans (ih _ (by rw [hone.world]; exact hp))

end

theorem mem_updateState {st : State} {sid : ℕ} {v : User}
    (hv : v ∈ (st.updateUser sid fn).server.users.bySession) :
    (v ∈ st.server.users.bySession ∧ v.sessionID ≠ sid) ∨
      ∃ m, st.member sid = some m ∧ v.channelID = (fn m).user.channelID := by
  unfold State.updateUser at hv
  cases hs : st.server.users.snapshot sid with
  | none =>
    rw [hs] at hv
    refine .inl ⟨hv, fun heq => ?_⟩
    have hnone := find?_eq_none.mp hs v hv
    simp [heq] at hnone
  | some u =>
    simp only [hs, updateUser] at hv
    obtain ⟨w, hw, rfl⟩ := mem_map.mp hv
    rw [updated_sessionID, (mem_of_snapshot hs).2]
    split_ifs with hsid
    · refine .inr ⟨⟨u, st.profiles sid⟩, by rw [State.member, hs, map_some], ?_⟩
      exact updated_channelID _ _
    · exact .inl ⟨hw, hsid⟩

theorem mem_evict {st : State} {parentID : ℕ} {u v : User}
    (hv : v ∈ (evict cfg parentID st u).1.server.users.bySession) :
    (v ∈ st.server.users.bySession ∧ v.sessionID ≠ u.sessionID) ∨ v.channelID = parentID := by
  rcases mem_updateState hv with ⟨hv, hne⟩ | ⟨m, hm, hc⟩
  · rcases mem_updateState hv with ⟨hv, -⟩ | ⟨_, -, hc⟩
    · exact .inl ⟨hv, hne⟩
    · exact .inr hc
  · rw [State.setChannel, member_updateUser, if_pos rfl] at hm
    obtain ⟨m', -, rfl⟩ := map_eq_some_iff.mp hm
    rw [entered_user, updated_channelID] at hc
    exact .inr hc

variable (st : State)

theorem empty_evictAll {parentID id : ℕ} (hne : parentID ≠ id) (us : List User)
    (hall : ∀ u ∈ st.server.users.bySession, u.channelID = id →
      u.sessionID ∈ us.map User.sessionID) :
    ∀ u ∈ (evictAll cfg parentID st us).1.server.users.bySession, u.channelID ≠ id := by
  induction us generalizing st with
  | nil => exact fun u hu hc => not_mem_nil (hall u hu hc)
  | cons u rest ih =>
    refine ih _ fun v hv hc => ?_
    rcases mem_evict cfg hv with ⟨hv, hsid⟩ | hp
    · exact (mem_cons.mp (hall v hv hc)).resolve_left hsid
    · exact absurd (hp.symm.trans hc) hne

theorem settles_vacate (ch : Channel) (hp : st.server.world.channels.has ch.parentID = true) :
    Settles st (vacate cfg st ch).1 :=
  (settles_evictAll cfg st hp _).trans ⟨rfl, id, fun h => h.filter _⟩

theorem empty_vacate {ch : Channel} (hne : ch.parentID ≠ ch.id) :
    ∀ u ∈ (vacate cfg st ch).1.server.users.bySession, u.channelID ≠ ch.id := by
  refine empty_evictAll cfg st hne _ fun u hu hc => ?_
  exact mem_map_of_mem (mem_filter.mpr ⟨hu, decide_eq_true hc⟩)

theorem unheard_vacate (ch : Channel) : ∀ l ∈ (vacate cfg st ch).1.listeners, l.2 ≠ ch.id :=
  fun _ hl => of_decide_eq_true (mem_filter.mp hl).2

theorem Sound.vacated {s : Site} (h : Sound s) {id : ℕ} {ch : Channel}
    (hch : s.channels.getChannel id = some ch) (dbOk : Bool) :
    Sound (Site.remove { s with state := (vacate cfg s.state ch).1 } id dbOk).1 := by
  have hparent := h.toPlanted.hasParent hch
  obtain ⟨t, ht⟩ := h.tree
  obtain rfl := id_of_getChannel hch
  rw [← ht] at hch
  refine (h.settle (settles_vacate cfg s.state ch hparent)).remove ch.id dbOk (fun hroot => ?_)
    (unheard_vacate cfg s.state ch)
  exact empty_vacate cfg s.state (t.parent_ne hch hroot)

theorem Sound.channelRemove {s : Site} (h : Sound s) (c : SessionRef) (id : ℕ) (dbOk : Bool) :
    Sound (handleChannelRemove cfg s c id dbOk).1 := by
  exact handleChannelRemove_rule cfg s c id h fun ch hch => h.vacated cfg hch dbOk

end channelRemove

/-! ### Logins and access control lists -/

section sessions
variable (cfg : Config) {s : Site}

theorem has_joinChannelFor (h : Planted s) (userID : UInt32) :
    s.channels.has (joinChannelFor cfg s userID) = true := by
  unfold joinChannelFor
  dsimp only
  split_ifs with hdefault
  · exact h.hasRoot
  · exact h.hasRoot
  · split
    · simpa using hdefault
    · exact h.hasRoot

theorem Sound.users (h : Sound s) {m : UserManager} (hm : Placed s.channels m)
    (r : Registry) (profiles : ℕ → Profile) :
    Sound { s with state := { s.state with
      server := { s.state.server with users := m }, registry := r, profiles := profiles } } :=
  ⟨⟨hm, h.heard⟩, h.tree, h.top, h.known⟩

theorem Sound.login (h : Sound s) (u : User) (edge : String) : Sound (login cfg s u edge).1 := by
  have hadd : Placed s.channels
      (s.users.add { u with channelID := joinChannelFor cfg s u.userID }).1 :=
    h.placed.add (has_joinChannelFor cfg h.toPlanted u.userID)
  unfold ServerOps.login
  revert hadd
  rcases s.users.add { u with channelID := joinChannelFor cfg s u.userID } with ⟨users, _ | stored⟩
  · exact fun hadd => h.users hadd _ _
  · intro hadd
    dsimp only at hadd ⊢
    split
    · exact h.users (hadd.remove stored.ref) _ _
    · split
      · exact h.users (hadd.remove stored.ref) _ _
      · exact h.users hadd _ _

theorem settles_refreshSuppressStates (st : State) (us : List User) :
    Settles st (refreshSuppressStates cfg st us).1 := by
  induction us generalizing st with
  | nil => exact .refl st
  | cons u rest ih =>
    refine Settles.trans ⟨world_updateUser _ _, fun h => ?_, ?_⟩ (ih _)
    · exact placed_updateProfile h _ fun p => { p with suppress := _ }
    · rw [listeners_updateUser]
      exact id

theorem Sound.editACL (h : Sound s) (db : Acl.Database) : Sound (editACL cfg s db).1 := by
  have hdb : Sound { s with state := { s.state with
      server := { s.state.server with world := { s.state.server.world with db := db } } } } :=
    ⟨⟨h.placed, h.heard⟩, h.tree, h.top, h.known⟩
  exact hdb.settle (settles_refreshSuppressStates cfg _ _)

end sessions

/-! ### Runs -/

/-- A channel is deleted by the REST interface when it is empty and nobody listens to it, and when
temporary channels are cleaned up, nobody listens to an empty one. -/
def Orderly (s : Site) : Op → Prop
  | .restDelete id _ =>
    (∀ u ∈ s.users.bySession, u.channelID ≠ id) ∧ ∀ l ∈ s.state.listeners, l.2 ≠ id
  | .disconnect ref => Attended (detach s.state ref)
  | .kick ref => ∀ s' ∈ kicked s ref, Attended (detach s'.state ref)
  | _ => True

section runs
variable (cfg : Config) {s : Site}

theorem Sound.kick (h : Sound s) (ref : SessionRef)
    (hlisten : ∀ s' ∈ kicked s ref, Attended (detach s'.state ref)) :
    Sound (kick s ref) := by
  refine kick_rule h fun s' hk => ?_
  have hs' : Sound s' := by
    obtain ⟨u, r, e, -, -, rfl⟩ := kicked_cases hk
    exact (h.users h.placed r _).removeUser ref
  exact hs'.unregisterConn ref (hlisten s' hk)

theorem sound_step (s : Site) (op : Op) (h : Sound s) (hop : Orderly s op) :
    Sound (step cfg s op) := by
  cases op with
  | login u edge => exact h.login cfg u edge
  | userState rateAllows c us =>
    exact h.settle (settles_handleUserState cfg.pol s.state rateAllows c us)
  | channelState | restCreate | restUpdate => exact h.edit (step_edit cfg s rfl)
  | channelRemove c id dbOk => exact h.channelRemove cfg c id dbOk
  | restDelete id dbOk => exact h.remove id dbOk (fun _ => hop.1) hop.2
  | disconnect ref => exact (h.unregisterConn ref hop).removeUser ref
  | kick ref => exact h.kick ref hop
  | editACL db => exact h.editACL cfg db

/-- **Everybody is somewhere**: from a server with a channel tree and nobody on it, every run of
orderly operations leaves every user in a channel that exists, and every channel that somebody
listens to exists. -/
theorem everybody_is_somewhere (hs : Planted s) (husers : s.users.bySession = [])
    (hlisteners : s.state.listeners = []) (ops : List Op) (h : Along (step cfg) Orderly s ops) :
    Housed (run (step cfg) s ops) := by
  have hstart : Sound s :=
    { toHoused := ⟨by simp [Placed, husers], by simp [Heard, hlisteners]⟩, toPlanted := hs }
  exact (run_inv (sound_step cfg) hstart h).toHoused

end runs

/-! ### A run -/

instance (st : State) : Decidable (Attended st) :=
  inferInstanceAs (Decidable (∀ l ∈ st.listeners, ∀ ch ∈ st.server.world.channels.getChannel l.2,
    ch.isTemporary = true → 0 < countInChannel st.server l.2))

instance (s : Site) : ∀ op : Op, Decidable (Orderly s op)
  | .restDelete id _ => inferInstanceAs (Decidable
      ((∀ u ∈ s.users.bySession, u.channelID ≠ id) ∧ ∀ l ∈ s.state.listeners, l.2 ≠ id))
  | .disconnect ref => inferInstanceAs (Decidable (Attended (detach s.state ref)))
  | .kick ref => inferInstanceAs (Decidable (∀ s' ∈ kicked s ref, Attended (detach s'.state ref)))
  | .login .. | .userState .. | .channelState .. | .channelRemove .. | .restCreate ..
  | .restUpdate .. | .editACL .. => isTrue trivial

def newSite : Site where
  state :=
    { server := ⟨⟨1, [⟨0, 0, "Root", "", 0, 0, false, [], true⟩], ⟨[], [], []⟩, none, []⟩,
        UserManager.new 10⟩
      profiles := fun _ => {}
      registry := ⟨[("local", 1)], []⟩
      listeners := []
      volumes := [] }
  rows := [0]

theorem planted_newSite : Planted newSite where
  tree := ⟨ChannelTree.rootOnly ⟨0, 0, "Root", "", 0, 0, false, [], true⟩ rfl, rfl⟩
  top := by decide
  known := by decide

def config : Config := ⟨⟨id, 0, 0, true, 0, 0⟩, 0⟩

def client (id : UInt32) (name : String) : User :=
  ⟨⟨id, 0, false, "", false, false, 0, 0, [], []⟩, 0, 0, 0, name⟩

/-- Two users log in, and a channel is made. -/
def opening (temporary : Bool) : List Op :=
  [.login (client 7 "alice") "local", .login (client 8 "bob") "local",
    .restCreate 1 0 "Lounge" "" 0 temporary 0]

def enter : Op := .userState true ⟨1, 1⟩ { channelID := some 1 }

def listen : Op := .userState true ⟨1, 1⟩ { listeningChannelAdd := [1] }

theorem everybody_is_somewhere_lounge :
    ((run (step config) newSite (opening true ++ [enter, .disconnect ⟨2, 2⟩])).users.bySession.map
      fun u => (u.sessionID, u.channelID)) = [(1, 1)] ∧
    Housed (run (step config) newSite (opening true ++ [enter, .disconnect ⟨2, 2⟩])) :=
  ⟨by decide +kernel, everybody_is_somewhere config planted_newSite rfl rfl _ (by decide +kernel)⟩

/-- A channel is deleted by the REST interface under a user, and a temporary channel that a user
listens to is cleaned up when another session ends. -/
theorem deleted_under_user :
    ¬Housed (run (step config) newSite (opening false ++ [enter, .restDelete 1 true])) ∧
    ¬Housed (run (step config) newSite (opening true ++ [listen, .disconnect ⟨2, 2⟩])) := by
  refine ⟨fun h => ?_, fun h => ?_⟩
  · exact absurd h.placed (by unfold Placed; decide +kernel)
  · exact absurd h.heard (by unfold Heard; decide +kernel)

end MumbleServer.ServerOps
