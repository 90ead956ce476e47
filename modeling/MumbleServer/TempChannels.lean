import MumbleServer.Departures

/-! # Temporary channels over the life of a server

In every run, and after every event by which a user leaves a channel, the temporary channels
without children are inhabited exactly if the event is tidy (`temps_inhabited_iff`).  What this
needs of a server holds from the start and is kept by every event (`Grounded`): the channels are a
tree, the records fit the bindings, and every session has been given a generation.  So the tree is
read rightly in every run. -/

namespace MumbleServer.ServerOps

open UserManager
open Option
open Moderation (State Member UserState)
variable {s : Site}

/-! ### Generations -/

def Issued (st : State) : Prop := ∀ sid m, st.member sid = some m → m.user.sessionGeneration ≠ 0

section issued
variable {st st' : State} (h : Issued st)
include h

theorem Issued.of_members (hsub : ∀ sid m, st'.member sid = some m →
    ∃ m₀, st.member sid = some m₀ ∧ m₀.user = m.user) : Issued st' := by
  intro sid m hm
  obtain ⟨m₀, hm₀, huser⟩ := hsub sid m hm
  exact huser ▸ h sid m₀ hm₀

theorem Issued.updateUser (sid : ℕ) (fn : Member → Member) : Issued (st.updateUser sid fn) := by
  intro other m hm
  rw [Moderation.member_updateUser] at hm
  split_ifs at hm
  · obtain ⟨m₀, hm₀, rfl⟩ := map_eq_some_iff.mp hm
    rw [updated_generation]
    exact h sid m₀ hm₀
  · exact h other m hm

end issued

theorem stable_issued : Stable Issued where
  update _ sid fn h := h.updateUser sid fn
  listen _ _ hl h := h.of_members fun sid m hm => ⟨m, hl.member sid ▸ hm, rfl⟩

theorem Issued.stays {s s' : Site} (h : Issued s.state) (hstays : Stays s s') : Issued s'.state :=
  h.of_members hstays

theorem Issued.login (h : Issued s.state) (cfg : Config) (hv : s.users.Valid) (u : User)
    (edge : String) : Issued (login cfg s u edge).1.state := by
  obtain ⟨-, -, -, ⟨-, hback⟩ | ⟨stored, hadd, -, -, -, hmember⟩⟩ := login_cases cfg hv u edge
  · exact h.stays (stays_of_members hback)
  · intro sid m hm
    rw [hmember] at hm
    split_ifs at hm
    · obtain rfl := some.inj hm
      have hgen := (generation_of_add (Prod.ext rfl hadd)).1
      exact hgen ▸ Nat.succ_ne_zero _
    · exact h sid m hm

theorem issued_step (cfg : Config) (hv : s.users.Valid) (h : Issued s.state) (op : Op) :
    Issued (step cfg s op).state := by
  cases op with
  | login u edge => exact h.login cfg hv u edge
  | userState rateAllows c us => exact stable_issued.handleUserState h cfg.pol rateAllows c us
  | channelRemove c id dbOk =>
    show Issued (handleChannelRemove cfg s c id dbOk).1.state
    refine handleChannelRemove_rule (P := fun s => Issued s.state) cfg s c id h fun ch _ => ?_
    exact (stable_issued.evictAll h cfg ch.parentID _).of_members fun sid m hm =>
      ⟨m, (member_remove _ id dbOk sid).symm.trans hm, rfl⟩
  | _ => exact h.stays (stays_step cfg hv rfl)

/-! ### Runs -/

/-- The channels are a tree, the records fit the bindings and every session has a generation. -/
structure Grounded (s : Site) : Prop extends Planted s where
  fit : Fit s.users s.state.registry
  issued : Issued s.state

namespace Grounded
variable {s : Site} (h : Grounded s)
include h

theorem valid : s.users.Valid := h.fit.users

theorem ref_valid {u : User} (hu : u ∈ s.users.bySession) : u.ref.valid = true := by
  have hsnap := snapshot_of_mem h.valid hu
  have hgen := h.issued _ _ (member_of_snapshot hsnap)
  exact decide_eq_true ⟨sessionID_ne_zero h.valid hsnap, hgen⟩

theorem removeUser (ref : SessionRef) : Grounded (removeUser s ref) :=
  ⟨h.toPlanted.congr rfl rfl, (Onward.removeUser h.fit ref).fit,
    h.issued.stays (stays_removeUser s ref)⟩

theorem beginClosing (ref : SessionRef) : Grounded (beginClosing s ref) := by
  unfold ServerOps.beginClosing
  split
  · rename_i r e hclose
    exact ⟨h.toPlanted.congr rfl rfl, (Onward.beginClose h.fit hclose).fit, h.issued⟩
  · exact h

variable (deletes : ℕ → Bool)

theorem cleanOn : Grounded (cleanOn deletes s) := by
  obtain ⟨t, ht⟩ := h.tree
  obtain ⟨t', ht', -⟩ := cleaned_tree t fun id =>
    decide (0 < Moderation.countInChannel s.state.server id) || !deletes id
  have hsub : t'.channels.Sublist s.channels := by
    rw [ht', ht]
    exact cleanLoop_sublist _ _ _
  have hplanted := h.toPlanted.prune hsub
  rw [ht', ht] at hplanted
  exact ⟨hplanted, h.fit, h.issued⟩

theorem unregisterConnOn (ref : SessionRef) : Grounded (unregisterConnOn deletes s ref) := by
  unfold ServerOps.unregisterConnOn
  split_ifs
  · exact h
  · have hserver := server_detach s.state ref
    have hplanted : Planted { s with state := detach s.state ref } :=
      h.toPlanted.congr (congrArg (fun sv => sv.world.channels) hserver) rfl
    have hissued : Issued (detach s.state ref) := h.issued.of_members fun sid m hm => by
      refine ⟨m, ?_, rfl⟩
      unfold detach at hm
      split at hm <;> exact hm
    have hdetached : Grounded { s with state := detach s.state ref } :=
      ⟨hplanted, (Onward.detach h.fit ref).fit, hissued⟩
    exact hdetached.cleanOn deletes

theorem expel (ref : SessionRef) : Grounded (expel deletes (ServerOps.beginClosing s ref) ref) :=
  ((h.beginClosing ref).removeUser ref).unregisterConnOn deletes ref

end Grounded

variable {deletes : ℕ → Bool}

theorem thrownOut_of_snapshot (h : Grounded s) {sid : ℕ} {u : User}
    (hu : s.users.snapshot sid = some u) :
    TempsInhabited (expel deletes (beginClosing s u.ref) u.ref) ↔
      Removed s (fun v => v.sessionID = sid) deletes := by
  obtain ⟨hmem, rfl⟩ := mem_of_snapshot hu
  rw [tempsInhabited_thrownOut h.toPlanted h.valid (h.ref_valid hmem)]
  refine removed_congr rfl fun v hv => ⟨congrArg SessionRef.sessionID, fun heq => ?_⟩
  rw [List.inj_on_of_nodup_map h.valid.nodup hv hmem heq]

section thrownOut
variable {cfg : Config} {s s' : Site} {deletes : ℕ → Bool}

theorem kickOn_cases {ref : SessionRef} (h : kickOn deletes s ref = some s') :
    ∃ u, s.users.snapshotRef ref = some u ∧ s' = expel deletes (beginClosing s ref) ref := by
  obtain ⟨s₁, hk, rfl⟩ := map_eq_some_iff.mp h
  obtain ⟨u, r, e, hu, hclose, rfl⟩ := kicked_cases hk
  have hbegun : beginClosing s ref = { s with state := { s.state with registry := r } } := by
    unfold beginClosing
    rw [hclose]
  exact ⟨u, hu, by rw [hbegun]; rfl⟩

theorem banAndKickSession_cases {sessionID : ℕ}
    (h : banAndKickSession deletes s sessionID = some s') :
    ∃ u, s.users.snapshot sessionID = some u ∧
      s' = expel deletes (beginClosing s u.ref) u.ref := by
  obtain ⟨u, hu, rfl⟩ := map_eq_some_iff.mp h
  exact ⟨u, hu, rfl⟩

theorem handleUserRemove_cases {c : SessionRef} {session : ℕ} {ban : Bool}
    (h : handleUserRemove deletes s cfg c session ban = some s') :
    ∃ u, s.users.snapshot session = some u ∧
      s' = expel deletes (beginClosing s u.ref) u.ref := by
  unfold handleUserRemove at h
  by_cases hactive : s.state.registry.active c = false
  · rw [if_pos hactive] at h
    cases h
  by_cases hzero : session = 0
  · rw [if_neg hactive, if_pos hzero] at h
    cases h
  rw [if_neg hactive, if_neg hzero] at h
  split at h
  · rename_i sender target _ htarget
    refine ⟨target, htarget, ?_⟩
    by_cases hmay : (target.isSuperUser || !Moderation.aclCheck cfg.pol s.state.server
        (Acl.subjectOf sender) rootChannelID
        (if ban then Acl.Permission.ban else Acl.Permission.kick)) = true
    · rw [if_pos hmay] at h
      cases h
    · rw [if_neg hmay] at h
      exact (some.inj h).symm
  · cases h

end thrownOut

theorem Grounded.getD (h : Grounded s) {o : Option Site}
    (ho : ∀ s', o = some s' → Grounded s') : Grounded (o.getD s) := by
  cases o with
  | none => exact h
  | some s' => exact ho s' rfl

theorem grounded_act (cfg : Config) (h : Grounded s) (e : Event) : Grounded (act cfg s e) := by
  cases e with
  | op op =>
    exact ⟨planted_step cfg h.toPlanted op, (onward_step cfg h.fit op).fit,
      issued_step cfg h.valid h.issued op⟩
  | disconnect ref deletes => exact (h.unregisterConnOn deletes ref).removeUser ref
  | kick ref deletes =>
    refine h.getD fun s' hk => ?_
    obtain ⟨u, -, rfl⟩ := kickOn_cases hk
    exact h.expel deletes ref
  | ban sessionID deletes =>
    refine h.getD fun s' hb => ?_
    obtain ⟨u, -, rfl⟩ := banAndKickSession_cases hb
    exact h.expel deletes u.ref
  | userRemove c session ban deletes =>
    refine h.getD fun s' hr => ?_
    obtain ⟨u, -, rfl⟩ := handleUserRemove_cases hr
    exact h.expel deletes u.ref

section events
variable {cfg : Config} {s : Site} (h : Grounded s)
include h

theorem tempsInhabited_kick {ref : SessionRef} (hk : (kicked s ref).isSome = true) :
    TempsInhabited ((kickOn deletes s ref).getD s) ↔ Removed s (fun u => u.ref = ref) deletes := by
  obtain ⟨s', hk⟩ : ∃ s', kickOn deletes s ref = some s' :=
    isSome_iff_exists.mp (isSome_map.trans hk)
  rw [hk]
  obtain ⟨u, hu, rfl⟩ := kickOn_cases hk
  have href : u.ref = ref := Voice.ref_of_snapshotRef hu
  have hmem := (mem_of_snapshot (snapshotRef_eq_some.mp hu).1).1
  exact tempsInhabited_thrownOut h.toPlanted h.valid (href ▸ h.ref_valid hmem)

theorem tempsInhabited_op (op : Op) (hdone : completes cfg s (.op op) = true) :
    TempsInhabited (act cfg s (.op op)) ↔ Tidy cfg s (.op op) := by
  cases op with
  | disconnect ref =>
    show TempsInhabited (removeUser (unregisterConn s ref) ref) ↔ _
    rw [← unregisterConnOn_true]
    exact tempsInhabited_disconnectOn h.toPlanted h.valid hdone
  | kick ref =>
    show TempsInhabited (ServerOps.kick s ref) ↔ _
    rw [← kickOn_true]
    exact tempsInhabited_kick h hdone
  | userState rateAllows c us =>
    obtain ⟨hsome, happlied⟩ := Bool.and_eq_true_iff.mp hdone
    obtain ⟨cid, hcid⟩ := isSome_iff_exists.mp hsome
    refine (tempsInhabited_userState cfg h.valid hcid happlied).trans ?_
    simp [Tidy, hcid]
  | channelRemove c id dbOk =>
    obtain ⟨hsome, hany⟩ := Bool.and_eq_true_iff.mp hdone
    obtain ⟨ch, hreached⟩ := isSome_iff_exists.mp hsome
    have hin : ∃ u ∈ s.users.bySession, u.channelID = id := by simpa using hany
    refine (tempsInhabited_channelRemove cfg h.valid hreached hin).trans ?_
    simp [Tidy, hreached]
  | login | channelState | restCreate | restUpdate | restDelete | editACL => cases hdone

theorem tempsInhabited_event (e : Event) (hdone : completes cfg s e = true) :
    TempsInhabited (act cfg s e) ↔ Tidy cfg s e := by
  cases e with
  | op op => exact tempsInhabited_op h op hdone
  | disconnect ref deletes => exact tempsInhabited_disconnectOn h.toPlanted h.valid hdone
  | kick ref deletes =>
    exact tempsInhabited_kick h hdone
  | ban sessionID deletes =>
    obtain ⟨u, hu⟩ := isSome_iff_exists.mp hdone
    have hban : act cfg s (.ban sessionID deletes) =
        expel deletes (beginClosing s u.ref) u.ref := by
      show (banAndKickSession deletes s sessionID).getD s = _
      unfold banAndKickSession
      rw [hu]
      rfl
    rw [hban]
    exact thrownOut_of_snapshot h hu
  | userRemove c session ban deletes =>
    obtain ⟨s', hr⟩ := isSome_iff_exists.mp hdone
    obtain ⟨u, hu, rfl⟩ := handleUserRemove_cases hr
    have hremove : act cfg s (.userRemove c session ban deletes) =
        expel deletes (beginClosing s u.ref) u.ref := congrArg (Option.getD · s) hr
    rw [hremove]
    exact thrownOut_of_snapshot h hu

end events

/-- **Temporary channels do not outlive their users**: in every run, after every event by which
somebody leaves a channel, exactly if all of these are tidy. -/
theorem temps_inhabited_iff (cfg : Config) {s : Site} (hs : Planted s)
    (hfit : Fit s.users s.state.registry) (hissued : Issued s.state) (events : List Event) :
    Along (act cfg) (fun s e => completes cfg s e = true → TempsInhabited (act cfg s e)) s events ↔
      Along (act cfg) (fun s e => completes cfg s e = true → Tidy cfg s e) s events :=
  along_iff_of_inv_true Grounded (fun _ e h => imp_congr_right (tempsInhabited_event h e))
    (fun _ e h _ => grounded_act cfg h e) ⟨hs, hfit, hissued⟩ events

/-! ### A server with a temporary channel -/

section decidable
variable (s : Site) (leaves : User → Prop) [DecidablePred leaves]

instance (c : Channel) : Decidable (Deserted s leaves c) :=
  inferInstanceAs (Decidable (∀ n ∈ s.channels, c.id ∈ s.channels.ancestorChain n.id →
    n.isTemporary = true ∧ ∀ u ∈ s.users.bySession, u.channelID = n.id → leaves u))

instance (deletes : ℕ → Bool) : Decidable (Removed s leaves deletes) :=
  inferInstanceAs (Decidable (∀ c ∈ s.channels, Deserted s leaves c →
    c.id ≠ rootChannelID ∧ deletes c.id = true))

instance : Decidable (NotLast s leaves) :=
  inferInstanceAs (Decidable (∀ c ∈ s.channels, Deserted s leaves c →
    ∀ u ∈ s.users.bySession, u.channelID ≠ c.id))

instance (gone : Channel → Prop) [DecidablePred gone] (entered : ℕ) :
    Decidable (Peopled s gone entered leaves) :=
  inferInstanceAs (Decidable (∀ c ∈ s.channels, ¬gone c → c.isTemporary = true →
    (∀ d ∈ s.channels, d.id ≠ rootChannelID → d.parentID = c.id → gone d) →
    c.id = entered ∨ ∃ u ∈ s.users.bySession, u.channelID = c.id ∧ ¬leaves u))

instance (id : ℕ) (dbOk : Bool) : Decidable (Removable s id dbOk) :=
  inferInstanceAs (Decidable (dbOk = true ∧ id ≠ rootChannelID ∧
    s.channels.hasChildren id = false))

instance : Decidable (TempsInhabited s) :=
  inferInstanceAs (Decidable (∀ c ∈ s.channels, c.isTemporary = true →
    s.channels.hasChildren c.id = false → ∃ u ∈ s.users.bySession, u.channelID = c.id))

instance (cfg : Config) : ∀ e : Event, Decidable (Tidy cfg s e)
  | .op (.disconnect ref) => inferInstanceAs (Decidable
      (Removed s (fun u => u.ref = ref) (fun _ => true) ∧ NotLast s fun u => u.ref = ref))
  | .op (.kick ref) =>
    inferInstanceAs (Decidable (Removed s (fun u => u.ref = ref) fun _ => true))
  | .op (.userState _ c us) => inferInstanceAs (Decidable (∀ cid ∈ us.channelID,
      Peopled s (fun _ => False) cid fun u => u.sessionID = us.session.getD c.sessionID))
  | .op (.channelRemove c id dbOk) => inferInstanceAs (Decidable (∀ ch ∈ reached cfg s c id,
      Peopled s (fun d => d.id = id ∧ Removable s id dbOk) ch.parentID fun u => u.channelID = id))
  | .op (.login _ _) => .isTrue trivial
  | .op (.channelState _ _ _ _) => .isTrue trivial
  | .op (.restCreate _ _ _ _ _ _ _) => .isTrue trivial
  | .op (.restUpdate _ _ _ _) => .isTrue trivial
  | .op (.restDelete _ _) => .isTrue trivial
  | .op (.editACL _) => .isTrue trivial
  | .disconnect ref deletes => inferInstanceAs (Decidable
      (Removed s (fun u => u.ref = ref) deletes ∧ NotLast s fun u => u.ref = ref))
  | .kick ref deletes => inferInstanceAs (Decidable (Removed s (fun u => u.ref = ref) deletes))
  | .ban sessionID deletes =>
    inferInstanceAs (Decidable (Removed s (fun u => u.sessionID = sessionID) deletes))
  | .userRemove _ session _ deletes =>
    inferInstanceAs (Decidable (Removed s (fun u => u.sessionID = session) deletes))

end decidable

/-- Both users are in a room below the temporary Lounge; one of them disconnects and the other is
banned, which takes both channels away. -/
def visit : List Event :=
  (opening true).map .op ++ [.op (.restCreate 2 1 "Room" "" 0 true 0),
    .op (.userState true ⟨1, 1⟩ { channelID := some 2 }),
    .op (.userState true ⟨2, 2⟩ { channelID := some 2 }),
    .disconnect ⟨1, 1⟩ fun _ => true, .ban 2 fun _ => true]

theorem temps_inhabited_visit :
    ((run (act config) newSite visit).channels.map fun c => c.id) = [0] ∧
    Along (act config) (fun s e => completes config s e = true →
      TempsInhabited (act config s e)) newSite visit :=
  ⟨by decide +kernel, (temps_inhabited_iff config planted_newSite Voice.fit_newSite
    (fun _ _ hm => by cases hm) visit).mpr (by decide +kernel)⟩

/-- The only user in the Lounge disconnects, or goes to the root channel, and the Lounge stays. -/
theorem lounge_outlives_users :
    let s := run (act config) newSite ((opening true ++ [enter]).map .op)
    (completes config s (.disconnect ⟨1, 1⟩ fun _ => true) = true ∧
      ¬TempsInhabited (act config s (.disconnect ⟨1, 1⟩ fun _ => true))) ∧
    completes config s (.op (.userState true ⟨1, 1⟩ { channelID := some 0 })) = true ∧
      ¬TempsInhabited (act config s (.op (.userState true ⟨1, 1⟩ { channelID := some 0 }))) := by
  decide +kernel

/-! ### What every run keeps -/

open Channels

theorem Grounded.run (cfg : Config) {s : Site} (h : Grounded s) (events : List Event) :
    Grounded (run (act cfg) s events) := by
  induction events generalizing s with
  | nil => exact h
  | cons e events ih => exact ih (grounded_act cfg h e)

/-- **The tree is read rightly**: after every run, the ancestors of a channel are the way from it to
the root, the walk over the children finds the channels whose way leads through it, and the list
that clients are sent is that of all channels. -/
theorem tree_read_rightly (cfg : Config) {s : Site} (h : Grounded s) (events : List Event) :
    let cs := (run (act cfg) s events).channels
    (∀ id, cs.has id = true → (∃ p, IsPath cs id p ∧ p.Nodup ∧ cs.ancestorChain id = p.reverse) ∧
      ∃ ids, cs.subtreeIDs id = some ids ∧ ∀ d, d ∈ ids ↔ ∃ q, IsPath cs d q ∧ id ∈ q) ∧
      ∀ c, c ∈ cs.getTree ↔ c ∈ cs := by
  obtain ⟨t, ht⟩ := (h.run cfg events).tree
  dsimp only
  rw [← ht]
  refine ⟨fun id hid => ⟨?_, subtreeIDs_of_tree t hid⟩, fun c => (mem_getTree t).trans
    ⟨mem_of_getChannel, getChannel_of_mem t.ids_nodup⟩⟩
  obtain ⟨n, hn⟩ := isSome_iff_exists.mp hid
  obtain ⟨p, hp⟩ := t.path id n hn
  exact ⟨p, hp, hp.nodup, ancestorChain_of_path hp⟩

theorem tree_read_rightly_visit :
    let cs := (run (act config) newSite visit).channels
    cs.has 0 = true ∧ ∀ c, c ∈ cs.getTree ↔ c ∈ cs :=
  ⟨by decide +kernel, (tree_read_rightly config
    ⟨planted_newSite, Voice.fit_newSite, fun _ _ hm => by cases hm⟩ visit).2⟩

/-- **A session does not come back**: in every run the records and the bindings fit, and a session
that has been given out and is not bound will not be bound again, though its ID is used again. -/
theorem sessions_do_not_return (cfg : Config) {s : Site} (h : Fit s.users s.state.registry)
    (ops : List Op) : Onward s.state (run (step cfg) s ops).state := by
  induction ops generalizing s with
  | nil => exact ⟨h, le_rfl, fun _ _ hnone => hnone⟩
  | cons op ops ih =>
    have hstep := onward_step cfg h op
    exact hstep.trans (ih hstep.fit)

theorem sessions_do_not_return_opening :
    Onward newSite.state (run (step config) newSite (opening true)).state :=
  sessions_do_not_return config Voice.fit_newSite _

end MumbleServer.ServerOps
