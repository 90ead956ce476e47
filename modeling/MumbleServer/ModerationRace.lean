import MumbleServer.ModerationAuth
import Mathlib.Logic.Relation

/-! # Moderation beside connections that come and go

`handleUserState` takes a lock for each access to the user table, not for the whole call: it reads
the record of its target, makes its checks, and then updates the record under the same session ID,
first the channel and then the rest.  Here a call is a goroutine that makes one access at a time,
and between two of them other calls go on, `MuteSession` is called, clients connect and
disconnect, and the channels, the ACL and the registry change.

`call_solo` connects this with the handler as one function, and `moderation_on_checked` says when an
update hits the session whose record was read. -/

namespace MumbleServer.Moderation

open Option
open Acl (Permission subjectOf)

/-! ### Calls -/

/-- Where a call stands: the next access it makes. -/
inductive Phase where
  /-- `peerActive`. -/
  | entry
  /-- `Snapshot` of the sender. -/
  | sender
  /-- `Snapshot` of the target. -/
  | target (sender : User)
  | listening (sender : User) (target : Member)
  /-- The next access of the checks. -/
  | checking (sender : User) (target : Member) (rest : Reads State (Except (List Output) UserState))
  /-- `SetChannel`. -/
  | moving (target : Member) (us : UserState) (channelID : ℕ)
  /-- `maySpeak`. -/
  | moved (target : Member) (us : UserState) (channelID : ℕ)
  /-- The last `UpdateUser`. -/
  | updating (target : Member) (us : UserState) (maySpeak : Option Bool)
  | done

/-- A call of `handleUserState`. -/
structure Call where
  c : SessionRef
  us : UserState
  rateAllows : Bool
  phase : Phase

/-- The session whose record the call has read, until it is done with it. -/
def Phase.checked : Phase → Option SessionRef
  | .listening _ m => some m.user.ref
  | .checking _ m _ => some m.user.ref
  | .moving m _ _ => some m.user.ref
  | .moved m _ _ => some m.user.ref
  | .updating m _ _ => some m.user.ref
  | _ => none

section calls
variable (pol : Policy)

/-- The checks of a message that was not refused at once. -/
def startChecks (sender : User) (target : Member) (us : UserState) : Phase :=
  .checking sender target (checkAll pol sender target (isAdminOp sender target.user) us.strip).run

/-- One access of a call: the state after it and where the call stands then. -/
def advance (st : State) (k : Call) : State × Phase :=
  match k.phase with
  | .entry => (st, if st.registry.active k.c = false then .done else .sender)
  | .sender =>
    (st, match st.server.users.snapshot k.c.sessionID with
      | none => .done
      | some sender => .target sender)
  | .target sender =>
    (st, match st.member (k.us.session.getD k.c.sessionID) with
      | none => .done
      | some target =>
        match refusal k.rateAllows sender target.user k.us with
        | some _ => .done
        | none =>
          if k.us.hasListening then .listening sender target
          else startChecks pol sender target k.us)
  | .listening sender target =>
    ((applyListening pol target.user st sender.sessionID k.us).1,
      startChecks pol sender target k.us)
  | .checking sender target (.read next) => (st, .checking sender target (next st))
  | .checking _ _ (.done (.error _)) => (st, .done)
  | .checking _ target (.done (.ok us)) =>
    (st, match us.channelID with
      | none => .updating target us none
      | some channelID => .moving target us channelID)
  | .moving target us channelID =>
    (st.setChannel target.user.sessionID channelID, .moved target us channelID)
  | .moved target us channelID =>
    (st, .updating target us
      (some (aclCheck pol st.server (subjectOf target.user) channelID Permission.speak)))
  | .updating target us maySpeak =>
    (updateRecord st target.user.sessionID us maySpeak, .done)
  | .done => (st, .done)

/-- One access of a call that runs alone. -/
def Turn (x y : State × Call) : Prop :=
  y = ((advance pol x.1 x.2).1, { x.2 with phase := (advance pol x.1 x.2).2 })

end calls

/-! ### The server -/

/-- `MuteSession`: one `UpdateUser`. -/
def muteSession (st : State) (sid : ℕ) (mute : Bool) : State :=
  st.updateUser sid fun m =>
    { m with profile := { m.profile with
        toVoiceState := (applyAdminVoiceState m.profile.toVoiceState
          { session := some sid, mute := some mute }).1 } }

/-- `Add`; a new session starts with its own profile. -/
def connect (st : State) (u : User) (profile : Profile) : State :=
  let (users, stored) := st.server.users.add u
  { st with
    server := { st.server with users := users }
    profiles := match stored with
      | none => st.profiles
      | some stored => Function.update st.profiles stored.sessionID profile }

/-- `RemoveIfGeneration`. -/
def disconnect (st : State) (ref : SessionRef) : State :=
  { st with server := { st.server with users := (st.server.users.removeIfGeneration ref).1 } }

/-- The state and the calls, those that are done included. -/
structure System where
  state : State
  calls : List Call

inductive Event where
  /-- A UserState message comes in. -/
  | message (c : SessionRef) (us : UserState) (rateAllows : Bool)
  /-- The next access of a call. -/
  | access (i : ℕ)
  | mute (sid : ℕ) (mute : Bool)
  | connect (u : User) (profile : Profile)
  | disconnect (ref : SessionRef)
  /-- Channels, ACL rows and accounts change. -/
  | world (w : Acl.World)
  | registry (r : Registry)

def System.step (pol : Policy) (s : System) : Event → System
  | .message c us rateAllows => { s with calls := s.calls ++ [⟨c, us, rateAllows, .entry⟩] }
  | .access i =>
    match s.calls[i]? with
    | none => s
    | some k =>
      ⟨(advance pol s.state k).1,
        s.calls.set i { k with phase := (advance pol s.state k).2 }⟩
  | .mute sid mute => { s with state := muteSession s.state sid mute }
  | .connect u profile => { s with state := connect s.state u profile }
  | .disconnect ref => { s with state := disconnect s.state ref }
  | .world w => { s with state := { s.state with server := { s.state.server with world := w } } }
  | .registry r => { s with state := { s.state with registry := r } }

/-- The session an operation has read: a call earlier, `MuteSession` in the same access. -/
def System.checked (s : System) : Event → Option SessionRef
  | .access i => (s.calls[i]?).bind fun k => k.phase.checked
  | .mute sid _ => (s.state.member sid).map fun m => m.user.ref
  | _ => none

/-- The event is an access of `handleUserState` or `MuteSession`. -/
def Event.moderates : Event → Bool
  | .access _ => true
  | .mute _ _ => true
  | _ => false

/-- A record that the operation changes is that of the session it has read, and stays it. -/
def OnChecked (pol : Policy) (s : System) (e : Event) : Prop :=
  e.moderates = true → ∀ sid, (s.step pol e).state.member sid ≠ s.state.member sid →
    ∃ before after, s.state.member sid = some before ∧
      (s.step pol e).state.member sid = some after ∧
      s.checked e = some before.user.ref ∧ after.user.ref = before.user.ref

/-- No new connection gets the ID of a session that a call has read and is not done with. -/
def KeepsIDs (s : System) : Event → Prop
  | .connect _ _ => ∀ k ∈ s.calls, ∀ ref ∈ k.phase.checked,
      s.state.server.users.pool.alloc.2 ≠ some ref.sessionID
  | _ => True

/-! ### A call that runs alone -/

section alone
variable (pol : Policy)

theorem checking_solo (st : State) (k : Call) (sender : User) (target : Member)
    (p : Reads State (Except (List Output) UserState)) :
    Relation.ReflTransGen (Turn pol) (st, { k with phase := .checking sender target p })
      (st, { k with phase := .checking sender target (.done (p.on st)) }) := by
  induction p with
  | done r => exact .refl
  | read next ih => exact .head rfl (ih st)

theorem updates_solo (st : State) (k : Call) (actor : ℕ) (sender : User) (target : Member)
    (us : UserState) :
    Relation.ReflTransGen (Turn pol)
      (st, { k with phase := .checking sender target (.done (.ok us)) })
      ((applyChecked pol st actor target.user us).1, { k with phase := .done }) := by
  have hlast : ∀ st maySpeak, Turn pol (st, { k with phase := .updating target us maySpeak })
      (updateRecord st target.user.sessionID us maySpeak, { k with phase := .done }) :=
    fun _ _ => rfl
  unfold applyChecked
  cases hc : us.channelID with
  | none =>
    refine .head ?_ (.single (hlast st none))
    simp only [Turn, advance, hc]
  | some channelID =>
    refine .head (b := (st, { k with phase := .moving target us channelID })) ?_
      (.head rfl (.head rfl (.single (hlast _ _))))
    simp only [Turn, advance, hc]

theorem finish_solo (st : State) (out : List Output) (k : Call) (sender : User) (target : Member) :
    Relation.ReflTransGen (Turn pol) (st, { k with phase := startChecks pol sender target k.us })
      ((finishUserState pol st out sender target k.us.strip).state, { k with phase := .done }) := by
  refine (checking_solo pol st k sender target _).trans ?_
  unfold finishUserState Fallible.on
  cases (checkAll pol sender target (isAdminOp sender target.user) k.us.strip).run.on st with
  | error outs => exact .single rfl
  | ok us => exact updates_solo pol st k sender.sessionID sender target us

/-- **A call that nothing disturbs does what `handleUserState` does.** -/
theorem call_solo (st : State) (rateAllows : Bool) (c : SessionRef) (us : UserState) :
    Relation.ReflTransGen (Turn pol) (st, ⟨c, us, rateAllows, .entry⟩)
      ((handleUserState pol st rateAllows c us).state, ⟨c, us, rateAllows, .done⟩) := by
  unfold handleUserState
  split_ifs with hactive
  · exact .single (by simp only [Turn, advance, if_pos hactive])
  refine .head (b := (st, ⟨c, us, rateAllows, .sender⟩)) (by simp only [Turn, advance, if_neg hactive])
    ?_
  cases hs : st.server.users.snapshot c.sessionID with
  | none =>
    exact .single (by simp only [Turn, advance, hs])
  | some sender =>
    refine .head (b := (st, ⟨c, us, rateAllows, .target sender⟩)) (by simp only [Turn, advance, hs]) ?_
    cases ht : st.member (us.session.getD c.sessionID) with
    | none =>
      exact .single (by simp only [Turn, advance, ht])
    | some target =>
      dsimp only
      unfold handleTarget
      cases hr : refusal rateAllows sender target.user us with
      | some outs =>
        exact .single (by simp only [Turn, advance, ht, hr])
      | none =>
        split_ifs with hl
        · refine .head (b := (st, ⟨c, us, rateAllows, .listening sender target⟩)) ?_
            (.head rfl (finish_solo pol _ _ ⟨c, us, rateAllows, .done⟩ sender target))
          simp only [Turn, advance, ht, hr, if_pos hl]
        · refine .head ?_ (finish_solo pol _ _ ⟨c, us, rateAllows, .done⟩ sender target)
          simp only [Turn, advance, ht, hr, if_neg hl]

end alone

/-! ### All runs -/

def State.holder (st : State) (sid : ℕ) : Option SessionRef :=
  (st.member sid).map fun m => m.user.ref

/-- What an access may do to the records: at most the one of `ref` changes, and nobody comes or
goes. -/
structure Confined (st st' : State) (ref : Option SessionRef) : Prop where
  others : ∀ sid, some sid ≠ ref.map SessionRef.sessionID → st'.member sid = st.member sid
  holder : ∀ sid, st'.holder sid = st.holder sid

section runs
variable {pol : Policy} {st st' : State} {ref : Option SessionRef} {s : System}

theorem Confined.of_members (h : ∀ sid, st'.member sid = st.member sid) : Confined st st' ref where
  others sid _ := h sid
  holder sid := by rw [State.holder, h, State.holder]

theorem Confined.of_updateUser (st : State) (x : SessionRef) (fn : Member → Member) :
    Confined st (st.updateUser x.sessionID fn) (some x) where
  others sid hne := by
    rw [member_updateUser, if_neg (fun heq => hne (by rw [heq]; rfl))]
  holder sid := by
    unfold State.holder
    rw [member_updateUser]
    split_ifs with heq
    · rw [heq, map_map]
      congr 1
      funext m
      simp [User.ref]
    · rfl

/-- An access of a call touches the record of the session it has read, at most. -/
theorem advance_confined (pol : Policy) (st : State) (k : Call) :
    Confined st (advance pol st k).1 k.phase.checked := by
  rcases k with ⟨c, us, rateAllows, phase⟩
  cases phase with
  | entry | sender | target sender | moved m us' channelID | done => exact .of_members fun _ => rfl
  | listening sender m => exact .of_members (applyListening_spec pol m.user st _ us).1.member
  | checking sender m p =>
    rcases p with (_ | _) | _
    all_goals exact .of_members fun _ => rfl
  | moving m us' channelID =>
    show Confined st (st.setChannel m.user.ref.sessionID channelID) (some m.user.ref)
    exact .of_updateUser st m.user.ref fun m =>
      { m with user := { m.user with channelID := channelID } }
  | updating m us' maySpeak =>
    show Confined st (updateRecord st m.user.ref.sessionID us' maySpeak) (some m.user.ref)
    exact .of_updateUser st m.user.ref fun m =>
      { m with profile := (applyUserState us' maySpeak m.profile).1 }

theorem advance_checked (st : State) (k : Call) {x : SessionRef}
    (h : (advance pol st k).2.checked = some x) :
    k.phase.checked = some x ∨ st.holder x.sessionID = some x := by
  rcases k with ⟨c, us, rateAllows, phase⟩
  cases phase with
  | entry =>
    simp only [advance] at h
    split_ifs at h <;> cases h
  | sender =>
    simp only [advance] at h
    split at h <;> cases h
  | target sender =>
    right
    simp only [advance] at h
    split at h
    · cases h
    · rename_i m hm
      have hx : m.user.ref = x := by
        split at h
        · cases h
        · split_ifs at h <;> exact some.inj h
      obtain ⟨u, hu, rfl⟩ := map_eq_some_iff.mp hm
      rw [State.holder, ← hx]
      have hsid := (UserManager.mem_of_snapshot hu).2
      simp only [User.ref, hsid, hm, map_some]
  | listening sender m | moving m us' channelID | moved m us' channelID => exact .inl h
  | checking sender m p =>
    left
    rcases p with (_ | us') | _
    · cases h
    · simp only [advance] at h
      split at h <;> exact h
    · exact h
  | updating m us' maySpeak => cases h
  | done => cases h

theorem Confined.changed (h : Confined st st' ref) {sid : ℕ}
    (hne : st'.member sid ≠ st.member sid) :
    ∃ x before after, ref = some x ∧ x.sessionID = sid ∧ st.member sid = some before ∧
      st'.member sid = some after ∧ after.user.ref = before.user.ref := by
  have hsid : some sid = ref.map SessionRef.sessionID := by
    by_contra hother
    exact hne (h.others sid hother)
  obtain ⟨x, hx, hxsid⟩ := map_eq_some_iff.mp hsid.symm
  have hholder := h.holder sid
  unfold State.holder at hholder
  cases hb : st.member sid with
  | none =>
    rw [hb] at hholder hne
    exact absurd (map_eq_none_iff.mp hholder) hne
  | some before =>
    rw [hb] at hholder
    obtain ⟨after, ha, heq⟩ := map_eq_some_iff.mp hholder
    exact ⟨x, before, after, hx, hxsid, rfl, ha, heq⟩

/-- Nobody has taken over the ID of a session that a call has read. -/
def System.Inv (s : System) : Prop :=
  ∀ k ∈ s.calls, ∀ ref, k.phase.checked = some ref →
    ∀ x, s.state.holder ref.sessionID = some x → x = ref

theorem System.Inv.of_holder (h : s.Inv)
    (hh : ∀ sid x, st.holder sid = some x → s.state.holder sid = some x) :
    System.Inv ⟨st, s.calls⟩ :=
  fun k hk ref href x hx => h k hk ref href x (hh _ x hx)

theorem holder_eq (st : State) (sid : ℕ) :
    st.holder sid = (st.server.users.snapshot sid).map User.ref := by
  unfold State.holder State.member
  rw [map_map]
  rfl

theorem holder_connect (st : State) (u : User) (profile : Profile) (sid : ℕ) :
    (connect st u profile).holder sid = st.holder sid ∨
      st.server.users.pool.alloc.2 = some sid := by
  rw [holder_eq, holder_eq]
  exact (UserManager.snapshot_add_or st.server.users u sid).imp_left fun h => congrArg _ h

theorem holder_disconnect {x y : SessionRef} {sid : ℕ} (h : (disconnect st x).holder sid = some y) :
    st.holder sid = some y := by
  rw [holder_eq] at h ⊢
  obtain ⟨u, hu, rfl⟩ := map_eq_some_iff.mp h
  exact map_eq_some_iff.mpr ⟨u, UserManager.snapshot_of_remove hu, rfl⟩

theorem muteSession_confined (st : State) (sid : ℕ) (mute : Bool) (generation : ℕ) :
    Confined st (muteSession st sid mute) (some ⟨sid, generation⟩) :=
  .of_updateUser st ⟨sid, generation⟩ _

theorem step_onChecked (h : s.Inv) {e : Event} (hk : KeepsIDs s e) :
    OnChecked pol s e ∧ (s.step pol e).Inv := by
  have hidle : e.moderates = false → OnChecked pol s e := by
    intro hm hm'
    rw [hm] at hm'
    cases hm'
  cases e with
  | message c us rateAllows =>
    refine ⟨hidle rfl, fun k hmem => ?_⟩
    rcases List.mem_append.mp hmem with hmem | hmem
    · exact h k hmem
    · rw [List.mem_singleton.mp hmem]
      intro ref href
      cases href
  | access i =>
    cases hi : s.calls[i]? with
    | none =>
      have hstep : s.step pol (.access i) = s := by simp only [System.step, hi]
      rw [OnChecked, hstep]
      exact ⟨fun _ sid hne => absurd rfl hne, h⟩
    | some k =>
      have hstep : s.step pol (.access i) = ⟨(advance pol s.state k).1,
          s.calls.set i { k with phase := (advance pol s.state k).2 }⟩ := by
        simp only [System.step, hi]
      have hchecked : s.checked (.access i) = k.phase.checked := by
        simp only [System.checked, hi, bind_some]
      have hmem := List.mem_of_getElem? hi
      have hc := advance_confined pol s.state k
      rw [OnChecked, hstep, hchecked]
      refine ⟨fun _ sid hne => ?_, fun k' hk' ref href x hx => ?_⟩
      · obtain ⟨x, before, after, hx, rfl, hb, ha, heq⟩ := hc.changed hne
        have hholder : s.state.holder x.sessionID = some before.user.ref := by
          rw [State.holder, hb, map_some]
        exact ⟨before, after, hb, ha, by rw [h k hmem x hx _ hholder]; exact hx, heq⟩
      · have hx' := (hc.holder _).symm.trans hx
        rcases List.mem_or_eq_of_mem_set hk' with hk' | rfl
        · exact h k' hk' ref href x hx'
        · rcases advance_checked s.state k href with hold | hnew
          · exact h k hmem ref hold x hx'
          · exact some.inj (hx'.symm.trans hnew)
  | mute sid mute =>
    have hc := muteSession_confined s.state sid mute 0
    refine ⟨fun _ sid' hne => ?_, h.of_holder fun sid' x hx => (hc.holder sid').symm.trans hx⟩
    obtain ⟨x, before, after, hx, rfl, hb, ha, heq⟩ := hc.changed hne
    obtain rfl := some.inj hx
    exact ⟨before, after, hb, ha, by rw [System.checked, hb]; rfl, heq⟩
  | connect u profile =>
    refine ⟨hidle rfl, fun k hmem ref href x hx => h k hmem ref href x ?_⟩
    rcases holder_connect s.state u profile ref.sessionID with heq | hnew
    · exact heq.symm.trans hx
    · exact absurd hnew (hk k hmem ref href)
  | disconnect ref => exact ⟨hidle rfl, h.of_holder fun _ _ => holder_disconnect⟩
  | world w | registry r => exact ⟨hidle rfl, h.of_holder fun _ _ hx => hx⟩

/-- **Moderation hits the session that was checked**, in every run in which no new connection gets
the ID of a session that a call has read and is not done with. -/
theorem moderation_on_checked (pol : Policy) (st : State) (es : List Event)
    (h : Along (System.step pol) KeepsIDs ⟨st, []⟩ es) :
    Along (System.step pol) (OnChecked pol) ⟨st, []⟩ es := by
  have hstart : System.Inv ⟨st, []⟩ := by
    intro k hk
    cases hk
  have hstep : ∀ s e, System.Inv s → KeepsIDs s e → OnChecked pol s e ∧ (s.step pol e).Inv :=
    fun _ _ hs hk => step_onChecked hs hk
  exact Along.of_inv hstep hstart h

end runs

/-! ### A run in which the session changes hands -/

instance (s : System) : ∀ e, Decidable (KeepsIDs s e)
  | .connect _ _ => inferInstanceAs (Decidable (∀ k ∈ s.calls, ∀ ref ∈ k.phase.checked,
      s.state.server.users.pool.alloc.2 ≠ some ref.sessionID))
  | .message _ _ _ => isTrue trivial
  | .access _ => isTrue trivial
  | .mute _ _ => isTrue trivial
  | .disconnect _ => isTrue trivial
  | .world _ => isTrue trivial
  | .registry _ => isTrue trivial

namespace Example

def policy : Policy := ⟨id, 0, 0, true, 0, 0⟩

/-- Nobody is connected; there is the root channel and nothing else. -/
def empty : State where
  server := ⟨⟨1, [⟨0, 0, "Root", "", 0, 0, false, [], true⟩], ⟨[], [], []⟩, none, []⟩,
    UserManager.new 8⟩
  profiles _ := {}
  registry := ⟨[], []⟩
  listeners := []
  volumes := []

def client (name : String) (isSuperUser : Bool) : User :=
  ⟨⟨0, 0, isSuperUser, "", false, false, 0, 0, [], []⟩, 0, 0, 0, name⟩

def muteTwo : UserState := { session := some 2, mute := some true }

/-- An administrator and a client connect, the administrator asks for the client to be muted, and
the call has passed its checks. -/
def checked : List Event :=
  [.connect (client "SuperUser" true) {}, .connect (client "alice" false) {},
    .registry ⟨[("local", 1)], [⟨⟨1, 1⟩, "local", .active, true⟩]⟩,
    .message ⟨1, 1⟩ muteTwo true] ++ List.replicate 8 (.access 0)

/-- The client leaves and somebody else connects. -/
def replaced : List Event := [.disconnect ⟨2, 2⟩, .connect (client "bob" false) {}]

end Example

open Example in
/-- The call is done before the client leaves. -/
theorem moderation_on_checked_calm :
    Along (System.step policy) (OnChecked policy) ⟨empty, []⟩ (checked ++ [.access 0] ++ replaced) :=
  moderation_on_checked policy empty _ (by decide +kernel)

open Example in
/-- The client leaves before the update, and who gets its session ID is muted. -/
theorem newcomer_is_muted :
    let s := run (System.step policy) ⟨empty, []⟩ (checked ++ replaced)
    s.checked (.access 0) = some ⟨2, 2⟩ ∧ s.state.holder 2 = some ⟨2, 3⟩ ∧
    (s.state.member 2).map (fun m => m.profile.mute) = some false ∧
    ((s.step policy (.access 0)).state.member 2).map (fun m => m.profile.mute) = some true ∧
    ¬ Along (System.step policy) (OnChecked policy) ⟨empty, []⟩
      (checked ++ replaced ++ [.access 0]) := by
  intro s
  have hchecked : s.checked (.access 0) = some ⟨2, 2⟩ := by decide +kernel
  have hholder : s.state.holder 2 = some ⟨2, 3⟩ := by decide +kernel
  have hbefore : (s.state.member 2).map (fun m => m.profile.mute) = some false := by
    decide +kernel
  have hafter : ((s.step policy (.access 0)).state.member 2).map (fun m => m.profile.mute) =
      some true := by decide +kernel
  refine ⟨hchecked, hholder, hbefore, hafter, fun h => ?_⟩
  have hchanged : (s.step policy (.access 0)).state.member 2 ≠ s.state.member 2 := by
    intro heq
    rw [heq, hbefore] at hafter
    cases hafter
  obtain ⟨before, after, hb, -, hread, -⟩ := Along.at h rfl 2 hchanged
  rw [State.holder, hb] at hholder
  rw [hchecked] at hread
  rw [map_some, ← hread] at hholder
  cases hholder

end MumbleServer.Moderation
