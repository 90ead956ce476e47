import MumbleServer.Accesses
import MumbleServer.Whereabouts
import MumbleServer.VoiceRouting

/-! # Routing beside logins and disconnects

`RouteRef` holds no lock: it reads the registry, the users, the channels and the listeners one
after the other, while sessions end and others take over their IDs.  Here it is a computation with
one access for each call that locks a table; a permission query and `channelHasMixedCrypto` count as
one.  Undisturbed it is `routeRef` (`Live.routeNormal_on`).

The recipients are collected by session ID, and only at the end each ID is resolved to a session,
the one that has it then. -/

namespace MumbleServer.Voice

open List Reads
open Acl (Permission)
open Moderation (Policy Member aclCheck)

/-- The orders in which maps are read, as rearrangements. -/
structure Shuffle where
  users : List ℕ → List ℕ
  recipients : List (ℕ × Delivery) → List (ℕ × Delivery)
  users_perm : ∀ l, (users l).Perm l
  recipients_perm : ∀ l, (recipients l).Perm l

namespace Live

section accesses
variable (pol : Policy)

def canSenderSpeak (sid : ℕ) : Reads Server Bool := do
  match ← Reads.get fun sv => sv.state.registry.ref sid with
  | none => pure false
  | some ref => do
      let active ← Reads.get fun sv => sv.state.registry.active ref
      if active = false then pure false
      else do
        let m ← Reads.get fun sv => sv.state.member sid
        pure (m.any fun m => !silenced m.profile.toVoiceState)

def canSenderSpeakInChannel (sid cid : ℕ) : Reads Server Bool := do
  match ← Reads.get fun sv => sv.state.member sid with
  | none => pure false
  | some m =>
    if silenced m.profile.toVoiceState then pure false
    else Reads.get fun sv =>
      aclCheck pol sv.state.server ⟨sid, m.user.userID, 0⟩ cid Permission.speak

def audioFilterRecipient (sid : ℕ) : Reads Server Bool := do
  match ← Reads.get fun sv => sv.state.registry.ref sid with
  | none => pure false
  | some ref => do
      let active ← Reads.get fun sv => sv.state.registry.active ref
      if active = false then pure false
      else do
        let m ← Reads.get fun sv => sv.state.member sid
        pure (m.any fun m => !m.profile.deaf && !m.profile.selfDeaf)

/-- `add`: what is put into the map. -/
def add (sender : ℕ) (way : ℕ × Delivery) : Reads Server (List (ℕ × Delivery)) :=
  if way.1 = sender then pure []
  else do
    let passes ← audioFilterRecipient way.1
    pure (if passes then [way] else [])

variable (order : Shuffle) (sender : ℕ) (frame : Frame)

/-- The round of the loop for a channel. -/
def waysIn (cid : ℕ) : Reads Server (List (ℕ × Delivery)) := do
  let may ← canSenderSpeakInChannel pol sender cid
  if may = false then pure []
  else do
    let users ← Reads.get fun sv => sessionIDsInChannel sv.state cid
    let occupants ← Reads.collect
      (fun sid => add sender (sid, ⟨frame, contextNormal, SingleFloat.one⟩)) (order.users users)
    let listeners ← Reads.get fun sv => sessionIDsIn sv.state cid
    let listening ← Reads.collect (fun sid => do
      let v ← Reads.get fun sv => volume sv.state sid cid
      add sender (sid, ⟨frame, contextListen, v⟩)) listeners
    pure (occupants ++ listening)

/-- The loop over the channels. -/
def ways : Reads Server (List (ℕ × Delivery)) := do
  let ch ← Reads.get fun sv => getChan sv.state sender
  let linked ← Reads.get fun sv => getLinkedChans sv.state ch
  Reads.collect (waysIn pol order sender frame) (ch :: linked)

/-- `ResolveSession`, for an entry of the map. -/
def resolve (w : ℕ × Delivery) : Reads Server (List Recipient) := do
  let ref ← Reads.get fun sv => sv.state.registry.ref w.1
  pure (ref.map fun ref => Recipient.mk w.1 ref w.2).toList

/-- The recipient has the plugin context of the speaker. -/
def sharesPosition (sender : ℕ) (r : Recipient) : Reads Server Bool :=
  if r.delivery.frame.hasPosition = false then pure false
  else do
    let speaker ← Reads.get fun sv => sv.state.member sender
    let target ← Reads.get fun sv => sv.state.member r.sessionID
    pure (match speaker, target with
      | some speaker, some target =>
        decide (speaker.profile.pluginContext = target.profile.pluginContext)
      | _, _ => false)

def tunnels (r : Recipient) : Reads Server Bool := do
  match ← Reads.get fun sv => sv.state.member r.sessionID with
  | none => pure false
  | some target => Reads.get fun sv => channelHasMixedCrypto sv target.user.channelID

/-- A round of the loop of `SendVoice`. -/
def voiceRecipient (sender : ℕ) (r : Recipient) : Reads Server (List VoiceRecipient) := do
  let active ← Reads.get fun sv => sv.state.registry.active r.session
  if active = false then pure []
  else do
    let hasPosition ← sharesPosition sender r
    let forceTunnel ← tunnels r
    pure [⟨r.session, r.delivery.context, r.delivery.volumeAdjustment, hasPosition, forceTunnel⟩]

def sendVoice (sender : SessionRef) (frame : Frame) (recipients : List Recipient) :
    Reads Server (Option VoiceBatch) := do
  let active ← Reads.get fun sv => sv.state.registry.active sender
  if active = false then pure none
  else do
    let rs ← Reads.collect (voiceRecipient sender.sessionID) recipients
    pure (some ⟨sender, frame, rs⟩)

/-- The end of `RouteRef`, with the map of recipients. -/
def handOver (sender : SessionRef) (frame : Frame) (recipients : List (ℕ × Delivery)) :
    Reads Server (Option VoiceBatch) := do
  let canonical ← Reads.collect resolve (order.recipients recipients)
  sendVoice sender frame canonical

/-- `RouteRef` for normal voice up to the map of recipients. -/
def gathering : Reads Server (Option (List (ℕ × Delivery))) := do
  let may ← canSenderSpeak sender
  if may = false then pure none
  else do
    let ways ← ways pol order sender frame
    pure (some (Gather.gather mergeDelivery ways))

/-- `RouteRef` for normal voice. -/
def routeNormal (sender : SessionRef) (frame : Frame) : Reads Server (Option VoiceBatch) := do
  match ← gathering pol order sender.sessionID frame with
  | none => pure none
  | some recipients => handOver order sender frame recipients

end accesses

/-! ### Undisturbed -/

section undisturbed
variable (pol : Policy) (order : Shuffle) (sv : Server) (sender : ℕ) (frame : Frame)

theorem activeID_on (sid : ℕ) : (canSenderSpeak sid).on sv = Voice.canSenderSpeak sv.state sid ∧
    (audioFilterRecipient sid).on sv = Voice.audioFilterRecipient sv.state sid := by
  unfold canSenderSpeak audioFilterRecipient Voice.canSenderSpeak Voice.audioFilterRecipient
    activeID
  rw [on_bind, on_bind, on_get]
  cases sv.state.registry.ref sid with
  | none => exact ⟨rfl, rfl⟩
  | some ref => cases hact : sv.state.registry.active ref <;> simp [hact]

theorem canSenderSpeakInChannel_on (sid cid : ℕ) :
    (canSenderSpeakInChannel pol sid cid).on sv =
      Voice.canSenderSpeakInChannel sv.state pol sid cid := by
  unfold canSenderSpeakInChannel Voice.canSenderSpeakInChannel
  rw [on_bind, on_get]
  cases sv.state.member sid with
  | none => rfl
  | some m => cases hm : silenced m.profile.toVoiceState <;> simp [hm]

theorem add_on (way : ℕ × Delivery) :
    (add sender way).on sv = [way].filter (admitted sv.state sender) := by
  unfold add admitted
  by_cases hself : way.1 = sender
  · simp [hself]
  · rw [if_neg hself, on_bind, (activeID_on sv _).2]
    cases hpass : Voice.audioFilterRecipient sv.state way.1 <;> simp [hself, hpass]

/-- The order of the maps in an undisturbed call. -/
def orderIn : Order := ⟨fun cid => order.users (sessionIDsInChannel sv.state cid), order.recipients⟩

theorem waysIn_on (cid : ℕ) : (waysIn pol order sender frame cid).on sv =
    (Voice.waysIn pol sv.state (orderIn order sv) sender frame cid).filter
      (admitted sv.state sender) := by
  unfold waysIn Voice.waysIn
  rw [on_bind, canSenderSpeakInChannel_on]
  split_ifs
  · rfl
  · simp only [on_bind, on_get, on_collect, on_pure, add_on, filter_append, map_eq_flatMap,
      filter_flatMap, orderIn]

theorem gathering_on : (gathering pol order sender frame).on sv =
    if Voice.canSenderSpeak sv.state sender = false then none
    else some (Voice.collect pol sv.state (orderIn order sv) sender frame) := by
  unfold gathering
  rw [on_bind, (activeID_on sv _).1]
  split_ifs
  · rfl
  · have hways : (ways pol order sender frame).on sv =
        ((routedChannels sv.state sender).flatMap
          (Voice.waysIn pol sv.state (orderIn order sv) sender frame)).filter
            (admitted sv.state sender) := by
      unfold ways
      simp only [on_bind, on_get, on_collect, waysIn_on, filter_flatMap]
      rfl
    rw [on_bind, hways]
    rfl

theorem voiceRecipient_on (sender : SessionRef) (r : Recipient) :
    (voiceRecipient sender.sessionID r).on sv =
      ([r].filter fun r => sv.state.registry.active r.session).map
        (Voice.voiceRecipient sv sender) := by
  have hposition : (sharesPosition sender.sessionID r).on sv =
      (Voice.voiceRecipient sv sender r).hasPosition := by
    unfold sharesPosition Voice.voiceRecipient
    cases hpos : r.delivery.frame.hasPosition with
    | false => simp
    | true =>
      rw [if_neg (by decide)]
      simp only [on_bind, on_get]
      cases sv.state.member sender.sessionID <;> cases sv.state.member r.sessionID <;> rfl
  have htunnel : (tunnels r).on sv = (Voice.voiceRecipient sv sender r).forceTunnel := by
    unfold tunnels Voice.voiceRecipient
    rw [on_bind, on_get]
    cases sv.state.member r.sessionID <;> rfl
  unfold voiceRecipient
  rw [on_bind, on_get]
  cases hact : sv.state.registry.active r.session with
  | false => simp [hact]
  | true =>
    simp only [Bool.true_eq_false, if_false, on_bind, on_pure, hposition, htunnel]
    simp [hact, Voice.voiceRecipient]

theorem sendVoice_on (sender : SessionRef) (recipients : List Recipient) :
    (sendVoice sender frame recipients).on sv = Voice.sendVoice sv sender frame recipients := by
  unfold sendVoice Voice.sendVoice
  rw [on_bind, on_get]
  split_ifs
  · rfl
  · have hloop : (recipients.flatMap fun r => (voiceRecipient sender.sessionID r).on sv) =
        (recipients.filter fun r => sv.state.registry.active r.session).map
          (Voice.voiceRecipient sv sender) := by
      simp only [voiceRecipient_on, ← map_flatMap, ← filter_flatMap, flatMap_singleton']
    rw [on_bind, on_collect, hloop]
    rfl

/-- **Undisturbed, the call is `routeRef`** on a frame of normal voice. -/
theorem routeNormal_on (resolveVoiceTarget : ℕ → UInt8 → Frame → List Recipient)
    (sender : SessionRef) :
    (routeNormal pol order sender { frame with target := 0, senderSession := sender.sessionID }).on
        sv =
      routeRef pol sv resolveVoiceTarget (orderIn order sv) sender { frame with target := 0 } := by
  unfold routeNormal routeRef
  dsimp only
  rw [if_neg (by decide), if_neg (by decide), if_neg (by decide), on_bind, gathering_on]
  split_ifs
  · rfl
  · dsimp only
    unfold handOver
    rw [on_bind, on_collect, sendVoice_on]
    simp only [resolve, on_bind, on_get, on_pure, ← filterMap_eq_flatMap_toList]
    rfl

end undisturbed

end Live

/-! ### Whose voice it is -/

/-- The sessions that have an ID, in the user table or in the registry. -/
def owners (sv : Server) : List SessionRef :=
  sv.state.server.users.bySession.map User.ref ++ sv.state.registry.sessions.map Entry.ref

/-- From one moment to a later one no session ID passes on: whoever has an ID is the only session
that had it, and was there already if the ID was listening. -/
def Stays (sv sv' : Server) : Prop :=
  ∀ a ∈ owners sv', (∀ b ∈ owners sv, b.sessionID = a.sessionID → b = a) ∧
    ((∃ l ∈ sv.state.listeners, l.1 = a.sessionID) → a ∈ owners sv)

section qualified
variable (pol : Policy) (svs : List Server) (sender : ℕ)

/-- A channel that the call goes through, and where it found that the sender may speak. -/
structure Reached (cid : ℕ) : Prop where
  routed : ∃ sv ∈ svs, cid = getChan sv.state sender ∨
    ∃ sv' ∈ svs, cid ∈ getLinkedChans sv'.state (getChan sv.state sender)
  speaks : ∃ sv ∈ svs, ∃ m, sv.state.member sender = some m ∧
    silenced m.profile.toVoiceState = false ∧ ∃ sv' ∈ svs,
      aclCheck pol sv'.state.server ⟨sender, m.user.userID, 0⟩ cid Permission.speak = true

/-- The session itself was in or listened to a channel. -/
def PresentIn (sv : Server) (ref : SessionRef) (cid : ℕ) : Prop :=
  (∃ u ∈ sv.state.server.users.bySession, u.ref = ref ∧ u.channelID = cid) ∨
    ((ref.sessionID, cid) ∈ sv.state.listeners ∧ ref ∈ owners sv)

/-- What the session needs to be sent to: at some access it was in or listened to a channel that
is reached, and it passed the filter. -/
structure Qualified (ref : SessionRef) : Prop where
  present : ∃ cid, Reached pol svs sender cid ∧ ∃ sv ∈ svs, PresentIn sv ref cid
  active : ∃ sv ∈ svs, sv.state.registry.active ref = true
  hears : ∃ sv ∈ svs, ∃ m, sv.state.member ref.sessionID = some m ∧ m.user.ref = ref ∧
    m.profile.deaf = false ∧ m.profile.selfDeaf = false

end qualified

section ran
variable {pol : Policy} {order : Shuffle} {svs : List Server} {sender sid : ℕ} {frame : Frame}
variable {out : List (ℕ × Delivery)} {x : ℕ × Delivery} {found : List (ℕ × Delivery)}
  {ref : SessionRef}

theorem ran_audioFilterRecipient (h : (Live.audioFilterRecipient sid).Ran svs true) :
    ∃ ref, (∃ sv ∈ svs, sv.state.registry.ref sid = some ref) ∧
      (∃ sv ∈ svs, sv.state.registry.active ref = true) ∧
      ∃ sv ∈ svs, ∃ m, sv.state.member sid = some m ∧ m.profile.deaf = false ∧
        m.profile.selfDeaf = false := by
  obtain ⟨sv₁, _, rfl, hrest⟩ := ran_get_bind h
  generalize hr : sv₁.state.registry.ref sid = r at hrest
  cases r with
  | none => cases (ran_pure.mp hrest).2
  | some ref =>
    obtain ⟨sv₂, _, rfl, hrest₂⟩ := ran_get_bind hrest
    rcases ran_ite.mp hrest₂ with ⟨-, hfalse⟩ | ⟨htrue, hrest₃⟩
    · cases (ran_pure.mp hfalse).2
    obtain ⟨sv₃, _, rfl, hend⟩ := ran_get_bind hrest₃
    obtain ⟨rfl, hany⟩ := ran_pure.mp hend
    obtain ⟨m, hm, hdeaf⟩ := Option.any_eq_true _ _ |>.mp hany
    exact ⟨ref, ⟨sv₁, by simp, hr⟩, ⟨sv₂, by simp, by simpa using htrue⟩,
      sv₃, by simp, m, hm, by simpa using hdeaf⟩

theorem ran_canSenderSpeakInChannel {cid : ℕ}
    (h : (Live.canSenderSpeakInChannel pol sender cid).Ran svs true) :
    ∃ sv ∈ svs, ∃ m, sv.state.member sender = some m ∧
      silenced m.profile.toVoiceState = false ∧ ∃ sv' ∈ svs,
        aclCheck pol sv'.state.server ⟨sender, m.user.userID, 0⟩ cid Permission.speak = true := by
  obtain ⟨sv₁, _, rfl, hrest⟩ := ran_get_bind h
  generalize hm : sv₁.state.member sender = o at hrest
  cases o with
  | none => cases (ran_pure.mp hrest).2
  | some m =>
    rcases ran_ite.mp hrest with ⟨-, hfalse⟩ | ⟨hvoice, hrest₂⟩
    · cases (ran_pure.mp hfalse).2
    obtain ⟨sv₂, rfl, hmay⟩ := ran_get.mp hrest₂
    exact ⟨sv₁, by simp, m, hm, by simpa using hvoice, sv₂, by simp, hmay⟩

/-- The session ID stands for somebody in the channel, or for a listener. -/
def ListedIn (sv : Server) (sid cid : ℕ) : Prop :=
  sid ∈ sessionIDsInChannel sv.state cid ∨ sid ∈ sessionIDsIn sv.state cid

/-- What put a session ID into the map of recipients. -/
structure Found (pol : Policy) (svs : List Server) (sender sid : ℕ) : Prop where
  listed : ∃ cid, Reached pol svs sender cid ∧ ∃ sv ∈ svs, ListedIn sv sid cid
  passed : ∃ us, us ⊆ svs ∧ (Live.audioFilterRecipient sid).Ran us true

theorem Found.mono {svs' : List Server} (h : Found pol svs sender sid) (hsub : svs ⊆ svs') :
    Found pol svs' sender sid := by
  obtain ⟨⟨cid, ⟨⟨a, ha, hrouted⟩, b, hb, m, hm, hvoice, c, hc, hspeak⟩, d, hd, hlisted⟩,
    us, hus, hfilter⟩ := h
  refine ⟨⟨cid, ⟨⟨a, hsub ha, ?_⟩, b, hsub hb, m, hm, hvoice, c, hsub hc, hspeak⟩,
    d, hsub hd, hlisted⟩, us, fun w hw => hsub (hus hw), hfilter⟩
  rcases hrouted with hhome | ⟨e, he, hlink⟩
  · exact .inl hhome
  · exact .inr ⟨e, hsub he, hlink⟩

theorem ran_add {way x : ℕ × Delivery}
    (h : (Live.add sender way).Ran svs out) (hx : x ∈ out) :
    x = way ∧ ∃ us, us ⊆ svs ∧ (Live.audioFilterRecipient way.1).Ran us true := by
  rcases ran_ite.mp h with ⟨-, hself⟩ | ⟨-, hrest⟩
  · obtain ⟨-, rfl⟩ := ran_pure.mp hself
    cases hx
  obtain ⟨us, _, passes, rfl, hfilter, hend⟩ := ran_bind.mp hrest
  obtain ⟨rfl, rfl⟩ := ran_pure.mp hend
  cases passes with
  | false => cases hx
  | true =>
    exact ⟨mem_singleton.mp hx, us, subset_append_left _ _, hfilter⟩

theorem ran_waysIn {cid : ℕ}
    (h : (Live.waysIn pol order sender frame cid).Ran svs out) (hx : x ∈ out) :
    (∃ us, us ⊆ svs ∧ (Live.canSenderSpeakInChannel pol sender cid).Ran us true) ∧
      (∃ sv ∈ svs, ListedIn sv x.1 cid) ∧
      ∃ us, us ⊆ svs ∧ (Live.audioFilterRecipient x.1).Ran us true := by
  obtain ⟨us₁, _, may, rfl, hmay, hrest⟩ := ran_bind.mp h
  rcases ran_ite.mp hrest with ⟨-, hnone⟩ | ⟨htrue, hrest₁⟩
  · obtain ⟨-, rfl⟩ := ran_pure.mp hnone
    cases hx
  rw [Bool.not_eq_false] at htrue
  subst htrue
  obtain ⟨sv, _, rfl, hrest₂⟩ := ran_get_bind hrest₁
  obtain ⟨us₃, _, occupants, rfl, hocc, hrest₃⟩ := ran_bind.mp hrest₂
  obtain ⟨sv', _, rfl, hrest₄⟩ := ran_get_bind hrest₃
  obtain ⟨us₅, _, listening, rfl, hlis, hend⟩ := ran_bind.mp hrest₄
  obtain ⟨rfl, rfl⟩ := ran_pure.mp hend
  refine ⟨⟨us₁, subset_append_left _ _, hmay⟩, ?_⟩
  rcases mem_append.mp hx with hx | hx
  · obtain ⟨sid, hsid, us, out, hsub, hran, hmem⟩ := hocc.of_mem_collect hx
    obtain ⟨rfl, us', hsub', hfilter⟩ := ran_add hran hmem
    refine ⟨⟨sv, by simp, .inl ((order.users_perm _).mem_iff.mp hsid)⟩, us', fun w hw => ?_, hfilter⟩
    simp [hsub (hsub' hw)]
  · obtain ⟨sid, hsid, us, out, hsub, hran, hmem⟩ := hlis.of_mem_collect hx
    obtain ⟨_, vs, rfl, hadd⟩ := ran_get_bind hran
    obtain ⟨rfl, us', hsub', hfilter⟩ := ran_add hadd hmem
    refine ⟨⟨sv', by simp, .inr hsid⟩, us', fun w hw => ?_, hfilter⟩
    simp [hsub (mem_cons_of_mem _ (hsub' hw))]

theorem ran_ways (h : (Live.ways pol order sender frame).Ran svs out) (hx : x ∈ out) :
    Found pol svs sender x.1 := by
  obtain ⟨sv, _, rfl, hrest⟩ := ran_get_bind h
  obtain ⟨sv', vs, rfl, hloop⟩ := ran_get_bind hrest
  obtain ⟨cid, hcid, us, out, hsub, hran, hmem⟩ := hloop.of_mem_collect hx
  obtain ⟨⟨us₁, hsub₁, hmay⟩, ⟨sv₂, hsv₂, hlisted⟩, us₃, hsub₃, hfilter⟩ := ran_waysIn hran hmem
  have hin : ∀ w ∈ us, w ∈ sv :: sv' :: vs := fun w hw => by simp [hsub hw]
  obtain ⟨sva, hsva, m, hm, hvoice, svb, hsvb, hspeak⟩ := ran_canSenderSpeakInChannel hmay
  refine ⟨⟨cid, ⟨⟨sv, by simp, ?_⟩, ?_⟩, sv₂, hin _ hsv₂, hlisted⟩,
    us₃, fun w hw => hin w (hsub₃ hw), hfilter⟩
  · rcases mem_cons.mp hcid with rfl | hcid
    · exact .inl rfl
    · exact .inr ⟨sv', by simp, hcid⟩
  · exact ⟨sva, hin _ (hsub₁ hsva), m, hm, hvoice, svb, hin _ (hsub₁ hsvb), hspeak⟩

theorem ran_gathering (h : (Live.gathering pol order sender frame).Ran svs (some found))
    (hx : x ∈ found) : Found pol svs sender x.1 := by
  obtain ⟨us, _, may, rfl, -, hrest⟩ := ran_bind.mp h
  rcases ran_ite.mp hrest with ⟨-, hnone⟩ | ⟨-, hrest₁⟩
  · cases (ran_pure.mp hnone).2
  obtain ⟨vs, _, out, rfl, hways, hend⟩ := ran_bind.mp hrest₁
  obtain ⟨rfl, heq⟩ := ran_pure.mp hend
  obtain rfl := Option.some.inj heq
  obtain ⟨d, hd⟩ := Gather.mem_keys_gather.mp (mem_map.mpr ⟨x, hx, rfl⟩)
  exact (ran_ways (x := (x.1, d)) hways hd).mono fun w hw => by simp [hw]

/-- Who is handed over was in the map, and had the ID when it was resolved. -/
theorem ran_handOver {batch : VoiceBatch}
    (h : (Live.handOver order ref frame found).Ran svs (some batch)) {r : VoiceRecipient}
    (hr : r ∈ batch.recipients) :
    ∃ x ∈ found, ∃ sv ∈ svs, sv.state.registry.ref x.1 = some r.session := by
  obtain ⟨us, vs, canonical, rfl, hloop, hsend⟩ := ran_bind.mp h
  obtain ⟨_, _, rfl, hrest⟩ := ran_get_bind hsend
  rcases ran_ite.mp hrest with ⟨-, hnone⟩ | ⟨-, hrest₁⟩
  · cases (ran_pure.mp hnone).2
  obtain ⟨_, _, rs, rfl, hloop', hend⟩ := ran_bind.mp hrest₁
  obtain ⟨rfl, heq⟩ := ran_pure.mp hend
  obtain rfl := Option.some.inj heq
  obtain ⟨c, hc, _, out, -, hround, hmem⟩ := hloop'.of_mem_collect hr
  have hsession : r.session = c.session := by
    obtain ⟨_, _, rfl, hrest⟩ := ran_get_bind hround
    rcases ran_ite.mp hrest with ⟨-, hnone⟩ | ⟨-, hrest₁⟩
    · obtain ⟨-, rfl⟩ := ran_pure.mp hnone
      cases hmem
    obtain ⟨_, _, _, rfl, -, hrest₂⟩ := ran_bind.mp hrest₁
    obtain ⟨_, _, _, rfl, -, hend⟩ := ran_bind.mp hrest₂
    obtain ⟨-, rfl⟩ := ran_pure.mp hend
    rw [mem_singleton.mp hmem]
  obtain ⟨x, hx, us', out', hsub, hround', hmem'⟩ := hloop.of_mem_collect hc
  obtain ⟨sv, _, rfl, hend'⟩ := ran_get_bind hround'
  obtain ⟨rfl, rfl⟩ := ran_pure.mp hend'
  obtain ⟨ref', hsv, rfl⟩ := Option.map_eq_some_iff.mp (Option.mem_toList.mp hmem')
  refine ⟨x, (order.recipients_perm _).mem_iff.mp hx, sv, ?_, hsession ▸ hsv⟩
  exact mem_append_left _ (hsub (by simp))

variable {sv : Server}

theorem owner_of_ref (h : sv.state.registry.ref sid = some ref) : ref ∈ owners sv := by
  obtain ⟨e, he, rfl⟩ := Option.map_eq_some_iff.mp h
  exact mem_append_right _ (mem_map_of_mem (mem_of_find?_eq_some he))

theorem owner_of_mem {u : User} (h : u ∈ sv.state.server.users.bySession) : u.ref ∈ owners sv :=
  mem_append_left _ (mem_map_of_mem h)

/-- Who has an ID when it is resolved is the session that was found under it, if no ID passes on. -/
theorem Found.qualified {us : List Server} (h : Found pol us sender sid)
    (hstays : ∀ w ∈ us, Stays w sv) (href : sv.state.registry.ref sid = some ref) :
    Qualified pol us sender ref := by
  obtain rfl := sessionID_of_ref href
  have hsame : ∀ w ∈ us, ∀ b ∈ owners w, b.sessionID = ref.sessionID → b = ref :=
    fun w hw => (hstays w hw ref (owner_of_ref href)).1
  obtain ⟨⟨cid, hreached, w, hw, hlisted⟩, us', hsub, hfilter⟩ := h
  obtain ⟨ref', ⟨w₁, hw₁, href'⟩, ⟨w₂, hw₂, hactive⟩, w₃, hw₃, m, hm, hdeaf⟩ :=
    ran_audioFilterRecipient hfilter
  obtain rfl := hsame w₁ (hsub hw₁) ref' (owner_of_ref href') (sessionID_of_ref href')
  refine ⟨⟨cid, hreached, w, hw, ?_⟩, ⟨w₂, hsub hw₂, hactive⟩, w₃, hsub hw₃, m, hm, ?_, hdeaf⟩
  · rcases hlisted with hocc | hlis
    · obtain ⟨u, hu, hchan, hsid⟩ := mem_sessionIDsInChannel.mp hocc
      exact .inl ⟨u, hu, hsame w hw u.ref (owner_of_mem hu) hsid, hchan⟩
    · have hl := mem_sessionIDsIn.mp hlis
      exact .inr ⟨hl, (hstays w hw ref' (owner_of_ref href)).2 ⟨_, hl, rfl⟩⟩
  · obtain ⟨u, hu, rfl⟩ := Option.map_eq_some_iff.mp hm
    obtain ⟨hmem, hsid⟩ := UserManager.mem_of_snapshot hu
    exact hsame w₃ (hsub hw₃) u.ref (owner_of_mem hmem) hsid

end ran

/-- **Voice is bound to the session that qualified**: a frame of normal voice is routed while the
others do anything at all to the tables, as long as no session ID passes on between two accesses.
Then every session in the batch was itself found in or listening to a channel that is reached, and
passed the filter, in the part of the call that collects the recipients. -/
theorem voice_bound_to_session (pol : Policy) (order : Shuffle) (sender : SessionRef)
    (frame : Frame) (sv : Server) (sched : List (Beside.Action Server))
    (h : Along Beside.step (Beside.Follows Stays)
      (Beside.start sv (Live.routeNormal pol order sender frame)) sched) (batch : VoiceBatch)
    (hdone : (run Beside.step (Beside.start sv (Live.routeNormal pol order sender frame))
      sched).call = .done (some batch)) :
    ∃ us vs found,
      (run Beside.step (Beside.start sv (Live.routeNormal pol order sender frame)) sched).seen =
        us ++ vs ∧
      (Live.gathering pol order sender.sessionID frame).Ran us (some found) ∧
      ∀ r ∈ batch.recipients, Qualified pol us sender.sessionID r.session := by
  have hpair := Beside.pairwise_of_follows h
  have hran := Beside.ran hdone
  generalize (run Beside.step (Beside.start sv (Live.routeNormal pol order sender frame))
    sched).seen = svs at hpair hran ⊢
  obtain ⟨us, vs, o, rfl, hgather, hrest⟩ := ran_bind.mp hran
  cases o with
  | none => cases (ran_pure.mp hrest).2
  | some found =>
    refine ⟨us, vs, found, rfl, hgather, fun r hr => ?_⟩
    obtain ⟨x, hx, w, hw, href⟩ := ran_handOver hrest hr
    exact (ran_gathering hgather hx).qualified
      (fun w' hw' => (pairwise_append.mp hpair).2.2 w' hw' w hw) href

/-! ### Two calls -/

section calls

open ServerOps (Config step newSite client)

instance (sv sv' : Server) : Decidable (Stays sv sv') :=
  inferInstanceAs (Decidable (∀ a ∈ owners sv',
    (∀ b ∈ owners sv, b.sessionID = a.sessionID → b = a) ∧
      ((∃ l ∈ sv.state.listeners, l.1 = a.sessionID) → a ∈ owners sv)))

/-- New users are put into channel 1, if there is one. -/
def lobby : Config := ⟨plainPolicy, 1⟩

/-- Two users in the root channel, and then a channel for those who come later. -/
def waiting : Server where
  state := (run (ServerOps.step lobby) newSite [.login (client 7 "alice") "local",
    .login (client 8 "bob") "local", .restCreate 1 0 "Lobby" "" 0 false 0]).state
  channelCrypto := []

/-- Other operations, between two accesses. -/
def meanwhile (ops : List ServerOps.Op) : Beside.Action Server :=
  .others fun sv => { sv with state := (run (ServerOps.step lobby) ⟨sv.state, [0, 1]⟩ ops).state }

def asRead : Shuffle := ⟨id, id, fun _ => .refl _, fun _ => .refl _⟩

/-- The first user speaks; when the recipients are collected, others have their turn. -/
def schedule (ops : List ServerOps.Op) : List (Beside.Action Server) :=
  List.replicate 12 .turn ++ [meanwhile ops] ++ List.replicate 5 .turn

def call (ops : List ServerOps.Op) : Beside Server (Option VoiceBatch) :=
  run Beside.step (Beside.start waiting (Live.routeNormal plainPolicy asRead ⟨1, 1⟩ plainFrame))
    (schedule ops)

def batchOf (c : Beside Server (Option VoiceBatch)) : Option (List SessionRef) :=
  (c.call.result.bind id).map fun b => b.recipients.map VoiceRecipient.session

/-- A third user comes while the call goes on. -/
theorem voice_bound_to_session_new_id :
    batchOf (call [.login (client 9 "carol") "local"]) = some [⟨2, 2⟩] ∧
    ∃ us vs, (call [.login (client 9 "carol") "local"]).seen = us ++ vs ∧
      Qualified plainPolicy us 1 ⟨2, 2⟩ := by
  have hbatch : batchOf (call [.login (client 9 "carol") "local"]) = some [⟨2, 2⟩] := by
    decide +kernel
  refine ⟨hbatch, ?_⟩
  obtain ⟨batch, hdone, hsessions⟩ := Option.map_eq_some_iff.mp hbatch
  obtain ⟨o, hresult, rfl⟩ := Option.bind_eq_some_iff.mp hdone
  obtain ⟨us, vs, found, hseen, -, hall⟩ := voice_bound_to_session plainPolicy asRead ⟨1, 1⟩
    plainFrame waiting (schedule [.login (client 9 "carol") "local"]) (by decide +kernel) batch
    (eq_done_of_result hresult)
  obtain ⟨r, hr, href⟩ : ∃ r ∈ batch.recipients, r.session = ⟨2, 2⟩ := by
    rw [← mem_map, hsessions]
    exact mem_cons_self
  exact ⟨us, vs, hseen, href ▸ hall r hr⟩

/-- The second user goes, and the third, who is put into another channel, gets its ID and the
frame. -/
theorem newcomer_hears :
    let taken := call [.disconnect ⟨2, 2⟩, .login (client 9 "carol") "local"]
    batchOf taken = some [⟨2, 3⟩] ∧
    ∀ us vs, taken.seen = us ++ vs → ¬Qualified plainPolicy us 1 ⟨2, 3⟩ := by
  refine ⟨by decide +kernel, fun us vs hseen hq => ?_⟩
  have hfacts : ∀ sv ∈ (call [.disconnect ⟨2, 2⟩, .login (client 9 "carol") "local"]).seen,
      getChan sv.state 1 = 0 ∧ getLinkedChans sv.state 0 = [] ∧ sv.state.listeners = [] ∧
        ∀ u ∈ sv.state.server.users.bySession, u.ref = ⟨2, 3⟩ → u.channelID = 1 := by
    decide +kernel
  have hin : ∀ sv ∈ us, sv ∈ us ++ vs := fun sv hsv => mem_append_left vs hsv
  rw [hseen] at hfacts
  obtain ⟨cid, hreached, sv, hsv, hpresent⟩ := hq.present
  have hcid : cid = 0 := by
    obtain ⟨a, ha, hhome | ⟨b, hb, hlinked⟩⟩ := hreached.routed
    · rw [hhome, (hfacts a (hin a ha)).1]
    · rw [(hfacts a (hin a ha)).1, (hfacts b (hin b hb)).2.1] at hlinked
      cases hlinked
  rcases hpresent with ⟨u, hu, href, hchan⟩ | ⟨hl, -⟩
  · have hone := (hfacts sv (hin sv hsv)).2.2.2 u hu href
    omega
  · rw [(hfacts sv (hin sv hsv)).2.2.1] at hl
    cases hl

end calls

end MumbleServer.Voice
