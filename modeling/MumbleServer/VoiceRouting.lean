import MumbleServer.LinkComponent
import MumbleServer.ModerationAuth
import MumbleServer.SingleFloat

/-! # Routing of voice

`internal/audio/router.go`, `RouteRef`, with the functions the server gives the router
(`internal/mumble/handlers.go`).  Normal voice goes to the occupants and listeners of the channels
that are linked with the sender's, as far as the sender may speak there.  Whoever is reached in
several ways is put into the batch once, with the smallest context and the largest volume.

Maps are read in no particular order: `Order` gives the order in which the users of a channel and
the recipients come, and nothing depends on it. -/

namespace MumbleServer.Voice

open List SingleFloat
open Acl (Permission Subject subjectOf)
open Moderation (Policy State Member aclCheck)

/-! ### Frames and deliveries -/

abbrev Context := UInt8

def contextNormal : Context := 0
def contextShout : Context := 1
def contextWhisper : Context := 2
def contextListen : Context := 3

/-- `audio.Frame`; the position as its bits. -/
structure Frame where
  codec : UInt8
  target : UInt32
  senderSession : ℕ
  frameNumber : UInt64
  opusData : List UInt8
  position : UInt32 × UInt32 × UInt32
  hasPosition : Bool
  isTerminator : Bool
deriving DecidableEq

/-- `audio.Delivery`; the volume as its bits. -/
structure Delivery where
  frame : Frame
  context : Context
  volumeAdjustment : UInt32
deriving DecidableEq

def smallerContext (a b : Context) : Context := if b < a then b else a

def mergeDelivery (a b : Delivery) : Delivery :=
  { a with
    context := smallerContext a.context b.context
    volumeAdjustment := SingleFloat.larger a.volumeAdjustment b.volumeAdjustment }

structure Recipient where
  sessionID : ℕ
  session : SessionRef
  delivery : Delivery
deriving DecidableEq

structure VoiceRecipient where
  session : SessionRef
  context : Context
  volume : UInt32
  hasPosition : Bool
  forceTunnel : Bool
deriving DecidableEq

structure VoiceBatch where
  sender : SessionRef
  frame : Frame
  recipients : List VoiceRecipient
deriving DecidableEq

/-! ### The server -/

/-- What the voice path reads; `channelCrypto` has the crypto mode of every channel. -/
structure Server where
  state : State
  channelCrypto : List (ℕ × String)

section lookups
variable (st : State)

def sessionIDsInChannel (cid : ℕ) : List ℕ :=
  (st.server.users.bySession.filter fun u => decide (u.channelID = cid)).map User.sessionID

def sessionIDsIn (cid : ℕ) : List ℕ :=
  Channels.sortedLinkIDs ((st.listeners.filter fun l => decide (l.2 = cid)).map Prod.fst)

def volume (sid cid : ℕ) : UInt32 := (st.volumes.lookup (sid, cid)).getD SingleFloat.one

/-- The flags that silence a session. -/
def silenced (v : Moderation.VoiceState) : Bool := v.mute || v.suppress || v.selfMute

/-- A session that is Active. -/
def activeID (sid : ℕ) : Bool := (st.registry.ref sid).any st.registry.active

def canSenderSpeak (sid : ℕ) : Bool :=
  activeID st sid && (st.member sid).any fun m => !silenced m.profile.toVoiceState

def canSenderSpeakInChannel (pol : Policy) (sid cid : ℕ) : Bool :=
  (st.member sid).any fun m => !silenced m.profile.toVoiceState &&
    aclCheck pol st.server ⟨sid, m.user.userID, 0⟩ cid Permission.speak

def audioFilterRecipient (sid : ℕ) : Bool :=
  activeID st sid && (st.member sid).any fun m => !m.profile.deaf && !m.profile.selfDeaf

def getChan (sid : ℕ) : ℕ := ((st.server.users.snapshot sid).map fun u => u.channelID).getD 0

def getLinkedChans (cid : ℕ) : List ℕ :=
  (st.server.world.channels.connectedChannelIDs cid).filter fun id => decide (id ≠ cid)

end lookups

def channelHasMixedCrypto (sv : Server) (cid : ℕ) : Bool :=
  let modes := (sv.state.server.world.channels.connectedChannelIDs cid).filterMap fun id =>
    (sv.channelCrypto.lookup id).filter fun m => decide (m ≠ "")
  modes.any (fun m => decide (m = "mixed")) || decide (1 < modes.dedup.length)

/-- A recipient in the batch; the position is for those with the plugin context of the speaker. -/
def voiceRecipient (sv : Server) (sender : SessionRef) (r : Recipient) : VoiceRecipient where
  session := r.session
  context := r.delivery.context
  volume := r.delivery.volumeAdjustment
  hasPosition := r.delivery.frame.hasPosition &&
    match sv.state.member sender.sessionID, sv.state.member r.sessionID with
    | some speaker, some target =>
      decide (speaker.profile.pluginContext = target.profile.pluginContext)
    | _, _ => false
  forceTunnel := (sv.state.member r.sessionID).any fun target =>
    channelHasMixedCrypto sv target.user.channelID

/-- `SendVoice`: the batch that is dispatched. -/
def sendVoice (sv : Server) (sender : SessionRef) (frame : Frame) (recipients : List Recipient) :
    Option VoiceBatch :=
  if sv.state.registry.active sender = false then none
  else some {
    sender := sender
    frame := frame
    recipients := (recipients.filter fun r => sv.state.registry.active r.session).map
      (voiceRecipient sv sender) }

/-! ### The router -/

/-- The orders in which maps are read. -/
structure Order where
  users : ℕ → List ℕ
  recipients : List (ℕ × Delivery) → List (ℕ × Delivery)

/-- Everything is read once. -/
structure Order.Of (st : State) (order : Order) : Prop where
  users : ∀ cid, (order.users cid).Perm (sessionIDsInChannel st cid)
  recipients : ∀ l, (order.recipients l).Perm l

section router
variable (pol : Policy) (st : State) (order : Order) (sender : ℕ) (frame : Frame)

/-- The calls of `add` for a channel. -/
def waysIn (cid : ℕ) : List (ℕ × Delivery) :=
  if canSenderSpeakInChannel st pol sender cid = false then []
  else (order.users cid).map (fun sid => (sid, ⟨frame, contextNormal, SingleFloat.one⟩)) ++
    (sessionIDsIn st cid).map fun sid => (sid, ⟨frame, contextListen, volume st sid cid⟩)

/-- What `add` lets through. -/
def admitted (w : ℕ × Delivery) : Bool := decide (w.1 ≠ sender) && audioFilterRecipient st w.1

/-- The channels that are gone through; the first one is the sender's. -/
def routedChannels : List ℕ := getChan st sender :: getLinkedChans st (getChan st sender)

/-- `recipients`. -/
def collect : List (ℕ × Delivery) :=
  Gather.gather mergeDelivery
    (((routedChannels st sender).flatMap (waysIn pol st order sender frame)).filter
      (admitted st sender))

/-- `canonical`. -/
def resolved : List Recipient :=
  (order.recipients (collect pol st order sender frame)).filterMap fun w =>
    (st.registry.ref w.1).map fun ref => ⟨w.1, ref, w.2⟩

end router

/-- `RouteRef`; the resolution of voice targets is a parameter of the router. -/
def routeRef (pol : Policy) (sv : Server) (resolveVoiceTarget : ℕ → UInt8 → Frame → List Recipient)
    (order : Order) (senderRef : SessionRef) (f : Frame) : Option VoiceBatch :=
  if 31 < f.target then none
  else
    let frame := { f with senderSession := senderRef.sessionID }
    if 0 < f.target ∧ f.target < 31 then
      sendVoice sv senderRef frame
        (resolveVoiceTarget senderRef.sessionID f.target.toUInt8 frame)
    else if f.target = 31 then
      sendVoice sv senderRef frame [⟨senderRef.sessionID, senderRef, ⟨frame, contextNormal, 0⟩⟩]
    else if canSenderSpeak sv.state senderRef.sessionID = false then none
    else sendVoice sv senderRef frame (resolved pol sv.state order senderRef.sessionID frame)

/-! ### The best of several ways -/

/-- The smallest context and the largest volume over some ways. -/
structure Best (way : Context → UInt32 → Prop) (c : Context) (v : UInt32) : Prop where
  context : ∃ v', way c v'
  least : ∀ c' v', way c' v' → c ≤ c'
  volume : ∃ c', way c' v
  largest : ∀ c' v', way c' v' → SingleFloat.gt v' v = false

theorem picks_smallerContext :
    Gather.Picks (fun _ => True) smallerContext fun a b : Context => b ≤ a where
  pick a b := by
    unfold smallerContext
    split_ifs
    · exact .inr rfl
    · exact .inl rfl
  left a b _ _ := by
    unfold smallerContext
    split_ifs with h
    · exact UInt8.le_of_lt h
    · exact UInt8.le_refl a
  right a b _ _ := by
    unfold smallerContext
    split_ifs with h
    · exact UInt8.le_refl b
    · exact UInt8.not_lt.mp h
  refl a _ := UInt8.le_refl a
  trans _ _ _ _ _ _ h h' := UInt8.le_trans h' h

variable {d : Delivery}

theorem best_of_mergeAll {vs : List Delivery} (h : Gather.mergeAll mergeDelivery vs = some d)
    (hnum : ∀ x ∈ vs, isNaN x.volumeAdjustment = false) :
    Best (fun c v => ∃ x ∈ vs, x.context = c ∧ x.volumeAdjustment = v) d.context
      d.volumeAdjustment := by
  obtain ⟨⟨x, hx, hcx⟩, hleast⟩ := picks_smallerContext.mergeAll (f := Delivery.context)
    (fun _ _ => rfl) (fun _ _ => trivial) h
  obtain ⟨⟨y, hy, hvy⟩, hlargest⟩ := picks_larger.mergeAll
    (f := Delivery.volumeAdjustment) (fun _ _ => rfl) hnum h
  refine ⟨⟨_, x, hx, hcx.symm, rfl⟩, ?_, ⟨_, y, hy, rfl, hvy.symm⟩, ?_⟩
  · rintro _ _ ⟨z, hz, rfl, rfl⟩
    exact hleast z hz
  · rintro _ _ ⟨z, hz, rfl, rfl⟩
    exact hlargest z hz

/-! ### Who is reached, and how -/

/-- The ways in which normal voice reaches a session: in a channel of the link component where the
sender may speak, as an occupant or as a listener. -/
inductive Way (pol : Policy) (st : State) (sender : Member) : ℕ → Context → UInt32 → Prop
  | occupant {cid : ℕ} {u : User} :
      st.server.world.channels.Connected sender.user.channelID cid →
      aclCheck pol st.server (subjectOf sender.user) cid Permission.speak = true →
      u ∈ st.server.users.bySession → u.channelID = cid →
      Way pol st sender u.sessionID contextNormal SingleFloat.one
  | listener {sid cid : ℕ} :
      st.server.world.channels.Connected sender.user.channelID cid →
      aclCheck pol st.server (subjectOf sender.user) cid Permission.speak = true →
      (sid, cid) ∈ st.listeners → Way pol st sender sid contextListen (volume st sid cid)

/-- An Active session that is not deafened. -/
structure Hears (st : State) (ref : SessionRef) : Prop where
  active : st.registry.active ref = true
  undeafened : ∃ m, st.member ref.sessionID = some m ∧ m.profile.deaf = false ∧
    m.profile.selfDeaf = false

section recipients
variable {pol : Policy} {st : State} {m : Member} {sid : ℕ}
variable {cid : ℕ}

theorem sessionID_of_member (h : st.member sid = some m) : m.user.sessionID = sid := by
  obtain ⟨u, hu, rfl⟩ := Option.map_eq_some_iff.mp h
  exact (UserManager.mem_of_snapshot hu).2

/-- A subject without a generation is the session that has the ID. -/
theorem aclCheck_noGeneration (h : st.member sid = some m) (cid : ℕ) (perm : Permission) :
    aclCheck pol st.server ⟨sid, m.user.userID, 0⟩ cid perm =
      aclCheck pol st.server (subjectOf m.user) cid perm := by
  obtain ⟨u, hu, rfl⟩ := Option.map_eq_some_iff.mp h
  obtain rfl := (UserManager.mem_of_snapshot hu).2
  have hresolve : Acl.resolveUser st.server.users ⟨u.sessionID, u.userID, 0⟩ =
      Acl.resolveUser st.server.users (subjectOf u) := by
    unfold Acl.resolveUser subjectOf
    dsimp only
    rw [hu]
    simp
  have hperms : Moderation.aclPermissions pol st.server ⟨u.sessionID, u.userID, 0⟩ cid =
      Moderation.aclPermissions pol st.server (subjectOf u) cid := by
    simp only [Moderation.aclPermissions, GuardedCache.Source.direct, Acl.source,
      Acl.permissionsStart, hresolve]
    cases Acl.resolveUser st.server.users (subjectOf u) with
    | error e => rfl
    | ok v =>
      dsimp only [subjectOf]
      split_ifs <;> rfl
  rw [aclCheck, aclCheck, hperms]

variable {ref : SessionRef} {r : Registry}

theorem ref_of_active (h : r.active ref = true) : r.ref ref.sessionID = some ref := by
  unfold Registry.active at h
  cases hs : r.snapshot ref with
  | none =>
    rw [hs] at h
    cases h
  | some e =>
    obtain ⟨he, href⟩ := Registry.snapshot_eq_some.mp hs
    rw [Registry.ref, he, Option.map_some, href]

theorem sessionID_of_ref (h : r.ref sid = some ref) : ref.sessionID = sid := by
  obtain ⟨e, he, rfl⟩ := Option.map_eq_some_iff.mp h
  simpa using find?_some he

theorem activeID_iff : activeID st sid = true ↔
    ∃ ref, ref.sessionID = sid ∧ st.registry.active ref = true := by
  unfold activeID
  rw [Option.any_eq_true]
  constructor
  · rintro ⟨ref, href, hact⟩
    exact ⟨ref, sessionID_of_ref href, hact⟩
  · rintro ⟨ref, rfl, hact⟩
    exact ⟨ref, ref_of_active hact, hact⟩

theorem mem_routedChannels (h : st.member sid = some m) :
    cid ∈ routedChannels st sid ↔
      st.server.world.channels.Connected m.user.channelID cid := by
  obtain ⟨u, hu, rfl⟩ := Option.map_eq_some_iff.mp h
  have hchan : getChan st sid = u.channelID := by rw [getChan, hu]; rfl
  simp only [routedChannels, getLinkedChans, hchan, mem_cons, mem_filter,
    mem_connectedChannelIDs, decide_eq_true_eq]
  constructor
  · rintro (rfl | ⟨⟨-, hconn⟩, -⟩)
    · exact .refl
    · exact hconn
  · intro hconn
    rcases hconn.cases_head with heq | ⟨d, hlink, -⟩
    · exact .inl heq.symm
    · by_cases hcid : cid = u.channelID
      · exact .inl hcid
      · exact .inr ⟨⟨hlink.2.1, hconn⟩, hcid⟩

theorem mem_sessionIDsInChannel : sid ∈ sessionIDsInChannel st cid ↔
    ∃ u ∈ st.server.users.bySession, u.channelID = cid ∧ u.sessionID = sid := by
  simp [sessionIDsInChannel, and_assoc]

theorem mem_sessionIDsIn : sid ∈ sessionIDsIn st cid ↔ (sid, cid) ∈ st.listeners := by
  simp [sessionIDsIn, mem_sortedLinkIDs]

theorem canSenderSpeakInChannel_iff (h : st.member sid = some m)
    (hm : silenced m.profile.toVoiceState = false) :
    canSenderSpeakInChannel st pol sid cid = true ↔
      aclCheck pol st.server (subjectOf m.user) cid Permission.speak = true := by
  rw [canSenderSpeakInChannel, h, Option.any_some, hm, aclCheck_noGeneration h]
  simp

theorem admitted_iff {sender : ℕ} {w : ℕ × Delivery} : admitted st sender w = true ↔
    w.1 ≠ sender ∧ ∃ ref, ref.sessionID = w.1 ∧ Hears st ref := by
  unfold admitted audioFilterRecipient
  rw [Bool.and_eq_true, Bool.and_eq_true, decide_eq_true_eq, activeID_iff, Option.any_eq_true]
  constructor
  · rintro ⟨hne, ⟨ref, href, hact⟩, t, ht, hdeaf⟩
    refine ⟨hne, ref, href, hact, t, href ▸ ht, ?_⟩
    simpa using hdeaf
  · rintro ⟨hne, ref, href, hact, t, ht, hdeaf⟩
    exact ⟨hne, ⟨ref, href, hact⟩, t, href ▸ ht, by simpa using hdeaf⟩

theorem mem_ways {order : Order} (horder : order.Of st) (h : st.member sid = some m)
    (hm : silenced m.profile.toVoiceState = false) {frame : Frame} {dst : ℕ} :
    (dst, d) ∈ (routedChannels st sid).flatMap (waysIn pol st order sid frame) ↔
      d.frame = frame ∧ Way pol st m dst d.context d.volumeAdjustment := by
  rw [mem_flatMap]
  constructor
  · rintro ⟨cid, hcid, hw⟩
    have hconn := (mem_routedChannels h).mp hcid
    unfold waysIn at hw
    split_ifs at hw with hspeak
    · cases hw
    · rw [Bool.not_eq_false, canSenderSpeakInChannel_iff h hm] at hspeak
      rcases mem_append.mp hw with hw | hw
      · obtain ⟨dst, hto, heq⟩ := mem_map.mp hw
        cases heq
        obtain ⟨u, hu, huc, rfl⟩ := mem_sessionIDsInChannel.mp ((horder.users cid).mem_iff.mp hto)
        exact ⟨rfl, .occupant hconn hspeak hu huc⟩
      · obtain ⟨dst, hto, heq⟩ := mem_map.mp hw
        cases heq
        exact ⟨rfl, .listener hconn hspeak (mem_sessionIDsIn.mp hto)⟩
  · rintro ⟨rfl, hway⟩
    obtain ⟨f, c, v⟩ := d
    have hin : ∀ cid, aclCheck pol st.server (subjectOf m.user) cid Permission.speak = true →
        ¬canSenderSpeakInChannel st pol sid cid = false := by
      intro cid hspeak
      rw [Bool.not_eq_false, canSenderSpeakInChannel_iff h hm]
      exact hspeak
    cases hway with
    | @occupant cid u hconn hspeak hu huc =>
      refine ⟨cid, (mem_routedChannels h).mpr hconn, ?_⟩
      rw [waysIn, if_neg (hin cid hspeak)]
      refine mem_append_left _ (mem_map.mpr ⟨u.sessionID, ?_, rfl⟩)
      exact (horder.users cid).mem_iff.mpr (mem_sessionIDsInChannel.mpr ⟨u, hu, huc, rfl⟩)
    | @listener _ cid hconn hspeak hl =>
      refine ⟨cid, (mem_routedChannels h).mpr hconn, ?_⟩
      rw [waysIn, if_neg (hin cid hspeak)]
      exact mem_append_right _ (mem_map.mpr ⟨dst, mem_sessionIDsIn.mpr hl, rfl⟩)

theorem number_volume (hnum : ∀ v ∈ st.volumes, isNaN v.2 = false) (dst cid : ℕ) :
    isNaN (volume st dst cid) = false := by
  unfold volume
  cases hl : st.volumes.lookup (dst, cid) with
  | none => decide
  | some v =>
    obtain ⟨l₁, l₂, heq, -⟩ := lookup_eq_some_iff.mp hl
    exact hnum ((dst, cid), v) (by rw [heq]; simp)

theorem Way.number (hnum : ∀ v ∈ st.volumes, isNaN v.2 = false) {dst : ℕ}
    {c : Context} {v : UInt32} (h : Way pol st m dst c v) : isNaN v = false := by
  cases h with
  | occupant => decide
  | listener => exact number_volume hnum _ _

section collected
variable {order : Order} {frame : Frame} {dst : ℕ}

section
variable (horder : order.Of st) (h : st.member sid = some m)
  (hm : silenced m.profile.toVoiceState = false)
include horder h hm

theorem mem_keys_collect :
    dst ∈ (collect pol st order sid frame).map Prod.fst ↔
      dst ≠ sid ∧ (∃ ref, ref.sessionID = dst ∧ Hears st ref) ∧ ∃ c v, Way pol st m dst c v := by
  simp only [collect, Gather.mem_keys_gather, mem_filter, mem_ways horder h hm, admitted_iff]
  constructor
  · rintro ⟨d, ⟨-, hway⟩, hne, hears⟩
    exact ⟨hne, hears, _, _, hway⟩
  · rintro ⟨hne, hears, c, v, hway⟩
    exact ⟨⟨frame, c, v⟩, ⟨rfl, hway⟩, hne, hears⟩

theorem best_of_mem_collect (hnum : ∀ v ∈ st.volumes, isNaN v.2 = false)
    (hd : (dst, d) ∈ collect pol st order sid frame) :
    Best (Way pol st m dst) d.context d.volumeAdjustment := by
  have hkey : dst ∈ (collect pol st order sid frame).map Prod.fst := mem_map.mpr ⟨_, hd, rfl⟩
  obtain ⟨hne, hears, -⟩ := (mem_keys_collect horder h hm).mp hkey
  have hways : ∀ x, x ∈ Gather.valuesOf (((routedChannels st sid).flatMap
      (waysIn pol st order sid frame)).filter (admitted st sid)) dst ↔
      x.frame = frame ∧ Way pol st m dst x.context x.volumeAdjustment := by
    intro x
    rw [Gather.mem_valuesOf, mem_filter, mem_ways horder h hm, admitted_iff]
    exact ⟨And.left, fun hx => ⟨hx, hne, hears⟩⟩
  have hbest := best_of_mergeAll (Gather.mem_gather.mp hd)
    fun x hx => ((hways x).mp hx).2.number hnum
  convert hbest using 1
  funext c v
  refine propext ⟨fun hway => ⟨⟨frame, c, v⟩, (hways _).mpr ⟨rfl, hway⟩, rfl, rfl⟩, ?_⟩
  rintro ⟨x, hx, rfl, rfl⟩
  exact ((hways x).mp hx).2

end

theorem mem_resolved (horder : order.Of st) {r : Recipient} :
    r ∈ resolved pol st order sid frame ↔
      (r.sessionID, r.delivery) ∈ collect pol st order sid frame ∧
        st.registry.ref r.sessionID = some r.session := by
  unfold resolved
  rw [mem_filterMap]
  constructor
  · rintro ⟨⟨k, d⟩, hw, hr⟩
    obtain ⟨ref, href, rfl⟩ := Option.map_eq_some_iff.mp hr
    exact ⟨(horder.recipients _).mem_iff.mp hw, href⟩
  · rintro ⟨hw, href⟩
    exact ⟨(r.sessionID, r.delivery), (horder.recipients _).mem_iff.mpr hw, by rw [href]; rfl⟩

theorem nodup_resolved (horder : order.Of st) :
    ((resolved pol st order sid frame).map Recipient.sessionID).Nodup := by
  have hkeys : ((order.recipients (collect pol st order sid frame)).map Prod.fst).Nodup :=
    ((horder.recipients _).map Prod.fst).nodup_iff.mpr (Gather.nodup_gather _)
  refine hkeys.sublist ?_
  unfold resolved
  induction order.recipients (collect pol st order sid frame) with
  | nil => exact .slnil
  | cons w rest ih =>
    cases hw : st.registry.ref w.1 with
    | none => simpa [hw] using ih.trans (sublist_cons_self _ _)
    | some ref => simpa [hw] using ih

theorem mem_sessions (horder : order.Of st) (h : st.member sid = some m)
    (hm : silenced m.profile.toVoiceState = false) :
    (∃ r ∈ resolved pol st order sid frame, st.registry.active r.session = true ∧
        r.session = ref) ↔
      ref.sessionID ≠ sid ∧ Hears st ref ∧ ∃ c v, Way pol st m ref.sessionID c v := by
  constructor
  · rintro ⟨r, hr, -, rfl⟩
    obtain ⟨hmem, href⟩ := (mem_resolved horder).mp hr
    have hkey : r.sessionID ∈ (collect pol st order sid frame).map Prod.fst :=
      mem_map.mpr ⟨_, hmem, rfl⟩
    obtain ⟨hne, ⟨ref, hid, hears⟩, hway⟩ := (mem_keys_collect horder h hm).mp hkey
    have heq : some ref = some r.session := by rw [← ref_of_active hears.active, hid, href]
    obtain rfl := Option.some.inj heq
    rw [hid]
    exact ⟨hne, hears, hway⟩
  · rintro ⟨hne, hears, hway⟩
    have hkey : ref.sessionID ∈ (collect pol st order sid frame).map Prod.fst :=
      (mem_keys_collect horder h hm).mpr ⟨hne, ⟨ref, rfl, hears⟩, hway⟩
    obtain ⟨⟨k, d⟩, hmem, hk⟩ := mem_map.mp hkey
    obtain rfl : k = ref.sessionID := hk
    exact ⟨⟨ref.sessionID, ref, d⟩, (mem_resolved horder).mpr ⟨hmem, ref_of_active hears.active⟩,
      hears.active, rfl⟩

end collected

end recipients

/-- Without a way to anybody a batch of normal voice is empty. -/
theorem recipients_of_no_way (pol : Policy) (sv : Server)
    (resolveVoiceTarget : ℕ → UInt8 → Frame → List Recipient) {order : Order}
    (horder : order.Of sv.state) (sender : SessionRef) {f : Frame} (htarget : f.target = 0)
    {m : Member} (hm : sv.state.member sender.sessionID = some m)
    (hway : silenced m.profile.toVoiceState = false → ∀ dst c v, ¬Way pol sv.state m dst c v)
    {batch : VoiceBatch}
    (h : routeRef pol sv resolveVoiceTarget order sender f = some batch) :
    batch.recipients = [] := by
  unfold routeRef at h
  simp only [htarget] at h
  rw [if_neg (by decide), if_neg (by decide), if_neg (by decide)] at h
  split_ifs at h with hcan
  have hvoice : silenced m.profile.toVoiceState = false := by
    rw [Bool.not_eq_false, canSenderSpeak, hm, Option.any_some, Bool.and_eq_true] at hcan
    simpa using hcan.2
  have hnone : ∀ frame, resolved pol sv.state order sender.sessionID frame = [] := by
    intro frame
    refine eq_nil_iff_forall_not_mem.mpr fun r hr => ?_
    have hmem := ((mem_resolved horder).mp hr).1
    obtain ⟨-, -, c, v, hw⟩ := (mem_keys_collect horder hm hvoice).mp (mem_map.mpr ⟨_, hmem, rfl⟩)
    exact hway hvoice _ c v hw
  unfold sendVoice at h
  split_ifs at h
  obtain rfl := Option.some.inj h
  simp [hnone]

/-- **Normal voice reaches exactly the right sessions**: a frame of an Active sender who is not
silenced goes out in one batch.  Its recipients are the Active sessions, other than the sender and
not deafened, that are in or listen to a channel of the sender's link component where the sender
may speak, each once, with the smallest context and the largest volume over all ways, whatever the
order in which maps are read. -/
theorem normal_voice_recipients (pol : Policy) (sv : Server)
    (resolveVoiceTarget : ℕ → UInt8 → Frame → List Recipient) (order : Order)
    (horder : order.Of sv.state) (sender : SessionRef) (f : Frame) (m : Member)
    (hactive : sv.state.registry.active sender = true)
    (hmember : sv.state.member sender.sessionID = some m)
    (hunmuted : silenced m.profile.toVoiceState = false) (htarget : f.target = 0)
    (hnum : ∀ v ∈ sv.state.volumes, SingleFloat.isNaN v.2 = false) :
    ∃ batch, routeRef pol sv resolveVoiceTarget order sender f = some batch ∧
      batch.sender = sender ∧ batch.frame = { f with senderSession := sender.sessionID } ∧
      (batch.recipients.map VoiceRecipient.session).Nodup ∧
      (∀ ref, ref ∈ batch.recipients.map VoiceRecipient.session ↔
        ref.sessionID ≠ sender.sessionID ∧ Hears sv.state ref ∧
          ∃ c v, Way pol sv.state m ref.sessionID c v) ∧
      ∀ r ∈ batch.recipients, Best (Way pol sv.state m r.session.sessionID) r.context r.volume := by
  have hcan : canSenderSpeak sv.state sender.sessionID = true := by
    rw [canSenderSpeak, activeID_iff.mpr ⟨sender, rfl, hactive⟩, hmember]
    simp [hunmuted]
  have hroute : routeRef pol sv resolveVoiceTarget order sender f = some
      { sender := sender
        frame := { f with senderSession := sender.sessionID }
        recipients := ((resolved pol sv.state order sender.sessionID
          { f with senderSession := sender.sessionID }).filter fun r =>
            sv.state.registry.active r.session).map (voiceRecipient sv sender) } := by
    unfold routeRef sendVoice
    simp [htarget, hcan, hactive]
  refine ⟨_, hroute, rfl, rfl, ?_, fun ref => ?_, fun r hr => ?_⟩
  · have hids : ((resolved pol sv.state order sender.sessionID
        { f with senderSession := sender.sessionID }).map
          fun r => r.session.sessionID).Nodup := by
      rw [map_congr_left fun r hr => sessionID_of_ref ((mem_resolved horder).mp hr).2]
      exact nodup_resolved horder
    rw [map_map]
    refine List.Nodup.of_map SessionRef.sessionID ?_
    rw [map_map]
    exact hids.sublist (filter_sublist.map _)
  · rw [← mem_sessions horder hmember hunmuted]
    simp only [map_map, mem_map, mem_filter, and_assoc]
    exact Iff.rfl
  · obtain ⟨x, hx, rfl⟩ := mem_map.mp hr
    obtain ⟨hmem, href⟩ := (mem_resolved horder).mp (mem_filter.mp hx).1
    rw [← sessionID_of_ref href] at hmem
    exact best_of_mem_collect horder hmember hunmuted hnum hmem

/-- Two Active users in the root channel. -/
def twoUsers : Server where
  state :=
    { server := ⟨⟨1, [⟨0, 0, "Root", "", 0, 0, false, [], true⟩], ⟨[], [], []⟩, none, []⟩,
        (((UserManager.new 10).add ⟨⟨7, 0, false, "", false, false, 0, 0, [], []⟩, 0, 0, 0,
          "alice"⟩).1.add ⟨⟨8, 0, false, "", false, false, 0, 0, [], []⟩, 0, 0, 0, "bob"⟩).1⟩
      profiles := fun _ => {}
      registry := ⟨[("local", 1)],
        [⟨⟨1, 1⟩, "local", .active, true⟩, ⟨⟨2, 2⟩, "local", .active, true⟩]⟩
      listeners := [(2, 0)]
      volumes := [] }
  channelCrypto := []

def tableOrder (st : State) : Order := ⟨sessionIDsInChannel st, id⟩

theorem tableOrder_of (st : State) : (tableOrder st).Of st := ⟨fun _ => .refl _, fun _ => .refl _⟩

/-- A frame of normal voice. -/
def plainFrame : Frame := ⟨4, 0, 0, 1, [1, 2, 3], (0, 0, 0), false, false⟩

def plainPolicy : Policy := ⟨id, 0, 0, true, 0, 0⟩

theorem normal_voice_recipients_two :
    (routeRef plainPolicy twoUsers (fun _ _ _ => []) (tableOrder twoUsers.state) ⟨1, 1⟩
      plainFrame).map (fun b => b.recipients.map fun r => (r.session, r.context)) =
        some [(⟨2, 2⟩, contextNormal)] ∧
    ∃ batch, routeRef plainPolicy twoUsers (fun _ _ _ => []) (tableOrder twoUsers.state) ⟨1, 1⟩
      plainFrame = some batch ∧ (batch.recipients.map VoiceRecipient.session).Nodup := by
  refine ⟨by decide +kernel, ?_⟩
  obtain ⟨batch, hbatch, -, -, hnodup, -⟩ := normal_voice_recipients plainPolicy twoUsers
    (fun _ _ _ => []) (tableOrder twoUsers.state) (tableOrder_of _) ⟨1, 1⟩ plainFrame
    ⟨⟨⟨7, 0, false, "", false, false, 0, 0, [], []⟩, 1, 1, 1, "alice"⟩, {}⟩ (by decide +kernel)
    (by decide +kernel) (by decide +kernel) rfl (by decide)
  exact ⟨batch, hbatch, hnodup⟩

end MumbleServer.Voice
