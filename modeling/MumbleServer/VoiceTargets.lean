import MumbleServer.TreeWalk
import MumbleServer.VoiceRouting

/-! # Voice targets

`internal/mumble/voicetarget.go`: a client stores whom its whispers and shouts go to, sessions by
name and channels with their links, children and a group.  What is stored keeps the sessions that
are named by reference, so that a target does not pass to who gets the session ID next; channels,
groups and permissions are looked up anew for every packet.

The recipients are found one after the other while two maps are filled, one with what has been
found and one with the permissions that have been asked for.  `resolve_calls` says what comes of
it without the maps, and `resolved_target` who is reached. -/

namespace MumbleServer

open List UserManager Gather SingleFloat

namespace Channels

def children (cs : Channels) (id : ℕ) : List ℕ :=
  (cs.filter fun c => decide (c.parentID = id ∧ c.id ≠ rootChannelID)).map Channel.id

/-- `SubtreeIDs`; `none` would be a walk that does not end. -/
def subtreeIDs (cs : Channels) (id : ℕ) : Option (List ℕ) :=
  TreeWalk.preorder cs.children (cs.length + 1) id

end Channels

namespace Voice

open Acl (Permission subjectOf)
open Moderation (Policy State Member aclCheck)

/-! ### What is stored -/

/-- `messages.VoiceTargetTarget`. -/
structure Target where
  hasChannelID : Bool := false
  session : List ℕ := []
  channelID : ℕ := 0
  group : String := ""
  links : Bool := false
  children : Bool := false
deriving DecidableEq

structure VoiceTarget where
  id : UInt32
  targets : List Target
deriving DecidableEq

/-- `voiceTargetSpec`. -/
structure Spec where
  owner : SessionRef
  sessions : List (ℕ × SessionRef)
  channels : List Target
deriving DecidableEq

/-- `voiceTargets`. -/
abbrev Targets := List (ℕ × List (UInt8 × Spec))

/-- The target of a session under an ID. -/
def Targets.at (ts : Targets) (sid : ℕ) (tid : UInt8) : Option Spec :=
  (ts.lookup sid).bind fun l => l.lookup tid

/-- The session that has an ID and is bound. -/
def bound (st : State) (id : ℕ) : Option SessionRef :=
  ((st.server.users.snapshot id).map fun u => SessionRef.mk id u.sessionGeneration).filter
    fun ref => (st.registry.snapshot ref).isSome

/-- The sessions that a target names, by reference. -/
def namedSessions (st : State) (ids : List ℕ) : List (ℕ × SessionRef) :=
  ids.foldl (fun m id => (bound st id).elim m (AssocList.put m id)) []

def namedChannels (st : State) (targets : List Target) : List Target :=
  (targets.filter fun t => t.hasChannelID && st.server.world.channels.has t.channelID).map
    fun t => { t with session := [] }

def storeVoiceTarget (st : State) (ts : Targets) (c : SessionRef) (vt : VoiceTarget) : Targets :=
  match bound st c.sessionID with
  | none => ts
  | some owner =>
    if owner.generation ≠ c.generation then ts
    else
      let spec : Spec :=
        ⟨owner, namedSessions st (vt.targets.flatMap Target.session),
          namedChannels st vt.targets⟩
      let old := (ts.lookup c.sessionID).getD []
      let merged :=
        if spec.sessions = [] ∧ spec.channels = [] then AssocList.delete old vt.id.toUInt8
        else AssocList.put old vt.id.toUInt8 spec
      if merged = [] then AssocList.delete ts c.sessionID
      else AssocList.put ts c.sessionID merged

def handleVoiceTarget (st : State) (ts : Targets) (c : SessionRef) (vt : VoiceTarget) : Targets :=
  if st.registry.active c = false ∨ vt.id = 0 ∨ 30 < vt.id then ts
  else storeVoiceTarget st ts c vt

def Spec.without (spec : Spec) (sid : ℕ) : Spec :=
  { spec with sessions := AssocList.delete spec.sessions sid }

/-- The targets of another session without one that is gone; `none` if none are left. -/
def removeFrom (sid : ℕ) (e : ℕ × List (UInt8 × Spec)) : Option (ℕ × List (UInt8 × Spec)) :=
  if e.2.any fun t => (t.2.sessions.lookup sid).isSome then
    let updated := (e.2.map fun t => (t.1, t.2.without sid)).filter fun t =>
      decide (t.2.sessions ≠ [] ∨ t.2.channels ≠ [])
    if updated = [] then none else some (e.1, updated)
  else some e

def removeVoiceTargetsLocked (ts : Targets) (sid : ℕ) : Targets :=
  (AssocList.delete ts sid).filterMap (removeFrom sid)

/-! ### Whom a packet goes to -/

def memberOf (st : State) (u : User) : Member := ⟨u, st.profiles u.sessionID⟩

def snapshotByChannel (st : State) (cid : ℕ) : List User :=
  st.server.users.bySession.filter fun u => decide (u.channelID = cid)

def inGroup (pol : Policy) (st : State) (u : User) (cid : ℕ) (group : String) : Bool :=
  st.server.world.channels.has cid &&
    match (Acl.matchSelector pol.fold (Acl.parseSelector group) u.userID cid cid
      (some (Acl.viewer u))).on st.server.world with
    | .ok b => b
    | .error _ => false

def groupAllows (pol : Policy) (st : State) (t : Target) (cid : ℕ) (u : User) : Bool :=
  decide (t.group = "") || inGroup pol st u cid t.group

/-- The orders in which maps are read; the first argument is the place of a target in the list. -/
structure TargetOrder where
  sessions : List (ℕ × SessionRef) → List (ℕ × SessionRef)
  channels : ℕ → List ℕ → List ℕ
  users : ℕ → ℕ → List User

/-- Everything is read once. -/
structure TargetOrder.Of (st : State) (order : TargetOrder) : Prop where
  sessions : ∀ l, (order.sessions l).Perm l
  channels : ∀ i l, (order.channels i l).Perm l
  users : ∀ i cid, (order.users i cid).Perm (snapshotByChannel st cid)

/-- The frame of a delivery before it is set. -/
def noFrame : Frame := ⟨0, 0, 0, 0, [], (0, 0, 0), false, false⟩

/-- `MergeDelivery` for a recipient that is there. -/
def mergeRecipient (a b : Recipient) : Recipient :=
  { a with delivery := mergeDelivery a.delivery b.delivery }

/-- A call of `add`. -/
structure Call where
  member : Member
  context : Context
  volume : UInt32

/-- `recipients` with `seen`, and `permitted` with `checked`. -/
structure Work where
  recipients : List (ℕ × Recipient) := []
  permitted : List (ℕ × Bool) := []

section resolve
variable (pol : Policy) (st : State) (order : TargetOrder) (speaker : Member)

def mayWhisper (cid : ℕ) : Bool :=
  aclCheck pol st.server (subjectOf speaker.user) cid Permission.whisper

/-- `canWhisper`: every channel is asked for once. -/
def canWhisper (permitted : List (ℕ × Bool)) (cid : ℕ) : Bool × List (ℕ × Bool) :=
  match permitted.lookup cid with
  | some b => (b, permitted)
  | none => (mayWhisper pol st speaker cid, (cid, mayWhisper pol st speaker cid) :: permitted)

/-- The recipient that a call of `add` is about. -/
def Call.recipient (c : Call) : Recipient :=
  ⟨c.member.user.sessionID, c.member.user.ref, ⟨noFrame, c.context, c.volume⟩⟩

/-- What `add` lets through. -/
def Call.counts (c : Call) : Bool :=
  decide (c.member.user.sessionID ≠ speaker.user.sessionID) && !c.member.profile.deaf &&
    !c.member.profile.selfDeaf && st.registry.active c.member.user.ref

def add (recipients : List (ℕ × Recipient)) (c : Call) : List (ℕ × Recipient) :=
  if c.counts st speaker then
    Gather.insert mergeRecipient c.member.user.sessionID c.recipient recipients
  else recipients

/-- The loop over the sessions that are named. -/
def whisperTo (w : Work) (e : ℕ × SessionRef) : Work :=
  if st.registry.active e.2 = false then w
  else
    match st.server.users.snapshot e.1 with
    | none => w
    | some u =>
      if u.sessionGeneration ≠ e.2.generation then w
      else
        let (may, permitted) := canWhisper pol st speaker w.permitted u.channelID
        { recipients :=
            if may then add st speaker w.recipients
              ⟨memberOf st u, contextWhisper, SingleFloat.one⟩
            else w.recipients
          permitted := permitted }

/-- The calls of `add` in a channel: for its occupants, and for its listeners. -/
def shoutCalls (i : ℕ) (t : Target) (cid : ℕ) : List Call :=
  ((order.users i cid).filter (groupAllows pol st t cid)).map
      (fun u => ⟨memberOf st u, contextShout, SingleFloat.one⟩) ++
    (((sessionIDsIn st cid).filterMap st.server.users.snapshot).filter
      (groupAllows pol st t cid)).map
      fun u => ⟨memberOf st u, contextListen, volume st u.sessionID cid⟩

/-- The loop over the channels of a target. -/
def shoutInto (i : ℕ) (t : Target) (w : Work) (cid : ℕ) : Work :=
  let (may, permitted) := canWhisper pol st speaker w.permitted cid
  { recipients :=
      if may then (shoutCalls pol st order i t cid).foldl (add st speaker) w.recipients
      else w.recipients
    permitted := permitted }

/-- The channels of a target: itself, those it is linked with and those below it. -/
def reachedChannels (t : Target) : Option (List ℕ) :=
  let cs := st.server.world.channels
  let linked := if t.links then cs.connectedChannelIDs t.channelID else []
  (if t.children then cs.subtreeIDs t.channelID else some []).map fun below =>
    (t.channelID :: (linked ++ below)).dedup

/-- The loop over the targets that are channels. -/
def shoutAt (w : Work) (e : Target × ℕ) : Option Work :=
  if st.server.world.channels.has e.1.channelID = false then some w
  else
    (reachedChannels st e.1).map fun cids =>
      (order.channels e.2 cids).foldl (shoutInto pol st order speaker e.2 e.1) w

/-- The two loops of `resolveVoiceTarget`. -/
def resolveSpec (spec : Spec) : Option Work :=
  spec.channels.zipIdx.foldlM (shoutAt pol st order speaker)
    ((order.sessions spec.sessions).foldl (whisperTo pol st speaker) {})

end resolve

def resolveVoiceTarget (pol : Policy) (st : State) (ts : Targets) (order : TargetOrder) (sid : ℕ)
    (tid : UInt8) : Option (List Recipient) :=
  match ts.at sid tid, st.member sid with
  | some spec, some speaker =>
    if st.registry.active spec.owner = false ∨ silenced speaker.profile.toVoiceState then some []
    else (resolveSpec pol st order speaker spec).map fun w => w.recipients.map Prod.snd
  | _, _ => some []

def resolveVoiceTargetCanonical (pol : Policy) (st : State) (ts : Targets) (order : TargetOrder)
    (sid : ℕ) (tid : UInt8) (frame : Frame) : Option (List Recipient) :=
  (resolveVoiceTarget pol st ts order sid tid).map fun rs =>
    rs.map fun r => { r with delivery := { r.delivery with frame := frame } }

end Voice

/-! ### Below a channel -/

section subtree
variable {cs : Channels} {id d : ℕ}

theorem mem_children (hnodup : (cs.map Channel.id).Nodup) :
    d ∈ cs.children id ↔ d ≠ rootChannelID ∧ ∃ c, cs.getChannel d = some c ∧ c.parentID = id := by
  simp only [Channels.children, mem_map, mem_filter, decide_eq_true_eq]
  constructor
  · rintro ⟨c, ⟨hc, hparent, hroot⟩, rfl⟩
    exact ⟨hroot, c, getChannel_of_mem hnodup hc, hparent⟩
  · rintro ⟨hroot, c, hc, hparent⟩
    obtain rfl := id_of_getChannel hc
    exact ⟨c, ⟨mem_of_getChannel hc, hparent, hroot⟩, rfl⟩

variable (t : ChannelTree)

theorem arbor_children : TreeWalk.Arbor t.channels.children
    (fun id => ∃ c, t.channels.getChannel id = some c)
    (fun id => (t.channels.ancestorChain id).length) t.channels.length := by
  have hmem : ∀ {id d}, d ∈ t.channels.children id ↔ _ := mem_children t.ids_nodup
  refine ⟨fun id _ d hd => ?_, fun id _ => ?_, fun id id' d _ _ hd hd' => ?_,
    fun id hid d hd => ?_, fun id hid => ?_⟩
  · obtain ⟨-, c, hc, -⟩ := hmem.mp hd
    exact ⟨c, hc⟩
  · exact t.ids_nodup.sublist (filter_sublist.map _)
  · obtain ⟨-, c, hc, rfl⟩ := hmem.mp hd
    obtain ⟨-, c', hc', rfl⟩ := hmem.mp hd'
    rw [Option.some.inj (hc.symm.trans hc')]
  · obtain ⟨n, hn⟩ := hid
    obtain ⟨p, hp⟩ := t.path id n hn
    obtain ⟨hroot, c, hc, rfl⟩ := hmem.mp hd
    rw [ancestorChain_of_path hp, ancestorChain_of_path (.child hc hroot hp)]
    simp
  · obtain ⟨n, hn⟩ := hid
    obtain ⟨p, hp⟩ := t.path id n hn
    rw [ancestorChain_of_path hp, length_reverse]
    exact hp.length_le

theorem below_children_iff (hid : ∃ c, t.channels.getChannel id = some c) :
    TreeWalk.Below t.channels.children id d ↔ ∃ p, IsPath t.channels d p ∧ id ∈ p := by
  have hmem : ∀ {id d}, d ∈ t.channels.children id ↔ _ := mem_children t.ids_nodup
  constructor
  · intro hbelow
    induction hbelow with
    | refl =>
      obtain ⟨n, hn⟩ := hid
      obtain ⟨p, hp⟩ := t.path id n hn
      exact ⟨p, hp, mem_of_getLast? hp.getLast⟩
    | tail _ hd ih =>
      obtain ⟨p, hp, hin⟩ := ih
      obtain ⟨hroot, c, hc, rfl⟩ := hmem.mp hd
      exact ⟨_, .child hc hroot hp, mem_append_left _ hin⟩
  · rintro ⟨p, hp, hin⟩
    induction hp with
    | root _ =>
      rw [mem_singleton.mp hin]
      exact .refl
    | @child d c p hc hroot hp ih =>
      rcases mem_append.mp hin with hin | hin
      · exact (ih hin).tail (hmem.mpr ⟨hroot, c, hc, rfl⟩)
      · rw [mem_singleton.mp hin]
        exact .refl

/-- `SubtreeIDs` ends and lists the channel and what is below it. -/
theorem subtreeIDs_of_tree (hid : t.channels.has id = true) :
    ∃ ids, t.channels.subtreeIDs id = some ids ∧
      ∀ d, d ∈ ids ↔ ∃ p, IsPath t.channels d p ∧ id ∈ p := by
  have hnode := Option.isSome_iff_exists.mp hid
  obtain ⟨ids, hids⟩ := (arbor_children t).exists_preorder hnode (t.channels.length + 1) (by omega)
  exact ⟨ids, hids, fun d => (TreeWalk.mem_preorder hids).trans (below_children_iff t hnode)⟩

end subtree

namespace Voice

open Acl (Permission subjectOf)
open Moderation (Policy State Member aclCheck)

/-! ### The loops -/

section loops
variable (pol : Policy) (st : State) (order : TargetOrder) (speaker : Member)

/-- The permissions that are remembered are those that there are. -/
def Permits (permitted : List (ℕ × Bool)) : Prop :=
  ∀ cid b, permitted.lookup cid = some b → b = mayWhisper pol st speaker cid

/-- The work goes on with some calls of `add`. -/
structure After (w : Work) (calls : List Call) (w' : Work) : Prop where
  recipients : w'.recipients = calls.foldl (add st speaker) w.recipients
  permitted : Permits pol st speaker w'.permitted

/-- The call of `add` for a session that is named. -/
def whisperCalls (e : ℕ × SessionRef) : List Call :=
  ((st.server.users.snapshot e.1).filter fun u =>
    st.registry.active e.2 && decide (u.sessionGeneration = e.2.generation) &&
      mayWhisper pol st speaker u.channelID).toList.map
    fun u => ⟨memberOf st u, contextWhisper, SingleFloat.one⟩

/-- The calls of `add` for channels. -/
def channelCalls (i : ℕ) (t : Target) (cid : ℕ) : List Call :=
  if mayWhisper pol st speaker cid then shoutCalls pol st order i t cid else []

/-- The calls of `add` for a target. -/
def targetCalls (e : Target × ℕ) : List Call :=
  if st.server.world.channels.has e.1.channelID = false then []
  else (order.channels e.2 ((reachedChannels st e.1).getD [])).flatMap
    (channelCalls pol st order speaker e.2 e.1)

/-- All calls of `add`. -/
def allCalls (spec : Spec) : List Call :=
  (order.sessions spec.sessions).flatMap (whisperCalls pol st speaker) ++
    spec.channels.zipIdx.flatMap (targetCalls pol st order speaker)

/-- The calls of `add` that count, with their sessions. -/
def counted (spec : Spec) : List (ℕ × Recipient) :=
  ((allCalls pol st order speaker spec).filter (Call.counts st speaker)).map fun c =>
    (c.member.user.sessionID, c.recipient)

variable {pol st order speaker}

theorem canWhisper_eq {permitted : List (ℕ × Bool)} (h : Permits pol st speaker permitted)
    (cid : ℕ) : (canWhisper pol st speaker permitted cid).1 = mayWhisper pol st speaker cid ∧
      Permits pol st speaker (canWhisper pol st speaker permitted cid).2 := by
  unfold canWhisper
  cases hl : permitted.lookup cid with
  | some b => exact ⟨h cid b hl, h⟩
  | none =>
    refine ⟨rfl, fun d b hb => ?_⟩
    rw [lookup_cons] at hb
    by_cases hd : d = cid
    · subst hd
      rw [beq_self_eq_true] at hb
      exact (Option.some.inj hb).symm
    · rw [beq_eq_false_iff_ne.mpr hd] at hb
      exact h d b hb

theorem After.refl {w : Work} (h : Permits pol st speaker w.permitted) :
    After pol st speaker w [] w := ⟨rfl, h⟩

theorem After.trans {w w' w'' : Work} {calls calls' : List Call}
    (h : After pol st speaker w calls w') (h' : After pol st speaker w' calls' w'') :
    After pol st speaker w (calls ++ calls') w'' :=
  ⟨by rw [foldl_append, ← h.recipients, h'.recipients], h'.permitted⟩

theorem After.foldl {α : Type*} {step : Work → α → Work} {calls : α → List Call}
    (hstep : ∀ w a, Permits pol st speaker w.permitted →
      After pol st speaker w (calls a) (step w a)) (l : List α) {w : Work}
    (hw : Permits pol st speaker w.permitted) :
    After pol st speaker w (l.flatMap calls) (l.foldl step w) := by
  induction l generalizing w with
  | nil => exact .refl hw
  | cons a l ih =>
    have ha := hstep w a hw
    exact ha.trans (ih ha.permitted)

theorem After.foldlM {α : Type*} {step : Work → α → Option Work} {calls : α → List Call}
    {l : List α} (hstep : ∀ a ∈ l, ∀ w, Permits pol st speaker w.permitted →
      ∃ w', step w a = some w' ∧ After pol st speaker w (calls a) w') {w : Work}
    (hw : Permits pol st speaker w.permitted) :
    ∃ w', l.foldlM step w = some w' ∧ After pol st speaker w (l.flatMap calls) w' := by
  induction l generalizing w with
  | nil => exact ⟨w, rfl, .refl hw⟩
  | cons a l ih =>
    rw [forall_mem_cons] at hstep
    obtain ⟨w', hw', ha⟩ := hstep.1 w hw
    obtain ⟨w'', hw'', hl⟩ := ih hstep.2 ha.permitted
    refine ⟨w'', ?_, ha.trans hl⟩
    rw [foldlM_cons, hw']
    exact hw''

theorem after_whisperTo (w : Work) (e : ℕ × SessionRef)
    (hw : Permits pol st speaker w.permitted) :
    After pol st speaker w (whisperCalls pol st speaker e) (whisperTo pol st speaker w e) := by
  unfold whisperTo whisperCalls
  by_cases hact : st.registry.active e.2 = false
  · rw [if_pos hact]
    cases st.server.users.snapshot e.1 with
    | none => exact .refl hw
    | some u =>
      rw [Option.filter_some, hact]
      exact .refl hw
  · rw [if_neg hact]
    rw [Bool.not_eq_false] at hact
    cases st.server.users.snapshot e.1 with
    | none => exact .refl hw
    | some u =>
      dsimp only
      rw [Option.filter_some, hact]
      by_cases hgen : u.sessionGeneration = e.2.generation
      · obtain ⟨hmay, hpermits⟩ := canWhisper_eq hw u.channelID
        rw [if_neg (not_not.mpr hgen), hmay]
        refine ⟨?_, hpermits⟩
        cases mayWhisper pol st speaker u.channelID <;> simp [hgen]
      · rw [if_pos hgen]
        simpa [hgen] using After.refl hw

theorem after_shoutInto (i : ℕ) (t : Target) (w : Work) (cid : ℕ)
    (hw : Permits pol st speaker w.permitted) :
    After pol st speaker w (channelCalls pol st order speaker i t cid)
      (shoutInto pol st order speaker i t w cid) := by
  obtain ⟨hmay, hpermits⟩ := canWhisper_eq hw cid
  unfold shoutInto channelCalls
  refine ⟨?_, hpermits⟩
  dsimp only
  rw [hmay]
  cases mayWhisper pol st speaker cid <;> rfl

theorem after_shoutAt {e : Target × ℕ}
    (hreach : st.server.world.channels.has e.1.channelID = true →
      ∃ cids, reachedChannels st e.1 = some cids) (w : Work)
    (hw : Permits pol st speaker w.permitted) :
    ∃ w', shoutAt pol st order speaker w e = some w' ∧
      After pol st speaker w (targetCalls pol st order speaker e) w' := by
  unfold shoutAt targetCalls
  cases hhas : st.server.world.channels.has e.1.channelID with
  | false => exact ⟨w, rfl, .refl hw⟩
  | true =>
    obtain ⟨cids, hcids⟩ := hreach hhas
    rw [hcids, if_neg (by simp), if_neg (by simp), Option.getD_some]
    exact ⟨_, rfl, After.foldl (after_shoutInto e.2 e.1) _ hw⟩

theorem foldl_add (calls : List Call) :
    calls.foldl (add st speaker) [] = gather mergeRecipient
      ((calls.filter (Call.counts st speaker)).map fun c =>
        (c.member.user.sessionID, c.recipient)) := by
  suffices h : ∀ rs, calls.foldl (add st speaker) rs =
      ((calls.filter (Call.counts st speaker)).map fun c =>
        (c.member.user.sessionID, c.recipient)).foldl
          (fun m w => insert mergeRecipient w.1 w.2 m) rs from h []
  induction calls with
  | nil => exact fun _ => rfl
  | cons c calls ih =>
    intro rs
    rw [foldl_cons, ih]
    unfold add
    by_cases hc : c.counts st speaker = true
    · rw [if_pos hc, filter_cons_of_pos hc]
      rfl
    · rw [if_neg hc, filter_cons_of_neg hc]

variable (pol order speaker) in
/-- What `resolveVoiceTarget` collects, without the maps it fills on the way. -/
theorem resolve_calls (spec : Spec)
    (hreach : ∀ t ∈ spec.channels, st.server.world.channels.has t.channelID = true →
      ∃ cids, reachedChannels st t = some cids) :
    ∃ w, resolveSpec pol st order speaker spec = some w ∧
      w.recipients = gather mergeRecipient (counted pol st order speaker spec) := by
  have hempty : Permits pol st speaker [] := fun _ _ h => by cases h
  have hnamed := After.foldl after_whisperTo (order.sessions spec.sessions)
    (w := ({} : Work)) hempty
  have hstep : ∀ e ∈ spec.channels.zipIdx, ∀ w, Permits pol st speaker w.permitted →
      ∃ w', shoutAt pol st order speaker w e = some w' ∧
        After pol st speaker w (targetCalls pol st order speaker e) w' :=
    fun e he => after_shoutAt (hreach e.1 (fst_mem_of_mem_zipIdx he))
  obtain ⟨w, hw, hafter⟩ := After.foldlM hstep hnamed.permitted
  exact ⟨w, hw, (hnamed.trans hafter).recipients.trans (foldl_add _)⟩

end loops

/-! ### Who is reached, and how -/

/-- The channels that a target stands for. -/
def Reaches (cs : Channels) (t : Target) (cid : ℕ) : Prop :=
  cs.has t.channelID = true ∧
    (cid = t.channelID ∨ (t.links = true ∧ cs.Connected t.channelID cid) ∨
      t.children = true ∧ ∃ p, IsPath cs cid p ∧ t.channelID ∈ p)

/-- The ways in which a target reaches a user. -/
inductive SpecWay (pol : Policy) (st : State) (speaker : Member) (spec : Spec) :
    User → Context → UInt32 → Prop
  | named {ref : SessionRef} {u : User} :
      ref ∈ spec.sessions.map Prod.snd → st.server.users.snapshotRef ref = some u →
      mayWhisper pol st speaker u.channelID = true →
      SpecWay pol st speaker spec u contextWhisper SingleFloat.one
  | occupant {t : Target} {u : User} :
      t ∈ spec.channels → Reaches st.server.world.channels t u.channelID →
      mayWhisper pol st speaker u.channelID = true → u ∈ st.server.users.bySession →
      groupAllows pol st t u.channelID u = true →
      SpecWay pol st speaker spec u contextShout SingleFloat.one
  | listener {t : Target} {cid : ℕ} {u : User} :
      t ∈ spec.channels → Reaches st.server.world.channels t cid →
      mayWhisper pol st speaker cid = true → u ∈ st.server.users.bySession →
      (u.sessionID, cid) ∈ st.listeners → groupAllows pol st t cid u = true →
      SpecWay pol st speaker spec u contextListen (volume st u.sessionID cid)

/-- The sessions of a target are known by their IDs. -/
def Spec.Keyed (spec : Spec) : Prop := ∀ e ∈ spec.sessions, e.2.sessionID = e.1

section ways
variable {pol : Policy} {st : State} {order : TargetOrder} {speaker : Member} {spec : Spec}
variable {c : Call}

theorem mem_reachedChannels (tree : ChannelTree) (htree : tree.channels = st.server.world.channels)
    {t : Target} (hhas : st.server.world.channels.has t.channelID = true) :
    ∃ cids, reachedChannels st t = some cids ∧
      ∀ cid, cid ∈ cids ↔ Reaches st.server.world.channels t cid := by
  obtain ⟨below, hbelow, hmem⟩ := subtreeIDs_of_tree tree (htree ▸ hhas)
  rw [htree] at hbelow hmem
  have hwalk : (if t.children then st.server.world.channels.subtreeIDs t.channelID else some []) =
      some (if t.children then below else []) := by
    cases t.children <;> simp [hbelow]
  refine ⟨_, by rw [reachedChannels, hwalk]; rfl, fun cid => ?_⟩
  rw [mem_dedup, mem_cons, mem_append]
  unfold Reaches
  refine Iff.trans (or_congr_right (or_congr ?_ ?_)) (and_iff_right hhas).symm
  · cases t.links <;> simp [mem_connectedChannelIDs, hhas]
  · cases t.children <;> simp [hmem]

theorem mem_whisperCalls {e : ℕ × SessionRef} (hkey : e.2.sessionID = e.1) :
    c ∈ whisperCalls pol st speaker e ↔ st.registry.active e.2 = true ∧
      ∃ u, st.server.users.snapshotRef e.2 = some u ∧
        mayWhisper pol st speaker u.channelID = true ∧
        c = ⟨memberOf st u, contextWhisper, one⟩ := by
  simp only [whisperCalls, mem_map, Option.mem_toList, Option.filter_eq_some_iff,
    Bool.and_eq_true, decide_eq_true_eq, snapshotRef_eq_some, hkey]
  constructor
  · rintro ⟨u, ⟨hu, ⟨hact, hgen⟩, hmay⟩, rfl⟩
    exact ⟨hact, u, ⟨hu, hgen⟩, hmay, rfl⟩
  · rintro ⟨hact, u, ⟨hu, hgen⟩, hmay, rfl⟩
    exact ⟨u, ⟨hu, ⟨hact, hgen⟩, hmay⟩, rfl⟩

theorem mem_shoutCalls (horder : order.Of st) (hvalid : st.server.users.Valid) {i cid : ℕ}
    {t : Target} :
    c ∈ shoutCalls pol st order i t cid ↔ ∃ u ∈ st.server.users.bySession,
      groupAllows pol st t cid u = true ∧
        ((u.channelID = cid ∧ c = ⟨memberOf st u, contextShout, one⟩) ∨
          ((u.sessionID, cid) ∈ st.listeners ∧
            c = ⟨memberOf st u, contextListen, volume st u.sessionID cid⟩)) := by
  simp only [shoutCalls, mem_append, mem_map, mem_filter, mem_filterMap,
    (horder.users i cid).mem_iff, snapshotByChannel, decide_eq_true_eq, mem_sessionIDsIn]
  constructor
  · rintro (⟨u, ⟨⟨hu, hcid⟩, hgroup⟩, rfl⟩ | ⟨u, ⟨⟨sid, hl, hu⟩, hgroup⟩, rfl⟩)
    · exact ⟨u, hu, hgroup, .inl ⟨hcid, rfl⟩⟩
    · obtain ⟨hmem, rfl⟩ := mem_of_snapshot hu
      exact ⟨u, hmem, hgroup, .inr ⟨hl, rfl⟩⟩
  · rintro ⟨u, hu, hgroup, ⟨hcid, rfl⟩ | ⟨hl, rfl⟩⟩
    · exact .inl ⟨u, ⟨⟨hu, hcid⟩, hgroup⟩, rfl⟩
    · exact .inr ⟨u, ⟨⟨_, hl, snapshot_of_mem hvalid hu⟩, hgroup⟩, rfl⟩

theorem mem_targetCalls (horder : order.Of st)
    (tree : ChannelTree) (htree : tree.channels = st.server.world.channels) {e : Target × ℕ} :
    c ∈ targetCalls pol st order speaker e ↔ ∃ cid,
      Reaches st.server.world.channels e.1 cid ∧ mayWhisper pol st speaker cid = true ∧
        c ∈ shoutCalls pol st order e.2 e.1 cid := by
  unfold targetCalls
  cases hhas : st.server.world.channels.has e.1.channelID with
  | false => simp [Reaches, hhas]
  | true =>
    obtain ⟨cids, hcids, hmem⟩ := mem_reachedChannels tree htree hhas
    rw [if_neg (by simp), hcids, Option.getD_some, mem_flatMap]
    refine exists_congr fun cid => ?_
    rw [(horder.channels e.2 cids).mem_iff, hmem]
    unfold channelCalls
    cases mayWhisper pol st speaker cid <;> simp

theorem mem_allCalls (horder : order.Of st) (hvalid : st.server.users.Valid)
    (tree : ChannelTree) (htree : tree.channels = st.server.world.channels) (hkeyed : spec.Keyed)
    (hcounts : c.counts st speaker = true) :
    c ∈ allCalls pol st order speaker spec ↔ ∃ u ∈ st.server.users.bySession,
      c.member = memberOf st u ∧ SpecWay pol st speaker spec u c.context c.volume := by
  have hactive : st.registry.active c.member.user.ref = true :=
    (Bool.and_eq_true_iff.mp hcounts).2
  simp only [allCalls, mem_append, mem_flatMap, (horder.sessions _).mem_iff,
    mem_targetCalls horder tree htree, mem_shoutCalls horder hvalid]
  constructor
  · rintro (⟨e, he, hc⟩ | ⟨e, he, cid, hreach, hmay, u, hu, hgroup, hc⟩)
    · obtain ⟨-, u, hu, hmay, rfl⟩ := (mem_whisperCalls (hkeyed e he)).mp hc
      refine ⟨u, ?_, rfl, .named (mem_map_of_mem he) hu hmay⟩
      exact (mem_of_snapshot (snapshotRef_eq_some.mp hu).1).1
    · have ht := fst_mem_of_mem_zipIdx he
      rcases hc with ⟨rfl, rfl⟩ | ⟨hl, rfl⟩
      · exact ⟨u, hu, rfl, .occupant ht hreach hmay hu hgroup⟩
      · exact ⟨u, hu, rfl, .listener ht hreach hmay hu hl hgroup⟩
  · rintro ⟨u, hu, hm, hway⟩
    obtain ⟨m, ctx, v⟩ := c
    obtain rfl : m = memberOf st u := hm
    cases hway with
    | @named ref _ href hsnap hmay =>
      obtain ⟨e, he, rfl⟩ := mem_map.mp href
      refine .inl ⟨e, he, (mem_whisperCalls (hkeyed e he)).mpr ⟨?_, u, hsnap, hmay, rfl⟩⟩
      obtain ⟨hs, hgen⟩ := snapshotRef_eq_some.mp hsnap
      have hsame : u.ref = e.2 := by
        unfold User.ref
        rw [(mem_of_snapshot hs).2, hgen]
      rw [← hsame]
      exact hactive
    | @occupant t _ ht hreach hmay _ hgroup =>
      obtain ⟨i, hi⟩ := mem_iff_getElem?.mp ht
      exact .inr ⟨(t, i), mem_zipIdx_iff_getElem?.mpr hi, _, hreach, hmay, u, hu, hgroup,
        .inl ⟨rfl, rfl⟩⟩
    | @listener t cid _ ht hreach hmay _ hl hgroup =>
      obtain ⟨i, hi⟩ := mem_iff_getElem?.mp ht
      exact .inr ⟨(t, i), mem_zipIdx_iff_getElem?.mpr hi, cid, hreach, hmay, u, hu, hgroup,
        .inr ⟨hl, rfl⟩⟩

theorem counts_iff {u : User} {ctx : Context} {v : UInt32}
    (hu : st.server.users.snapshot u.sessionID = some u) :
    Call.counts st speaker ⟨memberOf st u, ctx, v⟩ = true ↔
      u.sessionID ≠ speaker.user.sessionID ∧ Hears st u.ref := by
  have hmember : st.member u.ref.sessionID = some (memberOf st u) := by
    rw [State.member, User.ref, hu]
    rfl
  simp only [Call.counts, memberOf, Bool.and_eq_true, Bool.not_eq_true']
  constructor
  · rintro ⟨⟨⟨hne, hdeaf⟩, hself⟩, hact⟩
    exact ⟨of_decide_eq_true hne, hact, _, hmember, hdeaf, hself⟩
  · rintro ⟨hne, hact, m, hm, hdeaf, hself⟩
    obtain rfl := Option.some.inj (hmember.symm.trans hm)
    exact ⟨⟨⟨decide_eq_true hne, hdeaf⟩, hself⟩, hact⟩

theorem SpecWay.number (hnum : ∀ v ∈ st.volumes, isNaN v.2 = false) {u : User}
    {c : Context} {v : UInt32} (h : SpecWay pol st speaker spec u c v) :
    isNaN v = false := by
  cases h with
  | named | occupant => decide
  | listener => exact number_volume hnum _ _

end ways

section resolved
variable {pol : Policy} {st : State} {order : TargetOrder} {speaker : Member} {spec : Spec}
variable (horder : order.Of st) (hvalid : st.server.users.Valid) (tree : ChannelTree)
  (htree : tree.channels = st.server.world.channels) (hkeyed : spec.Keyed)
include horder hvalid htree hkeyed

theorem mem_counted {k : ℕ} {r : Recipient} : (k, r) ∈ counted pol st order speaker spec ↔
    ∃ u ∈ st.server.users.bySession, u.sessionID = k ∧ k ≠ speaker.user.sessionID ∧
      Hears st u.ref ∧ ∃ c v, r = ⟨k, u.ref, ⟨noFrame, c, v⟩⟩ ∧
        SpecWay pol st speaker spec u c v := by
  simp only [counted, mem_map, mem_filter, Prod.mk.injEq]
  constructor
  · rintro ⟨c, ⟨hc, hcounts⟩, rfl, rfl⟩
    obtain ⟨u, hu, hm, hway⟩ := (mem_allCalls horder hvalid tree htree hkeyed hcounts).mp hc
    obtain ⟨m, ctx, v⟩ := c
    obtain rfl : m = memberOf st u := hm
    obtain ⟨hne, hears⟩ := (counts_iff (snapshot_of_mem hvalid hu)).mp hcounts
    exact ⟨u, hu, rfl, hne, hears, ctx, v, rfl, hway⟩
  · rintro ⟨u, hu, rfl, hne, hears, c, v, rfl, hway⟩
    have hcounts : Call.counts st speaker ⟨memberOf st u, c, v⟩ = true :=
      (counts_iff (snapshot_of_mem hvalid hu)).mpr ⟨hne, hears⟩
    exact ⟨⟨memberOf st u, c, v⟩,
      ⟨(mem_allCalls horder hvalid tree htree hkeyed hcounts).mpr ⟨u, hu, rfl, hway⟩, hcounts⟩,
      rfl, rfl⟩

/-- What comes out for a session is the best of the ways to its user. -/
theorem best_of_mem_gather (hnum : ∀ v ∈ st.volumes, isNaN v.2 = false) {k : ℕ}
    {r : Recipient} (hr : (k, r) ∈ gather mergeRecipient (counted pol st order speaker spec)) :
    ∃ u ∈ st.server.users.bySession, u.sessionID = k ∧ k ≠ speaker.user.sessionID ∧
      Hears st u.ref ∧ r.sessionID = k ∧ r.session = u.ref ∧
      Best (SpecWay pol st speaker spec u) r.delivery.context r.delivery.volumeAdjustment := by
  have hmem : ∀ {x}, x ∈ valuesOf (counted pol st order speaker spec) k ↔ _ :=
    mem_valuesOf.trans (mem_counted horder hvalid tree htree hkeyed)
  have hall := mem_gather.mp hr
  have hkeep : ∀ a b, ((mergeRecipient a b).sessionID, (mergeRecipient a b).session) =
      (a.sessionID, a.session) := fun _ _ => rfl
  obtain ⟨x, hx, hsame⟩ := exists_of_mergeAll
    (f := fun r : Recipient => (r.sessionID, r.session)) hkeep hall
  obtain ⟨u, hu, hsid, hne, hears, c, v, rfl, -⟩ := hmem.mp hx
  obtain ⟨hrid, hrref⟩ := Prod.mk.inj hsame
  refine ⟨u, hu, hsid, hne, hears, hrid, hrref, ?_⟩
  -- the ways of the values are the ways to this one user
  have hways : ∀ {y}, y ∈ valuesOf (counted pol st order speaker spec) k ↔
      ∃ c v, y = ⟨k, u.ref, ⟨noFrame, c, v⟩⟩ ∧ SpecWay pol st speaker spec u c v := by
    intro y
    rw [hmem]
    constructor
    · rintro ⟨w, hw, hwid, -, -, c, v, rfl, hway⟩
      obtain rfl : w = u := inj_on_of_nodup_map hvalid.nodup hw hu (hwid.trans hsid.symm)
      exact ⟨c, v, rfl, hway⟩
    · rintro ⟨c, v, rfl, hway⟩
      exact ⟨u, hu, hsid, hne, hears, c, v, rfl, hway⟩
  have hdelivery : ∀ a b, (mergeRecipient a b).delivery = mergeDelivery a.delivery b.delivery :=
    fun _ _ => rfl
  have hmerged := mergeAll_map hdelivery (valuesOf (counted pol st order speaker spec) k)
  rw [hall, Option.map_some] at hmerged
  have hbest := best_of_mergeAll hmerged fun d hd => by
    obtain ⟨y, hy, rfl⟩ := mem_map.mp hd
    obtain ⟨c, v, rfl, hway⟩ := hways.mp hy
    exact hway.number hnum
  convert hbest using 1
  funext c v
  refine propext ⟨fun hway => ?_, ?_⟩
  · exact ⟨_, mem_map_of_mem (hways.mpr ⟨c, v, rfl, hway⟩), rfl, rfl⟩
  · rintro ⟨d, hd, rfl, rfl⟩
    obtain ⟨y, hy, rfl⟩ := mem_map.mp hd
    obtain ⟨c, v, rfl, hway⟩ := hways.mp hy
    exact hway

variable (pol speaker) in
/-- What is stored resolves to the Active sessions, other than the speaker and not deafened, that
a way leads to, each once, with the smallest context and the largest volume over its ways. -/
theorem resolveSpec_recipients (hnum : ∀ v ∈ st.volumes, isNaN v.2 = false) :
    ∃ w, resolveSpec pol st order speaker spec = some w ∧
      ((w.recipients.map Prod.snd).map Recipient.session).Nodup ∧
      (∀ ref, ref ∈ (w.recipients.map Prod.snd).map Recipient.session ↔
        ref.sessionID ≠ speaker.user.sessionID ∧ Hears st ref ∧
          ∃ u c v, st.server.users.snapshotRef ref = some u ∧
            SpecWay pol st speaker spec u c v) ∧
      ∀ r ∈ w.recipients.map Prod.snd, ∃ u, st.server.users.snapshotRef r.session = some u ∧
        Best (SpecWay pol st speaker spec u) r.delivery.context r.delivery.volumeAdjustment := by
  obtain ⟨w, hw, hrec⟩ := resolve_calls pol order speaker spec
    fun t _ hhas => (mem_reachedChannels tree htree hhas).imp fun _ h => h.1
  have hbest : ∀ {k r}, (k, r) ∈ w.recipients → _ := fun hr =>
    best_of_mem_gather horder hvalid tree htree hkeyed hnum (hrec ▸ hr)
  have hself : ∀ {u : User}, u ∈ st.server.users.bySession →
      st.server.users.snapshotRef u.ref = some u := fun hu =>
    snapshotRef_eq_some.mpr ⟨snapshot_of_mem hvalid hu, rfl⟩
  refine ⟨w, hw, ?_, fun ref => ?_, fun r hr => ?_⟩
  · refine List.Nodup.of_map SessionRef.sessionID ?_
    have hids : ((w.recipients.map Prod.snd).map Recipient.session).map SessionRef.sessionID =
        w.recipients.map Prod.fst := by
      rw [map_map, map_map]
      refine map_congr_left fun e he => ?_
      obtain ⟨u, -, hsid, -, -, -, href, -⟩ := hbest he
      exact (congrArg SessionRef.sessionID href).trans hsid
    rw [hids, hrec]
    exact nodup_gather _
  · constructor
    · intro hmem
      obtain ⟨r, hr, rfl⟩ := mem_map.mp hmem
      obtain ⟨e, he, rfl⟩ := mem_map.mp hr
      obtain ⟨u, hu, hsid, hne, hears, -, href, hb⟩ := hbest he
      obtain ⟨v, hway⟩ := hb.context
      rw [href]
      exact ⟨fun heq => hne (hsid.symm.trans heq), hears, u, _, v, hself hu, hway⟩
    · rintro ⟨hne, hears, u, c, v, hu, hway⟩
      obtain ⟨hs, hgen⟩ := snapshotRef_eq_some.mp hu
      obtain ⟨hmem, hsid⟩ := mem_of_snapshot hs
      obtain rfl : u.ref = ref := by
        unfold User.ref
        rw [hsid, hgen]
      have hkey : u.sessionID ∈ w.recipients.map Prod.fst := by
        rw [hrec, mem_keys_gather]
        exact ⟨_, (mem_counted horder hvalid tree htree hkeyed).mpr
          ⟨u, hmem, rfl, hne, hears, c, v, rfl, hway⟩⟩
      obtain ⟨e, he, hkey⟩ := mem_map.mp hkey
      obtain ⟨u', hu', hsid', -, -, -, href, -⟩ := hbest he
      obtain rfl : u' = u := inj_on_of_nodup_map hvalid.nodup hu' hmem (hsid'.trans hkey)
      exact mem_map.mpr ⟨_, mem_map_of_mem he, href⟩
  · obtain ⟨e, he, rfl⟩ := mem_map.mp hr
    obtain ⟨u, hu, -, -, -, -, href, hb⟩ := hbest he
    exact ⟨u, href ▸ hself hu, hb⟩

end resolved

end Voice

end MumbleServer
