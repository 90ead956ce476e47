import MumbleServer.AudioPacket
import MumbleServer.VoiceTargets

/-! # Delivery of voice

`cluster.Dispatcher` splits a batch by edge, and the edge encodes the frame for each of its
recipients (`local_voice_transport.go`, `DeliverVoice` of `edgeruntime.go`).  Recipients share
encodings: `EncodingCache` is asked by wire mode, context, volume and whether there is a position.
Within a batch there is one frame, so that nothing else of a delivery differs and the cache does
not show (`deliverLoop_eq`).

The position goes to those with the plugin context of the speaker.  The Core decides it when it
makes the batch (`SendVoice`), and the local edge decides it once more. -/

namespace MumbleServer.Audio

open List Option
open Voice
open Moderation (Policy State)
variable {frame : Frame} {d : Delivery} {r : VoiceRecipient}

/-! ### Shared encodings -/

structure EncodingKey where
  mode : WireMode
  context : Context
  volume : UInt32
  position : Bool
deriving DecidableEq

def encodingKey (mode : WireMode) (d : Delivery) : EncodingKey :=
  ⟨mode, d.context, d.volumeAdjustment, d.frame.hasPosition⟩

abbrev EncodingCache := List (EncodingKey × List UInt8)

/-- `EncodingCache.Encode`; a failure is not kept. -/
def EncodingCache.encode (c : EncodingCache) (mode : WireMode) (d : Delivery) :
    Except PacketError (List UInt8) × EncodingCache :=
  match c.lookup (encodingKey mode d) with
  | some b => (.ok b, c)
  | none =>
    match encodeServerPacket mode d with
    | .ok b => (.ok b, (encodingKey mode d, b) :: c)
    | .error e => (.error e, c)

/-! ### The edges -/

/-- A plaintext that is handed to the connection of a recipient. -/
structure Handed where
  recipient : VoiceRecipient
  mode : WireMode
  packet : List UInt8
deriving DecidableEq

/-- The delivery that an edge makes for a recipient. -/
def deliveryFor (frame : Frame) (r : VoiceRecipient) : Delivery :=
  ⟨{ frame with hasPosition := r.hasPosition }, r.context, r.volume⟩

/-- The loop over the recipients, with one cache.  `find i r` is the wire mode and the delivery of
the `i`-th recipient if its connection is there. -/
def deliverLoop (find : ℕ → VoiceRecipient → Option (WireMode × Delivery)) :
    ℕ → EncodingCache → List VoiceRecipient → List Handed
  | _, _, [] => []
  | i, cache, r :: rest =>
    match find i r with
    | none => deliverLoop find (i + 1) cache rest
    | some (mode, d) =>
      match cache.encode mode d with
      | (.ok b, cache) => ⟨r, mode, b⟩ :: deliverLoop find (i + 1) cache rest
      | (.error _, cache) => deliverLoop find (i + 1) cache rest

structure LocalConn where
  generation : ℕ
  mode : WireMode
deriving DecidableEq

/-- What the local edge reads when it comes to a recipient. -/
structure LocalView where
  state : State
  conns : List (ℕ × LocalConn)

def samePlugin (st : State) (sid sid' : ℕ) : Bool :=
  match st.member sid, st.member sid' with
  | some speaker, some target =>
    decide (speaker.profile.pluginContext = target.profile.pluginContext)
  | _, _ => false

/-- The first lines of `sendDeliveryTo`. -/
def recheck (st : State) (sid : ℕ) (d : Delivery) : Delivery :=
  if d.frame.hasPosition then
    { d with frame.hasPosition := samePlugin st d.frame.senderSession sid }
  else d

/-- One recipient in `DeliverVoice` of the local edge. -/
def findLocal (view : LocalView) (frame : Frame) (r : VoiceRecipient) :
    Option (WireMode × Delivery) :=
  if view.state.registry.active r.session = false then none
  else
    match view.conns.lookup r.session.sessionID with
    | none => none
    | some conn =>
      if conn.generation ≠ r.session.generation then none
      else some (conn.mode, recheck view.state r.session.sessionID (deliveryFor frame r))

/-- `DeliverVoice` of the local edge; `views i` is what it reads at the `i`-th recipient. -/
def deliverLocal (views : ℕ → LocalView) (batch : VoiceBatch) : List Handed :=
  deliverLoop (fun i r => findLocal (views i) batch.frame r) 0 [] batch.recipients

structure EdgeConn where
  active : Bool
  mode : WireMode
deriving DecidableEq

/-- What a remote edge reads when it comes to a recipient. -/
structure EdgeView where
  bySession : List (SessionRef × ℕ)
  conns : List (ℕ × EdgeConn)

/-- One recipient in `DeliverVoice` of a remote edge. -/
def findRemote (view : EdgeView) (frame : Frame) (r : VoiceRecipient) :
    Option (WireMode × Delivery) :=
  match (view.bySession.lookup r.session).bind fun id => view.conns.lookup id with
  | none => none
  | some conn => if conn.active = false then none else some (conn.mode, deliveryFor frame r)

/-- A number that JSON has a form for. -/
def finite (v : UInt32) : Bool := decide (SingleFloat.magnitude v < 0x7F800000)

/-- `VoiceDown` on the wire: a batch with a number that JSON has no form for is not written. -/
def voiceDown (batch : VoiceBatch) : Option VoiceBatch :=
  let (x, y, z) := batch.frame.position
  if finite x && finite y && finite z && batch.recipients.all fun r => finite r.volume then
    some batch
  else none

/-- `DeliverVoice` of a remote edge, for what has come over the wire. -/
def deliverRemote (views : ℕ → EdgeView) (batch : VoiceBatch) : List Handed :=
  match voiceDown batch with
  | none => []
  | some batch => deliverLoop (fun i r => findRemote (views i) batch.frame r) 0 [] batch.recipients

/-- `DispatchVoice`: what goes to an edge.  The registry is read for the sender and then for every
recipient. -/
def dispatchVoice (now : Registry) (regs : ℕ → Registry) (edge : String) (batch : VoiceBatch) :
    Option VoiceBatch :=
  if now.active batch.sender = false then none
  else some { batch with
    recipients := (batch.recipients.zipIdx.filter fun e =>
      ((regs e.2).snapshot e.1.session).any fun s =>
        decide (s.state = .active) && decide (s.edge = edge)).map Prod.fst }

/-! ### The cache does not show -/

section cache
variable {mode mode' : WireMode} {d' : Delivery} {cache : EncodingCache}

/-- A delivery of this frame, with its position or without. -/
def Carries (frame : Frame) (d : Delivery) : Prop :=
  d.frame = { frame with hasPosition := d.frame.hasPosition }

/-- The key separates the deliveries of one frame. -/
theorem encodingKey_inj (hd : Carries frame d) (hd' : Carries frame d')
    (h : encodingKey mode d = encodingKey mode' d') : mode = mode' ∧ d = d' := by
  obtain ⟨f, c, v⟩ := d
  obtain ⟨f', c', v'⟩ := d'
  simp only [encodingKey, EncodingKey.mk.injEq] at h
  obtain ⟨rfl, rfl, rfl, hpos⟩ := h
  refine ⟨rfl, ?_⟩
  have hf : f = { frame with hasPosition := f.hasPosition } := hd
  have hf' : f' = { frame with hasPosition := f'.hasPosition } := hd'
  rw [hf, hf', hpos]

/-- What is in the cache is what encoding gives. -/
def CacheOk (frame : Frame) (cache : EncodingCache) : Prop :=
  ∀ mode d b, Carries frame d → cache.lookup (encodingKey mode d) = some b →
    encodeServerPacket mode d = .ok b

theorem CacheOk.encode (hc : CacheOk frame cache) (hd : Carries frame d) (mode : WireMode) :
    (cache.encode mode d).1 = encodeServerPacket mode d ∧
      CacheOk frame (cache.encode mode d).2 := by
  unfold EncodingCache.encode
  cases hl : cache.lookup (encodingKey mode d) with
  | some b => exact ⟨(hc mode d b hd hl).symm, hc⟩
  | none =>
    cases hb : encodeServerPacket mode d with
    | error e => exact ⟨rfl, hc⟩
    | ok b =>
      refine ⟨rfl, fun mode' d' b' hd' hl' => ?_⟩
      rw [lookup_cons] at hl'
      by_cases hkey : encodingKey mode' d' = encodingKey mode d
      · obtain ⟨rfl, rfl⟩ := encodingKey_inj hd' hd hkey
        rw [beq_self_eq_true] at hl'
        rw [hb, some.inj hl']
      · rw [beq_eq_false_iff_ne.mpr hkey] at hl'
        exact hc mode' d' b' hd' hl'

/-- What a recipient is handed when nobody else is there. -/
def handAlone (r : VoiceRecipient) (found : Option (WireMode × Delivery)) : Option Handed :=
  match found with
  | none => none
  | some (mode, d) => (encodeServerPacket mode d).toOption.map fun b => ⟨r, mode, b⟩

theorem deliverLoop_eq {find : ℕ → VoiceRecipient → Option (WireMode × Delivery)}
    (hfind : ∀ i r mode d, find i r = some (mode, d) → Carries frame d) (i : ℕ)
    (hc : CacheOk frame cache) (rs : List VoiceRecipient) :
    deliverLoop find i cache rs =
      (rs.zipIdx i).filterMap fun e => handAlone e.1 (find e.2 e.1) := by
  induction rs generalizing i cache with
  | nil => rfl
  | cons r rs ih =>
    rw [zipIdx_cons, filterMap_cons, deliverLoop]
    cases hr : find i r with
    | none => exact ih (i + 1) hc
    | some found =>
      obtain ⟨mode, d⟩ := found
      obtain ⟨hpacket, hc'⟩ := hc.encode (hfind i r mode d hr) mode
      have hrest := ih (i + 1) hc'
      have halone : handAlone r (some (mode, d)) =
          (cache.encode mode d).1.toOption.map fun b => ⟨r, mode, b⟩ := by
        rw [hpacket]
        rfl
      dsimp only
      rw [halone]
      generalize cache.encode mode d = result at hrest ⊢
      obtain ⟨packet, cache'⟩ := result
      cases packet with
      | error e => exact hrest
      | ok b => exact congrArg _ hrest

end cache

theorem carries_deliveryFor (frame : Frame) (r : VoiceRecipient) :
    Carries frame (deliveryFor frame r) := rfl

theorem carries_recheck (h : Carries frame d) (st : State)
    (sid : ℕ) : Carries frame (recheck st sid d) := by
  unfold recheck
  split_ifs
  · exact congrArg (fun f : Frame =>
      { f with hasPosition := samePlugin st d.frame.senderSession sid }) h
  · exact h

theorem findLocal_eq_some {view : LocalView}
    {mode : WireMode} (h : findLocal view frame r = some (mode, d)) :
    view.conns.lookup r.session.sessionID = some ⟨r.session.generation, mode⟩ ∧
      d = recheck view.state r.session.sessionID (deliveryFor frame r) := by
  unfold findLocal at h
  split_ifs at h
  cases hconn : view.conns.lookup r.session.sessionID with
  | none =>
    rw [hconn] at h
    cases h
  | some conn =>
    rw [hconn] at h
    dsimp only at h
    split_ifs at h with hgen
    rw [Option.some.injEq, Prod.mk.injEq] at h
    obtain ⟨rfl, rfl⟩ := h
    exact ⟨by rw [← not_not.mp hgen], rfl⟩

theorem findRemote_eq_some {view : EdgeView}
    {mode : WireMode} (h : findRemote view frame r = some (mode, d)) :
    (∃ id, view.bySession.lookup r.session = some id ∧
      view.conns.lookup id = some ⟨true, mode⟩) ∧ d = deliveryFor frame r := by
  unfold findRemote at h
  cases hconn : (view.bySession.lookup r.session).bind fun id => view.conns.lookup id with
  | none =>
    rw [hconn] at h
    cases h
  | some conn =>
    rw [hconn] at h
    dsimp only at h
    split_ifs at h with hactive
    rw [Option.some.injEq, Prod.mk.injEq] at h
    obtain ⟨rfl, rfl⟩ := h
    obtain ⟨id, hid, hlookup⟩ := bind_eq_some_iff.mp hconn
    refine ⟨⟨id, hid, ?_⟩, rfl⟩
    rw [Bool.not_eq_false] at hactive
    rw [hlookup, ← hactive]

theorem cacheOk_nil (frame : Frame) : CacheOk frame [] := fun _ _ _ _ h => by cases h

/-- On the local edge every recipient is served as if it were alone. -/
theorem deliverLocal_eq (views : ℕ → LocalView) (batch : VoiceBatch) :
    deliverLocal views batch = batch.recipients.zipIdx.filterMap fun e =>
      handAlone e.1 (findLocal (views e.2) batch.frame e.1) :=
  deliverLoop_eq (fun i r mode d h => by
    obtain ⟨-, rfl⟩ := findLocal_eq_some h
    exact carries_recheck (carries_deliveryFor batch.frame r) _ _) 0 (cacheOk_nil _) _

/-- On a remote edge every recipient is served as if it were alone. -/
theorem deliverRemote_eq (views : ℕ → EdgeView) (batch : VoiceBatch) :
    deliverRemote views batch = (voiceDown batch).elim [] fun batch =>
      batch.recipients.zipIdx.filterMap fun e =>
        handAlone e.1 (findRemote (views e.2) batch.frame e.1) := by
  unfold deliverRemote
  cases voiceDown batch with
  | none => rfl
  | some batch =>
    exact deliverLoop_eq (fun i r mode d h => by
      obtain ⟨-, rfl⟩ := findRemote_eq_some h
      exact carries_deliveryFor batch.frame r) 0 (cacheOk_nil _) _

/-! ### What the Core puts into a batch -/

section batch
variable {pol : Policy} {st : State} {sv : Server} {sender : SessionRef} {order : Order}

/-- A recipient of this frame, under the ID of its session. -/
structure Addressed (frame : Frame) (r : Recipient) : Prop where
  frame : r.delivery.frame = frame
  session : r.session.sessionID = r.sessionID

theorem frame_of_mem_collect {sid k : ℕ} {d : Delivery}
    (h : (k, d) ∈ collect pol st order sid frame) : d.frame = frame := by
  have hkeeps : ∀ a b, (mergeDelivery a b).frame = a.frame := fun _ _ => rfl
  obtain ⟨x, hx, hframe⟩ := Gather.exists_of_mergeAll hkeeps (Gather.mem_gather.mp h)
  have hway := Gather.mem_valuesOf.mp hx
  obtain ⟨cid, -, hin⟩ := mem_flatMap.mp (mem_filter.mp hway).1
  rw [hframe]
  unfold waysIn at hin
  split_ifs at hin
  · cases hin
  · rcases mem_append.mp hin with hin | hin
    · obtain ⟨_, -, heq⟩ := mem_map.mp hin
      exact (Prod.mk.inj heq).2 ▸ rfl
    · obtain ⟨_, -, heq⟩ := mem_map.mp hin
      exact (Prod.mk.inj heq).2 ▸ rfl

theorem addressed_resolved (horder : order.Of st) {sid : ℕ} {r : Recipient}
    (h : r ∈ resolved pol st order sid frame) : Addressed frame r := by
  obtain ⟨hmem, href⟩ := (mem_resolved horder).mp h
  exact ⟨frame_of_mem_collect hmem, sessionID_of_ref href⟩

/-- Every recipient that was found is under the ID of its session. -/
def Keyed (recipients : List (ℕ × Recipient)) : Prop :=
  ∀ e ∈ recipients, e.2.session.sessionID = e.2.sessionID

section resolve
variable {order : TargetOrder} {speaker : Moderation.Member}
variable {rs : List (ℕ × Recipient)}

theorem Keyed.add (h : Keyed rs) (c : Call) : Keyed (Voice.add st speaker rs c) := by
  have hkeeps : ∀ a b : Recipient, a.session.sessionID = a.sessionID →
      (mergeRecipient a b).session.sessionID = (mergeRecipient a b).sessionID :=
    fun _ _ ha => ha
  have hnew : c.recipient.session.sessionID = c.recipient.sessionID := rfl
  unfold Voice.add
  split_ifs
  · exact Gather.forall_insert hkeeps hnew h
  · exact h

theorem Keyed.addAll (h : Keyed rs) (calls : List Call) :
    Keyed (calls.foldl (Voice.add st speaker) rs) := by
  induction calls generalizing rs with
  | nil => exact h
  | cons c calls ih => exact ih (h.add c)

theorem Keyed.whisperTo {w : Work} (h : Keyed w.recipients) (e : ℕ × SessionRef) :
    Keyed (whisperTo pol st speaker w e).recipients := by
  unfold Voice.whisperTo
  split_ifs
  · exact h
  · cases st.server.users.snapshot e.1 with
    | none => exact h
    | some u =>
      dsimp only
      split_ifs
      · exact h
      · exact h.add _
      · exact h

theorem Keyed.shoutInto {w : Work} (h : Keyed w.recipients) (i : ℕ) (t : Target) (cid : ℕ) :
    Keyed (shoutInto pol st order speaker i t w cid).recipients := by
  unfold Voice.shoutInto
  dsimp only
  split_ifs
  · exact h.addAll _
  · exact h

theorem Keyed.shoutAt {w w' : Work} (h : Keyed w.recipients) {e : Target × ℕ}
    (hw : shoutAt pol st order speaker w e = some w') : Keyed w'.recipients := by
  unfold Voice.shoutAt at hw
  split_ifs at hw
  · exact some.inj hw ▸ h
  · obtain ⟨cids, -, rfl⟩ := map_eq_some_iff.mp hw
    clear hw
    induction order.channels e.2 cids generalizing w with
    | nil => exact h
    | cons cid l ih => exact ih (h.shoutInto e.2 e.1 cid)

theorem keyed_resolveSpec {spec : Spec} {w : Work}
    (h : resolveSpec pol st order speaker spec = some w) : Keyed w.recipients := by
  have hnamed : ∀ (l : List (ℕ × SessionRef)) (w : Work), Keyed w.recipients →
      Keyed (l.foldl (whisperTo pol st speaker) w).recipients := by
    intro l
    induction l with
    | nil => exact fun _ hw => hw
    | cons e l ih => exact fun w hw => ih _ (hw.whisperTo e)
  have hshouted : ∀ (l : List (Target × ℕ)) (w w' : Work), Keyed w.recipients →
      l.foldlM (shoutAt pol st order speaker) w = some w' → Keyed w'.recipients := by
    intro l
    induction l with
    | nil => exact fun w w' hw h => some.inj h ▸ hw
    | cons e l ih =>
      intro w w' hw h
      rw [foldlM_cons] at h
      obtain ⟨w₁, h₁, h₂⟩ := bind_eq_some_iff.mp h
      exact ih w₁ w' (hw.shoutAt h₁) h₂
  exact hshouted _ _ _ (hnamed _ {} fun _ he => by cases he) h

end resolve

/-- The resolver that the server gives the router. -/
def targetResolver (pol : Policy) (st : State) (ts : Targets) (order : TargetOrder) (sid : ℕ)
    (tid : UInt8) (frame : Frame) : List Recipient :=
  (resolveVoiceTargetCanonical pol st ts order sid tid frame).getD []

theorem addressed_targetResolver {ts : Targets} {order : TargetOrder} {sid : ℕ} {tid : UInt8}
    {r : Recipient} (h : r ∈ targetResolver pol st ts order sid tid frame) :
    Addressed frame r := by
  unfold targetResolver resolveVoiceTargetCanonical at h
  cases hrs : resolveVoiceTarget pol st ts order sid tid with
  | none =>
    rw [hrs] at h
    cases h
  | some rs =>
    rw [hrs] at h
    obtain ⟨r', hr', rfl⟩ := mem_map.mp h
    refine ⟨rfl, ?_⟩
    show r'.session.sessionID = r'.sessionID
    unfold resolveVoiceTarget at hrs
    split at hrs
    · split_ifs at hrs
      · obtain rfl := some.inj hrs
        cases hr'
      · obtain ⟨w, hw, rfl⟩ := map_eq_some_iff.mp hrs
        obtain ⟨e, he, rfl⟩ := mem_map.mp hr'
        exact keyed_resolveSpec hw e he
    · obtain rfl := some.inj hrs
      cases hr'

theorem routeRef_addressed {ts : Targets} {torder : TargetOrder}
    (horder : order.Of sv.state) {f : Frame} {b : VoiceBatch}
    (h : routeRef pol sv (targetResolver pol sv.state ts torder) order sender f = some b) :
    ∃ rs, (∀ r ∈ rs, Addressed { f with senderSession := sender.sessionID } r) ∧
      sendVoice sv sender { f with senderSession := sender.sessionID } rs = some b := by
  unfold routeRef at h
  split_ifs at h
  · exact ⟨_, fun r hr => addressed_targetResolver hr, h⟩
  · refine ⟨_, fun r hr => ?_, h⟩
    rw [mem_singleton.mp hr]
    exact ⟨rfl, rfl⟩
  · exact ⟨_, fun r hr => addressed_resolved horder hr, h⟩

theorem position_of_mem_sendVoice {rs : List Recipient} (hrs : ∀ r ∈ rs, Addressed frame r)
    {b : VoiceBatch} (h : sendVoice sv sender frame rs = some b) :
    b.frame = frame ∧ ∀ r ∈ b.recipients, r.hasPosition =
      (frame.hasPosition && samePlugin sv.state sender.sessionID r.session.sessionID) := by
  unfold sendVoice at h
  split_ifs at h
  obtain rfl := some.inj h
  refine ⟨rfl, fun r hr => ?_⟩
  obtain ⟨x, hx, rfl⟩ := mem_map.mp hr
  obtain ⟨hframe, hsession⟩ := hrs x (mem_filter.mp hx).1
  show (x.delivery.frame.hasPosition && samePlugin sv.state sender.sessionID x.sessionID) = _
  rw [hframe, ← hsession]
  rfl

end batch

theorem mem_dispatchVoice {now : Registry} {regs : ℕ → Registry} {edge : String}
    {batch part : VoiceBatch} (h : dispatchVoice now regs edge batch = some part) :
    part.frame = batch.frame ∧ ∀ r ∈ part.recipients, r ∈ batch.recipients := by
  unfold dispatchVoice at h
  split_ifs at h
  obtain rfl := some.inj h
  refine ⟨rfl, fun r hr => ?_⟩
  obtain ⟨e, he, rfl⟩ := mem_map.mp hr
  exact fst_mem_of_mem_zipIdx (mem_filter.mp he).1

theorem encodeServerPacket_blind (mode : WireMode) (f : Frame) (c : Context) (v : UInt32)
    (q : UInt32 × UInt32 × UInt32) :
    encodeServerPacket mode ⟨{ f with hasPosition := false, position := q }, c, v⟩ =
      encodeServerPacket mode ⟨{ f with hasPosition := false }, c, v⟩ := by
  cases mode <;> rfl

/-! ### Own packets -/

/-- The plaintext is that of the recipient itself. -/
structure Own (st : State) (speaker : ℕ) (f : Frame) (g : Handed) : Prop where
  /-- It is the encoding of the frame with the recipient's context and volume, and the position is
  in it only if there is one and the plugin contexts agree. -/
  packet : ∃ p, encodeServerPacket g.mode ⟨{ f with senderSession := speaker, hasPosition := p },
      g.recipient.context, g.recipient.volume⟩ = .ok g.packet ∧
    (p = true → f.hasPosition = true ∧
      samePlugin st speaker g.recipient.session.sessionID = true)
  /-- Else it does not depend on where the speaker is. -/
  blind : (f.hasPosition && samePlugin st speaker g.recipient.session.sessionID) = false →
    ∀ q, encodeServerPacket g.mode ⟨{ f with
      senderSession := speaker, hasPosition := false, position := q },
      g.recipient.context, g.recipient.volume⟩ = .ok g.packet

theorem own_of_packet {st : State} {speaker : ℕ} {f : Frame} {g : Handed} {p : Bool}
    (hg : encodeServerPacket g.mode ⟨{ f with senderSession := speaker, hasPosition := p },
      g.recipient.context, g.recipient.volume⟩ = .ok g.packet)
    (hp : p = true →
      (f.hasPosition && samePlugin st speaker g.recipient.session.sessionID) = true) :
    Own st speaker f g := by
  refine ⟨⟨p, hg, fun h => by simpa using hp h⟩, fun hnone q => ?_⟩
  have hfalse : p = false := by
    cases p with
    | false => rfl
    | true => exact absurd (hp rfl) (by rw [hnone]; decide)
  rw [hfalse] at hg
  rw [← hg]
  exact encodeServerPacket_blind g.mode { f with senderSession := speaker } _ _ q

theorem handAlone_eq_some {found : Option (WireMode × Delivery)}
    {g : Handed} (h : handAlone r found = some g) :
    g.recipient = r ∧
      ∃ d, found = some (g.mode, d) ∧ encodeServerPacket g.mode d = .ok g.packet := by
  cases found with
  | none => cases h
  | some e =>
    obtain ⟨mode, d⟩ := e
    obtain ⟨b, hb, rfl⟩ := map_eq_some_iff.mp h
    refine ⟨rfl, d, rfl, ?_⟩
    cases henc : encodeServerPacket mode d with
    | error e =>
      rw [henc] at hb
      cases hb
    | ok b' =>
      rw [henc] at hb
      rw [some.inj hb]

/-- **Everybody gets a packet of their own.** On an edge of either kind every recipient is served as
if it were the only one, whatever the others and their order; and what it is handed is the encoding
of the frame for its own wire mode, context and volume, with the position only if the frame has one
and its plugin context is that of the speaker. -/
theorem own_packet_handed (pol : Policy) (sv : Server) (ts : Targets) (torder : TargetOrder)
    (order : Order) (horder : order.Of sv.state) (sender : SessionRef) (f : Frame)
    (now : Registry) (regs : ℕ → Registry) (edge : String) {batch part : VoiceBatch}
    (hbatch : routeRef pol sv (targetResolver pol sv.state ts torder) order sender f = some batch)
    (hpart : dispatchVoice now regs edge batch = some part) :
    (∀ views : ℕ → LocalView,
      deliverLocal views part = part.recipients.zipIdx.filterMap (fun e =>
        handAlone e.1 (findLocal (views e.2) part.frame e.1)) ∧
      ∀ g ∈ deliverLocal views part, g.recipient ∈ batch.recipients ∧
        Own sv.state sender.sessionID f g ∧
        ∃ i, (views i).conns.lookup g.recipient.session.sessionID =
          some ⟨g.recipient.session.generation, g.mode⟩) ∧
    (∀ views : ℕ → EdgeView,
      deliverRemote views part = (voiceDown part).elim [] (fun part =>
        part.recipients.zipIdx.filterMap fun e =>
          handAlone e.1 (findRemote (views e.2) part.frame e.1)) ∧
      ∀ g ∈ deliverRemote views part, g.recipient ∈ batch.recipients ∧
        Own sv.state sender.sessionID f g ∧
        ∃ i id, (views i).bySession.lookup g.recipient.session = some id ∧
          (views i).conns.lookup id = some ⟨true, g.mode⟩) := by
  obtain ⟨rs, hrs, hsend⟩ := routeRef_addressed horder hbatch
  obtain ⟨hframe, hposition⟩ := position_of_mem_sendVoice hrs hsend
  obtain ⟨hsame, hmem⟩ := mem_dispatchVoice hpart
  rw [hframe] at hsame
  refine ⟨fun views => ⟨deliverLocal_eq views part, fun g hg => ?_⟩,
    fun views => ⟨deliverRemote_eq views part, fun g hg => ?_⟩⟩
  · rw [deliverLocal_eq] at hg
    obtain ⟨⟨r, i⟩, he, hg⟩ := mem_filterMap.mp hg
    obtain ⟨rfl, d, hfound, hpacket⟩ := handAlone_eq_some hg
    obtain ⟨hconn, rfl⟩ := findLocal_eq_some hfound
    have hin := hmem _ (fst_mem_of_mem_zipIdx he)
    refine ⟨hin, ?_, i, hconn⟩
    rw [hsame] at hpacket
    -- The local edge only takes a position away.
    unfold recheck at hpacket
    split_ifs at hpacket with hhas
    · exact own_of_packet hpacket fun _ => hposition _ hin ▸ hhas
    · rw [Bool.not_eq_true] at hhas
      exact own_of_packet hpacket fun h => absurd (h.symm.trans hhas) (by decide)
  · rw [deliverRemote_eq] at hg
    cases hdown : voiceDown part with
    | none =>
      rw [hdown] at hg
      cases hg
    | some part' =>
      obtain rfl : part' = part := by
        unfold voiceDown at hdown
        dsimp only at hdown
        split_ifs at hdown
        exact (some.inj hdown).symm
      rw [hdown] at hg
      obtain ⟨⟨r, i⟩, he, hg⟩ := mem_filterMap.mp hg
      obtain ⟨rfl, d, hfound, hpacket⟩ := handAlone_eq_some hg
      obtain ⟨⟨id, hid, hconn⟩, rfl⟩ := findRemote_eq_some hfound
      have hin := hmem _ (fst_mem_of_mem_zipIdx he)
      refine ⟨hin, ?_, i, id, hid, hconn⟩
      rw [hsame] at hpacket
      exact own_of_packet hpacket fun h => hposition _ hin ▸ h

/-- A frame from a place. -/
def placedFrame : Frame := { plainFrame with position := (1, 2, 3), hasPosition := true }

/-- The second of two users has a connection of the newer kind. -/
def newerConn : ℕ → LocalView := fun _ => ⟨twoUsers.state, [(2, ⟨2, .protobuf⟩)]⟩

def placedBatch : VoiceBatch := ⟨⟨1, 1⟩, { placedFrame with senderSession := 1 },
  [⟨⟨2, 2⟩, contextNormal, SingleFloat.one, true, false⟩]⟩

theorem own_packet_handed_placed : ∃ batch part,
    routeRef plainPolicy twoUsers (targetResolver plainPolicy twoUsers.state []
      ⟨id, fun _ => id, fun _ => snapshotByChannel twoUsers.state⟩) (tableOrder twoUsers.state)
      ⟨1, 1⟩ placedFrame = some batch ∧
    dispatchVoice twoUsers.state.registry (fun _ => twoUsers.state.registry) "local" batch =
      some part ∧
    (deliverLocal newerConn part).map (fun g => g.recipient.session) = [⟨2, 2⟩] ∧
    ∀ g ∈ deliverLocal newerConn part, Own twoUsers.state 1 placedFrame g := by
  have hbatch : (routeRef plainPolicy twoUsers (targetResolver plainPolicy twoUsers.state []
      ⟨id, fun _ => id, fun _ => snapshotByChannel twoUsers.state⟩) (tableOrder twoUsers.state)
      ⟨1, 1⟩ placedFrame) = some placedBatch := by
    decide +kernel
  have hpart : dispatchVoice twoUsers.state.registry (fun _ => twoUsers.state.registry) "local"
      placedBatch = some placedBatch := by
    decide +kernel
  have hown := (own_packet_handed plainPolicy twoUsers [] _ _ (tableOrder_of _) ⟨1, 1⟩ placedFrame
    _ _ _ hbatch hpart).1 newerConn
  exact ⟨_, _, hbatch, hpart, by decide +kernel, fun g hg => (hown.2 g hg).2.1⟩

end MumbleServer.Audio
