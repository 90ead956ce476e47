import MumbleServer.Runs
import MumbleServer.Slots

/-! # The links of an edge, one after the other

`RemoteCoreClient` (`internal/edge/remotecore.go`): `Start` makes a link to Core, serves it, drops
it and makes the next one.  All links share the queue `out`.  `send` looks whether there is a link
and then puts its message in the queue; each link has a writer of its own, which takes messages from
the queue until it is told to stop; and `drop` throws away what is in the queue.

A run is any order of the accesses that these goroutines make.  `Out.link` is the link that `send`
has found up.  Dialling with the handshake is one step, and the reader of a link may fail at any
time. -/

namespace MumbleServer.CoreClient

open List

/-- `clientOut`, with the call of `send` it comes from and the link that the call has found up. -/
structure Out where
  id : ℕ
  reliable : Bool
  link : ℕ
deriving DecidableEq

/-- Where a call of `send` is. -/
inductive Sender
  | checking (reliable : Bool)
  | sending (reliable : Bool) (link : ℕ)
  /-- A reliable message waits for its `done`. -/
  | waiting
  | told (ok : Bool)
  | sent
  | refused
deriving DecidableEq

/-- Where a `writeLoop` is. -/
inductive Writer
  | idle
  | writing (o : Out)
  | exited
deriving DecidableEq

/-- A link: its socket, its `connDone`, its writer and what was written to it. -/
structure Link where
  socketClosed : Bool := false
  connDone : Bool := false
  writer : Writer := .idle
  written : List Out := []
deriving DecidableEq

/-- What `drop` does next. -/
inductive Stage
  | unset
  | closing
  | draining
deriving DecidableEq

/-- Where `Start` is. -/
inductive Manager
  | waiting
  | dialing
  | serving (k : ℕ)
  | dropping (k : ℕ) (stage : Stage)
  | ended
deriving DecidableEq

/-- `RemoteCoreClient`.  `accepted` has all messages that were put in the queue, `failed` those that
were thrown away or not written, and `reports` what the reliable ones were told. -/
structure Client where
  queueSize : ℕ
  conn : Option ℕ := none
  manager : Manager := .waiting
  out : List Out := []
  done : Bool := false
  cancelled : Bool := false
  links : List Link := []
  senders : List Sender := []
  accepted : List Out := []
  failed : List Out := []
  reports : List (ℕ × Bool) := []
deriving DecidableEq

inductive Event
  /-- A goroutine calls `send`, and makes its next access there.  If it may both queue the message
  and see that the client is closed, `accept` says which. -/
  | call (reliable : Bool)
  | sender (i : ℕ) (accept : Bool)
  /-- `Start`: its next round, a dial, the case of its `select` that is taken while it serves a
  link, and the next access of `drop`. -/
  | round
  | dial (ok : Bool)
  | lose
  | beat (accept : Bool)
  | leave
  | drop
  /-- The writer of link `k`. -/
  | take (k : ℕ)
  | write (k : ℕ) (ok : Bool)
  | quit (k : ℕ)
  /-- `Close`, and the end of the context. -/
  | close
  | closeSocket
  | cancel
deriving DecidableEq

namespace Client

def setLink (s : Client) (k : ℕ) (l : Link) : Client := { s with links := s.links.set k l }

def setSender (s : Client) (i : ℕ) (r : Sender) : Client := { s with senders := s.senders.set i r }

/-- The `select` of `send` with a default. -/
def takes (s : Client) (accept : Bool) : Bool :=
  decide (s.out.length < s.queueSize) && (!s.done || accept)

def push (s : Client) (o : Out) : Client :=
  { s with out := s.out ++ [o], accepted := o :: s.accepted }

/-- What becomes of a message, and what a reliable one is told. -/
def report (s : Client) (o : Out) (ok : Bool) : Client :=
  { s with
    failed := if ok then s.failed else o :: s.failed
    reports := if o.reliable then (o.id, ok) :: s.reports else s.reports }

def moveSender (s : Client) (i : ℕ) (accept : Bool) : Sender → Client
  | .checking reliable =>
    match s.conn with
    | none => s.setSender i .refused
    | some k => s.setSender i (.sending reliable k)
  | .sending reliable k =>
    if s.takes accept then
      (s.push ⟨i, reliable, k⟩).setSender i (if reliable then .waiting else .sent)
    else s.setSender i .refused
  | .waiting =>
    match s.reports.lookup i with
    | none => s
    | some ok => s.setSender i (.told ok)
  | .told _ | .sent | .refused => s

/-- A heartbeat is sent by the goroutine of `Start`.  If it is not taken, the link is dropped and
its writer is not told. -/
def heartbeat (s : Client) (k : ℕ) (accept : Bool) : Client :=
  match s.conn with
  | none => { s with manager := .dropping k .unset }
  | some up =>
    if s.takes accept then
      { s.push ⟨s.senders.length, false, up⟩ with senders := s.senders ++ [.sent] }
    else { s with manager := .dropping k .unset }

/-- The link is lost: its writer is told, and it is dropped. -/
def release (s : Client) (k : ℕ) : Client :=
  match s.links[k]? with
  | none => s
  | some l => { s.setLink k { l with connDone := true } with manager := .dropping k .unset }

def dropNext (s : Client) (k : ℕ) : Stage → Client
  | .unset =>
    { s with conn := if s.conn = some k then none else s.conn, manager := .dropping k .closing }
  | .closing =>
    match s.links[k]? with
    | none => s
    | some l => { s.setLink k { l with socketClosed := true } with
        manager := .dropping k .draining }
  | .draining =>
    match s.out with
    | [] => { s with manager := .waiting }
    | o :: rest => { s with out := rest }.report o false

/-- The goroutine of `Start`. -/
def manage (s : Client) : Event → Client
  | .round =>
    match s.manager with
    | .waiting => { s with manager := if s.done || s.cancelled then .ended else .dialing }
    | _ => s
  | .dial ok =>
    match s.manager with
    | .dialing =>
      if ok then
        { s with
          conn := some s.links.length
          links := s.links ++ [{}]
          manager := .serving s.links.length }
      else { s with manager := .waiting }
    | _ => s
  | .lose =>
    match s.manager with
    | .serving k => s.release k
    | _ => s
  | .beat accept =>
    match s.manager with
    | .serving k => s.heartbeat k accept
    | _ => s
  | .leave =>
    match s.manager with
    | .serving k => if s.done || s.cancelled then s.release k else s
    | _ => s
  | .drop =>
    match s.manager with
    | .dropping k stage => s.dropNext k stage
    | _ => s
  | _ => s

/-- `writeLoop` of link `k`. -/
def writerNext (s : Client) (k : ℕ) (l : Link) : Event → Client
  | .take _ =>
    match l.writer, s.out with
    | .idle, o :: rest => { s with out := rest }.setLink k { l with writer := .writing o }
    | _, _ => s
  | .write _ ok =>
    match l.writer with
    | .writing o =>
      if ok && !l.socketClosed then
        (s.report o true).setLink k { l with writer := .idle, written := o :: l.written }
      else (s.report o false).setLink k { l with writer := .exited }
    | _ => s
  | .quit _ =>
    match l.writer with
    | .idle => if s.done || l.connDone then s.setLink k { l with writer := .exited } else s
    | _ => s
  | _ => s

def step (s : Client) : Event → Client
  | .call reliable => { s with senders := s.senders ++ [.checking reliable] }
  | .sender i accept =>
    match s.senders[i]? with
    | none => s
    | some r => s.moveSender i accept r
  | .take k =>
    match s.links[k]? with
    | none => s
    | some l => s.writerNext k l (.take k)
  | .write k ok =>
    match s.links[k]? with
    | none => s
    | some l => s.writerNext k l (.write k ok)
  | .quit k =>
    match s.links[k]? with
    | none => s
    | some l => s.writerNext k l (.quit k)
  | .close => { s with done := true }
  | .closeSocket =>
    match s.conn with
    | none => s
    | some k =>
      match s.links[k]? with
      | none => s
      | some l => if s.done then s.setLink k { l with socketClosed := true } else s
  | .cancel => { s with cancelled := true }
  | e => s.manage e

end Client

/-! ### Messages and links -/

/-- The link that is served or being dropped. -/
def Manager.link : Manager → Option ℕ
  | .serving k | .dropping k _ => some k
  | _ => none

def Manager.up : Manager → Option ℕ
  | .serving k | .dropping k .unset => some k
  | _ => none

/-- The message is with the writer of its link or was written there. -/
def Client.Delivered (s : Client) (o : Out) : Prop :=
  ∃ l, s.links[o.link]? = some l ∧ (l.writer = .writing o ∨ o ∈ l.written)

/-- **Incarnations apart.**  A writer has messages of its own link only; an accepted message is in
the queue while its link is there, or with the writer of its link, or written to its link, or has
failed; and a reliable one that has failed is told so. -/
structure Apart (s : Client) : Prop where
  held : ∀ (k : ℕ) (l : Link) (o : Out), s.links[k]? = some l → l.writer = .writing o → o.link = k
  written : ∀ (k : ℕ) (l : Link) (o : Out), s.links[k]? = some l → o ∈ l.written → o.link = k
  fate : ∀ o ∈ s.accepted,
    (o ∈ s.out ∧ s.manager.link = some o.link) ∨ s.Delivered o ∨ o ∈ s.failed
  reported : ∀ o ∈ s.failed, o.reliable = true → (o.id, false) ∈ s.reports

/-- The link that a call of `send` has found up, if it is about to queue its message. -/
def Sender.seen : Sender → Option ℕ
  | .sending _ k => some k
  | _ => none

/-- A message is queued only while the link that `send` has found up is still up, and a link is made
only when the writers of all links before it have left their loops. -/
def Timely (s : Client) : Event → Prop
  | .sender i _ => ∀ r ∈ s.senders[i]?, r.seen.isSome = true → s.conn = r.seen
  | .dial ok => s.manager = .dialing → ok = true → ∀ l ∈ s.links, l.writer = .exited
  | _ => True

instance (s : Client) : ∀ e, Decidable (Timely s e)
  | .sender i _ =>
    inferInstanceAs (Decidable (∀ r ∈ s.senders[i]?, r.seen.isSome = true → s.conn = r.seen))
  | .dial ok => inferInstanceAs
      (Decidable (s.manager = .dialing → ok = true → ∀ l ∈ s.links, l.writer = .exited))
  | .call _ | .round | .lose | .beat _ | .leave | .drop | .take _ | .write _ _ | .quit _ | .close
  | .closeSocket | .cancel => isTrue trivial

/-- `Apart`, with what the goroutine of `Start` has to do with it; and the writers of all links but
the latest are gone. -/
structure Kept (s : Client) : Prop extends Apart s where
  gone : ∀ (k : ℕ) (l : Link), s.links[k]? = some l → k + 1 < s.links.length → l.writer = .exited
  latest : ∀ k, s.manager.link = some k → k + 1 = s.links.length
  up : ∀ k, s.conn = some k → s.manager.up = some k
  queued : ∀ o ∈ s.out, s.manager.link = some o.link

section kept
variable {s t : Client}
variable {k : ℕ} {m : Manager}

theorem Manager.link_of_up (h : m.up = some k) : m.link = some k := by
  cases m with
  | serving j => exact h
  | dropping j stage =>
    cases stage with
    | unset => exact h
    | closing | draining => cases h
  | _ => cases h

theorem Kept.frame (h : Kept s) (hlinks : t.links = s.links) (hout : t.out = s.out)
    (haccepted : t.accepted = s.accepted) (hfailed : t.failed = s.failed)
    (hreports : t.reports = s.reports) (hlink : s.out ≠ [] → t.manager.link = s.manager.link)
    (hlatest : ∀ k, t.manager.link = some k → s.manager.link = some k)
    (hup : ∀ k, t.conn = some k → t.manager.up = some k) : Kept t where
  gone := hlinks ▸ h.gone
  held k l o hl := h.held k l o (hlinks ▸ hl)
  written k l o hl := h.written k l o (hlinks ▸ hl)
  fate o ho := by
    rcases h.fate o (haccepted ▸ ho) with ⟨hq, hl⟩ | ⟨l, hl, hd⟩ | hf
    · rw [hout, hlink (ne_nil_of_mem hq)]
      exact .inl ⟨hq, hl⟩
    · exact .inr (.inl ⟨l, hlinks ▸ hl, hd⟩)
    · exact .inr (.inr (hfailed ▸ hf))
  reported o ho hr := by
    rw [hreports]
    exact h.reported o (hfailed ▸ ho) hr
  latest k hk := by
    rw [hlinks]
    exact h.latest k (hlatest k hk)
  up := hup
  queued o ho := by
    rw [hout] at ho
    rw [hlink (ne_nil_of_mem ho)]
    exact h.queued o ho

/-- Link `k` changes: what it has had it still has, or it has failed. -/
theorem Kept.setLink (h : Kept s) {l l' : Link} (hl : s.links[k]? = some l)
    (hlinks : t.links = s.links.set k l') (hout : t.out ⊆ s.out)
    (haccepted : t.accepted = s.accepted) (hlink : t.manager.link = s.manager.link)
    (hup : ∀ k, t.conn = some k → t.manager.up = some k)
    (hgone : l.writer = .exited → l'.writer = .exited)
    (hheld : ∀ o, l'.writer = .writing o → o.link = k) (hwritten : ∀ o ∈ l'.written, o.link = k)
    (htaken : ∀ o ∈ s.out, o ∈ t.out ∨ (o.link = k ∧ l'.writer = .writing o))
    (hkeeps : ∀ o, l.writer = .writing o ∨ o ∈ l.written →
      (l'.writer = .writing o ∨ o ∈ l'.written) ∨ o ∈ t.failed)
    (hfailed : s.failed ⊆ t.failed)
    (hreported : ∀ o ∈ t.failed, o.reliable = true → (o.id, false) ∈ t.reports) : Kept t where
  gone j m hm hj := by
    rw [hlinks] at hm
    rw [hlinks, length_set] at hj
    rcases getElem?_set_cases hm with ⟨rfl, rfl⟩ | ⟨-, hm⟩
    · exact hgone (h.gone _ l hl hj)
    · exact h.gone j m hm hj
  held j m o hm hw := by
    rw [hlinks] at hm
    rcases getElem?_set_cases hm with ⟨rfl, rfl⟩ | ⟨-, hm⟩
    · exact hheld o hw
    · exact h.held j m o hm hw
  written j m o hm ho := by
    rw [hlinks] at hm
    rcases getElem?_set_cases hm with ⟨rfl, rfl⟩ | ⟨-, hm⟩
    · exact hwritten o ho
    · exact h.written j m o hm ho
  fate o ho := by
    have hat : o.link = k → (l'.writer = .writing o ∨ o ∈ l'.written) → t.Delivered o := by
      rintro rfl hd
      refine ⟨l', ?_, hd⟩
      rw [hlinks, List.getElem?_set_self (List.getElem?_eq_some_iff.mp hl).1]
    rcases h.fate o (haccepted ▸ ho) with ⟨hq, hq'⟩ | ⟨m, hm, hd⟩ | hf
    · rcases htaken o hq with hq | ⟨hk, hw⟩
      · exact .inl ⟨hq, hlink.trans hq'⟩
      · exact .inr (.inl (hat hk (.inl hw)))
    · by_cases hk : o.link = k
      · have hml : m = l := by
          rw [hk, hl] at hm
          exact (Option.some.inj hm).symm
        rcases hkeeps o (hml ▸ hd) with hd | hf
        · exact .inr (.inl (hat hk hd))
        · exact .inr (.inr hf)
      · refine .inr (.inl ⟨m, ?_, hd⟩)
        rw [hlinks, getElem?_set_ne (Ne.symm hk), hm]
    · exact .inr (.inr (hfailed hf))
  reported := hreported
  latest j hj := by
    rw [hlinks, length_set]
    exact h.latest j (hlink ▸ hj)
  up := hup
  queued o ho := hlink.trans (h.queued o (hout ho))

theorem Kept.push (h : Kept s) {o : Out} (hup : s.conn = some o.link)
    (hlinks : t.links = s.links) (hout : t.out = s.out ++ [o])
    (haccepted : t.accepted = o :: s.accepted) (hfailed : t.failed = s.failed)
    (hreports : t.reports = s.reports) (hconn : t.conn = s.conn)
    (hmanager : t.manager = s.manager) : Kept t where
  gone := hlinks ▸ h.gone
  held k l o hl := h.held k l o (hlinks ▸ hl)
  written k l o hl := h.written k l o (hlinks ▸ hl)
  fate o' ho' := by
    rw [hout, hmanager, hfailed]
    rcases mem_cons.mp (haccepted ▸ ho') with rfl | ho'
    · exact .inl ⟨mem_append_right _ (mem_singleton_self _),
        Manager.link_of_up (h.up _ hup)⟩
    · rcases h.fate o' ho' with ⟨hq, hl⟩ | ⟨l, hl, hd⟩ | hf
      · exact .inl ⟨mem_append_left _ hq, hl⟩
      · exact .inr (.inl ⟨l, hlinks ▸ hl, hd⟩)
      · exact .inr (.inr hf)
  reported o ho hr := by
    rw [hreports]
    exact h.reported o (hfailed ▸ ho) hr
  latest k hk := by
    rw [hlinks]
    exact h.latest k (hmanager ▸ hk)
  up k hk := by
    rw [hmanager]
    exact h.up k (hconn ▸ hk)
  queued o' ho' := by
    rw [hmanager]
    rw [hout] at ho'
    rcases mem_append.mp ho' with ho' | ho'
    · exact h.queued o' ho'
    · rw [mem_singleton.mp ho']
      exact Manager.link_of_up (h.up _ hup)

theorem Apart.reported_report (h : Apart s) (o : Out) (ok : Bool) :
    ∀ o' ∈ (s.report o ok).failed, o'.reliable = true →
      (o'.id, false) ∈ (s.report o ok).reports := by
  intro o' ho' hr
  have hold : o' ∈ s.failed → (o'.id, false) ∈ (s.report o ok).reports := by
    intro ho'
    have hreported := h.reported o' ho' hr
    dsimp only [Client.report]
    split_ifs
    · exact mem_cons_of_mem _ hreported
    · exact hreported
  cases ok with
  | true => exact hold ho'
  | false =>
    rcases mem_cons.mp ho' with rfl | ho'
    · dsimp only [Client.report]
      rw [if_pos hr]
      exact mem_cons_self
    · exact hold ho'

theorem failed_report (s : Client) (o : Out) (ok : Bool) : s.failed ⊆ (s.report o ok).failed := by
  cases ok with
  | true => exact Subset.refl _
  | false => exact subset_cons_self _ _

section
variable (h : Kept s)
include h

theorem Kept.moveSender {i : ℕ} (accept : Bool) {r : Sender}
    (htimely : r.seen.isSome = true → s.conn = r.seen) :
    Kept (s.moveSender i accept r) := by
  have hset : ∀ r', Kept (s.setSender i r') := fun r' =>
    h.frame rfl rfl rfl rfl rfl (fun _ => rfl) (fun _ hk => hk) h.up
  cases r with
  | checking reliable =>
    dsimp only [Client.moveSender]
    split
    · exact hset .refused
    · exact hset _
  | sending reliable k =>
    have hup : s.conn = some (Out.link ⟨i, reliable, k⟩) := htimely rfl
    dsimp only [Client.moveSender]
    split_ifs
    · exact h.push hup rfl rfl rfl rfl rfl rfl rfl
    · exact h.push hup rfl rfl rfl rfl rfl rfl rfl
    · exact hset .refused
  | waiting =>
    dsimp only [Client.moveSender]
    split
    · exact h
    · exact hset _
  | told ok | sent | refused => exact h

theorem Kept.release (hk : s.manager = .serving k) : Kept (s.release k) := by
  unfold Client.release
  split
  · exact h
  · rename_i l hl
    refine h.setLink hl rfl (Subset.refl _) rfl ?_ (fun j hj => ?_) id (h.held k l · hl)
      (h.written k l · hl) (fun o ho => .inl ho) (fun o ho => .inl ho) (Subset.refl _)
      h.reported
    · rw [hk]
      rfl
    · have hup := h.up j hj
      rw [hk] at hup
      exact hup

theorem Kept.heartbeat (hk : s.manager = .serving k) (accept : Bool) :
    Kept (s.heartbeat k accept) := by
  have hdrop : Kept { s with manager := .dropping k .unset } := by
    refine h.frame rfl rfl rfl rfl rfl (fun _ => ?_) (fun j hj => ?_) fun j hj => ?_
    · rw [hk]
      rfl
    · rw [hk]
      exact hj
    · have hup := h.up j hj
      rw [hk] at hup
      exact hup
  unfold Client.heartbeat
  split
  · exact hdrop
  · rename_i up hup
    split_ifs
    · exact h.push hup rfl rfl rfl rfl rfl rfl rfl
    · exact hdrop

theorem Kept.dropNext {stage : Stage} (hk : s.manager = .dropping k stage) :
    Kept (s.dropNext k stage) := by
  have hlink : s.manager.link = some k := by
    rw [hk]
    rfl
  cases stage with
  | unset =>
    refine h.frame rfl rfl rfl rfl rfl (fun _ => hlink.symm) (fun j hj => hlink.trans hj)
      fun j hj => ?_
    have hj : (if s.conn = some k then none else s.conn) = some j := hj
    split_ifs at hj with hconn
    · -- no other link than the one being dropped is up
      have hup := h.up j hj
      rw [hk] at hup
      obtain rfl : k = j := Option.some.inj hup
      exact absurd hj hconn
  | closing =>
    unfold Client.dropNext
    dsimp only
    split
    · exact h
    · rename_i l hl
      refine h.setLink hl rfl (Subset.refl _) rfl hlink.symm (fun j hj => ?_) id
        (h.held k l · hl) (h.written k l · hl) (fun o ho => .inl ho) (fun o ho => .inl ho)
        (Subset.refl _) h.reported
      have hup := h.up j hj
      rw [hk] at hup
      cases hup
  | draining =>
    have hconn : ∀ j, s.conn ≠ some j := fun j hj => by
      have hup := h.up j hj
      rw [hk] at hup
      cases hup
    unfold Client.dropNext
    dsimp only
    split
    · rename_i hout
      exact h.frame rfl rfl rfl rfl rfl (fun hne => absurd hout hne) (fun j hj => by cases hj)
        fun j hj => absurd hj (hconn j)
    · rename_i o rest hout
      refine ⟨⟨h.held, h.written, fun o' ho' => ?_, h.reported_report o false⟩, h.gone, h.latest,
        h.up, fun o' ho' => h.queued o' (hout ▸ mem_cons_of_mem _ ho')⟩
      rcases h.fate o' ho' with ⟨hq, hl⟩ | hd | hf
      · rcases mem_cons.mp (hout ▸ hq) with rfl | hq
        · exact .inr (.inr mem_cons_self)
        · exact .inl ⟨hq, hl⟩
      · exact .inr (.inl hd)
      · exact .inr (.inr (mem_cons_of_mem _ hf))

theorem Kept.out_eq_nil (hm : s.manager.link = none) : s.out = [] := by
  rw [eq_nil_iff_forall_not_mem]
  intro o ho
  have hq := h.queued o ho
  rw [hm] at hq
  cases hq

theorem Kept.rest (hm : s.manager.link = none) (hm' : m.link = none) :
    Kept { s with manager := m } := by
  refine h.frame rfl rfl rfl rfl rfl (fun _ => hm'.trans hm.symm) (fun j hj => ?_) fun j hj => ?_
  · have hj : m.link = some j := hj
    rw [hm'] at hj
    cases hj
  · have hlink := Manager.link_of_up (h.up j hj)
    rw [hm] at hlink
    cases hlink

/-- A new link finds the queue empty. -/
theorem Kept.dial (hm : s.manager = .dialing) (hexited : ∀ l ∈ s.links, l.writer = .exited) :
    Kept { s with
      conn := some s.links.length
      links := s.links ++ [{}]
      manager := .serving s.links.length } := by
  have hout : s.out = [] := h.out_eq_nil (by rw [hm]; rfl)
  have hnew : ∀ {k : ℕ} {l : Link}, (s.links ++ [({} : Link)])[k]? = some l →
      s.links[k]? = some l ∨ l = {} := by
    intro k l hl
    rcases getElem?_concat_cases hl with ⟨-, rfl⟩ | hl
    · exact .inr rfl
    · exact .inl hl
  refine ⟨⟨fun k l o hl hw => ?_, fun k l o hl ho => ?_, fun o ho => ?_, h.reported⟩,
    fun k l hl hk => ?_, fun k hk => ?_, fun k hk => hk, fun o ho => ?_⟩
  · rcases hnew hl with hl | rfl
    · exact h.held k l o hl hw
    · cases hw
  · rcases hnew hl with hl | rfl
    · exact h.written k l o hl ho
    · cases ho
  · rcases h.fate o ho with ⟨hq, -⟩ | ⟨l, hl, hd⟩ | hf
    · rw [hout] at hq
      cases hq
    · exact .inr (.inl ⟨l, getElem?_concat _ hl, hd⟩)
    · exact .inr (.inr hf)
  · rcases getElem?_concat_cases hl with ⟨rfl, -⟩ | hl
    · exact absurd hk (by simp)
    · exact hexited l (mem_of_getElem? hl)
  · obtain rfl : s.links.length = k := Option.some.inj hk
    simp
  · have ho : o ∈ s.out := ho
    rw [hout] at ho
    cases ho

theorem Kept.manage {e : Event} (he : Timely s e) : Kept (s.manage e) := by
  cases e with
  | round =>
    dsimp only [Client.manage]
    split
    · rename_i hm
      refine h.rest (by rw [hm]; rfl) ?_
      split_ifs <;> rfl
    · exact h
  | dial ok =>
    dsimp only [Client.manage]
    split
    · rename_i hm
      split_ifs
      · rename_i hok
        exact h.dial hm (he hm hok)
      · exact h.rest (by rw [hm]; rfl) rfl
    · exact h
  | lose =>
    dsimp only [Client.manage]
    split
    · exact h.release (by assumption)
    · exact h
  | beat accept =>
    dsimp only [Client.manage]
    split
    · exact h.heartbeat (by assumption) accept
    · exact h
  | leave =>
    dsimp only [Client.manage]
    split
    · split_ifs
      · exact h.release (by assumption)
      · exact h
    · exact h
  | drop =>
    dsimp only [Client.manage]
    split
    · exact h.dropNext (by assumption)
    · exact h
  | _ => exact h

theorem Kept.writerNext {l : Link} (hl : s.links[k]? = some l) (e : Event) :
    Kept (s.writerNext k l e) := by
  cases e with
  | take j =>
    dsimp only [Client.writerNext]
    split
    · rename_i o rest hw hout
      have hlink : ∀ o' ∈ s.out, o'.link = k := by
        intro o' ho'
        -- a writer that is still in its loop is the one of the latest link
        have hlatest := h.latest o'.link (h.queued o' ho')
        have hlt : k < s.links.length := (List.getElem?_eq_some_iff.mp hl).1
        have hlast : ¬k + 1 < s.links.length := fun hk => by
          have hexited := h.gone k l hl hk
          rw [hw] at hexited
          cases hexited
        omega
      rw [hout] at hlink
      refine h.setLink hl rfl (hout ▸ subset_cons_self _ _) rfl rfl h.up (fun hx => ?_)
        (fun o' ho' => ?_) (h.written k l · hl) (fun o' ho' => ?_) (fun o' ho' => ?_)
        (Subset.refl _) h.reported
      · rw [hw] at hx
        cases hx
      · obtain rfl : o = o' := by injection ho'
        exact hlink o mem_cons_self
      · rcases mem_cons.mp (hout ▸ ho') with rfl | ho'
        · exact .inr ⟨hlink o' mem_cons_self, rfl⟩
        · exact .inl ho'
      · rw [hw] at ho'
        rcases ho' with ho' | ho'
        · cases ho'
        · exact .inl (.inr ho')
    · exact h
  | write j ok =>
    dsimp only [Client.writerNext]
    split
    · rename_i o hw
      have hheld : ∀ o', l.writer = .writing o' → o' = o := by
        intro o' ho'
        rw [hw] at ho'
        injection ho' with heq
        exact heq.symm
      have hstays : l.writer ≠ .exited := by
        rw [hw]
        nofun
      split_ifs
      · refine h.setLink hl rfl (Subset.refl _) rfl rfl h.up (fun hx => absurd hx hstays)
          (fun o' ho' => by cases ho') (fun o' ho' => ?_) (fun o' ho' => .inl ho')
          (fun o' ho' => ?_) (failed_report s o true) (h.reported_report o true)
        · rcases mem_cons.mp ho' with rfl | ho'
          · exact h.held k l o' hl hw
          · exact h.written k l o' hl ho'
        · rcases ho' with ho' | ho'
          · exact .inl (.inr (hheld o' ho' ▸ mem_cons_self))
          · exact .inl (.inr (mem_cons_of_mem _ ho'))
      · refine h.setLink hl rfl (Subset.refl _) rfl rfl h.up (fun _ => rfl)
          (fun o' ho' => by cases ho') (h.written k l · hl) (fun o' ho' => .inl ho')
          (fun o' ho' => ?_) (failed_report s o false) (h.reported_report o false)
        rcases ho' with ho' | ho'
        · exact .inr (hheld o' ho' ▸ mem_cons_self)
        · exact .inl (.inr ho')
    · exact h
  | quit j =>
    dsimp only [Client.writerNext]
    split
    · rename_i hw
      split_ifs
      · refine h.setLink hl rfl (Subset.refl _) rfl rfl h.up (fun _ => rfl)
          (fun o' ho' => by cases ho') (h.written k l · hl) (fun o' ho' => .inl ho')
          (fun o' ho' => ?_) (Subset.refl _) h.reported
        rw [hw] at ho'
        rcases ho' with ho' | ho'
        · cases ho'
        · exact .inl (.inr ho')
      · exact h
    · exact h
  | _ => exact h

theorem Kept.step {e : Event} (he : Timely s e) : Kept (s.step e) := by
  have hlater : ∀ (done cancelled : Bool) (senders : List Sender),
      Kept { s with done := done, cancelled := cancelled, senders := senders } := fun _ _ _ =>
    h.frame rfl rfl rfl rfl rfl (fun _ => rfl) (fun _ hk => hk) h.up
  cases e with
  | call reliable => exact hlater s.done s.cancelled _
  | sender i accept =>
    dsimp only [Client.step]
    split
    · exact h
    · rename_i r hr
      exact h.moveSender accept (he r hr)
  | take k | write k ok | quit k =>
    dsimp only [Client.step]
    split
    · exact h
    · exact h.writerNext (by assumption) _
  | close => exact hlater true s.cancelled s.senders
  | closeSocket =>
    dsimp only [Client.step]
    split
    · exact h
    · split
      · exact h
      · rename_i k _ _ l hl
        split_ifs
        · exact h.setLink hl rfl (Subset.refl _) rfl rfl h.up id (h.held k l · hl)
            (h.written k l · hl) (fun o ho => .inl ho) (fun o ho => .inl ho) (Subset.refl _)
            h.reported
        · exact h
  | cancel => exact hlater s.done true s.senders
  | round | dial ok | lose | beat accept | leave | drop =>
    dsimp only [Client.step]
    exact h.manage he

end

end kept

def newClient (queueSize : ℕ) : Client := { queueSize := queueSize }

theorem kept_new (queueSize : ℕ) : Kept (newClient queueSize) where
  gone _ _ h := by cases h
  held _ _ _ h := by cases h
  written _ _ _ h := by cases h
  fate _ h := by cases h
  reported _ h := by cases h
  latest _ h := by cases h
  up _ h := by cases h
  queued _ h := by cases h

/-- **The links do not mix** in a run in which no message is queued after the link that `send` has
found up was dropped, and the writer of a link has left its loop before the next link is made. -/
theorem links_apart (queueSize : ℕ) (es : List Event)
    (h : Along Client.step Timely (newClient queueSize) es) :
    Apart (run Client.step (newClient queueSize) es) := by
  have hkept : Kept (run Client.step (newClient queueSize) es) :=
    run_inv (fun s e hs he => hs.step he) (kept_new queueSize) h
  exact hkept.toApart

/-- A link is lost while a message is in the queue, and the next link carries the next message. -/
def relinked : List Event :=
  [.round, .dial true, .call false, .sender 0 true, .sender 0 true, .lose, .drop, .drop, .drop,
    .drop, .quit 0, .round, .dial true, .call true, .sender 1 true, .sender 1 true, .take 1,
    .write 1 true, .sender 1 true]

theorem links_apart_relinked :
    Along Client.step Timely (newClient 256) relinked ∧
    Apart (run Client.step (newClient 256) relinked) ∧
    (run Client.step (newClient 256) relinked).failed = [⟨0, false, 0⟩] ∧
    (run Client.step (newClient 256) relinked).senders = [.sent, .told true] := by
  have htimely : Along Client.step Timely (newClient 256) relinked := by decide
  exact ⟨htimely, links_apart 256 relinked htimely, by decide, by decide⟩

/-- A call of `send` has found the first link up and queues its message when the second one is. -/
def overtaken : List Event :=
  [.round, .dial true, .call false, .sender 0 true, .lose, .drop, .drop, .drop, .round, .dial true,
    .sender 0 true, .take 1, .write 1 true]

/-- A heartbeat finds the queue full.  The link is dropped, and its writer is still there when a
message is queued for the next one. -/
def outlived : List Event :=
  [.round, .dial true, .call false, .sender 0 true, .sender 0 true, .beat true, .drop, .drop, .drop,
    .drop, .round, .dial true, .call false, .sender 1 true, .sender 1 true, .take 0]

theorem links_mix :
    ((run Client.step (newClient 256) overtaken).links.map Link.written = [[], [⟨0, false, 0⟩]]) ∧
    ((run Client.step (newClient 1) outlived).links.map Link.writer =
      [.writing ⟨1, false, 1⟩, .idle]) ∧
    ¬Apart (run Client.step (newClient 256) overtaken) ∧
    ¬Apart (run Client.step (newClient 1) outlived) := by
  refine ⟨by decide, by decide, fun h => ?_, fun h => ?_⟩
  · have hlink := h.written 1 ⟨false, false, .idle, [⟨0, false, 0⟩]⟩ ⟨0, false, 0⟩ (by decide)
      (by decide)
    cases hlink
  · have hlink := h.held 0 ⟨true, false, .writing ⟨1, false, 1⟩, []⟩ ⟨1, false, 1⟩ (by decide) rfl
    cases hlink

end MumbleServer.CoreClient
