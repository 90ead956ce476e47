import MumbleServer.AssocList
import MumbleServer.AudioPacket
import MumbleServer.CryptState
import MumbleServer.Registry
import MumbleServer.Runs
import Mathlib.Data.List.Dedup
import Mathlib.Data.List.Perm.Subperm

/-! # Datagrams of clients

The two functions `HandleUDP`, of the Local Edge (`internal/mumble/handlers.go`) and of the Remote
Edge (`internal/edge/edgeruntime.go`).  A probe of a server list is answered at once.  Any other
datagram is one of a session, which it does not name.  The session that was last seen at the address
is tried first, and then all of them, in the order in which a map is read; the address of who is
found is recorded in both directions.

The Local Edge tries the Lite sessions last, since they accept everything; the Remote Edge does
not, and both take a sealed datagram that looks like a probe for one (`udp_attribution_iff`).  Both
forget to delete the old address of a session that moves (`udp_index_exact`). -/

namespace MumbleServer.Udp

open List Option
open AssocList (put delete)
open Crypto (Mode legacyOverhead secureOverhead)

/-! ### The two runtimes -/

/-- A connection of a session; without a `Crypt` there is no mode.  `registered` is whether the
registry of the Core has the session as Active, which a Remote Edge does not ask. -/
structure Conn where
  ref : SessionRef
  mode : Option Mode
  active : Bool
  registered : Bool
deriving DecidableEq

/-- A datagram, with the sessions of which the keys open it. -/
structure Datagram (A : Type) where
  addr : A
  data : List UInt8
  opens : SessionRef → Bool

/-- An order in which a map is read. -/
structure Enumeration where
  of : List Conn → List Conn
  perm : ∀ l, (of l).Perm l

/-- `connections`, `addrBySession` and `sessionByAddr`. -/
structure Ingress (A : Type) where
  conns : List Conn
  addrBySession : List (SessionRef × A)
  sessionByAddr : List (A × SessionRef)

inductive Runtime
  | localEdge
  | remoteEdge
deriving DecidableEq

section handlers
variable {A : Type} (s : Ingress A) (d : Datagram A) (c : Conn)

/-- `Decrypt` succeeds: Lite takes everything. -/
def Conn.decrypts : Bool :=
  match c.mode with
  | none => false
  | some .lite => true
  | some _ => d.opens c.ref

/-- The loop of `DecodePing` over the fields: the timestamp, and whether more is asked for. -/
def pingFields (b : List UInt8) (ping : UInt64 × Bool) : Option (UInt64 × Bool) :=
  if b = [] then some ping
  else
    match _h : Audio.nextField b with
    | none => none
    | some (f, rest) =>
      if 1 ≤ f.field ∧ f.field ≤ 6 ∧ f.typ ≠ 0 then none
      else pingFields rest (if f.field = 1 then f.value else ping.1,
        if f.field = 2 then decide (f.value ≠ 0) else ping.2)
termination_by b.length
decreasing_by exact Audio.nextField_length _h

/-- `DecodePing` of the protobuf form. -/
def decodePing (b : List UInt8) : Option (UInt64 × Bool) :=
  if b.length < 2 ∨ Audio.maxPacketSize < b.length then none
  else if b.head? = some 1 then pingFields b.tail (0, false)
  else none

/-- `PlainPingReply` answers: to twelve bytes that begin with four zeros, and to a protobuf ping
that asks for more. -/
def isProbe (data : List UInt8) : Bool :=
  if data.length = 12 ∧ data.take 4 = [0, 0, 0, 0] then true
  else if 1 < data.length ∧ data.head? = some 1 then
    (decodePing (1 :: data.tail)).any Prod.snd
  else false

/-- The length of the plaintext; without a `Crypt` the buffer is taken as it is. -/
def Conn.plainLength (size : ℕ) : ℕ :=
  match c.mode with
  | none => size + 64
  | some .lite => size
  | some .legacy => size - legacyOverhead
  | some .secure => size - secureOverhead

/-- The trial of the Local Edge: one mode after the other. -/
def localTrial (order : Mode → Enumeration) : Option Conn :=
  [Mode.secure, .legacy, .lite].findSome? fun mode =>
    ((order mode).of s.conns).find? fun c => c.active && decide (c.mode = some mode) && c.decrypts d

def remoteTrial (order : Enumeration) : Option Conn :=
  (order.of s.conns).find? fun c => c.active && c.decrypts d

variable [DecidableEq A]

/-- The connection of the session that was last seen at the address. -/
def Ingress.cached : Option Conn :=
  (s.sessionByAddr.lookup d.addr).bind fun ref => s.conns.find? fun c => decide (c.ref = ref)

/-- Whom a datagram that is no probe is attributed to; the Remote Edge reads its map once. -/
def tried (r : Runtime) (order : Mode → Enumeration) : Option Conn :=
  match r with
  | .localEdge =>
    ((s.cached d).filter fun c => c.active && c.decrypts d).or (localTrial s d order)
  | .remoteEdge =>
    ((s.cached d).filter fun c => decide (c.mode = none) || c.decrypts d).or
      (remoteTrial s d (order .secure))

/-- Whom a datagram is attributed to; a probe is answered and attributed to nobody. -/
def identify (r : Runtime) (order : Mode → Enumeration) : Option Conn :=
  if isProbe d.data then none else tried s d r order

/-- The Local Edge deletes an address whose session does not accept the datagram. -/
def Ingress.forget (r : Runtime) : Ingress A :=
  if r = .localEdge ∧ (s.cached d).any fun c => c.active && c.mode.isSome && !c.decrypts d then
    { s with sessionByAddr := delete s.sessionByAddr d.addr }
  else s

def Ingress.record (ref : SessionRef) (addr : A) : Ingress A :=
  { s with
    addrBySession := put s.addrBySession ref addr
    sessionByAddr := put s.sessionByAddr addr ref }

def handleUDP (r : Runtime) (order : Mode → Enumeration) : Ingress A :=
  if isProbe d.data then s
  else
    match tried s d r order with
    | none => s.forget d r
    | some c =>
      if c.plainLength d.data.length = 0 ∨ r = .localEdge ∧ c.registered = false then s.forget d r
      else (s.forget d r).record c.ref d.addr

/-- The index when a session is closed; the Remote Edge deletes its address whoever has it. -/
def Ingress.unmapped (r : Runtime) (ref : SessionRef) : List (A × SessionRef) :=
  match s.addrBySession.lookup ref, r with
  | none, _ => s.sessionByAddr
  | some addr, .localEdge => s.sessionByAddr.filter fun e => decide (e ≠ (addr, ref))
  | some addr, .remoteEdge => delete s.sessionByAddr addr

/-- `UnregisterConn` and `OnClose`. -/
def close (r : Runtime) (ref : SessionRef) : Ingress A where
  conns := s.conns.filter fun c => decide (c.ref ≠ ref)
  addrBySession := delete s.addrBySession ref
  sessionByAddr := s.unmapped r ref

end handlers

inductive Event (A : Type)
  /-- A session connects, or its connection changes. -/
  | conn (c : Conn)
  | datagram (order : Mode → Enumeration) (d : Datagram A)
  | close (ref : SessionRef)

def step {A : Type} [DecidableEq A] (r : Runtime) (s : Ingress A) : Event A → Ingress A
  | .conn c => { s with conns := c :: s.conns.filter fun x => decide (x.ref ≠ c.ref) }
  | .datagram order d => handleUDP s d r order
  | .close ref => close s r ref

/-! ### Attribution -/

section attribution
variable {A : Type} {s : Ingress A} {d : Datagram A} {c : Conn}

/-- The datagram authenticates under one Secure or Legacy session. -/
structure Authenticates (s : Ingress A) (d : Datagram A) (c : Conn) : Prop where
  mem : c ∈ s.conns
  active : c.active = true
  opens : d.opens c.ref = true
  mode : c.mode = some .secure ∨ c.mode = some .legacy
  only : ∀ x ∈ s.conns, x.active = true → x.mode = some .secure ∨ x.mode = some .legacy →
    d.opens x.ref = true → x = c

theorem decrypts_of_mode (hmode : c.mode = some .secure ∨ c.mode = some .legacy) :
    c.decrypts d = d.opens c.ref := by
  rcases hmode with h | h <;> simp [Conn.decrypts, h]

theorem Authenticates.decrypts (h : Authenticates s d c) : c.decrypts d = true :=
  (decrypts_of_mode h.mode).trans h.opens

/-- A search over connections that only one can pass finds that one. -/
theorem find_of_only {l : List Conn} {p : Conn → Bool} (hc : c ∈ l) (hp : p c = true)
    (honly : ∀ x ∈ l, p x = true → x = c) : l.find? p = some c := by
  cases hfind : l.find? p with
  | none => exact absurd hp (find?_eq_none.mp hfind c hc)
  | some x =>
    rw [honly x (mem_of_find?_eq_some hfind) (find?_some hfind)]

theorem localTrial_of_authenticates (h : Authenticates s d c) (order : Mode → Enumeration) :
    localTrial s d order = some c := by
  have hmem : ∀ {mode x}, x ∈ (order mode).of s.conns ↔ x ∈ s.conns :=
    ((order _).perm s.conns).mem_iff
  have honly : ∀ mode, mode = .secure ∨ mode = .legacy → ∀ x ∈ (order mode).of s.conns,
      (x.active && decide (x.mode = some mode) && x.decrypts d) = true → x = c := by
    intro mode hmode x hx hp
    simp only [Bool.and_eq_true, decide_eq_true_eq] at hp
    obtain ⟨⟨hactive, hxmode⟩, hdecrypts⟩ := hp
    have hx' : x.mode = some .secure ∨ x.mode = some .legacy := by
      rcases hmode with rfl | rfl
      · exact .inl hxmode
      · exact .inr hxmode
    exact h.only x (hmem.mp hx) hactive hx' (decrypts_of_mode hx' ▸ hdecrypts)
  have hfind : ∀ mode, mode = .secure ∨ mode = .legacy → c.mode = some mode →
      (((order mode).of s.conns).find? fun x =>
        x.active && decide (x.mode = some mode) && x.decrypts d) = some c := by
    intro mode hmode hc
    exact find_of_only (hmem.mpr h.mem) (by simp [h.active, hc, h.decrypts]) (honly mode hmode)
  unfold localTrial
  rcases h.mode with hc | hc
  · rw [findSome?_cons, hfind _ (.inl rfl) hc]
  · have hsecure : (((order .secure).of s.conns).find? fun x =>
        x.active && decide (x.mode = some .secure) && x.decrypts d) = none := by
      refine find?_eq_none.mpr fun x hx hp => ?_
      obtain rfl := honly _ (.inl rfl) x hx hp
      simp [hc] at hp
    rw [findSome?_cons, hsecure, findSome?_cons, hfind _ (.inr rfl) hc]

/-- The connections that pass a test come first. -/
def Enumeration.first (p : Conn → Bool) : Enumeration where
  of l := l.filter p ++ l.filter fun x => !p x
  perm l := filter_append_perm p l

theorem remoteTrial_iff (h : Authenticates s d c) :
    (∀ order, remoteTrial s d order = some c) ↔
      ∀ x ∈ s.conns, x.active = true → x.mode ≠ some .lite := by
  constructor
  · intro hall x hx hactive hlite
    have hpass : (x.active && x.decrypts d) = true := by simp [hactive, Conn.decrypts, hlite]
    have hfirst : remoteTrial s d (.first fun y => decide (y = x)) = some x := by
      unfold remoteTrial Enumeration.first
      rw [find?_append, find_of_only (mem_filter.mpr ⟨hx, decide_eq_true rfl⟩) hpass]
      · rfl
      · intro y hy _
        exact of_decide_eq_true (mem_filter.mp hy).2
    obtain rfl : x = c := some.inj (hfirst.symm.trans (hall _))
    rcases h.mode with hmode | hmode <;> simp [hlite] at hmode
  · intro hlite order
    have hmem : ∀ {x}, x ∈ order.of s.conns ↔ x ∈ s.conns := (order.perm s.conns).mem_iff
    refine find_of_only (hmem.mpr h.mem) (by simp [h.active, h.decrypts]) fun x hx hp => ?_
    obtain ⟨hactive, hdecrypts⟩ := Bool.and_eq_true_iff.mp hp
    have hne := hlite x (hmem.mp hx) hactive
    have hmode : x.mode = some .secure ∨ x.mode = some .legacy := by
      unfold Conn.decrypts at hdecrypts
      cases hm : x.mode with
      | none => simp [hm] at hdecrypts
      | some m => cases m <;> simp_all
    exact h.only x (hmem.mp hx) hactive hmode (decrypts_of_mode hmode ▸ hdecrypts)

/-- **Attribution.**  A datagram from a new address that authenticates under one Secure or Legacy
session goes to that session on the Local Edge, in whatever order the maps are read, unless it looks
like a probe.  It does so on both edges just if besides no Lite session is Active; and the edges
agree on it just if one of the two is so. -/
theorem udp_attribution_iff [DecidableEq A] (s : Ingress A) (d : Datagram A) (c : Conn)
    (h : Authenticates s d c) (hnew : s.sessionByAddr.lookup d.addr = none) :
    ((∀ order, identify s d .localEdge order = some c) ↔ isProbe d.data = false) ∧
    ((∀ r order, identify s d r order = some c) ↔ isProbe d.data = false ∧
      ∀ x ∈ s.conns, x.active = true → x.mode ≠ some .lite) ∧
    ((∀ order order', identify s d .localEdge order = identify s d .remoteEdge order') ↔
      isProbe d.data = true ∨ ∀ x ∈ s.conns, x.active = true → x.mode ≠ some .lite) := by
  have hcached : s.cached d = none := by
    unfold Ingress.cached
    rw [hnew]
    rfl
  have hlocal : ∀ order, tried s d .localEdge order = some c := by
    intro order
    simp only [tried, hcached, filter_none, none_or]
    exact localTrial_of_authenticates h order
  have hremote : ∀ order, tried s d .remoteEdge order = remoteTrial s d (order .secure) := by
    intro order
    simp only [tried, hcached, filter_none, none_or]
  have hany (p : Option Conn → Prop) : (∀ order : Mode → Enumeration,
      p (remoteTrial s d (order .secure))) ↔ ∀ order, p (remoteTrial s d order) :=
    ⟨fun hall order => hall fun _ => order, fun hall order => hall _⟩
  cases hprobe : isProbe d.data with
  | true =>
    have hnone : ∀ r order, identify s d r order = none := by
      simp [identify, hprobe]
    have hno : ∀ r, identify s d r (fun _ => .first fun _ => true) ≠ some c := by simp [hnone]
    exact ⟨⟨fun hall => absurd (hall _) (hno _), nofun⟩,
      ⟨fun hall => absurd (hall _ _) (hno .localEdge), fun hp => nomatch hp.1⟩, by simp [hnone]⟩
  | false =>
    have htried : ∀ r order, identify s d r order = tried s d r order := by
      simp [identify, hprobe]
    refine ⟨by simp [htried, hlocal], ?_, ?_⟩
    · rw [← remoteTrial_iff h, ← hany (· = some c)]
      constructor
      · intro hall
        exact ⟨rfl, fun order => (hremote order).symm.trans ((htried _ _).symm.trans (hall _ _))⟩
      · rintro ⟨-, hall⟩ r order
        rw [htried]
        cases r with
        | localEdge => exact hlocal order
        | remoteEdge => exact (hremote order).trans (hall order)
    · simp only [htried, hlocal, hremote, Bool.false_eq_true, false_or, ← remoteTrial_iff h,
        ← hany (· = some c)]
      exact ⟨fun hall order => (hall order order).symm, fun hall _ order => (hall order).symm⟩

end attribution

/-- A Secure and a Lite session, and a datagram of the first. -/
def Mixed.ingress : Ingress ℕ :=
  ⟨[⟨⟨1, 1⟩, some .secure, true, true⟩, ⟨⟨2, 2⟩, some .lite, true, true⟩], [], []⟩

def Mixed.voice : Datagram ℕ := ⟨7, replicate 40 0x5A, fun ref => decide (ref = ⟨1, 1⟩)⟩

open Mixed in
theorem udp_attribution_mixed :
    ((∀ order, identify ingress voice .localEdge order =
      some ⟨⟨1, 1⟩, some .secure, true, true⟩) ↔ isProbe voice.data = false) ∧
    ((∀ r order, identify ingress voice r order = some ⟨⟨1, 1⟩, some .secure, true, true⟩) ↔
      isProbe voice.data = false ∧ ∀ x ∈ ingress.conns, x.active = true → x.mode ≠ some .lite) ∧
    ((∀ order order', identify ingress voice .localEdge order =
      identify ingress voice .remoteEdge order') ↔
      isProbe voice.data = true ∨
        ∀ x ∈ ingress.conns, x.active = true → x.mode ≠ some .lite) :=
  udp_attribution_iff ingress voice _ ⟨by decide, rfl, by decide, .inl rfl, by decide⟩ rfl

open Mixed in
/-- The Remote Edge happens to read the Lite session first, and takes the datagram for its own.  A
datagram whose first bytes come out as zeros is taken for a probe by both. -/
theorem lite_takes_datagram :
    Authenticates ingress voice ⟨⟨1, 1⟩, some .secure, true, true⟩ ∧
    identify ingress voice .remoteEdge
        (fun _ => .first fun c => decide (c.mode = some .lite)) =
      some ⟨⟨2, 2⟩, some .lite, true, true⟩ ∧
    ∀ r order, identify ingress { voice with data := replicate 12 0 } r order = none :=
  ⟨⟨by decide, rfl, by decide, .inl rfl, by decide⟩, by decide, fun _ _ => rfl⟩

/-! ### The address index -/

section index
variable {A : Type} {s : Ingress A} {d : Datagram A} {c : Conn}

/-- Every address in the index is the recorded address of a session that is there. -/
structure Exact (s : Ingress A) : Prop where
  keys : (s.sessionByAddr.map Prod.fst).Nodup
  live : ∀ e ∈ s.sessionByAddr, ∃ c ∈ s.conns, c.ref = e.2
  recorded : ∀ e ∈ s.sessionByAddr, s.addrBySession.lookup e.2 = some e.1

theorem Exact.length_le (h : Exact s) :
    s.sessionByAddr.length ≤ (s.conns.map Conn.ref).dedup.length := by
  have hnodup : (s.sessionByAddr.map Prod.snd).Nodup := by
    refine h.keys.of_map.map_on fun e he e' he' heq => ?_
    have haddr := h.recorded e he
    rw [heq, h.recorded e' he'] at haddr
    exact Prod.ext (some.inj haddr).symm heq
  have hsub : s.sessionByAddr.map Prod.snd ⊆ (s.conns.map Conn.ref).dedup := by
    intro ref href
    obtain ⟨e, he, rfl⟩ := mem_map.mp href
    obtain ⟨c, hc, hce⟩ := h.live e he
    exact mem_dedup.mpr (hce ▸ mem_map_of_mem hc)
  rw [← length_map (f := Prod.snd)]
  exact (subperm_of_subset hnodup hsub).length_le

/-- No session whose key opens the datagram is in the index under another address. -/
def Steady (s : Ingress A) : Event A → Prop
  | .datagram _ d => ∀ c ∈ s.conns, c.decrypts d = true →
      ∀ addr, (addr, c.ref) ∈ s.sessionByAddr → addr = d.addr
  | .conn _ | .close _ => True

variable [DecidableEq A]

theorem forget_frame (s : Ingress A) (d : Datagram A) (r : Runtime) :
    (s.forget d r).conns = s.conns ∧ (s.forget d r).addrBySession = s.addrBySession ∧
      (s.forget d r).sessionByAddr.Sublist s.sessionByAddr := by
  unfold Ingress.forget
  split_ifs
  · exact ⟨rfl, rfl, filter_sublist⟩
  · exact ⟨rfl, rfl, .refl _⟩

theorem Exact.forget (h : Exact s) (d : Datagram A) (r : Runtime) : Exact (s.forget d r) := by
  obtain ⟨hconns, haddr, hsub⟩ := forget_frame s d r
  refine ⟨h.keys.sublist (hsub.map _), fun e he => ?_, fun e he => ?_⟩
  · rw [hconns]
    exact h.live e (hsub.subset he)
  · rw [haddr]
    exact h.recorded e (hsub.subset he)

/-- The session is known, and it has no other address in the index. -/
theorem tried_steady (h : Exact s) {r : Runtime} {order : Mode → Enumeration}
    (hsteady : Steady s (.datagram order d)) (hc : tried s d r order = some c) :
    c ∈ s.conns ∧ ∀ addr, (addr, c.ref) ∈ s.sessionByAddr → addr = d.addr := by
  have hcached : s.cached d = some c →
      c ∈ s.conns ∧ ∀ addr, (addr, c.ref) ∈ s.sessionByAddr → addr = d.addr := by
    intro hcached
    obtain ⟨ref, href, hfind⟩ := bind_eq_some_iff.mp hcached
    obtain rfl : c.ref = ref := by simpa using find?_some hfind
    refine ⟨mem_of_find?_eq_some hfind, fun addr haddr => ?_⟩
    have hrecorded := h.recorded _ (AssocList.mem_of_lookup href)
    rw [h.recorded _ haddr] at hrecorded
    exact some.inj hrecorded
  have htried : c ∈ s.conns → c.decrypts d = true →
      c ∈ s.conns ∧ ∀ addr, (addr, c.ref) ∈ s.sessionByAddr → addr = d.addr :=
    fun hmem hdecrypts => ⟨hmem, hsteady c hmem hdecrypts⟩
  cases r with
  | localEdge =>
    rcases or_eq_some_iff.mp hc with hc | ⟨-, hc⟩
    · exact hcached (filter_eq_some_iff.mp hc).1
    · obtain ⟨mode, -, hfind⟩ := exists_of_findSome?_eq_some hc
      have hp := find?_some hfind
      exact htried (((order mode).perm _).mem_iff.mp (mem_of_find?_eq_some hfind))
        (Bool.and_eq_true_iff.mp hp).2
  | remoteEdge =>
    rcases or_eq_some_iff.mp hc with hc | ⟨-, hc⟩
    · exact hcached (filter_eq_some_iff.mp hc).1
    · unfold remoteTrial at hc
      have hp := find?_some hc
      exact htried (((order _).perm _).mem_iff.mp (mem_of_find?_eq_some hc))
        (Bool.and_eq_true_iff.mp hp).2

theorem Exact.record (h : Exact s) {addr : A} (hc : c ∈ s.conns)
    (honly : ∀ a, (a, c.ref) ∈ s.sessionByAddr → a = addr) : Exact (s.record c.ref addr) := by
  have hold : ∀ e ∈ delete s.sessionByAddr addr, e ∈ s.sessionByAddr ∧ e.2 ≠ c.ref := by
    intro e he
    obtain ⟨he, hne⟩ := AssocList.mem_delete he
    exact ⟨he, fun heq => hne (honly e.1 (heq ▸ he))⟩
  refine ⟨?_, fun e he => ?_, fun e he => ?_⟩
  · refine nodup_cons.mpr ⟨fun hmem => ?_, h.keys.sublist (filter_sublist.map _)⟩
    obtain ⟨e, he, heq⟩ := mem_map.mp hmem
    exact (AssocList.mem_delete he).2 heq
  · rcases mem_cons.mp he with rfl | he
    · exact ⟨c, hc, rfl⟩
    · exact h.live e (hold e he).1
  · rw [Ingress.record, AssocList.lookup_put]
    rcases mem_cons.mp he with rfl | he
    · exact if_pos rfl
    · rw [if_neg (hold e he).2]
      exact h.recorded e (hold e he).1

theorem exact_close (h : Exact s) (r : Runtime) (ref : SessionRef) : Exact (close s r ref) := by
  have hsub : (s.unmapped r ref).Sublist s.sessionByAddr := by
    unfold Ingress.unmapped
    split
    · exact .refl _
    · exact filter_sublist
    · exact filter_sublist
  have hgone : ∀ e ∈ s.unmapped r ref, e.2 ≠ ref := by
    rintro e he rfl
    have hrecorded := h.recorded e (hsub.subset he)
    unfold Ingress.unmapped at he
    rw [hrecorded] at he
    cases r with
    | localEdge => simpa using (mem_filter.mp he).2
    | remoteEdge => exact (AssocList.mem_delete he).2 rfl
  refine ⟨h.keys.sublist (hsub.map _), fun e he => ?_, fun e he => ?_⟩
  · obtain ⟨c, hc, href⟩ := h.live e (hsub.subset he)
    exact ⟨c, mem_filter.mpr ⟨hc, by simpa [href] using hgone e he⟩, href⟩
  · show (delete s.addrBySession ref).lookup e.2 = _
    rw [AssocList.lookup_delete, if_neg (hgone e he)]
    exact h.recorded e (hsub.subset he)

theorem exact_step (r : Runtime) (s : Ingress A) (e : Event A) (h : Exact s)
    (hsteady : Steady s e) : Exact (step r s e) := by
  cases e with
  | conn c =>
    refine ⟨h.keys, fun e he => ?_, h.recorded⟩
    obtain ⟨x, hx, hxe⟩ := h.live e he
    by_cases href : x.ref = c.ref
    · exact ⟨c, mem_cons_self, href.symm.trans hxe⟩
    · exact ⟨x, .tail _ (mem_filter.mpr ⟨hx, by simpa using href⟩), hxe⟩
  | datagram order d =>
    show Exact (handleUDP s d r order)
    unfold handleUDP
    split
    · exact h
    split
    · exact h.forget d r
    · rename_i c hc
      split_ifs
      · exact h.forget d r
      · obtain ⟨hmem, honly⟩ := tried_steady h hsteady hc
        obtain ⟨hconns, -, hsub⟩ := forget_frame s d r
        exact (h.forget d r).record (hconns ▸ hmem) fun a ha => honly a (hsub.subset ha)
  | close ref => exact exact_close h r ref

/-- **The address index** of either edge is exact after every sequence of datagrams and closes, if
no datagram comes that the key of a session opens which the index has under another address: every
entry is the recorded address of a session that is there, and there are at most as many as
sessions. -/
theorem udp_index_exact (r : Runtime) (events : List (Event A))
    (h : Along (step r) Steady ⟨[], [], []⟩ events) :
    let s := run (step r) ⟨[], [], []⟩ events
    (∀ addr ref, (addr, ref) ∈ s.sessionByAddr →
      (∃ c ∈ s.conns, c.ref = ref) ∧ s.addrBySession.lookup ref = some addr) ∧
    s.sessionByAddr.length ≤ (s.conns.map Conn.ref).dedup.length := by
  intro s
  have hempty : Exact (⟨[], [], []⟩ : Ingress A) := ⟨nodup_nil, by simp, by simp⟩
  have hexact : Exact s := run_inv (exact_step r) hempty h
  exact ⟨fun addr ref hmem => ⟨hexact.live _ hmem, hexact.recorded _ hmem⟩, hexact.length_le⟩

end index

namespace Moving

def inOrder : Mode → Enumeration := fun _ => ⟨id, fun _ => .refl _⟩

def hello (addr : ℕ) : Event ℕ :=
  .datagram inOrder ⟨addr, replicate 40 0x5A, fun ref => decide (ref = ⟨1, 1⟩)⟩

def connected : Event ℕ := .conn ⟨⟨1, 1⟩, some .secure, true, true⟩

end Moving

open Moving in
/-- A session stays where it is and closes. -/
theorem udp_index_exact_stays :
    let s := run (step .localEdge) ⟨[], [], []⟩ [connected, hello 7, hello 7, .close ⟨1, 1⟩]
    (∀ addr ref, (addr, ref) ∈ s.sessionByAddr →
      (∃ c ∈ s.conns, c.ref = ref) ∧ s.addrBySession.lookup ref = some addr) ∧
    s.sessionByAddr.length ≤ (s.conns.map Conn.ref).dedup.length := by
  refine udp_index_exact .localEdge _ ⟨trivial, ?_, fun c _ _ addr haddr => ?_, trivial, trivial⟩
  · intro _ _ _ _ haddr
    cases haddr
  · have hmap : (run (step .localEdge) ⟨[], [], []⟩ [connected, hello 7]).sessionByAddr =
        [(7, ⟨1, 1⟩)] := by decide
    exact (Prod.mk.inj (mem_singleton.mp (hmap ▸ haddr))).1

open Moving in
/-- A session moves to another address and closes; its first address stays in the index of both
edges. -/
theorem moved_address_stays : [Runtime.localEdge, .remoteEdge].map (fun r =>
      let moved := run (step r) ⟨[], [], []⟩ [connected, hello 7, hello 8]
      let closed := step r moved (.close ⟨1, 1⟩)
      (moved.sessionByAddr, moved.addrBySession, closed.sessionByAddr, closed.conns)) =
    List.replicate 2 ([(8, ⟨1, 1⟩), (7, ⟨1, 1⟩)], [(⟨1, 1⟩, 8)], [(7, ⟨1, 1⟩)], []) := by
  decide

end MumbleServer.Udp
