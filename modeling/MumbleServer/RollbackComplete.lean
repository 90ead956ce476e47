import MumbleServer.AuthRollback

/-! # Logins roll back

The invariant of `Login.step`, and what is left of a session when everybody has returned.  As long
as the connection takes messages, its end has not looked for the session; so if the CryptSetup could
be queued, `OnClose` will find the session that the connection got.  From then on each cleanup has
taken back what its progress says, and nothing is added to the tables but the connection, voice
targets and channels that the session listens to.  That is where the source goes wrong: nobody who
adds them looks whether a cleanup has been there. -/

namespace MumbleServer.AuthRollback

open UserManager
open Option

/-! ### The invariant -/

/-- `OnClose` is about the session, or not there yet. -/
def Phase.Held (base t : Tables) (conn : ℕ) (ref : SessionRef) : Phase → Prop
  | .live | .marked | .ended | .closed => True
  | .reading sid => sid = ref.sessionID
  | .cleaning r c => r = ref ∧ Progress base t conn ref c
  | .gone => False

/-- `controlFailed` is about the session, or not there yet. -/
def Failure.Held (base t : Tables) (conn : ℕ) (ref : SessionRef) : Failure → Prop
  | .idle => True
  | .notifying r => r = ref
  | .cleaning r c => r = ref ∧ Progress base t conn ref c

/-- The connection was open after it had got the session, so that its end cleans up. -/
structure Good (base : Tables) (s : Login) (ref : SessionRef) : Prop where
  linked : Linked base s.tables s.conn ref
  phase : s.phase.Held base s.tables s.conn ref
  failure : s.failure.Held base s.tables s.conn ref
  session : s.session = ref
  valid : ref.valid = true

/-- Nothing but the record is there of the session. -/
structure Bare (base : Tables) (s : Login) (ref : SessionRef) : Prop where
  unbound : ¬s.tables.bound ref
  queue : ref ∉ s.tables.queues
  conn : ¬entered base s.tables s.conn ref

/-- What holds while the login is at a stage. -/
def AtStage (base : Tables) (s : Login) (ref : SessionRef) : Stage → Prop
  | .asking _ | .adding _ => False
  | .numbering r => r = ref ∧ Bare base s ref ∧ s.failure = .idle
  | .stamping r =>
    r = ref ∧ Bare base s ref ∧ s.failure = .idle ∧ s.session.sessionID = ref.sessionID
  | .binding r => r = ref ∧ Bare base s ref ∧ s.failure = .idle ∧ s.session = ref
  | .beginning r | .closing r | .backing r =>
    r = ref ∧ ref ∉ s.tables.queues ∧ ¬entered base s.tables s.conn ref ∧ s.failure = .idle ∧
      s.session = ref ∧ ref.valid = true
  | .undoing r => r = ref ∧ Bare base s ref
  | .ciphering r =>
    r = ref ∧ ¬entered base s.tables s.conn ref ∧ (s.phase.accepts = true → Good base s ref)
  | .registering r | .sending r _ | .committing r | .awaiting r => r = ref ∧ Good base s ref
  | .aborting r => r = ref ∧ (Good base s ref ∨ ¬entered base s.tables s.conn ref)
  | .cleaning r c =>
    r = ref ∧ (Good base s ref ∨ ¬entered base s.tables s.conn ref) ∧ ref ∉ s.tables.queues ∧
      Progress base s.tables s.conn ref c
  | .refused => Progress base s.tables s.conn ref .finished
  | .admitted =>
    Good base s ref ∧ (s.phase = .live → s.failure = .idle → s.tables.registry.active ref = true)

/-- Before the login has a session. -/
structure Waiting (base : Tables) (s : Login) : Prop where
  stage : (∃ u, s.stage = .asking u) ∨ (∃ u, s.stage = .adding u) ∨ s.stage = .refused
  failure : s.failure = .idle
  generation : s.tables.users.generation = base.users.generation
  bound : ∀ ref, s.tables.bound ref → ref.generation ≤ base.users.generation
  queues : ∀ q ∈ s.tables.queues, q.generation ≤ base.users.generation
  conns : s.tables.conns ⊆ base.conns
  targets : ∀ ref, Mentions s.tables.targets ref → ref.generation ≤ base.users.generation
  listeners : s.tables.listeners ⊆ base.listeners

/-- After it got one. -/
structure Owned (base : Tables) (s : Login) (ref : SessionRef) : Prop where
  generation : base.users.generation < ref.generation
  /-- Nobody else has the session ID. -/
  unique : ∀ u, s.tables.users.snapshot ref.sessionID = some u → u.sessionGeneration = ref.generation
  stage : AtStage base s ref s.stage

structure Inv (base : Tables) (s : Login) : Prop where
  sound : Sound s.tables
  waiting : s.obtained = none → Waiting base s
  owned : ∀ ref, s.obtained = some ref → Owned base s ref

/-! ### Steps of the others -/

/-- The session of the login, or any one that it may get. -/
structure Own (base : Tables) (s : Login) (ref : SessionRef) : Prop where
  generation : base.users.generation < ref.generation
  obtained : ∀ x, s.obtained = some x → x = ref

/-- A step that adds nothing to the tables for the session and does not bring it back to where no
cleanup is under way. -/
structure Beside (base : Tables) (s s' : Login) : Prop where
  sound : Sound s'.tables
  shrinks : ∀ ref, Own base s ref → Shrinks ref s.tables s'.tables
  conn : s'.conn = s.conn
  session : s'.session = s.session
  obtained : s'.obtained = s.obtained
  accepts : s'.phase.accepts = true → s.phase.accepts = true
  idle : s.failure = .idle → s'.failure = .idle ∨ ∃ ref, s.obtained = some ref ∧ ref ∈ s.tables.queues
  still : s'.phase = .live → s'.failure = .idle →
    s.phase = .live ∧ s.failure = .idle ∧ s'.tables.registry = s.tables.registry
  good : ∀ ref, s.obtained = some ref → Good base s ref → Good base s' ref

section beside
variable {base : Tables} {s s' : Login} {ref : SessionRef}

theorem Bare.shrinks (hb : Bare base s ref) (h : Shrinks ref s.tables s'.tables)
    (hconn : s'.conn = s.conn) : Bare base s' ref where
  unbound hbound := hb.unbound (h.bound ref hbound)
  queue hq := hb.queue (h.queues hq)
  conn := by
    rw [hconn]
    exact h.not_entered hb.conn

theorem Beside.idle_of_not_mem (h : Beside base s s') (hs : s.obtained = some ref)
    (hq : ref ∉ s.tables.queues) (hi : s.failure = .idle) : s'.failure = .idle := by
  rcases h.idle hi with hi' | ⟨x, hx, hmem⟩
  · exact hi'
  · obtain rfl := some.inj (hs.symm.trans hx)
    exact absurd hmem hq

theorem AtStage.beside (h : Beside base s s') (hs : s.obtained = some ref)
    (hgen : base.users.generation < ref.generation) {g : Stage}
    (hg : AtStage base s ref g) : AtStage base s' ref g := by
  have hgood := h.good ref hs
  have hsh : Shrinks ref s.tables s'.tables :=
    h.shrinks ref ⟨hgen, fun x hx => some.inj (hx.symm.trans hs)⟩
  have hbare : Bare base s ref → Bare base s' ref := fun hb => hb.shrinks hsh h.conn
  have hentered : ¬entered base s.tables s.conn ref → ¬entered base s'.tables s'.conn ref := by
    rw [h.conn]
    exact hsh.not_entered
  have hqueue : ref ∉ s.tables.queues → ref ∉ s'.tables.queues := fun hn hq =>
    hn (hsh.queues hq)
  have hprogress : ∀ {c}, Progress base s.tables s.conn ref c →
      Progress base s'.tables s'.conn ref c := by
    rw [h.conn]
    exact Progress.shrinks hsh
  cases g with
  | asking u => exact hg
  | adding u => exact hg
  | numbering r => exact ⟨hg.1, hbare hg.2.1, h.idle_of_not_mem hs hg.2.1.queue hg.2.2⟩
  | stamping r | binding r =>
    obtain ⟨hr, hb, hi, hid⟩ := hg
    exact ⟨hr, hbare hb, h.idle_of_not_mem hs hb.queue hi, by rw [h.session, hid]⟩
  | beginning r | closing r | backing r =>
    obtain ⟨hr, hq, he, hi, hid, hv⟩ := hg
    exact ⟨hr, hqueue hq, hentered he, h.idle_of_not_mem hs hq hi, by rw [h.session, hid], hv⟩
  | undoing r => exact ⟨hg.1, hbare hg.2⟩
  | ciphering r => exact ⟨hg.1, hentered hg.2.1, fun ha => hgood (hg.2.2 (h.accepts ha))⟩
  | registering r | committing r | awaiting r | sending r left => exact ⟨hg.1, hgood hg.2⟩
  | aborting r => exact ⟨hg.1, hg.2.imp hgood hentered⟩
  | cleaning r c =>
    obtain ⟨hr, hor, hq, hp⟩ := hg
    exact ⟨hr, hor.imp hgood hentered, hqueue hq, hprogress hp⟩
  | refused => exact hprogress (c := .finished) hg
  | admitted =>
    refine ⟨hgood hg.1, fun hl hf => ?_⟩
    obtain ⟨hl', hf', ht⟩ := h.still hl hf
    rw [ht]
    exact hg.2 hl' hf'

theorem Inv.beside (h : Inv base s) (hb : Beside base s s') (hstage : s'.stage = s.stage) :
    Inv base s' where
  sound := hb.sound
  waiting hn := by
    rw [hb.obtained] at hn
    have hw := h.waiting hn
    have hown : ∀ ref, base.users.generation < ref.generation → Shrinks ref s.tables s'.tables :=
      fun ref hgen => hb.shrinks ref ⟨hgen, fun x hx => by rw [hn] at hx; cases hx⟩
    have hsh := hown ⟨0, base.users.generation + 1⟩ (Nat.lt_succ_self _)
    refine ⟨by rw [hstage]; exact hw.stage, ?_, hsh.generation.trans hw.generation,
      fun ref hr => hw.bound ref (hsh.bound ref hr), fun q hq => hw.queues q (hsh.queues hq),
      fun p hp => hw.conns (hsh.conns hp), fun ref hm => ?_, fun l hl =>
      hw.listeners (hsh.listeners hl)⟩
    · rcases hb.idle hw.failure with hi | ⟨ref, hs, -⟩
      · exact hi
      · rw [hn] at hs
        cases hs
    · by_contra hgen
      exact hgen (hw.targets ref ((hown ref (Nat.not_le.mp hgen)).targets hm))
  owned ref hs := by
    rw [hb.obtained] at hs
    have ho := h.owned ref hs
    have hsh := hb.shrinks ref ⟨ho.generation, fun x hx => some.inj (hx.symm.trans hs)⟩
    exact ⟨ho.generation, fun u hu => ho.unique u (hsh.users _ u hu),
      by rw [hstage]; exact ho.stage.beside hb hs ho.generation⟩

theorem beside_phase (h : Inv base s) {p : Phase} (hne : p ≠ .live)
    (haccepts : p.accepts = true → s.phase.accepts = true)
    (hheld : ∀ ref, s.session = ref → ref.valid = true → s.phase.Held base s.tables s.conn ref →
      p.Held base s.tables s.conn ref) : Beside base s { s with phase := p } where
  sound := h.sound
  shrinks ref _ := .refl ref _
  conn := rfl
  session := rfl
  obtained := rfl
  accepts := haccepts
  idle hi := .inl hi
  still hp _ := absurd hp hne
  good ref _ hg := { hg with phase := hheld ref hg.session hg.valid hg.phase }

theorem Inv.close (h : Inv base s) : Inv base s.close := by
  unfold Login.close
  split_ifs with hp
  · exact h.beside (beside_phase h (by simp) (by simp [hp, Phase.accepts]) fun _ _ _ _ => trivial)
      rfl
  · exact h

theorem Failure.Held.shrinks {t t' : Tables} {conn : ℕ} {f : Failure} (hsh : Shrinks ref t t')
    (h : f.Held base t conn ref) : f.Held base t' conn ref := by
  cases f with
  | idle => trivial
  | notifying r => exact h
  | cleaning r c => exact ⟨h.1, h.2.shrinks hsh⟩

theorem Phase.Held.shrinks {t t' : Tables} {conn : ℕ} {p : Phase} (hsh : Shrinks ref t t')
    (h : p.Held base t conn ref) : p.Held base t' conn ref := by
  cases p with
  | cleaning r c => exact ⟨h.1, h.2.shrinks hsh⟩
  | _ => exact h

theorem Inv.release (h : Inv base s) : Inv base s.release := by
  unfold Login.release
  cases hp : s.phase with
  | live => exact h
  | gone => exact h
  | marked | ended =>
    refine h.beside (beside_phase h (by simp) (by simp [Phase.accepts]) ?_) rfl
    exact fun _ _ _ _ => trivial
  | closed =>
    refine h.beside (beside_phase h (by simp) (by simp [Phase.accepts]) ?_) rfl
    rintro ref rfl - -
    rfl
  | reading sid =>
    refine h.beside (beside_phase h ?_ ?_ ?_) rfl
    · split_ifs <;> simp
    · split_ifs <;> simp [Phase.accepts]
    · rintro ref rfl hv hheld
      rw [hp] at hheld
      obtain rfl : sid = s.session.sessionID := hheld
      rw [if_pos hv]
      exact ⟨rfl, trivial⟩
  | cleaning x c =>
    obtain ⟨hsound, hsh⟩ := h.sound.clean x c
    refine h.beside ⟨hsound, fun x _ => hsh x, rfl, rfl, rfl, by simp [Phase.accepts], .inl,
      fun hl => by simp at hl, fun ref _ hg => ?_⟩ rfl
    have hphase := hg.phase
    rw [hp] at hphase
    obtain ⟨rfl, hprogress⟩ := hphase
    exact ⟨hg.linked.clean h.sound fun _ => hprogress,
      ⟨rfl, hprogress.clean h.sound hg.linked⟩, hg.failure.shrinks (hsh _), hg.session, hg.valid⟩

theorem Inv.fail (h : Inv base s) : Inv base s.fail := by
  unfold Login.fail
  split
  · next ref hidle hs =>
      split_ifs with hq
      · refine h.beside ⟨h.sound, fun x _ => .refl x _, rfl, rfl, rfl, id, fun _ => .inr ⟨ref, hs, hq⟩,
          fun _ hf => by simp at hf, fun x hx hg => ?_⟩ rfl
        obtain rfl := some.inj (hs.symm.trans hx)
        exact { hg with failure := rfl }
      · exact h
  · exact h

theorem Inv.recover (h : Inv base s) : Inv base s.recover := by
  unfold Login.recover
  cases hf : s.failure with
  | idle => exact h
  | notifying x =>
    refine h.beside ⟨h.sound.beginClose, fun _ _ => .beginClose, rfl, rfl, rfl, id,
      fun hi => by simp [hf] at hi, fun _ hi => by simp at hi, fun ref _ hg => ?_⟩ rfl
    have hx := hg.failure
    rw [hf] at hx
    exact ⟨hg.linked.shrinks .beginClose bound_beginClose, hg.phase.shrinks .beginClose,
      ⟨hx, trivial⟩, hg.session, hg.valid⟩
  | cleaning x c =>
    obtain ⟨hsound, hsh⟩ := h.sound.clean x c
    refine h.beside ⟨hsound, fun x _ => hsh x, rfl, rfl, rfl, id, fun hi => by simp [hf] at hi,
      fun _ hi => by simp at hi, fun ref _ hg => ?_⟩ rfl
    have hfailure := hg.failure
    rw [hf] at hfailure
    obtain ⟨rfl, hprogress⟩ := hfailure
    exact ⟨hg.linked.clean h.sound fun _ => hprogress, hg.phase.shrinks (hsh _),
      ⟨rfl, hprogress.clean h.sound hg.linked⟩, hg.session, hg.valid⟩

theorem Good.shrinks (hg : Good base s ref) {t : Tables} (hsh : Shrinks ref s.tables t)
    (hb : t.bound ref ↔ s.tables.bound ref) (g : Stage) :
    Good base { s with tables := t, stage := g } ref :=
  ⟨hg.linked.shrinks hsh hb, hg.phase.shrinks hsh, hg.failure.shrinks hsh, hg.session, hg.valid⟩

/-- What is entered for a session that no cleanup has marked will be taken back. -/
theorem Good.enter (hg : Good base s ref) (hstanding : s.tables.standing ref = true) (t : Tables)
    (hregistry : t.registry = s.tables.registry) (g : Stage) :
    Good base { s with tables := t, stage := g } ref := by
  have hbound : t.bound ref := by
    unfold Tables.bound
    rw [hregistry]
    exact bound_of_any hstanding
  have hleaving : ∀ c, Progress base s.tables s.conn ref c → c = .leaving := by
    intro c hp
    cases c with
    | leaving => rfl
    | detaching | clearing | silencing | unbinding => simp [Progress, hstanding] at hp
    | removing | finished => exact absurd (bound_of_any hstanding) hp.1
  refine ⟨⟨fun _ => hbound, fun _ => hbound⟩, ?_, ?_, hg.session, hg.valid⟩
  · have hphase := hg.phase
    show s.phase.Held _ _ _ _
    generalize s.phase = p at hphase ⊢
    cases p with
    | cleaning x c => exact ⟨hphase.1, by rw [hleaving c hphase.2]; trivial⟩
    | _ => exact hphase
  · have hfailure := hg.failure
    show s.failure.Held _ _ _ _
    generalize s.failure = f at hfailure ⊢
    cases f with
    | cleaning x c => exact ⟨hfailure.1, by rw [hleaving c hfailure.2]; trivial⟩
    | _ => exact hfailure

end beside

/-! ### Steps of the login -/

section advance
variable {base : Tables} {s s' : Login} {ref : SessionRef} {r : Registry}

section
variable (h : Inv base s)
include h

theorem Inv.move (hs : s.obtained = some ref) (hs' : s'.obtained = some ref)
    (hsound : Sound s'.tables)
    (husers : ∀ u, s'.tables.users.snapshot ref.sessionID = some u →
      s.tables.users.snapshot ref.sessionID = some u)
    (hstage : AtStage base s' ref s'.stage) : Inv base s' where
  sound := hsound
  waiting hn := by
    rw [hs'] at hn
    cases hn
  owned x hx := by
    obtain rfl := some.inj (hs'.symm.trans hx)
    have ho := h.owned ref hs
    exact ⟨ho.generation, fun u hu => ho.unique u (husers u hu), hstage⟩

theorem Inv.turn (hs : s.obtained = some ref) {g : Stage}
    (hstage : AtStage base s ref g) : Inv base { s with stage := g } := by
  have hb : Beside base s { s with stage := g } :=
    { sound := h.sound
      shrinks := fun x _ => .refl x _
      conn := rfl
      session := rfl
      obtained := rfl
      accepts := id
      idle := .inl
      still := fun hp hf => ⟨hp, hf, rfl⟩
      good := fun _ _ hg => { hg with } }
  exact h.move hs hs h.sound (fun _ hu => hu) (hstage.beside hb hs (h.owned ref hs).generation)

theorem Inv.add (hn : s.obtained = none) {u stored : User} {users : UserManager}
    (ha : s.tables.users.add u = (users, some stored)) :
    Inv base { s with
      tables.users := users, stage := .numbering stored.ref, obtained := some stored.ref } := by
  have hw := h.waiting hn
  obtain ⟨hgen, -⟩ := generation_of_add ha
  have hlt : base.users.generation < stored.ref.generation := by
    rw [← hw.generation]
    exact Nat.lt_of_lt_of_eq (Nat.lt_succ_self _) hgen.symm
  refine ⟨{ h.sound with
    users := valid_add h.sound.users ha
    indexed := indexed_add h.sound.users h.sound.indexed ha }, by simp, ?_⟩
  intro ref href
  obtain rfl := some.inj href
  refine ⟨hlt, fun v hv => ?_, rfl, ⟨fun hb => ?_, fun hq => ?_, fun he => ?_⟩, hw.failure⟩
  · have hstored : users.snapshotRef stored.ref = some stored :=
      (snapshotRef_add h.sound.users ha stored.ref).trans (if_pos rfl)
    obtain rfl := some.inj (hv.symm.trans (snapshotRef_eq_some.mp hstored).1)
    rfl
  · exact absurd (hw.bound _ hb) (Nat.not_le.mpr hlt)
  · exact absurd (hw.queues _ hq) (Nat.not_le.mpr hlt)
  · rcases he with (hc | hm) | ⟨cid, hl, hbase⟩
    · exact hc.2 (hw.conns hc.1)
    · exact absurd (hw.targets _ hm) (Nat.not_le.mpr hlt)
    · exact hbase (hw.listeners hl)

theorem Inv.addNone (hn : s.obtained = none) {u : User} {users : UserManager}
    (ha : s.tables.users.add u = (users, none)) :
    Inv base { s with tables.users := users, stage := .refused } := by
  have hw := h.waiting hn
  refine ⟨{ h.sound with
    users := valid_add h.sound.users ha
    indexed := indexed_add h.sound.users h.sound.indexed ha }, fun _ => ?_,
    fun ref href => nomatch hn.symm.trans href⟩
  exact { hw with
    stage := .inr (.inr rfl), generation := (same_of_add ha).2.trans hw.generation }

theorem Inv.advance_none (hn : s.obtained = none) (ok : Bool) : Inv base (s.advance ok) := by
  have hw := h.waiting hn
  unfold Login.advance
  rcases hw.stage with ⟨u, hu⟩ | ⟨u, hu⟩ | hu
  · rw [hu]
    refine ⟨h.sound, fun _ => ?_, fun ref href => nomatch hn.symm.trans href⟩
    cases ok with
    | true => exact { hw with stage := .inr (.inl ⟨u, rfl⟩) }
    | false => exact { hw with stage := .inr (.inr rfl) }
  · rw [hu]
    cases ha : s.tables.users.add u with
    | mk users found =>
      cases found with
      | none => simpa only [ha] using h.addNone hn ha
      | some stored => simpa only [ha] using h.add hn ha
  · rw [hu]
    exact h

section
variable (hs : s.obtained = some ref)
include hs

theorem Inv.bind (hb : Bare base s ref) (hi : s.failure = .idle) (hsession : s.session = ref)
    (hr : s.tables.registry.bind ref LocalLogin.localEdgeID = .ok r) :
    Inv base { s with tables.registry := r, stage := .beginning ref } := by
  have hnone : s.tables.registry.snapshot ref = none := not_not.mp hb.unbound
  have hvalid := (Registry.bind_ok hr).1
  refine h.move hs hs { h.sound with registry := Registry.valid_bind h.sound.registry hr hnone }
    (fun _ hu => hu) ?_
  exact ⟨rfl, hb.queue, hb.conn, hi, hsession, hvalid⟩

theorem Inv.begin
    (he : ¬entered base s.tables s.conn ref) (hi : s.failure = .idle) (hsession : s.session = ref)
    (hv : ref.valid = true) (hsync : s.tables.syncing ref = true) :
    Inv base { s with tables.queues := ref :: s.tables.queues, stage := .ciphering ref } := by
  refine h.move hs hs { h.sound with } (fun _ hu => hu) ⟨rfl, he, fun ha => ?_⟩
  refine ⟨⟨fun _ => bound_of_any hsync, fun he' => absurd he' he⟩, ?_, ?_, hsession, hv⟩
  · have ha' : s.phase.accepts = true := ha
    show s.phase.Held _ _ _ _
    cases hp : s.phase with
    | live => trivial
    | marked => trivial
    | _ =>
      rw [hp] at ha'
      cases ha'
  · show s.failure.Held _ _ _ _
    rw [hi]
    trivial

/-- The connection is entered while no cleanup has begun. -/
theorem Inv.register (hg : Good base s ref) (hstanding : s.tables.standing ref = true) :
    Inv base { s with
      tables.conns := AssocList.put s.tables.conns ref.sessionID s.conn
      stage := .sending ref s.initial } :=
  h.move hs hs { h.sound with } (fun _ hu => hu) ⟨rfl, hg.enter hstanding _ (by rfl) _⟩

end

end

section
variable (h : Inv base s) (hs : s.obtained = some ref)
include h hs

theorem Inv.commit (hg : Good base s ref) (hc : s.tables.registry.commitActive ref = .ok r) :
    Inv base { s with tables.registry := r, stage := .admitted } := by
  have ⟨hr, hactive⟩ := Registry.commitActive_spec hc
  subst hr
  have hsh : Shrinks ref s.tables { s.tables with
      registry := s.tables.registry.modify ref fun e => { e with state := .active } } :=
    .modify (.inl (standing_of_commitActive hc))
  exact h.move hs hs (h.sound.modify _) (fun _ hu => hu)
    ⟨hg.shrinks hsh bound_modify _, fun _ _ => hactive⟩

section
variable (hor : Good base s ref ∨ ¬entered base s.tables s.conn ref)
include hor

theorem Inv.abort (c : Login)
    (hc : c = s ∨ c = s.close) :
    Inv base { c with tables := s.tables.take ref, stage := .cleaning ref .leaving } := by
  have hsame : c.conn = s.conn ∧ c.session = s.session ∧ c.obtained = s.obtained ∧
      c.failure = s.failure ∧ (c.phase = s.phase ∨ c.phase = .marked) := by
    rcases hc with rfl | rfl
    · exact ⟨rfl, rfl, rfl, rfl, .inl rfl⟩
    · unfold Login.close
      split_ifs
      · exact ⟨rfl, rfl, rfl, rfl, .inr rfl⟩
      · exact ⟨rfl, rfl, rfl, rfl, .inl rfl⟩
  obtain ⟨hconn, hsession, hobtained, hfailure, hphase⟩ := hsame
  refine h.move hs (hobtained.trans hs) { h.sound with } (fun _ hu => hu)
    ⟨rfl, ?_, not_mem_take, trivial⟩
  refine hor.imp (fun hg => ?_) fun he => ?_
  · refine ⟨?_, ?_, ?_, hsession.trans hg.session, hg.valid⟩
    · rw [show Login.conn _ = s.conn from hconn]
      exact hg.linked.shrinks .take Iff.rfl
    · show c.phase.Held base (s.tables.take ref) c.conn ref
      rcases hphase with hp | hp
      · rw [hp, hconn]
        exact hg.phase.shrinks .take
      · rw [hp]
        trivial
    · show c.failure.Held base (s.tables.take ref) c.conn ref
      rw [hfailure, hconn]
      exact hg.failure.shrinks .take
  · show ¬entered base (s.tables.take ref) c.conn ref
    rw [hconn]
    exact he

theorem Inv.clean (hq : ref ∉ s.tables.queues)
    {c : Cleanup} (hp : Progress base s.tables s.conn ref c) :
    Inv base { s with
      tables := (s.tables.clean ref c).1
      stage := if (s.tables.clean ref c).2 = .finished then .refused
        else .cleaning ref (s.tables.clean ref c).2 } := by
  obtain ⟨hsound, hsh⟩ := h.sound.clean ref c
  have hlinked : Linked base s.tables s.conn ref := by
    refine ⟨fun h => absurd h hq, fun he => ?_⟩
    rcases hor with hg | hn
    · exact hg.linked.conn he
    · exact absurd he hn
  have hprogress := hp.clean h.sound hlinked
  refine h.move hs hs hsound (fun u hu => (hsh ref).users _ u hu) ?_
  by_cases hfin : (s.tables.clean ref c).2 = .finished
  · rw [hfin] at hprogress
    simp only [if_pos hfin]
    exact hprogress
  · simp only [if_neg hfin]
    refine ⟨rfl, ?_, fun h => hq ((hsh ref).queues h), hprogress⟩
    refine hor.imp (fun hg => ?_) (hsh ref).not_entered
    exact ⟨hg.linked.clean h.sound fun _ => hp, hg.phase.shrinks (hsh ref),
      hg.failure.shrinks (hsh ref), hg.session, hg.valid⟩

end

theorem Inv.advance_some (ok : Bool)
    (ht : timely s (.advance ok) = true) : Inv base (s.advance ok) := by
  have hat := (h.owned ref hs).stage
  revert ht hat
  unfold Login.advance timely
  cases s.stage with
  | asking u | adding u => exact fun _ hat => hat.elim
  | numbering r =>
    rintro - ⟨rfl, hb, hi⟩
    exact h.move hs hs h.sound (fun _ hu => hu) ⟨rfl, ⟨hb.unbound, hb.queue, hb.conn⟩, hi, rfl⟩
  | stamping r =>
    rintro - ⟨rfl, hb, hi, hid⟩
    refine h.move hs hs h.sound (fun _ hu => hu) ⟨rfl, ⟨hb.unbound, hb.queue, hb.conn⟩, hi, ?_⟩
    show SessionRef.mk s.session.sessionID r.generation = r
    rw [hid]
  | binding r =>
    rintro - ⟨rfl, hb, hi, hsession⟩
    dsimp only
    split
    · exact h.turn hs (g := .undoing r) ⟨rfl, hb⟩
    · next reg hr => exact h.bind hs hb hi hsession hr
  | beginning r =>
    rintro - ⟨rfl, hq, he, hi, hsession, hv⟩
    dsimp only
    split_ifs with hsync
    · exact h.begin hs he hi hsession hv hsync.2.1
    · exact h.turn hs (g := .closing r) ⟨rfl, hq, he, hi, hsession, hv⟩
  | closing r =>
    rintro - ⟨rfl, hq, he, hi, hsession, hv⟩
    have hsh : Shrinks r s.tables (s.tables.beginClose r) := .beginClose
    exact h.move hs hs h.sound.beginClose (fun u hu => hsh.users _ u hu)
      ⟨rfl, fun h => hq (hsh.queues h), hsh.not_entered he, hi, hsession, hv⟩
  | backing r =>
    rintro - ⟨rfl, hq, he, hi, hsession, hv⟩
    refine h.move hs hs h.sound.unbind (fun _ hu => hu) ⟨rfl, ⟨fun hb => ?_, hq, he⟩⟩
    exact ((bound_unbind h.sound.registry).mp hb).2 rfl
  | undoing r =>
    rintro - ⟨rfl, hb⟩
    exact h.move hs hs h.sound.remove
      (fun u hu => (Shrinks.remove (x := r)).users _ u hu)
      ⟨hb.unbound, hb.queue, hb.conn, not_recorded_remove⟩
  | ciphering r =>
    rintro - ⟨rfl, he, hgood⟩
    dsimp only
    split_ifs with hok
    · exact h.turn hs (g := .registering r) ⟨rfl, hgood hok.2⟩
    · exact h.turn hs (g := .aborting r) ⟨rfl, .inr he⟩
  | registering r =>
    rintro hstanding ⟨rfl, hg⟩
    exact h.register hs hg hstanding
  | sending r left =>
    rintro - ⟨rfl, hg⟩
    dsimp only
    split_ifs
    · cases left with
      | zero => exact h.turn hs (g := .committing r) ⟨rfl, hg⟩
      | succ left => exact h.turn hs (g := .sending r left) ⟨rfl, hg⟩
    · exact h.turn hs (g := .aborting r) ⟨rfl, .inl hg⟩
  | committing r =>
    rintro - ⟨rfl, hg⟩
    dsimp only
    split_ifs
    · exact h.turn hs (g := .awaiting r) ⟨rfl, hg⟩
    · exact h.turn hs (g := .aborting r) ⟨rfl, .inl hg⟩
  | awaiting r =>
    rintro - ⟨rfl, hg⟩
    dsimp only
    split
    · next reg hc => exact h.commit hs hg hc
    · exact h.turn hs (g := .aborting r) ⟨rfl, .inl hg⟩
  | aborting r =>
    rintro - ⟨rfl, hor⟩
    refine h.abort hs hor _ ?_
    split_ifs
    · exact .inr rfl
    · exact .inl rfl
  | cleaning r c =>
    rintro - ⟨rfl, hor, hq, hp⟩
    exact h.clean hs hor hq hp
  | refused | admitted => exact fun _ _ => h

end

end advance

/-! ### Whole runs -/

variable {s : Login} {base : Tables}

/-- A target is stored: it has nothing to do with the session, or it is taken back later. -/
theorem Inv.voiceTarget (h : Inv base s) {w : Acl.World} {c : SessionRef} {vt : Voice.VoiceTarget}
    (ht : timely s (.voiceTarget w c vt) = true) : Inv base (s.voiceTarget w c vt) := by
  have hsound : Sound (s.voiceTarget w c vt).tables := { h.sound with keyed := h.sound.keyed.store }
  by_cases hinto : ∃ ref, s.obtained = some ref ∧ touches ref c vt = true ∧ s.tables.bound ref
  · obtain ⟨ref, hs, htouches, hbound⟩ := hinto
    obtain ⟨hsynced, hstanding⟩ : s.stage.synced = true ∧ s.tables.standing ref = true := by
      have hsome : s.tables.registry.snapshot ref ≠ none := hbound
      simpa [timely, hs, htouches, hsome] using ht
    have henter : Good base s ref → Good base (s.voiceTarget w c vt) ref :=
      fun hg => hg.enter hstanding (s.voiceTarget w c vt).tables rfl s.stage
    refine h.move hs hs hsound (fun _ hu => hu) ?_
    have hat := (h.owned ref hs).stage
    show AtStage base (s.voiceTarget w c vt) ref s.stage
    revert hsynced hat
    cases s.stage with
    | registering r | committing r | awaiting r | sending r left =>
      exact fun _ hat => ⟨hat.1, henter hat.2⟩
    | admitted => exact fun _ hat => ⟨henter hat.1, hat.2⟩
    | _ => exact fun hsynced => nomatch hsynced
  · have hshrinks : ∀ ref, Own base s ref →
        Shrinks ref s.tables (s.voiceTarget w c vt).tables := by
      intro ref hown
      refine { Shrinks.refl ref s.tables with targets := fun hm => ?_ }
      rcases hm.of_store with hm | ⟨htouches, hbound⟩
      · exact hm
      · cases hs : s.obtained with
        | none => exact absurd ((h.waiting hs).bound ref hbound) (Nat.not_le.mpr hown.generation)
        | some x =>
          obtain rfl := hown.obtained x hs
          exact absurd ⟨x, hs, htouches, hbound⟩ hinto
    refine h.beside ⟨hsound, hshrinks, rfl, rfl, rfl, id, .inl, fun hp hf => ⟨hp, hf, rfl⟩,
      fun ref hs hg => ?_⟩ rfl
    have hsh := hshrinks ref ⟨(h.owned ref hs).generation, fun x hx => some.inj (hx.symm.trans hs)⟩
    exact hg.shrinks hsh Iff.rfl s.stage

theorem Inv.listen (h : Inv base s) {cid : ℕ} (ht : timely s (.listen cid) = true) :
    Inv base (s.listen cid) := by
  unfold Login.listen
  split
  · next ref hstage hs =>
      have hstanding : s.tables.standing ref = true := by simpa [timely, hstage, hs] using ht
      have hat := (h.owned ref hs).stage
      rw [hstage] at hat
      refine h.move hs hs { h.sound with } (fun _ hu => hu) ?_
      show AtStage base _ ref s.stage
      rw [hstage]
      exact ⟨hat.1.enter hstanding _ (by rfl) _, hat.2⟩
  · exact h

theorem Inv.step (h : Inv base s) (e : Event) (ht : timely s e = true) : Inv base (s.step e) := by
  cases e with
  | advance ok =>
    cases hs : s.obtained with
    | none => exact h.advance_none hs ok
    | some ref => exact h.advance_some hs ok ht
  | close => exact h.close
  | release => exact h.release
  | fail => exact h.fail
  | recover => exact h.recover
  | voiceTarget w c vt => exact h.voiceTarget ht
  | listen cid => exact h.listen ht

theorem Ready.inv (h : Ready s) : Inv s.tables s where
  sound := ⟨h.fit.users, h.indexed, h.fit.registry, h.keyed⟩
  waiting _ :=
    { stage := .inl h.stage
      failure := h.failure
      generation := rfl
      bound := fun ref hb => by
        obtain ⟨e, he⟩ := ne_none_iff_exists'.mp hb
        obtain ⟨hmem, rfl⟩ := Registry.mem_of_snapshot he
        exact h.fit.bindings e hmem
      queues := h.queues
      conns := fun _ hp => hp
      targets := h.targets
      listeners := fun _ hl => hl }
  owned ref hs := by
    rw [h.obtained] at hs
    cases hs

theorem Inv.gone (h : Inv base s) {ref : SessionRef} (hs : s.obtained = some ref)
    (hp : Progress base s.tables s.conn ref .finished) : Gone base s.tables s.conn ref := by
  obtain ⟨hbound, hqueue, hentered, hrecord⟩ := hp
  have ho := h.owned ref hs
  have hfree : s.tables.users.snapshot ref.sessionID = none := by
    cases hu : s.tables.users.snapshot ref.sessionID with
    | none => rfl
    | some u =>
      refine absurd ?_ hrecord
      have href := snapshotRef_eq_some.mpr ⟨hu, ho.unique u hu⟩
      exact ne_none_iff_exists'.mpr ⟨u, href⟩
  refine ⟨hrecord, fun name hname => ?_, hbound, hqueue, fun hc => ?_,
    fun hm => hentered (.inl (.inr hm)), fun cid hl => ?_⟩
  · obtain ⟨u, hu, -⟩ := h.sound.indexed.of_named hname
    rw [hfree] at hu
    cases hu
  · by_contra hbase
    exact hentered (.inl (.inl ⟨hc, hbase⟩))
  · by_contra hbase
    exact hentered (.inr ⟨cid, hl, hbase⟩)

/-- **Authentication rolls back**: let a login run on a server with any tables, beside the end of its
connection, the failure of its control queue and clients that store voice targets, in any order and
failing anywhere, such that nothing is entered for the session once a cleanup has marked it.  Once
everybody has returned, a session that the login got is Active on an open connection, or nothing of
it is left. -/
theorem rollback_complete {s : Login} (hs : Ready s) {es : List Event}
    (hes : Along Login.step (fun s e => timely s e = true) s es) {now : Login}
    (hnow : now = run Login.step s es) (hrested : now.Rested) {ref : SessionRef}
    (href : now.obtained = some ref) :
    (now.phase = .live ∧ now.tables.registry.active ref = true) ∨
      Gone s.tables now.tables now.conn ref := by
  have hinv : Inv s.tables now := by
    rw [hnow]
    exact run_inv (fun _ e h => h.step e) hs.inv hes
  have hat := (hinv.owned ref href).stage
  obtain ⟨hstage, hphase, hfailure⟩ := hrested
  rcases hstage with hstage | hstage
  · rw [hstage] at hat
    exact .inr (hinv.gone href hat)
  · rw [hstage] at hat
    obtain ⟨hg, hactive⟩ := hat
    have hheld := hg.phase
    rcases hphase with hp | hp | ⟨x, hp⟩
    · rcases hfailure with hf | ⟨x, hf⟩
      · exact .inl ⟨hp, hactive hp hf⟩
      · have hfail := hg.failure
        rw [hf] at hfail
        exact .inr (hinv.gone href hfail.2)
    · rw [hp] at hheld
      exact hheld.elim
    · rw [hp] at hheld
      exact .inr (hinv.gone href hheld.2)

/-- A new server, where Alice logs in on connection 7. -/
def newLogin : Login where
  tables := { users := .new 10, registry := ⟨[(LocalLogin.localEdgeID, 1)], []⟩ }
  stage := .asking (ServerOps.client 1 "alice")
  conn := 7
  initial := 1

theorem ready_newLogin : Ready newLogin where
  fit := ⟨valid_new 10, List.nodup_nil, by simp [newLogin]⟩
  indexed := indexed_new 10
  queues := by simp [newLogin]
  keyed := by
    rintro sid tid spec ⟨l, hl, -⟩
    simp [newLogin] at hl
  targets := by
    rintro ref ⟨sid, tid, spec, ⟨l, hl, -⟩, -⟩
    simp [newLogin] at hl
  stage := ⟨_, rfl⟩
  phase := rfl
  failure := rfl
  obtained := rfl

/-- The session stores a voice target that names itself. -/
def whisper : Event :=
  .voiceTarget ⟨1, [], ⟨[], [], []⟩, none, []⟩ ⟨1, 1⟩ ⟨1, [{ session := [1] }]⟩

def whispered : Voice.Spec := ⟨⟨1, 1⟩, [(1, ⟨1, 1⟩)], []⟩

def ended : List Event := .close :: List.replicate 10 .release

/-- The whole login, a voice target and a channel that the session listens to, and the end of the
connection. -/
def closedAfter : List Event :=
  List.replicate 12 (.advance true) ++ [whisper, .listen 3] ++ ended

theorem rollback_complete_after :
    Mentions (run Login.step newLogin (closedAfter.take 14)).tables.targets ⟨1, 1⟩ ∧
    (1, 3) ∈ (run Login.step newLogin (closedAfter.take 14)).tables.listeners ∧
    Gone newLogin.tables (run Login.step newLogin closedAfter).tables
      (run Login.step newLogin closedAfter).conn ⟨1, 1⟩ := by
  refine ⟨⟨1, 1, whispered, ⟨[(1, whispered)], by decide +kernel, by decide⟩, .inl rfl⟩,
    by decide +kernel, ?_⟩
  have hrested : (run Login.step newLogin closedAfter).Rested :=
    ⟨.inr (by decide +kernel), .inr (.inr ⟨⟨1, 1⟩, by decide +kernel⟩), .inl (by decide +kernel)⟩
  have href : (run Login.step newLogin closedAfter).obtained = some ⟨1, 1⟩ := by decide +kernel
  rcases rollback_complete ready_newLogin (by decide +kernel) rfl hrested href with h | h
  · exact absurd h.1 (by decide +kernel)
  · exact h

/-- The login up to the CryptSetup, the whole end of the connection, and the rest of the login. -/
def closedBefore : List Event :=
  List.replicate 7 (.advance true) ++ ended ++ List.replicate 5 (.advance true)

/-- The whole login, its end up to where the voice targets are removed, a voice target, and the rest
of the end. -/
def namedLate : List Event :=
  List.replicate 12 (.advance true) ++ ended.take 8 ++ [whisper] ++ ended.drop 8

/-- In the first run the connection is closed and cleaned up after the CryptSetup was queued and
before the connection is entered.  The session is not bound any more when the login fails, so that
the entry stays in the table of connections.  In the second run a voice target stays. -/
theorem rollback_incomplete :
    Ready newLogin ∧
    ((run Login.step newLogin closedBefore).Rested ∧
      (run Login.step newLogin closedBefore).obtained = some ⟨1, 1⟩ ∧
      (run Login.step newLogin closedBefore).phase ≠ .live ∧
      ¬Gone newLogin.tables (run Login.step newLogin closedBefore).tables
        (run Login.step newLogin closedBefore).conn ⟨1, 1⟩) ∧
    (run Login.step newLogin namedLate).Rested ∧
    ¬Gone newLogin.tables (run Login.step newLogin namedLate).tables
      (run Login.step newLogin namedLate).conn ⟨1, 1⟩ := by
  refine ⟨ready_newLogin, ⟨⟨.inl (by decide +kernel), .inr (.inr ⟨⟨1, 1⟩, by decide +kernel⟩),
    .inl (by decide +kernel)⟩, by decide +kernel, by decide +kernel, fun hgone => ?_⟩,
    ⟨.inr (by decide +kernel), .inr (.inr ⟨⟨1, 1⟩, by decide +kernel⟩), .inl (by decide +kernel)⟩,
    fun hgone => ?_⟩
  · exact absurd (hgone.conn (by decide +kernel)) (by decide +kernel)
  · exact hgone.target
      ⟨1, 1, whispered, ⟨[(1, whispered)], by decide +kernel, by decide⟩, .inl rfl⟩

end MumbleServer.AuthRollback
