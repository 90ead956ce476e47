import MumbleServer.ChannelView
import MumbleServer.SessionTables
import MumbleServer.VoiceTargets

/-! # Voice targets over the life of a server

A voice target is stored at some time and used later, when sessions have come and gone and session
IDs have been given out again.  Here VoiceTarget messages are operations of the server beside those
of `ServerOps`, and a session that ends takes itself out of the targets of the others.

Whatever is in the table was put there by a message, and of the sessions that are still bound it
has exactly those that the message named and that had the ID at that time (`stored_step`); that
only needs that sessions never come back once they are unbound (`Onward`). -/

namespace MumbleServer.ServerOps

open Acl (Permission subjectOf)
open Moderation (Policy State Member UserState registry_updateUser)

variable {ref : SessionRef} {s : Site}

/-! ### Sessions are left alone -/

/-- No session begins or ends. -/
structure Seated (st st' : State) : Prop where
  registry : st'.registry = st.registry
  generation : st'.server.users.generation = st.server.users.generation
  valid : st.server.users.Valid → st'.server.users.Valid

variable (cfg : Config)

namespace Seated
variable {st st' st'' : State}

theorem refl (st : State) : Seated st st := ⟨rfl, rfl, id⟩

theorem trans (h : Seated st st') (h' : Seated st' st'') : Seated st st'' :=
  ⟨h'.registry.trans h.registry, h'.generation.trans h.generation, h'.valid ∘ h.valid⟩

theorem updateUser (st : State) (sid : ℕ) (fn : Member → Member) :
    Seated st (st.updateUser sid fn) := by
  refine ⟨registry_updateUser sid fn, ?_, fun h => ?_⟩ <;> unfold State.updateUser <;> split
  · rfl
  · exact UserManager.generation_updateUser ..
  · exact h
  · exact UserManager.valid_updateUser h _ _

theorem listenOnly (h : Moderation.ListenOnly st st') : Seated st st' :=
  ⟨h.registry, by rw [h.server], by rw [h.server]; exact id⟩

theorem stable (st : State) : Stable (Seated st) where
  update st' sid fn h := h.trans (updateUser st' sid fn)
  listen _ _ hl h := h.trans (listenOnly hl)

theorem edit {P : Channels → ℕ → List ℕ → Prop} {s s' : Site} {outs : List Output}
    (he : Edit P s s' outs) : Seated s.state s'.state := by
  induction he with
  | quiet | announce => exact refl _
  | create newID parentID name description position temporary maxUsers hc =>
    obtain ⟨-, -, -, -, -, rfl⟩ := create_cases hc
    exact ⟨rfl, rfl, id⟩
  | update => exact ⟨rfl, rfl, id⟩
  | links id desired dbOk _ hu =>
    rcases updateLinks_cases hu with ⟨rfl, -⟩ | ⟨node, -, -, rfl, -⟩
    · exact refl _
    · exact ⟨rfl, rfl, fun h => h⟩
  | trans _ _ ih ih' => exact ih.trans ih'

theorem remove (s : Site) (id : ℕ) (dbOk : Bool) : Seated s.state (s.remove id dbOk).1.state := by
  unfold Site.remove
  split_ifs
  · exact refl _
  · exact ⟨rfl, rfl, fun h => h⟩

theorem channelRemove (s : Site) (c : SessionRef) (id : ℕ) (dbOk : Bool) :
    Seated s.state (handleChannelRemove cfg s c id dbOk).1.state := by
  refine handleChannelRemove_rule (P := fun s' => Seated s.state s'.state) cfg s c id (refl _)
    fun ch _ => ?_
  have hvacate : Seated s.state (vacate cfg s.state ch).1 :=
    ((stable _).evictAll (refl _) cfg ch.parentID _).trans ⟨rfl, rfl, fun h => h⟩
  exact hvacate.trans (remove { s with state := (vacate cfg s.state ch).1 } id dbOk)

end Seated

/-! ### Sessions come and go -/

/-- The records and the bindings fit, and no session comes back. -/
abbrev Onward (st st' : State) : Prop :=
  Serves st.server.users st'.server.users st.registry st'.registry

namespace Onward
variable {st st' : State}

theorem seated (hfit : Fit st.server.users st.registry) (h : Seated st st') : Onward st st' :=
  ⟨⟨h.valid hfit.users, h.registry ▸ hfit.registry,
      fun e he => h.generation ▸ hfit.bindings e (h.registry ▸ he)⟩,
    h.generation.ge, fun _ _ hnone => h.registry.symm ▸ hnone⟩

theorem removeUser (hfit : Fit s.users s.state.registry) (ref : SessionRef) :
    Onward s.state (removeUser s ref).state := hfit.drop

theorem detach (hfit : Fit st.server.users st.registry) (ref : SessionRef) :
    Onward st (detach st ref) := by
  unfold ServerOps.detach Registry.closeAndUnbind
  cases hs : st.registry.snapshot ref with
  | none => exact seated hfit (.refl st)
  | some e => exact hfit.unbind ref

theorem unregisterConn (hfit : Fit s.users s.state.registry) (ref : SessionRef) :
    Onward s.state (unregisterConn s ref).state := by
  unfold ServerOps.unregisterConn
  split_ifs
  · exact seated hfit (.refl _)
  · have hdetach := detach hfit ref
    exact hdetach.trans (seated hdetach.fit ⟨rfl, rfl, fun h => h⟩)

theorem beginClose (hfit : Fit st.server.users st.registry) {r : Registry}
    {e : Entry} (hclose : st.registry.beginClose ref = .ok (r, e)) :
    Onward st { st with registry := r } := by
  rcases Registry.beginClose_cases hclose with rfl | rfl
  · exact hfit.refl
  · exact hfit.modify ref _

theorem kicked {s s' : Site} (hfit : Fit s.users s.state.registry)
    (hk : kicked s ref = some s') : Onward s.state s'.state := by
  obtain ⟨u, r, e, -, hclose, rfl⟩ := kicked_cases hk
  have hbegun : Onward s.state { s.state with registry := r } := beginClose hfit hclose
  exact hbegun.trans (removeUser (s := { s with state := { s.state with registry := r } })
    hbegun.fit ref)

theorem login (hfit : Fit s.users s.state.registry) (u : User) (edge : String) :
    Onward s.state (login cfg s u edge).1.state := by
  unfold ServerOps.login
  rcases ha : s.users.add { u with channelID := joinChannelFor cfg s u.userID } with
    ⟨m, _ | stored⟩
  · exact hfit.add ha
  · have hundo : Onward s.state (s.setUsers (m.removeIfGeneration stored.ref).1).state := hfit.undo ha
    dsimp only
    cases hb : s.state.registry.bind stored.ref edge with
    | error _ => exact hundo
    | ok r =>
      dsimp only
      have hbound := hfit.bind ha hb
      cases hc : r.commitActive stored.ref with
      | error _ => exact hundo
      | ok r' =>
        obtain ⟨rfl, -⟩ := Registry.commitActive_spec hc
        exact hbound.trans (hbound.fit.modify stored.ref _)

end Onward

theorem onward_step (hfit : Fit s.users s.state.registry) (op : Op) :
    Onward s.state (step cfg s op).state := by
  cases op with
  | login u edge => exact .login cfg hfit u edge
  | userState rateAllows c us =>
    exact .seated hfit ((Seated.stable _).handleUserState (.refl _) cfg.pol _ c us)
  | channelState | restCreate | restUpdate => exact .seated hfit (.edit (step_edit cfg s rfl))
  | channelRemove c id dbOk => exact .seated hfit (.channelRemove cfg s c id dbOk)
  | restDelete id dbOk => exact .seated hfit (.remove s id dbOk)
  | disconnect ref =>
    have hgone := Onward.unregisterConn hfit ref
    exact hgone.trans (Onward.removeUser hgone.fit ref)
  | kick ref =>
    refine kick_rule (P := fun s' => Onward s.state s'.state) (.seated hfit (.refl _)) fun s' hk => ?_
    have hkicked := Onward.kicked hfit hk
    exact hkicked.trans (Onward.unregisterConn hkicked.fit ref)
  | editACL db =>
    have hdb : Seated s.state { s.state with
        server := { s.state.server with world := { s.state.server.world with db := db } } } :=
      ⟨rfl, rfl, id⟩
    exact .seated hfit ((Seated.stable _).refreshSuppressStates hdb cfg _)

theorem planted_unregisterConn (h : Planted s) (ref : SessionRef) :
    Planted (unregisterConn s ref) := by
  unfold unregisterConn
  split_ifs
  · exact h
  · have hdetach : Planted { s with state := detach s.state ref } :=
      h.congr (channels_detach s ref) rfl
    exact hdetach.clean.1

theorem planted_step (h : Planted s) (op : Op) : Planted (step cfg s op) := by
  cases op with
  | login u edge =>
    obtain ⟨hcs, hrows, -⟩ := channels_login (s := s) cfg u edge
    exact h.congr hcs hrows
  | userState rateAllows c us => exact h.congr (channels_userState cfg s rateAllows c us) rfl
  | channelState | restCreate | restUpdate => exact h.edit (step_edit cfg s rfl)
  | channelRemove c id dbOk =>
    show Planted (handleChannelRemove cfg s c id dbOk).1
    exact handleChannelRemove_rule cfg s c id h fun ch _ =>
      (h.congr (channels_vacate cfg s ch) rfl).remove id dbOk
  | restDelete id dbOk => exact h.remove id dbOk
  | disconnect ref => exact (planted_unregisterConn h ref).congr rfl rfl
  | kick ref =>
    refine kick_rule h fun s' hk => ?_
    obtain ⟨hcs, hrows⟩ := channels_kicked hk
    exact planted_unregisterConn (h.congr hcs hrows) ref
  | editACL db => exact h.congr (channels_editACL cfg s db) rfl

end MumbleServer.ServerOps

namespace MumbleServer.Voice

open Acl (Permission subjectOf)
open Moderation (Policy State Member)
open ServerOps (Site Op Config Planted Onward kicked onward_step planted_step)

variable {ref : SessionRef} {s : Site}

/-! ### The table of targets -/

structure VoiceSite where
  site : Site
  targets : Targets

inductive VoiceOp
  | op (o : Op)
  | voiceTarget (c : SessionRef) (vt : VoiceTarget)

/-- What `UnregisterConn` does to the targets. -/
def forget (st : State) (ref : SessionRef) (ts : Targets) : Targets :=
  if ref.valid = false then ts
  else
    match st.registry.closeAndUnbind ref with
    | .error _ => ts
    | .ok _ => removeVoiceTargetsLocked ts ref.sessionID

def targetsAfter (s : Site) (ts : Targets) : Op → Targets
  | .disconnect ref => forget s.state ref ts
  | .kick ref => (kicked s ref).elim ts fun s' => forget s'.state ref ts
  | _ => ts

def step (cfg : Config) (s : VoiceSite) : VoiceOp → VoiceSite
  | .op o => ⟨ServerOps.step cfg s.site o, targetsAfter s.site s.targets o⟩
  | .voiceTarget c vt => ⟨s.site, handleVoiceTarget s.site.state s.targets c vt⟩

def Targets.Has (ts : Targets) (sid : ℕ) (tid : UInt8) (spec : Spec) : Prop :=
  ∃ l, (sid, l) ∈ ts ∧ (tid, spec) ∈ l

section table
variable {st : State} {ts : Targets} {sid : ℕ} {tid : UInt8} {spec : Spec}

theorem Targets.has_of_at (h : ts.at sid tid = some spec) : ts.Has sid tid spec := by
  obtain ⟨l, hl, hspec⟩ := Option.bind_eq_some_iff.mp h
  exact ⟨l, AssocList.mem_of_lookup hl, AssocList.mem_of_lookup hspec⟩

theorem bound_eq_some_iff {id : ℕ} : bound st id = some ref ↔
    ref.sessionID = id ∧ st.server.users.snapshotRef ref ≠ none ∧
      st.registry.snapshot ref ≠ none := by
  simp only [bound, Option.filter_eq_some_iff, Option.map_eq_some_iff, Option.isSome_iff_ne_none]
  constructor
  · rintro ⟨⟨u, hu, rfl⟩, hr⟩
    refine ⟨rfl, ?_, hr⟩
    rw [UserManager.snapshotRef_eq_some.mpr ⟨hu, rfl⟩]
    simp
  · rintro ⟨rfl, hu, hr⟩
    obtain ⟨u, hu⟩ := Option.ne_none_iff_exists'.mp hu
    obtain ⟨hs, hgen⟩ := UserManager.snapshotRef_eq_some.mp hu
    exact ⟨⟨u, hs, by rw [hgen]⟩, hr⟩

theorem mem_namedSessions {ids : List ℕ} {e : ℕ × SessionRef} :
    e ∈ namedSessions st ids ↔ e.1 ∈ ids ∧ bound st e.1 = some e.2 := by
  unfold namedSessions
  induction ids using List.reverseRecOn with
  | nil => simp
  | append_singleton ids id ih =>
    rw [List.foldl_append, List.foldl_cons, List.foldl_nil, List.mem_append,
      List.mem_singleton]
    cases hb : bound st id with
    | none =>
      rw [Option.elim_none, ih]
      constructor
      · rintro ⟨hid, he⟩
        exact ⟨.inl hid, he⟩
      · rintro ⟨hid | rfl, he⟩
        · exact ⟨hid, he⟩
        · rw [hb] at he
          cases he
    | some ref =>
      rw [Option.elim_some, AssocList.put, List.mem_cons, List.mem_filter, ih,
        decide_eq_true_eq]
      constructor
      · rintro (rfl | ⟨⟨hid, he⟩, -⟩)
        · exact ⟨.inr rfl, hb⟩
        · exact ⟨.inl hid, he⟩
      · rintro ⟨hid, he⟩
        by_cases heq : e.1 = id
        · rw [heq, hb] at he
          exact .inl (Prod.ext heq (Option.some.inj he).symm)
        · exact .inr ⟨⟨hid.resolve_right heq, he⟩, heq⟩

theorem has_put {k : ℕ} {merged : List (UInt8 × Spec)}
    (h : Targets.Has (if merged = [] then AssocList.delete ts k else AssocList.put ts k merged) sid
      tid spec) : ts.Has sid tid spec ∨ (sid = k ∧ (tid, spec) ∈ merged) := by
  obtain ⟨l, hl, hspec⟩ := h
  split_ifs at hl
  · exact .inl ⟨l, (AssocList.mem_delete hl).1, hspec⟩
  · rcases AssocList.mem_put hl with heq | hl
    · obtain ⟨rfl, rfl⟩ := Prod.mk.inj heq
      exact .inr ⟨rfl, hspec⟩
    · exact .inl ⟨l, hl, hspec⟩

theorem has_storeVoiceTarget {c : SessionRef} {vt : VoiceTarget}
    (h : (storeVoiceTarget st ts c vt).Has sid tid spec) :
    ts.Has sid tid spec ∨ (sid = c.sessionID ∧ tid = vt.id.toUInt8 ∧
      bound st sid = some c ∧
      spec = ⟨c, namedSessions st (vt.targets.flatMap Target.session),
        namedChannels st vt.targets⟩) := by
  unfold storeVoiceTarget at h
  cases hb : bound st c.sessionID with
  | none =>
    rw [hb] at h
    exact .inl h
  | some owner =>
    rw [hb] at h
    dsimp only at h
    by_cases hgen : owner.generation = c.generation
    · obtain rfl : owner = c := by
        obtain ⟨hid, -⟩ := bound_eq_some_iff.mp hb
        cases owner
        cases c
        simp_all
      rw [if_neg (not_not.mpr hgen)] at h
      rcases has_put h with hts | ⟨rfl, hin⟩
      · exact .inl hts
      have hold : ∀ {e}, e ∈ (ts.lookup owner.sessionID).getD [] →
          ts.Has owner.sessionID e.1 e.2 := by
        intro e he
        cases hl : ts.lookup owner.sessionID with
        | none =>
          rw [hl] at he
          cases he
        | some l =>
          rw [hl] at he
          exact ⟨l, AssocList.mem_of_lookup hl, he⟩
      split_ifs at hin
      · exact .inl (hold (AssocList.mem_delete hin).1)
      · rcases AssocList.mem_put hin with heq | hin
        · obtain ⟨rfl, rfl⟩ := Prod.mk.inj heq
          exact .inr ⟨rfl, rfl, hb, rfl⟩
        · exact .inl (hold hin)
    · rw [if_pos hgen] at h
      exact .inl h

theorem has_handleVoiceTarget {c : SessionRef} {vt : VoiceTarget}
    (h : (handleVoiceTarget st ts c vt).Has sid tid spec) :
    ts.Has sid tid spec ∨ (storeVoiceTarget st ts c vt).Has sid tid spec := by
  unfold handleVoiceTarget at h
  split_ifs at h
  · exact .inl h
  · exact .inr h

/-- When a session goes, its own targets go, and it goes from the others. -/
theorem has_removeVoiceTargets {gone : ℕ}
    (h : (removeVoiceTargetsLocked ts gone).Has sid tid spec) :
    ∃ old, ts.Has sid tid old ∧ spec = old.without gone ∧ sid ≠ gone := by
  obtain ⟨l, hl, hspec⟩ := h
  obtain ⟨e, he, hfrom⟩ := List.mem_filterMap.mp hl
  obtain ⟨he', hne⟩ := AssocList.mem_delete he
  unfold removeFrom at hfrom
  by_cases hany : (e.2.any fun t => (t.2.sessions.lookup gone).isSome) = true
  · rw [if_pos hany] at hfrom
    dsimp only at hfrom
    split_ifs at hfrom
    obtain ⟨rfl, rfl⟩ := Prod.mk.inj (Option.some.inj hfrom)
    obtain ⟨t, ht, ⟨⟩⟩ := List.mem_map.mp (List.mem_filter.mp hspec).1
    exact ⟨t.2, ⟨e.2, he', ht⟩, rfl, hne⟩
  · rw [if_neg hany] at hfrom
    obtain rfl := Option.some.inj hfrom
    refine ⟨spec, ⟨l, he', hspec⟩, ?_, hne⟩
    have hnone : ∀ ref, (gone, ref) ∉ spec.sessions := by
      simpa using List.any_eq_false.mp (Bool.eq_false_iff.mpr hany) _ hspec
    have hall : AssocList.delete spec.sessions gone = spec.sessions := by
      refine List.filter_eq_self.mpr fun x hx => decide_eq_true ?_
      rintro rfl
      exact hnone x.2 hx
    rw [Spec.without, hall]

end table

/-! ### What is in the table, and where it comes from -/

/-- What a target in the table has to do with the message that put it there, and the state of the
server then and now: of the sessions that are still bound, it has exactly those that are named. -/
structure Stems (was : State) (vt : VoiceTarget) (now : State) (spec : Spec) : Prop where
  channels : spec.channels = namedChannels was vt.targets
  named : ∀ e ∈ spec.sessions, e.1 ∈ vt.targets.flatMap Target.session ∧ bound was e.1 = some e.2
  kept : ∀ id ref, id ∈ vt.targets.flatMap Target.session → bound was id = some ref →
    now.registry.snapshot ref ≠ none → (id, ref) ∈ spec.sessions
  old : ∀ id ref, bound was id = some ref → ref.generation ≤ now.server.users.generation

section stems
variable {was now now' : State} {vt : VoiceTarget} {spec : Spec}

theorem stems_stored (hvalid : now.server.users.Valid) (vt : VoiceTarget) (owner : SessionRef) :
    Stems now vt now ⟨owner, namedSessions now (vt.targets.flatMap Target.session),
      namedChannels now vt.targets⟩ where
  channels := rfl
  named _ he := mem_namedSessions.mp he
  kept _ _ hid hbound _ := mem_namedSessions.mpr ⟨hid, hbound⟩
  old id ref hbound := by
    obtain ⟨-, hu, -⟩ := bound_eq_some_iff.mp hbound
    obtain ⟨u, hu⟩ := Option.ne_none_iff_exists'.mp hu
    obtain ⟨hs, hgen⟩ := UserManager.snapshotRef_eq_some.mp hu
    rw [← hgen]
    exact hvalid.generation_le u (UserManager.mem_of_snapshot hs).1

theorem Stems.onward (h : Stems was vt now spec) (hon : Onward now now') :
    Stems was vt now' spec where
  __ := h
  kept id ref hid hbound hnow :=
    h.kept id ref hid hbound fun hnone => hnow (hon.binding ref (h.old id ref hbound) hnone)
  old id ref hbound := (h.old id ref hbound).trans hon.generation

theorem Stems.without (h : Stems was vt now spec) {gone : ℕ}
    (hgone : ∀ ref : SessionRef, ref.sessionID = gone → now.registry.snapshot ref = none) :
    Stems was vt now (spec.without gone) where
  channels := h.channels
  named e he := h.named e (AssocList.mem_delete he).1
  kept id ref hid hbound hnow := by
    refine List.mem_filter.mpr ⟨h.kept id ref hid hbound hnow, decide_eq_true ?_⟩
    rintro rfl
    exact hnow (hgone ref (bound_eq_some_iff.mp hbound).1)
  old := h.old

end stems

section runs
variable (cfg : Config)

theorem unbound_of_detach {st : State} (hfit : Fit st.server.users st.registry)
    {ref y : SessionRef} {x : Registry × Entry} (hok : st.registry.closeAndUnbind ref = .ok x)
    (hid : y.sessionID = ref.sessionID) : (ServerOps.detach st ref).registry.snapshot y = none := by
  unfold ServerOps.detach
  rw [hok]
  unfold Registry.closeAndUnbind at hok
  cases hs : st.registry.snapshot ref with
  | none =>
    rw [hs] at hok
    cases hok
  | some e =>
    rw [hs] at hok
    cases hok
    show (st.registry.unbind ref).snapshot y = none
    rw [Registry.snapshot_unbind hfit.registry]
    split_ifs with hne
    · rfl
    · cases hy : st.registry.snapshot y with
      | none => rfl
      | some e' => exact absurd (Registry.eq_of_snapshot hy hs hid) hne

theorem has_forget (hfit : Fit s.users s.state.registry)
    {ts : Targets} {sid : ℕ} {tid : UInt8} {spec : Spec}
    (h : (forget s.state ref ts).Has sid tid spec) :
    ∃ old, ts.Has sid tid old ∧ (spec = old ∨ ∃ gone, spec = old.without gone ∧
      ∀ y : SessionRef, y.sessionID = gone →
        (ServerOps.unregisterConn s ref).state.registry.snapshot y = none) := by
  unfold forget at h
  by_cases hv : ref.valid = false
  · rw [if_pos hv] at h
    exact ⟨spec, h, .inl rfl⟩
  · rw [if_neg hv] at h
    cases hc : s.state.registry.closeAndUnbind ref with
    | error _ =>
      rw [hc] at h
      exact ⟨spec, h, .inl rfl⟩
    | ok x =>
      rw [hc] at h
      obtain ⟨old, hold, rfl, -⟩ := has_removeVoiceTargets h
      refine ⟨old, hold, .inr ⟨_, rfl, fun y hy => ?_⟩⟩
      unfold ServerOps.unregisterConn
      rw [if_neg hv]
      exact unbound_of_detach hfit hc hy

theorem has_targetsAfter (hfit : Fit s.users s.state.registry) {o : Op} {ts : Targets}
    {sid : ℕ} {tid : UInt8} {spec : Spec} (h : (targetsAfter s ts o).Has sid tid spec) :
    ∃ old, ts.Has sid tid old ∧ (spec = old ∨ ∃ gone, spec = old.without gone ∧
      ∀ y : SessionRef, y.sessionID = gone →
        (ServerOps.step cfg s o).state.registry.snapshot y = none) := by
  cases o with
  | disconnect ref => exact has_forget hfit h
  | kick ref =>
    have h : Targets.Has ((kicked s ref).elim ts fun s' => forget s'.state ref ts) sid tid spec :=
      h
    have hstep : ServerOps.step cfg s (.kick ref) = ServerOps.kick s ref := rfl
    rw [hstep]
    unfold ServerOps.kick
    cases hk : kicked s ref with
    | none =>
      rw [hk] at h
      exact ⟨spec, h, .inl rfl⟩
    | some s' =>
      rw [hk] at h
      exact has_forget (Onward.kicked hfit hk).fit h
  | _ => exact ⟨spec, h, .inl rfl⟩

/-- The state of a run: a channel tree, records and bindings that fit, and a table of targets that
were put there by messages. -/
structure Told (start : VoiceSite) (ops : List VoiceOp) : Prop where
  planted : Planted (run (step cfg) start ops).site
  fit : Fit (run (step cfg) start ops).site.users (run (step cfg) start ops).site.state.registry
  stored : ∀ sid tid spec, (run (step cfg) start ops).targets.Has sid tid spec →
    ∃ pre c vt post, ops = pre ++ .voiceTarget c vt :: post ∧ c.sessionID = sid ∧
      vt.id.toUInt8 = tid ∧ spec.owner = c ∧
      Stems (run (step cfg) start pre).site.state vt (run (step cfg) start ops).site.state spec

theorem told (hs : Planted s) (hfit : Fit s.users s.state.registry)
    (ops : List VoiceOp) : Told cfg ⟨s, []⟩ ops := by
  induction ops using List.reverseRecOn with
  | nil =>
    refine ⟨hs, hfit, ?_⟩
    rintro sid tid spec ⟨l, hl, -⟩
    cases hl
  | append_singleton ops o ih =>
    have hrun : run (step cfg) ⟨s, []⟩ (ops ++ [o]) =
        step cfg (run (step cfg) ⟨s, []⟩ ops) o := run_append ..
    cases o with
    | op o =>
      have hon := onward_step cfg ih.fit o
      refine ⟨hrun ▸ planted_step cfg ih.planted o, hrun ▸ hon.fit, ?_⟩
      rw [hrun]
      intro sid tid spec hhas
      obtain ⟨old, hold, hspec⟩ := has_targetsAfter cfg ih.fit hhas
      obtain ⟨pre, c, vt, post, rfl, hsid, htid, howner, hstems⟩ := ih.stored sid tid old hold
      have hlater := hstems.onward hon
      refine ⟨pre, c, vt, post ++ [.op o], by simp, hsid, htid, ?_⟩
      rcases hspec with rfl | ⟨gone, rfl, hgone⟩
      · exact ⟨howner, hlater⟩
      · exact ⟨howner, hlater.without hgone⟩
    | voiceTarget c vt =>
      refine ⟨hrun ▸ ih.planted, hrun ▸ ih.fit, ?_⟩
      rw [hrun]
      intro sid tid spec hhas
      rcases (has_handleVoiceTarget hhas).elim .inl has_storeVoiceTarget with
        hold | ⟨rfl, rfl, hbound, rfl⟩
      · obtain ⟨pre, c', vt', post, rfl, hsid, htid, howner, hstems⟩ :=
          ih.stored sid tid spec hold
        exact ⟨pre, c', vt', post ++ [.voiceTarget c vt], by simp, hsid, htid, howner, hstems⟩
      · exact ⟨ops, c, vt, [], rfl, rfl, rfl, rfl, stems_stored ih.fit.users vt c⟩

end runs

/-! ### Who is reached -/

/-- The ways in which a voice target reaches a user: by name, if the session had the ID when the
target was stored, or in a channel that was there when it was stored and is there now. -/
inductive TargetWay (pol : Policy) (was : State) (vt : VoiceTarget) (now : State)
    (speaker : Member) : User → Context → UInt32 → Prop
  | named {t : Target} {u : User} :
      t ∈ vt.targets → u.sessionID ∈ t.session → was.server.users.snapshotRef u.ref ≠ none →
      was.registry.snapshot u.ref ≠ none → now.server.users.snapshotRef u.ref = some u →
      mayWhisper pol now speaker u.channelID = true →
      TargetWay pol was vt now speaker u contextWhisper SingleFloat.one
  | occupant {t : Target} {u : User} :
      t ∈ vt.targets → t.hasChannelID = true → was.server.world.channels.has t.channelID = true →
      Reaches now.server.world.channels t u.channelID →
      mayWhisper pol now speaker u.channelID = true → u ∈ now.server.users.bySession →
      groupAllows pol now t u.channelID u = true →
      TargetWay pol was vt now speaker u contextShout SingleFloat.one
  | listener {t : Target} {cid : ℕ} {u : User} :
      t ∈ vt.targets → t.hasChannelID = true → was.server.world.channels.has t.channelID = true →
      Reaches now.server.world.channels t cid → mayWhisper pol now speaker cid = true →
      u ∈ now.server.users.bySession → (u.sessionID, cid) ∈ now.listeners →
      groupAllows pol now t cid u = true →
      TargetWay pol was vt now speaker u contextListen (volume now u.sessionID cid)

section ways
variable {pol : Policy} {was now : State} {vt : VoiceTarget} {spec : Spec} {speaker : Member}

theorem mem_namedChannels {t : Target} : t ∈ namedChannels was vt.targets ↔
    ∃ t' ∈ vt.targets, t'.hasChannelID = true ∧
      was.server.world.channels.has t'.channelID = true ∧ t = { t' with session := [] } := by
  simp only [namedChannels, List.mem_map, List.mem_filter, Bool.and_eq_true]
  constructor
  · rintro ⟨t', ⟨ht, hid, hhas⟩, rfl⟩
    exact ⟨t', ht, hid, hhas, rfl⟩
  · rintro ⟨t', ht, hid, hhas, rfl⟩
    exact ⟨t', ⟨ht, hid, hhas⟩, rfl⟩

theorem ref_of_snapshotRef {m : UserManager} {u : User}
    (h : m.snapshotRef ref = some u) : u.ref = ref := by
  obtain ⟨hs, hgen⟩ := UserManager.snapshotRef_eq_some.mp h
  unfold User.ref
  rw [(UserManager.mem_of_snapshot hs).2, hgen]

/-- To a session that is bound, what is stored leads as the message says. -/
theorem Stems.specWay_iff (h : Stems was vt now spec) {u : User}
    (hbound : now.registry.snapshot u.ref ≠ none) {c : Context} {v : UInt32} :
    SpecWay pol now speaker spec u c v ↔ TargetWay pol was vt now speaker u c v := by
  constructor
  · intro hway
    cases hway with
    | @named ref _ href hu hmay =>
      obtain ⟨e, he, rfl⟩ := List.mem_map.mp href
      obtain ⟨hid, hwas⟩ := h.named e he
      obtain ⟨t, ht, hid⟩ := List.mem_flatMap.mp hid
      obtain ⟨hsid, hrec, hreg⟩ := bound_eq_some_iff.mp hwas
      have heq := ref_of_snapshotRef hu
      have hsame : u.sessionID = e.1 := (congrArg SessionRef.sessionID heq).trans hsid
      exact .named ht (hsame ▸ hid) (heq ▸ hrec) (heq ▸ hreg) (heq ▸ hu) hmay
    | @occupant t _ ht hreach hmay hmem hgroup =>
      obtain ⟨t', ht', hid, hhas, rfl⟩ := mem_namedChannels.mp (h.channels ▸ ht)
      exact .occupant ht' hid hhas hreach hmay hmem hgroup
    | @listener t cid _ ht hreach hmay hmem hl hgroup =>
      obtain ⟨t', ht', hid, hhas, rfl⟩ := mem_namedChannels.mp (h.channels ▸ ht)
      exact .listener ht' hid hhas hreach hmay hmem hl hgroup
  · intro hway
    cases hway with
    | @named t _ ht hid hrec hreg hu hmay =>
      have hwas : bound was u.sessionID = some u.ref := bound_eq_some_iff.mpr ⟨rfl, hrec, hreg⟩
      have hmem := h.kept _ _ (List.mem_flatMap.mpr ⟨t, ht, hid⟩) hwas hbound
      exact .named (List.mem_map.mpr ⟨_, hmem, rfl⟩) hu hmay
    | @occupant t _ ht hid hhas hreach hmay hmem hgroup =>
      exact .occupant (t := { t with session := [] })
        (h.channels ▸ mem_namedChannels.mpr ⟨t, ht, hid, hhas, rfl⟩) hreach hmay hmem hgroup
    | @listener t cid _ ht hid hhas hreach hmay hmem hl hgroup =>
      exact .listener (t := { t with session := [] })
        (h.channels ▸ mem_namedChannels.mpr ⟨t, ht, hid, hhas, rfl⟩) hreach hmay hmem hl hgroup

end ways

theorem Hears.bound {st : State} (h : Hears st ref) : st.registry.snapshot ref ≠ none := by
  intro hnone
  have hactive := h.active
  unfold Registry.active at hactive
  rw [hnone] at hactive
  cases hactive

/-- **Voice targets resolve exactly**: in every run of a server, a target that is in the table was
put there by a message of its owner.  If the owner is Active and not silenced, it resolves to the
Active sessions, other than the speaker and not deafened, that it leads to: those that the message
named and that had the ID when it was stored, in whose channel the speaker may whisper, and the
occupants and listeners in the group of the target of every channel that the target stands for and
that the speaker may whisper into.  Everybody comes once, with the smallest context and the largest
volume over all ways, whatever the order in which maps are read. -/
theorem voice_target_recipients (cfg : Config) {s : Site} (hs : Planted s)
    (hfit : Fit s.users s.state.registry) (ops : List VoiceOp) {now : VoiceSite}
    (hnow : now = run (step cfg) ⟨s, []⟩ ops) {sid : ℕ} {tid : UInt8} {spec : Spec}
    (hspec : now.targets.at sid tid = some spec)
    (hactive : now.site.state.registry.active spec.owner = true) {speaker : Member}
    (hspeaker : now.site.state.member sid = some speaker)
    (hunmuted : silenced speaker.profile.toVoiceState = false)
    (hnum : ∀ v ∈ now.site.state.volumes, SingleFloat.isNaN v.2 = false) {order : TargetOrder}
    (horder : order.Of now.site.state) :
    ∃ pre c vt post rs, ops = pre ++ .voiceTarget c vt :: post ∧ c.sessionID = sid ∧
      vt.id.toUInt8 = tid ∧ spec.owner = c ∧
      resolveVoiceTarget cfg.pol now.site.state now.targets order sid tid = some rs ∧
      (rs.map Recipient.session).Nodup ∧
      (∀ ref, ref ∈ rs.map Recipient.session ↔ ref.sessionID ≠ sid ∧ Hears now.site.state ref ∧
        ∃ u ctx v, now.site.users.snapshotRef ref = some u ∧
          TargetWay cfg.pol (run (step cfg) ⟨s, []⟩ pre).site.state vt now.site.state speaker u
            ctx v) ∧
      ∀ r ∈ rs, ∃ u, now.site.users.snapshotRef r.session = some u ∧
        Best (TargetWay cfg.pol (run (step cfg) ⟨s, []⟩ pre).site.state vt now.site.state speaker u)
          r.delivery.context r.delivery.volumeAdjustment := by
  have htold := told cfg hs hfit ops
  obtain ⟨pre, c, vt, post, hops, hsid, htid, howner, hstems⟩ :=
    htold.stored sid tid spec (hnow ▸ Targets.has_of_at hspec)
  obtain ⟨tree, htree⟩ := htold.planted.tree
  have hvalid := htold.fit.users
  rw [← hnow] at hstems htree hvalid
  have hkeyed : spec.Keyed := fun e he => (bound_eq_some_iff.mp (hstems.named e he).2).1
  obtain ⟨w, hw, hnodup, hmem, hbest⟩ :=
    resolveSpec_recipients cfg.pol speaker horder hvalid tree htree hkeyed hnum
  have hid : speaker.user.sessionID = sid := sessionID_of_member hspeaker
  refine ⟨pre, c, vt, post, w.recipients.map Prod.snd, hops, hsid, htid, howner, ?_, hnodup,
    fun ref => ?_, fun r hr => ?_⟩
  · unfold resolveVoiceTarget
    rw [hspec, hspeaker]
    simp [hactive, hunmuted, hw]
  · rw [hmem ref, hid]
    refine and_congr_right fun _ => and_congr_right fun hears => ?_
    refine exists_congr fun u => exists_congr fun ctx => exists_congr fun v => ?_
    refine and_congr_right fun hu => ?_
    exact hstems.specWay_iff (by rw [ref_of_snapshotRef hu]; exact hears.bound)
  · obtain ⟨u, hu, hb⟩ := hbest r hr
    obtain ⟨-, hears, -⟩ := (hmem r.session).mp (List.mem_map_of_mem hr)
    refine ⟨u, hu, ?_⟩
    have hbound : now.site.state.registry.snapshot u.ref ≠ none := by
      rw [ref_of_snapshotRef hu]
      exact hears.bound
    convert hb using 1
    funext ctx v
    exact propext (hstems.specWay_iff hbound).symm

/-- Alice stores a target that names Bob and the root channel; Bob leaves, and Carol gets the
session ID of Bob. -/
def reuse : List VoiceOp :=
  [.op (.login (ServerOps.client 7 "alice") "local"), .op (.login (ServerOps.client 8 "bob") "local"),
    .voiceTarget ⟨1, 1⟩ ⟨1, [{ session := [2] }, { hasChannelID := true }]⟩,
    .op (.disconnect ⟨2, 2⟩), .op (.login (ServerOps.client 9 "carol") "local")]

/-- The server after that. -/
def reused : VoiceSite := run (step ServerOps.config) ⟨ServerOps.newSite, []⟩ reuse

/-- The order of the tables. -/
def tableTargetOrder (st : State) : TargetOrder := ⟨id, fun _ l => l, fun _ => snapshotByChannel st⟩

theorem tableTargetOrder_of (st : State) : (tableTargetOrder st).Of st :=
  ⟨fun _ => .refl _, fun _ _ => .refl _, fun _ _ => .refl _⟩

theorem fit_newSite : Fit ServerOps.newSite.users ServerOps.newSite.state.registry :=
  ⟨UserManager.valid_new 10, List.nodup_nil, by simp [ServerOps.newSite]⟩

/-- Carol is not whispered to in the place of Bob, and hears the shout into the channel. -/
theorem voice_target_recipients_reused :
    resolveVoiceTarget ServerOps.config.pol reused.site.state reused.targets
      (tableTargetOrder reused.site.state) 1 1 =
        some [⟨2, ⟨2, 3⟩, ⟨noFrame, contextShout, SingleFloat.one⟩⟩] ∧
    ∃ rs, resolveVoiceTarget ServerOps.config.pol reused.site.state reused.targets
      (tableTargetOrder reused.site.state) 1 1 = some rs ∧
        (rs.map Recipient.session).Nodup := by
  refine ⟨by decide +kernel, ?_⟩
  have hspec : reused.targets.at 1 1 = some ⟨⟨1, 1⟩, [], [{ hasChannelID := true }]⟩ := by
    decide +kernel
  have hspeaker : reused.site.state.member 1 = some ⟨{ ServerOps.client 7 "alice" with
      sessionID := 1, sessionGeneration := 1, authorizationRevision := 1 }, {}⟩ := by
    decide +kernel
  obtain ⟨-, -, -, -, rs, -, -, -, -, hrs, hnodup, -⟩ :=
    voice_target_recipients ServerOps.config ServerOps.planted_newSite fit_newSite reuse rfl hspec
      (by decide +kernel) hspeaker (by decide +kernel) (by decide +kernel)
      (tableTargetOrder_of reused.site.state)
  exact ⟨rs, hrs, hnodup⟩

end MumbleServer.Voice
