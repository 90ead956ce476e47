import MumbleServer.ChannelRemoval
import MumbleServer.SuppressOnEntry
import MumbleServer.TargetHistory
import MumbleServer.TreeCleanup

/-! # Temporary channels and those who leave them

When a session ends the server removes the temporary channels that have neither users nor children.
`OnClose` does so first and removes the record of the user afterwards, so the user who leaves still
counts; a kick and a ban remove the record first.  Neither a UserState nor a ChannelRemove that
moves users removes empty channels at all.

The operations that end a session are those of `ServerOps` with two more ways to be thrown out, and
the database may keep the rows of some channels: a channel whose row stays is passed over like one
that has users. -/

namespace MumbleServer.ServerOps

open UserManager
open Acl (Permission subjectOf)
open Moderation (State Member UserState aclCheck countInChannel)

/-! ### Sessions end -/

section endings
variable (deletes : ℕ → Bool) (s : Site)

/-- `CleanEmptyTempChannels`, with the answers of the database. -/
def cleanOn : Site :=
  s.setChannels (s.channels.cleanEmptyTempChannels fun id =>
    decide (0 < countInChannel s.state.server id) || !deletes id)

/-- `UnregisterConn`. -/
def unregisterConnOn (ref : SessionRef) : Site :=
  if ref.valid = false then s else cleanOn deletes { s with state := detach s.state ref }

/-- `OnClose`, and what a remote edge does when a client is gone. -/
def disconnectOn (ref : SessionRef) : Site := removeUser (unregisterConnOn deletes s ref) ref

/-- The end of a kick or a ban: the record goes, then the connection. -/
def expel (ref : SessionRef) : Site := unregisterConnOn deletes (removeUser s ref) ref

/-- `KickSessionRef`. -/
def kickOn (ref : SessionRef) : Option Site :=
  (kicked s ref).map fun s => unregisterConnOn deletes s ref

/-- `beginCloseAnnounced`; an error is ignored. -/
def beginClosing (ref : SessionRef) : Site :=
  match s.state.registry.beginClose ref with
  | .ok (r, _) => { s with state := { s.state with registry := r } }
  | .error _ => s

def banAndKickSession (sessionID : ℕ) : Option Site :=
  (s.users.snapshot sessionID).map fun u => expel deletes (beginClosing s u.ref) u.ref

/-- `handleUserRemove`: a kick or a ban by a client. -/
def handleUserRemove (cfg : Config) (c : SessionRef) (session : ℕ) (ban : Bool) : Option Site :=
  if s.state.registry.active c = false then none
  else if session = 0 then none
  else
    match s.users.snapshot c.sessionID, s.users.snapshot session with
    | some sender, some target =>
      if target.isSuperUser || !aclCheck cfg.pol s.state.server (subjectOf sender) rootChannelID
          (if ban then Permission.ban else Permission.kick) then none
      else some (expel deletes (beginClosing s target.ref) target.ref)
    | _, _ => none

end endings

/-- What happens on a server: the operations of `ServerOps`, and the ways a session ends with the
answers of the database. -/
inductive Event
  | op (op : Op)
  | disconnect (ref : SessionRef) (deletes : ℕ → Bool)
  | kick (ref : SessionRef) (deletes : ℕ → Bool)
  | ban (sessionID : ℕ) (deletes : ℕ → Bool)
  | userRemove (c : SessionRef) (session : ℕ) (ban : Bool) (deletes : ℕ → Bool)

/-- The state afterwards. -/
def act (cfg : Config) (s : Site) : Event → Site
  | .op op => step cfg s op
  | .disconnect ref deletes => disconnectOn deletes s ref
  | .kick ref deletes => (kickOn deletes s ref).getD s
  | .ban sessionID deletes => (banAndKickSession deletes s sessionID).getD s
  | .userRemove c session ban deletes => (handleUserRemove deletes s cfg c session ban).getD s

/-- Somebody is in the channel whom a ChannelRemove is about. -/
def vacates (cfg : Config) (s : Site) (c : SessionRef) (id : ℕ) : Bool :=
  (reached cfg s c id).isSome && s.users.bySession.any fun u => decide (u.channelID = id)

/-- A user has left a channel: a disconnect, a kick, a ban or a move has been completed. -/
def completes (cfg : Config) (s : Site) : Event → Bool
  | .op (.disconnect ref) => ref.valid
  | .op (.kick ref) => (kicked s ref).isSome
  | .op (.userState rateAllows c us) =>
    us.channelID.isSome && (Moderation.handleUserState cfg.pol s.state rateAllows c us).applied
  | .op (.channelRemove c id _) => vacates cfg s c id
  | .op _ => false
  | .disconnect ref _ => ref.valid
  | .kick ref _ => (kicked s ref).isSome
  | .ban sessionID _ => (s.users.snapshot sessionID).isSome
  | .userRemove c session ban deletes => (handleUserRemove deletes s cfg c session ban).isSome

/-- Every temporary channel that has no children has a user. -/
def TempsInhabited (s : Site) : Prop :=
  ∀ c ∈ s.channels, c.isTemporary = true → s.channels.hasChildren c.id = false →
    ∃ u ∈ s.users.bySession, u.channelID = c.id

/-! ### The condition -/

/-- The channel and all that is below it is temporary, and only those who leave are there. -/
def Deserted (s : Site) (leaves : User → Prop) (c : Channel) : Prop :=
  ∀ n ∈ s.channels, c.id ∈ s.channels.ancestorChain n.id →
    n.isTemporary = true ∧ ∀ u ∈ s.users.bySession, u.channelID = n.id → leaves u

/-- What is deserted can be removed: it is not the root, and the database lets it go. -/
def Removed (s : Site) (leaves : User → Prop) (deletes : ℕ → Bool) : Prop :=
  ∀ c ∈ s.channels, Deserted s leaves c → c.id ≠ rootChannelID ∧ deletes c.id = true

/-- Nobody leaves a channel deserted. -/
def NotLast (s : Site) (leaves : User → Prop) : Prop :=
  ∀ c ∈ s.channels, Deserted s leaves c → ∀ u ∈ s.users.bySession, u.channelID ≠ c.id

/-- Without the channels that are `gone`, every temporary channel without children is the one that
is entered or has somebody in it who does not leave. -/
def Peopled (s : Site) (gone : Channel → Prop) (entered : ℕ) (leaves : User → Prop) : Prop :=
  ∀ c ∈ s.channels, ¬gone c → c.isTemporary = true →
    (∀ d ∈ s.channels, d.id ≠ rootChannelID → d.parentID = c.id → gone d) →
    c.id = entered ∨ ∃ u ∈ s.users.bySession, u.channelID = c.id ∧ ¬leaves u

/-- Who leaves by a disconnect is not the last one in a temporary channel with nothing but empty
temporary channels below; the database lets the channels go that are deserted when a session ends;
and when a user is moved then no temporary channel without children is left empty. -/
def Tidy (cfg : Config) (s : Site) : Event → Prop
  | .op (.disconnect ref) =>
    Removed s (fun u => u.ref = ref) (fun _ => true) ∧ NotLast s fun u => u.ref = ref
  | .op (.kick ref) => Removed s (fun u => u.ref = ref) fun _ => true
  | .op (.userState _ c us) => ∀ cid ∈ us.channelID,
      Peopled s (fun _ => False) cid fun u => u.sessionID = us.session.getD c.sessionID
  | .op (.channelRemove c id dbOk) => ∀ ch ∈ reached cfg s c id,
      Peopled s (fun d => d.id = id ∧ Removable s id dbOk) ch.parentID fun u => u.channelID = id
  | .op _ => True
  | .disconnect ref deletes =>
    Removed s (fun u => u.ref = ref) deletes ∧ NotLast s fun u => u.ref = ref
  | .kick ref deletes => Removed s (fun u => u.ref = ref) deletes
  | .ban sessionID deletes => Removed s (fun u => u.sessionID = sessionID) deletes
  | .userRemove _ session _ deletes => Removed s (fun u => u.sessionID = session) deletes

/-! ### Users and channels -/

variable {id : ℕ}

section users
variable {s s' : Site} {leaves leaves' : User → Prop}

theorem countInChannel_pos {sv : Acl.Server} :
    0 < countInChannel sv id ↔ ∃ u ∈ sv.users.bySession, u.channelID = id := by
  simp [countInChannel, List.countP_pos_iff]

theorem mem_removeUser (hv : s.users.Valid) (ref : SessionRef) (u : User) :
    u ∈ (removeUser s ref).users.bySession ↔ u ∈ s.users.bySession ∧ u.ref ≠ ref := by
  have hiff : ∀ {m : UserManager}, m.Valid → (u ∈ m.bySession ↔ m.snapshotRef u.ref = some u) := by
    intro m hm
    rw [snapshotRef_eq_some]
    exact ⟨fun h => ⟨snapshot_of_mem hm h, rfl⟩,
      fun h => (mem_of_snapshot h.1).1⟩
  have hremoved : (s.users.removeIfGeneration ref).1.Valid := valid_remove hv _ _ _
  show u ∈ (s.users.removeIfGeneration ref).1.bySession ↔ _
  rw [hiff hremoved, hiff hv, snapshotRef_remove]
  split_ifs with h <;> simp [h]

theorem exists_in_iff {st : State} (hv : st.server.users.Valid) :
    (∃ u ∈ st.server.users.bySession, u.channelID = id) ↔
      ∃ sid m, st.member sid = some m ∧ m.user.channelID = id := by
  constructor
  · rintro ⟨u, hu, hid⟩
    exact ⟨_, _, member_of_snapshot (snapshot_of_mem hv hu), hid⟩
  · rintro ⟨sid, m, hm, hid⟩
    exact ⟨m.user, (mem_of_snapshot (snapshot_of_member hm)).1, hid⟩

theorem hasChildren_eq_false {cs : Channels} : cs.hasChildren id = false ↔
    ∀ d ∈ cs, d.id ≠ rootChannelID → d.parentID ≠ id := by
  simp [Channels.hasChildren]

theorem deserted_congr (hserver : s'.state.server = s.state.server)
    (hleaves : ∀ u ∈ s.users.bySession, leaves' u ↔ leaves u) (c : Channel) :
    Deserted s' leaves' c ↔ Deserted s leaves c := by
  unfold Deserted Site.channels Site.users
  rw [hserver]
  refine forall₃_congr fun n _ _ => and_congr_right fun _ => forall₂_congr fun u hu => ?_
  rw [hleaves u hu]

theorem removed_congr {deletes : ℕ → Bool} (hserver : s'.state.server = s.state.server)
    (hleaves : ∀ u ∈ s.users.bySession, leaves' u ↔ leaves u) :
    Removed s' leaves' deletes ↔ Removed s leaves deletes := by
  unfold Removed
  simp only [deserted_congr hserver hleaves]
  unfold Site.channels
  rw [hserver]

end users

/-! ### A session ends -/

theorem cleanOn_true (s : Site) : cleanOn (fun _ => true) s = clean s := by
  unfold cleanOn clean
  simp only [Bool.not_true, Bool.or_false]

section
variable (s : Site) (ref : SessionRef)
include s ref

theorem unregisterConnOn_true : unregisterConnOn (fun _ => true) s ref = unregisterConn s ref := by
  unfold unregisterConnOn unregisterConn
  rw [cleanOn_true]

theorem kickOn_true : (kickOn (fun _ => true) s ref).getD s = kick s ref := by
  unfold kickOn kick
  cases kicked s ref with
  | none => rfl
  | some s' => exact unregisterConnOn_true s' ref

theorem server_beginClosing : (beginClosing s ref).state.server = s.state.server := by
  unfold beginClosing
  split <;> rfl

theorem rows_beginClosing : (beginClosing s ref).rows = s.rows := by
  unfold beginClosing
  split <;> rfl

end

theorem unregisterConnOn_spec (deletes : ℕ → Bool) (s : Site) {ref : SessionRef}
    (href : ref.valid = true) : (unregisterConnOn deletes s ref).users = s.users ∧
      (unregisterConnOn deletes s ref).channels = (cleanOn deletes s).channels := by
  have hserver := server_detach s.state ref
  unfold unregisterConnOn
  rw [if_neg (by simp [href])]
  have husers : (detach s.state ref).server.users = s.users := congrArg Acl.Server.users hserver
  exact ⟨husers, congrArg (fun sv : Acl.Server =>
    sv.world.channels.cleanEmptyTempChannels fun id =>
      decide (0 < countInChannel sv id) || !deletes id) hserver⟩

section ending
variable {s : Site} {deletes : ℕ → Bool} (h : Planted s)
include h

theorem deserted_self {leaves : User → Prop} {c : Channel} (hc : c ∈ s.channels)
    (hdeserted : Deserted s leaves c) {u : User} (hu : u ∈ s.users.bySession)
    (hin : u.channelID = c.id) : leaves u := by
  obtain ⟨t, ht⟩ := h.tree
  obtain ⟨p, hp⟩ := t.path_of_mem (ht ▸ hc)
  refine (hdeserted c hc ?_).2 u hu hin
  rw [← ht, ancestorChain_of_path hp, List.mem_reverse]
  exact hp.self_mem

/-- The cleanup counts all but those who are `gone` already, and those who leave are not there
afterwards. -/
theorem tempsInhabited_iff_of_clean {s₁ s' : Site} {gone leaves : User → Prop}
    (hcs : s₁.channels = s.channels) (hcs' : s'.channels = (cleanOn deletes s₁).channels)
    (hcounted : ∀ u, u ∈ s₁.users.bySession ↔ u ∈ s.users.bySession ∧ ¬gone u)
    (hafter : ∀ u, u ∈ s'.users.bySession ↔ u ∈ s.users.bySession ∧ ¬leaves u)
    (hgone : ∀ u, gone u → leaves u) :
    TempsInhabited s' ↔ ∀ c ∈ s.channels, Deserted s leaves c →
      c.id ≠ rootChannelID ∧ deletes c.id = true ∧
        ∀ u ∈ s.users.bySession, u.channelID = c.id → gone u := by
  obtain ⟨t, ht⟩ := h.tree
  have hbusy : ∀ id, (decide (0 < countInChannel s₁.state.server id) || !deletes id) = true ↔
      (∃ u ∈ s₁.users.bySession, u.channelID = id) ∨ deletes id = false := by
    intro id
    rw [Bool.or_eq_true, decide_eq_true_eq, countInChannel_pos, Bool.not_eq_true']
    rfl
  have hstays : ∀ id, (∃ u ∈ s'.users.bySession, u.channelID = id) →
      ∃ u ∈ s₁.users.bySession, u.channelID = id := by
    rintro id ⟨u, hu, hid⟩
    obtain ⟨hmem, hleft⟩ := (hafter u).mp hu
    exact ⟨u, (hcounted u).mpr ⟨hmem, mt (hgone u) hleft⟩, hid⟩
  have hcleaned : s'.channels = t.channels.cleanEmptyTempChannels fun id =>
      decide (0 < countInChannel s₁.state.server id) || !deletes id := by
    rw [hcs', ht, ← hcs]
    rfl
  have hdeserted : ∀ c, Deserted s leaves c ↔ ∀ n ∈ s.channels,
      c.id ∈ s.channels.ancestorChain n.id → n.isTemporary = true ∧
        ¬∃ u ∈ s'.users.bySession, u.channelID = n.id := by
    intro c
    refine forall₃_congr fun n _ _ => and_congr_right fun _ => ?_
    simp only [hafter, not_exists, not_and, and_imp]
    exact forall₂_congr fun u _ => ⟨fun h hstay hin => hstay (h hin), fun h hin => by
      by_contra hstay
      exact h hstay hin⟩
  unfold TempsInhabited
  rw [hcleaned, clean_leaves_iff hbusy hstays, ht]
  refine forall₂_congr fun c _ => ?_
  rw [hdeserted c]
  refine imp_congr_right fun _ => and_congr_right fun _ => and_congr_right fun _ => ?_
  simp only [hcounted, not_exists, not_and, and_imp]
  exact forall₂_congr fun u _ => ⟨fun h hin => by
    by_contra hthere
    exact h hthere hin, fun h hthere hin => hthere (h hin)⟩

variable (hv : s.users.Valid) {ref : SessionRef} (href : ref.valid = true)
include hv href

/-- The one who disconnects still counts during the cleanup. -/
theorem tempsInhabited_disconnectOn : TempsInhabited (disconnectOn deletes s ref) ↔
    Removed s (fun u => u.ref = ref) deletes ∧ NotLast s fun u => u.ref = ref := by
  obtain ⟨husers, hchannels⟩ := unregisterConnOn_spec deletes s href
  have hcs' : (disconnectOn deletes s ref).channels = (cleanOn deletes s).channels := hchannels
  have hcounted : ∀ u, u ∈ s.users.bySession ↔ u ∈ s.users.bySession ∧ ¬False := by simp
  have hafter : ∀ u, u ∈ (disconnectOn deletes s ref).users.bySession ↔
      u ∈ s.users.bySession ∧ ¬u.ref = ref := by
    intro u
    have hmem := mem_removeUser (s := unregisterConnOn deletes s ref) (husers.symm ▸ hv) ref u
    rwa [husers] at hmem
  rw [tempsInhabited_iff_of_clean h rfl hcs' hcounted hafter fun _ => False.elim]
  constructor
  · intro hall
    exact ⟨fun c hc hd => ⟨(hall c hc hd).1, (hall c hc hd).2.1⟩,
      fun c hc hd => (hall c hc hd).2.2⟩
  · rintro ⟨hremoved, hlast⟩ c hc hd
    exact ⟨(hremoved c hc hd).1, (hremoved c hc hd).2, hlast c hc hd⟩

theorem tempsInhabited_expel : TempsInhabited (expel deletes s ref) ↔
    Removed s (fun u => u.ref = ref) deletes := by
  obtain ⟨husers, hchannels⟩ := unregisterConnOn_spec deletes (removeUser s ref) href
  have hcs' : (expel deletes s ref).channels = (cleanOn deletes (removeUser s ref)).channels :=
    hchannels
  have hafter : ∀ u, u ∈ (expel deletes s ref).users.bySession ↔
      u ∈ s.users.bySession ∧ ¬u.ref = ref := by
    intro u
    rw [← mem_removeUser hv ref u]
    exact iff_of_eq (congrArg (fun m => u ∈ m.bySession) husers)
  have hcs : (removeUser s ref).channels = s.channels := rfl
  rw [tempsInhabited_iff_of_clean h hcs hcs' (mem_removeUser hv ref) hafter fun _ => id]
  constructor
  · intro hall c hc hd
    exact ⟨(hall c hc hd).1, (hall c hc hd).2.1⟩
  · intro hremoved c hc hd
    exact ⟨(hremoved c hc hd).1, (hremoved c hc hd).2, fun u hu => deserted_self h hc hd hu⟩

theorem tempsInhabited_thrownOut :
    TempsInhabited (expel deletes (beginClosing s ref) ref) ↔
      Removed s (fun u => u.ref = ref) deletes := by
  have hserver := server_beginClosing s ref
  have hplanted : Planted (beginClosing s ref) :=
    h.congr (congrArg (fun sv => sv.world.channels) hserver) (rows_beginClosing s ref)
  have husers : (beginClosing s ref).users = s.users := congrArg Acl.Server.users hserver
  have hvalid : (beginClosing s ref).users.Valid := husers.symm ▸ hv
  rw [tempsInhabited_expel hplanted hvalid href]
  exact removed_congr hserver fun _ _ => Iff.rfl

end ending

/-! ### Users are moved -/

section moves
variable {s s' : Site} {gone : Channel → Prop} {entered : ℕ} {leaves : User → Prop}

/-- Channels are gone and users have moved to one channel. -/
theorem tempsInhabited_iff_peopled (hcs : ∀ c, c ∈ s'.channels ↔ c ∈ s.channels ∧ ¬gone c)
    (hin : ∀ id, (∃ u ∈ s'.users.bySession, u.channelID = id) ↔
      id = entered ∨ ∃ u ∈ s.users.bySession, u.channelID = id ∧ ¬leaves u) :
    TempsInhabited s' ↔ Peopled s gone entered leaves := by
  have hleaf : ∀ id, s'.channels.hasChildren id = false ↔
      ∀ d ∈ s.channels, d.id ≠ rootChannelID → d.parentID = id → gone d := by
    intro id
    rw [hasChildren_eq_false]
    simp only [hcs, and_imp]
    exact forall₂_congr fun d _ => ⟨fun h hroot hparent => by
      by_contra hthere
      exact h hthere hroot hparent, fun h hthere hroot hparent => hthere (h hroot hparent)⟩
  unfold TempsInhabited Peopled
  simp only [hcs, hin, hleaf, and_imp]

theorem tempsInhabited_userState (cfg : Config) (hv : s.users.Valid) {rateAllows : Bool}
    {c : SessionRef} {us : UserState} {cid : ℕ} (hcid : us.channelID = some cid)
    (happlied : (Moderation.handleUserState cfg.pol s.state rateAllows c us).applied = true) :
    TempsInhabited (step cfg s (.userState rateAllows c us)) ↔
      Peopled s (fun _ => False) cid fun u => u.sessionID = us.session.getD c.sessionID := by
  rcases handleUserState_cases cfg.pol s.state rateAllows c us with
    ⟨hnot, -⟩ | ⟨st₁, actor, target, us', hl, ht, -, hchannel, -, hstate⟩
  · rw [happlied] at hnot
    cases hnot
  have hsid := Voice.sessionID_of_member ht
  have ht₁ : st₁.member target.user.sessionID = some target := by rw [hl.member, hsid, ht]
  have hv₁ : st₁.server.users.Valid := hl.server ▸ hv
  obtain ⟨hworld, hvalid, revision, hmember⟩ :=
    applyChecked_moved hv₁ ht₁ cfg.pol actor (hchannel.trans hcid)
  rw [← hstate] at hworld hvalid hmember
  refine tempsInhabited_iff_peopled (fun ch => ?_) fun id => ?_
  · rw [not_false_eq_true, and_true]
    have hcs := congrArg Acl.World.channels (hworld.trans (congrArg Acl.Server.world hl.server))
    exact iff_of_eq (congrArg (ch ∈ ·) hcs)
  · refine (exists_in_iff hvalid).trans ⟨?_, ?_⟩
    · rintro ⟨sid, m, hm, rfl⟩
      rw [hmember] at hm
      split_ifs at hm with hmoved
      · obtain rfl := Option.some.inj hm
        exact .inl rfl
      · rw [hl.member] at hm
        refine .inr ⟨m.user, (mem_of_snapshot (snapshot_of_member hm)).1, rfl, ?_⟩
        rwa [Voice.sessionID_of_member hm, ← hsid]
    · rintro (rfl | ⟨u, hu, rfl, hother⟩)
      · exact ⟨target.user.sessionID, _, (hmember _).trans (if_pos rfl), rfl⟩
      · have hstays := member_of_snapshot (snapshot_of_mem hv hu)
        rw [← hsid] at hother
        refine ⟨u.sessionID, ⟨u, s.state.profiles u.sessionID⟩, ?_, rfl⟩
        rw [hmember, if_neg hother, hl.member]
        exact hstays

theorem mem_remove {dbOk : Bool} {ch : Channel} (hch : s.channels.getChannel id = some ch)
    (d : Channel) : d ∈ (s.remove id dbOk).1.channels ↔
      d ∈ s.channels ∧ ¬(d.id = id ∧ Removable s id dbOk) := by
  by_cases hremovable : Removable s id dbOk
  · rcases remove_cases s id dbOk with hr | ⟨-, -, hr⟩
    · have hgone := gone_of_removable hch hremovable
      rw [hr, hch] at hgone
      cases hgone
    · rw [hr]
      show d ∈ s.channels.filter _ ↔ _
      simp [hremovable]
  · rw [remove_of_not_removable hremovable]
    simp [hremovable]

theorem tempsInhabited_channelRemove (cfg : Config) (hv : s.users.Valid) {c : SessionRef}
    {dbOk : Bool} {ch : Channel} (hreached : reached cfg s c id = some ch)
    (hin : ∃ u ∈ s.users.bySession, u.channelID = id) :
    TempsInhabited (step cfg s (.channelRemove c id dbOk)) ↔
      Peopled s (fun d => d.id = id ∧ Removable s id dbOk) ch.parentID
        fun u => u.channelID = id := by
  rcases handleChannelRemove_cases cfg s c id dbOk with ⟨hnone, -⟩ | ⟨ch', hreached', hch, hremove⟩
  · rw [hreached] at hnone
    cases hnone
  obtain rfl := Option.some.inj (hreached.symm.trans hreached')
  obtain rfl := id_of_getChannel hch
  have hout : Evicted cfg ch.parentID s.state _ (vacate cfg s.state ch).1 := vacate_evicted hv
  have hstep : step cfg s (.channelRemove c ch.id dbOk) =
      (Site.remove { s with state := (vacate cfg s.state ch).1 } ch.id dbOk).1 :=
    congrArg Prod.fst hremove
  rw [hstep]
  refine tempsInhabited_iff_peopled (fun d => ?_) fun id => ?_
  · rw [mem_remove (by rw [channels_vacate]; exact hch), channels_vacate, removable_vacate]
  · rw [users_remove]
    refine (exists_in_iff hout.valid).trans ⟨?_, ?_⟩
    · rintro ⟨sid, m, hm, rfl⟩
      by_cases hmem : sid ∈ (s.users.bySession.filter fun u =>
          decide (u.channelID = ch.id)).map User.sessionID
      · obtain ⟨u, hu, rfl⟩ := List.mem_map.mp hmem
        obtain ⟨revision, hmoved⟩ := hout.moved u hu
        obtain rfl := Option.some.inj (hm.symm.trans hmoved)
        exact .inl rfl
      · rw [hout.others sid hmem] at hm
        have hu := (mem_of_snapshot (snapshot_of_member hm)).1
        refine .inr ⟨m.user, hu, rfl, fun hchannel => hmem ?_⟩
        exact List.mem_map.mpr
          ⟨m.user, mem_occupants.mpr ⟨hu, hchannel⟩, Voice.sessionID_of_member hm⟩
    · rintro (rfl | ⟨u, hu, rfl, hother⟩)
      · obtain ⟨u, hu, hchannel⟩ := hin
        obtain ⟨revision, hmoved⟩ := hout.moved u (mem_occupants.mpr ⟨hu, hchannel⟩)
        exact ⟨u.sessionID, _, hmoved, rfl⟩
      · have hstays := member_of_snapshot (snapshot_of_mem hv hu)
        refine ⟨u.sessionID, _, (hout.others _ fun hmem => ?_).trans hstays, rfl⟩
        obtain ⟨v, hv', hsid⟩ := List.mem_map.mp hmem
        obtain ⟨hmem, hchannel⟩ := mem_occupants.mp hv'
        have hsame : v = u := List.inj_on_of_nodup_map hv.nodup hmem hu hsid
        exact hother (hsame ▸ hchannel)

end moves

end MumbleServer.ServerOps
