import MumbleServer.AclFrame

/-! # External identities

`internal/identity/external_http.go`: an external authority answers with a user ID, a name and
groups.  `validateExternalIdentity` checks the answer, and the session that is made from it takes
the ID over as it is.  The IDs from `apiUserIDBase` on stand for API accounts, and the evaluator
looks such an ID up in the table of API accounts wherever it comes from.

`external_oblivious_iff` says which external identities are independent of that table. -/

namespace MumbleServer.Acl

open Fallible
variable {accounts : List Account}

/-! ### Identities -/

/-- `identity.Identity`, as an external authority gives it. -/
structure Identity where
  userID : UInt32
  name : String
  groups : List String
  identityVersion : ℕ
  policyVersion : ℕ

/-- The groups loop of `validateExternalIdentity`. -/
def validateGroups (seen : List String) : List String → Except String Unit
  | [] => .ok ()
  | group :: rest =>
    if trimSpace group.toList = [] ∨ trimSpace group.toList ≠ group.toList then
      .error "external group is empty or not canonical"
    else if seen.contains group then .error "duplicate external group"
    else validateGroups (group :: seen) rest

def validateExternalIdentity (i : Identity) : Except String Unit :=
  if i.userID = 0 then .error "user id 0 is reserved"
  else if trimSpace i.name.toList = [] ∨ i.name = "SuperUser" then
    .error "invalid or reserved canonical name"
  else validateGroups [] i.groups

/-- An identity that was accepted. -/
structure ExternalIdentity extends Identity where
  valid : (validateExternalIdentity toIdentity).isOk = true

/-- A session of the identity; the rest of the record is the session's own. -/
def Identity.session (i : Identity) (u : User) : User :=
  { u with
    userID := i.userID
    name := i.name
    externalGroups := i.groups
    externalIdentity := true
    identityVersion := i.identityVersion
    policyVersion := i.policyVersion
    isSuperUser := false }

def inGroup (fold : Char → Char) (w : World) (u : User) (channelID : ℕ) (group : String) : Bool :=
  if (w.channels.getChannel channelID).isNone then false
  else
    match (matchSelector fold (parseSelector group) u.userID channelID channelID
        (some (viewer u))).on w with
    | .ok isMatch => isMatch
    | .error _ => false

/-! ### Worlds that differ in the API accounts -/

def World.withAccounts (w : World) (accounts : List Account) : World :=
  { w with db := { w.db with accounts := accounts } }

def Server.withAccounts (sv : Server) (accounts : List Account) : Server :=
  { sv with world := sv.world.withAccounts accounts }

/-- The database numbers accounts from 1 on. -/
def Numbered (accounts : List Account) : Prop := ∀ a ∈ accounts, a.id ≠ 0

/-- The permissions and groups of every session of the identity are the same whatever the API
accounts are. -/
def Oblivious (fold : Char → Char) (i : Identity) : Prop :=
  ∀ (sv : Server) (u : User) (accounts accounts' : List Account) (channelID : ℕ),
    sv.users.snapshot u.sessionID = some (i.session u) → Numbered accounts → Numbered accounts' →
      (source fold).direct (sv.withAccounts accounts) (subjectOf (i.session u), channelID) =
        (source fold).direct (sv.withAccounts accounts') (subjectOf (i.session u), channelID) ∧
      ∀ group,
        inGroup fold (sv.withAccounts accounts).world (i.session u) channelID group =
          inGroup fold (sv.withAccounts accounts').world (i.session u) channelID group

theorem alike_withAccounts (w : World) (accounts accounts' : List Account) :
    Alike (fun _ => True) (w.withAccounts accounts) (w.withAccounts accounts') := by
  refine ⟨?_, rfl⟩
  constructor <;> intros <;> trivial

theorem apiAdmin_agrees {w : World} {accounts accounts' : List Account} {id : UInt32}
    (hid : apiUserIDToDBID id = 0) (hn : Numbered accounts) (hn' : Numbered accounts') :
    (apiAdmin id).Agrees (w.withAccounts accounts) (w.withAccounts accounts') := by
  have hnone : ∀ l, Numbered l → l.find? (fun a => decide (a.id = apiUserIDToDBID id)) = none := by
    intro l hl
    rw [List.find?_eq_none]
    intro a ha
    simp [hid, hl a ha]
  refine query_agrees (by rfl) ?_
  simp only [World.withAccounts, hnone _ hn, hnone _ hn']

/-! ### Independence -/

variable (fold : Char → Char) {i : Identity}

/-- An identity whose ID names no account is independent of the accounts. -/
theorem oblivious_of_dbid_zero (hid : apiUserIDToDBID i.userID = 0) : Oblivious fold i := by
  intro sv u accounts accounts' channelID _ hn hn'
  have halike := alike_withAccounts sv.world accounts accounts'
  have hapi := apiAdmin_agrees (w := sv.world) hid hn hn'
  refine ⟨direct_agrees fold halike hapi rfl trivial fun _ _ => trivial, fun group => ?_⟩
  have hsel : (matchSelector fold (parseSelector group) i.userID channelID channelID
      (some (viewer (i.session u)))).on (sv.withAccounts accounts).world =
      Fallible.on (sv.withAccounts accounts').world _ :=
    halike.matchSelector fold hapi trivial (fun _ _ => trivial) _ trivial
  have hchan : (sv.withAccounts accounts).world.channels =
      (sv.withAccounts accounts').world.channels := rfl
  unfold inGroup
  rw [show (i.session u).userID = i.userID from rfl, hsel, hchan]

def plainWorld (accounts : List Account) : World :=
  ⟨1, [⟨0, 0, "Root", "", 0, 0, false, [], true⟩], ⟨[], [], accounts⟩, none, []⟩

/-- The first session of the identity, in the root channel. -/
def firstSession (i : Identity) : User :=
  i.session ⟨⟨0, 0, false, "", false, false, 0, 0, [], []⟩, 1, 1, 1, ""⟩

def plainServer (i : Identity) : Server :=
  ⟨plainWorld [], ((UserManager.new 8).add (firstSession i)).1⟩

theorem evaluate_plainWorld {id : UInt32} {dflt : Permission}
    (hb : (baseline id).on (plainWorld accounts) = .ok dflt) (u : Option Viewer) :
    (evaluate fold id rootChannelID u).on (plainWorld accounts) =
      .ok (finish rootChannelID ⟨dflt, true, has dflt Permission.write⟩) := by
  have hrows : (query fun w => w.aclRows rootChannelID).on (plainWorld accounts) = .ok [] :=
    congrArg Except.ok (by simp [World.aclRows, plainWorld])
  have hvisit : (visitChannels fold dflt id rootChannelID u [rootChannelID]
      ⟨dflt, true, has dflt Permission.write⟩).on (plainWorld accounts) =
      .ok (some ⟨dflt, true, has dflt Permission.write⟩) := by
    refine (on_bind_of_ok (a := some (_, true)) rfl _).trans ?_
    exact on_bind_of_ok hrows _
  refine (on_bind_of_ok (a := [rootChannelID]) rfl _).trans ?_
  rw [if_neg (by simp)]
  refine (on_bind_of_ok hb _).trans ?_
  exact on_bind_of_ok hvisit _

theorem resolveUser_subjectOf {m : UserManager} {u : User} (hu : m.snapshot u.sessionID = some u)
    (hsid : u.sessionID ≠ 0) : resolveUser m (subjectOf u) = .ok (some u) := by
  simp [resolveUser, subjectOf, hsid, hu]

theorem snapshot_plainServer (i : Identity) :
    (plainServer i).users.snapshot (firstSession i).sessionID = some (firstSession i) := by
  rfl

theorem direct_plainServer {dflt : Permission}
    (hb : (baseline i.userID).on (plainWorld accounts) = .ok dflt) :
    (source fold).direct ((plainServer i).withAccounts accounts)
        (subjectOf (firstSession i), rootChannelID) =
      finish rootChannelID ⟨dflt, true, has dflt Permission.write⟩ := by
  have hstart : (source fold).start ((plainServer i).withAccounts accounts)
      (subjectOf (firstSession i), rootChannelID) =
      .compute (cacheKey (subjectOf (firstSession i)) rootChannelID (some (firstSession i)))
        (evaluate fold i.userID rootChannelID (some (viewer (firstSession i)))).run := by
    show permissionsStart fold ((plainServer i).withAccounts accounts) _ = _
    unfold permissionsStart
    rw [show resolveUser ((plainServer i).withAccounts accounts).users _ = _ from
      resolveUser_subjectOf (snapshot_plainServer i) Nat.one_ne_zero]
    rfl
  exact GuardedCache.Source.direct_of_ok hstart (evaluate_plainWorld fold hb _)

/-- **An external identity is independent of the API accounts exactly if its ID is not that of
one**: below `apiUserIDBase`, or `apiUserIDBase` itself. -/
theorem external_oblivious_iff (fold : Char → Char) (i : ExternalIdentity) :
    Oblivious fold i.toIdentity ↔ apiUserIDToDBID i.userID = 0 := by
  refine ⟨fun h => ?_, oblivious_of_dbid_zero fold⟩
  by_contra hid
  have hapi : isAPIUserID i.userID = true := by
    by_contra hn
    exact hid (by simp [apiUserIDToDBID, hn])
  have hplain : (baseline i.userID).on (plainWorld []) = .ok defaultPermissions := by
    unfold baseline
    rw [if_pos hapi]
    rfl
  have hadmin : (baseline i.userID).on (plainWorld [⟨apiUserIDToDBID i.userID, .admin⟩]) =
      .ok (defaultPermissions ||| Permission.write) := by
    have ha : (apiAdmin i.userID).on (plainWorld [⟨apiUserIDToDBID i.userID, .admin⟩]) = .ok true := by
      simp [apiAdmin, query, plainWorld]
    unfold baseline
    rw [if_pos hapi]
    exact on_bind_of_ok ha _
  have hsame := (h (plainServer i.toIdentity) (firstSession i.toIdentity)
    [⟨apiUserIDToDBID i.userID, .admin⟩] [] rootChannelID
    (snapshot_plainServer i.toIdentity) (by simpa [Numbered] using hid) (by simp [Numbered])).1
  have hdiff := ((direct_plainServer fold hadmin).symm.trans hsame).trans
    (direct_plainServer fold hplain)
  exact absurd hdiff (by decide)

/-- An identity that the authority gave the ID of the first API account. -/
def outsider : ExternalIdentity := ⟨⟨0x80000001, "eve", ["players"], 1, 1⟩, by decide +kernel⟩

/-- It has Write and is in the group `admin` while that account is an administrator. -/
theorem outsider_is_admin :
    let admin := (plainServer outsider.toIdentity).withAccounts [⟨1, .admin⟩]
    let plain := (plainServer outsider.toIdentity).withAccounts []
    let u := firstSession outsider.toIdentity
    has ((source id).direct admin (subjectOf u, rootChannelID)) Permission.write = true ∧
    has ((source id).direct plain (subjectOf u, rootChannelID)) Permission.write = false ∧
    inGroup id admin.world u rootChannelID "admin" = true ∧
    inGroup id plain.world u rootChannelID "admin" = false ∧
    ¬ Oblivious id outsider.toIdentity := by
  have hadmin : (baseline 0x80000001).on (plainWorld [⟨1, .admin⟩]) =
      .ok (defaultPermissions ||| Permission.write) := by decide +kernel
  have hplain : (baseline 0x80000001).on (plainWorld []) = .ok defaultPermissions := by
    decide +kernel
  refine ⟨?_, ?_, by decide +kernel, by decide +kernel, fun h => ?_⟩
  · exact (congrArg (has · Permission.write) (direct_plainServer id hadmin)).trans (by decide)
  · exact (congrArg (has · Permission.write) (direct_plainServer id hplain)).trans (by decide)
  · have hgroup := (h (plainServer outsider.toIdentity) (firstSession outsider.toIdentity)
      [⟨1, .admin⟩] [] rootChannelID (snapshot_plainServer _) (by simp [Numbered])
      (by simp [Numbered])).2 "admin"
    exact absurd hgroup (by decide +kernel)

end MumbleServer.Acl
