import MumbleServer.Acl
import MumbleServer.Runs

/-! # Administrators and their tokens

`internal/service/user.go` behind the middleware (`auth.go`, `rbac.go`): accounts are registered,
log in, and are changed or deleted by requests of administrators.  Requests run side by side, and
every access of one to the table is a step of its own.

Signatures are ideal: a token is the record it was signed from, and verifies only if it was signed
and under the secret of that record.  Every secret drawn is new; `secrets` counts them. -/

namespace MumbleServer.Admin

open Acl (Role)

/-- `models.User`; as a token, the claims in it and the secret it was signed with. -/
structure User where
  id : ℕ
  username : String
  role : Role
  jwtSecret : ℕ
  tokenVersion : ℕ
  deleted : Bool
deriving DecidableEq

structure State where
  /-- The table, in the order of its primary key. -/
  users : List User
  secrets : ℕ
  /-- Registrations after their count, with the number of accounts they counted. -/
  counted : List (String × ℕ)
  /-- Records of registrations and logins that sign next. -/
  read : List User
  tokens : List User
  /-- Claims of requests that passed the middleware. -/
  admitted : List User

namespace State
variable (s : State)

def empty : State := ⟨[], 0, [], [], [], []⟩

def getUserForAuth (userID : ℕ) : Option User :=
  s.users.find? fun u => decide (u.id = userID) && !u.deleted

/-- `ParseAndValidateToken`; `current` says that expiry, issuer and audience are in order. -/
def parseAndValidateToken (t : User) (current : Bool) : Option User :=
  match s.getUserForAuth t.id with
  | none => none
  | some user =>
    if t ∈ s.tokens ∧ t.jwtSecret = user.jwtSecret ∧ current = true then
      if t.tokenVersion ≠ user.tokenVersion then none else some t
    else none

/-- `UpdateUserRole`; `none` is a role that does not exist. -/
def updateUserRole (id : ℕ) (newRole : Option Role) (currentUserID : ℕ) : State :=
  if id = currentUserID then s
  else
    match newRole with
    | none => s
    | some r =>
      { s with
        secrets := s.secrets + 1
        users := s.users.map fun u =>
          if u.id = id ∧ u.deleted = false then
            { u with role := r, jwtSecret := s.secrets, tokenVersion := u.tokenVersion + 1 }
          else u }

def deleteUser (id currentUserID : ℕ) : State :=
  if id = currentUserID then s
  else { s with users := s.users.map fun u => if u.id = id then { u with deleted := true } else u }

end State

inductive Event
  /-- `Register` counts the accounts. -/
  | count (username : String)
  /-- It stores the account, with the role that its count gives; the name is unique in the table. -/
  | create (username : String) (count : ℕ)
  /-- `Login` reads the record; the password is right. -/
  | login (username : String)
  | sign (u : User)
  /-- The middleware: `ParseAndValidateToken` and `RequireRole("admin")`. -/
  | check (t : User) (current : Bool)
  | update (claims : User) (id : ℕ) (newRole : Option Role)
  | delete (claims : User) (id : ℕ)

def step (s : State) : Event → State
  | .count username =>
    { s with counted := (username, s.users.countP fun u => !u.deleted) :: s.counted }
  | .create username count =>
    if (username, count) ∈ s.counted ∧ s.users.all (fun u => u.username != username) = true then
      let role := if count = 0 then .admin else .user
      let u : User := ⟨s.users.length + 1, username, role, s.secrets, 0, false⟩
      { s with users := s.users ++ [u], secrets := s.secrets + 1, read := u :: s.read }
    else s
  | .login username =>
    match s.users.find? fun u => decide (u.username = username) && !u.deleted with
    | none => s
    | some u => { s with read := u :: s.read }
  | .sign u => if u ∈ s.read then { s with tokens := u :: s.tokens } else s
  | .check t current =>
    match s.parseAndValidateToken t current with
    | none => s
    | some claims =>
      if claims.role = .admin then { s with admitted := claims :: s.admitted } else s
  | .update claims id newRole =>
    if claims ∈ s.admitted then s.updateUserRole id newRole claims.id else s
  | .delete claims id => if claims ∈ s.admitted then s.deleteUser id claims.id else s

/-! ### What a step does to the table -/

variable {s s' : State} {e : Event}

/-- A row has a secret that was drawn since, and then the identifier and the role that go with it,
or is a row from before that can only have been deleted. -/
def Changes (s s' : State) : Prop := ∃ id role, ∀ b ∈ s'.users,
  (b.jwtSecret = s.secrets ∧ s.secrets < s'.secrets ∧ b.id = id ∧ b.role = role) ∨
  ∃ a ∈ s.users, a.jwtSecret = b.jwtSecret ∧ a.id = b.id ∧ a.role = b.role ∧
    (a.deleted = true → b.deleted = true)

theorem Changes.same (h : s'.users = s.users) : Changes s s' :=
  ⟨0, .user, fun b hb => .inr ⟨b, h ▸ hb, rfl, rfl, rfl, id⟩⟩

open State

theorem changes_updateUserRole (id : ℕ) (newRole : Option Role) (currentUserID : ℕ) :
    Changes s (s.updateUserRole id newRole currentUserID) := by
  unfold updateUserRole
  split_ifs
  · exact .same rfl
  · cases newRole with
    | none => exact .same rfl
    | some r =>
      refine ⟨id, r, fun b hb => ?_⟩
      obtain ⟨a, ha, rfl⟩ := List.mem_map.mp hb
      split_ifs with hid
      · exact .inl ⟨rfl, Nat.lt_succ_self _, hid.1, rfl⟩
      · exact .inr ⟨a, ha, rfl, rfl, rfl, fun h => h⟩

theorem changes_deleteUser (id currentUserID : ℕ) : Changes s (s.deleteUser id currentUserID) := by
  unfold deleteUser
  split_ifs
  · exact .same rfl
  · refine ⟨id, .user, fun b hb => .inr ?_⟩
    obtain ⟨a, ha, rfl⟩ := List.mem_map.mp hb
    refine ⟨a, ha, ?_⟩
    split_ifs <;> simp

theorem changes_step (s : State) (e : Event) : Changes s (step s e) := by
  cases e with
  | create username count =>
    simp only [step]
    split
    · refine ⟨s.users.length + 1, if count = 0 then .admin else .user, fun b hb => ?_⟩
      rcases List.mem_append.mp hb with hb | hb
      · exact .inr ⟨b, hb, rfl, rfl, rfl, id⟩
      · cases List.mem_singleton.mp hb
        exact .inl ⟨rfl, Nat.lt_succ_self _, rfl, rfl⟩
    · exact .same rfl
  | update claims id newRole =>
    simp only [step]
    split_ifs
    · exact changes_updateUserRole id newRole claims.id
    · exact .same rfl
  | delete claims id =>
    simp only [step]
    split_ifs
    · exact changes_deleteUser id claims.id
    · exact .same rfl
  | login | check | sign =>
    simp only [step]
    repeat' split
    all_goals exact .same rfl
  | count => exact .same rfl

theorem secrets_step (s : State) (e : Event) : s.secrets ≤ (step s e).secrets := by
  cases e with
  | count => exact le_rfl
  | create | login | sign | check | update | delete =>
    simp only [step, updateUserRole, deleteUser]
    repeat' split
    all_goals simp

theorem signed_step {u : User} (hu : u ∈ (step s e).read ++ (step s e).tokens) :
    u ∈ s.read ++ s.tokens ∨ u ∈ (step s e).users := by
  cases e with
  | count => exact .inl hu
  | create | login | sign | check | update | delete =>
    simp only [step, updateUserRole, deleteUser] at hu ⊢
    repeat' split at hu
    all_goals simp_all
    all_goals grind

/-! ### An administrator remains -/

def State.HasAdmin (s : State) : Prop := ∃ u ∈ s.users, u.role = .admin ∧ u.deleted = false

/-- A request that passed the middleware and changes an account acts for an account that still is
an administrator. -/
def ActsAsAdmin (s : State) : Event → Prop
  | .update claims _ _ | .delete claims _ => claims ∈ s.admitted →
    ∃ u ∈ s.users, u.id = claims.id ∧ u.role = .admin ∧ u.deleted = false
  | _ => True

theorem hasAdmin_step (h : s.HasAdmin) (hact : ActsAsAdmin s e) : (step s e).HasAdmin := by
  obtain ⟨u, hu, hadmin⟩ := h
  cases e with
  | count => exact ⟨u, hu, hadmin⟩
  | create =>
    simp only [step]
    split
    · exact ⟨u, List.mem_append_left _ hu, hadmin⟩
    · exact ⟨u, hu, hadmin⟩
  | login | check | sign =>
    simp only [step]
    repeat' split
    all_goals exact ⟨u, hu, hadmin⟩
  | update claims id newRole =>
    simp only [step, updateUserRole]
    split_ifs with hin hself
    · exact ⟨u, hu, hadmin⟩
    · cases newRole with
      | none => exact ⟨u, hu, hadmin⟩
      | some r =>
        -- the account that the request acts for is not the one that it changes
        obtain ⟨actor, hactor, hid, hrole⟩ := hact hin
        have hother : ¬(actor.id = id ∧ actor.deleted = false) := fun h => hself (h.1 ▸ hid)
        exact ⟨actor, List.mem_map.mpr ⟨actor, hactor, if_neg hother⟩, hrole⟩
    · exact ⟨u, hu, hadmin⟩
  | delete claims id =>
    simp only [step, deleteUser]
    split_ifs with hin hself
    · exact ⟨u, hu, hadmin⟩
    · obtain ⟨actor, hactor, hid, hrole⟩ := hact hin
      have hother : actor.id ≠ id := fun h => hself (h ▸ hid)
      exact ⟨actor, List.mem_map.mpr ⟨actor, hactor, if_neg hother⟩, hrole⟩
    · exact ⟨u, hu, hadmin⟩

/-- Once there is an administrator there always is one, if every account that changes or deletes
another still is an administrator when its request acts. -/
theorem admin_remains {es : List Event} (hs : s.HasAdmin) (h : Along step ActsAsAdmin s es) :
    (run step s es).HasAdmin :=
  run_inv (fun _ _ hi hact => hasAdmin_step hi hact) hs h

namespace Rivals

def alice : User := ⟨1, "alice", .admin, 0, 0, false⟩
def bob : User := ⟨2, "bob", .admin, 2, 1, false⟩

def registration : List Event := [.count "alice", .create "alice" 0, .sign alice]

/-- A second administrator is made and passes the middleware. -/
def bobs : List Event :=
  [.check alice true, .count "bob", .create "bob" 1, .update alice 2 (some .admin),
    .login "bob", .sign bob, .check bob true]

/-- Two administrators, both past the middleware. -/
def both : State := run step .empty (registration ++ bobs)

end Rivals

open Rivals in
theorem admin_remains_alice : (run step both [.update alice 2 (some .user)]).HasAdmin :=
  admin_remains ⟨alice, by decide⟩ ⟨fun _ => ⟨alice, by decide⟩, trivial⟩

open Rivals in
/-- Two administrators take the role from each other. -/
theorem rivals_demote_each_other : both.HasAdmin ∧
    ¬ (run step both [.update alice 2 (some .user), .update bob 1 (some .user)]).HasAdmin := by
  refine ⟨⟨alice, by decide⟩, ?_⟩
  unfold HasAdmin
  decide

/-! ### The first account -/

/-- Exactly the account stored first is an administrator. -/
def OneAdmin : List User → Prop
  | [] => True
  | u :: rest => u.role = .admin ∧ ∀ v ∈ rest, v.role = .user

/-- A step of a registration; one that counted no account finds none when it stores its own. -/
def CountStands (s : State) : Event → Prop
  | .count _ | .sign _ => True
  | .create username count => (username, count) ∈ s.counted → count = 0 → s.users = []
  | _ => False

/-- A registration that counted an account did so because there is one. -/
def Registering (s : State) : Prop :=
  OneAdmin s.users ∧ ∀ c ∈ s.counted, c.2 ≠ 0 → s.users ≠ []

theorem registering_step (h : Registering s) (hstands : CountStands s e) :
    Registering (step s e) := by
  obtain ⟨hone, hcount⟩ := h
  cases e with
  | count username =>
    refine ⟨hone, fun c hc hpos => ?_⟩
    rcases List.mem_cons.mp hc with rfl | hc
    · intro hnil
      have hnil : s.users = [] := hnil
      simp [hnil] at hpos
    · exact hcount c hc hpos
  | create username count =>
    simp only [step]
    split
    next hcall =>
      refine ⟨?_, fun _ _ _ => by simp⟩
      by_cases hzero : count = 0
      · simp [hstands hcall.1 hzero, hzero, OneAdmin]
      · -- it counted the first account or a later one, so it is not the first itself
        obtain ⟨u, rest, hu⟩ := List.exists_cons_of_ne_nil (hcount _ hcall.1 hzero)
        rw [hu] at hone ⊢
        simpa [OneAdmin, or_imp, forall_and, hzero] using hone
    next => exact ⟨hone, hcount⟩
  | sign u =>
    simp only [step]
    split_ifs
    · exact ⟨hone, hcount⟩
    · exact ⟨hone, hcount⟩
  | login | check | update | delete => exact hstands.elim

/-- Of the accounts registered on an empty table exactly the first is an administrator, if no
account is stored between the count of zero of a registration and its own account. -/
theorem first_is_admin {es : List Event} (h : Along step CountStands .empty es) :
    OneAdmin (run step .empty es).users :=
  (run_inv (fun _ _ hi hs => registering_step hi hs)
    (show Registering .empty from ⟨trivial, by simp [empty]⟩) h).1

/-- Two registrations, one after the other. -/
theorem first_is_admin_alice :
    (run step .empty [.count "alice", .create "alice" 0, .count "bob", .create "bob" 1]).users.map
      User.role = [.admin, .user] ∧
    OneAdmin (run step .empty
      [.count "alice", .create "alice" 0, .count "bob", .create "bob" 1]).users :=
  ⟨by decide, first_is_admin ⟨trivial, fun _ _ => rfl, trivial, (fun _ h => nomatch h), trivial⟩⟩

/-- Two registrations count before either is stored. -/
theorem two_first_accounts :
    (run step .empty [.count "alice", .count "bob", .create "alice" 0,
      .create "bob" 0]).users.map User.role = [.admin, .admin] ∧
    ¬ OneAdmin (run step .empty [.count "alice", .count "bob", .create "alice" 0,
      .create "bob" 0]).users :=
  ⟨by decide, fun h => absurd (h.2 ⟨2, "bob", .admin, 1, 0, false⟩ (by decide)) (by decide)⟩

/-! ### Accepted tokens -/

/-- What a secret was drawn for: an account with it has the identifier and role of the record. -/
def Known (r : User) (s : State) : Prop :=
  r.jwtSecret < s.secrets ∧
    ∀ b ∈ s.users, b.jwtSecret = r.jwtSecret → b.id = r.id ∧ b.role = r.role

/-- No account that is left has the secret. -/
def Retired (secret : ℕ) (s : State) : Prop :=
  secret < s.secrets ∧ ∀ b ∈ s.users, b.jwtSecret = secret → b.deleted = true

theorem known_step {r : User} (h : Known r s) : Known r (step s e) := by
  obtain ⟨id, role, hrows⟩ := changes_step s e
  refine ⟨h.1.trans_le (secrets_step s e), fun b hb hsecret => ?_⟩
  rcases hrows b hb with ⟨hnew, -⟩ | ⟨a, ha, hold, hid, hrole, -⟩
  · have := h.1
    omega
  · exact hid ▸ hrole ▸ h.2 a ha (hold.trans hsecret)

theorem retired_step {secret : ℕ} (h : Retired secret s) : Retired secret (step s e) := by
  obtain ⟨id, role, hrows⟩ := changes_step s e
  refine ⟨h.1.trans_le (secrets_step s e), fun b hb hsecret => ?_⟩
  rcases hrows b hb with ⟨hnew, -⟩ | ⟨a, ha, hold, -, -, hdeleted⟩
  · have := h.1
    omega
  · exact hdeleted (h.2 a ha (hold.trans hsecret))

/-- Every record that exists anywhere is known. -/
def AllKnown (s : State) : Prop :=
  (∀ u ∈ s.users, Known u s) ∧ ∀ u ∈ s.read ++ s.tokens, Known u s

theorem allKnown_step (h : AllKnown s) : AllKnown (step s e) := by
  have husers : ∀ u ∈ (step s e).users, Known u (step s e) := by
    obtain ⟨id, role, hrows⟩ := changes_step s e
    intro u hu
    rcases hrows u hu with ⟨hnew, hlt, hid, hrole⟩ | ⟨a, ha, hold, hid, hrole, -⟩
    · refine ⟨hnew ▸ hlt, fun b hb hsecret => ?_⟩
      rcases hrows b hb with ⟨-, -, hid', hrole'⟩ | ⟨a, ha, hold, -⟩
      · exact ⟨hid'.trans hid.symm, hrole'.trans hrole.symm⟩
      · -- a row from before has an older secret
        have := (h.1 a ha).1
        omega
    · have hknown := known_step (e := e) (h.1 a ha)
      unfold Known at hknown ⊢
      rwa [hold, hid, hrole] at hknown
  refine ⟨husers, fun u hu => ?_⟩
  rcases signed_step hu with hold | hnew
  · exact known_step (h.2 u hold)
  · exact husers u hnew

theorem allKnown_run (es : List Event) : AllKnown (run step .empty es) :=
  run_inv (fun _ _ h _ => allKnown_step h)
    (show AllKnown .empty by simp [AllKnown, empty]) (along_true _ es)

theorem parseAndValidateToken_eq_some {t c : User} {current : Bool}
    (h : s.parseAndValidateToken t current = some c) :
    c = t ∧ t ∈ s.tokens ∧ ∃ u ∈ s.users, u.id = t.id ∧ u.deleted = false ∧
      s.getUserForAuth t.id = some u ∧ t.jwtSecret = u.jwtSecret := by
  unfold parseAndValidateToken at h
  split at h
  · cases h
  · rename_i user huser
    have hfound := List.find?_some huser
    simp only [Bool.and_eq_true, decide_eq_true_eq, Bool.not_eq_true'] at hfound
    split_ifs at h with hsigned hversion
    cases h
    exact ⟨rfl, hsigned.1, user, List.mem_of_find?_eq_some huser, hfound.1, hfound.2, huser,
      hsigned.2.1⟩

/-- A request that passed the middleware changes the role of the account or deletes it. -/
def ChangesAccount (s : State) (id : ℕ) (e : Event) : Prop :=
  ∃ claims ∈ s.admitted, id ≠ claims.id ∧
    ((∃ r, e = .update claims id (some r)) ∨ e = .delete claims id)

theorem retired_of_known {r : User} (h : Known r s) (hchange : ChangesAccount s r.id e) :
    Retired r.jwtSecret (step s e) := by
  obtain ⟨claims, hadmitted, hother, ⟨role, rfl⟩ | rfl⟩ := hchange
  · simp only [step, if_pos hadmitted, updateUserRole, if_neg hother]
    refine ⟨Nat.lt_succ_of_lt h.1, fun b hb hsecret => ?_⟩
    obtain ⟨a, ha, rfl⟩ := List.mem_map.mp hb
    split_ifs at hsecret ⊢ with hid
    · exact absurd hsecret.symm h.1.ne
    · simpa [(h.2 a ha hsecret).1] using hid
  · simp only [step, if_pos hadmitted, deleteUser, if_neg hother]
    refine ⟨h.1, fun b hb hsecret => ?_⟩
    obtain ⟨a, ha, rfl⟩ := List.mem_map.mp hb
    split_ifs at hsecret ⊢ with hid
    · rfl
    · exact absurd (h.2 a ha hsecret).1 hid

/-- An accepted token names an account that exists and carries the role it has, so a token from a
record read before the account was changed or deleted is not accepted after that. -/
theorem accepted_token_current (es : List Event) :
    (∀ t current claims, (run step .empty es).parseAndValidateToken t current = some claims →
      ∃ u ∈ (run step .empty es).users, (run step .empty es).getUserForAuth claims.id = some u ∧
        u.id = claims.id ∧ u.deleted = false ∧ u.role = claims.role) ∧
    ∀ t ∈ (run step .empty es).users, ∀ later e last current,
      ChangesAccount (run step .empty (es ++ later)) t.id e →
      (run step .empty (es ++ later ++ e :: last)).parseAndValidateToken t current = none := by
  constructor
  · intro t current claims haccept
    obtain ⟨rfl, htoken, u, hu, hid, hlive, hread, hsecret⟩ :=
      parseAndValidateToken_eq_some haccept
    have hknown := (allKnown_run es).2 _ (List.mem_append_right _ htoken)
    exact ⟨u, hu, hread, hid, hlive, (hknown.2 u hu hsecret.symm).2⟩
  · intro t ht later e last current hchange
    have hknown : Known t (run step .empty (es ++ later)) := by
      rw [run_append]
      exact run_inv (fun _ _ h _ => known_step h) ((allKnown_run es).1 t ht) (along_true _ later)
    have hretired : Retired t.jwtSecret (run step .empty (es ++ later ++ e :: last)) := by
      rw [run_append]
      exact run_inv (fun _ _ h _ => retired_step h) (retired_of_known hknown hchange)
        (along_true _ last)
    refine Option.eq_none_iff_forall_ne_some.mpr fun claims haccept => ?_
    obtain ⟨-, -, u, hu, -, hlive, -, hsecret⟩ := parseAndValidateToken_eq_some haccept
    rw [hretired.2 u hu hsecret.symm] at hlive
    cases hlive

open Rivals in
theorem accepted_token_alice :
    (∃ u ∈ (run step .empty registration).users,
      (run step .empty registration).getUserForAuth alice.id = some u ∧
        u.id = alice.id ∧ u.deleted = false ∧ u.role = alice.role) ∧
    (run step .empty (registration ++ bobs ++ [.delete bob 1])).parseAndValidateToken alice true =
      none :=
  ⟨(accepted_token_current registration).1 alice true alice (by decide),
    (accepted_token_current registration).2 alice (by decide) bobs (.delete bob 1) [] true
      ⟨bob, by decide, by decide, .inr rfl⟩⟩

end MumbleServer.Admin
