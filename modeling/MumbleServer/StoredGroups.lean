import MumbleServer.AclMeaning

/-! # Membership in stored groups

A group may be defined in any channel, by a stored row or, when there is none, by temporary
members.  `storedGroup` collects the definitions from a channel upward and then lets them add and
remove the user from the top down, each overriding what was said above it.  So the definition that
decides is the nearest one that mentions the user at all (`storedGroup_nearest`). -/

namespace MumbleServer.Acl

open List Fallible

/-! ### Definitions -/

/-- A list up to the first element without `p`, this one included. -/
def throughFirst {α : Type} (p : α → Bool) (l : List α) : List α :=
  l.takeWhile p ++ (l.dropWhile p).take 1

section definitions
variable (w : World) (name : String)

def World.definition (cid : ℕ) : Option ChannelGroup :=
  match w.groupRows cid name with
  | g :: _ => some g
  | [] =>
    if (w.temporaryMembers ⟨cid, name⟩).isSome then some ⟨0, 0, cid, "", true, true, [], []⟩
    else none

/-- The definitions that count in a channel, given the way up from it, nearest first: cut off before
the first one above the channel that is not inheritable and after the first that does not
inherit. -/
def World.inForce (channel : ℕ) (up : List ℕ) : List ChannelGroup :=
  throughFirst (fun g => g.inherit) ((up.filterMap (w.definition name)).takeWhile fun g =>
    decide (g.channelID = channel) || g.inheritable)

variable (id : UInt32) (u : Option Viewer) (g : ChannelGroup)

/-- The user is a temporary member: by its ID, unless that is 0, or with its session. -/
def World.isTemporary : Bool :=
  (w.temporaryMembers ⟨g.channelID, name⟩).any fun members =>
    (decide (id ≠ 0) && members.users.contains id) ||
      u.any fun v => decide (v.ref.generation ≠ 0) && members.sessions.contains v.ref

def World.adds : Bool :=
  (decide (id ≠ 0) && g.addUserIDs.contains id) || w.isTemporary name id u g

def ChannelGroup.removes : Bool := decide (id ≠ 0) && g.removeUserIDs.contains id

/-- The definition says something about the user. -/
def World.mentions : Bool := w.adds name id u g || g.removes id

/-- What it says; a removal wins. -/
def World.word : Option Bool :=
  if g.removes id then some false else if w.adds name id u g then some true else none

end definitions

/-! ### The loops -/

section loops
variable {w : World} {name : String} {id : UInt32} {u : Option Viewer}

theorem throughFirst_cons {α : Type} (p : α → Bool) (a : α) (l : List α) :
    throughFirst p (a :: l) = a :: if p a then throughFirst p l else [] := by
  unfold throughFirst
  cases h : p a <;> simp [h]

open World

theorem channelID_of_definition {cid : ℕ} {g : ChannelGroup} (h : w.definition name cid = some g) :
    g.channelID = cid := by
  unfold definition at h
  split at h
  · rename_i g' rest hrows
    obtain rfl := Option.some.inj h
    have hmem : g' ∈ w.groupRows cid name := hrows ▸ mem_cons_self
    rw [groupRows, mem_mergeSort, mem_filter] at hmem
    simp only [Bool.and_eq_true, decide_eq_true_eq] at hmem
    exact hmem.2.1.2
  · split_ifs at h
    rw [← Option.some.inj h]

theorem groupAt_on (cid : ℕ) :
    (groupAt name cid (w.groupRows cid name)).on w = .ok (w.definition name cid) := by
  unfold definition
  cases w.groupRows cid name <;> rfl

/-- The first loop collects the definitions that count. -/
theorem groupStack_on (hdb : w.dbError = none) (channel : ℕ) (up : List ℕ) :
    (groupStack name channel up).on w = .ok (w.inForce name channel up) := by
  induction up with
  | nil => rfl
  | cons cid rest ih =>
    rw [groupStack, on_bind_of_ok (on_query hdb _),
      on_bind_of_ok (groupAt_on cid), inForce, filterMap_cons]
    cases hg : w.definition name cid with
    | none => exact ih
    | some g =>
      obtain rfl := channelID_of_definition hg
      dsimp only
      by_cases hstop : g.channelID ≠ channel ∧ ¬g.inheritable
      · rw [if_pos hstop, takeWhile_cons_of_neg (by simpa using hstop)]
        rfl
      · rw [if_neg hstop, takeWhile_cons_of_pos (by simpa [or_iff_not_imp_left] using hstop),
          throughFirst_cons]
        cases hinherit : g.inherit with
        | false => rfl
        | true =>
          rw [if_neg (by simp), on_bind_of_ok ih]
          rfl

theorem groupStack_error {e : String} (hdb : w.dbError = some e) (channel cid : ℕ)
    (rest : List ℕ) : (groupStack name channel (cid :: rest)).on w = .error e := by
  rw [groupStack, on_bind, query, on_ask, hdb]
  rfl

theorem temporaryMatch_on (g : ChannelGroup) :
    (temporaryMatch ⟨g.channelID, name⟩ id u).on w = .ok (w.isTemporary name id u g) := by
  unfold temporaryMatch isTemporary look
  rw [on_ask]
  dsimp only
  cases w.temporaryMembers ⟨g.channelID, name⟩ <;> rfl

/-- The second loop lets every definition override what was said above it. -/
theorem groupMembers_on (stack : List ChannelGroup) (isMember : Bool) :
    (groupMembers name id u stack isMember).on w =
      .ok (lastDecision (w.word name id u) isMember stack) := by
  induction stack generalizing isMember with
  | nil => rfl
  | cons g below ih =>
    -- the temporary members are looked at only if the user is not stored
    have hread : ∃ temporary, (if decide (id ≠ 0) && g.addUserIDs.contains id then pure false
        else temporaryMatch ⟨g.channelID, name⟩ id u : Query Bool).on w = .ok temporary ∧
        ((decide (id ≠ 0) && g.addUserIDs.contains id) || temporary) = w.adds name id u g := by
      unfold adds
      cases decide (id ≠ 0) && g.addUserIDs.contains id with
      | true => exact ⟨false, rfl, rfl⟩
      | false => exact ⟨_, temporaryMatch_on g, rfl⟩
    obtain ⟨temporary, hon, hadds⟩ := hread
    have hword : (if id ≠ 0 ∧ g.removeUserIDs.contains id then false
        else isMember || (decide (id ≠ 0) && g.addUserIDs.contains id) || temporary) =
        (w.word name id u g).getD isMember := by
      have hremoves : (id ≠ 0 ∧ g.removeUserIDs.contains id) ↔ g.removes id = true := by
        simp [ChannelGroup.removes]
      rw [Bool.or_assoc, hadds, word]
      simp only [hremoves]
      cases g.removes id <;> cases w.adds name id u g <;> simp
    rw [groupMembers, on_bind_of_ok hon, ih, lastDecision_cons, hword]

/-- What the two loops make of the path to a channel. -/
theorem storedGroup_on {channel : ℕ} {p : List ℕ} (hp : IsPath w.channels channel p) :
    (storedGroup id name channel u).on w = w.dbError.elim
      (.ok (lastDecision (w.word name id u) false (w.inForce name channel p.reverse).reverse))
      .error := by
  have hchain : (look fun w => w.channels.ancestorChain channel).on w = .ok p.reverse := by
    rw [← ancestorChain_of_path hp]; rfl
  have hroot : p.reverse.getLast? = some rootChannelID := by
    rw [getLast?_reverse, hp.head]
  rw [storedGroup, on_bind_of_ok hchain, if_neg (not_not_intro hroot)]
  cases hdb : w.dbError with
  | some e =>
    obtain ⟨cid, rest, hup⟩ : ∃ cid rest, p.reverse = cid :: rest :=
      exists_cons_of_ne_nil fun h => by simp [h] at hroot
    rw [hup, on_bind, groupStack_error hdb]
    rfl
  | none =>
    rw [on_bind_of_ok (groupStack_on hdb channel _), groupMembers_on]
    rfl

theorem word_eq_some_true (g : ChannelGroup) : w.word name id u g = some true ↔
    w.adds name id u g = true ∧ g.removes id = false := by
  unfold word
  cases g.removes id <;> cases w.adds name id u g <;> simp

end loops

/-- **The nearest definition that mentions the user decides**: for every channel tree, stored
groups, temporary members, channel and user, the user is in the group exactly if, among the
definitions that count in the channel, the nearest one that mentions the user adds it and does not
remove it. -/
theorem storedGroup_nearest (tree : ChannelTree) (w : World) (hw : w.channels = tree.channels)
    (id : UInt32) (name : String) (channel : ℕ) (u : Option Viewer)
    (hchannel : ∃ n, w.channels.getChannel channel = some n) :
    ∃ p, IsPath w.channels channel p ∧
      ((storedGroup id name channel u).on w = .ok true ↔ w.dbError = none ∧
        ∃ nearer g farther, w.inForce name channel p.reverse = nearer ++ g :: farther ∧
          (w.adds name id u g = true ∧ g.removes id = false) ∧
          ∀ d ∈ nearer, w.mentions name id u d = false) := by
  obtain ⟨n, hn⟩ := hchannel
  obtain ⟨p, hpath⟩ := tree.path channel n (hw ▸ hn)
  have hp : IsPath w.channels channel p := hw ▸ hpath
  refine ⟨p, hp, ?_⟩
  rw [storedGroup_on hp]
  cases hdb : w.dbError with
  | some e => simp
  | none =>
    have hsilent : ∀ g, w.word name id u g = none ↔ w.mentions name id u g = false := by
      intro g
      unfold World.word World.mentions
      cases g.removes id <;> cases w.adds name id u g <;> simp
    simp only [Option.elim, lastDecision, reverse_reverse, Except.ok.injEq, Option.getD_eq_iff,
      findSome?_eq_some_iff, word_eq_some_true, hsilent, true_and, reduceCtorEq, and_false,
      or_false]

/-- The root takes the user out of the group, and the lobby has it as a temporary member. -/
def guestWorld : World where
  serverID := 1
  channels := lobbyTree.channels
  db := ⟨[], [⟨1, 1, 0, "guests", true, true, [], [7]⟩], []⟩
  dbError := none
  temporary := [(⟨1, "guests"⟩, ⟨[7], []⟩)]

theorem storedGroup_nearest_guest :
    (storedGroup 7 "guests" 1 none).on guestWorld = .ok true ∧
    ∃ p, IsPath guestWorld.channels 1 p ∧
      ((storedGroup 7 "guests" 1 none).on guestWorld = .ok true ↔ guestWorld.dbError = none ∧
        ∃ nearer g farther, guestWorld.inForce "guests" 1 p.reverse = nearer ++ g :: farther ∧
          (guestWorld.adds "guests" 7 none g = true ∧ g.removes 7 = false) ∧
          ∀ d ∈ nearer, guestWorld.mentions "guests" 7 none d = false) :=
  ⟨by decide +kernel, storedGroup_nearest lobbyTree guestWorld rfl 7 "guests" 1 none ⟨_, rfl⟩⟩

/-! ### The admin badge -/

section badge
variable (w : World) (userID : UInt32)

def World.resolveAPIAdmin : Bool :=
  decide (apiUserIDToDBID userID ≠ 0) && w.dbError.isNone &&
    (w.db.accounts.find? fun a => decide (a.id = apiUserIDToDBID userID)).any
      fun account => decide (account.role = .admin)

def World.userInStoredAdminGroup : Bool :=
  w.dbError.isNone &&
    match w.groupRows rootChannelID "admin" with
    | [] => false
    | g :: _ =>
      if g.addUserIDs.contains userID then true
      else if g.removeUserIDs.contains userID then false
      else false

def World.isAdminForDisplay : Bool :=
  if userID = 0 then false
  else if isAPIUserID userID then w.resolveAPIAdmin userID
  else w.userInStoredAdminGroup userID

/-- The admin group both adds and removes the user, or the user is an admin account with the ID 0. -/
def World.contested : Bool :=
  w.dbError.isNone &&
    if isAPIUserID userID then decide (apiUserIDToDBID userID = 0) &&
      (w.db.accounts.find? fun a => decide (a.id = 0)).any fun a => decide (a.role = .admin)
    else (w.groupRows rootChannelID "admin").head?.any fun g =>
      decide (userID ≠ 0) && g.addUserIDs.contains userID && g.removeUserIDs.contains userID

end badge

theorem storedGroup_root {w : World} {tree : ChannelTree} (hw : w.channels = tree.channels)
    (hnone : w.temporary = []) (id : UInt32) (u : Option Viewer) :
    (storedGroup id "admin" rootChannelID u).on w = .ok true ↔ w.dbError = none ∧
      ∃ g ∈ (w.groupRows rootChannelID "admin").head?, id ≠ 0 ∧ id ∈ g.addUserIDs ∧
        id ∉ g.removeUserIDs := by
  obtain ⟨n, hn⟩ := tree.root
  rw [storedGroup_on (.root (hw ▸ hn))]
  have htemporary : ∀ key, w.temporaryMembers key = none := by simp [World.temporaryMembers, hnone]
  have hdefinition : w.definition "admin" rootChannelID =
      (w.groupRows rootChannelID "admin").head? := by
    unfold World.definition
    cases w.groupRows rootChannelID "admin" <;> simp [htemporary]
  have hforce : w.inForce "admin" rootChannelID [rootChannelID] =
      (w.groupRows rootChannelID "admin").head?.toList := by
    unfold World.inForce
    rw [filterMap_cons, hdefinition]
    cases hrows : (w.groupRows rootChannelID "admin").head? with
    | none => rfl
    | some g =>
      have hg := channelID_of_definition (hdefinition.trans hrows)
      rw [filterMap_nil, takeWhile_cons_of_pos (by simp [hg]), throughFirst_cons]
      simp [throughFirst]
  cases w.dbError with
  | some e => simp
  | none =>
    rw [reverse_singleton, hforce]
    cases (w.groupRows rootChannelID "admin").head? with
    | none => simp [lastDecision]
    | some g =>
      have hmember : lastDecision (w.word "admin" id u) false [g] = true ↔
          w.word "admin" id u g = some true := by
        simp [lastDecision, Option.getD_eq_iff]
      simp [hmember, word_eq_some_true, World.adds, World.isTemporary, ChannelGroup.removes,
        htemporary]
      tauto

theorem apiAdmin_on (w : World) (id : UInt32) :
    (apiAdmin id).on w = .ok true ↔ w.dbError = none ∧
      (w.db.accounts.find? fun a => decide (a.id = apiUserIDToDBID id)).any
        (fun account => decide (account.role = .admin)) = true := by
  unfold apiAdmin query
  rw [on_ask]
  cases w.dbError with
  | some e => simp
  | none => cases h : w.db.accounts.find? (fun a => decide (a.id = apiUserIDToDBID id)) <;> simp [h]

/-- **The badge says what the evaluator says** exactly if the user is not contested: whatever the
database holds, for a user that is not external, and without temporary members. -/
theorem isAdminForDisplay_iff (fold : Char → Char) (tree : ChannelTree) (w : World)
    (hw : w.channels = tree.channels) (hnone : w.temporary = []) (u : Viewer)
    (hu : u.externalIdentity = false) :
    (w.isAdminForDisplay u.userID = true ↔
      (matchSelector fold (parseSelector "admin") u.userID rootChannelID rootChannelID
        (some u)).on w = .ok true) ↔ w.contested u.userID = false := by
  have hselector : (matchSelector fold (parseSelector "admin") u.userID rootChannelID rootChannelID
      (some u)).on w = (if isAPIUserID u.userID then apiAdmin u.userID
        else storedGroup u.userID "admin" rootChannelID (some u)).on w := by
    rw [show parseSelector "admin" = ⟨"admin", false, false, false, false⟩ from rfl]
    simp only [matchSelector, selectorHolds]
    simp only [String.reduceEq, Option.map_some, Option.any_some, hu]
    rw [if_neg (by simp), on_bind]
    simp
    cases on w _ <;> rfl
  rw [hselector]
  unfold World.isAdminForDisplay World.contested
  cases hapi : isAPIUserID u.userID with
  | true =>
    have hne : u.userID ≠ 0 := fun h => by rw [h] at hapi; exact absurd hapi (by decide)
    simp only [if_true, if_neg hne, apiAdmin_on, World.resolveAPIAdmin]
    by_cases hid : apiUserIDToDBID u.userID = 0
    · simp [hid]
    · simp [hid]
  | false =>
    simp only [Bool.false_eq_true, if_false, storedGroup_root hw hnone,
      World.userInStoredAdminGroup]
    cases w.groupRows rootChannelID "admin" with
    | nil => simp
    | cons g rest => by_cases hzero : u.userID = 0 <;> simp [hzero]

/-- The admin group has the user 7 in both of its lists. -/
def badgeWorld : World where
  serverID := 1
  channels := lobbyTree.channels
  db := ⟨[], [⟨1, 1, 0, "admin", true, true, [7], [7]⟩], []⟩
  dbError := none
  temporary := []

def badgeViewer : Viewer := ⟨⟨7, 0, false, "", false, false, 0, 0, [], []⟩, ⟨1, 1⟩⟩

theorem isAdminForDisplay_seven :
    (badgeWorld.isAdminForDisplay 7 = true ↔ (matchSelector id (parseSelector "admin") 7
      rootChannelID rootChannelID (some badgeViewer)).on badgeWorld = .ok true) ↔
    badgeWorld.contested 7 = false :=
  isAdminForDisplay_iff id lobbyTree badgeWorld rfl rfl badgeViewer rfl

theorem isAdminForDisplay_contested :
    badgeWorld.isAdminForDisplay 7 = true ∧ (matchSelector id (parseSelector "admin") 7
      rootChannelID rootChannelID (some badgeViewer)).on badgeWorld = .ok false := by
  decide +kernel

end MumbleServer.Acl
