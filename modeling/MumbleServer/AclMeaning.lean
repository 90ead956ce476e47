import Mathlib.Data.List.Induction
import Mathlib.Data.List.TakeWhile
import MumbleServer.Acl
import MumbleServer.LastDecision

/-! # What access control lists mean

The declarative meaning of the ACL rows on the path from the root to a channel, and the proof
that `evaluate` computes it.

A permission bit is decided by the last row that counts and grants or denies it, among the rows
at or below the nearest channel that does not inherit; if there is none, by the baseline.  Rows
count at the target if they apply there, and above it if they apply to subchannels.  Bits that
exist only at the root are decided by the rows of the root, when the root is the target.  The
target is hidden if, after some channel of its path, the last word on Traverse is a denial and
the last word on Write is not a grant; these two are tracked from the root on, whatever is
inherited.  A final Write brings the write set with it. -/

namespace MumbleServer.Acl

open List Fallible Bool BitVec Permission
variable {x : ℕ × ChannelACL}

/-! ### The meaning -/

/-- The decision of a row about a bit; a denial wins. -/
def decision (i : ℕ) (row : ChannelACL) : Option Bool :=
  if row.deny.getLsbD i then some false
  else if row.grant.getLsbD i then some true
  else none

/-- The last word of some rows about a bit, each with its channel. -/
def lastWord (i : ℕ) (d : Bool) (rows : List (ℕ × ChannelACL)) : Bool :=
  lastDecision (fun x => decision i x.2) d rows

/-- The row counts for permissions. -/
def counts (target : ℕ) (x : ℕ × ChannelACL) : Bool :=
  (decide (x.1 = target) && x.2.applyHere) || (decide (x.1 ≠ target) && x.2.applySubs)

/-- The row counts for the traversal of the path. -/
def tracked (target : ℕ) (x : ℕ × ChannelACL) : Bool :=
  (decide (x.1 ≠ target) && x.2.applySubs) || x.2.applyHere

/-- The channels from the target up to the nearest one that does not inherit. -/
def rulingUp (inherits : ℕ → Bool) : List ℕ → List ℕ
  | [] => []
  | c :: up => if inherits c then c :: rulingUp inherits up else [c]

/-- The part of a path that rules: from the nearest channel that does not inherit down. -/
def ruling (inherits : ℕ → Bool) (p : List ℕ) : List ℕ := (rulingUp inherits p.reverse).reverse

section meaning
variable (fold : Char → Char) (w : World) (id : UInt32) (target : ℕ) (u : Option Viewer)

def rowMatches (row : ChannelACL) : Bool :=
  match (entryMatches fold row id target u).on w with
  | .ok isMatch => isMatch
  | .error _ => false

def channelRows (c : ℕ) : List (ℕ × ChannelACL) :=
  ((w.aclRows c).filter (rowMatches fold w id target u)).map fun row => (c, row)

/-- The matching rows along a path, in the order in which they are met. -/
def metRows (p : List ℕ) : List (ℕ × ChannelACL) := p.flatMap (channelRows fold w id target u)

def World.inherits (w : World) (c : ℕ) : Bool :=
  match w.channels.getChannelWithMeta c with
  | some (_, inherit) => inherit
  | none => true

/-- The permissions everybody starts from. -/
def World.baseline (w : World) (id : UInt32) : Permission :=
  if isAPIUserID id && (w.db.accounts.find? (fun a => decide (a.id = apiUserIDToDBID id))).any
      (fun a => decide (a.role = .admin))
  then defaultPermissions ||| Permission.write else defaultPermissions

/-- After some channel of the path Traverse is denied and Write not granted. -/
def Hidden (p : List ℕ) : Prop :=
  ∃ q, q ≠ [] ∧ q <+: p ∧
    lastWord 1 ((w.baseline id).getLsbD 1)
      ((metRows fold w id target u q).filter (tracked target)) = false ∧
    lastWord 0 ((w.baseline id).getLsbD 0)
      ((metRows fold w id target u q).filter (counts target)) = false

/-- The bit as the rows decide it. -/
def decidedBit (p : List ℕ) (i : ℕ) : Bool :=
  let word := lastWord i ((w.baseline id).getLsbD i)
    ((metRows fold w id target u (ruling w.inherits p)).filter (counts target))
  if rootPermissions.getLsbD i then decide (target = rootChannelID) && word
  else Permission.all.getLsbD i && word

/-- The bit after a final Write has brought its permissions with it. -/
def finalBit (p : List ℕ) (i : ℕ) : Bool :=
  decidedBit fold w id target u p i ||
    (decidedBit fold w id target u p 0 &&
      (writePermissions.getLsbD i || (decide (target = rootChannelID) && rootPermissions.getLsbD i)))

end meaning

/-! ### Without database errors no row fails to match or not to match -/

variable {p : List ℕ}

section succeeds
variable {w : World} {fold : Char → Char} {id : UInt32} {target : ℕ} {u : Option Viewer} {α : Type}

theorem succeeds_look (f : World → α) : (look f).Succeeds w := ⟨f w, rfl⟩

theorem on_query (hdb : w.dbError = none) (f : World → α) : (query f).on w = .ok (f w) := by
  rw [query, on_ask, hdb]

theorem succeeds_query (hdb : w.dbError = none) (f : World → α) : (query f).Succeeds w :=
  ⟨f w, on_query hdb f⟩

variable (name : String)

theorem matchSub_succeeds (context : ℕ) (auth : Option Authorization) :
    (matchSub name target context auth).Succeeds w := by
  cases auth with
  | none => exact succeeds_pure w false
  | some a =>
    refine (succeeds_look _).bind fun up _ => ?_
    dsimp only
    split
    · exact succeeds_pure w false
    · refine (succeeds_pure w false).ite ?_
      refine (succeeds_look _).bind fun home _ => ?_
      exact (succeeds_pure w _).ite (succeeds_pure w false)

theorem groupAt_succeeds (cid : ℕ) (rows : List ChannelGroup) :
    (groupAt name cid rows).Succeeds w := by
  cases rows with
  | nil => exact (succeeds_look _).bind fun temporary _ => succeeds_pure w _
  | cons g _ => exact succeeds_pure w (some g)

theorem groupStack_succeeds (hdb : w.dbError = none) (name : String) (context : ℕ)
    (chain : List ℕ) : (groupStack name context chain).Succeeds w := by
  induction chain with
  | nil => exact succeeds_pure w []
  | cons cid rest ih =>
    refine (succeeds_query hdb _).bind fun rows _ => (groupAt_succeeds name cid rows).bind ?_
    intro g _
    cases g with
    | none => exact ih
    | some g =>
      apply (succeeds_pure w []).ite
      apply (succeeds_pure w [g]).ite
      exact ih.bind fun above _ => succeeds_pure w (g :: above)

theorem groupMembers_succeeds (stack : List ChannelGroup) (isMember : Bool) :
    (groupMembers name id u stack isMember).Succeeds w := by
  induction stack generalizing isMember with
  | nil => exact succeeds_pure w isMember
  | cons g below ih =>
    refine Fallible.Succeeds.bind ?_ fun temporary _ => ih _
    exact (succeeds_pure w false).ite (succeeds_look _)

section
variable (hdb : w.dbError = none)
include hdb

theorem storedGroup_succeeds (name : String) {context : ℕ} (hp : IsPath w.channels context p) :
    (storedGroup id name context u).Succeeds w := by
  refine (succeeds_look _).bind fun chain hchain => ?_
  obtain rfl : w.channels.ancestorChain context = chain := by simpa [look] using hchain
  have hroot : (w.channels.ancestorChain context).getLast? = some rootChannelID := by
    rw [ancestorChain_of_path hp, getLast?_reverse, hp.head]
  rw [if_neg (not_not_intro hroot)]
  exact (groupStack_succeeds hdb name context _).bind fun stack _ => groupMembers_succeeds name _ _

theorem selectorHolds_succeeds (s : Selector) {context : ℕ} (hp : IsPath w.channels context p) :
    (selectorHolds fold s id target context u).Succeeds w := by
  have hpure : ∀ b : Bool, (pure b : Query Bool).Succeeds w := succeeds_pure w
  unfold selectorHolds
  apply (hpure _).ite
  apply (hpure _).ite
  apply (hpure _).ite
  apply (hpure _).ite
  apply (hpure _).ite
  apply (hpure _).ite
  apply (hpure _).ite
  apply (hpure _).ite
  -- only `sub`, `admin` and stored groups look at the world
  apply (matchSub_succeeds _ _ _).ite
  apply (hpure _).ite
  apply (succeeds_query hdb _).ite
  exact storedGroup_succeeds hdb _ hp

theorem matchSelector_succeeds (s : Selector) {definition : ℕ}
    {p q : List ℕ} (hp : IsPath w.channels target p) (hq : IsPath w.channels definition q) :
    (matchSelector fold s id target definition u).Succeeds w := by
  have hcontext : ∃ r, IsPath w.channels (if s.here then definition else target) r := by
    cases s.here with
    | true => exact ⟨q, hq⟩
    | false => exact ⟨p, hp⟩
  obtain ⟨r, hr⟩ := hcontext
  apply (succeeds_pure w false).ite
  exact (selectorHolds_succeeds hdb s hr).bind fun isMatch _ => succeeds_pure w _

theorem entryMatches_succeeds (row : ChannelACL) {p q : List ℕ}
    (hp : IsPath w.channels target p) (hq : IsPath w.channels row.channelID q) :
    (entryMatches fold row id target u).Succeeds w := by
  unfold entryMatches
  cases row.userID with
  | some uid => exact succeeds_pure w _
  | none => exact matchSelector_succeeds hdb _ hp hq

end

end succeeds

/-! ### The loops as folds -/

section folds
variable (fold : Char → Char) (w : World) (id : UInt32) (target : ℕ) (u : Option Viewer)

/-- What the visit of a channel makes of the tally. -/
def visit (t : Tally) (c : ℕ) : Tally :=
  (channelRows fold w id target u c).foldl (fun t x => t.apply target x.1 x.2)
    (if w.inherits c then t else { t with granted := w.baseline id })

/-- Neither Traverse nor Write. -/
def Tally.Blind (t : Tally) : Prop := t.traverse = false ∧ t.write = false

instance (t : Tally) : Decidable t.Blind := inferInstanceAs (Decidable (_ ∧ _))

/-- The visits along a path, given up at the first channel that cannot be passed. -/
def descend : List ℕ → Tally → Option Tally
  | [], t => some t
  | c :: rest, t =>
    if (visit fold w id target u t c).Blind then none
    else descend rest (visit fold w id target u t c)

variable {fold w id target u}

theorem visitRows_on (c : ℕ) {rows : List ChannelACL}
    (hrows : ∀ row ∈ rows, (entryMatches fold row id target u).Succeeds w) (t : Tally) :
    (visitRows fold id target c u rows t).on w = .ok
      (((rows.filter (rowMatches fold w id target u)).map fun row => (c, row)).foldl
        (fun t x => t.apply target x.1 x.2) t) := by
  induction rows generalizing t with
  | nil => rfl
  | cons row rows ih =>
    obtain ⟨isMatch, hmatch⟩ := hrows row (by simp)
    have hrow : rowMatches fold w id target u row = isMatch := by rw [rowMatches, hmatch]
    rw [visitRows, on_bind_of_ok hmatch, ih fun r hr => hrows r (by simp [hr])]
    cases isMatch with
    | true => rw [filter_cons_of_pos hrow]; rfl
    | false => rw [filter_cons_of_neg (by simp [hrow])]; rfl

theorem aclRows_channelID {c : ℕ} {row : ChannelACL} (h : row ∈ w.aclRows c) :
    row.channelID = c := by
  rw [World.aclRows, mem_mergeSort, mem_filter] at h
  simp only [and_eq_true, decide_eq_true_eq] at h
  exact h.2.2

theorem visitChannels_on (hdb : w.dbError = none) (hp : IsPath w.channels target p) {path : List ℕ}
    (hpath : ∀ c ∈ path, ∃ q, IsPath w.channels c q) (t : Tally) :
    (visitChannels fold (w.baseline id) id target u path t).on w =
      .ok (descend fold w id target u path t) := by
  induction path generalizing t with
  | nil => rfl
  | cons c rest ih =>
    obtain ⟨q, hq⟩ := hpath c (by simp)
    obtain ⟨n, hn⟩ := hq.getChannel
    have hmeta : w.channels.getChannelWithMeta c = some (n, n.inheritACL) := by
      rw [Channels.getChannelWithMeta, hn]; rfl
    have hinherits : w.inherits c = n.inheritACL := by rw [World.inherits, hmeta]
    have hlook : (look fun w => w.channels.getChannelWithMeta c).on w =
        .ok (some (n, n.inheritACL)) := by
      rw [← hmeta]; rfl
    have hmatch : ∀ row ∈ w.aclRows c, (entryMatches fold row id target u).Succeeds w :=
      fun row hrow => entryMatches_succeeds hdb row hp (aclRows_channelID hrow ▸ hq)
    rw [visitChannels, on_bind_of_ok hlook]
    rw [on_bind_of_ok (on_query hdb _),
      on_bind_of_ok (visitRows_on c hmatch _), ← hinherits]
    change Fallible.on w (if ¬ (visit fold w id target u t c).traverse ∧
      ¬ (visit fold w id target u t c).write then pure none else _) = _
    rw [descend]
    by_cases hblind : (visit fold w id target u t c).Blind
    · rw [if_pos hblind, if_pos (by simpa [Tally.Blind] using hblind)]
      rfl
    · rw [if_neg hblind, if_neg (by simpa [Tally.Blind] using hblind)]
      exact ih (fun d hd => hpath d (by simp [hd])) _

/-- The descent is given up if and only if it meets a channel that cannot be passed. -/
theorem descend_eq_none_iff (path : List ℕ) (t : Tally) :
    descend fold w id target u path t = none ↔
      ∃ q, q ≠ [] ∧ q <+: path ∧ (q.foldl (visit fold w id target u) t).Blind := by
  induction path generalizing t with
  | nil =>
    constructor
    · intro h
      cases h
    · rintro ⟨q, hq, hpre, -⟩
      exact absurd (prefix_nil.mp hpre) hq
  | cons c rest ih =>
    rw [descend]
    by_cases hblind : (visit fold w id target u t c).Blind
    · rw [if_pos hblind]
      exact ⟨fun _ => ⟨[c], by simp, by simp, hblind⟩, fun _ => rfl⟩
    · rw [if_neg hblind, ih]
      constructor
      · rintro ⟨q, -, hpre, hq⟩
        exact ⟨c :: q, by simp, by simpa using hpre, hq⟩
      · rintro ⟨q, hne, hpre, hq⟩
        cases q with
        | nil => exact absurd rfl hne
        | cons d q =>
          obtain ⟨rfl, hrest⟩ := cons_prefix_cons.mp hpre
          refine ⟨q, ?_, hrest, hq⟩
          rintro rfl
          exact hblind hq

theorem descend_eq_some {path : List ℕ} {t t' : Tally}
    (h : descend fold w id target u path t = some t') :
    t' = path.foldl (visit fold w id target u) t := by
  induction path generalizing t with
  | nil => exact (Option.some.inj h).symm
  | cons c rest ih =>
    rw [descend] at h
    split at h
    · cases h
    · exact ih h

end folds

/-! ### Bits -/

variable (m : Permission)

theorem has_twoPow {k : ℕ} (hk : k < 32) : has m (twoPow 32 k) = m.getLsbD k := by
  unfold has
  rw [and_twoPow]
  cases h : m.getLsbD k with
  | false => simp
  | true =>
    rw [if_pos rfl, bne_iff_ne]
    intro hzero
    have hbit := congrArg (fun x => getLsbD x k) hzero
    simp [hk] at hbit

theorem has_write : has m write = m.getLsbD 0 :=
  has_twoPow m (show 0 < 32 by decide)

theorem has_traverse : has m traverse = m.getLsbD 1 :=
  has_twoPow m (show 1 < 32 by decide)

/-- The rows of channel `c` can set the bit for the target. -/
def Settable (target c i : ℕ) : Prop :=
  (Permission.all.getLsbD i = true ∧ rootPermissions.getLsbD i = false) ∨
    (rootPermissions.getLsbD i = true ∧ c = rootChannelID ∧ target = rootChannelID)

theorem override_eq (isCounted deny grant old : Bool) :
    (if isCounted && deny then false else if isCounted && grant then true else old) =
      if isCounted then
        (if deny then some false else if grant then some true else none).getD old
      else old := by
  cases isCounted <;> cases deny <;> cases grant <;> rfl

theorem apply_traverse (target : ℕ) (t : Tally) (x : ℕ × ChannelACL) :
    (t.apply target x.1 x.2).traverse =
      if tracked target x then (decision 1 x.2).getD t.traverse else t.traverse := by
  simp only [Tally.apply, has_traverse, decision, tracked]
  exact override_eq _ _ _ _

theorem apply_write (target : ℕ) (t : Tally) (x : ℕ × ChannelACL) :
    (t.apply target x.1 x.2).write =
      if counts target x then (decision 0 x.2).getD t.write else t.write := by
  simp only [Tally.apply, has_write, decision, counts]
  exact override_eq _ _ _ _

/-- What a row at the root grants there, before anything else. -/
def Tally.atRoot (target c : ℕ) (row : ChannelACL) (t : Tally) : Permission :=
  if decide (c = rootChannelID) && (decide (c = target) && row.applyHere)
  then t.granted ||| (row.grant &&& rootPermissions) else t.granted

theorem apply_granted_eq (target : ℕ) (t : Tally) (x : ℕ × ChannelACL) :
    (t.apply target x.1 x.2).granted =
      if counts target x then
        (t.atRoot target x.1 x.2 ||| (x.2.grant &&& (Permission.all &&& ~~~ rootPermissions))) &&&
          ~~~ x.2.deny
      else t.atRoot target x.1 x.2 := rfl

theorem atRoot_of_not_root {target : ℕ}
    (hx : ¬ (x.1 = rootChannelID ∧ counts target x = true ∧ x.1 = target)) (t : Tally) :
    t.atRoot target x.1 x.2 = t.granted := by
  unfold Tally.atRoot
  refine if_neg fun h => hx ?_
  simp only [and_eq_true, decide_eq_true_eq] at h
  exact ⟨h.1, by simp [counts, h.2], h.2.1⟩

theorem atRoot_at_root (hroot : x.1 = rootChannelID)
    (hx : counts rootChannelID x = true) (t : Tally) :
    t.atRoot rootChannelID x.1 x.2 = t.granted ||| (x.2.grant &&& rootPermissions) := by
  unfold Tally.atRoot
  have hhere : x.2.applyHere = true := by simpa [counts, hroot] using hx
  simp [hroot, hhere]

theorem getLsbD_sdiff (m n : Permission) (i : ℕ) :
    (m &&& ~~~ n).getLsbD i = (m.getLsbD i && !n.getLsbD i) := by
  rw [getLsbD_and, getLsbD_not]
  by_cases hi : i < 32
  · rw [decide_eq_true hi, Bool.true_and]
  · rw [getLsbD_of_ge m i (by omega), Bool.false_and, Bool.false_and]

theorem apply_granted {target i : ℕ} (t : Tally) (x : ℕ × ChannelACL) (h : Settable target x.1 i) :
    (t.apply target x.1 x.2).granted.getLsbD i =
      if counts target x then (decision i x.2).getD (t.granted.getLsbD i)
      else t.granted.getLsbD i := by
  rw [apply_granted_eq]
  by_cases hx : counts target x = true
  · rw [if_pos hx, if_pos hx, getLsbD_sdiff, getLsbD_or, getLsbD_and, getLsbD_sdiff]
    rcases h with ⟨hall, hnot⟩ | ⟨hbit, hc, rfl⟩
    · have hroot : (t.atRoot target x.1 x.2).getLsbD i = t.granted.getLsbD i := by
        unfold Tally.atRoot
        split
        · rw [getLsbD_or, getLsbD_and, hnot, Bool.and_false, Bool.or_false]
        · rfl
      rw [hroot, hall, hnot]
      unfold decision
      cases x.2.deny.getLsbD i <;> cases x.2.grant.getLsbD i <;> cases t.granted.getLsbD i <;> rfl
    · rw [atRoot_at_root hc hx, getLsbD_or, getLsbD_and, hbit]
      unfold decision
      cases x.2.deny.getLsbD i <;> cases x.2.grant.getLsbD i <;> cases t.granted.getLsbD i <;> simp
  · rw [if_neg hx, if_neg hx, atRoot_of_not_root fun h => hx h.2.1]

variable {t : Tally}

theorem apply_granted_of_not {target i : ℕ} (h : ¬ Settable target x.1 i)
    (ht : t.granted.getLsbD i = false) : (t.apply target x.1 x.2).granted.getLsbD i = false := by
  have hroot : (t.atRoot target x.1 x.2).getLsbD i = false := by
    unfold Tally.atRoot
    split
    case isTrue hself =>
        simp only [and_eq_true, decide_eq_true_eq] at hself
        have hnot : rootPermissions.getLsbD i = false := by
          rw [← not_eq_true]
          exact fun hbit => h (.inr ⟨hbit, hself.1, hself.2.1 ▸ hself.1⟩)
        rw [getLsbD_or, getLsbD_and, ht, hnot, Bool.and_false, Bool.or_false]
    case isFalse => exact ht
  have hall : (Permission.all &&& ~~~ rootPermissions).getLsbD i = false := by
    rw [getLsbD_sdiff, ← not_eq_true]
    intro hbit
    simp only [and_eq_true, not_eq_true'] at hbit
    exact h (.inl hbit)
  rw [apply_granted_eq]
  split
  · rw [getLsbD_sdiff, getLsbD_or, getLsbD_and, hroot, hall]
    simp
  · exact hroot

/-! ### The tally after a path -/

variable {i : ℕ}

section tally
variable {fold : Char → Char} {w : World} {id : UInt32} {target : ℕ} {u : Option Viewer}

theorem fst_of_mem_channelRows {c : ℕ} {x : ℕ × ChannelACL}
    (h : x ∈ channelRows fold w id target u c) : x.1 = c := by
  obtain ⟨row, -, rfl⟩ := mem_map.mp h
  rfl

theorem metRows_append (q r : List ℕ) : metRows fold w id target u (q ++ r) =
    metRows fold w id target u q ++ metRows fold w id target u r :=
  flatMap_append

theorem metRows_singleton (c : ℕ) :
    metRows fold w id target u [c] = channelRows fold w id target u c :=
  flatMap_singleton _ _

/-- A part of the tally that is not reset holds, after a path, the last word of its rows. -/
theorem foldl_visit_view {view : Tally → Bool} {counted : ℕ × ChannelACL → Bool}
    (happly : ∀ t x, view (t.apply target x.1 x.2) =
      if counted x then (decision i x.2).getD (view t) else view t)
    (hreset : ∀ t m, view { t with granted := m } = view t) (q : List ℕ) (t : Tally) :
    view (q.foldl (visit fold w id target u) t) =
      lastWord i (view t) ((metRows fold w id target u q).filter counted) := by
  induction q using List.reverseRecOn with
  | nil => rfl
  | append_singleton q c ih =>
    have hstart : ∀ s, view (if w.inherits c then s else { s with granted := w.baseline id }) =
        view s := by
      intro s
      split
      · rfl
      · exact hreset s _
    rw [foldl_concat, metRows_append, metRows_singleton, filter_append, lastWord,
      lastDecision_append]
    rw [lastWord] at ih
    rw [← ih, ← hstart (q.foldl (visit fold w id target u) t)]
    exact foldl_eq_lastDecision view (fun s x _ => happly s x) _

theorem ruling_concat (inherits : ℕ → Bool) (q : List ℕ) (c : ℕ) :
    ruling inherits (q ++ [c]) = if inherits c then ruling inherits q ++ [c] else [c] := by
  unfold ruling
  rw [reverse_concat, rulingUp]
  split
  · rw [reverse_cons]
  · rfl

theorem visit_granted {i c : ℕ} (h : Settable target c i) (t : Tally) :
    (visit fold w id target u t c).granted.getLsbD i =
      lastWord i (if w.inherits c then t.granted.getLsbD i else (w.baseline id).getLsbD i)
        ((channelRows fold w id target u c).filter (counts target)) := by
  have hstart : (if w.inherits c then t else { t with granted := w.baseline id }).granted.getLsbD i =
      if w.inherits c then t.granted.getLsbD i else (w.baseline id).getLsbD i := by split <;> rfl
  rw [← hstart]
  refine foldl_eq_lastDecision (fun t : Tally => t.granted.getLsbD i) (fun s x hx => ?_) _
  exact apply_granted s x ((fst_of_mem_channelRows hx).symm ▸ h)

/-- A granted bit after a path: the last word of the part that rules. -/
theorem foldl_visit_granted {q : List ℕ} (h : ∀ c ∈ q, Settable target c i)
    (ht : t.granted = w.baseline id) :
    (q.foldl (visit fold w id target u) t).granted.getLsbD i =
      lastWord i ((w.baseline id).getLsbD i)
        ((metRows fold w id target u (ruling w.inherits q)).filter (counts target)) := by
  induction q using List.reverseRecOn with
  | nil => rw [← ht]; rfl
  | append_singleton q c ih =>
    have hq := ih fun d hd => h d (by simp [hd])
    rw [foldl_concat, visit_granted (h c (by simp)), hq, ruling_concat]
    split
    · rw [metRows_append, metRows_singleton, filter_append]
      exact (lastDecision_append _ _ _ _).symm
    · rw [metRows_singleton]

theorem foldl_visit_granted_of_not {q : List ℕ} (h : ∀ c ∈ q, ¬ Settable target c i)
    (hbase : (w.baseline id).getLsbD i = false) (ht : t.granted.getLsbD i = false) :
    (q.foldl (visit fold w id target u) t).granted.getLsbD i = false := by
  induction q generalizing t with
  | nil => exact ht
  | cons c q ih =>
    refine ih (fun d hd => h d (by simp [hd])) ?_
    unfold visit
    refine List.foldlRecOn (motive := fun s : Tally => s.granted.getLsbD i = false) _ _ ?_ ?_
    · split
      · exact ht
      · exact hbase
    · intro s hs x hx
      exact apply_granted_of_not ((fst_of_mem_channelRows hx).symm ▸ h c (by simp)) hs

end tally

/-! ### The evaluator computes the meaning -/

section evaluator
variable {fold : Char → Char} {w : World} {id : UInt32} {target : ℕ} {u : Option Viewer}
  {p : List ℕ}

/-- The tally `evaluate` starts from. -/
def World.start (w : World) (id : UInt32) : Tally :=
  ⟨w.baseline id, true, has (w.baseline id) Permission.write⟩

theorem baseline_on (hdb : w.dbError = none) : (baseline id).on w = .ok (w.baseline id) := by
  unfold baseline World.baseline
  cases isAPIUserID id with
  | false => rfl
  | true =>
    rw [if_pos rfl, apiAdmin, on_bind_of_ok (on_query hdb _), on_pure]
    cases w.db.accounts.find? (fun a => decide (a.id = apiUserIDToDBID id)) with
    | none => rfl
    | some a => rfl

theorem evaluate_on (hdb : w.dbError = none) (hp : IsPath w.channels target p) :
    (evaluate fold id target u).on w = .ok
      (match descend fold w id target u p (w.start id) with
      | none => 0
      | some t => finish target t) := by
  have hchain : (look fun w => w.channels.ancestorChain target).on w = .ok p.reverse := by
    rw [← ancestorChain_of_path hp]; rfl
  have hroot : p.reverse.getLast? = some rootChannelID := by
    rw [getLast?_reverse, hp.head]
  have hpath : ∀ c ∈ p, ∃ q, IsPath w.channels c q := by
    intro c hc
    obtain ⟨q, hq, -⟩ := hp.of_mem hc
    exact ⟨q, hq⟩
  rw [evaluate, on_bind_of_ok hchain, if_neg (not_not_intro hroot),
    on_bind_of_ok (baseline_on hdb), reverse_reverse,
    on_bind_of_ok (visitChannels_on hdb hp hpath _)]
  change Fallible.on w (match descend fold w id target u p (w.start id) with
    | none => pure 0
    | some t => pure (finish target t)) = _
  cases descend fold w id target u p (w.start id) with
  | none => rfl
  | some t => rfl

theorem baseline_bit_traverse (w : World) (id : UInt32) : (w.baseline id).getLsbD 1 = true := by
  unfold World.baseline
  split <;> decide

theorem baseline_bit_of_not
    (h : ¬ (all.getLsbD i = true ∧ rootPermissions.getLsbD i = false)) :
    (w.baseline id).getLsbD i = false := by
  have hsub : w.baseline id &&& (Permission.all &&& ~~~ rootPermissions) = w.baseline id := by
    unfold World.baseline
    split <;> decide
  rw [← hsub, getLsbD_and, getLsbD_sdiff, ← not_eq_true]
  simpa using fun _ => by simpa using h

theorem descend_eq_none_iff_hidden :
    descend fold w id target u p (w.start id) = none ↔ Hidden fold w id target u p := by
  rw [descend_eq_none_iff]
  have hblind : ∀ q, (q.foldl (visit fold w id target u) (w.start id)).Blind ↔
      lastWord 1 ((w.baseline id).getLsbD 1)
        ((metRows fold w id target u q).filter (tracked target)) = false ∧
      lastWord 0 ((w.baseline id).getLsbD 0)
        ((metRows fold w id target u q).filter (counts target)) = false := by
    intro q
    rw [Tally.Blind, foldl_visit_view (apply_traverse target) (fun _ _ => rfl),
      foldl_visit_view (apply_write target) (fun _ _ => rfl), baseline_bit_traverse, ← has_write]
    rfl
  simp only [hblind, Hidden]

theorem granted_eq_decidedBit (hp : IsPath w.channels target p) (i : ℕ) :
    (p.foldl (visit fold w id target u) (w.start id)).granted.getLsbD i =
      decidedBit fold w id target u p i := by
  -- either every row of the path can set the bit or none can
  have hset : (∀ c ∈ p, Settable target c i) →
      (p.foldl (visit fold w id target u) (w.start id)).granted.getLsbD i =
        lastWord i ((w.baseline id).getLsbD i)
          ((metRows fold w id target u (ruling w.inherits p)).filter (counts target)) :=
    fun h => foldl_visit_granted h rfl
  have hunset : (∀ c, ¬ Settable target c i) →
      (p.foldl (visit fold w id target u) (w.start id)).granted.getLsbD i = false := by
    intro h
    have hbase : (w.baseline id).getLsbD i = false := baseline_bit_of_not fun hi => h 0 (.inl hi)
    exact foldl_visit_granted_of_not (fun c _ => h c) hbase hbase
  unfold decidedBit
  cases hbit : rootPermissions.getLsbD i with
  | true =>
    rw [if_pos rfl]
    by_cases htarget : target = rootChannelID
    · subst htarget
      rw [decide_eq_true rfl, Bool.true_and]
      apply hset
      intro c hc
      rw [hp.of_root, mem_singleton] at hc
      exact .inr ⟨hbit, hc, rfl⟩
    · rw [decide_eq_false htarget, Bool.false_and]
      apply hunset
      rintro c (⟨-, hnot⟩ | ⟨-, -, hroot⟩)
      · rw [hbit] at hnot
        cases hnot
      · exact htarget hroot
  | false =>
    rw [if_neg (by simp)]
    cases hall : all.getLsbD i with
    | true =>
      rw [Bool.true_and]
      exact hset fun c _ => .inl ⟨hall, hbit⟩
    | false =>
      rw [Bool.false_and]
      apply hunset
      rintro c (⟨h, -⟩ | ⟨h, -⟩)
      · rw [hall] at h
        cases h
      · rw [hbit] at h
        cases h

theorem finish_bit (t : Tally) (i : ℕ) : (finish target t).getLsbD i =
    (all.getLsbD i && (t.granted.getLsbD i || (t.granted.getLsbD 0 &&
      (writePermissions.getLsbD i ||
        (decide (target = rootChannelID) && rootPermissions.getLsbD i))))) := by
  unfold finish
  rw [getLsbD_and, has_write, Bool.and_comm]
  congr 1
  cases t.granted.getLsbD 0 with
  | false => simp
  | true =>
    rw [if_pos rfl]
    by_cases htarget : target = rootChannelID
    · simp [htarget, Bool.or_assoc]
    · simp [htarget]

theorem all_of_finalBit (h : finalBit fold w id target u p i = true) :
    Permission.all.getLsbD i = true := by
  have hwrite : writePermissions &&& Permission.all = writePermissions := by decide
  have hroot : rootPermissions &&& Permission.all = rootPermissions := by decide
  rw [finalBit, decidedBit, ← hwrite, ← hroot] at h
  simp only [getLsbD_and] at h
  cases hall : all.getLsbD i with
  | true => rfl
  | false => simp [hall] at h

theorem finalBit_of_speak_whisper
    (hi : (speak ||| whisper).getLsbD i = true) :
    finalBit fold w id target u p i = decidedBit fold w id target u p i := by
  have hwrite : writePermissions &&& ~~~ (speak ||| whisper) =
      writePermissions := by decide
  have hroot : rootPermissions &&& ~~~ (speak ||| whisper) =
      rootPermissions := by decide
  have hnotWrite : writePermissions.getLsbD i = false := by
    rw [← hwrite, getLsbD_sdiff, hi, Bool.not_true, Bool.and_false]
  have hnotRoot : rootPermissions.getLsbD i = false := by
    rw [← hroot, getLsbD_sdiff, hi, Bool.not_true, Bool.and_false]
  rw [finalBit, hnotWrite, hnotRoot, Bool.and_false, Bool.or_false, Bool.and_false, Bool.or_false]

end evaluator

/-- **The evaluator meets the meaning of the lists.**  In every channel tree, for every set of
rows and groups, every subject and every channel, and without database errors, `evaluate`
returns nothing if the channel is hidden and otherwise the mask of the final bits along the path
to the channel.  Whatever Write adds, Speak and Whisper are as the rows decide them. -/
theorem evaluate_meets_meaning (fold : Char → Char) (tree : ChannelTree) (w : World)
    (hw : w.channels = tree.channels) (hdb : w.dbError = none) (id : UInt32) (target : ℕ)
    (htarget : ∃ n, w.channels.getChannel target = some n) (u : Option Viewer) :
    ∃ p perm, IsPath w.channels target p ∧ (evaluate fold id target u).on w = .ok perm ∧
      (Hidden fold w id target u p → perm = 0) ∧
      (¬ Hidden fold w id target u p →
        (∀ i, perm.getLsbD i = finalBit fold w id target u p i) ∧
        ∀ i, (Permission.speak ||| Permission.whisper).getLsbD i = true →
          perm.getLsbD i = decidedBit fold w id target u p i) := by
  obtain ⟨n, hn⟩ := htarget
  obtain ⟨p, hpath⟩ := tree.path target n (hw ▸ hn)
  have hp : IsPath w.channels target p := hw ▸ hpath
  refine ⟨p, _, hp, evaluate_on hdb hp, ?_, ?_⟩
  · intro hhidden
    rw [descend_eq_none_iff_hidden.mpr hhidden]
  · intro hseen
    have hbits : ∀ i, getLsbD (match descend fold w id target u p (w.start id) with
        | none => 0
        | some t => finish target t) i = finalBit fold w id target u p i := by
      intro i
      cases hd : descend fold w id target u p (w.start id) with
      | none => exact absurd (descend_eq_none_iff_hidden.mp hd) hseen
      | some t =>
        obtain rfl := descend_eq_some hd
        show (finish target _).getLsbD i = _
        rw [finish_bit, granted_eq_decidedBit hp, granted_eq_decidedBit hp]
        show (Permission.all.getLsbD i && finalBit fold w id target u p i) = _
        cases hfinal : finalBit fold w id target u p i with
        | false => rw [Bool.and_false]
        | true => rw [all_of_finalBit hfinal, Bool.and_true]
    exact ⟨hbits, fun i hi => (hbits i).trans (finalBit_of_speak_whisper hi)⟩

def lobbyTree : ChannelTree :=
  (ChannelTree.rootOnly ⟨0, 0, "Root", "", 0, 0, false, [], true⟩ rfl).add
    ⟨1, 0, "Lobby", "", 0, 0, false, [], true⟩ (by decide) ⟨_, rfl⟩

/-- A row of the root that grants Write to everybody below it. -/
def lobbyWorld : World where
  serverID := 1
  channels := lobbyTree.channels
  db := ⟨[⟨1, 1, 0, 0, false, true, none, "all", "", false, false, Permission.write, 0⟩], [], []⟩
  dbError := none
  temporary := []

/-- The hypotheses hold in a world with two channels and a row. -/
theorem evaluate_meets_meaning_lobby :
    ∃ p perm, IsPath lobbyWorld.channels 1 p ∧ (evaluate id 7 1 none).on lobbyWorld = .ok perm ∧
      (Hidden id lobbyWorld 7 1 none p → perm = 0) ∧
      (¬ Hidden id lobbyWorld 7 1 none p →
        (∀ i, perm.getLsbD i = finalBit id lobbyWorld 7 1 none p i) ∧
        ∀ i, (Permission.speak ||| Permission.whisper).getLsbD i = true →
          perm.getLsbD i = decidedBit id lobbyWorld 7 1 none p i) :=
  evaluate_meets_meaning id lobbyTree lobbyWorld rfl rfl 7 1 ⟨_, rfl⟩ none

/-! ### The sub selector -/

/-- The text of a number. -/
def decimal (n : ℤ) : List Char :=
  if n < 0 then '-' :: Nat.toDigits 10 n.natAbs else Nat.toDigits 10 n.natAbs

/-- The name of a `sub` selector: every argument stands behind a comma, and may be empty. -/
def subName (args : List (Option ℤ)) : String :=
  String.ofList (['s', 'u', 'b'] ++ args.flatMap fun a => ',' :: (a.map decimal).getD [])

/-- The first three arguments; one that is absent or empty has its default. -/
def subNumbers (args : List (Option ℤ)) : ℤ × ℤ × ℤ :=
  (args[0]?.join.getD 0, args[1]?.join.getD 1, args[2]?.join.getD 1000)

def Signed32 (n : ℤ) : Prop := -2147483648 ≤ n ∧ n < 2147483648

section text

theorem parseDigits_toDigits (k : ℕ) : parseDigits (Nat.toDigits 10 k) = some k := by
  have hdigits : (Nat.toDigits 10 k).all Char.isDigit = true :=
    all_eq_true.mpr fun d hd => Nat.isDigit_of_mem_toDigits (by decide) (by decide) hd
  rw [parseDigits, if_pos ⟨Nat.toDigits_ne_nil, hdigits⟩,
    Nat.ofDigitChars_toDigits (by decide) (by decide)]

theorem char_decimal {n : ℤ} {c : Char} (h : c ∈ decimal n) : c.isDigit = true ∨ c = '-' := by
  unfold decimal at h
  split_ifs at h
  · exact (mem_cons.mp h).symm.imp_left (Nat.isDigit_of_mem_toDigits (by decide) (by decide))
  · exact .inl (Nat.isDigit_of_mem_toDigits (by decide) (by decide) h)

theorem parseInt32_decimal {n : ℤ} (hn : Signed32 n) : parseInt32 (decimal n) = some n := by
  have hrange : decide (-2147483648 ≤ n ∧ n ≤ 2147483647) = true := by
    unfold Signed32 at hn
    exact decide_eq_true (by omega)
  unfold parseInt32
  rw [Option.filter_eq_some_iff]
  refine ⟨?_, hrange⟩
  unfold decimal
  split_ifs with hneg
  · show (parseDigits _).map (fun k : ℕ => -(k : ℤ)) = _
    rw [parseDigits_toDigits, Option.map_some]
    congr 1
    omega
  · have hk : ((n.natAbs : ℕ) : ℤ) = n := by omega
    have hdigit : ∀ c ds, Nat.toDigits 10 n.natAbs = c :: ds → c.isDigit = true := fun c ds h =>
      Nat.isDigit_of_mem_toDigits (by decide) (by decide) (h ▸ mem_cons_self)
    split
    · exact absurd (hdigit _ _ ‹_›) (by decide)
    · exact absurd (hdigit _ _ ‹_›) (by decide)
    · rw [parseDigits_toDigits, Option.map_some, hk]

theorem selectorInt_decimal {n : ℤ} (hn : Signed32 n) : selectorInt (decimal n) = n := by
  have hspace : ∀ c ∈ decimal n, isSpace c = false := by
    intro c hc
    rcases char_decimal hc with h | rfl
    · simp only [Char.isDigit, Bool.and_eq_true, decide_eq_true_eq, ge_iff_le] at h
      obtain ⟨hlo, hhi⟩ := h
      have hlo : 48 ≤ c.toNat := hlo
      have hhi : c.toNat ≤ 57 := hhi
      simp [isSpace]
      omega
    · decide
  have htrim : trimSpace (decimal n) = decimal n := by
    unfold trimSpace
    rw [(dropWhile_eq_self_iff (l := decimal n)).mpr (by simp [hspace]),
      dropWhile_eq_self_iff.mpr (by simp [hspace]), reverse_reverse]
  rw [selectorInt, htrim, parseInt32_decimal hn]
  rfl

theorem splitCommas_append {a s field : List Char} {fields : List (List Char)} (ha : ',' ∉ a)
    (hs : splitCommas s = field :: fields) :
    splitCommas (a ++ s) = (a ++ field) :: fields := by
  induction a with
  | nil => exact hs
  | cons c a ih =>
    have hc : c ≠ ',' := fun h => ha (h ▸ mem_cons_self)
    rw [List.cons_append, splitCommas.eq_3 _ _ hc, ih fun h => ha (.tail c h)]
    rfl

theorem splitCommas_args (args : List (List Char)) {a : List Char} (ha : ',' ∉ a)
    (hargs : ∀ b ∈ args, ',' ∉ b) :
    splitCommas (a ++ args.flatMap fun b => ',' :: b) = a :: args := by
  induction args generalizing a with
  | nil => rw [splitCommas_append ha rfl, append_nil]
  | cons b args ih =>
    have hcomma : splitCommas ((b :: args).flatMap fun b => ',' :: b) = [] :: b :: args :=
      congrArg ([] :: ·) (ih (hargs b mem_cons_self) fun c hc => hargs c (.tail b hc))
    rw [splitCommas_append ha hcomma, append_nil]

theorem subValues_subName {args : List (Option ℤ)} (hargs : ∀ a ∈ args, ∀ n ∈ a, Signed32 n) :
    subValues (subName args) = subNumbers args := by
  have hcommas : ∀ a : Option ℤ, ',' ∉ (a.map decimal).getD [] := by
    rintro (_ | n) hmem
    · cases hmem
    · exact absurd (char_decimal hmem) (by decide)
  have hsplit : (if subName args = "sub" then [] else splitCommas ((subName args).toList.drop 4)) =
      args.map fun a => (a.map decimal).getD [] := by
    cases args with
    | nil => rfl
    | cons a args =>
      have hne : subName (a :: args) ≠ "sub" := fun h => by
        cases String.ofList_injective (h.trans (String.ofList_toList (s := "sub")).symm)
      have htexts := splitCommas_args (args.map fun a => (a.map decimal).getD []) (hcommas a)
        (by simpa using fun a _ => hcommas a)
      rw [flatMap_map] at htexts
      rw [if_neg hne, subName, String.toList_ofList]
      exact htexts
  have hvalue : ∀ (i : ℕ) (dflt : ℤ), subValue (args.map fun a => (a.map decimal).getD []) i dflt =
      args[i]?.join.getD dflt := by
    intro i dflt
    rw [subValue, getElem?_map]
    cases hi : args[i]? with
    | none => rfl
    | some a =>
      cases a with
      | none => rfl
      | some n =>
        have hn := selectorInt_decimal (hargs _ (mem_of_getElem? hi) n rfl)
        have hne : decimal n ≠ [] := by
          unfold decimal
          split_ifs <;> simp [Nat.toDigits_ne_nil]
        simp [hne, hn]
  unfold subValues
  rw [hsplit]
  exact Prod.ext (hvalue 0 0) (Prod.ext (hvalue 1 1) (hvalue 2 1000))

end text

/-- What a `sub` selector with the numbers `v` asks for: the path `p` to the target leads through
the context, at the depth `k`, and has a channel `d` at the depth `pos`; the path `q` to the user
leads through `d` and ends at a depth within the bounds. -/
def SubHolds (v : ℤ × ℤ × ℤ) (context : ℕ) (p q : List ℕ) : Prop :=
  ∃ k pos d : ℕ, p[k]? = some context ∧ pos = max (k + v.1) 0 ∧ p[pos]? = some d ∧ d ∈ q ∧
    pos + v.2.1 ≤ (q.length : ℤ) - 1 ∧ (q.length : ℤ) - 1 ≤ pos + v.2.2

section sub
variable {w : World} {c k target context : ℕ} {p q : List ℕ}

theorem findIdx?_of_nodup (h : p.Nodup) (c : ℕ) :
    p.findIdx? (fun d => decide (d = c)) = some k ↔ p[k]? = some c := by
  rw [findIdx?_eq_some_iff_getElem, List.getElem?_eq_some_iff]
  refine exists_congr fun hk => ?_
  rw [decide_eq_true_eq]
  refine and_iff_left_of_imp fun hc j hj hfirst => ?_
  have hjk := h.getElem_inj_iff.mp ((of_decide_eq_true hfirst).trans hc.symm)
  omega

theorem look_chain (h : w.channels.ancestorChain c = p.reverse) :
    (look fun w => w.channels.ancestorChain c).on w = .ok p.reverse := congrArg Except.ok h

theorem matchSub_on (name : String) {a : Authorization}
    (hp : w.channels.ancestorChain target = p.reverse) (hnodup : p.Nodup)
    (hq : w.channels.ancestorChain a.channelID = q.reverse) :
    (matchSub name target context (some a)).on w = .ok true ↔
      SubHolds (subValues name) context p q := by
  rw [matchSub, on_bind_of_ok (look_chain hp), reverse_reverse, SubHolds]
  simp only [← findIdx?_of_nodup hnodup context]
  cases p.findIdx? (fun c => decide (c = context)) with
  | none => simp
  | some k =>
    obtain ⟨pos, hpos⟩ : ∃ pos : ℕ, max ((k : Int) + (subValues name).1) 0 = pos :=
      ⟨_, (Int.toNat_of_nonneg (by omega)).symm⟩
    simp only [Option.some.injEq, exists_and_left, exists_eq_left', hpos, Int.natCast_inj,
      exists_eq_left, Int.toNat_natCast]
    by_cases hlen : p.length ≤ pos
    · rw [if_pos (by omega), List.getElem?_eq_none hlen]
      simp
    · rw [if_neg (by omega), on_bind_of_ok (look_chain hq)]
      obtain ⟨d, hd⟩ : ∃ d, p[pos]? = some d := ⟨_, getElem?_eq_getElem (by omega)⟩
      rw [getD_eq_getElem?_getD, hd]
      by_cases hmem : d ∈ q <;> simp [hmem]

/-- `AncestorChain` of any channel, also of one that does not exist. -/
theorem ancestorChain_path (t : ChannelTree) (c : ℕ) :
    ∃ p : List ℕ, t.channels.ancestorChain c = p.reverse ∧ p.Nodup ∧
      ∀ d ∈ p, IsPath t.channels c p := by
  cases hc : t.channels.getChannel c with
  | none =>
    refine ⟨[], ?_, nodup_nil, by simp⟩
    simp [Channels.ancestorChain, Channels.ancestorLoop, hc]
  | some n =>
    obtain ⟨p, hp⟩ := t.path c n hc
    exact ⟨p, ancestorChain_of_path hp, hp.nodup, fun _ _ => hp⟩

theorem parseSelectorLoop_marks (s : Selector) {l : List Char}
    (hl : l ⊆ ['!', '~', '#', '$']) (rest : List Char) :
    parseSelectorLoop s (l ++ rest) = parseSelectorLoop
      ⟨s.name, s.invert || decide ('!' ∈ l), s.here || decide ('~' ∈ l),
        s.token || decide ('#' ∈ l), s.cert || decide ('$' ∈ l)⟩ rest := by
  induction l generalizing s with
  | nil => simp
  | cons c l ih =>
    obtain ⟨hc, hrest⟩ := cons_subset.mp hl
    have hmark : c = '!' ∨ c = '~' ∨ c = '#' ∨ c = '$' := by simpa using hc
    rcases hmark with rfl | rfl | rfl | rfl <;> simp [parseSelectorLoop, ih _ hrest]

/-- **The sub selector means what it says**, for every tree, all places in it and all signed 32-bit
numbers; and the marks before a selector may be repeated and stand in any order. -/
theorem matchSub_iff (t : ChannelTree) (w : World) (target context : ℕ) (u : Option Authorization) :
    (∀ args : List (Option ℤ), (∀ a ∈ args, ∀ n ∈ a, Signed32 n) →
      ((matchSub (subName args) target context u).on { w with channels := t.channels } = .ok true ↔
        ∃ a ∈ u, ∃ p q, IsPath t.channels target p ∧ IsPath t.channels a.channelID q ∧
          SubHolds (subNumbers args) context p q)) ∧
    ∀ l l' rest : List Char, l ⊆ ['!', '~', '#', '$'] → l ⊆ l' → l' ⊆ l →
      parseSelector (String.ofList (l ++ rest)) = parseSelector (String.ofList (l' ++ rest)) := by
  refine ⟨fun args hargs => ?_, ?_⟩
  · rw [← subValues_subName hargs]
    cases u with
    | none => simp [matchSub]
    | some a =>
      constructor
      · intro h
        obtain ⟨p, hp, hnodup, hpath⟩ := ancestorChain_path t target
        obtain ⟨q, hq, -, hhome⟩ := ancestorChain_path t a.channelID
        have hholds := (matchSub_on _ hp hnodup hq).mp h
        have ⟨_, _, d, hk, _, _, hmem, _⟩ := hholds
        exact ⟨a, rfl, p, q, hpath _ (mem_of_getElem? hk), hhome d hmem, hholds⟩
      · rintro ⟨b, hb, p, q, hp, hq, hholds⟩
        obtain rfl := Option.mem_some_iff.mp hb
        exact (matchSub_on _ (ancestorChain_of_path hp) hp.nodup
          (ancestorChain_of_path hq)).mpr hholds
  · intro l l' rest hl hsub hsub'
    have hsame (c : Char) : c ∈ l ↔ c ∈ l' := ⟨@hsub c, @hsub' c⟩
    simp only [parseSelector, String.toList_ofList, parseSelectorLoop_marks _ hl,
      parseSelectorLoop_marks _ fun _ hc => hl (hsub' hc), hsame]

end sub

end MumbleServer.Acl
