import MumbleServer.BanList
import MumbleServer.Runs

/-! # Bans beside each other

A ban of a session (`handleUserRemove`, `BanAndKickSession`) reads the whole list, appends its
entry and writes the whole list, with the lock of the manager released in between.  An edit of the
list (`handleBanList`) writes the list that a client has sent, which the client made from the list
it was sent before.  Here these steps of any number of bans and clients come in any order
(`Event`); beside the state stands what the server owes its moderators (`owes`). -/

namespace MumbleServer.Bans

section races
variable [LowerCase] {e : BanEntry}

/-- A ban that has read the list and not yet written it. -/
structure Underway where
  existing : List BanEntry
  entry : BanEntry

/-- The manager, the bans that are underway and the list each client was last sent. -/
structure Desk where
  bans : List BanEntry
  underway : ℕ → Option Underway
  seen : ℕ → List BanEntry

/-- The steps of bans and of edits of the list. -/
inductive Event
  | read (op : ℕ) (u : Target) (now reason : String)
  | write (op : ℕ)
  | send (client : ℕ)
  | edit (client : ℕ) (list : List BanEntry)

def Desk.start (list : List BanEntry) : Desk := ⟨list, fun _ => none, fun _ => []⟩

/-- A step.  `read` is `List` and `appendSessionBan`, which writes nothing if the session has
neither a certificate nor an address; `write` and `edit` are `Replace`, `send` is the `List` of a
reply. -/
def Desk.step (db : Database) (s : Desk) : Event → Desk
  | .read op u now reason =>
    match s.underway op with
    | some _ => s
    | none =>
      let update := (sessionBan now reason u).map fun e => Underway.mk s.bans e
      { s with underway := Function.update s.underway op update }
  | .write op =>
    match s.underway op with
    | none => s
    | some b => { s with
        bans := replace db (b.existing ++ [b.entry])
        underway := Function.update s.underway op none }
  | .send client => { s with seen := Function.update s.seen client s.bans }
  | .edit _ list => { s with bans := replace db list }

/-- Two entries say the same: what was written, and what is read back for it. -/
def SameBan (e e' : BanEntry) : Prop :=
  e'.address = e.address ∧ (e.mask ≠ 0 → e'.mask = e.mask) ∧ e'.hash = toLower e.hash ∧
    e'.name = e.name ∧ e'.reason = e.reason

instance (e e' : BanEntry) : Decidable (SameBan e e') := inferInstanceAs (Decidable (_ ∧ _))

def Holds (list : List BanEntry) (e : BanEntry) : Prop := ∃ e' ∈ list, SameBan e e'

instance (list : List BanEntry) (e : BanEntry) : Decidable (Holds list e) :=
  inferInstanceAs (Decidable (∃ e' ∈ list, SameBan e e'))

/-- The bans that have to be in the list after a step. -/
def owes (s : Desk) (owed : List BanEntry) : Event → List BanEntry
  | .write op => ((s.underway op).map Underway.entry).toList ++ owed
  | .edit client list => owed.filter fun e => decide (¬(Holds (s.seen client) e ∧ ¬Holds list e))
  | _ => owed

/-- A step together with what is owed. -/
def account (db : Database) (s : Desk × List BanEntry) (ev : Event) : Desk × List BanEntry :=
  (s.1.step db ev, owes s.1 s.2 ev)

/-- Every entry of the list was already in the list that a ban has read when it writes; an edit
leaves out only what its author has seen. -/
def Undisturbed (s : Desk × List BanEntry) : Event → Prop
  | .write op => ∀ b ∈ s.1.underway op, ∀ e ∈ s.1.bans, Holds b.existing e
  | .edit client list => ∀ e ∈ s.1.bans, Holds (s.1.seen client) e ∨ Holds list e
  | .read _ _ _ _ => True
  | .send _ => True

instance (s : Desk × List BanEntry) : (ev : Event) → Decidable (Undisturbed s ev)
  | .write op =>
    inferInstanceAs (Decidable (∀ b ∈ s.1.underway op, ∀ e ∈ s.1.bans, Holds b.existing e))
  | .edit client list =>
    inferInstanceAs (Decidable (∀ e ∈ s.1.bans, Holds (s.1.seen client) e ∨ Holds list e))
  | .read _ _ _ _ => isTrue trivial
  | .send _ => isTrue trivial

/-! ### What is written is kept -/

theorem SameBan.trans {e e' e'' : BanEntry} (h : SameBan e e') (h' : SameBan e' e'') :
    SameBan e e'' := by
  obtain ⟨haddr, hmask, hhash, hname, hreason⟩ := h
  obtain ⟨haddr', hmask', hhash', hname', hreason'⟩ := h'
  refine ⟨haddr'.trans haddr, fun hne => ?_, ?_, hname'.trans hname, hreason'.trans hreason⟩
  · rw [hmask' (by rw [hmask hne]; exact hne), hmask hne]
  · rw [hhash', hhash, toLower_toLower]

variable (db : Database)

theorem sameBan_saved (e : BanEntry) : SameBan e (db.saved { e with hash := toLower e.hash }) :=
  ⟨db.address_saved _, fun hne => db.mask_saved _ hne,
    (db.hash_saved _).trans (toLower_toLower _), db.name_saved _, db.reason_saved _⟩

theorem Holds.of_forall {list list' : List BanEntry} (h : ∀ e ∈ list, Holds list' e)
    (he : Holds list e) : Holds list' e := by
  obtain ⟨e', hmem, hsame⟩ := he
  obtain ⟨e'', hmem', hsame'⟩ := h e' hmem
  exact ⟨e'', hmem', hsame.trans hsame'⟩

theorem holds_replace_of_mem {list : List BanEntry} (h : e ∈ list) : Holds (replace db list) e :=
  ⟨_, List.mem_map_of_mem h, sameBan_saved db e⟩

theorem Holds.replace {db : Database} {list : List BanEntry} (h : Holds list e) :
    Holds (replace db list) e :=
  Holds.of_forall (fun _ hmem => holds_replace_of_mem db hmem) h

/-! ### Nothing owed is missing -/

def Settled (s : Desk × List BanEntry) : Prop := ∀ e ∈ s.2, Holds s.1.bans e

theorem settled_step {s : Desk × List BanEntry} {ev : Event} (h : Settled s)
    (hev : Undisturbed s ev) : Settled (account db s ev) := by
  cases ev with
  | read op u now reason =>
    intro e he
    have hkept : (s.1.step db (.read op u now reason)).bans = s.1.bans := by
      simp only [Desk.step]
      cases s.1.underway op <;> rfl
    show Holds (s.1.step db (.read op u now reason)).bans e
    rw [hkept]
    exact h e he
  | write op =>
    cases hop : s.1.underway op with
    | none => simpa [Settled, account, Desk.step, owes, hop] using h
    | some b =>
      intro e he
      have hbans : (account db s (.write op)).1.bans = replace db (b.existing ++ [b.entry]) := by
        simp [account, Desk.step, hop]
      have hcases : e = b.entry ∨ e ∈ s.2 := by simpa [account, owes, hop] using he
      rw [hbans]
      rcases hcases with rfl | hold
      · exact holds_replace_of_mem db (by simp)
      · -- the ban was in the list, so it was in the list that was read
        obtain ⟨e', hmem, hsame⟩ := Holds.of_forall (hev b hop) (h e hold)
        exact Holds.replace ⟨e', List.mem_append_left _ hmem, hsame⟩
  | send client => exact h
  | edit client list =>
    intro e he
    obtain ⟨hold, hkeep⟩ := List.mem_filter.mp he
    have hnot : ¬(Holds (s.1.seen client) e ∧ ¬Holds list e) := of_decide_eq_true hkeep
    obtain ⟨e', hmem, hsame⟩ := h e hold
    have hlist : Holds list e := by
      by_contra hmiss
      refine hnot ⟨?_, hmiss⟩
      rcases hev e' hmem with ⟨e'', hmem', hsame'⟩ | ⟨e'', hmem', hsame'⟩
      · exact ⟨e'', hmem', hsame.trans hsame'⟩
      · exact absurd ⟨e'', hmem', hsame.trans hsame'⟩ hmiss
    exact Holds.replace hlist

/-- **No ban is lost undisturbed.**  In every run of bans and edits in which no list is written
from one that lacks an entry of the current list, except by an edit that keeps the entry, every
ban stays until somebody who had it in view takes it out. -/
theorem no_lost_ban (db : Database) (list : List BanEntry) (events : List Event)
    (h : Along (account db) Undisturbed (Desk.start list, []) events) :
    ∀ e ∈ (run (account db) (Desk.start list, []) events).2,
      Holds (run (account db) (Desk.start list, []) events).1.bans e :=
  run_inv (fun _ _ hs hev => settled_step db hs hev) (s := (Desk.start list, []))
    (fun e he => absurd he (by simp)) h

/-! ### Schedules without a loss -/

/-- The bans that are underway; and who has got the list as it is: the bans that have read it and
the clients it was sent to since it was last written. -/
structure Turn where
  busy : List ℕ := []
  read : List ℕ := []
  sent : List ℕ := []

namespace Turn

def step (t : Turn) : Event → Turn
  | .read op _ _ _ => { t with busy := op :: t.busy, read := op :: t.read }
  | .write op => { busy := t.busy.filter fun x => decide (x ≠ op) }
  | .send client => { t with sent := client :: t.sent }
  | .edit _ _ => { busy := t.busy }

/-- A ban reads once, and nothing was written between a `List` and the `Replace` that is made from
it. -/
def Allows (t : Turn) : Event → Prop
  | .read op _ _ _ => op ∉ t.busy
  | .write op => op ∈ t.read
  | .edit client _ => client ∈ t.sent
  | .send _ => True

/-- The list is in lower case, as `loadLocked` reads it, and whoever has got it as it is has it. -/
structure Fits (t : Turn) (s : Desk) : Prop where
  lowered : ∀ e ∈ s.bans, toLower e.hash = e.hash
  idle : ∀ op, op ∉ t.busy → s.underway op = none
  read : ∀ op ∈ t.read, ∀ b ∈ s.underway op, b.existing = s.bans
  sent : ∀ client ∈ t.sent, s.seen client = s.bans

variable {db} {t : Turn} {s : Desk × List BanEntry} {ev : Event}

theorem Fits.undisturbed (h : t.Fits s.1) (hev : t.Allows ev) : Undisturbed s ev := by
  have hself : ∀ e ∈ s.1.bans, Holds s.1.bans e := fun e he =>
    ⟨e, he, rfl, fun _ => rfl, (h.lowered e he).symm, rfl, rfl⟩
  cases ev with
  | read op u now reason | send client => trivial
  | write op => exact fun b hb e he => h.read op hev b hb ▸ hself e he
  | edit client list => exact fun e he => .inl (h.sent client hev ▸ hself e he)

theorem Fits.step (h : t.Fits s.1) (hev : t.Allows ev) : (t.step ev).Fits (account db s ev).1 := by
  have hlow : ∀ list, ∀ e ∈ replace db list, toLower e.hash = e.hash := by
    intro list e he
    obtain ⟨e', -, rfl⟩ := List.mem_map.mp he
    rw [db.hash_saved, toLower_toLower, toLower_toLower]
  cases ev with
  | read op u now reason =>
    simp only [account, Desk.step, h.idle op hev]
    refine ⟨h.lowered, fun x hx => ?_, fun x hx b hb => ?_, h.sent⟩
    · obtain ⟨hxop, hx⟩ := not_or.mp (mt List.mem_cons.mpr hx)
      dsimp only
      rw [Function.update_of_ne hxop]
      exact h.idle x hx
    · by_cases hxop : x = op
      · subst hxop
        obtain ⟨e, -, rfl⟩ := Option.map_eq_some_iff.mp (by simpa using hb)
        rfl
      · have hb : b ∈ Function.update s.1.underway op _ x := hb
        rw [Function.update_of_ne hxop] at hb
        exact h.read x ((List.mem_cons.mp hx).resolve_left hxop) b hb
  | write op =>
    simp only [account, Desk.step]
    cases hop : s.1.underway op with
    | none =>
      refine ⟨h.lowered, fun x hx => ?_, by simp [Turn.step], by simp [Turn.step]⟩
      by_cases hxop : x = op
      · exact hxop ▸ hop
      · exact h.idle x fun hmem => hx (List.mem_filter.mpr ⟨hmem, decide_eq_true hxop⟩)
    | some b =>
      refine ⟨hlow _, fun x hx => ?_, by simp [Turn.step], by simp [Turn.step]⟩
      by_cases hxop : x = op
      · simp [hxop]
      · dsimp only
        rw [Function.update_of_ne hxop]
        exact h.idle x fun hmem => hx (List.mem_filter.mpr ⟨hmem, decide_eq_true hxop⟩)
  | send client =>
    refine ⟨h.lowered, h.idle, h.read, fun x hx => ?_⟩
    by_cases hx' : x = client
    · simp [account, Desk.step, hx']
    · simpa [account, Desk.step, hx'] using h.sent x ((List.mem_cons.mp hx).resolve_left hx')
  | edit client list => exact ⟨hlow list, h.idle, by simp [Turn.step], by simp [Turn.step]⟩

end Turn

/-- A schedule in which nothing is written between a `List` and the `Replace` made from it disturbs
nothing, so that no ban is lost in it. -/
theorem undisturbed_of_turns {db} {t : Turn} {s : Desk × List BanEntry} (h : t.Fits s.1)
    {events : List Event} (hturns : Along Turn.step Turn.Allows t events) :
    Along (account db) Undisturbed s events := by
  induction events generalizing t s with
  | nil => trivial
  | cons ev events ih => exact ⟨h.undisturbed hturns.1, ih (h.step hturns.1) hturns.2⟩

end races

/-- Two bans one after the other, and an edit that takes the first one out again. -/
def banThenEdit : List Event :=
  [.read 0 ⟨"a", "", some [192, 0, 2, 1]⟩ "now" "spam", .write 0,
    .read 1 ⟨"b", "c0ffee", none⟩ "now" "spam", .write 1, .send 7,
    .edit 7 [⟨[], 0, "b", "c0ffee", "spam", "now", 0⟩]]

theorem no_lost_ban_in_turn :
    (run (account exactDatabase) (Desk.start [], []) banThenEdit).2 =
        [⟨[], 0, "b", "c0ffee", "spam", "now", 0⟩] ∧
      ∀ e ∈ (run (account exactDatabase) (Desk.start [], []) banThenEdit).2,
        Holds (run (account exactDatabase) (Desk.start [], []) banThenEdit).1.bans e :=
  ⟨by decide +kernel, no_lost_ban exactDatabase [] banThenEdit (by decide +kernel)⟩

/-- Two bans at the same time: the second erases the first. -/
theorem bans_at_the_same_time :
    ∃ e ∈ (run (account exactDatabase) (Desk.start [], [])
        [.read 0 ⟨"a", "", some [192, 0, 2, 1]⟩ "now" "spam",
          .read 1 ⟨"b", "c0ffee", none⟩ "now" "spam", .write 0, .write 1]).2,
      ¬Holds (run (account exactDatabase) (Desk.start [], [])
        [.read 0 ⟨"a", "", some [192, 0, 2, 1]⟩ "now" "spam",
          .read 1 ⟨"b", "c0ffee", none⟩ "now" "spam", .write 0, .write 1]).1.bans e := by
  decide +kernel

end MumbleServer.Bans
