import MumbleServer.BanRace
import MumbleServer.MessagePieces
import MumbleServer.Times

/-! # The stored ban list

`internal/ban/manager.go` with its table.  The manager keeps the rows in memory, answers from
there, and replaces the list by a delete and one insert for each entry, each of which can fail.
An insert writes a zero mask as the default of its column, 32; the default of the duration is zero.
What the database gives back for a time is a parameter (`Clock`).

Where nothing fails, this is the list of `BanList`, with the texts of the times in the entries
(`listed_replace`, `heldBanned_eq`). -/

namespace MumbleServer.Bans

open List Times

open Codec (Message Value Reading Piece)

structure Clock where
  /-- The time that is read back from the database. -/
  stored : Time → Time
  now : Time

/-- `models.Ban`, a row that is not deleted. -/
structure Row where
  address : Bytes
  mask : UInt32
  name : String
  hash : String
  reason : String
  start : Time
  duration : UInt32
deriving DecidableEq

/-- `banEntry`, a ban in memory. -/
structure Held where
  addr : Bytes
  mask : UInt32
  hash : String
  name : String
  reason : String
  start : Time
  duration : UInt32
  active : Bool
deriving DecidableEq

/-- One round of `List`. -/
def Held.message (b : Held) : BanEntry :=
  ⟨b.addr, b.mask, b.name, b.hash, b.reason, b.start.format, b.duration⟩

/-- `List`. -/
def listed (held : List Held) : List BanEntry := (held.filter Held.active).map Held.message

/-- One round of `IsBanned`. -/
def Held.bans (ip : Option Bytes) (hash : String) (b : Held) : Bool :=
  b.active && Bans.bans ip hash b.message

section store
variable [LowerCase]

/-- One row of `loadLocked`. -/
def Row.held (r : Row) : Held :=
  ⟨r.address, r.mask, toLower r.hash, r.name, r.reason, r.start, r.duration, true⟩

/-- `IsBanned`. -/
def heldBanned (held : List Held) (ip : Option Bytes) (certHash : String) : Bool :=
  held.any (Held.bans ip (toLower certHash))

/-- The row that `Replace` creates, as it is read back. -/
def Clock.newRow (c : Clock) (be : BanEntry) : Row :=
  ⟨be.address, if be.mask = 0 then 32 else be.mask, be.name, toLower be.hash, be.reason,
    c.stored (if be.start ≠ "" then parse be.start else c.now), be.duration⟩

end store

/-- The loop of `Create`: the rows it has written, and whether all were. `fails k` says that the
statement `k` fails. -/
def createRows (fails : ℕ → Bool) : ℕ → List Row → List Row × Bool
  | _, [] => ([], true)
  | k, r :: rows =>
    if fails k then ([], false)
    else
      let rest := createRows fails (k + 1) rows
      (r :: rest.1, rest.2)

/-- The live rows of the server, and the list in memory. -/
structure Store where
  rows : List Row
  bans : List Held
deriving DecidableEq

section store
variable [LowerCase]

/-- The store after `load`. -/
def Store.loaded (rows : List Row) : Store := ⟨rows, rows.map Row.held⟩

/-- `Replace`, with whether it reports success.  The statements are the delete, an insert for each
entry and the query of `loadLocked`, whose error is not reported. -/
def Store.replace (c : Clock) (fails : ℕ → Bool) (s : Store) (bans : List BanEntry) :
    Store × Bool :=
  if fails 0 then (s, false)
  else
    let written := createRows fails 1 (bans.map c.newRow)
    if written.2 then
      if fails (bans.length + 1) then ({ s with rows := written.1 }, true)
      else (.loaded written.1, true)
    else ({ s with rows := written.1 }, false)

/-- The database of `BanList`: what is listed for a row that was created. -/
def Clock.database (c : Clock) : Database where
  saved e := (c.newRow e).held.message
  address_saved _ := rfl
  name_saved _ := rfl
  reason_saved _ := rfl
  hash_saved _ := toLower_toLower _
  mask_saved _ h := if_neg h

end store

/-- A clock that stands still at the start of 1970. -/
def epoch : Clock := ⟨id, { zeroTime with civil := ⟨1970, 1, 1, 0, 0, 0⟩, exist := by decide }⟩

/-- A ban of an address for one second. -/
def plain : BanEntry := ⟨[10, 0, 0, 1], 32, "", "", "", "1970-01-01T00:00:00Z", 1⟩

/-! ### Temporary bans -/

section expiry
variable [LowerCase] (rows : List Row) (now : ℤ)

/-- The ban has a duration, and it is over. -/
def Held.expired (b : Held) : Bool :=
  b.duration != 0 && decide (b.start.unixNano + b.duration.toNat * 10 ^ 9 < now)

theorem listed_loaded (rows : List Row) :
    listed (rows.map Row.held) = (rows.map Row.held).map Held.message := by
  unfold listed
  rw [filter_eq_self.mpr]
  intro b hb
  obtain ⟨r, -, rfl⟩ := mem_map.mp hb
  rfl

/-- The answers are those of the bans that are not over exactly when no ban is; a ban without a
duration always counts. -/
theorem temporary_bans_end_iff :
    let held := rows.map Row.held
    let valid := held.filter fun b => !b.expired now
    (((∀ ip hash, heldBanned held ip hash = heldBanned valid ip hash) ∧
        listed held = listed valid) ↔
      ∀ b ∈ held, b.expired now = false) ∧
    ∀ b ∈ held, b.duration = 0 → b ∈ valid ∧ b.message ∈ listed held ∧
      ∀ ip hash, b.bans ip (toLower hash) = true → heldBanned held ip hash = true := by
  intro held valid
  refine ⟨⟨fun h b hb => ?_, fun h => ?_⟩, fun b hb hzero => ⟨?_, ?_, fun ip hash hbans => ?_⟩⟩
  · -- `List` is shorter without the bans that are over
    have hlen : (listed valid).length ≤ valid.length := by
      simpa [listed] using length_filter_le Held.active valid
    rw [← h.2, listed_loaded, length_map] at hlen
    have hall := length_filter_eq_length_iff.mp (le_antisymm (length_filter_le _ _) hlen)
    simpa using hall b hb
  · have hvalid : valid = held := filter_eq_self.mpr fun b hb => by simp [h b hb]
    exact ⟨fun _ _ => by rw [hvalid], by rw [hvalid]⟩
  · exact mem_filter.mpr ⟨hb, by simp [Held.expired, hzero]⟩
  · rw [listed_loaded]
    exact mem_map_of_mem hb
  · exact any_eq_true.mpr ⟨b, hb, hbans⟩

end expiry

/-- A ban of one second still counts after an hour. -/
theorem one_second_ban_stays :
    (epoch.newRow plain).held.expired (3600 * 10 ^ 9) = true ∧
    heldBanned [(epoch.newRow plain).held] (some [10, 0, 0, 1]) "" = true ∧
    listed [(epoch.newRow plain).held] = [plain] := by
  decide +kernel

/-! ### Replacing the list -/

section replacing
variable {fails : ℕ → Bool}

/-- The loop stops at the first insert that fails. -/
theorem createRows_take {k m : ℕ} {rows : List Row} (hm : m ≤ rows.length)
    (hok : ∀ i < m, fails (k + i) = false) (hfail : m < rows.length → fails (k + m) = true) :
    createRows fails k rows = (rows.take m, decide (m = rows.length)) := by
  induction rows generalizing k m with
  | nil =>
    obtain rfl : m = 0 := Nat.le_zero.mp hm
    rfl
  | cons r rows ih =>
    unfold createRows
    cases m with
    | zero =>
      have hfirst : fails k = true := hfail (Nat.succ_pos _)
      rw [if_pos hfirst]
      simp
    | succ m =>
      have hfirst : ¬fails k = true := by simpa using hok 0 (Nat.succ_pos m)
      have hrest := ih (k := k + 1) (m := m) (by simpa using hm)
        (fun i hi => by simpa [Nat.add_assoc, Nat.add_comm 1] using hok (i + 1) (by omega))
        (fun hlt => by simpa [Nat.add_assoc, Nat.add_comm 1] using hfail (by simpa using hlt))
      rw [if_neg hfirst, hrest]
      simp

variable [LowerCase] (c : Clock)

/-- A store in which the statement `m + 1` is the first to fail. -/
theorem replace_of_first {m : ℕ} {bans : List BanEntry} (hm : m ≤ bans.length)
    (hok : ∀ k ≤ m, fails k = false) (hfail : fails (m + 1) = true) (s : Store) :
    (s.replace c fails bans).1 = { s with rows := (bans.map c.newRow).take m } := by
  have hcreate : createRows fails 1 (bans.map c.newRow) = _ := createRows_take (m := m)
    (by simpa using hm) (fun i hi => hok _ (by omega)) (fun _ => by rwa [Nat.add_comm])
  unfold Store.replace
  rw [if_neg (by simp [hok 0 (Nat.zero_le m)]), hcreate]
  by_cases hall : m = bans.length
  · subst hall
    simp [hfail]
  · simp [hall]

theorem replace_of_all {bans : List BanEntry} (hok : ∀ k ≤ bans.length + 1, fails k = false)
    (s : Store) : (s.replace c fails bans).1 = .loaded (bans.map c.newRow) := by
  have hcreate : createRows fails 1 (bans.map c.newRow) = _ := createRows_take (m := bans.length)
    (by simp) (fun i hi => hok _ (by omega)) (fun h => by simp at h)
  unfold Store.replace
  rw [if_neg (by simp [hok 0 (Nat.zero_le _)]), hcreate]
  simp [hok (bans.length + 1) le_rfl, take_of_length_le]

/-- Replacing a list that is loaded installs the new one or leaves the old one, in memory as in the
table, exactly when the delete fails, or nothing does, or the entries before the first failure are
the old list. -/
theorem replace_atomic_iff (fails : ℕ → Bool) (rows : List Row) (bans : List BanEntry) :
    let s := Store.loaded rows
    let s' := (s.replace c fails bans).1
    (s'.bans = s'.rows.map Row.held ∧
      (s'.bans = s.bans ∨ s'.bans = (bans.map c.newRow).map Row.held)) ↔
    fails 0 = true ∨ (∀ k ≤ bans.length + 1, fails k = false) ∨
      ∃ m ≤ bans.length, (∀ k ≤ m, fails k = false) ∧ fails (m + 1) = true ∧
        ((bans.take m).map c.newRow).map Row.held = rows.map Row.held := by
  intro s s'
  by_cases hdelete : fails 0 = true
  · have hs' : s' = s := by simp [s', Store.replace, hdelete]
    rw [hs']
    exact iff_of_true ⟨rfl, .inl rfl⟩ (.inl hdelete)
  by_cases hall : ∀ k ≤ bans.length + 1, fails k = false
  · have hs' : s' = .loaded (bans.map c.newRow) := replace_of_all c hall s
    rw [hs']
    exact iff_of_true ⟨rfl, .inr rfl⟩ (.inr (.inl hall))
  -- the statement `m + 1` is the first that fails
  obtain ⟨m, hm, hok, hfail⟩ : ∃ m ≤ bans.length, (∀ k ≤ m, fails k = false) ∧
      fails (m + 1) = true := by
    simp only [not_forall, Bool.not_eq_false] at hall
    have hex : ∃ k, fails k = true := hall.imp fun k ⟨_, hk⟩ => hk
    obtain ⟨k, hk, hkfail⟩ := hall
    have hpos : Nat.find hex ≠ 0 := fun h0 => hdelete (h0 ▸ Nat.find_spec hex)
    have hle : Nat.find hex ≤ k := Nat.find_min' hex hkfail
    refine ⟨Nat.find hex - 1, by omega, fun i hi => ?_, ?_⟩
    · simpa using Nat.find_min hex (show i < Nat.find hex by omega)
    · rw [Nat.sub_add_cancel (Nat.pos_of_ne_zero hpos)]
      exact Nat.find_spec hex
  have hs' : s' = ⟨(bans.take m).map c.newRow, rows.map Row.held⟩ := by
    rw [map_take]
    exact replace_of_first c hm hok hfail s
  rw [hs']
  constructor
  · rintro ⟨h, -⟩
    exact .inr (.inr ⟨m, hm, hok, hfail, h.symm⟩)
  · rintro (h | h | ⟨m', -, hok', hfail', h⟩)
    · exact absurd h hdelete
    · exact absurd h hall
    · obtain rfl : m' = m := by
        rcases Nat.lt_trichotomy m' m with hlt | heq | hlt
        · simp [hok (m' + 1) hlt] at hfail'
        · exact heq
        · simp [hok' (m + 1) hlt] at hfail
      exact ⟨h.symm, .inl rfl⟩

end replacing

/-- The second insert of two fails: the table has the first entry, memory the old list. -/
theorem replace_halfway :
    ((Store.loaded []).replace epoch (fun k => k == 2) [plain, plain]).1 =
      ⟨[epoch.newRow plain], []⟩ := rfl

/-! ### What is stored -/

/-- The mask is not zero, and the start is a moment of the calendar in whole seconds, with an offset
as `Format` writes it. -/
def Survives (e : BanEntry) : Prop := e.mask ≠ 0 ∧ ∃ s : Stamp, e.start = s.text ∧ s.Plain

/-- The start is an RFC 3339 text. -/
def Stamped (e : BanEntry) : Prop := ∃ s : Stamp, e.start = s.text

theorem stamped_listed (held : List Held) : ∀ e ∈ listed held, Stamped e := by
  intro e he
  obtain ⟨b, -, rfl⟩ := mem_map.mp he
  exact exists_stamp b.start

section faithful
variable [LowerCase] (c : Clock)

theorem replace_never (s : Store) (bans : List BanEntry) :
    (s.replace c (fun _ => false) bans).1 = .loaded (bans.map c.newRow) :=
  replace_of_all c (fun _ _ => rfl) s

theorem newRow_lowered (e : BanEntry) : c.newRow { e with hash := toLower e.hash } = c.newRow e := by
  unfold Clock.newRow
  rw [toLower_toLower]

/-- Without a failure, `Replace` is the one of `BanList`. -/
theorem listed_replace (s : Store) (bans : List BanEntry) :
    listed (s.replace c (fun _ => false) bans).1.bans = replace c.database bans := by
  rw [replace_never, Store.loaded, listed_loaded, map_map, map_map, replace]
  refine map_congr_left fun e _ => ?_
  show (c.newRow e).held.message = (c.newRow { e with hash := toLower e.hash }).held.message
  rw [newRow_lowered]

/-- `IsBanned` of the bans in memory is the one of `BanList`. -/
theorem heldBanned_eq (rows : List Row) (ip : Option Bytes) (certHash : String) :
    heldBanned (rows.map Row.held) ip certHash =
      isBanned (listed (rows.map Row.held)) ip certHash := by
  rw [listed_loaded, heldBanned, isBanned, any_map, any_map, any_map]
  rfl

def lowered (e : BanEntry) : BanEntry := { e with hash := toLower e.hash }

theorem lowered_listed (rows : List Row) :
    (listed (rows.map Row.held)).map lowered = listed (rows.map Row.held) := by
  rw [listed_loaded, map_map, map_map, map_map]
  refine map_congr_left fun r _ => ?_
  simp [lowered, Held.message, Row.held, toLower_toLower]

variable (hstored : ∀ t, t.nano = 0 → t.zone.natAbs < 1500 → c.stored t = t)
include hstored

theorem message_newRow_iff {e : BanEntry} (he : Stamped e) :
    (c.newRow e).held.message = lowered e ↔ Survives e := by
  obtain ⟨s, hs⟩ := he
  have hne : e.start ≠ "" := hs ▸ s.text_ne_empty
  have htext : (∃ s : Stamp, e.start = s.text ∧ s.Plain) ↔
      (c.stored (parse e.start)).format = e.start := by
    constructor
    · rintro ⟨s', hs', hplain⟩
      rw [hs']
      exact (format_parse_iff hstored s').mpr hplain
    · intro h
      exact ⟨s, hs, (format_parse_iff hstored s).mp (hs ▸ h)⟩
  rw [Survives, htext]
  simp only [Row.held, Held.message, Clock.newRow, lowered, BanEntry.mk.injEq, toLower_toLower,
    true_and, and_true, if_pos hne]
  refine and_congr_left fun _ => ?_
  split_ifs with hmask <;> simp [hmask]

theorem listed_replace_iff (s : Store) {bans : List BanEntry} (hbans : ∀ e ∈ bans, Stamped e) :
    listed (s.replace c (fun _ => false) bans).1.bans = bans.map lowered ↔
      ∀ e ∈ bans, Survives e := by
  rw [replace_never, Store.loaded, listed_loaded, map_map, map_map, map_inj_left]
  exact forall₂_congr fun e he => message_newRow_iff c hstored (hbans e he)

/-- For a database that keeps times in whole seconds: a list with RFC 3339 times that was replaced
is listed as it was given, and a list that is listed and replaced is listed the same, exactly when
every entry survives. -/
theorem stored_faithfully_iff (rows : List Row) (bans : List BanEntry)
    (hbans : ∀ e ∈ bans, Stamped e) :
    let s := Store.loaded rows
    (listed (s.replace c (fun _ => false) bans).1.bans = bans.map lowered ↔
      ∀ e ∈ bans, Survives e) ∧
    (listed (s.replace c (fun _ => false) (listed s.bans)).1.bans = listed s.bans ↔
      ∀ e ∈ listed s.bans, Survives e) := by
  refine ⟨listed_replace_iff c hstored _ hbans, ?_⟩
  have h := listed_replace_iff c hstored (.loaded rows) (stamped_listed (rows.map Row.held))
  rwa [lowered_listed] at h

end faithful

/-- The sixth of May 2024, 07:08:09, two hours east of Greenwich. -/
def may : Stamp where
  civil := ⟨2024, 5, 6, 7, 8, 9⟩
  frac := []
  offset := .signed false 2 0
  civil_sized := by unfold Civil.Sized; decide
  offset_sized := ⟨by decide, by decide⟩

/-- A ban of a network with that start comes back, its hash in lower case. -/
theorem stored_faithfully_may :
    listed ((Store.loaded []).replace epoch (fun _ => false)
      [⟨[10, 0, 0, 0], 8, "net", "C0FFEE", "spam", "2024-05-06T07:08:09+02:00", 60⟩]).1.bans =
      [⟨[10, 0, 0, 0], 8, "net", "c0ffee", "spam", "2024-05-06T07:08:09+02:00", 60⟩] := by
  have htext : may.text = "2024-05-06T07:08:09+02:00" := by decide +kernel
  have h := (stored_faithfully_iff epoch (fun _ _ _ => rfl) []
    [⟨[10, 0, 0, 0], 8, "net", "C0FFEE", "spam", may.text, 60⟩]
    (by simpa using ⟨may, rfl⟩)).1.mpr
    (by simpa [Survives] using ⟨may, rfl, by decide, rfl, by decide, by decide, by decide⟩)
  rw [htext] at h
  exact h.trans (by decide +kernel)

/-- A ban of a certificate has the mask 0 and comes back with the mask 32. -/
theorem certificate_ban_mask :
    listed ((Store.loaded []).replace epoch (fun _ => false)
      [banEntryByCert epoch.now.format "" "" "c0ffee"]).1.bans =
      [⟨[], 32, "", "c0ffee", "", "1970-01-01T00:00:00Z", 0⟩] := by
  decide +kernel

/-! ### Ban list messages -/

section payload
variable (text : Bytes → String)

/-- `messages.BanEntry`; `text` takes the bytes of a Go string for a text. -/
def ofValue (v : Value Codec.banEntry) : BanEntry :=
  ⟨v.1, v.2.1, text v.2.2.1, text v.2.2.2.1, text v.2.2.2.2.1, text v.2.2.2.2.2.1,
    v.2.2.2.2.2.2.1⟩

/-- The ban that the fields of an entry say. -/
def entryOf (ps : List (Piece Codec.banEntry)) : BanEntry where
  address := Codec.bytesOf ps 1
  mask := .ofNat (Codec.numberOf ps 2)
  name := text (Codec.bytesOf ps 3)
  hash := text (Codec.bytesOf ps 4)
  reason := text (Codec.bytesOf ps 5)
  start := text (Codec.bytesOf ps 6)
  duration := .ofNat (Codec.numberOf ps 7)

/-- What stands in a payload before its first damage: its fields, and the entries, each by what
stands in it before its own first damage. -/
structure BanPayload (payload : Bytes) where
  reading : Reading Codec.banList payload
  entries : List BanEntry
  each : Forall₂ (fun p e => ∃ r : Reading Codec.banEntry p.content, e = entryOf text r.pieces)
    (reading.pieces.filter fun p => p.number = 1) entries

/-- The last query field says that the list is asked for. -/
def BanPayload.query {text : Bytes → String} {payload : Bytes} (q : BanPayload text payload) :
    Prop :=
  Codec.numberOf q.reading.pieces 2 % 2 ^ 64 ≠ 0

variable {text}

theorem lenient_banEntry : ∀ n f i, Codec.find Codec.banEntry n = some ⟨f, i⟩ → f.Lenient := by
  intro n f i h
  simp only [Codec.banEntry, Codec.find, Option.map] at h
  split_ifs at h <;> cases h <;> exact ⟨by decide, fun raw c => ⟨_, rfl⟩⟩

theorem lenient_banList : ∀ n f i, Codec.find Codec.banList n = some ⟨f, i⟩ → f.Lenient := by
  intro n f i h
  simp only [Codec.banList, Codec.find, Option.map] at h
  split_ifs at h <;> cases h
  · refine ⟨by decide, fun raw c => ?_⟩
    show ∃ c', Codec.storeNested Codec.banEntry false raw c = .ok c'
    unfold Codec.storeNested
    cases (Codec.decode Codec.banEntry raw).error <;> exact ⟨_, rfl⟩
  · exact ⟨by decide, fun raw c => ⟨_, rfl⟩⟩

theorem ofValue_decode {content : Bytes} (r : Reading Codec.banEntry content) :
    ofValue text (Codec.decode Codec.banEntry content).value = entryOf text r.pieces := by
  have hs : (Codec.banEntry.filterMap Codec.Field.number).Nodup := by decide
  rw [Codec.decode_value lenient_banEntry r]
  unfold ofValue entryOf
  congr 1
  · exact Codec.get_bytes hs .here rfl
  · exact (Codec.get_scalar hs (.there .here) rfl).trans (UInt64.toUInt32_ofNat' _)
  · exact congrArg text (Codec.get_bytes hs (.there (.there .here)) rfl)
  · exact congrArg text (Codec.get_bytes hs (.there (.there (.there .here))) rfl)
  · exact congrArg text (Codec.get_bytes hs (.there (.there (.there (.there .here)))) rfl)
  · exact congrArg text (Codec.get_bytes hs (.there (.there (.there (.there (.there .here))))) rfl)
  · exact (Codec.get_scalar hs (.there (.there (.there (.there (.there (.there .here)))))) rfl).trans
      (UInt64.toUInt32_ofNat' _)

theorem entries_eq {payload : Bytes} (q : BanPayload text payload) :
    (Message.banList.unmarshal payload).value.1.map (ofValue text) = q.entries := by
  have hs : (Codec.banList.filterMap Codec.Field.number).Nodup := by decide
  have hvalue : (Message.banList.unmarshal payload).value.1 =
      (q.reading.pieces.filter fun p => p.number = 1).map fun p =>
        (Codec.decode Codec.banEntry p.content).value := by
    show (Codec.decode Codec.banList payload).value.1 = _
    rw [Codec.decode_value lenient_banList q.reading]
    exact Codec.get_nested hs .here rfl
  rw [hvalue, map_map]
  have heach := q.each
  generalize (q.reading.pieces.filter fun p => p.number = 1) = ps at heach ⊢
  generalize q.entries = es at heach ⊢
  induction heach with
  | nil => rfl
  | cons h _ ih =>
    obtain ⟨r, rfl⟩ := h
    rw [map_cons, ih]
    exact congrArg (· :: _) (ofValue_decode r)

theorem query_iff {payload : Bytes} (q : BanPayload text payload) :
    (Message.banList.unmarshal payload).value.2.1 = true ↔ q.query := by
  have hs : (Codec.banList.filterMap Codec.Field.number).Nodup := by decide
  have hvalue : (Message.banList.unmarshal payload).value.2.1 =
      (UInt64.ofNat (Codec.numberOf q.reading.pieces 2) != 0) := by
    show (Codec.decode Codec.banList payload).value.2.1 = _
    rw [Codec.decode_value lenient_banList q.reading]
    exact Codec.get_scalar hs (.there .here) rfl
  rw [hvalue, bne_iff_ne, BanPayload.query, ne_eq, ne_eq, ← UInt64.toNat_inj, UInt64.toNat_ofNat']
  rfl

theorem exists_banPayload (payload : Bytes) : Nonempty (BanPayload text payload) := by
  obtain ⟨r⟩ := Codec.exists_reading Codec.banList payload
  have hread := fun p : Piece Codec.banList => Codec.exists_reading Codec.banEntry p.content
  refine ⟨⟨r, (r.pieces.filter fun p => p.number = 1).map fun p =>
    entryOf text (hread p).some.pieces, ?_⟩⟩
  rw [forall₂_map_right_iff]
  exact forall₂_same.mpr fun p _ => ⟨(hread p).some, rfl⟩

end payload

section message
variable [LowerCase] (c : Clock) (text : Bytes → String)

/-- What `handleBanList` does to the list; `admitted` says that the sender is active, has a record
and may ban.  The error of `Unmarshal` is not looked at. -/
def handleBanList (admitted : Bool) (payload : Bytes) (s : Store) : Store :=
  let bl := (Message.banList.unmarshal payload).value
  if !admitted then s
  else if !bl.2.1 then (s.replace c (fun _ => false) (bl.1.map (ofValue text))).1
  else s

/-- Whatever the payload, it is a sequence of fields up to a first damage, which is there exactly if
it does not decode.  The list stays exactly when the sender may not ban, or the fields up to there
are a query, or the entries up to there are the list that is stored. -/
theorem handleBanList_unchanged_iff (admitted : Bool) (payload : Bytes) (rows : List Row) :
    Nonempty (BanPayload text payload) ∧ ∀ q : BanPayload text payload,
      ((Message.banList.unmarshal payload).error = none ↔ q.reading.rest = []) ∧
      (handleBanList c text admitted payload (.loaded rows) = .loaded rows ↔
        admitted = false ∨ q.query ∨ q.entries.map c.newRow = rows) := by
  refine ⟨exists_banPayload payload, fun q => ⟨Codec.decode_error_iff lenient_banList q.reading, ?_⟩⟩
  have hloaded : ∀ rows', Store.loaded rows' = .loaded rows ↔ rows' = rows :=
    fun rows' => ⟨congrArg Store.rows, congrArg Store.loaded⟩
  rw [← query_iff q, ← entries_eq q]
  unfold handleBanList
  cases admitted with
  | false => simp
  | true =>
    cases hquery : (Message.banList.unmarshal payload).value.2.1 with
    | true => simp [hquery]
    | false => simp [hquery, replace_never, hloaded]

end message

/-- A list that is cut after its first byte, and one with an entry that is, replace the bans. -/
theorem cut_ban_list_clears :
    (Message.banList.unmarshal [0x0A]).error ≠ none ∧
    handleBanList epoch (fun _ => "") true [0x0A] (.loaded [epoch.newRow plain]) = .loaded [] ∧
    handleBanList epoch (fun _ => "") true [0x0A, 0x01, 0x80] (.loaded [epoch.newRow plain]) =
      .loaded [epoch.newRow ⟨[], 0, "", "", "", "", 0⟩] := by
  decide +kernel

end MumbleServer.Bans
