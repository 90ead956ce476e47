import Mathlib.Data.List.Basic
import Mathlib.Tactic.Ring
import Mathlib.Algebra.Order.Group.Int

/-! # Times and their RFC 3339 texts

`time.Parse` and `Format` of Go's standard library for the layout RFC 3339.  A time is kept as it
is shown: the date, the time of day, and the offset of the zone in minutes.  `Parse` also takes a
fraction of a second, which the layout does not have, an hour of one digit, and offsets of up to 24
hours and 60 minutes; `Format` writes whole seconds, and `Z` for the offset zero.

`Stamp` has the texts of the RFC 3339 grammar; `format_parse_iff` says which of them are the same
after they were parsed, stored and formatted. -/

namespace MumbleServer.Times

open List

/-! ### Times -/

def isLeap (year : ℕ) : Bool := year % 4 = 0 && (year % 100 ≠ 0 || year % 400 = 0)

def daysIn (month year : ℕ) : ℕ :=
  if month = 2 then if isLeap year then 29 else 28
  else if month = 4 ∨ month = 6 ∨ month = 9 ∨ month = 11 then 30
  else 31

/-- The numbers of a date and a time of day. -/
structure Civil where
  year : ℕ
  month : ℕ
  day : ℕ
  hour : ℕ
  minute : ℕ
  second : ℕ
deriving DecidableEq

/-- They name a moment of the calendar. -/
def Civil.Exists (d : Civil) : Prop :=
  d.year < 10000 ∧ (1 ≤ d.month ∧ d.month ≤ 12) ∧ (1 ≤ d.day ∧ d.day ≤ daysIn d.month d.year) ∧
    d.hour < 24 ∧ d.minute < 60 ∧ d.second < 60

instance (d : Civil) : Decidable d.Exists := inferInstanceAs (Decidable (_ ∧ _))

structure Time where
  civil : Civil
  nano : ℕ
  zone : ℤ
  exist : civil.Exists
  zone_le : zone.natAbs ≤ 1500
deriving DecidableEq

/-- The zero value of a time. -/
def zeroTime : Time := ⟨⟨1, 1, 1, 0, 0, 0⟩, 0, 0, by decide, by decide⟩

/-- The days from the first of January of the year 0 to a date. -/
def Civil.days (d : Civil) : ℕ :=
  365 * d.year + (d.year + 3) / 4 - (d.year + 99) / 100 + (d.year + 399) / 400 +
    ((List.range (d.month - 1)).map fun m => daysIn (m + 1) d.year).sum + (d.day - 1)

/-- `UnixNano`. -/
def Time.unixNano (t : Time) : ℤ :=
  (((((t.civil.days : ℤ) - 719528) * 24 + t.civil.hour) * 60 + t.civil.minute - t.zone) * 60 +
    t.civil.second) * 10 ^ 9 + t.nano

/-! ### Texts -/

/-- A number in two digits. -/
def two (n : ℕ) : List Char := [Nat.digitChar (n / 10 % 10), Nat.digitChar (n % 10)]

/-- The date and the time of day. -/
def Civil.text (d : Civil) : List Char :=
  two (d.year / 100) ++ two d.year ++ '-' :: two d.month ++ '-' :: two d.day ++ 'T' ::
    two d.hour ++ ':' :: two d.minute ++ ':' :: two d.second

def signedText (west : Bool) (hour minute : ℕ) : List Char :=
  (if west then '-' else '+') :: two hour ++ ':' :: two minute

def zoneText (zone : ℤ) : List Char :=
  if zone = 0 then ['Z'] else signedText (zone < 0) (zone.natAbs / 60) (zone.natAbs % 60)

/-- `Format`. -/
def Time.format (t : Time) : String := String.ofList (t.civil.text ++ zoneText t.zone)

/-! ### Parsing -/

def digit (c : Char) : ℕ := c.toNat - '0'.toNat

/-- `k` digits. -/
def digits : ℕ → ℕ → List Char → Option (ℕ × List Char)
  | 0, n, cs => some (n, cs)
  | _ + 1, _, [] => none
  | k + 1, n, c :: cs => if c.isDigit then digits k (10 * n + digit c) cs else none

def expect (c : Char) : List Char → Option (List Char)
  | [] => none
  | d :: cs => if d = c then some cs else none

/-- An hour of one or two digits. -/
def hourOf (cs : List Char) : Option (ℕ × List Char) :=
  if ((cs.drop 1).head?.map Char.isDigit).getD false then digits 2 0 cs else digits 1 0 cs

/-- A fraction of a second, of which nine digits count. -/
def fraction (cs : List Char) : ℕ × List Char :=
  match cs with
  | p :: d :: rest =>
    if (p = '.' ∨ p = ',') ∧ d.isDigit then
      let ds := ((d :: rest).takeWhile Char.isDigit).take 9
      (ds.foldl (fun n c => 10 * n + digit c) 0 * 10 ^ (9 - ds.length),
        (d :: rest).dropWhile Char.isDigit)
    else (0, cs)
  | _ => (0, cs)

def zoneOf (cs : List Char) : Option ℤ :=
  match cs with
  | ['Z'] => some 0
  | sign :: rest => do
    let (hour, rest) ← digits 2 0 rest
    let rest ← expect ':' rest
    let (minute, rest) ← digits 2 0 rest
    if rest = [] ∧ hour ≤ 24 ∧ minute ≤ 60 then
      if sign = '+' then some (60 * hour + minute)
      else if sign = '-' then some (-(60 * hour + minute))
      else none
    else none
  | [] => none

def civilOf (cs : List Char) : Option (Civil × List Char) := do
  let (year, cs) ← digits 4 0 cs
  let cs ← expect '-' cs
  let (month, cs) ← digits 2 0 cs
  let cs ← expect '-' cs
  let (day, cs) ← digits 2 0 cs
  let cs ← expect 'T' cs
  let (hour, cs) ← hourOf cs
  let cs ← expect ':' cs
  let (minute, cs) ← digits 2 0 cs
  let cs ← expect ':' cs
  let (second, cs) ← digits 2 0 cs
  some (⟨year, month, day, hour, minute, second⟩, cs)

/-- `Parse`, which returns the zero time with an error. -/
def parse (text : String) : Time :=
  match civilOf text.toList with
  | none => zeroTime
  | some (civil, cs) =>
    let (nano, cs) := fraction cs
    match zoneOf cs with
    | none => zeroTime
    | some zone =>
      if h : civil.Exists ∧ zone.natAbs ≤ 1500 then ⟨civil, nano, zone, h.1, h.2⟩ else zeroTime

/-! ### The texts that come back -/

/-- The offset at the end of a text. -/
inductive Offset
  | utc
  | signed (west : Bool) (hour minute : ℕ)

def Offset.text : Offset → List Char
  | .utc => ['Z']
  | .signed west hour minute => signedText west hour minute

/-- The minutes that it stands for. -/
def Offset.zone : Offset → ℤ
  | .utc => 0
  | .signed west hour minute => if west then -(60 * hour + minute) else 60 * hour + minute

/-- Every number has the digits that the grammar gives it. -/
def Offset.Sized : Offset → Prop
  | .utc => True
  | .signed _ hour minute => hour < 100 ∧ minute < 100

def Civil.Sized (d : Civil) : Prop :=
  d.year < 10000 ∧ d.month < 100 ∧ d.day < 100 ∧ d.hour < 100 ∧ d.minute < 100 ∧ d.second < 100

def fractionText (ds : List (Fin 10)) : List Char :=
  if ds = [] then [] else '.' :: ds.map fun d => Nat.digitChar d

/-- A text of the RFC 3339 grammar. -/
structure Stamp where
  civil : Civil
  frac : List (Fin 10)
  offset : Offset
  civil_sized : civil.Sized
  offset_sized : offset.Sized

def Stamp.text (s : Stamp) : String :=
  String.ofList (s.civil.text ++ (fractionText s.frac ++ s.offset.text))

theorem Stamp.text_ne_empty (s : Stamp) : s.text ≠ "" := by
  have hlen : (s.civil.text ++ (fractionText s.frac ++ s.offset.text)).length ≠ 0 := by
    simp [Civil.text]
  intro h
  rw [Stamp.text, ← String.ofList_nil] at h
  exact hlen (by rw [String.ofList_injective h]; rfl)

/-- The offset is written as `Format` writes it, and one that `Parse` takes. -/
def Offset.Plain : Offset → Prop
  | .utc => True
  | .signed _ hour minute => hour ≤ 24 ∧ minute < 60 ∧ 0 < 60 * hour + minute

/-- A moment of the calendar in whole seconds, with a plain offset. -/
def Stamp.Plain (s : Stamp) : Prop := s.civil.Exists ∧ s.frac = [] ∧ s.offset.Plain

theorem digit_digitChar {n : ℕ} (h : n < 10) :
    (Nat.digitChar n).isDigit = true ∧ digit (Nat.digitChar n) = n := by
  have hall : ∀ n : Fin 10, (Nat.digitChar n).isDigit = true ∧ digit (Nat.digitChar n) = n := by
    decide
  exact hall ⟨n, h⟩

theorem two_injective {m n : ℕ} (h : two m = two n) : m % 100 = n % 100 := by
  simp only [two, cons.injEq, and_true] at h
  have htens := congrArg digit h.1
  have hunits := congrArg digit h.2
  rw [(digit_digitChar (by omega)).2, (digit_digitChar (by omega)).2] at htens hunits
  omega

theorem Civil.length_text (d : Civil) : d.text.length = 19 := by simp [Civil.text, two]

theorem Civil.text_injective {d e : Civil} (hd : d.Sized) (he : e.Sized) (h : d.text = e.text) :
    d = e := by
  have hparts : two (d.year / 100) = two (e.year / 100) ∧ two d.year = two e.year ∧
      two d.month = two e.month ∧ two d.day = two e.day ∧ two d.hour = two e.hour ∧
      two d.minute = two e.minute ∧ two d.second = two e.second := by
    simpa [Civil.text, two, and_assoc] using h
  unfold Civil.Sized at hd he
  obtain ⟨hc, hy, hmo, hda, hho, hmi, hse⟩ := hparts
  have := two_injective hc
  have := two_injective hy
  have := two_injective hmo
  have := two_injective hda
  have := two_injective hho
  have := two_injective hmi
  have := two_injective hse
  cases d
  cases e
  simp only [Civil.mk.injEq] at *
  omega

theorem digits_two {n : ℕ} (hn : n < 100) (k acc : ℕ) (cs : List Char) :
    digits (k + 2) acc (two n ++ cs) = digits k (100 * acc + n) cs := by
  obtain ⟨hd, hv⟩ := digit_digitChar (show n / 10 % 10 < 10 by omega)
  obtain ⟨hd', hv'⟩ := digit_digitChar (show n % 10 < 10 by omega)
  simp only [two, cons_append, nil_append, digits, hd, hd', hv, hv', if_true]
  congr 1
  omega

theorem digits_pair {n : ℕ} (hn : n < 100) (cs : List Char) :
    digits 2 0 (two n ++ cs) = some (n, cs) := by
  rw [digits_two hn, digits]
  simp

theorem civilOf_text {d : Civil} (hd : d.Sized) (rest : List Char) :
    civilOf (d.text ++ rest) = some (d, rest) := by
  obtain ⟨hy, hmo, hda, hho, hmi, hse⟩ := hd
  have hyear : ∀ cs, digits 4 0 (two (d.year / 100) ++ (two d.year ++ cs)) = some (d.year, cs) := by
    intro cs
    have hlow : two d.year = two (d.year % 100) := by
      unfold two
      rw [show d.year / 10 % 10 = d.year % 100 / 10 % 10 by omega,
        show d.year % 10 = d.year % 100 % 10 by omega]
    rw [digits_two (by omega), hlow, digits_two (by omega), digits]
    congr 2
    omega
  have hhour : ∀ cs, hourOf (two d.hour ++ cs) = some (d.hour, cs) := by
    intro cs
    have hdigit := (digit_digitChar (show d.hour % 10 < 10 by omega)).1
    have hsecond : (((two d.hour ++ cs).drop 1).head?.map Char.isDigit).getD false = true := by
      simpa [two] using hdigit
    rw [hourOf, if_pos hsecond, digits_pair hho]
  simp only [civilOf, Civil.text, append_assoc, cons_append, hyear, Option.bind_some, bind, expect,
    if_true, digits_pair hmo, digits_pair hda, hhour, digits_pair hmi, digits_pair hse]

theorem zoneOf_signed (west : Bool) {hour minute : ℕ} (hh : hour < 100) (hm : minute < 100) :
    zoneOf (signedText west hour minute) =
      if hour ≤ 24 ∧ minute ≤ 60 then some (Offset.signed west hour minute).zone else none := by
  have hend := digits_pair hm []
  rw [append_nil] at hend
  cases west <;> simp [zoneOf, signedText, digits_pair hh, expect, hend, Offset.zone]

/-- A plain offset is parsed, and written as it was. -/
theorem Offset.Plain.zone {o : Offset} (h : o.Plain) :
    zoneOf o.text = some o.zone ∧ zoneText o.zone = o.text ∧ o.zone.natAbs < 1500 := by
  cases o with
  | utc => exact ⟨rfl, rfl, by decide⟩
  | signed west hour minute =>
    obtain ⟨hh, hm, hpos⟩ := h
    have habs : (signed west hour minute).zone.natAbs = 60 * hour + minute := by
      cases west <;> simp [Offset.zone] <;> omega
    have hwest : decide ((signed west hour minute).zone < 0) = west := by
      cases west <;> simp [Offset.zone] <;> omega
    refine ⟨?_, ?_, by omega⟩
    · rw [Offset.text, zoneOf_signed west (by omega) (by omega), if_pos (by omega)]
    · rw [zoneText, if_neg (by omega), hwest, habs, show (60 * hour + minute) / 60 = hour by omega,
        show (60 * hour + minute) % 60 = minute by omega]
      rfl

theorem fraction_offset (o : Offset) : fraction o.text = (0, o.text) := by
  cases o with
  | utc => rfl
  | signed west hour minute => cases west <;> simp [fraction, Offset.text, signedText, two]

/-- What `Parse` makes of a text in whole seconds. -/
theorem parse_text {s : Stamp} (hfrac : s.frac = []) :
    parse s.text = match zoneOf s.offset.text with
      | none => zeroTime
      | some zone =>
        if h : s.civil.Exists ∧ zone.natAbs ≤ 1500 then ⟨s.civil, 0, zone, h.1, h.2⟩
        else zeroTime := by
  unfold parse Stamp.text
  rw [hfrac, String.toList_ofList, civilOf_text s.civil_sized]
  simp only [fractionText, if_true, nil_append, fraction_offset]

theorem Civil.Exists.sized {d : Civil} (h : d.Exists) : d.Sized := by
  have hdays : daysIn d.month d.year ≤ 31 := by
    unfold daysIn
    split_ifs <;> omega
  unfold Civil.Exists at h
  unfold Civil.Sized
  omega

/-- A text that `Format` writes is in whole seconds, and its offset is written in one way. -/
theorem zoneText_eq {zone : ℤ} (hz : zone.natAbs ≤ 1500) {ds : List (Fin 10)} {o : Offset}
    (ho : o.Sized) (h : zoneText zone = fractionText ds ++ o.text) :
    ds = [] ∧ ∀ west hour minute, o = .signed west hour minute →
      zone ≠ 0 ∧ hour = zone.natAbs / 60 ∧ minute = zone.natAbs % 60 := by
  have hds : ds = [] := by
    by_contra hne
    have hhead := congrArg List.head? h
    unfold zoneText signedText at hhead
    rw [fractionText, if_neg hne] at hhead
    split_ifs at hhead <;> simp at hhead
  refine ⟨hds, ?_⟩
  rintro west hour minute rfl
  obtain ⟨hh, hm⟩ := ho
  rw [hds, fractionText, if_pos rfl, nil_append, zoneText] at h
  split_ifs at h with h0
  · simp [Offset.text, signedText] at h
  · have hparts : two (zone.natAbs / 60) = two hour ∧ two (zone.natAbs % 60) = two minute := by
      simpa [two, and_assoc] using (List.cons.inj h).2
    have hhour := two_injective hparts.1
    have hminute := two_injective hparts.2
    exact ⟨h0, by omega, by omega⟩

/-- **Which texts come back.**  The texts of moments of the calendar in whole seconds, with an
offset as `Format` writes it, whatever is done to other times in between. -/
theorem format_parse_iff {stored : Time → Time}
    (hstored : ∀ t, t.nano = 0 → t.zone.natAbs < 1500 → stored t = t) (s : Stamp) :
    (stored (parse s.text)).format = s.text ↔ s.Plain := by
  constructor
  · intro h
    have hlist : (stored (parse s.text)).civil.text ++ zoneText (stored (parse s.text)).zone =
        s.civil.text ++ (fractionText s.frac ++ s.offset.text) := String.ofList_injective h
    obtain ⟨hcivil, hzone⟩ := append_inj hlist (by rw [Civil.length_text, Civil.length_text])
    have hexists : s.civil.Exists :=
      Civil.text_injective (stored (parse s.text)).exist.sized s.civil_sized hcivil ▸
        (stored (parse s.text)).exist
    obtain ⟨hfrac, hoffset⟩ := zoneText_eq (stored (parse s.text)).zone_le s.offset_sized hzone
    refine ⟨hexists, hfrac, ?_⟩
    cases ho : s.offset with
    | utc => trivial
    | signed west hour minute =>
      obtain ⟨hne, hhour, hminute⟩ := hoffset west hour minute ho
      obtain ⟨hh, hm⟩ : hour < 100 ∧ minute < 100 := by
        simpa [ho, Offset.Sized] using s.offset_sized
      refine ⟨?_, by omega, by omega⟩
      by_contra h24
      -- an offset of more than 24 hours does not parse, and the zero time is in UTC
      have hparse := parse_text hfrac
      rw [ho, Offset.text, zoneOf_signed west hh hm, if_neg (by omega)] at hparse
      rw [hparse, hstored zeroTime rfl (by decide)] at hne
      exact hne rfl
  · rintro ⟨hexists, hfrac, hplain⟩
    obtain ⟨hzone, htext, hlt⟩ := hplain.zone
    have hparse : parse s.text = ⟨s.civil, 0, s.offset.zone, hexists, hlt.le⟩ := by
      rw [parse_text hfrac, hzone]
      exact dif_pos ⟨hexists, hlt.le⟩
    rw [hparse, hstored _ rfl hlt, Time.format, Stamp.text, htext, hfrac, fractionText, if_pos rfl,
      nil_append]

/-- What `Format` writes is such a text. -/
theorem exists_stamp (t : Time) : ∃ s : Stamp, t.format = s.text := by
  by_cases hz : t.zone = 0
  · refine ⟨⟨t.civil, [], .utc, t.exist.sized, trivial⟩, ?_⟩
    rw [Time.format, zoneText, if_pos hz]
    rfl
  · have hle := t.zone_le
    refine ⟨⟨t.civil, [], .signed (t.zone < 0) (t.zone.natAbs / 60) (t.zone.natAbs % 60),
      t.exist.sized, by constructor <;> omega⟩, ?_⟩
    rw [Time.format, zoneText, if_neg hz]
    rfl

end MumbleServer.Times
