import Mathlib.Data.Nat.Bitwise
import MumbleServer.ByteBlock

/-! # Bans

`internal/ban/manager.go` and the ban helpers of `internal/mumble/handlers.go`.  A ban names a
certificate or an address with a mask; a connection is refused if one of the bans in memory names
its certificate or covers its address.  A ban is made from what the server knows about a session
(`appendSessionBan`), and every change of the list writes the whole list to the database and reads
it back (`replace`).

Addresses are `net.IP` values, that is 4 or 16 bytes; an IPv4 address also has a 16-byte form
(`to4`).  The lower case of letters is a parameter, as is what the database gives back for a row,
which keeps what a ban is about. -/

namespace MumbleServer.Bans

open List

structure BanEntry where
  address : Bytes
  mask : UInt32
  name : String
  hash : String
  reason : String
  start : String
  duration : UInt32
deriving DecidableEq

/-- `unicode.ToLower`: what is in lower case stays. -/
class LowerCase where
  lower : Char → Char
  lower_lower : ∀ c, lower (lower c) = lower c

section letters
variable [LowerCase]

/-- `strings.ToLower`. -/
def toLower (s : String) : String := s.map LowerCase.lower

theorem toLower_toLower (s : String) : toLower (toLower s) = toLower s := by
  unfold toLower
  rw [String.map_map, show LowerCase.lower ∘ LowerCase.lower = LowerCase.lower from
    funext LowerCase.lower_lower]

/-- What is read back for a row that was written.  The column of the mask has a default, so a zero
may come back as something else; times are rounded. -/
structure Database where
  saved : BanEntry → BanEntry
  address_saved : ∀ e, (saved e).address = e.address
  name_saved : ∀ e, (saved e).name = e.name
  reason_saved : ∀ e, (saved e).reason = e.reason
  hash_saved : ∀ e, (saved e).hash = toLower e.hash
  mask_saved : ∀ e, e.mask ≠ 0 → (saved e).mask = e.mask

/-- `IP.To4`: the four bytes of an IPv4 address in either form. -/
def to4 (ip : Bytes) : Option Bytes :=
  if ip.length = 4 then some ip
  else if ip.length = 16 ∧ ip.take 12 = List.replicate 10 0 ++ [255, 255] then some (ip.drop 12)
  else none

/-- The loop of `matchAddr`, over the bytes that are left. -/
def matchLoop : ℕ → Bytes → Bytes → Bool
  | 0, _, _ => true
  | _ + 1, [], _ => true
  | _ + 1, _ :: _, [] => true
  | mask + 1, a :: addr, c :: ip4 =>
    let m : UInt8 := if mask + 1 < 8 then UInt8.ofNat (2 ^ (mask + 1) - 1) else 255
    if a &&& m ≠ c &&& m then false
    else matchLoop (mask + 1 - 8) addr ip4

def matchAddr (ip addr : Bytes) (mask : UInt32) : Bool :=
  match to4 ip with
  | some ip4 => decide (4 ≤ addr.length) && matchLoop mask.toNat (addr.take 4) ip4
  | none => false

/-- One round of `IsBanned`; `ip` is what `ParseIP` makes of the host. -/
def bans (ip : Option Bytes) (hash : String) (b : BanEntry) : Bool :=
  (b.hash != "" && hash != "" && b.hash == hash) ||
    (decide (0 < b.address.length) &&
      match ip with
      | some ip => matchAddr ip b.address b.mask
      | none => false)

/-- `IsBanned`, for the bans in memory. -/
def isBanned (list : List BanEntry) (ip : Option Bytes) (certHash : String) : Bool :=
  list.any (bans ip (toLower certHash))

/-- `Replace`: the new list, as it is read back. -/
def replace (db : Database) (list : List BanEntry) : List BanEntry :=
  list.map fun e => db.saved { e with hash := toLower e.hash }

/-- What a ban of a session is made from: its record, with the parsed address of the record or
else of its connection. -/
structure Target where
  name : String
  certHash : String
  ip : Option Bytes

def banEntry (now name reason : String) : BanEntry := ⟨[], 0, name, "", reason, now, 0⟩

def banEntryByCert (now name reason certHash : String) : BanEntry :=
  { banEntry now name reason with hash := toLower certHash }

def banEntryByIP (now name reason : String) (ip : Bytes) : BanEntry :=
  match to4 ip with
  | some ip4 => { banEntry now name reason with address := ip4, mask := 32 }
  | none => { banEntry now name reason with address := ip, mask := 128 }

/-- The entry that `appendSessionBan` appends, if any. -/
def sessionBan (now reason : String) (u : Target) : Option BanEntry :=
  if u.certHash ≠ "" then some (banEntryByCert now u.name reason u.certHash)
  else u.ip.map (banEntryByIP now u.name reason)

def appendSessionBan (list : List BanEntry) (now reason : String) (u : Target) : List BanEntry :=
  list ++ (sessionBan now reason u).toList

end letters

/-! ### What a mask means -/

/-- The bits of a byte, the most significant one first. -/
def bitsOf (b : UInt8) : List Bool := (List.range 8).map fun i => b.toNat.testBit (7 - i)

def bits (bs : Bytes) : List Bool := bs.flatMap bitsOf

/-- An address in its own family: four bytes for IPv4. -/
def ownFamily (ip : Bytes) : Bytes := (to4 ip).getD ip

/-- The addresses are of one family and their first `mask` bits are equal. -/
def Covers (addr : Bytes) (mask : UInt32) (ip : Bytes) : Prop :=
  (ownFamily addr).length = (ownFamily ip).length ∧
    (bits (ownFamily addr)).take mask.toNat = (bits (ownFamily ip)).take mask.toNat

instance (addr : Bytes) (mask : UInt32) (ip : Bytes) : Decidable (Covers addr mask ip) :=
  inferInstanceAs (Decidable (_ ∧ _))

/-- The `r` most significant bits are equal. -/
def SameHigh (r : ℕ) (a c : UInt8) : Prop := (bitsOf a).take r = (bitsOf c).take r

/-- The `r` least significant bits are equal. -/
def SameLow (r : ℕ) (a c : UInt8) : Prop := a.toNat % 2 ^ r = c.toNat % 2 ^ r

/-- The bytes that a mask covers whole are equal, and the one that it covers in part agrees. -/
def Agree (same : ℕ → UInt8 → UInt8 → Prop) (mask : ℕ) (a c : Bytes) : Prop :=
  a.take (mask / 8) = c.take (mask / 8) ∧
    (mask / 8 < a.length → same (mask % 8) (a.getD (mask / 8) 0) (c.getD (mask / 8) 0))

variable {as cs : Bytes}

section agree
variable {same : ℕ → UInt8 → UInt8 → Prop} {P : ℕ → Bytes → Bytes → Prop}

theorem agree_of_rounds (hnil : ∀ mask, P mask [] [])
    (hcons : ∀ mask a c as cs, P mask (a :: as) (c :: cs) ↔
      if mask < 8 then same mask a c else a = c ∧ P (mask - 8) as cs) (hlen : as.length = cs.length)
    (mask : ℕ) : P mask as cs ↔ Agree same mask as cs := by
  induction as generalizing cs mask with
  | nil =>
    have hcs : cs = [] := length_eq_zero_iff.mp hlen.symm
    subst hcs
    exact iff_of_true (hnil mask) ⟨by simp, by simp⟩
  | cons a as ih =>
    obtain ⟨c, cs, rfl⟩ := exists_cons_of_length_eq_add_one hlen.symm
    rw [hcons]
    by_cases hmask : mask < 8
    · rw [if_pos hmask]
      unfold Agree
      rw [Nat.div_eq_of_lt hmask, Nat.mod_eq_of_lt hmask]
      simp
    · obtain ⟨m, rfl⟩ : ∃ m, mask = m + 8 := ⟨mask - 8, by omega⟩
      rw [if_neg hmask, Nat.add_sub_cancel, ih (by simpa using hlen)]
      unfold Agree
      rw [Nat.add_div_right _ (by decide), Nat.add_mod_right]
      simp [and_assoc]

end agree

theorem length_bitsOf (b : UInt8) : (bitsOf b).length = 8 := by simp [bitsOf]

theorem bitsOf_injective {a c : UInt8} (h : bitsOf a = bitsOf c) : a = c := by
  apply UInt8.toNat_inj.mp
  apply Nat.eq_of_testBit_eq
  intro i
  by_cases hi : i < 8
  · have hget := congrArg (fun l => l[7 - i]?) h
    have hsub : 7 - (7 - i) = i := by omega
    have hlt : 7 - i < 8 := by omega
    simpa [bitsOf, hlt, hsub] using hget
  · have hpow : 2 ^ 8 ≤ 2 ^ i := Nat.pow_le_pow_right (by decide) (by omega)
    rw [Nat.testBit_lt_two_pow (lt_of_lt_of_le a.toNat_lt hpow),
      Nat.testBit_lt_two_pow (lt_of_lt_of_le c.toNat_lt hpow)]

theorem take_bits_iff (hlen : as.length = cs.length) (mask : ℕ) :
    (bits as).take mask = (bits cs).take mask ↔ Agree SameHigh mask as cs := by
  refine agree_of_rounds (P := fun mask as cs => (bits as).take mask = (bits cs).take mask)
    (fun _ => rfl) (fun mask a c as cs => ?_) hlen mask
  simp only [bits, flatMap_cons]
  by_cases hmask : mask < 8
  · have hfront : ∀ (b : UInt8) (rest : List Bool),
        (bitsOf b ++ rest).take mask = (bitsOf b).take mask := fun b rest =>
      take_append_of_le_length (by rw [length_bitsOf]; omega)
    rw [if_pos hmask, hfront, hfront]
    rfl
  · have hfull : ∀ (b : UInt8) (rest : List Bool),
        (bitsOf b ++ rest).take mask = bitsOf b ++ rest.take (mask - 8) := fun b rest => by
      have hall : (bitsOf b).take mask = bitsOf b :=
        take_of_length_le (by rw [length_bitsOf]; omega)
      rw [take_append, length_bitsOf, hall]
    rw [if_neg hmask, hfull, hfull]
    constructor
    · intro h
      have hinj := append_inj h (by rw [length_bitsOf, length_bitsOf])
      exact ⟨bitsOf_injective hinj.1, hinj.2⟩
    · rintro ⟨rfl, h⟩
      rw [h]

theorem and_mask_iff {r : ℕ} (hr : r < 8) (a c : UInt8) :
    a &&& UInt8.ofNat (2 ^ r - 1) = c &&& UInt8.ofNat (2 ^ r - 1) ↔ SameLow r a c := by
  have hpow : 2 ^ r ≤ 2 ^ 8 := Nat.pow_le_pow_right (by decide) hr.le
  have hm : (UInt8.ofNat (2 ^ r - 1)).toNat = 2 ^ r - 1 := by
    rw [UInt8.toNat_ofNat']
    exact Nat.mod_eq_of_lt (by omega)
  rw [← UInt8.toNat_inj, UInt8.toNat_and, UInt8.toNat_and, hm, Nat.and_two_pow_sub_one_eq_mod,
    Nat.and_two_pow_sub_one_eq_mod]
  rfl

/-- The loop compares the low bits of the byte that the mask covers in part. -/
theorem matchLoop_iff (hlen : as.length = cs.length) (mask : ℕ) :
    matchLoop mask as cs = true ↔ Agree SameLow mask as cs := by
  refine agree_of_rounds (P := fun mask as cs => matchLoop mask as cs = true)
    (fun mask => ?_) (fun mask a c as cs => ?_) hlen mask
  · cases mask <;> rfl
  · cases mask with
    | zero => simp [matchLoop, SameLow, Nat.mod_one]
    | succ m =>
      rw [matchLoop]
      by_cases hmask : m + 1 < 8
      · have h0 : m + 1 - 8 = 0 := by omega
        simp only [if_pos hmask, h0]
        have hand := and_mask_iff hmask a c
        by_cases h : a &&& UInt8.ofNat (2 ^ (m + 1) - 1) = c &&& UInt8.ofNat (2 ^ (m + 1) - 1)
        · simpa [h, matchLoop] using hand.mp h
        · simpa [h] using fun h' => h (hand.mpr h')
      · have hfull : ∀ a : UInt8, a &&& 255 = a := fun _ => UInt8.and_neg_one
        simp only [if_neg hmask, hfull]
        by_cases h : a = c <;> simp [h]

/-! ### The answer for an address -/

/-- An address has four or sixteen bytes. -/
def IsAddress (ip : Bytes) : Prop := ip.length = 4 ∨ ip.length = 16

variable {ip c : Bytes}

theorem length_to4 (h : to4 ip = some c) : c.length = 4 := by
  unfold to4 at h
  split_ifs at h with h₁ h₂
  · exact Option.some.inj h ▸ h₁
  · obtain rfl := Option.some.inj h
    rw [length_drop, h₂.1]

theorem to4_of_length {ip : Bytes} (h : ip.length = 4) : to4 ip = some ip := by
  rw [to4, if_pos h]

theorem covers_iff_of_to4 {addr ip a c : Bytes} (ha : to4 addr = some a) (hc : to4 ip = some c)
    (mask : UInt32) : Covers addr mask ip ↔ Agree SameHigh mask.toNat a c := by
  have hlen : a.length = c.length := (length_to4 ha).trans (length_to4 hc).symm
  rw [Covers, ownFamily, ownFamily, ha, hc]
  exact (and_iff_right hlen).trans (take_bits_iff hlen mask.toNat)

/-- The low bits that `matchAddr` compares in the last byte of a mask say as much as the high bits
that it should compare: the mask ends with a byte, or the bytes before differ anyway, or the last
byte happens to agree on both ends or on none. -/
def LowSuffices (mask : ℕ) (a c : Bytes) : Prop :=
  32 ≤ mask ∨ mask % 8 = 0 ∨ a.take (mask / 8) ≠ c.take (mask / 8) ∨
    (SameLow (mask % 8) (a.getD (mask / 8) 0) (c.getD (mask / 8) 0) ↔
      SameHigh (mask % 8) (a.getD (mask / 8) 0) (c.getD (mask / 8) 0))

/-- When `matchAddr` gives the right answer, by the families of the client and of the ban.  No ban
matches an IPv6 client; an address of sixteen bytes is compared with an IPv4 client by its first
four, which in the mapped form are zero. -/
def WellMatched (ip addr : Bytes) (mask : UInt32) : Prop :=
  match to4 ip, to4 addr with
  | none, none => ¬Covers addr mask ip
  | none, some _ => True
  | some c, none => ¬Agree SameLow mask.toNat (addr.take 4) c
  | some c, some a =>
    if addr.length = 4 then LowSuffices mask.toNat a c
    else Agree SameLow mask.toNat (addr.take 4) c ↔ Agree SameHigh mask.toNat a c

theorem same_zero (a c : UInt8) : SameLow 0 a c ↔ SameHigh 0 a c :=
  iff_of_true (by simp [SameLow, Nat.mod_one]) (by simp [SameHigh])

theorem agree_low_iff_high {mask : ℕ} {a c : Bytes} (ha : a.length = 4) :
    (Agree SameLow mask a c ↔ Agree SameHigh mask a c) ↔ LowSuffices mask a c := by
  unfold Agree LowSuffices
  rw [ha]
  by_cases hfull : 32 ≤ mask
  · have hnot : ¬mask / 8 < 4 := by omega
    simp [hfull, hnot]
  · have hlt : mask / 8 < 4 := by omega
    by_cases hbyte : mask % 8 = 0
    · simp [hbyte, same_zero]
    · by_cases hfront : a.take (mask / 8) = c.take (mask / 8)
      · simp [hfull, hbyte, hfront, hlt]
      · simp [hfront]

theorem length_of_to4_none {addr : Bytes} (haddr : IsAddress addr) (h : to4 addr = none) :
    addr.length = 16 := by
  rcases haddr with h4 | h16
  · rw [to4_of_length h4] at h
    cases h
  · exact h16

theorem not_covers_of_families {addr ip : Bytes} (haddr : IsAddress addr) (hip : IsAddress ip)
    (h : (to4 addr).isSome ≠ (to4 ip).isSome) (mask : UInt32) : ¬Covers addr mask ip := by
  rintro ⟨hlen, -⟩
  unfold ownFamily at hlen
  cases ha : to4 addr with
  | none =>
    cases hc : to4 ip with
    | none => simp [ha, hc] at h
    | some c =>
      rw [ha, hc, Option.getD_none, Option.getD_some, length_to4 hc,
        length_of_to4_none haddr ha] at hlen
      exact absurd hlen (by decide)
  | some a =>
    cases hc : to4 ip with
    | none =>
      rw [ha, hc, Option.getD_none, Option.getD_some, length_to4 ha,
        length_of_to4_none hip hc] at hlen
      exact absurd hlen (by decide)
    | some c => simp [ha, hc] at h

theorem matchAddr_of_to4 {ip addr c : Bytes} (hc : to4 ip = some c) (haddr : IsAddress addr)
    (mask : UInt32) :
    matchAddr ip addr mask = true ↔ Agree SameLow mask.toNat (addr.take 4) c := by
  have hlen : 4 ≤ addr.length := by
    rcases haddr with h | h <;> omega
  have htake : (addr.take 4).length = c.length := by
    rw [length_to4 hc, length_take]
    omega
  rw [← matchLoop_iff htake, matchAddr, hc]
  simp [hlen]

theorem matchAddr_of_v6 {ip : Bytes} (h : to4 ip = none) (addr : Bytes) (mask : UInt32) :
    matchAddr ip addr mask = false := by
  rw [matchAddr, h]

theorem wellMatched_iff {ip addr : Bytes} (hip : IsAddress ip) (haddr : IsAddress addr)
    (mask : UInt32) :
    (matchAddr ip addr mask = true ↔ Covers addr mask ip) ↔ WellMatched ip addr mask := by
  unfold WellMatched
  cases hc : to4 ip with
  | none =>
    cases ha : to4 addr with
    | none => simp [matchAddr_of_v6 hc]
    | some a => simp [matchAddr_of_v6 hc, not_covers_of_families haddr hip (by simp [ha, hc])]
  | some c =>
    rw [matchAddr_of_to4 hc haddr]
    cases ha : to4 addr with
    | none => simp [not_covers_of_families haddr hip (show _ ≠ _ by simp [ha, hc])]
    | some a =>
      rw [covers_iff_of_to4 ha hc]
      by_cases h4 : addr.length = 4
      · have hsame : a = addr := Option.some.inj (ha.symm.trans (to4_of_length h4))
        have htake : addr.take 4 = addr := take_of_length_le (by omega)
        simp only [if_pos h4, htake, hsame]
        exact agree_low_iff_high h4
      · simp only [if_neg h4]

/-! ### A session that was banned by its address -/

theorem matchAddr_self (h : to4 ip = some c) : matchAddr ip c 32 = true := by
  have hlen := length_to4 h
  rw [matchAddr_of_to4 h (Or.inl hlen), take_of_length_le (by omega)]
  exact ⟨rfl, fun hlt => absurd hlt (by rw [hlen]; decide)⟩

section banned
variable [LowerCase] (db : Database)

theorem toLower_empty : toLower "" = "" := String.map_eq_empty.mpr rfl

theorem isBanned_singleton {b : BanEntry} (hb : IsAddress b.address) (ip : Bytes) :
    isBanned [b] (some ip) "" = matchAddr ip b.address b.mask := by
  have hpos : 0 < b.address.length := by
    rcases hb with h | h <;> omega
  simp [isBanned, bans, toLower_empty, hpos]

/-- Without a certificate an IPv6 client is covered by no ban at all. -/
theorem isBanned_of_v6 {ip : Bytes} (h : to4 ip = none) (list : List BanEntry) :
    isBanned list (some ip) "" = false := by
  unfold isBanned
  rw [any_eq_false]
  intro b _
  simp [bans, matchAddr_of_v6 h, toLower_empty]

/-- The ban of a session without a certificate refuses an IPv4 client. -/
theorem isBanned_of_v4 (h : to4 ip = some c) {u : Target} (hcert : u.certHash = "")
    (hip : u.ip = some ip) (list : List BanEntry) (now reason : String) :
    isBanned (replace db (appendSessionBan list now reason u)) (some ip) "" = true := by
  have hban : sessionBan now reason u =
      some { banEntry now u.name reason with address := c, mask := 32 } := by
    simp [sessionBan, hcert, hip, banEntryByIP, h]
  unfold isBanned replace appendSessionBan
  rw [hban]
  simp only [map_append, any_append, Option.toList_some, map_cons, map_nil,
    any_cons, any_nil, Bool.or_false, Bool.or_eq_true]
  right
  have hlen := length_to4 h
  simp [bans, db.address_saved, db.mask_saved, matchAddr_self h, hlen]

end banned

/-- **Which bans by address work.**  A ban of an address gives the right answer exactly if
`WellMatched`, and a session without a certificate that is banned by its address is refused the
next time exactly if the address is an IPv4 one. -/
theorem address_bans [LowerCase] (db : Database) :
    (∀ (ip : Bytes) (b : BanEntry), IsAddress ip → IsAddress b.address →
      ((isBanned [b] (some ip) "" = true ↔ Covers b.address b.mask ip) ↔
        WellMatched ip b.address b.mask)) ∧
    ∀ (list : List BanEntry) (now reason : String) (u : Target) (ip : Bytes), u.certHash = "" →
      u.ip = some ip →
        (isBanned (replace db (appendSessionBan list now reason u)) (some ip) "" = true ↔
          (to4 ip).isSome = true) := by
  constructor
  · intro ip b hip hb
    rw [isBanned_singleton hb]
    exact wellMatched_iff hip hb b.mask
  · intro list now reason u ip hcert hip
    cases h : to4 ip with
    | none => simp [isBanned_of_v6 h]
    | some c => simp [isBanned_of_v4 db h hcert hip]

/-- The lower case of the letters of ASCII. -/
instance asciiLowerCase : LowerCase where
  lower := Char.toLower
  lower_lower c := by
    delta Char.toLower
    split_ifs <;> grind

/-- A database that gives back what was written. -/
def exactDatabase : Database where
  saved e := { e with hash := toLower e.hash }
  address_saved _ := rfl
  name_saved _ := rfl
  reason_saved _ := rfl
  hash_saved _ := rfl
  mask_saved _ _ := rfl

/-- The session at 192.0.2.1 is refused after its ban. -/
theorem address_bans_v4 :
    isBanned (replace exactDatabase
      (appendSessionBan [] "now" "reason" ⟨"user", "", some [192, 0, 2, 1]⟩))
      (some [192, 0, 2, 1]) "" = true :=
  ((address_bans exactDatabase).2 [] "now" "reason" ⟨"user", "", some [192, 0, 2, 1]⟩
    [192, 0, 2, 1] rfl rfl).mpr (by decide)

/-- The session at 2001:db8::1 is not, though the ban covers its address; and the ban 10.32.0.0/12
refuses 10.96.0.0 and not 10.33.0.0. -/
theorem address_bans_miss :
    (isBanned (replace exactDatabase
        (appendSessionBan [] "now" "reason"
          ⟨"user", "", some [32, 1, 13, 184, 0, 0, 0, 0, 0, 0, 0, 0, 0, 0, 0, 1]⟩))
        (some [32, 1, 13, 184, 0, 0, 0, 0, 0, 0, 0, 0, 0, 0, 0, 1]) "" = false ∧
      Covers [32, 1, 13, 184, 0, 0, 0, 0, 0, 0, 0, 0, 0, 0, 0, 1] 128
        [32, 1, 13, 184, 0, 0, 0, 0, 0, 0, 0, 0, 0, 0, 0, 1]) ∧
    (isBanned [⟨[10, 32, 0, 0], 12, "net", "", "reason", "now", 0⟩] (some [10, 96, 0, 0]) "" = true ∧
      ¬Covers [10, 32, 0, 0] 12 [10, 96, 0, 0]) ∧
    isBanned [⟨[10, 32, 0, 0], 12, "net", "", "reason", "now", 0⟩] (some [10, 33, 0, 0]) "" = false ∧
      Covers [10, 32, 0, 0] 12 [10, 33, 0, 0] := by
  decide +kernel

end MumbleServer.Bans
