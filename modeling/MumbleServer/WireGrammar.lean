import Mathlib.Data.Nat.Bitwise
import Mathlib.Tactic.Ring
import MumbleServer.Wire

/-! # What stands on the wire

The grammar of the wire format, apart from the readers of `Wire`: a varint is a run of bytes with
the top bit set and one byte without it, at most ten in all (`IsVarint`); a field is a tag and a
value that is delimited by the wire type of the tag (`RawField`).  The readers take exactly one
varint, one tag or one value from the front of the bytes, and they fail on a varint or a value
that is cut short.

The second half is the writers of `pkg/mumble/protocol/wire/wire.go`, whose output is of this
form. -/

namespace MumbleServer.Wire

open List UInt64
variable {k : ℕ} {i : ℕ} {bs : List UInt8} {n w : ℕ}

/-! ### Varints -/

/-- A varint of at most `k` bytes. -/
def isVarint : ℕ → List UInt8 → Bool
  | 0, _ => false
  | _ + 1, [] => false
  | k + 1, c :: b => if c < 0x80 then b.isEmpty else isVarint k b

def IsVarint (b : List UInt8) : Prop := isVarint 10 b = true

instance (b : List UInt8) : Decidable (IsVarint b) := inferInstanceAs (Decidable (_ = _))

/-- The number that the bytes of a varint stand for, before it is cut to 64 bits. -/
def varintVal : List UInt8 → ℕ
  | [] => 0
  | c :: b => c.toNat % 128 + 128 * varintVal b

theorem low7 (c : UInt8) : (c &&& 0x7F).toUInt64.toNat = c.toNat % 128 := by
  rw [UInt8.toNat_toUInt64, UInt8.toNat_and, show (0x7F : UInt8).toNat = 2 ^ 7 - 1 from rfl,
    Nat.and_two_pow_sub_one_eq_mod]

theorem toNat_shiftLeft_ofNat (x : UInt64) (hk : k < 64) :
    (x <<< UInt64.ofNat k).toNat = 2 ^ k * (x.toNat % 2 ^ (64 - k)) := by
  have hk' : (UInt64.ofNat k).toNat % 64 = k := by
    rw [UInt64.toNat_ofNat', Nat.mod_mod_of_dvd _ (by decide)]
    exact Nat.mod_eq_of_lt hk
  have hpow : 2 ^ 64 = 2 ^ k * 2 ^ (64 - k) := (pow_mul_pow_sub 2 hk.le).symm
  rw [UInt64.toNat_shiftLeft, hk', Nat.shiftLeft_eq, Nat.mul_comm, hpow, Nat.mul_mod_mul_left]

variable {x : UInt64}

/-- A round of the loop adds the bits of its byte above those it has. -/
theorem toNat_or_shift (hi : i < 10) (hx : x.toNat < 128 ^ i) (c : UInt8) :
    (x ||| ((c &&& 0x7F).toUInt64 <<< UInt64.ofNat (7 * i))).toNat =
      (x.toNat + 128 ^ i * (c.toNat % 128)) % 2 ^ 64 := by
  have hbase : (128 : ℕ) ^ i = 2 ^ (7 * i) := by rw [Nat.pow_mul]
  have hpow : 2 ^ 64 = 2 ^ (7 * i) * 2 ^ (64 - 7 * i) := (pow_mul_pow_sub 2 (by omega)).symm
  rw [hbase] at hx ⊢
  rw [UInt64.toNat_or, toNat_shiftLeft_ofNat _ (by omega), low7, Nat.or_comm,
    ← Nat.two_pow_add_eq_or_of_lt hx, Nat.add_comm x.toNat, hpow, Nat.mod_mul, Nat.mul_add_mod,
    Nat.mod_eq_of_lt hx, Nat.mul_add_div (Nat.two_pow_pos _), Nat.div_eq_of_lt hx, Nat.add_zero,
    Nat.add_comm]

theorem toNat_or_shift_lt (hi : i < 9) (hx : x.toNat < 128 ^ i) (c : UInt8) :
    (x ||| ((c &&& 0x7F).toUInt64 <<< ofNat (7 * i))).toNat < 128 ^ (i + 1) := by
  rw [toNat_or_shift (by omega) hx]
  refine lt_of_le_of_lt (Nat.mod_le _ _) ?_
  have hc : c.toNat % 128 ≤ 127 := by omega
  have hmul : 128 ^ i * (c.toNat % 128) ≤ 128 ^ i * 127 := Nat.mul_le_mul_left _ hc
  rw [Nat.pow_succ]
  omega

attribute [local simp] isVarint

theorem readVarintFrom_of_isVarint (h : isVarint k bs = true) (hik : i + k = 10)
    (hx : x.toNat < 128 ^ i) (rest : List UInt8) :
    readVarintFrom i x (bs ++ rest) = .ok (ofNat (x.toNat + 128 ^ i * varintVal bs), rest) := by
  induction k generalizing bs i x with
  | zero => simp at h
  | succ k ih =>
    cases bs with
    | nil => simp at h
    | cons c b =>
      have hstep := toNat_or_shift (show i < 10 by omega) hx c
      rw [cons_append, readVarintFrom, if_neg (by omega)]
      simp only
      by_cases hc : c < 0x80
      · have hb : b = [] := by simpa [hc] using h
        subst hb
        rw [if_pos hc, nil_append]
        congr 2
        apply UInt64.toNat_inj.mp
        rw [hstep, UInt64.toNat_ofNat']
        simp [varintVal]
      · have hb : isVarint k b = true := by simpa [hc] using h
        have hi : i < 9 := by
          by_contra hi
          obtain rfl : k = 0 := by omega
          simp at hb
        have hlt := toNat_or_shift_lt hi hx c
        have hsmall : x.toNat + 128 ^ i * (c.toNat % 128) < 2 ^ 64 := by
          have hc7 : c.toNat % 128 ≤ 127 := by omega
          have hmul : 128 ^ i * (c.toNat % 128) ≤ 128 ^ i * 127 := Nat.mul_le_mul_left _ hc7
          have hpow : (128 : ℕ) ^ i ≤ 128 ^ 8 := Nat.pow_le_pow_right (by decide) (by omega)
          omega
        rw [if_neg hc, ih hb (by omega) hlt, hstep, Nat.mod_eq_of_lt hsmall, varintVal]
        congr 3
        ring

theorem readVarint_of_isVarint (h : IsVarint bs) (rest : List UInt8) :
    readVarint (bs ++ rest) = .ok (ofNat (varintVal bs), rest) := by
  have hread := readVarintFrom_of_isVarint h rfl (show (0 : UInt64).toNat < 128 ^ 0 by decide) rest
  simpa [readVarint] using hread

theorem readVarintFrom_of_cut {bs more : List UInt8} (h : isVarint k (bs ++ more) = true)
    (hmore : more ≠ []) (hik : i + k = 10) (x : UInt64) :
    ∃ e, readVarintFrom i x bs = .error e := by
  induction k generalizing bs i x with
  | zero => simp at h
  | succ k ih =>
    cases bs with
    | nil => exact ⟨_, rfl⟩
    | cons c b =>
      rw [readVarintFrom, if_neg (by omega)]
      by_cases hc : c < 0x80
      · exact absurd h (by simp [hc, hmore])
      · simp only [if_neg hc]
        exact ih (by simpa [hc] using h) (by omega) _

theorem readVarint_of_cut {bs more : List UInt8} (h : IsVarint (bs ++ more)) (hmore : more ≠ []) :
    ∃ e, readVarint bs = .error e :=
  readVarintFrom_of_cut h hmore rfl 0

theorem IsVarint.ne_nil (h : IsVarint bs) : bs ≠ [] := by
  rintro rfl
  exact absurd h (by decide)

/-! ### Fields -/

/-- The bytes are a tag with this field number and this wire type. -/
def IsTag (number wireType : ℕ) (b : List UInt8) : Prop :=
  IsVarint b ∧ varintVal b % 2 ^ 64 = 8 * number + wireType ∧ wireType < 8

/-- The bytes are a value of this wire type with this content. -/
inductive IsValue : ℕ → List UInt8 → List UInt8 → Prop
  | varint {b : List UInt8} (h : IsVarint b) : IsValue 0 b b
  | fixed64 {b : List UInt8} (h : b.length = 8) : IsValue 1 b b
  | bytes {l data : List UInt8} (h : IsVarint l) (hl : varintVal l % 2 ^ 64 = data.length) :
      IsValue 2 (l ++ data) data
  | fixed32 {b : List UInt8} (h : b.length = 4) : IsValue 5 b b

theorem IsTag.append_ne_nil {tag rest : List UInt8} (h : IsTag n w tag) : tag ++ rest ≠ [] :=
  append_ne_nil_of_left_ne_nil h.1.ne_nil _

structure RawField where
  number : ℕ
  wireType : ℕ
  tag : List UInt8
  value : List UInt8
  content : List UInt8
  isTag : IsTag number wireType tag
  isValue : IsValue wireType value content

def RawField.bytes (f : RawField) : List UInt8 := f.tag ++ f.value

theorem RawField.bytes_append_ne_nil (f : RawField) (rest : List UInt8) : f.bytes ++ rest ≠ [] := by
  rw [RawField.bytes, append_assoc]
  exact f.isTag.append_ne_nil

def flat (fs : List RawField) : List UInt8 := fs.flatMap RawField.bytes

@[simp] theorem flat_cons (f : RawField) (fs : List RawField) : flat
    (f :: fs) = f.bytes ++ flat fs :=
  rfl

@[simp] theorem flat_append (fs gs : List RawField) : flat (fs ++ gs) = flat fs ++ flat gs :=
  flatMap_append

theorem readTag_of_isTag {tag : List UInt8} (h : IsTag n w tag) (rest : List UInt8) :
    readTag (tag ++ rest) = .ok ((n, w), rest) := by
  obtain ⟨hv, hval, hw⟩ := h
  have hnat : (ofNat (varintVal tag)).toNat = 8 * n + w := by
    rw [toNat_ofNat', hval]
  have hn : (UInt64.ofNat (varintVal tag) >>> 3).toNat = n := by
    rw [UInt64.toNat_shiftRight, hnat, show (3 : UInt64).toNat % 64 = 3 from rfl,
      Nat.shiftRight_eq_div_pow]
    omega
  have hwt : (UInt64.ofNat (varintVal tag) &&& 7).toNat = w := by
    rw [UInt64.toNat_and, hnat, show (7 : UInt64).toNat = 2 ^ 3 - 1 from rfl,
      Nat.and_two_pow_sub_one_eq_mod]
    omega
  unfold readTag
  rw [readVarint_of_isVarint hv]
  simp only [bind, Except.bind, hn, hwt]

theorem readTag_of_cut {tag more : List UInt8} (h : IsTag n w (tag ++ more))
    (hmore : more ≠ []) : ∃ e, readTag tag = .error e := by
  obtain ⟨e, he⟩ := readVarint_of_cut h.1 hmore
  exact ⟨e, by unfold readTag; rw [he]; rfl⟩

theorem take_append {n : ℕ} {v : List UInt8} (h : v.length = n) (rest : List UInt8) :
    take n (v ++ rest) = .ok (v, rest) := by
  unfold take
  rw [if_neg (by rw [length_append]; omega), take_left' h, drop_left' h]

theorem take_of_short {n : ℕ} {b : List UInt8} (h : b.length < n) :
    take n b = .error .bufferTooShort := by
  unfold take
  rw [if_pos h]

theorem readLengthDelimited_of_isValue {l data : List UInt8} (h : IsVarint l)
    (hl : varintVal l % 2 ^ 64 = data.length) (rest : List UInt8) :
    readLengthDelimited (l ++ data ++ rest) = .ok (data, rest) := by
  unfold readLengthDelimited
  rw [append_assoc, readVarint_of_isVarint h]
  simp only [bind, Except.bind]
  exact take_append (by rw [toNat_ofNat', hl]) rest

theorem readLengthDelimited_of_cut {l data b more : List UInt8} (h : IsVarint l)
    (hl : varintVal l % 2 ^ 64 = data.length) (hb : l ++ data = b ++ more) (hmore : more ≠ []) :
    ∃ e, readLengthDelimited b = .error e := by
  rcases append_eq_append_iff.mp hb with ⟨b', rfl, hdata⟩ | ⟨l', rfl, -⟩
  · -- the length is there and the data is short
    refine ⟨.bufferTooShort, ?_⟩
    unfold readLengthDelimited
    rw [readVarint_of_isVarint h]
    simp only [bind, Except.bind]
    apply take_of_short
    rw [toNat_ofNat', hl, hdata, length_append]
    have := length_pos_iff.mpr hmore
    omega
  · by_cases hl' : l' = []
    · subst hl'
      refine ⟨.bufferTooShort, ?_⟩
      unfold readLengthDelimited
      rw [append_nil] at h hl
      have hb0 : b = b ++ [] := (append_nil b).symm
      rw [hb0, readVarint_of_isVarint h]
      simp only [bind, Except.bind]
      apply take_of_short
      rw [toNat_ofNat', hl]
      have hlen := congrArg List.length hb
      simp only [append_nil, length_append] at hlen
      have := length_pos_iff.mpr hmore
      simp only [length_nil]
      omega
    · obtain ⟨e, he⟩ := readVarint_of_cut h hl'
      exact ⟨e, by unfold readLengthDelimited; rw [he]; rfl⟩

theorem skipField_of_isValue {w : ℕ} {v c : List UInt8} (h : IsValue w v c) (rest : List UInt8) :
    skipField w (v ++ rest) = .ok rest := by
  cases h with
  | varint h => simp [skipField, readVarint_of_isVarint h, Except.map]
  | fixed64 h | fixed32 h => simp [skipField, take_append h, Except.map]
  | bytes h hl =>
    rw [skipField, readLengthDelimited_of_isValue h hl]
    rfl

theorem skipField_of_cut {w : ℕ} {b more c : List UInt8} (h : IsValue w (b ++ more) c)
    (hmore : more ≠ []) : ∃ e, skipField w b = .error e := by
  have hpos := length_pos_iff.mpr hmore
  generalize hv : b ++ more = v at h
  cases h with
  | varint h =>
    obtain ⟨e, he⟩ := readVarint_of_cut (by rwa [hv]) hmore
    exact ⟨e, by simp [skipField, he, Except.map]⟩
  | fixed64 h =>
    have hlen := congrArg List.length hv
    rw [length_append] at hlen
    exact ⟨_, by simp [skipField, take_of_short (show b.length < 8 by omega), Except.map]; rfl⟩
  | bytes h hl =>
    obtain ⟨e, he⟩ := readLengthDelimited_of_cut h hl hv.symm hmore
    exact ⟨e, by simp [skipField, he, Except.map]⟩
  | fixed32 h =>
    have hlen := congrArg List.length hv
    rw [length_append] at hlen
    exact ⟨_, by simp [skipField, take_of_short (show b.length < 4 by omega), Except.map]; rfl⟩

/-! ### The writers -/

/-- The loop of `AppendVarint`; ten rounds are enough for 64 bits. -/
def appendVarintLoop : ℕ → UInt64 → List UInt8
  | 0, _ => []
  | k + 1, v => if v < 0x80 then [v.toUInt8] else (v.toUInt8 ||| 0x80) :: appendVarintLoop k (v >>> 7)

def appendVarint (v : UInt64) : List UInt8 := appendVarintLoop 10 v

def appendTag (fieldNum wireType : ℕ) : List UInt8 :=
  appendVarint ((UInt64.ofNat fieldNum <<< 3) ||| UInt64.ofNat wireType)

/-- `AppendFixed32`: the bytes of a number, the lowest first. -/
def appendFixed32 (v : UInt32) : List UInt8 :=
  [v.toUInt8, (v >>> 8).toUInt8, (v >>> 16).toUInt8, (v >>> 24).toUInt8]

/-- `ReadFixed32`, of the first four bytes. -/
def readFixed32 (b : List UInt8) : UInt32 :=
  (b.getD 0 0).toUInt32 ||| ((b.getD 1 0).toUInt32 <<< 8) ||| ((b.getD 2 0).toUInt32 <<< 16) |||
    ((b.getD 3 0).toUInt32 <<< 24)

/-- The value that `AppendBytes` writes after its tag. -/
def appendLengthDelimited (data : List UInt8) : List UInt8 :=
  appendVarint (UInt64.ofNat data.length) ++ data

theorem toNat_or_top (b : UInt8) : (b ||| 0x80).toNat = b.toNat % 128 + 128 := by
  have hall : ∀ i : Fin 256, i.val ||| 128 = i.val % 128 + 128 := by decide +kernel
  exact hall ⟨b.toNat, b.toNat_lt⟩

theorem appendVarintLoop_spec {v : UInt64} (h : v.toNat < 128 ^ k) :
    (k ≠ 0 → isVarint k (appendVarintLoop k v) = true) ∧
      varintVal (appendVarintLoop k v) = v.toNat := by
  induction k generalizing v with
  | zero => exact ⟨fun hk => absurd rfl hk, by simp [appendVarintLoop, varintVal] at h ⊢; omega⟩
  | succ k ih =>
    have hbyte : v.toUInt8.toNat = v.toNat % 256 := by simp
    by_cases hv : v < 0x80
    · have hlt : v.toNat < 128 := lt_iff_toNat_lt.mp hv
      have hsmall : v.toUInt8 < 0x80 :=
        UInt8.lt_iff_toNat_lt.mpr (show v.toUInt8.toNat < 128 by omega)
      rw [appendVarintLoop, if_pos hv]
      refine ⟨fun _ => by simp [hsmall], ?_⟩
      simp only [varintVal, hbyte]
      omega
    · have hge : 128 ≤ v.toNat := by
        by_contra hcon
        exact hv (lt_iff_toNat_lt.mpr (by simpa using hcon))
      have hshift : (v >>> 7).toNat = v.toNat / 128 := by
        rw [UInt64.toNat_shiftRight]
        simp [Nat.shiftRight_eq_div_pow]
      have hnext : (v >>> 7).toNat < 128 ^ k := by
        rw [Nat.pow_succ] at h
        rw [hshift]
        omega
      have hk : k ≠ 0 := by
        rintro rfl
        rw [hshift, Nat.pow_zero] at hnext
        omega
      obtain ⟨his, hval⟩ := ih hnext
      have htop : ¬(v.toUInt8 ||| 0x80) < 0x80 := by
        rw [UInt8.lt_iff_toNat_lt, toNat_or_top]
        simp
      rw [appendVarintLoop, if_neg hv]
      refine ⟨fun _ => by simpa [htop] using his hk, ?_⟩
      rw [varintVal, hval, toNat_or_top, hbyte, hshift]
      omega

theorem isVarint_appendVarint (v : UInt64) : IsVarint (appendVarint v) :=
  (appendVarintLoop_spec (lt_of_lt_of_le v.toNat_lt (by decide))).1 (by decide)

theorem varintVal_appendVarint (v : UInt64) : varintVal (appendVarint v) = v.toNat :=
  (appendVarintLoop_spec (lt_of_lt_of_le v.toNat_lt (by decide))).2

theorem readVarint_appendVarint (v : UInt64) (rest : List UInt8) :
    readVarint (appendVarint v ++ rest) = .ok (v, rest) := by
  rw [readVarint_of_isVarint (isVarint_appendVarint v), varintVal_appendVarint,
    UInt64.ofNat_toNat]

theorem isTag_appendTag (hn : 8 * n + w < 2 ^ 64) (hw : w < 8) : IsTag n w (appendTag n w) := by
  refine ⟨isVarint_appendVarint _, ?_, hw⟩
  have hn64 : (UInt64.ofNat n).toNat = n :=
    toNat_ofNat_of_lt' (by rw [size]; omega)
  have hw64 : (ofNat w).toNat = w :=
    toNat_ofNat_of_lt' (by rw [size]; omega)
  have hshift : (ofNat n <<< 3).toNat = 2 ^ 3 * n := by
    rw [show (3 : UInt64) = ofNat 3 from rfl, toNat_shiftLeft_ofNat _ (by decide), hn64,
      Nat.mod_eq_of_lt (by omega)]
  rw [appendTag, varintVal_appendVarint, UInt64.toNat_or, hshift, hw64,
    ← Nat.two_pow_add_eq_or_of_lt (by omega), Nat.mod_eq_of_lt (by omega)]

theorem readLengthDelimited_append {data : List UInt8} (h : data.length < 2 ^ 64)
    (rest : List UInt8) :
    readLengthDelimited (appendLengthDelimited data ++ rest) = .ok (data, rest) := by
  refine readLengthDelimited_of_isValue (isVarint_appendVarint _) ?_ rest
  rw [varintVal_appendVarint, toNat_ofNat', Nat.mod_mod, Nat.mod_eq_of_lt h]

theorem toNat_or_byte {a : UInt32} (hk : k ≤ 24) (ha : a.toNat < 2 ^ k) (b : UInt8) :
    (a ||| (b.toUInt32 <<< UInt32.ofNat k)).toNat = 2 ^ k * b.toNat + a.toNat := by
  have hk' : (UInt32.ofNat k).toNat % 32 = k := by
    rw [UInt32.toNat_ofNat', Nat.mod_mod_of_dvd _ (by decide)]
    exact Nat.mod_eq_of_lt (by omega)
  have hb : b.toNat < 2 ^ 8 := b.toNat_lt
  have hsmall : b.toNat * 2 ^ k < 2 ^ 32 :=
    calc b.toNat * 2 ^ k < 2 ^ 8 * 2 ^ k := Nat.mul_lt_mul_of_pos_right hb (Nat.two_pow_pos k)
      _ = 2 ^ (8 + k) := (Nat.pow_add 2 8 k).symm
      _ ≤ 2 ^ 32 := Nat.pow_le_pow_right (by decide) (by omega)
  rw [UInt32.toNat_or, UInt32.toNat_shiftLeft, hk', UInt8.toNat_toUInt32, Nat.shiftLeft_eq,
    Nat.mod_eq_of_lt hsmall, Nat.or_comm, Nat.mul_comm, ← Nat.two_pow_add_eq_or_of_lt ha]

theorem toNat_readFixed32 (b0 b1 b2 b3 : UInt8) (rest : List UInt8) :
    (readFixed32 (b0 :: b1 :: b2 :: b3 :: rest)).toNat =
      b0.toNat + 2 ^ 8 * b1.toNat + 2 ^ 16 * b2.toNat + 2 ^ 24 * b3.toNat := by
  have h0 : b0.toUInt32.toNat = b0.toNat := UInt8.toNat_toUInt32 b0
  have hb0 := b0.toNat_lt
  have hb1 := b1.toNat_lt
  have hb2 := b2.toNat_lt
  have h1 := toNat_or_byte (k := 8) (by decide) (a := b0.toUInt32) (by omega) b1
  have h2 := toNat_or_byte (k := 16) (by decide)
    (a := b0.toUInt32 ||| (b1.toUInt32 <<< UInt32.ofNat 8)) (by omega) b2
  have h3 := toNat_or_byte (k := 24) (by decide)
    (a := b0.toUInt32 ||| (b1.toUInt32 <<< UInt32.ofNat 8) ||| (b2.toUInt32 <<< UInt32.ofNat 16))
    (by omega) b3
  refine Eq.trans h3 ?_
  omega

theorem readFixed32_appendFixed32 (v : UInt32) (rest : List UInt8) :
    readFixed32 (appendFixed32 v ++ rest) = v := by
  apply UInt32.toNat_inj.mp
  have hv := v.toNat_lt
  have hbyte : ∀ k : ℕ, k < 32 →
      (v >>> UInt32.ofNat k).toUInt8.toNat = v.toNat / 2 ^ k % 256 := by
    intro k hk
    have hk' : (UInt32.ofNat k).toNat % 32 = k := by
      rw [UInt32.toNat_ofNat', Nat.mod_mod_of_dvd _ (by decide)]
      exact Nat.mod_eq_of_lt hk
    rw [UInt32.toNat_toUInt8, UInt32.toNat_shiftRight, hk', Nat.shiftRight_eq_div_pow]
  have h0 : v.toUInt8.toNat = v.toNat % 256 := UInt32.toNat_toUInt8 v
  have h8 : (v >>> 8).toUInt8.toNat = v.toNat / 2 ^ 8 % 256 := hbyte 8 (by decide)
  have h16 : (v >>> 16).toUInt8.toNat = v.toNat / 2 ^ 16 % 256 := hbyte 16 (by decide)
  have h24 : (v >>> 24).toUInt8.toNat = v.toNat / 2 ^ 24 % 256 := hbyte 24 (by decide)
  simp only [appendFixed32, cons_append, nil_append]
  rw [toNat_readFixed32, h0, h8, h16, h24]
  omega

end MumbleServer.Wire
