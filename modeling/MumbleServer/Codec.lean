import MumbleServer.WireGrammar

/-! # Codecs of control messages

The `Marshal` and `Unmarshal` methods of `pkg/mumble/protocol/messages` all have one shape.
`Marshal` goes through the fields of the message and writes each with its tag, none, once or
several times.  `Unmarshal` reads tag after tag; a field number that it knows is read in the way of
that field, whatever the wire type of the tag, and any other is skipped by its wire type.

A message is therefore a list of fields here (`Schema`), a value of it has one component for each
(`Value`), and the two methods are `marshal` and `decode`.  `decode` also records what it took for
fields (`Round`), and what the value was when an error ended it, because nested messages are used
even if they do not decode. -/

namespace MumbleServer.Codec

open Wire

/-- The ways in which a known field is read. -/
inductive Kind
  | varint
  | bytes
  | float
deriving DecidableEq

/-- The wire type that `Marshal` writes. -/
def Kind.wireType : Kind → ℕ
  | .varint => 0
  | .bytes => 2
  | .float => 5

/-- What is read. -/
abbrev Kind.Raw : Kind → Type
  | .varint => UInt64
  | .bytes => List UInt8
  | .float => UInt32

/-- A read of a known field.  A float that has fewer than four bytes left is passed over without
reading anything. -/
def Kind.read : (k : Kind) → List UInt8 → Except WireError (Option k.Raw × List UInt8)
  | .varint, b => (readVarint b).map fun p => (some p.1, p.2)
  | .bytes, b => (readLengthDelimited b).map fun p => (some p.1, p.2)
  | .float, b => .ok (if b.length < 4 then (none, b) else (some (readFixed32 b), b.drop 4))

/-- What `Marshal` writes after the tag. -/
def Kind.write : (k : Kind) → k.Raw → List UInt8
  | .varint, v => appendVarint v
  | .bytes, v => appendLengthDelimited v
  | .float, v => appendFixed32 v

section kinds

variable (b : List UInt8)

theorem Kind.read_varint : Kind.varint.read b = (readVarint b).map fun p => (some p.1, p.2) := rfl

theorem Kind.read_bytes :
    Kind.bytes.read b = (readLengthDelimited b).map fun p => (some p.1, p.2) := rfl

theorem Kind.read_float : Kind.float.read b =
    .ok (if b.length < 4 then (none, b) else (some (readFixed32 b), b.drop 4)) := rfl

end kinds

/-- A field of a message: its number on the wire, how it is read, what `Marshal` writes for a
value and what `Unmarshal` does with what it has read.  A component without a number is not on
the wire.  `normal` says which values are in normal form, `canon` takes an empty slice for nil. -/
structure Field where
  number : Option ℕ
  kind : Kind
  message : Bool
  Carrier : Type
  zero : Carrier
  put : Carrier → List kind.Raw
  store : kind.Raw → Carrier → Except WireError Carrier
  normal : Carrier → Prop
  canon : Carrier → Carrier

abbrev Schema := List Field

abbrev Value : Schema → Type
  | [] => Unit
  | f :: s => f.Carrier × Value s

def zero : (s : Schema) → Value s
  | [] => ()
  | f :: s => (f.zero, zero s)

def Normal : (s : Schema) → Value s → Prop
  | [], _ => True
  | f :: s, v => f.normal v.1 ∧ Normal s v.2

/-- The value with nil for every empty slice. -/
def canon : (s : Schema) → Value s → Value s
  | [], v => v
  | f :: s, v => (f.canon v.1, canon s v.2)

/-- A place in a schema. -/
inductive Slot (f : Field) : Schema → Type 1
  | here {s : Schema} : Slot f (f :: s)
  | there {g : Field} {s : Schema} (i : Slot f s) : Slot f (g :: s)

namespace Slot
variable {f : Field}

def get : {s : Schema} → Slot f s → Value s → f.Carrier
  | _, .here, v => v.1
  | _, .there i, v => i.get v.2

def set : {s : Schema} → Slot f s → Value s → f.Carrier → Value s
  | _, .here, v, c => (c, v.2)
  | _, .there i, v, c => (v.1, i.set v.2 c)

end Slot

/-- The field with a number. -/
def find : (s : Schema) → ℕ → Option (Σ f : Field, Slot f s)
  | [], _ => none
  | f :: s, n =>
    if f.number = some n then some ⟨f, .here⟩
    else (find s n).map fun p => ⟨p.1, .there p.2⟩

/-- How a message reads a field number that it knows. -/
def kindOf (s : Schema) (n : ℕ) : Option Kind := (find s n).map fun p => p.1.kind

def Field.write (f : Field) (c : f.Carrier) : List UInt8 :=
  match f.number with
  | none => []
  | some n => (f.put c).flatMap fun raw => appendTag n f.kind.wireType ++ f.kind.write raw

def marshal : (s : Schema) → Value s → List UInt8
  | [], _ => []
  | f :: s, v => f.write v.1 ++ marshal s v.2

/-- A round of the loop of `Unmarshal`: the bytes at its tag, the tag, and whether the field was
read or skipped. -/
structure Round where
  place : List UInt8
  number : ℕ
  wireType : ℕ
  known : Bool

section decode
variable (s : Schema)

def round (v : Value s) (b : List UInt8) : Except WireError (Round × Value s × List UInt8) := do
  let ((n, w), rest) ← readTag b
  match find s n with
  | none => do
      let rest ← skipField w rest
      .ok (⟨b, n, w, false⟩, v, rest)
  | some ⟨f, i⟩ => do
      let (raw, rest) ← f.kind.read rest
      match raw with
      | none => .ok (⟨b, n, w, true⟩, v, rest)
      | some raw => do
          let c ← f.store raw (i.get v)
          .ok (⟨b, n, w, true⟩, i.set v c, rest)

/-- What `Unmarshal` leaves: the rounds it has completed, the value, and its error. -/
structure Decoded where
  rounds : List Round
  value : Value s
  error : Option WireError

/-- The loop of `Unmarshal`; `none` if the rounds run out. -/
def decodeLoop : ℕ → Value s → List UInt8 → Option (Decoded s)
  | _, v, [] => some ⟨[], v, none⟩
  | 0, _, _ :: _ => none
  | fuel + 1, v, c :: b =>
    match round s v (c :: b) with
    | .error e => some ⟨[], v, some e⟩
    | .ok (r, v, b) => (decodeLoop fuel v b).map fun d => ⟨r :: d.rounds, d.value, d.error⟩

end decode

/-! ### The loop ends -/

section loop
variable {s : Schema}
variable {b rest : List UInt8}

theorem Kind.read_length {k : Kind} {raw : Option k.Raw}
    (h : k.read b = .ok (raw, rest)) : rest.length ≤ b.length := by
  cases k with
  | varint =>
    obtain ⟨p, hp, ⟨⟩⟩ := map_ok h
    exact (readVarint_consumes b p.1 p.2 hp).le
  | bytes =>
    obtain ⟨p, hp, ⟨⟩⟩ := map_ok h
    exact (readLengthDelimited_consumes b p.1 p.2 hp).le
  | float =>
    have he := Except.ok.inj h
    split_ifs at he
    · obtain ⟨-, rfl⟩ := Prod.mk.inj he
      exact le_rfl
    · obtain ⟨-, rfl⟩ := Prod.mk.inj he
      rw [List.length_drop]
      omega

theorem round_length {v v' : Value s} {r : Round}
    (h : round s v b = .ok (r, v', rest)) : rest.length < b.length := by
  obtain ⟨⟨⟨n, w⟩, b'⟩, htag, h₁⟩ := bind_ok h
  have hlen := readTag_length htag
  dsimp only at h₁
  cases hf : find s n with
  | none =>
    rw [hf] at h₁
    obtain ⟨b'', hskip, he⟩ := bind_ok h₁
    obtain rfl := (Prod.mk.inj (Prod.mk.inj (Except.ok.inj he)).2).2
    exact lt_of_le_of_lt (skipField_length hskip) hlen
  | some p =>
    rw [hf] at h₁
    obtain ⟨⟨raw, b''⟩, hread, h₂⟩ := bind_ok h₁
    refine lt_of_le_of_lt ?_ hlen
    refine le_trans (le_of_eq ?_) (Kind.read_length hread)
    cases raw with
    | none =>
      obtain rfl := (Prod.mk.inj (Prod.mk.inj (Except.ok.inj h₂)).2).2
      rfl
    | some raw =>
      obtain ⟨c, -, he⟩ := bind_ok h₂
      obtain rfl := (Prod.mk.inj (Prod.mk.inj (Except.ok.inj he)).2).2
      rfl

/-- A round for every byte is enough. -/
theorem decodeLoop_isSome {fuel : ℕ} (v : Value s) {b : List UInt8} (hb : b.length ≤ fuel) :
    (decodeLoop s fuel v b).isSome = true := by
  induction fuel generalizing v b with
  | zero =>
    obtain rfl := List.eq_nil_of_length_eq_zero (Nat.le_zero.mp hb)
    rfl
  | succ n ih =>
    cases b with
    | nil => rfl
    | cons c b =>
      unfold decodeLoop
      cases hr : round s v (c :: b) with
      | error e => rfl
      | ok p =>
        obtain ⟨r, v', rest⟩ := p
        have hlt : rest.length < (c :: b).length := round_length hr
        have hfuel : rest.length ≤ n := by omega
        dsimp only
        rw [Option.isSome_map]
        exact ih v' hfuel

variable (s)

/-- The loop from a value on. -/
def decodeFrom (v : Value s) (b : List UInt8) : Decoded s :=
  (decodeLoop s b.length v b).get (decodeLoop_isSome v le_rfl)

/-- `Unmarshal` into a zero value. -/
def decode (b : List UInt8) : Decoded s := decodeFrom s (zero s) b

variable {s}

/-- The value, if there was no error. -/
def Decoded.result (d : Decoded s) : Except WireError (Value s) :=
  match d.error with
  | some e => .error e
  | none => .ok d.value

theorem decodeLoop_eq (v : Value s) (b : List UInt8) :
    decodeLoop s b.length v b = some (decodeFrom s v b) := (Option.some_get _).symm

/-- More rounds change nothing. -/
theorem decodeLoop_of_le {fuel : ℕ} (v : Value s) {b : List UInt8} (hb : b.length ≤ fuel) :
    decodeLoop s fuel v b = some (decodeFrom s v b) := by
  rw [← decodeLoop_eq]
  induction fuel using Nat.strongRecOn generalizing v b with
  | _ fuel ih =>
    cases b with
    | nil => cases fuel <;> rfl
    | cons c b =>
      obtain ⟨n, rfl⟩ : ∃ n, fuel = n + 1 := ⟨fuel - 1, by simp at hb; omega⟩
      have hb' : b.length ≤ n := by simpa using hb
      show decodeLoop s (n + 1) v (c :: b) = decodeLoop s (b.length + 1) v (c :: b)
      unfold decodeLoop
      cases hr : round s v (c :: b) with
      | error e => rfl
      | ok p =>
        obtain ⟨r, v', rest⟩ := p
        have hlt : rest.length < b.length + 1 := round_length hr
        have hrest : rest.length ≤ b.length := by omega
        dsimp only
        rw [ih n (Nat.lt_succ_self n) v' (hrest.trans hb'), ih b.length (by omega) v' hrest]

theorem decodeFrom_of_error {v : Value s} {b : List UInt8} {e : WireError} (hb : b ≠ [])
    (h : round s v b = .error e) : decodeFrom s v b = ⟨[], v, some e⟩ := by
  obtain ⟨c, b, rfl⟩ := List.exists_cons_of_ne_nil hb
  apply Option.some.inj
  rw [← decodeLoop_eq]
  show decodeLoop s (b.length + 1) v (c :: b) = _
  unfold decodeLoop
  rw [h]

theorem decodeFrom_of_ok {v v' : Value s} {r : Round} (hb : b ≠ [])
    (h : round s v b = .ok (r, v', rest)) :
    decodeFrom s v b = ⟨r :: (decodeFrom s v' rest).rounds, (decodeFrom s v' rest).value,
      (decodeFrom s v' rest).error⟩ := by
  have hlen := round_length h
  obtain ⟨c, b, rfl⟩ := List.exists_cons_of_ne_nil hb
  apply Option.some.inj
  rw [← decodeLoop_eq]
  show decodeLoop s (b.length + 1) v (c :: b) = _
  unfold decodeLoop
  rw [h]
  dsimp only
  rw [decodeLoop_of_le v' (by simp at hlen; omega)]
  rfl

theorem round_place {v v' : Value s} {r : Round} (h : round s v b = .ok (r, v', rest)) :
    r.place = b := by
  obtain ⟨⟨⟨n, w⟩, b'⟩, -, h₁⟩ := bind_ok h
  dsimp only at h₁
  cases hf : find s n with
  | none =>
    rw [hf] at h₁
    obtain ⟨b'', -, he⟩ := bind_ok h₁
    obtain rfl := (Prod.mk.inj (Except.ok.inj he)).1
    rfl
  | some p =>
    rw [hf] at h₁
    obtain ⟨⟨raw, b''⟩, -, h₂⟩ := bind_ok h₁
    cases raw with
    | none =>
      obtain rfl := (Prod.mk.inj (Except.ok.inj h₂)).1
      rfl
    | some raw =>
      obtain ⟨c, -, he⟩ := bind_ok h₂
      obtain rfl := (Prod.mk.inj (Except.ok.inj he)).1
      rfl

/-- Every round begins behind the one before. -/
theorem rounds_advance (v : Value s) (b : List UInt8) :
    ((decodeFrom s v b).rounds.map fun r => r.place.length).Pairwise (· > ·) ∧
      ∀ r ∈ (decodeFrom s v b).rounds, 0 < r.place.length ∧ r.place.length ≤ b.length := by
  induction hlen : b.length using Nat.strongRecOn generalizing v b with
  | ind n ih =>
    by_cases hb : b = []
    · subst hb
      exact ⟨.nil, nofun⟩
    · cases hround : round s v b with
      | error e =>
        rw [decodeFrom_of_error hb hround]
        exact ⟨.nil, nofun⟩
      | ok p =>
        obtain ⟨r, v', rest⟩ := p
        have hlt := round_length hround
        have hpos := List.length_pos_iff.mpr hb
        obtain ⟨hpair, hall⟩ := ih rest.length (by omega) v' rest rfl
        have hplace := round_place hround
        rw [decodeFrom_of_ok hb hround]
        refine ⟨List.pairwise_cons.mpr ⟨fun k hk => ?_, hpair⟩, fun r' hr' => ?_⟩
        · obtain ⟨r', hr', rfl⟩ := List.mem_map.mp hk
          have := hall r' hr'
          show r.place.length > r'.place.length
          rw [hplace]
          omega
        · rcases List.mem_cons.mp hr' with rfl | hr'
          · rw [hplace]
            omega
          · have := hall r' hr'
            omega

end loop

/-! ### One field after the other -/

section fields
variable {s : Schema} {n w : ℕ} {tag rest : List UInt8}

theorem round_unknown (htag : IsTag n w tag) (hf : find s n = none) (v : Value s) :
    round s v (tag ++ rest) =
      (skipField w rest).map fun rest' => (⟨tag ++ rest, n, w, false⟩, v, rest') := by
  unfold round
  rw [readTag_of_isTag htag]
  simp only [bind, Except.bind, hf]
  cases skipField w rest <;> rfl

section
variable (htag : IsTag n w tag) {f : Field} {i : Slot f s} (hf : find s n = some ⟨f, i⟩)
  (v : Value s)
include htag hf v

theorem round_known {raw : Option f.kind.Raw} {rest' : List UInt8}
    (hread : f.kind.read rest = .ok (raw, rest')) :
    round s v (tag ++ rest) = match raw with
      | none => .ok (⟨tag ++ rest, n, w, true⟩, v, rest')
      | some raw =>
        (f.store raw (i.get v)).map fun c => (⟨tag ++ rest, n, w, true⟩, i.set v c, rest') := by
  unfold round
  rw [readTag_of_isTag htag]
  simp only [bind, Except.bind, hf, hread]
  cases raw with
  | none => rfl
  | some raw => cases f.store raw (i.get v) <;> rfl

theorem round_known_error {e : WireError}
    (hread : f.kind.read rest = .error e) : round s v (tag ++ rest) = .error e := by
  unfold round
  rw [readTag_of_isTag htag]
  simp only [bind, Except.bind, hf, hread]

end

end fields

end MumbleServer.Codec
