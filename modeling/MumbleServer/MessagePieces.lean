import MumbleServer.ControlMessages

/-! # The fields of a message as it takes them

The fields of a message as `Unmarshal` takes them, said apart from the code.  A field with a number
that the message knows is delimited in the way of that field, any other by the wire type of its tag
(`Piece`).  A string is accepted if it is a sequence of such fields to its end (`Complete`).  In
general it is one up to a place where none begins (`Reading`); what `Unmarshal` leaves of a message
that drops the errors of the messages in it is made of the fields up to that place (`decode_value`),
each component from the fields with its number (`get_foldl`). -/

namespace MumbleServer

open List

namespace Wire
variable {b rest : List UInt8} {n w : ℕ}

/-! ### What a reader has taken -/

theorem exists_of_readVarintFrom {i k : ℕ} (hik : i + k = 10) {x v : UInt64}
    (h : readVarintFrom i x b = .ok (v, rest)) : ∃ bs, b = bs ++ rest ∧ isVarint k bs = true := by
  induction b generalizing i k x with
  | nil => cases h
  | cons c b ih =>
    unfold readVarintFrom at h
    split_ifs at h with hlong hc <;> obtain ⟨k, rfl⟩ : ∃ k', k = k' + 1 := ⟨k - 1, by omega⟩
    · obtain ⟨-, rfl⟩ := Prod.mk.inj (Except.ok.inj h)
      exact ⟨[c], rfl, by simp [isVarint, hc]⟩
    · obtain ⟨bs, rfl, hbs⟩ := ih (i := i + 1) (k := k) (by omega) h
      exact ⟨c :: bs, rfl, by simpa [isVarint, hc] using hbs⟩

theorem exists_of_readVarint {v : UInt64} (h : readVarint b = .ok (v, rest)) :
    ∃ bs, b = bs ++ rest ∧ IsVarint bs ∧ v = .ofNat (varintVal bs) := by
  obtain ⟨bs, rfl, hbs⟩ := exists_of_readVarintFrom (k := 10) rfl h
  rw [readVarint_of_isVarint hbs] at h
  exact ⟨bs, rfl, hbs, (Prod.mk.inj (Except.ok.inj h)).1.symm⟩

theorem exists_of_readTag (h : readTag b = .ok ((n, w), rest)) :
    ∃ tag, b = tag ++ rest ∧ IsTag n w tag := by
  obtain ⟨⟨v, r⟩, hv, hnw⟩ := bind_ok h
  obtain ⟨⟨rfl, rfl⟩, rfl⟩ : ((v >>> 3).toNat = n ∧ (v &&& 7).toNat = w) ∧ r = rest := by
    simpa using Except.ok.inj hnw
  obtain ⟨bs, rfl, hbs, rfl⟩ := exists_of_readVarint hv
  have hwire : (UInt64.ofNat (varintVal bs) &&& 7).toNat = varintVal bs % 2 ^ 64 % 8 := by
    rw [UInt64.toNat_and, UInt64.toNat_ofNat', show (7 : UInt64).toNat = 2 ^ 3 - 1 from rfl,
      Nat.and_two_pow_sub_one_eq_mod]
  have hnumber : (UInt64.ofNat (varintVal bs) >>> 3).toNat = varintVal bs % 2 ^ 64 / 8 := by
    rw [UInt64.toNat_shiftRight, UInt64.toNat_ofNat', show (3 : UInt64).toNat % 64 = 3 from rfl,
      Nat.shiftRight_eq_div_pow]
  exact ⟨bs, rfl, hbs, by omega, by omega⟩

theorem eq_of_take {v : List UInt8} (h : take n b = .ok (v, rest)) :
    b = v ++ rest ∧ v.length = n := by
  unfold take at h
  split_ifs at h
  obtain ⟨rfl, rfl⟩ := Prod.mk.inj (Except.ok.inj h)
  exact ⟨(take_append_drop n b).symm, length_take_of_le (by omega)⟩

theorem exists_of_readLengthDelimited {data : List UInt8}
    (h : readLengthDelimited b = .ok (data, rest)) :
    ∃ v, b = v ++ rest ∧ IsValue 2 v data := by
  obtain ⟨⟨l, r⟩, hl, ht⟩ := bind_ok h
  obtain ⟨bs, rfl, hbs, rfl⟩ := exists_of_readVarint hl
  obtain ⟨rfl, hlen⟩ := eq_of_take ht
  exact ⟨bs ++ data, (append_assoc ..).symm, .bytes hbs (by rw [hlen, UInt64.toNat_ofNat'])⟩

theorem exists_of_skipField (h : skipField w b = .ok rest) :
    ∃ v c, b = v ++ rest ∧ IsValue w v c := by
  unfold skipField at h
  split at h
  · obtain ⟨⟨v, r⟩, hv, rfl⟩ := map_ok h
    obtain ⟨bs, rfl, hbs, -⟩ := exists_of_readVarint hv
    exact ⟨bs, bs, rfl, .varint hbs⟩
  · obtain ⟨⟨v, r⟩, hv, rfl⟩ := map_ok h
    obtain ⟨rfl, hlen⟩ := eq_of_take hv
    exact ⟨v, v, rfl, .fixed64 hlen⟩
  · obtain ⟨⟨v, r⟩, hv, rfl⟩ := map_ok h
    obtain ⟨bs, rfl, hbs⟩ := exists_of_readLengthDelimited hv
    exact ⟨bs, v, rfl, hbs⟩
  · obtain ⟨⟨v, r⟩, hv, rfl⟩ := map_ok h
    obtain ⟨rfl, hlen⟩ := eq_of_take hv
    exact ⟨v, v, rfl, .fixed32 hlen⟩
  · cases h

end Wire

namespace Codec
open Wire

/-! ### Fields as they are taken -/

/-- The wire type by which a field is delimited. -/
def takenAs (s : Schema) (n w : ℕ) : ℕ := ((kindOf s n).map Kind.wireType).getD w

/-- A field as a message takes it. -/
structure Piece (s : Schema) where
  number : ℕ
  wireType : ℕ
  tag : List UInt8
  value : List UInt8
  content : List UInt8
  isTag : IsTag number wireType tag
  isValue : IsValue (takenAs s number wireType) value content

variable {s : Schema}

def Piece.bytes (p : Piece s) : List UInt8 := p.tag ++ p.value

/-- The fields of a string up to a place where no field begins. -/
structure Reading (s : Schema) (b : List UInt8) where
  pieces : List (Piece s)
  rest : List UInt8
  eq : b = pieces.flatMap Piece.bytes ++ rest
  stuck : ∀ (p : Piece s) (more : List UInt8), rest ≠ p.bytes ++ more

/-- The content of the last field with a number. -/
def lastOf (ps : List (Piece s)) (n : ℕ) : Option (List UInt8) :=
  ((ps.filter fun p => p.number = n).getLast?).map Piece.content

/-- The bytes of a field, none if it does not occur. -/
def bytesOf (ps : List (Piece s)) (n : ℕ) : List UInt8 := (lastOf ps n).getD []

/-- The number in a field, zero if it does not occur. -/
def numberOf (ps : List (Piece s)) (n : ℕ) : ℕ := ((lastOf ps n).map varintVal).getD 0

section reading
variable {b : List UInt8}

theorem Piece.bytes_append_ne_nil (p : Piece s) (rest : List UInt8) : p.bytes ++ rest ≠ [] := by
  rw [Piece.bytes, append_assoc]
  exact p.isTag.append_ne_nil

/-- Every string has a reading. -/
theorem exists_reading (s : Schema) (b : List UInt8) : Nonempty (Reading s b) := by
  induction hlen : b.length using Nat.strongRecOn generalizing b with
  | ind n ih =>
    by_cases h : ∃ (p : Piece s) (more : List UInt8), b = p.bytes ++ more
    · obtain ⟨p, more, rfl⟩ := h
      have hpos : 0 < p.bytes.length := by
        have := length_pos_iff.mpr p.isTag.1.ne_nil
        rw [Piece.bytes, length_append]
        omega
      obtain ⟨r⟩ := ih more.length (by rw [← hlen, length_append]; omega) more rfl
      exact ⟨⟨p :: r.pieces, r.rest, by rw [flatMap_cons, append_assoc, ← r.eq], r.stuck⟩⟩
    · exact ⟨⟨[], b, rfl, fun p more heq => h ⟨p, more, heq⟩⟩⟩

end reading

/-! ### What `Unmarshal` makes of them -/

/-- What a field is read as. -/
def Kind.rawOf : (k : Kind) → List UInt8 → k.Raw
  | .varint, content => .ofNat (varintVal content)
  | .bytes, content => content
  | .float, content => readFixed32 content

section rounds
variable {b : List UInt8} {k : Kind} {value content : List UInt8}

theorem Kind.read_isValue (h : IsValue k.wireType value content) (rest : List UInt8) :
    k.read (value ++ rest) = .ok (some (k.rawOf content), rest) := by
  cases k with
  | varint =>
    cases h with
    | varint h =>
      rw [Kind.read_varint, readVarint_of_isVarint h]
      rfl
  | bytes =>
    cases h with
    | bytes h hl =>
      rw [Kind.read_bytes, readLengthDelimited_of_isValue h hl]
      rfl
  | float =>
    cases h with
    | fixed32 h =>
      match value, h with
      | [b0, b1, b2, b3], _ => rfl

theorem Kind.read_cases {raw : Option k.Raw} {rest : List UInt8} (h : k.read b = .ok (raw, rest)) :
    (∃ v c, b = v ++ rest ∧ IsValue k.wireType v c) ∨ k = .float ∧ b = rest ∧ rest.length < 4 := by
  cases k with
  | varint =>
    obtain ⟨p, hp, ⟨⟩⟩ := map_ok h
    obtain ⟨bs, rfl, hbs, -⟩ := exists_of_readVarint hp
    exact .inl ⟨bs, bs, rfl, .varint hbs⟩
  | bytes =>
    obtain ⟨p, hp, ⟨⟩⟩ := map_ok h
    obtain ⟨v, rfl, hv⟩ := exists_of_readLengthDelimited hp
    exact .inl ⟨v, _, rfl, hv⟩
  | float =>
    have he := Except.ok.inj h
    split_ifs at he with hlen
    · obtain ⟨-, rfl⟩ := Prod.mk.inj he
      exact .inr ⟨rfl, rfl, hlen⟩
    · obtain ⟨-, rfl⟩ := Prod.mk.inj he
      exact .inl ⟨b.take 4, b.take 4, (take_append_drop 4 b).symm,
        .fixed32 (length_take_of_le (by omega))⟩

variable {f : Field}

theorem takenAs_of_find {n w : ℕ} {i : Slot f s} (h : find s n = some ⟨f, i⟩) :
    takenAs s n w = f.kind.wireType := by simp [takenAs, kindOf, h]

theorem takenAs_of_none {n w : ℕ} (h : find s n = none) : takenAs s n w = w := by
  simp [takenAs, kindOf, h]

theorem round_unknown_piece {p : Piece s} (hf : find s p.number = none) (v : Value s)
    (rest : List UInt8) :
    round s v (p.bytes ++ rest) = .ok (⟨p.bytes ++ rest, p.number, p.wireType, false⟩, v, rest) := by
  have hvalue := p.isValue
  rw [takenAs_of_none hf] at hvalue
  rw [Piece.bytes, append_assoc, round_unknown p.isTag hf, skipField_of_isValue hvalue]
  rfl

theorem round_known_piece {p : Piece s} {i : Slot f s} (hf : find s p.number = some ⟨f, i⟩)
    (v : Value s) (rest : List UInt8) :
    round s v (p.bytes ++ rest) = (f.store (f.kind.rawOf p.content) (i.get v)).map fun c =>
      (⟨p.bytes ++ rest, p.number, p.wireType, true⟩, i.set v c, rest) := by
  have hvalue := p.isValue
  rw [takenAs_of_find hf] at hvalue
  rw [Piece.bytes, append_assoc, round_known p.isTag hf v (Kind.read_isValue hvalue rest)]

/-- A round takes a field, or the tag of a float with too little behind it. -/
theorem round_cases {v v' : Value s} {r : Round} {rest : List UInt8}
    (h : round s v b = .ok (r, v', rest)) : (∃ p : Piece s, b = p.bytes ++ rest) ∨
      ∃ n w tag, IsTag n w tag ∧ kindOf s n = some .float ∧ rest.length < 4 ∧ b = tag ++ rest := by
  obtain ⟨⟨⟨n, w⟩, b'⟩, htag, h₁⟩ := bind_ok h
  obtain ⟨tag, rfl, ht⟩ := exists_of_readTag htag
  dsimp only at h₁
  cases hf : find s n with
  | none =>
    rw [hf] at h₁
    obtain ⟨b'', hskip, he⟩ := bind_ok h₁
    obtain rfl := (Prod.mk.inj (Prod.mk.inj (Except.ok.inj he)).2).2
    obtain ⟨val, c, rfl, hval⟩ := exists_of_skipField hskip
    exact .inl ⟨⟨n, w, tag, val, c, ht, by rwa [takenAs_of_none hf]⟩, (append_assoc ..).symm⟩
  | some q =>
    obtain ⟨f, i⟩ := q
    rw [hf] at h₁
    obtain ⟨⟨raw, b''⟩, hread, h₂⟩ := bind_ok h₁
    obtain rfl : b'' = rest := by
      cases raw with
      | none => exact (Prod.mk.inj (Prod.mk.inj (Except.ok.inj h₂)).2).2
      | some raw =>
        obtain ⟨c, -, he⟩ := bind_ok h₂
        exact (Prod.mk.inj (Prod.mk.inj (Except.ok.inj he)).2).2
    rcases Kind.read_cases hread with ⟨val, c, rfl, hval⟩ | ⟨hk, rfl, hlen⟩
    · exact .inl ⟨⟨n, w, tag, val, c, ht, by rwa [takenAs_of_find hf]⟩, (append_assoc ..).symm⟩
    · exact .inr ⟨n, w, tag, ht, by rw [kindOf, hf, ← hk]; rfl, hlen, rfl⟩

end rounds

/-! ### Strings without an error -/

/-- Fields as the message takes them, to the end; `ok` says which contents are no error.  A float
with fewer than four bytes behind its tag is passed over. -/
inductive Complete (s : Schema) (ok : ℕ → List UInt8 → Prop) : List UInt8 → Prop
  | nil : Complete s ok []
  | piece (p : Piece s) {rest : List UInt8} : ok p.number p.content → Complete s ok rest →
      Complete s ok (p.bytes ++ rest)
  | shortFloat {n w : ℕ} {tag rest : List UInt8} : IsTag n w tag → kindOf s n = some .float →
      rest.length < 4 → Complete s ok rest → Complete s ok (tag ++ rest)

section complete
variable {ok : ℕ → List UInt8 → Prop}

theorem round_short {n w : ℕ} {tag rest : List UInt8} (htag : IsTag n w tag)
    (hn : kindOf s n = some .float) (hlen : rest.length < 4) (v : Value s) :
    ∃ r, round s v (tag ++ rest) = .ok (r, v, rest) := by
  obtain ⟨⟨f, i⟩, hf, hk⟩ := Option.map_eq_some_iff.mp hn
  have hread : f.kind.read rest = .ok (none, rest) := by
    have : ∀ k : Kind, k = .float → k.read rest = .ok (none, rest) := by
      rintro k rfl
      rw [Kind.read_float, if_pos hlen]
    exact this _ hk
  exact ⟨_, round_known htag hf v hread⟩

/-- What a round makes of a field is an error exactly if its content is one. -/
structure Judges (s : Schema) (ok : ℕ → List UInt8 → Prop) : Prop where
  known : ∀ n f (i : Slot f s), find s n = some ⟨f, i⟩ → ∀ content c,
    (∃ c', f.store (f.kind.rawOf content) c = .ok c') ↔ ok n content
  unknown : ∀ n content, find s n = none → ok n content

theorem Judges.round_ok (hok : Judges s ok) {p : Piece s} (h : ok p.number p.content) (v : Value s)
    (rest : List UInt8) : ∃ r v', round s v (p.bytes ++ rest) = .ok (r, v', rest) := by
  cases hf : find s p.number with
  | none => exact ⟨_, _, round_unknown_piece hf v rest⟩
  | some q =>
    obtain ⟨c, hc⟩ := (hok.known p.number q.1 q.2 hf p.content (q.2.get v)).mpr h
    rw [round_known_piece hf, hc]
    exact ⟨_, _, rfl⟩

theorem Judges.of_round_ok (hok : Judges s ok) {p : Piece s} {v v' : Value s} {r : Round}
    {rest : List UInt8} (h : round s v (p.bytes ++ rest) = .ok (r, v', rest)) :
    ok p.number p.content := by
  cases hf : find s p.number with
  | none => exact hok.unknown _ _ hf
  | some q =>
    rw [round_known_piece hf] at h
    obtain ⟨c, hc, -⟩ := map_ok h
    exact (hok.known p.number q.1 q.2 hf p.content (q.2.get v)).mp ⟨c, hc⟩

/-- **What `Unmarshal` accepts** are the strings that are complete. -/
theorem decodeFrom_error_iff (hok : Judges s ok) (v : Value s) (b : List UInt8) :
    (decodeFrom s v b).error = none ↔ Complete s ok b := by
  constructor
  · intro h
    induction hlen : b.length using Nat.strongRecOn generalizing v b with
    | ind n ih =>
      by_cases hb : b = []
      · exact hb ▸ .nil
      cases hround : round s v b with
      | error e =>
        rw [decodeFrom_of_error hb hround] at h
        cases h
      | ok q =>
        obtain ⟨r, v', rest⟩ := q
        rw [decodeFrom_of_ok hb hround] at h
        have hrest := ih rest.length (hlen ▸ round_length hround) v' rest h rfl
        rcases round_cases hround with ⟨p, rfl⟩ | ⟨n, w, tag, htag, hn, hshort, rfl⟩
        · exact .piece p (hok.of_round_ok hround) hrest
        · exact .shortFloat htag hn hshort hrest
  · intro h
    induction h generalizing v with
    | nil => rfl
    | piece p hp _ ih =>
      obtain ⟨r, v', hround⟩ := hok.round_ok hp v _
      rw [decodeFrom_of_ok (p.bytes_append_ne_nil _) hround]
      exact ih v'
    | shortFloat htag hn hshort _ ih =>
      obtain ⟨r, hround⟩ := round_short htag hn hshort v
      rw [decodeFrom_of_ok htag.append_ne_nil hround]
      exact ih v

end complete

/-! ### What is left before the first damage -/

/-- A field that is no float, whose reads are always stored. -/
structure Field.Lenient (f : Field) : Prop where
  kind : f.kind ≠ .float
  store : ∀ raw c, ∃ c', f.store raw c = .ok c'

/-- The component after a field was read. -/
def Field.after (f : Field) (c : f.Carrier) (content : List UInt8) : f.Carrier :=
  ((f.store (f.kind.rawOf content) c).toOption).getD c

def Piece.apply (v : Value s) (p : Piece s) : Value s :=
  match find s p.number with
  | none => v
  | some ⟨f, i⟩ => i.set v (f.after (i.get v) p.content)

section lenient
variable {b : List UInt8} (hs : ∀ n f i, find s n = some ⟨f, i⟩ → f.Lenient)
include hs

theorem round_piece (p : Piece s) (v : Value s) (rest : List UInt8) :
    ∃ r, round s v (p.bytes ++ rest) = .ok (r, p.apply v, rest) := by
  unfold Piece.apply
  cases hf : find s p.number with
  | none => exact ⟨_, round_unknown_piece hf v rest⟩
  | some q =>
    obtain ⟨f, i⟩ := q
    obtain ⟨c, hc⟩ := (hs _ f i hf).store (f.kind.rawOf p.content) (i.get v)
    refine ⟨⟨p.bytes ++ rest, p.number, p.wireType, true⟩, ?_⟩
    rw [round_known_piece hf]
    simp only [hc, Field.after, Except.map, Except.toOption, Option.getD_some]

theorem exists_piece_of_round {v v' : Value s} {r : Round} {rest : List UInt8}
    (h : round s v b = .ok (r, v', rest)) : ∃ p : Piece s, b = p.bytes ++ rest := by
  rcases round_cases h with hp | ⟨n, w, tag, -, hn, -, -⟩
  · exact hp
  · obtain ⟨⟨f, i⟩, hf, hk⟩ := Option.map_eq_some_iff.mp hn
    exact absurd hk (hs n f i hf).kind

theorem decodeFrom_reading (ps : List (Piece s)) {rest : List UInt8}
    (hstuck : ∀ (p : Piece s) (more : List UInt8), rest ≠ p.bytes ++ more) (v : Value s) :
    (decodeFrom s v (ps.flatMap Piece.bytes ++ rest)).value = ps.foldl Piece.apply v ∧
      ((decodeFrom s v (ps.flatMap Piece.bytes ++ rest)).error = none ↔ rest = []) := by
  induction ps generalizing v with
  | nil =>
    by_cases hrest : rest = []
    · subst hrest
      exact ⟨rfl, iff_of_true rfl rfl⟩
    · cases hround : round s v rest with
      | error e =>
        rw [flatMap_nil, nil_append, decodeFrom_of_error hrest hround]
        exact ⟨rfl, by simp [hrest]⟩
      | ok q =>
        obtain ⟨p, heq⟩ := exists_piece_of_round hs hround
        exact absurd heq (hstuck p _)
  | cons p ps ih =>
    obtain ⟨r, hr⟩ := round_piece hs p v (ps.flatMap Piece.bytes ++ rest)
    rw [flatMap_cons, append_assoc, decodeFrom_of_ok (p.bytes_append_ne_nil _) hr]
    exact ih (p.apply v)

/-- **What `Unmarshal` leaves** is made of the fields before the first damage. -/
theorem decode_value (r : Reading s b) :
    (decode s b).value = r.pieces.foldl Piece.apply (zero s) := by
  obtain ⟨ps, rest, rfl, hstuck⟩ := r
  exact (decodeFrom_reading hs ps hstuck (zero s)).1

theorem decode_error_iff (r : Reading s b) : (decode s b).error = none ↔ r.rest = [] := by
  obtain ⟨ps, rest, rfl, hstuck⟩ := r
  exact (decodeFrom_reading hs ps hstuck (zero s)).2

end lenient

/-! ### Component by component -/

section components
variable {f g : Field} {n m : ℕ}

theorem Slot.get_set (i : Slot f s) (v : Value s) (c : f.Carrier) : i.get (i.set v c) = c := by
  induction i with
  | here => rfl
  | there i ih => exact ih v.2

theorem Slot.get_set_of_ne (i : Slot f s) (j : Slot g s) (hi : f.number = some n)
    (hj : g.number = some m) (hne : n ≠ m) (v : Value s) (c : g.Carrier) :
    i.get (j.set v c) = i.get v := by
  induction i with
  | here =>
    cases j with
    | here => exact absurd (Option.some.inj (hi.symm.trans hj)) hne
    | there j => rfl
  | there i ih =>
    cases j with
    | here => rfl
    | there j => exact ih j v.2

theorem number_of_find {q : Σ f : Field, Slot f s} (h : find s n = some q) :
    q.1.number = some n := by
  induction s with
  | nil => cases h
  | cons g s ih =>
    rw [find] at h
    split_ifs at h with hg
    · obtain rfl := Option.some.inj h
      exact hg
    · obtain ⟨q', hq', rfl⟩ := Option.map_eq_some_iff.mp h
      exact ih hq'

/-- A component is made from the fields with its number. -/
theorem get_foldl (hs : (s.filterMap Field.number).Nodup) (i : Slot f s) (hn : f.number = some n)
    (ps : List (Piece s)) (v : Value s) :
    i.get (ps.foldl Piece.apply v) =
      ((ps.filter fun p => p.number = n).map Piece.content).foldl f.after (i.get v) := by
  induction ps generalizing v with
  | nil => rfl
  | cons p ps ih =>
    rw [foldl_cons, ih]
    by_cases hp : p.number = n
    · have hfind := find_slot hs i hn
      simp only [filter_cons, hp, decide_true, if_true, map_cons, foldl_cons]
      simp only [Piece.apply, hp, hfind, Slot.get_set]
    · simp only [filter_cons, hp, decide_false, Bool.false_eq_true, if_false]
      congr 1
      unfold Piece.apply
      cases hf : find s p.number with
      | none => rfl
      | some q =>
        obtain ⟨g, j⟩ := q
        exact i.get_set_of_ne j hn (number_of_find hf) (Ne.symm hp) v _

/-- The last one counts if what was there before does not. -/
theorem foldl_last {α β : Type*} (h : α → β) (l : List α) (c : β) :
    l.foldl (fun _ a => h a) c = (l.getLast?.map h).getD c := by
  induction l using List.reverseRecOn with
  | nil => rfl
  | append_singleton l a => simp

variable {ps : List (Piece s)} {always : Bool} (hs : (s.filterMap Field.number).Nodup)
include hs

theorem get_bytes (i : Slot (bytes n always) s) (hzero : i.get (zero s) = []) :
    i.get (ps.foldl Piece.apply (zero s)) = bytesOf ps n := by
  rw [get_foldl hs i rfl, hzero]
  refine (foldl_last id _ _).trans ?_
  rw [Option.map_id, id, getLast?_map]
  rfl

theorem get_scalar {t : Scalar} (i : Slot (scalar n t always) s)
    (hzero : i.get (zero s) = t.dec 0) :
    i.get (ps.foldl Piece.apply (zero s)) = t.dec (.ofNat (numberOf ps n)) := by
  rw [get_foldl hs i rfl, hzero]
  refine (foldl_last (fun c => t.dec (.ofNat (varintVal c))) _ _).trans ?_
  rw [getLast?_map]
  unfold numberOf lastOf
  cases (ps.filter fun p => decide (p.number = n)).getLast? <;> rfl

theorem get_nested {sub : Schema} {sparse : Bool} (i : Slot (nested n sub false sparse) s)
    (hzero : i.get (zero s) = []) :
    i.get (ps.foldl Piece.apply (zero s)) =
      (ps.filter fun p => p.number = n).map fun p => (decode sub p.content).value := by
  have hafter : ∀ (l : List (List UInt8)) (c : List (Value sub)),
      l.foldl (nested n sub false sparse).after c =
        c ++ l.map fun content => (decode sub content).value := by
    intro l
    induction l with
    | nil => simp
    | cons content l ih =>
      intro c
      have hstore : (nested n sub false sparse).after c content =
          c ++ [(decode sub content).value] := by
        show ((storeNested sub false content c).toOption).getD c = _
        unfold storeNested
        cases (decode sub content).error <;> rfl
      rw [foldl_cons, hstore, ih, map_cons, append_assoc, singleton_append]
  rw [get_foldl hs i rfl, hzero, hafter, nil_append, map_map]
  rfl

end components

end Codec

end MumbleServer
