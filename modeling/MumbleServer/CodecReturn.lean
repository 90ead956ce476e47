import MumbleServer.Codec

/-! # What comes back

`Unmarshal` applied to what `Marshal` wrote: each field comes back as what its own reads make of
its own writes (`Field.back`), independently of the other fields, as long as no two fields have one
number (`result_marshal`). -/

namespace MumbleServer.Codec

open List
open Wire

/-- One written field: its place in the message and what was written. -/
structure Item (s : Schema) where
  field : Field
  slot : Slot field s
  number : ℕ
  number_eq : field.number = some number
  raw : field.kind.Raw

namespace Item
variable {s : Schema}

def bytes (it : Item s) : List UInt8 :=
  appendTag it.number it.field.kind.wireType ++ it.field.kind.write it.raw

def apply (v : Value s) (it : Item s) : Except WireError (Value s) :=
  (it.field.store it.raw (it.slot.get v)).map (it.slot.set v)

/-- The item in a longer message. -/
def there (g : Field) (it : Item s) : Item (g :: s) :=
  ⟨it.field, .there it.slot, it.number, it.number_eq, it.raw⟩

end Item

def Field.items (f : Field) (s : Schema) (c : f.Carrier) : List (Item (f :: s)) :=
  match h : f.number with
  | none => []
  | some n => (f.put c).map fun raw => ⟨f, .here, n, h, raw⟩

/-- What `Marshal` writes, field by field. -/
def items : (s : Schema) → Value s → List (Item s)
  | [], _ => []
  | f :: s, v => f.items s v.1 ++ (items s v.2).map (Item.there f)

def Field.back (f : Field) (c : f.Carrier) : Except WireError f.Carrier :=
  match f.number with
  | none => .ok f.zero
  | some _ => (f.put c).foldlM (fun acc raw => f.store raw acc) f.zero

def returned : (s : Schema) → Value s → Except WireError (Value s)
  | [], v => .ok v
  | f :: s, v =>
    match f.back v.1, returned s v.2 with
    | .ok c, .ok v' => .ok (c, v')
    | .error e, _ => .error e
    | _, .error e => .error e

/-- The numbers of a message are distinct, and they fit into a tag. -/
structure WellNumbered (s : Schema) : Prop where
  nodup : (s.filterMap Field.number).Nodup
  small : ∀ n ∈ s.filterMap Field.number, n < 2 ^ 32

/-! ### Reading what was written -/

theorem Kind.read_write {k : Kind} {raw : k.Raw} (hfit : (k.write raw).length < 2 ^ 64)
    (rest : List UInt8) : k.read (k.write raw ++ rest) = .ok (some raw, rest) := by
  cases k with
  | varint =>
    show Kind.varint.read (appendVarint raw ++ rest) = _
    rw [Kind.read_varint, readVarint_appendVarint]
    rfl
  | bytes =>
    have hlen : raw.length < 2 ^ 64 := by
      refine lt_of_le_of_lt ?_ hfit
      simp only [Kind.write, appendLengthDelimited, length_append]
      omega
    show Kind.bytes.read (appendLengthDelimited raw ++ rest) = _
    rw [Kind.read_bytes, readLengthDelimited_append hlen]
    rfl
  | float =>
    have h4 : (appendFixed32 raw).length = 4 := rfl
    show Kind.float.read (appendFixed32 raw ++ rest) = _
    rw [Kind.read_float, if_neg (by rw [length_append]; omega), readFixed32_appendFixed32,
      drop_left' h4]

theorem Kind.wireType_lt (k : Kind) : k.wireType < 8 := by cases k <;> decide

variable {f : Field} {n : ℕ}

section slots
variable {s : Schema}

theorem Slot.mem (i : Slot f s) (hn : f.number = some n) : n ∈ s.filterMap Field.number := by
  induction i with
  | here => simp [hn]
  | @there g s i ih =>
    rw [filterMap_cons]
    split
    · exact ih
    · exact mem_cons_of_mem _ ih

theorem find_slot (hs : (s.filterMap Field.number).Nodup) (i : Slot f s) (hn : f.number = some n) :
    find s n = some ⟨f, i⟩ := by
  induction i with
  | here => rw [find, if_pos hn]
  | @there g s i ih =>
    have hmem := i.mem hn
    have hne : g.number ≠ some n := by
      intro hg
      rw [filterMap_cons_some hg, nodup_cons] at hs
      exact hs.1 hmem
    have hs' : (s.filterMap Field.number).Nodup :=
      hs.sublist ((sublist_cons_self g s).filterMap _)
    rw [find, if_neg hne, ih hs']
    rfl

end slots

section result
variable {s : Schema}

theorem isTag_item (hs : WellNumbered s) (it : Item s) :
    IsTag it.number it.field.kind.wireType (appendTag it.number it.field.kind.wireType) := by
  have hsmall := hs.small _ (it.slot.mem it.number_eq)
  have hw := it.field.kind.wireType_lt
  exact isTag_appendTag (by omega) hw

open Item

theorem round_item (hs : WellNumbered s) (it : Item s) (hfit : it.bytes.length < 2 ^ 64)
    (v : Value s) (rest : List UInt8) :
    round s v (it.bytes ++ rest) = (it.apply v).map fun v' =>
      (⟨it.bytes ++ rest, it.number, it.field.kind.wireType, true⟩, v', rest) := by
  have hwrite : (it.field.kind.write it.raw).length < 2 ^ 64 := by
    refine lt_of_le_of_lt ?_ hfit
    rw [bytes, length_append]
    omega
  have hround := round_known (isTag_item hs it) (find_slot hs.nodup it.slot it.number_eq) v
    (Kind.read_write hwrite rest)
  have hassoc : it.bytes ++ rest = appendTag it.number it.field.kind.wireType ++
      (it.field.kind.write it.raw ++ rest) := by rw [bytes, append_assoc]
  rw [hassoc, hround, apply]
  dsimp only
  cases it.field.store it.raw (it.slot.get v) <;> rfl

theorem result_items (hs : WellNumbered s) (its : List (Item s)) (v : Value s)
    (hfit : (its.flatMap bytes).length < 2 ^ 64) :
    (decodeFrom s v (its.flatMap bytes)).result = its.foldlM apply v := by
  induction its generalizing v with
  | nil => rfl
  | cons it its ih =>
    rw [flatMap_cons, length_append] at hfit
    have hne : it.bytes ++ its.flatMap bytes ≠ [] := by
      unfold bytes
      rw [append_assoc]
      exact (isTag_item hs it).append_ne_nil
    have hround := round_item hs it (by omega) v (its.flatMap bytes)
    rw [flatMap_cons, foldlM_cons]
    cases happ : it.apply v with
    | error e =>
      rw [happ] at hround
      rw [decodeFrom_of_error hne hround]
      rfl
    | ok v' =>
      rw [happ] at hround
      rw [decodeFrom_of_ok hne hround]
      exact ih v' (by omega)

theorem marshal_eq (s : Schema) (v : Value s) : marshal s v = (items s v).flatMap bytes := by
  induction s with
  | nil => rfl
  | cons f s ih =>
    have hthere : ((items s v.2).map (there f)).flatMap bytes = (items s v.2).flatMap bytes := by
      rw [flatMap_map]
      rfl
    have hhere : f.write v.1 = (f.items s v.1).flatMap bytes := by
      unfold Field.write Field.items
      split
      · next h => split <;> simp_all
      · next n h =>
          split
          · simp_all
          · next m h' =>
              obtain rfl := Option.some.inj (h.symm.trans h')
              rw [flatMap_map]
              rfl
    rw [marshal, items, flatMap_append, hthere, ← ih, hhere]

theorem Field.back_of_number (h : f.number = some n) (c : f.Carrier) :
    f.back c = (f.put c).foldlM (fun acc raw => f.store raw acc) f.zero := by
  unfold Field.back
  rw [h]

theorem Field.back_of_none (h : f.number = none) (c : f.Carrier) : f.back c = .ok f.zero := by
  unfold Field.back
  rw [h]

/-- The items of a field change its own component only. -/
theorem foldlM_fieldItems (f : Field) (c : f.Carrier) (rest : Value s) :
    (f.items s c).foldlM apply (f.zero, rest) = (f.back c).map fun c' => (c', rest) := by
  unfold Field.items
  split
  · next h =>
      rw [Field.back_of_none h]
      rfl
  · next n hn =>
      rw [Field.back_of_number hn]
      generalize f.zero = acc
      generalize f.put c = raws
      induction raws generalizing acc with
      | nil => rfl
      | cons raw raws ih =>
        simp only [map_cons, foldlM_cons]
        simp only [apply, Slot.get, Slot.set]
        cases f.store raw acc with
        | error e => rfl
        | ok acc' => exact ih acc'

/-- The items of the other fields leave a component alone. -/
theorem foldlM_there (f : Field) (c : f.Carrier) (its : List (Item s)) (v : Value s) :
    (its.map (there f)).foldlM apply (c, v) = (its.foldlM apply v).map fun v' => (c, v') := by
  induction its generalizing v with
  | nil => rfl
  | cons it its ih =>
    simp only [map_cons, foldlM_cons]
    have happ : (it.there f).apply (c, v) = (it.apply v).map fun v' => (c, v') := by
      unfold apply there
      simp only [Slot.get, Slot.set]
      cases it.field.store it.raw (it.slot.get v) <;> rfl
    rw [happ]
    cases it.apply v with
    | error e => rfl
    | ok v' => exact ih v'

theorem foldlM_items (s : Schema) (v : Value s) :
    (items s v).foldlM apply (zero s) = returned s v := by
  induction s with
  | nil => rfl
  | cons f s ih =>
    rw [items, foldlM_append, zero, foldlM_fieldItems, returned]
    cases hback : f.back v.1 with
    | error e => rfl
    | ok c =>
      have hrest := foldlM_there f c (items s v.2) (zero s)
      rw [ih] at hrest
      refine Eq.trans hrest ?_
      cases returned s v.2 <;> rfl

/-- **What comes back.** -/
theorem result_marshal (hs : WellNumbered s) (v : Value s)
    (hfit : (marshal s v).length < 2 ^ 64) : (decode s (marshal s v)).result = returned s v := by
  rw [marshal_eq] at hfit ⊢
  rw [decode, result_items hs _ _ hfit, foldlM_items]

theorem returned_cons {v v' : Value (f :: s)} :
    returned (f :: s) v = .ok v' ↔ f.back v.1 = .ok v'.1 ∧ returned s v.2 = .ok v'.2 := by
  rw [returned]
  cases f.back v.1 with
  | error e => simp
  | ok c =>
    cases returned s v.2 with
    | error e => simp
    | ok r =>
      obtain ⟨c', r'⟩ := v'
      simp [Prod.ext_iff]

end result

end MumbleServer.Codec
