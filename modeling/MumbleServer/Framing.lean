import MumbleServer.ByteBlock

/-! # Packets on a stream

`pkg/mumble/protocol/framing.go`: a packet is its type in two bytes, the length of its payload in
four, the highest first, and the payload.  `Run` (`internal/connection/conn.go`) reads one packet
after the other until there is an error. -/

namespace MumbleServer.Framing

open List

/-- The type and the payload. -/
abbrev Packet := UInt16 × Bytes

inductive ReadError
  | eof
  | unexpectedEOF
  | payloadTooLarge

def maxPayloadSize : ℕ := 8 * 1024 * 1024

def writePacket (p : Packet) : Bytes :=
  UInt8.ofNat (p.1.toNat / 2 ^ 8) :: UInt8.ofNat p.1.toNat ::
    -- `uint32` takes the length modulo `2 ^ 32`
    UInt8.ofNat (p.2.length / 2 ^ 24) :: UInt8.ofNat (p.2.length / 2 ^ 16) ::
    UInt8.ofNat (p.2.length / 2 ^ 8) :: UInt8.ofNat p.2.length :: p.2

/-- `ReadPacket` after the header: the packet and the bytes that are left. -/
def readPayload (msgType : UInt16) (length : ℕ) (b : Bytes) : Except ReadError (Packet × Bytes) :=
  if maxPayloadSize < length then .error .payloadTooLarge
  else if length ≤ b.length then .ok ((msgType, b.take length), b.drop length)
  else .error (if b = [] then .eof else .unexpectedEOF)

def readPacket : Bytes → Except ReadError (Packet × Bytes)
  | t₁ :: t₀ :: l₃ :: l₂ :: l₁ :: l₀ :: b =>
    readPayload (UInt16.ofNat (t₁.toNat * 2 ^ 8 + t₀.toNat))
      (l₃.toNat * 2 ^ 24 + l₂.toNat * 2 ^ 16 + l₁.toNat * 2 ^ 8 + l₀.toNat) b
  | [] => .error .eof
  | _ => .error .unexpectedEOF

section
variable {b rest : Bytes} {p : Packet}

theorem readPayload_iff {t : UInt16} {n : ℕ} : readPayload t n b = .ok (p, rest) ↔
    n ≤ maxPayloadSize ∧ p.1 = t ∧ p.2.length = n ∧ b = p.2 ++ rest := by
  unfold readPayload
  constructor
  · intro h
    split_ifs at h with hmax hlen
    cases h
    exact ⟨Nat.le_of_not_lt hmax, rfl, length_take_of_le hlen, (take_append_drop n b).symm⟩
  · rintro ⟨hmax, rfl, rfl, rfl⟩
    rw [if_neg (Nat.not_lt.mpr hmax), if_pos (by simp), take_left, drop_left]

theorem ofNat_eq {n : ℕ} {c : UInt8} (h : n % 256 = c.toNat) : UInt8.ofNat n = c :=
  UInt8.toNat_inj.mp (UInt8.toNat_ofNat'.trans h)

theorem readPacket_iff :
    readPacket b = .ok (p, rest) ↔ p.2.length ≤ maxPayloadSize ∧ b = writePacket p ++ rest := by
  constructor
  · intro h
    unfold readPacket at h
    split at h
    case h_1 t₁ t₀ l₃ l₂ l₁ l₀ b =>
      obtain ⟨hmax, ht, hlen, rfl⟩ := readPayload_iff.mp h
      refine ⟨hlen ▸ hmax, ?_⟩
      have := t₁.toNat_lt; have := t₀.toNat_lt; have := l₃.toNat_lt
      have := l₂.toNat_lt; have := l₁.toNat_lt; have := l₀.toNat_lt
      rw [writePacket, ht, hlen, UInt16.toNat_ofNat']
      congr <;> exact (ofNat_eq (by omega)).symm
    all_goals cases h
  · rintro ⟨hmax, rfl⟩
    have hlt : p.2.length < 2 ^ 32 := by
      unfold maxPayloadSize at hmax
      omega
    have hp := p.1.toNat_lt
    refine readPayload_iff.mpr ?_
    simp only [UInt8.toNat_ofNat']
    refine ⟨le_of_eq_of_le ?_ hmax, UInt16.toNat_inj.mp (.trans ?_ UInt16.toNat_ofNat'.symm), ?_, rfl⟩
    all_goals
      clear hmax
      omega

end

/-- The packets that `Run` reads, and the error that ends it. -/
def packets (b : Bytes) : List Packet × ReadError :=
  match h : readPacket b with
  | .error e => ([], e)
  | .ok (p, rest) =>
    have : rest.length < b.length := by
      rw [(readPacket_iff.mp h).2, length_append]
      exact Nat.lt_add_of_pos_left (Nat.succ_pos _)
    (p :: (packets rest).1, (packets rest).2)
termination_by b.length

/-- **Exactly the packets that were written are read**: whatever the bytes, they are the packets
that are read, as `WritePacket` writes them, and then bytes that begin with no packet. -/
theorem packets_iff (b : Bytes) (ps : List Packet) (e : ReadError) :
    packets b = (ps, e) ↔ (∀ p ∈ ps, p.2.length ≤ maxPayloadSize) ∧
      ∃ rest, b = ps.flatMap writePacket ++ rest ∧ readPacket rest = .error e := by
  induction ps generalizing b with
  | nil =>
    unfold packets
    split <;> next h => simp [h]
  | cons p ps ih =>
    have hread : packets b = (p :: ps, e) ↔
        ∃ rest, readPacket b = .ok (p, rest) ∧ packets rest = (ps, e) := by
      rw [packets]
      split <;> next h => simp [h, Prod.ext_iff, and_assoc]
    rw [hread]
    simp only [readPacket_iff, ih, forall_mem_cons, flatMap_cons, append_assoc]
    grind

end MumbleServer.Framing
