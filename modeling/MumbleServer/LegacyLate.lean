import MumbleServer.Runs
import MumbleServer.ReceiveState

/-! # Late packets in legacy mode

The packets of a sender are numbered by position; packet `k` carries the nonce `k` increments
past the start.  A receiver gets them in some order: each at most once, fewer than 30 positions
behind the newest one, and with no jump ahead of more than 127.

After an accepted packet the receiver's nonce is always the nonce of the newest packet.  But
not every packet is accepted.  For a late packet the code replaces the low byte of its nonce
and leaves the higher bytes, so a packet from before a wrap of the low byte is tried under the
wrong nonce.  And the history compares only the second byte of a nonce with what was last
stored for the first byte, where a slot that was never filled reads as zero.
There are no other reasons (`legacyLate_accepts_iff`). -/

namespace MumbleServer.Crypto

/-- A receiver, the newest position it has received and all of them, the last one first. -/
structure LateReceiver where
  crypt : CryptState
  newest : ℕ
  received : List ℕ

section packets
variable (block : LegacyCipher) (nonce : Block 16) (payload : ℕ → Bytes)

def packetAt (k : ℕ) : Bytes := legacyPacket block (nonce.advance k) (payload k)

namespace LateReceiver

def receive (r : LateReceiver) (k : ℕ) : Outcome :=
  r.crypt.decrypt (recvBuffer (packetAt block nonce payload k)) (packetAt block nonce payload k)

def step (r : LateReceiver) (k : ℕ) : LateReceiver where
  crypt := (r.receive block nonce payload k).state
  newest := max r.newest k
  received := k :: r.received

/-- The packet is accepted and leaves the nonce of the newest packet. -/
def Accepts (r : LateReceiver) (k : ℕ) : Prop :=
  (r.receive block nonce payload k).err = none ∧
    (r.receive block nonce payload k).state.decNonce = nonce.advance (max r.newest k)

/-- The receiver after `SetKey`, before the first packet. -/
def setup (ciphers : Ciphers) (key receiverEnc decNonce : Bytes) : LateReceiver where
  crypt := CryptState.keyed ciphers .legacy key receiverEnc decNonce
  newest := 0
  received := []

end LateReceiver

end packets

namespace LateReceiver

/-- The delivery orders considered. -/
def Admissible (r : LateReceiver) (k : ℕ) : Prop :=
  0 < k ∧ k ∉ r.received ∧ (r.newest < k → k - r.newest ≤ 127) ∧ (k ≤ r.newest → r.newest - k < 30)

/-- The low bytes of the nonces at two positions agree. -/
def sameSlot (nonce : Block 16) (k j : ℕ) : Bool :=
  decide ((nonce.advance j).get 0 = (nonce.advance k).get 0)

/-- The second byte that was last stored in the history slot of a position. -/
def slot (nonce : Block 16) (r : LateReceiver) (k : ℕ) : UInt8 :=
  match r.received.find? (sameSlot nonce k) with
  | some j => (nonce.advance j).get 1
  | none => 0

/-- The packet is ahead, or no wrap of the low byte lies between it and the newest one; and its
history slot holds another second byte than its own. -/
def Acceptable (nonce : Block 16) (r : LateReceiver) (k : ℕ) : Prop :=
  (r.newest < k ∨ (nonce.val + k) / 256 = (nonce.val + r.newest) / 256) ∧
    r.slot nonce k ≠ (nonce.advance k).get 1

end LateReceiver

/-! ### One packet -/

/-- The receiver is at the nonce of the newest packet, and the history is that of the packets
received. -/
structure LateInv (block : LegacyCipher) (nonce : Block 16) (r : LateReceiver) : Prop where
  mode : r.crypt.mode = .legacy
  key : r.crypt.legacyBlock = some block
  atNewest : r.crypt.decNonce = nonce.advance r.newest
  newest_mem : r.newest = 0 ∨ r.newest ∈ r.received
  history : ∀ k, r.crypt.decHistory ((nonce.advance k).get 0) = r.slot nonce k

open LateReceiver

theorem setup_lateInv (ciphers : Ciphers) {key receiverEnc decNonce : Bytes}
    (hk : key.length = legacyKeySize) (he : receiverEnc.length = 16) (hd : decNonce.length = 16) :
    LateInv (ciphers.newLegacy key) ⟨decNonce, hd⟩ (setup ciphers key receiverEnc decNonce) := by
  constructor <;>
    simp [setup, CryptState.keyed, CryptState.setKey, newCryptState, hk, he, hd,
      Block.advance, slot]

section step
variable {block : LegacyCipher} {nonce : Block 16} {payload : ℕ → Bytes} {r : LateReceiver} {k : ℕ}

/-- The nonce a late packet is tried under is its own unless the low byte wrapped. -/
theorem put_eq_advance_iff {m d : ℕ} (hd : d < 30) :
    (nonce.advance (m + d)).put 0 ((nonce.advance m).get 0) = nonce.advance m ↔
      (nonce.val + m) / 256 = (nonce.val + (m + d)) / 256 := by
  rw [← Block.val_inj, Block.val_put_zero, Block.get_zero_val, Block.val_advance,
    Block.val_advance]
  omega

theorem candidate_packetAt (h : LateInv block nonce r) (hadm : r.Admissible k) :
    ∃ n, candidate r.crypt.decNonce ((nonce.advance k).get 0) = some (n, decide (k ≤ r.newest)) ∧
      (n = nonce.advance k ↔
        r.newest < k ∨ (nonce.val + k) / 256 = (nonce.val + r.newest) / 256) := by
  obtain ⟨h0, hnew, hfwd, hback⟩ := hadm
  rw [h.atNewest]
  by_cases hlt : r.newest < k
  · refine ⟨nonce.advance k, ?_, by simp [hlt]⟩
    have hg := hfwd hlt
    have hk : nonce.advance k = (nonce.advance r.newest).advance (k - r.newest) := by
      rw [Block.advance_advance, Nat.add_sub_cancel' hlt.le]
    rw [hk, candidate_ahead _ (by omega) (by omega), decide_eq_false (Nat.not_le.mpr hlt)]
  · have hle := Nat.not_lt.mp hlt
    have hne : k ≠ r.newest := by
      rintro rfl
      rcases h.newest_mem with hz | hm
      · omega
      · exact hnew hm
    have hd := hback hle
    have hk : r.newest = k + (r.newest - k) := (Nat.add_sub_cancel' hle).symm
    refine ⟨(nonce.advance r.newest).put 0 ((nonce.advance k).get 0), ?_, ?_⟩
    · rw [hk, ← Block.advance_advance, candidate_late _ (by omega) (by omega), ← hk,
        decide_eq_true hle]
    · rw [hk, put_eq_advance_iff hd]
      simp only [← hk, hlt, false_or]

theorem find?_sameSlot_cons (k j : ℕ) (received : List ℕ) :
    (j :: received).find? (sameSlot nonce k) =
      if (nonce.advance j).get 0 = (nonce.advance k).get 0 then some j
      else received.find? (sameSlot nonce k) := by
  by_cases h : (nonce.advance j).get 0 = (nonce.advance k).get 0 <;>
    simp [sameSlot, h]

/-- The history after a packet was accepted is that of the packets received with it. -/
theorem slot_step (h : LateInv block nonce r) (i : ℕ) :
    Function.update r.crypt.decHistory ((nonce.advance k).get 0) ((nonce.advance k).get 1)
        ((nonce.advance i).get 0) = (r.step block nonce payload k).slot nonce i := by
  simp only [slot, step, find?_sameSlot_cons]
  by_cases hi : (nonce.advance k).get 0 = (nonce.advance i).get 0
  · simp [hi]
  · rw [Function.update_of_ne (fun he => hi he.symm), h.history, if_neg hi]
    rfl

/-- What an admissible packet does: it is accepted exactly if it is acceptable, and then the
invariant holds again. -/
theorem step_late (h : LateInv block nonce r) (hadm : r.Admissible k)
    (hideal : block.OpensOnlyUnder (nonce.advance k) (packetAt block nonce payload k)) :
    (r.Accepts block nonce payload k ↔ r.Acceptable nonce k) ∧
      (r.Accepts block nonce payload k →
        LateInv block nonce (r.step block nonce payload k)) := by
  obtain ⟨n, hc, hown⟩ := candidate_packetAt h hadm
  have href : r.crypt.RefusedUnder block n (packetAt block nonce payload k) ↔
      ¬ r.Acceptable nonce k := by
    have hfirst : (packetAt block nonce payload k).getD 0 0 = (nonce.advance k).get 0 := rfl
    rw [CryptState.RefusedUnder, hfirst, h.history, hideal n, hown, Acceptable]
    by_cases hhigh : r.newest < k ∨ (nonce.val + k) / 256 = (nonce.val + r.newest) / 256
    · rw [hown.mpr hhigh]
      simp [hhigh]
    · simp [hhigh]
  rcases decrypt_legacyPacket h.mode h.key hc (payload k) with ⟨hr, he⟩ | ⟨hr, he⟩
  · have hna : ¬ r.Accepts block nonce payload k := fun ha => he ha.1
    exact ⟨iff_of_false hna (href.mp hr), fun ha => absurd ha hna⟩
  · have hacc : r.Acceptable nonce k := not_not.mp (fun hn => hr (href.mpr hn))
    have hrecv : r.receive block nonce payload k = _ := he
    rw [hown.mpr hacc.1] at hrecv
    have hnonce : (r.receive block nonce payload k).state.decNonce =
        nonce.advance (max r.newest k) := by
      rw [hrecv]
      simp only [CryptState.accepted]
      by_cases hle : k ≤ r.newest
      · rw [if_pos (decide_eq_true hle), h.atNewest, max_eq_left hle]
      · rw [if_neg (by simpa using hle), max_eq_right (Nat.not_le.mp hle).le]
    have ha : r.Accepts block nonce payload k := ⟨by rw [hrecv], hnonce⟩
    refine ⟨iff_of_true ha hacc, fun _ => ?_⟩
    have hst : (r.step block nonce payload k).crypt = _ := congrArg Outcome.state hrecv
    constructor
    · rw [hst]; exact (accepted_mode ..).trans h.mode
    · rw [hst]; exact (accepted_legacyBlock ..).trans h.key
    · exact hnonce
    · right
      simp only [step]
      rcases h.newest_mem with hz | hm
      · simp [hz]
      · rcases max_choice r.newest k with hmax | hmax <;> simp [hmax, hm]
    · intro i
      rw [hst, ← slot_step h]
      rfl

end step

/-- **Late packets.**  In an admissible delivery order every packet is accepted, and leaves the
receiver at the nonce of the newest packet, exactly if every packet is acceptable. -/
theorem legacyLate_accepts_iff (ciphers : Ciphers) (key receiverEnc nonce : Bytes)
    (hk : key.length = legacyKeySize) (he : receiverEnc.length = 16) (hn : nonce.length = 16)
    (payload : ℕ → Bytes) (order : List ℕ)
    (hideal : ∀ k ∈ order, (ciphers.newLegacy key).OpensOnlyUnder (Block.advance ⟨nonce, hn⟩ k)
      (packetAt (ciphers.newLegacy key) ⟨nonce, hn⟩ payload k))
    (hadm : Along (LateReceiver.step (ciphers.newLegacy key) ⟨nonce, hn⟩ payload)
      LateReceiver.Admissible (LateReceiver.setup ciphers key receiverEnc nonce) order) :
    Along (LateReceiver.step (ciphers.newLegacy key) ⟨nonce, hn⟩ payload)
        (LateReceiver.Accepts (ciphers.newLegacy key) ⟨nonce, hn⟩ payload)
        (LateReceiver.setup ciphers key receiverEnc nonce) order ↔
      Along (LateReceiver.step (ciphers.newLegacy key) ⟨nonce, hn⟩ payload)
        (LateReceiver.Acceptable ⟨nonce, hn⟩)
        (LateReceiver.setup ciphers key receiverEnc nonce) order :=
  along_iff_of_inv (LateInv _ _) (fun _ _ h hp => (step_late h hp.1 hp.2).1)
    (fun _ _ h hp => (step_late h hp.1 hp.2).2) (setup_lateInv ciphers hk he hn)
    (hadm.and_forall hideal)

/-- Position 2 arrives before position 1, away from any wrap. -/
theorem legacyLate_accepts_iff_swapped :
    Along (LateReceiver.step padCipher ⟨List.replicate 16 1, rfl⟩ (fun _ => List.replicate 16 0))
        (LateReceiver.Accepts padCipher ⟨List.replicate 16 1, rfl⟩ (fun _ => List.replicate 16 0))
        (LateReceiver.setup sampleCiphers (List.replicate 16 7) (List.replicate 16 0)
          (List.replicate 16 1)) [2, 1] ↔
      Along (LateReceiver.step padCipher ⟨List.replicate 16 1, rfl⟩ (fun _ => List.replicate 16 0))
        (LateReceiver.Acceptable ⟨List.replicate 16 1, rfl⟩)
        (LateReceiver.setup sampleCiphers (List.replicate 16 7) (List.replicate 16 0)
          (List.replicate 16 1)) [2, 1] :=
  legacyLate_accepts_iff sampleCiphers (List.replicate 16 7) (List.replicate 16 0)
    (List.replicate 16 1) rfl rfl rfl (fun _ => List.replicate 16 0) [2, 1]
    (fun k _ => padCipher_packet (Block.advance ⟨List.replicate 16 1, rfl⟩ k))
    ⟨⟨by decide, by decide, by decide, by decide⟩, ⟨by decide, by decide, by decide, by decide⟩,
      trivial⟩

/-- A start nonce two increments before a wrap of its low byte. -/
def nonceBeforeWrap : Block 16 := ⟨254 :: List.replicate 15 5, rfl⟩

/-- Position 2 wraps the low byte; position 1 arrives after it and is refused. -/
theorem late_across_wrap_refused :
    (∀ k ∈ [2, 1], padCipher.OpensOnlyUnder (nonceBeforeWrap.advance k)
      (packetAt padCipher nonceBeforeWrap (fun _ => List.replicate 16 0) k)) ∧
    Along (LateReceiver.step padCipher nonceBeforeWrap (fun _ => List.replicate 16 0))
      LateReceiver.Admissible (LateReceiver.setup sampleCiphers (List.replicate 16 7)
        (List.replicate 16 0) nonceBeforeWrap.bytes) [2, 1] ∧
    ¬ Along (LateReceiver.step padCipher nonceBeforeWrap (fun _ => List.replicate 16 0))
      (LateReceiver.Accepts padCipher nonceBeforeWrap (fun _ => List.replicate 16 0))
      (LateReceiver.setup sampleCiphers (List.replicate 16 7) (List.replicate 16 0)
        nonceBeforeWrap.bytes) [2, 1] := by
  refine ⟨fun k _ => padCipher_packet (nonceBeforeWrap.advance k), ?_, ?_⟩
  · exact ⟨⟨by decide, by decide, by decide, by decide⟩, ⟨by decide, by decide, by decide,
      by decide⟩, trivial⟩
  · rintro ⟨-, ⟨herr, -⟩, -⟩
    exact absurd herr (by decide +kernel)

end MumbleServer.Crypto
