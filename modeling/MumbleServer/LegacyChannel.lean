import MumbleServer.Runs
import MumbleServer.ReceiveState

/-! # A legacy channel without loss

A sender and a receiver with one key and one nonce; every packet arrives, in order.  The
receiver rebuilds the sender's nonce from one byte, and this works through every wrap and
carry: after `k` packets both sides are `k` increments past the start.

What fails is the replay check.  The history that remembers the second nonce byte of the last
packet with a given first byte starts zeroed, and zero is also a legitimate second byte.  So a
packet among the first 256 is taken for a replay when the second byte of its nonce is zero, and
only then (`legacyChannel_delivers_iff`). -/

namespace MumbleServer.Crypto

/-- The ciphers of the source: OCB2 over AES in legacy mode, GCM in secure mode. -/
def ocb2Ciphers (aes : Bytes → Ocb2.BlockCipher) (gcm : Bytes → AEAD) : Ciphers where
  newLegacy key := ocb2Cipher (aes key)
  newSecure := gcm

/-- Two ends of a channel, and the number of packets sent over it. -/
structure LegacyChannel where
  sender : CryptState
  receiver : CryptState
  sent : ℕ

namespace LegacyChannel

/-- The nonce is the encryption nonce of the sender and the decryption nonce of the receiver;
the nonces of the other direction are arbitrary. -/
def setup (ciphers : Ciphers) (key nonce senderDec receiverEnc : Bytes) : LegacyChannel where
  sender := CryptState.keyed ciphers .legacy key nonce senderDec
  receiver := CryptState.keyed ciphers .legacy key receiverEnc nonce
  sent := 0

/-- `Encrypt` into a buffer of the packet's size. -/
def send (ch : LegacyChannel) (plain : Bytes) : Outcome :=
  ch.sender.encrypt (List.replicate (plain.length + ch.sender.overhead) 0) plain

/-- `Decrypt` of the packet. -/
def receive (ch : LegacyChannel) (plain : Bytes) : Outcome :=
  ch.receiver.decrypt (recvBuffer (ch.send plain).dst) (ch.send plain).dst

def step (ch : LegacyChannel) (plain : Bytes) : LegacyChannel where
  sender := (ch.send plain).state
  receiver := (ch.receive plain).state
  sent := ch.sent + 1

/-- The packet is accepted and gives the plaintext back. -/
def Delivers (ch : LegacyChannel) (plain : Bytes) : Prop :=
  (ch.receive plain).err = none ∧
    (ch.receive plain).dst.take ((ch.send plain).dst.length - ch.receiver.overhead) = plain

end LegacyChannel

/-- The packet with this number is not taken for a replay: it is past the first 256, or the
second byte of its nonce is not zero. -/
def PassesHistory (nonce : Block 16) (k : ℕ) : Prop :=
  k ≤ 256 → (nonce.advance k).get 1 ≠ 0

/-- Both sides are at the same nonce, and the history slots of the next 256 packets hold the
second byte of the packet 256 before, or zero if there was none. -/
structure ChannelInv (block : LegacyCipher) (nonce : Block 16) (ch : LegacyChannel) : Prop where
  sendMode : ch.sender.mode = .legacy
  recvMode : ch.receiver.mode = .legacy
  sendKey : ch.sender.legacyBlock = some block
  recvKey : ch.receiver.legacyBlock = some block
  sendNonce : ch.sender.encNonce = nonce.advance ch.sent
  recvNonce : ch.receiver.decNonce = nonce.advance ch.sent
  history : ∀ j, ch.sent < j → j ≤ ch.sent + 256 →
    ch.receiver.decHistory ((nonce.advance j).get 0) =
      if j ≤ 256 then 0 else (nonce.advance (j - 256)).get 1

open LegacyChannel CryptState Block

theorem setup_channelInv (ciphers : Ciphers) {key nonce senderDec receiverEnc : Bytes}
    (hk : key.length = legacyKeySize) (hn : nonce.length = 16) (hs : senderDec.length = 16)
    (hr : receiverEnc.length = 16) :
    ChannelInv (ciphers.newLegacy key) ⟨nonce, hn⟩
      (setup ciphers key nonce senderDec receiverEnc) := by
  constructor <;>
    simp [setup, keyed, setKey, newCryptState, hk, hn, hs, hr,
      advance]
  intro j _ hj hgt
  omega

section step
variable {block : LegacyCipher} {nonce : Block 16} {ch : LegacyChannel}

theorem send_eq (h : ChannelInv block nonce ch) (plain : Bytes) :
    ch.send plain = ⟨{ ch.sender with encNonce := nonce.advance (ch.sent + 1) },
      legacyPacket block (nonce.advance (ch.sent + 1)) plain, none⟩ := by
  have hover : ch.sender.overhead = legacyOverhead := by
    simp [overhead, h.sendMode]
  simp only [send, encrypt, h.sendMode, hover,
    encryptLegacy_eq block plain h.sendKey, h.sendNonce]
  rfl

section
variable (hinv : block.Inverts) (h : ChannelInv block nonce ch) (plain : Bytes)
include hinv h plain

/-- The packet is tried under its own nonce, and only the history can refuse it. -/
theorem receive_cases :
    (ch.receiver.decHistory ((nonce.advance (ch.sent + 1)).get 0) =
        (nonce.advance (ch.sent + 1)).get 1 ∧ ¬ ch.Delivers plain) ∨
    (ch.receiver.decHistory ((nonce.advance (ch.sent + 1)).get 0) ≠
        (nonce.advance (ch.sent + 1)).get 1 ∧ ch.Delivers plain ∧
      (ch.receive plain).state = ch.receiver.accepted ((nonce.advance (ch.sent + 1)).get 0)
        (nonce.advance (ch.sent + 1)) false) := by
  have hdst : (ch.send plain).dst = legacyPacket block (nonce.advance (ch.sent + 1)) plain := by
    rw [send_eq h]
  have hcand : candidate ch.receiver.decNonce ((nonce.advance (ch.sent + 1)).get 0) =
      some (nonce.advance (ch.sent + 1), false) := by
    rw [h.recvNonce, ← advance_advance]
    exact candidate_ahead _ Nat.one_pos (by omega)
  have hover : ch.receiver.overhead = legacyOverhead := by
    simp [overhead, h.recvMode]
  have hopens := legacyPacket_opens block (nonce.advance (ch.sent + 1)) plain hinv
  have hcases := decrypt_legacyPacket h.recvMode h.recvKey hcand plain
  rw [← hdst] at hcases
  rcases hcases with ⟨hr, he⟩ | ⟨hr, he⟩
  · left
    refine ⟨?_, fun hd => he hd.1⟩
    rw [hdst] at hr
    exact hr.resolve_right (not_not.mpr hopens)
  · right
    have he' : ch.receive plain = _ := he
    rw [hdst] at hr
    refine ⟨fun hh => hr (Or.inl hh), ⟨by rw [he'], ?_⟩, by rw [he']⟩
    rw [he', hdst, hover, legacyPacket_length, hinv, Nat.add_sub_cancel]
    simp only [copyBytes, recvBuffer, List.length_replicate, legacyPacket_length]
    rw [List.take_of_length_le (by omega : plain.length ≤ plain.length + legacyOverhead + 256),
      List.take_left]

theorem delivers_iff : ch.Delivers plain ↔ PassesHistory nonce (ch.sent + 1) := by
  have hslot := h.history (ch.sent + 1) (by omega) (by omega)
  have hpass : ch.receiver.decHistory ((nonce.advance (ch.sent + 1)).get 0) ≠
      (nonce.advance (ch.sent + 1)).get 1 ↔ PassesHistory nonce (ch.sent + 1) := by
    rw [hslot, PassesHistory]
    split_ifs with hk
    · simp only [hk, true_imp_iff]
      exact ne_comm
    · -- 256 packets earlier the second byte was one less
      simp only [hk, false_imp_iff, iff_true]
      intro he
      have hv := congrArg UInt8.toNat he
      rw [get_one_val, get_one_val, val_advance, val_advance] at hv
      omega
  rw [← hpass]
  rcases receive_cases hinv h plain with ⟨hh, hd⟩ | ⟨hh, hd, -⟩
  · simp [hh, hd]
  · simp [hh, hd]

theorem step_channelInv (hd : ch.Delivers plain) : ChannelInv block nonce (ch.step plain) := by
  rcases receive_cases hinv h plain with ⟨-, hn⟩ | ⟨-, -, hst⟩
  · exact absurd hd hn
  have hs : (ch.step plain).sender = { ch.sender with encNonce := nonce.advance (ch.sent + 1) } := by
    simp only [step, send_eq h]
  have hr : (ch.step plain).receiver = _ := hst
  constructor
  · rw [hs]; exact h.sendMode
  · rw [hr]; exact (accepted_mode ..).trans h.recvMode
  · rw [hs]; exact h.sendKey
  · rw [hr]; exact (accepted_legacyBlock ..).trans h.recvKey
  · rw [hs]; rfl
  · rw [hr]; rfl
  · intro j hj hj'
    have hj1 : ch.sent + 1 < j := hj
    have hj2 : j ≤ ch.sent + 1 + 256 := hj'
    have hlow : ∀ i, ((nonce.advance i).get 0).toNat = (nonce.val + i) % 256 := fun i => by
      rw [get_zero_val, val_advance]
      omega
    rw [hr]
    simp only [accepted]
    by_cases hlast : j = ch.sent + 1 + 256
    · -- the slot just written is the one of the packet 256 increments later
      have he : (nonce.advance j).get 0 = (nonce.advance (ch.sent + 1)).get 0 := by
        apply UInt8.toNat_inj.mp
        rw [hlow, hlow]
        omega
      rw [he, Function.update_self, if_neg (by omega), hlast, Nat.add_sub_cancel]
    · have hne : (nonce.advance j).get 0 ≠ (nonce.advance (ch.sent + 1)).get 0 := fun he => by
        have := congrArg UInt8.toNat he
        rw [hlow, hlow] at this
        omega
      rw [Function.update_of_ne hne]
      exact h.history j (by omega) (by omega)

end

end step

theorem along_passesHistory (nonce : Block 16) (ch : LegacyChannel) (plains : List Bytes) :
    Along step (fun c _ => PassesHistory nonce (c.sent + 1)) ch plains ↔
      ∀ k, ch.sent < k → k ≤ ch.sent + plains.length → PassesHistory nonce k := by
  induction plains generalizing ch with
  | nil =>
    simp only [along_nil, List.length_nil, true_iff]
    intro k h1 h2
    omega
  | cons plain plains ih =>
    rw [along_cons, ih]
    simp only [step, List.length_cons]
    constructor
    · rintro ⟨h1, h2⟩ k hk hk'
      rcases Nat.eq_or_lt_of_le (Nat.succ_le_of_lt hk) with rfl | hlt
      · exact h1
      · exact h2 k hlt (by omega)
    · intro hall
      exact ⟨hall _ (by omega) (by omega), fun k h1 h2 => hall k (by omega) (by omega)⟩

/-- **Legacy channel.**  Every packet of a loss-free legacy channel is accepted and yields its
plaintext exactly if none of the first 256 has a nonce whose second byte is zero. -/
theorem legacyChannel_delivers_iff (aes : Bytes → Ocb2.BlockCipher) (gcm : Bytes → AEAD)
    (key nonce senderDec receiverEnc : Bytes) (hk : key.length = legacyKeySize)
    (hn : nonce.length = 16) (hs : senderDec.length = 16) (hr : receiverEnc.length = 16)
    (plains : List Bytes) :
    Along LegacyChannel.step LegacyChannel.Delivers
        (LegacyChannel.setup (ocb2Ciphers aes gcm) key nonce senderDec receiverEnc) plains ↔
      ∀ k, 0 < k → k ≤ plains.length → k ≤ 256 → (leVal nonce + k) / 256 % 256 ≠ 0 := by
  have hinit := setup_channelInv (ocb2Ciphers aes gcm) hk hn hs hr
  have hinv := ocb2Cipher_inverts (aes key)
  have hruns : Along step Delivers
        (setup (ocb2Ciphers aes gcm) key nonce senderDec receiverEnc) plains ↔
      Along step (fun c _ => PassesHistory ⟨nonce, hn⟩ (c.sent + 1))
        (setup (ocb2Ciphers aes gcm) key nonce senderDec receiverEnc) plains :=
    along_iff_of_inv_true (ChannelInv _ _) (fun _ plain h => delivers_iff hinv h plain)
      (fun _ plain h hd => step_channelInv hinv h plain hd) hinit plains
  rw [hruns, along_passesHistory]
  have hbyte : ∀ k, (advance ⟨nonce, hn⟩ k).get 1 ≠ 0 ↔ (leVal nonce + k) / 256 % 256 ≠ 0 := by
    intro k
    rw [ne_eq, ← UInt8.toNat_inj, get_one_val, val_advance, UInt8.toNat_zero]
    have hval : val ⟨nonce, hn⟩ = leVal nonce := rfl
    rw [hval]
    omega
  simp only [PassesHistory, hbyte, setup, Nat.zero_add]

def idCipher : Ocb2.BlockCipher where
  encrypt b := b
  decrypt b := b
  decrypt_encrypt _ := rfl

theorem legacyChannel_delivers_iff_two_packets :
    Along LegacyChannel.step LegacyChannel.Delivers
        (LegacyChannel.setup (ocb2Ciphers (fun _ => idCipher) (fun _ => tagAEAD))
          (List.replicate 16 7) (List.replicate 16 255) (List.replicate 16 0)
          (List.replicate 16 0)) [[1, 2, 3], []] ↔
      ∀ k, 0 < k → k ≤ [[1, 2, 3], ([] : Bytes)].length → k ≤ 256 →
        (leVal (List.replicate 16 255) + k) / 256 % 256 ≠ 0 :=
  legacyChannel_delivers_iff (fun _ => idCipher) (fun _ => tagAEAD) (List.replicate 16 7)
    (List.replicate 16 255) (List.replicate 16 0) (List.replicate 16 0) rfl rfl rfl rfl _

/-- With a zero start nonce the first packet is taken for a replay. -/
theorem first_packet_refused :
    ¬ Along LegacyChannel.step LegacyChannel.Delivers
        (LegacyChannel.setup (ocb2Ciphers (fun _ => idCipher) (fun _ => tagAEAD))
          (List.replicate 16 7) (List.replicate 16 0) (List.replicate 16 0)
          (List.replicate 16 0)) [[1, 2, 3]] := by
  rintro ⟨⟨herr, -⟩, -⟩
  exact absurd herr (by decide +kernel)

end MumbleServer.Crypto
