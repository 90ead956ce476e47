import MumbleServer.Runs
import MumbleServer.LegacyPacket

/-! # No replay in legacy mode

The history holds one byte for each value of the low nonce byte, so it forgets: a packet 256
increments later overwrites the slot.  It never forgets a nonce that can still be tried.  Call
the value of the nonce without its low byte its round.  A packet is tried in the round of the
stored nonce or in the next one, and the stored nonce never goes back a round.  So after a packet
of round `u` was accepted, either the stored nonce is still in round `u`, and then the slot of
the packet still holds its second byte, or it has moved on, and then the round `u` comes back
only after `2 ^ 120` rounds. -/

namespace MumbleServer.Crypto
variable {late : Bool} {block : LegacyCipher} {nonce : Block 16}

/-- The nonce without its low byte. -/
def round (nonce : Block 16) : ℕ := nonce.val / 256

theorem round_lt (nonce : Block 16) : round nonce < 2 ^ 120 := by
  have := nonce.val_lt
  unfold round
  omega

theorem get_one_eq_round (nonce : Block 16) : (nonce.get 1).toNat = round nonce % 256 :=
  nonce.get_one_val

/-- A packet is tried under a nonce with its own low byte, in the current round or the next; a
late packet in the current one. -/
theorem candidate_round {nonce n : Block 16} {ivByte : UInt8}
    (h : candidate nonce ivByte = some (n, late)) :
    n.get 0 = ivByte ∧
      (round n = round nonce ∨ (late = false ∧ round n = (round nonce + 1) % 2 ^ 120)) := by
  have hiv : ivByte.toNat < 256 := ivByte.toNat_lt
  have hlow : ∀ b : Block 16, b.val % 256 = ivByte.toNat → b.get 0 = ivByte := fun b hb =>
    UInt8.toNat_inj.mp (b.get_zero_val.trans hb)
  unfold candidate at h
  split_ifs at h
  · obtain ⟨rfl, rfl⟩ := Prod.mk.inj (Option.some.inj h)
    have hv := val_advanceNonce nonce ivByte
    refine ⟨hlow _ (by rw [hv]; omega), ?_⟩
    unfold round
    rw [hv]
    split_ifs
    · exact Or.inr ⟨rfl, by omega⟩
    · exact Or.inl (by omega)
  · obtain ⟨rfl, rfl⟩ := Prod.mk.inj (Option.some.inj h)
    have hv := nonce.val_put_zero ivByte
    refine ⟨hlow _ (by rw [hv]; omega), Or.inl ?_⟩
    unfold round
    rw [hv]
    omega

/-- One `decryptLegacy` call. -/
structure DecryptCall where
  dst : Bytes
  src : Bytes

/-- A legacy receiver, the calls made so far and the tag and ciphertext of every packet it has
accepted. -/
structure ReplayReceiver where
  crypt : CryptState
  calls : ℕ
  accepted : List Bytes

namespace ReplayReceiver

def step (r : ReplayReceiver) (call : DecryptCall) : ReplayReceiver where
  crypt := (r.crypt.decryptLegacy call.dst call.src).state
  calls := r.calls + 1
  accepted :=
    if (r.crypt.decryptLegacy call.dst call.src).err.isNone then call.src.drop 1 :: r.accepted
    else r.accepted

end ReplayReceiver

variable {r : ReplayReceiver}

/-- The packet with this tag and ciphertext opens under `nonce`, whose round was `q` rounds ago;
if it is the current round, the packet's slot holds its second byte. -/
def Remembered (block : LegacyCipher) (r : ReplayReceiver) (x : Bytes) : Prop :=
  ∃ nonce q, (∀ src, src.drop 1 = x → block.Opens nonce src) ∧ q ≤ r.calls ∧
    round r.crypt.decNonce = (round nonce + q) % 2 ^ 120 ∧
    (q = 0 → r.crypt.decHistory (nonce.get 0) = nonce.get 1)

structure ReplayInv (block : LegacyCipher) (r : ReplayReceiver) : Prop where
  key : r.crypt.legacyBlock = some block
  nodup : r.accepted.Nodup
  remembered : ∀ x ∈ r.accepted, Remembered block r x

/-! ### One call -/

/-- What a call leaves: the receiver as it was up to counters, or one more accepted packet. -/
theorem step_cases (hb : r.crypt.legacyBlock = some block)
    (call : DecryptCall) :
    ((r.step call).accepted = r.accepted ∧ (r.step call).crypt.decNonce = r.crypt.decNonce ∧
      (r.step call).crypt.decHistory = r.crypt.decHistory ∧
      (r.step call).crypt.legacyBlock = some block) ∨
    (∃ nonce late, candidate r.crypt.decNonce (call.src.getD 0 0) = some (nonce, late) ∧
      ¬ r.crypt.RefusedUnder block nonce call.src ∧
      (r.step call).accepted = call.src.drop 1 :: r.accepted ∧
      (r.step call).crypt = r.crypt.accepted (call.src.getD 0 0) nonce late) := by
  simp only [ReplayReceiver.step]
  by_cases hlen : legacyOverhead ≤ call.src.length
  swap
  · left
    simp [CryptState.decryptLegacy, hb, Nat.not_le.mp hlen]
  by_cases hfit : call.src.length - legacyOverhead ≤ call.dst.length
  swap
  · left
    simp [CryptState.decryptLegacy, hb, Nat.not_lt.mpr hlen, Nat.not_le.mp hfit]
  rcases decryptLegacy_cases hb hlen hfit with ⟨hc, he⟩ | ⟨nonce, late, hc, hr, dst', e, -, he⟩ |
    ⟨nonce, late, hc, hr, he⟩
  · left
    rw [he]
    exact ⟨rfl, rfl, rfl, hb⟩
  · left
    rw [he]
    exact ⟨rfl, counted_decNonce .., counted_decHistory .., (counted_legacyBlock ..).trans hb⟩
  · right
    rw [he]
    exact ⟨nonce, late, hc, hr, rfl, rfl⟩

theorem remembered_new {r r' : ReplayReceiver} {src : Bytes}
    (hc : candidate r.crypt.decNonce (src.getD 0 0) = some (nonce, late))
    (hr : ¬ r.crypt.RefusedUnder block nonce src)
    (hcrypt : r'.crypt = r.crypt.accepted (src.getD 0 0) nonce late) :
    Remembered block r' (src.drop 1) := by
  obtain ⟨hlow, hrounds⟩ := candidate_round hc
  have ho : block.Opens nonce src := not_not.mp (not_or.mp hr).2
  have hnonce : r'.crypt.decNonce = if late then r.crypt.decNonce else nonce := by rw [hcrypt]; rfl
  have hround : round r'.crypt.decNonce = round nonce := by
    rw [hnonce]
    cases late with
    | false => rfl
    | true => exact (hrounds.resolve_right (by simp)).symm
  refine ⟨nonce, 0, fun src' he => (LegacyCipher.opens_congr he).mpr ho, Nat.zero_le _, ?_, ?_⟩
  · rw [hround, Nat.add_zero, Nat.mod_eq_of_lt (round_lt nonce)]
  · intro _
    rw [hcrypt, hlow]
    exact Function.update_self ..

theorem remembered_accept {r r' : ReplayReceiver} {ivByte : UInt8}
    (hc : candidate r.crypt.decNonce ivByte = some (nonce, late))
    (hcrypt : r'.crypt = r.crypt.accepted ivByte nonce late) (hcalls : r'.calls = r.calls + 1)
    {x : Bytes} (h : Remembered block r x) : Remembered block r' x := by
  obtain ⟨n, q, hopen, hq, hround, hslot⟩ := h
  obtain ⟨hlow, hrounds⟩ := candidate_round hc
  have hlt := round_lt r.crypt.decNonce
  have hnonce : r'.crypt.decNonce = if late then r.crypt.decNonce else nonce := by rw [hcrypt]; rfl
  have hhist : r'.crypt.decHistory = Function.update r.crypt.decHistory ivByte (nonce.get 1) := by
    rw [hcrypt]; rfl
  rcases hrounds with hsame | ⟨hl, hnext⟩
  · -- the same round: an overwritten slot gets the same second byte
    have hr' : round r'.crypt.decNonce = round r.crypt.decNonce := by
      rw [hnonce]
      split_ifs
      · rfl
      · exact hsame
    refine ⟨n, q, hopen, by omega, hr'.trans hround, fun hq0 => ?_⟩
    rw [hhist]
    by_cases he : n.get 0 = ivByte
    · rw [he, Function.update_self]
      apply UInt8.toNat_inj.mp
      have := round_lt n
      rw [get_one_eq_round, get_one_eq_round, hsame, hround, hq0]
      omega
    · rw [Function.update_of_ne he]
      exact hslot hq0
  · have hr' : round r'.crypt.decNonce = (round r.crypt.decNonce + 1) % 2 ^ 120 := by
      rw [hnonce, hl]
      exact hnext
    exact ⟨n, q + 1, hopen, by omega, by omega, fun h0 => by omega⟩

theorem refused_of_remembered {src : Bytes} (hone : block.OpensUnderOne src)
    (hcalls : r.calls + 1 < 2 ^ 120)
    (hc : candidate r.crypt.decNonce (src.getD 0 0) = some (nonce, late))
    (h : Remembered block r (src.drop 1)) : r.crypt.RefusedUnder block nonce src := by
  obtain ⟨n, q, hopen, hq, hround, hslot⟩ := h
  obtain ⟨hlow, hrounds⟩ := candidate_round hc
  by_contra hr
  obtain ⟨hh, ho⟩ := not_or.mp hr
  obtain rfl : n = nonce := hone n nonce (hopen src rfl) (not_not.mp ho)
  have hlt := round_lt n
  rcases hrounds with hsame | ⟨-, hnext⟩
  · have hq0 : q = 0 := by omega
    exact hh (hlow ▸ hslot hq0)
  · omega

theorem step_replayInv {call : DecryptCall}
    (h : ReplayInv block r) (hone : block.OpensUnderOne call.src)
    (hcalls : r.calls + 1 < 2 ^ 120) : ReplayInv block (r.step call) := by
  rcases step_cases h.key call with ⟨hacc, hnonce, hhist, hkey⟩ | ⟨nonce, late, hc, hr, hacc, hcrypt⟩
  · refine ⟨hkey, by rw [hacc]; exact h.nodup, fun x hx => ?_⟩
    rw [hacc] at hx
    obtain ⟨n, q, hopen, hq, hround, hslot⟩ := h.remembered x hx
    refine ⟨n, q, hopen, ?_, by rw [hnonce]; exact hround, by rw [hhist]; exact hslot⟩
    exact hq.trans (Nat.le_succ _)
  · have hnew : call.src.drop 1 ∉ r.accepted := fun hm =>
      hr (refused_of_remembered hone hcalls hc (h.remembered _ hm))
    refine ⟨?_, ?_, fun x hx => ?_⟩
    · rw [hcrypt]; exact (accepted_legacyBlock ..).trans h.key
    · rw [hacc]
      exact List.nodup_cons.mpr ⟨hnew, h.nodup⟩
    · rw [hacc, List.mem_cons] at hx
      rcases hx with rfl | hx
      · exact remembered_new hc hr hcrypt
      · exact remembered_accept hc hcrypt rfl (h.remembered x hx)

/-! ### Runs -/

theorem along_calls {calls : List DecryptCall} {bound : ℕ}
    (h : r.calls + calls.length < bound) :
    Along ReplayReceiver.step (fun r _ => r.calls + 1 < bound) r calls := by
  induction calls generalizing r with
  | nil => trivial
  | cons call calls ih =>
    rw [List.length_cons] at h
    have hcalls : (r.step call).calls = r.calls + 1 := rfl
    exact ⟨by omega, ih (by omega)⟩

/-- **No replay.**  Whatever the state it starts from, a legacy receiver accepts no tag and
ciphertext twice within fewer than `2 ^ 120` calls. -/
theorem legacy_no_replay (block : LegacyCipher) (c : CryptState) (hb : c.legacyBlock = some block)
    (calls : List DecryptCall) (hcalls : calls.length < 2 ^ 120)
    (hone : ∀ call ∈ calls, block.OpensUnderOne call.src) :
    (run ReplayReceiver.step ⟨c, 0, []⟩ calls).accepted.Nodup := by
  have hinit : ReplayInv block ⟨c, 0, []⟩ := ⟨hb, List.nodup_nil, by simp⟩
  have hpre := (along_calls (r := ⟨c, 0, []⟩) (by simpa using hcalls)).and_forall hone
  exact (run_inv (fun r call h hp => step_replayInv h hp.2 hp.1) hinit hpre).nodup

def nextPacket : Bytes :=
  legacyPacket padCipher (Block.advance ⟨List.replicate 16 1, rfl⟩ 1) (List.replicate 16 0)

/-- A receiver at the nonce of ones that gets the next packet twice. -/
def duplicateRun : ReplayReceiver :=
  run ReplayReceiver.step ⟨CryptState.keyed sampleCiphers .legacy (List.replicate 16 7)
      (List.replicate 16 0) (List.replicate 16 1), 0, []⟩
    (List.replicate 2 ⟨List.replicate 16 0, nextPacket⟩)

theorem legacy_no_replay_duplicate :
    duplicateRun.accepted = [nextPacket.drop 1] ∧ duplicateRun.accepted.Nodup := by
  refine ⟨by decide +kernel, legacy_no_replay padCipher _ rfl _ (by decide) fun call hcall => ?_⟩
  rw [List.eq_of_mem_replicate hcall]
  exact (padCipher_packet _).opensUnderOne

end MumbleServer.Crypto
