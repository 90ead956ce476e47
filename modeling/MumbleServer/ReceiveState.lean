import MumbleServer.LegacyPacket

/-! # The receive state after a failed decryption

`Decrypt` updates the nonce or the window before it authenticates.  Legacy mode restores the
nonce on every failure, but the counters `Lost` and `Late` keep what the refused packet added
to them; secure mode restores nothing.  `failedDecrypt_keeps_state_iff` says which packets leave the
receive state alone: those that do not reach such an update (`CryptState.Disturbs`).

`HandleUDP` offers a datagram from an unknown address to one session after the other
(`trialDecrypt`).  The sessions that refuse it keep their receive state exactly when none of
those asked before the owner is disturbed. -/

namespace MumbleServer.Crypto

open List
variable {c : CryptState}

/-- The receive side of a crypt state. -/
structure RecvState where
  decNonce : Block 16
  decHistory : UInt8 → UInt8
  decMax : UInt64
  decBitmap : Block 8
  good : UInt32
  late : UInt32
  lost : UInt32

namespace CryptState

def recv (c : CryptState) : RecvState :=
  ⟨c.decNonce, c.decHistory, c.decMax, c.decBitmap, c.good, c.late, c.lost⟩

/-- A legacy packet that is not the next one, has a nonce to try and is refused under it. -/
def DisturbsLegacy (c : CryptState) (block : LegacyCipher) (dst src : Bytes) : Prop :=
  legacyOverhead ≤ src.length ∧ src.length - legacyOverhead ≤ dst.length ∧
  nonceDiff (src.getD 0 0) (c.decNonce.get 0) ≠ 1 ∧
  ∃ nonce late, candidate c.decNonce (src.getD 0 0) = some (nonce, late) ∧
    c.RefusedUnder block nonce src

/-- A secure packet that passes the window check and is then not delivered: it does not
authenticate, or its plaintext does not fit. -/
def DisturbsSecure (c : CryptState) (aead : AEAD) (dst src : Bytes) : Prop :=
  secureOverhead ≤ src.length ∧
  (c.decMax < nonceCounter src ∨
    (c.decMax - nonceCounter src < 64 ∧ c.windowBit (nonceCounter src) = false)) ∧
  ∀ plain, aead.Open (src.take secureNonceSize) (src.drop secureNonceSize) = some plain →
    dst.length < plain.length

/-- The packet reaches an update of the receive state and is then refused. -/
def Disturbs (c : CryptState) (dst src : Bytes) : Prop :=
  match c.mode with
  | .lite => False
  | .legacy => ∃ block, c.legacyBlock = some block ∧ c.DisturbsLegacy block dst src
  | .secure => ∃ aead, c.secureAEAD = some aead ∧ c.DisturbsSecure aead dst src

/-- If the decryption fails, the receive state is what it was. -/
def FailureKeepsState (c : CryptState) (dst src : Bytes) : Prop :=
  ∀ e, (c.decrypt dst src).err = some e → (c.decrypt dst src).state.recv = c.recv

end CryptState

/-! ### Legacy mode -/

open CryptState

/-- Counting a packet leaves a trace unless it is the next one. -/
theorem counted_recv_eq_iff (c : CryptState) (ivByte : UInt8) :
    (c.counted ivByte).recv = c.recv ↔ nonceDiff ivByte (c.decNonce.get 0) = 1 := by
  have hle := nonceDiff_le ivByte (c.decNonce.get 0)
  unfold counted
  split_ifs with h
  · constructor
    · intro he
      by_contra hne
      have hlost := congrArg UInt32.toNat (UInt32.add_eq_left.mp (congrArg RecvState.lost he))
      rw [UInt32.toNat_ofNat', Nat.mod_eq_of_lt (by omega)] at hlost
      change _ = 0 at hlost
      omega
    · intro h1
      simp [h1]
  · constructor
    · intro he
      exact absurd (UInt32.add_eq_left.mp (congrArg RecvState.late he)) (by decide)
    · intro h1
      omega

theorem decryptLegacy_keeps_iff {block : LegacyCipher}
    (hb : c.legacyBlock = some block) (dst src : Bytes) :
    (∀ e, (c.decryptLegacy dst src).err = some e → (c.decryptLegacy dst src).state.recv = c.recv) ↔
      ¬ c.DisturbsLegacy block dst src := by
  unfold DisturbsLegacy
  by_cases hlen : legacyOverhead ≤ src.length
  swap
  · simp [decryptLegacy, hb, hlen, Nat.not_le.mp hlen]
  by_cases hfit : src.length - legacyOverhead ≤ dst.length
  swap
  · simp [decryptLegacy, hb, Nat.not_lt.mpr hlen, hfit, Nat.not_le.mp hfit]
  rcases decryptLegacy_cases hb hlen hfit with ⟨hc, he⟩ | ⟨nonce, late, hc, hr, dst', e, -, he⟩ |
    ⟨nonce, late, hc, hr, he⟩
  · rw [he, hc]
    simp
  · -- refused under the candidate: what remains is the count
    rw [he]
    constructor
    · rintro hk ⟨-, -, hne, -⟩
      exact hne ((counted_recv_eq_iff c _).mp (hk e rfl))
    · intro hnd e' _
      refine (counted_recv_eq_iff c _).mpr ?_
      by_contra hne
      exact hnd ⟨hlen, hfit, hne, nonce, late, hc, hr⟩
  · rw [he, hc]
    simp [hr]

/-! ### Secure mode -/

theorem openSecure_state (c : CryptState) (aead : AEAD) (dst src : Bytes) :
    (c.openSecure aead dst src).state = c := by
  unfold openSecure
  cases aead.Open (src.take secureNonceSize) (src.drop secureNonceSize) with
  | none => rfl
  | some plain => simp only; split_ifs <;> rfl

theorem openSecure_err_iff (c : CryptState) (aead : AEAD) (dst src : Bytes) :
    (c.openSecure aead dst src).err ≠ none ↔
      ∀ plain, aead.Open (src.take secureNonceSize) (src.drop secureNonceSize) = some plain →
        dst.length < plain.length := by
  unfold openSecure
  cases aead.Open (src.take secureNonceSize) (src.drop secureNonceSize) with
  | none => simp
  | some plain => simp only; split_ifs with h <;> simp [h]

/-- Once the window was touched, a failure is a disturbance. -/
theorem openSecure_keeps_iff {c c' : CryptState} (hne : c'.recv ≠ c.recv) (aead : AEAD)
    (dst src : Bytes) :
    (∀ e, (c'.openSecure aead dst src).err = some e →
        (c'.openSecure aead dst src).state.recv = c.recv) ↔
      ¬ ∀ plain, aead.Open (src.take secureNonceSize) (src.drop secureNonceSize) = some plain →
        dst.length < plain.length := by
  rw [← openSecure_err_iff c', openSecure_state]
  cases (c'.openSecure aead dst src).err <;> simp [hne]

theorem markLate_recv_ne (c : CryptState) (counter : UInt64) :
    (c.markLate counter).recv ≠ c.recv := fun h =>
  absurd (UInt32.add_eq_left.mp (congrArg RecvState.late h)) (by decide)

theorem markAhead_recv_ne {counter : UInt64} (h : c.decMax < counter) :
    (c.markAhead counter).recv ≠ c.recv := fun he => by
  have hmax : counter = c.decMax := congrArg RecvState.decMax he
  rw [hmax] at h
  exact absurd h (UInt64.lt_irrefl _)

theorem decryptSecure_keeps_iff {aead : AEAD}
    (hb : c.secureAEAD = some aead) (dst src : Bytes) :
    (∀ e, (c.decryptSecure dst src).err = some e → (c.decryptSecure dst src).state.recv = c.recv) ↔
      ¬ c.DisturbsSecure aead dst src := by
  simp only [decryptSecure, hb, DisturbsSecure]
  by_cases hs : src.length < secureOverhead
  · simp [hs, Nat.not_le.mpr hs]
  simp only [hs, if_false, Nat.not_lt.mp hs, true_and]
  by_cases hle : nonceCounter src ≤ c.decMax
  · have hlt : ¬ c.decMax < nonceCounter src := UInt64.not_lt.mpr hle
    simp only [hle, hlt, if_true, false_or]
    by_cases h64 : c.decMax - nonceCounter src ≥ 64
    · have h64' : ¬ c.decMax - nonceCounter src < 64 := UInt64.not_lt.mpr h64
      simp [h64, h64']
    · have h64' : c.decMax - nonceCounter src < 64 := UInt64.not_le.mp h64
      cases hbit : c.windowBit (nonceCounter src) with
      | true => simp [h64]
      | false =>
        simp only [h64, h64', if_false, Bool.false_eq_true, and_self, true_and]
        exact openSecure_keeps_iff (markLate_recv_ne c _) aead dst src
  · have hlt : c.decMax < nonceCounter src := UInt64.not_le.mp hle
    simp only [hle, hlt, if_false, true_or, true_and]
    exact openSecure_keeps_iff (markAhead_recv_ne hlt) aead dst src

theorem failureKeepsState_iff (c : CryptState) (dst src : Bytes) :
    c.FailureKeepsState dst src ↔ ¬ c.Disturbs dst src := by
  unfold FailureKeepsState Disturbs decrypt
  cases c.mode with
  | lite => simp
  | legacy =>
    cases hb : c.legacyBlock with
    | none => simp [decryptLegacy, hb]
    | some block => simpa using decryptLegacy_keeps_iff hb dst src
  | secure =>
    cases hb : c.secureAEAD with
    | none => simp [decryptSecure, hb]
    | some aead => simpa using decryptSecure_keeps_iff hb dst src

/-! ### Trial decryption -/

/-- The scan of `HandleUDP`: the sessions are tried in order, with one buffer, until one
accepts the datagram.  The sessions after the scan, and whether one accepted. -/
def trialDecrypt (data plain : Bytes) : List CryptState → List CryptState × Bool
  | [] => ([], false)
  | c :: cs =>
    let out := c.decrypt plain data
    match out.err with
    | none => (out.state :: cs, true)
    | some _ =>
      let rest := trialDecrypt data out.dst cs
      (out.state :: rest.1, rest.2)

/-- The session refuses the datagram, read into a buffer as large as `plain`. -/
def CryptState.refuses (data plain : Bytes) (c : CryptState) : Bool :=
  (c.decrypt plain data).err.isSome

/-- Every session that refuses the datagram keeps its receive state after the scan. -/
def TrialKeepsOthers (data plain : Bytes) (cs : List CryptState) : Prop :=
  ∀ p ∈ cs.zip (trialDecrypt data plain cs).1, p.1.refuses data plain → p.2.recv = p.1.recv

/-! Whether a packet is refused, and the state it leaves, depend on the buffer only through
its length, and the buffer keeps its length. -/

theorem openLegacy_congr (c : CryptState) (block : LegacyCipher) (save : Block 16) (restore : Bool)
    (dst dst' src : Bytes) :
    (c.openLegacy block save restore dst src).state =
        (c.openLegacy block save restore dst' src).state ∧
      (c.openLegacy block save restore dst src).err =
        (c.openLegacy block save restore dst' src).err ∧
      (c.openLegacy block save restore dst src).dst.length = dst.length := by
  unfold openLegacy
  simp only
  split_ifs <;> simp [copyBytes_length]

theorem openSecure_congr (c : CryptState) (aead : AEAD) {dst dst' : Bytes}
    (h : dst.length = dst'.length) (src : Bytes) :
    (c.openSecure aead dst src).state = (c.openSecure aead dst' src).state ∧
      (c.openSecure aead dst src).err = (c.openSecure aead dst' src).err ∧
      (c.openSecure aead dst src).dst.length = dst.length := by
  unfold openSecure
  cases aead.Open (src.take secureNonceSize) (src.drop secureNonceSize) with
  | none => simp
  | some plain =>
    simp only [h]
    split_ifs <;> simp [copyBytes_length, h]

theorem decrypt_congr (c : CryptState) {dst dst' : Bytes} (h : dst.length = dst'.length)
    (src : Bytes) :
    (c.decrypt dst src).state = (c.decrypt dst' src).state ∧
      (c.decrypt dst src).err = (c.decrypt dst' src).err ∧
      (c.decrypt dst src).dst.length = dst.length := by
  unfold decrypt
  cases c.mode with
  | lite => simp [copyBytes_length]
  | legacy =>
    simp only [decryptLegacy, h]
    cases c.legacyBlock with
    | none => simp [h]
    | some block =>
      split_ifs
      all_goals first
        | exact ⟨rfl, rfl, h⟩
        | exact h ▸ openLegacy_congr _ block _ _ dst dst' src
  | secure =>
    simp only [decryptSecure]
    cases c.secureAEAD with
    | none => simp
    | some aead =>
      simp only
      split_ifs
      all_goals first
        | exact ⟨rfl, rfl, rfl⟩
        | exact openSecure_congr _ aead h src

theorem trialKeepsOthers_iff (data : Bytes) {plain buf : Bytes} (hbuf : buf.length = plain.length)
    (cs : List CryptState) :
    (∀ p ∈ cs.zip (trialDecrypt data buf cs).1, p.1.refuses data plain → p.2.recv = p.1.recv) ↔
      ∀ c ∈ cs.takeWhile (refuses data plain), ¬ c.Disturbs plain data := by
  induction cs generalizing buf with
  | nil => simp
  | cons c cs ih =>
    obtain ⟨hst, herr, hdst⟩ := decrypt_congr c hbuf data
    cases he : (c.decrypt plain data).err with
    | none =>
      have hr : c.refuses data plain = false := by simp [refuses, he]
      rw [he] at herr
      simp only [trialDecrypt, herr, zip_cons_cons, forall_mem_cons, hr,
        Bool.false_eq_true, false_imp_iff, true_and, not_false_eq_true,
        takeWhile_cons_of_neg, not_mem_nil, implies_true, iff_true]
      intro p hp _
      -- the sessions behind the owner are not touched
      rw [zip_eq_zipWith, zipWith_self, mem_map] at hp
      obtain ⟨a, -, rfl⟩ := hp
      rfl
    | some e =>
      have hr : c.refuses data plain = true := by simp [refuses, he]
      have hk : (c.decrypt plain data).state.recv = c.recv ↔ ¬ c.Disturbs plain data := by
        rw [← failureKeepsState_iff]
        simp [FailureKeepsState, he]
      rw [he] at herr
      simp only [trialDecrypt, herr, zip_cons_cons, forall_mem_cons, hr, hst,
        takeWhile_cons_of_pos, hk, forall_const, ih (hdst.trans hbuf)]

/-- **Failed decryption.**  A failed `Decrypt` leaves the receive state alone exactly when the
packet does not disturb it, and a scan over any sessions leaves those that refuse the datagram
alone exactly when it disturbs none of the sessions asked before one accepts. -/
theorem failedDecrypt_keeps_state_iff (c : CryptState) (dst src : Bytes) (data plain : Bytes)
    (cs : List CryptState) :
    (c.FailureKeepsState dst src ↔ ¬ c.Disturbs dst src) ∧
      (TrialKeepsOthers data plain cs ↔
        ∀ s ∈ cs.takeWhile (CryptState.refuses data plain), ¬ s.Disturbs plain data) :=
  ⟨failureKeepsState_iff c dst src, trialKeepsOthers_iff data rfl cs⟩

/-- Four forged bytes are refused by a fresh legacy state and count a lost packet; 28 forged
bytes are refused by a fresh secure state and move its window to the counter they name. -/
theorem forged_packets_disturb :
    ¬ (CryptState.keyed sampleCiphers .legacy (List.replicate 16 7) (List.replicate 16 1)
        (List.replicate 16 1)).FailureKeepsState (recvBuffer [3, 0, 0, 0]) [3, 0, 0, 0] ∧
      ¬ (CryptState.keyed sampleCiphers .secure (List.replicate 32 7) [] []).FailureKeepsState
        (recvBuffer (List.replicate 28 9)) (List.replicate 28 9) := by
  constructor
  · intro h
    have hlost := congrArg RecvState.lost (h .decryptFailed (by decide +kernel))
    exact absurd hlost (by decide +kernel)
  · intro h
    have hmax := congrArg RecvState.decMax (h .decryptFailed (by decide +kernel))
    exact absurd hmax (by decide +kernel)

end MumbleServer.Crypto
