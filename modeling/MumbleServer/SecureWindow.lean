import MumbleServer.Runs
import MumbleServer.ReceiveState

/-! # The replay window of secure mode

Each secure packet carries its counter; `decMax` and the 64-bit `decBitmap` are meant to
remember which of the last 64 counters were accepted.  A receiver is run on an arbitrary
list of packets, together with the list of counters it has accepted so far, and a decision
is right (`RightDecision`) if a packet is accepted exactly when it is authentic, its counter
was not accepted before and lies in the window of the highest accepted counter.

The code gets this wrong in two ways.  A new highest counter is marked at the place of the
counter 56 below it, and a move of the window shifts the bytes in the opposite order to the one
in which they are looked up, so the highest packet is accepted again when it is replayed
(`replayed_highest_accepted`) and other marks come to stand on counters they do not belong to.
And the window moves before the packet is authenticated.  `Trail` follows the marks from the
packets alone.  `secureWindow_exact`: as long as the marks that matter stand on the counters that
left them, and forged packets do not touch the window, every decision is right. -/

namespace MumbleServer.Crypto
variable {aead : AEAD}

/-- The packet was sealed under the key by somebody who holds it. -/
def Authentic (aead : AEAD) (src : Bytes) : Prop :=
  ∃ plain, src.drop secureNonceSize = aead.Seal (src.take secureNonceSize) plain

/-! ### Where marks stand

The window has 64 places, 63 for the highest counter and one less for each counter below it. -/

/-- The place of a counter. -/
def place (highest n : ℕ) : ℕ := 63 - (highest - n)

/-- Where the mark at a place goes when the window moves up by `s`.  The bytes are shifted as one
number with its highest byte first, and looked up with the lowest first: only a move by eight
takes a mark to the new place of its counter. -/
def carried (s p : ℕ) : Option ℕ :=
  if 8 < s then none
  else if p % 8 + s < 8 then some (p + s)
  else if p < 8 then none
  else some (p + s - 16)

/-- What a list of packets leaves in the window: the highest counter, and for every packet its
counter and the place where its mark now stands, if it is not lost. -/
structure Trail where
  highest : ℕ
  marks : List (ℕ × Option ℕ)

/-- A packet ahead marks place 7, one in the window its own. -/
def Trail.next (t : Trail) (src : Bytes) : Trail :=
  let n := (nonceCounter src).toNat
  if src.length < secureOverhead then t
  else if t.highest < n then
    ⟨n, (n, some 7) :: t.marks.map fun m => (m.1, m.2.bind (carried (n - t.highest)))⟩
  else if t.highest - n < 64 then ⟨t.highest, (n, some (place t.highest n)) :: t.marks⟩
  else t

/-! ### Receivers -/

/-- A secure receiver, the counters it has accepted, in order, and the trail of its packets. -/
structure Receiver where
  crypt : CryptState
  accepted : List ℕ
  trail : Trail

namespace Receiver

/-- `decryptSecure` on the packet. -/
def feed (r : Receiver) (src : Bytes) : Outcome := r.crypt.decryptSecure (recvBuffer src) src

def accepts (r : Receiver) (src : Bytes) : Bool := (r.feed src).err.isNone

def step (r : Receiver) (src : Bytes) : Receiver where
  crypt := (r.feed src).state
  accepted := if r.accepts src then r.accepted ++ [(nonceCounter src).toNat] else r.accepted
  trail := r.trail.next src

/-- The receiver right after `SetKey`. -/
def keyed (ciphers : Ciphers) (key encNonce decNonce : Bytes) : Receiver where
  crypt := CryptState.keyed ciphers .secure key encNonce decNonce
  accepted := []
  trail := ⟨0, []⟩

end Receiver

/-- `n` is above the highest accepted counter or less than 64 below it. -/
def InWindow (accepted : List ℕ) (n : ℕ) : Prop :=
  ∀ m ∈ accepted, (∀ a ∈ accepted, a ≤ m) → m < n ∨ m - n < 64

/-- What the replay window promises of one packet. -/
def RightDecision (aead : AEAD) (r : Receiver) (src : Bytes) : Prop :=
  r.accepts src = true ↔ Authentic aead src ∧ (nonceCounter src).toNat ∉ r.accepted ∧
    InWindow r.accepted (nonceCounter src).toNat

/-- A packet the window can decide: too short; authentic and ahead; below the window; or inside the
window, authentic or a repetition, and on a place where the marks of earlier packets with its
counter stand, and no others. -/
def Placed (aead : AEAD) (r : Receiver) (src : Bytes) : Prop :=
  let n := (nonceCounter src).toNat
  src.length < secureOverhead ∨
  (r.trail.highest < n ∧ Authentic aead src) ∨
  (n ≤ r.trail.highest ∧ (64 ≤ r.trail.highest - n ∨
    (Authentic aead src ∨ ∃ m ∈ r.trail.marks, m.1 = n) ∧
      ∀ m ∈ r.trail.marks, m.2 = some (place r.trail.highest n) ↔ m.1 = n))

/-! ### The bitmap -/

/-- The bit at a place. -/
def marked (bitmap : Block 8) (p : ℕ) : Bool := bitmap.get (p / 8) &&& bitMask p != 0

theorem marked_eq (bitmap : Block 8) (p : ℕ) :
    marked bitmap p = (bitmap.get (p / 8)).toNat.testBit (p % 8) := by
  have hall : ∀ n : Fin 256, ∀ k : Fin 8,
      (UInt8.ofNat n &&& 1 <<< UInt8.ofNat k != 0) = (n : ℕ).testBit k := by decide +kernel
  have h := hall ⟨(bitmap.get (p / 8)).toNat, UInt8.toNat_lt _⟩ ⟨p % 8, Nat.mod_lt _ (by decide)⟩
  rwa [UInt8.ofNat_toNat] at h

theorem testBit_bitMask (p k : ℕ) (hk : k < 8) :
    (bitMask p).toNat.testBit k = decide (k = p % 8) := by
  have hall : ∀ q k : Fin 8, ((1 : UInt8) <<< UInt8.ofNat q).toNat.testBit k = decide (k.val = q) := by
    decide +kernel
  exact hall ⟨p % 8, Nat.mod_lt _ (by decide)⟩ ⟨k, hk⟩

theorem get_zero (i : ℕ) : (Block.zero 8).get i = 0 := by
  simp only [Block.zero, Block.get, List.getD, List.getElem?_replicate]
  split_ifs <;> rfl

/-- Setting the mark at a place leaves the others. -/
theorem marked_set (bitmap : Block 8) {p q : ℕ} (hq : q < 64) :
    marked (bitmap.put (q / 8) (bitmap.get (q / 8) ||| bitMask q)) p = true ↔
      p = q ∨ marked bitmap p = true := by
  have hdiv : p = q ↔ p / 8 = q / 8 ∧ p % 8 = q % 8 := by omega
  rw [marked_eq, marked_eq, Block.get_put _ (by omega), hdiv]
  by_cases h : p / 8 = q / 8
  · simp [h, Nat.testBit_or, testBit_bitMask q _ (Nat.mod_lt p (by decide : 0 < 8)), or_comm]
  · simp [h]

theorem testBit_high (x : UInt8) {k : ℕ} (hk : 8 ≤ k) : x.toNat.testBit k = false :=
  Nat.testBit_lt_two_pow (x.toNat_lt.trans_le (Nat.pow_le_pow_right (by decide) hk))

theorem testBit_shl (x : UInt8) (s : UInt64) {k : ℕ} (hk : k < 8) :
    (shl x s).toNat.testBit k = (decide (s.toNat ≤ k) && x.toNat.testBit (k - s.toNat)) := by
  unfold shl
  split_ifs with h
  · have hs : s.toNat < 8 := UInt64.lt_iff_toNat_lt.mp h
    have hmod : s.toNat % 256 % 8 = s.toNat := by omega
    rw [UInt8.toNat_shiftLeft, Nat.testBit_mod_two_pow, Nat.testBit_shiftLeft]
    simp [hk, hmod]
  · have hs : 8 ≤ s.toNat := UInt64.le_iff_toNat_le.mp (UInt64.not_lt.mp h)
    simp [show ¬ s.toNat ≤ k by omega]

theorem testBit_shr (x : UInt8) (s : UInt64) (k : ℕ) :
    (shr x s).toNat.testBit k = x.toNat.testBit (s.toNat + k) := by
  unfold shr
  split_ifs with h
  · have hs : s.toNat < 8 := UInt64.lt_iff_toNat_lt.mp h
    have hmod : s.toNat % 256 % 8 = s.toNat := by omega
    simp [UInt8.toNat_shiftRight, Nat.testBit_shiftRight, hmod]
  · have hs : 8 ≤ s.toNat := UInt64.le_iff_toNat_le.mp (UInt64.not_lt.mp h)
    simp [testBit_high x (Nat.le_add_right_of_le hs)]

theorem getD_shiftLoop (s : UInt64) (bs : Bytes) (i : ℕ) :
    (shiftLoop s bs).getD i 0 = shl (bs.getD i 0) s ||| shr (bs.getD (i + 1) 0) (8 - s) := by
  have hz : ∀ t, shr 0 t = 0 := fun t => by simp [shr]
  have hz' : ∀ t, shl 0 t = 0 := fun t => by simp [shl]
  induction bs using shiftLoop.induct generalizing i with
  | case1 => simp [shiftLoop, hz, hz']
  | case2 b => cases i <;> simp [shiftLoop, hz, hz']
  | case3 b c bs ih => cases i with
    | zero => simp [shiftLoop]
    | succ i => simpa [shiftLoop] using ih i

theorem carried_eq_some {s p q : ℕ} :
    carried s q = some p ↔
      s ≤ 8 ∧ ((s ≤ p % 8 ∧ q = p - s) ∨ (p % 8 < s ∧ q = p + 16 - s)) := by
  unfold carried
  split_ifs <;> simp only [Option.some.injEq, false_iff] <;> omega

/-- The marks after a move of the window are the marks carried along. -/
theorem marked_shift (bitmap : Block 8) (s : UInt64) (p : ℕ) :
    marked (shiftBitmap bitmap s) p = true ↔
      ∃ q, marked bitmap q = true ∧ carried s.toNat q = some p := by
  have hmod : p % 8 < 8 := Nat.mod_lt _ (by decide)
  have hright : (∃ q, marked bitmap q = true ∧ carried s.toNat q = some p) ↔
      s.toNat ≤ 8 ∧ ((s.toNat ≤ p % 8 ∧ marked bitmap (p - s.toNat) = true) ∨
        (p % 8 < s.toNat ∧ marked bitmap (p + 16 - s.toNat) = true)) := by
    simp only [carried_eq_some]
    constructor
    · rintro ⟨q, hm, h8, ⟨h, rfl⟩ | ⟨h, rfl⟩⟩
      · exact ⟨h8, .inl ⟨h, hm⟩⟩
      · exact ⟨h8, .inr ⟨h, hm⟩⟩
    · rintro ⟨h8, ⟨h, hm⟩ | ⟨h, hm⟩⟩
      · exact ⟨_, hm, h8, .inl ⟨h, rfl⟩⟩
      · exact ⟨_, hm, h8, .inr ⟨h, rfl⟩⟩
  rw [hright]
  unfold shiftBitmap
  split_ifs with h64
  · have h64' : 64 < s.toNat := UInt64.lt_iff_toNat_lt.mp h64
    rw [marked_eq, get_zero]
    simp [show ¬ s.toNat ≤ 8 by omega]
  · rw [marked_eq, Block.get, getD_shiftLoop, UInt8.toNat_or, Nat.testBit_or,
      testBit_shl _ _ hmod, testBit_shr]
    by_cases h8 : s.toNat ≤ 8
    · have hback : (8 - s).toNat = 8 - s.toNat :=
        UInt64.toNat_sub_of_le _ _ (UInt64.le_iff_toNat_le.mpr h8)
      rw [hback]
      by_cases hlow : s.toNat ≤ p % 8
      · have h1 : (p - s.toNat) / 8 = p / 8 := by omega
        have h2 : (p - s.toNat) % 8 = p % 8 - s.toNat := by omega
        simp [h8, hlow, Nat.not_lt.mpr hlow, marked_eq, h1, h2, Block.get,
          testBit_high _ (show 8 ≤ 8 - s.toNat + p % 8 by omega)]
      · have h1 : (p + 16 - s.toNat) / 8 = p / 8 + 1 := by omega
        have h2 : (p + 16 - s.toNat) % 8 = 8 - s.toNat + p % 8 := by omega
        simp [h8, hlow, Nat.not_le.mp hlow, marked_eq, h1, h2, Block.get]
    · have hback : 8 ≤ (8 - s).toNat := by
        have hs := s.toNat_lt
        rw [UInt64.toNat_sub, show (8 : UInt64).toNat = 8 from rfl]
        omega
      simp [h8, show ¬ s.toNat ≤ p % 8 by omega,
        testBit_high _ (Nat.le_add_right_of_le hback)]

/-! ### One packet -/

theorem authentic_length {src : Bytes} (h : Authentic aead src) : secureOverhead ≤ src.length := by
  obtain ⟨plain, hp⟩ := h
  have hl := congrArg List.length hp
  rw [aead.seal_length, List.length_drop] at hl
  simp only [secureOverhead, secureNonceSize, secureTagSize] at hl ⊢
  omega

theorem isSome_open_iff (hideal : aead.Ideal) (src : Bytes) :
    (aead.Open (src.take secureNonceSize) (src.drop secureNonceSize)).isSome = true ↔
      Authentic aead src :=
  hideal _ _

/-- With the buffer of `HandleUDP` the only failure after the window check is
authentication. -/
theorem openSecure_err (c : CryptState) (src : Bytes) :
    (c.openSecure aead (recvBuffer src) src).err.isNone =
      (aead.Open (src.take secureNonceSize) (src.drop secureNonceSize)).isSome := by
  unfold CryptState.openSecure
  cases h : aead.Open (src.take secureNonceSize) (src.drop secureNonceSize) with
  | none => rfl
  | some plain =>
    have hl := aead.open_length _ _ _ h
    rw [List.length_drop] at hl
    have hfit : ¬ (recvBuffer src).length < plain.length := by
      simp only [recvBuffer, List.length_replicate]
      omega
    simp [hfit]

section decisions
variable {c : CryptState} {aead : AEAD} (hc : c.secureAEAD = some aead)
variable {dst src : Bytes}
include hc

theorem decryptSecure_short (h : src.length < secureOverhead) :
    c.decryptSecure dst src = ⟨c, dst, some .invalidPacket⟩ := by
  simp [CryptState.decryptSecure, hc, h]

section
variable (hl : ¬ src.length < secureOverhead)
include hl

theorem decryptSecure_ahead (h : c.decMax < nonceCounter src) :
    c.decryptSecure dst src = (c.markAhead (nonceCounter src)).openSecure aead dst src := by
  have h' : ¬ nonceCounter src ≤ c.decMax := by simpa using h
  simp [CryptState.decryptSecure, hc, hl, h']

theorem decryptSecure_stale (h : nonceCounter src ≤ c.decMax)
    (h64 : 64 ≤ c.decMax - nonceCounter src ∨ c.windowBit (nonceCounter src) = true) :
    c.decryptSecure dst src = ⟨c, dst, some .replayDetected⟩ := by
  simp only [CryptState.decryptSecure, hc, hl, h, if_true, if_false]
  by_cases h' : c.decMax - nonceCounter src ≥ 64
  · simp [h']
  · simp [h', h64.resolve_left h']

theorem decryptSecure_late
    (h : nonceCounter src ≤ c.decMax) (h64 : ¬ 64 ≤ c.decMax - nonceCounter src)
    (hbit : c.windowBit (nonceCounter src) = false) :
    c.decryptSecure dst src = (c.markLate (nonceCounter src)).openSecure aead dst src := by
  have h64' : ¬ c.decMax - nonceCounter src ≥ 64 := h64
  simp [CryptState.decryptSecure, hc, hl, h, h64', hbit]

end

end decisions

/-! ### Runs -/

/-- The bits are the marks of the trail, whose counters are the accepted ones; the highest counter
is the highest accepted one, and no counter was accepted twice. -/
structure WindowInv (aead : AEAD) (r : Receiver) : Prop where
  key : r.crypt.secureAEAD = some aead
  highest : r.trail.highest = r.crypt.decMax.toNat
  bits : ∀ p, marked r.crypt.decBitmap p = true ↔ ∃ m ∈ r.trail.marks, m.2 = some p
  owners : ∀ n, (∃ m ∈ r.trail.marks, m.1 = n) ↔ n ∈ r.accepted
  le_max : ∀ a ∈ r.accepted, a ≤ r.trail.highest
  max_mem : r.trail.highest = 0 ∨ r.trail.highest ∈ r.accepted
  nodup : r.accepted.Nodup

open Receiver

theorem keyed_windowInv (ciphers : Ciphers) {key : Bytes} (hk : key.length = secureKeySize)
    (encNonce decNonce : Bytes) :
    WindowInv (ciphers.newSecure key) (keyed ciphers key encNonce decNonce) := by
  constructor <;>
    simp [keyed, CryptState.keyed, CryptState.setKey, newCryptState, hk, marked, get_zero]

section step
variable {r : Receiver} {src : Bytes}

/-- The window of the highest accepted counter is the window of the trail. -/
theorem WindowInv.inWindow_iff (h : WindowInv aead r) (n : ℕ) :
    InWindow r.accepted n ↔ r.trail.highest < n ∨ r.trail.highest - n < 64 := by
  constructor
  · intro hw
    rcases h.max_mem with h0 | hmem
    · omega
    · exact hw _ hmem h.le_max
  · intro hn m hm _
    have := h.le_max m hm
    omega

/-- A packet that is refused and whose counter is known or leaves no mark changes nothing. -/
theorem WindowInv.refused (h : WindowInv aead r) {dst : Bytes} {e : CryptError}
    (hf : r.feed src = ⟨r.crypt, dst, some e⟩)
    (htrail : r.trail.next src = r.trail ∨ ∃ m ∈ r.trail.marks,
      r.trail.next src = ⟨r.trail.highest, m :: r.trail.marks⟩) :
    r.accepts src = false ∧ WindowInv aead (r.step src) := by
  have ha : r.accepts src = false := by simp [accepts, hf]
  have hc : (r.step src).crypt = r.crypt := by simp [step, hf]
  have hacc : (r.step src).accepted = r.accepted := by simp [step, ha]
  have hhigh : (r.step src).trail.highest = r.trail.highest := by
    rcases htrail with ht | ⟨m, -, ht⟩ <;> simp [step, ht]
  have hmarks : ∀ m, m ∈ (r.step src).trail.marks ↔ m ∈ r.trail.marks := by
    intro m
    rcases htrail with ht | ⟨m', hm', ht⟩
    · simp [step, ht]
    · have heq : m = m' → m ∈ r.trail.marks := fun h => h ▸ hm'
      simpa [step, ht] using heq
  refine ⟨ha, ?_⟩
  constructor <;> simp only [hc, hacc, hhigh, hmarks]
  exacts [h.key, h.highest, h.bits, h.owners, h.le_max, h.max_mem, h.nodup]

/-- A packet that is accepted adds its counter and its mark. -/
theorem WindowInv.accepted (h : WindowInv aead r) (hideal : aead.Ideal) {c : CryptState}
    (hf : r.feed src = c.openSecure aead (recvBuffer src) src) (hauth : Authentic aead src)
    (hkey : c.secureAEAD = some aead) (hfresh : (nonceCounter src).toNat ∉ r.accepted)
    (hhigh : (r.trail.next src).highest = c.decMax.toNat)
    (hmax : c.decMax.toNat = max r.trail.highest (nonceCounter src).toNat)
    (hbits : ∀ p, marked c.decBitmap p = true ↔ ∃ m ∈ (r.trail.next src).marks, m.2 = some p)
    (howners : ∀ n, (∃ m ∈ (r.trail.next src).marks, m.1 = n) ↔
      n = (nonceCounter src).toNat ∨ ∃ m ∈ r.trail.marks, m.1 = n) :
    r.accepts src = true ∧ WindowInv aead (r.step src) := by
  have ha : r.accepts src = true := by
    rw [accepts, hf, openSecure_err]
    exact (isSome_open_iff hideal src).mpr hauth
  have hc : (r.step src).crypt = c := by simp only [step, hf, openSecure_state]
  have ht : (r.step src).trail = r.trail.next src := rfl
  have hacc : (r.step src).accepted = r.accepted ++ [(nonceCounter src).toNat] := by
    simp [step, ha]
  refine ⟨ha, ?_⟩
  constructor
  · rw [hc, hkey]
  · rw [hc, ht, hhigh]
  · rw [hc, ht]
    exact hbits
  · intro n
    rw [ht, howners, h.owners, hacc, List.mem_append, List.mem_singleton, or_comm]
  · intro a hm
    rw [hacc, List.mem_append, List.mem_singleton] at hm
    rw [ht, hhigh, hmax]
    rcases hm with hm | rfl
    · exact (h.le_max a hm).trans (le_max_left ..)
    · exact le_max_right ..
  · rw [ht, hhigh, hmax, hacc, List.mem_append, List.mem_singleton]
    rcases max_choice r.trail.highest (nonceCounter src).toNat with hm | hm
    · rw [hm]
      exact h.max_mem.imp id .inl
    · exact .inr (.inr hm)
  · rw [hacc, List.nodup_append]
    refine ⟨h.nodup, by simp, fun a hm b hb => ?_⟩
    rw [List.mem_singleton] at hb
    rintro rfl
    exact hfresh (hb ▸ hm)

theorem WindowInv.below (h : WindowInv aead r) (hle : (nonceCounter src).toNat ≤ r.trail.highest) :
    nonceCounter src ≤ r.crypt.decMax ∧ (r.crypt.decMax - nonceCounter src).toNat =
      r.trail.highest - (nonceCounter src).toNat := by
  have hle' : nonceCounter src ≤ r.crypt.decMax := UInt64.le_iff_toNat_le.mpr (h.highest ▸ hle)
  exact ⟨hle', by rw [h.highest, UInt64.toNat_sub_of_le _ _ hle']⟩

/-- Authentic and ahead: the marks are carried along, and place 7 is marked. -/
theorem WindowInv.ahead (hinv : WindowInv aead r) (hideal : aead.Ideal)
    (hl : ¬ src.length < secureOverhead) (hlt : r.trail.highest < (nonceCounter src).toNat)
    (hauth : Authentic aead src) : RightDecision aead r src ∧ WindowInv aead (r.step src) := by
  have hlt' : r.crypt.decMax < nonceCounter src :=
    UInt64.lt_iff_toNat_lt.mpr (hinv.highest ▸ hlt)
  have hfresh : (nonceCounter src).toNat ∉ r.accepted := fun hm => by
    have := hinv.le_max _ hm
    omega
  have hnext : r.trail.next src = ⟨(nonceCounter src).toNat, ((nonceCounter src).toNat, some 7) ::
      r.trail.marks.map fun m =>
        (m.1, m.2.bind (carried ((nonceCounter src).toNat - r.trail.highest)))⟩ := by
    simp [Trail.next, hl, hlt]
  have hshift : (nonceCounter src - r.crypt.decMax).toNat =
      (nonceCounter src).toNat - r.trail.highest := by
    rw [hinv.highest, UInt64.toNat_sub_of_le _ _ (UInt64.le_of_lt hlt')]
  have hbits : ∀ p, marked (r.crypt.markAhead (nonceCounter src)).decBitmap p = true ↔
      ∃ m ∈ (r.trail.next src).marks, m.2 = some p := by
    intro p
    refine (marked_set (shiftBitmap r.crypt.decBitmap (nonceCounter src - r.crypt.decMax))
      (q := 7) (by decide)).trans ?_
    rw [marked_shift, hshift, hnext]
    simp only [hinv.bits, List.exists_mem_cons_iff, Option.some.injEq, eq_comm (a := p)]
    refine or_congr_right ⟨?_, ?_⟩
    · rintro ⟨q, ⟨m, hm, hq⟩, hp⟩
      exact ⟨_, List.mem_map_of_mem hm, by rw [hq]; exact hp⟩
    · rintro ⟨_, hmap, hp⟩
      obtain ⟨m, hm, rfl⟩ := List.mem_map.mp hmap
      obtain ⟨q, hq, hp⟩ := Option.bind_eq_some_iff.mp hp
      exact ⟨q, ⟨m, hm, hq⟩, hp⟩
  obtain ⟨ha, hstep⟩ := hinv.accepted hideal (decryptSecure_ahead hinv.key hl hlt') hauth
    hinv.key hfresh (by rw [hnext]; rfl) (max_eq_right hlt.le).symm hbits
    (fun n => by rw [hnext]; simp [eq_comm])
  refine ⟨?_, hstep⟩
  simp only [RightDecision, ha, true_iff]
  exact ⟨hauth, hfresh, (hinv.inWindow_iff _).mpr (.inl hlt)⟩

/-- Inside the window, with marks that stand where they should: the bit says whether the counter
was accepted. -/
theorem WindowInv.late (hinv : WindowInv aead r) (hideal : aead.Ideal)
    (hl : ¬ src.length < secureOverhead) (hle : (nonceCounter src).toNat ≤ r.trail.highest)
    (hs : r.trail.highest - (nonceCounter src).toNat < 64)
    (hauth : Authentic aead src ∨ ∃ m ∈ r.trail.marks, m.1 = (nonceCounter src).toNat)
    (hmarks : ∀ m ∈ r.trail.marks,
      m.2 = some (place r.trail.highest (nonceCounter src).toNat) ↔
        m.1 = (nonceCounter src).toNat) :
    RightDecision aead r src ∧ WindowInv aead (r.step src) := by
  obtain ⟨hle', hdist⟩ := hinv.below hle
  have hidx : windowIdx r.crypt.decMax (nonceCounter src) =
      place r.trail.highest (nonceCounter src).toNat := by
    rw [windowIdx, place, ← hdist]
    refine UInt64.toNat_sub_of_le _ _ (UInt64.le_iff_toNat_le.mpr ?_)
    rw [hdist]
    exact Nat.le_of_lt_succ hs
  have hnext : r.trail.next src = ⟨r.trail.highest, ((nonceCounter src).toNat,
      some (place r.trail.highest (nonceCounter src).toNat)) :: r.trail.marks⟩ := by
    simp [Trail.next, hl, Nat.not_lt.mpr hle, hs]
  have hbit : r.crypt.windowBit (nonceCounter src) = true ↔
      (nonceCounter src).toNat ∈ r.accepted := by
    rw [← hinv.owners, CryptState.windowBit, hidx]
    exact (hinv.bits _).trans (exists_congr fun m => and_congr_right fun hm => hmarks m hm)
  by_cases hmem : (nonceCounter src).toNat ∈ r.accepted
  · obtain ⟨m, hm, hm1⟩ := (hinv.owners _).mpr hmem
    have hm2 := (hmarks m hm).mpr hm1
    obtain ⟨ha, hstep⟩ := hinv.refused
      (decryptSecure_stale hinv.key hl hle' (.inr (hbit.mpr hmem)))
      (.inr ⟨m, hm, by rw [hnext, ← hm2, ← hm1]⟩)
    exact ⟨by simp [RightDecision, ha, hmem], hstep⟩
  · have hauth' : Authentic aead src :=
      hauth.resolve_right fun hm => hmem ((hinv.owners _).mp hm)
    have h64 : ¬ 64 ≤ r.crypt.decMax - nonceCounter src := fun h => by
      have := UInt64.le_iff_toNat_le.mp h
      rw [hdist] at this
      exact Nat.not_le.mpr hs this
    have hbits : ∀ p, marked (r.crypt.markLate (nonceCounter src)).decBitmap p = true ↔
        ∃ m ∈ (r.trail.next src).marks, m.2 = some p := by
      intro p
      have hp : place r.trail.highest (nonceCounter src).toNat < 64 := by
        unfold place
        omega
      refine (marked_set r.crypt.decBitmap (p := p) (hidx ▸ hp)).trans ?_
      rw [hidx, hinv.bits, hnext]
      simp [eq_comm]
    obtain ⟨ha, hstep⟩ := hinv.accepted hideal (decryptSecure_late hinv.key hl hle' h64
        (Bool.eq_false_iff.mpr (hbit.not.mpr hmem))) hauth' hinv.key hmem
      (by rw [hnext]; exact hinv.highest) (by rw [max_eq_left hle]; exact hinv.highest.symm) hbits
      (fun n => by rw [hnext]; simp [eq_comm])
    refine ⟨?_, hstep⟩
    simp only [RightDecision, ha, true_iff]
    exact ⟨hauth', hmem, (hinv.inWindow_iff _).mpr (.inr hs)⟩

end step

/-- A packet the window can decide is decided rightly and keeps the invariant. -/
theorem step_of_placed (hideal : aead.Ideal) (r : Receiver) (src : Bytes)
    (hinv : WindowInv aead r) (h : Placed aead r src) :
    RightDecision aead r src ∧ WindowInv aead (r.step src) := by
  by_cases hl : src.length < secureOverhead
  · obtain ⟨ha, hstep⟩ := hinv.refused (decryptSecure_short hinv.key hl)
      (.inl (by simp [Trail.next, hl]))
    refine ⟨?_, hstep⟩
    simp only [RightDecision, ha, Bool.false_eq_true, false_iff]
    rintro ⟨hauth, -, -⟩
    exact absurd (authentic_length hauth) (by omega)
  rcases h with h | ⟨hlt, hauth⟩ | ⟨hle, hcase⟩
  · exact absurd h hl
  · exact hinv.ahead hideal hl hlt hauth
  · obtain ⟨hle', hdist⟩ := hinv.below hle
    by_cases hs : 64 ≤ r.trail.highest - (nonceCounter src).toNat
    · have h64 : 64 ≤ r.crypt.decMax - nonceCounter src := by
        rw [UInt64.le_iff_toNat_le, hdist]
        exact hs
      obtain ⟨ha, hstep⟩ := hinv.refused (decryptSecure_stale hinv.key hl hle' (.inl h64))
        (.inl (by simp [Trail.next, hl, Nat.not_lt.mpr hle, Nat.not_lt.mpr hs]))
      refine ⟨?_, hstep⟩
      simp only [RightDecision, ha, Bool.false_eq_true, false_iff, hinv.inWindow_iff]
      omega
    · obtain ⟨hauth, hmarks⟩ := hcase.resolve_left hs
      exact hinv.late hideal hl hle (Nat.not_le.mp hs) hauth hmarks

/-- **Replay window.**  In a run in which every packet can be decided by the window, every
packet is decided rightly and no counter is accepted twice. -/
theorem secureWindow_exact (ciphers : Ciphers) (key encNonce decNonce : Bytes)
    (hk : key.length = secureKeySize) (hideal : (ciphers.newSecure key).Ideal)
    (pkts : List Bytes)
    (h : Along Receiver.step (Placed (ciphers.newSecure key))
      (Receiver.keyed ciphers key encNonce decNonce) pkts) :
    Along Receiver.step (RightDecision (ciphers.newSecure key))
        (Receiver.keyed ciphers key encNonce decNonce) pkts ∧
      (run Receiver.step (Receiver.keyed ciphers key encNonce decNonce) pkts).accepted.Nodup := by
  have hinit := keyed_windowInv ciphers hk encNonce decNonce
  refine ⟨Along.of_inv (step_of_placed hideal) hinit h, ?_⟩
  exact (run_inv (fun r src hi ho => (step_of_placed hideal r src hi ho).2) hinit h).nodup

/-- The packet `encryptSecure` emits for a counter. -/
def sealedPacket (aead : AEAD) (counter : UInt64) (plain : Bytes) : Bytes :=
  secureNonce counter ++ aead.Seal (secureNonce counter) plain

/-- Packets 3, 1 and 1 again: the repetition is refused, by the mark that it left. -/
theorem secureWindow_exact_repeated :
    Along Receiver.step (RightDecision tagAEAD)
        (Receiver.keyed sampleCiphers (List.replicate 32 7) [] [])
        [sealedPacket tagAEAD 3 [5], sealedPacket tagAEAD 1 [], sealedPacket tagAEAD 1 []] ∧
      (run Receiver.step (Receiver.keyed sampleCiphers (List.replicate 32 7) [] [])
        [sealedPacket tagAEAD 3 [5], sealedPacket tagAEAD 1 [],
          sealedPacket tagAEAD 1 []]).accepted.Nodup :=
  secureWindow_exact sampleCiphers (List.replicate 32 7) [] [] (by decide) tagAEAD_ideal _
    ⟨.inr (.inl ⟨by decide +kernel, [5], rfl⟩),
      .inr (.inr ⟨by decide +kernel, .inr ⟨.inl ⟨[], rfl⟩, by decide +kernel⟩⟩),
      .inr (.inr ⟨by decide +kernel, .inr ⟨.inl ⟨[], rfl⟩, by decide +kernel⟩⟩), trivial⟩

/-- The packet with the highest counter is accepted a second time. -/
theorem replayed_highest_accepted :
    tagAEAD.Ideal ∧
      (run Receiver.step (Receiver.keyed sampleCiphers (List.replicate 32 7) [] [])
        [sealedPacket tagAEAD 1 [], sealedPacket tagAEAD 1 []]).accepted = [1, 1] ∧
      ¬ Along Receiver.step (RightDecision tagAEAD)
        (Receiver.keyed sampleCiphers (List.replicate 32 7) [] [])
        [sealedPacket tagAEAD 1 [], sealedPacket tagAEAD 1 []] := by
  refine ⟨tagAEAD_ideal, by decide +kernel, ?_⟩
  rintro ⟨-, h, -⟩
  have hacc := (h.mp (by decide +kernel)).2.1
  exact hacc (by decide +kernel)

end MumbleServer.Crypto
