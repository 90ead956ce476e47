import Mathlib.Data.List.Nodup
import MumbleServer.Runs
import MumbleServer.IdealCiphers

/-! # Nonces of the two directions of a session

`sendSync` hands server and client one key and two nonces, swapped.  Both ends then encrypt
under that key, so no nonce may be used by both.  In legacy mode each side counts up from its
own nonce, and distinct starting points keep the two apart.  In secure mode `SetKey` ignores
the nonces: both sides count from one, and the first packet of each is sealed under the same
nonce (`nonces_distinct_iff`). -/

namespace MumbleServer.Crypto

open List Option

/-- The two ends of a session. -/
inductive Side where
  | server
  | client
deriving DecidableEq, Repr

structure EncryptCall where
  side : Side
  dst : Bytes
  src : Bytes

namespace CryptState

/-- The nonce `Encrypt` passes to the cipher, if it gets that far. -/
def sealNonce (c : CryptState) (dst src : Bytes) : Option Bytes :=
  match c.mode with
  | .lite => none
  | .legacy =>
    if c.legacyBlock.isSome ∧ src.length + legacyOverhead ≤ dst.length then
      some (c.encNonce.bump 0).bytes
    else none
  | .secure =>
    if c.secureAEAD.isSome ∧ src.length + secureOverhead ≤ dst.length then
      some (secureNonce (c.encCounter + 1))
    else none

end CryptState

/-- The two states, and the nonces used under the common key so far. -/
structure Endpoints where
  state : Side → CryptState
  used : List Bytes

namespace Endpoints

/-- Both ends after the `CryptSetup` of `sendSync`. -/
def setup (ciphers : Ciphers) (mode : Mode) (key serverNonce clientNonce : Bytes) : Endpoints where
  state
    | .server => CryptState.keyed ciphers mode key serverNonce clientNonce
    | .client => CryptState.keyed ciphers mode key clientNonce serverNonce
  used := []

def step (e : Endpoints) (call : EncryptCall) : Endpoints where
  state := Function.update e.state call.side
    ((e.state call.side).encrypt call.dst call.src).state
  used := e.used ++ ((e.state call.side).sealNonce call.dst call.src).toList

end Endpoints

/-- More than `2 ^ 32` increments lead from either of the two 128-bit counters to the
other. -/
def Apart (a b : ℕ) : Prop :=
  2 ^ 32 < (a + 2 ^ 128 - b) % 2 ^ 128 ∧ 2 ^ 32 < (b + 2 ^ 128 - a) % 2 ^ 128

/-- Key material that `SetKey` takes on both sides. -/
def ValidSetup (mode : Mode) (key serverNonce clientNonce : Bytes) : Prop :=
  match mode with
  | .lite => False
  | .legacy => key.length = legacyKeySize ∧ serverNonce.length = 16 ∧ clientNonce.length = 16 ∧
      Apart (leVal serverNonce) (leVal clientNonce)
  | .secure => key.length = secureKeySize

/-- The call has a buffer for the packet of a secure session. -/
def EncryptCall.fits (call : EncryptCall) : Bool :=
  decide (call.src.length + secureOverhead ≤ call.dst.length)

/-! ### The k-th nonce of one side -/

namespace CryptState

/-- The state after `k` packets were encrypted. -/
def afterSealed (c : CryptState) (k : ℕ) : CryptState :=
  match c.mode with
  | .lite => c
  | .legacy => { c with encNonce := c.encNonce.advance k }
  | .secure => { c with encCounter := c.encCounter + UInt64.ofNat k }

/-- The nonce of the `k`-th packet from now. -/
def nonceOf (c : CryptState) (k : ℕ) : Bytes :=
  match c.mode with
  | .lite => []
  | .legacy => (c.encNonce.advance k).bytes
  | .secure => secureNonce (c.encCounter + UInt64.ofNat k)

def HasKey (c : CryptState) : Prop :=
  match c.mode with
  | .lite => False
  | .legacy => c.legacyBlock.isSome = true
  | .secure => c.secureAEAD.isSome = true

def takes (c : CryptState) (dst src : Bytes) : Bool := decide (src.length + c.overhead ≤ dst.length)

end CryptState

open CryptState

/-- `sealNonce` is the nonce of the packet: `Encrypt` succeeds in legacy or secure mode exactly
when there is one, and the packet is what the cipher makes of the plaintext under it. -/
theorem encrypt_sealNonce {c : CryptState} (hm : c.mode ≠ .lite) (dst src : Bytes) :
    match c.sealNonce dst src with
    | none => ∃ e, c.encrypt dst src = ⟨c, dst, some e⟩
    | some n => (c.encrypt dst src).err = none ∧
        ((∃ aead, c.secureAEAD = some aead ∧
            (c.encrypt dst src).dst = copyBytes dst (n ++ aead.Seal n src)) ∨
          (∃ block nonce, c.legacyBlock = some block ∧ nonce.bytes = n ∧
            (c.encrypt dst src).dst = nonce.get 0 :: ((block.encrypt nonce src).2 ++
              (block.encrypt nonce src).1) ++ dst.drop (src.length + legacyOverhead))) := by
  unfold sealNonce encrypt
  cases hmode : c.mode with
  | lite => exact absurd hmode hm
  | legacy =>
    cases hb : c.legacyBlock with
    | none => simp [encryptLegacy, hb]
    | some block =>
      by_cases hfit : src.length + legacyOverhead ≤ dst.length
      · simp only [encryptLegacy, hb, hfit, Nat.not_lt.mpr hfit, isSome_some,
          and_self, if_true, if_false, true_and]
        exact Or.inr ⟨block, _, rfl, rfl, rfl⟩
      · simp [encryptLegacy, hb, hfit, Nat.not_le.mp hfit]
  | secure =>
    cases hb : c.secureAEAD with
    | none => simp [encryptSecure, hb]
    | some aead =>
      by_cases hfit : src.length + secureOverhead ≤ dst.length
      · simp [encryptSecure, hb, hfit, Nat.not_lt.mpr hfit]
      · simp [encryptSecure, hb, hfit, Nat.not_le.mp hfit]

theorem afterSealed_zero (c : CryptState) : c.afterSealed 0 = c := by
  unfold afterSealed
  split <;> simp [Block.advance]

theorem encrypt_afterSealed {c : CryptState} (hk : c.HasKey) (k : ℕ) (dst src : Bytes) :
    ((c.afterSealed k).encrypt dst src).state =
        c.afterSealed (if c.takes dst src then k + 1 else k) ∧
      (c.afterSealed k).sealNonce dst src =
        if c.takes dst src then some (c.nonceOf (k + 1)) else none := by
  unfold takes overhead
  unfold HasKey at hk
  cases hmode : c.mode with
  | lite => simp [hmode] at hk
  | legacy =>
    simp only [hmode] at hk
    obtain ⟨block, hb⟩ := isSome_iff_exists.mp hk
    by_cases h : src.length + legacyOverhead ≤ dst.length
    all_goals simp [afterSealed, encrypt, encryptLegacy,
      sealNonce, nonceOf, hmode, hb, h, ← Nat.not_le, Block.advance]
  | secure =>
    simp only [hmode] at hk
    obtain ⟨aead, hb⟩ := isSome_iff_exists.mp hk
    by_cases h : src.length + secureOverhead ≤ dst.length
    all_goals simp [afterSealed, encrypt, encryptSecure,
      sealNonce, nonceOf, hmode, hb, h, ← Nat.not_le, UInt64.add_assoc]

/-! ### The packets of a run -/

section tags
variable (takes : EncryptCall → Bool)

/-- The packets sealed in a run, each as its side and its number on that side. -/
def sealTags (count : Side → ℕ) : List EncryptCall → List (Side × ℕ)
  | [] => []
  | call :: calls =>
    if takes call then
      (call.side, count call.side + 1) ::
        sealTags (Function.update count call.side (count call.side + 1)) calls
    else sealTags count calls

/-- The number of calls of a side that seal a packet. -/
def sealCount (s : Side) (calls : List EncryptCall) : ℕ :=
  calls.countP (fun call => decide (call.side = s) && takes call)

theorem mem_sealTags (count : Side → ℕ) (calls : List EncryptCall) (s : Side) (k : ℕ) :
    (s, k) ∈ sealTags takes count calls ↔
      count s < k ∧ k ≤ count s + sealCount takes s calls := by
  induction calls generalizing count with
  | nil => simp [sealTags, sealCount]
  | cons call calls ih =>
    unfold sealTags sealCount
    rw [countP_cons]
    by_cases ht : takes call = true
    · by_cases hs : call.side = s
      · subst hs
        simp only [ht, if_true, mem_cons, Prod.mk.injEq, true_and, ih, decide_true,
          Bool.and_self, Function.update_self]
        unfold sealCount
        omega
      · have hs' : s ≠ call.side := fun h => hs h.symm
        simp [ht, hs, hs', ih, Function.update_of_ne, sealCount]
    · simp [ht, ih, sealCount]

theorem nodup_sealTags (count : Side → ℕ) (calls : List EncryptCall) :
    (sealTags takes count calls).Nodup := by
  induction calls generalizing count with
  | nil => exact nodup_nil
  | cons call calls ih =>
    unfold sealTags
    split_ifs
    · refine nodup_cons.mpr ⟨fun hm => ?_, ih _⟩
      rw [mem_sealTags, Function.update_self] at hm
      omega
    · exact ih count

end tags

open Endpoints

theorem step_afterSealed {init : Side → CryptState} {call : EncryptCall}
    (hk : (init call.side).HasKey) (count : Side → ℕ) (used : List Bytes) :
    step ⟨fun s => (init s).afterSealed (count s), used⟩ call =
      if (init call.side).takes call.dst call.src then
        ⟨fun s => (init s).afterSealed (Function.update count call.side (count call.side + 1) s),
          used ++ [(init call.side).nonceOf (count call.side + 1)]⟩
      else ⟨fun s => (init s).afterSealed (count s), used⟩ := by
  obtain ⟨hst, hn⟩ := encrypt_afterSealed hk (count call.side) call.dst call.src
  simp only [step, hst, hn]
  split_ifs
  · congr 1
    funext s
    by_cases hs : s = call.side
    · subst hs; simp
    · simp [Function.update_of_ne hs]
  · simp only [toList_none, append_nil, Endpoints.mk.injEq, and_true]
    exact Function.update_eq_self call.side fun s => (init s).afterSealed (count s)

theorem used_run (init : Side → CryptState) (hk : ∀ s, (init s).HasKey) (count : Side → ℕ)
    (used : List Bytes) (calls : List EncryptCall) :
    (run step ⟨fun s => (init s).afterSealed (count s), used⟩ calls).used =
      used ++ (sealTags (fun call => (init call.side).takes call.dst call.src) count calls).map
        (fun t => (init t.1).nonceOf t.2) := by
  induction calls generalizing count used with
  | nil => simp [sealTags]
  | cons call calls ih =>
    rw [run_cons, step_afterSealed (hk call.side)]
    unfold sealTags
    split_ifs
    · rw [ih]
      simp
    · exact ih count used

/-! ### Nonces of distinct packets -/

theorem beVal_putUint64 (x : UInt64) : beVal (putUint64 x) = x.toNat := by
  have hx : x.toNat < 2 ^ 64 := x.toNat_lt
  simp only [beVal, putUint64, List.range, List.range.loop, map_cons, map_nil,
    foldl_cons, foldl_nil, UInt8.toNat_ofNat']
  omega

theorem secureNonce_injective {x y : UInt64} (h : secureNonce x = secureNonce y) : x = y := by
  have hp : putUint64 x = putUint64 y := append_cancel_left h
  have hv := congrArg beVal hp
  rw [beVal_putUint64, beVal_putUint64] at hv
  exact UInt64.toNat_inj.mp hv

variable {k l : ℕ}

theorem secureNonce_ofNat_injective (hk : k < 2 ^ 32) (hl : l < 2 ^ 32)
    (h : secureNonce (UInt64.ofNat k) = secureNonce (UInt64.ofNat l)) : k = l := by
  have hv := congrArg UInt64.toNat (secureNonce_injective h)
  rw [UInt64.toNat_ofNat', UInt64.toNat_ofNat'] at hv
  omega

/-- Two 128-bit counters that start apart do not meet within `2 ^ 32` increments. -/
theorem advance_ne_of_apart {a b : Block 16} (hab : Apart a.val b.val) (hk : k < 2 ^ 32)
    (hl : l < 2 ^ 32) : (a.advance k).bytes ≠ (b.advance l).bytes := by
  intro h
  have hv : (a.advance k).val = (b.advance l).val := congrArg leVal h
  rw [Block.val_advance, Block.val_advance] at hv
  have ha := a.val_lt
  have hb := b.val_lt
  obtain ⟨h1, h2⟩ := hab
  omega

theorem advance_injective (a : Block 16) (hk : k < 2 ^ 32) (hl : l < 2 ^ 32)
    (h : (a.advance k).bytes = (a.advance l).bytes) : k = l := by
  have hv : (a.advance k).val = (a.advance l).val := congrArg leVal h
  rw [Block.val_advance, Block.val_advance] at hv
  have ha := a.val_lt
  omega

/-! ### The two directions -/

section session
variable {ciphers : Ciphers} {key serverNonce clientNonce : Bytes}

attribute [local simp] Endpoints.setup CryptState.keyed CryptState.setKey newCryptState

theorem setup_hasKey {mode : Mode} (h : ValidSetup mode key serverNonce clientNonce) (s : Side) :
    ((setup ciphers mode key serverNonce clientNonce).state s).HasKey := by
  cases mode with
  | lite => exact h.elim
  | legacy =>
    obtain ⟨h1, h2, h3, -⟩ := h
    cases s <;>
      simp [HasKey, h1, h2, h3]
  | secure =>
    have h1 : key.length = secureKeySize := h
    cases s <;>
      simp [HasKey, h1]

theorem setup_nonceOf_secure (h : key.length = secureKeySize) (s : Side) (k : ℕ) :
    ((setup ciphers .secure key serverNonce clientNonce).state s).nonceOf k =
      secureNonce (UInt64.ofNat k) := by
  cases s <;>
    simp [nonceOf, h]

theorem setup_nonceOf_legacy (h : key.length = legacyKeySize) (hs : serverNonce.length = 16)
    (hc : clientNonce.length = 16) (s : Side) (k : ℕ) :
    ((setup ciphers .legacy key serverNonce clientNonce).state s).nonceOf k =
      match s with
      | .server => ((⟨serverNonce, hs⟩ : Block 16).advance k).bytes
      | .client => ((⟨clientNonce, hc⟩ : Block 16).advance k).bytes := by
  cases s <;>
    simp [nonceOf, h, hs, hc]

theorem setup_takes_secure (h : key.length = secureKeySize) (call : EncryptCall) :
    ((setup ciphers .secure key serverNonce clientNonce).state call.side).takes
      call.dst call.src = call.fits := by
  have hover : ∀ s, ((setup ciphers .secure key serverNonce clientNonce).state s).overhead =
      secureOverhead := by
    intro s
    cases s <;>
      simp [overhead, h]
  simp only [takes, EncryptCall.fits, hover]

theorem used_nodup_iff {mode : Mode} (h : ValidSetup mode key serverNonce clientNonce)
    (calls : List EncryptCall) :
    (run step (setup ciphers mode key serverNonce clientNonce) calls).used.Nodup ↔
      ∀ p ∈ sealTags (fun call => ((setup ciphers mode key serverNonce
            clientNonce).state call.side).takes call.dst call.src) (fun _ => 0) calls,
        ∀ q ∈ sealTags (fun call => ((setup ciphers mode key serverNonce
            clientNonce).state call.side).takes call.dst call.src) (fun _ => 0) calls,
          ((setup ciphers mode key serverNonce clientNonce).state p.1).nonceOf p.2 =
            ((setup ciphers mode key serverNonce clientNonce).state q.1).nonceOf q.2 →
          p = q := by
  have hstart : setup ciphers mode key serverNonce clientNonce =
      ⟨fun s => ((setup ciphers mode key serverNonce clientNonce).state s).afterSealed 0,
        []⟩ := by
    simp only [afterSealed_zero]
    rfl
  conv_lhs => rw [hstart]
  rw [used_run _ (setup_hasKey h) (fun _ => 0), nil_append,
    nodup_map_iff_inj_on (nodup_sealTags _ _ _)]

theorem sealCount_le (takes : EncryptCall → Bool) (s : Side) (calls : List EncryptCall) :
    sealCount takes s calls ≤ (calls.filter (fun call => decide (call.side = s))).length := by
  rw [← countP_eq_length_filter]
  refine countP_mono_left fun call _ h => ?_
  exact (Bool.and_eq_true_iff.mp h).1

/-- **Nonces of a session.**  With fewer than `2 ^ 32` calls on either side, no nonce is used
twice exactly if the session is in legacy mode or one of its sides encrypts nothing. -/
theorem nonces_distinct_iff (ciphers : Ciphers) (mode : Mode) (key serverNonce clientNonce : Bytes)
    (hsetup : ValidSetup mode key serverNonce clientNonce) (calls : List EncryptCall)
    (hcalls : ∀ s, (calls.filter (fun call => decide (call.side = s))).length < 2 ^ 32) :
    (run Endpoints.step (Endpoints.setup ciphers mode key serverNonce clientNonce)
        calls).used.Nodup ↔
      mode = .legacy ∨ ∃ s, ∀ call ∈ calls, call.side = s → call.fits = false := by
  rw [used_nodup_iff hsetup]
  cases mode with
  | lite => exact hsetup.elim
  | legacy =>
    obtain ⟨hkey, hs, hc, hapart⟩ := hsetup
    simp only [true_or, iff_true, Prod.forall]
    intro s k hp t l hq he
    rw [mem_sealTags] at hp hq
    have hk := (hp.2.trans_eq (Nat.zero_add _)).trans_lt ((sealCount_le _ s calls).trans_lt (hcalls s))
    have hl := (hq.2.trans_eq (Nat.zero_add _)).trans_lt ((sealCount_le _ t calls).trans_lt (hcalls t))
    rw [setup_nonceOf_legacy hkey hs hc, setup_nonceOf_legacy hkey hs hc] at he
    cases s <;> cases t
    · rw [advance_injective _ hk hl he]
    · exact absurd he (advance_ne_of_apart (a := ⟨_, hs⟩) (b := ⟨_, hc⟩) hapart hk hl)
    · exact absurd he.symm (advance_ne_of_apart (a := ⟨_, hs⟩) (b := ⟨_, hc⟩) hapart hl hk)
    · rw [advance_injective _ hk hl he]
  | secure =>
    have hkey : key.length = secureKeySize := hsetup
    have htakes : (fun call : EncryptCall => ((setup ciphers .secure key serverNonce
        clientNonce).state call.side).takes call.dst call.src) = EncryptCall.fits :=
      funext (setup_takes_secure hkey)
    simp only [htakes, setup_nonceOf_secure hkey, Prod.forall, mem_sealTags,
      Nat.zero_add, reduceCtorEq, false_or]
    have hlt : ∀ s k, k ≤ sealCount EncryptCall.fits s calls → k < 2 ^ 32 := fun s k hk =>
      hk.trans_lt ((sealCount_le _ s calls).trans_lt (hcalls s))
    have hzero : ∀ s, sealCount EncryptCall.fits s calls = 0 ↔
        ∀ call ∈ calls, call.side = s → call.fits = false := by
      intro s
      simp [sealCount, countP_eq_zero]
    constructor
    · intro hinj
      by_contra hboth
      simp only [← hzero, not_exists] at hboth
      have h1 := Nat.one_le_iff_ne_zero.mpr (hboth .server)
      have h2 := Nat.one_le_iff_ne_zero.mpr (hboth .client)
      -- the first packet of each side has counter one
      have := hinj .server 1 ⟨Nat.one_pos, h1⟩ .client 1 ⟨Nat.one_pos, h2⟩ rfl
      simp at this
    · rintro ⟨quiet, hquiet⟩ s k ⟨hk0, hk⟩ t l ⟨hl0, hl⟩ he
      rw [← hzero] at hquiet
      have hst : s = t := by
        by_contra hne
        have : s = quiet ∨ t = quiet := by
          cases s <;> cases t <;> cases quiet <;> simp_all
        rcases this with rfl | rfl <;> omega
      rw [hst, secureNonce_ofNat_injective (hlt s k hk) (hlt t l hl) he]

theorem nonces_distinct_iff_legacy_session :
    (run Endpoints.step (Endpoints.setup sampleCiphers .legacy (List.replicate 16 7)
        (List.replicate 16 1) (List.replicate 16 2))
        [⟨.server, List.replicate 8 0, [1]⟩, ⟨.client, List.replicate 8 0, [2]⟩]).used.Nodup ↔
      Mode.legacy = .legacy ∨ ∃ s, ∀ call ∈ [(⟨.server, List.replicate 8 0, [1]⟩ : EncryptCall),
        ⟨.client, List.replicate 8 0, [2]⟩], call.side = s → call.fits = false :=
  nonces_distinct_iff sampleCiphers .legacy (List.replicate 16 7) (List.replicate 16 1)
    (List.replicate 16 2) ⟨rfl, rfl, rfl, by unfold Apart; decide +kernel⟩ _
    (by intro s; cases s <;> decide)

/-- In a secure session the first packet of the server and the first packet of the client are
sealed under one nonce. -/
theorem secure_directions_share_nonce :
    ValidSetup .secure (List.replicate 32 7) (List.replicate 16 1) (List.replicate 16 2) ∧
      ¬ (run Endpoints.step (Endpoints.setup sampleCiphers .secure (List.replicate 32 7)
        (List.replicate 16 1) (List.replicate 16 2))
        [⟨.server, List.replicate 64 0, [1]⟩, ⟨.client, List.replicate 64 0, [2]⟩]).used.Nodup :=
  ⟨rfl, by decide +kernel⟩

end session

end MumbleServer.Crypto
