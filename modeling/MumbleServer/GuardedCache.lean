import Mathlib.Logic.Function.Basic
import Mathlib.Order.Nat
import MumbleServer.Reads

/-! # A cache guarded by a generation counter

Requests are answered by computations that read a shared world one access at a time, beside
each other and beside changes to that world.  Results are cached under keys.  A change is made
first and settled later: settling it empties the cache and moves the generation on.  A request
notes the generation, looks up what its key and its computation are, looks into the cache,
computes, and keeps its result only if the generation is still the one it noted; else it starts
again.

`State` is a system of any number of requests, changes and guarded writers (which read the world
for a while and then write and settle in one step, under the same guard).  Of each request we
note, for the statements only, whether the world has stayed as it was since it was asked
(`calm`), the changes settled by then (`before`) and how many changes had been made when it
first looked (`since`).

Every run keeps `State.Inv`, which says what the answers rest on (`State.Inv.solo`,
`State.Inv.answer_calm`, `State.Inv.answer_since`). -/

namespace MumbleServer.GuardedCache

open List

/-- How a request starts: it can be answered at once, or it has a key and a computation. -/
inductive Start (R K V E : Type) where
  | answer (v : V)
  | compute (key : K) (p : Reads R (Except E V))

/-- The requests of a system: `part` is what computations read and `put` replaces it, `refused`
is the answer if one fails.  In one world the key determines the computation. -/
structure Source (W R Q K V E : Type) where
  part : W → R
  put : W → R → W
  start : W → Q → Start R K V E
  refused : V
  key_determines : ∀ {w q q' key p p'}, start w q = .compute key p →
    start w q' = .compute key p' → p = p'

/-- A cached value; `since` is the number of changes made before its computation began. -/
structure Entry (K V : Type) where
  key : K
  value : V
  since : ℕ

/-- Where a request stands; all but the first carry the generation it noted. -/
inductive Phase (R K V E : Type) where
  | top
  | starting (gen : ℕ)
  | lookup (gen : ℕ) (key : K) (p : Reads R (Except E V))
  | computing (gen : ℕ) (key : K) (p : Reads R (Except E V))

structure Call (R Q K V E : Type) where
  q : Q
  useCache : Bool
  phase : Phase R K V E
  calm : Bool
  before : List ℕ
  since : ℕ

/-- A guarded writer: a computation of an update of that part, and what is left of it. -/
structure Writer (W R E : Type) where
  program : Reads W (Except E (R → R))
  left : Option (ℕ × Reads W (Except E (R → R)))

/-- The system.  `pending` are the changes made but not settled, each with its number, `settled`
the numbers of the others. -/
structure State (W R Q K V E N : Type) where
  world : W
  cache : List (Entry K V)
  generation : ℕ
  pending : List (N × ℕ)
  calls : ℕ → Option (Call R Q K V E)
  writers : ℕ → Option (Writer W R E)
  clock : ℕ
  settled : List ℕ

inductive Action (W R Q E N : Type) where
  /-- A request is made. -/
  | ask (i : ℕ) (q : Q) (useCache : Bool)
  /-- A request takes its next step. -/
  | turn (i : ℕ)
  /-- A change that will be settled later. -/
  | change (w : W) (n : N)
  /-- A change that no computation notices. -/
  | silent (w : W)
  /-- A change is settled, with an effect on the world of its own. -/
  | settle (i : ℕ) (w : W)
  /-- The cache is emptied without a change. -/
  | invalidate
  /-- A guarded writer begins. -/
  | write (i : ℕ) (program : Reads W (Except E (R → R)))
  /-- A guarded writer takes its next step. -/
  | writeTurn (i : ℕ)

/-- The world that an action puts in the place of the old one. -/
def Action.world? {W R Q E N : Type} : Action W R Q E N → Option W
  | .change w _ | .silent w | .settle _ w => some w
  | .ask _ _ _ | .turn _ | .invalidate | .write _ _ | .writeTurn _ => none

/-- The outcome of a request's step.  An answer comes with the number of changes made before
the oldest access it rests on, with whether the computation failed, and with what goes into the
cache. -/
inductive Turn (R Q K V E : Type) where
  | goOn (c : Call R Q K V E)
  | answer (v : V) (basis : ℕ) (failed : Bool) (store : Option (Entry K V))

variable {W R Q K V E N : Type}

section semantics
variable [DecidableEq K] (src : Source W R Q K V E)

/-- The answer of an undisturbed computation. -/
def Source.direct (w : W) (q : Q) : V :=
  match src.start w q with
  | .answer v => v
  | .compute _ p =>
    match p.on (src.part w) with
    | .ok v => v
    | .error _ => src.refused

/-- No computation that has begun notices the step from `w` to `w'`. -/
def Source.Silent (w w' : W) : Prop :=
  src.part w' = src.part w ∧
    ∀ q key p, src.start w q = .compute key p → src.start w' q = .compute key p

namespace State

def find (s : State W R Q K V E N) (key : K) : Option (Entry K V) :=
  s.cache.find? (fun e => decide (e.key = key))

def changed (s : State W R Q K V E N) (w : W) : State W R Q K V E N :=
  { s with
    world := w
    clock := s.clock + 1
    calls := fun i => (s.calls i).map fun c => { c with calm := false } }

/-- The cache is emptied and the generation moves on. -/
def invalidated (s : State W R Q K V E N) : State W R Q K V E N :=
  { s with cache := [], generation := s.generation + 1 }

def turn (s : State W R Q K V E N) (c : Call R Q K V E) : Turn R Q K V E :=
  match c.phase with
  | .top => .goOn { c with phase := .starting s.generation }
  | .starting gen =>
    match src.start s.world c.q with
    | .answer v => .answer v s.clock false none
    | .compute key p =>
      .goOn { c with
        phase := if c.useCache then .lookup gen key p else .computing gen key p
        since := s.clock }
  | .lookup gen key p =>
    if gen ≠ s.generation then .goOn { c with phase := .top }
    else
      match s.find key with
      | some e => .answer e.value (min e.since c.since) false none
      | none => .goOn { c with phase := .computing gen key p }
  | .computing gen key (.read k) =>
    .goOn { c with phase := .computing gen key (k (src.part s.world)) }
  | .computing _ _ (.done (.error _)) => .answer src.refused c.since true none
  | .computing gen key (.done (.ok v)) =>
    if gen ≠ s.generation then .goOn { c with phase := .top }
    else .answer v c.since false (if c.useCache then some ⟨key, v, c.since⟩ else none)

def writeTurn (s : State W R Q K V E N) (i : ℕ) (wr : Writer W R E) : State W R Q K V E N :=
  match wr.left with
  | none => { s with
      writers := Function.update s.writers i (some { wr with left := some (s.generation, wr.program) }) }
  | some (gen, .read k) => { s with
      writers := Function.update s.writers i (some { wr with left := some (gen, k s.world) }) }
  | some (_, .done (.error _)) => { s with writers := Function.update s.writers i none }
  | some (gen, .done (.ok f)) =>
    if gen ≠ s.generation then
      { s with writers := Function.update s.writers i (some { wr with left := none }) }
    else
      { (s.changed (src.put s.world (f (src.part s.world)))).invalidated with
        settled := (s.clock + 1) :: s.settled
        writers := Function.update s.writers i none }

def step (s : State W R Q K V E N) : Action W R Q E N → State W R Q K V E N
  | .ask i q useCache =>
    { s with
      calls := Function.update s.calls i
        (some ⟨q, useCache, .top, s.pending.isEmpty, s.settled, 0⟩) }
  | .turn i =>
    match s.calls i with
    | none => s
    | some c =>
      match s.turn src c with
      | .goOn c' => { s with calls := Function.update s.calls i (some c') }
      | .answer _ _ _ store => { s with
          calls := Function.update s.calls i none
          cache := store.toList ++ s.cache }
  | .change w n => { s.changed w with pending := s.pending ++ [(n, s.clock + 1)] }
  | .silent w => { s with world := w }
  | .settle i w =>
    match s.pending[i]? with
    | none => s
    | some (_, stamp) => { s.invalidated with
        world := w
        pending := s.pending.eraseIdx i
        settled := stamp :: s.settled }
  | .invalidate => s.invalidated
  | .write i program => { s with writers := Function.update s.writers i (some ⟨program, none⟩) }
  | .writeTurn i =>
    match s.writers i with
    | none => s
    | some wr => s.writeTurn src i wr

/-- The answer of a request that runs alone for at most `n` steps. -/
def solo (s : State W R Q K V E N) : ℕ → Call R Q K V E → Option V
  | 0, _ => none
  | n + 1, c =>
    match s.turn src c with
    | .goOn c' => s.solo n c'
    | .answer v _ _ _ => some v

def new (w : W) : State W R Q K V E N := ⟨w, [], 0, [], fun _ => none, fun _ => none, 0, []⟩

end State

end semantics

/-! ### The invariant -/

section invariant
variable (src : Source W R Q K V E)
variable {key : K} {p : Reads R (Except E V)}

/-- The world that the request reads has stayed as it was, as far as it knows. -/
def Call.Live (s : State W R Q K V E N) (c : Call R Q K V E) (gen : ℕ) : Prop :=
  c.calm = true ∨ (gen = s.generation ∧ s.pending = [])

/-- The request has key `key` and its computation, of which `p` is left, arrives where an
undisturbed one does. -/
structure Call.Follows (s : State W R Q K V E N) (c : Call R Q K V E) (gen : ℕ) (key : K)
    (p : Reads R (Except E V)) : Prop where
  gen_le : gen ≤ s.generation
  before : ∀ k ∈ c.before, k ≤ c.since
  since : gen = s.generation → ∀ k ∈ s.settled, k ≤ c.since
  result : c.Live s gen → ∃ p₀, src.start s.world c.q = .compute key p₀ ∧
    p.on (src.part s.world) = p₀.on (src.part s.world)

def Call.Inv (s : State W R Q K V E N) (c : Call R Q K V E) : Prop :=
  (c.calm = true → s.pending = []) ∧ (∀ k ∈ c.before, k ∈ s.settled) ∧
    match c.phase with
    | .top => True
    | .starting gen => gen ≤ s.generation
    | .lookup gen key p => c.Follows src s gen key p
    | .computing gen key p => c.Follows src s gen key p

structure Entry.Inv (s : State W R Q K V E N) (e : Entry K V) : Prop where
  since : ∀ k ∈ s.settled, k ≤ e.since
  result : s.pending = [] → ∃ q p, src.start s.world q = .compute e.key p ∧
    p.on (src.part s.world) = .ok e.value

structure State.Inv (s : State W R Q K V E N) : Prop where
  pending_le : ∀ x ∈ s.pending, x.2 ≤ s.clock
  settled_le : ∀ k ∈ s.settled, k ≤ s.clock
  cache : ∀ e ∈ s.cache, e.Inv src s
  calls : ∀ i c, s.calls i = some c → c.Inv src s

variable {src} {s s' : State W R Q K V E N} {c c' : Call R Q K V E}

open State

theorem State.Inv.new (w : W) : (new w : State W R Q K V E N).Inv src where
  pending_le x hx := by cases hx
  settled_le k hk := by cases hk
  cache e he := by cases he
  calls i c hc := by cases hc

/-- A request stays right if the generation it noted stays behind, or nothing has happened to
it. -/
theorem Call.Inv.mono (h : c.Inv src s) (hsame : c' = { c with calm := c'.calm })
    (hcalm : c'.calm = true → s'.pending = []) (hgrow : ∀ k ∈ s.settled, k ∈ s'.settled)
    (hgen : s.generation ≤ s'.generation)
    (hsettled : s'.generation = s.generation → s'.settled = s.settled)
    (hlive : ∀ gen, gen ≤ s.generation → c'.Live s' gen →
      c.Live s gen ∧ src.Silent s.world s'.world) : c'.Inv src s' := by
  have hfollows : ∀ gen key p, c.Follows src s gen key p → c'.Follows src s' gen key p := by
    intro gen key p hf
    rw [hsame]
    refine ⟨hf.gen_le.trans hgen, hf.before, fun hcur k hk => ?_, fun hl => ?_⟩
    · have heq : s'.generation = s.generation := le_antisymm (hcur ▸ hf.gen_le) hgen
      exact hf.since (hcur.trans heq) k (hsettled heq ▸ hk)
    · obtain ⟨hlive', hsilent⟩ := hlive gen hf.gen_le hl
      obtain ⟨p₀, hstart, hon⟩ := hf.result hlive'
      exact ⟨p₀, hsilent.2 _ _ _ hstart, by rw [hsilent.1, hon]⟩
  obtain ⟨-, hbefore, hinv⟩ := h
  have hphase : c'.phase = c.phase := by rw [hsame]
  refine ⟨hcalm, fun k hk => ?_, ?_⟩
  · rw [hsame] at hk
    exact hgrow k (hbefore k hk)
  rw [hphase]
  cases hp : c.phase with
  | top => trivial
  | starting gen =>
    rw [hp] at hinv
    exact le_trans hinv hgen
  | lookup gen key p | computing gen key p =>
    rw [hp] at hinv
    exact hfollows gen key p hinv

theorem Source.Silent.refl (w : W) : src.Silent w w := ⟨rfl, fun _ _ _ h => h⟩

section
variable (h : s.Inv src)
include h

/-- A change leaves the invariant, since nothing is claimed while it waits to be settled. -/
theorem State.Inv.change (w : W) (n : N) :
    Inv src { s.changed w with pending := s.pending ++ [(n, s.clock + 1)] } where
  pending_le x hx := by
    rcases mem_append.mp hx with hx | hx
    · exact (h.pending_le x hx).trans (Nat.le_succ _)
    · rw [mem_singleton] at hx
      subst hx
      exact le_rfl
  settled_le k hk := (h.settled_le k hk).trans (Nat.le_succ _)
  cache e he := ⟨(h.cache e he).since, fun hp => by simp at hp⟩
  calls i c hc := by
    obtain ⟨c₀, hc₀, rfl⟩ := Option.map_eq_some_iff.mp hc
    refine (h.calls i c₀ hc₀).mono rfl (by simp) (fun _ hk => hk) le_rfl (fun _ => rfl) ?_
    rintro gen - (hcalm | ⟨-, hp⟩)
    · cases hcalm
    · simp at hp

theorem State.Inv.silent {w : W} (hw : src.Silent s.world w) : Inv src { s with world := w } where
  __ := h
  cache e he := by
    refine ⟨(h.cache e he).since, fun hp => ?_⟩
    obtain ⟨q, p, hstart, hon⟩ := (h.cache e he).result hp
    exact ⟨q, p, hw.2 _ _ _ hstart, by rw [hw.1, hon]⟩
  calls i c hc := by
    have hinv := h.calls i c hc
    exact hinv.mono rfl hinv.1 (fun _ hk => hk) le_rfl (fun _ => rfl) fun _ _ hl => ⟨hl, hw⟩

/-- Settling a change leaves every request behind that noted the generation before. -/
theorem State.Inv.settle {i : ℕ} {x : N × ℕ} (hx : s.pending[i]? = some x) (w : W) :
    Inv src { s.invalidated with
      world := w
      pending := s.pending.eraseIdx i
      settled := x.2 :: s.settled } where
  pending_le y hy := h.pending_le y (mem_of_mem_eraseIdx hy)
  settled_le k hk := by
    rcases mem_cons.mp hk with rfl | hk
    · exact h.pending_le x (mem_of_getElem? hx)
    · exact h.settled_le k hk
  cache e he := by cases he
  calls j c hc := by
    have hinv := h.calls j c hc
    have hnot : ¬ c.calm = true := by
      intro hcalm
      rw [hinv.1 hcalm] at hx
      cases hx
    refine hinv.mono rfl (fun hcalm => absurd hcalm hnot)
      (fun _ hk => mem_cons_of_mem _ hk) (Nat.le_succ _)
      (fun heq => absurd heq (Nat.succ_ne_self _)) ?_
    rintro gen hgen (hcalm | ⟨hcur, -⟩)
    · exact absurd hcalm hnot
    · exact absurd hcur (Nat.ne_of_lt (Nat.lt_succ_of_le hgen))

theorem State.Inv.invalidate : s.invalidated.Inv src where
  __ := h
  cache e he := by cases he
  calls j c hc := by
    have hinv := h.calls j c hc
    refine hinv.mono rfl hinv.1 (fun _ hk => hk) (Nat.le_succ _)
      (fun heq => absurd heq (Nat.succ_ne_self _)) ?_
    rintro gen hgen (hcalm | ⟨hcur, -⟩)
    · exact ⟨.inl hcalm, .refl _⟩
    · exact absurd hcur (Nat.ne_of_lt (Nat.lt_succ_of_le hgen))

theorem State.Inv.commit (w : W) (writers : ℕ → Option (Writer W R E)) :
    Inv src { (s.changed w).invalidated with
      settled := (s.clock + 1) :: s.settled
      writers := writers } where
  pending_le x hx := (h.pending_le x hx).trans (Nat.le_succ _)
  settled_le k hk := by
    rcases mem_cons.mp hk with rfl | hk
    · exact le_rfl
    · exact (h.settled_le k hk).trans (Nat.le_succ _)
  cache e he := by cases he
  calls j c hc := by
    obtain ⟨c₀, hc₀, rfl⟩ := Option.map_eq_some_iff.mp hc
    refine (h.calls j c₀ hc₀).mono rfl (by simp) (fun _ hk => mem_cons_of_mem _ hk) (Nat.le_succ _)
      (fun heq => absurd heq (Nat.succ_ne_self _)) ?_
    rintro gen hgen (hcalm | ⟨hcur, -⟩)
    · cases hcalm
    · exact absurd hcur (Nat.ne_of_lt (Nat.lt_succ_of_le hgen))

theorem State.Inv.withWriters (writers : ℕ → Option (Writer W R E)) :
    Inv src { s with writers := writers } :=
  ⟨h.pending_le, h.settled_le, fun e he => ⟨(h.cache e he).since, (h.cache e he).result⟩,
    fun i c hc => (h.calls i c hc).mono rfl (h.calls i c hc).1 (fun _ hk => hk) le_rfl
      (fun _ => rfl) fun _ _ hl => ⟨hl, .refl _⟩⟩

theorem State.Inv.writeTurn (i : ℕ) (wr : Writer W R E) : (s.writeTurn src i wr).Inv src := by
  unfold State.writeTurn
  rcases wr.left with _ | ⟨gen, (_ | f) | k⟩
  · exact h.withWriters _
  · exact h.withWriters _
  · simp only
    split
    · exact h.withWriters _
    · exact h.commit _ _
  · exact h.withWriters _

theorem State.Inv.withCall (i : ℕ) {new : Option (Call R Q K V E)}
    (entries : List (Entry K V)) (hnew : ∀ c, new = some c → c.Inv src s)
    (hentries : ∀ e ∈ entries, e.Inv src s) :
    Inv src { s with
      calls := Function.update s.calls i new
      cache := entries ++ s.cache } where
  __ := h
  cache e he := by
    have hinv : e.Inv src s := (mem_append.mp he).elim (hentries e) (h.cache e)
    exact ⟨hinv.since, hinv.result⟩
  calls j c hc := by
    have hinv : c.Inv src s := by
      by_cases hj : j = i
      · subst hj
        exact hnew c ((Function.update_self j new s.calls).symm.trans hc)
      · exact h.calls j c ((Function.update_of_ne hj new s.calls).symm.trans hc)
    exact hinv.mono rfl hinv.1 (fun _ hk => hk) le_rfl (fun _ => rfl) fun _ _ hl => ⟨hl, .refl _⟩

end

theorem Call.Inv.lookup {gen : ℕ} (h : c.Inv src s)
    (hphase : c.phase = .lookup gen key p) : c.Follows src s gen key p := by
  have hinv := h.2.2
  rw [hphase] at hinv
  exact hinv

theorem Call.Inv.computing {gen : ℕ} (h : c.Inv src s)
    (hphase : c.phase = .computing gen key p) : c.Follows src s gen key p := by
  have hinv := h.2.2
  rw [hphase] at hinv
  exact hinv

theorem Source.direct_of_ok {w : W} {q : Q} {v : V}
    (hstart : src.start w q = .compute key p) (hon : p.on (src.part w) = .ok v) :
    src.direct w q = v := by
  simp only [Source.direct, hstart, hon]

theorem Source.direct_of_error {w : W} {q : Q} {e : E}
    (hstart : src.start w q = .compute key p) (hon : p.on (src.part w) = .error e) :
    src.direct w q = src.refused := by
  simp only [Source.direct, hstart, hon]

end invariant

/-! ### Requests -/

section requests
variable [DecidableEq K] {src : Source W R Q K V E} {s : State W R Q K V E N}
  {c : Call R Q K V E}
variable {v : V} {basis : ℕ} {failed : Bool} {store : Option (Entry K V)}

theorem State.Inv.find (h : s.Inv src) {key : K} {e : Entry K V} (he : s.find key = some e) :
    e.key = key ∧ e.Inv src s :=
  ⟨by simpa using find?_some he, h.cache e (mem_of_find?_eq_some he)⟩

/-- How a request goes on: it starts again, notes the generation, finds its key, misses the
cache, or makes the next access. -/
theorem State.turn_goOn_cases {c' : Call R Q K V E} (ht : s.turn src c = .goOn c') :
    c' = { c with phase := .top } ∨
    c' = { c with phase := .starting s.generation } ∨
    (∃ gen key p, c.phase = .starting gen ∧ src.start s.world c.q = .compute key p ∧
      c' = { c with
        phase := if c.useCache then .lookup gen key p else .computing gen key p
        since := s.clock }) ∨
    (∃ gen key p, c.phase = .lookup gen key p ∧ s.find key = none ∧
      c' = { c with phase := .computing gen key p }) ∨
    ∃ gen key k, c.phase = .computing gen key (.read k) ∧
      c' = { c with phase := .computing gen key (k (src.part s.world)) } := by
  unfold turn at ht
  split at ht
  case h_1 => exact .inr (.inl (Turn.goOn.inj ht).symm)
  case h_2 gen hphase =>
      split at ht
      · cases ht
      case h_2 key p hstart =>
        exact .inr (.inr (.inl ⟨gen, key, p, hphase, hstart, (Turn.goOn.inj ht).symm⟩))
  case h_3 gen key p hphase =>
      split at ht
      · exact .inl (Turn.goOn.inj ht).symm
      · split at ht
        · cases ht
        case h_2 hfind =>
          exact .inr (.inr (.inr (.inl ⟨gen, key, p, hphase, hfind, (Turn.goOn.inj ht).symm⟩)))
  case h_4 gen key k hphase =>
      exact .inr (.inr (.inr (.inr ⟨gen, key, k, hphase, (Turn.goOn.inj ht).symm⟩)))
  case h_5 => cases ht
  case h_6 =>
      split at ht
      · exact .inl (Turn.goOn.inj ht).symm
      · cases ht

/-- How a request is answered: at once, from the cache, by refusal, or by its computation. -/
theorem State.turn_answer_cases (ht : s.turn src c = .answer v basis failed store) :
    (src.start s.world c.q = .answer v ∧ basis = s.clock ∧ failed = false ∧ store = none) ∨
    (∃ key p e, c.phase = .lookup s.generation key p ∧ s.find key = some e ∧ v = e.value ∧
      basis = min e.since c.since ∧ failed = false ∧ store = none) ∨
    (∃ gen key err, c.phase = .computing gen key (.done (.error err)) ∧ v = src.refused ∧
      basis = c.since ∧ failed = true ∧ store = none) ∨
    ∃ key, c.phase = .computing s.generation key (.done (.ok v)) ∧ basis = c.since ∧
      failed = false ∧ store = if c.useCache then some ⟨key, v, c.since⟩ else none := by
  unfold turn at ht
  split at ht
  case h_1 => cases ht
  case h_2 gen hphase =>
      split at ht
      case h_1 v' hstart =>
        cases ht
        exact .inl ⟨hstart, rfl, rfl, rfl⟩
      · cases ht
  case h_3 gen key p hphase =>
      split at ht
      · cases ht
      case isFalse hgen =>
        split at ht
        case h_1 e hfind =>
          cases ht
          obtain rfl : gen = s.generation := not_not.mp hgen
          exact .inr (.inl ⟨key, p, e, hphase, hfind, rfl, rfl, rfl, rfl⟩)
        · cases ht
  case h_4 => cases ht
  case h_5 gen key err hphase =>
      cases ht
      exact .inr (.inr (.inl ⟨gen, key, err, hphase, rfl, rfl, rfl, rfl⟩))
  case h_6 gen key v' hphase =>
      split at ht
      · cases ht
      case isFalse hgen =>
        cases ht
        obtain rfl : gen = s.generation := not_not.mp hgen
        exact .inr (.inr (.inr ⟨key, hphase, rfl, rfl, rfl⟩))

theorem State.Inv.turn_goOn (h : s.Inv src) (hc : c.Inv src s) {c' : Call R Q K V E}
    (ht : s.turn src c = .goOn c') : c'.Inv src s := by
  rcases turn_goOn_cases ht with rfl | rfl | ⟨gen, key, p, hphase, hstart, rfl⟩ |
    ⟨gen, key, p, hphase, -, rfl⟩ | ⟨gen, key, k, hphase, rfl⟩
  · exact ⟨hc.1, hc.2.1, trivial⟩
  · exact ⟨hc.1, hc.2.1, le_rfl⟩
  · have hgen : gen ≤ s.generation := by
      have hinv := hc.2.2
      rwa [hphase] at hinv
    have hf : Call.Follows src s { c with
        phase := if c.useCache then .lookup gen key p else .computing gen key p
        since := s.clock } gen key p :=
      ⟨hgen, fun k hk => h.settled_le k (hc.2.1 k hk), fun _ => h.settled_le, fun _ => ⟨p, hstart, rfl⟩⟩
    refine ⟨hc.1, hc.2.1, ?_⟩
    split
    case h_1 hp => split at hp <;> cases hp
    case h_2 hp => split at hp <;> cases hp
    case h_3 hp =>
      split at hp
      · cases hp
        exact hf
      · cases hp
    case h_4 hp =>
      split at hp
      · cases hp
      · cases hp
        exact hf
  · have hf := hc.lookup hphase
    exact ⟨hc.1, hc.2.1, hf.gen_le, hf.before, hf.since, hf.result⟩
  · have hf := hc.computing hphase
    exact ⟨hc.1, hc.2.1, hf.gen_le, hf.before, hf.since, hf.result⟩

theorem State.turn_store (hc : c.Inv src s)
    (ht : s.turn src c = .answer v basis failed store) :
    ∀ e ∈ store.toList, e.Inv src s := by
  intro e he
  rw [Option.mem_toList] at he
  rcases turn_answer_cases ht with ⟨-, -, -, rfl⟩ | ⟨-, -, -, -, -, -, -, -, rfl⟩ |
    ⟨-, -, -, -, -, -, -, rfl⟩ | ⟨key, hphase, -, -, rfl⟩
  · cases he
  · cases he
  · cases he
  · have hf := hc.computing hphase
    split at he
    · cases he
      refine ⟨hf.since rfl, fun hp => ?_⟩
      obtain ⟨p, hstart, hon⟩ := hf.result (.inr ⟨rfl, hp⟩)
      exact ⟨c.q, p, hstart, hon.symm⟩
    · cases he

theorem State.answer_failed (ht : s.turn src c = .answer v basis true store) : v = src.refused := by
  rcases turn_answer_cases ht with ⟨-, -, hf, -⟩ | ⟨-, -, -, -, -, -, -, hf, -⟩ |
    ⟨-, -, -, -, hv, -⟩ | ⟨-, -, -, hf, -⟩
  · cases hf
  · cases hf
  · exact hv
  · cases hf

section
variable (h : s.Inv src) (hc : c.Inv src s) (ht : s.turn src c = .answer v basis failed store)
include h hc ht

/-- If the world has stayed as it was, the answer is that of an undisturbed computation. -/
theorem State.Inv.answer_calm (hcalm : c.calm = true) : v = src.direct s.world c.q := by
  rcases turn_answer_cases ht with ⟨hstart, -⟩ | ⟨key, p, e, hphase, hfind, rfl, -⟩ |
    ⟨gen, key, err, hphase, rfl, -⟩ | ⟨key, hphase, -⟩
  · simp only [Source.direct, hstart]
  · obtain ⟨p₀, hstart, -⟩ := (hc.lookup hphase).result (.inl hcalm)
    obtain ⟨rfl, he⟩ := h.find hfind
    obtain ⟨q, p', hstart', hon⟩ := he.result (hc.1 hcalm)
    -- the entry was made by the same computation, since the key determines it
    obtain rfl := src.key_determines hstart hstart'
    exact (Source.direct_of_ok hstart hon).symm
  · obtain ⟨p₀, hstart, hon⟩ := (hc.computing hphase).result (.inl hcalm)
    exact (Source.direct_of_error hstart hon.symm).symm
  · obtain ⟨p₀, hstart, hon⟩ := (hc.computing hphase).result (.inl hcalm)
    exact (Source.direct_of_ok hstart hon.symm).symm

/-- A result rests on nothing older than a settled change, and no answer on anything older than
a change settled before the request. -/
theorem State.Inv.answer_since :
    (failed = false → ∀ k ∈ s.settled, k ≤ basis) ∧
      ∀ k ∈ c.before, k ≤ basis := by
  rcases turn_answer_cases ht with ⟨-, rfl, -⟩ | ⟨key, p, e, hphase, hfind, -, rfl, -⟩ |
    ⟨gen, key, err, hphase, -, rfl, rfl, -⟩ | ⟨key, hphase, rfl, -⟩
  · exact ⟨fun _ => h.settled_le, fun k hk => h.settled_le k (hc.2.1 k hk)⟩
  · have hsince : ∀ k ∈ s.settled, k ≤ min e.since c.since := fun k hk =>
      le_min ((h.find hfind).2.since k hk) ((hc.lookup hphase).since rfl k hk)
    exact ⟨fun _ => hsince, fun k hk => hsince k (hc.2.1 k hk)⟩
  · constructor
    · intro hfailed
      cases hfailed
    · exact (hc.computing hphase).before
  · exact ⟨fun _ => (hc.computing hphase).since rfl, (hc.computing hphase).before⟩

end

theorem State.solo_computing (src : Source W R Q K V E) (s : State W R Q K V E N)
    (c : Call R Q K V E) (key : K)
    (p : Reads R (Except E V)) :
    ∃ n, s.solo src n { c with phase := .computing s.generation key p } = some
      (match p.on (src.part s.world) with
      | .ok v => v
      | .error _ => src.refused) := by
  induction p with
  | done r =>
    refine ⟨1, ?_⟩
    cases r with
    | ok v | error e => simp [solo, turn]
  | read k ih =>
    obtain ⟨n, hn⟩ := ih (src.part s.world)
    exact ⟨n + 1, hn⟩

/-- **While no change waits to be settled, a request that runs alone is answered**, from the
cache or not, as by an undisturbed computation. -/
theorem State.Inv.solo (h : s.Inv src) (hp : s.pending = []) (q : Q) (useCache calm : Bool)
    (before : List ℕ) (since : ℕ) :
    ∃ n, s.solo src n ⟨q, useCache, .top, calm, before, since⟩ = some (src.direct s.world q) := by
  cases hstart : src.start s.world q with
  | answer v => exact ⟨2, by simp [State.solo, State.turn, hstart, Source.direct]⟩
  | compute key p =>
    obtain ⟨n, hn⟩ := s.solo_computing src ⟨q, useCache, .top, calm, before, s.clock⟩ key p
    have hdirect : src.direct s.world q = match p.on (src.part s.world) with
        | .ok v => v
        | .error _ => src.refused := by
      simp only [Source.direct, hstart]
    rw [hdirect, ← hn]
    cases useCache with
    | false => exact ⟨n + 2, by simp [State.solo, State.turn, hstart]⟩
    | true =>
      cases hfind : s.find key with
      | none => exact ⟨n + 3, by simp [State.solo, State.turn, hstart, hfind]⟩
      | some e =>
        obtain ⟨rfl, he⟩ := h.find hfind
        obtain ⟨q', p', hstart', hon⟩ := he.result hp
        obtain rfl := src.key_determines hstart hstart'
        refine ⟨3, ?_⟩
        rw [hn, hon]
        simp [State.solo, State.turn, hstart, hfind]

/-- **Every action keeps the invariant**, if silent changes are. -/
theorem State.Inv.step (h : s.Inv src) {a : Action W R Q E N}
    (ha : ∀ w, a = .silent w → src.Silent s.world w) : (s.step src a).Inv src := by
  cases a with
  | ask i q useCache =>
    refine h.withCall i [] (fun c hc => ?_) (by simp)
    cases hc
    exact ⟨fun hcalm => isEmpty_iff.mp hcalm, fun _ hk => hk, trivial⟩
  | turn i =>
    simp only [State.step]
    cases hi : s.calls i with
    | none => exact h
    | some c =>
      have hc := h.calls i c hi
      dsimp only
      split
      case h_1 c' ht =>
        refine h.withCall i [] (fun c'' hc'' => ?_) (by simp)
        cases hc''
        exact h.turn_goOn hc ht
      case h_2 v basis failed store ht =>
        exact h.withCall i _ (fun c' hc' => by cases hc') (turn_store hc ht)
  | change w n => exact h.change w n
  | silent w => exact h.silent (ha w rfl)
  | settle i w =>
    simp only [State.step]
    cases hi : s.pending[i]? with
    | none => exact h
    | some x => exact h.settle hi w
  | invalidate => exact h.invalidate
  | write i program => exact h.withWriters _
  | writeTurn i =>
    simp only [State.step]
    cases hi : s.writers i with
    | none => exact h
    | some wr => exact h.writeTurn i wr

theorem State.step_world {P : W → Prop} {a : Action W R Q E N} (hs : P s.world)
    (hput : ∀ w r, P w → P (src.put w r)) (ha : ∀ w, a.world? = some w → P w) :
    P (s.step src a).world := by
  cases a with
  | ask i q useCache | invalidate | write i program => exact hs
  | turn i =>
    simp only [step]
    split
    · exact hs
    · split
      · exact hs
      · exact hs
  | change w n | silent w => exact ha w rfl
  | settle i w =>
    simp only [step]
    split
    · exact hs
    · exact ha w rfl
  | writeTurn i =>
    simp only [step]
    split
    · exact hs
    case h_2 wr _ =>
      unfold writeTurn
      rcases wr.left with _ | ⟨gen, (_ | f) | k⟩
      · exact hs
      · exact hs
      · simp only
        split
        · exact hs
        · exact hput _ _ hs
      · exact hs

end requests

end MumbleServer.GuardedCache
