import Mathlib.Logic.Function.Basic
import Mathlib.Tactic.Common

/-! # The rate limit of logins

`AuthRateLimit` of `internal/middleware/ratelimit.go` counts the requests of every address in
windows.  From time to time a request removes the entries of all addresses whose windows are over.
Nobody notices: the next request of such an address starts a new window anyway. -/

namespace MumbleServer.RateLimit

/-- `authRateEntry`; times are readings of the monotonic clock in nanoseconds. -/
structure Entry where
  count : ℕ
  start : Int

structure AuthRateLimit where
  byIP : String → Option Entry
  limit : ℕ
  window : Int
  cleanup : Int
  interval : Int

namespace AuthRateLimit

/-- `NewAuthRateLimit`; twice the window can overflow. -/
def new (limit : ℕ) (window now : Int) : AuthRateLimit :=
  let interval := (window * 2).bmod 0x10000000000000000
  ⟨fun _ => none, limit, window, now + interval, interval⟩

variable (rl : AuthRateLimit) (ip : String) (now : Int)

/-- The first part of `allow`. -/
def clean : AuthRateLimit :=
  if rl.cleanup < now then
    { rl with
      byIP := fun k => (rl.byIP k).filter fun e => decide (now - e.start ≤ rl.window)
      cleanup := now + rl.interval }
  else rl

def put (e : Entry) : AuthRateLimit := { rl with byIP := Function.update rl.byIP ip (some e) }

/-- The second part of `allow`. -/
def answer : AuthRateLimit × Bool :=
  match rl.byIP ip with
  | none => (rl.put ip ⟨1, now⟩, true)
  | some e =>
    if rl.window < now - e.start then (rl.put ip ⟨1, now⟩, true)
    else if rl.limit ≤ e.count then (rl, false)
    else (rl.put ip { e with count := e.count + 1 }, true)

def allow : AuthRateLimit × Bool := (rl.clean now).answer ip now

/-- What a sequence of requests is answered. -/
def decisions (rl : AuthRateLimit) : List (String × Int) → List Bool
  | [] => []
  | (ip, now) :: rest => (rl.allow ip now).2 :: (rl.allow ip now).1.decisions rest

end AuthRateLimit

/-- The window of a request, with the requests before it: the last one, if it is not over, or a
new one. -/
def windowAt (length : Int) (last : Option Entry) (now : Int) : Entry :=
  match last with
  | none => ⟨0, now⟩
  | some w => if length < now - w.start then ⟨0, now⟩ else w

/-- The window after the request; at most `limit` requests of it are allowed, and counted. -/
def Entry.counted (w : Entry) (limit : ℕ) : Entry :=
  if w.count < limit then { w with count := w.count + 1 } else w

/-- The answers without a cleanup. -/
def plainDecisions (limit : ℕ) (length : Int) (last : String → Option Entry) :
    List (String × Int) → List Bool
  | [] => []
  | (ip, now) :: rest =>
    let w := windowAt length (last ip) now
    decide (w.count < limit) ::
      plainDecisions limit length (Function.update last ip (some (w.counted limit))) rest

variable {rl : AuthRateLimit} {last : String → Option Entry} {t now : Int} {ip : String}

/-- A request is answered by its window. -/
theorem answer_eq (hlimit : 0 < rl.limit) {w : Entry}
    (hw : windowAt rl.window (rl.byIP ip) now = w) :
    rl.answer ip now = (rl.put ip (w.counted rl.limit), decide (w.count < rl.limit)) := by
  have hfirst : (rl.put ip ⟨1, now⟩, true) =
      (rl.put ip (Entry.counted ⟨0, now⟩ rl.limit), decide (0 < rl.limit)) := by
    rw [Entry.counted, if_pos hlimit, decide_eq_true hlimit]
  subst hw
  unfold AuthRateLimit.answer windowAt
  cases he : rl.byIP ip with
  | none => exact hfirst
  | some e =>
    dsimp only
    split_ifs with hover hfull
    · exact hfirst
    · -- a full window stays as it is
      rw [Entry.counted, if_neg (by omega), decide_eq_false (by omega), AuthRateLimit.put, ← he,
        Function.update_eq_self]
    · rw [Entry.counted, if_pos (by omega), decide_eq_true (by omega)]

/-- From the time `t` on, the limiter finds every request in the window it belongs to. -/
def Tracks (rl : AuthRateLimit) (last : String → Option Entry) (t : Int) : Prop :=
  ∀ ip now, t ≤ now → windowAt rl.window (rl.byIP ip) now = windowAt rl.window (last ip) now

theorem Tracks.clean (h : Tracks rl last t) (ht : t ≤ now) : Tracks (rl.clean now) last now := by
  intro ip later hlater
  have hlate : t ≤ later := by omega
  rw [AuthRateLimit.clean]
  split_ifs
  · rw [← h ip later hlate]
    dsimp only
    cases rl.byIP ip with
    | none => rfl
    | some e =>
      by_cases hover : now - e.start ≤ rl.window
      · rw [Option.filter_some, if_pos (decide_eq_true hover)]
      · -- it would be over at the later time, too
        have hover' : rl.window < later - e.start := by omega
        rw [Option.filter_some, if_neg (by simpa using hover)]
        exact (if_pos hover').symm
  · exact h ip later hlate

theorem Tracks.put (h : Tracks rl last t) (w : Entry) :
    Tracks (rl.put ip w) (Function.update last ip (some w)) t := by
  intro k now hnow
  by_cases hk : k = ip
  · subst hk
    simp [AuthRateLimit.put]
  · simpa [AuthRateLimit.put, hk] using h k now hnow

theorem Tracks.decisions {requests : List (String × Int)} (h : Tracks rl last t)
    (hlimit : 0 < rl.limit) (hclock : (t :: requests.map Prod.snd).Pairwise (· ≤ ·)) :
    rl.decisions requests = plainDecisions rl.limit rl.window last requests := by
  induction requests generalizing rl last t with
  | nil => rfl
  | cons r rest ih =>
    obtain ⟨ip, now⟩ := r
    obtain ⟨ht, hrest⟩ := List.pairwise_cons.mp hclock
    have hclean := h.clean (ht now List.mem_cons_self)
    have hsame : (rl.clean now).limit = rl.limit ∧ (rl.clean now).window = rl.window := by
      unfold AuthRateLimit.clean
      split_ifs <;> exact ⟨rfl, rfl⟩
    rw [← hsame.1] at hlimit
    rw [AuthRateLimit.decisions, AuthRateLimit.allow, plainDecisions, ← hsame.1, ← hsame.2]
    rw [answer_eq hlimit (hclean ip now (Int.le_refl now))]
    exact congrArg _ (ih (hclean.put _) hlimit hrest)

/-- **Cleanup never changes a decision**: whatever the window, the addresses and the requests, as
long as the clock does not go back, each request is answered as by a limiter that forgets
nothing. -/
theorem cleanup_unnoticed (limit : ℕ) (hlimit : 0 < limit) (window created : Int)
    (requests : List (String × Int)) (hclock : (requests.map Prod.snd).Pairwise (· ≤ ·)) :
    (AuthRateLimit.new limit window created).decisions requests =
      plainDecisions limit window (fun _ => none) requests := by
  cases requests with
  | nil => rfl
  | cons r rest =>
    have hempty : Tracks (.new limit window created) (fun _ => none) r.2 := fun _ _ _ => rfl
    refine hempty.decisions hlimit (List.pairwise_cons.mpr ⟨fun x hx => ?_, hclock⟩)
    rcases List.mem_cons.mp hx with rfl | hx
    · exact Int.le_refl _
    · exact (List.pairwise_cons.mp hclock).1 x hx

/-- Two requests in five seconds; the cleanup at the second 11 removes both entries. -/
theorem cleanup_unnoticed_two : (AuthRateLimit.new 2 5 0).decisions
    [("a", 1), ("b", 2), ("a", 3), ("a", 4), ("b", 11), ("a", 12)] =
      [true, true, true, false, true, true] :=
  (cleanup_unnoticed 2 (by decide) 5 0 _ (by decide)).trans (by decide)

/-! ### Addresses apart -/

theorem plainDecisions_filter {limit : ℕ} {length : Int} {last' : String → Option Entry}
    (h : last ip = last' ip) (requests : List (String × Int)) :
    ((requests.zip (plainDecisions limit length last requests)).filter
        fun e => decide (e.1.1 = ip)).map Prod.snd =
      plainDecisions limit length last' (requests.filter fun r => decide (r.1 = ip)) := by
  induction requests generalizing last last' with
  | nil => rfl
  | cons r rest ih =>
    obtain ⟨k, now⟩ := r
    rw [plainDecisions, List.zip_cons_cons]
    by_cases hk : k = ip
    · subst hk
      rw [List.filter_cons_of_pos (by simp), List.filter_cons_of_pos (by simp), List.map_cons,
        plainDecisions, h]
      exact congrArg _ (ih (by simp))
    · rw [List.filter_cons_of_neg (by simpa using hk), List.filter_cons_of_neg (by simpa using hk)]
      exact ih (by rw [Function.update_of_ne (Ne.symm hk), h])

/-- **Addresses do not get in each other's way**: those who use an address get the answers they
would get if nobody used another one, though the requests of all addresses drive the cleanup. -/
theorem addresses_apart (limit : ℕ) (hlimit : 0 < limit) (window created : Int)
    (requests : List (String × Int))
    (hclock : (created :: requests.map Prod.snd).Pairwise (· ≤ ·)) (ip : String) :
    ((requests.zip ((AuthRateLimit.new limit window created).decisions requests)).filter
        fun e => decide (e.1.1 = ip)).map Prod.snd =
      (AuthRateLimit.new limit window created).decisions
        (requests.filter fun r => decide (r.1 = ip)) := by
  have hempty : Tracks (.new limit window created) (fun _ => none) created := fun _ _ _ => rfl
  -- the requests of one address are in the order of the clock as well
  rw [hempty.decisions hlimit hclock, hempty.decisions hlimit
    (hclock.sublist ((List.filter_sublist.map Prod.snd).cons_cons created))]
  exact plainDecisions_filter rfl requests

/-- The cleanup at the second 11 is driven by the other address. -/
theorem addresses_apart_two :
    let requests := [("a", 1), ("b", 2), ("a", 3), ("b", 11), ("a", 12)]
    ((requests.zip ((AuthRateLimit.new 1 5 0).decisions requests)).filter
      fun e => decide (e.1.1 = "a")).map Prod.snd = [true, false, true] :=
  (addresses_apart 1 (by decide) 5 0 [("a", 1), ("b", 2), ("a", 3), ("b", 11), ("a", 12)]
    (by decide) "a").trans (by decide)

end MumbleServer.RateLimit
