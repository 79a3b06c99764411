import Mathlib.Data.List.Basic
/-!
# The connection pool's event handlers

`ErrorHandler` and `EventHandler` of `connection_pool.rs`, which r2d2 calls on every connection
error, checkout, checkin and timeout. They keep the `store_connection_error_count` counter, the
`store_connection_checkout_count` gauge and the window of connection wait times, and log the
average wait at most every ten seconds: `add_wait_time` compares the time since `last_log`
with ten seconds under the write lock of `last_log`, and moves `last_log` when it decides to
log. Each call is one step here; `PoolThreads` splits `add_wait_time` into its two critical
sections and runs them in any interleaving.

Over every run of events whose clock never goes back (`runPool_metrics`), the counter counts
the connection errors, the gauge is the checkouts less the checkins, the window has had every
wait added in order, and the average is logged at most once in every ten seconds of the
clock.
-/

namespace GraphNode.Store

/-- Modelled from the spec: the `MovingStats` window behind `PoolWaitStats`, from the `graph`
crate: `add` records a wait and `average` reports the window's mean, if any. Waits are in
nanoseconds. -/
structure MovingStats (σ : Type) where
  add : σ → Nat → σ
  average : σ → Option Nat

/-- What the two handlers keep. `lastLog` is the `Instant` in `last_log`, in nanoseconds. -/
structure PoolMetrics (σ : Type) where
  errorCount : Nat
  checkedOut : Int
  waitStats : σ
  lastLog : Nat

/-- A line the handlers log, with the field it carries. -/
inductive PoolLog
  | connectionError (error : String)
  | averageWaitTime (waitMs : Nat)
  | checkoutTimedOut (waitMs : Nat)
  deriving DecidableEq, Repr

/-- An r2d2 event. A checkout carries its wait and a timeout its timeout, both with the two
readings of `Instant::now()` in `add_wait_time`: at `elapsed()` and at the reset. -/
inductive PoolEvent
  | acquire
  | release
  | checkout (duration now now' : Nat)
  | timeout (timeout now now' : Nat)
  | checkin
  | error (error : String)
  deriving DecidableEq, Repr

/-- `Duration::from_secs(10)`, in nanoseconds. -/
def logInterval : Nat := 10000000000

/-- `Duration::as_millis`. -/
def asMillis (d : Nat) : Nat := d / 1000000

section Handlers

variable {σ : Type} (stats : MovingStats σ)

/-- `add_wait_time(duration)`: `last_log.elapsed()` saturates at zero. -/
def addWaitTime (duration now now' : Nat) (s : PoolMetrics σ) : PoolMetrics σ × List PoolLog :=
  let shouldLog := decide (logInterval < now - s.lastLog)
  let waitStats := stats.add s.waitStats duration
  let waitAvg := if shouldLog then stats.average waitStats else none
  ({ s with lastLog := if shouldLog then now' else s.lastLog, waitStats },
    match waitAvg with
    | some waitAvg => [.averageWaitTime (asMillis waitAvg)]
    | none => [])

/-- `handle_error` of `ErrorHandler` and the `HandleEvent` methods of `EventHandler`. -/
def handlePoolEvent : PoolEvent → PoolMetrics σ → PoolMetrics σ × List PoolLog
  | .acquire, s | .release, s => (s, [])
  | .checkout duration now now', s =>
    addWaitTime stats duration now now' { s with checkedOut := s.checkedOut + 1 }
  | .timeout timeout now now', s =>
    let r := addWaitTime stats timeout now now' s
    (r.1, r.2 ++ [.checkoutTimedOut (asMillis timeout)])
  | .checkin, s => ({ s with checkedOut := s.checkedOut - 1 }, [])
  | .error error, s => ({ s with errorCount := s.errorCount + 1 }, [.connectionError error])

/-- The handlers over a run of events, with the lines they log in order. -/
def runPool : List PoolEvent → PoolMetrics σ → PoolMetrics σ × List PoolLog
  | [], s => (s, [])
  | e :: es, s =>
    let r := handlePoolEvent stats e s
    let r' := runPool es r.1
    (r'.1, r.2 ++ r'.2)

end Handlers

namespace PoolEvent

def isCheckout : PoolEvent → Bool
  | .checkout _ _ _ => true
  | _ => false

def isCheckin : PoolEvent → Bool
  | .checkin => true
  | _ => false

def isError : PoolEvent → Bool
  | .error _ => true
  | _ => false

/-- The wait `add_wait_time` records for the event, if it calls it. -/
def wait? : PoolEvent → Option Nat
  | .checkout wait _ _ | .timeout wait _ _ => some wait
  | _ => none

end PoolEvent

def PoolLog.isAverage : PoolLog → Bool
  | .averageWaitTime _ => true
  | _ => false

/-- The clock of a run never goes back and stays within `[t, b]`: each `add_wait_time` reads it
at `elapsed()` and then at the reset, each reading at least the one before. -/
def Clocked : Nat → Nat → List PoolEvent → Prop
  | _, _, [] => True
  | t, b, .checkout _ now now' :: es | t, b, .timeout _ now now' :: es =>
    t ≤ now ∧ now ≤ now' ∧ now' ≤ b ∧ Clocked now' b es
  | t, b, _ :: es => Clocked t b es

section Run

variable {σ : Type} (stats : MovingStats σ)

theorem runPool_cons (e : PoolEvent) (es : List PoolEvent) (s : PoolMetrics σ) :
    runPool stats (e :: es) s =
      ((runPool stats es (handlePoolEvent stats e s).1).1,
        (handlePoolEvent stats e s).2 ++ (runPool stats es (handlePoolEvent stats e s).1).2) :=
  rfl

/-- `add_wait_time` logs the average only when it moves `last_log`, and moves it only once
more than ten seconds have passed since the last move. -/
theorem addWaitTime_lastLog (duration : Nat) {now now' : Nat} (hnow : now ≤ now')
    (s : PoolMetrics σ) :
    ((addWaitTime stats duration now now' s).2.countP PoolLog.isAverage = 0 ∧
        (addWaitTime stats duration now now' s).1.lastLog = s.lastLog) ∨
      ((addWaitTime stats duration now now' s).2.countP PoolLog.isAverage ≤ 1 ∧
        (addWaitTime stats duration now now' s).1.lastLog = now' ∧
        s.lastLog + logInterval < now') := by
  unfold addWaitTime
  by_cases h : logInterval < now - s.lastLog
  · refine .inr ⟨?_, by simp [h], by omega⟩
    simp only [h, decide_True, if_true]
    split <;> simp [PoolLog.isAverage]
  · exact .inl ⟨by simp [h], by simp [h]⟩

/-- One event moves the error counter, the checkout gauge and the wait window by what it is. -/
theorem handlePoolEvent_metrics (e : PoolEvent) (s : PoolMetrics σ) :
    (handlePoolEvent stats e s).1.errorCount = s.errorCount + (if e.isError then 1 else 0) ∧
    (handlePoolEvent stats e s).1.checkedOut =
      s.checkedOut + (if e.isCheckout then 1 else 0) - (if e.isCheckin then 1 else 0) ∧
    (handlePoolEvent stats e s).1.waitStats = e.wait?.toList.foldl stats.add s.waitStats := by
  cases e <;> simp [handlePoolEvent, addWaitTime, PoolEvent.isError, PoolEvent.isCheckout,
    PoolEvent.isCheckin, PoolEvent.wait?]

theorem runPool_counts (es : List PoolEvent) (s : PoolMetrics σ) :
    (runPool stats es s).1.errorCount = s.errorCount + es.countP PoolEvent.isError ∧
    (runPool stats es s).1.checkedOut =
      s.checkedOut + es.countP PoolEvent.isCheckout - es.countP PoolEvent.isCheckin ∧
    (runPool stats es s).1.waitStats = (es.filterMap PoolEvent.wait?).foldl stats.add s.waitStats := by
  induction es generalizing s with
  | nil => simp [runPool]
  | cons e es ih =>
    obtain ⟨he, hc, hw⟩ := handlePoolEvent_metrics stats e s
    obtain ⟨ihe, ihc, ihw⟩ := ih (handlePoolEvent stats e s).1
    refine ⟨?_, ?_, ?_⟩
    · rw [runPool_cons, ihe, he, List.countP_cons]
      omega
    · rw [runPool_cons, ihc, hc, List.countP_cons, List.countP_cons]
      split <;> split <;> push_cast <;> omega
    · rw [runPool_cons, ihw, hw, List.filterMap_cons]
      cases e.wait? <;> rfl

/-- The arithmetic of the rate limit: an event that logs at most one average, and then only
when it moves `last_log` more than ten seconds past its old value, keeps the bound. -/
theorem rate_step {c₁ c₂ last last' now' b : Nat}
    (h : c₁ = 0 ∧ last' = last ∨ c₁ ≤ 1 ∧ last' = now' ∧ last + logInterval < now')
    (hb : now' ≤ b) (ih : c₂ * logInterval ≤ b - last') : (c₁ + c₂) * logInterval ≤ b - last := by
  unfold logInterval at *
  omega

/-- One event of a clocked run: the rest of the run is clocked from some `t'` past the new
`last_log`, and the bound for the rest gives the bound for the whole run. -/
theorem handlePoolEvent_rate (e : PoolEvent) {es : List PoolEvent} {s : PoolMetrics σ}
    {t b : Nat} (hc : Clocked t b (e :: es)) (ht : s.lastLog ≤ t) :
    ∃ t', Clocked t' b es ∧ (handlePoolEvent stats e s).1.lastLog ≤ t' ∧
      ∀ c, c * logInterval ≤ b - (handlePoolEvent stats e s).1.lastLog →
        ((handlePoolEvent stats e s).2.countP PoolLog.isAverage + c) * logInterval ≤
          b - s.lastLog := by
  cases e with
  | checkout duration now now' =>
    obtain ⟨hnow, hnow', hb, hc⟩ := hc
    have hs := addWaitTime_lastLog stats duration hnow' { s with checkedOut := s.checkedOut + 1 }
    refine ⟨now', hc, ?_, fun c => rate_step hs hb⟩
    rcases hs with ⟨-, hl⟩ | ⟨-, hl, -⟩ <;> simp only [handlePoolEvent, hl] <;> omega
  | timeout duration now now' =>
    obtain ⟨hnow, hnow', hb, hc⟩ := hc
    have hs := addWaitTime_lastLog stats duration hnow' s
    simp only [handlePoolEvent, List.countP_append, List.countP_singleton, PoolLog.isAverage,
      if_false, Nat.add_zero]
    refine ⟨now', hc, ?_, fun c => rate_step hs hb⟩
    rcases hs with ⟨-, hl⟩ | ⟨-, hl, -⟩ <;> simp only [hl] <;> omega
  | acquire | release | checkin | error =>
    exact ⟨t, hc, ht, fun c h => by simpa [handlePoolEvent, PoolLog.isAverage] using h⟩

/-- Over a run whose clock never goes back and stays within `[t, b]`, from `last_log` at most
`t`, the average is logged at most once in every ten seconds. -/
theorem runPool_rate (es : List PoolEvent) {s : PoolMetrics σ} {t b : Nat} (hc : Clocked t b es)
    (ht : s.lastLog ≤ t) :
    (runPool stats es s).2.countP PoolLog.isAverage * logInterval ≤ b - s.lastLog := by
  induction es generalizing s t with
  | nil => simp [runPool]
  | cons e es ih =>
    obtain ⟨t', hc', ht', hstep⟩ := handlePoolEvent_rate stats e hc ht
    rw [runPool_cons, List.countP_append]
    exact hstep _ (ih hc' ht')

/-- Over every run of pool events whose clock never goes back, from any state: the error
counter has counted every connection error, the checkout gauge is moved by the checkouts less
the checkins, every wait of a checkout or timeout has been added to the window in order, and
the average wait is logged at most once in every ten seconds between `last_log` and the run's
last reading `b`. -/
theorem runPool_metrics (es : List PoolEvent) (s : PoolMetrics σ) {b : Nat}
    (hc : Clocked s.lastLog b es) :
    (runPool stats es s).1.errorCount = s.errorCount + es.countP PoolEvent.isError ∧
    (runPool stats es s).1.checkedOut =
      s.checkedOut + es.countP PoolEvent.isCheckout - es.countP PoolEvent.isCheckin ∧
    (runPool stats es s).1.waitStats = (es.filterMap PoolEvent.wait?).foldl stats.add s.waitStats ∧
    (runPool stats es s).2.countP PoolLog.isAverage * logInterval ≤ b - s.lastLog :=
  let ⟨he, hc', hw⟩ := runPool_counts stats es s
  ⟨he, hc', hw, runPool_rate stats es hc le_rfl⟩

/-- A window that keeps the sum of the waits, and a run of two checkouts eleven seconds apart
with a connection error and a checkin between them. -/
theorem runPool_metrics_sumWindow :
    let stats : MovingStats Nat := ⟨fun w d => w + d, some⟩
    let es := [.checkout 2000000 11000000000 11000000000, .error "refused", .checkin,
      .checkout 3000000 22000000001 22000000001]
    let s : PoolMetrics Nat := ⟨0, 0, 0, 0⟩
    Clocked s.lastLog 22000000001 es ∧
      (runPool stats es s).1.errorCount = s.errorCount + es.countP PoolEvent.isError ∧
      (runPool stats es s).1.checkedOut =
        s.checkedOut + es.countP PoolEvent.isCheckout - es.countP PoolEvent.isCheckin ∧
      (runPool stats es s).1.waitStats =
        (es.filterMap PoolEvent.wait?).foldl stats.add s.waitStats ∧
      (runPool stats es s).2.countP PoolLog.isAverage * logInterval ≤ 22000000001 - s.lastLog :=
  have hc : Clocked 0 22000000001 [.checkout 2000000 11000000000 11000000000, .error "refused",
      .checkin, .checkout 3000000 22000000001 22000000001] := by
    simp [Clocked]
  ⟨hc, runPool_metrics ⟨fun w d => w + d, some⟩ _ ⟨0, 0, 0, 0⟩ hc⟩

end Run

end GraphNode.Store
