import GraphNode.Store.ConnectionPool
/-!
# The pool handlers under concurrent checkouts

r2d2 calls the handlers from whichever thread checks a connection out, so calls of
`add_wait_time` overlap. A call is two critical sections: under the write lock of `last_log` it
decides `should_log` and may move `last_log`; after releasing that lock, under the write lock of
`wait_stats`, it adds its wait and takes the average if it decided to log. Other calls' sections
can run between the two. Here each critical section, and each handler that takes no lock, is one
step, and a run is any interleaving of steps.

* `runSteps_events`: a call whose two sections run back to back is the call of
  `ConnectionPool`, so the sequential model is the interleaved one with adjacent sections;
* `runSteps_metrics`: over every interleaving whose `last_log` sections read a clock that never
  goes back, the counters count what they should, the window has had every wait added in the
  order of the `wait_stats` sections, and the average is still logged at most once in every ten
  seconds.
-/

namespace GraphNode.Store

/-- A step of the handlers as r2d2's threads interleave them: a handler that takes no lock, or
a part of `handle_checkout` and `handle_timeout`. `call` tells the calls of `add_wait_time` in
progress apart: the `should_log` the first section computes is the second's to read. -/
inductive PoolStep
  | acquire
  | release
  | checkin
  | error (error : String)
  /-- `self.gauge.inc()` at the start of `handle_checkout`. -/
  | gaugeInc
  /-- The section of `add_wait_time` under the lock of `last_log`, reading the clock at
  `elapsed()` and at the reset. -/
  | lastLog (call now now' : Nat)
  /-- The section of `add_wait_time` under the lock of `wait_stats`, and its log line. -/
  | waitStats (call duration : Nat)
  /-- The error line at the end of `handle_timeout`. -/
  | timedOut (timeout : Nat)
  deriving DecidableEq, Repr

/-- The handlers' state, with the `should_log` of each call between its two sections. -/
structure PoolThreads (σ : Type) where
  metrics : PoolMetrics σ
  shouldLog : List (Nat × Bool)

section Steps

variable {σ : Type} (stats : MovingStats σ)

/-- A handler that takes no lock, as one step. -/
def PoolThreads.handle (t : PoolThreads σ) (e : PoolEvent) : PoolThreads σ × List PoolLog :=
  let r := handlePoolEvent stats e t.metrics
  (⟨r.1, t.shouldLog⟩, r.2)

/-- The first section of call `call` of `add_wait_time`. -/
def lastLogSection (call now now' : Nat) (t : PoolThreads σ) : PoolThreads σ :=
  let shouldLog := decide (logInterval < now - t.metrics.lastLog)
  ⟨{ t.metrics with lastLog := if shouldLog then now' else t.metrics.lastLog },
    (call, shouldLog) :: t.shouldLog⟩

/-- The second section of call `call` of `add_wait_time`, with the line it logs. It reads the
`should_log` of its first section (`false` for a call without one, which no run of the
program has) and forgets it. -/
def waitStatsSection (call duration : Nat) (t : PoolThreads σ) : PoolThreads σ × List PoolLog :=
  let shouldLog := (List.lookup call t.shouldLog).getD false
  let waitStats := stats.add t.metrics.waitStats duration
  let waitAvg := if shouldLog then stats.average waitStats else none
  (⟨{ t.metrics with waitStats }, t.shouldLog.filter (·.1 != call)⟩,
    match waitAvg with
    | some waitAvg => [.averageWaitTime (asMillis waitAvg)]
    | none => [])

def poolStep : PoolStep → PoolThreads σ → PoolThreads σ × List PoolLog
  | .acquire, t => t.handle stats .acquire
  | .release, t => t.handle stats .release
  | .checkin, t => t.handle stats .checkin
  | .error error, t => t.handle stats (.error error)
  | .gaugeInc, t => (⟨{ t.metrics with checkedOut := t.metrics.checkedOut + 1 }, t.shouldLog⟩, [])
  | .lastLog call now now', t => (lastLogSection call now now' t, [])
  | .waitStats call duration, t => waitStatsSection stats call duration t
  | .timedOut timeout, t => (t, [.checkoutTimedOut (asMillis timeout)])

/-- An interleaving of steps, with the lines they log in order. -/
def runSteps : List PoolStep → PoolThreads σ → PoolThreads σ × List PoolLog
  | [], t => (t, [])
  | p :: ps, t =>
    let r := poolStep stats p t
    let r' := runSteps ps r.1
    (r'.1, r.2 ++ r'.2)

end Steps

/-- The steps of one event's handler, its call of `add_wait_time` being call `call`. -/
def PoolEvent.steps (call : Nat) : PoolEvent → List PoolStep
  | .acquire => [.acquire]
  | .release => [.release]
  | .checkout duration now now' => [.gaugeInc, .lastLog call now now', .waitStats call duration]
  | .timeout wait now now' => [.lastLog call now now', .waitStats call wait, .timedOut wait]
  | .checkin => [.checkin]
  | .error err => [.error err]

namespace PoolStep

def isGaugeInc : PoolStep → Bool
  | .gaugeInc => true
  | _ => false

def isCheckin : PoolStep → Bool
  | .checkin => true
  | _ => false

def isError : PoolStep → Bool
  | .error _ => true
  | _ => false

/-- The wait a `wait_stats` section adds. -/
def wait? : PoolStep → Option Nat
  | .waitStats _ duration => some duration
  | _ => none

end PoolStep

/-- The `last_log` sections of a run read a clock that never goes back and stays within
`[t, b]`: the lock orders them, and each reads the clock at `elapsed()` and then at the
reset. -/
def StepsClocked : Nat → Nat → List PoolStep → Prop
  | _, _, [] => True
  | t, b, .lastLog _ now now' :: ps => t ≤ now ∧ now ≤ now' ∧ now' ≤ b ∧ StepsClocked now' b ps
  | t, b, _ :: ps => StepsClocked t b ps

/-- The calls between their two sections that have decided to log. -/
def PoolThreads.pendingLogs {σ : Type} (t : PoolThreads σ) : Nat := t.shouldLog.countP (·.2)

section Serial

variable {σ : Type} (stats : MovingStats σ)

theorem runSteps_cons (p : PoolStep) (ps : List PoolStep) (t : PoolThreads σ) :
    runSteps stats (p :: ps) t =
      ((runSteps stats ps (poolStep stats p t).1).1,
        (poolStep stats p t).2 ++ (runSteps stats ps (poolStep stats p t).1).2) :=
  rfl

theorem runSteps_append (ps qs : List PoolStep) (t : PoolThreads σ) :
    runSteps stats (ps ++ qs) t =
      ((runSteps stats qs (runSteps stats ps t).1).1,
        (runSteps stats ps t).2 ++ (runSteps stats qs (runSteps stats ps t).1).2) := by
  induction ps generalizing t with
  | nil => rfl
  | cons p ps ih => rw [List.cons_append, runSteps_cons, ih, runSteps_cons, List.append_assoc]

/-- Back to back, the two sections of a call that no other call in progress shares are
`add_wait_time`, and leave the calls in progress as they were. -/
theorem waitStatsSection_lastLogSection {call : Nat} (duration now now' : Nat) (m : PoolMetrics σ)
    {fl : List (Nat × Bool)} (hfresh : call ∉ fl.map (·.1)) :
    waitStatsSection stats call duration (lastLogSection call now now' ⟨m, fl⟩) =
      (⟨(addWaitTime stats duration now now' m).1, fl⟩, (addWaitTime stats duration now now' m).2) := by
  have hkeep : fl.filter (·.1 != call) = fl :=
    List.filter_eq_self.mpr fun x hx => bne_iff_ne.mpr fun h => hfresh (h ▸ List.mem_map_of_mem _ hx)
  simp only [waitStatsSection, lastLogSection, addWaitTime, List.lookup_cons_self,
    Option.getD_some, List.filter_cons, bne_self_eq_false, hkeep]
  rfl

/-- An event's steps run back to back are its handler, whenever its call id is not one of a call
in progress. -/
theorem runSteps_steps {call : Nat} (e : PoolEvent) {t : PoolThreads σ}
    (hfresh : call ∉ t.shouldLog.map (·.1)) :
    runSteps stats (e.steps call) t =
      (⟨(handlePoolEvent stats e t.metrics).1, t.shouldLog⟩, (handlePoolEvent stats e t.metrics).2) := by
  obtain ⟨m, fl⟩ := t
  cases e with
  | checkout duration now now' =>
    simp only [PoolEvent.steps, runSteps, poolStep, List.nil_append, List.append_nil]
    rw [waitStatsSection_lastLogSection stats duration now now' _ hfresh]
    rfl
  | timeout timeout now now' =>
    simp only [PoolEvent.steps, runSteps, poolStep, List.nil_append, List.append_nil]
    rw [waitStatsSection_lastLogSection stats timeout now now' _ hfresh]
    rfl
  | acquire | release | checkin | error => rfl

/-- The sequential model is the interleaved one in which every call's sections run back to
back: whatever call id the calls use, from any calls in progress that do not use it, the run of
the events' steps is `runPool` of the events, and leaves the calls in progress as they were. -/
theorem runSteps_events (es : List PoolEvent) (call : Nat) (t : PoolThreads σ)
    (hfresh : call ∉ t.shouldLog.map (·.1)) :
    runSteps stats (es.flatMap (·.steps call)) t =
      (⟨(runPool stats es t.metrics).1, t.shouldLog⟩, (runPool stats es t.metrics).2) := by
  induction es generalizing t with
  | nil => rfl
  | cons e es ih =>
    rw [List.flatMap_cons, runSteps_append, runSteps_steps stats e hfresh]
    dsimp only
    rw [ih ⟨(handlePoolEvent stats e t.metrics).1, t.shouldLog⟩ hfresh]
    rfl

theorem runSteps_events_callInProgress :
    let stats : MovingStats Nat := ⟨fun w d => w + d, some⟩
    let es := [.checkout 2000000 11000000000 11000000000, .timeout 3000000 12000000000 12000000000]
    let t : PoolThreads Nat := ⟨⟨0, 0, 0, 0⟩, [(1, true)]⟩
    0 ∉ t.shouldLog.map (·.1) ∧
      runSteps stats (es.flatMap (·.steps 0)) t =
        (⟨(runPool stats es t.metrics).1, t.shouldLog⟩, (runPool stats es t.metrics).2) :=
  have hfresh : 0 ∉ [(1, true)].map (·.1) := by decide
  ⟨hfresh, runSteps_events ⟨fun w d => w + d, some⟩ _ 0 ⟨⟨0, 0, 0, 0⟩, [(1, true)]⟩ hfresh⟩

end Serial

section Interleaved

variable {σ : Type} (stats : MovingStats σ)

/-- One step moves the error counter, the checkout gauge and the wait window by what it is. -/
theorem poolStep_metrics (p : PoolStep) (t : PoolThreads σ) :
    (poolStep stats p t).1.metrics.errorCount =
      t.metrics.errorCount + (if p.isError then 1 else 0) ∧
    (poolStep stats p t).1.metrics.checkedOut =
      t.metrics.checkedOut + (if p.isGaugeInc then 1 else 0) - (if p.isCheckin then 1 else 0) ∧
    (poolStep stats p t).1.metrics.waitStats = p.wait?.toList.foldl stats.add t.metrics.waitStats := by
  cases p <;> simp [poolStep, PoolThreads.handle, handlePoolEvent, lastLogSection,
    waitStatsSection, PoolStep.isError, PoolStep.isGaugeInc, PoolStep.isCheckin, PoolStep.wait?]

theorem runSteps_counts (ps : List PoolStep) (t : PoolThreads σ) :
    (runSteps stats ps t).1.metrics.errorCount = t.metrics.errorCount + ps.countP PoolStep.isError ∧
    (runSteps stats ps t).1.metrics.checkedOut =
      t.metrics.checkedOut + ps.countP PoolStep.isGaugeInc - ps.countP PoolStep.isCheckin ∧
    (runSteps stats ps t).1.metrics.waitStats =
      (ps.filterMap PoolStep.wait?).foldl stats.add t.metrics.waitStats := by
  induction ps generalizing t with
  | nil => simp [runSteps]
  | cons p ps ih =>
    obtain ⟨he, hc, hw⟩ := poolStep_metrics stats p t
    obtain ⟨ihe, ihc, ihw⟩ := ih (poolStep stats p t).1
    refine ⟨?_, ?_, ?_⟩
    · rw [runSteps_cons, ihe, he, List.countP_cons]
      omega
    · rw [runSteps_cons, ihc, hc, List.countP_cons, List.countP_cons]
      split <;> split <;> push_cast <;> omega
    · rw [runSteps_cons, ihw, hw, List.filterMap_cons]
      cases p.wait? <;> rfl

/-- Forgetting a call's `should_log` drops at least the one that decided to log, if it did. -/
theorem countP_filter_key_add_le (call : Nat) (fl : List (Nat × Bool)) :
    (fl.filter (·.1 != call)).countP (·.2) +
        (if (List.lookup call fl).getD false then 1 else 0) ≤ fl.countP (·.2) := by
  induction fl with
  | nil => simp
  | cons x fl ih =>
    obtain ⟨k, v⟩ := x
    by_cases hk : call = k
    · subst hk
      simp only [List.lookup_cons_self, Option.getD_some, List.filter_cons,
        bne_self_eq_false, Bool.false_eq_true, if_false, List.countP_cons]
      omega
    · have hne : (call == k) = false := beq_false_of_ne hk
      have hne' : (k != call) = true := bne_iff_ne.mpr (Ne.symm hk)
      simp only [List.lookup_cons, hne, List.filter_cons, hne', if_true, List.countP_cons]
      omega

/-- The `wait_stats` section logs an average only for a call that decided to log, and forgets
that decision; it leaves `last_log` alone. -/
theorem waitStatsSection_pending (call duration : Nat) (t : PoolThreads σ) :
    (waitStatsSection stats call duration t).2.countP PoolLog.isAverage +
        (waitStatsSection stats call duration t).1.pendingLogs ≤ t.pendingLogs ∧
      (waitStatsSection stats call duration t).1.metrics.lastLog = t.metrics.lastLog := by
  refine ⟨le_trans ?_ (countP_filter_key_add_le call t.shouldLog), rfl⟩
  rw [Nat.add_comm]
  refine Nat.add_le_add_left ?_ _
  simp only [waitStatsSection]
  split <;> split <;> simp_all [PoolLog.isAverage]

/-- The `last_log` section either leaves `last_log` and the pending decisions alone, or moves
`last_log` more than ten seconds on and adds one decision to log. -/
theorem lastLogSection_pending (call : Nat) {now now' : Nat} (hnow : now ≤ now')
    (t : PoolThreads σ) :
    ((lastLogSection call now now' t).pendingLogs = t.pendingLogs ∧
        (lastLogSection call now now' t).metrics.lastLog = t.metrics.lastLog) ∨
      ((lastLogSection call now now' t).pendingLogs = t.pendingLogs + 1 ∧
        (lastLogSection call now now' t).metrics.lastLog = now' ∧
        t.metrics.lastLog + logInterval < now') := by
  unfold lastLogSection PoolThreads.pendingLogs
  by_cases h : logInterval < now - t.metrics.lastLog
  · exact .inr ⟨by simp [h], by simp [h], by omega⟩
  · exact .inl ⟨by simp [h], by simp [h]⟩

/-- The arithmetic of the rate limit across interleavings: a step that logs no more averages
than the decisions it consumes, or that adds one decision while moving `last_log` more than ten
seconds on, keeps the bound. -/
theorem pending_rate_step {l p p' c last last' b : Nat}
    (h : (l + p' ≤ p ∧ last' = last) ∨ (l = 0 ∧ p' = p + 1 ∧ last + logInterval < last' ∧ last' ≤ b))
    (ih : c * logInterval ≤ p' * logInterval + (b - last')) :
    (l + c) * logInterval ≤ p * logInterval + (b - last) := by
  unfold logInterval at *
  omega

/-- One step of a clocked interleaving: the rest is clocked from some `c'` past the new
`last_log`, and the step either logs no more averages than the decisions it consumes, leaving
`last_log`, or logs none, adds one decision and moves `last_log` more than ten seconds on. -/
theorem poolStep_rate (p : PoolStep) {ps : List PoolStep} {t : PoolThreads σ} {c b : Nat}
    (hc : StepsClocked c b (p :: ps)) (hl : t.metrics.lastLog ≤ c) :
    ∃ c', StepsClocked c' b ps ∧ (poolStep stats p t).1.metrics.lastLog ≤ c' ∧
      (((poolStep stats p t).2.countP PoolLog.isAverage + (poolStep stats p t).1.pendingLogs ≤
            t.pendingLogs ∧ (poolStep stats p t).1.metrics.lastLog = t.metrics.lastLog) ∨
        ((poolStep stats p t).2.countP PoolLog.isAverage = 0 ∧
          (poolStep stats p t).1.pendingLogs = t.pendingLogs + 1 ∧
          t.metrics.lastLog + logInterval < (poolStep stats p t).1.metrics.lastLog ∧
          (poolStep stats p t).1.metrics.lastLog ≤ b)) := by
  cases p with
  | lastLog call now now' =>
    obtain ⟨hnow, hnow', hb, hc⟩ := hc
    simp only [poolStep]
    refine ⟨now', hc, ?_⟩
    rcases lastLogSection_pending call hnow' t with ⟨hp, hl'⟩ | ⟨hp, hl', hgt⟩
    · rw [hl', hp]
      exact ⟨by omega, .inl ⟨by simp, rfl⟩⟩
    · rw [hl', hp]
      exact ⟨le_rfl, .inr ⟨rfl, rfl, hgt, hb⟩⟩
  | waitStats call duration =>
    exact ⟨c, hc, hl, .inl (waitStatsSection_pending stats call duration t)⟩
  | acquire | release | checkin | error | gaugeInc | timedOut =>
    exact ⟨c, hc, hl, .inl ⟨by simp [poolStep, PoolThreads.handle, handlePoolEvent,
      PoolThreads.pendingLogs, PoolLog.isAverage], rfl⟩⟩

/-- Over a clocked interleaving, the averages logged and the decisions still pending are
bounded by the decisions pending at the start and one per ten seconds of the clock. -/
theorem runSteps_rate (ps : List PoolStep) {t : PoolThreads σ} {c b : Nat}
    (hc : StepsClocked c b ps) (hl : t.metrics.lastLog ≤ c) :
    ((runSteps stats ps t).2.countP PoolLog.isAverage + (runSteps stats ps t).1.pendingLogs) *
      logInterval ≤ t.pendingLogs * logInterval + (b - t.metrics.lastLog) := by
  induction ps generalizing t c with
  | nil => simp only [runSteps, List.countP_nil, Nat.zero_add]; omega
  | cons p ps ih =>
    obtain ⟨c', hc', hl', hstep⟩ := poolStep_rate stats p hc hl
    rw [runSteps_cons, List.countP_append, Nat.add_assoc]
    exact pending_rate_step hstep (ih hc' hl')

/-- Over every interleaving of the handlers' steps whose `last_log` sections read a clock that
never goes back, from any state with no call of `add_wait_time` between its two sections: the
error counter has counted every connection error, the checkout gauge is moved by the checkouts
less the checkins, every wait has been added to the window in the order of the `wait_stats`
sections, and the average wait is logged at most once in every ten seconds between `last_log`
and the run's last reading `b`. -/
theorem runSteps_metrics (ps : List PoolStep) (s : PoolMetrics σ) {b : Nat}
    (hc : StepsClocked s.lastLog b ps) :
    (runSteps stats ps ⟨s, []⟩).1.metrics.errorCount = s.errorCount + ps.countP PoolStep.isError ∧
    (runSteps stats ps ⟨s, []⟩).1.metrics.checkedOut =
      s.checkedOut + ps.countP PoolStep.isGaugeInc - ps.countP PoolStep.isCheckin ∧
    (runSteps stats ps ⟨s, []⟩).1.metrics.waitStats =
      (ps.filterMap PoolStep.wait?).foldl stats.add s.waitStats ∧
    (runSteps stats ps ⟨s, []⟩).2.countP PoolLog.isAverage * logInterval ≤ b - s.lastLog := by
  obtain ⟨he, hc', hw⟩ := runSteps_counts stats ps ⟨s, []⟩
  have hrate := runSteps_rate stats ps (t := ⟨s, []⟩) hc le_rfl
  have hzero : (⟨s, []⟩ : PoolThreads σ).pendingLogs = 0 := rfl
  rw [hzero, Nat.zero_mul, Nat.zero_add] at hrate
  exact ⟨he, hc', hw, le_trans (Nat.mul_le_mul_right _ (Nat.le_add_right _ _)) hrate⟩

/-- Two overlapping checkouts eleven seconds after `last_log`: both first sections run before
either second section, and only the first decides to log. -/
theorem runSteps_metrics_overlap :
    let stats : MovingStats Nat := ⟨fun w d => w + d, some⟩
    let ps := [.gaugeInc, .lastLog 1 11000000000 11000000000, .gaugeInc,
      .lastLog 2 11000000001 11000000001, .waitStats 2 3000000, .checkin,
      .waitStats 1 2000000]
    let s : PoolMetrics Nat := ⟨0, 0, 0, 0⟩
    StepsClocked s.lastLog 11000000001 ps ∧
      (runSteps stats ps ⟨s, []⟩).1.metrics.errorCount = s.errorCount + ps.countP PoolStep.isError ∧
      (runSteps stats ps ⟨s, []⟩).1.metrics.checkedOut =
        s.checkedOut + ps.countP PoolStep.isGaugeInc - ps.countP PoolStep.isCheckin ∧
      (runSteps stats ps ⟨s, []⟩).1.metrics.waitStats =
        (ps.filterMap PoolStep.wait?).foldl stats.add s.waitStats ∧
      (runSteps stats ps ⟨s, []⟩).2.countP PoolLog.isAverage * logInterval ≤
        11000000001 - s.lastLog :=
  have hc : StepsClocked 0 11000000001 [.gaugeInc, .lastLog 1 11000000000 11000000000, .gaugeInc,
      .lastLog 2 11000000001 11000000001, .waitStats 2 3000000, .checkin,
      .waitStats 1 2000000] := by
    simp [StepsClocked]
  ⟨hc, runSteps_metrics ⟨fun w d => w + d, some⟩ _ ⟨0, 0, 0, 0⟩ hc⟩

end Interleaved

end GraphNode.Store
