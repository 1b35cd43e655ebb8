import Mathlib.Data.List.Count
import ShmRings.Model.Timeout

/-!
# How long a timed wait takes

`wait_timeout` gives the duration to `poll` in whole milliseconds, at most `i32::MAX`, and gives it all of
it again after every retry. So it ends early unless the duration is such a number of milliseconds, and
with several polls it stays too long.

* `patient`: a clock that only goes forward, and a `poll` that waits for its timeout; `patientWait`,
  `patientPop`; `earliest`, **`run_earliest`**: the fastest run with the same answers;
* `Whole`; `wait_earliest`, `timed_earliest`; **`timed_wait_patient_iff`**, **`wait_early`**;
* `metered`, `meteredWait`: a clock that only moves in `poll`; `polls`, **`parked_most`**: the slowest
  run; **`parked_le_iff`**, **`parked_twice`**.
-/

set_option autoImplicit false

namespace ShmRings.Timeout

open Transition Request

variable {α : Type}

/-! ## Never early -/

/-- The clock only goes forward, a reading is taken while it is asked for, and a `poll` that times out
has waited for its timeout. -/
def patient : Env ℕ Syscall (Syscall.Answer α) := fun t q a t' => t ≤ t' ∧
  match q, a with
  | .clock, (now : ℕ) => t ≤ now ∧ now ≤ t'
  | .poll (some ms), .ok false => t + ms * nanosPerMilli ≤ t'
  | .poll none, .ok false => False
  | _, _ => True

/-- A call of `wait_timeout` with `d`, in any timing. -/
abbrev patientWait (α : Type) (d : ℕ) : System (ℕ × WaitPc) (Exchange α) :=
  dialogue patient (waitCode (some d))

/-- A call of `pop_blocking_timeout`, in any timing. -/
abbrev patientPop (α : Type) (timeout : ℕ) : System (ℕ × TimedPc α) (Exchange α) :=
  dialogue patient (timedCode timeout)

/-- The earliest end of an exchange that begins at `t`. -/
def soonest (t : ℕ) : Exchange α → ℕ
  | ⟨.clock, (now : ℕ)⟩ => now
  | ⟨.poll (some ms), .ok false⟩ => t + ms * nanosPerMilli
  | _ => t

/-- The earliest end of exchanges that begin at `t`. -/
def earliest (t : ℕ) (es : List (Exchange α)) : ℕ := es.foldl soonest t

/-- The last reading of the clock, after an exchange. -/
def reading (last : ℕ) : Exchange α → ℕ
  | ⟨.clock, (now : ℕ)⟩ => now
  | _ => last

/-- The last reading of the clock, when `start` was the one before. -/
def lastReading (start : ℕ) (es : List (Exchange α)) : ℕ := es.foldl reading start

variable {t t₀ t₁ t' : ℕ} {e : Exchange α} {es : List (Exchange α)}

theorem earliest_concat : earliest t (es ++ [e]) = soonest (earliest t es) e := by
  simp [earliest]

/-- **An exchange that begins earlier can end earlier.** -/
theorem soonest_le (h : patient t e.1 e.2 t') (ht : t₁ ≤ t) :
    soonest t₁ e ≤ t' ∧ patient t₁ e.1 e.2 (soonest t₁ e) := by
  obtain ⟨q, a⟩ := e
  obtain ⟨hle, hq⟩ := h
  cases q with
  | clock => exact ⟨hq.2, ht.trans hq.1, ht.trans hq.1, le_rfl⟩
  | tryPop | read => exact ⟨ht.trans hle, le_rfl, trivial⟩
  | poll ms =>
      rcases a with err | (_ | _)
      · cases ms <;> exact ⟨ht.trans hle, le_rfl, trivial⟩
      · cases ms with
        | none => exact hq.elim
        | some ms =>
            exact ⟨(Nat.add_le_add_right ht _).trans hq, Nat.le_add_right _ _, le_rfl⟩
      · cases ms <;> exact ⟨ht.trans hle, le_rfl, trivial⟩

/-- **The fastest run**: a run can be repeated, with the same answers, in the least time. -/
theorem run_earliest {L : Type} {code : L → Act Syscall (Syscall.Answer α) L} {l₀ l : L}
    (h : Run (dialogue patient code) (t₀, l₀) es (t, l)) :
    earliest t₀ es ≤ t ∧ Run (dialogue patient code) (t₀, l₀) es (earliest t₀ es, l) := by
  refine Run.extremal (R := (· ≤ ·)) (fun t₁ x e y ht hturn => ?_) le_rfl h
  obtain ⟨k, -, -, henv⟩ := hturn
  exact soonest_le henv ht

/-- A whole number of milliseconds, at most `i32::MAX`. -/
def Whole (d : ℕ) : Prop := d % nanosPerMilli = 0 ∧ d / nanosPerMilli ≤ i32Max

/-- The timeout of the `poll` covers `d` only when `d` is whole. -/
theorem le_pollTimeout_iff {d : ℕ} : d ≤ pollTimeout d * nanosPerMilli ↔ Whole d := by
  unfold pollTimeout Whole nanosPerMilli
  dsimp only
  split_ifs with h <;> omega

/-- How long a call of `wait_timeout` must have taken. -/
def waited (d : ℕ) : WaitPc → ℕ
  | .done (.ok none) => pollTimeout d * nanosPerMilli
  | _ => 0

/-- **A wait can end as soon as the timeout of its last `poll` is over.** -/
theorem wait_earliest {d : ℕ} {pc : WaitPc}
    (h : Run (patientWait α d) (t₀, .tryWait) es (t, pc)) :
    earliest t₀ es = t₀ + waited d pc := by
  generalize hx : (t, pc) = x at h
  induction h generalizing t pc with
  | nil =>
      cases hx
      rfl
  | @snoc es y e z _ hst ih =>
      obtain ⟨s, pc'⟩ := y
      subst hx
      have hearly := ih rfl
      rw [earliest_concat, hearly]
      obtain ⟨hturn, -⟩ := wait_turn hst
      cases hturn <;> rfl

/-- What the trace of a timed pop with the deadline `deadline` says at each program point: the last
reading, and the earliest time. -/
def TimedTimes (deadline last early : ℕ) : TimedPc α → Prop
  | .start => False
  | .check dl | .clock dl => dl = deadline ∧ early = last
  | .wait dl remaining _ =>
      dl = deadline ∧ early = last ∧ last < deadline ∧ remaining = deadline - last
  | .done (.ok none) => (deadline ≤ last ∧ early = last) ∨
      (last < deadline ∧ early = last + pollTimeout (deadline - last) * nanosPerMilli)
  | .done _ | .panicked => True

theorem TimedTimes.step {timeout deadline last early : ℕ} {pc pc' : TimedPc α}
    (h : TimedTimes deadline last early pc) (hturn : TimedTurn timeout pc e pc') :
    TimedTimes deadline (reading last e) (soonest early e) pc' := by
  cases hturn with
  | begins | overflows => exact h.elim
  | popped | popFailed => trivial
  | empty => exact h
  | reached hle => exact .inl ⟨h.1 ▸ hle, rfl⟩
  | parks hlt =>
      obtain ⟨rfl, -⟩ := h
      exact ⟨rfl, rfl, hlt, rfl⟩
  | waits hwait =>
      obtain ⟨rfl, rfl, hlt, rfl⟩ := h
      cases hwait with
      | drained => exact ⟨rfl, rfl⟩
      | empty | interrupted | ready => exact ⟨rfl, rfl, hlt, rfl⟩
      | readFailed | pollFailed => trivial
      | timedOut => exact .inr ⟨hlt, rfl⟩

theorem timed_times {σ : Type} {env : Env σ Syscall (Syscall.Answer α)} {s s' : σ}
    {timeout deadline : ℕ} {pc : TimedPc α} (last : ℕ)
    (h : Run (dialogue env (timedCode timeout)) (s, .check deadline) es (s', pc)) :
    TimedTimes deadline (lastReading last es) (earliest last es) pc := by
  generalize hx : (s', pc) = x at h
  induction h generalizing s' pc with
  | nil =>
      cases hx
      exact ⟨rfl, rfl⟩
  | @snoc es y e z _ hst ih =>
      obtain ⟨s, pc'⟩ := y
      subst hx
      have hstep := (ih rfl).step (timed_turn hst).1
      simpa only [lastReading, earliest, List.foldl_append, List.foldl_cons, List.foldl_nil] using hstep

/-- **The earliest end of a timed pop that finds nothing**: the reading that reached the deadline, or the
end of the `poll` after the last reading. -/
theorem timed_earliest {timeout start : ℕ}
    (h : Run (patientPop α timeout) (t₀, .start) (⟨.clock, start⟩ :: es)
      (t, .done (.ok none))) :
    (start + timeout ≤ lastReading start es ∧ earliest start es = lastReading start es) ∨
    (lastReading start es < start + timeout ∧ earliest start es = lastReading start es +
      pollTimeout (start + timeout - lastReading start es) * nanosPerMilli) := by
  have hsplit : Run (patientPop α timeout) (t₀, .start)
      ([(⟨.clock, start⟩ : Exchange α)] ++ es) (t, .done (.ok none)) := h
  obtain ⟨⟨s, pc⟩, hfirst, hrest⟩ := hsplit.split
  obtain ⟨hturn, -⟩ := timed_turn hfirst.of_singleton
  cases hturn with
  | begins hle => exact timed_times start hrest
  | overflows hlt => cases Run.stopped rfl hrest

/-- A wait whose `poll` times out on the dot. -/
theorem wait_times_out (d t₀ : ℕ) : Run (patientWait α d) (t₀, .tryWait)
    [⟨.read, .error .wouldBlock⟩, ⟨.poll (some (pollTimeout d)), .ok false⟩]
    (t₀ + pollTimeout d * nanosPerMilli, .done (.ok none)) := by
  have hread : (patientWait α d).step (t₀, .tryWait)
      ⟨.read, .error .wouldBlock⟩ (t₀, .poll) := ⟨_, rfl, rfl, le_rfl, trivial⟩
  have hpoll : (patientWait α d).step (t₀, .poll)
      ⟨.poll (some (pollTimeout d)), .ok false⟩
      (t₀ + pollTimeout d * nanosPerMilli, .done (.ok none)) :=
    ⟨_, rfl, rfl, Nat.le_add_right _ _, le_rfl⟩
  exact (Run.single hread).snoc hpoll

/-- **A timed wait is never early exactly when its duration is whole**, that is a whole number of
milliseconds and at most `i32::MAX` of them. A timed pop that finds nothing is never early, whatever time
its calls take, exactly when its last reading of the clock reached the deadline or left a whole
duration. -/
theorem timed_wait_patient_iff (d : ℕ) :
    ((∀ (t₀ t : ℕ) (es : List (Exchange α)), Run (patientWait α d) (t₀, .tryWait) es
      (t, .done (.ok none)) → t₀ + d ≤ t) ↔ Whole d) ∧
    ∀ (start : ℕ) (es : List (Exchange α)),
      (∃ t₀ t, Run (patientPop α d) (t₀, .start) (⟨.clock, start⟩ :: es)
        (t, .done (.ok none))) →
      ((∀ t₀ t, Run (patientPop α d) (t₀, .start) (⟨.clock, start⟩ :: es)
        (t, .done (.ok none)) → start + d ≤ t) ↔
        start + d ≤ lastReading start es ∨ Whole (start + d - lastReading start es)) := by
  refine ⟨⟨fun hnever => ?_, fun hwhole t₀ t es hrun => ?_⟩, fun start es hsome => ?_⟩
  · have h := hnever 0 _ _ (wait_times_out d 0)
    rw [Nat.zero_add, Nat.zero_add] at h
    exact le_pollTimeout_iff.mp h
  · have hle := (run_earliest hrun).1
    rw [wait_earliest hrun] at hle
    exact (Nat.add_le_add_left (le_pollTimeout_iff.mpr hwhole) t₀).trans hle
  · -- the fastest run with these answers decides
    have hfast : (∀ t₀ t, Run (patientPop α d) (t₀, .start) (⟨.clock, start⟩ :: es)
        (t, .done (.ok none)) → start + d ≤ t) ↔ start + d ≤ earliest start es := by
      constructor
      · intro hnever
        obtain ⟨t₀, t, hrun⟩ := hsome
        exact hnever t₀ _ (run_earliest hrun).2
      · intro hle t₀ t hrun
        exact hle.trans (run_earliest hrun).1
    rw [hfast]
    obtain ⟨t₀, t, hrun⟩ := hsome
    have hwhole := @le_pollTimeout_iff (start + d - lastReading start es)
    rcases timed_earliest hrun with ⟨hreached, heq⟩ | ⟨hlt, heq⟩
    · rw [heq]
      exact ⟨.inl, fun _ => hreached⟩
    · rw [heq, ← hwhole]
      constructor
      · intro hle
        exact .inr (Nat.sub_le_iff_le_add'.mpr hle)
      · rintro (hle | hle)
        · exact absurd hle (Nat.not_le.mpr hlt)
        · exact Nat.sub_le_iff_le_add'.mp hle

/-- The exchanges, after its start at 0, of a pop with 50 ms that looks at the clock again 1 ns later. -/
def hastyPop : List (Exchange ℕ) :=
  [⟨.tryPop, .ok none⟩, ⟨.clock, (1 : ℕ)⟩, ⟨.read, .error .wouldBlock⟩, ⟨.poll (some 49), .ok false⟩]

theorem hasty_run : Run (patientPop ℕ 50000000) (0, .start)
    (⟨.clock, (0 : ℕ)⟩ :: hastyPop) (49000001, .done (.ok none)) := by
  have hstart : Run (patientPop ℕ 50000000) (0, .start)
      [⟨.clock, (0 : ℕ)⟩] (0, .check 50000000) :=
    Run.single ⟨_, rfl, (if_pos (by decide)).symm, le_rfl, le_rfl, le_rfl⟩
  have hempty := hstart.snoc (e := ⟨.tryPop, .ok none⟩) (u := (0, .clock 50000000))
    ⟨_, rfl, rfl, le_rfl, trivial⟩
  have hlater : (patientPop ℕ 50000000).step (0, .clock 50000000)
      ⟨.clock, (1 : ℕ)⟩ (1, .wait 50000000 49999999 .tryWait) :=
    ⟨_, rfl, (if_neg (by decide)).symm, Nat.zero_le 1, Nat.zero_le 1, le_rfl⟩
  have hread := (hempty.snoc hlater).snoc (e := ⟨.read, .error .wouldBlock⟩)
    (u := (1, .wait 50000000 49999999 .poll)) ⟨_, rfl, rfl, le_rfl, trivial⟩
  exact hread.snoc ⟨_, rfl, rfl, by decide, by decide⟩

/-- The last reading left 49999999 ns, which is not whole. -/
theorem hasty_pop_early : ¬ ∀ t₀ t, Run (patientPop ℕ 50000000) (t₀, .start)
    (⟨.clock, (0 : ℕ)⟩ :: hastyPop) (t, .done (.ok none)) → 0 + 50000000 ≤ t := by
  rw [(timed_wait_patient_iff 50000000).2 0 hastyPop ⟨0, 49000001, hasty_run⟩]
  rintro (hreached | ⟨hwhole, -⟩)
  · exact absurd hreached (by decide)
  · exact absurd hwhole (by decide)

/-- A wait with half a millisecond that ends at once, and the pop that ends 1 ms early. -/
theorem wait_early :
    (∃ es, Run (patientWait ℕ 500000) (0, .tryWait) es
      (0, .done (.ok none)) ∧ ¬ 0 + 500000 ≤ 0) ∧
    ∃ es, Run (patientPop ℕ 50000000) (0, .start) (⟨.clock, (0 : ℕ)⟩ :: es)
      (49000001, .done (.ok none)) ∧ ¬ 0 + 50000000 ≤ 49000001 :=
  ⟨⟨_, wait_times_out 500000 0, by decide⟩, hastyPop, hasty_run, by decide⟩

/-! ## Never late -/

/-- The clock moves only in `poll`, and there at most by the timeout. -/
def metered : Env ℕ Syscall (Syscall.Answer α) := fun t q a t' =>
  match q, a with
  | .clock, (now : ℕ) => now = t ∧ t' = t
  | .poll (some ms), _ => t ≤ t' ∧ t' ≤ t + ms * nanosPerMilli
  | .poll none, _ => t ≤ t'
  | _, _ => t' = t

/-- A call of `wait_timeout` with `d`, in any such timing. -/
abbrev meteredWait (α : Type) (d : ℕ) : System (ℕ × WaitPc) (Exchange α) :=
  dialogue metered (waitCode (some d))

def isPoll : Exchange α → Bool
  | ⟨.poll _, _⟩ => true
  | _ => false

/-- How many times a trace polls. -/
def polls (es : List (Exchange α)) : ℕ := es.countP isPoll

/-- `d` in milliseconds, rounded up. -/
def ceilMillis (d : ℕ) : ℕ := (d + (nanosPerMilli - 1)) / nanosPerMilli

/-- An exchange of a wait takes at most the timeout of a poll, if it is one, and can take all of it. -/
theorem metered_turn {d : ℕ} {pc pc' : WaitPc} (hturn : WaitTurn (some d) pc e pc')
    (henv : metered t e.1 e.2 t') :
    t' ≤ t + polls [e] * (pollTimeout d * nanosPerMilli) ∧
      metered t₁ e.1 e.2 (t₁ + polls [e] * (pollTimeout d * nanosPerMilli)) := by
  cases hturn with
  | drained | empty | readFailed =>
      change t' ≤ t + 0 * _ ∧ t₁ + 0 * _ = t₁
      rw [Nat.zero_mul]
      exact ⟨le_of_eq henv, rfl⟩
  | interrupted | pollFailed | timedOut | ready =>
      change t' ≤ t + 1 * _ ∧ t₁ ≤ t₁ + 1 * _ ∧ t₁ + 1 * _ ≤ t₁ + _
      rw [Nat.one_mul]
      exact ⟨henv.2, Nat.le_add_right _ _, le_rfl⟩

theorem foldl_polls (c : ℕ) :
    es.foldl (fun t e => t + polls [e] * c) t₀ = t₀ + polls es * c := by
  induction es generalizing t₀ with
  | nil => simp [polls]
  | cons e es ih =>
      have hpolls : polls ([e] ++ es) = polls [e] + polls es := List.countP_append
      rw [List.singleton_append] at hpolls
      rw [List.foldl_cons, ih, hpolls, Nat.add_mul, Nat.add_assoc]

/-- **A wait is parked for at most all of its timeout in each poll**, and can be parked for so long with
the same answers. -/
theorem parked_most {d : ℕ} {pc : WaitPc} (h : Run (meteredWait α d) (t₀, .tryWait) es (t, pc)) :
    t ≤ t₀ + polls es * (pollTimeout d * nanosPerMilli) ∧
      Run (meteredWait α d) (t₀, .tryWait) es
        (t₀ + polls es * (pollTimeout d * nanosPerMilli), pc) := by
  rw [← foldl_polls]
  refine Run.extremal (R := (· ≥ ·)) (fun t₁ x e y ht hst => ?_) le_rfl h
  obtain ⟨hturn, henv⟩ := wait_turn hst
  obtain ⟨hle, henv'⟩ := metered_turn hturn henv
  exact ⟨hle.trans (Nat.add_le_add_right ht _), henv'⟩

theorem pollTimeout_eq_min (d : ℕ) : pollTimeout d = min (d / nanosPerMilli) i32Max := by
  unfold pollTimeout
  rw [Nat.min_def]

/-- **The time a wait is parked for keeps to its duration, rounded up to milliseconds, exactly when its
polls with all of the duration fit in it.** -/
theorem parked_le_iff (d : ℕ) (es : List (Exchange α))
    (hsome : ∃ t₀ t pc, Run (meteredWait α d) (t₀, .tryWait) es (t, pc)) :
    (∀ t₀ t pc, Run (meteredWait α d) (t₀, .tryWait) es (t, pc) →
      t ≤ t₀ + ceilMillis d * nanosPerMilli) ↔
    polls es * min (d / nanosPerMilli) i32Max ≤ ceilMillis d := by
  rw [← pollTimeout_eq_min]
  have hscale : polls es * pollTimeout d ≤ ceilMillis d ↔
      polls es * (pollTimeout d * nanosPerMilli) ≤ ceilMillis d * nanosPerMilli := by
    rw [← Nat.mul_assoc]
    exact (Nat.mul_le_mul_right_iff (by decide)).symm
  rw [hscale]
  constructor
  · intro hkeeps
    obtain ⟨t₀, t, pc, hrun⟩ := hsome
    exact Nat.add_le_add_iff_left.mp (hkeeps t₀ _ pc (parked_most hrun).2)
  · intro hfits t₀ t pc hrun
    exact (parked_most hrun).1.trans (Nat.add_le_add_left hfits t₀)

/-- A wait with 10 ms that is interrupted as it times out, and polls again. -/
def interruptedWait : List (Exchange ℕ) :=
  [⟨.read, .error .wouldBlock⟩, ⟨.poll (some 10), .error .interrupted⟩,
    ⟨.read, .error .wouldBlock⟩, ⟨.poll (some 10), .ok false⟩]

theorem interrupted_run : Run (meteredWait ℕ 10000000) (0, .tryWait)
    interruptedWait (20000000, .done (.ok none)) := by
  have hread (t : ℕ) : (meteredWait ℕ 10000000).step (t, .tryWait)
      ⟨.read, .error .wouldBlock⟩ (t, .poll) := ⟨_, rfl, rfl, rfl⟩
  have hintr : (meteredWait ℕ 10000000).step (0, .poll)
      ⟨.poll (some 10), .error .interrupted⟩ (10000000, .tryWait) :=
    ⟨_, rfl, rfl, by decide, by decide⟩
  have hpoll : (meteredWait ℕ 10000000).step (10000000, .poll)
      ⟨.poll (some 10), .ok false⟩ (20000000, .done (.ok none)) :=
    ⟨_, rfl, rfl, by decide, by decide⟩
  exact (((Run.single (hread 0)).snoc hintr).snoc (hread 10000000)).snoc hpoll

/-- Two polls of 10 ms do not fit in 10 ms. -/
theorem interrupted_wait_late :
    ¬ ∀ t₀ t pc, Run (meteredWait ℕ 10000000) (t₀, .tryWait)
      interruptedWait (t, pc) → t ≤ t₀ + ceilMillis 10000000 * nanosPerMilli := by
  rw [parked_le_iff 10000000 interruptedWait ⟨0, _, _, interrupted_run⟩]
  decide

/-- The wait with 10 ms that is parked for 20 ms. -/
theorem parked_twice : ∃ es, Run (meteredWait ℕ 10000000) (0, .tryWait)
    es (20000000, .done (.ok none)) ∧ ¬ 20000000 ≤ 0 + ceilMillis 10000000 * nanosPerMilli :=
  ⟨interruptedWait, interrupted_run, by decide⟩

end ShmRings.Timeout
