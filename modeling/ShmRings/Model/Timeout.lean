import ShmRings.Lib.Request
import ShmRings.Model.Word

/-!
# Timed waits, one system call at a time

The code of `wait_timeout` and of `pop_blocking_timeout` as program points and the request made at each
of them: a reading of the clock, a call of `try_pop`, a `read` of the eventfd or a `poll`. Instants and
durations are counted in nanoseconds.

* `ErrorKind`; `Syscall`, `Syscall.Answer`: the requests and their answers;
* `tryWait`, `pollTimeout`; `WaitPc`, `waitCode`: `EventNotify::wait_timeout`;
* `TimedPc`, `timedCode`: `pop_blocking_timeout`;
* `WaitTurn`, **`wait_turn`**; `TimedTurn`, **`timed_turn`**: what an exchange can be, in any environment.
-/

set_option autoImplicit false

namespace ShmRings.Timeout

open Request

variable {α : Type}

/-- The kinds of `io::Error` the code tells apart. -/
inductive ErrorKind
  | wouldBlock
  | interrupted
  | other
  deriving DecidableEq

/-- Nanoseconds of a millisecond. -/
abbrev nanosPerMilli : ℕ := 1000000

/-- The last instant there is: an `i64` of seconds and a fraction. -/
def instantMax : ℕ := (2 ^ 63 - 1) * 1000000000 + 999999999

/-- `i32::MAX`. -/
def i32Max : ℕ := 2 ^ 31 - 1

/-- What a thread asks the system for. -/
inductive Syscall
  | clock
  | tryPop
  | read
  /-- `poll` on the eventfd, for at most so many milliseconds; `none` is `-1`. -/
  | poll (timeoutMs : Option ℕ)

/-- The answers: a `poll` says whether the eventfd is readable, or failed. -/
def Syscall.Answer (α : Type) : Syscall → Type
  | .clock => ℕ
  | .tryPop => Except ShmRingError (Option α)
  | .read => Except ErrorKind ℕ
  | .poll _ => Except ErrorKind Bool

/-- `try_wait`, by the result of its `read`. -/
def tryWait : Except ErrorKind ℕ → Except ErrorKind (Option ℕ)
  | .ok count => .ok (some count)
  | .error .wouldBlock => .ok none
  | .error e => .error e

/-- The timeout that `wait_timeout` gives to `poll`: `d` in whole milliseconds, or `i32::MAX`. -/
def pollTimeout (d : ℕ) : ℕ :=
  let ms := d / nanosPerMilli
  if ms ≤ i32Max then ms else i32Max

/-- Where a call of `wait_timeout` is. -/
inductive WaitPc
  | tryWait
  | poll
  | done (res : Except ErrorKind (Option ℕ))

/-- The request of each program point of `wait_timeout`. -/
def waitCode (timeout : Option ℕ) : WaitPc → Act Syscall (Syscall.Answer α) WaitPc
  | .tryWait => .ask .read fun res => match Timeout.tryWait res with
      | .ok (some n) => .done (.ok (some n))
      | .ok none => .poll
      | .error e => .done (.error e)
  | .poll => .ask (.poll (timeout.map pollTimeout)) fun
      | .error .interrupted => .tryWait
      | .error e => .done (.error e)
      | .ok false => .done (.ok none)
      | .ok true => .tryWait
  | .done _ => .stop

/-- Where a call of `pop_blocking_timeout` is. -/
inductive TimedPc (α : Type)
  | start
  | check (deadline : ℕ)
  | clock (deadline : ℕ)
  | wait (deadline remaining : ℕ) (pc : WaitPc)
  | done (res : Except ShmRingError (Option α))
  | panicked

/-- While `wait_timeout` runs, and after it. -/
def TimedPc.waiting (deadline remaining : ℕ) : WaitPc → TimedPc α
  | .done (.ok (some _)) => .check deadline
  | .done (.ok none) => .done (.ok none)
  | .done (.error _) => .done (.error .io)
  | pc => .wait deadline remaining pc

/-- The request of each program point of `pop_blocking_timeout`. -/
def timedCode (timeout : ℕ) : TimedPc α → Act Syscall (Syscall.Answer α) (TimedPc α)
  | .start => .ask .clock fun (now : ℕ) =>
      if now + timeout ≤ instantMax then .check (now + timeout) else .panicked
  | .check deadline => .ask .tryPop fun
      | .ok (some v) => .done (.ok (some v))
      | .ok none => .clock deadline
      | .error e => .done (.error e)
  | .clock deadline => .ask .clock fun (now : ℕ) =>
      if now ≥ deadline then .done (.ok none) else .wait deadline (deadline - now) .tryWait
  | .wait deadline remaining pc =>
      (waitCode (some remaining) pc).map (TimedPc.waiting deadline remaining)
  | .done _ | .panicked => .stop

/-! ## The exchanges -/

/-- A request and its answer. -/
abbrev Exchange (α : Type) := Σ q : Syscall, q.Answer α

/-- The exchanges of `wait_timeout`. -/
inductive WaitTurn (timeout : Option ℕ) : WaitPc → Exchange α → WaitPc → Prop
  | drained (n : ℕ) : WaitTurn timeout .tryWait ⟨.read, .ok n⟩ (.done (.ok (some n)))
  | empty : WaitTurn timeout .tryWait ⟨.read, .error .wouldBlock⟩ .poll
  | readFailed {e : ErrorKind} : e ≠ .wouldBlock →
      WaitTurn timeout .tryWait ⟨.read, .error e⟩ (.done (.error e))
  | interrupted :
      WaitTurn timeout .poll ⟨.poll (timeout.map pollTimeout), .error .interrupted⟩ .tryWait
  | pollFailed {e : ErrorKind} : e ≠ .interrupted →
      WaitTurn timeout .poll ⟨.poll (timeout.map pollTimeout), .error e⟩ (.done (.error e))
  | timedOut :
      WaitTurn timeout .poll ⟨.poll (timeout.map pollTimeout), .ok false⟩ (.done (.ok none))
  | ready : WaitTurn timeout .poll ⟨.poll (timeout.map pollTimeout), .ok true⟩ .tryWait

/-- The exchanges of `pop_blocking_timeout`. -/
inductive TimedTurn (timeout : ℕ) : TimedPc α → Exchange α → TimedPc α → Prop
  | begins {now : ℕ} : now + timeout ≤ instantMax →
      TimedTurn timeout .start ⟨.clock, now⟩ (.check (now + timeout))
  | overflows {now : ℕ} : instantMax < now + timeout →
      TimedTurn timeout .start ⟨.clock, now⟩ .panicked
  | popped {deadline} (v : α) :
      TimedTurn timeout (.check deadline) ⟨.tryPop, .ok (some v)⟩ (.done (.ok (some v)))
  | empty {deadline} : TimedTurn timeout (.check deadline) ⟨.tryPop, .ok none⟩ (.clock deadline)
  | popFailed {deadline} (e : ShmRingError) :
      TimedTurn timeout (.check deadline) ⟨.tryPop, .error e⟩ (.done (.error e))
  | reached {deadline now : ℕ} : deadline ≤ now →
      TimedTurn timeout (.clock deadline) ⟨.clock, now⟩ (.done (.ok none))
  | parks {deadline now : ℕ} : now < deadline →
      TimedTurn timeout (.clock deadline) ⟨.clock, now⟩ (.wait deadline (deadline - now) .tryWait)
  | waits {deadline remaining pc e pc'} : WaitTurn (some remaining) pc e pc' →
      TimedTurn timeout (.wait deadline remaining pc) e (.waiting deadline remaining pc')

variable {σ : Type} {env : Env σ Syscall (Syscall.Answer α)}

/-- **The exchanges of a wait.** -/
theorem wait_turn {timeout : Option ℕ} {s : σ} {pc : WaitPc} {e : Exchange α} {y : σ × WaitPc}
    (h : Turn env (waitCode timeout) (s, pc) e y) :
    WaitTurn timeout pc e y.2 ∧ env s e.1 e.2 y.1 := by
  cases pc with
  | tryWait =>
      obtain ⟨a, rfl, hnext, henv⟩ := h.of_ask rfl
      refine ⟨?_, henv⟩
      rw [hnext]
      rcases a with (_ | _ | _) | n
      · exact .empty
      · exact .readFailed ErrorKind.noConfusion
      · exact .readFailed ErrorKind.noConfusion
      · exact .drained n
  | poll =>
      obtain ⟨a, rfl, hnext, henv⟩ := h.of_ask rfl
      refine ⟨?_, henv⟩
      rw [hnext]
      rcases a with (_ | _ | _) | (_ | _)
      · exact .pollFailed ErrorKind.noConfusion
      · exact .interrupted
      · exact .pollFailed ErrorKind.noConfusion
      · exact .timedOut
      · exact .ready
  | done res => exact absurd rfl h.not_stop

/-- **The exchanges of a timed pop.** -/
theorem timed_turn {timeout : ℕ} {s : σ} {pc : TimedPc α} {e : Exchange α} {y : σ × TimedPc α}
    (h : Turn env (timedCode timeout) (s, pc) e y) :
    TimedTurn timeout pc e y.2 ∧ env s e.1 e.2 y.1 := by
  cases pc with
  | wait deadline remaining pc =>
      obtain ⟨pc', hturn, hnext⟩ := h.of_map (l := pc) (g := TimedPc.waiting deadline remaining) rfl
      obtain ⟨hwait, henv⟩ := wait_turn hturn
      rw [hnext]
      exact ⟨.waits hwait, henv⟩
  | start =>
      obtain ⟨now, rfl, hnext, henv⟩ := h.of_ask rfl
      refine ⟨?_, henv⟩
      rw [hnext]
      split_ifs with hle
      · exact .begins hle
      · exact .overflows (Nat.not_le.mp hle)
  | check deadline =>
      obtain ⟨a, rfl, hnext, henv⟩ := h.of_ask rfl
      refine ⟨?_, henv⟩
      rw [hnext]
      rcases a with err | _ | v
      · exact .popFailed err
      · exact .empty
      · exact .popped v
  | clock deadline =>
      obtain ⟨now, rfl, hnext, henv⟩ := h.of_ask rfl
      refine ⟨?_, henv⟩
      rw [hnext]
      split_ifs with hge
      · exact .reached hge
      · exact .parks (Nat.not_le.mp hge)
  | done res | panicked => exact absurd rfl h.not_stop

end ShmRings.Timeout
