import ShmRings.Lib.System
import ShmRings.Model.Ring

/-!
# Wakeups through an eventfd

The producer publishes with `push_notified`, and any number of consumers, one for each reader, call
`pop_blocking` on the same `EventNotify`. A step is a call of `try_push` or `try_pop`, or one system
call; a write adds 1 to the counter, a read takes the whole counter or fails at 0, and `poll` returns
once the counter is positive or when it is interrupted.

* `ProducerPc`, `ConsumerPc`, `NotifyState`;
* `NotifyStep`, `NotifyState.next`, `notifying`: the steps and their runs.
-/

set_option autoImplicit false

namespace ShmRings

open Transition

variable {α : Type}

/-- Where the producer is in `push_notified`. -/
inductive ProducerPc
  | outside
  | signal
  deriving DecidableEq

/-- Where a consumer is in `pop_blocking`: before its `try_pop`, or in `wait`, before the read or in
`poll` after a read that failed. -/
inductive ConsumerPc
  | outside
  | tryPop
  | tryWait
  | poll
  deriving DecidableEq

/-- The file, the eventfd counter and the parties. -/
structure NotifyState (α : Type) where
  file : RingFile α
  counter : ℕ
  producer : ProducerPc
  consumer : ℕ → ConsumerPc

/-- The steps; consumer `r` is reader `r`. -/
inductive NotifyStep (α : Type)
  | tryPush (value : α)
  | signal
  | popBlocking (r : ℕ)
  | tryPop (r : ℕ)
  | tryWait (r : ℕ)
  | pollReady (r : ℕ)
  | pollInterrupted (r : ℕ)

namespace NotifyState

variable (s : NotifyState α)

/-- Consumer `r` moves to `pc`. -/
def goto (r : ℕ) (pc : ConsumerPc) : NotifyState α :=
  { s with consumer := Function.update s.consumer r pc }

/-- A step, with the producer on handle `h` and consumer `r` on handle `hs r`. -/
def next (p : Profile) (h : Handle) (hs : ℕ → Handle) : NotifyStep α → Option (NotifyState α)
  | .tryPush value =>
      if s.producer = .outside then
        match ShmRings.tryPush p h s.file value with
        | .ok (true, f) => some { s with file := f, producer := .signal }
        | .ok (false, f) => some { s with file := f }
        | .error _ => none
      else none
  | .signal =>
      if s.producer = .signal then
        some { s with counter := s.counter + 1, producer := .outside }
      else none
  | .popBlocking r => if s.consumer r = .outside then some (s.goto r .tryPop) else none
  | .tryPop r =>
      if s.consumer r = .tryPop then
        match ShmRings.tryPop p (hs r) s.file r with
        | .ok (some _, f) => some { s.goto r .outside with file := f }
        | .ok (none, f) => some { s.goto r .tryWait with file := f }
        | .error (.err _) => some (s.goto r .outside)
        | .error (.panic _) => none
      else none
  | .tryWait r =>
      if s.consumer r = .tryWait then
        if s.counter = 0 then some (s.goto r .poll)
        else some { s.goto r .tryPop with counter := 0 }
      else none
  | .pollReady r =>
      if s.consumer r = .poll ∧ s.counter ≠ 0 then some (s.goto r .tryWait) else none
  | .pollInterrupted r => if s.consumer r = .poll then some (s.goto r .tryWait) else none

end NotifyState

/-- The runs in which every party starts outside its call. -/
def notifying (p : Profile) (h : Handle) (hs : ℕ → Handle) : System (NotifyState α) (NotifyStep α) where
  init s := s.producer = .outside ∧ ∀ r, s.consumer r = .outside
  step s e t := s.next p h hs e = some t

end ShmRings
