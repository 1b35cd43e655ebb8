import ShmRings.Lib.System
import ShmRings.Model.Ring
import ShmRings.Model.Timeout

/-!
# `push_notified`, with a write that can fail

`push_notified` publishes first and writes to the eventfd then, so a call can publish and still return an
error. Whether the write fails is an input; a full counter makes it fail with `EAGAIN`.

* `Eventfd.write`, `Eventfd.signal`: the eventfd;
* `pushNotified`: one call, with what it leaves behind;
* `Outbox`, `OutboxStep`, `sending`: a producer that sends a list of values and repeats a call by its
  answer, beside parties that move cursors and take units.
-/

set_option autoImplicit false

namespace ShmRings

open Transition Timeout

variable {α : Type}

namespace Eventfd

/-- The greatest value of the counter. -/
abbrev counterMax : ℕ := u64Max - 1

/-- A write of 1. Of the errors other than `EAGAIN`, `signal` tells none apart. -/
def write (fails : Bool) (counter : ℕ) : Except ErrorKind ℕ :=
  if fails then .error .other
  else if counter < counterMax then .ok (counter + 1)
  else .error .wouldBlock

/-- `signal`, and the counter it leaves. -/
def signal (fails : Bool) (counter : ℕ) : Except ErrorKind Unit × ℕ :=
  match write fails counter with
  | .ok counter => (.ok (), counter)
  | .error .wouldBlock => (.ok (), counter)
  | .error e => (.error e, counter)

end Eventfd

/-- Publishes a message, and signals it. An `Err` leaves a file behind, so it is an answer here. -/
def pushNotified (p : Profile) (h : Handle) (f : RingFile α) (value : α) (fails : Bool)
    (counter : ℕ) : Except Fault (Except ShmRingError Bool × RingFile α × ℕ) := do
  let (pushed, f) ← tryPush p h f value
  if pushed then
    match Eventfd.signal fails counter with
    | (.ok (), counter) => return (.ok true, f, counter)
    | (.error _, counter) => return (.error .io, f, counter)
  else
    return (.ok false, f, counter)

/-! ## A producer that repeats calls -/

/-- The file, the counter, the values still to send, and the messages that have appeared in the ring. -/
structure Outbox (α : Type) where
  file : RingFile α
  counter : ℕ
  todo : List α
  appeared : List α

/-- A call of the producer, whose write fails or not; and what other parties do: they move cursors, take
units and signal. -/
inductive OutboxStep
  | push (fails : Bool)
  | others (cursors : ℕ → ℕ) (counter : ℕ)

/-- What a reader finds in the ring that it did not find before: nothing while `write_idx` stands still,
and the slot behind it once it has moved. -/
def appears (h : Handle) (f f' : RingFile α) : List α :=
  if f'.hdr.writeIdx = f.hdr.writeIdx then [] else [f'.slots (h.slot f.hdr.writeIdx)]

/-- A step of a producer that repeats a call while `again` says so of its answer. -/
def Outbox.next (p : Profile) (h : Handle) (again : Except ShmRingError Bool → Bool) (s : Outbox α) :
    OutboxStep → Option (Outbox α)
  | .push fails => match s.todo with
      | [] => none
      | value :: rest => match pushNotified p h s.file value fails s.counter with
          | .ok (res, f, counter) => some {
              file := f
              counter := counter
              todo := if again res then value :: rest else rest
              appeared := s.appeared ++ appears h s.file f }
          | .error _ => none
  | .others cursors counter => some { s with
      file := { s.file with hdr := { s.file.hdr with readIndices := cursors } }
      counter := counter }

/-- The runs that send `values` into any ring. -/
def sending (p : Profile) (h : Handle) (again : Except ShmRingError Bool → Bool) (values : List α) :
    System (Outbox α) OutboxStep where
  init s := s.todo = values ∧ s.appeared = []
  step s e t := s.next p h again e = some t

/-- Only backpressure is a reason to repeat. -/
def onFull : Except ShmRingError Bool → Bool
  | .ok false => true
  | _ => false

/-- Anything but `Ok(true)` is a reason to repeat. -/
def untilTrue : Except ShmRingError Bool → Bool
  | .ok true => false
  | _ => true

end ShmRings
