import Mathlib.Data.List.Basic
import ShmRings.Lib.System
import ShmRings.Model.Loan

/-!
# Handles on one ring file, one call at a time

Any number of handles on one file, and their loans in the order in which they were claimed. A loan
that was resolved stays in the list and does nothing more.

* `World`, `Call`, `Reply`; `World.apply`, `World.call`: a call and its reply;
* `World.Open`: the loans that are not resolved; `world`: the runs of calls.
-/

set_option autoImplicit false

namespace ShmRings

open Transition

variable {α : Type}

/-- A file, its handles, the loans with the handles they were claimed through, and the messages
published so far. -/
structure World (α : Type) where
  file : RingFile α
  handle : ℕ → Handle
  loans : List (ℕ × Loan)
  stream : List α

/-- A call on handle `k` or on loan `i`. -/
inductive Call (α : Type)
  | openExisting (k : ℕ)
  | tryPush (k : ℕ) (value : α)
  | tryPop (k readerId : ℕ)
  | peek (k readerId : ℕ)
  | len (k readerId : ℕ)
  | isEmpty (k readerId : ℕ)
  | slowestLag (k : ℕ)
  | totalWritten (k : ℕ)
  | claim (k readerId : ℕ)
  | commit (i : ℕ)
  | abort (i : ℕ)
  | drop (i : ℕ)

/-- What a call returns; a loan is its index and the record it views. -/
inductive Reply (α : Type)
  | done
  | pushed (b : Bool)
  | popped (value : Option α)
  | peeked (value : Option α)
  | claimed (loan : Option (ℕ × α))
  | count (n : ℕ)
  | flag (b : Bool)

namespace World

variable (p : Profile) (w : World α)

def setHandle (k : ℕ) (h : Handle) : World α :=
  { w with handle := Function.update w.handle k h }

/-- A call, by the functions of the source. A handle opened on the file has its capacity and fresh
pipelines. -/
def apply : Call α → Except Fault (Reply α × World α)
  | .openExisting k => .ok (.done, w.setHandle k (.fresh (w.file.hdr.capacityMask + 1)))
  | .tryPush k value => do
      let (b, f) ← tryPush p (w.handle k) w.file value
      return (.pushed b, { w with file := f, stream := w.stream ++ if b then [value] else [] })
  | .tryPop k r => do
      let (value, f) ← tryPop p (w.handle k) w.file r
      return (.popped value, { w with file := f })
  | .peek k r => do
      let slot ← peek p (w.handle k) w.file r
      return (.peeked (slot.map w.file.slots), w)
  | .len _ r => do
      let n ← len p w.file r
      return (.count n, w)
  | .isEmpty _ r => do
      let b ← isEmpty p w.file r
      return (.flag b, w)
  | .slowestLag _ => do
      let n ← slowestLag w.file
      return (.count n, w)
  | .totalWritten _ => .ok (.count (totalWritten w.file), w)
  | .claim k r => do
      let (loan, h) ← claim p (w.handle k) w.file r
      match loan with
      | none => return (.claimed none, w.setHandle k h)
      | some l =>
          return (.claimed (some (l.index, l.deref h w.file)),
            { w.setHandle k h with loans := w.loans ++ [(k, l)] })
  | .commit i => match w.loans[i]? with
      | none => .ok (.done, w)
      | some (k, l) => do
          let (l, h, f) ← l.commit p (w.handle k) w.file
          return (.done, { w.setHandle k h with file := f, loans := w.loans.set i (k, l) })
  | .abort i => match w.loans[i]? with
      | none => .ok (.done, w)
      | some (k, l) => do
          let h ← l.abort (w.handle k)
          return (.done,
            { w.setHandle k h with loans := w.loans.set i (k, { l with resolved := true }) })
  | .drop i => match w.loans[i]? with
      | none => .ok (.done, w)
      | some (k, l) => do
          let (h, f) ← l.drop p (w.handle k) w.file
          return (.done, { w.setHandle k h with
            file := f, loans := w.loans.set i (k, { l with resolved := true }) })

/-- A call and its result. Every error of the source is returned before the first write, so the
state is the old one. -/
def call (c : Call α) : Except Panic (Except ShmRingError (Reply α) × World α) :=
  match w.apply p c with
  | .ok (reply, w') => .ok (.ok reply, w')
  | .error (.err e) => .ok (.error e, w)
  | .error (.panic e) => .error e

/-- Loan `i`, claimed through handle `k`, is not resolved. -/
def Open (i k : ℕ) (l : Loan) : Prop := w.loans[i]? = some (k, l) ∧ l.resolved = false

end World

/-- The runs of calls that meet `C`, from the states in `S`; a label is a call and its result. -/
def world (p : Profile) (S : World α → Prop) (C : World α → Call α → Prop) :
    System (World α) (Call α × Except ShmRingError (Reply α)) where
  init := S
  step w e w' := C w e.1 ∧ w.call p e.1 = .ok (e.2, w')

end ShmRings
