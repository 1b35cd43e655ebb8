import ShmRings.Lib.Coherent
import ShmRings.Model.Header

/-!
# Push and pop, access by access

The code of `try_push` and `try_pop` as program points and the one shared access made at each of
them. A program point carries the local variables that are still needed.

* `Loc`: the shared words;
* `PushPc`, `pushCode`: the producer; `PushPc.scanFrom` is the loop of `slowest_read_idx` and the
  backpressure test after it;
* `PopPc`, `popCode`: a reader.
-/

set_option autoImplicit false

namespace ShmRings.Threads

open Coherent

variable {α : Type}

/-- The atomics of the header, and of a handle. -/
inductive Loc
  | writeIdx
  | readIdx (r : ℕ)
  | numReaders
  | totalWritten
  | claimBase (r : ℕ)
  | loanDepth (r : ℕ)
  deriving DecidableEq

/-- Where a call of `try_push` is. -/
inductive PushPc (α : Type)
  | idle
  | loadWriteIdx (value : α)
  | loadNumReaders (value : α) (w : ℕ)
  | scan (value : α) (w n i minRead : ℕ)
  | writeSlot (value : α) (w : ℕ)
  | publish (value : α) (w : ℕ)
  | bumpTotal
  | done (pushed : Bool)
  | panicked

/-- Cursor `i` comes next in the scan of the first `n` cursors; after the last one the push is
decided. -/
def PushPc.scanFrom (cfg : Config) (value : α) (w n i minRead : ℕ) : PushPc α :=
  if i < n then .scan value w n i minRead
  else if wrappingSub w minRead ≥ cfg.capacity then .done false
  else .writeSlot value w

/-- The access `try_push` makes at each program point. -/
def pushCode (cfg : Config) : PushPc α → Instr Loc α (PushPc α)
  | .loadWriteIdx value => .load .writeIdx fun w => .loadNumReaders value w
  | .loadNumReaders value w => .load .numReaders fun n =>
      if n ≤ maxReaders then .scanFrom cfg value w n 0 u64Max else .panicked
  | .scan value w n i minRead => .load (.readIdx i) fun c =>
      .scanFrom cfg value w n (i + 1) (min minRead c)
  | .writeSlot value w => .put (cfg.slot w) value (.publish value w)
  | .publish _ w => .store .writeIdx (wrappingAdd w 1) .bumpTotal
  | .bumpTotal => .modify .totalWritten (wrappingAdd · 1) (.done true)
  | .idle | .done _ | .panicked => .halt

/-- The message the access at this point publishes. -/
def PushPc.publishes : PushPc α → List α
  | .publish value _ => [value]
  | _ => []

/-- Where a call of `try_pop` is. -/
inductive PopPc (α : Type)
  | idle
  | checkReader
  | checkGate
  | loadWriteIdx
  | loadReadIdx (w : ℕ)
  | readSlot (r : ℕ)
  | advance (r : ℕ) (value : α)
  | done (res : Except ShmRingError (Option α))

/-- The access `try_pop` of reader `r` makes at each program point. -/
def popCode (cfg : Config) (r : ℕ) : PopPc α → Instr Loc α (PopPc α)
  | .checkReader => .load .numReaders fun n =>
      if r ≥ n then .done (.error (.invalidReaderId r (wrappingSub n 1))) else .checkGate
  | .checkGate => .load (.loanDepth r) fun depth =>
      if depth ≠ 0 then .done (.error (.loanOutstanding r)) else .loadWriteIdx
  | .loadWriteIdx => .load .writeIdx fun w => .loadReadIdx w
  | .loadReadIdx w => .load (.readIdx r) fun c => if c = w then .done (.ok none) else .readSlot c
  | .readSlot c => .get (cfg.slot c) fun value => .advance c value
  | .advance c value => .store (.readIdx r) (wrappingAdd c 1) (.done (.ok (some value)))
  | .idle | .done _ => .halt

end ShmRings.Threads
