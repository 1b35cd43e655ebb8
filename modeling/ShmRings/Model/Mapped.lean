import ShmRings.Lib.Segment
import ShmRings.Model.Disk
import ShmRings.Model.World

/-!
# The ring on mapped bytes

The operations as they run on the bytes of a mapping: each word of the header is loaded and stored at its offset,
little-endian, and each record at the address `slot_ptr` computes. An access that is not inside the mapping, or
not aligned, stops the call for good.

* `loadWord`, `storeWord`, `readVolatile`, `writeVolatile`; the accessors of `RingHeader`;
* `slotPtr`, `checkReader`, `tryPush`, `tryPop`, `peek`, `len`, `isEmpty`, `slowestLag`;
* `Borrow`, `claim`, `deref`, `Borrow.commit`, `Borrow.abort`, `Borrow.drop`;
* `Locals`, `Locals.apply`, `call`, `mapped`: the runs of calls.
-/

set_option autoImplicit false

namespace ShmRings.Mapped

open Segment Segment.Prog Transition

/-- A call on mapped bytes. -/
abbrev OnBytes (β : Type) := Prog UInt8 Fault β

section Accesses

variable (length : ℕ)

/-- The little-endian word with these bytes. -/
def wordOf {n : ℕ} (bytes : Fin n → UInt8) : ℕ :=
  leWord (fun i => if h : i < n then bytes ⟨i, h⟩ else 0) 0 n

def loadWord (off n : ℕ) : OnBytes ℕ := do
  let bytes ← load length off n n
  return wordOf bytes

def storeWord (off n v : ℕ) : OnBytes Unit := store length off n fun i : Fin n => byteOf v i

/-! The header: `offset_of!` of each field. -/

def numReaders : OnBytes ℕ := loadWord length 12 4

def writeIdx : OnBytes ℕ := loadWord length 24 8

def setWriteIdx (v : ℕ) : OnBytes Unit := storeWord length 24 8 v

def readIdx (i : ℕ) : OnBytes ℕ := do
  lift (ensure (i < maxReaders) (.panic .outOfRange))
  loadWord length (32 + 8 * i) 8

def setReadIdx (i v : ℕ) : OnBytes Unit := do
  lift (ensure (i < maxReaders) (.panic .outOfRange))
  storeWord length (32 + 8 * i) 8 v

/-- The cursors are loaded one by one. -/
def slowestReadIdx (numReaders : ℕ) : OnBytes ℕ := do
  lift (ensure (numReaders ≤ maxReaders) (.panic .outOfRange))
  (List.range numReaders).foldlM (fun least i => do
    let r ← loadWord length (32 + 8 * i) 8
    return min least r) u64Max

def totalWritten : OnBytes ℕ := loadWord length 104 8

/-- `total_written.fetch_add(1)`. -/
def bumpTotalWritten : OnBytes Unit := do
  let t ← totalWritten length
  storeWord length 104 8 (wrappingAdd t 1)

end Accesses

variable (p : Profile) (T : RecordType) (length : ℕ)

/-- `read_volatile` of a record. -/
def readVolatile (ptr : ℕ) : OnBytes (Record T) := load length ptr T.size T.align

/-- `write_volatile` of a record. -/
def writeVolatile (ptr : ℕ) (value : Record T) : OnBytes Unit := store length ptr T.align value

/-- The offset of slot `idx`. -/
def slotPtr (h : Handle) (idx : ℕ) : Except Fault ℕ := do
  let mask ← p.sub h.capacity 1
  let bytes ← p.mul (idx &&& mask) T.size
  p.add headerSize bytes

def checkReader (readerId : ℕ) : OnBytes Unit := do
  let n ← numReaders length
  if readerId ≥ n then
    let max ← lift (p.sub n 1)
    lift (.error (.err (.invalidReaderId readerId max)))
  else return ()

def tryPush (h : Handle) (value : Record T) : OnBytes Bool := do
  let w ← writeIdx length
  let n ← numReaders length
  let minRead ← slowestReadIdx length n
  let lag ← lift (p.sub w minRead)
  if lag ≥ h.capacity then return false
  else
    let slot ← lift (slotPtr p T h w)
    writeVolatile T length slot value
    let next ← lift (p.add w 1)
    setWriteIdx length next
    bumpTotalWritten length
    return true

def tryPop (h : Handle) (readerId : ℕ) : OnBytes (Option (Record T)) := do
  checkReader p length readerId
  let depth ← lift (h.loadDepth readerId)
  if depth ≠ 0 then lift (.error (.err (.loanOutstanding readerId)))
  else
    let w ← writeIdx length
    let r ← readIdx length readerId
    if r = w then return none
    else
      let slot ← lift (slotPtr p T h r)
      let value ← readVolatile T length slot
      let next ← lift (p.add r 1)
      setReadIdx length readerId next
      return some value

/-- The pointer to the reader's next message, if any. -/
def peek (h : Handle) (readerId : ℕ) : OnBytes (Option ℕ) := do
  checkReader p length readerId
  let w ← writeIdx length
  let r ← readIdx length readerId
  if r = w then return none
  else
    let slot ← lift (slotPtr p T h r)
    return some slot

def len (readerId : ℕ) : OnBytes ℕ := do
  checkReader p length readerId
  let w ← writeIdx length
  let r ← readIdx length readerId
  return wrappingSub w r

def isEmpty (readerId : ℕ) : OnBytes Bool := do
  let n ← len p length readerId
  return n == 0

def slowestLag : OnBytes ℕ := do
  let n ← numReaders length
  let w ← writeIdx length
  let minRead ← slowestReadIdx length n
  return wrappingSub w minRead

/-! ## Loans -/

/-- A loan with its pointer. -/
structure Borrow where
  loan : Loan
  ptr : ℕ

def claim (h : Handle) (readerId : ℕ) : OnBytes (Option Borrow × Handle) := do
  checkReader p length readerId
  let h ← lift (h.raiseGate readerId)
  let w ← writeIdx length
  let cursor ← readIdx length readerId
  let base ← lift (h.loadBase readerId)
  let idx := max base cursor
  if idx ≥ w then
    let h ← lift (h.lowerGate readerId)
    return (none, h)
  else
    let next ← lift (p.add idx 1)
    let h ← lift (h.setBase readerId next)
    let ptr ← lift (slotPtr p T h idx)
    return (some ⟨⟨readerId, idx, false⟩, ptr⟩, h)

namespace Borrow

/-- The record behind the pointer. -/
def deref (b : Borrow) : OnBytes (Record T) := readVolatile T length b.ptr

def commit (b : Borrow) (h : Handle) : OnBytes (Borrow × Handle) := do
  if b.loan.resolved then return (b, h)
  else
    let cursor ← readIdx length b.loan.readerId
    if cursor ≠ b.loan.index then lift (.error (.err (.loanNotAtCursor b.loan.index cursor)))
    else
      let next ← lift (p.add b.loan.index 1)
      setReadIdx length b.loan.readerId next
      let (l, h) ← lift (b.loan.resolve h)
      return (⟨l, b.ptr⟩, h)

/-- Touches no byte of the mapping. -/
def abort (b : Borrow) (h : Handle) : OnBytes Handle := lift (b.loan.abort h)

def drop (b : Borrow) (h : Handle) : OnBytes Handle := do
  if b.loan.resolved then return h
  else
    let cursor ← readIdx length b.loan.readerId
    if cursor = b.loan.index then
      let next ← lift (p.add b.loan.index 1)
      setReadIdx length b.loan.readerId next
      let (_, h) ← lift (b.loan.resolve h)
      return h
    else
      let (_, h) ← lift (b.loan.resolve h)
      return h

/-- The loan after it was resolved. -/
def spent (b : Borrow) : Borrow := ⟨{ b.loan with resolved := true }, b.ptr⟩

end Borrow

/-! ## Runs of calls -/

/-- The handles on a mapping, and the loans with the handles they were claimed through. -/
structure Locals where
  handle : ℕ → Handle
  loans : List (ℕ × Borrow)

namespace Locals

variable (raw : RawFile) (s : Locals)

def setHandle (k : ℕ) (h : Handle) : Locals := { s with handle := Function.update s.handle k h }

/-- `open_existing` on the bytes as they are. -/
def openExisting : OnBytes Mapping := fun mem => lift (ShmRings.openExisting p T { raw with byte := mem }) mem

/-- A call. What a pointer is read for in the reply is read at once. -/
def apply : Call (Record T) → OnBytes (Reply (Record T) × Locals)
  | .openExisting k => do
      let m ← openExisting p T raw
      return (.done, s.setHandle k m.handle)
  | .tryPush k value => do
      let b ← tryPush p T raw.length (s.handle k) value
      return (.pushed b, s)
  | .tryPop k r => do
      let value ← tryPop p T raw.length (s.handle k) r
      return (.popped value, s)
  | .peek k r => do
      let ptr ← peek p T raw.length (s.handle k) r
      match ptr with
      | none => return (.peeked none, s)
      | some ptr =>
          let value ← readVolatile T raw.length ptr
          return (.peeked (some value), s)
  | .len _ r => do
      let n ← len p raw.length r
      return (.count n, s)
  | .isEmpty _ r => do
      let b ← isEmpty p raw.length r
      return (.flag b, s)
  | .slowestLag _ => do
      let n ← slowestLag raw.length
      return (.count n, s)
  | .totalWritten _ => do
      let n ← totalWritten raw.length
      return (.count n, s)
  | .claim k r => do
      let (loan, h) ← claim p T raw.length (s.handle k) r
      match loan with
      | none => return (.claimed none, s.setHandle k h)
      | some b =>
          let value ← b.deref T raw.length
          return (.claimed (some (b.loan.index, value)),
            { s.setHandle k h with loans := s.loans ++ [(k, b)] })
  | .commit i => match s.loans[i]? with
      | none => return (.done, s)
      | some (k, b) => do
          let (b, h) ← b.commit p raw.length (s.handle k)
          return (.done, { s.setHandle k h with loans := s.loans.set i (k, b) })
  | .abort i => match s.loans[i]? with
      | none => return (.done, s)
      | some (k, b) => do
          let h ← b.abort (s.handle k)
          return (.done, { s.setHandle k h with loans := s.loans.set i (k, b.spent) })
  | .drop i => match s.loans[i]? with
      | none => return (.done, s)
      | some (k, b) => do
          let h ← b.drop p raw.length (s.handle k)
          return (.done, { s.setHandle k h with loans := s.loans.set i (k, b.spent) })

end Locals

/-- The local states and the bytes of the mapping. -/
abbrev State := Locals × (ℕ → UInt8)

variable {T}

/-- A call and its result. An error leaves the bytes as the call has made them; it is stopped by a panic, or
(`none`) at an access that is not allowed. -/
def call (raw : RawFile) (t : State) (c : Call (Record T)) :
    Except (Option Panic) (Except ShmRingError (Reply (Record T)) × State) :=
  match t.1.apply p T raw c t.2 with
  | (.ok (reply, s), mem) => .ok (.ok reply, s, mem)
  | (.error (some (.err e)), mem) => .ok (.error e, t.1, mem)
  | (.error (some (.panic e)), _) => .error (some e)
  | (.error none, _) => .error none

/-- The runs of calls on the mapping `m` of a file that was opened. -/
def mapped (raw : RawFile) (m : Mapping) :
    System State (Call (Record T) × Except ShmRingError (Reply (Record T))) where
  init t := t = (⟨fun _ => m.handle, []⟩, raw.byte)
  step t e t' := call p raw t e.1 = .ok (e.2, t')

end ShmRings.Mapped
