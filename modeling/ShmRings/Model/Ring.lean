import ShmRings.Model.Header

/-!
# The ring, one call at a time

The operations of `SpmcRingBuffer` on a mapped ring file, each call executed without interference.
A call returns its answer and the state it leaves, or stops with a `Fault`.

* `RingFile`: the header and the slots; `Handle`: the fields of one `SpmcRingBuffer`;
* `checkReader`, `tryPush`, `tryPop`, `peek`, `len`, `isEmpty`, `slowestLag`, `totalWritten`.
-/

set_option autoImplicit false

namespace ShmRings

variable {α : Type}

/-- A mapped ring file with records of type `α`: the header, and slot `j` for `j < capacity`. -/
structure RingFile (α : Type) where
  hdr : RingHeader
  slots : ℕ → α

/-- The handle-local state of a `SpmcRingBuffer`: its capacity and, for each reader, the claim
pipeline and the loan gate. -/
structure Handle where
  capacity : ℕ
  claimBase : ℕ → ℕ
  loanDepth : ℕ → ℕ

namespace Handle

/-- The handle the constructors return. -/
def fresh (capacity : ℕ) : Handle := ⟨capacity, fun _ => 0, fun _ => 0⟩

/-- The slot of stream index `idx`. -/
def slot (h : Handle) (idx : ℕ) : ℕ := slotOf h.capacity idx

/-- `loan_depth[reader_id].load`. -/
def loadDepth (h : Handle) (readerId : ℕ) : Except Fault ℕ :=
  if readerId < maxReaders then .ok (h.loanDepth readerId) else .error (.panic .outOfRange)

end Handle

variable (p : Profile)

/-- The bounds check of the consumer calls; `max` is `num_readers - 1`, an unguarded `-`. -/
def checkReader (hdr : RingHeader) (readerId : ℕ) : Except Fault Unit := do
  let numReaders := hdr.numReaders
  if readerId ≥ numReaders then
    let max ← p.sub numReaders 1
    throw (.err (.invalidReaderId readerId max))

/-- Publishes one message, or returns `false` when the slowest reader lags by the capacity. -/
def tryPush (h : Handle) (f : RingFile α) (value : α) : Except Fault (Bool × RingFile α) := do
  let w := f.hdr.writeIdx
  let numReaders := f.hdr.numReaders
  let minRead ← f.hdr.slowestReadIdx numReaders
  let lag ← p.sub w minRead
  if lag ≥ h.capacity then
    return (false, f)
  let slots := Function.update f.slots (h.slot w) value
  let next ← p.add w 1
  let hdr := { f.hdr with writeIdx := next, totalWritten := wrappingAdd f.hdr.totalWritten 1 }
  return (true, ⟨hdr, slots⟩)

/-- Consumes the next message of a reader that has no open loan on this handle. -/
def tryPop (h : Handle) (f : RingFile α) (readerId : ℕ) :
    Except Fault (Option α × RingFile α) := do
  checkReader p f.hdr readerId
  let depth ← h.loadDepth readerId
  if depth ≠ 0 then
    throw (.err (.loanOutstanding readerId))
  let w := f.hdr.writeIdx
  let r ← f.hdr.readIdx readerId
  if r = w then
    return (none, f)
  let value := f.slots (h.slot r)
  let next ← p.add r 1
  let hdr ← f.hdr.setReadIdx readerId next
  return (some value, { f with hdr := hdr })

/-- The slot of the reader's next message, if any. -/
def peek (h : Handle) (f : RingFile α) (readerId : ℕ) : Except Fault (Option ℕ) := do
  checkReader p f.hdr readerId
  let w := f.hdr.writeIdx
  let r ← f.hdr.readIdx readerId
  if r = w then
    return none
  return some (h.slot r)

/-- `write_idx - read_idx`, wrapping. -/
def len (f : RingFile α) (readerId : ℕ) : Except Fault ℕ := do
  checkReader p f.hdr readerId
  let w := f.hdr.writeIdx
  let r ← f.hdr.readIdx readerId
  return wrappingSub w r

def isEmpty (f : RingFile α) (readerId : ℕ) : Except Fault Bool := do
  let n ← len p f readerId
  return n == 0

/-- The lag backpressure is computed against, wrapping. -/
def slowestLag (f : RingFile α) : Except Fault ℕ := do
  let numReaders := f.hdr.numReaders
  let w := f.hdr.writeIdx
  let minRead ← f.hdr.slowestReadIdx numReaders
  return wrappingSub w minRead

def totalWritten (f : RingFile α) : ℕ := f.hdr.totalWritten

end ShmRings
