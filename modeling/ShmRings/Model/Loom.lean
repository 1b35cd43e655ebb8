import ShmRings.Model.Header

/-!
# The loom double

The in-memory ring that is explored in place of the mapped one, one call at a time. It has two slots of
`u64` and answers with a `bool` where the ring returns an error.

* `LoomRing`: `withReaders`, `tryPush`, `tryPop`, `claim`;
* `LoomLoan`: `value`, `commit`, `abort`, `resolve`, `drop`;
* `LoomState`, `LoomOp`, `LoomState.run`: a double with its loans.
-/

set_option autoImplicit false

namespace ShmRings

/-- `LOOM_CAPACITY`. -/
def loomCapacity : ℕ := 2

/-- The words and the slots of the double; an array of words is a function on `i < maxReaders`. -/
structure LoomRing where
  writeIdx : ℕ
  readIndices : ℕ → ℕ
  numReaders : ℕ
  totalWritten : ℕ
  claimBase : ℕ → ℕ
  loanDepth : ℕ → ℕ
  slots : ℕ → UInt64

/-- A loan of the double. -/
structure LoomLoan where
  readerId : ℕ
  index : ℕ
  resolved : Bool

/-- An element of an array of `MAX_READERS` words. -/
def loadAt (words : ℕ → ℕ) (i : ℕ) : Except Fault ℕ :=
  if i < maxReaders then .ok (words i) else .error (.panic .outOfRange)

/-- The array with element `i` at `v`. -/
def storeAt (words : ℕ → ℕ) (i v : ℕ) : Except Fault (ℕ → ℕ) :=
  if i < maxReaders then .ok (Function.update words i v) else .error (.panic .outOfRange)

namespace LoomRing

/-- The double with all words zero. -/
def fresh (numReaders : ℕ) : LoomRing :=
  ⟨0, fun _ => 0, numReaders, 0, fun _ => 0, fun _ => 0, fun _ => 0⟩

def withReaders (numReaders : ℕ) : Except Fault LoomRing := do
  ensure (1 ≤ numReaders ∧ numReaders ≤ maxReaders) (.panic .assertion)
  return fresh numReaders

/-- The slot of stream index `idx`. -/
def slot (idx : ℕ) : ℕ := slotOf loomCapacity idx

variable (p : Profile) (d : LoomRing)

/-- `read_indices[..num_readers]`, folded to its minimum. -/
def minRead : Except Fault ℕ :=
  if d.numReaders ≤ maxReaders then .ok (slowest d.readIndices d.numReaders)
  else .error (.panic .outOfRange)

def tryPush (value : UInt64) : Except Fault (Bool × LoomRing) := do
  let w := d.writeIdx
  let minRead ← d.minRead
  let lag ← p.sub w minRead
  if lag ≥ loomCapacity then
    return (false, d)
  let slots := Function.update d.slots (slot w) value
  let next ← p.add w 1
  return (true, { d with
    slots := slots, writeIdx := next, totalWritten := wrappingAdd d.totalWritten 1 })

/-- Without a look at the gate. -/
def tryPop (readerId : ℕ) : Except Fault (Option UInt64 × LoomRing) := do
  ensure (readerId < d.numReaders) (.panic .assertion)
  let w := d.writeIdx
  let r ← loadAt d.readIndices readerId
  if r = w then
    return (none, d)
  let v := d.slots (slot r)
  let next ← p.add r 1
  let readIndices ← storeAt d.readIndices readerId next
  return (some v, { d with readIndices := readIndices })

/-- Executed alone, the compare-exchange succeeds. -/
def claim (readerId : ℕ) : Except Fault (Option LoomLoan × LoomRing) := do
  ensure (readerId < d.numReaders) (.panic .assertion)
  let depth ← loadAt d.loanDepth readerId
  let raised ← storeAt d.loanDepth readerId (wrappingAdd depth 1)
  let d := { d with loanDepth := raised }
  let w := d.writeIdx
  let cursor ← loadAt d.readIndices readerId
  let base ← loadAt d.claimBase readerId
  let idx := max base cursor
  if idx ≥ w then
    let depth ← loadAt d.loanDepth readerId
    let lowered ← storeAt d.loanDepth readerId (wrappingSub depth 1)
    return (none, { d with loanDepth := lowered })
  let next ← p.add idx 1
  let claimBase ← storeAt d.claimBase readerId next
  return (some ⟨readerId, idx, false⟩, { d with claimBase := claimBase })

end LoomRing

namespace LoomLoan

variable (p : Profile) (l : LoomLoan) (d : LoomRing)

/-- The value of the slot the loan pins. -/
def value : UInt64 := d.slots (LoomRing.slot l.index)

/-- Marks the loan resolved and lowers the gate. -/
def resolve : Except Fault (LoomLoan × LoomRing) := do
  let depth ← loadAt d.loanDepth l.readerId
  let lowered ← storeAt d.loanDepth l.readerId (wrappingSub depth 1)
  return ({ l with resolved := true }, { d with loanDepth := lowered })

/-- Moves the cursor past the loan, or returns `false` when the loan is not at the cursor. -/
def commit : Except Fault (Bool × LoomLoan × LoomRing) := do
  if l.resolved then
    return (true, l, d)
  let cursor ← loadAt d.readIndices l.readerId
  if cursor ≠ l.index then
    return (false, l, d)
  let next ← p.add l.index 1
  let readIndices ← storeAt d.readIndices l.readerId next
  let (l, d) ← l.resolve { d with readIndices := readIndices }
  return (true, l, d)

/-- Rewinds the pipeline to the loan. -/
def abort : Except Fault LoomRing := do
  if l.resolved then
    return d
  let base ← loadAt d.claimBase l.readerId
  let claimBase ← storeAt d.claimBase l.readerId (min base l.index)
  let (_, d) ← l.resolve { d with claimBase := claimBase }
  return d

/-- Commits a loan that is at the cursor and otherwise only releases the gate. -/
def drop : Except Fault LoomRing := do
  if l.resolved then
    return d
  let cursor ← loadAt d.readIndices l.readerId
  let readIndices ← if cursor = l.index then do
      let next ← p.add l.index 1
      storeAt d.readIndices l.readerId next
    else pure d.readIndices
  let (_, d) ← l.resolve { d with readIndices := readIndices }
  return d

end LoomLoan

/-! ## A double with its loans -/

/-- A double and its loans, in the order in which they were claimed. -/
structure LoomState where
  ring : LoomRing
  loans : List LoomLoan

/-- An operation on the double, by one of `n` readers or on loan `i`. -/
inductive LoomOp (n : ℕ)
  | tryPush (value : UInt64)
  | tryPop (readerId : Fin n)
  | claim (readerId : Fin n)
  | commit (i : ℕ)
  | abort (i : ℕ)
  | drop (i : ℕ)

/-- What an operation returns; a loan is its index and its value. -/
inductive LoomReply
  | pushed (b : Bool)
  | popped (value : Option UInt64)
  | claimed (loan : Option (ℕ × UInt64))
  | committed (b : Bool)
  | done

/-- An operation, by the functions of the double; a loan that was resolved does nothing more. -/
def LoomState.run (p : Profile) {n : ℕ} (s : LoomState) :
    LoomOp n → Except Fault (LoomReply × LoomState)
  | .tryPush value => do
      let (b, d) ← s.ring.tryPush p value
      return (.pushed b, { s with ring := d })
  | .tryPop r => do
      let (value, d) ← s.ring.tryPop p r
      return (.popped value, { s with ring := d })
  | .claim r => do
      let (loan, d) ← s.ring.claim p r
      match loan with
      | none => return (.claimed none, { s with ring := d })
      | some l => return (.claimed (some (l.index, l.value d)), ⟨d, s.loans ++ [l]⟩)
  | .commit i => match s.loans[i]? with
      | none => .ok (.done, s)
      | some l => do
          let (b, l, d) ← l.commit p s.ring
          return (.committed b, ⟨d, s.loans.set i l⟩)
  | .abort i => match s.loans[i]? with
      | none => .ok (.done, s)
      | some l => do
          let d ← l.abort s.ring
          return (.done, ⟨d, s.loans.set i { l with resolved := true }⟩)
  | .drop i => match s.loans[i]? with
      | none => .ok (.done, s)
      | some l => do
          let d ← l.drop p s.ring
          return (.done, ⟨d, s.loans.set i { l with resolved := true }⟩)

end ShmRings
