import ShmRings.Model.Ring

/-!
# Zero-copy loans, one call at a time

`claim` reserves the next index of a reader in the handle's pipeline and raises the loan gate; a
loan is resolved by `commit`, `abort` or `drop`, each of which lowers the gate. The pipeline head is
raised by a claim and rewound by an abort; only a commit or a drop at the cursor moves the cursor.

* `Loan`, `claim`, `Loan.deref`;
* `Loan.commit`, `Loan.abort`, `Loan.drop`.
-/

set_option autoImplicit false

namespace ShmRings

variable {α : Type}

/-- A loan of stream index `index`; its pointer is the slot of that index. -/
structure Loan where
  readerId : ℕ
  index : ℕ
  resolved : Bool
  deriving DecidableEq

namespace Handle

/-- `loan_depth[reader_id].fetch_add(1)`. -/
def raiseGate (h : Handle) (readerId : ℕ) : Except Fault Handle :=
  if readerId < maxReaders then
    .ok { h with loanDepth :=
      Function.update h.loanDepth readerId (wrappingAdd (h.loanDepth readerId) 1) }
  else .error (.panic .outOfRange)

/-- `loan_depth[reader_id].fetch_sub(1)`. -/
def lowerGate (h : Handle) (readerId : ℕ) : Except Fault Handle :=
  if readerId < maxReaders then
    .ok { h with loanDepth :=
      Function.update h.loanDepth readerId (wrappingSub (h.loanDepth readerId) 1) }
  else .error (.panic .outOfRange)

/-- `claim_base[reader_id].load`. -/
def loadBase (h : Handle) (readerId : ℕ) : Except Fault ℕ :=
  if readerId < maxReaders then .ok (h.claimBase readerId) else .error (.panic .outOfRange)

/-- A store of `v` to `claim_base[reader_id]`. -/
def setBase (h : Handle) (readerId v : ℕ) : Except Fault Handle :=
  if readerId < maxReaders then .ok { h with claimBase := Function.update h.claimBase readerId v }
  else .error (.panic .outOfRange)

end Handle

variable (p : Profile)

/-- Reserves the reader's next message. Executed alone, the compare-exchange can only fail
spuriously, and the loop then starts over on unchanged words; the model is its successful pass. -/
def claim (h : Handle) (f : RingFile α) (readerId : ℕ) : Except Fault (Option Loan × Handle) := do
  checkReader p f.hdr readerId
  let h ← h.raiseGate readerId
  let w := f.hdr.writeIdx
  let cursor ← f.hdr.readIdx readerId
  let base ← h.loadBase readerId
  let idx := max base cursor
  if idx ≥ w then
    let h ← h.lowerGate readerId
    return (none, h)
  let next ← p.add idx 1
  let h ← h.setBase readerId next
  return (some ⟨readerId, idx, false⟩, h)

namespace Loan

/-- The record the loan views. -/
def deref (l : Loan) (h : Handle) (f : RingFile α) : α := f.slots (h.slot l.index)

/-- Marks the loan resolved and lowers the gate. -/
def resolve (l : Loan) (h : Handle) : Except Fault (Loan × Handle) := do
  let h ← h.lowerGate l.readerId
  return ({ l with resolved := true }, h)

/-- Moves the cursor past the loan if the loan is at the cursor. -/
def commit (l : Loan) (h : Handle) (f : RingFile α) :
    Except Fault (Loan × Handle × RingFile α) := do
  if l.resolved then
    return (l, h, f)
  let cursor ← f.hdr.readIdx l.readerId
  if cursor ≠ l.index then
    throw (.err (.loanNotAtCursor l.index cursor))
  let next ← p.add l.index 1
  let hdr ← f.hdr.setReadIdx l.readerId next
  let (l, h) ← l.resolve h
  return (l, h, { f with hdr := hdr })

/-- Rewinds the pipeline to the loan (`claim_base.fetch_min`). -/
def abort (l : Loan) (h : Handle) : Except Fault Handle := do
  if l.resolved then
    return h
  let base ← h.loadBase l.readerId
  let h ← h.setBase l.readerId (min base l.index)
  let (_, h) ← l.resolve h
  return h

/-- Commits a loan that is at the cursor and otherwise only releases the gate. -/
def drop (l : Loan) (h : Handle) (f : RingFile α) : Except Fault (Handle × RingFile α) := do
  if l.resolved then
    return (h, f)
  let cursor ← f.hdr.readIdx l.readerId
  let hdr ← if cursor = l.index then do
      let next ← p.add l.index 1
      f.hdr.setReadIdx l.readerId next
    else pure f.hdr
  let (_, h) ← l.resolve h
  return (h, { f with hdr := hdr })

end Loan

end ShmRings
