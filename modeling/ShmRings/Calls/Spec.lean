import ShmRings.Model.World

/-!
# What each call does

One equation for each call, under the conditions in which it does not panic: for a reader that
participates, with indices that leave room for the increment. The state a call leaves is written with
the few updates it can make.

* `RingFile.publish`, `RingFile.advance`; `Handle.setDepth`, `Handle.setHead`;
* `tryPush_full`, `tryPush_room`; `tryPop_gate`, `tryPop_none`, `tryPop_some`; `claim_none`,
  `claim_some`; `commit_early`, `commit_eq`; `abort_eq`; `drop_away`, `drop_eq`; the reading calls.
-/

set_option autoImplicit false

namespace ShmRings

variable {α : Type}

/-- The file after a message was published in slot `j`. -/
def RingFile.publish (f : RingFile α) (j : ℕ) (value : α) : RingFile α where
  hdr := { f.hdr with
    writeIdx := f.hdr.writeIdx + 1
    totalWritten := wrappingAdd f.hdr.totalWritten 1 }
  slots := Function.update f.slots j value

/-- The file with the cursor of reader `r` at `c`. -/
def RingFile.advance (f : RingFile α) (r c : ℕ) : RingFile α where
  hdr := { f.hdr with readIndices := Function.update f.hdr.readIndices r c }
  slots := f.slots

/-- The handle with the gate of reader `r` at `d`. -/
def Handle.setDepth (h : Handle) (r d : ℕ) : Handle :=
  { h with loanDepth := Function.update h.loanDepth r d }

/-- The handle with the pipeline head of reader `r` at `b`. -/
def Handle.setHead (h : Handle) (r b : ℕ) : Handle :=
  { h with claimBase := Function.update h.claimBase r b }

section Shorthand

variable (h : Handle) (f : RingFile α) (r : ℕ)

@[simp] theorem setDepth_capacity (d : ℕ) : (h.setDepth r d).capacity = h.capacity := rfl
@[simp] theorem setDepth_claimBase (d : ℕ) : (h.setDepth r d).claimBase = h.claimBase := rfl
@[simp] theorem setHead_capacity (b : ℕ) : (h.setHead r b).capacity = h.capacity := rfl
@[simp] theorem setHead_loanDepth (b : ℕ) : (h.setHead r b).loanDepth = h.loanDepth := rfl

end Shorthand

variable {p : Profile} {h : Handle} {f : RingFile α} {r : ℕ} {l : Loan}

section Reading

theorem checkReader_ok (hr : r < f.hdr.numReaders) : checkReader p f.hdr r = .ok () :=
  if_neg (Nat.not_le.mpr hr)

theorem checkReader_err (hr : f.hdr.numReaders ≤ r) (hn : 1 ≤ f.hdr.numReaders) :
    checkReader p f.hdr r = .error (.err (.invalidReaderId r (f.hdr.numReaders - 1))) := by
  rw [checkReader, if_pos hr, p.sub_eq hn]
  rfl

theorem readIdx_ok (hr : r < maxReaders) : f.hdr.readIdx r = .ok (f.hdr.readIndices r) := if_pos hr

theorem slowestReadIdx_ok (hn : f.hdr.numReaders ≤ maxReaders) :
    f.hdr.slowestReadIdx f.hdr.numReaders = .ok (slowest f.hdr.readIndices f.hdr.numReaders) :=
  if_pos hn

theorem peek_eq (hr : r < f.hdr.numReaders) (hr' : r < maxReaders) :
    peek p h f r = .ok (if f.hdr.readIndices r = f.hdr.writeIdx then none
      else some (h.slot (f.hdr.readIndices r))) := by
  simp only [peek, checkReader_ok hr, readIdx_ok hr', ok_bind]
  split_ifs <;> rfl

theorem len_eq (hr : r < f.hdr.numReaders) (hr' : r < maxReaders) :
    len p f r = .ok (wrappingSub f.hdr.writeIdx (f.hdr.readIndices r)) := by
  simp only [len, checkReader_ok hr, readIdx_ok hr', ok_bind]
  rfl

theorem isEmpty_eq (hr : r < f.hdr.numReaders) (hr' : r < maxReaders) :
    isEmpty p f r = .ok (wrappingSub f.hdr.writeIdx (f.hdr.readIndices r) == 0) := by
  simp only [isEmpty, len_eq hr hr', ok_bind]
  rfl

theorem slowestLag_eq (hn : f.hdr.numReaders ≤ maxReaders) :
    slowestLag f =
      .ok (wrappingSub f.hdr.writeIdx (slowest f.hdr.readIndices f.hdr.numReaders)) := by
  simp only [slowestLag, slowestReadIdx_ok hn, ok_bind]
  rfl

end Reading

section Ring

/-- The lag backpressure is computed against. -/
def RingFile.lag (f : RingFile α) : ℕ :=
  f.hdr.writeIdx - slowest f.hdr.readIndices f.hdr.numReaders

theorem tryPush_full (value : α) (hn : f.hdr.numReaders ≤ maxReaders)
    (hmin : slowest f.hdr.readIndices f.hdr.numReaders ≤ f.hdr.writeIdx) (hfull : h.capacity ≤ f.lag) :
    tryPush p h f value = .ok (false, f) := by
  simp only [tryPush, slowestReadIdx_ok hn, ok_bind, p.sub_eq hmin]
  exact if_pos hfull

theorem tryPush_room (value : α) (hn : f.hdr.numReaders ≤ maxReaders)
    (hmin : slowest f.hdr.readIndices f.hdr.numReaders ≤ f.hdr.writeIdx) (hroom : f.lag < h.capacity)
    (hnext : f.hdr.writeIdx + 1 < u64Size) :
    tryPush p h f value = .ok (true, f.publish (h.slot f.hdr.writeIdx) value) := by
  simp only [tryPush, slowestReadIdx_ok hn, ok_bind, p.sub_eq hmin, p.add_eq hnext]
  exact if_neg (Nat.not_le.mpr hroom)

theorem tryPop_gate (hr : r < f.hdr.numReaders) (hr' : r < maxReaders) (hd : h.loanDepth r ≠ 0) :
    tryPop p h f r = .error (.err (.loanOutstanding r)) := by
  simp only [tryPop, checkReader_ok hr, Handle.loadDepth, if_pos hr', ok_bind]
  exact if_pos hd

theorem tryPop_none (hr : r < f.hdr.numReaders) (hr' : r < maxReaders) (hd : h.loanDepth r = 0)
    (heq : f.hdr.readIndices r = f.hdr.writeIdx) : tryPop p h f r = .ok (none, f) := by
  simp only [tryPop, checkReader_ok hr, Handle.loadDepth, if_pos hr', ok_bind, readIdx_ok hr', hd]
  exact if_pos heq

theorem tryPop_some (hr : r < f.hdr.numReaders) (hr' : r < maxReaders) (hd : h.loanDepth r = 0)
    (hne : f.hdr.readIndices r ≠ f.hdr.writeIdx) (hnext : f.hdr.readIndices r + 1 < u64Size) :
    tryPop p h f r = .ok (some (f.slots (h.slot (f.hdr.readIndices r))),
      f.advance r (f.hdr.readIndices r + 1)) := by
  simp only [tryPop, checkReader_ok hr, Handle.loadDepth, if_pos hr', ok_bind, readIdx_ok hr', hd,
    p.add_eq hnext, RingHeader.setReadIdx]
  exact if_neg hne

end Ring

section Loans

theorem raiseGate_ok (hr : r < maxReaders) :
    h.raiseGate r = .ok (h.setDepth r (wrappingAdd (h.loanDepth r) 1)) := if_pos hr

theorem lowerGate_ok (hr : r < maxReaders) :
    h.lowerGate r = .ok (h.setDepth r (wrappingSub (h.loanDepth r) 1)) := if_pos hr

theorem loadBase_ok (hr : r < maxReaders) : h.loadBase r = .ok (h.claimBase r) := if_pos hr

theorem setBase_ok (b : ℕ) (hr : r < maxReaders) : h.setBase r b = .ok (h.setHead r b) := if_pos hr

theorem lower_raise (hd : h.loanDepth r < u64Size) :
    (h.setDepth r (wrappingAdd (h.loanDepth r) 1)).setDepth r
      (wrappingSub ((h.setDepth r (wrappingAdd (h.loanDepth r) 1)).loanDepth r) 1) = h := by
  simp only [Handle.setDepth, Function.update_self, Function.update_idem,
    wrappingSub_wrappingAdd hd, Function.update_eq_self]

/-- A failed claim lowers the gate it raised. -/
theorem claim_none (hr : r < f.hdr.numReaders) (hr' : r < maxReaders)
    (hidx : f.hdr.writeIdx ≤ max (h.claimBase r) (f.hdr.readIndices r)) (hd : h.loanDepth r < u64Size) :
    claim p h f r = .ok (none, h) := by
  simp only [claim, checkReader_ok hr, ok_bind, raiseGate_ok hr', readIdx_ok hr', loadBase_ok hr',
    setDepth_claimBase, lowerGate_ok hr', lower_raise hd]
  exact if_pos hidx

theorem claim_some (hr : r < f.hdr.numReaders) (hr' : r < maxReaders)
    (hidx : max (h.claimBase r) (f.hdr.readIndices r) < f.hdr.writeIdx)
    (hnext : max (h.claimBase r) (f.hdr.readIndices r) + 1 < u64Size) :
    claim p h f r = .ok (some ⟨r, max (h.claimBase r) (f.hdr.readIndices r), false⟩,
      (h.setDepth r (wrappingAdd (h.loanDepth r) 1)).setHead r
        (max (h.claimBase r) (f.hdr.readIndices r) + 1)) := by
  simp only [claim, checkReader_ok hr, ok_bind, raiseGate_ok hr', readIdx_ok hr', loadBase_ok hr',
    setDepth_claimBase, p.add_eq hnext, setBase_ok _ hr']
  exact if_neg (Nat.not_le.mpr hidx)

/-- The gate goes down by one when a loan is resolved. -/
theorem resolve_eq (hr' : l.readerId < maxReaders) : l.resolve h = .ok ({ l with resolved := true },
    h.setDepth l.readerId (wrappingSub (h.loanDepth l.readerId) 1)) := by
  simp only [Loan.resolve, lowerGate_ok hr', ok_bind]
  rfl

theorem commit_resolved (hl : l.resolved = true) : l.commit p h f = .ok (l, h, f) := if_pos hl

theorem commit_early (hl : l.resolved = false) (hr' : l.readerId < maxReaders)
    (hne : f.hdr.readIndices l.readerId ≠ l.index) :
    l.commit p h f = .error (.err (.loanNotAtCursor l.index (f.hdr.readIndices l.readerId))) := by
  simp only [Loan.commit, hl, readIdx_ok hr', ok_bind]
  exact if_pos hne

theorem commit_eq (hl : l.resolved = false) (hr' : l.readerId < maxReaders)
    (heq : f.hdr.readIndices l.readerId = l.index) (hnext : l.index + 1 < u64Size) :
    l.commit p h f = .ok ({ l with resolved := true },
      h.setDepth l.readerId (wrappingSub (h.loanDepth l.readerId) 1),
      f.advance l.readerId (l.index + 1)) := by
  simp only [Loan.commit, hl, readIdx_ok hr', ok_bind, p.add_eq hnext, RingHeader.setReadIdx,
    if_pos hr', resolve_eq hr']
  exact if_neg (not_not.mpr heq)

theorem abort_resolved (hl : l.resolved = true) : l.abort h = .ok h := if_pos hl

theorem abort_eq (hl : l.resolved = false) (hr' : l.readerId < maxReaders) :
    l.abort h = .ok ((h.setHead l.readerId (min (h.claimBase l.readerId) l.index)).setDepth l.readerId
      (wrappingSub (h.loanDepth l.readerId) 1)) := by
  simp only [Loan.abort, hl, loadBase_ok hr', ok_bind, setBase_ok _ hr', resolve_eq hr',
    setHead_loanDepth]
  rfl

theorem drop_resolved (hl : l.resolved = true) : l.drop p h f = .ok (h, f) := if_pos hl

theorem drop_away (hl : l.resolved = false) (hr' : l.readerId < maxReaders)
    (hne : f.hdr.readIndices l.readerId ≠ l.index) :
    l.drop p h f = .ok (h.setDepth l.readerId (wrappingSub (h.loanDepth l.readerId) 1), f) := by
  simp only [Loan.drop, hl, readIdx_ok hr', ok_bind, if_neg hne, resolve_eq hr']
  rfl

theorem drop_eq (hl : l.resolved = false) (hr' : l.readerId < maxReaders)
    (heq : f.hdr.readIndices l.readerId = l.index) (hnext : l.index + 1 < u64Size) :
    l.drop p h f = .ok (h.setDepth l.readerId (wrappingSub (h.loanDepth l.readerId) 1),
      f.advance l.readerId (l.index + 1)) := by
  simp only [Loan.drop, hl, readIdx_ok hr', ok_bind, if_pos heq, p.add_eq hnext,
    RingHeader.setReadIdx, if_pos hr', resolve_eq hr']
  rfl

end Loans

end ShmRings
