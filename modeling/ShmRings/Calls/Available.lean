import ShmRings.Calls.Spec

/-!
# Whether a message is available

`try_pop` and `peek` find a message when the reader's cursor is not at `write_idx`, and `claim` when it
is behind it. A file with arbitrary words may have the cursor ahead.

* `OfferOne`: the three consume paths offer the same message, or none, by the cursor;
* **`offer_one_iff`**: they do unless the cursor is ahead;
* **`poisoned_pop`**: a cursor that was poisoned.
-/

set_option autoImplicit false

namespace ShmRings

variable {α : Type} {p : Profile} {h : Handle} {f : RingFile α} {r : ℕ}

/-- `try_pop`, `peek` and `claim` offer the message of one slot, or none; they offer one exactly when the
cursor is behind `write_idx`. -/
def OfferOne (p : Profile) (h : Handle) (f : RingFile α) (r : ℕ) : Prop :=
  ∃ slot : Option ℕ, (slot.isSome ↔ f.hdr.readIndices r < f.hdr.writeIdx) ∧
    (∃ f', tryPop p h f r = .ok (slot.map f.slots, f')) ∧
    peek p h f r = .ok slot ∧
    ∃ loan h', claim p h f r = .ok (loan, h') ∧ loan.map (fun l => h'.slot l.index) = slot

theorem offer_none (hr : r < f.hdr.numReaders) (hr' : r < maxReaders) (hb : h.claimBase r = 0)
    (hd : h.loanDepth r = 0) (heq : f.hdr.readIndices r = f.hdr.writeIdx) : OfferOne p h f r := by
  refine ⟨none, ?_, ⟨f, tryPop_none hr hr' hd heq⟩, ?_, none, h, claim_none hr hr' ?_ ?_, rfl⟩
  · rw [heq]
    simp
  · rw [peek_eq hr hr', if_pos heq]
  · rw [hb, Nat.zero_max, heq]
  · rw [hd]
    decide

theorem offer_some (hr : r < f.hdr.numReaders) (hr' : r < maxReaders) (hb : h.claimBase r = 0)
    (hd : h.loanDepth r = 0) (hlt : f.hdr.readIndices r < f.hdr.writeIdx)
    (hw : f.hdr.writeIdx < u64Size) : OfferOne p h f r := by
  have hnext : f.hdr.readIndices r + 1 < u64Size := by omega
  have hmax : max (h.claimBase r) (f.hdr.readIndices r) = f.hdr.readIndices r := by
    rw [hb, Nat.zero_max]
  refine ⟨some (h.slot (f.hdr.readIndices r)), iff_of_true rfl hlt,
    ⟨_, tryPop_some hr hr' hd hlt.ne hnext⟩, ?_, _, _, claim_some hr hr' ?_ ?_, ?_⟩
  · rw [peek_eq hr hr', if_neg hlt.ne]
  · rwa [hmax]
  · rwa [hmax]
  · rw [hmax]
    rfl

/-- **The consume paths agree exactly while the cursor is not ahead of `write_idx`**, on any words, for a
participating reader of a handle that has lent nothing. -/
theorem offer_one_iff (hn : f.hdr.numReaders ≤ maxReaders) (hr : r < f.hdr.numReaders)
    (hb : h.claimBase r = 0) (hd : h.loanDepth r = 0) (hw : f.hdr.writeIdx < u64Size) :
    OfferOne p h f r ↔ f.hdr.readIndices r ≤ f.hdr.writeIdx := by
  have hr' : r < maxReaders := hr.trans_le hn
  constructor
  · rintro ⟨slot, hiff, -, hpeek, -⟩
    by_contra hahead
    have hne : f.hdr.readIndices r ≠ f.hdr.writeIdx := by omega
    rw [peek_eq hr hr', if_neg hne] at hpeek
    cases hpeek
    exact hahead (hiff.mp rfl).le
  · intro hle
    rcases hle.lt_or_eq with hlt | heq
    · exact offer_some hr hr' hb hd hlt hw
    · exact offer_none hr hr' hb hd heq

/-- A ring of two slots and one reader, with its words set from outside. -/
def poisoned (writeIdx cursor : ℕ) : RingFile ℕ :=
  ⟨⟨magic, version, 1, writeIdx, fun _ => cursor, 1, writeIdx⟩, fun _ => 0⟩

theorem offer_one_unread : OfferOne checked (.fresh 2) (poisoned 2 1) 0 :=
  (offer_one_iff (by decide) (by decide) rfl rfl (by decide)).mpr (by decide)

/-- With its cursor ahead by one the reader pops a message that was never published, where a claim finds
none. -/
theorem poisoned_pop : ¬ OfferOne checked (.fresh 2) (poisoned 0 1) 0 ∧
    (∃ f', tryPop checked (.fresh 2) (poisoned 0 1) 0 = .ok (some 0, f')) ∧
    peek checked (.fresh 2) (poisoned 0 1) 0 = .ok (some 1) ∧
    ∃ h', claim checked (.fresh 2) (poisoned 0 1) 0 = .ok (none, h') := by
  refine ⟨?_, ⟨_, rfl⟩, rfl, _, rfl⟩
  rintro ⟨slot, hiff, -, hpeek, -⟩
  have hslot : some 1 = slot := Except.ok.inj hpeek
  subst hslot
  exact absurd (hiff.mp rfl) (by decide)

end ShmRings
