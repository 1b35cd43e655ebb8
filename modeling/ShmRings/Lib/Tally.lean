import Mathlib.Data.Set.Card
import Mathlib.Logic.Function.Basic

/-!
# Counting parties

How many parties of a system are in a state of some kind. There may be any number of parties, finitely
many of them in such a state, and they move one at a time.

* `members`, `tally`; `members_enter`, `members_leave`: what one party's move changes;
* **`tally_enter`**, **`tally_leave`**, `tally_stay`: the count after a move;
* `tally_or`: parties of two kinds that exclude each other; `tally_pos`.
-/

set_option autoImplicit false

namespace Tally

variable {ι σ : Type*} {P Q : ι → σ → Prop} {f : ι → σ} {i : ι} {x : σ}

/-- The parties whose state meets `P`. -/
def members (P : ι → σ → Prop) (f : ι → σ) : Set ι := {j | P j (f j)}

/-- How many they are. -/
noncomputable def tally (P : ι → σ → Prop) (f : ι → σ) : ℕ := (members P f).ncard

section Update

variable [DecidableEq ι]

theorem members_enter (hin : P i x) : members P (Function.update f i x) = insert i (members P f) := by
  ext j
  by_cases hj : j = i
  · subst hj
    simp [members, hin]
  · simp [members, hj]

theorem members_leave (hout : ¬ P i x) : members P (Function.update f i x) = members P f \ {i} := by
  ext j
  by_cases hj : j = i
  · subst hj
    simp [members, hout]
  · simp [members, hj]

theorem finite_update (hfin : (members P f).Finite) : (members P (Function.update f i x)).Finite := by
  by_cases hin : P i x
  · rw [members_enter hin]
    exact hfin.insert i
  · rw [members_leave hin]
    exact hfin.sdiff

/-- **A party that joins** is one more. -/
theorem tally_enter (hfin : (members P f).Finite) (hout : ¬ P i (f i)) (hin : P i x) :
    tally P (Function.update f i x) = tally P f + 1 := by
  rw [tally, members_enter hin]
  exact Set.ncard_insert_of_notMem hout hfin

/-- **A party that leaves** is one less. -/
theorem tally_leave (hfin : (members P f).Finite) (hin : P i (f i)) (hout : ¬ P i x) :
    tally P (Function.update f i x) + 1 = tally P f := by
  rw [tally, members_leave hout]
  exact Set.ncard_sdiff_singleton_add_one hin hfin

/-- A party that stays of its kind. -/
theorem tally_stay (h : P i x ↔ P i (f i)) : tally P (Function.update f i x) = tally P f := by
  have hmembers : members P (Function.update f i x) = members P f := by
    ext j
    by_cases hj : j = i
    · subst hj
      simp [members, h]
    · simp [members, hj]
  rw [tally, hmembers, tally]

end Update

/-- Parties of two kinds that exclude each other. -/
theorem tally_or (hfin : (members (fun j y => P j y ∨ Q j y) f).Finite)
    (hdisj : ∀ j, P j (f j) → ¬ Q j (f j)) :
    tally (fun j y => P j y ∨ Q j y) f = tally P f + tally Q f := by
  have hunion : members (fun j y => P j y ∨ Q j y) f = members P f ∪ members Q f := rfl
  have hP : (members P f).Finite := hfin.subset fun _ => .inl
  have hQ : (members Q f).Finite := hfin.subset fun _ => .inr
  rw [tally, hunion]
  exact Set.ncard_union_eq (Set.disjoint_left.mpr fun j => hdisj j) hP hQ

theorem tally_pos (hfin : (members P f).Finite) : 0 < tally P f ↔ ∃ j, P j (f j) :=
  Set.ncard_pos hfin

end Tally
