import Mathlib.Algebra.Ring.Nat
import ShmRings.Lib.Coherent
import ShmRings.Lib.System

/-!
# Progress

How many steps something takes. A potential pays for the steps: what a step costs is taken from it, and
what others do may add to it.

* **`Run.paid`**: the cost of a run;
* `Amid`: the accesses of one thread, between which anything may happen to memory; **`Amid.paid`**, for a
  potential of the program points; `exists_access`: only a thread that has halted cannot go on.
-/

set_option autoImplicit false

namespace Transition

variable {σ ε : Type*} {S : System σ ε}

/-- **What a run costs**: the potential `Φ` at its start, what its labels add, and how far `credit` went. -/
theorem Run.paid {Φ credit : σ → ℕ} {cost income : ε → ℕ}
    (hpay : ∀ s e t, S.step s e t → Φ t + cost e + credit s ≤ Φ s + income e + credit t) {s t : σ} {es : List ε}
    (h : Run S s es t) : Φ t + (es.map cost).sum + credit s ≤ Φ s + (es.map income).sum + credit t := by
  induction h with
  | nil => exact le_rfl
  | @snoc es t e u _ hst ih =>
      have := hpay t e u hst
      simp only [List.map_append, List.map_cons, List.map_nil, List.sum_append, List.sum_cons, List.sum_nil]
      omega

end Transition

namespace Coherent

variable {X A L : Type*} [DecidableEq X]

/-- `n` accesses of a thread, between which memory and what the thread has seen may change in any way. -/
inductive Amid (code : L → Instr X A L) (l : L) : ℕ → L → Prop
  | refl : Amid code l 0 l
  | step {n l₁ l₂ m m' vw vw'} : Amid code l n l₁ → Access False m vw (code l₁) m' vw' l₂ →
      Amid code l (n + 1) l₂

/-- **What the accesses cost**, whatever happens between them. -/
theorem Amid.paid {code : L → Instr X A L} {rest : L → ℕ}
    (hpay : ∀ (m m' : Memory X A) vw vw' l l', Access False m vw (code l) m' vw' l' → rest l' < rest l)
    {l l' : L} {n : ℕ} (h : Amid code l n l') : n + rest l' ≤ rest l := by
  induction h with
  | refl => exact (Nat.zero_add _).le
  | step _ hacc ih =>
      have := hpay _ _ _ _ _ _ hacc
      omega

/-- A thread that has not halted can go on, in any memory. -/
theorem exists_access {instr : Instr X A L} (h : instr ≠ .halt) (m : Memory X A) :
    ∃ m' vw' l, Access False m (fun _ => 0) instr m' vw' l := by
  cases instr with
  | load x k => exact ⟨_, _, _, .load ⟨Nat.zero_le _, Cell.vals_top _, False.elim⟩⟩
  | store x v l => exact ⟨_, _, _, .store⟩
  | modify x f l => exact ⟨_, _, _, .modify⟩
  | exchange x old new won lost => exact ⟨_, _, _, .lost⟩
  | get j k => exact ⟨_, _, _, .get⟩
  | put j a l => exact ⟨_, _, _, .put⟩
  | halt => exact absurd rfl h

end Coherent
