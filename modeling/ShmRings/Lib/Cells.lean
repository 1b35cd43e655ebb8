import Mathlib.Data.Fintype.Card
import Mathlib.Data.Fintype.Prod

/-!
# Cells of one size in a segment

Byte ranges `[a, a + s)` of one size `s`, and how many of them fit a segment.

* `Apart`, `apart_of_ne`: the cells of a grid do not overlap;
* **`mul_le_of_apart`**: `n` cells of size `s` that do not overlap need `n * s` bytes.
-/

set_option autoImplicit false

namespace Cells

/-- The ranges `[a, a + s)` and `[b, b + s)` do not overlap. -/
def Apart (s a b : ℕ) : Prop := a + s ≤ b ∨ b + s ≤ a

theorem grid_lt {s base i j : ℕ} (h : i < j) : base + i * s + s ≤ base + j * s := by
  have hle : (i + 1) * s ≤ j * s := Nat.mul_le_mul_right s h
  rw [Nat.succ_mul] at hle
  omega

theorem apart_of_ne {s base i j : ℕ} (h : i ≠ j) : Apart s (base + i * s) (base + j * s) :=
  (Nat.lt_or_gt_of_ne h).imp grid_lt grid_lt

/-- **Cells that do not overlap take the room of them all.** -/
theorem mul_le_of_apart {n s lo hi : ℕ} {off : ℕ → ℕ}
    (hin : ∀ i < n, lo ≤ off i ∧ off i + s ≤ hi)
    (hap : ∀ i < n, ∀ j < n, i ≠ j → Apart s (off i) (off j)) : n * s ≤ hi - lo := by
  -- byte `b` of cell `i`, as a byte of the segment
  let byte : Fin n × Fin s → Fin (hi - lo) := fun x =>
    ⟨off x.1 + x.2 - lo, by
      have := hin x.1 x.1.isLt
      have := x.2.isLt
      omega⟩
  have hinj : Function.Injective byte := by
    rintro ⟨i, b⟩ ⟨j, d⟩ heq
    have hval : off i + b - lo = off j + d - lo := congrArg Fin.val heq
    have hi := hin i i.isLt
    have hj := hin j j.isLt
    have hij : i = j := by
      by_contra hne
      have hb := b.isLt
      have hd := d.isLt
      rcases hap i i.isLt j j.isLt fun h => hne (Fin.ext h) with h | h <;> omega
    subst hij
    have hbd : b = d := Fin.ext (by omega)
    rw [hbd]
  have hcard := Fintype.card_le_of_injective byte hinj
  rwa [Fintype.card_prod, Fintype.card_fin, Fintype.card_fin, Fintype.card_fin] at hcard

end Cells
