import Mathlib.Logic.Function.Basic
import Mathlib.Order.Basic
import Mathlib.Tactic.SplitIfs

/-!
# Programs on a segment of cells

A program loads and stores ranges of the cells of a segment. It returns, stops with an error, or is stopped at an
access that is not inside the segment or not aligned.

* `blit`: cells put at an offset; `blit_at`, `blit_outside`;
* `Prog`, `lift`, `load`, `store`; `bind_ok`, `load_eq`, `store_eq`;
* `Meets`: a program on the cells ends as a computation on what they stand for; **`Meets.step`**,
  **`Meets.lift`**, **`Meets.bind`**.
-/

set_option autoImplicit false

namespace Segment

variable {A δ β γ ρ υ : Type}

/-! ## Ranges of cells -/

/-- The cells `v` at offset `off`. -/
def blit {n : ℕ} (m : ℕ → A) (off : ℕ) (v : Fin n → A) (i : ℕ) : A :=
  if h : off ≤ i ∧ i < off + n then v ⟨i - off, by omega⟩ else m i

section Blit

variable {n off : ℕ} {m : ℕ → A} {v : Fin n → A}

theorem blit_at (i : Fin n) : blit m off v (off + i) = v i := by
  have hin : off ≤ off + (i : ℕ) ∧ off + (i : ℕ) < off + n := ⟨Nat.le_add_right _ _, by omega⟩
  have hsub : off + (i : ℕ) - off = i := Nat.add_sub_cancel_left _ _
  rw [blit, dif_pos hin]
  exact congrArg v (Fin.ext hsub)

theorem blit_outside {i : ℕ} (h : i < off ∨ off + n ≤ i) : blit m off v i = m i := by
  rw [blit, dif_neg (by omega)]

end Blit

/-! ## Programs -/

/-- A program. A stop with `none` is at an access that is not allowed. -/
def Prog (A δ β : Type) := (ℕ → A) → Except (Option δ) β × (ℕ → A)

namespace Prog

instance : Monad (Prog A δ) where
  pure b := fun m => (.ok b, m)
  bind x k := fun m => match x m with
    | (.ok b, m') => k b m'
    | (.error e, m') => (.error e, m')

/-- What touches no cell. -/
def lift (y : Except δ β) : Prog A δ β := fun m =>
  (match y with
    | .ok b => .ok b
    | .error e => .error (some e), m)

/-- The `n` cells at `off`, in a segment of `len` cells. -/
def load (len off n align : ℕ) : Prog A δ (Fin n → A) := fun m =>
  if off + n ≤ len ∧ align ∣ off then (.ok fun i => m (off + i), m) else (.error none, m)

/-- The `n` cells at `off` are overwritten. -/
def store {n : ℕ} (len off align : ℕ) (v : Fin n → A) : Prog A δ Unit := fun m =>
  if off + n ≤ len ∧ align ∣ off then (.ok (), blit m off v) else (.error none, m)

variable {x : Prog A δ β} {k : β → Prog A δ γ} {m m' : ℕ → A} {b : β} {len off n align : ℕ}

@[simp] theorem pure_apply : (pure b : Prog A δ β) m = (.ok b, m) := rfl

theorem bind_ok (h : x m = (.ok b, m')) : (x >>= k) m = k b m' := by
  show (match x m with
    | (.ok b, m') => k b m'
    | (.error e, m') => (.error e, m')) = k b m'
  rw [h]

theorem bind_error {e : Option δ} (h : x m = (.error e, m')) : (x >>= k) m = (.error e, m') := by
  show (match x m with
    | (.ok b, m') => k b m'
    | (.error e, m') => (.error e, m')) = (.error e, m')
  rw [h]

@[simp] theorem lift_ok : (lift (.ok b) : Prog A δ β) m = (.ok b, m) := rfl

@[simp] theorem lift_error {e : δ} : (lift (.error e) : Prog A δ β) m = (.error (some e), m) := rfl

theorem load_eq (hin : off + n ≤ len) (halign : align ∣ off) :
    (load len off n align : Prog A δ _) m = (.ok fun i => m (off + i), m) := if_pos ⟨hin, halign⟩

theorem store_eq {v : Fin n → A} (hin : off + n ≤ len) (halign : align ∣ off) :
    (store len off align v : Prog A δ Unit) m = (.ok (), blit m off v) := if_pos ⟨hin, halign⟩

end Prog

/-! ## What a program does -/

/-- A program ends as `y` does: it returns, and `Q` relates what it returns and the cells to what `y` returns, or
it stops with the error of `y`, in cells that `E` allows. It is not stopped at an access. -/
inductive Meets (Q : β → (ℕ → A) → ρ → Prop) (E : δ → (ℕ → A) → Prop) :
    Except (Option δ) β × (ℕ → A) → Except δ ρ → Prop
  | ok {b m r} : Q b m r → Meets Q E (.ok b, m) (.ok r)
  | error {e m} : E e m → Meets Q E (.error (some e), m) (.error e)

namespace Meets

variable {Q : β → (ℕ → A) → ρ → Prop} {Q' : γ → (ℕ → A) → υ → Prop} {E : δ → (ℕ → A) → Prop}
  {x : Prog A δ β} {k : β → Prog A δ γ} {m m' : ℕ → A}

/-- A step that returns. -/
theorem step {b : β} {z : Except δ υ} (hx : x m = (.ok b, m')) (h : Meets Q' E (k b m') z) :
    Meets Q' E ((x >>= k) m) z := by
  rw [Prog.bind_ok hx]
  exact h

/-- A step that touches no cell and does the same on both sides. -/
theorem lift {y : Except δ β} {g : β → Except δ υ} (herr : ∀ e, y = .error e → E e m)
    (h : ∀ b, y = .ok b → Meets Q' E (k b m) (g b)) : Meets Q' E ((Prog.lift y >>= k) m) (y >>= g) := by
  cases y with
  | ok b => exact step rfl (h b rfl)
  | error e =>
      rw [Prog.bind_error Prog.lift_error]
      exact .error (herr e rfl)

/-- One call after another. -/
theorem bind {y : Except δ ρ} {g : ρ → Except δ υ} (h : Meets Q E (x m) y)
    (hk : ∀ b m' r, Q b m' r → Meets Q' E (k b m') (g r)) : Meets Q' E ((x >>= k) m) (y >>= g) := by
  generalize hx : x m = z at h
  cases h with
  | ok hQ =>
      rw [Prog.bind_ok hx]
      exact hk _ _ _ hQ
  | error hE =>
      rw [Prog.bind_error hx]
      exact .error hE

end Meets

end Segment
