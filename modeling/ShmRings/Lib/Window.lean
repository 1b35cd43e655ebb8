import Mathlib.Tactic.TypeStar
import Mathlib.Logic.Function.Basic
import Mathlib.Data.Nat.ModEq

/-!
# Windows of a stream in a circular store

A store of `c` cells keeps index `i` of a stream in cell `i % c`. `Holds c data xs lo` says that the
store still has every element of `xs` from index `lo` on.

* `mod_ne_of_window`: two indices less than `c` apart have different cells;
* **`Holds.put`**: a write to the cell of the next index leaves a window of less than `c` alone;
* **`Holds.push`**: after that write the window may grow by the element written;
* `fill`: the store after a whole stream was written.
-/

set_option autoImplicit false

namespace Window

variable {α : Type*} {c : ℕ} {data : ℕ → α} {xs : List α} {lo : ℕ}

theorem mod_ne_of_window {i j : ℕ} (hij : i < j) (hjc : j < i + c) : i % c ≠ j % c := by
  intro h
  have hd : c ∣ j - i := (Nat.modEq_iff_dvd' hij.le).mp h
  have := Nat.le_of_dvd (by omega) hd
  omega

/-- The store has every element of `xs` from index `lo` on. -/
def Holds (c : ℕ) (data : ℕ → α) (xs : List α) (lo : ℕ) : Prop :=
  ∀ i v, lo ≤ i → xs[i]? = some v → data (i % c) = v

theorem Holds.mono {lo' : ℕ} (h : Holds c data xs lo) (hle : lo ≤ lo') : Holds c data xs lo' :=
  fun i v hi hv => h i v (hle.trans hi) hv

theorem holds_of_length_le (h : xs.length ≤ lo) : Holds c data xs lo := by
  intro i v hi hv
  rw [List.getElem?_eq_none (h.trans hi)] at hv
  cases hv

/-- **A write to the next cell leaves the window alone.** -/
theorem Holds.put (h : Holds c data xs lo) (hlen : xs.length < lo + c) (v : α) :
    Holds c (Function.update data (xs.length % c) v) xs lo := by
  intro i w hi hw
  have hlt : i < xs.length := (List.getElem?_eq_some_iff.mp hw).1
  rw [Function.update_of_ne (mod_ne_of_window hlt (by omega))]
  exact h i w hi hw

/-- **The window grows by the element in the next cell.** -/
theorem Holds.push {v : α} (h : Holds c data xs lo) (hv : data (xs.length % c) = v) :
    Holds c data (xs ++ [v]) lo := by
  intro i w hi hw
  rcases lt_trichotomy i xs.length with hlt | heq | hgt
  · rw [List.getElem?_append_left hlt] at hw
    exact h i w hi hw
  · subst heq
    rw [List.getElem?_concat_length] at hw
    cases hw
    exact hv
  · rw [List.getElem?_eq_none (by simp; omega)] at hw
    cases hw

/-- The store after the elements of `xs` were written to it in order. -/
def fill (c : ℕ) (data : ℕ → α) (xs : List α) : ℕ → α :=
  xs.zipIdx.foldl (fun f x => Function.update f (x.2 % c) x.1) data

theorem fill_concat (v : α) :
    fill c data (xs ++ [v]) = Function.update (fill c data xs) (xs.length % c) v := by
  simp [fill, List.zipIdx_append]

end Window
