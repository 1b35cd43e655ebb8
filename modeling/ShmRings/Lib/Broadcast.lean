import Mathlib.Logic.Function.Basic
import Mathlib.Order.Nat

/-!
# A bounded broadcast queue

An append-only stream and one position for each of `n` readers, of which none may lag by more than
the capacity `c`.

* `least`: the minimum over the positions; `least_le`, `exists_eq_least`;
* `Queue`, `Queue.push`, `Queue.pop`; **`full_iff`**: a push is refused when some reader lags by `c`.
-/

set_option autoImplicit false

namespace Broadcast

variable {α : Type*} {pos : ℕ → ℕ} {c n r : ℕ}

/-- The minimum of the first `n` positions. -/
def least (pos : ℕ → ℕ) (n : ℕ) : ℕ := ((List.range n).map pos).min?.getD 0

theorem exists_eq_least (pos : ℕ → ℕ) (hn : 0 < n) : ∃ r < n, pos r = least pos n := by
  have hne : (List.range n).map pos ≠ [] := by simp; omega
  obtain ⟨m, hm⟩ := Option.isSome_iff_exists.mp (List.isSome_min?_of_ne_nil hne)
  obtain ⟨r, hr, hrm⟩ := List.mem_map.mp (List.min?_mem hm)
  refine ⟨r, List.mem_range.mp hr, ?_⟩
  rw [least, hm, hrm, Option.getD_some]

theorem least_le (pos : ℕ → ℕ) (hr : r < n) : least pos n ≤ pos r := by
  have hmem : pos r ∈ (List.range n).map pos := List.mem_map_of_mem (List.mem_range.mpr hr)
  obtain ⟨m, hm⟩ := Option.isSome_iff_exists.mp (List.isSome_min?_of_mem hmem)
  rw [least, hm, Option.getD_some]
  exact (List.min?_eq_some_iff.mp hm).2 _ hmem

/-- The stream and the positions. -/
structure Queue (α : Type*) where
  stream : List α
  pos : ℕ → ℕ

namespace Queue

def empty : Queue α := ⟨[], fun _ => 0⟩

/-- Appends unless the slowest of the `n` readers lags by `c`. -/
def push (c n : ℕ) (q : Queue α) (v : α) : Bool × Queue α :=
  if q.stream.length - least q.pos n < c then (true, { q with stream := q.stream ++ [v] })
  else (false, q)

/-- The next element for reader `r`, if there is one. -/
def pop (q : Queue α) (r : ℕ) : Option α × Queue α :=
  match q.stream[q.pos r]? with
  | some v => (some v, { q with pos := Function.update q.pos r (q.pos r + 1) })
  | none => (none, q)

variable {q : Queue α} {v : α}

theorem full_iff (hc : 0 < c) (hn : 0 < n) :
    c ≤ q.stream.length - least q.pos n ↔ ∃ r < n, q.pos r + c ≤ q.stream.length := by
  constructor
  · intro h
    obtain ⟨r, hr, heq⟩ := exists_eq_least q.pos hn
    exact ⟨r, hr, by omega⟩
  · rintro ⟨r, hr, h⟩
    have := least_le q.pos hr
    omega

theorem push_of_room (hc : 0 < c) (hn : 0 < n) (h : ∀ r < n, q.stream.length < q.pos r + c) :
    q.push c n v = (true, { q with stream := q.stream ++ [v] }) := by
  refine if_pos (Nat.not_le.mp fun hfull => ?_)
  obtain ⟨r, hr, hle⟩ := (full_iff hc hn).mp hfull
  have := h r hr
  omega

theorem push_of_full (hc : 0 < c) (hr : r < n) (h : q.pos r + c ≤ q.stream.length) :
    q.push c n v = (false, q) :=
  if_neg (Nat.not_lt.mpr ((full_iff hc (by omega)).mpr ⟨r, hr, h⟩))

theorem pop_some (h : q.stream[q.pos r]? = some v) :
    q.pop r = (some v, { q with pos := Function.update q.pos r (q.pos r + 1) }) := by
  rw [pop, h]

theorem pop_none (h : q.stream.length ≤ q.pos r) : q.pop r = (none, q) := by
  rw [pop, List.getElem?_eq_none h]

end Queue

end Broadcast
