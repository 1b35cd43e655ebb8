import Mathlib.Data.List.Basic
import Mathlib.Data.Set.Insert
import Mathlib.Logic.Function.Basic
import Mathlib.Tactic.TypeStar

/-!
# A record that is overwritten cell by cell

One writer stores value after value into shared cells, each cell by itself and in any order. Who reads a cell
gets that of a value that was not replaced before the read began.

* `Among`: a cell of one of the values from a number on; `Among.mono`, `Among.append`, **`Among.eq_last`**;
* `Cells`, `Cells.settled`; `Cells.begin`, `Cells.put`, `Cells.finish`: the steps of the writer;
* `Cells.Ok`, **`Cells.Ok.among`**: what is in the cells.
-/

set_option autoImplicit false

namespace Register

variable {ι A V : Type*} {cell : V → ι → A} {vs : List V} {lo : ℕ} {i : ι} {a : A} {v : V}

/-- `a` is cell `i` of one of the values from number `lo` on. -/
def Among (cell : V → ι → A) (vs : List V) (lo : ℕ) (i : ι) (a : A) : Prop :=
  ∃ j v, lo ≤ j ∧ vs[j]? = some v ∧ cell v i = a

theorem Among.mono {lo' : ℕ} (h : Among cell vs lo i a) (hlo : lo' ≤ lo) : Among cell vs lo' i a := by
  obtain ⟨j, v, hj, hv, ha⟩ := h
  exact ⟨j, v, hlo.trans hj, hv, ha⟩

/-- Further values take none away. -/
theorem Among.append (h : Among cell vs lo i a) (ws : List V) : Among cell (vs ++ ws) lo i a := by
  obtain ⟨j, v, hj, hv, ha⟩ := h
  refine ⟨j, v, hj, ?_, ha⟩
  rw [List.getElem?_append_left (List.getElem?_eq_some_iff.mp hv).1]
  exact hv

theorem among_get {j : ℕ} (hv : vs[j]? = some v) (hlo : lo ≤ j) : Among cell vs lo i (cell v i) :=
  ⟨j, v, hlo, hv, rfl⟩

/-- When there is one value only, it is a cell of that. -/
theorem Among.eq_last (h : Among cell vs lo i a) (hlen : vs.length = lo + 1) (hv : vs[lo]? = some v) :
    a = cell v i := by
  obtain ⟨j, u, hj, hu, rfl⟩ := h
  have hlt := (List.getElem?_eq_some_iff.mp hu).1
  obtain rfl : j = lo := by omega
  rw [hv] at hu
  rw [Option.some.inj hu]

/-- The cells, the values that were begun, and, in the middle of a write, the cells that are stored. -/
structure Cells (ι A V : Type*) where
  mem : ι → A
  values : List V
  stored : Option (Set ι)

namespace Cells

variable (c : Cells ι A V)

/-- The number of the last value that is, or was, in all cells. -/
def settled : ℕ := c.values.length - (if c.stored.isSome then 2 else 1)

/-- The write of `v` begins. -/
def begin (v : V) : Cells ι A V := ⟨c.mem, c.values ++ [v], some ∅⟩

/-- A cell is stored. -/
def put [DecidableEq ι] (i : ι) (a : A) : Cells ι A V :=
  ⟨Function.update c.mem i a, c.values, c.stored.map (insert i)⟩

/-- The write is over. -/
def finish : Cells ι A V := { c with stored := none }

/-- Between two writes the cells are those of the last value; within one those that are not stored are those of
the value before. -/
structure Ok (cell : V → ι → A) (c : Cells ι A V) : Prop where
  still : c.stored = none → ∃ v, c.values[c.settled]? = some v ∧ c.settled + 1 = c.values.length ∧
    ∀ i, c.mem i = cell v i
  half : ∀ s, c.stored = some s → ∃ u v, c.values[c.settled]? = some u ∧ c.values[c.settled + 1]? = some v ∧
    c.settled + 2 = c.values.length ∧ ∀ i, (i ∈ s → c.mem i = cell v i) ∧ (i ∉ s → c.mem i = cell u i)

variable {c}

/-- **What is in a cell** was not replaced. -/
theorem Ok.among (h : c.Ok cell) (i : ι) : Among cell c.values c.settled i (c.mem i) := by
  cases hs : c.stored with
  | none =>
      obtain ⟨v, hv, -, hmem⟩ := h.still hs
      rw [hmem i]
      exact among_get hv le_rfl
  | some s =>
      obtain ⟨u, v, hu, hv, -, hmem⟩ := h.half s hs
      by_cases hi : i ∈ s
      · rw [(hmem i).1 hi]
        exact among_get hv (Nat.le_succ _)
      · rw [(hmem i).2 hi]
        exact among_get hu le_rfl

theorem ok_single (v : V) : (⟨cell v, [v], none⟩ : Cells ι A V).Ok cell where
  still _ := ⟨v, rfl, rfl, fun _ => rfl⟩
  half _ h := by cases h

theorem Ok.begin (h : c.Ok cell) (hs : c.stored = none) (v : V) :
    (c.begin v).Ok cell ∧ (c.begin v).settled = c.settled := by
  obtain ⟨u, hu, hlen, hmem⟩ := h.still hs
  have hsettled : (c.begin v).settled = c.settled := by
    unfold settled Cells.begin at *
    rw [hs] at hlen ⊢
    simp only [List.length_append, List.length_singleton, Option.isSome_some, Option.isSome_none] at hlen ⊢
    simp only [if_true, Bool.false_eq_true, if_false] at hlen ⊢
    omega
  refine ⟨⟨fun hnone => (by cases hnone), fun s hsome => ?_⟩, hsettled⟩
  cases hsome
  rw [hsettled]
  refine ⟨u, v, ?_, ?_, ?_, fun i => ⟨fun hi => hi.elim, fun _ => hmem i⟩⟩
  · show (c.values ++ [v])[c.settled]? = some u
    rw [List.getElem?_append_left (by omega)]
    exact hu
  · show (c.values ++ [v])[c.settled + 1]? = some v
    rw [hlen, List.getElem?_concat_length]
  · show c.settled + 2 = (c.values ++ [v]).length
    rw [List.length_append, List.length_singleton, ← hlen]

theorem Ok.put [DecidableEq ι] (h : c.Ok cell) {s : Set ι} (hs : c.stored = some s)
    (hv : c.values.getLast? = some v) (i : ι) : (c.put i (cell v i)).Ok cell ∧
      (c.put i (cell v i)).settled = c.settled := by
  obtain ⟨u, v', hu, hv', hlen, hmem⟩ := h.half s hs
  have hsettled : (c.put i (cell v i)).settled = c.settled := by
    unfold settled Cells.put
    rw [hs]
    rfl
  obtain rfl : v' = v := by
    rw [List.getLast?_eq_getElem?, ← hlen] at hv
    exact Option.some.inj (hv'.symm.trans hv)
  refine ⟨⟨fun hnone => ?_, fun s' hs' => ?_⟩, hsettled⟩
  · unfold Cells.put at hnone
    rw [hs] at hnone
    cases hnone
  · unfold Cells.put at hs'
    rw [hs] at hs'
    obtain rfl : insert i s = s' := Option.some.inj hs'
    rw [hsettled]
    refine ⟨u, v', hu, hv', hlen, fun j => ?_⟩
    show (j ∈ insert i s → Function.update c.mem i _ j = _) ∧ (j ∉ insert i s → Function.update c.mem i _ j = _)
    by_cases hj : j = i
    · subst hj
      rw [Function.update_self]
      exact ⟨fun _ => rfl, fun hno => absurd (Set.mem_insert j s) hno⟩
    · rw [Function.update_of_ne hj]
      exact ⟨fun hin => (hmem j).1 (hin.resolve_left hj), fun hno => (hmem j).2 fun hin => hno (.inr hin)⟩

/-- When every cell is stored, they are those of the last value. -/
theorem Ok.finish (h : c.Ok cell) {s : Set ι} (hs : c.stored = some s) (hall : ∀ i, i ∈ s) :
    c.finish.Ok cell ∧ c.settled ≤ c.finish.settled := by
  obtain ⟨u, v, -, hv, hlen, hmem⟩ := h.half s hs
  have hsettled : c.finish.settled = c.settled + 1 := by
    show c.values.length - 1 = c.settled + 1
    omega
  refine ⟨⟨fun _ => ?_, fun s' hs' => (by cases hs')⟩, ?_⟩
  · rw [hsettled]
    exact ⟨v, hv, hlen, fun i => (hmem i).1 (hall i)⟩
  · rw [hsettled]
    exact Nat.le_succ _

end Cells

end Register
