import Mathlib.Order.Nat
import Mathlib.Tactic.TypeStar
import Mathlib.Logic.Function.Basic

/-!
# Coherent shared memory

Words hold natural numbers and keep their modification order; payload cells are plain. A thread has
a view: for each word, the position of the last value it saw. A load may return any value that is
not older, a store or a read-modify-write acts on the newest value and moves the view to its own
value. Loads restricted to the newest value give sequentially consistent memory.

A thread's code is a map from its program points to instructions, so that each access is one step.

* `Cell`, `Cell.counter`; `counter_store`, `getElem?_counter`;
* `Memory`, `View`, `Instr`, `Sees`, **`Access`**: one access of a thread;
* **`Access.view_le`**: a view only moves forward, up to the newest value; `Access.top_le`;
* `Sees.now`: under sequential consistency a load returns the newest value;
* `Direct`, `Instr.exec`, **`Direct.cases`**: what an access does under sequential consistency;
  `access_of_exec`;
* `Solo`: the accesses of a thread alone.
-/

set_option autoImplicit false

namespace Coherent

/-- A word: the values it held, oldest first, and the newest one. -/
structure Cell where
  past : List ℕ
  now : ℕ

namespace Cell

/-- The modification order. -/
def vals (c : Cell) : List ℕ := c.past ++ [c.now]

/-- The position of the newest value. -/
def top (c : Cell) : ℕ := c.past.length

/-- The word after a store of `v`. -/
def store (c : Cell) (v : ℕ) : Cell := ⟨c.vals, v⟩

/-- A word that has held only `v`. -/
def const (v : ℕ) : Cell := ⟨[], v⟩

/-- A word that has counted from `0` to `n`. -/
def counter (n : ℕ) : Cell := ⟨List.range n, n⟩

@[simp] theorem store_now (c : Cell) (v : ℕ) : (c.store v).now = v := rfl
@[simp] theorem store_top (c : Cell) (v : ℕ) : (c.store v).top = c.top + 1 := by
  simp [store, top, vals]
@[simp] theorem const_now (v : ℕ) : (const v).now = v := rfl
@[simp] theorem counter_now (n : ℕ) : (counter n).now = n := rfl
@[simp] theorem counter_top (n : ℕ) : (counter n).top = n := by simp [counter, top]

theorem vals_top (c : Cell) : c.vals[c.top]? = some c.now := by
  simp [vals, top]

theorem counter_store (n : ℕ) : (counter n).store (n + 1) = counter (n + 1) := by
  simp [counter, store, vals, List.range_succ]

theorem getElem?_counter {n i v : ℕ} (h : (counter n).vals[i]? = some v) : v = i ∧ i ≤ n := by
  have h' : (List.range (n + 1))[i]? = some v := by
    rw [List.range_succ]; exact h
  obtain ⟨hlt, hv⟩ := List.getElem?_eq_some_iff.mp h'
  rw [List.getElem_range] at hv
  rw [List.length_range] at hlt
  omega

theorem le_top_of_getElem? {c : Cell} {i v : ℕ} (h : c.vals[i]? = some v) : i ≤ c.top := by
  have hlt := (List.getElem?_eq_some_iff.mp h).1
  simp only [vals, List.length_append, List.length_singleton] at hlt
  exact Nat.le_of_lt_succ hlt

theorem getElem?_const {n i v : ℕ} (h : (const n).vals[i]? = some v) : v = n := by
  have := List.mem_of_getElem? h
  simpa [const, vals] using this

end Cell

/-- Words named by `X`, payload cells with values in `A`. -/
structure Memory (X A : Type*) where
  word : X → Cell
  data : ℕ → A

/-- For each word, the position of the last value seen. -/
abbrev View (X : Type*) := X → ℕ

variable {X A L : Type*}

namespace Memory

/-- The newest value of a word. -/
def now (m : Memory X A) (x : X) : ℕ := (m.word x).now

/-- The view of a thread that has seen everything. -/
def newest (m : Memory X A) : View X := fun x => (m.word x).top

/-- A write to a payload cell. -/
def put (m : Memory X A) (j : ℕ) (a : A) : Memory X A :=
  { m with data := Function.update m.data j a }

@[simp] theorem put_word (m : Memory X A) (j : ℕ) (a : A) : (m.put j a).word = m.word := rfl
@[simp] theorem put_now (m : Memory X A) (j : ℕ) (a : A) (x : X) : (m.put j a).now x = m.now x := rfl
@[simp] theorem put_data (m : Memory X A) (j : ℕ) (a : A) :
    (m.put j a).data = Function.update m.data j a := rfl

variable [DecidableEq X]

/-- A store to a word. -/
def store (m : Memory X A) (x : X) (v : ℕ) : Memory X A :=
  { m with word := Function.update m.word x ((m.word x).store v) }

@[simp] theorem store_word_self (m : Memory X A) (x : X) (v : ℕ) :
    (m.store x v).word x = (m.word x).store v := by simp [store]
theorem store_word_ne (m : Memory X A) {x y : X} (h : y ≠ x) (v : ℕ) :
    (m.store x v).word y = m.word y := by simp [store, h]
@[simp] theorem store_now_self (m : Memory X A) (x : X) (v : ℕ) : (m.store x v).now x = v := by
  simp [now]
theorem store_now_ne (m : Memory X A) {x y : X} (h : y ≠ x) (v : ℕ) :
    (m.store x v).now y = m.now y := by simp [now, store_word_ne m h]
theorem store_now (m : Memory X A) (x y : X) (v : ℕ) :
    (m.store x v).now y = if y = x then v else m.now y := by
  split_ifs with h
  · rw [h, store_now_self]
  · exact store_now_ne m h v
@[simp] theorem store_data (m : Memory X A) (x : X) (v : ℕ) : (m.store x v).data = m.data := rfl

end Memory

variable [DecidableEq X]

/-- One access and how the thread goes on. `exchange` is a weak compare-exchange: it may fail
although the word holds the expected value. -/
inductive Instr (X A L : Type*)
  | load (x : X) (k : ℕ → L)
  | store (x : X) (v : ℕ) (l : L)
  | modify (x : X) (f : ℕ → ℕ) (l : L)
  | exchange (x : X) (old new : ℕ) (won lost : L)
  | get (j : ℕ) (k : A → L)
  | put (j : ℕ) (a : A) (l : L)
  | halt

/-- A load of `x` by a thread with view `vw` may return the value `v` at position `i`; with `sc`,
only the newest. -/
def Sees (sc : Prop) (m : Memory X A) (vw : View X) (x : X) (i v : ℕ) : Prop :=
  vw x ≤ i ∧ (m.word x).vals[i]? = some v ∧ (sc → i = (m.word x).top)

/-- **One access** of a thread with view `vw`. -/
inductive Access (sc : Prop) (m : Memory X A) (vw : View X) :
    Instr X A L → Memory X A → View X → L → Prop
  | load {x k i v} : Sees sc m vw x i v → Access sc m vw (.load x k) m (Function.update vw x i) (k v)
  | store {x v l} :
      Access sc m vw (.store x v l) (m.store x v) (Function.update vw x ((m.word x).top + 1)) l
  | modify {x f l} : Access sc m vw (.modify x f l) (m.store x (f (m.now x)))
      (Function.update vw x ((m.word x).top + 1)) l
  | won {x old new w l} : m.now x = old → Access sc m vw (.exchange x old new w l) (m.store x new)
      (Function.update vw x ((m.word x).top + 1)) w
  | lost {x old new w l} : Access sc m vw (.exchange x old new w l) m vw l
  | get {j k} : Access sc m vw (.get j k) m vw (k (m.data j))
  | put {j a l} : Access sc m vw (.put j a l) (m.put j a) vw l

/-- **A view only moves forward**, and never past the newest value. -/
theorem Access.view_le {sc : Prop} {m m' : Memory X A} {vw vw' : View X} {instr : Instr X A L} {l : L}
    (h : Access sc m vw instr m' vw' l) (x : X) (hx : vw x ≤ (m.word x).top) :
    vw x ≤ vw' x ∧ vw' x ≤ (m'.word x).top := by
  have hstore : ∀ y v, vw x ≤ Function.update vw y ((m.word y).top + 1) x ∧
      Function.update vw y ((m.word y).top + 1) x ≤ ((m.store y v).word x).top := by
    intro y v
    by_cases hxy : x = y
    · subst hxy
      rw [Function.update_self, Memory.store_word_self, Cell.store_top]
      exact ⟨by omega, le_rfl⟩
    · rw [Function.update_of_ne hxy, Memory.store_word_ne _ hxy]
      exact ⟨le_rfl, hx⟩
  cases h with
  | @load y k i v hs =>
      by_cases hxy : x = y
      · subst hxy
        rw [Function.update_self]
        exact ⟨hs.1, Cell.le_top_of_getElem? hs.2.1⟩
      · rw [Function.update_of_ne hxy]
        exact ⟨le_rfl, hx⟩
  | store => exact hstore _ _
  | modify => exact hstore _ _
  | won _ => exact hstore _ _
  | lost | get | put => exact ⟨le_rfl, hx⟩

/-- The modification orders only grow. -/
theorem Access.top_le {sc : Prop} {m m' : Memory X A} {vw vw' : View X} {instr : Instr X A L} {l : L}
    (h : Access sc m vw instr m' vw' l) (x : X) : (m.word x).top ≤ (m'.word x).top := by
  have hstore : ∀ y v, (m.word x).top ≤ ((m.store y v).word x).top := by
    intro y v
    by_cases hxy : x = y
    · subst hxy
      rw [Memory.store_word_self, Cell.store_top]
      exact Nat.le_succ _
    · rw [Memory.store_word_ne _ hxy]
  cases h with
  | store | modify | won _ => exact hstore _ _
  | load _ | lost | get | put => exact le_rfl

section Sees

omit [DecidableEq X]

variable {sc : Prop} {m : Memory X A} {vw : View X} {x : X} {i v n : ℕ}

theorem Sees.const (h : Sees sc m vw x i v) (hx : m.word x = .const n) : v = n :=
  Cell.getElem?_const (hx ▸ h.2.1)

theorem Sees.counter (h : Sees sc m vw x i v) (hx : m.word x = .counter n) :
    v = i ∧ vw x ≤ v ∧ v ≤ n := by
  obtain ⟨rfl, hle⟩ := Cell.getElem?_counter (hx ▸ h.2.1)
  exact ⟨rfl, h.1, hle⟩

/-- **Sequential consistency**: a load returns the newest value. -/
theorem Sees.now (h : Sees sc m vw x i v) (hsc : sc) : v = m.now x := by
  have hv := h.2.1
  rw [h.2.2 hsc, Cell.vals_top] at hv
  exact (Option.some.inj hv).symm

end Sees

/-! ## Sequential consistency -/

/-- An access under sequential consistency; what the thread saw before plays no part. -/
def Direct (m : Memory X A) (instr : Instr X A L) (m' : Memory X A) (l : L) : Prop :=
  ∃ vw', Access True m (fun _ => 0) instr m' vw' l

/-- What an access does; a compare-exchange that meets the expected value succeeds. -/
def Instr.exec (m : Memory X A) : Instr X A L → Option (Memory X A × L)
  | .load x k => some (m, k (m.now x))
  | .store x v l => some (m.store x v, l)
  | .modify x f l => some (m.store x (f (m.now x)), l)
  | .exchange x old new won lost => some (if m.now x = old then (m.store x new, won) else (m, lost))
  | .get j k => some (m, k (m.data j))
  | .put j a l => some (m.put j a, l)
  | .halt => none

variable {m m' : Memory X A} {instr : Instr X A L} {l : L}

/-- What a thread with view `vw` has seen once it has made the access `exec` describes. -/
def Instr.seen (m : Memory X A) (vw : View X) : Instr X A L → View X
  | .load x _ => Function.update vw x (m.word x).top
  | .store x _ _ | .modify x _ _ => Function.update vw x ((m.word x).top + 1)
  | .exchange x old _ _ _ => if m.now x = old then Function.update vw x ((m.word x).top + 1) else vw
  | .get _ _ | .put _ _ _ | .halt => vw

/-- Every access `exec` describes can be made by a thread that has not seen the future. -/
theorem access_of_exec {sc : Prop} {vw : View X} (h : instr.exec m = some (m', l))
    (hvw : ∀ x, vw x ≤ (m.word x).top) : Access sc m vw instr m' (instr.seen m vw) l := by
  cases instr with
  | load x k =>
      cases h
      exact .load ⟨hvw x, Cell.vals_top _, fun _ => rfl⟩
  | store x v l => cases h; exact .store
  | modify x f l => cases h; exact .modify
  | exchange x old new won lost =>
      simp only [Instr.exec] at h
      simp only [Instr.seen]
      split_ifs at h ⊢ with heq
      · cases h
        exact .won heq
      · cases h
        exact .lost
  | get j k => cases h; exact .get
  | put j a l => cases h; exact .put
  | halt => cases h

theorem direct_of_exec (h : instr.exec m = some (m', l)) : Direct m instr m' l :=
  ⟨_, access_of_exec h fun _ => Nat.zero_le _⟩

/-- **An access does what `exec` says**, or is a compare-exchange that fails spuriously. -/
theorem Direct.cases (h : Direct m instr m' l) : instr.exec m = some (m', l) ∨
    ∃ x old new won, instr = .exchange x old new won l ∧ m' = m := by
  obtain ⟨vw, h⟩ := h
  cases h with
  | load hs => exact .inl (by rw [Instr.exec, hs.now trivial])
  | store => exact .inl rfl
  | modify => exact .inl rfl
  | won heq => exact .inl (congrArg some (if_pos heq))
  | lost => exact .inr ⟨_, _, _, _, rfl, rfl⟩
  | get => exact .inl rfl
  | put => exact .inl rfl

/-! ## A thread alone -/

/-- The accesses of a thread that is not interfered with, by `code`. -/
inductive Solo (code : L → Instr X A L) : Memory X A → L → Memory X A → L → Prop
  | refl {m₁ : Memory X A} {l₁ : L} : Solo code m₁ l₁ m₁ l₁
  | step {m₁ m₂ m₃ : Memory X A} {l₁ l₂ l₃ : L} : (code l₁).exec m₁ = some (m₂, l₂) →
      Solo code m₂ l₂ m₃ l₃ → Solo code m₁ l₁ m₃ l₃

theorem Solo.trans {code : L → Instr X A L} {m₁ m₂ m₃ : Memory X A} {l₁ l₂ l₃ : L}
    (h : Solo code m₁ l₁ m₂ l₂) (h' : Solo code m₂ l₂ m₃ l₃) : Solo code m₁ l₁ m₃ l₃ := by
  induction h with
  | refl => exact h'
  | step hexec _ ih => exact .step hexec (ih h')

end Coherent
