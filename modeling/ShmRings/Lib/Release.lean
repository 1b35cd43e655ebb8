import Mathlib.Order.BoundedOrder.Lattice
import ShmRings.Lib.Coherent

/-!
# Release and acquire

Coherent memory whose values carry what the thread that stored them knew. An acquire load takes over
what its value carries, a release store puts into its value what its thread knows, and a
read-modify-write hands on what it found. Payload cells are not atomic: a read of a cell races with a
write it does not know of, and a write with any access it does not know of.

* `Mark`, `Knowledge`; `Strength`; `Tracked`, `Tracked.all`: memory, and all there is to know of it;
* **`Ordered`**: one access with its memory order; `Races`, `Blind`: what an access must not be;
* **`Ordered.known`**: a thread forgets nothing and knows nothing that has not happened;
* **`Ordered.access`**: an access of coherent memory, by a thread that has seen no more;
* `serve`, `ordered_of_serve`: accesses that are computed.
-/

set_option autoImplicit false

namespace Release

open Coherent

/-- What a thread may know of: the values of a word, the reads of cell `j` by `p`, and the writes to cell
`j`. -/
inductive Mark (X P : Type*)
  | word (x : X)
  | read (p : P) (j : ℕ)
  | wrote (j : ℕ)
  deriving DecidableEq

/-- How many of each, counted from the first. -/
abbrev Knowledge (X P : Type*) := Mark X P → ℕ

/-- The memory order of an access. -/
inductive Strength
  | relaxed
  | acquire
  | release
  deriving DecidableEq

variable {X P A L : Type*}

/-- What an access takes over from a value that carries `k`. -/
def Strength.takes (o : Strength) (k : Knowledge X P) : Knowledge X P := if o = .acquire then k else ⊥

/-- What an access of a thread that knows `k` puts into its value. -/
def Strength.gives (o : Strength) (k : Knowledge X P) : Knowledge X P := if o = .release then k else ⊥

theorem Strength.takes_le (o : Strength) (k : Knowledge X P) : o.takes k ≤ k := by
  unfold Strength.takes
  split_ifs
  · exact le_rfl
  · exact bot_le

theorem Strength.gives_le (o : Strength) (k : Knowledge X P) : o.gives k ≤ k := by
  unfold Strength.gives
  split_ifs
  · exact le_rfl
  · exact bot_le

@[simp] theorem Strength.takes_acquire (k : Knowledge X P) : Strength.acquire.takes k = k := rfl
@[simp] theorem Strength.gives_release (k : Knowledge X P) : Strength.release.gives k = k := rfl

/-- Memory, what each value carries, and how many reads and writes of each cell there were. -/
structure Tracked (X P A : Type*) extends Memory X A where
  carried : X → ℕ → Knowledge X P
  reads : P → ℕ → ℕ
  writes : ℕ → ℕ

/-- The view part of what a thread knows. -/
def Knowledge.view (k : Knowledge X P) : View X := fun x => k (.word x)

namespace Tracked

/-- All there is to know. -/
def all (m : Tracked X P A) : Knowledge X P
  | .word x => (m.word x).top
  | .read p j => m.reads p j
  | .wrote j => m.writes j

/-- No value carries anything that has not happened. -/
def Sound (m : Tracked X P A) : Prop := ∀ x i, m.carried x i ≤ m.all

/-- A write to a payload cell. -/
def put (m : Tracked X P A) (j : ℕ) (a : A) : Tracked X P A :=
  { m with toMemory := m.toMemory.put j a, writes := Function.update m.writes j (m.writes j + 1) }

variable [DecidableEq X] [DecidableEq P]

omit [DecidableEq P] in
/-- A store of `v` to `x` that carries `k`. -/
def store (m : Tracked X P A) (x : X) (v : ℕ) (k : Knowledge X P) : Tracked X P A :=
  { m with
    toMemory := m.toMemory.store x v
    carried := Function.update m.carried x (Function.update (m.carried x) ((m.word x).top + 1) k) }

omit [DecidableEq X] in
/-- A read of a payload cell by `p`. -/
def get (m : Tracked X P A) (p : P) (j : ℕ) : Tracked X P A :=
  { m with reads := Function.update m.reads p (Function.update (m.reads p) j (m.reads p j + 1)) }

omit [DecidableEq P] in
theorem carried_store_ne (m : Tracked X P A) {x y : X} (h : y ≠ x) (v : ℕ) (k : Knowledge X P) :
    (m.store x v k).carried y = m.carried y := by simp [store, h]

omit [DecidableEq P] in
/-- A store leaves the other words alone. -/
theorem store_ne (m : Tracked X P A) {x y : X} (h : y ≠ x) (v : ℕ) (k : Knowledge X P) :
    (m.store x v k).word y = m.word y ∧ (m.store x v k).carried y = m.carried y :=
  ⟨Memory.store_word_ne _ h v, carried_store_ne m h v k⟩

omit [DecidableEq P] in
theorem carried_store_top (m : Tracked X P A) (x : X) (v : ℕ) (k : Knowledge X P) :
    (m.store x v k).carried x ((m.word x).top + 1) = k := by simp [store]

omit [DecidableEq P] in
theorem carried_store_of_le (m : Tracked X P A) (x y : X) (v : ℕ) (k : Knowledge X P) {i : ℕ}
    (hi : i ≤ (m.word y).top) : (m.store x v k).carried y i = m.carried y i := by
  by_cases hy : y = x
  · subst hy
    have hne : i ≠ (m.word y).top + 1 := by omega
    simp [store, hne]
  · simp [store, hy]

omit [DecidableEq X] [DecidableEq P] in
@[simp] theorem put_writes_self (m : Tracked X P A) (j : ℕ) (a : A) :
    (m.put j a).writes j = m.writes j + 1 := by simp [put]

omit [DecidableEq X] [DecidableEq P] in
theorem put_writes_ne (m : Tracked X P A) {i j : ℕ} (h : i ≠ j) (a : A) :
    (m.put j a).writes i = m.writes i := by simp [put, h]

omit [DecidableEq X] in
@[simp] theorem get_reads_self (m : Tracked X P A) (p : P) (j : ℕ) :
    (m.get p j).reads p j = m.reads p j + 1 := by simp [get]

omit [DecidableEq X] in
theorem get_reads_ne (m : Tracked X P A) {p q : P} {i j : ℕ} (h : q ≠ p ∨ i ≠ j) :
    (m.get p j).reads q i = m.reads q i := by
  by_cases hq : q = p
  · subst hq
    simp [get, h.resolve_left (not_not.mpr rfl)]
  · simp [get, hq]

end Tracked

variable [DecidableEq X] [DecidableEq P]

/-- The thread has seen position `i` of `x`. -/
def Knowledge.see (k : Knowledge X P) (x : X) (i : ℕ) : Knowledge X P :=
  Function.update k (.word x) i

/-- What a thread knows after a read-modify-write of `x`. -/
def Tracked.learn (m : Tracked X P A) (o : Strength) (k : Knowledge X P) (x : X) : Knowledge X P :=
  k.see x ((m.word x).top + 1) ⊔ o.takes (m.carried x (m.word x).top)

/-- A read-modify-write that stores `v`; its value hands on what it found. -/
def Tracked.modify (m : Tracked X P A) (o : Strength) (k : Knowledge X P) (x : X) (v : ℕ) :
    Tracked X P A :=
  m.store x v (o.gives (m.learn o k x) ⊔ m.carried x (m.word x).top)

/-- **One access** of thread `p`, which knows `k`. A compare-exchange that fails is a relaxed load. -/
inductive Ordered (m : Tracked X P A) (k : Knowledge X P) (p : P) (o : Strength) :
    Instr X A L → Tracked X P A → Knowledge X P → L → Prop
  | load {x f i v} : Sees False m.toMemory k.view x i v →
      Ordered m k p o (.load x f) m (k.see x i ⊔ o.takes (m.carried x i)) (f v)
  | store {x v l} : Ordered m k p o (.store x v l)
      (m.store x v (o.gives (k.see x ((m.word x).top + 1)))) (k.see x ((m.word x).top + 1)) l
  | modify {x f l} : Ordered m k p o (.modify x f l) (m.modify o k x (f (m.now x))) (m.learn o k x) l
  | won {x old new w l} : m.now x = old →
      Ordered m k p o (.exchange x old new w l) (m.modify o k x new) (m.learn o k x) w
  | lost {x old new w l i v} : Sees False m.toMemory k.view x i v →
      Ordered m k p o (.exchange x old new w l) m (k.see x i) l
  | get {j f} : Ordered m k p o (.get j f) (m.get p j)
      (Function.update k (.read p j) (m.reads p j + 1)) (f (m.data j))
  | put {j a l} : Ordered m k p o (.put j a l) (m.put j a)
      (Function.update k (.wrote j) (m.writes j + 1)) l

/-- The access is not ordered after an earlier access of its cell, one of which is a write. -/
def Races (m : Tracked X P A) (k : Knowledge X P) : Instr X A L → Prop
  | .get j _ => k (.wrote j) ≠ m.writes j
  | .put j _ _ => k (.wrote j) ≠ m.writes j ∨ ∃ q, k (.read q j) ≠ m.reads q j
  | _ => False

/-- A store by a thread that has not seen the newest value of its word. -/
def Blind (m : Tracked X P A) (k : Knowledge X P) : Instr X A L → Prop
  | .store x _ _ => k (.word x) ≠ (m.word x).top
  | _ => False

variable {m m' : Tracked X P A} {k k' : Knowledge X P} {p : P} {o : Strength} {instr : Instr X A L} {l : L}

/-! ## What the threads know -/

omit [DecidableEq P] in
theorem Tracked.all_le_store (x : X) (v : ℕ) (k : Knowledge X P) : m.all ≤ (m.store x v k).all := by
  rintro (y | ⟨q, j⟩ | j)
  · by_cases hy : y = x
    · subst hy
      simp [Tracked.all, Tracked.store]
    · simp [Tracked.all, Tracked.store, Memory.store_word_ne _ hy]
  · exact le_rfl
  · exact le_rfl

omit [DecidableEq X] in
theorem Tracked.all_le_get (p : P) (j : ℕ) : m.all ≤ (m.get p j).all := by
  rintro (y | ⟨q, i⟩ | i)
  · exact le_rfl
  · change m.reads q i ≤ (m.get p j).reads q i
    by_cases h : q = p ∧ i = j
    · obtain ⟨rfl, rfl⟩ := h
      rw [Tracked.get_reads_self]
      exact Nat.le_succ _
    · rw [Tracked.get_reads_ne m (not_and_or.mp h)]
  · exact le_rfl

omit [DecidableEq X] [DecidableEq P] in
theorem Tracked.all_le_put (j : ℕ) (a : A) : m.all ≤ (m.put j a).all := by
  rintro (y | ⟨q, i⟩ | i)
  · exact le_rfl
  · exact le_rfl
  · change m.writes i ≤ (m.put j a).writes i
    by_cases hi : i = j
    · subst hi
      rw [Tracked.put_writes_self]
      exact Nat.le_succ _
    · rw [Tracked.put_writes_ne m hi]

/-- What has happened stays so. -/
theorem Ordered.all_le (h : Ordered m k p o instr m' k' l) : m.all ≤ m'.all := by
  cases h with
  | load _ | lost _ => exact le_rfl
  | store | modify | won _ => exact Tracked.all_le_store _ _ _
  | get => exact Tracked.all_le_get _ _
  | put => exact Tracked.all_le_put _ _

theorem Knowledge.see_le {n : Knowledge X P} {x : X} {i : ℕ} (hk : k ≤ n) (hi : i ≤ n (.word x)) :
    k.see x i ≤ n :=
  update_le_iff.mpr ⟨hi, fun y _ => hk y⟩

theorem Knowledge.le_see {x : X} {i : ℕ} (hi : k (.word x) ≤ i) : k ≤ k.see x i :=
  le_update_iff.mpr ⟨hi, fun _ _ => le_rfl⟩

omit [DecidableEq P] in
/-- A store of what is known to have happened once it is made. -/
theorem Tracked.Sound.store (hm : m.Sound) {x : X} {v : ℕ} (hk : k ≤ (m.store x v k).all) :
    (m.store x v k).Sound := by
  intro y i
  have hold : m.carried y i ≤ (m.store x v k).all := (hm y i).trans (Tracked.all_le_store x v k)
  by_cases hy : y = x
  · subst hy
    by_cases hi : i = (m.word y).top + 1
    · subst hi
      rw [Tracked.carried_store_top]
      exact hk
    · simpa [Tracked.store, hi] using hold
  · simpa [Tracked.store, hy] using hold

/-- **A thread forgets nothing, and knows nothing that has not happened.** -/
theorem Ordered.known (h : Ordered m k p o instr m' k' l) (hm : m.Sound) (hk : k ≤ m.all) :
    m'.Sound ∧ k ≤ k' ∧ k' ≤ m'.all := by
  have hsee : ∀ x v k₀, k.see x ((m.word x).top + 1) ≤ (m.store x v k₀).all := fun x v k₀ =>
    Knowledge.see_le (hk.trans (Tracked.all_le_store x v k₀)) (by simp [Tracked.all, Tracked.store])
  have hrise : ∀ x, k ≤ k.see x ((m.word x).top + 1) := fun x =>
    Knowledge.le_see ((hk (.word x)).trans (Nat.le_succ _))
  have hmodify : ∀ x v, (m.modify o k x v).Sound ∧ k ≤ m.learn o k x ∧
      m.learn o k x ≤ (m.modify o k x v).all := by
    intro x v
    have hfound : ∀ k₀, m.carried x (m.word x).top ≤ (m.store x v k₀).all := fun k₀ =>
      (hm x _).trans (Tracked.all_le_store x v k₀)
    have hlearn : ∀ k₀, m.learn o k x ≤ (m.store x v k₀).all := fun k₀ =>
      sup_le (hsee x v k₀) ((o.takes_le _).trans (hfound k₀))
    exact ⟨hm.store (sup_le ((o.gives_le _).trans (hlearn _)) (hfound _)), (hrise x).trans le_sup_left,
      hlearn _⟩
  cases h with
  | @load x f i v hs =>
      have hi : i ≤ (m.word x).top := Cell.le_top_of_getElem? hs.2.1
      exact ⟨hm, (Knowledge.le_see hs.1).trans le_sup_left,
        sup_le (Knowledge.see_le hk hi) ((o.takes_le _).trans (hm x i))⟩
  | store => exact ⟨hm.store ((o.gives_le _).trans (hsee _ _ _)), hrise _, hsee _ _ _⟩
  | modify => exact hmodify _ _
  | won _ => exact hmodify _ _
  | @lost x old new w l i v hs =>
      exact ⟨hm, Knowledge.le_see hs.1, Knowledge.see_le hk (Cell.le_top_of_getElem? hs.2.1)⟩
  | @get j f =>
      refine ⟨fun x i => (hm x i).trans (Tracked.all_le_get p j), ?_, ?_⟩
      · exact le_update_iff.mpr ⟨(hk (.read p j)).trans (Nat.le_succ _), fun _ _ => le_rfl⟩
      · refine update_le_iff.mpr ⟨?_, fun y _ => (hk y).trans (Tracked.all_le_get p j y)⟩
        simp [Tracked.all, Tracked.get]
  | @put j a l =>
      refine ⟨fun x i => (hm x i).trans (Tracked.all_le_put j a), ?_, ?_⟩
      · exact le_update_iff.mpr ⟨(hk (.wrote j)).trans (Nat.le_succ _), fun _ _ => le_rfl⟩
      · refine update_le_iff.mpr ⟨?_, fun y _ => (hk y).trans (Tracked.all_le_put j a y)⟩
        simp [Tracked.all, Tracked.put]

/-! ## Coherence -/

theorem Knowledge.view_le_see {vw : View X} {x : X} {i : ℕ} (hvw : vw ≤ k.view) :
    Function.update vw x i ≤ (k.see x i).view := by
  intro y
  by_cases hy : y = x
  · subst hy
    simp [Knowledge.view, Knowledge.see]
  · simpa [Knowledge.view, Knowledge.see, hy] using hvw y

/-- **An access of coherent memory**, by a thread that has seen no more. -/
theorem Ordered.access (h : Ordered m k p o instr m' k' l) {vw : View X} (hvw : vw ≤ k.view) :
    ∃ vw', Access False m.toMemory vw instr m'.toMemory vw' l ∧ vw' ≤ k'.view := by
  have hsup : ∀ {k₁ k₂ : Knowledge X P} {vw₁ : View X}, vw₁ ≤ k₁.view → vw₁ ≤ (k₁ ⊔ k₂).view :=
    fun {k₁ k₂ _} h₁ y => (h₁ y).trans (le_sup_left (a := k₁) (b := k₂) (.word y))
  cases h with
  | @load x f i v hs => exact ⟨_, .load ⟨(hvw x).trans hs.1, hs.2.1, False.elim⟩,
      hsup (Knowledge.view_le_see hvw)⟩
  | store => exact ⟨_, .store, Knowledge.view_le_see hvw⟩
  | modify => exact ⟨_, .modify, hsup (Knowledge.view_le_see hvw)⟩
  | won heq => exact ⟨_, .won heq, hsup (Knowledge.view_le_see hvw)⟩
  | @lost x old new w l i v hs =>
      exact ⟨vw, .lost, fun y => (hvw y).trans (Knowledge.le_see hs.1 (.word y))⟩
  | get => exact ⟨vw, .get, fun y => (hvw y).trans (by simp [Knowledge.view])⟩
  | put => exact ⟨vw, .put, fun y => (hvw y).trans (by simp [Knowledge.view])⟩

/-! ## Accesses that are computed -/

/-- The access, with loads of the newest value; a compare-exchange that meets the expected value succeeds. -/
def serve (m : Tracked X P A) (k : Knowledge X P) (p : P) (o : Strength) :
    Instr X A L → Option (Tracked X P A × Knowledge X P × L)
  | .load x f =>
      if k (.word x) ≤ (m.word x).top then
        some (m, k.see x (m.word x).top ⊔ o.takes (m.carried x (m.word x).top), f (m.now x))
      else none
  | .store x v l =>
      some (m.store x v (o.gives (k.see x ((m.word x).top + 1))), k.see x ((m.word x).top + 1), l)
  | .modify x f l => some (m.modify o k x (f (m.now x)), m.learn o k x, l)
  | .exchange x old new won _ => if m.now x = old then some (m.modify o k x new, m.learn o k x, won) else none
  | .get j f => some (m.get p j, Function.update k (.read p j) (m.reads p j + 1), f (m.data j))
  | .put j a l => some (m.put j a, Function.update k (.wrote j) (m.writes j + 1), l)
  | .halt => none

theorem ordered_of_serve (h : serve m k p o instr = some (m', k', l)) : Ordered m k p o instr m' k' l := by
  cases instr with
  | load x f =>
      simp only [serve] at h
      split_ifs at h with hle
      cases h
      exact .load ⟨hle, Cell.vals_top _, False.elim⟩
  | store x v l => cases h; exact .store
  | modify x f l => cases h; exact .modify
  | exchange x old new won lost =>
      simp only [serve] at h
      split_ifs at h with heq
      cases h
      exact .won heq
  | get j f => cases h; exact .get
  | put j a l => cases h; exact .put
  | halt => cases h

end Release
