import Mathlib.Data.Nat.Notation
import Mathlib.Data.Nat.Bitwise
import Mathlib.Tactic.TypeStar

/-!
# Machine words and calls that do not return `Ok`

`u64` and `usize` words are natural numbers with explicit arithmetic modulo `2 ^ 64`. An unguarded
`+`, `-` or `*` of the source wraps in a release build and panics in a build with overflow checks
(`Profile`); the `wrapping_` operations and the atomic `fetch_add`, `fetch_sub` always wrap.

* `wrappingAdd`, `wrappingSub`, `Profile.add`, `Profile.sub`, `Profile.mul`;
* `isPowerOfTwo`; `slotOf`, `slotOf_eq_mod`: the masked index of a slot;
* `ShmRingError`, `Panic`, `Fault`; `ensure`, `bind_eq_ok`.
-/

set_option autoImplicit false

namespace ShmRings

/-- The number of values of a `u64`. -/
abbrev u64Size : ℕ := 2 ^ 64

/-- `u64::MAX`. -/
abbrev u64Max : ℕ := u64Size - 1

/-- Addition modulo `2 ^ 64`. -/
def wrappingAdd (a b : ℕ) : ℕ := (a + b) % u64Size

/-- Subtraction modulo `2 ^ 64`, for operands below it. -/
def wrappingSub (a b : ℕ) : ℕ := (a + u64Size - b) % u64Size

theorem wrappingAdd_eq {a b : ℕ} (h : a + b < u64Size) : wrappingAdd a b = a + b :=
  Nat.mod_eq_of_lt h

theorem wrappingAdd_lt (a b : ℕ) : wrappingAdd a b < u64Size := Nat.mod_lt _ (by decide)

theorem wrappingSub_eq {a b : ℕ} (hb : b ≤ a) (ha : a < u64Size) : wrappingSub a b = a - b := by
  have h : a + u64Size - b = a - b + u64Size := by omega
  rw [wrappingSub, h, Nat.add_mod_right, Nat.mod_eq_of_lt (by omega)]

theorem wrappingAdd_mod (n : ℕ) : wrappingAdd (n % u64Size) 1 = (n + 1) % u64Size := by
  unfold wrappingAdd
  rw [Nat.mod_add_mod]

theorem wrappingSub_mod {n : ℕ} (h : 0 < n) : wrappingSub (n % u64Size) 1 = (n - 1) % u64Size := by
  change (n % 2 ^ 64 + 2 ^ 64 - 1) % 2 ^ 64 = (n - 1) % 2 ^ 64
  omega

theorem wrappingSub_wrappingAdd {a : ℕ} (h : a < u64Size) :
    wrappingSub (wrappingAdd a 1) 1 = a := by
  change ((a + 1) % 2 ^ 64 + 2 ^ 64 - 1) % 2 ^ 64 = a
  have h' : a < 2 ^ 64 := h
  omega

/-- `n` is a power of two below `2 ^ 64`; `0` is not. -/
def isPowerOfTwo (n : ℕ) : Bool := (List.range 64).any fun k => n == 2 ^ k

theorem isPowerOfTwo_iff {n : ℕ} : isPowerOfTwo n = true ↔ ∃ k < 64, n = 2 ^ k := by
  simp [isPowerOfTwo]

/-- The slot of stream index `idx`: `idx & (capacity - 1)`. -/
def slotOf (capacity idx : ℕ) : ℕ := idx &&& (capacity - 1)

/-- **Masking is reduction modulo the capacity.** -/
theorem slotOf_eq_mod (k idx : ℕ) : slotOf (2 ^ k) idx = idx % 2 ^ k :=
  Nat.and_two_pow_sub_one_eq_mod idx k

/-- The errors of the crate. -/
inductive ShmRingError
  | invalidCapacity (got : ℕ)
  | alreadyExists
  | fileTooShort (expected got : ℕ)
  | headerCorruption (field : String) (expected got : ℕ)
  | versionMismatch (expected got : ℕ)
  | io
  | invalidReaderId (id max : ℕ)
  | loanOutstanding (readerId : ℕ)
  | loanNotAtCursor (index cursor : ℕ)
  deriving DecidableEq, Repr

/-- What stops a call that does not return. -/
inductive Panic
  /-- An unguarded `+` or `-` overflowed. -/
  | overflow
  /-- An array or slice index was out of range. -/
  | outOfRange
  /-- An `assert!` failed. -/
  | assertion
  deriving DecidableEq, Repr

/-- A call that does not return `Ok`. -/
inductive Fault
  | err (e : ShmRingError)
  | panic (p : Panic)
  deriving DecidableEq, Repr

@[simp] theorem ok_bind {β γ : Type} (b : β) (k : β → Except Fault γ) :
    (Except.ok b >>= k) = k b := rfl

@[simp] theorem error_bind {β γ : Type} (e : Fault) (k : β → Except Fault γ) :
    (Except.error e >>= k) = Except.error e := rfl

/-- An `assert!`, or an early return of an error. -/
def ensure (c : Prop) [Decidable c] (e : Fault) : Except Fault Unit := if c then .ok () else .error e

theorem bind_eq_ok {β γ : Type} {x : Except Fault β} {k : β → Except Fault γ} {c : γ} :
    (x >>= k) = .ok c ↔ ∃ b, x = .ok b ∧ k b = .ok c := by
  cases x with
  | error e => exact ⟨nofun, fun ⟨_, h, _⟩ => by cases h⟩
  | ok b => exact ⟨fun h => ⟨b, rfl, h⟩, fun ⟨_, h, h'⟩ => by cases h; exact h'⟩

theorem ensure_pos {c : Prop} [Decidable c] {e : Fault} (h : c) : ensure c e = .ok () := if_pos h

theorem ensure_neg {c : Prop} [Decidable c] {e : Fault} (h : ¬ c) : ensure c e = .error e := if_neg h

theorem ensure_eq_ok {c : Prop} [Decidable c] {e : Fault} {u : Unit} : ensure c e = .ok u ↔ c := by
  unfold ensure
  split_ifs with h
  · exact ⟨fun _ => h, fun _ => rfl⟩
  · exact ⟨nofun, fun hc => absurd hc h⟩

/-- How the crate was built. -/
structure Profile where
  overflowChecks : Bool

/-- An overflow panics. -/
def checked : Profile := ⟨true⟩

/-- An overflow wraps. -/
def release : Profile := ⟨false⟩

namespace Profile

/-- An unguarded `a + b`. -/
def add (p : Profile) (a b : ℕ) : Except Fault ℕ :=
  if a + b < u64Size then .ok (a + b)
  else if p.overflowChecks then .error (.panic .overflow) else .ok (wrappingAdd a b)

/-- An unguarded `a - b`. -/
def sub (p : Profile) (a b : ℕ) : Except Fault ℕ :=
  if b ≤ a then .ok (a - b)
  else if p.overflowChecks then .error (.panic .overflow) else .ok (wrappingSub a b)

/-- An unguarded `a * b`. -/
def mul (p : Profile) (a b : ℕ) : Except Fault ℕ :=
  if a * b < u64Size then .ok (a * b)
  else if p.overflowChecks then .error (.panic .overflow) else .ok (a * b % u64Size)

variable (p : Profile) {a b : ℕ}

theorem add_eq (h : a + b < u64Size) : p.add a b = .ok (a + b) := if_pos h

theorem sub_eq (h : b ≤ a) : p.sub a b = .ok (a - b) := if_pos h

/-- An addition that does not panic is exact or wraps. -/
theorem add_ok {c : ℕ} (h : p.add a b = .ok c) : c = wrappingAdd a b := by
  unfold add at h
  split_ifs at h with hlt
  · cases h
    exact (wrappingAdd_eq hlt).symm
  · cases h
    rfl

/-- A release build wraps. -/
theorem add_wraps (hp : p.overflowChecks = false) (a b : ℕ) : ∃ c, p.add a b = .ok c := by
  unfold add
  by_cases h : a + b < u64Size
  · exact ⟨_, if_pos h⟩
  · exact ⟨wrappingAdd a b, by rw [if_neg h, hp]; rfl⟩

theorem mul_wraps (hp : p.overflowChecks = false) (a b : ℕ) : ∃ c, p.mul a b = .ok c := by
  unfold mul
  by_cases h : a * b < u64Size
  · exact ⟨_, if_pos h⟩
  · exact ⟨a * b % u64Size, by rw [if_neg h, hp]; rfl⟩

theorem mul_eq (h : a * b < u64Size) : p.mul a b = .ok (a * b) := if_pos h

end Profile

end ShmRings
