import Mathlib.Logic.Function.Basic
import ShmRings.Model.Word

/-!
# The ring header

The shared control block at the start of a ring file, and the code that reads it.

* `RingHeader`, `RingHeader.new`, `RingHeader.validate`;
* `RingHeader.readIdx`, `RingHeader.setReadIdx`: one reader's cursor, bounds-checked;
* `RingHeader.slowestReadIdx`: the minimum over the participating cursors;
  `slowest_le`, `le_slowest`;
* `Config`: the capacity and the reader count of a ring.
-/

set_option autoImplicit false

namespace ShmRings

/-- `MAGIC`: `"RINGSPMC"` as big-endian ASCII. -/
def magic : ℕ := 0x52494E4753504D43

/-- `VERSION`. -/
def version : ℕ := 1

/-- `MAX_READERS`. -/
def maxReaders : ℕ := 8

/-- `HEADER_SIZE`, which is also the offset of the slots. -/
def headerSize : ℕ := 256

/-- The words of the header; the `MAX_READERS` cursors are `readIndices i` for `i < maxReaders`. -/
structure RingHeader where
  magic : ℕ
  version : ℕ
  numReaders : ℕ
  writeIdx : ℕ
  readIndices : ℕ → ℕ
  capacityMask : ℕ
  totalWritten : ℕ

namespace RingHeader

/-- The header of a fresh ring. -/
def new (capacityMask numReaders : ℕ) : Except Fault RingHeader :=
  if 1 ≤ numReaders ∧ numReaders ≤ maxReaders then
    .ok {
      magic := ShmRings.magic
      version := ShmRings.version
      numReaders := numReaders
      writeIdx := 0
      readIndices := fun _ => 0
      capacityMask := capacityMask
      totalWritten := 0 }
  else .error (.panic .assertion)

variable (p : Profile) (h : RingHeader)

/-- Magic, version and the structure of the mask, in this order. -/
def validate : Except Fault Unit := do
  ensure (h.magic = ShmRings.magic) (.err (.headerCorruption "magic" ShmRings.magic h.magic))
  ensure (h.version = ShmRings.version) (.err (.versionMismatch ShmRings.version h.version))
  let mask := h.capacityMask
  ensure (mask ≠ 0) (.err (.headerCorruption "capacity_mask" 0 mask))
  let capacity ← p.add mask 1
  ensure (isPowerOfTwo capacity) (.err (.headerCorruption "capacity_mask" 0 mask))

/-- Reader `i`'s consumed counter; an array access, so it panics from `MAX_READERS` on. -/
def readIdx (i : ℕ) : Except Fault ℕ :=
  if i < maxReaders then .ok (h.readIndices i) else .error (.panic .outOfRange)

/-- Reader `i`'s counter moved to `v`. -/
def setReadIdx (i v : ℕ) : Except Fault RingHeader :=
  if i < maxReaders then .ok { h with readIndices := Function.update h.readIndices i v }
  else .error (.panic .outOfRange)

end RingHeader

/-- The fold of `slowest_read_idx`: the minimum of the first `n` cursors, from `u64::MAX`. -/
def slowest (cursors : ℕ → ℕ) (n : ℕ) : ℕ := ((List.range n).map cursors).foldl min u64Max

/-- The minimum over the participating cursors; `[..num_readers]` panics beyond the array. -/
def RingHeader.slowestReadIdx (h : RingHeader) (numReaders : ℕ) : Except Fault ℕ :=
  if numReaders ≤ maxReaders then .ok (slowest h.readIndices numReaders)
  else .error (.panic .outOfRange)

/-! ## What a ring was created with -/

/-- The capacity, a power of two, and the reader count `create_new_with_readers` accepts. -/
structure Config where
  logCap : ℕ
  readers : ℕ
  logCap_lt : logCap < 64
  readers_pos : 0 < readers
  readers_le : readers ≤ maxReaders

namespace Config

variable (cfg : Config)

def capacity : ℕ := 2 ^ cfg.logCap

theorem capacity_pos : 0 < cfg.capacity := Nat.two_pow_pos _

/-- The slot of stream index `idx`. -/
def slot (idx : ℕ) : ℕ := slotOf cfg.capacity idx

theorem slot_eq_mod (idx : ℕ) : cfg.slot idx = idx % cfg.capacity := slotOf_eq_mod _ idx

theorem one_lt : 1 < 64 := by decide

theorem one_le : 1 ≤ maxReaders := by decide

end Config

/-- Two slots and one reader. -/
def twoSlots : Config := ⟨1, 1, Config.one_lt, Nat.one_pos, Config.one_le⟩

/-! ## The slowest cursor -/

theorem slowest_succ (cursors : ℕ → ℕ) (n : ℕ) :
    slowest cursors (n + 1) = min (slowest cursors n) (cursors n) := by
  simp [slowest, List.range_succ]

theorem slowest_le {cursors : ℕ → ℕ} {n r : ℕ} (hr : r < n) : slowest cursors n ≤ cursors r := by
  induction n with
  | zero => omega
  | succ n ih =>
      rw [slowest_succ]
      rcases Nat.lt_succ_iff_lt_or_eq.mp hr with hlt | rfl
      · exact (Nat.min_le_left _ _).trans (ih hlt)
      · exact Nat.min_le_right _ _

theorem le_slowest {cursors : ℕ → ℕ} {n m : ℕ} (hm : m ≤ u64Max) (h : ∀ r < n, m ≤ cursors r) :
    m ≤ slowest cursors n := by
  induction n with
  | zero => exact hm
  | succ n ih =>
      rw [slowest_succ]
      exact Nat.le_min.mpr ⟨ih fun r hr => h r (by omega), h n (by omega)⟩

end ShmRings
