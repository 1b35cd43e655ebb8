import Mathlib.Algebra.BigOperators.Group.List.Basic
import ShmRings.Model.Ring

/-!
# Creating and opening a ring file

The two constructors, with what the file system answers as a parameter, and the address of a slot.
A record type has an alignment that is a power of two and divides its size. `usize` has 64 bits and
words are little-endian.

* `RecordType`; `leWord`, `RingHeader.ofBytes`: the header of a file;
* `Created`, `createNewWithReaders`; `RawFile`, `openExisting`; `Mapping`, `Mapping.slotPtr`;
* `createNewWithReaders_ok`, `openExisting_ok`: what is accepted.
-/

set_option autoImplicit false

namespace ShmRings

/-- The size and the alignment of a record type. -/
structure RecordType where
  size : ℕ
  logAlign : ℕ
  size_lt : size < u64Size
  align_dvd : 2 ^ logAlign ∣ size

def RecordType.align (T : RecordType) : ℕ := 2 ^ T.logAlign

/-- The little-endian word of `n` bytes at offset `off`. -/
def leWord (byte : ℕ → UInt8) (off n : ℕ) : ℕ :=
  ((List.range n).map fun i => (byte (off + i)).toNat * 256 ^ i).sum

theorem leWord_lt (byte : ℕ → UInt8) (off n : ℕ) : leWord byte off n < 256 ^ n := by
  induction n with
  | zero => exact Nat.one_pos
  | succ n ih =>
      have hsplit : leWord byte off (n + 1) =
          leWord byte off n + (byte (off + n)).toNat * 256 ^ n := by
        simp [leWord, List.range_succ]
      have hbyte : (byte (off + n)).toNat * 256 ^ n ≤ 255 * 256 ^ n :=
        Nat.mul_le_mul_right _ (Nat.le_of_lt_succ (byte (off + n)).toNat_lt)
      rw [hsplit, pow_succ]
      omega

/-- The header at the start of a file. -/
def RingHeader.ofBytes (byte : ℕ → UInt8) : RingHeader where
  magic := leWord byte 0 8
  version := leWord byte 8 4
  numReaders := leWord byte 12 4
  writeIdx := leWord byte 24 8
  readIndices := fun i => leWord byte (32 + 8 * i) 8
  capacityMask := leWord byte 96 8
  totalWritten := leWord byte 104 8

/-- A handle, the header of its file and the length of its mapping. -/
structure Mapping where
  handle : Handle
  hdr : RingHeader
  length : ℕ

/-- What the file system answers to a call of `create_new_with_readers`: whether the path exists, an
error of the open call (`some true` is `AlreadyExists`), and whether `set_len` and `map_mut` succeed. -/
structure Created where
  pathExists : Bool
  openError : Option Bool
  setLen : Bool
  mapped : Bool

/-- The file `open_existing` finds. -/
structure RawFile where
  opened : Bool
  metadata : Bool
  length : ℕ
  length_lt : length < u64Size
  mapped : Bool
  byte : ℕ → UInt8

variable (p : Profile) (T : RecordType)

/-- Creates a file; `set_len` is honoured, so the mapping has the length that was computed. -/
def createNewWithReaders (fs : Created) (capacity numReaders : ℕ) : Except Fault Mapping := do
  ensure (capacity ≠ 0 ∧ isPowerOfTwo capacity) (.err (.invalidCapacity capacity))
  ensure (1 ≤ numReaders ∧ numReaders ≤ maxReaders) (.panic .assertion)
  ensure (T.align ≤ 64) (.panic .assertion)
  ensure (T.size > 0) (.panic .assertion)
  ensure (fs.pathExists = false) (.err .alreadyExists)
  ensure (fs.openError ≠ some true) (.err .alreadyExists)
  ensure (fs.openError ≠ some false) (.err .io)
  let slots ← p.mul capacity T.size
  let len ← p.add headerSize slots
  ensure fs.setLen (.err .io)
  ensure fs.mapped (.err .io)
  let mask ← p.sub capacity 1
  let hdr ← RingHeader.new mask numReaders
  return ⟨.fresh capacity, hdr, len⟩

/-- Validates the header, then the length its mask implies. -/
def openExisting (f : RawFile) : Except Fault Mapping := do
  ensure (T.align ≤ 64) (.panic .assertion)
  ensure (T.size > 0) (.panic .assertion)
  ensure f.opened (.err .io)
  ensure f.metadata (.err .io)
  ensure (headerSize ≤ f.length) (.err (.fileTooShort headerSize f.length))
  ensure f.mapped (.err .io)
  let hdr := RingHeader.ofBytes f.byte
  hdr.validate p
  let capacity ← p.add hdr.capacityMask 1
  let slots ← p.mul capacity T.size
  let expected ← p.add headerSize slots
  ensure (expected ≤ f.length) (.err (.fileTooShort expected f.length))
  return ⟨.fresh capacity, hdr, f.length⟩

/-- The offset of slot `idx` in the mapping, whose base is page-aligned. -/
def Mapping.slotPtr (m : Mapping) (idx : ℕ) : Except Fault ℕ := do
  let mask ← p.sub m.handle.capacity 1
  let bytes ← p.mul (idx &&& mask) T.size
  p.add headerSize bytes

variable {p} {T} {m : Mapping}

theorem validate_ok {h : RingHeader} (hv : h.validate p = .ok ()) :
    h.magic = magic ∧ h.version = version ∧ h.capacityMask ≠ 0 ∧
      ∃ k < 64, wrappingAdd h.capacityMask 1 = 2 ^ k := by
  simp only [RingHeader.validate, bind_eq_ok, ensure_eq_ok, exists_const, isPowerOfTwo_iff] at hv
  obtain ⟨hmagic, hversion, hmask, c, hc, hpow⟩ := hv
  exact ⟨hmagic, hversion, hmask, p.add_ok hc ▸ hpow⟩

theorem createNewWithReaders_ok {fs : Created} {capacity n : ℕ}
    (h : createNewWithReaders p T fs capacity n = .ok m) :
    (∃ k < 64, capacity = 2 ^ k) ∧ 0 < T.size ∧ T.align ≤ 64 ∧ m.handle = .fresh capacity ∧
      ∃ bytes, p.mul capacity T.size = .ok bytes ∧ p.add headerSize bytes = .ok m.length := by
  simp only [createNewWithReaders, bind_eq_ok, ensure_eq_ok, exists_const, isPowerOfTwo_iff] at h
  obtain ⟨⟨-, hpow⟩, -, halign, hsize, -, -, -, bytes, hmul, len, hadd, -, -, mask, -, hdr, -, hm⟩ := h
  cases hm
  exact ⟨hpow, hsize, halign, rfl, bytes, hmul, hadd⟩

theorem openExisting_ok {f : RawFile} (h : openExisting p T f = .ok m) :
    0 < T.size ∧ T.align ≤ 64 ∧ headerSize ≤ f.length ∧ m.hdr = .ofBytes f.byte ∧
      m.length = f.length ∧ (RingHeader.ofBytes f.byte).validate p = .ok () ∧
      ∃ capacity bytes expected, p.add (RingHeader.ofBytes f.byte).capacityMask 1 = .ok capacity ∧
        m.handle = .fresh capacity ∧ p.mul capacity T.size = .ok bytes ∧
        p.add headerSize bytes = .ok expected ∧ expected ≤ f.length := by
  simp only [openExisting, bind_eq_ok, ensure_eq_ok, exists_const] at h
  obtain ⟨halign, hsize, -, -, hlen, -, ⟨⟩, hvalid, cap, hcap, bytes, hmul, expected, hadd, hle, hm⟩ := h
  cases hm
  exact ⟨hsize, halign, hlen, rfl, rfl, hvalid, cap, bytes, expected, hcap, rfl, hmul, hadd, hle⟩

end ShmRings
