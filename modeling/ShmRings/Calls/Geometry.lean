import ShmRings.Lib.Cells
import ShmRings.Model.Open

/-!
# The slots of a handle

The slots are a grid after the header, if the length the constructors compute does not wrap; otherwise
there is no room for them.

* `Mapping.Fits`: the slots are in the mapping, after the header, aligned and apart;
* `slotPtr_eq`, **`fits_iff`**; **`geometry_iff`**: the handles of both constructors;
* **`slot_out_of_bounds`**: a handle whose second slot is outside its mapping.
-/

set_option autoImplicit false

namespace ShmRings

variable {p : Profile} {T : RecordType} {m : Mapping}

/-- Every stream index has an aligned slot in the mapping and after the header, and the slots of indices
that differ modulo the capacity do not overlap. -/
def Mapping.Fits (p : Profile) (T : RecordType) (m : Mapping) : Prop :=
  ∀ idx < u64Size, ∃ off, m.slotPtr p T idx = .ok off ∧ headerSize ≤ off ∧ off + T.size ≤ m.length ∧
    T.align ∣ off ∧ ∀ idx' < u64Size, idx' % m.handle.capacity ≠ idx % m.handle.capacity →
      ∀ off', m.slotPtr p T idx' = .ok off' → Cells.Apart T.size off' off

section Slots

variable {k : ℕ}

/-- Without a wrap the slots are a grid. -/
theorem slotPtr_eq (hcap : m.handle.capacity = 2 ^ k) (hfit : headerSize + 2 ^ k * T.size < u64Size)
    (idx : ℕ) : m.slotPtr p T idx = .ok (headerSize + idx % 2 ^ k * T.size) := by
  have hpos : 1 ≤ m.handle.capacity := hcap ▸ Nat.two_pow_pos k
  have hle : idx % 2 ^ k * T.size ≤ 2 ^ k * T.size :=
    Nat.mul_le_mul_right _ (Nat.mod_lt _ (Nat.two_pow_pos k)).le
  have hmask : idx &&& (m.handle.capacity - 1) = idx % 2 ^ k := by
    rw [hcap]
    exact Nat.and_two_pow_sub_one_eq_mod idx k
  rw [Mapping.slotPtr, p.sub_eq hpos, ok_bind, hmask, p.mul_eq (by omega), ok_bind,
    p.add_eq (by omega)]

/-- An alignment of at most 64 divides the size of the header. -/
theorem align_dvd_headerSize (h : T.align ≤ 64) : T.align ∣ headerSize := by
  have hlog : T.logAlign ≤ 8 := by
    by_contra hlt
    have hpow : 2 ^ 9 ≤ 2 ^ T.logAlign := Nat.pow_le_pow_right (by decide) (by omega)
    change 2 ^ T.logAlign ≤ 64 at h
    omega
  exact Nat.pow_dvd_pow 2 hlog

/-- **The slots fit exactly when their length does not wrap.** -/
theorem fits_iff (hcap : m.handle.capacity = 2 ^ k) (hk : k < 64) (hlen : m.length < u64Size)
    (hroom : headerSize + 2 ^ k * T.size < u64Size → headerSize + 2 ^ k * T.size ≤ m.length)
    (halign : T.align ≤ 64) : m.Fits p T ↔ headerSize + 2 ^ k * T.size < u64Size := by
  have hpow : 2 ^ k < u64Size := Nat.pow_lt_pow_right (by decide) hk
  constructor
  · intro h
    -- the slots of the first `2 ^ k` indices are apart, so the mapping has room for them all
    choose! off hptr hlo hhi _ hap using h
    have hmod : ∀ {i}, i < 2 ^ k → i % m.handle.capacity = i := fun hi => by
      rw [hcap]
      exact Nat.mod_eq_of_lt hi
    have hmul := @Cells.mul_le_of_apart (2 ^ k) T.size headerSize m.length off
      (fun i hi => ⟨hlo i (hi.trans hpow), hhi i (hi.trans hpow)⟩)
      fun i hi j hj hne => by
        refine hap j (hj.trans hpow) i (hi.trans hpow) ?_ _ (hptr i (hi.trans hpow))
        rwa [hmod hi, hmod hj]
    have h0 := Nat.two_pow_pos 64
    have := hlo 0 h0
    have := hhi 0 h0
    omega
  · intro hfit idx hidx
    have hlt := Nat.mod_lt idx (Nat.two_pow_pos k)
    have hroom := hroom hfit
    refine ⟨_, slotPtr_eq hcap hfit idx, Nat.le_add_right _ _, ?_, ?_, fun idx' _ hne off' hoff' => ?_⟩
    · have := @Cells.grid_lt T.size headerSize _ _ hlt
      omega
    · exact Nat.dvd_add (align_dvd_headerSize halign) (T.align_dvd.mul_left _)
    · rw [slotPtr_eq hcap hfit] at hoff'
      cases hoff'
      rw [hcap] at hne
      exact Cells.apart_of_ne hne

end Slots

/-- The capacity word of a file whose header is valid. -/
theorem capacity_of_valid {f : RawFile} (h : (RingHeader.ofBytes f.byte).validate p = .ok ()) :
    ∃ k < 64, (RingHeader.ofBytes f.byte).capacityMask + 1 = 2 ^ k := by
  obtain ⟨-, -, -, k, hk, hpow⟩ := validate_ok h
  have hmask : (RingHeader.ofBytes f.byte).capacityMask < u64Size := leWord_lt f.byte 96 8
  refine ⟨k, hk, ?_⟩
  change ((RingHeader.ofBytes f.byte).capacityMask + 1) % 2 ^ 64 = 2 ^ k at hpow
  have hpos := Nat.two_pow_pos k
  change _ < 2 ^ 64 at hmask
  omega

/-- **The handles of both constructors** have their slots in bounds, apart and aligned exactly when the
length of the header and the slots is less than `2 ^ 64`. -/
theorem geometry_iff (p : Profile) (T : RecordType) (m : Mapping) :
    (∀ fs capacity n, createNewWithReaders p T fs capacity n = .ok m →
      (m.Fits p T ↔ headerSize + capacity * T.size < u64Size)) ∧
    ∀ f, openExisting p T f = .ok m →
      (m.Fits p T ↔ headerSize + ((RingHeader.ofBytes f.byte).capacityMask + 1) * T.size < u64Size) := by
  constructor
  · intro fs capacity n h
    obtain ⟨⟨k, hk, rfl⟩, -, halign, hhandle, bytes, hmul, hadd⟩ := createNewWithReaders_ok h
    refine fits_iff (congrArg Handle.capacity hhandle) hk ?_ (fun hfit => ?_) halign
    · rw [p.add_ok hadd]
      exact wrappingAdd_lt _ _
    · rw [p.mul_eq (by omega)] at hmul
      cases hmul
      rw [p.add_eq hfit] at hadd
      exact (Except.ok.inj hadd).le
  · intro f h
    obtain ⟨-, halign, -, -, hlen, hvalid, cap, bytes, expected, hcap, hhandle, hmul, hadd, hle⟩ :=
      openExisting_ok h
    obtain ⟨k, hk, hpow⟩ := capacity_of_valid hvalid
    have hlt : 2 ^ k < u64Size := Nat.pow_lt_pow_right (by decide) hk
    rw [p.add_eq (hpow ▸ hlt), hpow] at hcap
    cases hcap
    rw [hpow]
    refine fits_iff (congrArg Handle.capacity hhandle) hk (hlen ▸ f.length_lt) (fun hfit => ?_) halign
    rw [p.mul_eq (by omega)] at hmul
    cases hmul
    rw [p.add_eq hfit] at hadd
    cases hadd
    exact hlen ▸ hle

/-- A file system on which every call succeeds. -/
def Created.allOk : Created := ⟨false, none, true, true⟩

/-- Records of 8 bytes. -/
def wordRecord : RecordType := ⟨8, 3, by decide, by decide⟩

/-- A ring of four words is in bounds. -/
theorem geometry_four : ∃ m, createNewWithReaders release wordRecord .allOk 4 1 = .ok m ∧
    m.Fits release wordRecord := by
  obtain ⟨m, hm⟩ : ∃ m, createNewWithReaders release wordRecord .allOk 4 1 = .ok m := ⟨_, rfl⟩
  exact ⟨m, hm, ((geometry_iff release wordRecord m).1 _ _ _ hm).mpr (by decide)⟩

/-- Records of 2 bytes. -/
def halfRecord : RecordType := ⟨2, 1, by decide, by decide⟩

/-- With `2 ^ 63` slots of 2 bytes the length wraps to that of the header alone, and no slot is in the
mapping. -/
theorem slot_out_of_bounds : ∃ m, createNewWithReaders release halfRecord .allOk (2 ^ 63) 1 = .ok m ∧
    m.length = 256 ∧ m.slotPtr release halfRecord 0 = .ok 256 ∧ ¬ m.Fits release halfRecord := by
  obtain ⟨m, hm, hlen, hptr⟩ : ∃ m, createNewWithReaders release halfRecord .allOk (2 ^ 63) 1 = .ok m ∧
      m.length = 256 ∧ m.slotPtr release halfRecord 0 = .ok 256 := ⟨_, rfl, rfl, rfl⟩
  refine ⟨m, hm, hlen, hptr, fun h => ?_⟩
  obtain ⟨off, hoff, -, hhi, -⟩ := h 0 (Nat.two_pow_pos 64)
  rw [hptr] at hoff
  cases hoff
  rw [hlen] at hhi
  exact absurd hhi (by decide)

end ShmRings
