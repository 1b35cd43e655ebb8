import ShmRings.Calls.Hostile
import ShmRings.Model.Disk

/-!
# Opening a ring that was created

The constructor accepts every power of two, `validate` every mask but zero, and both wrap the same length.

* `RawFile.Of`, `Reopens`: an open of the file sees the ring that is in it;
* `Kept`, `Kept.touch`: the words the calls keep; `openExisting_eq`;
* `slotPtr_first`, `slotPtr_last`; **`reopens_iff`**;
* **`created_not_opened`**: a ring of one slot.
-/

set_option autoImplicit false

namespace ShmRings

open Transition

variable {p : Profile} {T : RecordType} {m : Mapping} {f : RawFile} {file : RingFile (Record T)}
  {capacity n : ℕ}

/-- `f` is the file of a ring that was created with the mapping `m` and now holds `file`, and no
file-system call on it fails. -/
structure RawFile.Of (f : RawFile) (m : Mapping) (file : RingFile (Record T)) : Prop where
  opened : f.opened = true
  metadata : f.metadata = true
  mapped : f.mapped = true
  length : f.length = m.length
  byte : ∀ i < m.length, f.byte i = file.byte i

/-- `open_existing` returns a handle with the capacity and the reader count of the creator, and it sees
the words and the slots of the ring. -/
def Reopens (p : Profile) (T : RecordType) (m : Mapping) (file : RingFile (Record T)) : Prop :=
  ∀ f : RawFile, f.Of m file → ∃ m', openExisting p T f = .ok m' ∧
    m'.handle.capacity = m.handle.capacity ∧ m'.hdr.numReaders = m.hdr.numReaders ∧
    m'.hdr.writeIdx = file.hdr.writeIdx ∧
    (∀ r < maxReaders, m'.hdr.readIndices r = file.hdr.readIndices r) ∧
    m'.hdr.totalWritten = file.hdr.totalWritten ∧
    ∀ j < m.handle.capacity, ∃ off, m'.slotPtr p T j = .ok off ∧ off + T.size ≤ m'.length ∧
      ∀ b : Fin T.size, f.byte (off + b) = file.slots j b

/-! ## The header -/

/-- The words the calls keep, and their widths. -/
structure Kept (m : Mapping) (h : RingHeader) : Prop where
  magic : h.magic = ShmRings.magic
  version : h.version = ShmRings.version
  numReaders : h.numReaders = m.hdr.numReaders
  capacityMask : h.capacityMask = m.handle.capacity - 1
  fits : h.Fits

theorem Kept.touch {file' : RingFile (Record T)} (hk : Kept m file.hdr) (ht : Touch file file') :
    Kept m file'.hdr := by
  have hf := hk.fits
  cases ht with
  | same => exact hk
  | publish hnext =>
      exact ⟨hk.magic, hk.version, hk.numReaders, hk.capacityMask, hf.magic, hf.version, hf.numReaders,
        hnext, hf.readIndices, hf.capacityMask, wrappingAdd_lt _ _⟩
  | @advance r next _ hnext =>
      refine ⟨hk.magic, hk.version, hk.numReaders, hk.capacityMask, hf.magic, hf.version, hf.numReaders,
        hf.writeIdx, fun q hq => ?_, hf.capacityMask, hf.totalWritten⟩
      change Function.update file.hdr.readIndices r next q < u64Size
      rw [Function.update_apply]
      split_ifs
      · exact hnext
      · exact hf.readIndices q hq

theorem Kept.created {fs : Created} (h : createNewWithReaders p T fs capacity n = .ok m) :
    Kept m m.hdr := by
  obtain ⟨⟨k, hk, rfl⟩, -, -, hhandle, -⟩ := createNewWithReaders_ok h
  have hpow : 2 ^ k < u64Size := Nat.pow_lt_pow_right (by decide) hk
  simp only [createNewWithReaders, bind_eq_ok, ensure_eq_ok, exists_const] at h
  obtain ⟨-, ⟨-, hn⟩, -, -, -, -, -, bytes, -, len, -, -, -, mask, hmask, hdr, hnew, hm⟩ := h
  rw [p.sub_eq (Nat.one_le_two_pow)] at hmask
  cases hmask
  unfold RingHeader.new at hnew
  split_ifs at hnew
  cases hnew
  cases hm
  have hn' : n < 2 ^ 32 := hn.trans_lt (by decide)
  exact ⟨rfl, rfl, rfl, rfl, (by decide : ShmRings.magic < u64Size),
    (by decide : ShmRings.version < 2 ^ 32), hn', Nat.two_pow_pos 64, fun _ _ => Nat.two_pow_pos 64,
    (Nat.sub_le _ _).trans_lt hpow, Nat.two_pow_pos 64⟩

theorem kept_of_reachable {fs : Created} (h : createNewWithReaders p T fs capacity n = .ok m)
    {w : World (Record T)}
    (hw : Reachable (world p (· = World.opened m fun _ _ => 0) fun _ _ => True) w) :
    Kept m w.file.hdr := by
  refine Reachable.invariant (I := fun w : World (Record T) => Kept m w.file.hdr) ?_ ?_ hw
  · rintro w rfl
    exact Kept.created h
  · rintro w ⟨c, a⟩ w' hk ⟨-, hcall⟩
    exact hk.touch (call_touch hcall)

theorem validate_eq {h : RingHeader} {k : ℕ} (hmagic : h.magic = magic) (hversion : h.version = version)
    (hmask : h.capacityMask = 2 ^ k - 1) (h0 : k ≠ 0) (hk : k < 64) : h.validate p = .ok () := by
  have hpos : 2 ≤ 2 ^ k := Nat.pow_le_pow_right (n := 2) (by decide) (Nat.one_le_iff_ne_zero.mpr h0)
  have hlt : 2 ^ k < u64Size := Nat.pow_lt_pow_right (by decide) hk
  have hne : h.capacityMask ≠ 0 := by omega
  have hsucc : h.capacityMask + 1 = 2 ^ k := by omega
  unfold RingHeader.validate
  dsimp only
  rw [ensure_pos hmagic, ok_bind, ensure_pos hversion, ok_bind, ensure_pos hne, ok_bind,
    p.add_eq (hsucc ▸ hlt), ok_bind, hsucc, ensure_pos (isPowerOfTwo_iff.mpr ⟨k, hk, rfl⟩)]

theorem validate_one {h : RingHeader} (hmagic : h.magic = magic) (hversion : h.version = version)
    (hmask : h.capacityMask = 0) :
    h.validate p = .error (.err (.headerCorruption "capacity_mask" 0 0)) := by
  unfold RingHeader.validate
  dsimp only
  rw [ensure_pos hmagic, ok_bind, ensure_pos hversion, ok_bind, ensure_neg (not_not.mpr hmask),
    error_bind, hmask]

/-! ## The slots -/

/-- The slots before the first whose address wraps. -/
theorem slotPtr_first {k j : ℕ} (hcap : m.handle.capacity = 2 ^ k) (hj : j < 2 ^ k)
    (hlt : headerSize + j * T.size < u64Size) : m.slotPtr p T j = .ok (headerSize + j * T.size) := by
  have hpos : 1 ≤ m.handle.capacity := hcap ▸ Nat.two_pow_pos k
  have hmask : j &&& (m.handle.capacity - 1) = j := by
    rw [hcap, Nat.and_two_pow_sub_one_eq_mod, Nat.mod_eq_of_lt hj]
  rw [Mapping.slotPtr, p.sub_eq hpos, ok_bind, hmask, p.mul_eq (by omega), ok_bind, p.add_eq hlt]

/-- If the length wraps, the last of them is not in a mapping. -/
theorem slotPtr_last {k : ℕ} (hcap : m.handle.capacity = 2 ^ k) (hsize : 0 < T.size)
    (hwrap : u64Size ≤ headerSize + 2 ^ k * T.size) :
    ∃ j < 2 ^ k, ∃ off, m.slotPtr p T j = .ok off ∧ u64Size ≤ off + T.size := by
  have hle : (u64Size - 1 - headerSize) / T.size * T.size ≤ u64Size - 1 - headerSize :=
    Nat.div_mul_le_self _ _
  have hsucc : u64Size - 1 - headerSize < (u64Size - 1 - headerSize) / T.size * T.size + T.size :=
    Nat.lt_div_mul_add hsize
  generalize (u64Size - 1 - headerSize) / T.size = j at hle hsucc
  have hheader : headerSize < u64Size := by decide
  have hj : j < 2 ^ k := by
    refine Nat.lt_of_mul_lt_mul_right (a := T.size) ?_
    omega
  exact ⟨j, hj, _, slotPtr_first hcap hj (by omega), by omega⟩

/-! ## The two constructors -/

/-- What a create leaves at the path is the ring the runs of calls start from. -/
theorem createAt_opened {fs : CreateFaults} {disk : Option Disk}
    (h : (createAt p T fs disk capacity n).1 = .ok m) : (createAt p T fs disk capacity n).2 =
      some ⟨m.length, (World.opened m fun _ (_ : Fin T.size) => 0).file.byte⟩ := by
  unfold createAt at h ⊢
  cases hopen : beforeOpen T disk.isSome fs.openError capacity n with
  | error e => simp [hopen] at h
  | ok _ =>
      cases hlen : fileLength p T capacity with
      | error e => simp [hopen, hlen] at h
      | ok len =>
          simp only [hopen, hlen] at h ⊢
          split_ifs at h ⊢
          cases hinit : initHeader p capacity n len with
          | error e => simp [hinit] at h
          | ok m' =>
              simp only [hinit] at h ⊢
              cases h
              have hlength : m.length = len := by
                simp only [initHeader, bind_eq_ok] at hinit
                obtain ⟨mask, -, hdr, -, heq⟩ := hinit
                cases heq
                rfl
              rw [hlength]
              rfl

/-- A file that passes every check of `open_existing`. -/
theorem openExisting_eq (halign : T.align ≤ 64) (hsize : 0 < T.size) (hopened : f.opened = true)
    (hmeta : f.metadata = true) (hmapped : f.mapped = true)
    (hvalid : (RingHeader.ofBytes f.byte).validate p = .ok ()) (hcap : 1 ≤ capacity)
    (hmask : (RingHeader.ofBytes f.byte).capacityMask = capacity - 1)
    (hfit : headerSize + capacity * T.size ≤ f.length) :
    openExisting p T f = .ok ⟨.fresh capacity, .ofBytes f.byte, f.length⟩ := by
  have hlt := f.length_lt
  have hle : capacity ≤ capacity * T.size := Nat.le_mul_of_pos_right _ hsize
  have hsucc : (RingHeader.ofBytes f.byte).capacityMask + 1 = capacity := by omega
  unfold openExisting
  dsimp only
  rw [ensure_pos halign, ok_bind, ensure_pos hsize, ok_bind, ensure_pos hopened, ok_bind,
    ensure_pos hmeta, ok_bind, ensure_pos (by omega), ok_bind, ensure_pos hmapped, ok_bind, hvalid,
    ok_bind, p.add_eq (by omega), ok_bind, hsucc, p.mul_eq (by omega), ok_bind, p.add_eq (by omega),
    ok_bind, ensure_pos hfit, ok_bind]
  rfl

theorem openExisting_invalid {e : Fault} (halign : T.align ≤ 64) (hsize : 0 < T.size)
    (hopened : f.opened = true) (hmeta : f.metadata = true) (hmapped : f.mapped = true)
    (hlen : headerSize ≤ f.length) (hvalid : (RingHeader.ofBytes f.byte).validate p = .error e) :
    openExisting p T f = .error e := by
  unfold openExisting
  dsimp only
  rw [ensure_pos halign, ok_bind, ensure_pos hsize, ok_bind, ensure_pos hopened, ok_bind,
    ensure_pos hmeta, ok_bind, ensure_pos hlen, ok_bind, ensure_pos hmapped, ok_bind, hvalid, error_bind]

/-- **A ring of at least two slots, with a length that does not wrap, is seen by every open.** -/
theorem reopens_of_kept {k : ℕ} (h0 : k ≠ 0) (hk : k < 64) (halign : T.align ≤ 64) (hsize : 0 < T.size)
    (hhandle : m.handle.capacity = 2 ^ k) (hlen : m.length = headerSize + 2 ^ k * T.size)
    (hkept : Kept m file.hdr) : Reopens p T m file := by
  intro f hf
  have hbyte : ∀ i < headerSize, f.byte i = file.hdr.toByte i := fun i hi => by
    rw [hf.byte i (by omega), RingFile.byte, if_pos hi]
  obtain ⟨hmagic, hversion, hreaders, hw, hr, hmask, htotal⟩ :=
    RingHeader.ofBytes_toByte hkept.fits hbyte
  have hmask' : (RingHeader.ofBytes f.byte).capacityMask = 2 ^ k - 1 := by
    rw [hmask, hkept.capacityMask, hhandle]
  have hvalid : (RingHeader.ofBytes f.byte).validate p = .ok () :=
    validate_eq (hmagic.trans hkept.magic) (hversion.trans hkept.version) hmask' h0 hk
  have hopen := openExisting_eq halign hsize hf.opened hf.metadata hf.mapped hvalid
    Nat.one_le_two_pow hmask' (by rw [hf.length, hlen])
  refine ⟨_, hopen, hhandle.symm, hreaders.trans hkept.numReaders, hw, hr, htotal, fun j hj => ?_⟩
  rw [hhandle] at hj
  have hend := @Cells.grid_lt T.size headerSize _ _ hj
  have hfit : headerSize + 2 ^ k * T.size < u64Size := hlen ▸ hf.length ▸ f.length_lt
  refine ⟨_, slotPtr_first rfl hj (by omega), ?_, fun b => ?_⟩
  · rw [hf.length, hlen]
    exact hend
  · rw [hf.byte _ (by rw [hlen]; omega), RingFile.byte_slot]

/-- A header of a ring of one slot is not valid: its mask is zero. -/
theorem validate_single (hkept : Kept m file.hdr) (hone : m.handle.capacity = 1) :
    (RingHeader.ofBytes file.byte).validate p =
      .error (.err (.headerCorruption "capacity_mask" 0 0)) := by
  have hbyte : ∀ i < headerSize, file.byte i = file.hdr.toByte i := fun i hi => if_pos hi
  obtain ⟨hmagic, hversion, -, -, -, hmask, -⟩ := RingHeader.ofBytes_toByte hkept.fits hbyte
  refine validate_one (hmagic.trans hkept.magic) (hversion.trans hkept.version) ?_
  rw [hmask, hkept.capacityMask, hone]

/-- The file of a ring. -/
def RawFile.holding (m : Mapping) (hlen : m.length < u64Size) (file : RingFile (Record T)) : RawFile :=
  ⟨true, true, m.length, hlen, true, file.byte⟩

theorem RawFile.of_holding (hlen : m.length < u64Size) (file : RingFile (Record T)) :
    (RawFile.holding m hlen file).Of m file := ⟨rfl, rfl, rfl, rfl, fun _ _ => rfl⟩

/-- **Every ring the constructor creates can be reopened, after any calls, exactly when it has at least
two slots and its length does not wrap.** -/
theorem reopens_iff {fs : Created} (h : createNewWithReaders p T fs capacity n = .ok m) :
    (∀ w, Reachable (world p (· = World.opened m fun _ _ => 0) fun _ _ => True) w →
      Reopens p T m w.file) ↔ capacity ≠ 1 ∧ headerSize + capacity * T.size < u64Size := by
  obtain ⟨⟨k, hk, rfl⟩, hsize, halign, hhandle, bytes, hmul, hadd⟩ := createNewWithReaders_ok h
  have hcap : m.handle.capacity = 2 ^ k := congrArg Handle.capacity hhandle
  have hlt : m.length < u64Size := Profile.add_lt hadd
  constructor
  · intro hall
    have hfirst := hall _ (.init rfl)
    obtain ⟨m', hopen, hcap', -, -, -, -, hslots⟩ :=
      hfirst _ (RawFile.of_holding hlt (World.opened m fun _ _ => 0).file)
    obtain ⟨-, -, -, -, hlen', hvalid, -⟩ := openExisting_ok hopen
    have hfit : headerSize + 2 ^ k * T.size < u64Size := by
      by_contra hwrap
      obtain ⟨j, hj, off, hoff, hbig⟩ := slotPtr_last (p := p) (hcap'.trans hcap) hsize (Nat.not_lt.mp hwrap)
      obtain ⟨off', hoff', hle, -⟩ := hslots j (hcap ▸ hj)
      rw [hoff] at hoff'
      cases hoff'
      have hlen'' : m'.length = m.length := hlen'
      omega
    refine ⟨fun hone => ?_, hfit⟩
    -- the mask of one slot is zero
    have herr : (RingHeader.ofBytes (World.opened m fun _ (_ : Fin T.size) => 0).file.byte).validate p =
        .error (.err (.headerCorruption "capacity_mask" 0 0)) :=
      validate_single (Kept.created h) (hcap.trans hone)
    cases herr.symm.trans hvalid
  · rintro ⟨hone, hfit⟩ w hw
    have h0 : k ≠ 0 := by
      rintro rfl
      exact hone (pow_zero 2)
    have hlen : m.length = headerSize + 2 ^ k * T.size := by
      rw [p.mul_eq (by omega)] at hmul
      cases hmul
      rw [p.add_eq hfit] at hadd
      exact (Except.ok.inj hadd).symm
    exact reopens_of_kept h0 hk halign hsize hcap hlen (kept_of_reachable h hw)

/-- A ring of four words. -/
theorem reopens_four : ∃ m, createNewWithReaders release wordRecord .allOk 4 1 = .ok m ∧
    ∀ w, Reachable (world release (· = World.opened m fun _ _ => 0) fun _ _ => True) w →
      Reopens release wordRecord m w.file := by
  obtain ⟨m, hm⟩ : ∃ m, createNewWithReaders release wordRecord .allOk 4 1 = .ok m := ⟨_, rfl⟩
  exact ⟨m, hm, (reopens_iff hm).mpr ⟨by decide, by decide⟩⟩

/-- A ring of one word is created and not opened. -/
theorem created_not_opened : ∃ m f, createNewWithReaders release wordRecord .allOk 1 1 = .ok m ∧
    f.Of m (World.opened m fun _ (_ : Fin wordRecord.size) => 0).file ∧
    openExisting release wordRecord f = .error (.err (.headerCorruption "capacity_mask" 0 0)) := by
  obtain ⟨m, hm, hlen, hcap⟩ : ∃ m, createNewWithReaders release wordRecord .allOk 1 1 = .ok m ∧
      m.length = 264 ∧ m.handle.capacity = 1 := ⟨_, rfl, rfl, rfl⟩
  have hlt : m.length < u64Size := by
    rw [hlen]
    decide
  refine ⟨m, _, hm, RawFile.of_holding hlt _, openExisting_invalid (by decide) (by decide) rfl rfl rfl ?_
    (validate_single (Kept.created hm) hcap)⟩
  change 256 ≤ m.length
  omega

end ShmRings
