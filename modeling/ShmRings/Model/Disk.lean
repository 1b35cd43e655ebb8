import ShmRings.Model.Open

/-!
# Ring files on disk

The bytes of a ring file, little-endian, and `create_new_with_readers` as a function that also returns
what it leaves at the path.

* `byteOf`, **`leWord_byteOf`**: a word from its bytes;
* `RingHeader.toByte`, **`RingHeader.ofBytes_toByte`**; `Record`, `RingFile.byte`, `RingFile.byte_slot`;
* `Disk`, `createAt`; **`createAt_result`**: its result is that of `createNewWithReaders`.
-/

set_option autoImplicit false

namespace ShmRings

/-- Byte `i` of the little-endian word `v`. -/
def byteOf (v i : ℕ) : UInt8 := UInt8.ofNat (v / 256 ^ i)

theorem leWord_succ (byte : ℕ → UInt8) (off n : ℕ) :
    leWord byte off (n + 1) = leWord byte off n + (byte (off + n)).toNat * 256 ^ n := by
  simp [leWord, List.range_succ]

/-- **A word is read back from its bytes**, modulo its width. -/
theorem leWord_byteOf {byte : ℕ → UInt8} {off n v : ℕ} (h : ∀ i < n, byte (off + i) = byteOf v i) :
    leWord byte off n = v % 256 ^ n := by
  induction n with
  | zero => rw [pow_zero, Nat.mod_one]; rfl
  | succ n ih =>
      have hbyte : (byteOf v n).toNat = v / 256 ^ n % 256 := UInt8.toNat_ofNat'
      rw [leWord_succ, ih fun i hi => h i (Nat.lt_succ_of_lt hi), h n (Nat.lt_succ_self n), hbyte,
        Nat.mod_pow_succ, Nat.mul_comm]

/-- The header at the start of a file, by the offsets of its fields; the pads are zero. -/
def RingHeader.toByte (h : RingHeader) (i : ℕ) : UInt8 :=
  if i < 8 then byteOf h.magic i
  else if i < 12 then byteOf h.version (i - 8)
  else if i < 16 then byteOf h.numReaders (i - 12)
  else if i < 24 then 0
  else if i < 32 then byteOf h.writeIdx (i - 24)
  else if i < 96 then byteOf (h.readIndices ((i - 32) / 8)) ((i - 32) % 8)
  else if i < 104 then byteOf h.capacityMask (i - 96)
  else if i < 112 then byteOf h.totalWritten (i - 104)
  else 0

/-- The fields of the header fit their words. -/
structure RingHeader.Fits (h : RingHeader) : Prop where
  magic : h.magic < u64Size
  version : h.version < 2 ^ 32
  numReaders : h.numReaders < 2 ^ 32
  writeIdx : h.writeIdx < u64Size
  readIndices : ∀ r < maxReaders, h.readIndices r < u64Size
  capacityMask : h.capacityMask < u64Size
  totalWritten : h.totalWritten < u64Size

/-- **A header is read back from its bytes**; only its cursors beyond the array are lost. -/
theorem RingHeader.ofBytes_toByte {h : RingHeader} (hfits : h.Fits) {byte : ℕ → UInt8}
    (hbyte : ∀ i < headerSize, byte i = h.toByte i) :
    (RingHeader.ofBytes byte).magic = h.magic ∧ (RingHeader.ofBytes byte).version = h.version ∧
      (RingHeader.ofBytes byte).numReaders = h.numReaders ∧
      (RingHeader.ofBytes byte).writeIdx = h.writeIdx ∧
      (∀ r < maxReaders, (RingHeader.ofBytes byte).readIndices r = h.readIndices r) ∧
      (RingHeader.ofBytes byte).capacityMask = h.capacityMask ∧
      (RingHeader.ofBytes byte).totalWritten = h.totalWritten := by
  -- a field of `n` bytes at offset `off`
  have hfield : ∀ {off n v}, off + n ≤ headerSize → (∀ i < n, h.toByte (off + i) = byteOf v i) →
      v < 256 ^ n → leWord byte off n = v := by
    intro off n v hoff hv hlt
    rw [leWord_byteOf fun i hi => (hbyte (off + i) (by omega)).trans (hv i hi), Nat.mod_eq_of_lt hlt]
  have hcursor : ∀ r < maxReaders, ∀ i < 8,
      h.toByte (32 + 8 * r + i) = byteOf (h.readIndices r) i := by
    intro r hr i hi
    change r < 8 at hr
    have hdiv : (32 + 8 * r + i - 32) / 8 = r := by omega
    have hmod : (32 + 8 * r + i - 32) % 8 = i := by omega
    simp (disch := omega) only [RingHeader.toByte, if_neg, if_pos, hdiv, hmod]
  have hroom : ∀ r < maxReaders, 32 + 8 * r + 8 ≤ headerSize := by
    intro r hr
    change r < 8 at hr
    change 32 + 8 * r + 8 ≤ 256
    omega
  refine ⟨hfield (by decide) (fun i hi => ?_) hfits.magic,
    hfield (by decide) (fun i hi => ?_) hfits.version,
    hfield (by decide) (fun i hi => ?_) hfits.numReaders,
    hfield (by decide) (fun i hi => ?_) hfits.writeIdx,
    fun r hr => hfield (hroom r hr) (hcursor r hr) (hfits.readIndices r hr),
    hfield (by decide) (fun i hi => ?_) hfits.capacityMask,
    hfield (by decide) (fun i hi => ?_) hfits.totalWritten⟩
  all_goals simp (disch := omega) only [RingHeader.toByte, if_neg, if_pos, Nat.zero_add,
    Nat.add_sub_cancel_left]

/-- A record is its bytes. -/
abbrev Record (T : RecordType) := Fin T.size → UInt8

variable {T : RecordType}

/-- The bytes of a ring file: the header, then the slots. -/
def RingFile.byte (f : RingFile (Record T)) (i : ℕ) : UInt8 :=
  if i < headerSize then f.hdr.toByte i
  else if h : 0 < T.size then
    f.slots ((i - headerSize) / T.size) ⟨(i - headerSize) % T.size, Nat.mod_lt _ h⟩
  else 0

theorem RingFile.byte_slot (f : RingFile (Record T)) (j : ℕ) (b : Fin T.size) :
    f.byte (headerSize + j * T.size + b) = f.slots j b := by
  have hpos : 0 < T.size := b.pos
  have hge : ¬ headerSize + j * T.size + b < headerSize := by omega
  have hoff : headerSize + j * T.size + b - headerSize = b + T.size * j := by
    rw [Nat.mul_comm T.size j]
    omega
  have hdiv : (headerSize + j * T.size + b - headerSize) / T.size = j := by
    rw [hoff, Nat.add_mul_div_left _ _ hpos, Nat.div_eq_of_lt b.isLt, Nat.zero_add]
  have hmod : (headerSize + j * T.size + b - headerSize) % T.size = b := by
    rw [hoff, Nat.add_mul_mod_self_left, Nat.mod_eq_of_lt b.isLt]
  have hcell : ∀ x y (hy : y < T.size), x = j → y = b → f.slots x ⟨y, hy⟩ = f.slots j b := by
    rintro _ _ _ rfl rfl
    rfl
  rw [RingFile.byte, if_neg hge, dif_pos hpos, hcell _ _ _ hdiv hmod]

/-! ## Creating a file -/

/-- The content of a file: its length and its bytes. -/
structure Disk where
  length : ℕ
  byte : ℕ → UInt8

/-- `n` bytes of zero. -/
def Disk.zeros (n : ℕ) : Disk := ⟨n, fun _ => 0⟩

/-- Where `create_new_with_readers` may fail: an error of the open call (`some true` is
`AlreadyExists`), and whether `set_len` and `map_mut` succeed. -/
structure CreateFaults where
  openError : Option Bool
  setLen : Bool
  mapped : Bool

/-- No file-system call fails. -/
def CreateFaults.none : CreateFaults := ⟨Option.none, true, true⟩

variable (p : Profile) (T : RecordType)

/-- What happens before the exclusive open has made the file. -/
def beforeOpen (pathExists : Bool) (openError : Option Bool) (capacity numReaders : ℕ) :
    Except Fault Unit := do
  ensure (capacity ≠ 0 ∧ isPowerOfTwo capacity) (.err (.invalidCapacity capacity))
  ensure (1 ≤ numReaders ∧ numReaders ≤ maxReaders) (.panic .assertion)
  ensure (T.align ≤ 64) (.panic .assertion)
  ensure (T.size > 0) (.panic .assertion)
  ensure (pathExists = false) (.err .alreadyExists)
  ensure (openError ≠ some true) (.err .alreadyExists)
  ensure (openError ≠ some false) (.err .io)

/-- The length of the file: `HEADER_SIZE + capacity * size_of::<T>()`. -/
def fileLength (capacity : ℕ) : Except Fault ℕ := do
  let slots ← p.mul capacity T.size
  p.add headerSize slots

/-- The handle and the header of a file of length `len`. -/
def initHeader (capacity numReaders len : ℕ) : Except Fault Mapping := do
  let mask ← p.sub capacity 1
  let hdr ← RingHeader.new mask numReaders
  return ⟨.fresh capacity, hdr, len⟩

/-- `create_new_with_readers` on a path with content `file`, and the content it leaves. -/
def createAt (fs : CreateFaults) (file : Option Disk) (capacity numReaders : ℕ) :
    Except Fault Mapping × Option Disk :=
  match beforeOpen T file.isSome fs.openError capacity numReaders with
  | .error e => (.error e, file)
  | .ok () => match fileLength p T capacity with
    | .error e => (.error e, some (.zeros 0))
    | .ok len =>
        if fs.setLen = false then (.error (.err .io), some (.zeros 0))
        else if fs.mapped = false then (.error (.err .io), some (.zeros len))
        else match initHeader p capacity numReaders len with
          | .error e => (.error e, some (.zeros len))
          | .ok m => (.ok m, some ⟨len, RingFile.byte (T := T) ⟨m.hdr, fun _ _ => 0⟩⟩)

variable {p} {T}

/-- **`createAt` returns what `createNewWithReaders` returns.** -/
theorem createAt_result (fs : CreateFaults) (file : Option Disk) (capacity numReaders : ℕ) :
    (createAt p T fs file capacity numReaders).1 =
      createNewWithReaders p T ⟨file.isSome, fs.openError, fs.setLen, fs.mapped⟩ capacity numReaders := by
  have hsplit : createNewWithReaders p T ⟨file.isSome, fs.openError, fs.setLen, fs.mapped⟩ capacity
      numReaders = (beforeOpen T file.isSome fs.openError capacity numReaders >>= fun _ =>
        fileLength p T capacity >>= fun len => ensure fs.setLen (.err .io) >>= fun _ =>
        ensure fs.mapped (.err .io) >>= fun _ => initHeader p capacity numReaders len) := by
    simp only [createNewWithReaders, beforeOpen, fileLength, initHeader, bind_assoc]
  rw [hsplit, createAt]
  cases beforeOpen T file.isSome fs.openError capacity numReaders with
  | error e => rfl
  | ok _ =>
      cases fileLength p T capacity with
      | error e => rfl
      | ok len =>
          cases fs.setLen with
          | false => rfl
          | true =>
              cases fs.mapped with
              | false => rfl
              | true => cases hinit : initHeader p capacity numReaders len <;> simp [hinit, ensure]

end ShmRings
