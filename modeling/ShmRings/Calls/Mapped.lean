import ShmRings.Calls.Reopen
import ShmRings.Calls.Status
import ShmRings.Model.Mapped

/-!
# The bytes show the ring

What the calls do on the bytes of a mapping is what they do on the ring these bytes stand for.

* `loadWord_eq`, `storeWord_eq`, `leWord_blit`, `leWord_apart`: words in a segment of bytes;
* `Image`, `Frame`: the ring the bytes stand for, and the bytes no call writes; `Image.setWriteIdx`,
  `Image.setReadIdx`, `Image.setSlot`: what a store makes of it;
* `Room`, `Room.slotPtr_eq`: the slots are in the mapping; `tryPush_meets` and the other calls;
* `Shows`, **`call_shows`**; **`bytes_refine`**: whole runs.
-/

set_option autoImplicit false

namespace ShmRings.Mapped

open Segment Segment.Prog Transition

variable {p : Profile} {T : RecordType} {length cap : ℕ} {mem mem' : ℕ → UInt8} {f f' : RingFile (Record T)}

/-! ## Words -/

theorem wordOf_eq (off n : ℕ) : wordOf (fun i : Fin n => mem (off + i)) = leWord mem off n := by
  unfold wordOf leWord
  congr 1
  refine List.map_congr_left fun i hi => ?_
  dsimp only
  rw [dif_pos (by rw [Nat.zero_add]; exact List.mem_range.mp hi)]
  simp only [Nat.zero_add]

theorem loadWord_eq {off n : ℕ} (hin : off + n ≤ length) (halign : n ∣ off) :
    loadWord length off n mem = (.ok (leWord mem off n), mem) := by
  unfold loadWord
  rw [bind_ok (load_eq hin halign), wordOf_eq]
  rfl

theorem storeWord_eq {off n v : ℕ} (hin : off + n ≤ length) (halign : n ∣ off) :
    storeWord length off n v mem = (.ok (), blit mem off fun i : Fin n => byteOf v i) := store_eq hin halign

/-- **A word that is stored is loaded.** -/
theorem leWord_blit {off n v : ℕ} (hv : v < 256 ^ n) :
    leWord (blit mem off fun i : Fin n => byteOf v i) off n = v := by
  rw [leWord_byteOf fun i hi => blit_at ⟨i, hi⟩, Nat.mod_eq_of_lt hv]

/-- A word apart from what is stored stays. -/
theorem leWord_apart {off n off' n' v : ℕ} {bytes : Fin n → UInt8} (h : leWord mem off' n' = v)
    (hap : off' + n' ≤ off ∨ off + n ≤ off') : leWord (blit mem off bytes) off' n' = v := by
  rw [← h]
  exact Status.leWord_congr fun _ hi => blit_outside (by omega)

/-! ## The ring in the bytes -/

/-- The words and the slots `mem` stands for. -/
structure Image (cap : ℕ) (mem : ℕ → UInt8) (f : RingFile (Record T)) : Prop where
  numReaders : leWord mem 12 4 = f.hdr.numReaders
  writeIdx : leWord mem 24 8 = f.hdr.writeIdx
  readIndices : ∀ r < maxReaders, leWord mem (32 + 8 * r) 8 = f.hdr.readIndices r
  capacityMask : leWord mem 96 8 = f.hdr.capacityMask
  totalWritten : leWord mem 104 8 = f.hdr.totalWritten
  slots : ∀ j < cap, ∀ b : Fin T.size, mem (headerSize + j * T.size + b) = f.slots j b

/-- The bytes no call writes: the identity, the reader count, the mask, the pads, and what is after the slots. -/
def Fixed (T : RecordType) (cap i : ℕ) : Prop :=
  i < 24 ∨ (96 ≤ i ∧ i < 104) ∨ (112 ≤ i ∧ i < headerSize) ∨ headerSize + cap * T.size ≤ i

def Frame (T : RecordType) (cap : ℕ) (mem mem' : ℕ → UInt8) : Prop := ∀ i, Fixed T cap i → mem' i = mem i

theorem Frame.refl : Frame T cap mem mem := fun _ _ => rfl

theorem Frame.trans {mem'' : ℕ → UInt8} (h : Frame T cap mem mem') (h' : Frame T cap mem' mem'') :
    Frame T cap mem mem'' := fun i hi => (h' i hi).trans (h i hi)

/-- A range that holds no such byte. -/
theorem Frame.blit {off n : ℕ} {v : Fin n → UInt8} (h : ∀ i, Fixed T cap i → i < off ∨ off + n ≤ i) :
    Frame T cap mem (blit mem off v) := fun i hi => blit_outside (h i hi)

/-- A slot is behind the words of the header. -/
theorem Image.slots_apart (h : Image cap mem f) {off n : ℕ} {bytes : Fin n → UInt8} (hoff : off + n ≤ headerSize) :
    ∀ j < cap, ∀ b : Fin T.size, blit mem off bytes (headerSize + j * T.size + b) = f.slots j b := by
  intro j hj b
  rw [blit_outside (.inr (by omega))]
  exact h.slots j hj b

theorem Image.setWriteIdx (h : Image cap mem f) {v : ℕ} (hv : v < u64Size) :
    Image cap (blit mem 24 fun i : Fin 8 => byteOf v i) ⟨{ f.hdr with writeIdx := v }, f.slots⟩ ∧
      Frame T cap mem (blit mem 24 fun i : Fin 8 => byteOf v i) := by
  refine ⟨⟨?_, leWord_blit hv, fun r hr => ?_, ?_, ?_, h.slots_apart (by decide)⟩, .blit fun i hi => ?_⟩
  · exact leWord_apart h.numReaders (by decide)
  · exact leWord_apart (h.readIndices r hr) (.inr (by omega))
  · exact leWord_apart h.capacityMask (by decide)
  · exact leWord_apart h.totalWritten (by decide)
  · unfold Fixed headerSize at hi
    omega

theorem Image.setTotalWritten (h : Image cap mem f) {v : ℕ} (hv : v < u64Size) :
    Image cap (blit mem 104 fun i : Fin 8 => byteOf v i) ⟨{ f.hdr with totalWritten := v }, f.slots⟩ ∧
      Frame T cap mem (blit mem 104 fun i : Fin 8 => byteOf v i) := by
  refine ⟨⟨?_, ?_, fun r hr => ?_, ?_, leWord_blit hv, h.slots_apart (by decide)⟩, .blit fun i hi => ?_⟩
  · exact leWord_apart h.numReaders (by decide)
  · exact leWord_apart h.writeIdx (by decide)
  · change r < 8 at hr
    exact leWord_apart (h.readIndices r hr) (.inl (by omega))
  · exact leWord_apart h.capacityMask (by decide)
  · unfold Fixed headerSize at hi
    omega

theorem Image.setReadIdx (h : Image cap mem f) {r v : ℕ} (hr : r < maxReaders) (hv : v < u64Size) :
    Image cap (blit mem (32 + 8 * r) fun i : Fin 8 => byteOf v i)
        ⟨{ f.hdr with readIndices := Function.update f.hdr.readIndices r v }, f.slots⟩ ∧
      Frame T cap mem (blit mem (32 + 8 * r) fun i : Fin 8 => byteOf v i) := by
  change r < 8 at hr
  refine ⟨⟨?_, ?_, fun q hq => ?_, ?_, ?_, h.slots_apart (by unfold headerSize; omega)⟩, .blit fun i hi => ?_⟩
  · exact leWord_apart h.numReaders (.inl (by omega))
  · exact leWord_apart h.writeIdx (.inl (by omega))
  · show _ = Function.update f.hdr.readIndices r v q
    by_cases hqr : q = r
    · subst hqr
      rw [Function.update_self]
      exact leWord_blit hv
    · rw [Function.update_of_ne hqr]
      exact leWord_apart (h.readIndices q hq) (by omega)
  · exact leWord_apart h.capacityMask (.inr (by omega))
  · exact leWord_apart h.totalWritten (.inr (by omega))
  · unfold Fixed headerSize at hi
    omega

/-- A record is stored in its slot. -/
theorem Image.setSlot (h : Image cap mem f) {j : ℕ} (hj : j < cap) (value : Record T) :
    Image cap (blit mem (headerSize + j * T.size) value) ⟨f.hdr, Function.update f.slots j value⟩ ∧
      Frame T cap mem (blit mem (headerSize + j * T.size) value) := by
  have hend : j * T.size + T.size ≤ cap * T.size := by
    rw [← Nat.succ_mul]
    exact Nat.mul_le_mul_right _ hj
  have hhdr : ∀ off n, off + n ≤ headerSize → off + n ≤ headerSize + j * T.size := fun off n hle =>
    hle.trans (Nat.le_add_right _ _)
  refine ⟨⟨?_, ?_, fun r hr => ?_, ?_, ?_, fun i hi b => ?_⟩, .blit fun i hi => ?_⟩
  · exact leWord_apart h.numReaders (.inl (hhdr _ _ (by decide)))
  · exact leWord_apart h.writeIdx (.inl (hhdr _ _ (by decide)))
  · change r < 8 at hr
    exact leWord_apart (h.readIndices r hr) (.inl (hhdr _ _ (by unfold headerSize; omega)))
  · exact leWord_apart h.capacityMask (.inl (hhdr _ _ (by decide)))
  · exact leWord_apart h.totalWritten (.inl (hhdr _ _ (by decide)))
  · show _ = Function.update f.slots j value i b
    by_cases hij : i = j
    · subst hij
      rw [blit_at, Function.update_self]
    · have hap := @Cells.apart_of_ne T.size headerSize _ _ hij
      unfold Cells.Apart at hap
      rw [Function.update_of_ne hij, blit_outside (by omega)]
      exact h.slots i hi b
  · unfold Fixed at hi
    unfold headerSize at hi ⊢
    omega

/-! ## The calls -/

/-- The slots are in the mapping. -/
structure Room (T : RecordType) (length cap : ℕ) : Prop where
  pow : ∃ k, cap = 2 ^ k
  fits : headerSize + cap * T.size ≤ length
  lt : length < u64Size
  align : T.align ≤ 64

/-- What a call that does not return leaves: an error nothing, a panic what it had written so far. -/
def Spoils (T : RecordType) (cap : ℕ) (mem : ℕ → UInt8) : Fault → (ℕ → UInt8) → Prop
  | .err _, mem' => mem' = mem
  | .panic _, mem' => Frame T cap mem mem'

theorem Spoils.refl (e : Fault) : Spoils T cap mem e mem := by
  cases e with
  | err e => exact rfl
  | panic e => exact Frame.refl

theorem add_spoils {a b : ℕ} {e : Fault} (h : p.add a b = .error e) (hframe : Frame T cap mem mem') :
    Spoils T cap mem e mem' := by
  unfold Profile.add at h
  split_ifs at h
  cases h
  exact hframe

/-- A call that leaves the bytes as they are and returns what is returned on the ring. -/
def Reads (mem : ℕ → UInt8) {β : Type} (b : β) (m : ℕ → UInt8) (r : β) : Prop := m = mem ∧ r = b

/-- A call that returns what is returned on the ring, and leaves the bytes of the ring that is left. -/
def Leaves (cap : ℕ) (mem : ℕ → UInt8) {β : Type} (b : β) (m : ℕ → UInt8) (r : β × RingFile (Record T)) : Prop :=
  r.1 = b ∧ Image cap m r.2 ∧ Frame T cap mem m

section Words

variable {r n : ℕ}

theorem numReaders_eq (himg : Image cap mem f) (hlen : headerSize ≤ length) :
    numReaders length mem = (.ok f.hdr.numReaders, mem) := by
  rw [← himg.numReaders]
  exact loadWord_eq (le_trans (by decide) hlen) (by decide)

theorem writeIdx_eq (himg : Image cap mem f) (hlen : headerSize ≤ length) :
    writeIdx length mem = (.ok f.hdr.writeIdx, mem) := by
  rw [← himg.writeIdx]
  exact loadWord_eq (le_trans (by decide) hlen) (by decide)

theorem totalWritten_eq (himg : Image cap mem f) (hlen : headerSize ≤ length) :
    totalWritten length mem = (.ok f.hdr.totalWritten, mem) := by
  rw [← himg.totalWritten]
  exact loadWord_eq (le_trans (by decide) hlen) (by decide)

theorem bumpTotalWritten_eq (himg : Image cap mem f) (hlen : headerSize ≤ length) :
    bumpTotalWritten length mem =
      (.ok (), blit mem 104 fun i : Fin 8 => byteOf (wrappingAdd f.hdr.totalWritten 1) i) := by
  unfold bumpTotalWritten
  rw [bind_ok (totalWritten_eq himg hlen)]
  exact storeWord_eq (le_trans (by decide) hlen) (by decide)

theorem cursor_in (hr : r < maxReaders) (hlen : headerSize ≤ length) : 32 + 8 * r + 8 ≤ length := by
  change r < 8 at hr
  change 256 ≤ length at hlen
  omega

theorem cursor_eq (himg : Image cap mem f) (hlen : headerSize ≤ length) (hr : r < maxReaders) :
    loadWord length (32 + 8 * r) 8 mem = (.ok (f.hdr.readIndices r), mem) := by
  rw [← himg.readIndices r hr]
  exact loadWord_eq (cursor_in hr hlen) (by omega)

theorem readIdx_meets (himg : Image cap mem f) (hlen : headerSize ≤ length) :
    Meets (fun b m v => (m = mem ∧ v = b) ∧ r < maxReaders) (Spoils T cap mem) (readIdx length r mem)
      (f.hdr.readIdx r) := by
  unfold readIdx RingHeader.readIdx
  by_cases hr : r < maxReaders
  · rw [if_pos hr, ensure_pos hr, bind_ok lift_ok, cursor_eq himg hlen hr]
    exact .ok ⟨⟨rfl, rfl⟩, hr⟩
  · rw [if_neg hr, ensure_neg hr, bind_error lift_error]
    exact .error (.refl _)

/-- The loop over the cursors. -/
theorem fold_eq (himg : Image cap mem f) (hlen : headerSize ≤ length) {rs : List ℕ} (hrs : ∀ r ∈ rs, r < maxReaders)
    (a : ℕ) : (rs.foldlM (fun least i => do
      let r ← loadWord length (32 + 8 * i) 8
      return min least r) a : OnBytes ℕ) mem = (.ok ((rs.map f.hdr.readIndices).foldl min a), mem) := by
  induction rs generalizing a with
  | nil => rfl
  | cons r rs ih =>
      have hbody : (do
          let v ← loadWord length (32 + 8 * r) 8
          return min a v : OnBytes ℕ) mem = (.ok (min a (f.hdr.readIndices r)), mem) := by
        rw [bind_ok (cursor_eq himg hlen (hrs r List.mem_cons_self))]
        rfl
      rw [List.foldlM_cons, bind_ok hbody]
      exact ih (fun q hq => hrs q (List.mem_cons_of_mem _ hq)) _

theorem slowestReadIdx_meets (himg : Image cap mem f) (hlen : headerSize ≤ length) :
    Meets (Reads mem) (Spoils T cap mem) (slowestReadIdx length n mem) (f.hdr.slowestReadIdx n) := by
  unfold slowestReadIdx RingHeader.slowestReadIdx
  by_cases hn : n ≤ maxReaders
  · rw [if_pos hn, ensure_pos hn, bind_ok lift_ok,
      fold_eq himg hlen fun r hr => (List.mem_range.mp hr).trans_le hn]
    exact .ok ⟨rfl, rfl⟩
  · rw [if_neg hn, ensure_neg hn, bind_error lift_error]
    exact .error (.refl _)

theorem checkReader_meets (himg : Image cap mem f) (hlen : headerSize ≤ length) :
    Meets (Reads mem) (Spoils T cap mem) (checkReader p length r mem) (ShmRings.checkReader p f.hdr r) := by
  unfold checkReader ShmRings.checkReader
  refine .step (numReaders_eq himg hlen) ?_
  dsimp only
  split_ifs
  · exact .lift (fun e _ => .refl e) fun max _ => .error (.refl _)
  · exact .ok ⟨rfl, rfl⟩

theorem setReadIdx_meets (himg : Image cap mem f) (hlen : headerSize ≤ length) {v : ℕ} (hv : v < u64Size) :
    Meets (fun _ m hdr => Image cap m ⟨hdr, f.slots⟩ ∧ Frame T cap mem m) (Spoils T cap mem)
      (setReadIdx length r v mem) (f.hdr.setReadIdx r v) := by
  unfold setReadIdx RingHeader.setReadIdx
  by_cases hr : r < maxReaders
  · rw [if_pos hr, ensure_pos hr, bind_ok lift_ok, storeWord_eq (cursor_in hr hlen) (by omega)]
    exact .ok (himg.setReadIdx hr hv)
  · rw [if_neg hr, ensure_neg hr, bind_error lift_error]
    exact .error (.refl _)

end Words

section Slots

variable {h : Handle} {idx : ℕ}

theorem Room.header_le (hroom : Room T length cap) : headerSize ≤ length :=
  (Nat.le_add_right _ _).trans hroom.fits

/-- **The address of a slot** is in the mapping and aligned. -/
theorem Room.slotPtr_eq (hroom : Room T length cap) (hcap : h.capacity = cap) (idx : ℕ) :
    slotPtr p T h idx = .ok (headerSize + h.slot idx * T.size) ∧ h.slot idx < cap ∧
      headerSize + h.slot idx * T.size + T.size ≤ length ∧ T.align ∣ headerSize + h.slot idx * T.size := by
  obtain ⟨k, rfl⟩ := hroom.pow
  have hslot : h.slot idx = idx % 2 ^ k := by
    unfold Handle.slot
    rw [hcap]
    exact slotOf_eq_mod k idx
  have hlt : idx % 2 ^ k < 2 ^ k := Nat.mod_lt _ (Nat.two_pow_pos k)
  have hend := @Cells.grid_lt T.size headerSize _ _ hlt
  rw [hslot]
  refine ⟨?_, hlt, hend.trans hroom.fits, ?_⟩
  · exact ShmRings.slotPtr_eq (m := ⟨h, .ofBytes fun _ => 0, 0⟩) hcap (hroom.fits.trans_lt hroom.lt) idx
  · exact Nat.dvd_add (align_dvd_headerSize hroom.align) (T.align_dvd.mul_left _)

/-- The record in a slot is read. -/
theorem readVolatile_eq (hroom : Room T length cap) (himg : Image cap mem f) (hcap : h.capacity = cap) (idx : ℕ) :
    readVolatile T length (headerSize + h.slot idx * T.size) mem = (.ok (f.slots (h.slot idx)), mem) := by
  obtain ⟨-, hlt, hin, halign⟩ := hroom.slotPtr_eq (p := checked) hcap idx
  unfold readVolatile
  rw [load_eq hin halign, funext fun b => himg.slots _ hlt b]

end Slots

section Calls

variable {h : Handle} {r : ℕ}

theorem tryPush_meets (hroom : Room T length cap) (himg : Image cap mem f) (hcap : h.capacity = cap)
    (value : Record T) : Meets (Leaves cap mem) (Spoils T cap mem) (tryPush p T length h value mem)
      (ShmRings.tryPush p h f value) := by
  have hlen := hroom.header_le
  unfold tryPush ShmRings.tryPush
  refine .step (writeIdx_eq himg hlen) (.step (numReaders_eq himg hlen) ?_)
  refine .bind (slowestReadIdx_meets himg hlen) ?_
  rintro least _ _ ⟨rfl, rfl⟩
  refine .lift (fun e _ => .refl e) fun lag _ => ?_
  split_ifs
  · exact .ok ⟨rfl, himg, .refl⟩
  · obtain ⟨hslot, hlt, hin, halign⟩ := hroom.slotPtr_eq (p := p) hcap f.hdr.writeIdx
    rw [hslot, bind_ok lift_ok]
    obtain ⟨himg₁, hframe₁⟩ := himg.setSlot hlt value
    refine .step (store_eq hin halign) ?_
    -- the slot is written when the addition panics
    refine .lift (fun e he => add_spoils he hframe₁) fun next hnext => ?_
    obtain ⟨himg₂, hframe₂⟩ := himg₁.setWriteIdx (Profile.add_lt hnext)
    refine .step (storeWord_eq (le_trans (by decide) hlen) (by decide)) ?_
    obtain ⟨himg₃, hframe₃⟩ := himg₂.setTotalWritten (wrappingAdd_lt f.hdr.totalWritten 1)
    refine .step (bumpTotalWritten_eq himg₂ hlen) ?_
    exact .ok ⟨rfl, himg₃, (hframe₁.trans hframe₂).trans hframe₃⟩

theorem tryPop_meets (hroom : Room T length cap) (himg : Image cap mem f) (hcap : h.capacity = cap) :
    Meets (Leaves cap mem) (Spoils T cap mem) (tryPop p T length h r mem) (ShmRings.tryPop p h f r) := by
  have hlen := hroom.header_le
  unfold tryPop ShmRings.tryPop
  refine .bind (checkReader_meets himg hlen) ?_
  rintro _ _ _ ⟨rfl, -⟩
  refine .lift (fun e _ => .refl e) fun depth _ => ?_
  split_ifs
  · exact .error (.refl _)
  · refine .step (writeIdx_eq himg hlen) (.bind (readIdx_meets himg hlen) ?_)
    rintro _ _ cursor ⟨⟨rfl, rfl⟩, -⟩
    split_ifs
    · exact .ok ⟨rfl, himg, .refl⟩
    · rw [(hroom.slotPtr_eq hcap cursor).1, bind_ok lift_ok]
      refine .step (readVolatile_eq hroom himg hcap cursor) ?_
      refine .lift (fun e _ => .refl e) fun next hnext => ?_
      refine .bind (setReadIdx_meets himg hlen (Profile.add_lt hnext)) ?_
      rintro _ m hdr ⟨himg', hframe⟩
      exact .ok ⟨rfl, himg', hframe⟩

/-- A pointer is to the slot. -/
theorem peek_meets (hroom : Room T length cap) (himg : Image cap mem f) (hcap : h.capacity = cap) :
    Meets (fun ptr m slot => m = mem ∧ (slot = none ∧ ptr = none ∨
        ∃ idx, slot = some (h.slot idx) ∧ ptr = some (headerSize + h.slot idx * T.size)))
      (Spoils T cap mem) (peek p T length h r mem) (ShmRings.peek p h f r) := by
  have hlen := hroom.header_le
  unfold peek ShmRings.peek
  refine .bind (checkReader_meets himg hlen) ?_
  rintro _ _ _ ⟨rfl, -⟩
  refine .step (writeIdx_eq himg hlen) (.bind (readIdx_meets himg hlen) ?_)
  rintro _ _ cursor ⟨⟨rfl, rfl⟩, -⟩
  split_ifs
  · exact .ok ⟨rfl, .inl ⟨rfl, rfl⟩⟩
  · rw [(hroom.slotPtr_eq hcap cursor).1, bind_ok lift_ok]
    exact .ok ⟨rfl, .inr ⟨cursor, rfl, rfl⟩⟩

theorem len_meets (himg : Image cap mem f) (hlen : headerSize ≤ length) :
    Meets (Reads mem) (Spoils T cap mem) (len p length r mem) (ShmRings.len p f r) := by
  unfold len ShmRings.len
  refine .bind (checkReader_meets himg hlen) ?_
  rintro _ _ _ ⟨rfl, -⟩
  refine .step (writeIdx_eq himg hlen) (.bind (readIdx_meets himg hlen) ?_)
  rintro _ _ cursor ⟨⟨rfl, rfl⟩, -⟩
  exact .ok ⟨rfl, rfl⟩

theorem isEmpty_meets (himg : Image cap mem f) (hlen : headerSize ≤ length) :
    Meets (Reads mem) (Spoils T cap mem) (isEmpty p length r mem) (ShmRings.isEmpty p f r) := by
  refine .bind (len_meets himg hlen) ?_
  rintro n _ _ ⟨rfl, rfl⟩
  exact .ok ⟨rfl, rfl⟩

theorem slowestLag_meets (himg : Image cap mem f) (hlen : headerSize ≤ length) :
    Meets (Reads mem) (Spoils T cap mem) (slowestLag length mem) (ShmRings.slowestLag f) := by
  unfold slowestLag ShmRings.slowestLag
  refine .step (numReaders_eq himg hlen) (.step (writeIdx_eq himg hlen) ?_)
  refine .bind (slowestReadIdx_meets himg hlen) ?_
  rintro least _ _ ⟨rfl, rfl⟩
  exact .ok ⟨rfl, rfl⟩

/-! Loans. A handle keeps its capacity. -/

theorem raiseGate_capacity {h' : Handle} (heq : h.raiseGate r = .ok h') : h'.capacity = h.capacity := by
  unfold Handle.raiseGate at heq
  split_ifs at heq
  cases heq
  rfl

theorem lowerGate_capacity {h' : Handle} (heq : h.lowerGate r = .ok h') : h'.capacity = h.capacity := by
  unfold Handle.lowerGate at heq
  split_ifs at heq
  cases heq
  rfl

theorem setBase_capacity {h' : Handle} {v : ℕ} (heq : h.setBase r v = .ok h') : h'.capacity = h.capacity := by
  unfold Handle.setBase at heq
  split_ifs at heq
  cases heq
  rfl

theorem resolve_capacity {l l' : Loan} {h' : Handle} (heq : l.resolve h = .ok (l', h')) :
    l' = { l with resolved := true } ∧ h'.capacity = h.capacity := by
  obtain ⟨h₁, hlower, heq⟩ := bind_eq_ok.mp heq
  cases heq
  exact ⟨rfl, lowerGate_capacity hlower⟩

/-- The gate panics at most. -/
theorem resolve_spoils {l : Loan} {e : Fault} (heq : l.resolve h = .error e) (hframe : Frame T cap mem mem') :
    Spoils T cap mem e mem' := by
  unfold Loan.resolve Handle.lowerGate at heq
  split_ifs at heq
  · cases heq
  · cases heq
    exact hframe

/-- The loan with the pointer to its slot. -/
def Borrow.of (T : RecordType) (cap : ℕ) (l : Loan) : Borrow := ⟨l, headerSize + slotOf cap l.index * T.size⟩

@[simp] theorem Borrow.of_loan (l : Loan) : (Borrow.of T cap l).loan = l := rfl

theorem claim_meets (hroom : Room T length cap) (himg : Image cap mem f) (hcap : h.capacity = cap) :
    Meets (fun b m x => m = mem ∧ b = (x.1.map (Borrow.of T cap), x.2) ∧ x.2.capacity = cap)
      (Spoils T cap mem) (claim p T length h r mem) (ShmRings.claim p h f r) := by
  have hlen := hroom.header_le
  unfold claim ShmRings.claim
  refine .bind (checkReader_meets himg hlen) ?_
  rintro _ _ _ ⟨rfl, -⟩
  refine .lift (fun e _ => .refl e) fun h₁ hraise => ?_
  refine .step (writeIdx_eq himg hlen) (.bind (readIdx_meets himg hlen) ?_)
  rintro _ _ cursor ⟨⟨rfl, rfl⟩, -⟩
  refine .lift (fun e _ => .refl e) fun base _ => ?_
  have hcap₁ : h₁.capacity = cap := (raiseGate_capacity hraise).trans hcap
  dsimp only
  split_ifs
  · refine .lift (fun e _ => .refl e) fun h₂ hlower => ?_
    exact .ok ⟨rfl, rfl, (lowerGate_capacity hlower).trans hcap₁⟩
  · refine .lift (fun e _ => .refl e) fun next _ => .lift (fun e _ => .refl e) fun h₂ hset => ?_
    have hcap₂ : h₂.capacity = cap := (setBase_capacity hset).trans hcap₁
    rw [(hroom.slotPtr_eq hcap₂ _).1, bind_ok lift_ok]
    refine .ok ⟨rfl, ?_, hcap₂⟩
    unfold Borrow.of Handle.slot
    rw [hcap₂]
    rfl

theorem commit_meets (himg : Image cap mem f) (hlen : headerSize ≤ length) (hcap : h.capacity = cap) (b : Borrow) :
    Meets (fun b' m x => b' = (⟨x.1, b.ptr⟩, x.2.1) ∧ x.1.index = b.loan.index ∧ x.2.1.capacity = cap ∧
        Image cap m x.2.2 ∧ Frame T cap mem m)
      (Spoils T cap mem) (b.commit p length h mem) (b.loan.commit p h f) := by
  unfold Borrow.commit Loan.commit
  split_ifs
  · exact .ok ⟨rfl, rfl, hcap, himg, .refl⟩
  · refine .bind (readIdx_meets himg hlen) ?_
    rintro _ _ cursor ⟨⟨rfl, rfl⟩, -⟩
    split_ifs
    · exact .error (.refl _)
    · refine .lift (fun e _ => .refl e) fun next hnext => ?_
      refine .bind (setReadIdx_meets himg hlen (Profile.add_lt hnext)) ?_
      rintro _ m hdr ⟨himg', hframe⟩
      refine .lift (fun e he => resolve_spoils he hframe) fun ⟨l', h'⟩ hres => ?_
      obtain ⟨rfl, hcap'⟩ := resolve_capacity hres
      exact .ok ⟨rfl, rfl, hcap'.trans hcap, himg', hframe⟩

theorem abort_capacity {l : Loan} {h' : Handle} (heq : l.abort h = .ok h') : h'.capacity = h.capacity := by
  unfold Loan.abort at heq
  split_ifs at heq
  · cases heq
    rfl
  · simp only [bind_eq_ok] at heq
    obtain ⟨base, -, h₁, hset, ⟨l₁, h₂⟩, hres, heq⟩ := heq
    cases heq
    exact (resolve_capacity hres).2.trans (setBase_capacity hset)

theorem drop_meets (himg : Image cap mem f) (hlen : headerSize ≤ length) (hcap : h.capacity = cap) (b : Borrow) :
    Meets (fun h' m x => h' = x.1 ∧ x.1.capacity = cap ∧ Image cap m x.2 ∧ Frame T cap mem m)
      (Spoils T cap mem) (b.drop p length h mem) (b.loan.drop p h f) := by
  unfold Borrow.drop Loan.drop
  split_ifs
  · exact .ok ⟨rfl, hcap, himg, .refl⟩
  · refine .bind (readIdx_meets himg hlen) ?_
    rintro _ _ cursor ⟨⟨rfl, rfl⟩, -⟩
    split_ifs
    · refine .lift (fun e _ => .refl e) fun next hnext => ?_
      refine .bind (setReadIdx_meets himg hlen (Profile.add_lt hnext)) ?_
      rintro _ m hdr ⟨himg', hframe⟩
      refine .lift (fun e he => resolve_spoils he hframe) fun ⟨l', h'⟩ hres => ?_
      exact .ok ⟨rfl, (resolve_capacity hres).2.trans hcap, himg', hframe⟩
    · refine .lift (fun e _ => .refl e) fun ⟨l', h'⟩ hres => ?_
      exact .ok ⟨rfl, (resolve_capacity hres).2.trans hcap, himg, .refl⟩

end Calls

/-! ## Runs -/

section Runs

variable {raw : RawFile} {m : Mapping} {t : State} {w : World (Record T)} {s : Locals}

/-- The bytes and the local states stand for `w`, and the bytes no call writes are those of the file. -/
structure Shows (raw : RawFile) (m : Mapping) (t : State) (w : World (Record T)) : Prop where
  handle : t.1.handle = w.handle
  capacity : ∀ k, (w.handle k).capacity = m.handle.capacity
  loans : t.1.loans = w.loans.map fun x => (x.1, Borrow.of T m.handle.capacity x.2)
  image : Image m.handle.capacity t.2 w.file
  frame : Frame T m.handle.capacity raw.byte t.2

/-- The geometry of a handle on a file that was opened. -/
theorem room_of_open (hopen : openExisting p T raw = .ok m)
    (hfit : headerSize + m.handle.capacity * T.size < u64Size) : Room T raw.length m.handle.capacity ∧
      m.handle = .fresh m.handle.capacity ∧ leWord raw.byte 96 8 + 1 = m.handle.capacity := by
  obtain ⟨-, halign, -, -, -, hvalid, cap, bytes, expected, hcap, hhandle, hmul, hadd, hle⟩ := openExisting_ok hopen
  obtain ⟨k, hk, hpow⟩ := capacity_of_valid hvalid
  have hlt : 2 ^ k < u64Size := Nat.pow_lt_pow_right (by decide) hk
  rw [p.add_eq (hpow ▸ hlt), hpow] at hcap
  cases hcap
  rw [hhandle] at hfit ⊢
  change headerSize + 2 ^ k * T.size < u64Size at hfit
  rw [p.mul_eq (by omega)] at hmul
  cases hmul
  rw [p.add_eq hfit] at hadd
  cases hadd
  exact ⟨⟨⟨k, rfl⟩, hle, raw.length_lt, halign⟩, rfl, hpow⟩

/-- The identity and the mask stay, so the file can be opened again. -/
theorem reopen (hopen : openExisting p T raw = .ok m)
    (hfit : headerSize + m.handle.capacity * T.size < u64Size) (hframe : Frame T m.handle.capacity raw.byte mem) :
    openExisting p T { raw with byte := mem } =
      .ok ⟨.fresh m.handle.capacity, .ofBytes mem, raw.length⟩ := by
  obtain ⟨hroom, -, hmask⟩ := room_of_open hopen hfit
  have hword : ∀ off n, (∀ i < n, Fixed T m.handle.capacity (off + i)) → leWord mem off n = leWord raw.byte off n := by
    intro off n hfix
    exact Status.leWord_congr fun i hi => hframe _ (hfix i hi)
  have hmagic : leWord mem 0 8 = leWord raw.byte 0 8 := hword 0 8 fun i hi => .inl (by omega)
  have hversion : leWord mem 8 4 = leWord raw.byte 8 4 := hword 8 4 fun i hi => .inl (by omega)
  have hmask' : leWord mem 96 8 = leWord raw.byte 96 8 := hword 96 8 fun i hi => .inr (.inl (by omega))
  have hopen' := hopen
  simp only [openExisting, bind_eq_ok, ensure_eq_ok, exists_const] at hopen'
  obtain ⟨-, hsize, hopened, hmeta, -, hmapped, ⟨⟩, hvalid, -⟩ := hopen'
  refine openExisting_eq hroom.align hsize hopened hmeta hmapped ?_ ?_ ?_ hroom.fits
  · unfold RingHeader.validate RingHeader.ofBytes at hvalid ⊢
    dsimp only at hvalid ⊢
    rw [hmagic, hversion, hmask']
    exact hvalid
  · omega
  · show leWord mem 96 8 = _
    omega

/-- A call of handle `k` that leaves the handle `h'`. -/
theorem Shows.update (h : Shows raw m (s, mem) w) {k : ℕ} {h' : Handle} {bs : List (ℕ × Borrow)}
    {ls : List (ℕ × Loan)} {stream : List (Record T)} (hcap : h'.capacity = m.handle.capacity)
    (hbs : bs = ls.map fun x => (x.1, Borrow.of T m.handle.capacity x.2))
    (himg : Image m.handle.capacity mem' f') (hframe : Frame T m.handle.capacity mem mem') :
    Shows raw m (⟨Function.update s.handle k h', bs⟩, mem') ⟨f', Function.update w.handle k h', ls, stream⟩ := by
  have hhandle : s.handle = w.handle := h.handle
  refine ⟨?_, fun q => ?_, hbs, himg, h.frame.trans hframe⟩
  · show Function.update s.handle k h' = Function.update w.handle k h'
    rw [hhandle]
  · show (Function.update w.handle k h' q).capacity = _
    by_cases hq : q = k
    · subst hq
      rw [Function.update_self]
      exact hcap
    · rw [Function.update_of_ne hq]
      exact h.capacity q

/-- A call that changes the file only. -/
theorem Shows.setFile (h : Shows raw m (s, mem) w) {stream : List (Record T)}
    (himg : Image m.handle.capacity mem' f') (hframe : Frame T m.handle.capacity mem mem') :
    Shows raw m (s, mem') { w with file := f', stream := stream } :=
  ⟨h.handle, h.capacity, h.loans, himg, h.frame.trans hframe⟩

/-- A loan of the world is the one with the pointer. -/
theorem Shows.loan (h : Shows raw m (s, mem) w) (i : ℕ) :
    s.loans[i]? = w.loans[i]?.map fun x => (x.1, Borrow.of T m.handle.capacity x.2) := by
  have hloans : s.loans = _ := h.loans
  rw [hloans, List.getElem?_map]

/-- A loan is replaced by one of the same index. -/
theorem Shows.setLoan (h : Shows raw m (s, mem) w) (i k : ℕ) {l : Loan} {b : Borrow}
    (hb : b = Borrow.of T m.handle.capacity l) : s.loans.set i (k, b) =
      (w.loans.set i (k, l)).map fun x => (x.1, Borrow.of T m.handle.capacity x.2) := by
  have hloans : s.loans = _ := h.loans
  rw [hloans, List.map_set, hb]

/-- **A call on the bytes** does what it does on the ring. -/
theorem apply_meets (hopen : openExisting p T raw = .ok m)
    (hfit : headerSize + m.handle.capacity * T.size < u64Size) (h : Shows raw m (s, mem) w) (c : Call (Record T)) :
    Meets (fun b mem' r => r.1 = b.1 ∧ Shows raw m (b.2, mem') r.2) (Spoils T m.handle.capacity mem)
      (s.apply p T raw c mem) (w.apply p c) := by
  obtain ⟨hroom, -, hmask⟩ := room_of_open hopen hfit
  have hlen := hroom.header_le
  have hhandle : s.handle = w.handle := h.handle
  have himg : Image m.handle.capacity mem w.file := h.image
  cases c with
  | openExisting k =>
      simp only [Locals.apply, World.apply]
      have hre : Locals.openExisting p T raw mem =
          (.ok ⟨.fresh m.handle.capacity, .ofBytes mem, raw.length⟩, mem) := by
        unfold Locals.openExisting
        rw [reopen hopen hfit h.frame]
        rfl
      refine .step hre ?_
      have hmask' : w.file.hdr.capacityMask + 1 = m.handle.capacity := by
        rw [← himg.capacityMask, ← hmask]
        congr 1
        exact Status.leWord_congr fun i hi => h.frame _ (.inr (.inl (by omega)))
      rw [hmask']
      exact .ok ⟨rfl, h.update rfl h.loans himg .refl⟩
  | tryPush k value =>
      simp only [Locals.apply, World.apply, hhandle]
      refine .bind (tryPush_meets hroom himg (h.capacity k) value) ?_
      rintro b mem' ⟨_, f'⟩ ⟨rfl, himg', hframe⟩
      exact .ok ⟨rfl, h.setFile himg' hframe⟩
  | tryPop k r =>
      simp only [Locals.apply, World.apply, hhandle]
      refine .bind (tryPop_meets hroom himg (h.capacity k)) ?_
      rintro b mem' ⟨_, f'⟩ ⟨rfl, himg', hframe⟩
      exact .ok ⟨rfl, h.setFile himg' hframe⟩
  | peek k r =>
      simp only [Locals.apply, World.apply, hhandle]
      refine .bind (peek_meets hroom himg (h.capacity k)) ?_
      rintro _ _ _ ⟨rfl, ⟨rfl, rfl⟩ | ⟨idx, rfl, rfl⟩⟩
      · exact .ok ⟨rfl, h⟩
      · refine .step (readVolatile_eq hroom himg (h.capacity k) idx) ?_
        exact .ok ⟨rfl, h⟩
  | len k r =>
      simp only [Locals.apply, World.apply]
      refine .bind (len_meets himg hlen) ?_
      rintro n _ _ ⟨rfl, rfl⟩
      exact .ok ⟨rfl, h⟩
  | isEmpty k r =>
      simp only [Locals.apply, World.apply]
      refine .bind (isEmpty_meets himg hlen) ?_
      rintro b _ _ ⟨rfl, rfl⟩
      exact .ok ⟨rfl, h⟩
  | slowestLag k =>
      simp only [Locals.apply, World.apply]
      refine .bind (slowestLag_meets himg hlen) ?_
      rintro n _ _ ⟨rfl, rfl⟩
      exact .ok ⟨rfl, h⟩
  | totalWritten k =>
      simp only [Locals.apply, World.apply]
      exact .step (totalWritten_eq himg hlen) (.ok ⟨rfl, h⟩)
  | claim k r =>
      simp only [Locals.apply, World.apply, hhandle]
      refine .bind (claim_meets hroom himg (h.capacity k)) ?_
      rintro _ _ ⟨l, h'⟩ ⟨rfl, rfl, hcap⟩
      cases l with
      | none => exact .ok ⟨rfl, h.update hcap h.loans himg .refl⟩
      | some l =>
          have hread := readVolatile_eq hroom himg hcap l.index
          unfold Handle.slot at hread
          rw [hcap] at hread
          refine .step hread ?_
          refine .ok ⟨?_, h.update hcap ?_ himg .refl⟩
          · unfold Loan.deref Handle.slot
            rw [hcap]
            rfl
          · have hloans : s.loans = _ := h.loans
            rw [hloans, List.map_append]
            rfl
  | commit i =>
      simp only [Locals.apply, World.apply, hhandle, h.loan i]
      cases hl : w.loans[i]? with
      | none => exact .ok ⟨rfl, h⟩
      | some x =>
          obtain ⟨k, l⟩ := x
          refine .bind (commit_meets himg hlen (h.capacity k) (Borrow.of T m.handle.capacity l)) ?_
          rintro _ mem' ⟨l', h', f'⟩ ⟨rfl, hidx, hcap, himg', hframe⟩
          refine .ok ⟨rfl, h.update hcap (h.setLoan i k ?_) himg' hframe⟩
          unfold Borrow.of
          rw [hidx]
          rfl
  | abort i =>
      simp only [Locals.apply, World.apply, hhandle, h.loan i]
      cases hl : w.loans[i]? with
      | none => exact .ok ⟨rfl, h⟩
      | some x =>
          obtain ⟨k, l⟩ := x
          refine .lift (fun e _ => .refl e) fun h' habort => ?_
          refine .ok ⟨rfl, h.update ((abort_capacity habort).trans (h.capacity k)) (h.setLoan i k rfl) himg .refl⟩
  | drop i =>
      simp only [Locals.apply, World.apply, hhandle, h.loan i]
      cases hl : w.loans[i]? with
      | none => exact .ok ⟨rfl, h⟩
      | some x =>
          obtain ⟨k, l⟩ := x
          refine .bind (drop_meets himg hlen (h.capacity k) (Borrow.of T m.handle.capacity l)) ?_
          rintro _ mem' ⟨h', f'⟩ ⟨rfl, hcap, himg', hframe⟩
          exact .ok ⟨rfl, h.update hcap (h.setLoan i k rfl) himg' hframe⟩

/-- **A call and its result**: it returns the same on the bytes and on the ring, an error has changed nothing, or
both panic. -/
theorem call_shows (hopen : openExisting p T raw = .ok m)
    (hfit : headerSize + m.handle.capacity * T.size < u64Size) (h : Shows raw m t w) (c : Call (Record T)) :
    (∃ a t' w', call p raw t c = .ok (a, t') ∧ w.call p c = .ok (a, w') ∧ Shows raw m t' w' ∧
      ∀ e, a = .error e → t' = t) ∨
    ∃ e, call p raw t c = .error (some e) ∧ w.call p c = .error e := by
  obtain ⟨s, mem⟩ := t
  have hmeets := apply_meets hopen hfit h c
  unfold call World.call
  dsimp only
  generalize s.apply p T raw c mem = x at hmeets
  generalize w.apply p c = y at hmeets
  cases hmeets with
  | @ok b mem' r hr =>
      obtain ⟨reply, s'⟩ := b
      obtain ⟨reply', w'⟩ := r
      obtain ⟨rfl, hshows⟩ := hr
      exact .inl ⟨_, _, _, rfl, rfl, hshows, nofun⟩
  | @error e mem' he =>
      cases e with
      | err e =>
          obtain rfl : mem' = mem := he
          exact .inl ⟨_, _, _, rfl, rfl, h, fun _ _ => rfl⟩
      | panic e => exact .inr ⟨e, rfl, rfl⟩

/-- The ring in the bytes of a file that was opened. -/
def ringOf (T : RecordType) (raw : RawFile) (m : Mapping) : World (Record T) :=
  .opened m fun j b => raw.byte (headerSize + j * T.size + b)

theorem shows_opened (hopen : openExisting p T raw = .ok m) :
    Shows raw m (⟨fun _ => m.handle, []⟩, raw.byte) (ringOf T raw m) := by
  obtain ⟨-, -, -, hhdr, -⟩ := openExisting_ok hopen
  refine ⟨rfl, fun _ => rfl, rfl, ?_, .refl⟩
  unfold ringOf World.opened
  rw [hhdr]
  exact ⟨rfl, rfl, fun _ _ => rfl, rfl, rfl, fun _ _ _ => rfl⟩

/-- The pointer of a loan is dereferenced. -/
theorem Shows.deref (h : Shows raw m t w) (hroom : Room T raw.length m.handle.capacity) {i k : ℕ} {b : Borrow}
    (hb : t.1.loans[i]? = some (k, b)) : ∃ l, w.loans[i]? = some (k, l) ∧ b.loan = l ∧
      b.deref T raw.length t.2 = (.ok (l.deref (w.handle k) w.file), t.2) := by
  obtain ⟨s, mem⟩ := t
  rw [h.loan i] at hb
  obtain ⟨⟨q, l⟩, hl, heq⟩ := Option.map_eq_some_iff.mp hb
  obtain ⟨rfl, rfl⟩ := Prod.mk.inj heq
  refine ⟨l, hl, rfl, ?_⟩
  have hread := readVolatile_eq hroom h.image (h.capacity q) l.index
  unfold Handle.slot at hread
  rw [h.capacity q] at hread
  unfold Loan.deref Handle.slot
  rw [h.capacity q]
  exact hread

/-- **The operations on the bytes of a mapping are those on the ring**, for every file that is opened and every
sequence of calls: the runs have the same calls and results. After a run the bytes stand for the ring of the other
one, and those no call writes are as in the file; no call is stopped at an access outside the mapping, one that
panics does so on both, and one that returns an error has written nothing; and each loan's pointer reads the record
of its index. -/
theorem bytes_refine (hopen : openExisting p T raw = .ok m)
    (hfit : headerSize + m.handle.capacity * T.size < u64Size)
    (es : List (Call (Record T) × Except ShmRingError (Reply (Record T)))) :
    (∀ t, Run (mapped p raw m) (⟨fun _ => m.handle, []⟩, raw.byte) es t →
      ∃ w, Run (world p (· = ringOf T raw m) fun _ _ => True) (ringOf T raw m) es w ∧ Shows raw m t w ∧
        (∀ (c : Call (Record T)) e, call p raw t c = .error e → ∃ q, e = some q ∧ w.call p c = .error q) ∧
        (∀ (c : Call (Record T)) e t', call p raw t c = .ok (.error e, t') → t' = t) ∧
        ∀ (i k : ℕ) (b : Borrow), t.1.loans[i]? = some (k, b) →
          b.deref T raw.length t.2 = (.ok (b.loan.deref (w.handle k) w.file), t.2)) ∧
    ∀ w, Run (world p (· = ringOf T raw m) fun _ _ => True) (ringOf T raw m) es w →
      ∃ t, Run (mapped p raw m) (⟨fun _ => m.handle, []⟩, raw.byte) es t ∧ Shows raw m t w := by
  obtain ⟨hroom, -, -⟩ := room_of_open hopen hfit
  constructor
  · intro t ht
    obtain ⟨w, hw, hshows⟩ : ∃ w, Run (world p (· = ringOf T raw m) fun _ _ => True) (ringOf T raw m) es w ∧
        Shows raw m t w := by
      induction ht with
      | nil => exact ⟨_, .nil, shows_opened hopen⟩
      | @snoc es u e t _ hst ih =>
          obtain ⟨w, hw, hshows⟩ := ih
          obtain ⟨c, a⟩ := e
          have hcall : call p raw u c = .ok (a, t) := hst
          rcases call_shows hopen hfit hshows c with ⟨a', t', w', ht', hw', hshows', -⟩ | ⟨e, he, -⟩
          · rw [hcall] at ht'
            cases ht'
            exact ⟨w', hw.snoc ⟨trivial, hw'⟩, hshows'⟩
          · rw [hcall] at he
            cases he
    refine ⟨w, hw, hshows, fun c e he => ?_, fun c e t' ht' => ?_, fun i k b hb => ?_⟩
    · rcases call_shows hopen hfit hshows c with ⟨a, t', w', ht', -⟩ | ⟨q, hq, hwq⟩
      · rw [he] at ht'
        cases ht'
      · rw [he] at hq
        cases hq
        exact ⟨q, rfl, hwq⟩
    · rcases call_shows hopen hfit hshows c with ⟨a, t₁, w', ht₁, -, -, hsame⟩ | ⟨q, hq, -⟩
      · rw [ht'] at ht₁
        cases ht₁
        exact hsame e rfl
      · rw [ht'] at hq
        cases hq
    · obtain ⟨l, -, rfl, hread⟩ := hshows.deref hroom hb
      exact hread
  · intro w hw
    induction hw with
    | nil => exact ⟨_, .nil, shows_opened hopen⟩
    | @snoc es u e w _ hst ih =>
        obtain ⟨t, ht, hshows⟩ := ih
        obtain ⟨c, a⟩ := e
        have hcall : u.call p c = .ok (a, w) := hst.2
        rcases call_shows hopen hfit hshows c with ⟨a', t', w', ht', hw', hshows', -⟩ | ⟨e, -, he⟩
        · rw [hcall] at hw'
          cases hw'
          exact ⟨t', ht.snoc ht', hshows'⟩
        · rw [hcall] at he
          cases he

/-- One message through a ring of words. -/
def pushAndPop (value : Record wordRecord) :
    List (Call (Record wordRecord) × Except ShmRingError (Reply (Record wordRecord))) :=
  [(.tryPush 0 value, .ok (.pushed true)), (.tryPop 0 0, .ok (.popped (some value)))]

/-- A record that is pushed onto the bytes is popped from them. -/
theorem bytes_refine_pushed : ∃ m t, openExisting checked wordRecord (ringFile 1) = .ok m ∧
    Run (mapped checked (ringFile 1) m) (⟨fun _ => m.handle, []⟩, ringBytes 1)
      (pushAndPop fun b => UInt8.ofNat b) t := by
  obtain ⟨m, hm, hfit, w₁, w₂, hpush, hpop⟩ : ∃ m, openExisting checked wordRecord (ringFile 1) = .ok m ∧
      headerSize + m.handle.capacity * wordRecord.size < u64Size ∧ ∃ w₁ w₂,
      (ringOf wordRecord (ringFile 1) m).call checked (.tryPush 0 fun b => UInt8.ofNat b) =
        .ok (.ok (.pushed true), w₁) ∧
      w₁.call checked (.tryPop 0 0) = .ok (.ok (.popped (some fun b => UInt8.ofNat b)), w₂) :=
    ⟨_, rfl, by decide, _, _, rfl, rfl⟩
  have hw₁ : Run (world checked (· = ringOf wordRecord (ringFile 1) m) fun _ _ => True)
      (ringOf wordRecord (ringFile 1) m) [(.tryPush 0 fun b => UInt8.ofNat b, .ok (.pushed true))] w₁ :=
    .single ⟨trivial, hpush⟩
  have hw₂ : Run (world checked (· = ringOf wordRecord (ringFile 1) m) fun _ _ => True)
      (ringOf wordRecord (ringFile 1) m) (pushAndPop fun b => UInt8.ofNat b) w₂ :=
    hw₁.append (.single ⟨trivial, hpop⟩)
  obtain ⟨t, ht, -⟩ := (bytes_refine hm hfit _).2 w₂ hw₂
  exact ⟨m, t, hm, ht⟩

end Runs

end ShmRings.Mapped
