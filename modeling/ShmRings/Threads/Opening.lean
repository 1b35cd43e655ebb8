import Mathlib.Logic.Relation
import ShmRings.Calls.Create
import ShmRings.Model.Opening

/-!
# A racing open

The header becomes visible word by word, and `validate` looks at three of its words. A handle that
`open_existing` returns has the capacity of the creator; it sees the reader count of the creator from then
on if that word was visible when it returned.

* **`open_alone`**: without interference the steps are `openExisting`;
* `RingHeader.part`: the header with some words visible; `FileOf`, `CreateOk`, `CreatePc.next_cases`: the
  creator; `OpenOk`, **`OpenOk.step`**: the opens;
* `OpeningInv`, **`OpeningInv.step`**; `OpeningInv.sees`; **`racing_open`**: in runs whose opens return
  late enough;
* `exposed_open`, **`open_sees_no_readers`**: an open that returns too early.
-/

set_option autoImplicit false

namespace ShmRings

open Transition Relation

variable {p : Profile} {T : RecordType} {args : ℕ → ℕ × ℕ}

/-! ## An open alone -/

section Alone

/-- The steps of `open_existing` on a file that does not change. -/
def OpenPc.Steps (p : Profile) (T : RecordType) (file : PathFile) : OpenPc → OpenPc → Prop :=
  ReflTransGen fun a b => OpenPc.next p T a (some file) = some b

/-- A check that passes goes on, and one that fails ends the call. -/
theorem alone_step {file : PathFile} {β : Type} {pc : OpenPc} {x : Except Fault β} {k : β → OpenPc}
    {rest : β → Except Fault Handle} (hnext : pc.next p T (some file) = some (.proceed x k))
    (hrest : ∀ b, OpenPc.Steps p T file (k b) (.done (rest b))) :
    OpenPc.Steps p T file pc (.done (x >>= rest)) := by
  cases x with
  | error e => exact .single hnext
  | ok b => exact .head hnext (hrest b)

/-- **An open that nobody interferes with** is `openExisting`. -/
theorem open_alone {f : RawFile} (hopened : f.opened = true) (hmetadata : f.metadata = true)
    (hmapped : f.mapped = true) :
    OpenPc.Steps p T ⟨f.length, .ofBytes f.byte⟩ .checkType
      (.done (openExisting p T f >>= fun m => .ok m.handle)) := by
  unfold openExisting
  generalize RingHeader.ofBytes f.byte = hdr
  dsimp only
  rw [ensure_pos hopened, ok_bind, ensure_pos hmetadata, ok_bind, ensure_pos hmapped, ok_bind]
  have hsteps : OpenPc.Steps p T ⟨f.length, hdr⟩ .checkType (.done (_ >>= _)) :=
    alone_step rfl fun _ => .head rfl (alone_step rfl fun _ => .head rfl (alone_step rfl fun _ =>
      alone_step rfl fun _ => alone_step rfl fun _ => alone_step rfl fun h => .single rfl))
  simpa only [RingHeader.validate, fileLength, bind_assoc, pure_bind] using hsteps

end Alone

/-! ## The header, word by word -/

namespace RingHeader

/-- The header with the visible words of `src`; the others are still zero. -/
def part (src : RingHeader) (visible : Field → Bool) : RingHeader where
  magic := if visible .magic then src.magic else 0
  version := if visible .version then src.version else 0
  numReaders := if visible .numReaders then src.numReaders else 0
  writeIdx := if visible .writeIdx then src.writeIdx else 0
  readIndices r := if visible (.readIdx r) then src.readIndices r else 0
  capacityMask := if visible .capacityMask then src.capacityMask else 0
  totalWritten := if visible .totalWritten then src.totalWritten else 0

variable (src : RingHeader) (visible : Field → Bool)

theorem part_store (f : Field) :
    (src.part visible).store src f = src.part (Function.update visible f true) := by
  cases f with
  | readIdx r =>
      have hcursors : Function.update (fun q => if visible (.readIdx q) then src.readIndices q else 0) r
          (src.readIndices r) = fun q => if Function.update visible (.readIdx r) true (.readIdx q) then
            src.readIndices q else 0 := by
        funext q
        by_cases hq : q = r
        · subst hq
          simp
        · simp [hq]
      simp [store, part, hcursors]
  | _ => simp [store, part]

theorem part_capacityMask (h : (src.part visible).capacityMask ≠ 0) :
    (src.part visible).capacityMask = src.capacityMask := by
  by_cases hv : visible .capacityMask = true
  · exact if_pos hv
  · exact absurd (if_neg hv) h

theorem part_numReaders (h : (src.part visible).numReaders ≠ 0) :
    (src.part visible).numReaders = src.numReaders := by
  by_cases hv : visible .numReaders = true
  · exact if_pos hv
  · exact absurd (if_neg hv) h

end RingHeader

/-! ## The creator -/

section Create

variable {capacity n len : ℕ} {pc pc' : CreatePc} {file file' : Option PathFile} {f : PathFile} {m : Mapping}

/-- The call has made the file. -/
def CreatePc.Made : CreatePc → Prop
  | .setLen | .mapFile _ | .writing _ _ _ => True
  | _ => False

/-- The call has made the header write. -/
def CreatePc.Wrote : CreatePc → Prop
  | .writing _ _ _ => True
  | _ => False

theorem CreatePc.Wrote.made (h : pc.Wrote) : pc.Made := by
  cases pc with
  | writing _ _ _ => trivial
  | _ => exact h.elim

/-- The arguments of a call that goes on are accepted, and why it failed. -/
def CreateOk (p : Profile) (T : RecordType) (capacity n : ℕ) : CreatePc → Prop
  | .checkArgs => True
  | .failed e => e = .err .alreadyExists ∨ beforeOpen T false none capacity n = .error e ∨
      fileLength p T capacity = .error e
  | _ => beforeOpen T false none capacity n = .ok ()

/-- What the creator has made of the file. -/
inductive FileOf (p : Profile) (T : RecordType) (capacity n : ℕ) : CreatePc → PathFile → Prop
  | setLen : FileOf p T capacity n .setLen ⟨0, .zero⟩
  | mapFile {len : ℕ} : fileLength p T capacity = .ok len →
      FileOf p T capacity n (.mapFile len) ⟨len, .zero⟩
  | writing {len : ℕ} {m : Mapping} {visible : Field → Bool} {returned : Bool} :
      fileLength p T capacity = .ok len → initHeader p capacity n len = .ok m →
      FileOf p T capacity n (.writing m visible returned) ⟨len, m.hdr.part visible⟩
  | failed {e : Fault} {len : ℕ} : FileOf p T capacity n (.failed e) ⟨len, .zero⟩

theorem accepted (h : beforeOpen T false none capacity n = .ok ()) :
    1 ≤ capacity ∧ capacity < u64Size ∧ 1 ≤ n ∧ n ≤ maxReaders := by
  have hstop : ¬ Stops T .none none capacity n := beforeOpen_ok.mp h
  obtain ⟨⟨hcap, hpow⟩, hn, -⟩ := not_not.mp hstop
  obtain ⟨k, hk, rfl⟩ := isPowerOfTwo_iff.mp hpow
  exact ⟨Nat.one_le_two_pow, Nat.pow_lt_pow_right (by decide) hk, hn⟩

/-- The handle and the header of the creator. -/
theorem initHeader_words (hcap : 1 ≤ capacity) (h : initHeader p capacity n len = .ok m) :
    m.handle = .fresh capacity ∧ m.hdr.capacityMask + 1 = capacity ∧ m.hdr.numReaders = n := by
  unfold initHeader at h
  rw [p.sub_eq hcap, ok_bind] at h
  obtain ⟨hdr, hnew, hm⟩ := bind_eq_ok.mp h
  unfold RingHeader.new at hnew
  split_ifs at hnew
  cases hnew
  cases hm
  exact ⟨rfl, Nat.sub_add_cancel hcap, rfl⟩

theorem CreateOk.step (h : CreateOk p T capacity n pc)
    (hst : pc.next p T capacity n file = some (pc', file')) : CreateOk p T capacity n pc' := by
  cases pc with
  | checkArgs =>
      simp only [CreatePc.next] at hst
      split at hst
      · rename_i e he
        cases hst
        exact .inr (.inl he)
      · rename_i hok
        cases hst
        exact hok
  | checkExists =>
      simp only [CreatePc.next] at hst
      split_ifs at hst
      · cases hst
        exact .inl rfl
      · cases hst
        exact h
  | createNew =>
      cases file with
      | some f =>
          cases hst
          exact .inl rfl
      | none =>
          cases hst
          exact h
  | setLen =>
      cases file with
      | some f =>
          simp only [CreatePc.next] at hst
          split at hst
          · rename_i e he
            cases hst
            exact .inr (.inr he)
          · cases hst
            exact h
      | none => cases hst
  | mapFile len =>
      obtain ⟨hcap, -, hn⟩ := accepted h
      obtain ⟨m, hm⟩ := initHeader_ok p (Nat.one_le_iff_ne_zero.mp hcap) hn len
      simp only [CreatePc.next, hm] at hst
      cases hst
      exact h
  | writing _ _ _ | failed _ => cases file <;> cases hst

/-- **A step of `create_new_with_readers`**: it leaves the path alone, makes the file, or has made it. -/
theorem CreatePc.next_cases (hst : pc.next p T capacity n file = some (pc', file')) :
    (¬ pc.Made ∧ (∀ f, ¬ FileOf p T capacity n pc f) ∧ ¬ pc'.Made ∧ file' = file) ∨
    (pc = .createNew ∧ file = none ∧ pc' = .setLen ∧ file' = some ⟨0, .zero⟩) ∨ pc.Made := by
  cases pc with
  | checkArgs =>
      simp only [CreatePc.next] at hst
      split at hst <;> cases hst <;> exact .inl ⟨id, nofun, id, rfl⟩
  | checkExists =>
      simp only [CreatePc.next] at hst
      split_ifs at hst <;> cases hst <;> exact .inl ⟨id, nofun, id, rfl⟩
  | createNew =>
      cases file with
      | some f =>
          cases hst
          exact .inl ⟨id, nofun, id, rfl⟩
      | none =>
          cases hst
          exact .inr (.inl ⟨rfl, rfl, rfl, rfl⟩)
  | setLen | mapFile _ | writing _ _ _ => exact .inr (.inr trivial)
  | failed _ => cases file <;> cases hst

/-- A step of the creator before the stores leaves the header alone. -/
theorem FileOf.create (h : FileOf p T capacity n pc f) (hmade : pc.Made)
    (hst : pc.next p T capacity n (some f) = some (pc', file')) :
    ∃ f', file' = some f' ∧ FileOf p T capacity n pc' f' ∧ f'.hdr = f.hdr := by
  cases h with
  | setLen =>
      simp only [CreatePc.next] at hst
      split at hst
      · cases hst
        exact ⟨_, rfl, .failed, rfl⟩
      · rename_i len hlen
        cases hst
        exact ⟨_, rfl, .mapFile hlen, rfl⟩
  | mapFile hlen =>
      simp only [CreatePc.next] at hst
      split at hst
      · cases hst
        exact ⟨_, rfl, .failed, rfl⟩
      · rename_i m hm
        cases hst
        exact ⟨_, rfl, .writing hlen hm, rfl⟩
  | writing _ _ => cases hst
  | failed => exact hmade.elim

/-- A mask that is visible is that of the creator, and its length does not overflow. -/
theorem FileOf.mask (h : FileOf p T capacity n pc f) (hok : CreateOk p T capacity n pc)
    (hmask : f.hdr.capacityMask ≠ 0) : f.hdr.capacityMask + 1 = capacity ∧ capacity < u64Size ∧
      pc.Wrote ∧ ∃ len, fileLength p T capacity = .ok len := by
  cases h with
  | setLen | mapFile _ | failed => exact absurd rfl hmask
  | writing hlen hm =>
      obtain ⟨hcap, hlt, -⟩ := accepted hok
      obtain ⟨-, hword, -⟩ := initHeader_words hcap hm
      rw [RingHeader.part_capacityMask _ _ hmask]
      exact ⟨hword, hlt, trivial, _, hlen⟩

/-- A reader count that is visible is that of the creator. -/
theorem FileOf.readers (h : FileOf p T capacity n pc f) (hok : CreateOk p T capacity n pc)
    (hn : f.hdr.numReaders ≠ 0) : f.hdr.numReaders = n := by
  cases h with
  | setLen | mapFile _ | failed => exact absurd rfl hn
  | writing hlen hm =>
      obtain ⟨hcap, -⟩ := accepted hok
      obtain ⟨-, -, hword⟩ := initHeader_words hcap hm
      rw [RingHeader.part_numReaders _ _ hn]
      exact hword

end Create

/-! ## The opens -/

section Open

variable {pc pc' : OpenPc} {f f' : PathFile}

/-- The errors of `open_existing`. -/
def ShmRingError.OfOpen : ShmRingError → Prop
  | .io | .fileTooShort _ _ | .headerCorruption _ _ _ | .versionMismatch _ _ => True
  | _ => False

/-- A typed error, or a record type that is not supported. -/
def Rejects (T : RecordType) (e : Fault) : Prop :=
  (∃ err : ShmRingError, e = .err err ∧ err.OfOpen) ∨
    (e = .panic .assertion ∧ ¬ (T.align ≤ 64 ∧ T.size > 0))

/-- The call has found the file. -/
def OpenPc.Opened : OpenPc → Prop
  | .checkType | .openFile | .done (.error _) => False
  | _ => True

/-- What the call knows of the file, and why it rejects it. -/
def OpenOk (T : RecordType) (f : PathFile) : OpenPc → Prop
  | .loadCapacity _ => f.hdr.capacityMask ≠ 0
  | .returning h => f.hdr.capacityMask ≠ 0 ∧ h.capacity = f.hdr.capacityMask + 1
  | .done (.ok h) => f.hdr.capacityMask ≠ 0 ∧ h.capacity = f.hdr.capacityMask + 1 ∧ f.hdr.numReaders ≠ 0
  | .done (.error e) => Rejects T e
  | _ => True

/-- The words of `f` that are visible stay as they are. -/
def Retains (f f' : PathFile) : Prop :=
  (f.hdr.capacityMask ≠ 0 → f'.hdr.capacityMask = f.hdr.capacityMask) ∧
    (f.hdr.numReaders ≠ 0 → f'.hdr.numReaders = f.hdr.numReaders)

theorem retains_part (src : RingHeader) (visible : Field → Bool) (len : ℕ) (w : Field) :
    Retains ⟨len, src.part visible⟩ ⟨len, src.part (Function.update visible w true)⟩ := by
  have hvisible : ∀ v, visible v = true → Function.update visible w true v = true := by
    intro v hv
    rw [Function.update_apply]
    split_ifs
    · rfl
    · exact hv
  constructor <;> intro hne
  · by_cases hv : visible .capacityMask = true
    · exact (if_pos (hvisible _ hv)).trans (if_pos hv).symm
    · exact absurd (if_neg hv) hne
  · by_cases hv : visible .numReaders = true
    · exact (if_pos (hvisible _ hv)).trans (if_pos hv).symm
    · exact absurd (if_neg hv) hne

theorem OpenOk.keep (h : OpenOk T f pc) (hk : Retains f f') : OpenOk T f' pc := by
  obtain ⟨hmask, hn⟩ := hk
  cases pc with
  | loadCapacity len => exact (hmask h).trans_ne h
  | returning handle => exact ⟨(hmask h.1).trans_ne h.1, by rw [hmask h.1]; exact h.2⟩
  | done res =>
      cases res with
      | error e => exact h
      | ok handle =>
          obtain ⟨h1, h2, h3⟩ := h
          exact ⟨(hmask h1).trans_ne h1, by rw [hmask h1]; exact h2, (hn h3).trans_ne h3⟩
  | _ => trivial

theorem rejects_err {err : ShmRingError} (h : err.OfOpen) : Rejects T (.err err) := .inl ⟨err, rfl, h⟩

/-- A check whose failure is a typed error. -/
theorem OpenOk.check {c : Prop} [Decidable c] {err : ShmRingError} (herr : err.OfOpen)
    (h : c → OpenOk T f pc) : OpenOk T f (.proceed (ensure c (.err err)) fun _ => pc) := by
  by_cases hc : c
  · rw [ensure_pos hc]
    exact h hc
  · rw [ensure_neg hc]
    exact rejects_err herr

/-- The check of the record type. -/
theorem checkType_next {file : Option PathFile} (hst : OpenPc.checkType.next p T file = some pc') :
    ¬ pc'.Opened ∧ ∀ f, OpenOk T f pc' := by
  cases hst
  by_cases halign : T.align ≤ 64
  · by_cases hsize : T.size > 0
    · rw [ensure_pos halign, ok_bind, ensure_pos hsize]
      exact ⟨id, fun _ => trivial⟩
    · rw [ensure_pos halign, ok_bind, ensure_neg hsize]
      exact ⟨id, fun _ => .inr ⟨rfl, fun hT => hsize hT.2⟩⟩
  · rw [ensure_neg halign]
    exact ⟨id, fun _ => .inr ⟨rfl, fun hT => halign hT.1⟩⟩

/-- **A step of `open_existing`** keeps what the call knows. A mask that is visible gives a length that does
not overflow. -/
theorem OpenOk.step (h : OpenOk T f pc) (hst : pc.next p T (some f) = some pc')
    (hsound : f.hdr.capacityMask ≠ 0 → f.hdr.capacityMask + 1 < u64Size ∧
      ∃ len, fileLength p T (f.hdr.capacityMask + 1) = .ok len)
    (hseen : ∀ handle, pc = .returning handle → f.hdr.numReaders ≠ 0) : OpenOk T f pc' := by
  cases pc with
  | checkType => exact (checkType_next hst).2 f
  | openFile | mapFile _ =>
      cases hst
      trivial
  | checkLength | loadMagic _ | loadVersion _ =>
      cases hst
      exact .check trivial fun _ => trivial
  | loadMask len =>
      cases hst
      dsimp only
      by_cases hmask : f.hdr.capacityMask ≠ 0
      · obtain ⟨hlt, -⟩ := hsound hmask
        rw [ensure_pos hmask, ok_bind, p.add_eq hlt, ok_bind]
        exact .check trivial fun _ => hmask
      · rw [ensure_neg hmask]
        exact rejects_err trivial
  | loadCapacity len =>
      cases hst
      obtain ⟨hlt, expected, hlen⟩ := hsound h
      rw [p.add_eq hlt, ok_bind, hlen, ok_bind]
      by_cases hfit : expected ≤ len
      · rw [ensure_pos hfit]
        exact ⟨h, rfl⟩
      · rw [ensure_neg hfit]
        exact rejects_err trivial
  | returning handle =>
      cases hst
      exact ⟨h.1, h.2, hseen handle rfl⟩
  | done res => cases hst

/-- Without a file a call fails or waits for one. -/
theorem OpenPc.next_none (hopen : ¬ pc.Opened) (hst : pc.next p T none = some pc') :
    ¬ pc'.Opened ∧ ∀ f, OpenOk T f pc' := by
  cases pc with
  | checkType => exact checkType_next hst
  | openFile =>
      cases hst
      exact ⟨id, fun _ => rejects_err trivial⟩
  | done res => cases hst
  | _ => exact absurd trivial hopen

end Open

/-! ## Any interleaving -/

/-- No handle is returned while the reader count of the file is not visible. -/
def Unexposed (s : OpeningState) (e : OpeningStep) (_ : OpeningState) : Prop :=
  ∀ o h f, e = .openExisting o → s.opens o = .returning h → s.file = some f → f.hdr.numReaders ≠ 0

/-- One create has made the file, and every call knows what is in it. -/
structure OpeningInv (p : Profile) (T : RecordType) (args : ℕ → ℕ × ℕ) (s : OpeningState) : Prop where
  create : ∀ c, CreateOk p T (args c).1 (args c).2 (s.creates c)
  absent : s.file = none → (∀ c, ¬ (s.creates c).Made) ∧
    ∀ o, ¬ (s.opens o).Opened ∧ ∀ f, OpenOk T f (s.opens o)
  owner : ∀ f, s.file = some f → ∃ c, FileOf p T (args c).1 (args c).2 (s.creates c) f ∧
    ∀ c', (s.creates c').Made → c' = c
  opens : ∀ f, s.file = some f → ∀ o, OpenOk T f (s.opens o)

variable {s t : OpeningState} {f : PathFile}

/-- A visible mask is that of the creator. -/
theorem OpeningInv.mask (h : OpeningInv p T args s) (hf : s.file = some f)
    (hmask : f.hdr.capacityMask ≠ 0) : ∃ c, (s.creates c).Wrote ∧ f.hdr.capacityMask + 1 = (args c).1 ∧
      (args c).1 < u64Size ∧ (∃ len, fileLength p T (args c).1 = .ok len) ∧
      (f.hdr.numReaders ≠ 0 → f.hdr.numReaders = (args c).2) := by
  obtain ⟨c, hfile, -⟩ := h.owner f hf
  obtain ⟨hword, hlt, hwrote, hlen⟩ := hfile.mask (h.create c) hmask
  exact ⟨c, hwrote, hword, hlt, hlen, hfile.readers (h.create c)⟩

/-- The create that has made the file is the only one. -/
theorem OpeningInv.made {c : ℕ} (h : OpeningInv p T args s) (hmade : (s.creates c).Made) :
    ∃ f, s.file = some f ∧ FileOf p T (args c).1 (args c).2 (s.creates c) f ∧
      ∀ c', (s.creates c').Made → c' = c := by
  cases hfile : s.file with
  | none => exact absurd hmade ((h.absent hfile).1 c)
  | some f =>
      obtain ⟨c₀, hc₀, huniq⟩ := h.owner f hfile
      obtain rfl := huniq c hmade
      exact ⟨f, rfl, hc₀, huniq⟩

theorem OpeningInv.create_update {c : ℕ} {pc : CreatePc} (h : OpeningInv p T args s)
    (hpc : CreateOk p T (args c).1 (args c).2 pc) (c' : ℕ) :
    CreateOk p T (args c').1 (args c').2 (Function.update s.creates c pc c') := by
  by_cases hcc : c' = c
  · subst hcc
    simpa only [Function.update_self] using hpc
  · simpa only [Function.update_of_ne hcc] using h.create c'

/-- A step of one create that leaves the path alone, and is not a step of the creator. -/
theorem OpeningInv.of_refused {c : ℕ} {pc : CreatePc} (h : OpeningInv p T args s)
    (hpc : CreateOk p T (args c).1 (args c).2 pc) (hno : ¬ pc.Made)
    (hfile : ∀ f, ¬ FileOf p T (args c).1 (args c).2 (s.creates c) f) :
    OpeningInv p T args { s with creates := Function.update s.creates c pc } := by
  have hmade : ∀ c', (Function.update s.creates c pc c').Made → (s.creates c').Made := by
    intro c' hc'
    by_cases hcc : c' = c
    · subst hcc
      rw [Function.update_self] at hc'
      exact absurd hc' hno
    · rwa [Function.update_of_ne hcc] at hc'
  refine ⟨h.create_update hpc, fun hnone => ?_, fun f hf => ?_, h.opens⟩
  · exact ⟨fun c' hc' => (h.absent hnone).1 c' (hmade c' hc'), (h.absent hnone).2⟩
  · obtain ⟨c₀, hc₀, huniq⟩ := h.owner f hf
    have hne : c₀ ≠ c := fun heq => hfile f (heq ▸ hc₀)
    exact ⟨c₀, by simpa only [Function.update_of_ne hne] using hc₀, fun c' hc' => huniq c' (hmade c' hc')⟩

/-- A step after which `c` has made the file. -/
theorem OpeningInv.of_owner {c : ℕ} {pc : CreatePc} (h : OpeningInv p T args s)
    (hpc : CreateOk p T (args c).1 (args c).2 pc) (hfile : FileOf p T (args c).1 (args c).2 pc f)
    (huniq : ∀ c', (s.creates c').Made → c' = c) (hopens : ∀ o, OpenOk T f (s.opens o)) :
    OpeningInv p T args { s with file := some f, creates := Function.update s.creates c pc } := by
  refine ⟨h.create_update hpc, nofun, fun f' hf' => ⟨c, ?_, fun c' hc' => ?_⟩, fun f' hf' o => ?_⟩
  · cases hf'
    simpa only [Function.update_self] using hfile
  · by_contra hcc
    simp only [Function.update_of_ne hcc] at hc'
    exact hcc (huniq c' hc')
  · cases hf'
    exact hopens o

/-- A step of an open. -/
theorem OpeningInv.of_open {o : ℕ} {pc : OpenPc} (h : OpeningInv p T args s)
    (hnone : s.file = none → ¬ pc.Opened ∧ ∀ f, OpenOk T f pc)
    (hsome : ∀ f, s.file = some f → OpenOk T f pc) :
    OpeningInv p T args { s with opens := Function.update s.opens o pc } := by
  refine ⟨h.create, fun hfile => ⟨(h.absent hfile).1, fun o' => ?_⟩, h.owner, fun f hfile o' => ?_⟩
  · by_cases hoo : o' = o
    · subst hoo
      simpa only [Function.update_self] using hnone hfile
    · simpa only [Function.update_of_ne hoo] using (h.absent hfile).2 o'
  · by_cases hoo : o' = o
    · subst hoo
      simpa only [Function.update_self] using hsome f hfile
    · simpa only [Function.update_of_ne hoo] using h.opens f hfile o'

/-- **Every step keeps the invariant.** -/
theorem OpeningInv.step {e : OpeningStep} (h : OpeningInv p T args s)
    (hst : s.next p T args e = some t) (hseen : Unexposed s e t) : OpeningInv p T args t := by
  cases e with
  | create c =>
      obtain ⟨⟨pc, file⟩, hnext, rfl⟩ := Option.map_eq_some_iff.mp hst
      have hok := (h.create c).step hnext
      rcases CreatePc.next_cases hnext with ⟨-, hno, hmade, rfl⟩ | ⟨hpc, hfile, rfl, rfl⟩ | hmade
      · exact h.of_refused hok hmade hno
      · obtain ⟨hno, hopens⟩ := h.absent hfile
        exact h.of_owner hok .setLen (fun c' hc' => absurd hc' (hno c')) fun o => (hopens o).2 _
      · obtain ⟨f, hfile, hc, huniq⟩ := h.made hmade
        rw [hfile] at hnext
        obtain ⟨f', rfl, hf', hhdr⟩ := hc.create hmade hnext
        have hkeep : Retains f f' := ⟨fun _ => by rw [hhdr], fun _ => by rw [hhdr]⟩
        exact h.of_owner hok hf' huniq fun o => (h.opens f hfile o).keep hkeep
  | store c w =>
      simp only [OpeningState.next] at hst
      split at hst
      · rename_i m visible returned f hpc hfile
        split_ifs at hst with hv
        cases hst
        have hok := h.create c
        obtain ⟨f', hfile', hc, huniq⟩ := h.made (c := c) (by rw [hpc]; trivial)
        cases hfile.symm.trans hfile'
        rw [hpc] at hc hok
        cases hc with
        | writing hlen hm =>
            rw [RingHeader.part_store]
            exact h.of_owner hok (.writing hlen hm) huniq fun o =>
              (h.opens _ hfile o).keep (retains_part _ _ _ w)
      · cases hst
  | returned c =>
      simp only [OpeningState.next] at hst
      split at hst
      · rename_i m visible hpc
        cases hst
        have hok := h.create c
        obtain ⟨f, hfile, hc, huniq⟩ := h.made (c := c) (by rw [hpc]; trivial)
        rw [hpc] at hc hok
        cases hc with
        | writing hlen hm =>
            have hok' : CreateOk p T (args c).1 (args c).2 (.writing m visible true) := hok
            have hnext := h.of_owner hok' (.writing hlen hm) huniq (h.opens _ hfile)
            rwa [← hfile] at hnext
      · cases hst
  | openExisting o =>
      obtain ⟨pc, hnext, rfl⟩ := Option.map_eq_some_iff.mp hst
      refine h.of_open (fun hfile => ?_) fun f hfile => ?_
      · rw [hfile] at hnext
        exact OpenPc.next_none ((h.absent hfile).2 o).1 hnext
      · rw [hfile] at hnext
        refine (h.opens f hfile o).step hnext (fun hmask => ?_) fun handle hret =>
          hseen o handle f rfl hret hfile
        obtain ⟨c, -, hword, hlt, hlen, -⟩ := h.mask hfile hmask
        rw [hword]
        exact ⟨hlt, hlen⟩

theorem openingInv_init (hs : (opening p T args).init s) : OpeningInv p T args s := by
  obtain ⟨hfile, hcreates, hopens⟩ := hs
  refine ⟨fun c => ?_, fun _ => ⟨fun c => ?_, fun o => ?_⟩, fun f hf => ?_, fun f hf => ?_⟩
  · rw [hcreates c]
    trivial
  · rw [hcreates c]
    exact id
  · rw [hopens o]
    exact ⟨id, fun _ => trivial⟩
  · rw [hfile] at hf
    cases hf
  · rw [hfile] at hf
    cases hf

/-- The header write and the answer of an open are for good. -/
theorem wrote_done_step {c o : ℕ} {res : Except Fault Handle} {e : OpeningStep}
    (h : (s.creates c).Wrote ∧ s.opens o = .done res) (hst : s.next p T args e = some t) :
    (t.creates c).Wrote ∧ t.opens o = .done res := by
  obtain ⟨hwrote, hdone⟩ := h
  have hupdate : ∀ {c' pc}, (c' = c → pc.Wrote) → (Function.update s.creates c' pc c).Wrote := by
    intro c' pc hpc
    rw [Function.update_apply]
    split_ifs with hcc
    · exact hpc hcc.symm
    · exact hwrote
  cases e with
  | create c' =>
      obtain ⟨⟨pc, file⟩, hnext, rfl⟩ := Option.map_eq_some_iff.mp hst
      refine ⟨hupdate ?_, hdone⟩
      rintro rfl
      cases hpc : s.creates c' with
      | writing m visible returned =>
          rw [hpc] at hnext
          cases hfile : s.file <;> rw [hfile] at hnext <;> cases hnext
      | _ => rw [hpc] at hwrote; exact hwrote.elim
  | store c' w =>
      simp only [OpeningState.next] at hst
      split at hst
      · split_ifs at hst
        cases hst
        exact ⟨hupdate fun _ => trivial, hdone⟩
      · cases hst
  | returned c' =>
      simp only [OpeningState.next] at hst
      split at hst
      · cases hst
        exact ⟨hupdate fun _ => trivial, hdone⟩
      · cases hst
  | openExisting o' =>
      obtain ⟨pc, hnext, rfl⟩ := Option.map_eq_some_iff.mp hst
      refine ⟨hwrote, ?_⟩
      have hne : o ≠ o' := by
        rintro rfl
        rw [hdone] at hnext
        cases hfile : s.file <;> rw [hfile] at hnext <;> cases hnext
      simpa only [Function.update_of_ne hne] using hdone

theorem opening_inv (hreach : Reachable ((opening p T args).guard Unexposed) s) : OpeningInv p T args s :=
  Reachable.invariant (S := (opening p T args).guard Unexposed) (I := OpeningInv p T args)
    (fun _ => openingInv_init) (fun _ _ _ hinv hst => hinv.step hst.1 hst.2) hreach

/-! ## What the calls return -/

theorem wrote_of_result {pc : CreatePc} {h : Handle} (hres : pc.result = some (.ok h)) : pc.Wrote := by
  cases pc with
  | writing _ _ _ => trivial
  | _ => cases hres

theorem OpeningInv.unique (hinv : OpeningInv p T args s) {c c' : ℕ} {h h' : Handle}
    (hc : (s.creates c).result = some (.ok h)) (hc' : (s.creates c').result = some (.ok h')) : c = c' := by
  obtain ⟨_, _, _, huniq⟩ := hinv.made (wrote_of_result hc').made
  exact huniq c (wrote_of_result hc).made

/-- Why a create failed. -/
theorem OpeningInv.refused (hinv : OpeningInv p T args s) {c : ℕ} {e : Fault}
    (hc : (s.creates c).result = some (.error e)) : e = .err .alreadyExists ∨
      beforeOpen T false none (args c).1 (args c).2 = .error e ∨ fileLength p T (args c).1 = .error e := by
  have hok := hinv.create c
  cases hpc : s.creates c with
  | failed e' =>
      rw [hpc] at hok hc
      cases hc
      exact hok
  | writing m visible returned =>
      rw [hpc] at hc
      cases returned <;> cases hc
  | _ => rw [hpc] at hc; cases hc

/-- Why an open failed. -/
theorem OpeningInv.rejected (hinv : OpeningInv p T args s) {o : ℕ} {e : Fault}
    (ho : s.opens o = .done (.error e)) : Rejects T e := by
  cases hfile : s.file with
  | none =>
      have hok := ((hinv.absent hfile).2 o).2 ⟨0, .zero⟩
      rwa [ho] at hok
  | some f =>
      have hok := hinv.opens f hfile o
      rwa [ho] at hok

/-- A handle that was returned, and the file of the creator. -/
theorem OpeningInv.sees (hinv : OpeningInv p T args s) {c o : ℕ} {h : Handle}
    (hc : (s.creates c).Wrote) (ho : s.opens o = .done (.ok h)) : ∃ f, s.file = some f ∧
      h.capacity = (args c).1 ∧ f.hdr.capacityMask + 1 = (args c).1 ∧ f.hdr.numReaders = (args c).2 := by
  obtain ⟨f, hfile, hof, -⟩ := hinv.made hc.made
  have hok := hinv.opens f hfile o
  rw [ho] at hok
  obtain ⟨hmask, hcap, hn⟩ := hok
  obtain ⟨hword, -⟩ := hof.mask (hinv.create c) hmask
  exact ⟨f, hfile, hcap.trans hword, hword, hof.readers (hinv.create c) hn⟩

/-- A handle is returned only after a create has made its header write. -/
theorem OpeningInv.wrote (hinv : OpeningInv p T args s) {o : ℕ} {h : Handle}
    (ho : s.opens o = .done (.ok h)) : ∃ c, (s.creates c).Wrote := by
  cases hfile : s.file with
  | none =>
      have hno := ((hinv.absent hfile).2 o).1
      rw [ho] at hno
      exact absurd trivial hno
  | some f =>
      have hok := hinv.opens f hfile o
      rw [ho] at hok
      obtain ⟨c, hc, -⟩ := hinv.mask hfile hok.1
      exact ⟨c, hc⟩

/-- **A racing open.** In every run in which no handle is returned while the reader count is not visible, at
most one create succeeds, and one that is refused finds the path taken, has bad arguments or a length that
overflows; an open that fails returns a typed error; and from the moment one returns a handle, it has the
capacity of the creator and sees the mask and the reader count of the creator. -/
theorem racing_open {es : List OpeningStep} (hs : (opening p T args).init s)
    (hrun : Run ((opening p T args).guard Unexposed) s es t) :
    (∀ c c' h h', (t.creates c).result = some (.ok h) → (t.creates c').result = some (.ok h') → c = c') ∧
    (∀ c e, (t.creates c).result = some (.error e) → e = .err .alreadyExists ∨
      beforeOpen T false none (args c).1 (args c).2 = .error e ∨ fileLength p T (args c).1 = .error e) ∧
    (∀ o e, t.opens o = .done (.error e) → Rejects T e) ∧
    ∀ o h, t.opens o = .done (.ok h) → ∃ c, (t.creates c).Wrote ∧ h.capacity = (args c).1 ∧
      ∀ fs u, Run ((opening p T args).guard Unexposed) t fs u → ∃ f, u.file = some f ∧
        f.hdr.capacityMask + 1 = (args c).1 ∧ f.hdr.numReaders = (args c).2 := by
  have hreach : Reachable ((opening p T args).guard Unexposed) t := hrun.reachable (.init hs)
  have hinv := opening_inv hreach
  refine ⟨fun _ _ _ _ => hinv.unique, fun _ _ => hinv.refused, fun _ _ => hinv.rejected, fun o h ho => ?_⟩
  obtain ⟨c, hc⟩ := hinv.wrote ho
  obtain ⟨_, -, hcap, -⟩ := hinv.sees hc ho
  refine ⟨c, hc, hcap, fun fs u hlater => ?_⟩
  -- the header write and the answer are still there at the end of the longer run
  obtain ⟨hc', ho'⟩ := Run.invariant_of_bound (S := (opening p T args).guard Unexposed)
    (I := fun s => (s.creates c).Wrote ∧ s.opens o = .done (.ok h)) (fun _ => True)
    (fun _ _ _ _ _ => trivial) (fun _ _ _ h hst _ => wrote_done_step h hst.1) ⟨hc, ho⟩ hlater trivial
  obtain ⟨f, hf, -, hword, hn⟩ := (opening_inv (hlater.reachable hreach)).sees hc' ho'
  exact ⟨f, hf, hword, hn⟩

/-- Nothing is at the path, and nobody has begun. -/
def absentPath : OpeningState := ⟨none, fun _ => .checkArgs, fun _ => .checkType⟩

/-- The steps, but an open waits for the reader count. -/
def patient (s : OpeningState) (e : OpeningStep) : Option OpeningState :=
  match e with
  | .openExisting o => if (s.file.map fun f => f.hdr.numReaders) = some 2 then
      s.next release wordRecord (fun _ => (4, 2)) (.openExisting o) else none
  | e => s.next release wordRecord (fun _ => (4, 2)) e

theorem unexposed_of_patient {e : OpeningStep} (h : patient s e = some t) :
    ((opening release wordRecord fun _ => (4, 2)).guard Unexposed).step s e t := by
  cases e with
  | openExisting o =>
      simp only [patient] at h
      split_ifs at h with hn
      refine ⟨h, fun o' handle f _ _ hf => ?_⟩
      rw [hf] at hn
      cases hn' : f.hdr.numReaders with
      | zero =>
          rw [Option.map_some, hn'] at hn
          cases hn
      | succ n => exact Nat.succ_ne_zero n
  | _ => exact ⟨h, fun _ _ _ he => by cases he⟩

/-- The creator stores the reader count first, and an open finds the ring of four slots and two readers. -/
theorem racing_open_complete : ∃ (t : OpeningState) (f : PathFile), t.opens 0 = .done (.ok (.fresh 4)) ∧
    t.file = some f ∧ f.hdr.numReaders = 2 := by
  have hrun : (follow patient (List.flatten [List.replicate 5 (.create 0), [.store 0 .numReaders,
      .store 0 .capacityMask, .store 0 .version, .store 0 .magic], List.replicate 9 (.openExisting 0)])
        absentPath).map (fun t => t.opens 0) =
      some (.done (.ok (.fresh 4))) := rfl
  obtain ⟨t, ht, hdone⟩ := Option.map_eq_some_iff.mp hrun
  obtain ⟨es, -, hes⟩ := Run.of_follow (fun _ e _ hst => ⟨e, rfl, unexposed_of_patient hst⟩) ht
  obtain ⟨-, -, -, hopen⟩ := racing_open ⟨rfl, fun _ => rfl, fun _ => rfl⟩ hes
  obtain ⟨c, -, -, hlater⟩ := hopen 0 _ hdone
  obtain ⟨f, hf, -, hn⟩ := hlater [] t .nil
  exact ⟨t, f, hdone, hf, hn⟩

/-- **A handle returned while the reader count is not visible** sees no readers. -/
theorem exposed_open {o : ℕ} {h : Handle} (hreach : Reachable ((opening p T args).guard Unexposed) s)
    (ho : s.opens o = .returning h) (hf : s.file = some f) (hn : f.hdr.numReaders = 0) :
    ∃ t c, s.next p T args (.openExisting o) = some t ∧ t.opens o = .done (.ok h) ∧ t.file = some f ∧
      (t.creates c).Wrote ∧ h.capacity = (args c).1 ∧ f.hdr.numReaders < (args c).2 := by
  have hinv := opening_inv hreach
  have hok := hinv.opens f hf o
  rw [ho] at hok
  obtain ⟨hmask, hcap⟩ := hok
  obtain ⟨c, hc, hword, -⟩ := hinv.mask hf hmask
  have haccept := hinv.create c
  refine ⟨{ s with opens := Function.update s.opens o (.done (.ok h)) }, c, ?_, Function.update_self _ _ _,
    hf, hc, hcap.trans hword, ?_⟩
  · simp only [OpeningState.next, ho, hf]
    rfl
  · cases hpc : s.creates c with
    | writing m visible returned =>
        rw [hpc] at haccept
        obtain ⟨-, -, hpos, -⟩ := accepted haccept
        rw [hn]
        exact hpos
    | _ => rw [hpc] at hc; exact hc.elim

/-- The three words `validate` looks at are visible, and the reader count is not. -/
theorem open_sees_no_readers : ∃ (es : List OpeningStep) (t : OpeningState) (f : PathFile),
    Run (opening release wordRecord fun _ => (4, 2)) absentPath es t ∧
      t.opens 0 = .done (.ok (.fresh 4)) ∧ t.file = some f ∧ f.hdr.numReaders = 0 := by
  have hrun : (follow (fun s e => OpeningState.next release wordRecord (fun _ => (4, 2)) s e)
      (List.flatten [List.replicate 5 (.create 0), [.store 0 .magic, .store 0 .version,
        .store 0 .capacityMask], List.replicate 9 (.openExisting 0)]) absentPath).map
          (fun t => (t.opens 0, t.file.map fun f => f.hdr.numReaders)) =
      some (.done (.ok (.fresh 4)), some 0) := rfl
  obtain ⟨t, ht, hview⟩ := Option.map_eq_some_iff.mp hrun
  obtain ⟨hdone, hn⟩ := Prod.mk.inj hview
  obtain ⟨f, hf, hn⟩ := Option.map_eq_some_iff.mp hn
  obtain ⟨es, -, hes⟩ := Run.of_follow (S := opening release wordRecord fun _ => (4, 2))
    (fun s e t hst => ⟨e, rfl, hst⟩) ht
  exact ⟨es, t, f, hes, hdone, hf, hn⟩

end ShmRings
