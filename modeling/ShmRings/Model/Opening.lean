import Mathlib.Logic.Function.Basic
import ShmRings.Lib.System
import ShmRings.Model.Disk

/-!
# Creating and opening at the same time

Any number of calls of `create_new_with_readers` and `open_existing` on one path, for one record type. A
step is one access of the path or of the mapped header; the words of the header that the creator writes
become visible one by one, in any order, and perhaps after its call has returned. No file-system call
fails but for what is or is not at the path.

* `Field`, `RingHeader.store`: the stores of the header write; `PathFile`;
* `CreatePc`, `CreatePc.next`; `OpenPc`, `OpenPc.next`: the two calls, access by access;
* `OpeningState`, `OpeningState.next`, `opening`.
-/

set_option autoImplicit false

namespace ShmRings

open Transition

/-- The words of the header. -/
inductive Field
  | magic
  | version
  | numReaders
  | writeIdx
  | readIdx (r : ℕ)
  | capacityMask
  | totalWritten
  deriving DecidableEq

namespace RingHeader

/-- The header of a file `set_len` has made. -/
def zero : RingHeader := ⟨0, 0, 0, 0, fun _ => 0, 0, 0⟩

/-- The store of one word of `src`. -/
def store (h src : RingHeader) : Field → RingHeader
  | .magic => { h with magic := src.magic }
  | .version => { h with version := src.version }
  | .numReaders => { h with numReaders := src.numReaders }
  | .writeIdx => { h with writeIdx := src.writeIdx }
  | .readIdx r => { h with readIndices := Function.update h.readIndices r (src.readIndices r) }
  | .capacityMask => { h with capacityMask := src.capacityMask }
  | .totalWritten => { h with totalWritten := src.totalWritten }

end RingHeader

/-- The file at the path. -/
structure PathFile where
  length : ℕ
  hdr : RingHeader

/-- Where a call of `create_new_with_readers` is. -/
inductive CreatePc
  | checkArgs
  | checkExists
  | createNew
  | setLen
  | mapFile (len : ℕ)
  /-- The header write, with the stores that are visible; the call may have returned. -/
  | writing (m : Mapping) (visible : Field → Bool) (returned : Bool)
  | failed (e : Fault)

/-- What the call returned. -/
def CreatePc.result : CreatePc → Option (Except Fault Handle)
  | .writing m _ true => some (.ok m.handle)
  | .failed e => some (.error e)
  | _ => none

/-- Where a call of `open_existing` is. -/
inductive OpenPc
  | checkType
  | openFile
  | checkLength
  | mapFile (len : ℕ)
  | loadMagic (len : ℕ)
  | loadVersion (len : ℕ)
  | loadMask (len : ℕ)
  | loadCapacity (len : ℕ)
  | returning (h : Handle)
  | done (res : Except Fault Handle)

/-- A check of `open_existing` and how it goes on. -/
def OpenPc.proceed {β : Type} (x : Except Fault β) (k : β → OpenPc) : OpenPc :=
  match x with
  | .error e => .done (.error e)
  | .ok b => k b

variable (p : Profile) (T : RecordType)

/-- A step of `create_new_with_readers` up to the header write. -/
def CreatePc.next (capacity numReaders : ℕ) : CreatePc → Option PathFile → Option (CreatePc × Option PathFile)
  | .checkArgs, file => match beforeOpen T false none capacity numReaders with
    | .error e => some (.failed e, file)
    | .ok () => some (.checkExists, file)
  | .checkExists, file => some (if file.isSome then .failed (.err .alreadyExists) else .createNew, file)
  | .createNew, some f => some (.failed (.err .alreadyExists), some f)
  | .createNew, none => some (.setLen, some ⟨0, .zero⟩)
  | .setLen, some f => match fileLength p T capacity with
    | .error e => some (.failed e, some f)
    | .ok len => some (.mapFile len, some { f with length := len })
  | .mapFile len, file => match initHeader p capacity numReaders len with
    | .error e => some (.failed e, file)
    | .ok m => some (.writing m (fun _ => false) false, file)
  | _, _ => none

/-- A step of `open_existing`. -/
def OpenPc.next : OpenPc → Option PathFile → Option OpenPc
  | .checkType, _ => some (proceed (do
      ensure (T.align ≤ 64) (.panic .assertion)
      ensure (T.size > 0) (.panic .assertion)) fun _ => .openFile)
  | .openFile, none => some (.done (.error (.err .io)))
  | .openFile, some _ => some .checkLength
  | .checkLength, some f => some (proceed
      (ensure (headerSize ≤ f.length) (.err (.fileTooShort headerSize f.length)))
      fun _ => .mapFile f.length)
  | .mapFile len, some _ => some (.loadMagic len)
  | .loadMagic len, some f => some (proceed
      (ensure (f.hdr.magic = magic) (.err (.headerCorruption "magic" magic f.hdr.magic)))
      fun _ => .loadVersion len)
  | .loadVersion len, some f => some (proceed
      (ensure (f.hdr.version = version) (.err (.versionMismatch version f.hdr.version)))
      fun _ => .loadMask len)
  | .loadMask len, some f => some (proceed (do
      let mask := f.hdr.capacityMask
      ensure (mask ≠ 0) (.err (.headerCorruption "capacity_mask" 0 mask))
      let capacity ← p.add mask 1
      ensure (isPowerOfTwo capacity) (.err (.headerCorruption "capacity_mask" 0 mask)))
      fun _ => .loadCapacity len)
  | .loadCapacity len, some f => some (proceed (do
      let capacity ← p.add f.hdr.capacityMask 1
      let expected ← fileLength p T capacity
      ensure (expected ≤ len) (.err (.fileTooShort expected len))
      return .fresh capacity) .returning)
  | .returning h, _ => some (.done (.ok h))
  | _, _ => none

/-- The path and the calls. -/
structure OpeningState where
  file : Option PathFile
  creates : ℕ → CreatePc
  opens : ℕ → OpenPc

/-- A step of a call; `store` is a store of the header write. -/
inductive OpeningStep
  | create (c : ℕ)
  | store (c : ℕ) (f : Field)
  | returned (c : ℕ)
  | openExisting (o : ℕ)

/-- A step, when create `c` is called with the capacity and the reader count `args c`. -/
def OpeningState.next (args : ℕ → ℕ × ℕ) (s : OpeningState) : OpeningStep → Option OpeningState
  | .create c => ((s.creates c).next p T (args c).1 (args c).2 s.file).map fun (pc, file) =>
      { s with file := file, creates := Function.update s.creates c pc }
  | .store c f => match s.creates c, s.file with
    | .writing m visible returned, some file =>
        if visible f then none
        else some { s with
          file := some { file with hdr := file.hdr.store m.hdr f }
          creates := Function.update s.creates c (.writing m (Function.update visible f true) returned) }
    | _, _ => none
  | .returned c => match s.creates c with
    | .writing m visible false =>
        some { s with creates := Function.update s.creates c (.writing m visible true) }
    | _ => none
  | .openExisting o => ((s.opens o).next p T s.file).map fun pc =>
      { s with opens := Function.update s.opens o pc }

/-- The runs on an absent path. -/
def opening (args : ℕ → ℕ × ℕ) : System OpeningState OpeningStep where
  init s := s.file = none ∧ (∀ c, s.creates c = .checkArgs) ∧ ∀ o, s.opens o = .checkType
  step s e t := s.next p T args e = some t

end ShmRings
