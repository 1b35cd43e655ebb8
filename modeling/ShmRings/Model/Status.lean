import ShmRings.Lib.System
import ShmRings.Model.Open

/-!
# Status files

A status file holds one plain-old-data record. The functions act on the content of one path, `none` when
there is no file; the system calls on an existing file succeed.

* `PodStatus`, `PodStatus.Value`; `headMagic`, `headVersion`: the identity at the start of a record;
* `create`, `read`, `update`, `cleanup`;
* `StatusCall`, `statusFile`: the runs of calls that write.
-/

set_option autoImplicit false

namespace ShmRings.Status

open Transition

/-- A status type: the size of its records and their identity, a `u64` magic at offset 0 and a `u32`
version at offset 8. -/
structure PodStatus where
  size : ℕ
  magic : ℕ
  version : ℕ
  head_le : 12 ≤ size
  magic_lt : magic < u64Size
  version_lt : version < 2 ^ 32

/-- A value is a bit pattern of the size of its type. -/
@[ext] structure PodStatus.Value (T : PodStatus) where
  bytes : List UInt8
  length_eq : bytes.length = T.size

/-- The magic at the start of `bytes`. -/
def headMagic (bytes : List UInt8) : ℕ := leWord (bytes.getD · 0) 0 8

/-- The version after it. -/
def headVersion (bytes : List UInt8) : ℕ := leWord (bytes.getD · 0) 8 4

namespace PodStatus

variable {T : PodStatus}

def Value.magic (v : T.Value) : ℕ := headMagic v.bytes

def Value.version (v : T.Value) : ℕ := headVersion v.bytes

def Value.MagicMatches (v : T.Value) : Prop := v.magic = T.magic

def Value.VersionMatches (v : T.Value) : Prop := v.version = T.version

instance (v : T.Value) : Decidable v.MagicMatches := inferInstanceAs (Decidable (_ = _))

instance (v : T.Value) : Decidable v.VersionMatches := inferInstanceAs (Decidable (_ = _))

end PodStatus

/-- The content of a path. -/
abbrev File := Option (List UInt8)

/-- `dst.copy_from_slice(src)`, which asserts that the lengths are equal. -/
def copyFromSlice (dst src : List UInt8) : Except Fault (List UInt8) := do
  ensure (dst.length = src.length) (.panic .assertion)
  return src

variable (T : PodStatus)

/-- Maps the file, reads a `T` from its first bytes and checks the identity of the value. -/
def read : File → Except Fault T.Value
  | none => .error (.err .io)
  | some mmap =>
      if h : mmap.length < T.size then .error (.err (.fileTooShort T.size mmap.length))
      else do
        let value : T.Value := ⟨mmap.take T.size, by rw [List.length_take]; omega⟩
        ensure value.MagicMatches (.err (.headerCorruption "magic" T.magic value.magic))
        ensure value.VersionMatches (.err (.versionMismatch T.version value.version))
        return value

/-- The length and the identity `update` checks, by the offsets in the mapping. -/
def checkMapping (mmap : List UInt8) : Except Fault Unit := do
  ensure (T.size ≤ mmap.length) (.err (.fileTooShort T.size mmap.length))
  let storedMagic := headMagic mmap
  let storedVersion := headVersion mmap
  ensure (storedMagic = T.magic) (.err (.headerCorruption "magic" T.magic storedMagic))
  ensure (storedVersion = T.version) (.err (.versionMismatch T.version storedVersion))

variable {T}

/-- Overwrites the whole mapping with `value`, once the checks have passed. -/
def update (value : T.Value) : File → Except Fault Unit × File
  | none => (.error (.err .io), none)
  | some mmap =>
      match (checkMapping T mmap >>= fun _ => copyFromSlice mmap value.bytes) with
      | .ok mmap' => (.ok (), some mmap')
      | .error e => (.error e, some mmap)

/-- Truncates the file or makes a new one, gives it the size of a `T` and copies `initial` in. -/
def create (initial : T.Value) (_ : File) : Except Fault Unit × File :=
  let mmap := List.replicate T.size 0
  match copyFromSlice mmap initial.bytes with
  | .ok mmap' => (.ok (), some mmap')
  | .error e => (.error e, some mmap)

/-- Removes the file, if there is one. -/
def cleanup : File → Except Fault Unit × File
  | none => (.ok (), none)
  | some _ => (.ok (), none)

/-- The calls that write. -/
inductive StatusCall
  | create (T : PodStatus) (initial : T.Value)
  | update (T : PodStatus) (value : T.Value)
  | cleanup

def StatusCall.run : StatusCall → File → Except Fault Unit × File
  | .create _ initial => Status.create initial
  | .update _ value => Status.update value
  | .cleanup => Status.cleanup

/-- The runs of calls on one path, from any content; a label is a call and its result. -/
def statusFile : System File (StatusCall × Except Fault Unit) where
  init _ := True
  step s e t := e.1.run s = (e.2, t)

end ShmRings.Status
