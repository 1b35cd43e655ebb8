import ShmRings.Calls.Status
import ShmRings.Lib.Register
import ShmRings.Model.Disk

/-!
# A status file that is read while it is updated

One process updates a status file that `create` has made, any number of processes read it. A step is the load or
the store of one byte: what the mapping is copied by may take the bytes in any order. Every value is stamped with
the identity of its type.

* `UpdatePc`, `ReadPc`, `StatusState`, `StatusStep`, `statusThreads`;
* **`leWord_inj`**, `stamped_byte`: two stamped values have the same first 12 bytes;
* `StatusInv`, `StatusInv.step`; **`read_regular`**;
* `reach_loads`, `reach_checks`, `reach_copies`: the bytes a call loads or stores while nobody else moves.
-/

set_option autoImplicit false

namespace ShmRings.Status

open Transition Register

variable {T : PodStatus}

/-- Where a call of `update` is. -/
inductive UpdatePc (T : PodStatus)
  | idle
  /-- With the bytes of the identity that are loaded. -/
  | check (value : T.Value) (head : Fin T.size → Option UInt8)
  | copy (value : T.Value)
  | done (res : Except Fault Unit)

/-- Where a call of `read` is. -/
inductive ReadPc (T : PodStatus)
  | idle
  /-- With the bytes that are loaded. -/
  | load (got : Fin T.size → Option UInt8)
  | done (res : Except Fault T.Value)

/-- Byte `i` of a value. -/
def PodStatus.Value.byte (v : T.Value) (i : Fin T.size) : UInt8 := v.bytes.getD i 0

/-- The bytes of the file with the values that were written to it, the writer, the readers, and for each reader
the number of the last value that was in the file when its read began. -/
structure StatusState (T : PodStatus) where
  file : Cells (Fin T.size) UInt8 T.Value
  update : UpdatePc T
  read : ℕ → ReadPc T
  since : ℕ → ℕ

namespace StatusState

/-- The file `create` leaves. -/
def created (v : T.Value) : StatusState T := ⟨⟨v.byte, [v], none⟩, .idle, fun _ => .idle, fun _ => 0⟩

variable (s : StatusState T)

/-- The content of the file. -/
def content : List UInt8 := List.ofFn s.file.mem

/-- Reader `r` moves on. -/
def readStep (r : ℕ) (pc : ReadPc T) : StatusState T := { s with read := Function.update s.read r pc }

variable {s}

@[simp] theorem readStep_read {r : ℕ} {pc : ReadPc T} : (s.readStep r pc).read r = pc := by
  simp [readStep]

end StatusState

/-- One step. -/
inductive StatusStep (T : PodStatus) : StatusState T → Unit → StatusState T → Prop
  | callUpdate {s} (value : T.Value) : s.update = .idle → value.Stamped →
      StatusStep T s () { s with update := .check value fun _ => none }
  | checkByte {s value head} (i : Fin T.size) : s.update = .check value head → (i : ℕ) < 12 →
      StatusStep T s () { s with update := .check value (Function.update head i (some (s.file.mem i))) }
  | refuse {s value head} {f : Fin T.size → UInt8} {e} : s.update = .check value head →
      (∀ i : Fin T.size, (i : ℕ) < 12 → head i = some (f i)) → checkMapping T (List.ofFn f) = .error e →
      StatusStep T s () { s with update := .done (.error e) }
  | accept {s value head} {f : Fin T.size → UInt8} : s.update = .check value head →
      (∀ i : Fin T.size, (i : ℕ) < 12 → head i = some (f i)) → checkMapping T (List.ofFn f) = .ok () →
      StatusStep T s () { s with update := .copy value, file := s.file.begin value }
  | copyByte {s value} (i : Fin T.size) : s.update = .copy value →
      StatusStep T s () { s with file := s.file.put i (value.byte i) }
  | copied {s value stored} : s.update = .copy value → s.file.stored = some stored → (∀ i, i ∈ stored) →
      StatusStep T s () { s with update := .done (.ok ()), file := s.file.finish }
  | retUpdate {s res} : s.update = .done res → StatusStep T s () { s with update := .idle }
  | callRead {s} (r : ℕ) : s.read r = .idle →
      StatusStep T s () ⟨s.file, s.update, Function.update s.read r (.load fun _ => none),
        Function.update s.since r s.file.settled⟩
  | loadByte {s r got} (i : Fin T.size) : s.read r = .load got →
      StatusStep T s () (s.readStep r (.load (Function.update got i (some (s.file.mem i)))))
  | loaded {s r got} {f : Fin T.size → UInt8} : s.read r = .load got → (∀ i, got i = some (f i)) →
      StatusStep T s () (s.readStep r (.done (Status.read T (some (List.ofFn f)))))
  | retRead {s r res} : s.read r = .done res → StatusStep T s () (s.readStep r .idle)

/-- The system, from a file that was created with a stamped value. -/
def statusThreads (T : PodStatus) : System (StatusState T) Unit where
  init s := ∃ v : T.Value, v.Stamped ∧ s = .created v
  step := StatusStep T

/-! ## The identity -/

/-- **A word determines its bytes.** -/
theorem leWord_inj {f g : ℕ → UInt8} {off n : ℕ} (h : leWord f off n = leWord g off n) :
    ∀ i < n, f (off + i) = g (off + i) := by
  induction n with
  | zero =>
      intro i hi
      omega
  | succ n ih =>
      rw [leWord_succ, leWord_succ] at h
      have hf := leWord_lt f off n
      have hg := leWord_lt g off n
      have hpos : 0 < 256 ^ n := Nat.pow_pos (by decide)
      have hdiv := congrArg (· / 256 ^ n) h
      have hmod := congrArg (· % 256 ^ n) h
      simp only [Nat.add_mul_div_right _ _ hpos, Nat.div_eq_of_lt hf, Nat.div_eq_of_lt hg, Nat.zero_add] at hdiv
      simp only [Nat.add_mul_mod_self_right, Nat.mod_eq_of_lt hf, Nat.mod_eq_of_lt hg] at hmod
      intro i hi
      rcases Nat.lt_succ_iff_lt_or_eq.mp hi with hlt | rfl
      · exact ih hmod i hlt
      · exact UInt8.toNat_inj.mp hdiv

theorem getD_ofFn (f : Fin T.size → UInt8) (i : Fin T.size) : (List.ofFn f).getD i 0 = f i := by
  rw [List.getD_eq_getElem?_getD, List.getElem?_ofFn]
  simp

theorem ofFn_byte (v : T.Value) : List.ofFn v.byte = v.bytes := by
  refine List.ext_getElem ?_ fun i hi hi' => ?_
  · rw [List.length_ofFn, v.length_eq]
  · rw [List.getElem_ofFn]
    unfold PodStatus.Value.byte
    rw [List.getD_eq_getElem?_getD, List.getElem?_eq_getElem hi']
    rfl

/-- Two stamped values have the same identity bytes. -/
theorem stamped_byte {u v : T.Value} (hu : u.Stamped) (hv : v.Stamped) {i : Fin T.size} (hi : (i : ℕ) < 12) :
    u.byte i = v.byte i := by
  by_cases hi8 : (i : ℕ) < 8
  · have hword : leWord (u.bytes.getD · 0) 0 8 = leWord (v.bytes.getD · 0) 0 8 := hu.1.trans hv.1.symm
    have h := leWord_inj hword i hi8
    rwa [Nat.zero_add] at h
  · have hword : leWord (u.bytes.getD · 0) 8 4 = leWord (v.bytes.getD · 0) 8 4 := hu.2.trans hv.2.symm
    have h := leWord_inj hword (i - 8) (by omega)
    rwa [Nat.add_sub_cancel' (Nat.not_lt.mp hi8)] at h

/-- Bytes that start as a stamped value does pass the checks. -/
theorem checkMapping_of_byte {v : T.Value} (hv : v.Stamped) {f : Fin T.size → UInt8}
    (h : ∀ i : Fin T.size, (i : ℕ) < 12 → f i = v.byte i) : checkMapping T (List.ofFn f) = .ok () := by
  have hget : ∀ i < 12, (List.ofFn f).getD i 0 = v.bytes.getD i 0 := by
    intro i hi
    have hlt : i < T.size := hi.trans_le T.head_le
    exact (getD_ofFn f ⟨i, hlt⟩).trans (h ⟨i, hlt⟩ hi)
  refine checkMapping_ok.mpr ⟨List.length_ofFn.ge, ?_, ?_⟩
  · have hword : headMagic (List.ofFn f) = headMagic v.bytes :=
      leWord_congr fun (i : ℕ) (hi : i < 8) => hget (0 + i) (by omega)
    exact hword.trans hv.1
  · have hword : headVersion (List.ofFn f) = headVersion v.bytes :=
      leWord_congr fun (i : ℕ) (hi : i < 4) => hget (8 + i) (by omega)
    exact hword.trans hv.2

/-! ## The invariant -/

/-- The bytes of a value that nobody has replaced. -/
abbrev Current (s : StatusState T) (lo : ℕ) (i : Fin T.size) (b : UInt8) : Prop :=
  Among PodStatus.Value.byte s.file.values lo i b

/-- What the writer knows. -/
def UpdateOk (s : StatusState T) : UpdatePc T → Prop
  | .idle => s.file.stored = none
  | .check v head => s.file.stored = none ∧ v.Stamped ∧
      ∀ i b, head i = some b → Current s 0 i b
  | .copy v => s.file.stored ≠ none ∧ s.file.values.getLast? = some v
  | .done res => s.file.stored = none ∧ res = .ok ()

/-- What a reader knows that began when value number `lo` was in the file. -/
def ReadOk (s : StatusState T) (lo : ℕ) : ReadPc T → Prop
  | .idle => True
  | .load got => ∀ i b, got i = some b → Current s lo i b
  | .done res => ∃ v : T.Value, res = .ok v ∧ v.Stamped ∧ ∀ i, Current s lo i (v.byte i)

structure StatusInv (s : StatusState T) : Prop where
  file : s.file.Ok PodStatus.Value.byte
  stamped : ∀ v ∈ s.file.values, v.Stamped
  update : UpdateOk s s.update
  since : ∀ r, s.since r ≤ s.file.settled
  read : ∀ r, ReadOk s (s.since r) (s.read r)

section Step

variable {s t : StatusState T}

/-- Any byte of the identity that was ever in the file is that of a stamped value. -/
theorem StatusInv.head (h : StatusInv s) {f : Fin T.size → UInt8} {lo : ℕ}
    (hf : ∀ i : Fin T.size, (i : ℕ) < 12 → Current s lo i (f i)) : checkMapping T (List.ofFn f) = .ok () := by
  obtain ⟨_, v, -, hv, -⟩ := h.file.among ⟨0, Nat.lt_of_lt_of_le (by decide) T.head_le⟩
  have hstamped := h.stamped v (List.mem_of_getElem? hv)
  refine checkMapping_of_byte hstamped fun i hi => ?_
  obtain ⟨j, u, -, hu, hbyte⟩ := hf i hi
  rw [← hbyte]
  exact stamped_byte (h.stamped u (List.mem_of_getElem? hu)) hstamped hi

/-- What a reader knows stays so. -/
theorem ReadOk.mono {lo : ℕ} {pc : ReadPc T} (h : ReadOk s lo pc)
    (hvalues : ∃ ws, t.file.values = s.file.values ++ ws) : ReadOk t lo pc := by
  obtain ⟨ws, hws⟩ := hvalues
  have hcur : ∀ i b, Current s lo i b → Current t lo i b := by
    intro i b hb
    unfold Current
    rw [hws]
    exact hb.append ws
  cases pc with
  | idle => trivial
  | load got => exact fun i b hb => hcur i b (h i b hb)
  | done res =>
      obtain ⟨v, hres, hv, hb⟩ := h
      exact ⟨v, hres, hv, fun i => hcur i _ (hb i)⟩

/-- A step of the writer. -/
theorem StatusInv.of_writer (h : StatusInv s) (hfile : t.file.Ok PodStatus.Value.byte)
    (hvalues : ∃ ws, t.file.values = s.file.values ++ ws) (hstamped : ∀ v ∈ t.file.values, v.Stamped)
    (hsettled : s.file.settled ≤ t.file.settled) (hupdate : UpdateOk t t.update) (hread : t.read = s.read)
    (hsince : t.since = s.since) : StatusInv t where
  file := hfile
  stamped := hstamped
  update := hupdate
  since r := by
    rw [hsince]
    exact (h.since r).trans hsettled
  read r := by
    rw [hsince, hread]
    exact (h.read r).mono hvalues

/-- A step of reader `r`. -/
theorem StatusInv.of_reader (h : StatusInv s) {r : ℕ} {pc : ReadPc T} (hpc : ReadOk s (s.since r) pc) :
    StatusInv (s.readStep r pc) := by
  refine ⟨h.file, h.stamped, ?_, h.since, fun q => ?_⟩
  · have hupdate := h.update
    show UpdateOk (s.readStep r pc) s.update
    cases hu : s.update <;> rw [hu] at hupdate <;> exact hupdate
  · have hsame : ∀ pc', ReadOk s (s.since q) pc' → ReadOk (s.readStep r pc) (s.since q) pc' := fun pc' hok =>
      hok.mono ⟨[], (List.append_nil _).symm⟩
    show ReadOk (s.readStep r pc) (s.since q) (Function.update s.read r pc q)
    by_cases hq : q = r
    · subst hq
      rw [Function.update_self]
      exact hsame _ hpc
    · rw [Function.update_of_ne hq]
      exact hsame _ (h.read q)

/-- **Every step keeps the invariant.** -/
theorem StatusInv.step (h : StatusInv s) (hst : StatusStep T s () t) : StatusInv t := by
  have hsame : ∃ ws, s.file.values = s.file.values ++ ws := ⟨[], (List.append_nil _).symm⟩
  have hupdate := h.update
  cases hst with
  | callUpdate v hidle hv =>
      rw [hidle] at hupdate
      exact h.of_writer h.file hsame h.stamped le_rfl ⟨hupdate, hv, fun _ _ hnone => by cases hnone⟩ rfl rfl
  | @checkByte v head i hcheck hi =>
      rw [hcheck] at hupdate
      obtain ⟨hstored, hv, hhead⟩ := hupdate
      refine h.of_writer h.file hsame h.stamped le_rfl ⟨hstored, hv, fun j b hb => ?_⟩ rfl rfl
      by_cases hj : j = i
      · subst hj
        rw [Function.update_self] at hb
        cases hb
        exact (h.file.among j).mono (Nat.zero_le _)
      · rw [Function.update_of_ne hj] at hb
        exact hhead j b hb
  | @refuse v head f e hcheck hall herr =>
      rw [hcheck] at hupdate
      have hok := h.head fun i hi => hupdate.2.2 i (f i) (hall i hi)
      rw [hok] at herr
      cases herr
  | @accept v head f hcheck hall hok =>
      rw [hcheck] at hupdate
      obtain ⟨hstored, hv, -⟩ := hupdate
      obtain ⟨hfile, hsettled⟩ := h.file.begin hstored v
      refine h.of_writer hfile ⟨[v], rfl⟩ (fun u hu => ?_) hsettled.ge ⟨nofun, ?_⟩ rfl rfl
      · rcases List.mem_append.mp hu with hold | hnew
        · exact h.stamped u hold
        · rw [List.mem_singleton.mp hnew]
          exact hv
      · exact List.getLast?_concat
  | @copyByte v i hcopy =>
      rw [hcopy] at hupdate
      obtain ⟨stored, hstored⟩ := Option.ne_none_iff_exists'.mp hupdate.1
      obtain ⟨hfile, hsettled⟩ := h.file.put hstored hupdate.2 i
      refine h.of_writer hfile hsame h.stamped hsettled.ge ?_ rfl rfl
      show UpdateOk _ s.update
      rw [hcopy]
      refine ⟨?_, hupdate.2⟩
      show s.file.stored.map _ ≠ none
      rw [hstored]
      simp
  | @copied v stored hcopy hstored hall =>
      obtain ⟨hfile, hsettled⟩ := h.file.finish hstored hall
      exact h.of_writer hfile hsame h.stamped hsettled ⟨rfl, rfl⟩ rfl rfl
  | retUpdate hdone =>
      rw [hdone] at hupdate
      exact h.of_writer h.file hsame h.stamped le_rfl hupdate.1 rfl rfl
  | callRead r hidle =>
      refine ⟨h.file, h.stamped, ?_, fun q => ?_, fun q => ?_⟩
      · show UpdateOk _ s.update
        cases hu : s.update <;> rw [hu] at hupdate <;> exact hupdate
      · show Function.update s.since r s.file.settled q ≤ s.file.settled
        by_cases hq : q = r
        · subst hq
          rw [Function.update_self]
        · rw [Function.update_of_ne hq]
          exact h.since q
      · show ReadOk _ (Function.update s.since r s.file.settled q) (Function.update s.read r _ q)
        by_cases hq : q = r
        · subst hq
          rw [Function.update_self, Function.update_self]
          exact fun _ _ hnone => by cases hnone
        · rw [Function.update_of_ne hq, Function.update_of_ne hq]
          exact (h.read q).mono hsame
  | @loadByte r got i hload =>
      have hread := h.read r
      rw [hload] at hread
      refine h.of_reader fun j b hb => ?_
      by_cases hj : j = i
      · subst hj
        rw [Function.update_self] at hb
        cases hb
        exact (h.file.among j).mono (h.since r)
      · rw [Function.update_of_ne hj] at hb
        exact hread j b hb
  | @loaded r got f hload hall =>
      have hread := h.read r
      rw [hload] at hread
      have hcur : ∀ i, Current s (s.since r) i (f i) := fun i => hread i (f i) (hall i)
      have hlen : (List.ofFn f).length = T.size := List.length_ofFn
      let v : T.Value := ⟨List.ofFn f, hlen⟩
      have hv : v.Stamped := (checkMapping_bytes v).mp (h.head fun i _ => hcur i)
      refine h.of_reader ⟨v, (read_bytes v).mpr hv, hv, fun i => ?_⟩
      have hbyte : v.byte i = f i := getD_ofFn f i
      rw [hbyte]
      exact hcur i
  | retRead hdone => exact h.of_reader trivial

end Step

/-- **A status file may be read while it is updated**, byte by byte and in any order. No update is refused, and one
that has returned has left in the file what `update` leaves there. No read is refused: it returns a stamped value,
each byte of which is of a value that was not replaced when the read began; and if none was begun since, it
returns the value that was in the file then. -/
theorem read_regular {s : StatusState T} (h : Reachable (statusThreads T) s) :
    (∀ res, s.update = .done res → ∃ v, s.file.values.getLast? = some v ∧
      ∀ u : T.Value, u.Stamped → Status.update v (some u.bytes) = (res, some s.content)) ∧
    ∀ r res, s.read r = .done res → ∃ v : T.Value, res = .ok v ∧ v.Stamped ∧
      (∀ i, Among PodStatus.Value.byte s.file.values (s.since r) i (v.byte i)) ∧
      (s.file.values.length = s.since r + 1 → s.file.values.getLast? = some v) := by
  have hinv : StatusInv s := by
    refine h.invariant ?_ fun s e t hs hst => hs.step hst
    rintro s ⟨v, hv, rfl⟩
    refine ⟨Cells.ok_single v, fun u hu => ?_, rfl, fun _ => Nat.zero_le _, fun _ => trivial⟩
    rw [List.mem_singleton.mp hu]
    exact hv
  refine ⟨fun res hdone => ?_, fun r res hdone => ?_⟩
  · have hupdate := hinv.update
    rw [hdone] at hupdate
    obtain ⟨hstored, rfl⟩ := hupdate
    obtain ⟨v, hv, hlen, hmem⟩ := hinv.file.still hstored
    refine ⟨v, ?_, fun u hu => ?_⟩
    · rw [List.getLast?_eq_getElem?, ← hlen]
      exact hv
    · have hcontent : s.content = v.bytes := by
        unfold StatusState.content
        rw [funext hmem]
        exact ofFn_byte v
      rw [hcontent]
      exact update_exact ((checkMapping_bytes u).mpr hu) u.length_eq
  · have hread := hinv.read r
    rw [hdone] at hread
    obtain ⟨v, rfl, hv, hcur⟩ := hread
    refine ⟨v, rfl, hv, hcur, fun hlen => ?_⟩
    obtain ⟨j, u, hj, hu, -⟩ := hcur ⟨0, Nat.lt_of_lt_of_le (by decide) T.head_le⟩
    have hlt := (List.getElem?_eq_some_iff.mp hu).1
    obtain rfl : j = s.since r := by omega
    have hsame : v = u := by
      refine PodStatus.Value.ext ?_
      rw [← ofFn_byte v, ← ofFn_byte u]
      exact congrArg List.ofFn (funext fun i => (hcur i).eq_last hlen hu)
    rw [List.getLast?_eq_getElem?, hlen, hsame]
    exact hu

/-! ## A read beside an update -/

section Bytes

variable {s : StatusState T}

/-- A reader may load any bytes while nobody else moves. -/
theorem reach_loads {r : ℕ} {got : Fin T.size → Option UInt8} (is : List (Fin T.size))
    (h : Reachable (statusThreads T) s) (hload : s.read r = .load got) :
    Reachable (statusThreads T)
      (s.readStep r (.load (is.foldl (fun got i => Function.update got i (some (s.file.mem i))) got))) := by
  induction is generalizing s got with
  | nil =>
      have hsame : s.readStep r (.load got) = s := by
        rw [StatusState.readStep, ← hload, Function.update_eq_self]
      rwa [List.foldl_nil, hsame]
  | cons i is ih =>
      have hnext := ih (h.step (.loadByte i hload)) StatusState.readStep_read
      simpa only [StatusState.readStep, Function.update_idem, List.foldl_cons] using hnext

/-- The writer may load any bytes of the identity. -/
theorem reach_checks {v : T.Value} {head : Fin T.size → Option UInt8} (is : List (Fin T.size))
    (h : Reachable (statusThreads T) s) (hcheck : s.update = .check v head) (hlt : ∀ i ∈ is, (i : ℕ) < 12) :
    Reachable (statusThreads T) { s with
      update := .check v (is.foldl (fun head i => Function.update head i (some (s.file.mem i))) head) } := by
  induction is generalizing s head with
  | nil => rwa [List.foldl_nil, ← hcheck]
  | cons i is ih =>
      obtain ⟨hi, his⟩ := List.forall_mem_cons.mp hlt
      have hnext := ih (h.step (.checkByte i hcheck hi)) rfl his
      rwa [List.foldl_cons]

/-- The writer may store any bytes. -/
theorem reach_copies {v : T.Value} (is : List (Fin T.size)) (h : Reachable (statusThreads T) s)
    (hcopy : s.update = .copy v) :
    Reachable (statusThreads T) { s with file := is.foldl (fun c i => c.put i (v.byte i)) s.file } := by
  induction is generalizing s with
  | nil => exact h
  | cons i is ih => exact ih (h.step (.copyByte i hcopy)) hcopy

theorem stored_of_copies {f : Fin T.size → UInt8} {c : Cells (Fin T.size) UInt8 T.Value} {stored : Set (Fin T.size)}
    (is : List (Fin T.size)) (hs : c.stored = some stored) :
    ∃ stored', (is.foldl (fun c i => c.put i (f i)) c).stored = some stored' ∧
      ∀ i, i ∈ is ∨ i ∈ stored → i ∈ stored' := by
  induction is generalizing c stored with
  | nil => exact ⟨stored, hs, fun i hi => hi.resolve_left List.not_mem_nil⟩
  | cons j is ih =>
      have hs₁ : (c.put j (f j)).stored = some (insert j stored) := congrArg (Option.map (insert j)) hs
      obtain ⟨stored', hs', hall⟩ := ih hs₁
      refine ⟨stored', hs', fun i hi => hall i ?_⟩
      rcases hi with hi | hi
      · rcases List.mem_cons.mp hi with rfl | hi
        · exact .inr (Set.mem_insert _ _)
        · exact .inl hi
      · exact .inr (Set.mem_insert_of_mem _ hi)

end Bytes

/-- A record of 14 bytes. -/
def pair : PodStatus := ⟨14, 0x50414952, 2, by decide, by decide, by decide⟩

/-- The `pair` of two bytes. -/
def pairValue (a b : UInt8) : pair.Value := ⟨[0x52, 0x49, 0x41, 0x50, 0, 0, 0, 0, 2, 0, 0, 0, a, b], rfl⟩

/-- A read that began before an update of `1, 1` to `2, 2` and ends after it returns `1, 2`; the next read returns
`2, 2`. -/
theorem read_regular_torn : ∃ s : StatusState pair, Reachable (statusThreads pair) s ∧
    s.read 0 = .done (.ok (pairValue 1 2)) ∧
    (∀ i, Among PodStatus.Value.byte s.file.values 0 i ((pairValue 1 2).byte i)) ∧
    s.read 1 = .done (.ok (pairValue 2 2)) ∧
    Status.update (pairValue 2 2) (some (pairValue 1 1).bytes) = (.ok (), some s.content) := by
  have hold : (pairValue 1 1).Stamped := ⟨by decide, by decide⟩
  have hnew : (pairValue 2 2).Stamped := ⟨by decide, by decide⟩
  have hidentity : checkMapping pair (List.ofFn (pairValue 1 1).byte) = .ok () := by
    rw [ofFn_byte]
    exact (checkMapping_bytes _).mpr hold
  let all : List (Fin pair.size) := List.finRange pair.size
  have h₀ := Reachable.init (S := statusThreads pair) ⟨pairValue 1 1, hold, rfl⟩
  -- 13 bytes of the read, then the update
  have h₁ := reach_loads (all.take 13) (h₀.step (.callRead 0 rfl)) (Function.update_self 0 _ _)
  have h₂ := reach_checks (all.take 12) (h₁.step (.callUpdate (pairValue 2 2) rfl hnew)) rfl (by decide)
  have h₃ := h₂.step (.accept (f := (pairValue 1 1).byte) rfl (by decide +kernel) hidentity)
  have h₄ := reach_copies all h₃ rfl
  obtain ⟨stored, hstored, hall⟩ := stored_of_copies (f := (pairValue 2 2).byte)
    (c := (⟨(pairValue 1 1).byte, [pairValue 1 1], none⟩ : Cells _ _ _).begin (pairValue 2 2)) all rfl
  have h₅ := h₄.step (.copied rfl hstored fun i => hall i (.inl (List.mem_finRange i)))
  -- the last byte, and the second read
  have h₆ := reach_loads (all.drop 13) h₅ (Function.update_self 0 _ _)
  have h₇ := h₆.step (.loaded (r := 0) (f := (pairValue 1 2).byte) StatusState.readStep_read (by decide +kernel))
  have h₈ := reach_loads all (h₇.step (.callRead 1 rfl)) (Function.update_self 1 _ _)
  have h₉ := h₈.step (.loaded (r := 1) (f := (pairValue 2 2).byte) StatusState.readStep_read (by decide +kernel))
  obtain ⟨hupdate, hread⟩ := read_regular h₉
  obtain ⟨v, hlast, hcontent⟩ := hupdate (.ok ()) rfl
  obtain ⟨u, hu, -, hamong, -⟩ := hread 0 _ rfl
  obtain ⟨w, hw, -, -, hsettled⟩ := hread 1 _ StatusState.readStep_read
  have hmixed : Status.read pair (some (List.ofFn (pairValue 1 2).byte)) = .ok (pairValue 1 2) := by
    rw [ofFn_byte]
    exact (read_bytes _).mpr ⟨by decide, by decide⟩
  obtain rfl : u = pairValue 1 2 := Except.ok.inj (hu.symm.trans hmixed)
  obtain rfl : pairValue 2 2 = v := Option.some.inj hlast
  obtain rfl : pairValue 2 2 = w := Option.some.inj (hsettled rfl)
  exact ⟨_, h₉, congrArg ReadPc.done hu, hamong, StatusState.readStep_read.trans (congrArg ReadPc.done hw),
    hcontent _ hold⟩

end ShmRings.Status
