import ShmRings.Model.Status

/-!
# What a status file holds

`read` and `update` check the same identity, one on the value and one on the mapping. `update` then copies
over the whole mapping, which must have the size of the record. No call checks the identity of the value
it writes.

* `checkMapping_ok`, **`read_eq`**: the two checks agree; `update_eq_error`, `update_exact`,
  `update_long`: what `update` leaves;
* `Mirrors`, **`update_mirrors_read_iff`**; **`update_long_file`**: a file longer than the record;
* `Stamped`; **`read_last_written`**: what every read returns until the next write;
  **`unstamped_unreadable`**.
-/

set_option autoImplicit false

namespace ShmRings.Status

open Transition

variable {T U : PodStatus} {v : T.Value} {mmap : List UInt8} {file : File}

/-! ## The two checks -/

theorem leWord_congr {byte byte' : ℕ → UInt8} {off n : ℕ}
    (h : ∀ i < n, byte (off + i) = byte' (off + i)) : leWord byte off n = leWord byte' off n := by
  unfold leWord
  congr 1
  refine List.map_congr_left fun i hi => ?_
  rw [h i (List.mem_range.mp hi)]

theorem getD_take {bytes : List UInt8} {n i : ℕ} (h : i < n) :
    (bytes.take n).getD i 0 = bytes.getD i 0 := by
  rw [List.getD_eq_getElem?_getD, List.getElem?_take_of_lt h, List.getD_eq_getElem?_getD]

/-- The identity lies in the bytes of the record. -/
theorem headMagic_take (T : PodStatus) (bytes : List UInt8) :
    headMagic (bytes.take T.size) = headMagic bytes :=
  leWord_congr fun i hi => getD_take (by have := T.head_le; omega)

theorem headVersion_take (T : PodStatus) (bytes : List UInt8) :
    headVersion (bytes.take T.size) = headVersion bytes :=
  leWord_congr fun i hi => getD_take (by have := T.head_le; omega)

theorem checkMapping_ok : checkMapping T mmap = .ok () ↔
    T.size ≤ mmap.length ∧ headMagic mmap = T.magic ∧ headVersion mmap = T.version := by
  simp only [checkMapping, bind_eq_ok, ensure_eq_ok, exists_const]

theorem checkMapping_short (h : mmap.length < T.size) :
    checkMapping T mmap = .error (.err (.fileTooShort T.size mmap.length)) := by
  rw [checkMapping, ensure_neg (Nat.not_le.mpr h), error_bind]

theorem checkMapping_magic (h : T.size ≤ mmap.length) (hm : headMagic mmap ≠ T.magic) :
    checkMapping T mmap = .error (.err (.headerCorruption "magic" T.magic (headMagic mmap))) := by
  unfold checkMapping
  dsimp only
  rw [ensure_pos h, ok_bind, ensure_neg hm, error_bind]

theorem checkMapping_version (h : T.size ≤ mmap.length) (hm : headMagic mmap = T.magic)
    (hv : headVersion mmap ≠ T.version) :
    checkMapping T mmap = .error (.err (.versionMismatch T.version (headVersion mmap))) := by
  unfold checkMapping
  dsimp only
  rw [ensure_pos h, ok_bind, ensure_pos hm, ok_bind, ensure_neg hv]

/-- The checks do not panic. -/
theorem checkMapping_cases (T : PodStatus) (mmap : List UInt8) :
    checkMapping T mmap = .ok () ∨ ∃ e, checkMapping T mmap = .error (.err e) := by
  by_cases h : T.size ≤ mmap.length
  · by_cases hm : headMagic mmap = T.magic
    · by_cases hv : headVersion mmap = T.version
      · exact .inl (checkMapping_ok.mpr ⟨h, hm, hv⟩)
      · exact .inr ⟨_, checkMapping_version h hm hv⟩
    · exact .inr ⟨_, checkMapping_magic h hm⟩
  · exact .inr ⟨_, checkMapping_short (Nat.not_le.mp h)⟩

/-- The first bytes of a mapping, as a value. -/
def firstBytes (T : PodStatus) (mmap : List UInt8) (h : T.size ≤ mmap.length) : T.Value :=
  ⟨mmap.take T.size, by rw [List.length_take]; omega⟩

theorem firstBytes_magicMatches (h : T.size ≤ mmap.length) :
    (firstBytes T mmap h).MagicMatches ↔ headMagic mmap = T.magic := by
  have hmagic : (firstBytes T mmap h).magic = headMagic mmap := headMagic_take T mmap
  rw [PodStatus.Value.MagicMatches, hmagic]

theorem firstBytes_versionMatches (h : T.size ≤ mmap.length) :
    (firstBytes T mmap h).VersionMatches ↔ headVersion mmap = T.version := by
  have hversion : (firstBytes T mmap h).version = headVersion mmap := headVersion_take T mmap
  rw [PodStatus.Value.VersionMatches, hversion]

/-- **`read` checks what `update` checks**, with the same errors. -/
theorem read_eq (h : T.size ≤ mmap.length) : read T (some mmap) =
    (checkMapping T mmap >>= fun _ => .ok (firstBytes T mmap h)) := by
  have hmagic : (firstBytes T mmap h).magic = headMagic mmap := headMagic_take T mmap
  have hversion : (firstBytes T mmap h).version = headVersion mmap := headVersion_take T mmap
  have hread : read T (some mmap) =
      (ensure (firstBytes T mmap h).MagicMatches (.err (.headerCorruption "magic" T.magic
        (firstBytes T mmap h).magic)) >>= fun _ =>
      ensure (firstBytes T mmap h).VersionMatches (.err (.versionMismatch T.version
        (firstBytes T mmap h).version)) >>= fun _ => .ok (firstBytes T mmap h)) :=
    dif_neg (Nat.not_lt.mpr h)
  rw [hread]
  by_cases hm : headMagic mmap = T.magic
  · rw [ensure_pos ((firstBytes_magicMatches h).mpr hm), ok_bind]
    by_cases hv : headVersion mmap = T.version
    · rw [ensure_pos ((firstBytes_versionMatches h).mpr hv), ok_bind,
        checkMapping_ok.mpr ⟨h, hm, hv⟩, ok_bind]
    · rw [ensure_neg (mt (firstBytes_versionMatches h).mp hv), checkMapping_version h hm hv, error_bind,
        error_bind, hversion]
  · rw [ensure_neg (mt (firstBytes_magicMatches h).mp hm), checkMapping_magic h hm, error_bind,
      error_bind, hmagic]

theorem read_short (h : mmap.length < T.size) : read T (some mmap) =
    .error (.err (.fileTooShort T.size mmap.length)) := dif_pos h

/-! ## Updates -/

theorem update_eq_error {e : Fault} (h : checkMapping T mmap = .error e) :
    update v (some mmap) = (.error e, some mmap) := by
  rw [update, h, error_bind]

/-- A file of the size of the record is overwritten. -/
theorem update_exact (h : checkMapping T mmap = .ok ()) (hlen : mmap.length = T.size) :
    update v (some mmap) = (.ok (), some v.bytes) := by
  rw [update, h, ok_bind, copyFromSlice, ensure_pos (hlen.trans v.length_eq.symm), ok_bind]
  rfl

/-- A longer file is not. -/
theorem update_long (h : checkMapping T mmap = .ok ()) (hlen : mmap.length ≠ T.size) :
    update v (some mmap) = (.error (.panic .assertion), some mmap) := by
  rw [update, h, ok_bind, copyFromSlice, ensure_neg fun hc => hlen (hc.trans v.length_eq), error_bind]

/-- What `update` owes to `read` on a file with the bytes `content`. -/
structure Mirrors (v : T.Value) (content : List UInt8) : Prop where
  returns : ∀ e, (update v (some content)).1 ≠ .error (.panic e)
  ok_iff : (update v (some content)).1 = .ok () ↔ ∃ u, read T (some content) = .ok u
  same_error : ∀ e, read T (some content) = .error e → update v (some content) = (.error e, some content)
  written : (update v (some content)).1 = .ok () → ∃ content', (update v (some content)).2 = some content' ∧
    content'.take T.size = v.bytes ∧ content'.drop T.size = content.drop T.size

theorem mirrors_of_error {e : ShmRingError} (h : checkMapping T mmap = .error (.err e))
    (hread : read T (some mmap) = .error (.err e)) : Mirrors v mmap where
  returns _ := by
    rw [update_eq_error h]
    nofun
  ok_iff := by
    rw [update_eq_error h, hread]
    exact ⟨nofun, nofun⟩
  same_error e' he := by
    rw [hread] at he
    cases he
    exact update_eq_error h
  written hok := by
    rw [update_eq_error h] at hok
    cases hok

theorem mirrors_of_exact (h : checkMapping T mmap = .ok ()) (hlen : mmap.length = T.size) :
    Mirrors v mmap := by
  have hread : read T (some mmap) = .ok (firstBytes T mmap hlen.ge) := by rw [read_eq hlen.ge, h, ok_bind]
  have hupdate := update_exact (v := v) h hlen
  refine ⟨fun e he => ?_, ?_, fun e he => ?_, fun _ => ⟨v.bytes, ?_, ?_, ?_⟩⟩
  · rw [hupdate] at he
    cases he
  · rw [hupdate, hread]
    exact ⟨fun _ => ⟨_, rfl⟩, fun _ => rfl⟩
  · rw [hread] at he
    cases he
  · rw [hupdate]
  · rw [← v.length_eq, List.take_length]
  · rw [List.drop_eq_nil_of_le v.length_eq.le, List.drop_eq_nil_of_le hlen.le]

/-- **`update` agrees with `read` unless the file holds a `T` and more bytes after it**; there `read`
returns the `T` and the copy in `update` panics. -/
theorem update_mirrors_read_iff {T : PodStatus} (v : T.Value) (content : List UInt8) :
    Mirrors v content ↔
      content.length ≤ T.size ∨ headMagic content ≠ T.magic ∨ headVersion content ≠ T.version := by
  rcases Nat.lt_or_ge content.length T.size with hshort | hlong
  · have herr := mirrors_of_error (v := v) (checkMapping_short hshort) (read_short hshort)
    exact iff_of_true herr (.inl hshort.le)
  rcases checkMapping_cases T content with hok | ⟨e, herr⟩
  · obtain ⟨-, hm, hv⟩ := checkMapping_ok.mp hok
    by_cases hlen : content.length = T.size
    · exact iff_of_true (mirrors_of_exact hok hlen) (.inl hlen.le)
    · refine iff_of_false (fun hmir => hmir.returns .assertion ?_) ?_
      · rw [update_long hok hlen]
      · rintro (hle | hne | hne)
        · exact hlen (Nat.le_antisymm hle hlong)
        · exact hne hm
        · exact hne hv
  · have hread : read T (some content) = .error (.err e) := by rw [read_eq hlong, herr, error_bind]
    refine iff_of_true (mirrors_of_error herr hread) (or_iff_not_imp_left.mpr fun _ => ?_)
    by_contra hc
    rw [checkMapping_ok.mpr ⟨hlong, by_contra fun h => hc (.inl h), by_contra fun h => hc (.inr h)⟩] at herr
    cases herr

/-- A record of twelve bytes: its identity and nothing else. -/
def bare : PodStatus := ⟨12, 0x53544154, 1, by decide, by decide, by decide⟩

/-- The `bare` record. -/
def bareValue : bare.Value := ⟨[0x54, 0x41, 0x54, 0x53, 0, 0, 0, 0, 1, 0, 0, 0], rfl⟩

/-- One byte after a record that `read` accepts. -/
theorem update_long_file :
    read bare (some (bareValue.bytes ++ [0])) = .ok bareValue ∧
      update bareValue (some (bareValue.bytes ++ [0])) =
        (.error (.panic .assertion), some (bareValue.bytes ++ [0])) ∧
      ¬ Mirrors bareValue (bareValue.bytes ++ [0]) := by
  have hok : checkMapping bare (bareValue.bytes ++ [0]) = .ok () :=
    checkMapping_ok.mpr ⟨by decide, by decide, by decide⟩
  have hupdate := update_long (v := bareValue) hok (by decide)
  refine ⟨?_, hupdate, fun hmir => hmir.returns .assertion ?_⟩
  · rw [read_eq (by decide), hok]
    rfl
  · rw [hupdate]

/-! ## Runs -/

/-- The value has the identity of its type. -/
def PodStatus.Value.Stamped (v : T.Value) : Prop := v.MagicMatches ∧ v.VersionMatches

theorem create_eq (v : T.Value) (file : File) : create v file = (.ok (), some v.bytes) := by
  have hcopy : copyFromSlice (List.replicate T.size 0) v.bytes = .ok v.bytes := by
    rw [copyFromSlice, ensure_pos (by rw [List.length_replicate, v.length_eq]), ok_bind]
    rfl
  unfold create
  dsimp only
  rw [hcopy]

theorem cleanup_eq (file : File) : cleanup file = (.ok (), none) := by cases file <;> rfl

/-- A write that returns `Ok` has stored the value. -/
theorem update_ok (h : (update v file).1 = .ok ()) : (update v file).2 = some v.bytes := by
  cases file with
  | none => cases h
  | some mmap =>
      rcases checkMapping_cases T mmap with hok | ⟨e, herr⟩
      · by_cases hlen : mmap.length = T.size
        · rw [update_exact hok hlen]
        · rw [update_long hok hlen] at h
          cases h
      · rw [update_eq_error herr] at h
        cases h

/-- A call that does not return `Ok` leaves the file as it was. -/
theorem StatusCall.run_error {c : StatusCall} (h : (c.run file).1 ≠ .ok ()) : (c.run file).2 = file := by
  cases c with
  | create T v => exact absurd (congrArg Prod.fst (create_eq v file)) h
  | cleanup => exact absurd (congrArg Prod.fst (cleanup_eq file)) h
  | update T v =>
      cases file with
      | none => rfl
      | some mmap =>
          rcases checkMapping_cases T mmap with hok | ⟨e, herr⟩
          · by_cases hlen : mmap.length = T.size
            · exact absurd (congrArg Prod.fst (update_exact hok hlen)) h
            · exact congrArg Prod.snd (update_long (v := v) hok hlen)
          · exact congrArg Prod.snd (update_eq_error (v := v) herr)

/-- Calls that do not return `Ok` leave the file as it was. -/
theorem run_errors {s t : File} {es : List (StatusCall × Except Fault Unit)} (h : Run statusFile s es t)
    (hes : ∀ e ∈ es, e.2 ≠ .ok ()) : t = s := by
  induction h with
  | nil => rfl
  | @snoc es u e t hrun hstep ih =>
      have hu : u = s := ih fun e he => hes e (List.mem_append_left _ he)
      have hlast : e.2 ≠ .ok () := hes e (List.mem_append_right _ (List.mem_singleton_self e))
      have hcall : e.1.run u = (e.2, t) := hstep
      have herr : (e.1.run u).1 ≠ .ok () := by rwa [hcall]
      have hsame := StatusCall.run_error herr
      rw [hcall] at hsame
      exact hsame.trans hu

/-- A write that returned `Ok` has stored its value. -/
theorem written {c : StatusCall} (hc : c = .create T v ∨ c = .update T v) (h : (c.run file).1 = .ok ()) :
    (c.run file).2 = some v.bytes := by
  rcases hc with rfl | rfl
  · exact congrArg Prod.snd (create_eq v file)
  · exact update_ok h

theorem checkMapping_bytes (v : T.Value) : checkMapping T v.bytes = .ok () ↔ v.Stamped :=
  checkMapping_ok.trans (and_iff_right v.length_eq.ge)

/-- A stored value is read back exactly when it has the identity of its type. -/
theorem read_bytes (v : T.Value) : read T (some v.bytes) = .ok v ↔ v.Stamped := by
  have hfirst : firstBytes T v.bytes v.length_eq.ge = v :=
    PodStatus.Value.ext (List.take_of_length_le v.length_eq.le)
  rw [read_eq v.length_eq.ge, hfirst, ← checkMapping_bytes]
  rcases checkMapping_cases T v.bytes with hok | ⟨e, herr⟩
  · rw [hok, ok_bind]
    exact iff_of_true rfl rfl
  · rw [herr, error_bind]
    exact ⟨nofun, nofun⟩

/-- A value with the identity of another type is an error. -/
theorem read_foreign (hv : v.Stamped) (hU : U.magic ≠ T.magic ∨ U.version ≠ T.version) :
    ∃ e, read U (some v.bytes) = .error (.err e) := by
  rcases Nat.lt_or_ge v.bytes.length U.size with hshort | hlong
  · exact ⟨_, read_short hshort⟩
  rcases checkMapping_cases U v.bytes with hok | ⟨e, herr⟩
  · obtain ⟨-, hm, hver⟩ := checkMapping_ok.mp hok
    have hmagic : U.magic = T.magic := hm.symm.trans hv.1
    have hversion : U.version = T.version := hver.symm.trans hv.2
    rcases hU with hne | hne
    · exact absurd hmagic hne
    · exact absurd hversion hne
  · exact ⟨e, by rw [read_eq hlong, herr, error_bind]⟩

/-- **A status file reads back what was last written, if that had the identity of its type**: after a
`create` or `update` that returned `Ok`, and as long as no other call does. A type with another identity
does not read it. -/
theorem read_last_written {s₀ s : File} {pre post : List (StatusCall × Except Fault Unit)}
    {T : PodStatus} {v : T.Value} {c : StatusCall} (hc : c = .create T v ∨ c = .update T v)
    (hrun : Run statusFile s₀ (pre ++ (c, .ok ()) :: post) s) (hpost : ∀ e ∈ post, e.2 ≠ .ok ()) :
    (read T s = .ok v ↔ v.Stamped) ∧ (v.Stamped → ∀ U : PodStatus,
      U.magic ≠ T.magic ∨ U.version ≠ T.version → ∃ e, read U s = .error (.err e)) := by
  obtain ⟨s₁, -, hrest⟩ := hrun.split
  rw [← List.singleton_append] at hrest
  obtain ⟨s₂, hwrite, hquiet⟩ := hrest.split
  have hcall : c.run s₁ = (.ok (), s₂) := hwrite.of_singleton
  have hbytes : s = some v.bytes := by
    rw [run_errors hquiet hpost, ← written hc (congrArg Prod.fst hcall), hcall]
  subst hbytes
  exact ⟨read_bytes v, fun hv U hU => read_foreign hv hU⟩

/-- A value that was never stamped. -/
def zeroed (T : PodStatus) : T.Value := ⟨List.replicate T.size 0, List.length_replicate⟩

/-- A type of the size of `bare` with another magic. -/
def other : PodStatus := ⟨12, 7, 1, by decide, by decide, by decide⟩

/-- An `update` by another type. -/
def foreignUpdate : StatusCall × Except Fault Unit :=
  (.update other (zeroed other), .error (.err (.headerCorruption "magic" 7 0x53544154)))

/-- Between the write and the read, an `update` by another type is rejected. -/
theorem bare_last_written :
    Run statusFile none ([] ++ (.create bare bareValue, .ok ()) :: [foreignUpdate])
      (some bareValue.bytes) ∧
    read bare (some bareValue.bytes) = .ok bareValue := by
  have hcheck : checkMapping other bareValue.bytes =
      .error (.err (.headerCorruption "magic" 7 0x53544154)) :=
    checkMapping_magic (by decide) (by decide)
  have hrejected : statusFile.step (some bareValue.bytes) foreignUpdate (some bareValue.bytes) :=
    update_eq_error (v := zeroed other) hcheck
  have hrun : Run statusFile none ([] ++ (.create bare bareValue, .ok ()) :: [foreignUpdate])
      (some bareValue.bytes) :=
    (Run.single (create_eq bareValue none)).snoc hrejected
  have hlast : ∀ e ∈ [foreignUpdate], e.2 ≠ .ok () := by
    intro e he
    rw [List.mem_singleton.mp he]
    nofun
  exact ⟨hrun, (read_last_written (.inl rfl) hrun hlast).1.mpr ⟨by decide, by decide⟩⟩

/-- A `create` of a value that was never stamped returns `Ok` and leaves a file that its own type does
not read. -/
theorem unstamped_unreadable :
    Run statusFile none [(.create bare (zeroed bare), .ok ())] (some (zeroed bare).bytes) ∧
      read bare (some (zeroed bare).bytes) =
        .error (.err (.headerCorruption "magic" 0x53544154 0)) := by
  refine ⟨.single (create_eq (zeroed bare) none), ?_⟩
  have hcheck := @checkMapping_magic bare (zeroed bare).bytes (by decide) (by decide)
  rw [read_eq (zeroed bare).length_eq.ge, hcheck]
  rfl

end ShmRings.Status
