import ShmRings.Calls.Geometry
import ShmRings.Model.Disk

/-!
# What a failed create leaves

The exclusive open has already made the file when `set_len` or `map_mut` fails, and nothing removes it.

* `LeavesNoTrace`; `Stops`: the calls that end before the open has made a file;
* `createAt_stops`, `createAt_overflows`, `createAt_failed`, `createAt_done`; `create_after_none`;
* **`leaves_no_trace_iff`**; **`create_leaves_file`**: a file that no create accepts any more.
-/

set_option autoImplicit false

namespace ShmRings

variable {p : Profile} {T : RecordType} {fs : CreateFaults} {file : Option Disk} {capacity n : ℕ}

/-- If the call returns an error, the path is as it was; if it was absent, a create on it is not refused
because it exists. -/
def LeavesNoTrace (p : Profile) (T : RecordType) (fs : CreateFaults) (file : Option Disk)
    (capacity n : ℕ) : Prop :=
  ∀ e, (createAt p T fs file capacity n).1 = .error (.err e) →
    (createAt p T fs file capacity n).2 = file ∧ (file = none → ∀ capacity' n',
      (createAt p T .none (createAt p T fs file capacity n).2 capacity' n').1 ≠
        .error (.err .alreadyExists))

/-- The call ends before a file is made: its arguments are refused, the path exists or cannot be opened. -/
def Stops (T : RecordType) (fs : CreateFaults) (file : Option Disk) (capacity n : ℕ) : Prop :=
  ¬ ((capacity ≠ 0 ∧ isPowerOfTwo capacity) ∧ (1 ≤ n ∧ n ≤ maxReaders) ∧ T.align ≤ 64 ∧ T.size > 0 ∧
    file.isSome = false ∧ fs.openError = none)

/-- The length of the file overflows, and the build checks that. -/
def Overflows (p : Profile) (T : RecordType) (capacity : ℕ) : Prop :=
  p.overflowChecks = true ∧ u64Size ≤ headerSize + capacity * T.size

theorem beforeOpen_ok : beforeOpen T file.isSome fs.openError capacity n = .ok () ↔
    ¬ Stops T fs file capacity n := by
  have hopen : (fs.openError ≠ some true ∧ fs.openError ≠ some false) ↔ fs.openError = none := by
    rcases fs.openError with - | - | - <;> simp
  simp only [beforeOpen, bind_eq_ok, ensure_eq_ok, exists_const, hopen, Stops, not_not]

/-- The length is computed, or its computation panics. -/
theorem fileLength_cases (p : Profile) (T : RecordType) (capacity : ℕ) :
    (Overflows p T capacity ∧ fileLength p T capacity = .error (.panic .overflow)) ∨
      (¬ Overflows p T capacity ∧ ∃ len, fileLength p T capacity = .ok len) := by
  unfold Overflows fileLength
  by_cases hfit : headerSize + capacity * T.size < u64Size
  · refine .inr ⟨fun h => absurd h.2 (Nat.not_le.mpr hfit), headerSize + capacity * T.size, ?_⟩
    rw [p.mul_eq (by omega), ok_bind, p.add_eq hfit]
  · have hle := Nat.not_lt.mp hfit
    cases hp : p.overflowChecks with
    | false =>
        -- a release build wraps
        refine .inr ⟨fun h => absurd h.1 Bool.false_ne_true, ?_⟩
        obtain ⟨slots, hslots⟩ := p.mul_wraps hp capacity T.size
        obtain ⟨len, hlen⟩ := p.add_wraps hp headerSize slots
        exact ⟨len, by rw [hslots, ok_bind, hlen]⟩
    | true =>
        refine .inl ⟨⟨rfl, hle⟩, ?_⟩
        by_cases hmul : capacity * T.size < u64Size
        · rw [p.mul_eq hmul, ok_bind, Profile.add, if_neg hfit, if_pos hp]
        · rw [Profile.mul, if_neg hmul, if_pos hp, error_bind]

theorem initHeader_ok (p : Profile) (hcap : capacity ≠ 0) (hn : 1 ≤ n ∧ n ≤ maxReaders) (len : ℕ) :
    ∃ m, initHeader p capacity n len = .ok m := by
  have hnew : ∃ hdr, RingHeader.new (capacity - 1) n = .ok hdr := ⟨_, if_pos hn⟩
  obtain ⟨hdr, hhdr⟩ := hnew
  exact ⟨⟨.fresh capacity, hdr, len⟩, by
    rw [initHeader, p.sub_eq (Nat.one_le_iff_ne_zero.mpr hcap), ok_bind, hhdr, ok_bind]
    rfl⟩

/-! ## Where the call ends -/

theorem createAt_stops (h : Stops T fs file capacity n) :
    ∃ e, createAt p T fs file capacity n = (.error e, file) := by
  cases hopen : beforeOpen T file.isSome fs.openError capacity n with
  | ok _ => exact absurd h (beforeOpen_ok.mp hopen)
  | error e => exact ⟨e, by rw [createAt, hopen]⟩

theorem createAt_overflows (h : ¬ Stops T fs file capacity n) (ho : Overflows p T capacity) :
    (createAt p T fs file capacity n).1 = .error (.panic .overflow) := by
  rcases fileLength_cases p T capacity with ⟨-, hlen⟩ | ⟨hno, -⟩
  · rw [createAt, beforeOpen_ok.mpr h, hlen]
  · exact absurd ho hno

theorem createAt_failed (h : ¬ Stops T fs file capacity n) (ho : ¬ Overflows p T capacity)
    (hfail : fs.setLen = false ∨ fs.mapped = false) :
    (createAt p T fs file capacity n).1 = .error (.err .io) ∧
      ∃ disk, (createAt p T fs file capacity n).2 = some disk := by
  rcases fileLength_cases p T capacity with ⟨hyes, -⟩ | ⟨-, len, hlen⟩
  · exact absurd hyes ho
  rw [createAt, beforeOpen_ok.mpr h, hlen]
  by_cases hset : fs.setLen = false
  · dsimp only
    rw [if_pos hset]
    exact ⟨rfl, _, rfl⟩
  · dsimp only
    rw [if_neg hset, if_pos (hfail.resolve_left hset)]
    exact ⟨rfl, _, rfl⟩

theorem createAt_done (h : ¬ Stops T fs file capacity n) (ho : ¬ Overflows p T capacity)
    (hset : fs.setLen = true) (hmap : fs.mapped = true) :
    ∃ m, (createAt p T fs file capacity n).1 = .ok m := by
  rcases fileLength_cases p T capacity with ⟨hyes, -⟩ | ⟨-, len, hlen⟩
  · exact absurd hyes ho
  obtain ⟨⟨hcap, -⟩, hn, -⟩ := not_not.mp h
  obtain ⟨m, hm⟩ := initHeader_ok p hcap hn len
  refine ⟨m, ?_⟩
  rw [createAt, beforeOpen_ok.mpr h, hlen]
  simp only [hset, hmap, hm, Bool.true_eq_false, if_false]

theorem ensure_bind_ne {β : Type} {c : Prop} [Decidable c] {e e' : Fault} {k : Unit → Except Fault β}
    (he : e ≠ e') (hk : k () ≠ .error e') : (ensure c e >>= k) ≠ .error e' := by
  by_cases hc : c
  · rwa [ensure_pos hc, ok_bind]
  · rw [ensure_neg hc, error_bind]
    exact fun heq => he (Except.error.inj heq)

/-- On an absent path no create is refused because the path exists. -/
theorem create_after_none (p : Profile) (T : RecordType) (capacity n : ℕ) :
    (createAt p T .none none capacity n).1 ≠ .error (.err .alreadyExists) := by
  by_cases hstop : Stops T .none none capacity n
  · have hopen : beforeOpen T false none capacity n ≠ .error (.err .alreadyExists) := by
      refine ensure_bind_ne nofun (ensure_bind_ne nofun (ensure_bind_ne nofun (ensure_bind_ne nofun ?_)))
      rw [ensure_pos rfl, ok_bind, ensure_pos nofun, ok_bind, ensure_pos nofun]
      nofun
    cases hres : beforeOpen T false none capacity n with
    | ok _ => exact absurd hstop (beforeOpen_ok.mp hres)
    | error e =>
        have hcall : createAt p T .none none capacity n = (.error e, none) := by
          unfold createAt
          rw [show beforeOpen T (none : Option Disk).isSome CreateFaults.none.openError capacity n =
            .error e from hres]
        rw [hres] at hopen
        rw [hcall]
        exact fun heq => hopen (congrArg Except.error (Except.error.inj heq))
  by_cases hover : Overflows p T capacity
  · rw [createAt_overflows hstop hover]
    nofun
  · obtain ⟨m, hm⟩ := createAt_done hstop hover rfl rfl
    rw [hm]
    nofun

/-- **A create that returns an error leaves no trace exactly when it ended before it made the file**, or
when it does not return an error after that. -/
theorem leaves_no_trace_iff (p : Profile) (T : RecordType) (fs : CreateFaults) (file : Option Disk)
    (capacity n : ℕ) :
    LeavesNoTrace p T fs file capacity n ↔
      Stops T fs file capacity n ∨ Overflows p T capacity ∨ (fs.setLen = true ∧ fs.mapped = true) := by
  by_cases hstop : Stops T fs file capacity n
  · obtain ⟨e, he⟩ := createAt_stops (p := p) hstop
    refine iff_of_true (fun e' _ => ?_) (.inl hstop)
    rw [he]
    refine ⟨rfl, ?_⟩
    rintro rfl capacity' n'
    exact create_after_none p T capacity' n'
  by_cases hover : Overflows p T capacity
  · refine iff_of_true (fun e he => ?_) (.inr (.inl hover))
    rw [createAt_overflows hstop hover] at he
    cases he
  by_cases hdone : fs.setLen = true ∧ fs.mapped = true
  · obtain ⟨m, hm⟩ := createAt_done hstop hover hdone.1 hdone.2
    refine iff_of_true (fun e he => ?_) (.inr (.inr hdone))
    rw [hm] at he
    cases he
  · have hfail : fs.setLen = false ∨ fs.mapped = false := by
      rw [← Bool.not_eq_true, ← Bool.not_eq_true]
      exact not_and_or.mp hdone
    obtain ⟨herr, disk, hdisk⟩ := createAt_failed hstop hover hfail
    refine iff_of_false (fun h => ?_) ?_
    · obtain ⟨hsame, -⟩ := h _ herr
      have hnone : file.isSome = false := (not_not.mp hstop).2.2.2.2.1
      rw [← hsame, hdisk] at hnone
      cases hnone
    · rintro (h | h | h)
      · exact hstop h
      · exact hover h
      · exact hdone h

/-- `set_len` fails, and the next create finds the empty file. -/
theorem create_leaves_file :
    createAt checked wordRecord ⟨none, false, true⟩ none 4 1 = (.error (.err .io), some (.zeros 0)) ∧
      (createAt checked wordRecord .none (some (.zeros 0)) 4 1).1 = .error (.err .alreadyExists) ∧
      ¬ LeavesNoTrace checked wordRecord ⟨none, false, true⟩ none 4 1 := by
  have hfirst : createAt checked wordRecord ⟨none, false, true⟩ none 4 1 =
      (.error (.err .io), some (.zeros 0)) := rfl
  refine ⟨hfirst, rfl, fun h => ?_⟩
  obtain ⟨hsame, -⟩ := h .io (congrArg Prod.fst hfirst)
  rw [hfirst] at hsame
  cases hsame

end ShmRings
