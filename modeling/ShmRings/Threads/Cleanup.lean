import ShmRings.Model.Status

/-!
# Cleanups that race

`cleanup` looks whether the file exists and then removes it, in two steps. Any number of calls interleave
on one path that nobody creates meanwhile. When two of them have found the file before it is removed, the
second removal fails.

* `removeFile`, `CleanupPc`, `CleanupState`, `cleanups`: the steps of the calls and their runs;
  **`cleanup_alone`**;
* `Alone`: a call that finds the file finds it for itself; `Present`, `Gone`, `AllOk` and their steps;
* `Doomed`, `Doomed.step`; **`cleanup_idempotent_iff`**;
* **`cleanup_races`**.
-/

set_option autoImplicit false

namespace ShmRings.Status

open Transition

/-- `std::fs::remove_file`, which fails with `NotFound` when there is no file. -/
def removeFile : File → Except Fault Unit × File
  | none => (.error (.err .io), none)
  | some _ => (.ok (), none)

/-- Where a call of `cleanup` is. -/
inductive CleanupPc
  | checkExists
  | remove
  | done (res : Except Fault Unit)

/-- The path, and the calls; `ι` names them. -/
structure CleanupState (ι : Type) where
  file : File
  call : ι → CleanupPc

/-- The two file-system calls. -/
inductive CleanupStep (ι : Type)
  | checkExists (i : ι)
  | remove (i : ι)

variable {ι : Type} [DecidableEq ι]

namespace CleanupState

variable (s : CleanupState ι)

/-- Call `i` moves to `pc`. -/
def goto (i : ι) (pc : CleanupPc) : CleanupState ι :=
  { s with call := Function.update s.call i pc }

/-- A step of a call that is ready for it. -/
def next : CleanupStep ι → Option (CleanupState ι)
  | .checkExists i => match s.call i with
      | .checkExists => some (s.goto i (if s.file.isSome then .remove else .done (.ok ())))
      | _ => none
  | .remove i => match s.call i with
      | .remove => some { s.goto i (.done (removeFile s.file).1) with file := (removeFile s.file).2 }
      | _ => none

end CleanupState

/-- The runs in which every call is about to begin, from any content of the path. -/
def cleanups (ι : Type) [DecidableEq ι] : System (CleanupState ι) (CleanupStep ι) where
  init s := ∀ i, s.call i = .checkExists
  step s e t := s.next e = some t

variable {s t : CleanupState ι} {e : CleanupStep ι}

/-- What a step can do: the check finds the file or not, and so does the removal. -/
inductive CleanupEffect (s : CleanupState ι) : CleanupStep ι → CleanupState ι → Prop
  | found {i : ι} : s.call i = .checkExists → s.file.isSome →
      CleanupEffect s (.checkExists i) (s.goto i .remove)
  | missing {i : ι} : s.call i = .checkExists → s.file = none →
      CleanupEffect s (.checkExists i) (s.goto i (.done (.ok ())))
  | removed {i : ι} : s.call i = .remove → s.file.isSome →
      CleanupEffect s (.remove i) { s.goto i (.done (.ok ())) with file := none }
  | failed {i : ι} : s.call i = .remove → s.file = none →
      CleanupEffect s (.remove i) { s.goto i (.done (.error (.err .io))) with file := none }

theorem cleanup_effect (h : s.next e = some t) : CleanupEffect s e t := by
  cases e with
  | checkExists i =>
      cases hpc : s.call i <;> simp only [CleanupState.next, hpc, Option.some.injEq] at h
      · subst h
        cases hfile : s.file with
        | none => exact .missing hpc hfile
        | some bytes => exact .found hpc (by rw [hfile]; rfl)
      · cases h
      · cases h
  | remove i =>
      cases hpc : s.call i <;> simp only [CleanupState.next, hpc, Option.some.injEq] at h
      · cases h
      · subst h
        cases hfile : s.file with
        | none => exact .failed hpc hfile
        | some bytes => exact .removed hpc (by rw [hfile]; rfl)
      · cases h

theorem step_of_effect (h : CleanupEffect s e t) : (cleanups ι).step s e t := by
  cases h with
  | found hpc hfile =>
      simp only [cleanups, CleanupState.next, hpc, hfile]
      rfl
  | missing hpc hfile =>
      simp only [cleanups, CleanupState.next, hpc, hfile]
      rfl
  | @removed i hpc hfile =>
      obtain ⟨bytes, hbytes⟩ := Option.isSome_iff_exists.mp hfile
      simp only [cleanups, CleanupState.next, hpc, hbytes, removeFile]
  | @failed i hpc hfile => simp only [cleanups, CleanupState.next, hpc, hfile, removeFile]

/-- **A call that nobody interferes with** is `cleanup`. -/
theorem cleanup_alone {i : ι} (h : s.call i = .checkExists) : ∃ es t, Run (cleanups ι) s es t ∧
    t.call i = .done (cleanup s.file).1 ∧ t.file = (cleanup s.file).2 := by
  cases hfile : s.file with
  | none =>
      exact ⟨_, _, .single (step_of_effect (.missing h hfile)), Function.update_self _ _ _, hfile⟩
  | some bytes =>
      have hsome : s.file.isSome := by
        rw [hfile]
        rfl
      have hcheck := Run.single (step_of_effect (.found h hsome))
      have hpc : (s.goto i .remove).call i = .remove := Function.update_self _ _ _
      exact ⟨_, _, hcheck.snoc (step_of_effect (.removed hpc hsome)), Function.update_self _ _ _, rfl⟩

/-! ## Calls that do not overlap -/

/-- A call that finds the file does so while no other call is about to remove it. -/
def Alone (s : CleanupState ι) (e : CleanupStep ι) (_ : CleanupState ι) : Prop :=
  ∀ i, e = .checkExists i → s.file.isSome → ∀ j, s.call j ≠ .remove

/-- The file is there for the one call that is about to remove it. -/
def Present (s : CleanupState ι) : Prop :=
  ∀ i, s.call i = .remove → s.file.isSome ∧ ∀ j, s.call j = .remove → j = i

/-- The file is gone once a call has returned. -/
def Gone (s : CleanupState ι) : Prop := ∀ i res, s.call i = .done res → s.file = none

/-- No call has returned an error. -/
def AllOk (s : CleanupState ι) : Prop := ∀ i res, s.call i = .done res → res = .ok ()

omit [DecidableEq ι] in
theorem Present.not_gone {i : ι} (h : Present s) (hpc : s.call i = .remove) : s.file ≠ none := by
  have hsome := (h i hpc).1
  exact Option.isSome_iff_ne_none.mp hsome

theorem goto_cases {i j : ι} {pc pc' : CleanupPc} (h : (s.goto i pc).call j = pc') :
    (j = i ∧ pc' = pc) ∨ (j ≠ i ∧ s.call j = pc') := by
  by_cases hj : j = i
  · subst hj
    exact .inl ⟨rfl, h.symm.trans (Function.update_self _ _ _)⟩
  · exact .inr ⟨hj, (Function.update_of_ne hj _ _).symm.trans h⟩

/-- **The file stays gone.** -/
theorem Gone.step (h : Gone s) (hst : CleanupEffect s e t) : Gone t := by
  intro j res hj
  cases hst with
  | found hpc hfile =>
      rcases goto_cases hj with ⟨-, heq⟩ | ⟨-, hdone⟩
      · cases heq
      · exact h j res hdone
  | missing hpc hfile => exact hfile
  | removed hpc hfile => rfl
  | failed hpc hfile => rfl

/-- **A step that does not overlap** keeps the file for the one call that is about to remove it. -/
theorem Present.step (h : Present s) (hst : CleanupEffect s e t) (halone : Alone s e t) :
    Present t := by
  intro j hj
  cases hst with
  | @found i hpc hfile =>
      refine ⟨hfile, fun k hk => ?_⟩
      have hnone := halone i rfl hfile
      rcases goto_cases hj with ⟨rfl, -⟩ | ⟨-, hj'⟩
      · rcases goto_cases hk with ⟨rfl, -⟩ | ⟨-, hk'⟩
        · rfl
        · exact absurd hk' (hnone k)
      · exact absurd hj' (hnone j)
  | missing hpc hfile =>
      rcases goto_cases hj with ⟨-, heq⟩ | ⟨-, hj'⟩
      · cases heq
      · exact absurd hfile (h.not_gone hj')
  | @removed i hpc hfile =>
      rcases goto_cases hj with ⟨-, heq⟩ | ⟨hji, hj'⟩
      · cases heq
      · exact absurd ((h i hpc).2 j hj') hji
  | @failed i hpc hfile => exact absurd hfile (h.not_gone hpc)

theorem AllOk.step (h : AllOk s) (hpresent : Present s) (hst : CleanupEffect s e t) : AllOk t := by
  intro j res hj
  cases hst with
  | found hpc hfile =>
      rcases goto_cases hj with ⟨-, heq⟩ | ⟨-, hdone⟩
      · cases heq
      · exact h j res hdone
  | missing hpc hfile | removed hpc hfile =>
      rcases goto_cases hj with ⟨-, heq⟩ | ⟨-, hdone⟩
      · cases heq
        rfl
      · exact h j res hdone
  | @failed i hpc hfile => exact absurd hfile (hpresent.not_gone hpc)

/-! ## Calls that overlap -/

/-- A call fails, or will when it returns: two calls are about to remove the file, or one is about to
remove it when it is gone. -/
def Doomed (s : CleanupState ι) : Prop :=
  (∃ i j, i ≠ j ∧ s.call i = .remove ∧ s.call j = .remove) ∨
  (∃ i, s.call i = .remove ∧ s.file = none) ∨ ∃ i err, s.call i = .done (.error err)

/-- The calls that do not make the step stay where they are. -/
theorem goto_stays {i j : ι} {pc : CleanupPc} (hj : s.call j = pc) (hi : s.call i ≠ pc)
    (pc' : CleanupPc) : (s.goto i pc').call j = pc := by
  have hji : j ≠ i := fun heq => hi (heq ▸ hj)
  exact (Function.update_of_ne hji _ _).trans hj

/-- **Nothing saves a call that will fail.** -/
theorem Doomed.step (h : Doomed s) (hst : CleanupEffect s e t) : Doomed t := by
  rcases h with ⟨i, j, hij, hi, hj⟩ | ⟨i, hi, hgone⟩ | ⟨i, err, hi⟩
  · -- two calls wait: after a removal the other one waits for nothing
    cases hst with
    | found hpc hfile | missing hpc hfile =>
        exact .inl ⟨i, j, hij, goto_stays hi (by simp [hpc]) _, goto_stays hj (by simp [hpc]) _⟩
    | @removed k hpc hfile | @failed k hpc hfile =>
        by_cases hik : i = k
        · have hjk : j ≠ k := fun heq => hij (hik.trans heq.symm)
          exact .inr (.inl ⟨j, (Function.update_of_ne hjk _ _).trans hj, rfl⟩)
        · exact .inr (.inl ⟨i, (Function.update_of_ne hik _ _).trans hi, rfl⟩)
  · cases hst with
    | found hpc hfile | removed hpc hfile =>
        rw [hgone] at hfile
        cases hfile
    | missing hpc hfile => exact .inr (.inl ⟨i, goto_stays hi (by simp [hpc]) _, hgone⟩)
    | @failed k hpc hfile =>
        by_cases hik : i = k
        · subst hik
          exact .inr (.inr ⟨i, .err .io, Function.update_self _ _ _⟩)
        · exact .inr (.inl ⟨i, (Function.update_of_ne hik _ _).trans hi, rfl⟩)
  · refine .inr (.inr ⟨i, err, ?_⟩)
    cases hst with
    | found hpc _ | missing hpc _ | removed hpc _ | failed hpc _ =>
        exact goto_stays hi (by simp [hpc]) _

/-- A step that overlaps leaves two calls about to remove the file. -/
theorem doomed_of_overlap (hst : CleanupEffect s e t) (h : ¬ Alone s e t) : Doomed t := by
  simp only [Alone, not_forall, not_not] at h
  obtain ⟨i, rfl, hfile, j, hj⟩ := h
  cases hst with
  | found hpc _ =>
      have hji : j ≠ i := by
        rintro rfl
        rw [hpc] at hj
        cases hj
      exact .inl ⟨i, j, hji.symm, Function.update_self _ _ _, goto_stays hj (by simp [hpc]) _⟩
  | missing hpc hnone =>
      rw [hnone] at hfile
      cases hfile

/-- **Cleanup is idempotent exactly when the calls do not overlap**: every call that has returned returned
`Ok` in a run in which a call that finds the file finds it for itself, and when all calls have returned
`Ok` the run was one. The file is gone once a call has returned, in every run. -/
theorem cleanup_idempotent_iff {es : List (CleanupStep ι)} (hs : (cleanups ι).init s)
    (hrun : Run (cleanups ι) s es t) :
    (∀ i res, t.call i = .done res → t.file = none) ∧
    (Run ((cleanups ι).guard Alone) s es t → ∀ i res, t.call i = .done res → res = .ok ()) ∧
    ((∀ i, ∃ res, t.call i = .done res) →
      ((∀ i, t.call i = .done (.ok ())) ↔ Run ((cleanups ι).guard Alone) s es t)) := by
  have hnone : ∀ i pc, pc ≠ .checkExists → s.call i ≠ pc := fun i pc hpc heq =>
    hpc (heq.symm.trans (hs i))
  have hgone : Gone t := hrun.invariant_of_bound (I := Gone) (fun _ => True) (fun _ _ _ _ _ => trivial)
    (fun _ _ _ hgone hst _ => hgone.step (cleanup_effect hst))
    (fun i res hdone => absurd hdone (hnone i _ (by simp))) trivial
  have hok : Run ((cleanups ι).guard Alone) s es t → AllOk t := by
    intro hguard
    refine (hguard.invariant_of_bound (I := fun s => Present s ∧ AllOk s) (fun _ => True)
      (fun _ _ _ _ _ => trivial) ?_ ⟨?_, ?_⟩ trivial).2
    · rintro s e t ⟨hpresent, hok⟩ ⟨hst, halone⟩ -
      exact ⟨hpresent.step (cleanup_effect hst) halone, hok.step hpresent (cleanup_effect hst)⟩
    · exact fun i hremove => absurd hremove (hnone i _ (by simp))
    · exact fun i res hdone => absurd hdone (hnone i _ (by simp))
  refine ⟨hgone, hok, fun hreturned => ⟨fun hall => ?_, fun hguard i => ?_⟩⟩
  · -- a run with an overlap is doomed, and a doomed run has an error when all calls have returned
    rcases hrun.guard_or_spoilt (C := Alone) (D := Doomed)
      (fun s e t hst => doomed_of_overlap (cleanup_effect hst))
      (fun s e t hd hst => hd.step (cleanup_effect hst)) with hguard | ⟨i, _, -, hi, -⟩ | ⟨i, hi, -⟩ | ⟨i, err, hi⟩
    · exact hguard
    · rw [hall i] at hi
      cases hi
    · rw [hall i] at hi
      cases hi
    · rw [hall i] at hi
      cases hi
  · obtain ⟨res, hres⟩ := hreturned i
    rw [hres, hok hguard i res hres]

/-- Two calls that do not overlap. -/
theorem cleanup_twice : ∃ t : CleanupState Bool, t.file = none ∧ ∀ i, t.call i = .done (.ok ()) := by
  have h₁ := Run.single (S := (cleanups Bool).guard Alone) (s := ⟨some [], fun _ => .checkExists⟩)
    ⟨step_of_effect (.found (i := false) rfl rfl), fun _ _ _ _ h => by cases h⟩
  have h₂ := h₁.snoc ⟨step_of_effect (.removed (i := false) rfl rfl), fun _ h => by cases h⟩
  have h₃ := h₂.snoc ⟨step_of_effect (.missing (i := true) rfl rfl), fun _ _ h => by cases h⟩
  have h := cleanup_idempotent_iff (fun _ => rfl) h₃.of_guard
  refine ⟨_, h.1 true _ rfl, (h.2.2 ?_).mpr h₃⟩
  rintro (_ | _) <;> exact ⟨_, rfl⟩

/-- **Two calls find the file before it is removed**, and the second removal fails. -/
theorem cleanup_races : ∃ t : CleanupState Bool,
    Run (cleanups Bool) ⟨some [], fun _ => .checkExists⟩
      [.checkExists false, .checkExists true, .remove false, .remove true] t ∧
    t.call true = .done (.error (.err .io)) := by
  have h₁ := Run.single (S := cleanups Bool) (s := ⟨some [], fun _ => .checkExists⟩)
    (step_of_effect (.found (i := false) rfl rfl))
  have h₂ := h₁.snoc (step_of_effect (.found (i := true) rfl rfl))
  have h₃ := h₂.snoc (step_of_effect (.removed (i := false) rfl rfl))
  have h₄ := h₃.snoc (step_of_effect (.failed (i := true) rfl rfl))
  exact ⟨_, h₄, rfl⟩

end ShmRings.Status
