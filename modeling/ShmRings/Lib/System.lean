import Mathlib.Tactic.TypeStar
import Mathlib.Data.List.Induction
import Mathlib.Data.List.ReduceOption

/-!
# Transition systems

A labelled transition system over an arbitrary state type, its runs and its reachable states.

* `System`, `Run`, `Reachable`; `Run.append`, `Run.split`, `Run.reachable`;
* `System.guard`: the same system with a condition on its steps; `Run.of_guard`,
  `Run.guard_of_mem`, **`Run.guard_or_spoilt`**;
* **`Reachable.invariant`**, **`Reachable.invariant_of_bound`**, **`Run.invariant_of_bound`**: the
  induction over a run, for an invariant and for an invariant that holds while a resource is not
  exhausted;
* `follow`, `Run.of_follow`, `trace`, `Run.of_trace`: runs that are computed;
* `visible`: the external events of a run.
-/

set_option autoImplicit false

namespace Transition

/-- A labelled transition system. -/
structure System (σ ε : Type*) where
  init : σ → Prop
  step : σ → ε → σ → Prop

variable {σ ε : Type*}

/-- The runs from `s`, with their labels. -/
inductive Run (S : System σ ε) (s : σ) : List ε → σ → Prop
  | nil : Run S s [] s
  | snoc {es t e u} : Run S s es t → S.step t e u → Run S s (es ++ [e]) u

/-- The states a run reaches. -/
inductive Reachable (S : System σ ε) : σ → Prop
  | init {s} : S.init s → Reachable S s
  | step {s e t} : Reachable S s → S.step s e t → Reachable S t

/-- `S` with only the steps that meet `C`. -/
def System.guard (S : System σ ε) (C : σ → ε → σ → Prop) : System σ ε where
  init := S.init
  step s e t := S.step s e t ∧ C s e t

variable {S : System σ ε}

theorem Run.single {s t : σ} {e : ε} (h : S.step s e t) : Run S s [e] t := .snoc .nil h

theorem Run.append {s t u : σ} {es fs : List ε} (h : Run S s es t) (h' : Run S t fs u) :
    Run S s (es ++ fs) u := by
  induction h' with
  | nil => rwa [List.append_nil]
  | snoc _ hstep ih => rw [← List.append_assoc]; exact .snoc ih hstep

theorem Run.of_nil {s t : σ} (h : Run S s [] t) : t = s := by
  generalize hl : ([] : List ε) = l at h
  cases h with
  | nil => rfl
  | snoc _ _ => simp at hl

theorem Run.of_singleton {s t : σ} {e : ε} (h : Run S s [e] t) : S.step s e t := by
  generalize hl : [e] = l at h
  cases h with
  | nil => cases hl
  | snoc hrun hstep =>
      rw [← List.nil_append [e]] at hl
      obtain ⟨rfl, ⟨⟩⟩ := List.append_inj' hl rfl
      rwa [hrun.of_nil] at hstep

/-- A run in two parts. -/
theorem Run.split {s u : σ} {es fs : List ε} (h : Run S s (es ++ fs) u) :
    ∃ t, Run S s es t ∧ Run S t fs u := by
  induction fs using List.reverseRecOn generalizing u with
  | nil => exact ⟨u, by rwa [List.append_nil] at h, .nil⟩
  | append_singleton fs f ih =>
      rw [← List.append_assoc] at h
      generalize hes : es ++ fs ++ [f] = l at h
      cases h with
      | nil => simp at hes
      | snoc hrun hstep =>
          obtain ⟨rfl, ⟨⟩⟩ := List.append_inj' hes rfl
          obtain ⟨t, ht, ht'⟩ := ih hrun
          exact ⟨t, ht, .snoc ht' hstep⟩

theorem Run.reachable {s t : σ} {es : List ε} (hs : Reachable S s) (h : Run S s es t) :
    Reachable S t := by
  induction h with
  | nil => exact hs
  | snoc _ hstep ih => exact .step ih hstep

/-- **Invariant rule for the runs from one state**, below a bound `B` on a resource; a step that
ends within the bound began within it. -/
theorem Run.invariant_of_bound {I : σ → Prop} (B : σ → Prop)
    (hback : ∀ s e t, S.step s e t → B t → B s)
    (hstep : ∀ s e t, I s → S.step s e t → B t → I t) {s t : σ} {es : List ε} (hs : I s)
    (h : Run S s es t) (hB : B t) : I t := by
  induction h with
  | nil => exact hs
  | snoc _ hst ih => exact hstep _ _ _ (ih (hback _ _ _ hst hB)) hst hB

/-- **Invariant rule.** -/
theorem Reachable.invariant {I : σ → Prop} (hinit : ∀ s, S.init s → I s)
    (hstep : ∀ s e t, I s → S.step s e t → I t) {s : σ} (h : Reachable S s) : I s := by
  induction h with
  | init hs => exact hinit _ hs
  | step _ hs ih => exact hstep _ _ _ ih hs

/-- **Invariant rule below a bound.** `B` says that a resource is not exhausted; a step that ends
within the bound began within it. -/
theorem Reachable.invariant_of_bound {I : σ → Prop} (B : σ → Prop) (hinit : ∀ s, S.init s → B s → I s)
    (hback : ∀ s e t, S.step s e t → B t → B s)
    (hstep : ∀ s e t, I s → S.step s e t → B t → I t) {s : σ} (h : Reachable S s) (hB : B s) :
    I s := by
  induction h with
  | init hs => exact hinit _ hs hB
  | step _ hs ih => exact hstep _ _ _ (ih (hback _ _ _ hs hB)) hs hB

/-- A guarded run is a run. -/
theorem Run.of_guard {C : σ → ε → σ → Prop} {s t : σ} {es : List ε} (h : Run (S.guard C) s es t) :
    Run S s es t := by
  induction h with
  | nil => exact .nil
  | snoc _ hst ih => exact .snoc ih hst.1

/-- A run whose labels meet `P` is a run of the guarded system. -/
theorem Run.guard_of_mem {P : ε → Prop} {s t : σ} {es : List ε} (h : Run S s es t)
    (hP : ∀ e ∈ es, P e) : Run (S.guard fun _ e _ => P e) s es t := by
  induction h with
  | nil => exact .nil
  | snoc _ hst ih =>
      exact .snoc (ih fun e he => hP e (List.mem_append_left _ he))
        ⟨hst, hP _ (List.mem_append_right _ (List.mem_singleton_self _))⟩

/-- **A run meets a condition or has been spoilt**: a step that does not meet `C` spoils the state, for
good. -/
theorem Run.guard_or_spoilt {C : σ → ε → σ → Prop} {D : σ → Prop}
    (hspoils : ∀ s e t, S.step s e t → ¬ C s e t → D t) (hkeeps : ∀ s e t, D s → S.step s e t → D t)
    {s t : σ} {es : List ε} (h : Run S s es t) : Run (S.guard C) s es t ∨ D t := by
  induction h with
  | nil => exact .inl .nil
  | @snoc es u e v _ hst ih =>
      rcases ih with hrun | hD
      · by_cases hC : C u e v
        · exact .inl (.snoc hrun ⟨hst, hC⟩)
        · exact .inr (hspoils u e v hst hC)
      · exact .inr (hkeeps u e v hD hst)

/-! ## Runs that are computed -/

/-- The state after a list of inputs, by the partial function `next`. -/
def follow {γ : Type*} (next : σ → γ → Option σ) : List γ → σ → Option σ
  | [], s => some s
  | c :: cs, s => (next s c).bind (follow next cs)

/-- Inputs `next` accepts are the inputs `input` of the labels of a run. -/
theorem Run.of_follow {γ : Type*} {next : σ → γ → Option σ} {input : ε → γ}
    (hnext : ∀ s c t, next s c = some t → ∃ e, input e = c ∧ S.step s e t) {cs : List γ} {s t : σ}
    (h : follow next cs s = some t) : ∃ es, es.map input = cs ∧ Run S s es t := by
  induction cs generalizing s with
  | nil =>
      cases h
      exact ⟨[], rfl, .nil⟩
  | cons c cs ih =>
      obtain ⟨u, hu, hrest⟩ := Option.bind_eq_some_iff.mp h
      obtain ⟨e, rfl, hstep⟩ := hnext s c u hu
      obtain ⟨es, rfl, hrun⟩ := ih hrest
      exact ⟨e :: es, rfl, (Run.single hstep).append hrun⟩

/-- As `follow`, with the label of each step. -/
def trace {γ : Type*} (next : σ → γ → Option (ε × σ)) : List γ → σ → Option (List ε × σ)
  | [], s => some ([], s)
  | c :: cs, s => (next s c).bind fun x => (trace next cs x.2).map fun y => (x.1 :: y.1, y.2)

/-- What is traced is a run, if `next` makes steps in the states that meet `I`, and keeps `I`. -/
theorem Run.of_trace {γ : Type*} {next : σ → γ → Option (ε × σ)} {I : σ → Prop}
    (hnext : ∀ s c e t, I s → next s c = some (e, t) → S.step s e t ∧ I t) {cs : List γ} {es : List ε} {s t : σ}
    (hs : I s) (h : trace next cs s = some (es, t)) : Run S s es t ∧ I t := by
  induction cs generalizing s es with
  | nil =>
      cases h
      exact ⟨.nil, hs⟩
  | cons c cs ih =>
      obtain ⟨⟨e, u⟩, hfirst, hrest⟩ := Option.bind_eq_some_iff.mp h
      obtain ⟨⟨fs, v⟩, htrace, heq⟩ := Option.map_eq_some_iff.mp hrest
      cases heq
      obtain ⟨hstep, hu⟩ := hnext s c e u hs hfirst
      obtain ⟨hrun, ht⟩ := ih hu htrace
      exact ⟨(Run.single hstep).append hrun, ht⟩

/-! ## External events -/

/-- The external events of a run; the label `none` is an internal step. -/
abbrev visible (es : List (Option ε)) : List ε := es.reduceOption

theorem visible_snoc (es : List (Option ε)) (e : Option ε) :
    visible (es ++ [e]) = visible es ++ e.toList := by
  cases e <;> simp [visible, List.reduceOption]

end Transition
