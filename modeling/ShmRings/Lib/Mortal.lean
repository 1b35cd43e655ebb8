import ShmRings.Lib.Atomic

/-!
# Linearizability with crashes

A party may stop anywhere and start afresh; the call it was in is cut off and never returns. `mortal O` is
`atomic O` with such stops: a call that is cut off has had its effect before, or never has it.

* `Simulates`, **`Simulates.run`**, **`Simulates.reachable`**: forward simulation between systems with the
  same external events;
* `Mortal`, `mortal`; `mortal_of_atomic`: a run without stops is one.
-/

set_option autoImplicit false

/-! ## Forward simulation -/

namespace Transition

variable {σ τ ε : Type*}

/-- Every step of `S` that ends within the bound `B` is matched by a run of `A` with the same external
event. -/
structure Simulates (S : System σ (Option ε)) (A : System τ (Option ε)) (B : σ → Prop) (R : σ → τ → Prop) :
    Prop where
  back : ∀ s e t, S.step s e t → B t → B s
  step : ∀ s e t a, R s a → S.step s e t → B t → ∃ es b, Run A a es b ∧ visible es = e.toList ∧ R t b

/-- **Every run is matched by a run with the same external events.** -/
theorem Simulates.run {S : System σ (Option ε)} {A : System τ (Option ε)} {B : σ → Prop} {R : σ → τ → Prop}
    (h : Simulates S A B R) {s t : σ} {a : τ} {es : List (Option ε)} (hR : R s a) (hrun : Run S s es t)
    (hB : B t) : ∃ fs b, Run A a fs b ∧ visible fs = visible es ∧ R t b := by
  induction hrun with
  | nil => exact ⟨[], a, .nil, rfl, hR⟩
  | snoc _ hst ih =>
      obtain ⟨fs, b, hfs, hvis, hRb⟩ := ih (h.back _ _ _ hst hB)
      obtain ⟨gs, c, hgs, hg, hRc⟩ := h.step _ _ _ _ hRb hst hB
      refine ⟨fs ++ gs, c, hfs.append hgs, ?_, hRc⟩
      rw [visible, List.reduceOption_append, visible_snoc, ← hvis, ← hg]

/-- **Every reachable state is related to a reachable one.** -/
theorem Simulates.reachable {S : System σ (Option ε)} {A : System τ (Option ε)} {B : σ → Prop} {R : σ → τ → Prop}
    (h : Simulates S A B R) (hinit : ∀ s, S.init s → ∃ a, A.init a ∧ R s a) {s : σ} (hs : Reachable S s)
    (hB : B s) : ∃ a, Reachable A a ∧ R s a := by
  induction hs with
  | init hs =>
      obtain ⟨a, ha, hR⟩ := hinit _ hs
      exact ⟨a, .init ha, hR⟩
  | step _ hst ih =>
      obtain ⟨a, ha, hR⟩ := ih (h.back _ _ _ hst hB)
      obtain ⟨es, b, hrun, -, hR'⟩ := h.step _ _ _ _ hR hst hB
      exact ⟨b, hrun.reachable ha, hR'⟩

end Transition

namespace Atomic

open Transition

variable {σ P Op Res : Type*} [DecidableEq P] {O : Object σ P Op Res}

/-- A step of the object, or the end of a party. -/
inductive Mortal (O : Object σ P Op Res) :
    Conf σ P Op Res → Option (Event P Op Res) → Conf σ P Op Res → Prop
  | step {c e d} : Step O c e d → Mortal O c e d
  | stop {c} (p : P) : Mortal O c none (c.move c.obj p .idle)

/-- The object whose calls take effect at one instant, unless they are cut off before. -/
def mortal (O : Object σ P Op Res) : System (Conf σ P Op Res) (Option (Event P Op Res)) where
  init c := c = Conf.start O
  step := Mortal O

theorem mortal_of_atomic {c d : Conf σ P Op Res} {es : List (Option (Event P Op Res))} (h : Run (atomic O) c es d) :
    Run (mortal O) c es d := by
  induction h with
  | nil => exact .nil
  | snoc _ hst ih => exact ih.snoc (.step hst)

end Atomic
