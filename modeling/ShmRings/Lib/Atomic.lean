import Mathlib.Logic.Function.Basic
import ShmRings.Lib.System

/-!
# Linearizability

A sequential object `Object` gives the answer and the new state of an operation. `atomic O` is the
concurrent object whose calls take effect in one step between their call and their return: each
party is idle, has called, or has had its effect and not yet returned. A history of calls and
returns is **linearizable** when it is a history of `atomic O`.

* `Event`, `Status`, `Conf`, `Step`, `atomic`, `Linearizable`; `Step.takes_effect`;
* **`linearizable_of_simulation`**: a forward simulation into `atomic O` makes every history of the
  concrete system linearizable.
-/

set_option autoImplicit false

namespace Atomic

open Transition

/-- A sequential object: where it starts, and what an operation of a party answers and leaves. -/
structure Object (σ P Op Res : Type*) where
  init : σ
  apply : σ → P → Op → Res × σ

/-- A call or a return. -/
inductive Event (P Op Res : Type*)
  | call (p : P) (op : Op)
  | ret (p : P) (res : Res)

/-- Where a party's call is. -/
inductive Status (Op Res : Type*)
  | idle
  | called (op : Op)
  | done (res : Res)

variable {σ P Op Res : Type*} [DecidableEq P]

/-- The object and the calls in progress. -/
structure Conf (σ P Op Res : Type*) where
  obj : σ
  status : P → Status Op Res

/-- No call in progress. -/
def Conf.start (O : Object σ P Op Res) : Conf σ P Op Res := ⟨O.init, fun _ => .idle⟩

/-- Party `p` moves on to `st`, with the object at `o`. -/
def Conf.move (c : Conf σ P Op Res) (o : σ) (p : P) (st : Status Op Res) : Conf σ P Op Res :=
  ⟨o, Function.update c.status p st⟩

/-- A call, an effect (one step on the object), a return. -/
inductive Step (O : Object σ P Op Res) :
    Conf σ P Op Res → Option (Event P Op Res) → Conf σ P Op Res → Prop
  | call {c p} (op : Op) : c.status p = .idle →
      Step O c (some (.call p op)) (c.move c.obj p (.called op))
  | effect {c p op} : c.status p = .called op →
      Step O c none (c.move (O.apply c.obj p op).2 p (.done (O.apply c.obj p op).1))
  | ret {c p res} : c.status p = .done res → Step O c (some (.ret p res)) (c.move c.obj p .idle)

theorem Conf.move_self {c : Conf σ P Op Res} {p : P} {st : Status Op Res} (h : c.status p = st) :
    c.move c.obj p st = c := by
  unfold Conf.move
  rw [← h, Function.update_eq_self]

/-- An effect with its answer named. -/
theorem Step.takes_effect {O : Object σ P Op Res} {c : Conf σ P Op Res} {p : P} {op : Op} {res : Res}
    {o : σ} (h : c.status p = .called op) (happ : O.apply c.obj p op = (res, o)) :
    Step O c none (c.move o p (.done res)) := by
  have hst := @Step.effect _ _ _ _ _ O _ _ _ h
  rwa [happ] at hst

/-- The object whose calls take effect at one instant. -/
def atomic (O : Object σ P Op Res) : System (Conf σ P Op Res) (Option (Event P Op Res)) where
  init c := c = Conf.start O
  step := Step O

/-- An internal step of the concrete system does nothing or is an effect. -/
theorem run_of_quiet {O : Object σ P Op Res} {c c' : Conf σ P Op Res}
    (h : c' = c ∨ Step O c none c') : ∃ es, Run (atomic O) c es c' ∧ visible es = [] := by
  rcases h with rfl | h
  · exact ⟨[], .nil, rfl⟩
  · exact ⟨[none], .single h, rfl⟩

/-- A history of calls and returns is one of the atomic object. -/
def Linearizable (O : Object σ P Op Res) (h : List (Event P Op Res)) : Prop :=
  ∃ es c, Run (atomic O) (Conf.start O) es c ∧ visible es = h

variable {O : Object σ P Op Res} {τ : Type*} {S : System τ (Option (Event P Op Res))}

/-- **Forward simulation.** `R` relates a concrete state to the atomic object; every concrete step
is matched by steps of the atomic object with the same external event. `B` is a bound that a step
ending within it began within. -/
theorem linearizable_of_simulation {R : τ → Conf σ P Op Res → Prop} (B : τ → Prop)
    (hinit : ∀ s, S.init s → R s (Conf.start O))
    (hback : ∀ s e t, S.step s e t → B t → B s)
    (hstep : ∀ s e t c, Reachable S s → R s c → S.step s e t → B t →
      ∃ es c', Run (atomic O) c es c' ∧ visible es = e.toList ∧ R t c')
    {s t : τ} {es : List (Option (Event P Op Res))} (hs : S.init s) (h : Run S s es t) (hB : B t) :
    ∃ fs c, Run (atomic O) (Conf.start O) fs c ∧ visible fs = visible es ∧ R t c := by
  induction h with
  | nil => exact ⟨[], _, .nil, rfl, hinit _ hs⟩
  | @snoc es t e u hrun hst ih =>
      obtain ⟨fs, c, hfs, hvis, hR⟩ := ih (hback _ _ _ hst hB)
      obtain ⟨gs, c', hgs, hg, hR'⟩ := hstep _ _ _ _ (hrun.reachable (.init hs)) hR hst hB
      refine ⟨fs ++ gs, c', hfs.append hgs, ?_, hR'⟩
      rw [visible, List.reduceOption_append, visible_snoc, ← hvis, ← hg]

end Atomic
