import ShmRings.Lib.Release
import ShmRings.Threads.Safety

/-!
# Push and pop with their memory orders

The producer and the readers on release/acquire memory: every access has the memory order the code gives
it, loads may be stale, and a party may stop anywhere and be replaced by a fresh handle.

Assumed of whoever starts a successor, and not a doing of the code: what happened before the stop is ordered
before the successor's first access, which so starts with all knowledge.

* `pushOrder`, `popOrder`: the memory order at each program point;
* `OrderedState`, `OrderedStep`, `ordered`;
* `Forgets`, `Forgets.step`, **`ordered_run`**: every run is a run of the coherent machine with the same
  calls and returns.
-/

set_option autoImplicit false

namespace ShmRings.Threads

open Coherent Transition Atomic Release

variable {α : Type}

/-- The memory orders of `try_push`. -/
def pushOrder : PushPc α → Strength
  | .loadNumReaders _ _ | .scan _ _ _ _ _ => .acquire
  | .publish _ _ => .release
  | _ => .relaxed

/-- The memory orders of `try_pop`. -/
def popOrder : PopPc α → Strength
  | .checkReader | .loadWriteIdx | .loadReadIdx _ => .acquire
  | .advance _ _ => .release
  | _ => .relaxed

/-- The mapped file, where every party is and what it knows, and the published messages. -/
structure OrderedState (α : Type) where
  mem : Tracked Loc Party α
  push : PushPc α
  pop : ℕ → PopPc α
  know : Party → Knowledge Loc Party
  stream : List α

namespace OrderedState

/-- A fresh ring with arbitrary slot contents. -/
def fresh (cfg : Config) (data : ℕ → α) : OrderedState α where
  mem := ⟨⟨freshWord cfg, data⟩, fun _ _ => ⊥, fun _ _ => 0, fun _ => 0⟩
  push := .idle
  pop _ := .idle
  know _ := ⊥
  stream := []

variable (s : OrderedState α)

/-- The current cursor of reader `r`. -/
def cursor (r : ℕ) : ℕ := s.mem.now (.readIdx r)

/-- After an access of the producer. -/
def pushStep (m : Tracked Loc Party α) (k : Knowledge Loc Party) (pc : PushPc α) : OrderedState α where
  mem := m
  push := pc
  pop := s.pop
  know := Function.update s.know .producer k
  stream := s.stream ++ s.push.publishes

/-- After an access of reader `r`. -/
def popStep (m : Tracked Loc Party α) (k : Knowledge Loc Party) (r : ℕ) (pc : PopPc α) :
    OrderedState α where
  mem := m
  push := s.push
  pop := Function.update s.pop r pc
  know := Function.update s.know (.reader r) k
  stream := s.stream

variable {s} {m : Tracked Loc Party α} {k : Knowledge Loc Party} {pc : PushPc α} {r q : ℕ} {pc' : PopPc α}

@[simp] theorem pushStep_know : (s.pushStep m k pc).know .producer = k := by simp [pushStep]
@[simp] theorem pushStep_know_reader : (s.pushStep m k pc).know (.reader r) = s.know (.reader r) := by
  simp [pushStep]
@[simp] theorem length_pushStep_stream :
    (s.pushStep m k pc).stream.length = s.stream.length + s.push.publishes.length := by
  simp [pushStep]
@[simp] theorem popStep_know : (s.popStep m k r pc').know (.reader r) = k := by simp [popStep]
@[simp] theorem popStep_know_producer : (s.popStep m k r pc').know .producer = s.know .producer := by
  simp [popStep]
@[simp] theorem popStep_pop : (s.popStep m k r pc').pop r = pc' := by simp [popStep]
theorem popStep_know_ne (h : q ≠ r) : (s.popStep m k r pc').know (.reader q) = s.know (.reader q) := by
  simp [popStep, h]
theorem popStep_pop_ne (h : q ≠ r) : (s.popStep m k r pc').pop q = s.pop q := by simp [popStep, h]

end OrderedState

/-- One step of the system; with `stops`, a party may stop anywhere. Its successor starts with all knowledge, by
assumption. -/
inductive OrderedStep (cfg : Config) (stops : Prop) :
    OrderedState α → Option (Event Party (Op α) (Answer α)) → OrderedState α → Prop
  | callPush {s} (value : α) : s.push = .idle →
      OrderedStep cfg stops s (some (.call .producer (.push value))) { s with push := .loadWriteIdx value }
  | push {s m k pc} :
      Ordered s.mem (s.know .producer) .producer (pushOrder s.push) (pushCode cfg s.push) m k pc →
      OrderedStep cfg stops s none (s.pushStep m k pc)
  | retPush {s b} : s.push = .done b →
      OrderedStep cfg stops s (some (.ret .producer (.pushed b))) { s with push := .idle }
  | callPop {s r} : r < cfg.readers → s.pop r = .idle →
      OrderedStep cfg stops s (some (.call (.reader r) (.pop r)))
        { s with pop := Function.update s.pop r .checkReader }
  | pop {s r m k pc} :
      Ordered s.mem (s.know (.reader r)) (.reader r) (popOrder (s.pop r)) (popCode cfg r (s.pop r)) m k pc →
      OrderedStep cfg stops s none (s.popStep m k r pc)
  | retPop {s r res} : s.pop r = .done res →
      OrderedStep cfg stops s (some (.ret (.reader r) (.popped res)))
        { s with pop := Function.update s.pop r .idle }
  | replacePush {s} : stops → OrderedStep cfg stops s none
      { s with push := .idle, know := Function.update s.know .producer s.mem.all }
  | replacePop {s} (r : ℕ) : stops → OrderedStep cfg stops s none (s.popStep s.mem s.mem.all r .idle)

/-- The system, from a fresh ring. -/
def ordered (cfg : Config) (stops : Prop) : System (OrderedState α) (Option (Event Party (Op α) (Answer α))) where
  init s := ∃ data, s = OrderedState.fresh cfg data
  step := OrderedStep cfg stops

/-! ## The coherent machine -/

/-- `t` is `s` without what the values carry, and its parties have seen no more. -/
structure Forgets (s : OrderedState α) (t : State α) : Prop where
  mem : t.mem = s.mem.toMemory
  push : t.push = s.push
  pop : t.pop = s.pop
  stream : t.stream = s.stream
  view : ∀ p, t.view p ≤ (s.know p).view

variable {cfg : Config} {stops : Prop} {s s' : OrderedState α} {t : State α}
  {e : Option (Event Party (Op α) (Answer α))}

theorem Forgets.cursor (h : Forgets s t) (r : ℕ) : t.cursor r = s.cursor r := by
  unfold State.cursor
  rw [h.mem]
  rfl

theorem forgets_fresh (cfg : Config) (data : ℕ → α) :
    Forgets (OrderedState.fresh cfg data) (State.fresh cfg data) :=
  ⟨rfl, rfl, rfl, rfl, fun _ => le_rfl⟩

/-- A party that moves on has seen no more than it knows. -/
theorem view_update {know : Party → Knowledge Loc Party} {view : Party → View Loc} {p : Party}
    {k : Knowledge Loc Party} {vw : View Loc} (h : ∀ q, view q ≤ (know q).view) (hvw : vw ≤ k.view)
    (q : Party) : Function.update view p vw q ≤ (Function.update know p k q).view := by
  by_cases hq : q = p
  · subst hq
    rw [Function.update_self, Function.update_self]
    exact hvw
  · rw [Function.update_of_ne hq, Function.update_of_ne hq]
    exact h q

/-- A party that is told more has still seen no less. -/
theorem Forgets.learn (h : Forgets s t) {p : Party} {k : Knowledge Loc Party} (hk : s.know p ≤ k) :
    Forgets { s with know := Function.update s.know p k } t := by
  refine ⟨h.mem, h.push, h.pop, h.stream, fun q => ?_⟩
  rw [← Function.update_eq_self p t.view]
  exact view_update h.view ((h.view p).trans fun x => hk (.word x)) q

/-- **Every step is a step of the coherent machine.** -/
theorem Forgets.step (h : Forgets s t) (hst : OrderedStep cfg stops s e s') :
    ∃ t', Step cfg .stale t e t' ∧ Forgets s' t' := by
  obtain ⟨mem, push, pop, view, stream⟩ := t
  obtain ⟨hmem, hpush, hpop, hstream, hview⟩ := h
  cases hmem
  cases hpush
  cases hpop
  cases hstream
  cases hst with
  | callPush value hidle => exact ⟨_, .callPush value hidle, rfl, rfl, rfl, rfl, hview⟩
  | push hacc =>
      obtain ⟨vw, hacc', hvw⟩ := hacc.access (hview .producer)
      exact ⟨_, .push hacc', rfl, rfl, rfl, rfl, view_update hview hvw⟩
  | retPush hdone => exact ⟨_, .retPush hdone, rfl, rfl, rfl, rfl, hview⟩
  | callPop hr hidle => exact ⟨_, .callPop hr hidle, rfl, rfl, rfl, rfl, hview⟩
  | @pop r _ _ _ hacc =>
      obtain ⟨vw, hacc', hvw⟩ := hacc.access (hview (.reader r))
      exact ⟨_, .pop hacc', rfl, rfl, rfl, rfl, view_update hview hvw⟩
  | retPop hdone => exact ⟨_, .retPop hdone, rfl, rfl, rfl, rfl, hview⟩
  | replacePush _ => exact ⟨_, .replacePush trivial, rfl, rfl, rfl, rfl, view_update hview le_rfl⟩
  | replacePop r _ => exact ⟨_, .replacePop r trivial, rfl, rfl, rfl, rfl, view_update hview le_rfl⟩

/-- **Every run is a run of the coherent machine**, with the same calls and returns. -/
theorem ordered_run {s₀ : OrderedState α} {t₀ : State α}
    {es : List (Option (Event Party (Op α) (Answer α)))} (h : Forgets s₀ t₀)
    (hrun : Run (ordered cfg stops) s₀ es s) : ∃ t, Run (machine cfg .stale) t₀ es t ∧ Forgets s t := by
  induction hrun with
  | nil => exact ⟨t₀, .nil, h⟩
  | snoc _ hst ih =>
      obtain ⟨t, hrun, hf⟩ := ih
      obtain ⟨t', hst', hf'⟩ := hf.step hst
      exact ⟨t', hrun.snoc hst', hf'⟩

end ShmRings.Threads
