import ShmRings.Lib.Atomic
import ShmRings.Threads.Code

/-!
# One producer and its readers, interleaved

The system of one producer that calls `try_push` and of the readers that call `try_pop`, one party
for each reader id. Every shared access is one step, and the steps interleave arbitrarily. `Mode`
says what else may happen: loads that return an older value, a party replaced by a fresh handle
between any two of its steps, cursors overwritten from outside.

* `State`, `Mode`, `Step`, `machine`;
* `length_stream_le`: the published stream only grows;
* `Current`: nobody has seen the future; `Turn`, `State.turn`, `run_of_traced`: runs that are computed.
-/

set_option autoImplicit false

namespace ShmRings.Threads

open Coherent Transition Atomic

variable {α : Type}

/-- Who makes a step; reader `r` is the party that drives reader id `r`. -/
inductive Party
  | producer
  | reader (r : ℕ)
  deriving DecidableEq

/-- A call. -/
inductive Op (α : Type)
  | push (value : α)
  | pop (readerId : ℕ)

/-- What a call returned. -/
inductive Answer (α : Type)
  | pushed (b : Bool)
  | popped (res : Except ShmRingError (Option α))

/-- The mapped file, where every party is and what it has seen, and the published messages. -/
structure State (α : Type) where
  mem : Memory Loc α
  push : PushPc α
  pop : ℕ → PopPc α
  view : Party → View Loc
  stream : List α

/-- The current cursor of reader `r`. -/
def State.cursor (s : State α) (r : ℕ) : ℕ := s.mem.now (.readIdx r)

/-- The words `create_new_with_readers` leaves, and a fresh handle's. -/
def freshWord (cfg : Config) : Loc → Cell
  | .numReaders => .const cfg.readers
  | _ => .const 0

/-- A fresh ring with arbitrary slot contents. -/
def State.fresh (cfg : Config) (data : ℕ → α) : State α where
  mem := ⟨freshWord cfg, data⟩
  push := .idle
  pop _ := .idle
  view _ _ := 0
  stream := []

/-- What the environment may do. -/
structure Mode where
  /-- Loads return the newest value. -/
  sc : Prop
  /-- A party may stop anywhere and be replaced by a fresh handle. That the successor starts with a view of the
  newest values is assumed: whoever starts it waits for the end of the other, the code does not. -/
  replace : Prop
  /-- The readers whose cursors are overwritten from outside. -/
  rogue : ℕ → Prop

namespace State

variable (s : State α) (m : Memory Loc α) (vw : View Loc)

/-- After an access of the producer. -/
def pushStep (pc : PushPc α) : State α where
  mem := m
  push := pc
  pop := s.pop
  view := Function.update s.view .producer vw
  stream := s.stream ++ s.push.publishes

/-- After an access of reader `r`. -/
def popStep (r : ℕ) (pc : PopPc α) : State α where
  mem := m
  push := s.push
  pop := Function.update s.pop r pc
  view := Function.update s.view (.reader r) vw
  stream := s.stream

variable {s m vw} {pc : PushPc α} {r q : ℕ} {pc' : PopPc α}

@[simp] theorem pushStep_view : (s.pushStep m vw pc).view .producer = vw := by simp [pushStep]
@[simp] theorem pushStep_view_reader : (s.pushStep m vw pc).view (.reader r) = s.view (.reader r) := by
  simp [pushStep]
@[simp] theorem length_pushStep_stream :
    (s.pushStep m vw pc).stream.length = s.stream.length + s.push.publishes.length := by
  simp [pushStep]
@[simp] theorem popStep_view : (s.popStep m vw r pc').view (.reader r) = vw := by simp [popStep]
@[simp] theorem popStep_view_producer : (s.popStep m vw r pc').view .producer = s.view .producer := by
  simp [popStep]
@[simp] theorem popStep_pop : (s.popStep m vw r pc').pop r = pc' := by simp [popStep]
theorem popStep_view_ne (h : q ≠ r) :
    (s.popStep m vw r pc').view (.reader q) = s.view (.reader q) := by simp [popStep, h]
theorem popStep_pop_ne (h : q ≠ r) : (s.popStep m vw r pc').pop q = s.pop q := by simp [popStep, h]

end State

/-- One step of the system. -/
inductive Step (cfg : Config) (md : Mode) :
    State α → Option (Event Party (Op α) (Answer α)) → State α → Prop
  | callPush {s} (value : α) : s.push = .idle →
      Step cfg md s (some (.call .producer (.push value))) { s with push := .loadWriteIdx value }
  | push {s m vw pc} : Access md.sc s.mem (s.view .producer) (pushCode cfg s.push) m vw pc →
      Step cfg md s none (s.pushStep m vw pc)
  | retPush {s b} : s.push = .done b →
      Step cfg md s (some (.ret .producer (.pushed b))) { s with push := .idle }
  | callPop {s r} : r < cfg.readers → s.pop r = .idle →
      Step cfg md s (some (.call (.reader r) (.pop r)))
        { s with pop := Function.update s.pop r .checkReader }
  | pop {s r m vw pc} :
      Access md.sc s.mem (s.view (.reader r)) (popCode cfg r (s.pop r)) m vw pc →
      Step cfg md s none (s.popStep m vw r pc)
  | retPop {s r res} : s.pop r = .done res →
      Step cfg md s (some (.ret (.reader r) (.popped res)))
        { s with pop := Function.update s.pop r .idle }
  | replacePush {s} : md.replace →
      Step cfg md s none
        { s with push := .idle, view := Function.update s.view .producer s.mem.newest }
  | replacePop {s} (r : ℕ) : md.replace →
      Step cfg md s none (s.popStep s.mem s.mem.newest r .idle)
  | poke {s} (r v : ℕ) : md.rogue r → v < u64Size →
      Step cfg md s none { s with mem := s.mem.store (.readIdx r) v }

/-- The system, from a fresh ring. -/
def machine (cfg : Config) (md : Mode) :
    System (State α) (Option (Event Party (Op α) (Answer α))) where
  init s := ∃ data, s = State.fresh cfg data
  step := Step cfg md

/-- The published stream only grows. -/
theorem length_stream_le {cfg : Config} {md : Mode} {s t : State α}
    {e : Option (Event Party (Op α) (Answer α))} (h : Step cfg md s e t) :
    s.stream.length ≤ t.stream.length := by
  cases h with
  | push _ => simp [State.pushStep]
  | _ => exact le_rfl

/-! ## Runs that are computed -/

/-- No party has seen more than the newest value of a word. -/
def Current (s : State α) : Prop := ∀ p x, s.view p x ≤ (s.mem.word x).top

section Current

variable {cfg : Config} {s : State α} {m : Memory Loc α} {vw : View Loc}

theorem Current.push {sc : Prop} {pc : PushPc α} (h : Current s)
    (hacc : Access sc s.mem (s.view .producer) (pushCode cfg s.push) m vw pc) :
    Current (s.pushStep m vw pc) := by
  intro p x
  cases p with
  | producer =>
      rw [State.pushStep_view]
      exact (hacc.view_le x (h _ x)).2
  | reader r =>
      rw [State.pushStep_view_reader]
      exact (h _ x).trans (hacc.top_le x)

theorem Current.pop {sc : Prop} {r : ℕ} {pc : PopPc α} (h : Current s)
    (hacc : Access sc s.mem (s.view (.reader r)) (popCode cfg r (s.pop r)) m vw pc) :
    Current (s.popStep m vw r pc) := by
  intro p x
  cases p with
  | producer =>
      rw [State.popStep_view_producer]
      exact (h _ x).trans (hacc.top_le x)
  | reader q =>
      by_cases hq : q = r
      · subst hq
        rw [State.popStep_view]
        exact (hacc.view_le x (h _ x)).2
      · rw [State.popStep_view_ne hq]
        exact (h _ x).trans (hacc.top_le x)

end Current

/-- Who moves: a party begins a call, or one in a call makes its next access or returns. -/
inductive Turn (α : Type)
  | push (value : α)
  | pop (r : ℕ)
  | on (p : Party)

/-- The move, with the newest values. -/
def State.turn (cfg : Config) (s : State α) : Turn α → Option (Option (Event Party (Op α) (Answer α)) × State α)
  | .push value => match s.push with
      | .idle => some (some (.call .producer (.push value)), { s with push := .loadWriteIdx value })
      | _ => none
  | .pop r => match s.pop r with
      | .idle =>
          if r < cfg.readers then
            some (some (.call (.reader r) (.pop r)), { s with pop := Function.update s.pop r .checkReader })
          else none
      | _ => none
  | .on .producer => match s.push with
      | .done b => some (some (.ret .producer (.pushed b)), { s with push := .idle })
      | pc => ((pushCode cfg pc).exec s.mem).map fun x =>
          (none, s.pushStep x.1 ((pushCode cfg pc).seen s.mem (s.view .producer)) x.2)
  | .on (.reader r) => match s.pop r with
      | .done res => some (some (.ret (.reader r) (.popped res)), { s with pop := Function.update s.pop r .idle })
      | pc => ((popCode cfg r pc).exec s.mem).map fun x =>
          (none, s.popStep x.1 ((popCode cfg r pc).seen s.mem (s.view (.reader r))) r x.2)

section Turns

variable {cfg : Config} {md : Mode} {s t : State α} {e : Option (Event Party (Op α) (Answer α))}

theorem step_of_turn {a : Turn α} (hs : Current s) (h : s.turn cfg a = some (e, t)) :
    Step cfg md s e t ∧ Current t := by
  cases a with
  | push value =>
      simp only [State.turn] at h
      split at h
      · rename_i hidle
        cases h
        exact ⟨.callPush value hidle, hs⟩
      · cases h
  | pop r =>
      simp only [State.turn] at h
      split at h
      · rename_i hidle
        split_ifs at h with hr
        cases h
        exact ⟨.callPop hr hidle, hs⟩
      · cases h
  | on p =>
      cases p with
      | producer =>
          simp only [State.turn] at h
          split at h
          · rename_i hdone
            cases h
            exact ⟨.retPush hdone, hs⟩
          · obtain ⟨⟨m, pc⟩, hexec, heq⟩ := Option.map_eq_some_iff.mp h
            cases heq
            have hacc : Access md.sc s.mem (s.view .producer) (pushCode cfg s.push) m _ pc :=
              access_of_exec hexec (hs .producer)
            exact ⟨.push hacc, hs.push hacc⟩
      | reader r =>
          simp only [State.turn] at h
          split at h
          · rename_i hdone
            cases h
            exact ⟨.retPop hdone, hs⟩
          · obtain ⟨⟨m, pc⟩, hexec, heq⟩ := Option.map_eq_some_iff.mp h
            cases heq
            have hacc : Access md.sc s.mem (s.view (.reader r)) (popCode cfg r (s.pop r)) m _ pc :=
              access_of_exec hexec (hs (.reader r))
            exact ⟨.pop hacc, hs.pop hacc⟩

theorem run_of_traced {as : List (Turn α)} {es : List (Option (Event Party (Op α) (Answer α)))}
    (hs : Current s) (h : trace (State.turn cfg) as s = some (es, t)) : Run (machine cfg md) s es t ∧ Current t :=
  Run.of_trace (I := Current) (fun _ _ _ _ hs hturn => step_of_turn hs hturn) hs h

theorem current_fresh (data : ℕ → α) : Current (State.fresh cfg data) := fun _ _ => Nat.zero_le _

end Turns

end ShmRings.Threads
