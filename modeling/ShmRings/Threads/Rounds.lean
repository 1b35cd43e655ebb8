import ShmRings.Threads.Rogue
import ShmRings.Threads.Linear
import ShmRings.Model.Eventfd

/-!
# One eventfd for each consumer

Every consumer calls `pop_blocking` on an eventfd of its own. After each successful push the producer
signals them all, in any order, before it pushes again. A counter holds at most `2 ^ 64 - 2`; a write to a
full one is dropped, and the counter is positive anyway.

* `Phase`, `RoundsState`, `RoundStep`, `Rounds`, `rounds`: the eventfds beside the ring;
* `Alert`, `Settled`, `RoundsInv`: a consumer that has missed a message has a unit, or gets one;
  `RoundsInv.step`;
* `onRing`, `run_onRing`: the steps of the ring; **`no_lost_wakeup_each`**.
-/

set_option autoImplicit false

namespace ShmRings.Threads

open Coherent Transition Atomic

variable {α : Type} {cfg : Config}

/-- Where a consumer is in `pop_blocking`: before the call of `try_pop`, in it, or in `wait`, before the
read of the eventfd or past one that failed. -/
inductive Phase
  | outside
  | check
  | popping
  | tryWait
  | poll
  deriving DecidableEq

/-- The ring, the eventfds the producer has yet to signal in this round, the counters and the consumers;
consumer `r` is reader `r`. -/
structure RoundsState (α : Type) where
  ring : State α
  todo : ℕ → Bool
  counter : ℕ → ℕ
  phase : ℕ → Phase

/-- `signal`: a write of 1, which fails with `EAGAIN` on a full counter. -/
def signalled (counter : ℕ) : ℕ := if counter < Eventfd.counterMax then counter + 1 else counter

/-- A step of the ring, or a system call. -/
inductive RoundStep (α : Type)
  | ring (e : Option (Event Party (Op α) (Answer α)))
  | popBlocking (r : ℕ)
  | signal (r : ℕ)
  | read (r : ℕ)
  | pollReady (r : ℕ)
  | pollInterrupted (r : ℕ)

namespace RoundsState

variable (s : RoundsState α)

/-- Consumer `r` moves on. -/
def goto (r : ℕ) (ph : Phase) : RoundsState α := { s with phase := Function.update s.phase r ph }

/-- A push begins between rounds, and a consumer calls `try_pop` from the loop of `pop_blocking`. -/
def Allows : Option (Event Party (Op α) (Answer α)) → Prop
  | some (.call .producer _) => ∀ r, s.todo r = false
  | some (.call (.reader r) _) => s.phase r = .check
  | _ => True

/-- After a step of the ring to `t`: a push that published starts a round, and a pop that found nothing
goes to `wait`. -/
def after (cfg : Config) (t : State α) : Option (Event Party (Op α) (Answer α)) → RoundsState α
  | some (.ret .producer (.pushed true)) =>
      { s with ring := t, todo := fun r => decide (r < cfg.readers) }
  | some (.call (.reader r) _) => { s.goto r .popping with ring := t }
  | some (.ret (.reader r) (.popped (.ok none))) => { s.goto r .tryWait with ring := t }
  | some (.ret (.reader r) _) => { s.goto r .outside with ring := t }
  | _ => { s with ring := t }

/-- The producer is between rounds. -/
def Between : Prop := s.ring.push = .idle ∧ ∀ r, s.todo r = false

end RoundsState

inductive Rounds (cfg : Config) : RoundsState α → RoundStep α → RoundsState α → Prop
  | ring {s e t} : Step cfg .seq s.ring e t → s.Allows e → Rounds cfg s (.ring e) (s.after cfg t e)
  | popBlocking {s} (r : ℕ) : r < cfg.readers → s.phase r = .outside →
      Rounds cfg s (.popBlocking r) (s.goto r .check)
  | signal {s} (r : ℕ) : s.todo r = true →
      Rounds cfg s (.signal r) { s with
        todo := Function.update s.todo r false
        counter := Function.update s.counter r (signalled (s.counter r)) }
  | readNone {s} (r : ℕ) : s.phase r = .tryWait → s.counter r = 0 →
      Rounds cfg s (.read r) (s.goto r .poll)
  | readUnits {s} (r : ℕ) : s.phase r = .tryWait → s.counter r ≠ 0 →
      Rounds cfg s (.read r) { s.goto r .check with counter := Function.update s.counter r 0 }
  | pollReady {s} (r : ℕ) : s.phase r = .poll → s.counter r ≠ 0 →
      Rounds cfg s (.pollReady r) (s.goto r .tryWait)
  | pollInterrupted {s} (r : ℕ) : s.phase r = .poll →
      Rounds cfg s (.pollInterrupted r) (s.goto r .tryWait)

/-- The runs from a fresh ring, with any leftover units. -/
def rounds (cfg : Config) : System (RoundsState α) (RoundStep α) where
  init s := (∃ data, s.ring = State.fresh cfg data) ∧ (∀ r, s.todo r = false) ∧
    (∀ r, s.counter r ≤ Eventfd.counterMax) ∧ ∀ r, s.phase r = .outside
  step := Rounds cfg

/-- Consumer `r` has a unit, or the producer is about to signal it. -/
def Alert (s : RoundsState α) (r : ℕ) : Prop :=
  s.counter r ≠ 0 ∨ s.todo r = true ∨ s.ring.push = .bumpTotal ∨ s.ring.push = .done true

/-- Consumer `r` has taken every message, or has a unit coming. -/
def Settled (s : RoundsState α) (r : ℕ) : Prop :=
  s.ring.cursor r = s.ring.mem.now .writeIdx ∨ Alert s r

/-- What consumer `r` knows in `try_pop`. -/
def SeenOk (s : RoundsState α) (r : ℕ) : PopPc α → Prop
  | .loadReadIdx w => w = s.ring.mem.now .writeIdx ∨ Alert s r
  | .done (.ok none) => Settled s r
  | _ => True

/-- The invariant of consumer `r`. -/
structure RoundsInv (s : RoundsState α) (r : ℕ) : Prop where
  seen : SeenOk s r (s.ring.pop r)
  settled : s.phase r = .tryWait ∨ s.phase r = .poll → Settled s r
  idle : s.phase r ≠ .popping → s.ring.pop r = .idle

variable {s t : RoundsState α} {r : ℕ}

/-- The system call of a step `signal`. -/
theorem signal_signalled (c : ℕ) : Eventfd.signal false c = (.ok (), signalled c) := by
  unfold Eventfd.signal Eventfd.write signalled
  by_cases h : c < Eventfd.counterMax
  · rw [if_neg Bool.false_ne_true, if_pos h, if_pos h]
  · rw [if_neg Bool.false_ne_true, if_neg h, if_neg h]

theorem signalled_ne_zero (c : ℕ) : signalled c ≠ 0 := by
  unfold signalled
  split_ifs with h
  · exact Nat.succ_ne_zero c
  · intro hzero
    rw [hzero] at h
    exact h (by decide)

/-- A consumer does not notice a step that moves neither its cursor nor `write_idx`, or leaves it alert. -/
theorem RoundsInv.frame (h : RoundsInv s r) (halert : Alert s r → Alert t r)
    (hw : t.ring.mem.now .writeIdx = s.ring.mem.now .writeIdx ∨ Alert t r)
    (hcur : t.ring.cursor r = s.ring.cursor r) (hpop : t.ring.pop r = s.ring.pop r)
    (hphase : t.phase r = s.phase r) : RoundsInv t r := by
  have hsettled : Settled s r → Settled t r := by
    rintro (heq | ha)
    · rcases hw with hw | ha
      · exact .inl (by rw [hcur, hw, heq])
      · exact .inr ha
    · exact .inr (halert ha)
  refine ⟨?_, fun hwait => hsettled (h.settled (hphase ▸ hwait)), fun hne => ?_⟩
  · rw [hpop]
    have hseen := h.seen
    generalize s.ring.pop r = pc at hseen
    cases pc with
    | loadReadIdx w =>
        rcases hseen with heq | ha
        · rcases hw with hw | ha
          · exact .inl (heq.trans hw.symm)
          · exact .inr ha
        · exact .inr (halert ha)
    | done res =>
        rcases res with e | _ | v
        · trivial
        · exact hsettled hseen
        · trivial
    | _ => trivial
  · rw [hpop]
    exact h.idle (hphase ▸ hne)

/-- A consumer outside `try_pop` knows only whether it may wait. -/
theorem RoundsInv.of_idle (hidle : t.ring.pop r = .idle)
    (hwait : t.phase r = .tryWait ∨ t.phase r = .poll → Settled t r) : RoundsInv t r where
  seen := by
    rw [hidle]
    trivial
  settled := hwait
  idle _ := hidle

/-- An access of the producer announces the message it publishes. -/
theorem push_alert {sc : Prop} {m m' : Memory Loc α} {vw vw' : View Loc} {pc pc' : PushPc α}
    (h : Access sc m vw (pushCode cfg pc) m' vw' pc') : pc' = .bumpTotal ∨
      (m'.now .writeIdx = m.now .writeIdx ∧ (pc = .bumpTotal → pc' = .done true) ∧ pc ≠ .done true) := by
  cases pc with
  | publish value w =>
      simp only [pushCode] at h
      cases h
      exact .inl rfl
  | bumpTotal =>
      simp only [pushCode] at h
      cases h
      exact .inr ⟨Memory.store_now_ne _ (by decide) _, fun _ => rfl, fun hpc => by cases hpc⟩
  | loadWriteIdx _ | loadNumReaders _ _ | scan _ _ _ _ _ | writeSlot _ _ =>
      simp only [pushCode] at h
      cases h
      exact .inr ⟨rfl, fun hpc => (by cases hpc), fun hpc => by cases hpc⟩
  | idle | done _ | panicked => simp only [pushCode] at h; cases h

/-- An access of a consumer keeps what it knows: it has just loaded `write_idx`, or it compares its cursor with
a value that is still good enough. -/
theorem SeenOk.access {m : Memory Loc α} {vw : View Loc} {pc : PopPc α} (h : SeenOk s r (s.ring.pop r))
    (hacc : Access True s.ring.mem (s.ring.view (.reader r)) (popCode cfg r (s.ring.pop r)) m vw pc) :
    SeenOk { s with ring := s.ring.popStep m vw r pc } r pc := by
  cases hpc : s.ring.pop r with
  | checkReader | checkGate =>
      rw [hpc] at hacc
      simp only [popCode] at hacc
      cases hacc
      dsimp only
      split_ifs <;> trivial
  | loadWriteIdx =>
      rw [hpc] at hacc
      cases hacc with
      | load hs => exact .inl (hs.now trivial)
  | loadReadIdx w =>
      rw [hpc] at hacc h
      cases hacc with
      | @load _ _ _ c hs =>
          have hc : c = s.ring.cursor r := hs.now trivial
          subst hc
          change SeenOk _ r (if s.ring.cursor r = w then .done (.ok none) else .readSlot (s.ring.cursor r))
          split_ifs with heq
          · subst heq
            exact h
          · trivial
  | readSlot _ | advance _ _ =>
      rw [hpc] at hacc
      cases hacc
      trivial
  | idle | done _ => rw [hpc] at hacc; cases hacc

/-- A consumer stays alert while its unit and the announcement are there. -/
theorem Alert.mono (h : Alert s r) (hcounter : t.counter r = s.counter r) (htodo : t.todo r = s.todo r)
    (hpush : s.ring.push = .bumpTotal ∨ s.ring.push = .done true → Alert t r) : Alert t r := by
  rcases h with hc | hr | hpc | hpc
  · exact .inl (hcounter.trans_ne hc)
  · exact .inr (.inl (htodo.trans hr))
  · exact hpush (.inl hpc)
  · exact hpush (.inr hpc)

/-- A consumer that is not in `try_pop` moves on; it goes to `wait` only when it may. -/
theorem RoundsInv.goto {q : ℕ} {ph : Phase} (h : RoundsInv s r) (hq : s.phase q ≠ .popping)
    (hwait : r = q → ph = .tryWait ∨ ph = .poll → Settled s r) : RoundsInv (s.goto q ph) r := by
  by_cases hqr : r = q
  · subst hqr
    have hphase : (s.goto r ph).phase r = ph := Function.update_self _ _ _
    exact .of_idle (h.idle hq) fun hph => hwait rfl (hphase ▸ hph)
  · exact h.frame id (.inl rfl) rfl rfl (Function.update_of_ne hqr _ _)

/-- A step of the ring keeps the invariant of every consumer. -/
theorem RoundsInv.step_ring {u : State α} {e : Option (Event Party (Op α) (Answer α))} (h : RoundsInv s r)
    (hr : r < cfg.readers) (hring : Step cfg .seq s.ring e u) (hallow : s.Allows e) :
    RoundsInv (s.after cfg u e) r := by
  cases hring with
  | callPush value hidle =>
      refine h.frame (fun ha => ?_) (.inl rfl) rfl rfl rfl
      refine ha.mono rfl rfl fun hpc => ?_
      rw [hidle] at hpc
      simp at hpc
  | @push m vw pc hacc =>
      have hcur : (s.ring.pushStep m vw pc).cursor r = s.ring.cursor r :=
        congrArg Cell.now (push_word hacc (by simp) (by simp))
      rcases push_alert hacc with rfl | ⟨hw, hnext, hdone⟩
      · have halert : Alert (s.after cfg (s.ring.pushStep m vw .bumpTotal) none) r :=
          .inr (.inr (.inl rfl))
        exact h.frame (fun _ => halert) (.inr halert) hcur rfl rfl
      · refine h.frame (fun ha => ha.mono rfl rfl ?_) (.inl hw) hcur rfl rfl
        rintro (hpc | hpc)
        · exact .inr (.inr (.inr (hnext hpc)))
        · exact absurd hpc hdone
  | @retPush b hdone =>
      cases b with
      | true => exact h.frame (fun _ => .inr (.inl (decide_eq_true hr))) (.inl rfl) rfl rfl rfl
      | false =>
          refine h.frame (fun ha => ?_) (.inl rfl) rfl rfl rfl
          refine ha.mono rfl rfl fun hpc => ?_
          rw [hdone] at hpc
          simp at hpc
  | @callPop q hq hidle =>
      by_cases hqr : r = q
      · subst hqr
        have hphase : (s.after cfg { s.ring with pop := Function.update s.ring.pop r .checkReader }
            (some (.call (.reader r) (.pop r)))).phase r = .popping := Function.update_self _ _ _
        refine ⟨?_, fun hwait => ?_, fun hne => absurd hphase hne⟩
        · simp only [RoundsState.after, Function.update_self]
          trivial
        · rw [hphase] at hwait
          simp at hwait
      · exact h.frame id (.inl rfl) rfl (Function.update_of_ne hqr _ _) (Function.update_of_ne hqr _ _)
  | @pop q m vw pc hacc =>
      by_cases hqr : r = q
      · subst hqr
        have hphase : s.phase r = .popping := by
          by_contra hne
          rw [h.idle hne] at hacc
          cases hacc
        refine ⟨?_, fun hwait => ?_, fun hne => absurd hphase hne⟩
        · simp only [RoundsState.after, State.popStep_pop]
          exact h.seen.access hacc
        · simp only [RoundsState.after, hphase] at hwait
          simp at hwait
      · exact h.frame id (.inl (congrArg Cell.now (pop_word hacc (by simp))))
          (congrArg Cell.now (pop_word hacc (by simp [hqr]))) (State.popStep_pop_ne hqr) rfl
  | @retPop q res hres =>
      by_cases hqr : r = q
      · subst hqr
        have hseen := h.seen
        rw [hres] at hseen
        rcases res with err | _ | v
        · refine .of_idle (Function.update_self _ _ _) fun hwait => ?_
          simp [RoundsState.after, RoundsState.goto] at hwait
        · exact .of_idle (Function.update_self _ _ _) fun _ => hseen
        · refine .of_idle (Function.update_self _ _ _) fun hwait => ?_
          simp [RoundsState.after, RoundsState.goto] at hwait
      · rcases res with err | _ | v <;>
          exact h.frame id (.inl rfl) rfl (Function.update_of_ne hqr _ _) (Function.update_of_ne hqr _ _)
  | replacePush hmd => exact hmd.elim
  | replacePop _ hmd => exact hmd.elim
  | poke _ _ hmd _ => exact hmd.elim

/-- **Every step keeps the invariant of every consumer.** -/
theorem RoundsInv.step {e : RoundStep α} (h : RoundsInv s r) (hr : r < cfg.readers)
    (hst : Rounds cfg s e t) : RoundsInv t r := by
  cases hst with
  | ring hring hallow => exact h.step_ring hr hring hallow
  | popBlocking q hq hphase => exact h.goto (by simp [hphase]) (by simp)
  | signal q htodo =>
      by_cases hqr : r = q
      · subst hqr
        refine h.frame (fun _ => .inl ?_) (.inl rfl) rfl rfl rfl
        simp only [Function.update_self]
        exact signalled_ne_zero _
      · refine h.frame (fun ha => ?_) (.inl rfl) rfl rfl rfl
        exact ha.mono (Function.update_of_ne hqr _ _) (Function.update_of_ne hqr _ _) fun hpc =>
          .inr (.inr hpc)
  | readNone q hphase hzero => exact h.goto (by simp [hphase]) fun hqr _ => h.settled (.inl (hqr ▸ hphase))
  | readUnits q hphase hunits =>
      by_cases hqr : r = q
      · subst hqr
        refine .of_idle (h.idle (by simp [hphase])) fun hwait => ?_
        simp [RoundsState.goto] at hwait
      · refine h.frame (fun ha => ?_) (.inl rfl) rfl rfl (Function.update_of_ne hqr _ _)
        exact ha.mono (Function.update_of_ne hqr _ _) rfl fun hpc => .inr (.inr hpc)
  | pollReady q hphase hunits =>
      exact h.goto (by simp [hphase]) fun hqr _ => h.settled (.inr (hqr ▸ hphase))
  | pollInterrupted q hphase =>
      exact h.goto (by simp [hphase]) fun hqr _ => h.settled (.inr (hqr ▸ hphase))

/-! ## What the consumers are given -/

/-- The steps of the ring. -/
def onRing (es : List (RoundStep α)) : List (Option (Event Party (Op α) (Answer α))) :=
  es.filterMap fun
    | .ring e => some e
    | _ => none

theorem after_ring (t' : State α) (e : Option (Event Party (Op α) (Answer α))) :
    (s.after cfg t' e).ring = t' := by
  unfold RoundsState.after
  split <;> rfl

/-- The ring of a run makes a run of its own. -/
theorem run_onRing {es : List (RoundStep α)} (h : Run (rounds cfg) s es t) :
    Run (machine cfg .seq) s.ring (onRing es) t.ring := by
  induction h with
  | nil => exact .nil
  | @snoc es t e u _ hst ih =>
      rw [onRing, List.filterMap_append]
      cases hst with
      | ring hring _ =>
          rw [after_ring]
          exact ih.snoc hring
      | popBlocking | signal | readNone | readUnits | pollReady | pollInterrupted =>
          simp only [List.filterMap_cons, List.filterMap_nil, List.append_nil]
          exact ih

/-- No pop of an honest reader returns an error. -/
theorem no_error_run {md : Mode} {data : ℕ → α} {u : State α}
    {es : List (Option (Event Party (Op α) (Answer α)))} (hr : Honest cfg md r)
    (hrun : Run (machine cfg md) (State.fresh cfg data) es u) (hlen : u.stream.length < u64Size)
    (err : ShmRingError) : some (.ret (.reader r) (.popped (.error err))) ∉ es := by
  induction hrun with
  | nil => exact List.not_mem_nil
  | @snoc es u e v hrun hst ih =>
      have hlen' := (length_stream_le hst).trans_lt hlen
      rw [List.mem_append, List.mem_singleton]
      rintro (hmem | rfl)
      · exact ih hlen' hmem
      · have hinv := reachable_inv ⟨r, hr⟩ (hrun.reachable (.init ⟨data, rfl⟩)) hlen'
        cases hst with
        | retPop hres =>
            have hpop := (hinv.reader r hr).pop
            rw [hres] at hpop
            exact hpop

theorem roundsInv_init (hs : (rounds cfg).init s) (r : ℕ) : RoundsInv s r := by
  obtain ⟨⟨data, hring⟩, -, -, hphase⟩ := hs
  refine .of_idle (by rw [hring]; rfl) fun hwait => ?_
  rw [hphase r] at hwait
  simp at hwait

/-- **No wakeup is lost with an eventfd for each consumer.** Between rounds, a consumer in `wait` with its
counter at 0 has taken every message; and with fewer than `2 ^ 64` messages published, a consumer has been
given the first of them, in order, and no error. -/
theorem no_lost_wakeup_each {es : List (RoundStep α)} (hs : (rounds cfg).init s)
    (hrun : Run (rounds cfg) s es t) {r : ℕ} (hr : r < cfg.readers) :
    (t.Between → t.phase r = .tryWait ∨ t.phase r = .poll → t.counter r = 0 →
      t.ring.cursor r = t.ring.mem.now .writeIdx) ∧
    (t.ring.stream.length < u64Size →
      popped r (onRing es) ++ (t.ring.pop r).pending = t.ring.stream.take (t.ring.cursor r) ∧
      ∀ err, some (.ret (.reader r) (.popped (.error err))) ∉ onRing es) := by
  refine ⟨fun hbetween hwait hzero => ?_, fun hlen => ?_⟩
  · have hinv : RoundsInv t r := (hrun.reachable (.init hs)).invariant (I := fun s => RoundsInv s r)
      (fun s hs => roundsInv_init hs r) (fun s e t hinv hst => hinv.step hr hst)
    obtain ⟨hpush, htodo⟩ := hbetween
    rcases hinv.settled hwait with heq | hc | htodo' | hpc | hpc
    · exact heq
    · exact absurd hzero hc
    · rw [htodo r] at htodo'
      cases htodo'
    · rw [hpush] at hpc
      cases hpc
    · rw [hpush] at hpc
      cases hpc
  · obtain ⟨⟨data, hfresh⟩, -⟩ := hs
    have hring := run_onRing hrun
    rw [hfresh] at hring
    exact ⟨popped_run (honest_seq hr) id hring hlen, no_error_run (honest_seq hr) hring hlen⟩

/-- Nobody has done anything. -/
def untouched (cfg : Config) : RoundsState ℕ where
  ring := .fresh cfg fun _ => 0
  todo _ := false
  counter _ := 0
  phase _ := .outside

theorem untouched_init : (rounds cfg).init (untouched cfg) :=
  ⟨⟨_, rfl⟩, fun _ => rfl, fun _ => Nat.zero_le _, fun _ => rfl⟩

/-- A move of the ring other than a push, or a system call. -/
inductive RoundTurn (α : Type)
  | ring (a : Turn α)
  | popBlocking (r : ℕ)
  | signal (r : ℕ)
  | read (r : ℕ)
  | pollReady (r : ℕ)

namespace RoundsState

/-- Whether `Allows` holds, which for a call of the producer is not computed. -/
def allows (s : RoundsState α) : Option (Event Party (Op α) (Answer α)) → Bool
  | some (.call .producer _) => false
  | some (.call (.reader r) _) => s.phase r = .check
  | _ => true

theorem allows_of_check {s : RoundsState α} {e : Option (Event Party (Op α) (Answer α))}
    (h : s.allows e = true) : s.Allows e := by
  rcases e with _ | ⟨p, op⟩ | ⟨p, res⟩
  · trivial
  · cases p with
    | producer => cases h
    | reader r =>
        have hphase : s.phase r = .check := of_decide_eq_true h
        exact hphase
  · trivial

def turn (cfg : Config) (s : RoundsState α) : RoundTurn α → Option (RoundStep α × RoundsState α)
  | .ring a => (s.ring.turn cfg a).bind fun x =>
      if s.allows x.1 then some (.ring x.1, s.after cfg x.2 x.1) else none
  | .popBlocking r =>
      if r < cfg.readers ∧ s.phase r = .outside then some (.popBlocking r, s.goto r .check) else none
  | .signal r =>
      if s.todo r = true then
        some (.signal r, { s with
          todo := Function.update s.todo r false
          counter := Function.update s.counter r (signalled (s.counter r)) })
      else none
  | .read r =>
      if s.phase r = .tryWait then
        if s.counter r = 0 then some (.read r, s.goto r .poll)
        else some (.read r, { s.goto r .check with counter := Function.update s.counter r 0 })
      else none
  | .pollReady r =>
      if s.phase r = .poll ∧ s.counter r ≠ 0 then some (.pollReady r, s.goto r .tryWait) else none

end RoundsState

theorem rounds_of_turn {a : RoundTurn α} {e : RoundStep α} (hs : Current s.ring)
    (h : s.turn cfg a = some (e, t)) : Rounds cfg s e t ∧ Current t.ring := by
  cases a with
  | ring a =>
      obtain ⟨⟨f, u⟩, hturn, hrest⟩ := Option.bind_eq_some_iff.mp h
      split_ifs at hrest with hallow
      cases hrest
      obtain ⟨hstep, hu⟩ := step_of_turn hs hturn
      refine ⟨.ring hstep (RoundsState.allows_of_check hallow), ?_⟩
      rw [after_ring]
      exact hu
  | popBlocking r =>
      simp only [RoundsState.turn] at h
      split_ifs at h with hcond
      cases h
      exact ⟨.popBlocking r hcond.1 hcond.2, hs⟩
  | signal r =>
      simp only [RoundsState.turn] at h
      split_ifs at h with htodo
      cases h
      exact ⟨.signal r htodo, hs⟩
  | read r =>
      simp only [RoundsState.turn] at h
      split_ifs at h with hphase hzero
      · cases h
        exact ⟨.readNone r hphase hzero, hs⟩
      · cases h
        exact ⟨.readUnits r hphase hzero, hs⟩
  | pollReady r =>
      simp only [RoundsState.turn] at h
      split_ifs at h with hcond
      cases h
      exact ⟨.pollReady r hcond.1 hcond.2, hs⟩

theorem run_of_roundTurns {as : List (RoundTurn α)} {es : List (RoundStep α)} (hs : Current s.ring)
    (h : trace (RoundsState.turn cfg) as s = some (es, t)) : Run (rounds cfg) s es t ∧ Current t.ring :=
  Run.of_trace (I := fun s => Current s.ring) (fun _ _ _ _ hs hturn => rounds_of_turn hs hturn) hs h

/-- Consumer 0 sleeps on the empty ring; a push and a signal to each of the two wake it; it is given 7, finds
nothing more and sleeps again. -/
theorem sleeper_caught_up : ∃ (t : RoundsState ℕ) (es : List (RoundStep ℕ)),
    Run (rounds twoReaders) (untouched twoReaders) es t ∧ t.ring.stream = [7] ∧ t.phase 0 = .poll ∧
      t.ring.cursor 0 = t.ring.mem.now .writeIdx ∧ popped 0 (onRing es) = [7] ∧
      ∀ err, some (.ret (.reader 0) (.popped (.error err))) ∉ onRing es := by
  let look : List (RoundTurn ℕ) := .popBlocking 0 :: .ring (.pop 0) ::
    List.replicate 5 (.ring (.on (.reader 0))) ++ [.read 0]
  let round : List (RoundTurn ℕ) := List.flatten [List.replicate 8 (.ring (.on .producer)),
    [.signal 1, .signal 0, .pollReady 0, .read 0, .ring (.pop 0)],
      List.replicate 7 (.ring (.on (.reader 0))), look]
  have hplay : (trace (RoundsState.turn twoReaders) look (untouched twoReaders)).bind (fun x =>
      (trace (RoundsState.turn twoReaders) round { x.2 with ring := { x.2.ring with push := .loadWriteIdx 7 } }).map
        fun y => (x.2.ring.push, x.2.todo, y.2.ring.push, y.2.ring.stream, y.2.todo, y.2.phase 0, y.2.counter 0,
          popped 0 (onRing (x.1 ++ .ring (some (.call .producer (.push 7))) :: y.1)))) =
      some (.idle, fun _ => false, .idle, [7],
        Function.update (Function.update (fun r => decide (r < twoReaders.readers)) 1 false) 0 false, .poll, 0,
        [7]) := rfl
  obtain ⟨⟨es, s⟩, hs, hrest⟩ := Option.bind_eq_some_iff.mp hplay
  obtain ⟨⟨fs, t⟩, ht, heq⟩ := Option.map_eq_some_iff.mp hrest
  obtain ⟨hidle, htodo, hpush, hstream, hsignalled, hphase, hcounter, hgiven⟩ :
      _ ∧ _ ∧ _ ∧ _ ∧ _ ∧ _ ∧ _ ∧ _ := by simpa only [Prod.mk.injEq] using heq
  obtain ⟨hrun, hs'⟩ : Run (rounds twoReaders) (untouched twoReaders) es s ∧ Current s.ring :=
    run_of_roundTurns (current_fresh _) hs
  have hcall : Rounds twoReaders s (.ring (some (.call .producer (.push 7))))
      { s with ring := { s.ring with push := .loadWriteIdx 7 } } :=
    .ring (.callPush 7 hidle) fun r => congrFun htodo r
  have hround : Run (rounds twoReaders) { s with ring := { s.ring with push := .loadWriteIdx 7 } } fs t :=
    (run_of_roundTurns (s := { s with ring := { s.ring with push := .loadWriteIdx 7 } }) hs' ht).1
  have hall := (hrun.snoc hcall).append hround
  rw [List.append_assoc] at hall
  have hbetween : t.Between := by
    refine ⟨hpush, fun r => ?_⟩
    rw [hsignalled]
    rcases r with _ | _ | r <;> rfl
  obtain ⟨hcaught, hdelivered⟩ := no_lost_wakeup_each untouched_init hall (r := 0) (by decide)
  exact ⟨t, _, hall, hstream, hphase, hcaught hbetween (.inr hphase) hcounter, hgiven,
    (hdelivered (by rw [hstream]; decide)).2⟩

end ShmRings.Threads
