import ShmRings.Threads.Crash
import ShmRings.Threads.RaceFree
import ShmRings.Threads.Rounds

/-!
# The handshake with release and acquire

The consumers of `Rounds` with the memory orders of the code, and with parties that stop anywhere. A load of
`write_idx` may return an older value, so a pop may miss a message. What a write to an eventfd releases is
taken over by the read that takes its unit: a consumer that is woken sees what it was woken for.

* `HandshakeState`, `WakeStep`, `Handshake`, `handshake`; `onOrdered`, **`run_onOrdered`**: the steps of the
  ring are those of the coherent machine;
* `Announcing`, `Alert`, `HandshakeInv`, `HandshakeInv.step`: a consumer without a unit has seen every message;
* **`woken_sees_message`**; **`signal_lost`**: a producer that stops before its signal.
-/

set_option autoImplicit false

namespace ShmRings.Threads

open Coherent Transition Atomic Release

variable {α : Type} {cfg : Config}

/-- The ring, the eventfds the producer has yet to signal, the counters, what the writes to each eventfd have
released, and the consumers; consumer `r` is reader `r`. -/
structure HandshakeState (α : Type) where
  ring : OrderedState α
  todo : ℕ → Bool
  counter : ℕ → ℕ
  posted : ℕ → Knowledge Loc Party
  phase : ℕ → Phase

/-- A step of the ring, a system call, or the end of a party. -/
inductive WakeStep (α : Type)
  | ring (e : Option (Event Party (Op α) (Answer α)))
  | popBlocking (r : ℕ)
  | signal (r : ℕ)
  | read (r : ℕ)
  | pollReady (r : ℕ)
  | pollInterrupted (r : ℕ)
  | stopProducer
  | stopConsumer (r : ℕ)

namespace HandshakeState

variable (s : HandshakeState α)

/-- Consumer `r` moves on. -/
def goto (r : ℕ) (ph : Phase) : HandshakeState α := { s with phase := Function.update s.phase r ph }

/-- A push begins between rounds, and a consumer calls `try_pop` from the loop of `pop_blocking`. -/
def Allows : Option (Event Party (Op α) (Answer α)) → Prop
  | some (.call .producer _) => ∀ r, s.todo r = false
  | some (.call (.reader r) _) => s.phase r = .check
  | _ => True

/-- After a step of the ring to `t`: a push that published starts a round, and a pop that found nothing
goes to `wait`. -/
def after (cfg : Config) (t : OrderedState α) : Option (Event Party (Op α) (Answer α)) → HandshakeState α
  | some (.ret .producer (.pushed true)) =>
      { s with ring := t, todo := fun r => decide (r < cfg.readers) }
  | some (.call (.reader r) _) => { s.goto r .popping with ring := t }
  | some (.ret (.reader r) (.popped (.ok none))) => { s.goto r .tryWait with ring := t }
  | some (.ret (.reader r) _) => { s.goto r .outside with ring := t }
  | _ => { s with ring := t }

/-- A read of eventfd `r` that takes its units, and what the writes have released. -/
def woken (r : ℕ) : HandshakeState α :=
  { s.goto r .check with
    counter := Function.update s.counter r 0
    ring := { s.ring with
      know := Function.update s.ring.know (.reader r) (s.ring.know (.reader r) ⊔ s.posted r) } }

/-- The producer stops, and is replaced by one that has nothing to signal and, by assumption, knows all that has
happened. -/
def withoutProducer : HandshakeState α :=
  { s with
    ring := { s.ring with push := .idle, know := Function.update s.ring.know .producer s.ring.mem.all }
    todo := fun _ => false }

/-- Consumer `r` stops and is replaced, by one that knows as much. -/
def withoutConsumer (r : ℕ) : HandshakeState α :=
  { s.goto r .outside with ring := s.ring.popStep s.ring.mem s.ring.mem.all r .idle }

/-- The producer has published a message and has not signalled it everywhere. -/
def Announcing (r : ℕ) : Prop := s.todo r = true ∨ s.ring.push = .bumpTotal ∨ s.ring.push = .done true

/-- Consumer `r` has a unit, or the producer is about to signal it. -/
def Alert (r : ℕ) : Prop := s.counter r ≠ 0 ∨ s.Announcing r

/-- The producer is between rounds. -/
def Between : Prop := s.ring.push = .idle ∧ ∀ r, s.todo r = false

end HandshakeState

/-- One step of the system. A write to an eventfd takes the lock of its counter, full or not. -/
inductive Handshake (cfg : Config) : HandshakeState α → WakeStep α → HandshakeState α → Prop
  | ring {s e t} : OrderedStep cfg False s.ring e t → s.Allows e → Handshake cfg s (.ring e) (s.after cfg t e)
  | popBlocking {s} (r : ℕ) : r < cfg.readers → s.phase r = .outside →
      Handshake cfg s (.popBlocking r) (s.goto r .check)
  | signal {s} (r : ℕ) : s.todo r = true →
      Handshake cfg s (.signal r) { s with
        todo := Function.update s.todo r false
        counter := Function.update s.counter r (signalled (s.counter r))
        posted := Function.update s.posted r (s.posted r ⊔ s.ring.know .producer) }
  | readNone {s} (r : ℕ) : s.phase r = .tryWait → s.counter r = 0 →
      Handshake cfg s (.read r) (s.goto r .poll)
  | readUnits {s} (r : ℕ) : s.phase r = .tryWait → s.counter r ≠ 0 → Handshake cfg s (.read r) (s.woken r)
  | pollReady {s} (r : ℕ) : s.phase r = .poll → s.counter r ≠ 0 →
      Handshake cfg s (.pollReady r) (s.goto r .tryWait)
  | pollInterrupted {s} (r : ℕ) : s.phase r = .poll →
      Handshake cfg s (.pollInterrupted r) (s.goto r .tryWait)
  | stopProducer {s} : Handshake cfg s .stopProducer s.withoutProducer
  | stopConsumer {s} (r : ℕ) : Handshake cfg s (.stopConsumer r) (s.withoutConsumer r)

/-- The runs from a fresh ring, with any leftover units. -/
def handshake (cfg : Config) : System (HandshakeState α) (WakeStep α) where
  init s := (∃ data, s.ring = OrderedState.fresh cfg data) ∧ (∀ r, s.todo r = false) ∧
    (∀ r, s.counter r ≤ Eventfd.counterMax) ∧ (∀ r, s.posted r = ⊥) ∧ ∀ r, s.phase r = .outside
  step := Handshake cfg

/-! ## The steps of the ring -/

/-- The steps of the ring, and the ends of the parties. -/
def onOrdered (es : List (WakeStep α)) : List (Option (Event Party (Op α) (Answer α))) :=
  es.filterMap fun
    | .ring e => some e
    | .stopProducer | .stopConsumer _ => some none
    | _ => none

variable {s t : HandshakeState α} {u : State α} {e : WakeStep α} {r : ℕ}

theorem HandshakeState.after_ring (u : OrderedState α) (e : Option (Event Party (Op α) (Answer α))) :
    (s.after cfg u e).ring = u := by
  unfold HandshakeState.after
  split <;> rfl

/-- **Each step is one of the coherent machine, or none.** -/
theorem onOrdered_step (h : Forgets s.ring u) (hst : Handshake cfg s e t) :
    ∃ v, Run (machine cfg .stale) u (onOrdered [e]) v ∧ Forgets t.ring v := by
  cases hst with
  | ring hring _ =>
      obtain ⟨v, hst, hv⟩ := h.step hring
      exact ⟨v, .single hst, by rwa [HandshakeState.after_ring]⟩
  | stopProducer =>
      have hstop : OrderedStep cfg True s.ring none _ := .replacePush trivial
      obtain ⟨v, hst, hv⟩ := h.step hstop
      exact ⟨v, .single hst, hv⟩
  | stopConsumer r =>
      obtain ⟨v, hst, hv⟩ := h.step (.replacePop r trivial)
      exact ⟨v, .single hst, hv⟩
  | readUnits r _ _ => exact ⟨u, .nil, h.learn le_sup_left⟩
  | popBlocking | signal | readNone | pollReady | pollInterrupted => exact ⟨u, .nil, h⟩

/-- **The ring of a run makes a run of the coherent machine.** -/
theorem run_onOrdered {es : List (WakeStep α)} (h : Forgets s.ring u) (hrun : Run (handshake cfg) s es t) :
    ∃ v, Run (machine cfg .stale) u (onOrdered es) v ∧ Forgets t.ring v := by
  induction hrun with
  | nil => exact ⟨u, .nil, h⟩
  | snoc _ hst ih =>
      obtain ⟨v, hrun, hv⟩ := ih
      obtain ⟨w, hrun', hw⟩ := onOrdered_step hv hst
      rw [onOrdered, List.filterMap_append]
      exact ⟨w, hrun.append hrun', hw⟩

/-! ## The invariant -/

namespace HandshakeState

variable (s)

/-- Consumer `r` has taken every message, or is alert. -/
def Settled (r : ℕ) : Prop := s.ring.cursor r = s.ring.stream.length ∨ s.Alert r

/-- What consumer `r` knows in `try_pop`. -/
def SeenOk (r : ℕ) : PopPc α → Prop
  | .loadReadIdx w => w = s.ring.stream.length ∨ s.Alert r
  | .done (.ok none) => s.Settled r
  | _ => True

end HandshakeState

/-- The invariant of consumer `r`. Unless the producer is about to signal, what the eventfd has released
includes the last message; unless the consumer has a unit coming, it knows of that message. -/
structure HandshakeInv (s : HandshakeState α) (r : ℕ) : Prop where
  posted : s.Announcing r ∨ s.ring.stream.length ≤ s.posted r (.word .writeIdx)
  informed : s.Alert r ∨ s.ring.stream.length ≤ s.ring.know (.reader r) (.word .writeIdx)
  seen : s.SeenOk r (s.ring.pop r)
  settled : s.phase r = .tryWait ∨ s.phase r = .poll → s.Settled r
  idle : s.phase r ≠ .popping → s.ring.pop r = .idle

/-- What a step must leave alone for a consumer not to notice it. -/
structure Unnoticed (r : ℕ) (s t : HandshakeState α) : Prop where
  alert : s.Alert r → t.Alert r
  announcing : s.Announcing r → t.Announcing r ∨ t.ring.stream.length ≤ t.posted r (.word .writeIdx)
  stream : t.ring.stream.length = s.ring.stream.length ∨ t.Announcing r
  posted : s.posted r ≤ t.posted r
  know : s.ring.know (.reader r) ≤ t.ring.know (.reader r)
  cursor : t.ring.cursor r = s.ring.cursor r

theorem Unnoticed.settled (hu : Unnoticed r s t) (h : s.Settled r) : t.Settled r := by
  rcases h with heq | ha
  · rcases hu.stream with hlen | han
    · exact .inl (by rw [hu.cursor, hlen, heq])
    · exact .inr (.inr han)
  · exact .inr (hu.alert ha)

theorem Unnoticed.seen (hu : Unnoticed r s t) {pc : PopPc α} (h : s.SeenOk r pc) : t.SeenOk r pc := by
  cases pc with
  | loadReadIdx w =>
      rcases h with heq | ha
      · rcases hu.stream with hlen | han
        · exact .inl (heq.trans hlen.symm)
        · exact .inr (.inr han)
      · exact .inr (hu.alert ha)
  | done res =>
      rcases res with err | _ | v
      · trivial
      · exact hu.settled h
      · trivial
  | _ => trivial

/-- What consumer `r` is told does not get less. -/
theorem HandshakeInv.told (h : HandshakeInv s r) (hu : Unnoticed r s t) :
    (t.Announcing r ∨ t.ring.stream.length ≤ t.posted r (.word .writeIdx)) ∧
      (t.Alert r ∨ t.ring.stream.length ≤ t.ring.know (.reader r) (.word .writeIdx)) := by
  refine ⟨?_, ?_⟩
  · rcases h.posted with han | hle
    · exact hu.announcing han
    · rcases hu.stream with hlen | han
      · exact .inr (hlen ▸ hle.trans (hu.posted _))
      · exact .inl han
  · rcases h.informed with ha | hle
    · exact .inl (hu.alert ha)
    · rcases hu.stream with hlen | han
      · exact .inr (hlen ▸ hle.trans (hu.know _))
      · exact .inl (.inr han)

/-- A consumer does not notice a step of another party. -/
theorem HandshakeInv.frame (h : HandshakeInv s r) (hu : Unnoticed r s t)
    (hpop : t.ring.pop r = s.ring.pop r) (hphase : t.phase r = s.phase r) : HandshakeInv t r where
  posted := (h.told hu).1
  informed := (h.told hu).2
  seen := by
    rw [hpop]
    exact hu.seen h.seen
  settled hwait := hu.settled (h.settled (hphase ▸ hwait))
  idle hne := hpop.trans (h.idle (hphase ▸ hne))

/-- A consumer outside `try_pop` knows only whether it may wait. -/
theorem HandshakeInv.of_idle (h : HandshakeInv s r) (hu : Unnoticed r s t) (hidle : t.ring.pop r = .idle)
    (hwait : t.phase r = .tryWait ∨ t.phase r = .poll → t.Settled r) : HandshakeInv t r where
  posted := (h.told hu).1
  informed := (h.told hu).2
  seen := by
    rw [hidle]
    trivial
  settled := hwait
  idle _ := hidle

/-! ## Steps of the ring -/

/-- An access of the producer announces the message it publishes. -/
theorem announce_access {m m' : Tracked Loc Party α} {k k' : Knowledge Loc Party} {p : Party}
    {pc pc' : PushPc α} (h : Ordered m k p (pushOrder pc) (pushCode cfg pc) m' k' pc') :
    pc' = .bumpTotal ∨ (pc.publishes = [] ∧ (pc = .bumpTotal → pc' = .done true) ∧ pc ≠ .done true) := by
  cases pc with
  | publish value w =>
      cases h
      exact .inl rfl
  | bumpTotal =>
      cases h
      exact .inr ⟨rfl, fun _ => rfl, fun hpc => by cases hpc⟩
  | loadWriteIdx _ | loadNumReaders _ _ | scan _ _ _ _ _ | writeSlot _ _ =>
      cases h
      exact .inr ⟨rfl, fun hpc => (by cases hpc), fun hpc => by cases hpc⟩
  | idle | done _ | panicked => cases h

/-- **A load of `write_idx` by a consumer without a unit returns the newest value.** -/
theorem HandshakeInv.sees_newest (h : HandshakeInv s r) (hc : Coheres cfg s.ring) {i v : ℕ}
    (hs : Sees False s.ring.mem.toMemory (s.ring.know (.reader r)).view .writeIdx i v) :
    v = s.ring.stream.length ∨ s.Alert r := by
  obtain ⟨rfl, hlo, hhi⟩ := hs.counter hc.writeIdx
  rcases h.informed with ha | hle
  · exact .inr ha
  · exact .inl (le_antisymm hhi (hle.trans hlo))

/-- An access of a consumer keeps what it knows. -/
theorem HandshakeInv.access (h : HandshakeInv s r) (hc : Coheres cfg s.ring) (hr : r < cfg.readers)
    {m : Tracked Loc Party α} {k : Knowledge Loc Party} {pc : PopPc α}
    (hacc : Ordered s.ring.mem (s.ring.know (.reader r)) (.reader r) (popOrder (s.ring.pop r))
      (popCode cfg r (s.ring.pop r)) m k pc) :
    (s.after cfg (s.ring.popStep m k r pc) none).SeenOk r pc := by
  have hseen := h.seen
  cases hpc : s.ring.pop r with
  | checkReader | checkGate =>
      rw [hpc] at hacc
      cases hacc
      dsimp only
      split_ifs <;> trivial
  | loadWriteIdx =>
      rw [hpc] at hacc
      cases hacc with
      | load hs => exact h.sees_newest hc hs
  | loadReadIdx w =>
      rw [hpc] at hacc hseen
      cases hacc with
      | @load _ _ _ c hs =>
          obtain ⟨rfl, hlo, hhi⟩ := hs.counter (hc.cell r hr)
          obtain rfl := le_antisymm hhi ((hc.own r hr).trans hlo)
          dsimp only
          split_ifs with heq
          · subst heq
            exact hseen
          · trivial
  | readSlot _ | advance _ _ =>
      rw [hpc] at hacc
      cases hacc
      trivial
  | idle | done _ => rw [hpc] at hacc; cases hacc

/-- **A step of the ring keeps the invariant of every consumer.** -/
theorem HandshakeInv.step_ring {t : OrderedState α} {e : Option (Event Party (Op α) (Answer α))}
    (h : HandshakeInv s r) (htr : Traced cfg s.ring) (hr : r < cfg.readers)
    (hring : OrderedStep cfg False s.ring e t) (hallow : s.Allows e) : HandshakeInv (s.after cfg t e) r := by
  have hc := htr.coheres
  cases hring with
  | callPush value hidle =>
      have hann : s.Announcing r → (s.after cfg { s.ring with push := .loadWriteIdx value }
          (some (.call .producer (.push value)))).Announcing r := by
        rintro (htodo | hpc | hpc)
        · exact .inl htodo
        · exact absurd (hidle.symm.trans hpc) (by simp)
        · exact absurd (hidle.symm.trans hpc) (by simp)
      exact h.frame ⟨Or.imp id hann, fun ha => .inl (hann ha), .inl rfl, le_rfl, le_rfl, rfl⟩ rfl rfl
  | @push m k pc hacc =>
      have hcur : (s.ring.pushStep m k pc).cursor r = s.ring.cursor r := by
        obtain ⟨vw, hacc', -⟩ := hacc.access (le_refl (s.ring.know .producer).view)
        exact congrArg Cell.now (push_word hacc' (by simp) (by simp))
      have hknow : s.ring.know (.reader r) ≤ (s.ring.pushStep m k pc).know (.reader r) :=
        OrderedState.pushStep_know_reader.ge
      rcases announce_access hacc with rfl | ⟨hpub, hnext, hdone⟩
      · have hann : (s.after cfg (s.ring.pushStep m k .bumpTotal) none).Announcing r := .inr (.inl rfl)
        exact h.frame ⟨fun _ => .inr hann, fun _ => .inl hann, .inr hann, le_rfl, hknow, hcur⟩ rfl rfl
      · have hann : s.Announcing r → (s.after cfg (s.ring.pushStep m k pc) none).Announcing r := by
          rintro (htodo | hpc | hpc)
          · exact .inl htodo
          · exact .inr (.inr (hnext hpc))
          · exact absurd hpc hdone
        have hlen : (s.ring.pushStep m k pc).stream.length = s.ring.stream.length := by
          rw [OrderedState.length_pushStep_stream, hpub]
          rfl
        exact h.frame ⟨Or.imp id hann, fun ha => .inl (hann ha), .inl hlen, le_rfl, hknow, hcur⟩ rfl rfl
  | @retPush b hdone =>
      cases b with
      | true =>
          have hann : (s.after cfg { s.ring with push := .idle } (some (.ret .producer (.pushed true)))).Announcing
              r := .inl (decide_eq_true hr)
          exact h.frame ⟨fun _ => .inr hann, fun _ => .inl hann, .inl rfl, le_rfl, le_rfl, rfl⟩ rfl rfl
      | false =>
          have hann : s.Announcing r → (s.after cfg { s.ring with push := .idle }
              (some (.ret .producer (.pushed false)))).Announcing r := by
            rintro (htodo | hpc | hpc)
            · exact .inl htodo
            · exact absurd (hdone.symm.trans hpc) (by simp)
            · exact absurd (hdone.symm.trans hpc) (by simp)
          exact h.frame ⟨Or.imp id hann, fun ha => .inl (hann ha), .inl rfl, le_rfl, le_rfl, rfl⟩ rfl rfl
  | @callPop q hq hidle =>
      have hu : Unnoticed r s (s.after cfg { s.ring with pop := Function.update s.ring.pop q .checkReader }
          (some (.call (.reader q) (.pop q)))) := ⟨id, .inl, .inl rfl, le_rfl, le_rfl, rfl⟩
      by_cases hqr : r = q
      · subst hqr
        refine ⟨(h.told hu).1, (h.told hu).2, ?_, fun hwait => ?_, fun hne => ?_⟩
        · show HandshakeState.SeenOk _ r (Function.update s.ring.pop r .checkReader r)
          rw [Function.update_self]
          trivial
        · simp [HandshakeState.after, HandshakeState.goto] at hwait
        · exact absurd (Function.update_self _ _ _) hne
      · exact h.frame hu (Function.update_of_ne hqr _ _) (Function.update_of_ne hqr _ _)
  | @pop q m k pc hacc =>
      have hstay := hacc.known htr.1.sound (htr.1.known (.reader q))
      have hknow : s.ring.know (.reader r) ≤ (s.ring.popStep m k q pc).know (.reader r) := by
        by_cases hqr : r = q
        · subst hqr
          rw [OrderedState.popStep_know]
          exact hstay.2.1
        · rw [OrderedState.popStep_know_ne hqr]
      by_cases hqr : r = q
      · subst hqr
        have hphase : s.phase r = .popping := by
          by_contra hne
          rw [h.idle hne] at hacc
          cases hacc
        refine ⟨h.posted, h.informed.imp id fun hle => hle.trans (hknow _), ?_, fun hwait => ?_,
          fun hne => absurd hphase hne⟩
        · have hseen := h.access hc hr hacc
          show HandshakeState.SeenOk _ r ((s.ring.popStep m k r pc).pop r)
          rwa [OrderedState.popStep_pop]
        · simp only [HandshakeState.after, hphase] at hwait
          simp at hwait
      · have hcur : (s.ring.popStep m k q pc).cursor r = s.ring.cursor r := by
          obtain ⟨vw, hacc', -⟩ := hacc.access (le_refl (s.ring.know (.reader q)).view)
          exact congrArg Cell.now (pop_word hacc' (by simp [hqr]))
        exact h.frame ⟨id, .inl, .inl rfl, le_rfl, hknow, hcur⟩ (OrderedState.popStep_pop_ne hqr) rfl
  | @retPop q res hres =>
      have hu : Unnoticed r s (s.after cfg { s.ring with pop := Function.update s.ring.pop q .idle }
          (some (.ret (.reader q) (.popped res)))) := by
        rcases res with err | _ | v <;> exact ⟨id, .inl, .inl rfl, le_rfl, le_rfl, rfl⟩
      by_cases hqr : r = q
      · subst hqr
        have hseen := h.seen
        rw [hres] at hseen
        refine h.of_idle hu ?_ fun hwait => ?_
        · rw [HandshakeState.after_ring]
          exact Function.update_self _ _ _
        · rcases res with err | _ | v
          · simp [HandshakeState.after, HandshakeState.goto] at hwait
          · exact hu.settled hseen
          · simp [HandshakeState.after, HandshakeState.goto] at hwait
      · refine h.frame hu ?_ ?_
        · rw [HandshakeState.after_ring]
          exact Function.update_of_ne hqr _ _
        · rcases res with err | _ | v <;> exact Function.update_of_ne hqr _ _
  | replacePush hno => exact hno.elim
  | replacePop _ hno => exact hno.elim

/-! ## Steps of the handshake -/

/-- What consumer `r` may know of a move of consumer `q`. -/
theorem HandshakeInv.goto {q : ℕ} {ph : Phase} (h : HandshakeInv s r) (hq : s.phase q ≠ .popping)
    (hwait : r = q → ph = .tryWait ∨ ph = .poll → s.Settled r) : HandshakeInv (s.goto q ph) r := by
  have hu : Unnoticed r s (s.goto q ph) := ⟨id, .inl, .inl rfl, le_rfl, le_rfl, rfl⟩
  by_cases hqr : r = q
  · subst hqr
    have hphase : (s.goto r ph).phase r = ph := Function.update_self _ _ _
    exact h.of_idle hu (h.idle hq) fun hph => hwait rfl (hphase ▸ hph)
  · exact h.frame hu rfl (Function.update_of_ne hqr _ _)

/-- A write to an eventfd releases all that the producer knows. -/
theorem HandshakeInv.step_signal (h : HandshakeInv s r) (hc : Coheres cfg s.ring) (q : ℕ) :
    HandshakeInv { s with
      todo := Function.update s.todo q false
      counter := Function.update s.counter q (signalled (s.counter q))
      posted := Function.update s.posted q (s.posted q ⊔ s.ring.know .producer) } r := by
  by_cases hqr : r = q
  · subst hqr
    refine h.frame ⟨fun _ => .inl ?_, fun _ => .inr ?_, .inl rfl, ?_, le_rfl, rfl⟩ rfl rfl
    · show Function.update s.counter r (signalled (s.counter r)) r ≠ 0
      rw [Function.update_self]
      exact signalled_ne_zero _
    · show s.ring.stream.length ≤ Function.update s.posted r (s.posted r ⊔ s.ring.know .producer) r _
      rw [Function.update_self]
      exact hc.ownWrite.trans le_sup_right
    · show s.posted r ≤ Function.update s.posted r (s.posted r ⊔ s.ring.know .producer) r
      rw [Function.update_self]
      exact le_sup_left
  · have hann : s.Announcing r → HandshakeState.Announcing { s with
        todo := Function.update s.todo q false
        counter := Function.update s.counter q (signalled (s.counter q))
        posted := Function.update s.posted q (s.posted q ⊔ s.ring.know .producer) } r :=
      Or.imp (fun htodo => (Function.update_of_ne hqr _ _).trans htodo) id
    refine h.frame ⟨?_, fun ha => .inl (hann ha), .inl rfl, ?_, le_rfl, rfl⟩ rfl rfl
    · exact Or.imp (fun hcounter => (Function.update_of_ne hqr _ _).trans_ne hcounter) hann
    · exact (Function.update_of_ne hqr _ _).ge

/-- A read that takes units takes over what their writes have released. -/
theorem HandshakeInv.step_woken (h : HandshakeInv s r) {q : ℕ} (hq : s.phase q = .tryWait) :
    HandshakeInv (s.woken q) r := by
  by_cases hqr : r = q
  · subst hqr
    have hidle : s.ring.pop r = .idle := h.idle (by simp [hq])
    refine ⟨h.posted, ?_, ?_, fun hwait => ?_, fun _ => hidle⟩
    · rcases h.posted with han | hle
      · exact .inl (.inr han)
      · refine .inr (hle.trans ?_)
        show _ ≤ Function.update s.ring.know (.reader r) (s.ring.know (.reader r) ⊔ s.posted r) (.reader r) _
        rw [Function.update_self]
        exact le_sup_right
    · show HandshakeState.SeenOk _ r (s.ring.pop r)
      rw [hidle]
      trivial
    · simp [HandshakeState.woken, HandshakeState.goto] at hwait
  · refine h.frame ⟨?_, .inl, .inl rfl, le_rfl, ?_, rfl⟩ rfl (Function.update_of_ne hqr _ _)
    · exact Or.imp (fun hcounter => (Function.update_of_ne hqr _ _).trans_ne hcounter) id
    · exact (Function.update_of_ne (by simp [hqr]) _ _).ge

/-- The producer stops only when it has signalled what it has published. -/
def Covered (cfg : Config) (s : HandshakeState α) (e : WakeStep α) (_ : HandshakeState α) : Prop :=
  e = .stopProducer → ∀ r < cfg.readers, ¬ s.Announcing r

/-- **Every step keeps the invariant of every consumer.** -/
theorem HandshakeInv.step (h : HandshakeInv s r) (htr : Traced cfg s.ring) (hr : r < cfg.readers)
    (hst : Handshake cfg s e t) (hcov : Covered cfg s e t) : HandshakeInv t r := by
  cases hst with
  | ring hring hallow => exact h.step_ring htr hr hring hallow
  | popBlocking q _ hphase => exact h.goto (by simp [hphase]) (by simp)
  | signal q _ => exact h.step_signal htr.coheres q
  | readNone q hphase _ => exact h.goto (by simp [hphase]) fun hqr _ => h.settled (.inl (hqr ▸ hphase))
  | readUnits q hphase _ => exact h.step_woken hphase
  | pollReady q hphase _ => exact h.goto (by simp [hphase]) fun hqr _ => h.settled (.inr (hqr ▸ hphase))
  | pollInterrupted q hphase => exact h.goto (by simp [hphase]) fun hqr _ => h.settled (.inr (hqr ▸ hphase))
  | stopProducer =>
      have hno := hcov rfl r hr
      refine h.frame ⟨Or.imp id fun han => absurd han hno, fun han => absurd han hno, .inl rfl, le_rfl, ?_, rfl⟩
        rfl rfl
      show s.ring.know (.reader r) ≤ Function.update s.ring.know .producer s.ring.mem.all (.reader r)
      rw [Function.update_of_ne (by simp)]
  | stopConsumer q =>
      have hknow : s.ring.know (.reader r) ≤ (s.withoutConsumer q).ring.know (.reader r) := by
        show _ ≤ (s.ring.popStep s.ring.mem s.ring.mem.all q .idle).know (.reader r)
        by_cases hqr : r = q
        · subst hqr
          rw [OrderedState.popStep_know]
          exact htr.1.known _
        · rw [OrderedState.popStep_know_ne hqr]
      have hu : Unnoticed r s (s.withoutConsumer q) := ⟨id, .inl, .inl rfl, le_rfl, hknow, rfl⟩
      by_cases hqr : r = q
      · subst hqr
        refine h.of_idle hu OrderedState.popStep_pop fun hwait => ?_
        simp [HandshakeState.withoutConsumer, HandshakeState.goto] at hwait
      · exact h.frame hu (OrderedState.popStep_pop_ne hqr) (Function.update_of_ne hqr _ _)

/-- What has happened in the ring stays so. -/
theorem OrderedStep.all_le {stops : Prop} {s s' : OrderedState α} {e : Option (Event Party (Op α) (Answer α))}
    (h : OrderedStep cfg stops s e s') : s.mem.all ≤ s'.mem.all := by
  cases h with
  | push hacc => exact hacc.all_le
  | pop hacc => exact hacc.all_le
  | _ => exact le_rfl

/-- **The ring beside the eventfds** keeps its invariants, and nothing is released that has not happened. -/
theorem Traced.handshake (h : Traced cfg s.ring) (hposted : ∀ r, s.posted r ≤ s.ring.mem.all)
    (hst : Handshake cfg s e t) (hlen : t.ring.stream.length < u64Size) :
    Traced cfg t.ring ∧ ∀ r, t.posted r ≤ t.ring.mem.all := by
  cases hst with
  | @ring e u hring _ =>
      rw [HandshakeState.after_ring] at hlen ⊢
      have hpost : (s.after cfg u e).posted = s.posted := by
        unfold HandshakeState.after
        split <;> rfl
      rw [hpost]
      exact ⟨h.step hring hlen, fun r => (hposted r).trans hring.all_le⟩
  | signal q _ =>
      refine ⟨h, fun r => ?_⟩
      show Function.update s.posted q (s.posted q ⊔ s.ring.know .producer) r ≤ s.ring.mem.all
      by_cases hqr : r = q
      · subst hqr
        rw [Function.update_self]
        exact sup_le (hposted r) (h.1.known .producer)
      · rw [Function.update_of_ne hqr]
        exact hposted r
  | readUnits r _ _ => exact ⟨h.learn le_sup_left (sup_le (h.1.known _) (hposted r)), hposted⟩
  | stopProducer => exact ⟨h.step (.replacePush trivial) hlen, hposted⟩
  | stopConsumer r => exact ⟨h.step (.replacePop r trivial) hlen, hposted⟩
  | popBlocking | readNone | pollReady | pollInterrupted => exact ⟨h, hposted⟩

theorem length_handshake_le (hst : Handshake cfg s e t) : s.ring.stream.length ≤ t.ring.stream.length := by
  cases hst with
  | ring hring _ =>
      rw [HandshakeState.after_ring]
      exact length_ordered_le hring
  | _ => exact le_rfl

/-- The invariant of every consumer holds in every run in which the producer stops only when it has signalled
what it has published. -/
theorem handshakeInv_run {es : List (WakeStep α)} (hs : (handshake cfg).init s)
    (hrun : Run ((handshake cfg).guard (Covered cfg)) s es t) (hlen : t.ring.stream.length < u64Size) :
    Traced cfg t.ring ∧ ∀ r < cfg.readers, HandshakeInv t r := by
  obtain ⟨⟨data, hring⟩, htodo, -, hposted, hphase⟩ := hs
  have hinit : ∀ r < cfg.readers, HandshakeInv s r := by
    intro r _
    have hidle : s.ring.pop r = .idle := by rw [hring]; rfl
    refine ⟨.inr ?_, .inr ?_, ?_, fun hwait => ?_, fun _ => hidle⟩
    · rw [hring]
      exact Nat.zero_le _
    · rw [hring]
      exact Nat.zero_le _
    · rw [hidle]
      trivial
    · rw [hphase r] at hwait
      simp at hwait
  have hall : (Traced cfg t.ring ∧ ∀ r, t.posted r ≤ t.ring.mem.all) ∧ ∀ r < cfg.readers, HandshakeInv t r := by
    refine hrun.invariant_of_bound (I := fun s => (Traced cfg s.ring ∧ ∀ r, s.posted r ≤ s.ring.mem.all) ∧
      ∀ r < cfg.readers, HandshakeInv s r) (fun s => s.ring.stream.length < u64Size) ?_ ?_ ?_ hlen
    · intro s e t hst hlt
      exact (length_handshake_le hst.1).trans_lt hlt
    · rintro s e t ⟨⟨htr, hpost⟩, hinv⟩ ⟨hst, hcov⟩ hlt
      exact ⟨htr.handshake hpost hst hlt, fun r hr => (hinv r hr).step htr hr hst hcov⟩
    · refine ⟨⟨hring ▸ traced_fresh cfg data, fun r => ?_⟩, hinit⟩
      rw [hposted r]
      exact bot_le
  exact ⟨hall.1.1, hall.2⟩

/-- **A consumer that is woken sees the message, and none sleeps on one**, with release and acquire and with
parties that stop, unless the producer stops between a message and its signals. Between rounds, a consumer in
`wait` with its counter at 0 has taken every message. A consumer that has no unit coming loads the newest
`write_idx`, and a pop of it that has found nothing has left nothing. Nothing races, and a consumer is given
what its cursor has passed, in order and at most once. -/
theorem woken_sees_message {es : List (WakeStep α)} (hs : (handshake cfg).init s)
    (hrun : Run ((handshake cfg).guard (Covered cfg)) s es t) (hlen : t.ring.stream.length < u64Size)
    {r : ℕ} (hr : r < cfg.readers) :
    (t.Between → t.phase r = .tryWait ∨ t.phase r = .poll → t.counter r = 0 →
      t.ring.cursor r = t.ring.stream.length) ∧
    (¬ t.Alert r →
      (∀ i v, Sees False t.ring.mem.toMemory (t.ring.know (.reader r)).view .writeIdx i v →
        v = t.ring.stream.length) ∧
      (t.ring.pop r = .done (.ok none) → t.ring.cursor r = t.ring.stream.length)) ∧
    ¬ Races t.ring.mem (t.ring.know .producer) (pushCode cfg t.ring.push) ∧
    ¬ Races t.ring.mem (t.ring.know (.reader r)) (popCode cfg r (t.ring.pop r)) ∧
    (popped r (onOrdered es)).Sublist (t.ring.stream.take (t.ring.cursor r)) := by
  obtain ⟨htr, hall⟩ := handshakeInv_run hs hrun hlen
  have hinv := hall r hr
  refine ⟨fun hbetween hwait hzero => ?_, fun hno => ⟨fun i v hsees => ?_, fun hpop => ?_⟩, htr.clean.1.1,
    (htr.clean.2 r).1, ?_⟩
  · obtain ⟨hpush, htodo⟩ := hbetween
    rcases hinv.settled hwait with heq | hc | htodo' | hpc | hpc
    · exact heq
    · exact absurd hzero hc
    · exact absurd ((htodo r).symm.trans htodo') (by simp)
    · exact absurd (hpush.symm.trans hpc) (by simp)
    · exact absurd (hpush.symm.trans hpc) (by simp)
  · exact (hinv.sees_newest htr.coheres hsees).resolve_right hno
  · have hseen := hinv.seen
    rw [hpop] at hseen
    exact hseen.resolve_right hno
  · obtain ⟨⟨data, hring⟩, -⟩ := hs
    obtain ⟨u, hu, hf⟩ := run_onOrdered (hring ▸ forgets_fresh cfg data) hrun.of_guard
    have hgiven := given_run (honest_stale hr) hu (by rw [hf.stream]; exact hlen)
    rw [hf.stream, hf.cursor] at hgiven
    exact (List.sublist_append_left _ _).trans hgiven

/-! ## A signal that is never sent -/

/-- Nobody has done anything. -/
def hushed (cfg : Config) : HandshakeState ℕ where
  ring := .fresh cfg fun _ => 0
  todo _ := false
  counter _ := 0
  posted _ := ⊥
  phase _ := .outside

theorem hushed_init : (handshake cfg).init (hushed cfg) :=
  ⟨⟨_, rfl⟩, fun _ => rfl, fun _ => Nat.zero_le _, fun _ => rfl, fun _ => rfl⟩

/-- A consumer of the empty ring goes to sleep, and a message is published; then the consumer is woken. -/
theorem run_wake : ∃ (s t : HandshakeState ℕ) (es fs : List (WakeStep ℕ)),
    Run ((handshake oneSlot).guard (Covered oneSlot)) (hushed oneSlot) es s ∧
    s.phase 0 = .poll ∧ s.counter 0 = 0 ∧ s.ring.cursor 0 < s.ring.stream.length ∧
    Run ((handshake oneSlot).guard (Covered oneSlot)) (hushed oneSlot) fs t ∧
    t.phase 0 = .check ∧ t.ring.stream = [7] ∧ ¬ t.Alert 0 := by
  have h₁ := Run.single (S := (handshake oneSlot).guard (Covered oneSlot)) (s := hushed oneSlot)
    ⟨.popBlocking 0 (by decide) rfl, fun h => by cases h⟩
  have h₂ := h₁.snoc ⟨.ring (.callPop (r := 0) (by decide) rfl) rfl, fun h => by cases h⟩
  have h₃ := h₂.snoc ⟨.ring (.pop (r := 0) (.load (i := 0) (v := 1) ⟨Nat.le_refl 0, rfl, False.elim⟩))
    trivial, fun h => by cases h⟩
  have h₄ := h₃.snoc ⟨.ring (.pop (r := 0) (.load (i := 0) (v := 0) ⟨Nat.le_refl 0, rfl, False.elim⟩))
    trivial, fun h => by cases h⟩
  have h₅ := h₄.snoc ⟨.ring (.pop (r := 0) (.load (i := 0) (v := 0) ⟨Nat.le_refl 0, rfl, False.elim⟩))
    trivial, fun h => by cases h⟩
  have h₆ := h₅.snoc ⟨.ring (.pop (r := 0) (.load (i := 0) (v := 0) ⟨Nat.le_refl 0, rfl, False.elim⟩))
    trivial, fun h => by cases h⟩
  have h₇ := h₆.snoc ⟨.ring (.retPop (r := 0) rfl) trivial, fun h => by cases h⟩
  have h₈ := h₇.snoc ⟨.readNone 0 rfl rfl, fun h => by cases h⟩
  -- asleep; now the push
  have h₉ := h₈.snoc ⟨.ring (.callPush 7 rfl) (fun _ => rfl), fun h => by cases h⟩
  have k₁ := h₉.snoc ⟨.ring (.push (.load ⟨Nat.le_refl 0, rfl, False.elim⟩)) trivial,
    fun h => by cases h⟩
  have k₂ := k₁.snoc ⟨.ring (.push (.load ⟨Nat.le_refl 0, rfl, False.elim⟩)) trivial,
    fun h => by cases h⟩
  have k₃ := k₂.snoc ⟨.ring (.push (.load ⟨Nat.le_refl 0, rfl, False.elim⟩)) trivial,
    fun h => by cases h⟩
  have k₄ := k₃.snoc ⟨.ring (.push .put) trivial, fun h => by cases h⟩
  have k₅ := k₄.snoc ⟨.ring (.push .store) trivial, fun h => by cases h⟩
  -- published; now the signal
  have k₆ := k₅.snoc ⟨.ring (.push .modify) trivial, fun h => by cases h⟩
  have k₇ := k₆.snoc ⟨.ring (.retPush rfl) trivial, fun h => by cases h⟩
  have k₈ := k₇.snoc ⟨.signal 0 rfl, fun h => by cases h⟩
  have k₉ := k₈.snoc ⟨.pollReady 0 rfl (by decide), fun h => by cases h⟩
  have l₁ := k₉.snoc ⟨.readUnits 0 rfl (by decide), fun h => by cases h⟩
  refine ⟨_, _, _, _, k₅, rfl, rfl, Nat.zero_lt_one, l₁, rfl, rfl, ?_⟩
  rintro (h | h | h | h)
  · exact h rfl
  · cases h
  · cases h
  · cases h

/-- The consumer that was woken loads the new `write_idx`. -/
theorem woken_sees_message_first : ∃ t : HandshakeState ℕ, t.phase 0 = .check ∧ t.ring.stream = [7] ∧
    ∀ i v, Sees False t.ring.mem.toMemory (t.ring.know (.reader 0)).view .writeIdx i v → v = 1 := by
  obtain ⟨-, t, -, fs, -, -, -, -, hrun, hphase, hstream, hno⟩ := run_wake
  have h := (woken_sees_message hushed_init hrun (by rw [hstream]; decide) (r := 0) (by decide)).2.1 hno
  rw [hstream] at h
  exact ⟨t, hphase, hstream, h.1⟩

/-- **A producer that stops between a message and its signal** leaves a consumer asleep on it. -/
theorem signal_lost : ∃ (t : HandshakeState ℕ) (es : List (WakeStep ℕ)),
    Run (handshake oneSlot) (hushed oneSlot) es t ∧ t.Between ∧ t.phase 0 = .poll ∧ t.counter 0 = 0 ∧
    t.ring.cursor 0 < t.ring.stream.length := by
  obtain ⟨s, -, es, -, hrun, hphase, hzero, hunread, -⟩ := run_wake
  exact ⟨_, _, hrun.of_guard.snoc .stopProducer, ⟨rfl, fun _ => rfl⟩, hphase, hzero, hunread⟩

end ShmRings.Threads
