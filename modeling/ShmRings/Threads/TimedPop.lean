import ShmRings.Calls.Touch
import ShmRings.Model.Eventfd
import ShmRings.Model.Notify

/-!
# A timed pop that finds nothing

A consumer in `pop_blocking_timeout` beside a producer in `push_notified`. A pop that gives up has looked
at the ring before its last reading of the clock, and not since. So it reports what was true then: a
message that was published after the look, and has not been signalled yet, is unread when it gives up.

* `TimedWorld`, `TimedOther`; `served`, `moves`, `timedPop`: the consumer of reader `r` beside the others;
* `NoMessage`, `SeenEmpty`; `Vouches`, `TimedInv`; `TimedInv.exchange`, `TimedInv.move`, `TimedInv.run`;
* **`timed_pop_none`**, **`message_missed`**.
-/

set_option autoImplicit false

namespace ShmRings.Timeout

open Transition Request

variable {α : Type}

/-- The file, the eventfd counter, the producer and the clock. `published` counts the messages so far,
and `checked` those there were at the last `try_pop` that found nothing. -/
structure TimedWorld (α : Type) where
  file : RingFile α
  counter : ℕ
  producer : ProducerPc
  clock : ℕ
  published : ℕ
  checked : ℕ

/-- What the others do: the two steps of `push_notified`, moves of other readers, and time that goes by. -/
inductive TimedOther (α : Type)
  | tryPush (value : α)
  | signal (fails : Bool)
  | readers (cursors : ℕ → ℕ)
  | tick (n : ℕ)

variable (p : Profile) (h hc : Handle) (r : ℕ)

/-- The answers to the consumer, which is reader `r` on handle `hc`. A `poll` times out only with no unit
pending. -/
def served : Env (TimedWorld α) Syscall (Syscall.Answer α) := fun w q a w' =>
  match q, a with
  | .clock, (now : ℕ) => now = w.clock ∧ w' = w
  | .tryPop, .ok (some v) => ∃ f, tryPop p hc w.file r = .ok (some v, f) ∧ w' = { w with file := f }
  | .tryPop, .ok none => ∃ f, tryPop p hc w.file r = .ok (none, f) ∧
      w' = { w with file := f, checked := w.published }
  | .tryPop, .error e => tryPop p hc w.file r = .error (.err e) ∧ w' = w
  | .read, .ok n => n = w.counter ∧ w.counter ≠ 0 ∧ w' = { w with counter := 0 }
  | .read, .error .wouldBlock => w.counter = 0 ∧ w' = w
  | .read, .error _ => w' = w
  | .poll _, .ok true => w.counter ≠ 0 ∧ w' = w
  | .poll (some _), .ok false => w.counter = 0 ∧ w' = w
  | .poll none, .ok false => False
  | .poll _, .error _ => w' = w

/-- The steps of the others, with the producer on handle `h`; no other reader moves the cursor of `r`. -/
def moves : TimedWorld α → TimedOther α → TimedWorld α → Prop
  | w, .tryPush value, w' => w.producer = .outside ∧ ∃ pushed f,
      tryPush p h w.file value = .ok (pushed, f) ∧
      w' = if pushed then { w with file := f, producer := .signal, published := w.published + 1 }
        else { w with file := f }
  | w, .signal fails, w' => w.producer = .signal ∧
      w' = { w with counter := (Eventfd.signal fails w.counter).2, producer := .outside }
  | w, .readers cursors, w' => cursors r = w.file.hdr.readIndices r ∧
      w' = { w with file := { w.file with hdr := { w.file.hdr with readIndices := cursors } } }
  | w, .tick n, w' => w' = { w with clock := w.clock + n }

/-- The consumer in a call with `timeout`, beside the others. -/
abbrev timedPop (timeout : ℕ) : System (TimedWorld α × TimedPc α) (Exchange α ⊕ TimedOther α) :=
  beside (served p hc r) (timedCode timeout) (moves p h r)

/-- `write_idx` is a word, and nothing has been counted yet. -/
def TimedWorld.Begins (w : TimedWorld α) : Prop :=
  w.file.hdr.writeIdx < u64Size ∧ w.published = 0 ∧ w.checked = 0

/-- Reader `r` has no message: its `len` is 0. -/
def NoMessage (w : TimedWorld α) : Prop := w.file.hdr.readIndices r = w.file.hdr.writeIdx

/-- Reader `r` has no message at some instant of the run from `x` to `y`. -/
def SeenEmpty (S : System (TimedWorld α × TimedPc α) (Exchange α ⊕ TimedOther α))
    (x : TimedWorld α × TimedPc α) (es : List (Exchange α ⊕ TimedOther α))
    (y : TimedWorld α × TimedPc α) : Prop :=
  ∃ es₁ es₂ z, es = es₁ ++ es₂ ∧ Run S x es₁ z ∧ Run S z es₂ y ∧ NoMessage r z.1

/-! ## What the last look at the ring still says -/

/-- `write_idx` is ahead of the cursor by the messages published since the last look. -/
structure Vouches (w : TimedWorld α) : Prop where
  cursor_lt : w.file.hdr.readIndices r < u64Size
  ahead : w.file.hdr.writeIdx =
    (w.file.hdr.readIndices r + (w.published - w.checked)) % u64Size

/-- Past a `try_pop` that found nothing, and before the next one. -/
def TimedPc.past : TimedPc α → Prop
  | .clock _ | .wait _ _ _ | .done (.ok none) => True
  | _ => False

structure TimedInv (w : TimedWorld α) (pc : TimedPc α) : Prop where
  word : w.file.hdr.writeIdx < u64Size
  le : w.checked ≤ w.published
  vouches : pc.past → Vouches r w

variable {p h hc r} {timeout : ℕ} {w w' : TimedWorld α} {pc pc' : TimedPc α} {e : Exchange α}
  {o : TimedOther α}

theorem Vouches.of_empty (hword : w.file.hdr.writeIdx < u64Size) (hempty : NoMessage r w)
    (hseen : w.checked = w.published) : Vouches r w where
  cursor_lt := Nat.lt_of_le_of_lt (le_of_eq hempty) hword
  ahead := by rw [hempty, hseen, Nat.sub_self, Nat.add_zero, Nat.mod_eq_of_lt hword]

/-- With nothing published since the last look, there is still no message. -/
theorem Vouches.empty (hv : Vouches r w) (heq : w.published = w.checked) : NoMessage r w := by
  unfold NoMessage
  rw [hv.ahead, heq, Nat.sub_self, Nat.add_zero, Nat.mod_eq_of_lt hv.cursor_lt]

theorem wraps_to_self {a n : ℕ} (hn : n < u64Size) (h : a = (a + n) % u64Size) : n = 0 := by
  unfold u64Size at *
  omega

/-- With no message, and fewer than `2 ^ 64` published since the last look, none was. -/
theorem Vouches.of_seen (hv : Vouches r w) (hempty : NoMessage r w) (hle : w.checked ≤ w.published)
    (hlt : w.published < w.checked + u64Size) : w.published = w.checked := by
  have hsame := hempty.trans hv.ahead
  have hnone := wraps_to_self (by omega) hsame
  exact Nat.le_antisymm (Nat.le_of_sub_eq_zero hnone) hle

/-- A step that leaves the file and the counts alone, at a program point that claims no more. -/
theorem TimedInv.frame (hi : TimedInv r w pc) (hfile : w'.file = w.file)
    (hpublished : w'.published = w.published) (hchecked : w'.checked = w.checked)
    (hpast : pc'.past → pc.past) : TimedInv r w' pc' where
  word := hfile ▸ hi.word
  le := by
    rw [hpublished, hchecked]
    exact hi.le
  vouches hp := by
    obtain ⟨hlt, hahead⟩ := hi.vouches (hpast hp)
    constructor
    · rwa [hfile]
    · rwa [hfile, hpublished, hchecked]

/-- An exchange in `wait_timeout` leaves the file and the counts alone. -/
theorem served_wait {d : Option ℕ} {pc pc' : WaitPc} (hturn : WaitTurn d pc e pc')
    (henv : served p hc r w e.1 e.2 w') :
    w'.file = w.file ∧ w'.published = w.published ∧ w'.checked = w.checked := by
  cases hturn with
  | drained =>
      obtain ⟨-, -, rfl⟩ := henv
      exact ⟨rfl, rfl, rfl⟩
  | empty =>
      obtain ⟨-, rfl⟩ := henv
      exact ⟨rfl, rfl, rfl⟩
  | ready =>
      obtain ⟨-, rfl⟩ := henv
      exact ⟨rfl, rfl, rfl⟩
  | @readFailed err hne =>
      cases err with
      | wouldBlock => exact absurd rfl hne
      | interrupted | other =>
          cases henv
          exact ⟨rfl, rfl, rfl⟩
  | interrupted =>
      cases d <;> cases henv <;> exact ⟨rfl, rfl, rfl⟩
  | pollFailed =>
      cases d <;> cases henv <;> exact ⟨rfl, rfl, rfl⟩
  | timedOut =>
      cases d with
      | none => exact henv.elim
      | some ms =>
          obtain ⟨-, rfl⟩ := henv
          exact ⟨rfl, rfl, rfl⟩

/-- **An exchange of the consumer.** -/
theorem TimedInv.exchange (hi : TimedInv r w pc) (hturn : TimedTurn timeout pc e pc')
    (henv : served p hc r w e.1 e.2 w') : TimedInv r w' pc' := by
  cases hturn with
  | begins | overflows =>
      obtain ⟨-, rfl⟩ := henv
      exact hi.frame rfl rfl rfl False.elim
  | popped v =>
      obtain ⟨f, hpop, rfl⟩ := henv
      obtain ⟨hw, -, -⟩ := tryPop_words hpop
      exact ⟨hw ▸ hi.word, hi.le, False.elim⟩
  | empty =>
      obtain ⟨f, hpop, rfl⟩ := henv
      obtain ⟨hw, -, hempty⟩ := tryPop_words hpop
      have hword : f.hdr.writeIdx < u64Size := hw ▸ hi.word
      exact ⟨hword, le_rfl, fun _ => .of_empty hword ((hempty rfl).trans hw.symm) rfl⟩
  | popFailed =>
      obtain ⟨-, rfl⟩ := henv
      exact hi.frame rfl rfl rfl False.elim
  | reached | parks =>
      obtain ⟨-, rfl⟩ := henv
      exact hi.frame rfl rfl rfl fun _ => trivial
  | waits hwait =>
      obtain ⟨hfile, hpublished, hchecked⟩ := served_wait hwait henv
      exact hi.frame hfile hpublished hchecked fun _ => trivial

/-- **A step of the others.** -/
theorem TimedInv.move (hi : TimedInv r w pc) (hmove : moves p h r w o w') : TimedInv r w' pc := by
  cases o with
  | tryPush value =>
      obtain ⟨-, pushed, f, hpush, rfl⟩ := hmove
      have hf := tryPush_published hpush
      cases pushed with
      | false =>
          cases hf
          exact hi
      | true =>
          cases hf
          refine ⟨wrappingAdd_lt _ _, Nat.le_succ_of_le hi.le, fun hpast => ?_⟩
          obtain ⟨hlt, hahead⟩ := hi.vouches hpast
          refine ⟨hlt, ?_⟩
          change wrappingAdd w.file.hdr.writeIdx 1 =
            (w.file.hdr.readIndices r + (w.published + 1 - w.checked)) % u64Size
          rw [hahead, wrappingAdd_mod, Nat.sub_add_comm hi.le, Nat.add_assoc]
  | signal fails =>
      obtain ⟨-, rfl⟩ := hmove
      exact hi.frame rfl rfl rfl id
  | readers cursors =>
      obtain ⟨hcursor, rfl⟩ := hmove
      refine ⟨hi.word, hi.le, fun hpast => ?_⟩
      obtain ⟨hlt, hahead⟩ := hi.vouches hpast
      rw [← hcursor] at hlt hahead
      exact ⟨hlt, hahead⟩
  | tick n =>
      cases hmove
      exact hi.frame rfl rfl rfl id

theorem TimedInv.run {x y : TimedWorld α × TimedPc α} {es : List (Exchange α ⊕ TimedOther α)}
    (hi : TimedInv r x.1 x.2) (hrun : Run (timedPop p h hc r timeout) x es y) : TimedInv r y.1 y.2 := by
  induction hrun with
  | nil => exact hi
  | @snoc es y e z _ hst ih =>
      cases e with
      | inl e =>
          obtain ⟨hturn, henv⟩ := timed_turn hst
          exact ih.exchange hturn henv
      | inr o =>
          obtain ⟨hmove, hpc⟩ := hst
          rw [hpc]
          exact ih.move hmove

theorem TimedInv.of_begins (hbegins : w.Begins) : TimedInv r w (.start : TimedPc α) where
  word := hbegins.1
  le := le_of_eq (hbegins.2.2.trans hbegins.2.1.symm)
  vouches := False.elim

/-- Once the consumer has stopped only the others move: they look at nothing, and publish. -/
theorem stopped_run {x y : TimedWorld α × TimedPc α} {es : List (Exchange α ⊕ TimedOther α)}
    (hstop : x.2 = .done (.ok none)) (hrun : Run (timedPop p h hc r timeout) x es y) :
    y.2 = .done (.ok none) ∧ y.1.checked = x.1.checked ∧ x.1.published ≤ y.1.published := by
  induction hrun with
  | nil => exact ⟨hstop, rfl, le_rfl⟩
  | @snoc es y e z _ hst ih =>
      obtain ⟨hpc, hchecked, hpublished⟩ := ih
      cases e with
      | inl e =>
          have hcode : timedCode timeout y.2 = .stop := by rw [hpc]; rfl
          exact absurd hcode (Turn.not_stop hst)
      | inr o =>
          obtain ⟨hmove, hnext⟩ := hst
          refine ⟨hnext.trans hpc, ?_⟩
          cases o with
          | tryPush value =>
              obtain ⟨-, pushed, f, -, hz⟩ := hmove
              rw [hz]
              cases pushed
              · exact ⟨hchecked, hpublished⟩
              · exact ⟨hchecked, Nat.le_succ_of_le hpublished⟩
          | signal | readers =>
              obtain ⟨-, hz⟩ := hmove
              rw [hz]
              exact ⟨hchecked, hpublished⟩
          | tick n =>
              rw [show z.1 = _ from hmove]
              exact ⟨hchecked, hpublished⟩

/-- The exchange that gives up, with the clock at the deadline or after a `poll` that timed out, changes
nothing. -/
theorem gives_up (hturn : TimedTurn timeout pc e (.done (.ok none))) (henv : served p hc r w e.1 e.2 w') :
    w' = w := by
  generalize hx : TimedPc.done (.ok none) = x at hturn
  cases hturn with
  | reached => exact henv.2
  | waits hwait =>
      cases hwait with
      | timedOut => exact henv.2
      | drained | empty | readFailed | interrupted | pollFailed | ready => cases hx
  | begins | overflows | popped | empty | popFailed | parks => cases hx

/-- **A timed pop that gives up reports what its last look at the ring found.** It is right when nothing
has been published since that look, and (short of `2 ^ 64` messages, which bring `write_idx` back) only
then: `w` is the state in which it finds the deadline reached or its `poll` times out, and `y` any later
one, up to its return. -/
theorem timed_pop_none {w₀ w₁ : TimedWorld α} {es es' : List (Exchange α ⊕ TimedOther α)}
    {y : TimedWorld α × TimedPc α} (hbegins : w₀.Begins)
    (hrun : Run (timedPop p h hc r timeout) (w₀, .start) es (w, pc))
    (hgives : (timedPop p h hc r timeout).step (w, pc) (.inl e) (w₁, .done (.ok none)))
    (hrest : Run (timedPop p h hc r timeout) (w₁, .done (.ok none)) es' y) :
    (w.published = w.checked →
      SeenEmpty r (timedPop p h hc r timeout) (w₁, .done (.ok none)) es' y) ∧
    (y.1.published < w.checked + u64Size →
      SeenEmpty r (timedPop p h hc r timeout) (w₁, .done (.ok none)) es' y →
        w.published = w.checked) := by
  have hinv := (TimedInv.of_begins hbegins).run (hrun.snoc hgives)
  obtain ⟨hturn, henv⟩ := timed_turn hgives
  obtain rfl := gives_up hturn henv
  constructor
  · intro hnone
    exact ⟨[], es', _, rfl, .nil, hrest, (hinv.vouches trivial).empty hnone⟩
  · rintro hlt ⟨es₁, es₂, z, rfl, hz, hy, hempty⟩
    obtain ⟨hstop, hchecked, hsince⟩ :
        z.2 = .done (.ok none) ∧ z.1.checked = w₁.checked ∧ w₁.published ≤ z.1.published :=
      stopped_run rfl hz
    obtain ⟨-, -, hlater⟩ := stopped_run hstop hy
    have hinv' := hinv.run hz
    have hv : Vouches r z.1 := hinv'.vouches (hstop ▸ trivial)
    have hbound : z.1.published < z.1.checked + u64Size := by
      rw [hchecked]
      exact hlater.trans_lt hlt
    have hsame := hv.of_seen hempty hinv'.le hbound
    rw [hchecked] at hsame
    exact Nat.le_antisymm (hsince.trans (le_of_eq hsame)) hinv.le

/-- An empty ring of two slots and one reader, with nothing under way. -/
def quiet : TimedWorld ℕ where
  file := ⟨⟨magic, version, 1, 0, fun _ => 0, 1, 0⟩, fun _ => 0⟩
  counter := 0
  producer := .outside
  clock := 0
  published := 0
  checked := 0

/-- 7 was published and popped, and is not signalled yet. -/
def taken : TimedWorld ℕ :=
  { quiet with file := (quiet.file.published (.fresh 2) 7).advance 0 1, producer := .signal }

/-- The signal was taken, and 50 ms went by. -/
def drained : TimedWorld ℕ := { taken with producer := .outside, clock := 50000000 }

/-- And 9 was published. -/
def unseen : TimedWorld ℕ :=
  { drained with file := drained.file.published (.fresh 2) 9, producer := .signal, published := 1 }

/-- A pop parks, takes the unit of a message that is gone, finds nothing and parks again. -/
theorem taken_parks : Run (timedPop checked (.fresh 2) (.fresh 2) 0 50000000) (taken, .start)
    [.inl ⟨.clock, (0 : ℕ)⟩, .inl ⟨.tryPop, .ok none⟩, .inl ⟨.clock, (0 : ℕ)⟩, .inr (.signal false),
      .inl ⟨.read, .ok 1⟩, .inl ⟨.tryPop, .ok none⟩, .inl ⟨.clock, (0 : ℕ)⟩, .inl ⟨.read, .error .wouldBlock⟩]
    ({ drained with clock := 0 }, .wait 50000000 50000000 .poll) := by
  let S : System (TimedWorld ℕ × TimedPc ℕ) (Exchange ℕ ⊕ TimedOther ℕ) :=
    timedPop checked (.fresh 2) (.fresh 2) 0 50000000
  have h₁ : S.step (taken, .start) (.inl ⟨.clock, (0 : ℕ)⟩) (taken, .check 50000000) :=
    ⟨_, rfl, (if_pos (by decide)).symm, rfl, rfl⟩
  have h₂ : S.step (taken, .check 50000000) (.inl ⟨.tryPop, .ok none⟩) (taken, .clock 50000000) :=
    ⟨_, rfl, rfl, taken.file, rfl, rfl⟩
  have h₃ : S.step (taken, .clock 50000000) (.inl ⟨.clock, (0 : ℕ)⟩)
      (taken, .wait 50000000 50000000 .tryWait) := ⟨_, rfl, (if_neg (by decide)).symm, rfl, rfl⟩
  have h₄ : S.step (taken, .wait 50000000 50000000 .tryWait) (.inr (.signal false))
      ({ drained with counter := 1, clock := 0 }, .wait 50000000 50000000 .tryWait) := ⟨⟨rfl, rfl⟩, rfl⟩
  have h₅ : S.step ({ drained with counter := 1, clock := 0 }, .wait 50000000 50000000 .tryWait)
      (.inl ⟨.read, .ok 1⟩) ({ drained with clock := 0 }, .check 50000000) :=
    ⟨_, rfl, rfl, rfl, Nat.one_ne_zero, rfl⟩
  have h₆ : S.step ({ drained with clock := 0 }, .check 50000000) (.inl ⟨.tryPop, .ok none⟩)
      ({ drained with clock := 0 }, .clock 50000000) := ⟨_, rfl, rfl, drained.file, rfl, rfl⟩
  have h₇ : S.step ({ drained with clock := 0 }, .clock 50000000) (.inl ⟨.clock, (0 : ℕ)⟩)
      ({ drained with clock := 0 }, .wait 50000000 50000000 .tryWait) :=
    ⟨_, rfl, (if_neg (by decide)).symm, rfl, rfl⟩
  have h₈ : S.step ({ drained with clock := 0 }, .wait 50000000 50000000 .tryWait)
      (.inl ⟨.read, .error .wouldBlock⟩) ({ drained with clock := 0 }, .wait 50000000 50000000 .poll) :=
    ⟨_, rfl, rfl, rfl, rfl⟩
  exact (((((((Run.single h₁).snoc h₂).snoc h₃).snoc h₄).snoc h₅).snoc h₆).snoc h₇).snoc h₈

/-- The `poll` times out. If 9 is published after that, the reader had no message when the pop gave up; if it was
published before, the reader had one from then on. -/
theorem timed_pop_none_drained :
    tryPop checked (.fresh 2) (quiet.file.published (.fresh 2) 7) 0 = .ok (some 7, taken.file) ∧
    SeenEmpty 0 (timedPop checked (.fresh 2) (.fresh 2) 0 50000000) (drained, .done (.ok none))
      [.inr (.tryPush 9)] (unseen, .done (.ok none)) ∧
    ¬ SeenEmpty 0 (timedPop checked (.fresh 2) (.fresh 2) 0 50000000) (unseen, .done (.ok none)) []
      (unseen, .done (.ok none)) := by
  let S : System (TimedWorld ℕ × TimedPc ℕ) (Exchange ℕ ⊕ TimedOther ℕ) :=
    timedPop checked (.fresh 2) (.fresh 2) 0 50000000
  have hpush : ∀ {w : TimedWorld ℕ} {pc : TimedPc ℕ}, w.file = drained.file → w.producer = .outside →
      S.step (w, pc) (.inr (.tryPush 9))
        ({ w with file := unseen.file, producer := .signal, published := w.published + 1 }, pc) :=
    fun hfile hout => ⟨⟨hout, true, unseen.file, by rw [hfile]; rfl, rfl⟩, rfl⟩
  have htick : ∀ {w : TimedWorld ℕ} {pc : TimedPc ℕ}, S.step (w, pc) (.inr (.tick 50000000))
      ({ w with clock := w.clock + 50000000 }, pc) := ⟨rfl, rfl⟩
  have hgives : ∀ {w : TimedWorld ℕ}, w.counter = 0 → S.step (w, .wait 50000000 50000000 .poll)
      (.inl ⟨.poll (some 50), .ok false⟩) (w, .done (.ok none)) := fun hzero => ⟨_, rfl, rfl, hzero, rfl⟩
  refine ⟨rfl, ?_, fun hseen => ?_⟩
  · exact (timed_pop_none ⟨by decide, rfl, rfl⟩ (taken_parks.snoc htick) (hgives rfl)
      (Run.single (hpush rfl rfl))).1 rfl
  · have hlate := (timed_pop_none ⟨by decide, rfl, rfl⟩ ((taken_parks.snoc (hpush rfl rfl)).snoc htick)
      (hgives rfl) .nil).2 (by decide) hseen
    exact Nat.one_ne_zero hlate

/-- A call on the empty ring, up to its second reading of the clock. -/
theorem quiet_check {timeout : ℕ} (hle : 0 + timeout ≤ instantMax) :
    Run (timedPop checked (.fresh 2) (.fresh 2) 0 timeout) (quiet, .start)
      [.inl ⟨.clock, (0 : ℕ)⟩, .inl ⟨.tryPop, .ok none⟩] (quiet, .clock (0 + timeout)) := by
  have hclock : (timedPop checked (.fresh 2) (.fresh 2) 0 timeout).step (quiet, .start)
      (.inl ⟨.clock, (0 : ℕ)⟩) (quiet, .check (0 + timeout)) := ⟨_, rfl, (if_pos hle).symm, rfl, rfl⟩
  have hempty : (timedPop checked (.fresh 2) (.fresh 2) 0 timeout).step (quiet, .check (0 + timeout))
      (.inl ⟨.tryPop, .ok none⟩) (quiet, .clock (0 + timeout)) := ⟨_, rfl, rfl, quiet.file, rfl, rfl⟩
  exact (Run.single hclock).snoc hempty

/-- The ring after 50 ms, with 7 published and not signalled. -/
def unsignalled : TimedWorld ℕ :=
  { quiet with
    file := quiet.file.published (.fresh 2) 7
    producer := .signal
    clock := 50000000
    published := 1 }

/-- A producer that is stopped between its publish and its signal: the `poll` with 50 ms times out, and
the pop returns `None` while 7 is unread. -/
theorem message_missed : ∃ es pc e,
    Run (timedPop checked (.fresh 2) (.fresh 2) 0 50000000) (quiet, .start) es (unsignalled, pc) ∧
    (timedPop checked (.fresh 2) (.fresh 2) 0 50000000).step (unsignalled, pc) (.inl e)
      (unsignalled, .done (.ok none)) ∧
    ¬ SeenEmpty 0 (timedPop checked (.fresh 2) (.fresh 2) 0 50000000)
      (unsignalled, .done (.ok none)) [] (unsignalled, .done (.ok none)) := by
  have hparks : (timedPop checked (.fresh 2) (.fresh 2) 0 50000000).step
      (quiet, .clock (0 + 50000000)) (.inl ⟨.clock, (0 : ℕ)⟩)
      (quiet, .wait 50000000 50000000 .tryWait) := ⟨_, rfl, (if_neg (by decide)).symm, rfl, rfl⟩
  have hread : (timedPop checked (.fresh 2) (.fresh 2) 0 50000000).step
      (quiet, .wait 50000000 50000000 .tryWait) (.inl ⟨.read, .error .wouldBlock⟩)
      (quiet, .wait 50000000 50000000 .poll) := ⟨_, rfl, rfl, rfl, rfl⟩
  have hpush : (timedPop checked (.fresh 2) (.fresh 2) 0 50000000).step
      (quiet, .wait 50000000 50000000 .poll) (.inr (.tryPush 7))
      ({ unsignalled with clock := 0 }, .wait 50000000 50000000 .poll) :=
    ⟨⟨rfl, true, quiet.file.published (.fresh 2) 7, rfl, rfl⟩, rfl⟩
  have htick : (timedPop checked (.fresh 2) (.fresh 2) 0 50000000).step
      ({ unsignalled with clock := 0 }, .wait 50000000 50000000 .poll) (.inr (.tick 50000000))
      (unsignalled, .wait 50000000 50000000 .poll) := ⟨rfl, rfl⟩
  have hgives : (timedPop checked (.fresh 2) (.fresh 2) 0 50000000).step
      (unsignalled, .wait 50000000 50000000 .poll) (.inl ⟨.poll (some 50), .ok false⟩)
      (unsignalled, .done (.ok none)) := ⟨_, rfl, rfl, rfl, rfl⟩
  refine ⟨_, _, _, ((((quiet_check (by decide)).snoc hparks).snoc hread).snoc hpush).snoc htick, hgives, ?_⟩
  rintro ⟨es₁, es₂, z, hnil, hz, -, hempty⟩
  obtain ⟨rfl, rfl⟩ := List.append_eq_nil_iff.mp hnil.symm
  rw [hz.of_nil] at hempty
  exact Nat.zero_ne_one hempty

end ShmRings.Timeout
