import ShmRings.Threads.RaceFree

/-!
# Peeks and the pointers they return

`peek` returns a pointer to the slot at the reader's cursor. The slot keeps its message, and may be read
through the pointer any number of times, until the reader pops it: on release/acquire memory, with stale
loads and parties that stop anywhere. To everybody else a reader that holds a pointer is a reader that is
about to read the slot in a pop.

* `PeekPc`, `peekCode`, `peekRead`; `ReaderPc`, `ReaderPc.asPop`, `ReaderPc.after`;
* `PeekingState`, `PeekingState.twin`, `PeekingStep`, `peeking`;
* `Traced.reset`, `Traced.found`; **`Traced.peeking`**: every step keeps the invariant of the twin;
* `Finds`, `PeekedOk`, `PeekedOk.step`; **`peek_pinned`**.
-/

set_option autoImplicit false

namespace ShmRings.Threads

open Coherent Transition Release

variable {α : Type} {cfg : Config} {stops : Prop} {r q : ℕ}

/-- Where a call of `peek` is. A pointer is given by the index of its slot. -/
inductive PeekPc
  | checkReader
  | loadWriteIdx
  | loadReadIdx (w : ℕ)
  | done (res : Except ShmRingError (Option ℕ))

/-- The access `peek` of reader `r` makes at each program point, an acquire load. -/
def peekCode (r : ℕ) : PeekPc → Instr Loc α PeekPc
  | .checkReader => .load .numReaders fun n =>
      if r ≥ n then .done (.error (.invalidReaderId r (wrappingSub n 1))) else .loadWriteIdx
  | .loadWriteIdx => .load .writeIdx fun w => .loadReadIdx w
  | .loadReadIdx w => .load (.readIdx r) fun c => if c = w then .done (.ok none) else .done (.ok (some c))
  | .done _ => .halt

/-- Where a reader is: in `try_pop` or between two calls, in `peek`, or between two calls with the pointer
that `peek` returned. -/
inductive ReaderPc (α : Type)
  | pop (pc : PopPc α)
  | peek (pc : PeekPc)
  | holds (c : ℕ)

/-- A read through the pointer. -/
def peekRead (cfg : Config) (c : ℕ) : Instr Loc α (ReaderPc α) := .get (cfg.slot c) fun _ => .holds c

namespace ReaderPc

/-- No call is running. -/
def rests : ReaderPc α → Bool
  | .pop .idle | .holds _ => true
  | _ => false

/-- Where the return of a `peek` leads. -/
def returned : Except ShmRingError (Option ℕ) → ReaderPc α
  | .ok (some c) => .holds c
  | _ => .pop .idle

/-- The point of a pop that has made the same accesses. -/
def asPop : ReaderPc α → PopPc α
  | .pop pc => pc
  | .peek .checkReader => .checkReader
  | .peek .loadWriteIdx => .loadWriteIdx
  | .peek (.loadReadIdx w) => .loadReadIdx w
  | .peek (.done (.ok (some c))) | .holds c => .readSlot c
  | .peek (.done (.ok none)) => .done (.ok none)
  | .peek (.done (.error e)) => .done (.error e)

/-- The message peeked at and not popped, after the next step. -/
def after : ReaderPc α → Option ℕ → Option ℕ
  | .pop (.advance _ _), _ => none
  | .peek (.done (.ok (some c))), _ => some c
  | _, seen => seen

end ReaderPc

/-- The mapped file, where every party is and what it knows, the published messages, and for each reader the
message it has peeked at and not popped. -/
structure PeekingState (α : Type) where
  mem : Tracked Loc Party α
  push : PushPc α
  reader : ℕ → ReaderPc α
  know : Party → Knowledge Loc Party
  stream : List α
  peeked : ℕ → Option ℕ

namespace PeekingState

/-- A fresh ring with arbitrary slot contents. -/
def fresh (cfg : Config) (data : ℕ → α) : PeekingState α where
  mem := ⟨⟨freshWord cfg, data⟩, fun _ _ => ⊥, fun _ _ => 0, fun _ => 0⟩
  push := .idle
  reader _ := .pop .idle
  know _ := ⊥
  stream := []
  peeked _ := none

variable (s : PeekingState α)

/-- The state in which every peek is a pop. -/
def twin : OrderedState α where
  mem := s.mem
  push := s.push
  pop r := (s.reader r).asPop
  know := s.know
  stream := s.stream

/-- The current cursor of reader `r`. -/
def cursor (r : ℕ) : ℕ := s.mem.now (.readIdx r)

/-- After an access of the producer. -/
def pushStep (m : Tracked Loc Party α) (k : Knowledge Loc Party) (pc : PushPc α) : PeekingState α :=
  { s with
    mem := m
    push := pc
    know := Function.update s.know .producer k
    stream := s.stream ++ s.push.publishes }

/-- After a step of reader `r`. -/
def readerStep (m : Tracked Loc Party α) (k : Knowledge Loc Party) (r : ℕ) (pc : ReaderPc α) :
    PeekingState α :=
  { s with
    mem := m
    reader := Function.update s.reader r pc
    know := Function.update s.know (.reader r) k
    peeked := Function.update s.peeked r ((s.reader r).after (s.peeked r)) }

variable {s} {m : Tracked Loc Party α} {k : Knowledge Loc Party} {pc : ReaderPc α}

@[simp] theorem readerStep_reader : (s.readerStep m k r pc).reader r = pc := by simp [readerStep]
@[simp] theorem readerStep_know : (s.readerStep m k r pc).know (.reader r) = k := by simp [readerStep]
@[simp] theorem readerStep_peeked :
    (s.readerStep m k r pc).peeked r = (s.reader r).after (s.peeked r) := by simp [readerStep]
@[simp] theorem pushStep_know_reader {pc : PushPc α} :
    (s.pushStep m k pc).know (.reader r) = s.know (.reader r) := by simp [pushStep]
theorem readerStep_ne (s : PeekingState α) (m : Tracked Loc Party α) (k : Knowledge Loc Party) (pc : ReaderPc α)
    (h : q ≠ r) : (s.readerStep m k r pc).reader q = s.reader q ∧
    (s.readerStep m k r pc).know (.reader q) = s.know (.reader q) ∧
    (s.readerStep m k r pc).peeked q = s.peeked q := by simp [readerStep, h]

/-- **A step of a reader is a step of its pop in the twin.** -/
theorem twin_readerStep : (s.readerStep m k r pc).twin = s.twin.popStep m k r pc.asPop := by
  have hpop : (fun q => (Function.update s.reader r pc q).asPop) =
      Function.update (fun q => (s.reader q).asPop) r pc.asPop := by
    funext q
    by_cases hq : q = r
    · subst hq
      rw [Function.update_self, Function.update_self]
    · rw [Function.update_of_ne hq, Function.update_of_ne hq]
  simp only [twin, readerStep, OrderedState.popStep, hpop]

end PeekingState

/-- One step, by the party that moves; with `stops`, a party may stop anywhere, and its successor starts with all
knowledge, as in `OrderedStep`. -/
inductive PeekingStep (cfg : Config) (stops : Prop) : PeekingState α → Party → PeekingState α → Prop
  | callPush {s} (value : α) : s.push = .idle →
      PeekingStep cfg stops s .producer { s with push := .loadWriteIdx value }
  | push {s m k pc} :
      Ordered s.mem (s.know .producer) .producer (pushOrder s.push) (pushCode cfg s.push) m k pc →
      PeekingStep cfg stops s .producer (s.pushStep m k pc)
  | retPush {s b} : s.push = .done b → PeekingStep cfg stops s .producer { s with push := .idle }
  | callPop {s r} : r < cfg.readers → (s.reader r).rests = true →
      PeekingStep cfg stops s (.reader r) (s.readerStep s.mem (s.know (.reader r)) r (.pop .checkReader))
  | pop {s r pc₀ m k pc} : s.reader r = .pop pc₀ →
      Ordered s.mem (s.know (.reader r)) (.reader r) (popOrder pc₀) (popCode cfg r pc₀) m k pc →
      PeekingStep cfg stops s (.reader r) (s.readerStep m k r (.pop pc))
  | retPop {s r res} : s.reader r = .pop (.done res) →
      PeekingStep cfg stops s (.reader r) (s.readerStep s.mem (s.know (.reader r)) r (.pop .idle))
  | callPeek {s r} : r < cfg.readers → (s.reader r).rests = true →
      PeekingStep cfg stops s (.reader r) (s.readerStep s.mem (s.know (.reader r)) r (.peek .checkReader))
  | peek {s r pc₀ m k pc} : s.reader r = .peek pc₀ →
      Ordered s.mem (s.know (.reader r)) (.reader r) .acquire (peekCode r pc₀) m k pc →
      PeekingStep cfg stops s (.reader r) (s.readerStep m k r (.peek pc))
  | retPeek {s r res} : s.reader r = .peek (.done res) →
      PeekingStep cfg stops s (.reader r) (s.readerStep s.mem (s.know (.reader r)) r (.returned res))
  | read {s r c m k pc} : s.reader r = .holds c →
      Ordered s.mem (s.know (.reader r)) (.reader r) .relaxed (peekRead cfg c) m k pc →
      PeekingStep cfg stops s (.reader r) (s.readerStep m k r pc)
  | replacePush {s} : stops → PeekingStep cfg stops s .producer
      { s with push := .idle, know := Function.update s.know .producer s.mem.all }
  | replaceReader {s} (r : ℕ) : stops →
      PeekingStep cfg stops s (.reader r) (s.readerStep s.mem s.mem.all r (.pop .idle))

/-- The system, from a fresh ring. -/
def peeking (cfg : Config) (stops : Prop) : System (PeekingState α) Party where
  init s := ∃ data, s = PeekingState.fresh cfg data
  step := PeekingStep cfg stops

/-! ## The twin -/

section Twin

variable {s : OrderedState α} {pc : PopPc α}

/-- A reader may go back to a point that asks for no more than the one where it is. -/
theorem Traced.reset (h : Traced cfg s) (pc : PopPc α) (hr : r < cfg.readers)
    (hknows : PopKnows s.mem (s.know (.reader r)) s.stream.length pc)
    (hok : ∀ c seen (xs : List α), PopOk c seen xs (s.pop r) → PopOk c seen xs pc) :
    Traced cfg (s.popStep s.mem (s.know (.reader r)) r pc) := by
  obtain ⟨hs, t, hf, hi⟩ := h
  have hknow : Function.update s.know (.reader r) (s.know (.reader r)) = s.know := Function.update_eq_self _ _
  have hstep : s.popStep s.mem (s.know (.reader r)) r pc = { s with pop := Function.update s.pop r pc } := by
    simp only [OrderedState.popStep, hknow]
  rw [hstep]
  refine ⟨⟨hs.sound, hs.known, hs.silent, ⟨hs.write.own, hs.write.published, hs.write.push⟩,
    fun q hq => ⟨(hs.read q hq).own, (hs.read q hq).released, ?_⟩⟩,
    { t with pop := Function.update t.pop r pc }, ⟨hf.mem, hf.push, ?_, hf.stream, hf.view⟩,
    ⟨hi.numReaders, hi.gate, fun q hq => ?_, hi.writeIdx, hi.own, hi.push, fun q hq => ?_⟩⟩
  · dsimp only
    by_cases hqr : q = r
    · subst hqr
      rw [Function.update_self]
      exact hknows
    · rw [Function.update_of_ne hqr]
      exact (hs.read q hq).pop
  · dsimp only
    rw [hf.pop]
  · have hqr : q ≠ r := by omega
    simp only [Function.update_of_ne hqr]
    exact hi.idle q hq
  · refine (hi.reader q hq).frame rfl rfl rfl rfl ?_
    dsimp only
    by_cases hqr : q = r
    · subst hqr
      rw [Function.update_self]
      exact hok _ _ _ (hf.pop ▸ (hi.reader q hq).pop)
    · rw [Function.update_of_ne hqr]
      exact (hi.reader q hq).pop

/-- So may one that has just moved. -/
theorem Traced.reset_step {m : Tracked Loc Party α} {k : Knowledge Loc Party} (h : Traced cfg (s.popStep m k r pc))
    (pc' : PopPc α) (hr : r < cfg.readers) (hknows : PopKnows m k s.stream.length pc')
    (hok : ∀ c seen (xs : List α), PopOk c seen xs pc → PopOk c seen xs pc') :
    Traced cfg (s.popStep m k r pc') := by
  have hpop : (s.popStep m k r pc).pop r = pc := OrderedState.popStep_pop
  have hknow : (s.popStep m k r pc).know (.reader r) = k := OrderedState.popStep_know
  have hreset := h.reset pc' hr (by rw [hknow]; exact hknows) (by rw [hpop]; exact hok)
  rwa [hknow, OrderedState.popStep, OrderedState.popStep, Function.update_idem, Function.update_idem] at hreset

/-- **What a reader before its slot read knows.** -/
theorem Traced.found {c : ℕ} (h : Traced cfg s) (hr : r < cfg.readers) (hpc : s.pop r = .readSlot c) :
    c = s.cursor r ∧ c < s.know (.reader r) (.word .writeIdx) ∧
      s.stream[c]? = some (s.mem.data (cfg.slot c)) := by
  obtain ⟨-, t, hf, hi⟩ := h
  have hreader := hi.reader r (honest_stale hr)
  have hpop := hreader.pop
  rw [hf.pop, hpc] at hpop
  obtain ⟨rfl, hlt⟩ := hpop
  have hlen : t.cursor r < t.stream.length := hlt.trans_le hreader.seen_le
  refine ⟨hf.cursor r, hlt.trans_le (hf.view (.reader r) .writeIdx), ?_⟩
  have hholds := hreader.holds _ _ le_rfl (List.getElem?_eq_getElem hlen)
  rw [hf.mem] at hholds
  rw [← hf.stream, List.getElem?_eq_getElem hlen, cfg.slot_eq_mod]
  exact congrArg some hholds.symm

/-- Only participating readers are in a call. -/
theorem Traced.inside (h : Traced cfg s) (hpc : s.pop r = pc) (hne : pc ≠ .idle) : r < cfg.readers :=
  Nat.not_le.mp fun hge => hne (hpc ▸ h.coheres.idle r hge)

end Twin

section Step

variable {s s' : PeekingState α} {p : Party} {m : Tracked Loc Party α} {k : Knowledge Loc Party}

theorem length_peeking_le (hst : PeekingStep cfg stops s p s') : s.stream.length ≤ s'.stream.length := by
  cases hst with
  | push _ => simp [PeekingState.pushStep]
  | _ => exact le_rfl

/-- An access of a peek. -/
theorem Traced.peek {pc₀ pc : PeekPc} (h : Traced cfg s.twin) (hpc : s.reader r = .peek pc₀)
    (hacc : Ordered s.mem (s.know (.reader r)) (.reader r) .acquire (peekCode r pc₀) m k pc)
    (hlen : s.stream.length < u64Size) : Traced cfg (s.twin.popStep m k r (ReaderPc.peek pc).asPop) := by
  have hpop : s.twin.pop r = (ReaderPc.peek pc₀).asPop := congrArg ReaderPc.asPop hpc
  -- the same load, made by the pop of the twin
  have hstep : ∀ {m' k' pc'}, Ordered s.mem (s.know (.reader r)) (.reader r)
      (popOrder (ReaderPc.peek pc₀ : ReaderPc α).asPop) (popCode cfg r (ReaderPc.peek pc₀).asPop) m' k' pc' →
      Traced cfg (s.twin.popStep m' k' r pc') := by
    intro m' k' pc' hacc'
    rw [← hpop] at hacc'
    exact h.step (.pop hacc' : OrderedStep cfg True s.twin none _) hlen
  cases pc₀ with
  | checkReader =>
      cases hacc with
      | @load _ _ i n hs =>
          have htwin := hstep (.load hs)
          dsimp only at htwin ⊢
          split_ifs at htwin ⊢ with hge
          · exact htwin
          · have hr : r < cfg.readers := h.inside hpop (by rintro ⟨⟩)
            exact htwin.reset_step .loadWriteIdx hr trivial fun _ _ _ _ => trivial
  | loadWriteIdx =>
      cases hacc with
      | load hs => exact hstep (.load hs)
  | loadReadIdx w =>
      cases hacc with
      | @load _ _ i c hs =>
          have htwin := hstep (.load hs)
          dsimp only at htwin ⊢
          split_ifs at htwin ⊢ with heq
          · exact htwin
          · exact htwin
  | done res => cases hacc

/-- A read through the pointer. -/
theorem Traced.read {c : ℕ} {pc : ReaderPc α} (h : Traced cfg s.twin) (hpc : s.reader r = .holds c)
    (hacc : Ordered s.mem (s.know (.reader r)) (.reader r) .relaxed (peekRead cfg c) m k pc)
    (hlen : s.stream.length < u64Size) : Traced cfg (s.twin.popStep m k r pc.asPop) := by
  have hpop : s.twin.pop r = .readSlot c := congrArg ReaderPc.asPop hpc
  have hr : r < cfg.readers := h.inside hpop (by rintro ⟨⟩)
  have hknows := (h.1.read r hr).pop
  rw [hpop] at hknows
  obtain ⟨-, hgrow, -⟩ := hacc.known h.1.sound (h.1.known (.reader r))
  cases hacc
  have hget : Ordered s.mem (s.know (.reader r)) (.reader r) (popOrder (s.twin.pop r))
      (popCode cfg r (s.twin.pop r)) (s.mem.get (.reader r) (cfg.slot c))
      (Function.update (s.know (.reader r)) (.read (.reader r) (cfg.slot c))
        (s.mem.reads (.reader r) (cfg.slot c) + 1)) (.advance c (s.mem.data (cfg.slot c))) := by
    rw [hpop]
    exact .get
  have htwin := h.step (.pop hget : OrderedStep cfg True s.twin none _) hlen
  exact htwin.reset_step (.readSlot c) hr (hknows.mono le_rfl (fun _ _ => rfl) hgrow)
    fun c' seen xs hok => ⟨hok.1, hok.2.1⟩

/-- **Every step keeps the invariant of the twin.** -/
theorem Traced.peeking (h : Traced cfg s.twin) (hst : PeekingStep cfg stops s p s')
    (hlen : s'.stream.length < u64Size) : Traced cfg s'.twin := by
  have hlen' := (length_peeking_le hst).trans_lt hlen
  cases hst with
  | callPush value hidle => exact h.step (.callPush value hidle : OrderedStep cfg stops s.twin _ _) hlen
  | push hacc => exact h.step (.push hacc : OrderedStep cfg stops s.twin _ _) hlen
  | retPush hdone => exact h.step (.retPush hdone : OrderedStep cfg stops s.twin _ _) hlen
  | callPop hr _ | callPeek hr _ =>
      rw [PeekingState.twin_readerStep]
      exact h.reset _ hr trivial fun _ _ _ _ => trivial
  | @pop r pc₀ m k pc hpc hacc =>
      have hpop : s.twin.pop r = pc₀ := congrArg ReaderPc.asPop hpc
      rw [PeekingState.twin_readerStep]
      rw [← hpop] at hacc
      exact h.step (.pop hacc : OrderedStep cfg stops s.twin _ _) hlen'
  | @retPop r res hpc =>
      have hpop : s.twin.pop r = .done res := congrArg ReaderPc.asPop hpc
      rw [PeekingState.twin_readerStep]
      exact h.reset _ (h.inside hpop (by rintro ⟨⟩)) trivial fun _ _ _ _ => trivial
  | peek hpc hacc =>
      rw [PeekingState.twin_readerStep]
      exact h.peek hpc hacc hlen'
  | @retPeek r res hpc =>
      have hpop : s.twin.pop r = (ReaderPc.peek (.done res)).asPop := congrArg ReaderPc.asPop hpc
      have hr : r < cfg.readers := h.inside hpop (by rcases res with _ | _ | _ <;> rintro ⟨⟩)
      have hknows := (h.1.read r hr).pop
      rw [hpop] at hknows
      rw [PeekingState.twin_readerStep]
      refine h.reset _ hr ?_ ?_
      · rcases res with e | _ | c
        · trivial
        · trivial
        · exact hknows
      · rw [hpop]
        rcases res with e | _ | c
        · exact fun _ _ _ _ => trivial
        · exact fun _ _ _ _ => trivial
        · exact fun _ _ _ => id
  | read hpc hacc =>
      rw [PeekingState.twin_readerStep]
      exact h.read hpc hacc hlen'
  | replacePush hs => exact h.step (.replacePush hs : OrderedStep cfg stops s.twin _ _) hlen
  | replaceReader r hs =>
      rw [PeekingState.twin_readerStep]
      exact h.step (.replacePop r hs : OrderedStep cfg stops s.twin _ _) hlen'

end Step

/-! ## What a peek has found -/

/-- A call that looks for a message does not miss that of index `c`. -/
def Finds (c : ℕ) : PopPc α → Prop
  | .loadReadIdx w => c < w
  | .done (.ok none) => False
  | _ => True

section Finds

variable {m m' : Tracked Loc Party α} {k k' : Knowledge Loc Party} {p : Party} {c : ℕ}

/-- An access of a pop, by a reader that knows of the message at its cursor. -/
theorem finds_pop {pc pc' : PopPc α} {o : Strength} (h : Ordered m k p o (popCode cfg r pc) m' k' pc')
    (hf : Finds c pc) (hw : ∀ i v, Sees False m.toMemory k.view .writeIdx i v → c < v)
    (hc : ∀ i v, Sees False m.toMemory k.view (.readIdx r) i v → v = c) : Finds c pc' := by
  cases pc with
  | checkReader | checkGate =>
      cases h
      dsimp only
      split_ifs <;> trivial
  | loadWriteIdx =>
      cases h with
      | load hs => exact hw _ _ hs
  | loadReadIdx w =>
      cases h with
      | load hs =>
          obtain rfl := hc _ _ hs
          dsimp only
          rw [if_neg (Nat.ne_of_lt hf)]
          trivial
  | readSlot _ | advance _ _ => cases h; trivial
  | idle | done _ => cases h

/-- An access of a peek by such a reader. -/
theorem finds_peek {pc pc' : PeekPc} {o : Strength} (h : Ordered m k p o (peekCode r pc) m' k' pc')
    (hf : Finds c (ReaderPc.peek pc : ReaderPc α).asPop)
    (hw : ∀ i v, Sees False m.toMemory k.view .writeIdx i v → c < v)
    (hc : ∀ i v, Sees False m.toMemory k.view (.readIdx r) i v → v = c) :
    Finds c (ReaderPc.peek pc' : ReaderPc α).asPop := by
  cases pc with
  | checkReader =>
      cases h
      dsimp only
      split_ifs <;> trivial
  | loadWriteIdx =>
      cases h with
      | load hs => exact hw _ _ hs
  | loadReadIdx w =>
      cases h with
      | load hs =>
          obtain rfl := hc _ _ hs
          dsimp only
          rw [if_neg (Nat.ne_of_lt hf)]
          trivial
  | done _ => cases h

/-- A peek writes nothing. -/
theorem peek_mem {pc pc' : PeekPc} {o : Strength} (h : Ordered m k p o (peekCode r pc) m' k' pc') : m' = m := by
  cases pc with
  | done _ => cases h
  | _ => cases h; rfl

end Finds

/-- Reader `r` has peeked at message `c`: it is the one at its cursor, and the reader knows that it is
there. -/
structure PeekedOk (cfg : Config) (s : PeekingState α) (r c : ℕ) : Prop where
  inside : r < cfg.readers
  cursor : s.cursor r = c
  known : c < s.know (.reader r) (.word .writeIdx)
  finds : Finds c (s.reader r).asPop

section Peeked

variable {s s' : PeekingState α} {p : Party} {c : ℕ}

/-- What is peeked at after the next step of the reader; that step is not the store of the cursor. -/
theorem after_ok (h : Traced cfg s.twin) (hpk : ∀ c, s.peeked r = some c → PeekedOk cfg s r c)
    (hafter : (s.reader r).after (s.peeked r) = some c) :
    PeekedOk cfg s r c ∧ ∀ i v, s.reader r ≠ .pop (.advance i v) := by
  cases hpc : s.reader r with
  | pop pc =>
      rw [hpc] at hafter
      cases pc with
      | advance i v => cases hafter
      | _ => exact ⟨hpk c hafter, fun _ _ heq => (by cases heq)⟩
  | peek pc =>
      rw [hpc] at hafter
      rcases pc with _ | _ | w | (e | _ | c')
      case done.ok.some =>
        cases hafter
        have hpop : s.twin.pop r = .readSlot c := congrArg ReaderPc.asPop hpc
        have hr := h.inside hpop (by rintro ⟨⟩)
        obtain ⟨hcur, hknown, -⟩ := h.found hr hpop
        refine ⟨⟨hr, hcur.symm, hknown, ?_⟩, fun _ _ heq => (by cases heq)⟩
        rw [hpc]
        trivial
      all_goals exact ⟨hpk c hafter, fun _ _ heq => (by cases heq)⟩
  | holds i =>
      rw [hpc] at hafter
      exact ⟨hpk c hafter, fun _ _ heq => (by cases heq)⟩

/-- Parties that leave a reader alone. -/
theorem PeekedOk.frame (h : PeekedOk cfg s r c) (hreader : s'.reader r = s.reader r)
    (hcur : s'.cursor r = s.cursor r) (hknow : s'.know (.reader r) = s.know (.reader r)) :
    PeekedOk cfg s' r c :=
  ⟨h.inside, hcur.trans h.cursor, hknow ▸ h.known, hreader ▸ h.finds⟩

/-- A step of reader `r`. -/
theorem peeked_readerStep {m : Tracked Loc Party α} {k : Knowledge Loc Party} {pc : ReaderPc α}
    (h : Traced cfg s.twin) (hpk : ∀ q c, s.peeked q = some c → PeekedOk cfg s q c)
    (hother : ∀ q, q ≠ r → m.now (.readIdx q) = s.cursor q)
    (hgrow : s.know (.reader r) ≤ k)
    (hown : ∀ c, PeekedOk cfg s r c → (∀ i v, s.reader r ≠ .pop (.advance i v)) →
      m.now (.readIdx r) = s.cursor r ∧ Finds c pc.asPop) (hq : (s.readerStep m k r pc).peeked q = some c) :
    PeekedOk cfg (s.readerStep m k r pc) q c := by
  by_cases hqr : q = r
  · subst hqr
    rw [PeekingState.readerStep_peeked] at hq
    obtain ⟨hok, hadv⟩ := after_ok h (hpk q) hq
    obtain ⟨hcur, hfinds⟩ := hown c hok hadv
    refine ⟨hok.inside, hcur.trans hok.cursor, ?_, ?_⟩
    · rw [PeekingState.readerStep_know]
      exact hok.known.trans_le (hgrow _)
    · rw [PeekingState.readerStep_reader]
      exact hfinds
  · obtain ⟨hreader, hknow, hpeeked⟩ := s.readerStep_ne m k pc hqr
    exact (hpk q c (hpeeked ▸ hq)).frame hreader (hother q hqr) hknow

/-- **Every step keeps what the readers have peeked at.** -/
theorem PeekedOk.step (h : Traced cfg s.twin) (hpk : ∀ r c, s.peeked r = some c → PeekedOk cfg s r c)
    (hst : PeekingStep cfg stops s p s') : ∀ r c, s'.peeked r = some c → PeekedOk cfg s' r c := by
  have hc := h.coheres
  -- what a load of a reader that has peeked returns
  have hwrite : ∀ {q c}, PeekedOk cfg s q c → ∀ i v,
      Sees False s.mem.toMemory (s.know (.reader q)).view .writeIdx i v → c < v := by
    intro q c hok i v hs
    exact hok.known.trans_le (hs.counter hc.writeIdx).2.1
  have hcursor : ∀ {q c}, PeekedOk cfg s q c → ∀ i v,
      Sees False s.mem.toMemory (s.know (.reader q)).view (.readIdx q) i v → v = c := by
    intro q c hok i v hs
    obtain ⟨-, hlo, hhi⟩ := hs.counter (hc.cell q hok.inside)
    exact (le_antisymm hhi ((hc.own q hok.inside).trans hlo)).trans hok.cursor
  cases hst with
  | callPush _ _ | retPush _ | replacePush _ =>
      exact fun r c hr => (hpk r c hr).frame rfl rfl rfl
  | push hacc =>
      obtain ⟨vw, hacc', -⟩ := hacc.access (le_refl (s.know .producer).view)
      exact fun r c hr => (hpk r c hr).frame rfl (congrArg Cell.now (push_word hacc' (by simp) (by simp)))
        PeekingState.pushStep_know_reader
  | callPop _ _ | callPeek _ _ | retPop _ =>
      exact fun q c => peeked_readerStep h hpk (fun _ _ => rfl) le_rfl fun _ _ _ => ⟨rfl, trivial⟩
  | @retPeek r res _ =>
      refine fun q c => peeked_readerStep h hpk (fun _ _ => rfl) le_rfl fun _ _ _ => ⟨rfl, ?_⟩
      rcases res with _ | _ | _ <;> trivial
  | @pop r pc₀ m k pc hpc hacc =>
      obtain ⟨vw, hacc', -⟩ := hacc.access (le_refl (s.know (.reader r)).view)
      obtain ⟨-, hgrow, -⟩ := hacc.known h.1.sound (h.1.known (.reader r))
      refine fun q c => peeked_readerStep h hpk (fun q hq => ?_) hgrow fun c hok hadv => ⟨?_, ?_⟩
      · exact congrArg Cell.now (pop_word hacc' (by simp [hq]))
      · rcases pop_access hacc' with heq | ⟨i, v, rfl, -⟩
        · exact congrArg (Memory.now · (.readIdx r)) heq
        · exact absurd hpc (hadv i v)
      · have hfinds := hok.finds
        rw [hpc] at hfinds
        exact finds_pop hacc hfinds (hwrite hok) (hcursor hok)
  | @peek r pc₀ m k pc hpc hacc =>
      obtain ⟨-, hgrow, -⟩ := hacc.known h.1.sound (h.1.known (.reader r))
      obtain rfl := peek_mem hacc
      refine fun q c => peeked_readerStep h hpk (fun _ _ => rfl) hgrow fun c hok _ => ⟨rfl, ?_⟩
      have hfinds := hok.finds
      rw [hpc] at hfinds
      exact finds_peek hacc hfinds (hwrite hok) (hcursor hok)
  | @read r c₀ m k pc hpc hacc =>
      obtain ⟨-, hgrow, -⟩ := hacc.known h.1.sound (h.1.known (.reader r))
      cases hacc
      exact fun q c => peeked_readerStep h hpk (fun _ _ => rfl) hgrow fun _ _ _ => ⟨rfl, trivial⟩
  | replaceReader r _ =>
      exact fun q c => peeked_readerStep h hpk (fun _ _ => rfl) (h.1.known _) fun _ _ _ => ⟨rfl, trivial⟩

end Peeked

/-- **The validity window of `peek`.** While a reader holds the pointer that a peek returned, the slot keeps the
message at the reader's cursor, and neither a read through the pointer nor a slot write of the producer races.
Until the reader pops that message, no call of it finds the ring empty, and the pop takes it. -/
theorem peek_pinned {s : PeekingState α} (h : Reachable (peeking cfg stops) s) (hlen : s.stream.length < u64Size) :
    ¬ Races s.mem (s.know .producer) (pushCode cfg s.push) ∧
    (∀ r c, s.reader r = .holds c → c = s.cursor r ∧ s.stream[c]? = some (s.mem.data (cfg.slot c)) ∧
      ¬ Races s.mem (s.know (.reader r)) (peekRead cfg c)) ∧
    ∀ r c, s.peeked r = some c → c = s.cursor r ∧
      s.reader r ≠ .pop (.done (.ok none)) ∧ s.reader r ≠ .peek (.done (.ok none)) ∧
      ∀ i v, s.reader r = .pop (.advance i v) → i = c ∧ s.stream[c]? = some v := by
  have hinv : Traced cfg s.twin ∧ ∀ r c, s.peeked r = some c → PeekedOk cfg s r c := by
    refine h.invariant_of_bound (I := fun s => Traced cfg s.twin ∧ ∀ r c, s.peeked r = some c → PeekedOk cfg s r c)
      (fun s => s.stream.length < u64Size) ?_ ?_ ?_ hlen
    · rintro s ⟨data, rfl⟩ _
      exact ⟨traced_fresh cfg data, fun r c hr => (by cases hr)⟩
    · exact fun s p s' hst hlt => (length_peeking_le hst).trans_lt hlt
    · exact fun s p s' hs hst hlt => ⟨hs.1.peeking hst hlt, PeekedOk.step hs.1 hs.2 hst⟩
  obtain ⟨htraced, hpeeked⟩ := hinv
  obtain ⟨⟨hpush, -⟩, hclean⟩ := htraced.clean
  refine ⟨hpush, fun r c hpc => ?_, fun r c hc => ?_⟩
  · have hpop : s.twin.pop r = .readSlot c := congrArg ReaderPc.asPop hpc
    obtain ⟨hcur, -, hget⟩ := htraced.found (htraced.inside hpop (by rintro ⟨⟩)) hpop
    have hraces := (hclean r).1
    rw [hpop] at hraces
    exact ⟨hcur, hget, hraces⟩
  · have hok := hpeeked r c hc
    have hfinds := hok.finds
    refine ⟨hok.cursor.symm, fun hpc => ?_, fun hpc => ?_, fun i v hpc => ?_⟩
    · rw [hpc] at hfinds
      exact hfinds
    · rw [hpc] at hfinds
      exact hfinds
    · have hpop : s.twin.pop r = .advance i v := congrArg ReaderPc.asPop hpc
      obtain ⟨seen, -, hadv⟩ := htraced.coheres.pop r hok.inside
      rw [hpop] at hadv
      obtain ⟨rfl, -, hv⟩ := hadv
      rw [← hok.cursor]
      exact ⟨rfl, hv⟩

/-- A push on a fresh ring of one slot, and a peek at it. -/
theorem run_peek : ∃ s : PeekingState ℕ, Reachable (peeking oneSlot True) s ∧ s.stream = [7] ∧
    s.reader 0 = .holds 0 := by
  have h₀ := Reachable.step (S := peeking oneSlot True) (s := PeekingState.fresh oneSlot fun _ => 0)
    (.init ⟨_, rfl⟩) (.callPush 7 rfl)
  have h₁ := h₀.step (.push (.load ⟨Nat.le_refl 0, rfl, False.elim⟩))
  have h₂ := h₁.step (.push (.load ⟨Nat.le_refl 0, rfl, False.elim⟩))
  have h₃ := h₂.step (.push (.load ⟨Nat.le_refl 0, rfl, False.elim⟩))
  have h₄ := h₃.step (.push .put)
  have h₅ := h₄.step (.push .store)
  have h₆ := h₅.step (.callPeek (r := 0) (by decide) rfl)
  have h₇ := h₆.step (.peek (r := 0) rfl (.load (i := 0) (v := 1) ⟨Nat.le_refl 0, rfl, False.elim⟩))
  have h₈ := h₇.step (.peek (r := 0) rfl (.load (i := 1) (v := 1) ⟨Nat.zero_le 1, rfl, False.elim⟩))
  have h₉ := h₈.step (.peek (r := 0) rfl (.load (i := 0) (v := 0) ⟨Nat.le_refl 0, rfl, False.elim⟩))
  have h := h₉.step (.retPeek (r := 0) rfl)
  exact ⟨_, h, rfl, rfl⟩

theorem peek_pinned_held : ∃ s : PeekingState ℕ, s.reader 0 = .holds 0 ∧
    s.stream[0]? = some (s.mem.data (oneSlot.slot 0)) ∧
    ¬ Races s.mem (s.know (.reader 0)) (peekRead oneSlot 0) := by
  obtain ⟨s, h, hstream, hpc⟩ := run_peek
  have hheld := (peek_pinned h (by rw [hstream]; decide)).2.1 0 0 hpc
  exact ⟨s, hpc, hheld.2.1, hheld.2.2⟩

end ShmRings.Threads
