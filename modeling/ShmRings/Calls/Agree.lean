import ShmRings.Calls.Pipeline
import ShmRings.Lib.Broadcast

/-!
# The loan path agrees with the pop path

A client that never pops or claims a reader while it has an open loan sees a broadcast queue, through
any number of handles: a commit or a drop is a pop of the message the loan views, and a claim or an
abort changes nothing.

* `Orderly`: the calls of such a client;
* `Client`: the queue and the loans; `Client.answer`, `Client.op`, `Client.lend`: what a call returns
  and what it does;
* `Agrees`, **`Agrees.step`**: each call of a world is the call of its client;
* **`loans_agree_with_pops`**: the runs.
-/

set_option autoImplicit false

namespace ShmRings

open Transition Broadcast

variable {α : Type}

/-- The calls that are permitted, with no pop or claim of a reader that has an open loan. -/
structure Orderly (w : World α) (c : Call α) : Prop where
  permits : w.Permits c
  idle : ∀ k r, c = .tryPop k r ∨ c = .claim k r → ∀ j, ¬ Views w r j

/-- A queue, and its loans: the reader of each and whether it was resolved. -/
structure Client (α : Type) where
  queue : Queue α
  loans : List (ℕ × Bool)

/-- What a call can do to the queue. -/
inductive Op (α : Type)
  | push (value : α)
  | pop (readerId : ℕ)

namespace Client

variable (cfg : Config) (s : Client α)

def empty : Client α := ⟨.empty, []⟩

/-- The answer to a call for reader `r`. -/
def valid (r : ℕ) (reply : Reply α) : Except ShmRingError (Reply α) :=
  if r < cfg.readers then .ok reply else .error (.invalidReaderId r (cfg.readers - 1))

/-- What a call returns. -/
def answer (q : Queue α) : Call α → Except ShmRingError (Reply α)
  | .tryPush _ value => .ok (.pushed (q.push cfg.capacity cfg.readers value).1)
  | .tryPop _ r => valid cfg r (.popped (q.pop r).1)
  | .peek _ r => valid cfg r (.peeked q.stream[q.pos r]?)
  | .len _ r => valid cfg r (.count (q.stream.length - q.pos r))
  | .isEmpty _ r => valid cfg r (.flag (q.stream.length - q.pos r == 0))
  | .slowestLag _ => .ok (.count (q.stream.length - least q.pos cfg.readers))
  | .totalWritten _ => .ok (.count q.stream.length)
  | .claim _ r => valid cfg r (.claimed (q.stream[q.pos r]?.map (q.pos r, ·)))
  | .openExisting _ | .commit _ | .abort _ | .drop _ => .ok .done

/-- What a call does to the queue; an open loan that is committed or dropped is a pop. -/
def op : Call α → Option (Op α)
  | .tryPush _ value => some (.push value)
  | .tryPop _ r => if r < cfg.readers then some (.pop r) else none
  | .commit i | .drop i => match s.loans[i]? with
      | some (r, false) => some (.pop r)
      | _ => none
  | _ => none

/-- What a call does to the loans. -/
def lend : Call α → List (ℕ × Bool)
  | .claim _ r =>
      if r < cfg.readers ∧ s.queue.pos r < s.queue.stream.length then s.loans ++ [(r, false)]
      else s.loans
  | .commit i | .abort i | .drop i => s.loans.modify i fun l => (l.1, true)
  | _ => s.loans

end Client

/-- The queue after an operation. -/
def Op.apply (cfg : Config) (q : Queue α) : Op α → Queue α
  | .push value => (q.push cfg.capacity cfg.readers value).2
  | .pop r => (q.pop r).2

namespace Client

variable (cfg : Config) (s : Client α)

/-- The client after a call. -/
def step (c : Call α) : Client α :=
  ⟨(s.op cfg c).toList.foldl (Op.apply cfg) s.queue, s.lend cfg c⟩

/-- The client after a list of calls. -/
def after (cs : List (Call α)) : Client α := cs.foldl (step cfg) s

/-- The answers to a list of calls. -/
def answers : List (Call α) → Client α → List (Except ShmRingError (Reply α))
  | [], _ => []
  | c :: cs, s => answer cfg s.queue c :: answers cs (s.step cfg c)

/-- The operations of a list of calls on the queue. -/
def ops : List (Call α) → Client α → List (Op α)
  | [], _ => []
  | c :: cs, s => (s.op cfg c).toList ++ ops cs (s.step cfg c)

variable {cfg} {s}

theorem after_concat (cs : List (Call α)) (c : Call α) :
    s.after cfg (cs ++ [c]) = (s.after cfg cs).step cfg c := by
  rw [after, List.foldl_append]
  rfl

theorem answers_concat (cs : List (Call α)) (c : Call α) :
    answers cfg (cs ++ [c]) s = answers cfg cs s ++ [answer cfg (s.after cfg cs).queue c] := by
  induction cs generalizing s with
  | nil => rfl
  | cons d cs ih => exact congrArg (_ :: ·) ih

/-- The queue depends on the operations only. -/
theorem queue_after (cs : List (Call α)) :
    (s.after cfg cs).queue = (ops cfg cs s).foldl (Op.apply cfg) s.queue := by
  induction cs generalizing s with
  | nil => rfl
  | cons c cs ih =>
      rw [ops, List.foldl_append]
      exact ih

end Client

/-- The file of a queue, over the slots `slots` before the first push. -/
def render (cfg : Config) (slots : ℕ → α) (q : Queue α) : RingFile α :=
  ⟨⟨magic, version, cfg.readers, q.stream.length, q.pos, cfg.capacity - 1, q.stream.length⟩,
    Window.fill cfg.capacity slots q.stream⟩

/-- A loan of reader `r` is open on handle `k`. -/
def Lent (w : World α) (k r : ℕ) : Prop := ∃ i l, w.Open i k l ∧ l.readerId = r

/-- The world of a client. -/
structure Agrees (cfg : Config) (slots : ℕ → α) (w : World α) (s : Client α) : Prop where
  sound : Sound cfg w
  file : w.file = render cfg slots s.queue
  stream : w.stream = s.queue.stream
  loans : w.loans.map (fun kl => (kl.2.readerId, kl.2.resolved)) = s.loans
  sole : ∀ i j k k' l l', w.Open i k l → w.Open j k' l' → l.readerId = l'.readerId → i = j
  atCursor : ∀ i k l, w.Open i k l → l.index = w.cursor l.readerId
  base : ∀ k r, w.base k r ≤ w.cursor r ∨ Lent w k r ∧ w.base k r ≤ w.cursor r + 1

variable {p : Profile} {cfg : Config} {slots : ℕ → α} {w w' : World α} {s : Client α} {c : Call α}
  {a : Except ShmRingError (Reply α)}

theorem agrees_created (cfg : Config) (slots : ℕ → α) :
    Agrees cfg slots (World.created cfg slots) .empty where
  sound := sound_created cfg slots
  file := rfl
  stream := rfl
  loans := rfl
  sole := by
    rintro i j k k' l l' ⟨hi, -⟩
    cases hi
  atCursor := by
    rintro i k l ⟨hi, -⟩
    cases hi
  base := fun _ _ => .inl le_rfl

/-- The slowest cursor is the least position. -/
theorem slowest_eq_least {pos : ℕ → ℕ} {n : ℕ} (hn : 0 < n) (h : ∀ r < n, pos r ≤ u64Max) :
    slowest pos n = least pos n := by
  obtain ⟨r, hr, heq⟩ := exists_eq_least pos hn
  refine le_antisymm (heq ▸ slowest_le hr) (le_slowest ?_ fun q hq => least_le pos hq)
  exact (least_le pos hn).trans (h 0 hn)

namespace Agrees

variable (h : Agrees cfg slots w s)
include h

theorem writeIdx : w.file.hdr.writeIdx = s.queue.stream.length := by
  rw [h.file]
  rfl

theorem cursor (r : ℕ) : w.cursor r = s.queue.pos r := by
  rw [World.cursor, h.file]
  rfl

theorem numReaders : w.file.hdr.numReaders = cfg.readers := h.sound.numReaders

theorem behind {r : ℕ} (hr : r < cfg.readers) : s.queue.pos r ≤ s.queue.stream.length := by
  have hle := h.sound.behind r hr
  rwa [h.cursor, h.stream] at hle

theorem length_lt : s.queue.stream.length < u64Size := h.stream ▸ h.sound.length

theorem lag : w.file.lag = s.queue.stream.length - least s.queue.pos cfg.readers := by
  have hpos : ∀ r < cfg.readers, s.queue.pos r ≤ u64Max := fun r hr =>
    Nat.le_sub_one_of_lt ((h.behind hr).trans_lt h.length_lt)
  rw [RingFile.lag, h.file]
  exact congrArg (_ - ·) (slowest_eq_least cfg.readers_pos hpos)

/-- The slot at the cursor has the next message. -/
theorem next {k r : ℕ} (hr : r < cfg.readers) (hlt : s.queue.pos r < s.queue.stream.length) :
    s.queue.stream[s.queue.pos r]? = some (w.file.slots ((w.handle k).slot (w.cursor r))) := by
  have hget := List.getElem?_eq_getElem hlt
  have hslot : (w.handle k).slot (w.cursor r) = w.cursor r % cfg.capacity := by
    rw [Handle.slot, h.sound.capacity]
    exact cfg.slot_eq_mod _
  rw [hslot, hget]
  refine congrArg some (h.sound.holds r hr _ _ le_rfl ?_).symm
  rw [h.stream, h.cursor]
  exact hget

theorem loan {i k : ℕ} {l : Loan} (hi : w.loans[i]? = some (k, l)) :
    s.loans[i]? = some (l.readerId, l.resolved) := by
  rw [← h.loans, List.getElem?_map, hi]
  rfl

theorem not_loan {i : ℕ} (hi : w.loans[i]? = none) : s.loans[i]? = none := by
  rw [← h.loans, List.getElem?_map, hi]
  rfl

/-- A reader without an open loan: its gates are at zero and its pipelines are not ahead. -/
theorem idle {r : ℕ} (hidle : ∀ j, ¬ Views w r j) (k : ℕ) :
    (w.handle k).loanDepth r = 0 ∧ w.base k r ≤ w.cursor r := by
  have hnone : ¬ Lent w k r := fun ⟨i, l, hi, hl⟩ => hidle _ ⟨i, k, l, hi, hl, rfl⟩
  refine ⟨?_, (h.base k r).resolve_right fun hlent => hnone hlent.1⟩
  have hzero : w.loans.countP (isOpen k r) = 0 := by
    refine List.countP_eq_zero.mpr fun kl hkl hopen => hnone ?_
    obtain ⟨q, l⟩ := kl
    obtain ⟨i, hi⟩ := List.mem_iff_getElem?.mp hkl
    simp only [isOpen, Bool.and_eq_true, beq_iff_eq, Bool.not_eq_true'] at hopen
    obtain ⟨⟨rfl, hr⟩, hl⟩ := hopen
    exact ⟨i, l, ⟨hi, hl⟩, hr⟩
  rw [h.sound.gate, hzero]
  rfl

/-- A loan is resolved, and its reader's cursor may move. -/
theorem settle {i k : ℕ} {l : Loan} {h' : Handle} {f : RingFile α} {q : Queue α}
    (hi : w.Open i k l) (hsound : Sound cfg (w.settle i k l h' f)) (hf : f = render cfg slots q)
    (hstream : q.stream = s.queue.stream) (hcur : ∀ r, w.cursor r ≤ q.pos r)
    (hother : ∀ r, r ≠ l.readerId → q.pos r = w.cursor r)
    (hbase : ∀ r, r ≠ l.readerId → h'.claimBase r = w.base k r)
    (hself : h'.claimBase l.readerId ≤ q.pos l.readerId) :
    Agrees cfg slots (w.settle i k l h' f) ⟨q, s.loans.modify i fun x => (x.1, true)⟩ := by
  have hpos : ∀ r, (w.settle i k l h' f).cursor r = q.pos r := by
    intro r
    subst hf
    rfl
  refine ⟨hsound, hf, h.stream.trans hstream.symm, ?_, ?_, ?_, ?_⟩
  · change (w.loans.set i _).map _ = _
    rw [List.map_set, h.loans, List.modify_eq_set, h.loan hi.1]
    rfl
  · intro j m k₁ k₂ l₁ l₂ hj hm
    exact h.sole j m k₁ k₂ l₁ l₂ ((open_settle hi _ _ _).mp hj).2 ((open_settle hi _ _ _).mp hm).2
  · intro j k₁ l₁ hj
    obtain ⟨hne, hold⟩ := (open_settle hi j k₁ l₁).mp hj
    rw [hpos, hother l₁.readerId fun hr => hne (h.sole j i k₁ k l₁ l hold hi hr)]
    exact h.atCursor j k₁ l₁ hold
  · intro k₁ r
    have hnew : (w.settle i k l h' f).base k₁ r = if k₁ = k then h'.claimBase r else w.base k₁ r :=
      base_update _ _ _
    rw [hpos, hnew]
    -- the other loans of handle `k₁` are still open
    have hkeep : (k₁ = k → r ≠ l.readerId) → w.base k₁ r ≤ q.pos r ∨
        Lent (w.settle i k l h' f) k₁ r ∧ w.base k₁ r ≤ q.pos r + 1 := by
      intro hne
      refine (h.base k₁ r).imp (·.trans (hcur r)) ?_
      rintro ⟨⟨j, l₁, hj, hl₁⟩, hle⟩
      refine ⟨⟨j, l₁, (open_settle hi _ _ _).mpr ⟨?_, hj⟩, hl₁⟩, hle.trans (Nat.succ_le_succ (hcur r))⟩
      rintro rfl
      obtain ⟨rfl, rfl⟩ := Open.unique hi hj.1
      exact hne rfl hl₁.symm
    split_ifs with hk
    · subst hk
      by_cases hr : r = l.readerId
      · subst hr
        exact .inl hself
      · rw [hbase r hr]
        exact hkeep fun _ => hr
    · exact hkeep fun hk' => absurd hk' hk

/-- A call that leaves the world and the client alone. -/
theorem same (hop : (s.op cfg c).toList.foldl (Op.apply cfg) s.queue = s.queue)
    (hlend : s.lend cfg c = s.loans) : Agrees cfg slots w (s.step cfg c) := by
  have hstep : s.step cfg c = s := by rw [Client.step, hop, hlend]
  rwa [hstep]

/-- A message is published. -/
theorem publish {k : ℕ} {value : α} (hroom : w.file.lag < (w.handle k).capacity)
    (hsound : Sound cfg { w with
      file := w.file.publish ((w.handle k).slot w.file.hdr.writeIdx) value
      stream := w.stream ++ [value] }) :
    Client.answer cfg s.queue (.tryPush k value) = .ok (.pushed true) ∧ Agrees cfg slots { w with
      file := w.file.publish ((w.handle k).slot w.file.hdr.writeIdx) value
      stream := w.stream ++ [value] } (s.step cfg (.tryPush k value)) := by
  rw [h.lag, h.sound.capacity] at hroom
  have hpush : s.queue.push cfg.capacity cfg.readers value =
    (true, { s.queue with stream := s.queue.stream ++ [value] }) := if_pos hroom
  have hq : (s.step cfg (.tryPush k value)).queue =
    { s.queue with stream := s.queue.stream ++ [value] } := congrArg Prod.snd hpush
  have hslot : (w.handle k).slot w.file.hdr.writeIdx = s.queue.stream.length % cfg.capacity := by
    rw [Handle.slot, h.sound.capacity, h.writeIdx]
    exact cfg.slot_eq_mod _
  have hlen : s.queue.stream.length + 1 < u64Size := by
    have := hsound.length
    rw [List.length_append, h.stream] at this
    exact this
  refine ⟨?_, hsound, ?_, ?_, h.loans, h.sole, h.atCursor, h.base⟩
  · simp only [Client.answer, hpush]
  · rw [hq, hslot, h.file, RingFile.publish, render, render, Window.fill_concat,
      List.length_append, wrappingAdd_eq hlen]
    rfl
  · rw [hq]
    exact congrArg (· ++ [value]) h.stream

/-- A message is popped. -/
theorem pop {k r : ℕ} (hr : r < cfg.readers) (hidle : ∀ j, ¬ Views w r j)
    (hne : w.cursor r ≠ w.file.hdr.writeIdx)
    (hsound : Sound cfg { w with file := w.file.advance r (w.cursor r + 1) }) :
    Client.answer cfg s.queue (.tryPop k r) =
      .ok (.popped (some (w.file.slots ((w.handle k).slot (w.cursor r))))) ∧
    Agrees cfg slots { w with file := w.file.advance r (w.cursor r + 1) }
      (s.step cfg (.tryPop k r)) := by
  have hlt : s.queue.pos r < s.queue.stream.length := by
    rw [h.cursor, h.writeIdx] at hne
    exact lt_of_le_of_ne (h.behind hr) hne
  have hpop := Queue.pop_some (h.next (k := k) hr hlt)
  have hq : (s.step cfg (.tryPop k r)).queue =
      { s.queue with pos := Function.update s.queue.pos r (s.queue.pos r + 1) } := by
    simp [Client.step, Client.op, hr, Op.apply, hpop]
  refine ⟨?_, hsound, ?_, ?_, h.loans, h.sole, fun i q l hi => ?_, fun q m => ?_⟩
  · simp only [Client.answer, Client.valid, if_pos hr, hpop]
  · rw [hq, h.cursor, h.file]
    rfl
  · rw [hq]
    exact h.stream
  · rw [cursor_advance, if_neg fun hl => hidle _ ⟨i, q, l, hi, hl, rfl⟩]
    exact h.atCursor i q l hi
  · change w.base q m ≤ World.cursor _ m ∨ Lent w q m ∧ w.base q m ≤ World.cursor _ m + 1
    rw [cursor_advance]
    split_ifs with hm
    · subst hm
      exact .inl ((h.idle hidle q).2.trans (Nat.le_succ _))
    · exact h.base q m

/-- A message is lent. -/
theorem claim {k r : ℕ} (hr : r < cfg.readers) (hidle : ∀ j, ¬ Views w r j)
    (hlt : w.cursor r < w.file.hdr.writeIdx) {h' : Handle} (hbase : h'.claimBase =
      Function.update (w.handle k).claimBase r (w.cursor r + 1)) (hsound : Sound cfg
        { w.setHandle k h' with loans := w.loans ++ [(k, ⟨r, w.cursor r, false⟩)] }) :
    Client.answer cfg s.queue (.claim k r) =
      .ok (.claimed (some (w.cursor r, w.file.slots ((w.handle k).slot (w.cursor r))))) ∧
    Agrees cfg slots { w.setHandle k h' with loans := w.loans ++ [(k, ⟨r, w.cursor r, false⟩)] }
      (s.step cfg (.claim k r)) := by
  rw [h.cursor, h.writeIdx] at hlt
  have hlend : s.lend cfg (.claim k r) = s.loans ++ [(r, false)] := if_pos ⟨hr, hlt⟩
  have hopen := @open_claim α { w.setHandle k h' with
    loans := w.loans ++ [(k, ⟨r, w.cursor r, false⟩)] } w.loans k ⟨r, w.cursor r, false⟩ rfl rfl
  refine ⟨?_, hsound, h.file, h.stream, ?_, fun i j q q' l l' hi hj hll => ?_, fun i q l hi => ?_,
    fun q m => ?_⟩
  · simp only [Client.answer, Client.valid, if_pos hr, h.next (k := k) hr hlt, Option.map_some,
      h.cursor]
  · rw [Client.step, hlend, List.map_append, h.loans]
    rfl
  · rcases (hopen i q l).mp hi with hi' | ⟨rfl, rfl, rfl⟩ <;>
      rcases (hopen j q' l').mp hj with hj' | ⟨rfl, rfl, rfl⟩
    · exact h.sole i j q q' l l' hi' hj' hll
    · exact absurd ⟨i, q, l, hi', hll, rfl⟩ (hidle l.index)
    · exact absurd ⟨j, q', l', hj', hll.symm, rfl⟩ (hidle l'.index)
    · rfl
  · rcases (hopen i q l).mp hi with hi | ⟨-, rfl, rfl⟩
    · exact h.atCursor i q l hi
    · rfl
  · have hkeep : w.base q m ≤ w.cursor m ∨
        Lent { w.setHandle k h' with loans := w.loans ++ [(k, ⟨r, w.cursor r, false⟩)] } q m ∧
          w.base q m ≤ w.cursor m + 1 :=
      (h.base q m).imp id fun ⟨⟨i, l, hi, hl⟩, hle⟩ => ⟨⟨i, l, (hopen i q l).mpr (.inl hi), hl⟩, hle⟩
    change (Function.update w.handle k h' q).claimBase m ≤ w.cursor m ∨
      _ ∧ (Function.update w.handle k h' q).claimBase m ≤ w.cursor m + 1
    rw [base_update]
    split_ifs with hq
    · subst hq
      rw [hbase]
      by_cases hm : m = r
      · subst hm
        rw [Function.update_self]
        exact .inr ⟨⟨_, _, (hopen _ _ _).mpr (.inr ⟨rfl, rfl, rfl⟩), rfl⟩, le_rfl⟩
      · rw [Function.update_of_ne hm]
        exact hkeep
    · exact hkeep

/-- The loan at the cursor is committed or dropped. -/
theorem consume {i k : ℕ} {l : Loan} (hkind : c = .commit i ∨ c = .drop i) (hi : w.Open i k l)
    (hsound : Sound cfg
      (w.settle i k l (w.lower k l.readerId) (w.file.advance l.readerId (l.index + 1)))) :
    Client.answer cfg s.queue c = .ok .done ∧ Agrees cfg slots
      (w.settle i k l (w.lower k l.readerId) (w.file.advance l.readerId (l.index + 1)))
      (s.step cfg c) := by
  obtain ⟨hr, hlt⟩ := h.sound.loans _ (List.mem_of_getElem? hi.1)
  have hidx := h.atCursor i k l hi
  have hloan := h.loan hi.1
  rw [hi.2] at hloan
  have hop : s.op cfg c = some (.pop l.readerId) := by
    rcases hkind with rfl | rfl <;> simp only [Client.op, hloan]
  have hlend : s.lend cfg c = s.loans.modify i fun x => (x.1, true) := by
    rcases hkind with rfl | rfl <;> rfl
  have hanswer : Client.answer cfg s.queue c = .ok .done := by rcases hkind with rfl | rfl <;> rfl
  rw [hidx, h.cursor, h.stream] at hlt
  have hpop := Queue.pop_some (h.next (k := k) hr hlt)
  have hstep : s.step cfg c =
      ⟨{ s.queue with pos := Function.update s.queue.pos l.readerId (s.queue.pos l.readerId + 1) },
        s.loans.modify i fun x => (x.1, true)⟩ := by
    simp only [Client.step, hop, hlend, Option.toList_some, List.foldl_cons, List.foldl_nil, Op.apply,
      hpop]
  rw [hstep]
  refine ⟨hanswer, h.settle hi hsound ?_ rfl (fun r => ?_) (fun r hne => ?_) (fun _ _ => rfl) ?_⟩
  · rw [hidx, h.cursor, h.file]
    rfl
  · change _ ≤ Function.update s.queue.pos l.readerId _ r
    rw [h.cursor, Function.update_apply]
    split_ifs with hrl
    · exact hrl ▸ Nat.le_succ _
    · exact le_rfl
  · exact (Function.update_of_ne hne _ _).trans (h.cursor r).symm
  · change w.base k l.readerId ≤ Function.update s.queue.pos l.readerId _ _
    rw [Function.update_self, ← h.cursor]
    rcases h.base k l.readerId with hle | ⟨-, hle⟩ <;> omega

/-- The loan at the cursor is aborted. -/
theorem abort {i k : ℕ} {l : Loan} {h' : Handle} (hi : w.Open i k l)
    (hbase : h'.claimBase = Function.update (w.handle k).claimBase l.readerId
      (min (w.base k l.readerId) l.index)) (hsound : Sound cfg (w.settle i k l h' w.file)) :
    Agrees cfg slots (w.settle i k l h' w.file) (s.step cfg (.abort i)) := by
  refine h.settle hi hsound h.file rfl (fun r => (h.cursor r).le) (fun r _ => (h.cursor r).symm)
    (fun r hne => ?_) ?_
  · rw [hbase, Function.update_of_ne hne]
    rfl
  · change _ ≤ s.queue.pos _
    rw [hbase, Function.update_self, ← h.cursor, ← h.atCursor i k l hi]
    exact Nat.min_le_right _ _

omit h in
/-- Resolving a loan that is not open. -/
theorem lend_same {i : ℕ} (hi : ∀ r, s.loans[i]? ≠ some (r, false)) :
    s.loans.modify i (fun l => (l.1, true)) = s.loans := by
  refine List.ext_getElem? fun j => ?_
  rw [List.getElem?_modify]
  split_ifs with hij
  · subst hij
    cases hx : s.loans[i]? with
    | none => rfl
    | some x =>
        obtain ⟨r, b⟩ := x
        cases b with
        | false => exact absurd hx (hi r)
        | true => rfl
  · exact id_map _

/-- A commit, an abort or a drop of a loan that is not open. -/
theorem not_open {i : ℕ} (hc : c.loan? = some i) (hi : ∀ r, s.loans[i]? ≠ some (r, false)) :
    Client.answer cfg s.queue c = .ok .done ∧ Agrees cfg slots w (s.step cfg c) := by
  cases c with
  | commit j | drop j =>
      obtain rfl := Option.some.inj hc
      refine ⟨rfl, h.same ?_ (lend_same hi)⟩
      have hop : s.op cfg (.commit j) = none := by simp only [Client.op]
      exact congrArg (fun o => o.toList.foldl (Op.apply cfg) s.queue) hop
  | abort j =>
      obtain rfl := Option.some.inj hc
      exact ⟨rfl, h.same rfl (lend_same hi)⟩
  | _ => cases hc

/-- **A call of the world is the call of its client.** -/
theorem step {a : Except ShmRingError (Reply α)} (hc : Orderly w c) (heff : Effect w c a w') :
    Client.answer cfg s.queue c = a ∧ Agrees cfg slots w' (s.step cfg c) := by
  have hsound := h.sound.effect hc.permits heff
  have hread := h.numReaders
  cases heff with
  | @opened k =>
      refine ⟨rfl, hsound, h.file, h.stream, h.loans, h.sole, h.atCursor, fun q r => ?_⟩
      have hnew : (w.setHandle k (.fresh (w.file.hdr.capacityMask + 1))).base q r =
        if q = k then 0 else w.base q r := base_update _ _ _
      rw [hnew]
      split_ifs
      · exact .inl (Nat.zero_le _)
      · exact h.base q r
  | pushed hroom => exact h.publish hroom hsound
  | @full k value hfull =>
      rw [h.lag, h.sound.capacity] at hfull
      have hpush : s.queue.push cfg.capacity cfg.readers value = (false, s.queue) :=
        if_neg (Nat.not_lt.mpr hfull)
      refine ⟨?_, h.same (congrArg Prod.snd hpush) rfl⟩
      simp only [Client.answer, hpush]
  | @invalid c r hr hn =>
      rw [hread] at hn ⊢
      have hn' : ¬ r < cfg.readers := Nat.not_lt.mpr hn
      cases c with
      | tryPop k q | peek k q | len k q | isEmpty k q | claim k q =>
          obtain rfl := Option.some.inj hr
          refine ⟨if_neg hn', h.same ?_ ?_⟩ <;> simp [Client.op, Client.lend, hn']
      | _ => cases hr
  | @gated k r hr hd => exact absurd (h.idle (hc.idle k r (.inl rfl)) k).1 hd
  | @popNone k r hr hd heq =>
      rw [hread] at hr
      rw [h.cursor, h.writeIdx] at heq
      have hpop : s.queue.pop r = (none, s.queue) := Queue.pop_none heq.ge
      refine ⟨?_, h.same ?_ rfl⟩
      · simp only [Client.answer, Client.valid, if_pos hr, hpop]
      · simp [Client.op, hr, Op.apply, hpop]
  | @popSome k r hr hd hne =>
      exact h.pop (hread ▸ hr) (hc.idle k r (.inl rfl)) hne hsound
  | @peeked k r hr =>
      rw [hread] at hr
      refine ⟨?_, h.same rfl rfl⟩
      simp only [Client.answer, Client.valid, if_pos hr, h.writeIdx]
      split_ifs with heq
      · rw [h.cursor] at heq
        rw [List.getElem?_eq_none heq.ge]
      · rw [h.cursor] at heq
        rw [h.next (k := k) hr (lt_of_le_of_ne (h.behind hr) heq)]
  | @len k r hr | @isEmpty k r hr =>
      rw [hread] at hr
      refine ⟨?_, h.same rfl rfl⟩
      rw [h.writeIdx, h.cursor, wrappingSub_eq (h.behind hr) h.length_lt]
      exact if_pos hr
  | slowestLag =>
      refine ⟨?_, h.same rfl rfl⟩
      have hlag := h.lag
      rw [RingFile.lag] at hlag
      rw [wrappingSub_eq h.sound.slowest_le (h.writeIdx ▸ h.length_lt), hlag]
      rfl
  | totalWritten =>
      refine ⟨?_, h.same rfl rfl⟩
      rw [h.file]
      rfl
  | @claimNone k r hr hle =>
      rw [hread] at hr
      have hidle := (h.idle (hc.idle k r (.inr rfl)) k).2
      rw [max_eq_right hidle, h.writeIdx, h.cursor] at hle
      refine ⟨?_, h.same rfl ?_⟩
      · simp only [Client.answer, Client.valid, if_pos hr, List.getElem?_eq_none hle, Option.map_none]
      · exact if_neg fun hand => absurd hand.2 (Nat.not_lt.mpr hle)
  | @claimSome k r idx hr hidx hlt =>
      have hnone := hc.idle k r (.inr rfl)
      rw [max_eq_right (h.idle hnone k).2] at hidx
      subst hidx
      exact h.claim (hread ▸ hr) hnone hlt rfl hsound
  | noLoan hi hnone =>
      refine h.not_open hi fun r => ?_
      rw [h.not_loan hnone]
      simp
  | settled hi hget hl =>
      refine h.not_open hi fun r => ?_
      rw [h.loan hget, hl]
      simp
  | commitEarly hi hne => exact absurd (h.atCursor _ _ _ hi).symm hne
  | committed hkind hi heq => exact h.consume hkind hi hsound
  | aborted hi => exact ⟨rfl, h.abort hi rfl hsound⟩
  | droppedAway hi hne => exact absurd (h.atCursor _ _ _ hi).symm hne

end Agrees

/-- A run of an orderly client and the calls it made. -/
theorem Agrees.of_run {S : World α → Prop} {es : List (Call α × Except ShmRingError (Reply α))}
    (h : Run (world p S Orderly) (World.created cfg slots) es w) :
    Client.answers cfg (es.map Prod.fst) .empty = es.map Prod.snd ∧
      Agrees cfg slots w (Client.empty.after cfg (es.map Prod.fst)) := by
  induction h with
  | nil => exact ⟨rfl, agrees_created cfg slots⟩
  | @snoc es w e w' _ hstep ih =>
      obtain ⟨c, a⟩ := e
      obtain ⟨hc, hcall⟩ := hstep
      obtain ⟨hanswer, hagree⟩ := ih.2.step hc (.of_call ih.2.sound hc.permits hcall)
      simp only [List.map_append, List.map_cons, List.map_nil, Client.answers_concat,
        Client.after_concat]
      exact ⟨by rw [ih.1, hanswer], hagree⟩

/-- **The loan path agrees with the pop path.** In every run of an orderly client no call panics, every
result is that of the queue, the file is the one of the queue, and an open loan views what a pop would
return. Two runs with the same operations on the queue, whatever forms they consume in, leave the same
file and give every call the same result. -/
theorem loans_agree_with_pops {S : World α → Prop}
    {es : List (Call α × Except ShmRingError (Reply α))}
    (h : Run (world p S Orderly) (World.created cfg slots) es w) :
    (∀ c, Orderly w c → ∃ a w', w.call p c = .ok (a, w')) ∧
    es.map Prod.snd = Client.answers cfg (es.map Prod.fst) .empty ∧
    w.file = render cfg slots (Client.empty.after cfg (es.map Prod.fst)).queue ∧
    (∀ i k l, w.Open i k l →
      ((Client.empty.after cfg (es.map Prod.fst)).queue.pop l.readerId).1 =
        some (l.deref (w.handle k) w.file)) ∧
    ∀ es' w', Run (world p S Orderly) (World.created cfg slots) es' w' →
      Client.ops cfg (es'.map Prod.fst) .empty = Client.ops cfg (es.map Prod.fst) .empty →
      w'.file = w.file ∧ ∀ c, Orderly w c → Orderly w' c →
        (w'.call p c).map Prod.fst = (w.call p c).map Prod.fst := by
  obtain ⟨hanswers, hagree⟩ := Agrees.of_run h
  have hcalls : ∀ {w : World α} {s : Client α}, Agrees cfg slots w s → ∀ c, Orderly w c →
      ∃ w', w.call p c = .ok (Client.answer cfg s.queue c, w') := by
    intro w s hs c hc
    obtain ⟨a, w', hcall, heff⟩ := @call_effect _ p _ _ _ hs.sound hc.permits
    obtain ⟨rfl, -⟩ := hs.step hc heff
    exact ⟨w', hcall⟩
  refine ⟨fun c hc => ⟨_, hcalls hagree c hc⟩, hanswers.symm, hagree.file, fun i k l hi => ?_,
    fun es' w' h' hops => ?_⟩
  · obtain ⟨hr, hlt⟩ := hagree.sound.loans _ (List.mem_of_getElem? hi.1)
    have hidx := hagree.atCursor i k l hi
    rw [hidx, hagree.cursor, hagree.stream] at hlt
    rw [Queue.pop_some (hagree.next (k := k) hr hlt), Loan.deref, hidx]
  · obtain ⟨-, hagree'⟩ := Agrees.of_run h'
    have hqueue : (Client.empty.after cfg (es'.map Prod.fst)).queue =
        (Client.empty.after cfg (es.map Prod.fst)).queue := by
      rw [Client.queue_after, Client.queue_after, hops]
    refine ⟨by rw [hagree'.file, hagree.file, hqueue], fun c hc hc' => ?_⟩
    obtain ⟨u, hu⟩ := hcalls hagree c hc
    obtain ⟨u', hu'⟩ := hcalls hagree' c hc'
    rw [hu, hu', hqueue]
    rfl

/-- Pushes, commits, and pops and claims while every loan is resolved. -/
def orderly (w : World α) : Call α → Bool
  | .tryPush _ _ => decide (w.stream.length + 1 < u64Size)
  | .tryPop _ _ | .claim _ _ => w.loans.all (·.2.resolved)
  | .commit _ => true
  | _ => false

theorem orderly_of_check (h : orderly w c = true) : Orderly w c := by
  have hidle : w.loans.all (·.2.resolved) = true → ∀ r j, ¬ Views w r j := by
    rintro hall r j ⟨i, q, l, ⟨hi, hl⟩, -⟩
    have := List.all_eq_true.mp hall _ (List.mem_of_getElem? hi)
    rw [hl] at this
    cases this
  cases c with
  | tryPush k v =>
      have hlen : w.stream.length + 1 < u64Size := of_decide_eq_true h
      exact ⟨fun _ => hlen, fun k r hc => by rcases hc with hc | hc <;> cases hc⟩
  | tryPop k r | claim k r => exact ⟨trivial, fun _ r _ => hidle h r⟩
  | commit i => exact ⟨trivial, fun k r hc => by rcases hc with hc | hc <;> cases hc⟩
  | _ => cases h

/-- Two messages, of which the first is consumed by a loan on one handle or by a pop on another. -/
theorem loan_agrees_with_pop : ∃ w w' : World ℕ,
    follow (World.next checked orderly) [.tryPush 1 10, .claim 0 0, .tryPush 1 11, .commit 0]
      (World.created twoSlots fun _ => 0) = some w ∧
    follow (World.next checked orderly) [.tryPush 1 10, .tryPush 1 11, .tryPop 2 0]
      (World.created twoSlots fun _ => 0) = some w' ∧ w'.file = w.file := by
  obtain ⟨w, hw⟩ : ∃ w, follow (World.next checked orderly)
      [.tryPush 1 10, .claim 0 0, .tryPush 1 11, .commit 0] (World.created twoSlots fun _ => 0) =
        some w := ⟨_, rfl⟩
  obtain ⟨w', hw'⟩ : ∃ w', follow (World.next checked orderly)
      [.tryPush 1 10, .tryPush 1 11, .tryPop 2 0] (World.created twoSlots fun _ => 0) = some w' :=
    ⟨_, rfl⟩
  obtain ⟨es, hes, hrun⟩ := run_of_follow (S := fun _ => True) (fun _ _ => orderly_of_check) hw
  obtain ⟨es', hes', hrun'⟩ := run_of_follow (S := fun _ => True) (fun _ _ => orderly_of_check) hw'
  have hagree := (loans_agree_with_pops hrun).2.2.2.2 es' w' hrun' (by rw [hes, hes']; rfl)
  exact ⟨w, w', hw, hw', hagree.1⟩

end ShmRings
