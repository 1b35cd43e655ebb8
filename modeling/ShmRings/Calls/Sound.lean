import ShmRings.Calls.Spec
import ShmRings.Lib.Window

/-!
# What holds in every run of calls

Any number of handles on a sound file, with any number of loans: no call panics, and what it does is
one of the cases of `Effect`. Every cursor follows `write_idx` by at most the capacity, and every gate
counts the open loans of its reader on its handle, modulo `2 ^ 64`.

* `World.Permits`: the calls the borrow checker and the word size allow;
* `Sound`, `Effect`, `Works`; **`call_effect`**, `Effect.of_call`: what a call does;
* **`Sound.effect`**: a call keeps the invariant; `world_invariant`, **`Sound.of_reachable`**: so does a
  run;
* `World.created`.
-/

set_option autoImplicit false

namespace ShmRings

open Transition

variable {α : Type}

/-- The reader a call names. -/
def Call.reader? : Call α → Option ℕ
  | .tryPop _ r | .peek _ r | .len _ r | .isEmpty _ r | .claim _ r => some r
  | _ => none

/-- The loan a call resolves. -/
def Call.loan? : Call α → Option ℕ
  | .commit i | .abort i | .drop i => some i
  | _ => none

/-- `kl` is an open loan of reader `r` on handle `k`. -/
def isOpen (k r : ℕ) (kl : ℕ × Loan) : Bool := kl.1 == k && kl.2.readerId == r && !kl.2.resolved

namespace World

variable (w : World α)

/-- The cursor of reader `r`. -/
def cursor (r : ℕ) : ℕ := w.file.hdr.readIndices r

/-- The head of the pipeline of reader `r` on handle `k`. -/
def base (k r : ℕ) : ℕ := (w.handle k).claimBase r

/-- A handle is replaced only when it has lent nothing, and a message that is published fits the
word that counts them. -/
def Permits : Call α → Prop
  | .openExisting k => ∀ l, (k, l) ∈ w.loans → l.resolved = true
  | .tryPush k _ => w.file.lag < (w.handle k).capacity → w.stream.length + 1 < u64Size
  | _ => True

/-- Loan `i` is resolved, with handle `k` at `h` and the file at `f`. -/
def settle (i k : ℕ) (l : Loan) (h : Handle) (f : RingFile α) : World α :=
  { w.setHandle k h with file := f, loans := w.loans.set i (k, { l with resolved := true }) }

/-- Handle `k` with the gate of reader `r` one lower. -/
def lower (k r : ℕ) : Handle := (w.handle k).setDepth r (wrappingSub ((w.handle k).loanDepth r) 1)

end World

/-- The invariant of a world. -/
structure Sound (cfg : Config) (w : World α) : Prop where
  numReaders : w.file.hdr.numReaders = cfg.readers
  mask : w.file.hdr.capacityMask = cfg.capacity - 1
  length : w.stream.length < u64Size
  writeIdx : w.file.hdr.writeIdx = w.stream.length
  total : w.file.hdr.totalWritten = w.stream.length
  behind : ∀ r < cfg.readers, w.cursor r ≤ w.stream.length
  lag : ∀ r < cfg.readers, w.stream.length ≤ w.cursor r + cfg.capacity
  holds : ∀ r < cfg.readers, Window.Holds cfg.capacity w.file.slots w.stream (w.cursor r)
  capacity : ∀ k, (w.handle k).capacity = cfg.capacity
  loans : ∀ kl ∈ w.loans, kl.2.readerId < cfg.readers ∧ kl.2.index < w.stream.length
  gate : ∀ k r, (w.handle k).loanDepth r = w.loans.countP (isOpen k r) % u64Size

/-- What a call does. -/
inductive Effect (w : World α) :
    Call α → Except ShmRingError (Reply α) → World α → Prop
  | opened {k} : Effect w (.openExisting k) (.ok .done)
      (w.setHandle k (.fresh (w.file.hdr.capacityMask + 1)))
  | pushed {k value} : w.file.lag < (w.handle k).capacity →
      Effect w (.tryPush k value) (.ok (.pushed true))
        { w with
          file := w.file.publish ((w.handle k).slot w.file.hdr.writeIdx) value
          stream := w.stream ++ [value] }
  | full {k value} : (w.handle k).capacity ≤ w.file.lag →
      Effect w (.tryPush k value) (.ok (.pushed false)) w
  | invalid {c r} : c.reader? = some r → w.file.hdr.numReaders ≤ r →
      Effect w c (.error (.invalidReaderId r (w.file.hdr.numReaders - 1))) w
  | gated {k r} : r < w.file.hdr.numReaders → (w.handle k).loanDepth r ≠ 0 →
      Effect w (.tryPop k r) (.error (.loanOutstanding r)) w
  | popNone {k r} : r < w.file.hdr.numReaders → (w.handle k).loanDepth r = 0 →
      w.cursor r = w.file.hdr.writeIdx → Effect w (.tryPop k r) (.ok (.popped none)) w
  | popSome {k r} : r < w.file.hdr.numReaders → (w.handle k).loanDepth r = 0 →
      w.cursor r ≠ w.file.hdr.writeIdx →
      Effect w (.tryPop k r)
        (.ok (.popped (some (w.file.slots ((w.handle k).slot (w.cursor r))))))
        { w with file := w.file.advance r (w.cursor r + 1) }
  | peeked {k r} : r < w.file.hdr.numReaders →
      Effect w (.peek k r) (.ok (.peeked (if w.cursor r = w.file.hdr.writeIdx then none
        else some (w.file.slots ((w.handle k).slot (w.cursor r)))))) w
  | len {k r} : r < w.file.hdr.numReaders →
      Effect w (.len k r) (.ok (.count (wrappingSub w.file.hdr.writeIdx (w.cursor r)))) w
  | isEmpty {k r} : r < w.file.hdr.numReaders →
      Effect w (.isEmpty k r) (.ok (.flag (wrappingSub w.file.hdr.writeIdx (w.cursor r) == 0))) w
  | slowestLag {k} : Effect w (.slowestLag k) (.ok (.count (wrappingSub w.file.hdr.writeIdx
      (slowest w.file.hdr.readIndices w.file.hdr.numReaders)))) w
  | totalWritten {k} : Effect w (.totalWritten k) (.ok (.count w.file.hdr.totalWritten)) w
  | claimNone {k r} : r < w.file.hdr.numReaders →
      w.file.hdr.writeIdx ≤ max (w.base k r) (w.cursor r) →
      Effect w (.claim k r) (.ok (.claimed none)) w
  | claimSome {k r idx} : r < w.file.hdr.numReaders → idx = max (w.base k r) (w.cursor r) →
      idx < w.file.hdr.writeIdx →
      Effect w (.claim k r) (.ok (.claimed (some (idx, w.file.slots ((w.handle k).slot idx)))))
        { w.setHandle k (((w.handle k).setDepth r
            (wrappingAdd ((w.handle k).loanDepth r) 1)).setHead r (idx + 1)) with
          loans := w.loans ++ [(k, ⟨r, idx, false⟩)] }
  | noLoan {c i} : c.loan? = some i → w.loans[i]? = none → Effect w c (.ok .done) w
  | settled {c i k l} : c.loan? = some i → w.loans[i]? = some (k, l) → l.resolved = true →
      Effect w c (.ok .done) w
  | commitEarly {i k l} : w.Open i k l → w.cursor l.readerId ≠ l.index →
      Effect w (.commit i) (.error (.loanNotAtCursor l.index (w.cursor l.readerId))) w
  | committed {c i k l} : c = .commit i ∨ c = .drop i → w.Open i k l →
      w.cursor l.readerId = l.index →
      Effect w c (.ok .done)
        (w.settle i k l (w.lower k l.readerId) (w.file.advance l.readerId (l.index + 1)))
  | aborted {i k l} : w.Open i k l → Effect w (.abort i) (.ok .done)
      (w.settle i k l (((w.handle k).setHead l.readerId
        (min (w.base k l.readerId) l.index)).setDepth l.readerId
          (wrappingSub ((w.handle k).loanDepth l.readerId) 1)) w.file)
  | droppedAway {i k l} : w.Open i k l → w.cursor l.readerId ≠ l.index →
      Effect w (.drop i) (.ok .done) (w.settle i k l (w.lower k l.readerId) w.file)

variable {p : Profile} {cfg : Config} {w : World α} {c : Call α}

theorem call_of_apply {reply : Reply α} {w' : World α} (h : w.apply p c = .ok (reply, w')) :
    w.call p c = .ok (.ok reply, w') := by rw [World.call, h]

theorem call_of_error {e : ShmRingError} (h : w.apply p c = .error (.err e)) :
    w.call p c = .ok (.error e, w) := by rw [World.call, h]

theorem Sound.reader {r : ℕ} (h : Sound cfg w) (hr : r < w.file.hdr.numReaders) : r < maxReaders :=
  hr.trans_le (h.numReaders ▸ cfg.readers_le)

theorem Sound.slowest_le (h : Sound cfg w) :
    slowest w.file.hdr.readIndices w.file.hdr.numReaders ≤ w.file.hdr.writeIdx := by
  rw [h.numReaders, h.writeIdx]
  exact (ShmRings.slowest_le cfg.readers_pos).trans (h.behind 0 cfg.readers_pos)

theorem setHandle_self (w : World α) (k : ℕ) : w.setHandle k (w.handle k) = w := by
  rw [World.setHandle, Function.update_eq_self]

theorem set_same {kl : ℕ × Loan} {i : ℕ} (h : w.loans[i]? = some kl) : w.loans.set i kl = w.loans := by
  obtain ⟨hi, rfl⟩ := List.getElem?_eq_some_iff.mp h
  exact List.set_getElem_self hi

/-- A loan leaves room for the increment of its index. -/
theorem Sound.room {i k : ℕ} {l : Loan} (h : Sound cfg w) (hi : w.loans[i]? = some (k, l)) :
    l.readerId < maxReaders ∧ l.index + 1 < u64Size := by
  obtain ⟨hr, hlt⟩ := h.loans _ (List.mem_of_getElem? hi)
  have := h.length
  exact ⟨hr.trans_le cfg.readers_le, by dsimp only at hlt; omega⟩

/-- A call for a reader that does not participate. -/
theorem call_invalid {r : ℕ} (hc : c.reader? = some r) (hr : w.file.hdr.numReaders ≤ r)
    (hn : 1 ≤ w.file.hdr.numReaders) :
    w.call p c = .ok (.error (.invalidReaderId r (w.file.hdr.numReaders - 1)), w) := by
  refine call_of_error ?_
  cases c with
  | tryPop k q | peek k q | len k q | isEmpty k q | claim k q =>
      obtain rfl : q = r := Option.some.inj hc
      simp only [World.apply, tryPop, ShmRings.peek, ShmRings.len, ShmRings.isEmpty, ShmRings.claim,
        checkReader_err hr hn, error_bind]
  | _ => cases hc

/-- A call on a loan that was resolved, or that was never made. -/
theorem call_settled {i : ℕ} (hc : c.loan? = some i)
    (hl : ∀ k l, w.loans[i]? = some (k, l) → l.resolved = true) :
    w.call p c = .ok (.ok .done, w) := by
  refine call_of_apply ?_
  cases c with
  | commit j | abort j | drop j =>
      obtain rfl : j = i := Option.some.inj hc
      cases hi : w.loans[j]? with
      | none => simp only [World.apply, hi]
      | some kl =>
          have hset := set_same hi
          have hres := hl kl.1 kl.2 hi
          simp only [World.apply, hi, commit_resolved hres, abort_resolved hres, drop_resolved hres,
            ok_bind, setHandle_self, ← hres, hset]
          rfl
  | _ => cases hc

/-! ## What a call does -/

/-- The call does not panic, and what it does is one of the cases. -/
def Works (p : Profile) (w : World α) (c : Call α) : Prop :=
  ∃ a w', w.call p c = .ok (a, w') ∧ Effect w c a w'

/-- A call that names a reader is refused unless the reader participates. -/
theorem works_reader {r : ℕ} (h : Sound cfg w) (hc : c.reader? = some r)
    (hok : r < w.file.hdr.numReaders → Works p w c) : Works p w c := by
  by_cases hr : r < w.file.hdr.numReaders
  · exact hok hr
  · have hn : 1 ≤ w.file.hdr.numReaders := h.numReaders ▸ cfg.readers_pos
    exact ⟨_, _, call_invalid hc (Nat.not_lt.mp hr) hn, .invalid hc (Nat.not_lt.mp hr)⟩

/-- A call on a loan does nothing unless the loan is open. -/
theorem works_loan {i : ℕ} (hc : c.loan? = some i) (hok : ∀ k l, w.Open i k l → Works p w c) :
    Works p w c := by
  cases hi : w.loans[i]? with
  | none => exact ⟨_, _, call_settled hc (by simp [hi]), .noLoan hc hi⟩
  | some kl =>
      obtain ⟨k, l⟩ := kl
      cases hl : l.resolved with
      | false => exact hok k l ⟨hi, hl⟩
      | true =>
          refine ⟨_, _, call_settled hc fun k' l' hi' => ?_, .settled hc hi hl⟩
          rw [hi] at hi'
          cases hi'
          exact hl

theorem Sound.tryPush (h : Sound cfg w) {k : ℕ} {value : α} (hp : w.Permits (.tryPush k value)) :
    Works p w (.tryPush k value) := by
  have hn : w.file.hdr.numReaders ≤ maxReaders := h.numReaders ▸ cfg.readers_le
  by_cases hroom : w.file.lag < (w.handle k).capacity
  · have hnext : w.file.hdr.writeIdx + 1 < u64Size := h.writeIdx ▸ hp hroom
    refine ⟨_, _, call_of_apply ?_, .pushed hroom⟩
    simp only [World.apply, tryPush_room value hn h.slowest_le hroom hnext, ok_bind]
    rfl
  · refine ⟨_, _, call_of_apply ?_, .full (Nat.not_lt.mp hroom)⟩
    simp only [World.apply, tryPush_full value hn h.slowest_le (Nat.not_lt.mp hroom), ok_bind,
      Bool.false_eq_true, if_false, List.append_nil]
    rfl

theorem Sound.tryPop (h : Sound cfg w) (k r : ℕ) : Works p w (.tryPop k r) := by
  refine works_reader h rfl fun hr => ?_
  have hr8 := h.reader hr
  by_cases hd : (w.handle k).loanDepth r = 0
  · by_cases heq : w.cursor r = w.file.hdr.writeIdx
    · refine ⟨_, _, call_of_apply ?_, .popNone hr hd heq⟩
      simp only [World.apply, tryPop_none hr hr8 hd heq, ok_bind]
      rfl
    · refine ⟨_, _, call_of_apply ?_, .popSome hr hd heq⟩
      have hnext : w.cursor r + 1 < u64Size := by
        have := h.behind r (h.numReaders ▸ hr)
        have := h.writeIdx
        have := h.length
        omega
      simp only [World.apply, tryPop_some hr hr8 hd heq hnext, ok_bind]
      rfl
  · refine ⟨_, _, call_of_error ?_, .gated hr hd⟩
    simp only [World.apply, tryPop_gate hr hr8 hd, error_bind]

theorem Sound.claim (h : Sound cfg w) (k r : ℕ) : Works p w (.claim k r) := by
  refine works_reader h rfl fun hr => ?_
  have hr8 := h.reader hr
  by_cases hidx : w.file.hdr.writeIdx ≤ max (w.base k r) (w.cursor r)
  · refine ⟨_, _, call_of_apply ?_, .claimNone hr hidx⟩
    have hd : (w.handle k).loanDepth r < u64Size := by
      rw [h.gate]
      exact Nat.mod_lt _ (by decide)
    simp only [World.apply, claim_none hr hr8 hidx hd, ok_bind, setHandle_self]
    rfl
  · refine ⟨_, _, call_of_apply ?_, .claimSome hr rfl (Nat.not_le.mp hidx)⟩
    have hnext : max (w.base k r) (w.cursor r) + 1 < u64Size := by
      have := h.length
      have := h.writeIdx
      omega
    simp only [World.apply, claim_some hr hr8 (Nat.not_le.mp hidx) hnext, ok_bind]
    rfl

theorem Sound.commit (h : Sound cfg w) (i : ℕ) : Works p w (.commit i) := by
  refine works_loan rfl fun k l hopen => ?_
  obtain ⟨hr8, hnext⟩ := h.room hopen.1
  by_cases heq : w.cursor l.readerId = l.index
  · refine ⟨_, _, call_of_apply ?_, .committed (.inl rfl) hopen heq⟩
    simp only [World.apply, hopen.1, commit_eq hopen.2 hr8 heq hnext, ok_bind]
    rfl
  · refine ⟨_, _, call_of_error ?_, .commitEarly hopen heq⟩
    simp only [World.apply, hopen.1, commit_early hopen.2 hr8 heq, error_bind]
    rfl

theorem Sound.abort (h : Sound cfg w) (i : ℕ) : Works p w (.abort i) := by
  refine works_loan rfl fun k l hopen => ?_
  obtain ⟨hr8, -⟩ := h.room hopen.1
  refine ⟨_, _, call_of_apply ?_, .aborted hopen⟩
  simp only [World.apply, hopen.1, abort_eq hopen.2 hr8, ok_bind]
  rfl

theorem Sound.drop (h : Sound cfg w) (i : ℕ) : Works p w (.drop i) := by
  refine works_loan rfl fun k l hopen => ?_
  obtain ⟨hr8, hnext⟩ := h.room hopen.1
  by_cases heq : w.cursor l.readerId = l.index
  · refine ⟨_, _, call_of_apply ?_, .committed (.inr rfl) hopen heq⟩
    simp only [World.apply, hopen.1, drop_eq hopen.2 hr8 heq hnext, ok_bind]
    rfl
  · refine ⟨_, _, call_of_apply ?_, .droppedAway hopen heq⟩
    simp only [World.apply, hopen.1, drop_away hopen.2 hr8 heq, ok_bind]
    rfl

/-- **What a call does** in a sound world. -/
theorem call_effect (h : Sound cfg w) (hp : w.Permits c) : Works p w c := by
  cases c with
  | openExisting k => exact ⟨_, _, call_of_apply rfl, .opened⟩
  | tryPush k value => exact h.tryPush hp
  | tryPop k r => exact h.tryPop k r
  | peek k r =>
      refine works_reader h rfl fun hr => ⟨_, _, call_of_apply ?_, .peeked hr⟩
      simp only [World.apply, peek_eq hr (h.reader hr), ok_bind, apply_ite (Option.map _),
        Option.map_none, Option.map_some]
      rfl
  | len k r =>
      refine works_reader h rfl fun hr => ⟨_, _, call_of_apply ?_, .len hr⟩
      simp only [World.apply, len_eq hr (h.reader hr), ok_bind]
      rfl
  | isEmpty k r =>
      refine works_reader h rfl fun hr => ⟨_, _, call_of_apply ?_, .isEmpty hr⟩
      simp only [World.apply, isEmpty_eq hr (h.reader hr), ok_bind]
      rfl
  | slowestLag k =>
      refine ⟨_, _, call_of_apply ?_, .slowestLag⟩
      have hn : w.file.hdr.numReaders ≤ maxReaders := h.numReaders ▸ cfg.readers_le
      simp only [World.apply, slowestLag_eq hn, ok_bind]
      rfl
  | totalWritten k => exact ⟨_, _, call_of_apply rfl, .totalWritten⟩
  | claim k r => exact h.claim k r
  | commit i => exact h.commit i
  | abort i => exact h.abort i
  | drop i => exact h.drop i

/-- The cases of `Effect` are all that a call can do. -/
theorem Effect.of_call {a : Except ShmRingError (Reply α)} {w' : World α} (h : Sound cfg w)
    (hp : w.Permits c) (hcall : w.call p c = .ok (a, w')) : Effect w c a w' := by
  obtain ⟨a', w'', hcall', heff⟩ := @call_effect _ p _ _ _ h hp
  rw [hcall] at hcall'
  obtain ⟨rfl, rfl⟩ := Prod.mk.inj (Except.ok.inj hcall')
  exact heff

/-! ## A call keeps the invariant -/

theorem Sound.publish (h : Sound cfg w) {j : ℕ} (value : α) (hj : j = slotOf cfg.capacity w.stream.length)
    (hroom : w.file.lag < cfg.capacity) (hlen : w.stream.length + 1 < u64Size) :
    Sound cfg { w with file := w.file.publish j value, stream := w.stream ++ [value] } := by
  have hlength : (w.stream ++ [value]).length = w.stream.length + 1 := List.length_append
  have hlag : ∀ r < cfg.readers, w.stream.length < w.cursor r + cfg.capacity := by
    intro r hr
    have hle : slowest w.file.hdr.readIndices cfg.readers ≤ w.cursor r := ShmRings.slowest_le hr
    rw [RingFile.lag, h.writeIdx, h.numReaders] at hroom
    have := h.behind r hr
    omega
  refine ⟨h.numReaders, h.mask, by rw [hlength]; exact hlen, ?_, ?_, fun r hr => ?_, fun r hr => ?_,
    fun r hr => ?_, h.capacity, fun kl hkl => ?_, h.gate⟩
  · rw [hlength]
    exact congrArg (· + 1) h.writeIdx
  · rw [hlength]
    change wrappingAdd w.file.hdr.totalWritten 1 = _
    rw [h.total, wrappingAdd_eq hlen]
  · rw [hlength]
    exact Nat.le_succ_of_le (h.behind r hr)
  · rw [hlength]
    exact hlag r hr
  · have hmod : j = w.stream.length % cfg.capacity := hj.trans (cfg.slot_eq_mod _)
    subst hmod
    exact ((h.holds r hr).put (hlag r hr) value).push (Function.update_self _ _ _)
  · rw [hlength]
    exact ⟨(h.loans kl hkl).1, Nat.lt_succ_of_lt (h.loans kl hkl).2⟩

theorem Sound.advance {r : ℕ} (h : Sound cfg w) (hlt : w.cursor r < w.stream.length) :
    Sound cfg { w with file := w.file.advance r (w.cursor r + 1) } := by
  have hcur : ∀ q, w.cursor q ≤ Function.update w.file.hdr.readIndices r (w.cursor r + 1) q ∧
      (w.cursor q ≤ w.stream.length →
        Function.update w.file.hdr.readIndices r (w.cursor r + 1) q ≤ w.stream.length) := by
    intro q
    by_cases hq : q = r
    · subst hq
      rw [Function.update_self]
      exact ⟨Nat.le_succ _, fun _ => hlt⟩
    · rw [Function.update_of_ne hq]
      exact ⟨le_rfl, id⟩
  exact ⟨h.numReaders, h.mask, h.length, h.writeIdx, h.total,
    fun q hq => (hcur q).2 (h.behind q hq),
    fun q hq => (h.lag q hq).trans (Nat.add_le_add_right (hcur q).1 _),
    fun q hq => (h.holds q hq).mono (hcur q).1, h.capacity, h.loans, h.gate⟩

/-- The handles and the loans changed, and every gate still counts the open loans. -/
theorem Sound.relend (h : Sound cfg w) {k : ℕ} {h' : Handle} {loans : List (ℕ × Loan)}
    (hcap : h'.capacity = cfg.capacity)
    (hloans : ∀ kl ∈ loans, kl.2.readerId < cfg.readers ∧ kl.2.index < w.stream.length)
    (hself : ∀ r, h'.loanDepth r = loans.countP (isOpen k r) % u64Size)
    (hother : ∀ q r, q ≠ k → loans.countP (isOpen q r) = w.loans.countP (isOpen q r)) :
    Sound cfg { w.setHandle k h' with loans := loans } := by
  refine ⟨h.numReaders, h.mask, h.length, h.writeIdx, h.total, h.behind, h.lag, h.holds, fun q => ?_,
    hloans, fun q r => ?_⟩ <;> by_cases hq : q = k
  · subst hq
    exact (congrArg Handle.capacity (Function.update_self _ _ _)).trans hcap
  · exact (congrArg Handle.capacity (Function.update_of_ne hq _ _)).trans (h.capacity q)
  · subst hq
    exact (congrArg (fun x : Handle => x.loanDepth r) (Function.update_self _ _ _)).trans (hself r)
  · refine (congrArg (fun x : Handle => x.loanDepth r) (Function.update_of_ne hq _ _)).trans ((h.gate q r).trans ?_)
    rw [hother q r hq]

theorem isOpen_iff {k r q : ℕ} {l : Loan} (hl : l.resolved = false) :
    isOpen k r (q, l) = true ↔ q = k ∧ l.readerId = r := by
  simp [isOpen, hl]

/-- The open loans after one is resolved. -/
theorem countP_settle {i k : ℕ} {l : Loan} (hopen : w.Open i k l) (q r : ℕ) :
    (w.loans.set i (k, { l with resolved := true })).countP (isOpen q r) =
      w.loans.countP (isOpen q r) - if k = q ∧ l.readerId = r then 1 else 0 := by
  obtain ⟨hi, hl⟩ := hopen
  obtain ⟨hlt, hget⟩ := List.getElem?_eq_some_iff.mp hi
  have hdone : isOpen q r (k, { l with resolved := true }) = false := by simp [isOpen]
  rw [List.countP_set hlt, hget, hdone]
  simp only [isOpen_iff hl, Bool.false_eq_true, if_false, Nat.add_zero]

theorem countP_pos {i k : ℕ} {l : Loan} (hopen : w.Open i k l) :
    0 < w.loans.countP (isOpen k l.readerId) :=
  List.countP_pos_iff.mpr ⟨_, List.mem_of_getElem? hopen.1, (isOpen_iff hopen.2).mpr ⟨rfl, rfl⟩⟩

/-- **A loan is resolved**: its gate goes down by one. -/
theorem Sound.settle {i k : ℕ} {l : Loan} {h' : Handle} (h : Sound cfg w) (hopen : w.Open i k l)
    (hcap : h'.capacity = (w.handle k).capacity)
    (hdepth : h'.loanDepth = (w.lower k l.readerId).loanDepth) :
    Sound cfg (w.settle i k l h' w.file) := by
  refine h.relend (hcap.trans (h.capacity k)) (fun kl hkl => ?_) (fun r => ?_) fun q r hq => ?_
  · rcases List.mem_or_eq_of_mem_set hkl with hmem | heq
    · exact h.loans kl hmem
    · rw [heq]
      exact h.loans (k, l) (List.mem_of_getElem? hopen.1)
  · rw [hdepth, countP_settle hopen]
    change Function.update _ _ _ r = _
    by_cases hr : r = l.readerId
    · subst hr
      rw [Function.update_self, h.gate, wrappingSub_mod (countP_pos hopen), if_pos ⟨rfl, rfl⟩]
    · rw [Function.update_of_ne hr, h.gate, if_neg fun hand => hr hand.2.symm, Nat.sub_zero]
  · rw [countP_settle hopen, if_neg fun hand => hq hand.1.symm, Nat.sub_zero]

/-- **A call keeps the invariant.** -/
theorem Sound.effect {a : Except ShmRingError (Reply α)} {w' : World α} (h : Sound cfg w)
    (hp : w.Permits c) (heff : Effect w c a w') : Sound cfg w' := by
  cases heff with
  | @opened k =>
      have hcap : w.file.hdr.capacityMask + 1 = cfg.capacity := by
        have := cfg.capacity_pos
        rw [h.mask]
        omega
      have hnone : ∀ r, w.loans.countP (isOpen k r) = 0 := by
        intro r
        refine List.countP_eq_zero.mpr fun kl hkl hopen => ?_
        obtain ⟨q, l⟩ := kl
        cases hl : l.resolved with
        | true => simp [isOpen, hl] at hopen
        | false =>
            obtain ⟨rfl, -⟩ := (isOpen_iff hl).mp hopen
            rw [hp l hkl] at hl
            cases hl
      refine h.relend hcap h.loans (fun r => ?_) fun _ _ _ => rfl
      rw [hnone]
      rfl
  | @pushed k value hroom =>
      have hlen := hp hroom
      rw [h.capacity] at hroom
      refine h.publish value ?_ hroom hlen
      rw [Handle.slot, h.capacity, h.writeIdx]
  | popSome hr hd hne =>
      refine h.advance (lt_of_le_of_ne (h.behind _ (h.numReaders ▸ hr)) fun heq => hne ?_)
      rw [heq, h.writeIdx]
  | @claimSome k r idx hr hidx hlt =>
      have hone : ∀ q r', [(k, (⟨r, idx, false⟩ : Loan))].countP (isOpen q r') =
          if k = q ∧ r = r' then 1 else 0 := by
        intro q r'
        have hiff := isOpen_iff (k := q) (r := r') (q := k) (l := ⟨r, idx, false⟩) rfl
        rw [List.countP_singleton, if_congr hiff rfl rfl]
      refine h.relend (h.capacity k) (fun kl hkl => ?_) (fun r' => ?_) fun q r' hq => ?_
      · rcases List.mem_append.mp hkl with hmem | hmem
        · exact h.loans kl hmem
        · obtain rfl := List.mem_singleton.mp hmem
          exact ⟨h.numReaders ▸ hr, h.writeIdx ▸ hlt⟩
      · rw [List.countP_append, hone]
        change Function.update (w.handle k).loanDepth r _ r' = _
        by_cases hr' : r' = r
        · subst hr'
          rw [Function.update_self, h.gate, wrappingAdd_mod, if_pos ⟨rfl, rfl⟩]
        · rw [Function.update_of_ne hr', h.gate, if_neg fun hand => hr' hand.2.symm, Nat.add_zero]
      · rw [List.countP_append, hone, if_neg fun hand => hq hand.1.symm, Nat.add_zero]
  | @committed _ i k l _ hopen heq =>
      have hlt := (h.loans _ (List.mem_of_getElem? hopen.1)).2
      rw [← heq] at hlt ⊢
      exact (h.advance hlt).settle hopen rfl rfl
  | aborted hopen => exact h.settle hopen rfl rfl
  | droppedAway hopen _ => exact h.settle hopen rfl rfl
  | _ => exact h

/-- **Invariant rule for runs of calls**: in a sound world a call has one of the effects. -/
theorem world_invariant {I : World α → Prop} {S : World α → Prop} {C : World α → Call α → Prop}
    (hsound : ∀ w, I w → Sound cfg w) (hC : ∀ w c, C w c → w.Permits c) (hinit : ∀ w, S w → I w)
    (hstep : ∀ w c a w', I w → C w c → Effect w c a w' → I w') (h : Reachable (world p S C) w) : I w := by
  refine h.invariant hinit ?_
  rintro w ⟨c, a⟩ w' hI ⟨hc, hcall⟩
  exact hstep w c a w' hI hc (.of_call (hsound w hI) (hC w c hc) hcall)

/-- **The invariant holds in every run** of the calls that are permitted. -/
theorem Sound.of_reachable {S : World α → Prop} {C : World α → Call α → Prop}
    (hS : ∀ w, S w → Sound cfg w) (hC : ∀ w c, C w c → w.Permits c)
    (h : Reachable (world p S C) w) : Sound cfg w :=
  world_invariant (fun _ h => h) hC hS (fun w c _ _ hs hc heff => hs.effect (hC w c hc) heff) h

/-- A ring just created, seen through handles that were just opened. -/
def World.created (cfg : Config) (slots : ℕ → α) : World α where
  file := ⟨⟨magic, version, cfg.readers, 0, fun _ => 0, cfg.capacity - 1, 0⟩, slots⟩
  handle := fun _ => .fresh cfg.capacity
  loans := []
  stream := []

theorem sound_created (cfg : Config) (slots : ℕ → α) : Sound cfg (World.created cfg slots) where
  numReaders := rfl
  mask := rfl
  length := Nat.two_pow_pos 64
  writeIdx := rfl
  total := rfl
  behind := fun _ _ => le_rfl
  lag := fun _ _ => Nat.zero_le _
  holds := fun _ _ => Window.holds_of_length_le le_rfl
  capacity := fun _ => rfl
  loans := fun _ h => by cases h
  gate := fun _ _ => rfl

end ShmRings
