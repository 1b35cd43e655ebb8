import ShmRings.Threads.Lives

/-!
# Loans that end in order

An abort rewinds the pipeline of its reader and a drop away from the cursor gives its index up. Where only the
newest loan is aborted and only the oldest one dropped, the open loans are the pipeline at all times: every
index from the cursor to the head has one loan, whatever any number of threads do meanwhile.

* `EndsInOrder`; `Chosen`, `Unbroken`: the pipeline of one reader;
* `Unbroken.take`, `Unbroken.consume`, **`Unbroken.rewind`**: a claim, a cursor store and an abort;
  `Unbroken.access`;
* `RingOk`: what the producer and the slots contribute; `UnbrokenInv`, `UnbrokenInv.step`; **`loans_unbroken`**.
-/

set_option autoImplicit false

namespace ShmRings.Threads

open Coherent Transition

variable {α : Type} {cfg : Config} {who : ℕ → ℕ} {rogue : ℕ → Prop} {r c₀ : ℕ}

/-- An abort of reader `r` takes effect on the newest loan, and a drop finds its loan at the cursor. -/
structure EndsInOrder (who : ℕ → ℕ) (r : ℕ) (s : LoanState α) (e : Move) (_ : LoanState α) : Prop where
  abort : ∀ t idx, e = .access t → who t = r → s.ticket t = .abortMin idx → s.base r = idx + 1
  drop : ∀ t idx, e = .access t → who t = r → s.ticket t = .dropLoad idx → s.cursor r = idx

/-- What a claim knows. The head it read may have been rewound and be there again. -/
def Chosen (c₀ cursor W : ℕ) : TicketPc → Prop
  | .loadCursor w => w ≤ W
  | .loadBase w c => w ≤ W ∧ c₀ ≤ c ∧ c ≤ cursor
  | .exchange b idx => idx < W ∧ ∃ c, c₀ ≤ c ∧ c ≤ cursor ∧ idx = max b c
  | .dropSkip _ => False
  | _ => True

/-- The pipeline of one reader; `mine` are its tickets. -/
structure Unbroken (mine : ℕ → Prop) (c₀ base cursor W : ℕ) (ticket : ℕ → TicketPc) : Prop where
  lo : c₀ ≤ cursor
  hi : cursor ≤ max base c₀
  published : max base c₀ ≤ W
  chosen : ∀ t, mine t → Chosen c₀ cursor W (ticket t)
  storing : ∀ t idx, mine t → (ticket t).stores = some idx → idx = cursor
  range : ∀ t idx, mine t → (ticket t).loan = some idx → cursor ≤ idx ∧ idx < max base c₀
  unique : ∀ t t' idx, mine t → mine t' → (ticket t).loan = some idx →
    (ticket t').loan = some idx → t = t'
  filled : ∀ idx, cursor ≤ idx → idx < max base c₀ → ∃ t, mine t ∧ (ticket t).loan = some idx

section Pipeline

variable {mine : ℕ → Prop} {base cursor W : ℕ} {ticket : ℕ → TicketPc} {pc : TicketPc} {t : ℕ}

theorem Chosen.mono {cursor' W' : ℕ} (h : Chosen c₀ cursor W pc) (hcursor : cursor ≤ cursor') (hW : W ≤ W') :
    Chosen c₀ cursor' W' pc := by
  cases pc with
  | loadCursor w => exact le_trans h hW
  | loadBase w c => exact ⟨h.1.trans hW, h.2.1, h.2.2.trans hcursor⟩
  | exchange b idx =>
      obtain ⟨hidx, c, hlo, hhi, heq⟩ := h
      exact ⟨hidx.trans_le hW, c, hlo, hhi.trans hcursor, heq⟩
  | dropSkip _ => exact h
  | _ => trivial

/-- The ticket that moves has its new point, the others have theirs. -/
theorem forall_update {P : ℕ → TicketPc → Prop} (hself : mine t → P t pc)
    (hother : ∀ q, q ≠ t → mine q → P q (ticket q)) : ∀ q, mine q → P q (Function.update ticket t pc q) := by
  intro q hq
  by_cases hqt : q = t
  · subst hqt
    rw [Function.update_self]
    exact hself hq
  · rw [Function.update_of_ne hqt]
    exact hother q hqt hq

theorem Unbroken.publish {W' : ℕ} (h : Unbroken mine c₀ base cursor W ticket) (hW : W ≤ W') :
    Unbroken mine c₀ base cursor W' ticket :=
  { h with
    published := h.published.trans hW
    chosen := fun t ht => (h.chosen t ht).mono le_rfl hW }

/-- The tickets of other readers play no part. -/
theorem Unbroken.congr {ticket' : ℕ → TicketPc} (h : Unbroken mine c₀ base cursor W ticket)
    (hsame : ∀ t, mine t → ticket' t = ticket t) : Unbroken mine c₀ base cursor W ticket' where
  lo := h.lo
  hi := h.hi
  published := h.published
  chosen t ht := hsame t ht ▸ h.chosen t ht
  storing t idx ht := hsame t ht ▸ h.storing t idx ht
  range t idx ht := hsame t ht ▸ h.range t idx ht
  unique t t' idx ht ht' := hsame t ht ▸ hsame t' ht' ▸ h.unique t t' idx ht ht'
  filled idx hlo hhi := by
    obtain ⟨t, ht, hl⟩ := h.filled idx hlo hhi
    exact ⟨t, ht, hsame t ht ▸ hl⟩

/-- A ticket moves on with the loan it had. -/
theorem Unbroken.move (h : Unbroken mine c₀ base cursor W ticket) (hchosen : Chosen c₀ cursor W pc)
    (hstore : ∀ idx, pc.stores = some idx → idx = cursor) (hloan : pc.loan = (ticket t).loan) :
    Unbroken mine c₀ base cursor W (Function.update ticket t pc) := by
  have hsame : ∀ q, (Function.update ticket t pc q).loan = (ticket q).loan := by
    intro q
    by_cases hqt : q = t
    · rw [hqt, Function.update_self, hloan]
    · rw [Function.update_of_ne hqt]
  refine ⟨h.lo, h.hi, h.published, forall_update (fun _ => hchosen) fun q _ => h.chosen q,
    fun q idx hq => ?_, fun q idx hq hl => ?_, fun q q' idx hq hq' hl hl' => ?_, fun idx hlo hhi => ?_⟩
  · exact forall_update (P := fun _ pc => pc.stores = some idx → idx = cursor) (fun _ => hstore idx)
      (fun q _ hq => h.storing q idx hq) q hq
  · rw [hsame] at hl
    exact h.range q idx hq hl
  · rw [hsame] at hl hl'
    exact h.unique q q' idx hq hq' hl hl'
  · obtain ⟨q, hq, hl⟩ := h.filled idx hlo hhi
    exact ⟨q, hq, (hsame q).trans hl⟩

/-- **A successful compare-exchange takes the head.** -/
theorem Unbroken.take {idx : ℕ} (h : Unbroken mine c₀ base cursor W ticket) (ht : mine t)
    (hpc : ticket t = .exchange base idx) :
    idx = max base c₀ ∧ Unbroken mine c₀ (idx + 1) cursor W (Function.update ticket t (.held idx)) := by
  have hlo := h.lo
  have hhi := h.hi
  have hchosen := h.chosen t ht
  rw [hpc] at hchosen
  obtain ⟨hidx, c, hc, hc', heq⟩ := hchosen
  obtain rfl : idx = max base c₀ := by omega
  have hnone : (ticket t).loan = none := by rw [hpc]; rfl
  have hold : ∀ q i, mine q → (Function.update ticket t (.held (max base c₀)) q).loan = some i →
      (q = t ∧ i = max base c₀) ∨ (q ≠ t ∧ (ticket q).loan = some i ∧ i < max base c₀) := by
    intro q i hq hl
    by_cases hqt : q = t
    · rw [hqt, Function.update_self] at hl
      cases hl
      exact .inl ⟨hqt, rfl⟩
    · rw [Function.update_of_ne hqt] at hl
      exact .inr ⟨hqt, hl, (h.range q i hq hl).2⟩
  refine ⟨rfl, hlo, by omega, by omega, forall_update (fun _ => trivial) fun q _ => h.chosen q,
    fun q i hq => ?_, fun q i hq hl => ?_, fun q q' i hq hq' hl hl' => ?_, fun i hi hi' => ?_⟩
  · exact forall_update (P := fun _ pc => pc.stores = some i → i = cursor) (fun _ hst => (by cases hst))
      (fun q _ hq => h.storing q i hq) q hq
  · rcases hold q i hq hl with ⟨-, rfl⟩ | ⟨-, hl', hlt⟩
    · omega
    · have := (h.range q i hq hl').1
      omega
  · rcases hold q i hq hl with ⟨rfl, rfl⟩ | ⟨-, hl₁, hlt⟩
    · rcases hold q' _ hq' hl' with ⟨rfl, -⟩ | ⟨-, -, hlt'⟩
      · rfl
      · omega
    · rcases hold q' i hq' hl' with ⟨-, rfl⟩ | ⟨-, hl₂, -⟩
      · omega
      · exact h.unique q q' i hq hq' hl₁ hl₂
  · rcases Nat.lt_or_ge i (max base c₀) with hlt | hge
    · obtain ⟨q, hq, hl⟩ := h.filled i hi hlt
      refine ⟨q, hq, ?_⟩
      have hqt : q ≠ t := by
        rintro rfl
        rw [hnone] at hl
        cases hl
      rw [Function.update_of_ne hqt]
      exact hl
    · refine ⟨t, ht, ?_⟩
      rw [Function.update_self]
      exact congrArg some (by omega)

/-- A loan that ends leaves the others. -/
theorem Unbroken.ends {i : ℕ} (h : Unbroken mine c₀ base cursor W ticket) (ht : mine t)
    (hloan : (ticket t).loan = some i) :
    (∀ q j, mine q → (Function.update ticket t .resolve q).loan = some j → (ticket q).loan = some j ∧ j ≠ i) ∧
    ∀ j, j ≠ i → cursor ≤ j → j < max base c₀ →
      ∃ q, mine q ∧ (Function.update ticket t .resolve q).loan = some j := by
  refine ⟨fun q j hq hl => ?_, fun j hj hlo hhi => ?_⟩
  · by_cases hqt : q = t
    · rw [hqt, Function.update_self] at hl
      cases hl
    · rw [Function.update_of_ne hqt] at hl
      refine ⟨hl, ?_⟩
      rintro rfl
      exact hqt (h.unique q t j hq ht hl hloan)
  · obtain ⟨q, hq, hl⟩ := h.filled j hlo hhi
    have hqt : q ≠ t := by
      rintro rfl
      rw [hloan] at hl
      exact hj (Option.some.inj hl).symm
    exact ⟨q, hq, by rw [Function.update_of_ne hqt]; exact hl⟩

/-- **A cursor store ends the oldest loan.** -/
theorem Unbroken.consume (h : Unbroken mine c₀ base cursor W ticket) (ht : mine t)
    (hst : (ticket t).stores = some cursor) :
    Unbroken mine c₀ base (cursor + 1) W (Function.update ticket t .resolve) := by
  have hloan := loan_of_stores hst
  have hlt := (h.range t cursor ht hloan).2
  obtain ⟨hold, hfilled⟩ := h.ends ht hloan
  refine ⟨h.lo.trans (Nat.le_succ _), hlt, h.published,
    forall_update (fun _ => trivial) fun q _ hq => (h.chosen q hq).mono (Nat.le_succ _) le_rfl,
    fun q i hq hs => ?_, fun q i hq hl => ?_, fun q q' i hq hq' hl hl' => ?_, fun i hlo hhi => ?_⟩
  · by_cases hqt : q = t
    · rw [hqt, Function.update_self] at hs
      cases hs
    · have hne := (hold q i hq (loan_of_stores hs)).2
      rw [Function.update_of_ne hqt] at hs
      exact absurd (h.storing q i hq hs) hne
  · obtain ⟨hl', hne⟩ := hold q i hq hl
    have hr := h.range q i hq hl'
    omega
  · exact h.unique q q' i hq hq' (hold q i hq hl).1 (hold q' i hq' hl').1
  · exact hfilled i (by omega) (by omega) hhi

/-- **An abort of the newest loan moves the head back to it.** -/
theorem Unbroken.rewind {idx : ℕ} (h : Unbroken mine c₀ base cursor W ticket) (ht : mine t)
    (hpc : ticket t = .abortMin idx) (hnewest : base = idx + 1) :
    Unbroken mine c₀ (min base idx) cursor W (Function.update ticket t .resolve) := by
  have hloan : (ticket t).loan = some idx := by rw [hpc]; rfl
  have hr := h.range t idx ht hloan
  have hlo := h.lo
  have hpub := h.published
  obtain ⟨hold, hfilled⟩ := h.ends ht hloan
  have hhead : max (min base idx) c₀ = idx := by omega
  have hhead' : max base c₀ = idx + 1 := by omega
  refine ⟨hlo, by omega, by omega, forall_update (fun _ => trivial) fun q _ => h.chosen q,
    fun q i hq => ?_, fun q i hq hl => ?_, fun q q' i hq hq' hl hl' => ?_, fun i hi hi' => ?_⟩
  · exact forall_update (P := fun _ pc => pc.stores = some i → i = cursor) (fun _ hst => (by cases hst))
      (fun q _ hq => h.storing q i hq) q hq
  · obtain ⟨hl', hne⟩ := hold q i hq hl
    have := h.range q i hq hl'
    omega
  · exact h.unique q q' i hq hq' (hold q i hq hl).1 (hold q' i hq' hl').1
  · exact hfilled i (by omega) hi (by omega)

/-- **An access of one of the reader's tickets.** -/
theorem Unbroken.access {m m' : Memory Loc α}
    (h : Unbroken mine c₀ (m.now (.claimBase r)) (m.now (.readIdx r)) W ticket) (ht : mine t)
    (hacc : TicketAccess r m (ticket t) m' pc) (hW : m.now .writeIdx = W) (hlen : W < u64Size)
    (habort : ∀ idx, ticket t = .abortMin idx → m.now (.claimBase r) = idx + 1)
    (hdrop : ∀ idx, ticket t = .dropLoad idx → m.now (.readIdx r) = idx) :
    Unbroken mine c₀ (m'.now (.claimBase r)) (m'.now (.readIdx r)) W (Function.update ticket t pc) := by
  have hpub := h.published
  have hchosen := h.chosen t ht
  generalize hpc : ticket t = p at hacc hchosen
  have hgate : ∀ {v} {q : TicketPc}, p.loan = none → q.loan = none → q.stores = none →
      Chosen c₀ (m.now (.readIdx r)) W q →
      Unbroken mine c₀ ((m.store (.loanDepth r) v).now (.claimBase r))
        ((m.store (.loanDepth r) v).now (.readIdx r)) W (Function.update ticket t q) := by
    intro v q hp hq hs hok
    rw [Memory.store_now_ne _ (by simp), Memory.store_now_ne _ (by simp)]
    exact h.move hok (fun _ hst => by rw [hs] at hst; cases hst) (by rw [hpc, hp, hq])
  -- a store moves the cursor past the loan at it
  have hstore : ∀ {idx}, p.stores = some idx →
      Unbroken mine c₀ ((m.store (.readIdx r) (wrappingAdd idx 1)).now (.claimBase r))
        ((m.store (.readIdx r) (wrappingAdd idx 1)).now (.readIdx r)) W (Function.update ticket t .resolve) := by
    intro idx hst
    rw [← hpc] at hst
    obtain rfl := h.storing t idx ht hst
    have hlt := (h.range t _ ht (loan_of_stores hst)).2
    rw [Memory.store_now_ne _ (by simp), Memory.store_now_self, wrappingAdd_eq (by omega)]
    exact h.consume ht hst
  cases hacc with
  | accept | refuse | caughtUp | lost => exact h.move trivial (fun _ hst => (by cases hst)) (by rw [hpc]; rfl)
  | raise | lower | resolve => exact hgate rfl rfl rfl trivial
  | writeIdx => exact h.move hW.le (fun _ hst => (by cases hst)) (by rw [hpc]; rfl)
  | cursor => exact h.move ⟨hchosen, h.lo, le_rfl⟩ (fun _ hst => (by cases hst)) (by rw [hpc]; rfl)
  | choose hlt =>
      exact h.move ⟨hlt.trans_le hchosen.1, _, hchosen.2.1, hchosen.2.2, rfl⟩ (fun _ hst => (by cases hst))
        (by rw [hpc]; rfl)
  | won heq =>
      have hidx := hchosen.1
      subst heq
      rw [Memory.store_now_self, Memory.store_now_ne _ (by simp), wrappingAdd_eq (by omega)]
      exact (h.take ht hpc).2
  | reject => exact h.move trivial (fun _ hst => (by cases hst)) (by rw [hpc]; rfl)
  | passCommit heq | passDrop heq =>
      refine h.move trivial (fun _ hst => ?_) (by rw [hpc]; rfl)
      cases hst
      exact heq.symm
  | storeCommit | storeDrop => exact hstore rfl
  | rewind =>
      rw [Memory.store_now_self, Memory.store_now_ne _ (by simp)]
      exact h.rewind ht hpc (habort _ hpc)
  | skipDrop hne => exact absurd (hdrop _ hpc) hne
  | leave => exact hchosen.elim

end Pipeline

/-! ## The invariant -/

/-- What reader `r` needs of the ring. -/
structure RingOk (cfg : Config) (r : ℕ) (s : LoanState α) : Prop where
  numReaders : s.mem.now .numReaders = cfg.readers
  writeIdx : s.mem.now .writeIdx = s.stream.length
  lag : s.stream.length ≤ s.cursor r + cfg.capacity
  holds : Window.Holds cfg.capacity s.mem.data s.stream (s.cursor r)
  push : PushOk cfg (· = r) s.cursor s.mem.data s.stream.length s.push

/-- The invariant of reader `r`, whose cursor was `c₀` when the handle was opened. -/
structure UnbrokenInv (cfg : Config) (who : ℕ → ℕ) (r c₀ : ℕ) (s : LoanState α) : Prop where
  ring : RingOk cfg r s
  pipe : Unbroken (who · = r) c₀ (s.base r) (s.cursor r) s.stream.length s.ticket
  log : s.consumed r = List.range' c₀ (s.consumed r).length
  cursor : s.cursor r = c₀ + (s.consumed r).length

section Step

variable {s t : LoanState α} {m : Memory Loc α}

/-- The ring does not notice a step that leaves the slots alone and the cursor where it was or ahead. -/
theorem RingOk.frame (h : RingOk cfg r s) (hnum : t.mem.now .numReaders = s.mem.now .numReaders)
    (hw : t.mem.now .writeIdx = s.mem.now .writeIdx) (hdata : t.mem.data = s.mem.data)
    (hstream : t.stream = s.stream) (hpush : t.push = s.push) (hcur : s.cursor r ≤ t.cursor r) :
    RingOk cfg r t := by
  refine ⟨hnum.trans h.numReaders, ?_, ?_, ?_, ?_⟩
  · rw [hstream]
    exact hw.trans h.writeIdx
  · rw [hstream]
    exact h.lag.trans (Nat.add_le_add_right hcur _)
  · rw [hdata, hstream]
    exact h.holds.mono hcur
  · rw [hdata, hstream, hpush]
    refine h.push.mono fun q hq => ?_
    rw [hq]
    exact hcur

/-- `s` with no call under way and each index up to the head claimed once: what the producer and the next
claim find. -/
def LoanState.hushed (s : LoanState α) (r c₀ : ℕ) : LoanState α :=
  { s with
    ticket := fun _ => .idle
    claimed := fun _ => List.range' c₀ (max (s.base r) c₀ - c₀) }

theorem UnbrokenInv.hushed (h : UnbrokenInv cfg who r c₀ s) : ClaimInv cfg who r c₀ (s.hushed r c₀) := by
  have hlo := h.pipe.lo
  have hhi := h.pipe.hi
  have hpub := h.pipe.published
  have hlen : ((s.hushed r c₀).claimed r).length = max (s.base r) c₀ - c₀ := List.length_range'
  refine ⟨h.ring.numReaders, h.ring.writeIdx, h.ring.lag, h.ring.holds, h.ring.push, ?_, ?_⟩
  · rw [hlen]
    rfl
  · rw [hlen]
    exact ⟨by change max (s.base r) c₀ = _; omega, hlo, by change s.cursor r ≤ _; omega,
      by change _ ≤ s.stream.length; omega, fun _ _ => trivial, fun _ _ _ hst => (by cases hst),
      fun _ _ _ hl => (by cases hl), fun _ _ _ _ _ hl => (by cases hl)⟩

theorem unbrokenInv_opened (h : Opened cfg (fun r => r < cfg.readers ∧ ¬ rogue r) s) (hr : r < cfg.readers)
    (hr' : ¬ rogue r) : UnbrokenInv cfg who r (s.cursor r) s := by
  obtain ⟨hle, hlag, hholds⟩ := h.window r ⟨hr, hr'⟩
  refine ⟨⟨h.numReaders, h.writeIdx, hlag, hholds, ?_⟩, ?_, ?_, ?_⟩
  · exact h.push.weaken fun q hq => by rw [hq]; exact ⟨hr, hr'⟩
  · rw [h.base]
    refine ⟨le_rfl, by omega, by omega, fun t _ => ?_, fun t idx _ hst => ?_, fun t idx _ hl => ?_,
      fun t t' idx _ _ hl _ => ?_, fun idx hlo hhi => by omega⟩
    · rw [h.ticket]
      trivial
    · rw [h.ticket] at hst
      cases hst
    · rw [h.ticket] at hl
      cases hl
    · rw [h.ticket] at hl
      cases hl
  · rw [h.consumed]
    rfl
  · rw [h.consumed]
    rfl

theorem UnbrokenInv.set_push (h : UnbrokenInv cfg who r c₀ s) {pc : PushPc α}
    (hpc : PushOk cfg (· = r) s.cursor s.mem.data s.stream.length pc) :
    UnbrokenInv cfg who r c₀ { s with push := pc } :=
  ⟨⟨h.ring.numReaders, h.ring.writeIdx, h.ring.lag, h.ring.holds, hpc⟩, h.pipe, h.log, h.cursor⟩

theorem UnbrokenInv.step_push (h : UnbrokenInv cfg who r c₀ s) (hr : r < cfg.readers) {pc : PushPc α}
    (hacc : Direct s.mem (pushCode cfg s.push) m pc)
    (hlen : (s.stream ++ s.push.publishes).length < u64Size) :
    UnbrokenInv cfg who r c₀ (s.pushStep m pc) := by
  have hring : ClaimInv cfg who r c₀ ((s.hushed r c₀).pushStep m pc) := h.hushed.step_push hr hacc hlen
  obtain ⟨vw, hacc⟩ := hacc
  have hcur : m.now (.readIdx r) = s.cursor r := congrArg Cell.now (push_word hacc (by simp) (by simp))
  have hbase : m.now (.claimBase r) = s.base r := congrArg Cell.now (push_word hacc (by simp) (by simp))
  refine ⟨⟨hring.numReaders, hring.writeIdx, hring.lag, hring.holds, hring.push⟩, ?_, h.log, ?_⟩
  · show Unbroken _ _ (m.now (.claimBase r)) (m.now (.readIdx r)) _ _
    rw [hcur, hbase]
    exact h.pipe.publish (by rw [LoanState.pushStep, List.length_append]; omega)
  · exact hcur.trans h.cursor

/-- A call leaves its ticket the loan it had. -/
theorem UnbrokenInv.step_call (h : UnbrokenInv cfg who r c₀ s) {q : ℕ} {c : LoanCall} {pc : TicketPc}
    (hcall : (s.ticket q).call c = some pc) :
    UnbrokenInv cfg who r c₀ { s with ticket := Function.update s.ticket q pc } := by
  refine ⟨⟨h.ring.numReaders, h.ring.writeIdx, h.ring.lag, h.ring.holds, h.ring.push⟩,
    h.pipe.move ?_ ?_ ?_, h.log, h.cursor⟩ <;> generalize s.ticket q = p at hcall
  · cases c <;> cases p <;> cases hcall <;> trivial
  · intro idx hst
    cases c <;> cases p <;> cases hcall <;> cases hst
  · cases c <;> cases p <;> cases hcall <;> rfl

/-- **An access of one of the reader's tickets keeps the invariant.** -/
theorem UnbrokenInv.step_ticket (h : UnbrokenInv cfg who r c₀ s) (hlen : s.stream.length < u64Size) {q : ℕ}
    {pc : TicketPc} (hq : who q = r) (hacc : TicketAccess r s.mem (s.ticket q) m pc)
    (habort : ∀ idx, s.ticket q = .abortMin idx → s.base r = idx + 1)
    (hdrop : ∀ idx, s.ticket q = .dropLoad idx → s.cursor r = idx) :
    UnbrokenInv cfg who r c₀ (s.ticketStep m q r pc) := by
  have hpipe := h.pipe.access hq hacc h.ring.writeIdx hlen habort hdrop
  have hcons : (s.ticketStep m q r pc).consumed r = s.consumed r ++ (s.ticket q).consumes :=
    Function.update_self _ _ _
  -- a store consumes the index at the cursor, every other access none
  have hlog : (s.ticketStep m q r pc).cursor r = s.cursor r + (s.ticket q).consumes.length ∧
      (s.ticketStep m q r pc).consumed r =
        List.range' c₀ ((s.consumed r).length + (s.ticket q).consumes.length) := by
    rw [hcons, TicketPc.consumes]
    cases hst : (s.ticket q).stores with
    | none => exact ⟨ticket_cursor hacc hst, (List.append_nil _).trans h.log⟩
    | some idx =>
        obtain rfl : idx = s.cursor r := h.pipe.storing q idx hq hst
        have hlt := (h.pipe.range q _ hq (loan_of_stores hst)).2.trans_le h.pipe.published
        obtain ⟨-, rfl⟩ := ticket_store hacc hst
        refine ⟨(Memory.store_now_self _ _ _).trans (wrappingAdd_eq (by omega)), ?_⟩
        rw [Option.toList_some, List.length_singleton, List.range'_concat, ← h.log, h.cursor, Nat.one_mul]
  obtain ⟨hcur, hcons'⟩ := hlog
  refine ⟨h.ring.frame ?_ ?_ (ticket_data hacc) rfl rfl ?_, hpipe, ?_, ?_⟩
  · exact ticket_now hacc (by simp) (by simp) (by simp)
  · exact ticket_now hacc (by simp) (by simp) (by simp)
  · rw [hcur]
    exact Nat.le_add_right _ _
  · rw [hcons', List.length_range']
  · rw [hcons', List.length_range', hcur, h.cursor, Nat.add_assoc]

/-- Reader `r` does not notice a step on the words and the tickets of others. -/
theorem UnbrokenInv.frame (h : UnbrokenInv cfg who r c₀ s)
    (hnow : ∀ x ∈ [Loc.numReaders, .writeIdx, .readIdx r, .claimBase r], t.mem.now x = s.mem.now x)
    (hdata : t.mem.data = s.mem.data) (hstream : t.stream = s.stream) (hpush : t.push = s.push)
    (hconsumed : t.consumed r = s.consumed r) (hticket : ∀ q, who q = r → t.ticket q = s.ticket q) :
    UnbrokenInv cfg who r c₀ t := by
  have hcur : t.cursor r = s.cursor r := hnow _ (by simp)
  have hbase : t.base r = s.base r := hnow _ (by simp)
  refine ⟨h.ring.frame (hnow _ (by simp)) (hnow _ (by simp)) hdata hstream hpush hcur.ge, ?_, ?_, ?_⟩
  · rw [hstream, hcur, hbase]
    exact h.pipe.congr hticket
  · rw [hconsumed]
    exact h.log
  · rw [hconsumed, hcur]
    exact h.cursor

/-- **Every step keeps the invariant** in which the loans of reader `r` end in order. -/
theorem UnbrokenInv.step {e : Move} (h : UnbrokenInv cfg who r c₀ s) (hr : r < cfg.readers) (hr' : ¬ rogue r)
    (hst : LoanStep cfg who rogue s e t) (hends : EndsInOrder who r s e t)
    (hlen : t.stream.length < u64Size) : UnbrokenInv cfg who r c₀ t := by
  have hlen' : s.stream.length < u64Size := (length_loanStep_le hst).trans_lt hlen
  cases hst with
  | callPush | retPush => exact h.set_push trivial
  | push hacc => exact h.step_push hr hacc hlen
  | call q hcall => exact h.step_call hcall
  | @access q m pc hacc =>
      have hacc' := ticket_access hacc
      by_cases hq : who q = r
      · subst hq
        exact h.step_ticket hlen' rfl hacc' (fun idx => hends.abort q idx rfl rfl)
          fun idx => hends.drop q idx rfl rfl
      · refine h.frame ?_ (ticket_data hacc') rfl rfl (Function.update_of_ne (Ne.symm hq) _ _) ?_
        · intro x hx
          refine ticket_now hacc' ?_ ?_ ?_ <;> rintro rfl <;> simp [hq] at hx
        · intro q' hq'
          exact Function.update_of_ne (by rintro rfl; exact hq hq') _ _
  | poke q v hq _ =>
      have hqr : r ≠ q := fun heq => hr' (heq ▸ hq)
      refine h.frame (fun x hx => Memory.store_now_ne _ ?_ _) rfl rfl rfl rfl fun _ _ => rfl
      rintro rfl
      simp [hqr.symm] at hx

end Step

/-- **Loans that end in order are an unbroken row.** In every run of any number of threads on one handle in which
each abort of the reader's takes effect on its newest loan and each drop finds its loan at the cursor, the
indices consumed are those from the cursor at the opening on, one by one; the open loans are exactly the indices
from the cursor to the head, each held once and with its message in its slot, although aborts move the head back
and forth beside claims that read it; and a claim that nobody interferes with gets the head, if that is published.
-/
theorem loans_unbroken {s₀ s : LoanState α} {es : List Move} (hr : r < cfg.readers) (hr' : ¬ rogue r)
    (hinit : Opened cfg (fun r => r < cfg.readers ∧ ¬ rogue r) s₀)
    (hrun : Run ((loans cfg who rogue).guard (EndsInOrder who r)) s₀ es s) (hlen : s.stream.length < u64Size) :
    (s.consumed r = List.range' (s₀.cursor r) (s.consumed r).length ∧
      s.cursor r = s₀.cursor r + (s.consumed r).length) ∧
    (∀ idx, (∃ t, who t = r ∧ (s.ticket t).loan = some idx) ↔
      s.cursor r ≤ idx ∧ idx < max (s.base r) (s.cursor r)) ∧
    (∀ t t' idx, who t = r → who t' = r → (s.ticket t).loan = some idx → (s.ticket t').loan = some idx →
      t = t') ∧
    (∀ t idx, who t = r → (s.ticket t).loan = some idx → s.stream[idx]? = some (s.mem.data (cfg.slot idx))) ∧
    ∃ m, Solo (ticketCode r) s.mem .checkReader m
      (if max (s.base r) (s.cursor r) < s.stream.length then .held (max (s.base r) (s.cursor r))
        else .refused) := by
  have h : UnbrokenInv cfg who r (s₀.cursor r) s :=
    Run.invariant_of_bound (S := (loans cfg who rogue).guard (EndsInOrder who r))
      (fun s => s.stream.length < u64Size) (fun _ _ _ hst hlt => (length_loanStep_le hst.1).trans_lt hlt)
      (fun _ _ _ hs hst hlt => hs.step hr hr' hst.1 hst.2 hlt) (unbrokenInv_opened hinit hr hr') hrun hlen
  have hlo := h.pipe.lo
  have hhi := h.pipe.hi
  have hhead : max (s.base r) (s₀.cursor r) = max (s.base r) (s.cursor r) := by omega
  refine ⟨⟨h.log, h.cursor⟩, fun idx => ⟨?_, ?_⟩, h.pipe.unique, fun t idx ht hl => ?_, ?_⟩
  · rintro ⟨t, ht, hl⟩
    exact hhead ▸ h.pipe.range t idx ht hl
  · rintro ⟨hge, hlt⟩
    exact h.pipe.filled idx hge (hhead.symm ▸ hlt)
  · obtain ⟨hge, hlt⟩ := h.pipe.range t idx ht hl
    have hpub : idx < s.stream.length := hlt.trans_le h.pipe.published
    rw [cfg.slot_eq_mod, h.ring.holds idx _ hge (List.getElem?_eq_getElem hpub)]
    exact List.getElem?_eq_getElem hpub
  · have hnext : s₀.cursor r + ((s.hushed r (s₀.cursor r)).claimed r).length =
        max (s.base r) (s.cursor r) := by
      show s₀.cursor r + (List.range' _ _).length = _
      rw [List.length_range']
      omega
    rw [← hnext]
    exact next_claim h.hushed hr

/-- Whether a move ends a loan in order. -/
def LoanState.tidy (s : LoanState α) (who : ℕ → ℕ) (r : ℕ) : Move → Bool
  | .access t =>
      match s.ticket t with
      | .abortMin idx => who t ≠ r ∨ s.base r = idx + 1
      | .dropLoad idx => who t ≠ r ∨ s.cursor r = idx
      | _ => true
  | _ => true

theorem endsInOrder_of_tidy {s t : LoanState α} {e : Move} (h : s.tidy who r e = true) :
    EndsInOrder who r s e t := by
  constructor <;> rintro q idx rfl hq hpc <;> simp only [LoanState.tidy, hpc, decide_eq_true_eq] at h
  · exact h.resolve_left fun hne => hne hq
  · exact h.resolve_left fun hne => hne hq

/-- A move, if it ends a loan in order. -/
def LoanState.nextTidy (who : ℕ → ℕ) (r : ℕ) (s : LoanState α) (e : Move) : Option (LoanState α) :=
  if s.tidy who r e then s.play who [e] else none

theorem step_of_nextTidy {s t : LoanState α} {e : Move} (h : LoanState.nextTidy who r s e = some t) :
    ((loans cfg who rogue).guard (EndsInOrder who r)).step s e t := by
  unfold LoanState.nextTidy at h
  split_ifs at h with htidy
  exact ⟨(run_of_play h).of_singleton, endsInOrder_of_tidy htidy⟩

theorem run_of_tidy {es : List Move} {s t : LoanState α} (h : follow (LoanState.nextTidy who r) es s = some t) :
    Run ((loans cfg who rogue).guard (EndsInOrder who r)) s es t := by
  obtain ⟨es', hes, hrun⟩ := Run.of_follow (S := (loans cfg who rogue).guard (EndsInOrder who r))
    (fun _ e _ hst => ⟨e, rfl, step_of_nextTidy hst⟩) h
  rwa [← (List.map_id es').symm.trans hes]

/-- Ticket 2 read the head 1 before ticket 1 took it and aborted: it takes it after all, ticket 0 commits, and the
next claim is refused. -/
theorem loans_unbroken_again : ∃ s : LoanState ℕ, s.ticket 1 = .resolved ∧ s.ticket 2 = .held 1 ∧
    s.consumed 0 = [0] ∧ s.cursor 0 = 1 ∧ s.stream[1]? = some (s.mem.data (twoSlots.slot 1)) ∧
    (∀ t, (s.ticket t).loan = some 1 → t = 2) ∧ ∃ m, Solo (ticketCode 0) s.mem .checkReader m .refused := by
  have hplay : (follow (LoanState.nextTidy (fun _ => 0) 0)
      (List.flatten [.call 0 .claim :: List.replicate 6 (.access 0), .call 1 .claim :: List.replicate 5 (.access 1),
        .call 2 .claim :: List.replicate 5 (.access 2),
        [.access 1, .call 1 .abort, .access 1, .access 1, .access 2],
        .call 0 .commit :: List.replicate 3 (.access 0)]) twoUnread).map
      (fun s => (s.ticket 1, s.ticket 2, s.consumed 0, max (s.base 0) (s.cursor 0), s.stream)) =
        some (.resolved, .held 1, [0], 2, [10, 20]) := rfl
  obtain ⟨s, hs, heq⟩ := Option.map_eq_some_iff.mp hplay
  obtain ⟨h₁, h₂, hcons, hhead, hstream⟩ : _ ∧ _ ∧ _ ∧ _ ∧ _ := by simpa only [Prod.mk.injEq] using heq
  have hrun : Run ((loans twoSlots (fun _ => 0) fun _ => False).guard (EndsInOrder (fun _ => 0) 0))
      twoUnread _ s := run_of_tidy hs
  obtain ⟨⟨-, hcur⟩, -, hunique, hslot, hnext⟩ := loans_unbroken (r := 0) (by decide) id (opened_twoUnread _)
    hrun (by rw [hstream]; decide)
  have hheld : (s.ticket 2).loan = some 1 := by rw [h₂]; rfl
  rw [hhead, hstream] at hnext
  refine ⟨s, h₁, h₂, hcons, ?_, hslot 2 1 rfl hheld, fun t ht => hunique t 2 1 rfl rfl ht hheld, hnext⟩
  rw [hcur, hcons]
  rfl

end ShmRings.Threads
