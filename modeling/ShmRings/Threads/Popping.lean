import ShmRings.Threads.Gate
import ShmRings.Threads.Lives

/-!
# Pops on a handle with loans

`try_pop` tests the loan gate of its reader and moves the cursor afterwards. Any number of threads share
one handle: some claim, commit and drop loans, some call `try_pop`. As long as no claim reads the cursor
while a pop for the reader is past its guard, every index is consumed once and in order, by a pop or by a
loan, and the open loans stay pinned.

* `PopPc.past`, `PopPc.takes`; `PopAccess`, **`pop_direct`**: what an access of a pop does;
* `PoppingState`, `PoppingStep`, `popping`; `KeptApart`;
* `Pipeline.pop`, `ClaimInv.pop`: a pop takes the index at the cursor out of the pipeline;
* `PoppingInv`, `PoppingInv.step`; **`pops_beside_loans`**;
* **`pop_unpins_loan`**: a claim behind the guard of a pop.
-/

set_option autoImplicit false

namespace ShmRings.Threads

open Coherent Transition Tally

variable {α : Type} {cfg : Config} {who whose : ℕ → ℕ} {rogue : ℕ → Prop} {r c₀ : ℕ}

/-- The call is past its loan guard. -/
def PopPc.past : PopPc α → Bool
  | .loadWriteIdx | .loadReadIdx _ | .readSlot _ | .advance _ _ => true
  | _ => false

/-- The index and the message that the next access consumes. -/
def PopPc.takes : PopPc α → List (ℕ × α)
  | .advance c v => [(c, v)]
  | _ => []

/-- The ticket has no loan, and no cursor that it has read. -/
def TicketPc.unaware : TicketPc → Bool
  | .idle | .checkReader | .raiseGate | .loadWriteIdx | .loadCursor _ | .lowerGate | .refused | .resolve
  | .resolved => true
  | _ => false

/-- What an access of a pop for reader `r` can do. -/
inductive PopAccess (cfg : Config) (r : ℕ) (m : Memory Loc α) : PopPc α → Memory Loc α → PopPc α → Prop
  | refuse (e : ShmRingError) : PopAccess cfg r m .checkReader m (.done (.error e))
  | accept : r < m.now .numReaders → PopAccess cfg r m .checkReader m .checkGate
  | blocked (e : ShmRingError) : PopAccess cfg r m .checkGate m (.done (.error e))
  | enter : m.now (.loanDepth r) = 0 → PopAccess cfg r m .checkGate m .loadWriteIdx
  | writeIdx : PopAccess cfg r m .loadWriteIdx m (.loadReadIdx (m.now .writeIdx))
  | empty {w} : PopAccess cfg r m (.loadReadIdx w) m (.done (.ok none))
  | cursor {w} : m.now (.readIdx r) ≠ w →
      PopAccess cfg r m (.loadReadIdx w) m (.readSlot (m.now (.readIdx r)))
  | read {c} : PopAccess cfg r m (.readSlot c) m (.advance c (m.data (cfg.slot c)))
  | advance {c v} : PopAccess cfg r m (.advance c v) (m.store (.readIdx r) (wrappingAdd c 1))
      (.done (.ok (some v)))

section Access

variable {m m' : Memory Loc α} {pc pc' : PopPc α}

/-- **The accesses of a pop.** -/
theorem pop_direct (h : Direct m (popCode cfg r pc) m' pc') : PopAccess cfg r m pc m' pc' := by
  rcases h.cases with hexec | ⟨x, old, new, won, hinstr, rfl⟩
  · cases pc with
    | checkReader =>
        cases hexec
        dsimp only
        split_ifs with hge
        · exact .refuse _
        · exact .accept (Nat.not_le.mp hge)
    | checkGate =>
        cases hexec
        dsimp only
        split_ifs with hne
        · exact .blocked _
        · exact .enter (not_not.mp hne)
    | loadWriteIdx => cases hexec; exact .writeIdx
    | loadReadIdx w =>
        cases hexec
        dsimp only
        split_ifs with heq
        · exact .empty
        · exact .cursor heq
    | readSlot c => cases hexec; exact .read
    | advance c v => cases hexec; exact .advance
    | idle | done _ => cases hexec
  · cases pc <;> cases hinstr

end Access

/-! ## The system -/

/-- The handle with its loans, the calls of `try_pop` on it, and for each reader the indices and messages
they have taken. -/
structure PoppingState (α : Type) where
  shared : LoanState α
  pop : ℕ → PopPc α
  popped : ℕ → List (ℕ × α)

/-- After an access of pop `q`, which works for reader `r`. -/
def PoppingState.popStep (s : PoppingState α) (m : Memory Loc α) (q r : ℕ) (pc : PopPc α) : PoppingState α where
  shared := { s.shared with
    mem := m
    consumed := Function.update s.shared.consumed r
      (s.shared.consumed r ++ (s.pop q).takes.map Prod.fst) }
  pop := Function.update s.pop q pc
  popped := Function.update s.popped r (s.popped r ++ (s.pop q).takes)

/-- Who moves. -/
inductive PoppingMove
  | shared (e : Move)
  | callPop (q : ℕ)
  | pop (q : ℕ)
  | retPop (q : ℕ)

/-- One step; pop `q` is a call for reader `whose q`. -/
inductive PoppingStep (cfg : Config) (who whose : ℕ → ℕ) (rogue : ℕ → Prop) :
    PoppingState α → PoppingMove → PoppingState α → Prop
  | shared {s e t} : LoanStep cfg who rogue s.shared e t →
      PoppingStep cfg who whose rogue s (.shared e) { s with shared := t }
  | callPop {s} (q : ℕ) : s.pop q = .idle →
      PoppingStep cfg who whose rogue s (.callPop q) { s with pop := Function.update s.pop q .checkReader }
  | pop {s} (q : ℕ) {m pc} : Direct s.shared.mem (popCode cfg (whose q) (s.pop q)) m pc →
      PoppingStep cfg who whose rogue s (.pop q) (s.popStep m q (whose q) pc)
  | retPop {s} (q : ℕ) {res} : s.pop q = .done res →
      PoppingStep cfg who whose rogue s (.retPop q) { s with pop := Function.update s.pop q .idle }

/-- The system, from a fresh handle; the readers outside `rogue` are honest. -/
def popping (cfg : Config) (who whose : ℕ → ℕ) (rogue : ℕ → Prop) : System (PoppingState α) PoppingMove where
  init s := Opened cfg (fun r => r < cfg.readers ∧ ¬ rogue r) s.shared ∧ (∀ q, s.pop q = .idle) ∧
    ∀ r, s.popped r = []
  step := PoppingStep cfg who whose rogue

/-- The calls for reader `r` keep apart: no claim reads the cursor while a pop is past its guard, and no pop
passes its guard while another is past it or with `2 ^ 64` claims and loans at the gate. -/
structure KeptApart (who whose : ℕ → ℕ) (r : ℕ) (s : PoppingState α) (e : PoppingMove)
    (_ : PoppingState α) : Prop where
  claim : ∀ t w, e = .shared (.access t) → who t = r → s.shared.ticket t = .loadCursor w →
    ∀ q, whose q = r → (s.pop q).past = false
  pop : ∀ q, e = .pop q → whose q = r → s.pop q = .checkGate → s.shared.mem.now (.loanDepth r) = 0 →
    (∀ q', whose q' = r → (s.pop q').past = false) ∧ tally (Counted who r) s.shared.ticket < u64Size

/-! ## A pop and the pipeline -/

theorem loan_unaware {pc : TicketPc} (h : pc.unaware = true) : pc.loan = none ∧ pc.stores = none := by
  cases pc <;> first | exact ⟨rfl, rfl⟩ | cases h

/-- A ticket the gate does not count is unaware. -/
theorem unaware_of_gate {pc : TicketPc} (h : ¬ pc.AtGate) : pc.unaware = true := by
  cases pc with
  | loadBase _ _ | exchange _ _ => exact absurd (.inr (.inl rfl)) h
  | held i | commitLoad i | rejected i _ | commitStore i | abortMin i | dropLoad i | dropStore i | dropSkip i =>
      exact absurd (.inl (Option.some_ne_none i)) h
  | _ => rfl

theorem unaware_call {c : LoanCall} {pc pc' : TicketPc} (h : pc.call c = some pc') (hun : pc.unaware = true) :
    pc'.unaware = true := by
  cases pc <;> cases c <;> cases h <;> first | rfl | cases hun

/-- **Only a load of the cursor makes a ticket aware.** -/
theorem unaware_access {m m' : Memory Loc α} {pc pc' : TicketPc} (h : TicketAccess r m pc m' pc')
    (hun : pc.unaware = true) (hno : ∀ w, pc ≠ .loadCursor w) : pc'.unaware = true := by
  cases h with
  | cursor => exact absurd rfl (hno _)
  | choose | won | lost | reject | passCommit | storeCommit | rewind | passDrop | skipDrop | storeDrop
  | leave | caughtUp => cases hun
  | _ => rfl

/-- What an unaware ticket knows does not depend on the pipeline. -/
theorem ClaimOk.unaware {c₁ k k' base cursor cursor' W : ℕ} {pc : TicketPc}
    (h : ClaimOk c₀ k base cursor W pc) (hun : pc.unaware = true) : ClaimOk c₁ k' base cursor' W pc := by
  cases pc with
  | loadCursor w => exact h
  | loadBase _ _ | exchange _ _ | abortMin _ => cases hun
  | _ => trivial

/-- **A pop takes the index at the cursor out of the pipeline**: an index that was handed out and given back
away from the cursor, or the next one. -/
theorem Pipeline.pop {mine : ℕ → Prop} {k base cursor W : ℕ} {ticket : ℕ → TicketPc}
    (h : Pipeline mine c₀ k base cursor W ticket) (hlt : cursor < W)
    (hun : ∀ t, mine t → (ticket t).unaware = true) :
    ∃ c₁ k', Pipeline mine c₁ k' base (cursor + 1) W ticket := by
  have hhead := h.head
  have hnone : ∀ {t idx}, mine t → (ticket t).loan ≠ some idx := fun ht => by
    rw [(loan_unaware (hun _ ht)).1]
    exact (Option.some_ne_none _).symm
  have hrest : ∀ {c₁ k'}, max base c₁ = c₁ + k' → c₁ ≤ cursor + 1 → cursor + 1 ≤ c₁ + k' → c₁ + k' ≤ W →
      Pipeline mine c₁ k' base (cursor + 1) W ticket := fun hmax hlo hhi hW =>
    ⟨hmax, hlo, hhi, hW, fun t ht => (h.claim t ht).unaware (hun t ht),
      fun t idx ht hst => absurd (loan_of_stores hst) (hnone ht),
      fun t idx ht hl => absurd hl (hnone ht), fun t t' idx ht ht' hl _ => absurd hl (hnone ht)⟩
  rcases Nat.lt_or_eq_of_le h.hi with hbelow | heq
  · exact ⟨c₀, k, hrest hhead (h.lo.trans (Nat.le_succ _)) hbelow h.published⟩
  · exact ⟨cursor + 1, 0, hrest (by omega) le_rfl le_rfl hlt⟩

/-- The log of claims plays no part in a step. -/
theorem relabel_step {s t : LoanState α} {e : Move} (h : LoanStep cfg who rogue s e t) (log : ℕ → List ℕ) :
    ∃ log', LoanStep cfg who rogue { s with claimed := log } e { t with claimed := log' } := by
  cases h with
  | callPush value hpush => exact ⟨log, .callPush value hpush⟩
  | push hacc => exact ⟨log, .push (s := { s with claimed := log }) hacc⟩
  | retPush hpush => exact ⟨log, .retPush (s := { s with claimed := log }) hpush⟩
  | call q hcall => exact ⟨log, .call (s := { s with claimed := log }) q hcall⟩
  | access q hacc => exact ⟨_, .access (s := { s with claimed := log }) q hacc⟩
  | poke q v hq hv => exact ⟨log, .poke (s := { s with claimed := log }) q v hq hv⟩

/-- **A pop keeps the invariant of the claims**, with another origin and a new log. -/
theorem ClaimInv.pop {s : LoanState α} (h : ClaimInv cfg who r c₀ s) (hlt : s.cursor r < s.stream.length)
    (hun : ∀ t, who t = r → (s.ticket t).unaware = true) (cons : ℕ → List ℕ) :
    ∃ c₁ log, ClaimInv cfg who r c₁ { s with
      mem := s.mem.store (.readIdx r) (s.cursor r + 1)
      claimed := log
      consumed := cons } := by
  obtain ⟨c₁, k, hpipe⟩ := h.pipe.pop hlt hun
  have hword : ∀ x, x ≠ .readIdx r → (s.mem.store (.readIdx r) (s.cursor r + 1)).now x = s.mem.now x :=
    fun x hx => Memory.store_now_ne _ hx _
  have hcur : (s.mem.store (.readIdx r) (s.cursor r + 1)).now (.readIdx r) = s.cursor r + 1 :=
    Memory.store_now_self _ _ _
  refine ⟨c₁, fun _ => List.range' c₁ k, (hword _ (by simp)).trans h.numReaders,
    (hword _ (by simp)).trans h.writeIdx, ?_, ?_, ?_, ?_, ?_⟩
  · have hlag := h.lag
    show s.stream.length ≤ Memory.now _ _ + cfg.capacity
    rw [hcur]
    omega
  · show Window.Holds cfg.capacity s.mem.data s.stream (Memory.now _ _)
    rw [hcur]
    exact h.holds.mono (Nat.le_succ _)
  · refine h.push.mono fun q hq => ?_
    rw [hq]
    exact (Nat.le_succ _).trans hcur.ge
  · show List.range' c₁ k = List.range' c₁ (List.range' c₁ k).length
    rw [List.length_range']
  · have hbase : (s.mem.store (.readIdx r) (s.cursor r + 1)).now (.claimBase r) = s.base r := hword _ (by simp)
    show Pipeline _ c₁ (List.range' c₁ k).length (Memory.now _ _) (Memory.now _ _) s.stream.length s.ticket
    rw [List.length_range', hbase, hcur]
    exact hpipe

/-! ## The invariant -/

/-- What the local variables of a pop mean, when the cursor of its reader is `cursor`. -/
def PopSees (cursor : ℕ) (xs : List α) : PopPc α → Prop
  | .loadReadIdx w => cursor ≤ w ∧ w ≤ xs.length
  | .readSlot c => c = cursor ∧ c < xs.length
  | .advance c v => c = cursor ∧ xs[c]? = some v
  | _ => True

theorem PopSees.append {cursor : ℕ} {xs : List α} {pc : PopPc α} (h : PopSees cursor xs pc) (ys : List α) :
    PopSees cursor (xs ++ ys) pc := by
  have hlen : xs.length ≤ (xs ++ ys).length := List.length_append ▸ Nat.le_add_right _ _
  cases pc with
  | loadReadIdx w => exact ⟨h.1, h.2.trans hlen⟩
  | readSlot c => exact ⟨h.1, h.2.trans_le hlen⟩
  | advance c v =>
      refine ⟨h.1, ?_⟩
      rw [List.getElem?_append_left (List.getElem?_eq_some_iff.mp h.2).1]
      exact h.2
  | _ => trivial

theorem sees_before {cursor : ℕ} {xs : List α} {pc : PopPc α} (h : pc.past = false) : PopSees cursor xs pc := by
  cases pc with
  | loadReadIdx _ | readSlot _ | advance _ _ => cases h
  | _ => trivial

/-- The invariant of reader `r`, whose cursor was `c` when the handle was opened. -/
structure PoppingInv (cfg : Config) (who whose : ℕ → ℕ) (r c : ℕ) (s : PoppingState α) : Prop where
  gate : GateInv cfg who r s.shared
  claim : ∃ c₀ log, ClaimInv cfg who r c₀ { s.shared with claimed := log }
  consumed : s.shared.consumed r = List.range' c (s.shared.consumed r).length
  cursor : s.shared.cursor r = c + (s.shared.consumed r).length
  popped : ((s.popped r).map Prod.fst).Sublist (s.shared.consumed r)
  values : ∀ x ∈ s.popped r, s.shared.stream[x.1]? = some x.2
  sees : ∀ q, whose q = r → PopSees (s.shared.cursor r) s.shared.stream (s.pop q)
  alone : ∀ q q', whose q = r → whose q' = r → (s.pop q).past = true → (s.pop q').past = true → q = q'
  apart : ∀ q t, whose q = r → (s.pop q).past = true → who t = r → (s.shared.ticket t).unaware = true

section Step

variable {c : ℕ} {s : PoppingState α} {t : LoanState α} {e : Move}

theorem poppingInv_init (hr : r < cfg.readers) (hr' : ¬ rogue r) (h : (popping cfg who whose rogue).init s) :
    PoppingInv cfg who whose r (s.shared.cursor r) s := by
  obtain ⟨hopened, hidle, hpopped⟩ := h
  have hnot : ∀ q, (s.pop q).past = false := fun q => by rw [hidle]; rfl
  have hconsumed := hopened.consumed r
  refine ⟨gateInv_opened hopened r, ⟨_, _, claimInv_opened hopened hr hr'⟩, ?_, ?_, ?_, ?_,
    fun q _ => sees_before (hnot q), fun q _ _ _ hq => ?_, fun q _ _ hq => ?_⟩
  · rw [hconsumed]
    rfl
  · rw [hconsumed]
    rfl
  · rw [hpopped, hconsumed]
    exact List.Sublist.refl _
  · rw [hpopped]
    exact fun x hx => absurd hx List.not_mem_nil
  · rw [hnot] at hq
    cases hq
  · rw [hnot] at hq
    cases hq

theorem stream_loanStep {s : LoanState α} (h : LoanStep cfg who rogue s e t) :
    ∃ ys, t.stream = s.stream ++ ys := by
  cases h with
  | push _ => exact ⟨_, rfl⟩
  | _ => exact ⟨[], (List.append_nil _).symm⟩

/-- Unaware tickets consume nothing. -/
theorem consumed_unaware {s : LoanState α} (h : LoanStep cfg who rogue s e t)
    (hun : ∀ q, who q = r → (s.ticket q).unaware = true) : t.consumed r = s.consumed r := by
  cases h with
  | @access q m pc hacc =>
      by_cases hq : who q = r
      · subst hq
        have hcons : (s.ticketStep m q (who q) pc).consumed (who q) =
            s.consumed (who q) ++ (s.ticket q).consumes := Function.update_self _ _ _
        rw [hcons, TicketPc.consumes, (loan_unaware (hun q rfl)).2]
        exact List.append_nil _
      · exact Function.update_of_ne (Ne.symm hq) _ _
  | _ => rfl

/-- Unaware tickets that do not load the cursor stay unaware. -/
theorem unaware_step {s : LoanState α} (h : LoanStep cfg who rogue s e t)
    (hun : ∀ q, who q = r → (s.ticket q).unaware = true)
    (hno : ∀ q w, e = .access q → who q = r → s.ticket q ≠ .loadCursor w) :
    ∀ q, who q = r → (t.ticket q).unaware = true := by
  have hupdate : ∀ {q pc}, (who q = r → pc.unaware = true) →
      ∀ q', who q' = r → (Function.update s.ticket q pc q').unaware = true := by
    intro q pc hpc q' hq'
    by_cases hqq : q' = q
    · subst hqq
      rw [Function.update_self]
      exact hpc hq'
    · rw [Function.update_of_ne hqq]
      exact hun q' hq'
  cases h with
  | call q hcall => exact hupdate fun hq => unaware_call hcall (hun q hq)
  | access q hacc =>
      refine hupdate fun hq => ?_
      exact unaware_access (ticket_access hacc) (hun q hq) fun w => hno q w rfl hq
  | _ => exact hun

/-- **A step of the producer, of a ticket or of a rogue reader keeps the invariant.** -/
theorem PoppingInv.step_shared (h : PoppingInv cfg who whose r c s) (hr : r < cfg.readers) (hr' : ¬ rogue r)
    (hst : LoanStep cfg who rogue s.shared e t) (hno : ∀ q, e ≠ .call q .abort)
    (hapart : KeptApart who whose r s (.shared e) { s with shared := t }) (hlen : t.stream.length < u64Size) :
    PoppingInv cfg who whose r c { s with shared := t } := by
  obtain ⟨c₀, log, hclaim⟩ := h.claim
  obtain ⟨log', hst'⟩ := relabel_step hst log
  obtain ⟨ys, hys⟩ := stream_loanStep hst
  have hnext := consumed_next hclaim hr' hst' ((length_loanStep_le hst).trans_lt hlen)
  change (t.consumed r = s.shared.consumed r ∧ t.cursor r = s.shared.cursor r) ∨
    (t.consumed r = s.shared.consumed r ++ [s.shared.cursor r] ∧ t.cursor r = s.shared.cursor r + 1) at hnext
  -- while a pop is past its guard the cursor stands still
  have hstill : ∀ q, whose q = r → (s.pop q).past = true → t.cursor r = s.shared.cursor r := by
    intro q hq hpast
    have hsame := consumed_unaware hst fun t' ht' => h.apart q t' hq hpast ht'
    rcases hnext with ⟨-, hcur⟩ | ⟨hcons, -⟩
    · exact hcur
    · rw [hsame] at hcons
      simp at hcons
  have hsub : (s.shared.consumed r).Sublist (t.consumed r) := by
    rcases hnext with ⟨hcons, -⟩ | ⟨hcons, -⟩ <;> rw [hcons]
    exact List.sublist_append_left _ _
  have hlog : t.consumed r = List.range' c (t.consumed r).length ∧
      t.cursor r = c + (t.consumed r).length := by
    rcases hnext with ⟨hcons, hcur⟩ | ⟨hcons, hcur⟩
    · rw [hcons, hcur]
      exact ⟨h.consumed, h.cursor⟩
    · rw [hcons, hcur, List.length_append, List.length_singleton, List.range'_concat, ← h.consumed,
        h.cursor, Nat.one_mul]
      exact ⟨rfl, rfl⟩
  refine ⟨h.gate.step hst, ⟨c₀, log', hclaim.step hr hr' hst' hno hlen⟩, hlog.1, hlog.2,
    h.popped.trans hsub, fun x hx => ?_, fun q hq => ?_, h.alone, fun q t' hq hpast ht' => ?_⟩
  · have hx' := h.values x hx
    show t.stream[x.1]? = some x.2
    rw [hys, List.getElem?_append_left (List.getElem?_eq_some_iff.mp hx').1]
    exact hx'
  · show PopSees (t.cursor r) t.stream (s.pop q)
    cases hpast : (s.pop q).past with
    | false => exact sees_before hpast
    | true =>
        rw [hstill q hq hpast, hys]
        exact (h.sees q hq).append ys
  · refine unaware_step hst (fun q' hq' => h.apart q q' hq hpast hq') ?_ t' ht'
    rintro q' w rfl hq' hload
    have hfalse := hapart.claim q' w rfl hq' hload q hq
    rw [hpast] at hfalse
    cases hfalse

/-- While a pop is past its guard, no other pop is and no ticket knows the cursor. -/
theorem PoppingInv.within (h : PoppingInv cfg who whose r c s) {q : ℕ} (hq : whose q = r)
    (hpast : (s.pop q).past = true) : (∀ q', q' ≠ q → whose q' = r → (s.pop q').past = false) ∧
      ∀ t, who t = r → (s.shared.ticket t).unaware = true := by
  refine ⟨fun q' hne hq' => ?_, fun t ht => h.apart q t hq hpast ht⟩
  rw [← Bool.not_eq_true]
  exact fun hpast' => hne (h.alone q' q hq' hq hpast' hpast)

/-- A pop that moves on without a store. -/
theorem PoppingInv.move (h : PoppingInv cfg who whose r c s) {q : ℕ} {pc : PopPc α}
    (hsees : whose q = r → PopSees (s.shared.cursor r) s.shared.stream pc)
    (hpast : whose q = r → pc.past = true → (∀ q', q' ≠ q → whose q' = r → (s.pop q').past = false) ∧
      ∀ t, who t = r → (s.shared.ticket t).unaware = true) :
    PoppingInv cfg who whose r c { s with pop := Function.update s.pop q pc } := by
  refine ⟨h.gate, h.claim, h.consumed, h.cursor, h.popped, h.values, fun q' hq' => ?_,
    fun q₁ q₂ hq₁ hq₂ h₁ h₂ => ?_, fun q' t hq' hpast' ht => ?_⟩
  · show PopSees _ _ (Function.update s.pop q pc q')
    by_cases hqq : q' = q
    · subst hqq
      rw [Function.update_self]
      exact hsees hq'
    · rw [Function.update_of_ne hqq]
      exact h.sees q' hq'
  · have hother : ∀ {q'}, q' ≠ q → whose q' = r → (Function.update s.pop q pc q').past = true →
        (Function.update s.pop q pc q).past = true → whose q = r → False := by
      intro q' hne hq' hold hnew hq
      rw [Function.update_of_ne hne] at hold
      rw [Function.update_self] at hnew
      rw [(hpast hq hnew).1 q' hne hq'] at hold
      cases hold
    by_cases hqq₁ : q₁ = q
    · subst hqq₁
      by_contra hne
      exact hother (Ne.symm hne) hq₂ h₂ h₁ hq₁
    · by_cases hqq₂ : q₂ = q
      · subst hqq₂
        exact (hother hqq₁ hq₁ h₁ h₂ hq₂).elim
      · change (Function.update s.pop q pc q₁).past = true at h₁
        change (Function.update s.pop q pc q₂).past = true at h₂
        rw [Function.update_of_ne hqq₁] at h₁
        rw [Function.update_of_ne hqq₂] at h₂
        exact h.alone q₁ q₂ hq₁ hq₂ h₁ h₂
  · change (Function.update s.pop q pc q').past = true at hpast'
    by_cases hqq : q' = q
    · subst hqq
      rw [Function.update_self] at hpast'
      exact (hpast hq' hpast').2 t ht
    · rw [Function.update_of_ne hqq] at hpast'
      exact h.apart q' t hq' hpast' ht

/-- **A cursor store of a pop consumes the index at the cursor.** -/
theorem PoppingInv.advance (h : PoppingInv cfg who whose r c s) {q i : ℕ} {v : α}
    {res : Except ShmRingError (Option α)} (hq : whose q = r) (hpop : s.pop q = .advance i v)
    (hlen : s.shared.stream.length < u64Size) :
    PoppingInv cfg who whose r c
      (s.popStep (s.shared.mem.store (.readIdx r) (wrappingAdd i 1)) q r (.done res)) := by
  have hpast : (s.pop q).past = true := by rw [hpop]; rfl
  obtain ⟨hothers, hun⟩ := h.within hq hpast
  have hsees := h.sees q hq
  rw [hpop] at hsees
  obtain ⟨rfl, hv⟩ := hsees
  have hlt := (List.getElem?_eq_some_iff.mp hv).1
  rw [wrappingAdd_eq (by omega)]
  obtain ⟨c₀, log, hclaim⟩ := h.claim
  generalize ht : s.popStep (s.shared.mem.store (.readIdx r) (s.shared.cursor r + 1)) q r (.done res) = t
  have hcur : t.shared.cursor r = s.shared.cursor r + 1 := ht ▸ Memory.store_now_self _ _ _
  have hcons : t.shared.consumed r = s.shared.consumed r ++ [s.shared.cursor r] := by
    rw [← ht]
    exact (Function.update_self _ _ _).trans (by rw [hpop]; rfl)
  have hpopped : t.popped r = s.popped r ++ [(s.shared.cursor r, v)] := by
    rw [← ht]
    exact (Function.update_self _ _ _).trans (by rw [hpop]; rfl)
  have hnot : ∀ q', whose q' = r → (t.pop q').past = false := by
    intro q' hq'
    rw [← ht]
    show (Function.update s.pop q (.done res) q').past = false
    by_cases hqq : q' = q
    · rw [hqq, Function.update_self]
      rfl
    · rw [Function.update_of_ne hqq]
      exact hothers q' hqq hq'
  have habsurd : ∀ {q'}, whose q' = r → (t.pop q').past ≠ true :=
    fun hq' => by rw [hnot _ hq']; exact Bool.false_ne_true
  refine ⟨?_, ?_, ?_, ?_, ?_, ?_, fun q' hq' => sees_before (hnot q' hq'),
    fun _ _ hq₁ _ h₁ _ => absurd h₁ (habsurd hq₁), fun _ _ hq₁ h₁ => absurd h₁ (habsurd hq₁)⟩
  · rw [← ht]
    exact h.gate.frame (Memory.store_now_ne _ (by simp) _) (Memory.store_now_ne _ (by simp) _) rfl
  · rw [← ht]
    exact hclaim.pop hlt hun _
  · rw [hcons, List.length_append, List.length_singleton, List.range'_concat, ← h.consumed, h.cursor,
      Nat.one_mul]
  · rw [hcur, hcons, List.length_append, h.cursor]
    rfl
  · rw [hcons, hpopped, List.map_append]
    exact h.popped.append (List.Sublist.refl _)
  · have hstream : t.shared.stream = s.shared.stream := ht ▸ rfl
    rw [hpopped, hstream]
    intro x hx
    rcases List.mem_append.mp hx with hold | hnew
    · exact h.values x hold
    · obtain rfl := List.mem_singleton.mp hnew
      exact hv

/-- An access that consumes nothing only moves the pop. -/
theorem popStep_quiet {q : ℕ} {pc : PopPc α} (h : (s.pop q).takes = []) :
    s.popStep s.shared.mem q r pc = { s with pop := Function.update s.pop q pc } := by
  simp [PoppingState.popStep, h]

/-- **An access of a pop for the reader keeps the invariant.** -/
theorem PoppingInv.step_pop (h : PoppingInv cfg who whose r c s) {q : ℕ} {m : Memory Loc α} {pc : PopPc α}
    (hq : whose q = r) (hacc : PopAccess cfg r s.shared.mem (s.pop q) m pc)
    {t : PoppingState α} (hapart : KeptApart who whose r s (.pop q) t)
    (hlen : s.shared.stream.length < u64Size) : PoppingInv cfg who whose r c (s.popStep m q r pc) := by
  obtain ⟨c₀, log, hclaim⟩ := h.claim
  have hle : s.shared.cursor r ≤ s.shared.stream.length := hclaim.pipe.hi.trans hclaim.pipe.published
  have hwrite : s.shared.mem.now .writeIdx = s.shared.stream.length := hclaim.writeIdx
  have hsees := h.sees q hq
  have hwithin : (s.pop q).past = true → _ := h.within hq
  have hgate : s.pop q = .checkGate → s.shared.mem.now (.loanDepth r) = 0 → _ :=
    fun hpc hd => hapart.pop q rfl hq hpc hd
  have hquiet : (s.pop q).takes = [] → s.popStep s.shared.mem q r pc =
      { s with pop := Function.update s.pop q pc } := popStep_quiet
  generalize hpc : s.pop q = pc₀ at hacc hsees hwithin hgate hquiet
  cases hacc with
  | refuse | accept | blocked | empty =>
      rw [hquiet rfl]
      exact h.move (fun _ => trivial) fun _ hpast => (by cases hpast)
  | enter hd =>
      obtain ⟨hfree, hfew⟩ := hgate rfl hd
      have hnone : tally (Counted who r) s.shared.ticket = 0 := by
        rw [← Nat.mod_eq_of_lt hfew, ← h.gate.depth]
        exact hd
      rw [hquiet rfl]
      refine h.move (fun _ => trivial) fun _ _ => ⟨fun q' _ => hfree q', fun t ht => ?_⟩
      refine unaware_of_gate fun hat => ?_
      have hpos := (tally_pos h.gate.finite).mpr ⟨t, ht, hat⟩
      omega
  | writeIdx =>
      rw [hquiet rfl]
      refine h.move (fun _ => ⟨?_, ?_⟩) fun _ _ => hwithin rfl
      · rw [hwrite]
        exact hle
      · exact hwrite.le
  | cursor hne =>
      obtain ⟨hcw, hw⟩ := hsees
      rw [hquiet rfl]
      exact h.move (fun _ => ⟨rfl, (lt_of_le_of_ne hcw hne).trans_le hw⟩) fun _ _ => hwithin rfl
  | read =>
      obtain ⟨rfl, hlt⟩ := hsees
      rw [hquiet rfl]
      refine h.move (fun _ => ⟨rfl, ?_⟩) fun _ _ => hwithin rfl
      rw [List.getElem?_eq_getElem hlt, cfg.slot_eq_mod]
      exact congrArg some (hclaim.holds _ _ le_rfl (List.getElem?_eq_getElem hlt)).symm
  | advance => exact h.advance hq hpc hlen

/-- A pop for another reader. -/
theorem PoppingInv.step_other (h : PoppingInv cfg who whose r c s) {q : ℕ} {m : Memory Loc α} {pc : PopPc α}
    (hq : whose q ≠ r) (hacc : Direct s.shared.mem (popCode cfg (whose q) (s.pop q)) m pc) :
    PoppingInv cfg who whose r c (s.popStep m q (whose q) pc) := by
  obtain ⟨vw, hacc⟩ := hacc
  obtain ⟨c₀, log, hclaim⟩ := h.claim
  have hword : ∀ x, x ≠ .readIdx (whose q) → m.now x = s.shared.mem.now x := fun x hx =>
    congrArg Cell.now (pop_word hacc hx)
  have hcur : m.now (.readIdx r) = s.shared.cursor r := hword _ (by simp [Ne.symm hq])
  have hcons : (s.popStep m q (whose q) pc).shared.consumed r = s.shared.consumed r :=
    Function.update_of_ne (Ne.symm hq) _ _
  have hpopped : (s.popStep m q (whose q) pc).popped r = s.popped r := Function.update_of_ne (Ne.symm hq) _ _
  have hpop : ∀ q', whose q' = r → (s.popStep m q (whose q) pc).pop q' = s.pop q' := by
    intro q' hq'
    refine Function.update_of_ne ?_ _ _
    rintro rfl
    exact hq hq'
  refine ⟨h.gate.frame (hword _ (by simp)) (hword _ (by simp)) rfl, ⟨c₀, log, ?_⟩, ?_, ?_, ?_, ?_,
    fun q' hq' => ?_, fun q₁ q₂ hq₁ hq₂ h₁ h₂ => ?_, fun q' t hq' hpast ht => ?_⟩
  · refine hclaim.frame (fun x hx => hword x ?_) (pop_data hacc) rfl rfl rfl fun _ _ => rfl
    simp only [List.mem_cons, List.not_mem_nil, or_false] at hx
    rcases hx with rfl | rfl | rfl | rfl <;> simp [Ne.symm hq]
  · rw [hcons]
    exact h.consumed
  · rw [hcons]
    exact hcur.trans h.cursor
  · rw [hcons, hpopped]
    exact h.popped
  · rw [hpopped]
    exact h.values
  · rw [hpop q' hq']
    show PopSees (m.now (.readIdx r)) s.shared.stream (s.pop q')
    rw [hcur]
    exact h.sees q' hq'
  · rw [hpop q₁ hq₁] at h₁
    rw [hpop q₂ hq₂] at h₂
    exact h.alone q₁ q₂ hq₁ hq₂ h₁ h₂
  · rw [hpop q' hq'] at hpast
    exact h.apart q' t hq' hpast ht

theorem length_poppingStep_le {s t : PoppingState α} {e : PoppingMove}
    (h : PoppingStep cfg who whose rogue s e t) : s.shared.stream.length ≤ t.shared.stream.length := by
  cases h with
  | shared hst => exact length_loanStep_le hst
  | _ => exact le_rfl

/-- **Every step but an abort keeps the invariant** when the calls keep apart. -/
theorem PoppingInv.step {t : PoppingState α} {e : PoppingMove} (h : PoppingInv cfg who whose r c s)
    (hr : r < cfg.readers) (hr' : ¬ rogue r) (hst : PoppingStep cfg who whose rogue s e t)
    (hno : ∀ q, e ≠ .shared (.call q .abort)) (hapart : KeptApart who whose r s e t)
    (hlen : t.shared.stream.length < u64Size) : PoppingInv cfg who whose r c t := by
  have hlen' := (length_poppingStep_le hst).trans_lt hlen
  cases hst with
  | shared hst => exact h.step_shared hr hr' hst (fun q he => hno q (congrArg _ he)) hapart hlen
  | callPop q hidle => exact h.move (fun _ => trivial) fun _ hpast => (by cases hpast)
  | @pop q m pc hacc =>
      by_cases hq : whose q = r
      · subst hq
        exact h.step_pop rfl (pop_direct hacc) hapart hlen'
      · exact h.step_other hq hacc
  | retPop q hdone => exact h.move (fun _ => trivial) fun _ hpast => (by cases hpast)

/-- An open loan of the reader is not behind the cursor, and its slot holds its message; no pop is past its
guard. -/
theorem PoppingInv.pinned (h : PoppingInv cfg who whose r c s) {q idx : ℕ} (hq : who q = r)
    (hl : (s.shared.ticket q).loan = some idx) :
    s.shared.cursor r ≤ idx ∧ s.shared.stream[idx]? = some (s.shared.mem.data (cfg.slot idx)) ∧
      ∀ q', whose q' = r → (s.pop q').past = false := by
  obtain ⟨c₀, log, hclaim⟩ := h.claim
  obtain ⟨hlo, hhi⟩ := hclaim.pipe.range q idx hq hl
  have hlt : idx < s.shared.stream.length := hhi.trans_le hclaim.pipe.published
  refine ⟨hlo, ?_, fun q' hq' => ?_⟩
  · rw [List.getElem?_eq_getElem hlt, cfg.slot_eq_mod]
    exact congrArg some (hclaim.holds _ _ hlo (List.getElem?_eq_getElem hlt)).symm
  · rw [← Bool.not_eq_true]
    intro hpast
    rw [(loan_unaware (h.apart q' q hq' hpast hq)).1] at hl
    cases hl

end Step

/-- **Pops and loans of one handle consume every index once, in order**, and what a pop returns is the message
at its index; an open loan is never behind the cursor, its slot holds its message, and no pop is past its
guard meanwhile. This holds as long as no claim reads the cursor between the guard and the return of a pop for
the same reader. -/
theorem pops_beside_loans {s₀ s : PoppingState α} {es : List PoppingMove} (hr : r < cfg.readers)
    (hr' : ¬ rogue r) (hinit : (popping cfg who whose rogue).init s₀)
    (hrun : Run ((popping cfg who whose rogue).guard (KeptApart who whose r)) s₀ es s)
    (hno : ∀ t, .shared (.call t .abort) ∉ es) (hlen : s.shared.stream.length < u64Size) :
    s.shared.consumed r = List.range' (s₀.shared.cursor r) (s.shared.consumed r).length ∧
    s.shared.cursor r = s₀.shared.cursor r + (s.shared.consumed r).length ∧
    ((s.popped r).map Prod.fst).Sublist (s.shared.consumed r) ∧
    (∀ x ∈ s.popped r, s.shared.stream[x.1]? = some x.2) ∧
    ∀ t idx, who t = r → (s.shared.ticket t).loan = some idx →
      s.shared.cursor r ≤ idx ∧ s.shared.stream[idx]? = some (s.shared.mem.data (cfg.slot idx)) ∧
        ∀ q, whose q = r → (s.pop q).past = false := by
  have hinv : PoppingInv cfg who whose r (s₀.shared.cursor r) s := by
    have hrun' := hrun.guard_of_mem (P := fun e => ∀ t, e ≠ .shared (.call t .abort))
      fun e he t heq => hno t (heq ▸ he)
    refine hrun'.invariant_of_bound (fun s => s.shared.stream.length < u64Size) ?_ ?_
      (poppingInv_init hr hr' hinit) hlen
    · intro s e t hst hlt
      exact (length_poppingStep_le hst.1.1).trans_lt hlt
    · intro s e t hs hst hlt
      exact hs.step hr hr' hst.1.1 hst.2 hst.1.2 hlt
  exact ⟨hinv.consumed, hinv.cursor, hinv.popped, hinv.values, fun t idx ht hl => hinv.pinned ht hl⟩

/-! ## Computed runs -/

/-- What a party does next. -/
inductive PoppingTurn (α : Type)
  | call (t : ℕ) (c : LoanCall)
  | access (t : ℕ)
  | callPop (q : ℕ)
  | pop (q : ℕ)
  | callPush (value : α)
  | push

/-- The state after it, with compare-exchanges that do not fail spuriously. -/
def PoppingState.next (cfg : Config) (who whose : ℕ → ℕ) (s : PoppingState α) :
    PoppingTurn α → Option (PoppingState α)
  | .call t c => ((s.shared.ticket t).call c).map fun pc =>
      { s with shared := { s.shared with ticket := Function.update s.shared.ticket t pc } }
  | .access t => ((ticketCode (who t) (s.shared.ticket t)).exec s.shared.mem).map fun x =>
      { s with shared := s.shared.ticketStep x.1 t (who t) x.2 }
  | .callPop q => match s.pop q with
    | .idle => some { s with pop := Function.update s.pop q .checkReader }
    | _ => none
  | .pop q => ((popCode cfg (whose q) (s.pop q)).exec s.shared.mem).map fun x =>
      s.popStep x.1 q (whose q) x.2
  | .callPush value => match s.shared.push with
    | .idle => some { s with shared := { s.shared with push := .loadWriteIdx value } }
    | _ => none
  | .push => ((pushCode cfg s.shared.push).exec s.shared.mem).map fun x =>
      { s with shared := s.shared.pushStep x.1 x.2 }

theorem step_of_next (rogue : ℕ → Prop) {s s' : PoppingState α} {turn : PoppingTurn α}
    (h : s.next cfg who whose turn = some s') : ∃ e, PoppingStep cfg who whose rogue s e s' := by
  cases turn with
  | call t c =>
      obtain ⟨pc, hcall, rfl⟩ := Option.map_eq_some_iff.mp h
      exact ⟨_, .shared (.call t hcall)⟩
  | access t =>
      obtain ⟨x, hexec, rfl⟩ := Option.map_eq_some_iff.mp h
      exact ⟨_, .shared (.access t (direct_of_exec hexec))⟩
  | callPop q =>
      simp only [PoppingState.next] at h
      split at h
      · cases h
        exact ⟨_, .callPop q ‹_›⟩
      · cases h
  | pop q =>
      obtain ⟨x, hexec, rfl⟩ := Option.map_eq_some_iff.mp h
      exact ⟨_, .pop q (direct_of_exec hexec)⟩
  | callPush value =>
      simp only [PoppingState.next] at h
      split at h
      · cases h
        exact ⟨_, .shared (.callPush value ‹_›)⟩
      · cases h
  | push =>
      obtain ⟨x, hexec, rfl⟩ := Option.map_eq_some_iff.mp h
      exact ⟨_, .shared (.push (direct_of_exec hexec))⟩

theorem run_of_turns (rogue : ℕ → Prop) {turns : List (PoppingTurn α)} {s s' : PoppingState α}
    (h : follow (PoppingState.next cfg who whose) turns s = some s') :
    ∃ es, Run (popping cfg who whose rogue) s es s' := by
  induction turns generalizing s with
  | nil =>
      cases h
      exact ⟨[], .nil⟩
  | cons turn turns ih =>
      obtain ⟨u, hu, hrest⟩ := Option.bind_eq_some_iff.mp h
      obtain ⟨e, hstep⟩ := step_of_next rogue hu
      obtain ⟨es, hes⟩ := ih hrest
      exact ⟨e :: es, (Run.single hstep).append hes⟩

/-- A handle on two unread messages, and nobody in a pop. -/
def twoUnreadIdle : PoppingState ℕ := ⟨twoUnread, fun _ => .idle, fun _ => []⟩

theorem init_twoUnreadIdle : (popping twoSlots who whose rogue).init twoUnreadIdle :=
  ⟨opened_twoUnread _, fun _ => rfl, fun _ => rfl⟩

/-- **A pop that has passed the guard un-pins a loan**: a claim takes message 0, the pop advances past it, and
the next push overwrites the slot that the open loan views. -/
theorem pop_unpins_loan : ∃ es s, Run (popping twoSlots (fun _ => 0) (fun _ => 0) fun _ => False)
    twoUnreadIdle es s ∧ s.shared.ticket 0 = .held 0 ∧ s.shared.cursor 0 = 1 ∧
      s.shared.stream = [10, 20, 30] ∧ s.shared.mem.data (twoSlots.slot 0) = 30 := by
  have hplay : (follow (PoppingState.next twoSlots (fun _ => 0) fun _ => 0)
      (List.flatten [[.callPop 0, .pop 0, .pop 0], .call 0 .claim :: List.replicate 6 (.access 0),
        List.replicate 4 (.pop 0), .callPush 30 :: List.replicate 6 .push]) twoUnreadIdle).map
      (fun s => (s.shared.ticket 0, s.shared.cursor 0, s.shared.stream,
        s.shared.mem.data (twoSlots.slot 0))) = some (.held 0, 1, [10, 20, 30], 30) := rfl
  obtain ⟨s, hs, heq⟩ := Option.map_eq_some_iff.mp hplay
  simp only [Prod.mk.injEq] at heq
  obtain ⟨es, hrun⟩ := run_of_turns (fun _ => False) hs
  exact ⟨es, s, hrun, heq⟩

/-- While nobody is past a guard, the loans make the runs they make without pops. -/
theorem run_shared {s t : LoanState α} {es : List Move} {pop : ℕ → PopPc α} {popped : ℕ → List (ℕ × α)}
    (h : Run (loans cfg who rogue) s es t) (hpop : ∀ q, (pop q).past = false) :
    Run ((popping cfg who whose rogue).guard (KeptApart who whose r)) ⟨s, pop, popped⟩
      (es.map .shared) ⟨t, pop, popped⟩ := by
  induction h with
  | nil => exact .nil
  | snoc _ hst ih =>
      rw [List.map_append]
      exact ih.snoc ⟨.shared hst, fun _ _ _ _ _ q _ => hpop q, fun _ he => (by cases he)⟩

/-- A pop may run alone. -/
theorem run_pop {s s' : PoppingState α} {q n : ℕ} (hother : ∀ q', q' ≠ q → (s.pop q').past = false)
    (hfew : tally (Counted who r) s.shared.ticket < u64Size)
    (h : follow (PoppingState.next cfg who whose) (List.replicate n (.pop q)) s = some s') :
    Run ((popping cfg who whose rogue).guard (KeptApart who whose r)) s (List.replicate n (.pop q)) s' := by
  induction n generalizing s with
  | zero => cases h; exact .nil
  | succ n ih =>
      obtain ⟨u, hu, hrest⟩ := Option.bind_eq_some_iff.mp h
      obtain ⟨x, hexec, rfl⟩ := Option.map_eq_some_iff.mp hu
      have hapart : KeptApart who whose r s (.pop q) (s.popStep x.1 q (whose q) x.2) := by
        refine ⟨fun _ _ he => (by cases he), ?_⟩
        rintro q' ⟨⟩ _ hgate _
        refine ⟨fun q'' _ => ?_, hfew⟩
        by_cases hqq : q'' = q
        · rw [hqq, hgate]
          rfl
        · exact hother q'' hqq
      refine (Run.single (S := (popping cfg who whose rogue).guard (KeptApart who whose r))
        ⟨.pop q (direct_of_exec hexec), hapart⟩).append (ih (fun q' hq => ?_) hfew hrest)
      exact (congrArg PopPc.past (Function.update_of_ne hq _ _)).trans (hother q' hq)

/-- One message goes to a loan and one to a pop. -/
theorem pops_beside_loans_both : ∃ s : PoppingState ℕ, s.popped 0 = [(1, 20)] ∧ s.shared.consumed 0 = [0, 1] ∧
    ((s.popped 0).map Prod.fst).Sublist (s.shared.consumed 0) := by
  let committed := twoUnread.play (fun _ => 0) (List.flatten [.call 0 .claim :: List.replicate 6 (.access 0),
    .call 0 .commit :: List.replicate 3 (.access 0)])
  have hloan : committed.map (fun s => fun t => s.ticket (t + 1)) = some fun _ => .idle := rfl
  obtain ⟨u, hu, hidle⟩ := Option.map_eq_some_iff.mp hloan
  have hpop : (committed.bind fun u => follow (PoppingState.next twoSlots (fun _ => 0) fun _ => 0)
      (List.replicate 6 (.pop 0)) ⟨u, Function.update (fun _ => .idle) 0 .checkReader, fun _ => []⟩).map
      (fun s => (s.popped 0, s.shared.consumed 0, s.shared.stream)) = some ([(1, 20)], [0, 1], [10, 20]) := rfl
  obtain ⟨s, hs, hres⟩ := Option.map_eq_some_iff.mp hpop
  rw [hu, Option.bind_some] at hs
  simp only [Prod.mk.injEq] at hres
  have hfew : tally (Counted (fun _ => 0) 0) u.ticket < u64Size := by
    refine (counted_le (n := 1) fun q hq => ?_).trans_lt (by decide)
    obtain ⟨q', rfl⟩ := Nat.exists_eq_add_of_le' hq
    exact congrFun hidle q'
  have hothers : ∀ q, q ≠ 0 → Function.update (fun _ => PopPc.idle) 0 PopPc.checkReader q = (PopPc.idle : PopPc ℕ) :=
    fun q hq => Function.update_of_ne hq _ _
  have hfirst : Run ((popping twoSlots (fun _ => 0) (fun _ => 0) fun _ => False).guard
      (KeptApart (fun _ => 0) (fun _ => 0) 0)) twoUnreadIdle _ ⟨u, fun _ => .idle, fun _ => []⟩ :=
    run_shared (run_of_play hu) fun _ => rfl
  have hrun := (hfirst.snoc ⟨.callPop 0 rfl, fun _ _ he => (by cases he), fun _ he => (by cases he)⟩).append
    (run_pop (r := 0) (fun q hq => congrArg PopPc.past (hothers q hq)) hfew hs)
  have h := pops_beside_loans (r := 0) (by decide) id init_twoUnreadIdle hrun (by simp)
    (by rw [hres.2.2]; decide)
  exact ⟨s, hres.1, hres.2.1, h.2.2.1⟩

end ShmRings.Threads
