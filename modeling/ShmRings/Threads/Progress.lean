import ShmRings.Lib.Progress
import ShmRings.Threads.Loans

/-!
# How many accesses a call makes

`try_push`, `try_pop` and the calls on a loan make a bounded number of accesses whatever the others do, also in
a memory that somebody overwrites. `claim` loops when its compare-exchange fails. Unless it fails for no
reason, another claim or abort of the same reader has taken effect since its load of `claim_base`.

* `PushPc.rest`, `PopPc.rest`; **`push_pop_bounded`**;
* `TicketPc.rest`, `LoanCall.price`, `Sincere`; `rest_access`, `rest_step`; **`claim_lock_free`**.
-/

set_option autoImplicit false

namespace ShmRings.Threads

open Coherent Transition

variable {α : Type} {cfg : Config}

/-! ## Push and pop -/

/-- The accesses that are left at most. -/
def PushPc.rest : PushPc α → ℕ
  | .loadWriteIdx _ => maxReaders + 5
  | .loadNumReaders _ _ => maxReaders + 4
  | .scan _ _ n i _ => max 1 (n - i) + 3
  | .writeSlot _ _ => 3
  | .publish _ _ => 2
  | .bumpTotal => 1
  | .idle | .done _ | .panicked => 0

/-- The accesses that are left at most. -/
def PopPc.rest : PopPc α → ℕ
  | .checkReader => 6
  | .checkGate => 5
  | .loadWriteIdx => 4
  | .loadReadIdx _ => 3
  | .readSlot _ => 2
  | .advance _ _ => 1
  | .idle | .done _ => 0

theorem PushPc.rest_scanFrom (value : α) (w n i minRead : ℕ) :
    (PushPc.scanFrom cfg value w n i minRead).rest ≤ n - i + 3 := by
  unfold PushPc.scanFrom
  split_ifs with hi
  · show max 1 (n - i) + 3 ≤ n - i + 3
    omega
  · exact Nat.zero_le _
  · exact Nat.le_add_left _ _

section Access

variable {m m' : Memory Loc α} {vw vw' : View Loc}

/-- After an access of `try_push` there is one less to make. -/
theorem push_rest {pc pc' : PushPc α} (h : Access False m vw (pushCode cfg pc) m' vw' pc') :
    pc'.rest < pc.rest := by
  cases pc with
  | loadNumReaders v w =>
      cases h with
      | @load _ _ _ n _ =>
          dsimp only
          split_ifs with hn
          · have : (PushPc.scanFrom cfg v w n 0 u64Max).rest ≤ _ := PushPc.rest_scanFrom v w n 0 u64Max
            exact this.trans_lt (Nat.add_lt_add_of_le_of_lt hn (by decide))
          · exact Nat.succ_pos _
  | scan v w n i minRead =>
      cases h with
      | @load _ _ _ c _ =>
          have : (PushPc.scanFrom cfg v w n (i + 1) (min minRead c)).rest ≤ _ :=
            PushPc.rest_scanFrom v w n (i + 1) (min minRead c)
          show (PushPc.scanFrom cfg v w n (i + 1) (min minRead c)).rest < max 1 (n - i) + 3
          omega
  | loadWriteIdx v | writeSlot v w | publish v w | bumpTotal =>
      cases h
      exact Nat.lt_succ_self _
  | idle | done _ | panicked => cases h

/-- After an access of `try_pop` there is one less to make. -/
theorem pop_rest {r : ℕ} {pc pc' : PopPc α} (h : Access False m vw (popCode cfg r pc) m' vw' pc') :
    pc'.rest < pc.rest := by
  cases pc with
  | checkReader | checkGate | loadReadIdx _ =>
      cases h
      dsimp only
      split_ifs <;> exact Nat.lt_of_sub_eq_succ rfl
  | loadWriteIdx | readSlot _ | advance _ _ =>
      cases h
      exact Nat.lt_succ_self _
  | idle | done _ => cases h

end Access

/-- A call that has not returned has something to do. -/
theorem push_goes_on {value : α} {n : ℕ} {pc : PushPc α} (h : Amid (pushCode cfg) (.loadWriteIdx value) n pc) :
    pc = .panicked ∨ (∃ b, pc = .done b) ∨ pushCode cfg pc ≠ .halt := by
  cases pc with
  | idle =>
      cases h with
      | @step _ pc _ _ _ _ _ _ hacc =>
          cases pc with
          | loadNumReaders v w =>
              generalize hpc : (PushPc.idle : PushPc α) = pc' at hacc
              cases hacc
              dsimp only [PushPc.scanFrom] at hpc
              split_ifs at hpc
          | scan v w n i minRead =>
              generalize hpc : (PushPc.idle : PushPc α) = pc' at hacc
              cases hacc
              dsimp only [PushPc.scanFrom] at hpc
              split_ifs at hpc
          | _ => cases hacc
  | panicked => exact .inl rfl
  | done b => exact .inr (.inl ⟨b, rfl⟩)
  | _ => exact .inr (.inr (by simp [pushCode]))

theorem pop_goes_on {r n : ℕ} {pc : PopPc α} (h : Amid (popCode cfg r) .checkReader n pc) :
    (∃ res, pc = .done res) ∨ popCode cfg r pc ≠ .halt := by
  cases pc with
  | idle =>
      cases h with
      | @step _ pc _ _ _ _ _ _ hacc =>
          cases pc with
          | checkReader | checkGate | loadReadIdx _ =>
              generalize hpc : (PopPc.idle : PopPc α) = pc' at hacc
              cases hacc
              dsimp only at hpc
              split_ifs at hpc
          | _ => cases hacc
  | done res => exact .inl ⟨res, rfl⟩
  | _ => exact .inr (by simp [popCode])

/-- **Push and pop are wait-free.** Whatever happens to memory between its accesses, a call of `try_push` makes at
most 13 and a call of `try_pop` at most 6, and until it has returned nothing can keep it from the next. -/
theorem push_pop_bounded :
    (∀ (value : α) n pc, Amid (pushCode cfg) (.loadWriteIdx value) n pc → n ≤ maxReaders + 5 ∧
      (pc = .panicked ∨ (∃ b, pc = .done b) ∨
        ∀ m, ∃ m' vw' pc', Access False m (fun _ => 0) (pushCode cfg pc) m' vw' pc')) ∧
    ∀ r n (pc : PopPc α), Amid (popCode cfg r) .checkReader n pc → n ≤ 6 ∧
      ((∃ res, pc = .done res) ∨
        ∀ m, ∃ m' vw' pc', Access False m (fun _ => 0) (popCode cfg r pc) m' vw' pc') := by
  refine ⟨fun value n pc h => ⟨?_, ?_⟩, fun r n pc h => ⟨?_, ?_⟩⟩
  · have hpaid : n + pc.rest ≤ maxReaders + 5 := h.paid fun _ _ _ _ _ _ => push_rest
    exact (Nat.le_add_right _ _).trans hpaid
  · exact (push_goes_on h).imp id (Or.imp id exists_access)
  · have hpaid : n + pc.rest ≤ 6 := h.paid fun _ _ _ _ _ _ => pop_rest
    exact (Nat.le_add_right _ _).trans hpaid
  · exact (pop_goes_on h).imp id exists_access

/-! ## Claims -/

/-- The accesses that are left at most, if nobody else writes `claim_base`, which is now `base`. A
compare-exchange that will fail starts another round. -/
def TicketPc.rest (base : ℕ) : TicketPc → ℕ
  | .checkReader => 6
  | .raiseGate => 5
  | .loadWriteIdx => 4
  | .loadCursor _ => 3
  | .loadBase _ _ => 2
  | .exchange b _ => if base = b then 1 else 5
  | .lowerGate => 1
  | .commitLoad _ | .dropLoad _ => 3
  | .commitStore _ | .dropStore _ | .abortMin _ => 2
  | .dropSkip _ | .resolve => 1
  | .idle | .refused | .held _ | .rejected _ _ | .resolved => 0

/-- The accesses of a call that is not interfered with. -/
def LoanCall.price : LoanCall → ℕ
  | .claim => 6
  | .commit | .drop => 3
  | .abort => 2

/-- A compare-exchange that finds the value it expects succeeds. -/
def Sincere (who : ℕ → ℕ) (s : LoanState α) (e : Move) (t : LoanState α) : Prop :=
  ∀ k b idx, e = .access k → s.ticket k = .exchange b idx → s.base (who k) = b → t.ticket k = .held idx

/-- How often `claim_base` of reader `r` has been written. -/
def LoanState.baseWrites (s : LoanState α) (r : ℕ) : ℕ := (s.mem.word (.claimBase r)).top

/-- What a move of ticket `k` costs, and what a call on it adds. -/
def Move.cost (k : ℕ) : Move → ℕ
  | .access t => if t = k then 1 else 0
  | _ => 0

def Move.income (k : ℕ) : Move → ℕ
  | .call t c => if t = k then c.price else 0
  | _ => 0

section Tickets

variable {s t : LoanState α} {e : Move} {who : ℕ → ℕ} {rogue : ℕ → Prop} {r k : ℕ} {m m' : Memory Loc α}
  {pc pc' : TicketPc}

theorem TicketPc.rest_le (pc : TicketPc) (base base' : ℕ) : pc.rest base' ≤ pc.rest base + 4 := by
  cases pc with
  | exchange b idx =>
      show (if base' = b then 1 else 5) ≤ (if base = b then 1 else 5) + 4
      split_ifs <;> decide
  | _ => exact Nat.le_add_right _ _

theorem rest_call {c : LoanCall} (h : pc.call c = some pc') (base : ℕ) :
    pc'.rest base ≤ pc.rest base + c.price := by
  cases c <;> cases pc <;> cases h <;> exact Nat.le_of_ble_eq_true rfl

/-- `claim_base` is written by a claim that succeeds and by an abort. -/
theorem ticket_base (h : TicketAccess r m pc m' pc') (q : ℕ) :
    m'.word (.claimBase q) = m.word (.claimBase q) ∨
      q = r ∧ (m'.word (.claimBase q)).top = (m.word (.claimBase q)).top + 1 := by
  have hwrite : ∀ v, (m.store (.claimBase r) v).word (.claimBase q) = m.word (.claimBase q) ∨
      q = r ∧ ((m.store (.claimBase r) v).word (.claimBase q)).top = (m.word (.claimBase q)).top + 1 := by
    intro v
    by_cases hq : q = r
    · subst hq
      exact .inr ⟨rfl, by rw [Memory.store_word_self, Cell.store_top]⟩
    · exact .inl (Memory.store_word_ne _ (by simp [hq]) _)
  cases h with
  | won | rewind => exact hwrite _
  | raise | lower | leave | resolve | storeCommit | storeDrop =>
      exact .inl (Memory.store_word_ne _ (by simp) _)
  | _ => exact .inl rfl

/-- An access of a ticket is one less to make: only a lost exchange starts another round, and `hwin` says that
it had been interfered with. -/
theorem rest_access (h : TicketAccess r m pc m' pc')
    (hwin : ∀ b idx, pc = .exchange b idx → m.now (.claimBase r) = b → pc' = .held idx) :
    pc'.rest (m'.now (.claimBase r)) < pc.rest (m.now (.claimBase r)) := by
  cases h with
  | @lost b idx =>
      by_cases heq : m.now (.claimBase r) = b
      · cases hwin b idx rfl heq
      · show 4 < if m.now (.claimBase r) = b then 1 else 5
        rw [if_neg heq]
        exact Nat.lt_succ_self 4
  | @won b idx heq =>
      show 0 < if m.now (.claimBase r) = b then 1 else 5
      rw [if_pos heq]
      decide
  | @choose w c _ =>
      show (if m.now (.claimBase r) = m.now (.claimBase r) then 1 else 5) < 2
      rw [if_pos rfl]
      decide
  | _ => exact Nat.lt_of_sub_eq_succ rfl

/-- Another party's move that leaves `claim_base` alone. -/
theorem rest_frame (hticket : t.ticket k = s.ticket k)
    (hword : t.mem.word (.claimBase (who k)) = s.mem.word (.claimBase (who k))) :
    (t.ticket k).rest (t.base (who k)) + 4 * s.baseWrites (who k) =
      (s.ticket k).rest (s.base (who k)) + 4 * t.baseWrites (who k) := by
  unfold LoanState.base LoanState.baseWrites Memory.now
  rw [hticket, hword]

/-- **What a step costs ticket `k`**: an access of its own is one less to make, and a write of `claim_base`
may make a round useless. -/
theorem rest_step (hst : LoanStep cfg who rogue s e t) (hsin : Sincere who s e t) :
    (t.ticket k).rest (t.base (who k)) + e.cost k + 4 * s.baseWrites (who k) ≤
      (s.ticket k).rest (s.base (who k)) + e.income k + 4 * t.baseWrites (who k) := by
  cases hst with
  | callPush _ _ | retPush _ => exact le_rfl
  | @push m pc hacc =>
      obtain ⟨vw, hacc⟩ := hacc
      have hword : m.word (.claimBase (who k)) = s.mem.word (.claimBase (who k)) :=
        push_word hacc (by simp) (by simp)
      exact (rest_frame (s := s) (t := s.pushStep m pc) rfl hword).le
  | poke r v _ _ => exact (rest_frame rfl (Memory.store_word_ne _ (by simp) _)).le
  | @call q c pc hcall =>
      by_cases hq : q = k
      · subst hq
        have := rest_call hcall (s.base (who q))
        show (Function.update s.ticket q pc q).rest _ + 0 + _ ≤ _ + (if q = q then c.price else 0) + _
        rw [Function.update_self, if_pos rfl]
        exact Nat.add_le_add_right this _
      · show (Function.update s.ticket q pc k).rest _ + 0 + _ ≤ _ + (if q = k then c.price else 0) + _
        rw [Function.update_of_ne (Ne.symm hq), if_neg hq]
        exact le_rfl
  | @access q m pc hacc =>
      have hta := ticket_access hacc
      have hbase := ticket_base hta (who k)
      by_cases hq : q = k
      · subst hq
        have hless := rest_access hta fun b idx hpc hnow => by
          have := hsin q b idx rfl hpc hnow
          rwa [show (s.ticketStep m q (who q) pc).ticket q = pc from Function.update_self _ _ _] at this
        have hmore : s.baseWrites (who q) ≤ (s.ticketStep m q (who q) pc).baseWrites (who q) := by
          rcases hbase with heq | ⟨-, heq⟩
          · exact (congrArg Cell.top heq).ge
          · exact (Nat.le_succ _).trans heq.ge
        show (Function.update s.ticket q pc q).rest (m.now (.claimBase (who q))) + (if q = q then 1 else 0) + _ ≤
          (s.ticket q).rest (s.mem.now (.claimBase (who q))) + 0 + _
        rw [Function.update_self, if_pos rfl]
        omega
      · have hticket : (s.ticketStep m q (who q) pc).ticket k = s.ticket k :=
          Function.update_of_ne (Ne.symm hq) _ _
        show _ + (if q = k then 1 else 0) + _ ≤ _ + 0 + _
        rw [if_neg hq]
        rcases hbase with heq | ⟨-, heq⟩
        · exact (rest_frame hticket heq).le
        · rw [hticket]
          have := (s.ticket k).rest_le (s.base (who k)) ((s.ticketStep m q (who q) pc).base (who k))
          have hwrites : (s.ticketStep m q (who q) pc).baseWrites (who k) = s.baseWrites (who k) + 1 := heq
          omega

end Tickets

/-- **Claims are lock-free**, in any run from any state in which no compare-exchange fails for no reason. The
accesses of a ticket are those of its calls, and four more for each claim and each abort of its reader that takes
effect meanwhile. -/
theorem claim_lock_free {s t : LoanState α} {who : ℕ → ℕ} {rogue : ℕ → Prop} {es : List Move}
    (hrun : Run ((loans cfg who rogue).guard (Sincere who)) s es t) (k : ℕ) :
    (t.ticket k).rest (t.base (who k)) + (es.map (Move.cost k)).sum + 4 * s.baseWrites (who k) ≤
      (s.ticket k).rest (s.base (who k)) + (es.map (Move.income k)).sum + 4 * t.baseWrites (who k) := by
  have hpay : ∀ (s : LoanState α) e t, ((loans cfg who rogue).guard (Sincere who)).step s e t →
      (t.ticket k).rest (t.base (who k)) + e.cost k + 4 * s.baseWrites (who k) ≤
        (s.ticket k).rest (s.base (who k)) + e.income k + 4 * t.baseWrites (who k) :=
    fun s e t hst => rest_step hst.1 hst.2
  exact Run.paid (Φ := fun s => (s.ticket k).rest (s.base (who k))) hpay hrun

/-- In a run that is computed no compare-exchange fails for no reason. -/
theorem sincere_of_play {who : ℕ → ℕ} {rogue : ℕ → Prop} {es : List Move} {s t : LoanState α}
    (h : s.play who es = some t) : Run ((loans cfg who rogue).guard (Sincere who)) s es t := by
  induction es generalizing s with
  | nil =>
      cases h
      exact .nil
  | cons e es ih =>
      cases e with
      | other => cases h
      | call q c =>
          obtain ⟨pc, hcall, hrest⟩ := Option.bind_eq_some_iff.mp h
          have hstep : ((loans cfg who rogue).guard (Sincere who)).step s (.call q c) _ :=
            ⟨.call q hcall, fun k b idx he => by cases he⟩
          exact (Run.single hstep).append (ih hrest)
      | access q =>
          obtain ⟨⟨m, pc⟩, hexec, hrest⟩ := Option.bind_eq_some_iff.mp h
          have hstep : ((loans cfg who rogue).guard (Sincere who)).step s (.access q)
              (s.ticketStep m q (who q) pc) := by
            refine ⟨.access q (direct_of_exec hexec), fun k b idx he hpc hbase => ?_⟩
            cases he
            rw [hpc] at hexec
            have hnow : s.mem.now (.claimBase (who q)) = b := hbase
            simp only [ticketCode, Instr.exec, if_pos hnow] at hexec
            cases hexec
            exact Function.update_self _ _ _
          exact (Run.single hstep).append (ih hrest)

/-- Two tickets choose the same index; the second loses, and claims the next one. -/
def contended : List Move :=
  [Move.call 0 .claim, .call 1 .claim] ++ List.replicate 5 (Move.access 0) ++ List.replicate 5 (Move.access 1) ++
    .access 0 :: List.replicate 5 (Move.access 1)

/-- The second ticket makes ten accesses. -/
theorem claim_lock_free_contended : ∃ t : LoanState ℕ, t.ticket 0 = .held 0 ∧ t.ticket 1 = .held 1 ∧
    (contended.map (Move.cost 1)).sum = 10 ∧
    (t.ticket 1).rest (t.base 0) + (contended.map (Move.cost 1)).sum + 4 * twoUnread.baseWrites 0 ≤
      (twoUnread.ticket 1).rest (twoUnread.base 0) + (contended.map (Move.income 1)).sum + 4 * t.baseWrites 0 := by
  have hplay : (twoUnread.play (fun _ => 0) contended).map (fun s => (s.ticket 0, s.ticket 1)) =
      some (.held 0, .held 1) := rfl
  obtain ⟨s, hs, heq⟩ := Option.map_eq_some_iff.mp hplay
  obtain ⟨hfirst, hsecond⟩ := Prod.mk.inj heq
  have hrun : Run ((loans twoSlots (fun _ => 0) fun _ => False).guard (Sincere fun _ => 0)) twoUnread _ s :=
    sincere_of_play hs
  exact ⟨s, hfirst, hsecond, rfl, claim_lock_free hrun 1⟩

end ShmRings.Threads
