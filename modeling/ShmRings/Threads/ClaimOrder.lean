import Mathlib.Order.Interval.Finset.Nat
import ShmRings.Threads.Loans

/-!
# Concurrent claims hand out consecutive messages

Without aborts the pipeline head of a reader only counts up from the cursor at the opening of the
handle, whatever a claim read before its compare-exchange: if the head is still the one it read, the
index it chose is the next one.

* `ClaimOk`, `Pipeline`: what the tickets of one reader know of its pipeline; `Pipeline.claim`,
  `Pipeline.consume`: a claim and a cursor store keep it;
* `ClaimInv`, `ClaimInv.step`; **`claims_consecutive`**.
-/

set_option autoImplicit false

namespace ShmRings.Threads

open Coherent Transition

variable {α : Type}

/-- What a claim knows, when `k` indices from `c₀` on are claimed, the pipeline head is `base`, and
the reader's cursor and `write_idx` are `cursor` and `W`. -/
def ClaimOk (c₀ k base cursor W : ℕ) : TicketPc → Prop
  | .loadCursor w => w ≤ W
  | .loadBase w c => w ≤ W ∧ c₀ ≤ c ∧ c ≤ cursor
  | .exchange b idx => b ≤ base ∧ idx < W ∧ (b = base → idx = c₀ + k)
  | .abortMin _ => False
  | _ => True

/-- The pipeline of one reader; `mine` are its tickets. -/
structure Pipeline (mine : ℕ → Prop) (c₀ k base cursor W : ℕ) (ticket : ℕ → TicketPc) : Prop where
  head : max base c₀ = c₀ + k
  lo : c₀ ≤ cursor
  hi : cursor ≤ c₀ + k
  published : c₀ + k ≤ W
  claim : ∀ t, mine t → ClaimOk c₀ k base cursor W (ticket t)
  storing : ∀ t idx, mine t → (ticket t).stores = some idx → idx = cursor
  range : ∀ t idx, mine t → (ticket t).loan = some idx → cursor ≤ idx ∧ idx < c₀ + k
  unique : ∀ t t' idx, mine t → mine t' → (ticket t).loan = some idx →
    (ticket t').loan = some idx → t = t'

theorem loan_of_stores {pc : TicketPc} {idx : ℕ} (h : pc.stores = some idx) : pc.loan = some idx := by
  cases pc <;> first | exact h | cases h

theorem claims_resolve (pc : TicketPc) : pc.claims .resolve = [] := by cases pc <;> rfl

section Pipeline

variable {mine : ℕ → Prop} {c₀ k base cursor W : ℕ} {ticket : ℕ → TicketPc} {pc : TicketPc} {t : ℕ}

/-- A claim does not notice a head, a cursor or a `write_idx` that moved forward. -/
theorem ClaimOk.mono {k' base' cursor' W' : ℕ} (h : ClaimOk c₀ k base cursor W pc)
    (hbase : base ≤ base') (hk : base = base' → k = k') (hcursor : cursor ≤ cursor') (hW : W ≤ W') :
    ClaimOk c₀ k' base' cursor' W' pc := by
  cases pc with
  | loadCursor w => exact le_trans h hW
  | loadBase w c => exact ⟨h.1.trans hW, h.2.1, h.2.2.trans hcursor⟩
  | exchange b idx =>
      obtain ⟨hb, hidx, hnext⟩ := h
      refine ⟨hb.trans hbase, hidx.trans_le hW, fun heq => ?_⟩
      have hsame : base = base' := le_antisymm hbase (heq ▸ hb)
      rw [← hk hsame]
      exact hnext (heq.trans hsame.symm)
  | abortMin _ => exact h
  | _ => trivial

theorem Pipeline.publish {W' : ℕ} (h : Pipeline mine c₀ k base cursor W ticket) (hW : W ≤ W') :
    Pipeline mine c₀ k base cursor W' ticket where
  head := h.head
  lo := h.lo
  hi := h.hi
  published := h.published.trans hW
  claim t ht := (h.claim t ht).mono le_rfl (fun _ => rfl) le_rfl hW
  storing := h.storing
  range := h.range
  unique := h.unique

/-- The tickets of other readers play no part. -/
theorem Pipeline.congr {ticket' : ℕ → TicketPc} (h : Pipeline mine c₀ k base cursor W ticket)
    (hsame : ∀ t, mine t → ticket' t = ticket t) : Pipeline mine c₀ k base cursor W ticket' where
  head := h.head
  lo := h.lo
  hi := h.hi
  published := h.published
  claim t ht := hsame t ht ▸ h.claim t ht
  storing t idx ht := hsame t ht ▸ h.storing t idx ht
  range t idx ht := hsame t ht ▸ h.range t idx ht
  unique t t' idx ht ht' := hsame t ht ▸ hsame t' ht' ▸ h.unique t t' idx ht ht'

/-- A ticket moves on with the loan it had or with none. -/
theorem Pipeline.move (h : Pipeline mine c₀ k base cursor W ticket)
    (hclaim : ClaimOk c₀ k base cursor W pc) (hstore : ∀ idx, pc.stores = some idx → idx = cursor)
    (hloan : ∀ idx, pc.loan = some idx → (ticket t).loan = some idx) :
    Pipeline mine c₀ k base cursor W (Function.update ticket t pc) := by
  have hback : ∀ q idx, (Function.update ticket t pc q).loan = some idx →
      (ticket q).loan = some idx := by
    intro q idx hq
    by_cases hqt : q = t
    · subst hqt
      rw [Function.update_self] at hq
      exact hloan idx hq
    · rwa [Function.update_of_ne hqt] at hq
  refine ⟨h.head, h.lo, h.hi, h.published, fun q hq => ?_, fun q idx hq hst => ?_,
    fun q idx hq hl => h.range q idx hq (hback q idx hl), fun q q' idx hq hq' hl hl' =>
    h.unique q q' idx hq hq' (hback q idx hl) (hback q' idx hl')⟩
  · by_cases hqt : q = t
    · subst hqt
      rw [Function.update_self]
      exact hclaim
    · rw [Function.update_of_ne hqt]
      exact h.claim q hq
  · by_cases hqt : q = t
    · subst hqt
      rw [Function.update_self] at hst
      exact hstore idx hst
    · rw [Function.update_of_ne hqt] at hst
      exact h.storing q idx hq hst

/-- **A successful compare-exchange takes the next index.** -/
theorem Pipeline.take (h : Pipeline mine c₀ k base cursor W ticket) (hW : c₀ + k < W) :
    Pipeline mine c₀ (k + 1) (c₀ + k + 1) cursor W
      (Function.update ticket t (.held (c₀ + k))) := by
  have hhead := h.head
  -- an index already out is below the one taken
  have hold : ∀ q idx, mine q → q ≠ t → (Function.update ticket t (.held (c₀ + k)) q).loan = some idx →
      (ticket q).loan = some idx ∧ idx < c₀ + k := by
    intro q idx hq hqt hl
    rw [Function.update_of_ne hqt] at hl
    exact ⟨hl, (h.range q idx hq hl).2⟩
  have hnew : ∀ idx, (Function.update ticket t (.held (c₀ + k)) t).loan = some idx → idx = c₀ + k := by
    intro idx hl
    rw [Function.update_self] at hl
    cases hl
    rfl
  refine ⟨by omega, h.lo, h.hi.trans (Nat.le_succ _), hW, fun q hq => ?_, fun q idx hq hst => ?_,
    fun q idx hq hl => ?_, fun q q' idx hq hq' hl hl' => ?_⟩
  · by_cases hqt : q = t
    · subst hqt
      rw [Function.update_self]
      trivial
    · rw [Function.update_of_ne hqt]
      exact (h.claim q hq).mono (by omega) (by omega) le_rfl le_rfl
  · by_cases hqt : q = t
    · subst hqt
      rw [Function.update_self] at hst
      cases hst
    · rw [Function.update_of_ne hqt] at hst
      exact h.storing q idx hq hst
  · by_cases hqt : q = t
    · subst hqt
      have := hnew idx hl
      have := h.hi
      omega
    · obtain ⟨hl', hlt⟩ := hold q idx hq hqt hl
      exact ⟨(h.range q idx hq hl').1, by omega⟩
  · by_cases hqt : q = t
    · by_cases hqt' : q' = t
      · exact hqt.trans hqt'.symm
      · subst hqt
        have := hnew idx hl
        have := (hold q' idx hq' hqt' hl').2
        omega
    · by_cases hqt' : q' = t
      · subst hqt'
        have := hnew idx hl'
        have := (hold q idx hq hqt hl).2
        omega
      · exact h.unique q q' idx hq hq' (hold q idx hq hqt hl).1 (hold q' idx hq' hqt' hl').1

/-- **A cursor store moves the cursor past the loan at it**; no other loan is there. -/
theorem Pipeline.consume (h : Pipeline mine c₀ k base cursor W ticket) (ht : mine t)
    (hst : (ticket t).stores = some cursor) :
    Pipeline mine c₀ k base (cursor + 1) W (Function.update ticket t .resolve) := by
  have hloan := loan_of_stores hst
  have hother : ∀ q idx, mine q → (Function.update ticket t .resolve q).loan = some idx →
      q ≠ t ∧ (ticket q).loan = some idx := by
    intro q idx hq hl
    by_cases hqt : q = t
    · subst hqt
      rw [Function.update_self] at hl
      cases hl
    · rw [Function.update_of_ne hqt] at hl
      exact ⟨hqt, hl⟩
  have hpast : ∀ q idx, mine q → q ≠ t → (ticket q).loan = some idx → cursor + 1 ≤ idx := by
    intro q idx hq hqt hl
    have hle := (h.range q idx hq hl).1
    have hne : idx ≠ cursor := fun heq => hqt (h.unique q t idx hq ht hl (heq ▸ hloan))
    omega
  refine ⟨h.head, h.lo.trans (Nat.le_succ _), (h.range t cursor ht hloan).2, h.published,
    fun q hq => ?_, fun q idx hq hs => ?_, fun q idx hq hl => ?_, fun q q' idx hq hq' hl hl' => ?_⟩
  · by_cases hqt : q = t
    · subst hqt
      rw [Function.update_self]
      trivial
    · rw [Function.update_of_ne hqt]
      exact (h.claim q hq).mono le_rfl (fun _ => rfl) (Nat.le_succ _) le_rfl
  · obtain ⟨hqt, hl⟩ := hother q idx hq (loan_of_stores hs)
    rw [Function.update_of_ne hqt] at hs
    have := hpast q idx hq hqt hl
    have := h.storing q idx hq hs
    omega
  · obtain ⟨hqt, hl'⟩ := hother q idx hq hl
    exact ⟨hpast q idx hq hqt hl', (h.range q idx hq hl').2⟩
  · exact h.unique q q' idx hq hq' (hother q idx hq hl).2 (hother q' idx hq' hl').2

end Pipeline

/-! ## The invariant -/

/-- The invariant of reader `r`, whose cursor was `c₀` when the handle was opened. -/
structure ClaimInv (cfg : Config) (who : ℕ → ℕ) (r c₀ : ℕ) (s : LoanState α) : Prop where
  numReaders : s.mem.now .numReaders = cfg.readers
  writeIdx : s.mem.now .writeIdx = s.stream.length
  lag : s.stream.length ≤ s.cursor r + cfg.capacity
  holds : Window.Holds cfg.capacity s.mem.data s.stream (s.cursor r)
  push : PushOk cfg (· = r) s.cursor s.mem.data s.stream.length s.push
  claimed : s.claimed r = List.range' c₀ (s.claimed r).length
  pipe : Pipeline (who · = r) c₀ (s.claimed r).length (s.base r) (s.cursor r) s.stream.length s.ticket

variable {cfg : Config} {who : ℕ → ℕ} {rogue : ℕ → Prop} {r c₀ : ℕ}

theorem claimInv_opened {s : LoanState α} (h : Opened cfg (fun r => r < cfg.readers ∧ ¬ rogue r) s)
    (hr : r < cfg.readers) (hr' : ¬ rogue r) : ClaimInv cfg who r (s.cursor r) s := by
  obtain ⟨hle, hlag, hholds⟩ := h.window r ⟨hr, hr'⟩
  refine ⟨h.numReaders, h.writeIdx, hlag, hholds, ?_, ?_, ?_⟩
  · exact h.push.weaken fun q hq => by rw [hq]; exact ⟨hr, hr'⟩
  · rw [h.claimed]
    rfl
  · rw [h.claimed, h.base]
    refine ⟨Nat.zero_max _, le_rfl, le_rfl, hle, fun t _ => ?_, fun t idx _ hst => ?_,
      fun t idx _ hl => ?_, fun t t' idx _ _ hl _ => ?_⟩
    · rw [h.ticket]
      trivial
    · rw [h.ticket] at hst
      cases hst
    · rw [h.ticket] at hl
      cases hl
    · rw [h.ticket] at hl
      cases hl

section Step

variable {s : LoanState α} {m m' : Memory Loc α}

theorem ClaimInv.step_push (h : ClaimInv cfg who r c₀ s) (hr : r < cfg.readers) {pc : PushPc α}
    (hacc : Direct s.mem (pushCode cfg s.push) m pc)
    (hlen : (s.stream ++ s.push.publishes).length < u64Size) :
    ClaimInv cfg who r c₀ (s.pushStep m pc) := by
  obtain ⟨vw, hacc⟩ := hacc
  rw [List.length_append] at hlen
  have hnow : ∀ {x : Loc}, x ≠ .writeIdx → x ≠ .totalWritten → m.now x = s.mem.now x :=
    fun hw ht => congrArg Cell.now (push_word hacc hw ht)
  have hcur : (s.pushStep m pc).cursor = s.cursor := funext fun q => hnow (by simp) (by simp)
  have hlength : (s.pushStep m pc).stream.length = s.stream.length + s.push.publishes.length :=
    List.length_append
  have hle : s.cursor r ≤ s.stream.length := h.pipe.hi.trans h.pipe.published
  have hnext := h.push.step hacc (by omega)
    (fun i v hs => (hs.now trivial).trans h.writeIdx)
    (fun i v hs => (hs.now trivial).trans h.numReaders)
    (fun q i v _ hs => (hs.now trivial).le) ⟨r, hr, rfl, hle⟩
  obtain ⟨hholds, hlag⟩ := h.push.holds hacc hr rfl h.lag h.holds
  refine ⟨(hnow (by simp) (by simp)).trans h.numReaders, ?_, ?_, ?_, ?_, h.claimed, ?_⟩
  · rw [hlength]
    exact h.push.now hacc h.writeIdx hlen
  · rw [hcur, hlength]
    exact hlag
  · rw [hcur]
    exact hholds
  · rw [hcur, hlength]
    exact hnext
  · have hbase : (s.pushStep m pc).base r = s.base r := hnow (by simp) (by simp)
    rw [hcur, hbase, hlength]
    exact h.pipe.publish (Nat.le_add_right _ _)

/-- What a ticket knows after an access that neither wins a compare-exchange nor stores. -/
theorem claimOk_access {pc pc' : TicketPc} {k W : ℕ} (hacc : TicketAccess r m pc m' pc')
    (hstores : pc.stores = none) (hclaims : pc.claims pc' = []) (hW : m.now .writeIdx = W)
    (hok : ClaimOk c₀ k (m.now (.claimBase r)) (m.now (.readIdx r)) W pc)
    (hhead : max (m.now (.claimBase r)) c₀ = c₀ + k) (hlo : c₀ ≤ m.now (.readIdx r))
    (hhi : m.now (.readIdx r) ≤ c₀ + k) :
    m'.now (.claimBase r) = m.now (.claimBase r) ∧
      ClaimOk c₀ k (m.now (.claimBase r)) (m.now (.readIdx r)) W pc' ∧
      (∀ idx, pc'.stores = some idx → idx = m.now (.readIdx r)) ∧
      ∀ idx, pc'.loan = some idx → pc.loan = some idx := by
  -- most accesses hand on neither a loan nor a passed test
  have hplain : ∀ {pc'' : TicketPc}, pc''.stores = none → pc''.loan = none →
      (∀ idx, pc''.stores = some idx → idx = m.now (.readIdx r)) ∧
        ∀ idx, pc''.loan = some idx → pc.loan = some idx := by
    intro pc'' hs hl
    rw [hs, hl]
    exact ⟨fun _ h => (by cases h), fun _ h => (by cases h)⟩
  have hgate : ∀ v, (m.store (.loanDepth r) v).now (.claimBase r) = m.now (.claimBase r) :=
    fun v => Memory.store_now_ne _ (by simp) _
  cases hacc with
  | accept | refuse | caughtUp | lost => exact ⟨rfl, trivial, hplain rfl rfl⟩
  | raise | lower | leave | resolve => exact ⟨hgate _, trivial, hplain rfl rfl⟩
  | writeIdx => exact ⟨rfl, hW.le, hplain rfl rfl⟩
  | cursor => exact ⟨rfl, ⟨hok, hlo, le_rfl⟩, hplain rfl rfl⟩
  | choose hlt =>
      obtain ⟨hw, hc₀, hc⟩ := hok
      -- the head just read is the current one: with it the next index is the first unclaimed
      exact ⟨rfl, ⟨le_rfl, by omega, fun _ => by omega⟩, hplain rfl rfl⟩
  | won => cases hclaims
  | reject | skipDrop => exact ⟨rfl, trivial, fun _ h => (by cases h), fun _ h => h⟩
  | passCommit heq | passDrop heq =>
      refine ⟨rfl, trivial, fun i h => ?_, fun _ h => h⟩
      cases h
      exact heq.symm
  | storeCommit | storeDrop => cases hstores
  | rewind => exact hok.elim

/-- **An access of one of the reader's tickets keeps the invariant.** -/
theorem ClaimInv.step_ticket (h : ClaimInv cfg who r c₀ s) (hlen : s.stream.length < u64Size) {t : ℕ}
    {pc : TicketPc} (ht : who t = r) (hacc : TicketAccess r s.mem (s.ticket t) m pc) :
    ClaimInv cfg who r c₀ (s.ticketStep m t r pc) := by
  have hle : s.cursor r ≤ s.stream.length := h.pipe.hi.trans h.pipe.published
  have hdata : (s.ticketStep m t r pc).mem.data = s.mem.data := ticket_data hacc
  have hclaimed : (s.ticketStep m t r pc).claimed r = s.claimed r ++ (s.ticket t).claims pc :=
    Function.update_self _ _ _
  -- what is left: the cursor, the log and the pipeline
  have hrest : ∀ {c b : ℕ}, (s.ticketStep m t r pc).cursor r = c → (s.ticketStep m t r pc).base r = b →
      s.cursor r ≤ c →
      (s.ticketStep m t r pc).claimed r = List.range' c₀ ((s.ticketStep m t r pc).claimed r).length →
      Pipeline (who · = r) c₀ ((s.ticketStep m t r pc).claimed r).length b c s.stream.length
        (Function.update s.ticket t pc) →
      ClaimInv cfg who r c₀ (s.ticketStep m t r pc) := by
    rintro c b rfl rfl hcur hlog hpipe
    refine ⟨?_, ?_, h.lag.trans (by omega), ?_, ?_, hlog, hpipe⟩
    · exact (ticket_now hacc (by simp) (by simp) (by simp)).trans h.numReaders
    · exact (ticket_now hacc (by simp) (by simp) (by simp)).trans h.writeIdx
    · rw [hdata]
      exact h.holds.mono hcur
    · rw [hdata]
      refine h.push.mono fun q hq => ?_
      rw [hq]
      exact hcur
  cases hst : (s.ticket t).stores with
  | some idx =>
      obtain rfl : idx = s.cursor r := h.pipe.storing t idx ht hst
      have hloan := h.pipe.range t _ ht (loan_of_stores hst)
      have hpub := h.pipe.published
      obtain ⟨rfl, rfl⟩ := ticket_store hacc hst
      rw [claims_resolve, List.append_nil] at hclaimed
      refine hrest ((Memory.store_now_self _ _ _).trans (wrappingAdd_eq (by omega)))
        (Memory.store_now_ne _ (by simp) _) (Nat.le_succ _) ?_ ?_
      · rw [hclaimed]
        exact h.claimed
      · rw [hclaimed]
        exact h.pipe.consume ht hst
  | none =>
      have hcur := ticket_cursor hacc hst
      cases hcl : (s.ticket t).claims pc with
      | nil =>
          have hsame : (s.ticketStep m t r pc).claimed r = s.claimed r := by
            rw [hclaimed, hcl, List.append_nil]
          obtain ⟨hbase, hok, hstore, hloan⟩ := claimOk_access hacc hst hcl h.writeIdx
            (h.pipe.claim t ht) h.pipe.head h.pipe.lo h.pipe.hi
          refine hrest hcur hbase le_rfl ?_ ?_
          · rw [hsame]
            exact h.claimed
          · rw [hsame]
            exact h.pipe.move hok hstore hloan
      | cons i l =>
          obtain ⟨base, idx, hpc, rfl, hbase, rfl⟩ := ticket_claim hacc hcl
          have hok := h.pipe.claim t ht
          rw [hpc] at hok
          obtain ⟨-, hidx, hnext⟩ := hok
          obtain rfl : idx = c₀ + (s.claimed r).length := hnext hbase.symm
          have hlog : s.claimed r ++ (s.ticket t).claims (.held (c₀ + (s.claimed r).length)) =
              List.range' c₀ ((s.claimed r).length + 1) := by
            rw [hpc, List.range'_concat, ← h.claimed, Nat.one_mul]
            rfl
          refine hrest hcur ((Memory.store_now_self _ _ _).trans (wrappingAdd_eq (by omega))) le_rfl
            ?_ ?_
          · rw [hclaimed, hlog, List.length_range']
          · rw [hclaimed, hlog, List.length_range']
            exact h.pipe.take hidx

/-- Reader `r` does not notice a step that leaves its words, the slots and its tickets alone. -/
theorem ClaimInv.frame (h : ClaimInv cfg who r c₀ s) {t : LoanState α}
    (hnow : ∀ x ∈ [Loc.numReaders, .writeIdx, .readIdx r, .claimBase r], t.mem.now x = s.mem.now x)
    (hdata : t.mem.data = s.mem.data) (hstream : t.stream = s.stream) (hpush : t.push = s.push)
    (hclaimed : t.claimed r = s.claimed r) (hticket : ∀ q, who q = r → t.ticket q = s.ticket q) :
    ClaimInv cfg who r c₀ t := by
  have hcur : t.cursor r = s.cursor r := hnow _ (by simp)
  have hbase : t.base r = s.base r := hnow _ (by simp)
  refine ⟨(hnow _ (by simp)).trans h.numReaders, ?_, ?_, ?_, ?_, ?_, ?_⟩
  · rw [hstream]
    exact (hnow _ (by simp)).trans h.writeIdx
  · rw [hstream, hcur]
    exact h.lag
  · rw [hdata, hstream, hcur]
    exact h.holds
  · rw [hdata, hstream, hpush]
    refine h.push.mono fun q hq => ?_
    rw [hq]
    exact hcur.ge
  · rw [hclaimed]
    exact h.claimed
  · rw [hclaimed, hbase, hcur, hstream]
    exact h.pipe.congr hticket

theorem ClaimInv.set_push (h : ClaimInv cfg who r c₀ s) {pc : PushPc α}
    (hpc : PushOk cfg (· = r) s.cursor s.mem.data s.stream.length pc) :
    ClaimInv cfg who r c₀ { s with push := pc } :=
  ⟨h.numReaders, h.writeIdx, h.lag, h.holds, hpc, h.claimed, h.pipe⟩

/-- A call on a ticket, other than an abort. -/
theorem ClaimInv.step_call (h : ClaimInv cfg who r c₀ s) {t : ℕ} {c : LoanCall} {pc : TicketPc}
    (hcall : (s.ticket t).call c = some pc) (hno : c ≠ .abort) :
    ClaimInv cfg who r c₀ { s with ticket := Function.update s.ticket t pc } := by
  refine ⟨h.numReaders, h.writeIdx, h.lag, h.holds, h.push, h.claimed, h.pipe.move ?_ ?_ ?_⟩ <;>
    generalize s.ticket t = p at hcall
  · cases c with
    | abort => exact absurd rfl hno
    | claim | commit | drop => cases p <;> cases hcall <;> trivial
  · intro idx hst
    cases c <;> cases p <;> cases hcall <;> cases hst
  · intro idx hl
    cases c <;> cases p <;> cases hcall <;> exact hl

end Step

theorem length_loanStep_le {s t : LoanState α} {e : Move} (h : LoanStep cfg who rogue s e t) :
    s.stream.length ≤ t.stream.length := by
  cases h with
  | push _ => simp [LoanState.pushStep]
  | _ => exact le_rfl

/-- **Every step but an abort keeps the invariant.** -/
theorem ClaimInv.step {s t : LoanState α} {e : Move} (h : ClaimInv cfg who r c₀ s)
    (hr : r < cfg.readers) (hr' : ¬ rogue r) (hst : LoanStep cfg who rogue s e t)
    (hno : ∀ q, e ≠ .call q .abort) (hlen : t.stream.length < u64Size) : ClaimInv cfg who r c₀ t := by
  have hlen' : s.stream.length < u64Size := (length_loanStep_le hst).trans_lt hlen
  cases hst with
  | callPush value _ => exact h.set_push trivial
  | push hacc => exact h.step_push hr hacc hlen
  | retPush _ => exact h.set_push trivial
  | call q hcall =>
      refine h.step_call hcall ?_
      rintro rfl
      exact hno q rfl
  | @access q m pc hacc =>
      by_cases hq : who q = r
      · subst hq
        exact h.step_ticket hlen' rfl (ticket_access hacc)
      · have hacc' := ticket_access hacc
        refine h.frame ?_ (ticket_data hacc') rfl rfl (Function.update_of_ne (Ne.symm hq) _ _) ?_
        · intro x hx
          simp only [List.mem_cons, List.not_mem_nil, or_false] at hx
          rcases hx with rfl | rfl | rfl | rfl <;>
            exact ticket_now hacc' (by simp [Ne.symm hq]) (by simp [Ne.symm hq]) (by simp)
        · intro q' hq'
          have hne : q' ≠ q := by
            rintro rfl
            exact hq hq'
          exact Function.update_of_ne hne _ _
  | poke q v hq _ =>
      have hqr : r ≠ q := fun heq => hr' (heq ▸ hq)
      refine h.frame ?_ rfl rfl rfl rfl fun _ _ => rfl
      intro x hx
      simp only [List.mem_cons, List.not_mem_nil, or_false] at hx
      rcases hx with rfl | rfl | rfl | rfl <;> exact Memory.store_now_ne _ (by simp [hqr]) _

/-- Backpressure bounds the pipeline. -/
theorem ClaimInv.card_le {c₀ : ℕ} {s : LoanState α} (h : ClaimInv cfg who r c₀ s) {open_ : Finset ℕ}
    (hopen : ∀ t ∈ open_, who t = r ∧ (s.ticket t).loan ≠ none) : open_.card ≤ cfg.capacity := by
  -- the open loans inject into the window of the reader
  have hsome : ∀ t ∈ open_, ∃ idx, (s.ticket t).loan = some idx := fun t ht =>
    Option.ne_none_iff_exists'.mp (hopen t ht).2
  have hcard : open_.card ≤ (Finset.Ico (s.cursor r) s.stream.length).card := by
    refine Finset.card_le_card_of_injOn (fun t => ((s.ticket t).loan).getD 0) ?_ ?_
    · intro t ht
      obtain ⟨idx, hidx⟩ := hsome t ht
      obtain ⟨hlo, hhi⟩ := h.pipe.range t idx (hopen t ht).1 hidx
      simp only [hidx, Option.getD_some, Finset.coe_Ico, Set.mem_Ico]
      exact ⟨hlo, hhi.trans_le h.pipe.published⟩
    · intro t ht t' ht' heq
      obtain ⟨idx, hidx⟩ := hsome t ht
      obtain ⟨idx', hidx'⟩ := hsome t' ht'
      simp only [hidx, hidx', Option.getD_some] at heq
      subst heq
      exact h.pipe.unique t t' idx (hopen t ht).1 (hopen t' ht').1 hidx hidx'
  rw [Nat.card_Ico] at hcard
  have := h.lag
  omega

/-- **Concurrent claims hand out distinct consecutive messages.** In a run without aborts the claims
of an honest reader take the indices from its cursor at the opening on, one by one, below
`write_idx`; the open loans have different indices, not behind the cursor, and are at most
`capacity`. -/
theorem claims_consecutive {s₀ s : LoanState α} {es : List Move} (hr : r < cfg.readers)
    (hr' : ¬ rogue r) (hinit : (loans cfg who rogue).init s₀)
    (hrun : Run (loans cfg who rogue) s₀ es s) (hno : ∀ t, .call t .abort ∉ es)
    (hlen : s.stream.length < u64Size) :
    s.claimed r = List.range' (s₀.cursor r) (s.claimed r).length ∧ (s.claimed r).Nodup ∧
    (∀ idx ∈ s.claimed r, idx < s.mem.now .writeIdx) ∧
    (∀ t idx, who t = r → (s.ticket t).loan = some idx →
      idx ∈ s.claimed r ∧ s.cursor r ≤ idx ∧
        ∀ t', who t' = r → (s.ticket t').loan = some idx → t = t') ∧
    ∀ open_ : Finset ℕ, (∀ t ∈ open_, who t = r ∧ (s.ticket t).loan ≠ none) →
      open_.card ≤ cfg.capacity := by
  have hinv : ClaimInv cfg who r (s₀.cursor r) s := by
    have hrun' := hrun.guard_of_mem (P := fun e => ∀ t, e ≠ .call t .abort)
      fun e he t heq => hno t (heq ▸ he)
    refine hrun'.invariant_of_bound (fun s => s.stream.length < u64Size) ?_ ?_
      (claimInv_opened hinit hr hr') hlen
    · intro s e t hst hlt
      exact (length_loanStep_le hst.1).trans_lt hlt
    · intro s e t hs hst hlt
      exact hs.step hr hr' hst.1 hst.2 hlt
  have hmem : ∀ idx, idx ∈ s.claimed r ↔
      s₀.cursor r ≤ idx ∧ idx < s₀.cursor r + (s.claimed r).length := by
    intro idx
    conv_lhs => rw [hinv.claimed]
    exact List.mem_range'_1
  refine ⟨hinv.claimed, ?_, fun idx hidx => ?_, fun t idx ht hl => ?_, fun open_ hopen => ?_⟩
  · rw [hinv.claimed]
    exact List.nodup_range'
  · rw [hinv.writeIdx]
    exact ((hmem idx).mp hidx).2.trans_le hinv.pipe.published
  · obtain ⟨hlo, hhi⟩ := hinv.pipe.range t idx ht hl
    exact ⟨(hmem idx).mpr ⟨hinv.pipe.lo.trans hlo, hhi⟩, hlo,
      fun t' ht' hl' => hinv.pipe.unique t t' idx ht ht' hl hl'⟩
  · exact hinv.card_le hopen

theorem claims_consecutive_two : ∃ s : LoanState ℕ, s.claimed 0 = [0, 1] ∧ (s.claimed 0).Nodup ∧
    ∀ idx ∈ s.claimed 0, idx < s.mem.now .writeIdx := by
  have hplay : (twoUnread.play (fun _ => 0) (List.flatten [[.call 0 .claim, .call 1 .claim],
      List.replicate 6 (.access 0), List.replicate 6 (.access 1)])).map
        (fun s => (s.claimed 0, s.stream)) = some ([0, 1], [10, 20]) := rfl
  obtain ⟨s, hs, heq⟩ := Option.map_eq_some_iff.mp hplay
  obtain ⟨hclaimed, hstream⟩ := Prod.mk.inj heq
  have hrun : Run (loans twoSlots (fun _ => 0) fun _ => False) twoUnread _ s := run_of_play hs
  have h := claims_consecutive (r := 0) (by decide) id (opened_twoUnread _) hrun (by simp)
    (by rw [hstream]; decide)
  exact ⟨s, hclaimed, h.2.1, h.2.2.1⟩

end ShmRings.Threads
