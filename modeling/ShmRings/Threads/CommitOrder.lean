import ShmRings.Threads.ClaimOrder

/-!
# Consumption through loans

`commit` and `drop` test the cursor and then store it. When no test succeeds while another loan of
the same index is between its own test and its store, every index is consumed once and in order;
after an abort two loans of one index can be open, and both can pass the test.

* `Fits`, `SoleTest`, `CursorInv`; `CursorInv.step`;
* **`consumed_in_order`**: the runs whose tests meet `SoleTest`; **`sole_without_aborts`**: runs without aborts
  do;
* **`consumed_twice`**: a run in which an index is consumed twice;
* `commit_rejected`: a rejected commit changes nothing.
-/

set_option autoImplicit false

namespace ShmRings.Threads

open Coherent Transition

variable {α : Type} {cfg : Config} {who : ℕ → ℕ} {rogue : ℕ → Prop} {r c₀ : ℕ}

/-- The index whose cursor test comes next. -/
def TicketPc.tests : TicketPc → Option ℕ
  | .commitLoad idx | .dropLoad idx => some idx
  | _ => none

/-- No test succeeds while another loan of the same index is between its test and its store. -/
def SoleTest (who : ℕ → ℕ) (s : LoanState α) (e : Move) (_ : LoanState α) : Prop :=
  ∀ t idx, e = .access t → (s.ticket t).tests = some idx → s.cursor (who t) = idx →
    ∀ t', who t' = who t → (s.ticket t').stores ≠ some idx

/-- The index of a claim or a loan leaves room for the increment. -/
def Fits : TicketPc → Prop
  | .loadCursor w | .loadBase w _ => w < u64Size
  | .exchange _ idx => idx + 1 < u64Size
  | pc => ∀ idx, pc.loan = some idx → idx + 1 < u64Size

/-- The invariant of reader `r`, whose cursor was `c₀` when the handle was opened. -/
structure CursorInv (who : ℕ → ℕ) (r c₀ : ℕ) (s : LoanState α) : Prop where
  write : s.mem.now .writeIdx < u64Size
  fits : ∀ t, who t = r → Fits (s.ticket t)
  storing : ∀ t idx, who t = r → (s.ticket t).stores = some idx → idx = s.cursor r
  alone : ∀ t t' idx, who t = r → who t' = r → (s.ticket t).stores = some idx →
    (s.ticket t').stores = some idx → t = t'
  cursor : s.cursor r = c₀ + (s.consumed r).length
  consumed : s.consumed r = List.range' c₀ (s.consumed r).length

section Access

variable {m m' : Memory Loc α} {pc pc' : TicketPc}

/-- Only a test that succeeds leads to a cursor store. -/
theorem tests_of_stores {idx : ℕ} (h : TicketAccess r m pc m' pc') (hst : pc'.stores = some idx) :
    pc.tests = some idx ∧ pc.stores = none ∧ m.now (.readIdx r) = idx := by
  cases h with
  | passCommit heq | passDrop heq => cases hst; exact ⟨rfl, rfl, heq⟩
  | _ => cases hst

/-- The room for the increment comes from the `write_idx` a claim read. -/
theorem Fits.access (h : TicketAccess r m pc m' pc') (hw : m.now .writeIdx < u64Size)
    (hok : Fits pc) : Fits pc' := by
  cases h with
  | writeIdx => exact hw
  | cursor => exact hok
  | choose hlt =>
      have hw' : _ < u64Size := hok
      change _ + 1 < u64Size
      omega
  | won => exact fun _ hl => (by cases hl; exact hok)
  | reject | passCommit | passDrop | skipDrop => exact hok
  | _ => exact fun _ hl => (by cases hl)

theorem Fits.call {c : LoanCall} (h : pc.call c = some pc') (hok : Fits pc) :
    Fits pc' ∧ pc'.stores = none := by
  cases c <;> cases pc <;> cases h <;> exact ⟨hok, rfl⟩

/-- **A rejected commit changes nothing**: its only access is the load of the cursor. -/
theorem rejected_access {idx cursor : ℕ} (h : TicketAccess r m pc m' (.rejected idx cursor)) :
    pc = .commitLoad idx ∧ m' = m := by
  cases h with
  | reject => exact ⟨rfl, rfl⟩

end Access

section Step

variable {s : LoanState α} {m : Memory Loc α}

theorem cursorInv_opened {H : ℕ → Prop} (h : Opened cfg H s) : CursorInv who r (s.cursor r) s := by
  refine ⟨?_, fun t _ => ?_, fun t idx _ hst => ?_, fun t t' idx _ _ hst _ => ?_, ?_, ?_⟩
  · rw [h.writeIdx]
    exact h.length
  · rw [h.ticket]
    exact fun _ hl => (by cases hl)
  · rw [h.ticket] at hst
    cases hst
  · rw [h.ticket] at hst
    cases hst
  · rw [h.consumed]
    rfl
  · rw [h.consumed]
    rfl

theorem CursorInv.fits_update (h : CursorInv who r c₀ s) {t : LoanState α} {q : ℕ} {pc : TicketPc}
    (hticket : t.ticket = Function.update s.ticket q pc) (hfits : who q = r → Fits pc) {q' : ℕ}
    (hq' : who q' = r) : Fits (t.ticket q') := by
  rw [hticket]
  by_cases hqq : q' = q
  · subst hqq
    rw [Function.update_self]
    exact hfits hq'
  · rw [Function.update_of_ne hqq]
    exact h.fits q' hq'

/-- A ticket that moves on without a passed test. -/
theorem CursorInv.move (h : CursorInv who r c₀ s) {t : LoanState α} {q : ℕ} {pc : TicketPc}
    (hwrite : t.mem.now .writeIdx < u64Size) (hcur : t.cursor r = s.cursor r)
    (hcons : t.consumed r = s.consumed r) (hticket : t.ticket = Function.update s.ticket q pc)
    (hfits : who q = r → Fits pc) (hst : who q = r → pc.stores = none) : CursorInv who r c₀ t := by
  have hback : ∀ q' idx, who q' = r → (t.ticket q').stores = some idx →
      (s.ticket q').stores = some idx := by
    intro q' idx hq' hs
    rw [hticket] at hs
    by_cases hqq : q' = q
    · subst hqq
      rw [Function.update_self, hst hq'] at hs
      cases hs
    · rwa [Function.update_of_ne hqq] at hs
  refine ⟨hwrite, fun q' => h.fits_update hticket hfits, fun q' idx hq' hs => ?_,
    fun q' q'' idx hq' hq'' hs hs' => ?_, ?_, ?_⟩
  · rw [hcur]
    exact h.storing q' idx hq' (hback q' idx hq' hs)
  · exact h.alone q' q'' idx hq' hq'' (hback q' idx hq' hs) (hback q'' idx hq'' hs')
  · rw [hcur, hcons]
    exact h.cursor
  · rw [hcons]
    exact h.consumed

/-- A test that succeeds while no other loan is between its test and its store. -/
theorem CursorInv.pass (h : CursorInv who r c₀ s) {t : LoanState α} {q : ℕ} {pc : TicketPc}
    (hwrite : t.mem.now .writeIdx < u64Size) (hcur : t.cursor r = s.cursor r)
    (hcons : t.consumed r = s.consumed r) (hticket : t.ticket = Function.update s.ticket q pc)
    (hfits : Fits pc) (hst : pc.stores = some (s.cursor r))
    (hsole : ∀ q', who q' = r → (s.ticket q').stores ≠ some (s.cursor r)) : CursorInv who r c₀ t := by
  have honly : ∀ q' idx, who q' = r → (t.ticket q').stores = some idx → q' = q ∧ idx = s.cursor r := by
    intro q' idx hq' hs
    rw [hticket] at hs
    by_cases hqq : q' = q
    · subst hqq
      rw [Function.update_self, hst] at hs
      exact ⟨rfl, (Option.some.inj hs).symm⟩
    · rw [Function.update_of_ne hqq] at hs
      obtain rfl := h.storing q' idx hq' hs
      exact absurd hs (hsole q' hq')
  refine ⟨hwrite, fun q' => h.fits_update hticket fun _ => hfits, fun q' idx hq' hs => ?_,
    fun q' q'' idx hq' hq'' hs hs' => ?_, ?_, ?_⟩
  · rw [hcur]
    exact (honly q' idx hq' hs).2
  · exact (honly q' idx hq' hs).1.trans (honly q'' idx hq'' hs').1.symm
  · rw [hcur, hcons]
    exact h.cursor
  · rw [hcons]
    exact h.consumed

/-- **A cursor store consumes the index at the cursor.** -/
theorem CursorInv.store (h : CursorInv who r c₀ s) {t : LoanState α} {q : ℕ} (hq : who q = r)
    (hst : (s.ticket q).stores = some (s.cursor r))
    (hwrite : t.mem.now .writeIdx < u64Size) (hcur : t.cursor r = s.cursor r + 1)
    (hcons : t.consumed r = s.consumed r ++ [s.cursor r])
    (hticket : t.ticket = Function.update s.ticket q .resolve) : CursorInv who r c₀ t := by
  have hnone : ∀ q' idx, who q' = r → (t.ticket q').stores ≠ some idx := by
    intro q' idx hq' hs
    rw [hticket] at hs
    by_cases hqq : q' = q
    · subst hqq
      rw [Function.update_self] at hs
      cases hs
    · rw [Function.update_of_ne hqq] at hs
      obtain rfl := h.storing q' idx hq' hs
      exact hqq (h.alone q' q _ hq' hq hs hst)
  have hfits : Fits .resolve := fun _ hl => (by cases hl)
  refine ⟨hwrite, fun q' => h.fits_update hticket fun _ => hfits,
    fun q' idx hq' hs => absurd hs (hnone q' idx hq'),
    fun q' _ idx hq' _ hs _ => absurd hs (hnone q' idx hq'), ?_, ?_⟩
  · rw [hcur, hcons, List.length_append, h.cursor]
    rfl
  · rw [hcons, List.length_append, List.length_singleton, List.range'_concat, ← h.consumed,
      Nat.one_mul, ← h.cursor]

/-- **An access of one of the reader's tickets keeps the invariant** when its test is alone. -/
theorem CursorInv.step_ticket (h : CursorInv who r c₀ s) {q : ℕ} {pc : TicketPc} (hq : who q = r)
    (hacc : TicketAccess r s.mem (s.ticket q) m pc)
    (hsole : ∀ idx, (s.ticket q).tests = some idx → s.cursor r = idx →
      ∀ q', who q' = r → (s.ticket q').stores ≠ some idx) :
    CursorInv who r c₀ (s.ticketStep m q r pc) := by
  have hwrite : m.now .writeIdx < u64Size := (ticket_write hacc).trans_lt h.write
  have hcons : (s.ticketStep m q r pc).consumed r = s.consumed r ++ (s.ticket q).consumes :=
    Function.update_self _ _ _
  cases hst : (s.ticket q).stores with
  | some idx =>
      obtain rfl := h.storing q idx hq hst
      have hroom : s.cursor r + 1 < u64Size := by
        have hfits := h.fits q hq
        generalize s.ticket q = pc₀ at hst hfits
        cases pc₀ <;> first | exact hfits _ hst | cases hst
      obtain ⟨rfl, rfl⟩ := ticket_store hacc hst
      refine h.store hq hst hwrite ((Memory.store_now_self _ _ _).trans (wrappingAdd_eq hroom)) ?_ rfl
      rw [hcons, TicketPc.consumes, hst]
      rfl
  | none =>
      rw [TicketPc.consumes, hst, Option.toList_none, List.append_nil] at hcons
      have hcur := ticket_cursor hacc hst
      have hfits := (h.fits q hq).access hacc h.write
      cases hst' : pc.stores with
      | none => exact h.move hwrite hcur hcons rfl (fun _ => hfits) fun _ => hst'
      | some idx =>
          obtain ⟨htest, -, rfl⟩ := tests_of_stores hacc hst'
          exact h.pass hwrite hcur hcons rfl hfits hst' (hsole _ htest rfl)

/-- **Every step whose test is alone keeps the invariant.** -/
theorem CursorInv.step (h : CursorInv who r c₀ s) (hr' : ¬ rogue r) {e : Move} {t : LoanState α}
    (hst : LoanStep cfg who rogue s e t) (hsole : SoleTest who s e t) : CursorInv who r c₀ t := by
  cases hst with
  | callPush value _ => exact ⟨h.write, h.fits, h.storing, h.alone, h.cursor, h.consumed⟩
  | retPush _ => exact ⟨h.write, h.fits, h.storing, h.alone, h.cursor, h.consumed⟩
  | @push m pc hacc =>
      obtain ⟨vw, hacc⟩ := hacc
      have hcur : (s.pushStep m pc).cursor r = s.cursor r :=
        congrArg Cell.now (push_word hacc (by simp) (by simp))
      have hwrite : m.now .writeIdx < u64Size := by
        rcases push_access hacc with ⟨-, rfl⟩ | ⟨_, _, -, rfl, -⟩ | ⟨_, w, -, rfl, -⟩ | ⟨-, rfl, -⟩
        · exact h.write
        · exact h.write
        · rw [Memory.store_now_self]
          exact wrappingAdd_lt w 1
        · rw [Memory.store_now_ne _ (by decide)]
          exact h.write
      exact ⟨hwrite, h.fits, fun q idx hq hs => (h.storing q idx hq hs).trans hcur.symm, h.alone,
        hcur.trans h.cursor, h.consumed⟩
  | call q hcall =>
      refine h.move h.write rfl rfl rfl (fun hq => ((h.fits q hq).call hcall).1) fun hq => ?_
      exact ((h.fits q hq).call hcall).2
  | @access q m pc hacc =>
      have hacc' := ticket_access hacc
      by_cases hq : who q = r
      · subst hq
        exact h.step_ticket rfl hacc' (hsole q · rfl)
      · refine h.move ?_ ?_ ?_ rfl (fun hq' => absurd hq' hq) fun hq' => absurd hq' hq
        · exact (ticket_write hacc').trans_lt h.write
        · exact ticket_now hacc' (by simp [Ne.symm hq]) (by simp) (by simp)
        · exact Function.update_of_ne (Ne.symm hq) _ _
  | poke q v hq _ =>
      have hqr : r ≠ q := fun heq => hr' (heq ▸ hq)
      have hcur : (s.mem.store (.readIdx q) v).now (.readIdx r) = s.cursor r :=
        Memory.store_now_ne _ (by simp [hqr]) _
      refine ⟨?_, h.fits, fun q' idx hq' hs => ?_, h.alone, ?_, h.consumed⟩
      · have hne : Loc.writeIdx ≠ .readIdx q := by simp
        exact (Memory.store_now_ne _ hne _).trans_lt h.write
      · exact (h.storing q' idx hq' hs).trans hcur.symm
      · exact hcur.trans h.cursor

/-- One step consumes at most one index. -/
theorem consumed_step {e : Move} {t : LoanState α} (h : LoanStep cfg who rogue s e t) :
    (t.consumed r).length = (s.consumed r).length ∨
      (t.consumed r).length = (s.consumed r).length + 1 := by
  cases h with
  | @access q m pc hacc =>
      by_cases hq : who q = r
      · subst hq
        have hcons : (s.ticketStep m q (who q) pc).consumed (who q) =
            s.consumed (who q) ++ (s.ticket q).consumes := Function.update_self _ _ _
        rw [hcons, List.length_append, TicketPc.consumes]
        cases (s.ticket q).stores with
        | none => exact .inl rfl
        | some _ => exact .inr rfl
      · have hcons : (s.ticketStep m q (who q) pc).consumed r = s.consumed r :=
          Function.update_of_ne (Ne.symm hq) _ _
        exact .inl (by rw [hcons])
  | _ => exact .inl rfl

end Step

/-- A commit that returns `LoanNotAtCursor` changes neither the file nor the handle. -/
theorem commit_rejected {s t : LoanState α} {e : Move} (h : LoanStep cfg who rogue s e t) {q idx cursor : ℕ}
    (hold : s.ticket q ≠ .rejected idx cursor) (hnew : t.ticket q = .rejected idx cursor) :
    t.mem = s.mem := by
  have hne : ∀ {q' : ℕ} {pc : TicketPc}, q ≠ q' →
      Function.update s.ticket q' pc q ≠ .rejected idx cursor := by
    intro q' pc hqq
    rw [Function.update_of_ne hqq]
    exact hold
  cases h with
  | call q' hcall => rfl
  | @access q' m pc hacc =>
      by_cases hqq : q = q'
      · subst hqq
        obtain rfl : pc = .rejected idx cursor := (Function.update_self _ _ _).symm.trans hnew
        exact (rejected_access (ticket_access hacc)).2
      · exact absurd hnew (hne hqq)
  | _ => exact absurd hnew hold

/-- **Consumption through loans is exactly once and in order** in every run in which no cursor test
succeeds while another loan of the same index is between its test and its store. -/
theorem consumed_in_order {s₀ s : LoanState α} {es : List Move} (hr' : ¬ rogue r)
    (hinit : (loans cfg who rogue).init s₀)
    (hrun : Run ((loans cfg who rogue).guard (SoleTest who)) s₀ es s) :
    s.consumed r = List.range' (s₀.cursor r) (s.consumed r).length ∧
    s.cursor r = s₀.cursor r + (s.consumed r).length ∧
    ∀ e t, ((loans cfg who rogue).guard (SoleTest who)).step s e t →
      (t.cursor r = s.cursor r ∨ t.cursor r = s.cursor r + 1) ∧
      ∀ q idx c, s.ticket q ≠ .rejected idx c → t.ticket q = .rejected idx c → t.mem = s.mem := by
  have hinv : CursorInv who r (s₀.cursor r) s := by
    refine hrun.invariant_of_bound (fun _ => True) (fun _ _ _ _ _ => trivial) ?_
      (cursorInv_opened hinit) trivial
    intro s e t hs hst _
    exact hs.step hr' hst.1 hst.2
  refine ⟨hinv.consumed, hinv.cursor, fun e t hst => ⟨?_, fun q idx c => commit_rejected hst.1⟩⟩
  have hcur := (hinv.step hr' hst.1 hst.2).cursor
  have hold := hinv.cursor
  rcases consumed_step (r := r) hst.1 with hlen | hlen <;> omega

/-- Tickets 0 and 1 claim both messages and ticket 0 aborts; tickets 2 and 3 claim them again, and
when 2 has committed the first one, 1 and 3 both pass the cursor test on the second. -/
theorem consumed_twice : (loans twoSlots (fun _ => 0) fun _ => False).init twoUnread ∧
    ∃ es s, Run (loans twoSlots (fun _ => 0) fun _ => False) twoUnread es s ∧
      s.consumed 0 = [0, 1, 1] ∧ ¬ (s.consumed 0).Nodup := by
  let claim (t : ℕ) : List Move := .call t .claim :: List.replicate 6 (.access t)
  have hplay : (twoUnread.play (fun _ => 0) (List.flatten [claim 0, claim 1,
      [.call 0 .abort, .access 0, .access 0], claim 2, claim 3,
      [.call 2 .commit, .access 2, .access 2, .access 2],
      [.call 1 .commit, .access 1, .call 3 .commit, .access 3, .access 1, .access 3]])).map
        (·.consumed 0) = some [0, 1, 1] := rfl
  obtain ⟨s, hs, hcons⟩ := Option.map_eq_some_iff.mp hplay
  exact ⟨opened_twoUnread _, _, s, run_of_play hs, hcons, by rw [hcons]; decide⟩

/-- Where every index has one loan, no other loan of a tested index is about to store. -/
theorem ClaimInv.soleTest {s t : LoanState α} {e : Move}
    (h : ∀ q, ∃ c, ClaimInv cfg who (who q) c s) : SoleTest who s e t := by
  rintro q idx - htest - q' hq' hst
  obtain ⟨c, hinv⟩ := h q
  have hloan : (s.ticket q).loan = some idx := by
    generalize s.ticket q = pc at htest
    cases pc <;> first | exact htest | cases htest
  obtain rfl := hinv.pipe.unique q q' idx rfl hq' hloan (loan_of_stores hst)
  generalize s.ticket q = pc at htest hst
  cases pc <;> first | (cases htest; cases hst) | cases htest

/-- **Every run without aborts** on honest readers meets the condition. -/
theorem sole_without_aborts {s₀ s : LoanState α} {es : List Move} (hr : ∀ q, who q < cfg.readers)
    (hr' : ∀ q, ¬ rogue (who q)) (hinit : (loans cfg who rogue).init s₀) (hrun : Run (loans cfg who rogue) s₀ es s)
    (hno : ∀ q, .call q .abort ∉ es) (hlen : s.stream.length < u64Size) :
    Run ((loans cfg who rogue).guard (SoleTest who)) s₀ es s ∧ ∀ q, ∃ c, ClaimInv cfg who (who q) c s := by
  induction hrun with
  | nil => exact ⟨.nil, fun q => ⟨_, claimInv_opened hinit (hr q) (hr' q)⟩⟩
  | @snoc es t e u _ hst ih =>
      obtain ⟨hguard, hinv⟩ := ih (fun q hq => hno q (List.mem_append_left _ hq))
        ((length_loanStep_le hst).trans_lt hlen)
      refine ⟨hguard.snoc ⟨hst, ClaimInv.soleTest hinv⟩, fun q => ?_⟩
      obtain ⟨c, hc⟩ := hinv q
      refine ⟨c, hc.step (hr q) (hr' q) hst (fun q' heq => ?_) hlen⟩
      exact hno q' (List.mem_append_right _ (List.mem_singleton.mpr heq.symm))

/-- Two overlapping loans: the commit of the second is rejected while the first is between its test and its
store, and passes after it. -/
theorem consumed_two : (∃ s t : LoanState ℕ, s.ticket 0 = .commitStore 0 ∧ t.ticket 1 = .rejected 1 0 ∧
      t.mem = s.mem) ∧
    ∃ s : LoanState ℕ, s.consumed 0 = [0, 1] ∧ s.cursor 0 = twoUnread.cursor 0 + 2 := by
  let overlap : List Move := List.flatten [[.call 0 .claim, .call 1 .claim], List.replicate 6 (.access 0),
    List.replicate 6 (.access 1), [.call 0 .commit, .access 0, .call 1 .commit]]
  have hplay : (twoUnread.play (fun _ => 0) overlap).map (fun s => (s.ticket 0, s.ticket 1, s.stream)) =
      some (.commitStore 0, .commitLoad 1, [10, 20]) := rfl
  have hrest : ((twoUnread.play (fun _ => 0) overlap).bind (·.play (fun _ => 0) [.access 1])).bind (fun s =>
      (s.play (fun _ => 0) (.access 0 :: .access 0 :: .call 1 .commit :: List.replicate 3 (.access 1))).map fun u =>
        (s.ticket 1, u.consumed 0, u.stream)) = some (.rejected 1 0, [0, 1], [10, 20]) := rfl
  obtain ⟨s, hs, heq⟩ := Option.map_eq_some_iff.mp hplay
  obtain ⟨h₀, h₁, hstream⟩ : _ ∧ _ ∧ _ := by simpa only [Prod.mk.injEq] using heq
  obtain ⟨t, ht, hrest⟩ := Option.bind_eq_some_iff.mp hrest
  rw [hs] at ht
  change s.play (fun _ => 0) [.access 1] = some t at ht
  obtain ⟨u, hu, heq⟩ := Option.map_eq_some_iff.mp hrest
  obtain ⟨hrej, hcons, hstream'⟩ : _ ∧ _ ∧ _ := by simpa only [Prod.mk.injEq] using heq
  have hno : ∀ q, Move.call q .abort ∉ overlap := by simp [overlap]
  have hguard : ∀ {es : List Move} {v : LoanState ℕ}, Run (loans twoSlots (fun _ => 0) fun _ => False) twoUnread
      es v → (∀ q, Move.call q .abort ∉ es) → v.stream.length < u64Size →
      Run ((loans twoSlots (fun _ => 0) fun _ => False).guard (SoleTest fun _ => 0)) twoUnread es v ∧
        ∀ q : ℕ, ∃ c, ClaimInv twoSlots (fun _ => 0) ((fun _ => 0) q) c v :=
    fun hrun => sole_without_aborts (fun _ => by decide) (fun _ => id) (opened_twoUnread _) hrun
  have hrun : Run (loans twoSlots (fun _ => 0) fun _ => False) twoUnread overlap s := run_of_play hs
  have hstep : Run (loans twoSlots (fun _ => 0) fun _ => False) s [.access 1] t := run_of_play ht
  obtain ⟨hsole, hinv⟩ := hguard hrun hno (by rw [hstream]; decide)
  have hmid := consumed_in_order (r := 0) id (opened_twoUnread _) hsole
  have hmem := (hmid.2.2 _ t ⟨hstep.of_singleton, ClaimInv.soleTest hinv⟩).2 1 1 0
    (by rw [h₁]; intro h; cases h) hrej
  have hend := hguard ((hrun.append hstep).append (run_of_play hu)) (by simp [overlap]) (by rw [hstream']; decide)
  have hcur := (consumed_in_order (r := 0) id (opened_twoUnread _) hend.1).2.1
  rw [hcons] at hcur
  exact ⟨⟨s, t, h₀, hrej, hmem⟩, u, hcons, hcur⟩

end ShmRings.Threads
