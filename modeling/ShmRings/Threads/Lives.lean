import ShmRings.Threads.ClaimOrder
import ShmRings.Threads.Solo

/-!
# Consumers that die with open loans

The pipeline head and the gate belong to a handle, the cursors to the file. When the process of the consumers
dies, between any two of their accesses, its loans and its pipeline are gone, and the next handle starts at
the cursors. The producer may stop anywhere as well.

* `LoanState.reopen`, `LivesState`, `LivesStep`, `lives`; `LivesState.log`;
* `ClaimInv.reopen`; `consumed_next`: a step consumes the index at the cursor, or none; `next_claim`;
* `LifeInv`, `LifeInv.step`; **`redelivered`**.
-/

set_option autoImplicit false

namespace ShmRings.Threads

open Coherent Transition

variable {α : Type} {cfg : Config} {who : ℕ → ℕ} {rogue : ℕ → Prop} {r c₀ : ℕ}

/-- A new handle on the file. -/
def LoanState.reopen (s : LoanState α) : LoanState α :=
  ⟨openWords s.mem, s.push, fun _ => .idle, s.stream, fun _ => [], fun _ => []⟩

/-- The current handle, what the former ones have consumed, and where the cursors were when it was opened. -/
structure LivesState (α : Type) where
  now : LoanState α
  before : ℕ → List ℕ
  since : ℕ → ℕ

/-- All that the consumers of reader `r` have consumed. -/
def LivesState.log (s : LivesState α) (r : ℕ) : List ℕ := s.before r ++ s.now.consumed r

/-- A step other than an abort, or the end of the consumers or of the producer. -/
inductive LivesStep (cfg : Config) (who : ℕ → ℕ) (rogue : ℕ → Prop) :
    LivesState α → Option Move → LivesState α → Prop
  | move {s t e} : LoanStep cfg who rogue s.now e t → (∀ q, e ≠ .call q .abort) →
      LivesStep cfg who rogue s (some e) { s with now := t }
  | die {s} : LivesStep cfg who rogue s none ⟨s.now.reopen, s.log, s.now.cursor⟩
  | stop {s} : LivesStep cfg who rogue s none { s with now := { s.now with push := .idle } }

/-- The system, from a fresh handle. -/
def lives (cfg : Config) (who : ℕ → ℕ) (rogue : ℕ → Prop) : System (LivesState α) (Option Move) where
  init s := Opened cfg (fun r => r < cfg.readers ∧ ¬ rogue r) s.now ∧ s.before = (fun _ => []) ∧
    s.since = s.now.cursor
  step := LivesStep cfg who rogue

section Claims

variable {s t : LoanState α} {e : Move}

/-- A new handle has claimed nothing. -/
theorem ClaimInv.reopen (h : ClaimInv cfg who r c₀ s) : ClaimInv cfg who r (s.cursor r) s.reopen where
  numReaders := h.numReaders
  writeIdx := h.writeIdx
  lag := h.lag
  holds := h.holds
  push := h.push
  claimed := rfl
  pipe := by
    have hle : s.cursor r ≤ s.stream.length := h.pipe.hi.trans h.pipe.published
    exact ⟨Nat.zero_max _, le_rfl, le_rfl, hle, fun _ _ => trivial, fun _ _ _ hst => (by cases hst),
      fun _ _ _ hl => (by cases hl), fun _ _ _ _ _ hl => (by cases hl)⟩

/-- **A step consumes the index at the cursor, or none.** -/
theorem consumed_next (h : ClaimInv cfg who r c₀ s) (hr' : ¬ rogue r) (hst : LoanStep cfg who rogue s e t)
    (hlen : s.stream.length < u64Size) :
    (t.consumed r = s.consumed r ∧ t.cursor r = s.cursor r) ∨
      (t.consumed r = s.consumed r ++ [s.cursor r] ∧ t.cursor r = s.cursor r + 1) := by
  cases hst with
  | callPush | retPush | call => exact .inl ⟨rfl, rfl⟩
  | @push m pc hacc =>
      obtain ⟨vw, hacc⟩ := hacc
      exact .inl ⟨rfl, congrArg Cell.now (push_word hacc (by simp) (by simp))⟩
  | @access q m pc hacc =>
      have hacc' := ticket_access hacc
      by_cases hq : who q = r
      · subst hq
        have hcons : (s.ticketStep m q (who q) pc).consumed (who q) =
            s.consumed (who q) ++ (s.ticket q).consumes := Function.update_self _ _ _
        cases hstores : (s.ticket q).stores with
        | none =>
            refine .inl ⟨?_, ticket_cursor hacc' hstores⟩
            rw [hcons, TicketPc.consumes, hstores]
            exact List.append_nil _
        | some idx =>
            obtain ⟨-, hm⟩ := ticket_store hacc' hstores
            obtain rfl := h.pipe.storing q idx rfl hstores
            have hlt := (h.pipe.range q _ rfl (loan_of_stores hstores)).2.trans_le h.pipe.published
            refine .inr ⟨?_, ?_⟩
            · rw [hcons, TicketPc.consumes, hstores]
              rfl
            · show m.now (.readIdx (who q)) = s.cursor (who q) + 1
              rw [hm, Memory.store_now_self]
              exact wrappingAdd_eq (by omega)
      · exact .inl ⟨Function.update_of_ne (Ne.symm hq) _ _,
          ticket_now hacc' (by simp [Ne.symm hq]) (by simp) (by simp)⟩
  | poke q v hq _ =>
      have hqr : r ≠ q := fun heq => hr' (heq ▸ hq)
      exact .inl ⟨rfl, Memory.store_now_ne _ (by simp [hqr]) _⟩

/-- **The next claim**, when nobody interferes, takes the first index that the handle has not handed out. -/
theorem next_claim (h : ClaimInv cfg who r c₀ s) (hr : r < cfg.readers) :
    ∃ m, Solo (ticketCode r) s.mem .checkReader m
      (if c₀ + (s.claimed r).length < s.stream.length then .held (c₀ + (s.claimed r).length) else .refused) := by
  have hidx : max (s.base r) (s.cursor r) = c₀ + (s.claimed r).length := by
    have hhead := h.pipe.head
    have hlo := h.pipe.lo
    have hhi := h.pipe.hi
    omega
  let m₁ := s.mem.store (.loanDepth r) (wrappingAdd (s.mem.now (.loanDepth r)) 1)
  have hword : ∀ x, x ≠ .loanDepth r → m₁.now x = s.mem.now x := fun x hx => Memory.store_now_ne _ hx _
  have haccept : (ticketCode r .checkReader).exec s.mem = some (s.mem, .raiseGate) := by
    simp only [ticketCode, Instr.exec, h.numReaders, ge_iff_le, if_neg (Nat.not_le.mpr hr)]
  have hstart : Solo (ticketCode r) s.mem .checkReader m₁
      (if max (s.base r) (s.cursor r) ≥ s.stream.length then .lowerGate
        else .exchange (s.base r) (max (s.base r) (s.cursor r))) :=
    .step haccept (.step rfl (solo_loads ((hword _ (by simp)).trans h.writeIdx) (hword (.readIdx r) (by simp))
      (hword (.claimBase r) (by simp))))
  rw [hidx] at hstart
  by_cases hlt : c₀ + (s.claimed r).length < s.stream.length
  · have hbase : m₁.now (.claimBase r) = s.base r := hword _ (by simp)
    have hwon : (ticketCode r (.exchange (s.base r) (c₀ + (s.claimed r).length))).exec m₁ =
        some (m₁.store (.claimBase r) (wrappingAdd (c₀ + (s.claimed r).length) 1),
          .held (c₀ + (s.claimed r).length)) := congrArg some (if_pos hbase)
    rw [if_neg (Nat.not_le.mpr hlt)] at hstart
    rw [if_pos hlt]
    exact ⟨_, hstart.trans (.step hwon .refl)⟩
  · rw [if_pos (Nat.not_lt.mp hlt)] at hstart
    rw [if_neg hlt]
    exact ⟨_, hstart.trans (.step rfl .refl)⟩

end Claims

/-- The invariant of reader `r`, whose cursor was `c` when the first handle was opened. -/
structure LifeInv (cfg : Config) (who : ℕ → ℕ) (r c : ℕ) (s : LivesState α) : Prop where
  claim : ClaimInv cfg who r (s.since r) s.now
  since : s.since r = c + (s.before r).length
  log : s.log r = List.range' c (s.log r).length
  cursor : s.now.cursor r = c + (s.log r).length

section Lives

variable {c : ℕ} {s t : LivesState α} {e : Option Move}

theorem lifeInv_init (hr : r < cfg.readers) (hr' : ¬ rogue r) (h : (lives cfg who rogue).init s) :
    LifeInv cfg who r (s.now.cursor r) s := by
  obtain ⟨hopened, hbefore, hsince⟩ := h
  have hlog : s.log r = [] := by
    unfold LivesState.log
    rw [hbefore, hopened.consumed]
    rfl
  refine ⟨?_, ?_, ?_, ?_⟩
  · rw [hsince]
    exact claimInv_opened hopened hr hr'
  · rw [hsince, hbefore]
    rfl
  · rw [hlog]
    rfl
  · rw [hlog]
    rfl

theorem length_lives_le (hst : LivesStep cfg who rogue s e t) :
    s.now.stream.length ≤ t.now.stream.length := by
  cases hst with
  | move hst _ => exact length_loanStep_le hst
  | die | stop => exact le_rfl

/-- **Every step keeps the invariant**, the end of the consumers included. -/
theorem LifeInv.step (h : LifeInv cfg who r c s) (hr : r < cfg.readers) (hr' : ¬ rogue r)
    (hst : LivesStep cfg who rogue s e t) (hlen : t.now.stream.length < u64Size) : LifeInv cfg who r c t := by
  have hlen' := (length_lives_le hst).trans_lt hlen
  cases hst with
  | @move u e hst hno =>
      have hclaim := h.claim.step hr hr' hst hno hlen
      rcases consumed_next h.claim hr' hst hlen' with ⟨hcons, hcur⟩ | ⟨hcons, hcur⟩
      · have hlog : ({ s with now := u } : LivesState α).log r = s.log r := congrArg (s.before r ++ ·) hcons
        refine ⟨hclaim, h.since, ?_, ?_⟩
        · rw [hlog]
          exact h.log
        · rw [hlog]
          exact hcur.trans h.cursor
      · have hlog : ({ s with now := u } : LivesState α).log r = s.log r ++ [s.now.cursor r] := by
          unfold LivesState.log
          rw [hcons, List.append_assoc]
        refine ⟨hclaim, h.since, ?_, ?_⟩
        · rw [hlog, List.length_append, List.length_singleton, List.range'_concat, ← h.log, h.cursor,
            Nat.one_mul]
        · rw [hlog, List.length_append, List.length_singleton]
          show u.cursor r = _
          rw [hcur, h.cursor]
          omega
  | die =>
      have hlog : (⟨s.now.reopen, s.log, s.now.cursor⟩ : LivesState α).log r = s.log r := List.append_nil _
      refine ⟨h.claim.reopen, h.cursor, ?_, ?_⟩
      · rw [hlog]
        exact h.log
      · rw [hlog]
        exact h.cursor
  | stop => exact ⟨h.claim.set_push trivial, h.since, h.log, h.cursor⟩

end Lives

/-- **Nothing is lost with a consumer that dies, and nothing comes twice.** In every run of claims, commits and
drops in which the consumers and the producer may die between any two accesses, what all handles of an honest
reader have consumed are the indices from its cursor on, one by one, up to the cursor of now. A handle hands out
again, from the first index that was not consumed, whatever the former ones had claimed; a claim that nobody
interferes with gets the next of these that is published; and an open loan has the message of its index. -/
theorem redelivered {s₀ s : LivesState α} {es : List (Option Move)} (hr : r < cfg.readers) (hr' : ¬ rogue r)
    (hinit : (lives cfg who rogue).init s₀) (hrun : Run (lives cfg who rogue) s₀ es s)
    (hlen : s.now.stream.length < u64Size) :
    (s.log r = List.range' (s₀.now.cursor r) (s.log r).length ∧
      s.now.cursor r = s₀.now.cursor r + (s.log r).length) ∧
    s.now.claimed r = List.range' (s₀.now.cursor r + (s.before r).length) (s.now.claimed r).length ∧
    (∃ m, Solo (ticketCode r) s.now.mem .checkReader m
      (if s₀.now.cursor r + (s.before r).length + (s.now.claimed r).length < s.now.stream.length then
        .held (s₀.now.cursor r + (s.before r).length + (s.now.claimed r).length) else .refused)) ∧
    ∀ t idx, who t = r → (s.now.ticket t).loan = some idx →
      s.now.cursor r ≤ idx ∧ s.now.stream[idx]? = some (s.now.mem.data (cfg.slot idx)) := by
  have h : LifeInv cfg who r (s₀.now.cursor r) s :=
    hrun.invariant_of_bound (fun s => s.now.stream.length < u64Size)
      (fun _ _ _ hst hlt => (length_lives_le hst).trans_lt hlt)
      (fun _ _ _ hs hst hlt => hs.step hr hr' hst hlt) (lifeInv_init hr hr' hinit) hlen
  rw [← h.since]
  refine ⟨⟨h.log, h.cursor⟩, h.claim.claimed, next_claim h.claim hr, fun t idx ht hl => ?_⟩
  obtain ⟨hlo, hhi⟩ := h.claim.pipe.range t idx ht hl
  have hlt : idx < s.now.stream.length := hhi.trans_le h.claim.pipe.published
  refine ⟨hlo, ?_⟩
  rw [cfg.slot_eq_mod, h.claim.holds idx _ hlo (List.getElem?_eq_getElem hlt)]
  exact List.getElem?_eq_getElem hlt

/-- A run without aborts of the tickets of one handle. -/
theorem lives_of_loans {s t : LoanState α} {es : List Move} (h : Run (loans cfg who rogue) s es t)
    (hno : ∀ q, .call q .abort ∉ es) (before : ℕ → List ℕ) (since : ℕ → ℕ) :
    Run (lives cfg who rogue) ⟨s, before, since⟩ (es.map some) ⟨t, before, since⟩ := by
  induction h with
  | nil => exact .nil
  | @snoc es t e u _ hst ih =>
      rw [List.map_append]
      refine (ih fun q hq => hno q (List.mem_append_left _ hq)).snoc (LivesStep.move hst fun q heq => ?_)
      exact hno q (List.mem_append_right _ (List.mem_singleton.mpr heq.symm))

/-- The handle of ticket 0 dies with its loan; ticket 1 of the next handle gets the same message. -/
theorem redelivered_loan : ∃ s : LivesState ℕ, s.now.ticket 1 = .held 0 ∧ s.log 0 = [] ∧
    s.now.stream[0]? = some (s.now.mem.data (twoSlots.slot 0)) := by
  let claim (t : ℕ) : List Move := .call t .claim :: List.replicate 6 (.access t)
  have hno : ∀ t q, Move.call q .abort ∉ claim t := by simp [claim]
  have hplay : ((twoUnread.play (fun _ => 0) (claim 0)).bind fun s =>
      (s.reopen.play (fun _ => 0) (claim 1)).map fun u => (s.ticket 0, u.ticket 1, s.consumed 0, u.consumed 0,
        u.stream)) = some (.held 0, .held 0, [], [], [10, 20]) := rfl
  obtain ⟨s, hs, hrest⟩ := Option.bind_eq_some_iff.mp hplay
  obtain ⟨u, hu, heq⟩ := Option.map_eq_some_iff.mp hrest
  obtain ⟨-, hticket, hcons, hcons', hstream⟩ : _ ∧ _ ∧ _ ∧ _ ∧ _ := by simpa only [Prod.mk.injEq] using heq
  have hinit : (lives twoSlots (fun _ => 0) fun _ => False).init ⟨twoUnread, fun _ => [], twoUnread.cursor⟩ :=
    ⟨opened_twoUnread _, rfl, rfl⟩
  have hrun : Run (loans twoSlots (fun _ => 0) fun _ => False) twoUnread _ s := run_of_play hs
  have h₁ := lives_of_loans hrun (hno 0) (fun _ => []) twoUnread.cursor
  have h₂ := (h₁.snoc .die).append (lives_of_loans (run_of_play hu) (hno 1) _ _)
  have hlog : (⟨u, fun r => s.consumed r, s.cursor⟩ : LivesState ℕ).log 0 = [] := by
    show s.consumed 0 ++ u.consumed 0 = []
    rw [hcons, hcons']
    rfl
  have h := redelivered (r := 0) (by decide) id hinit h₂ (by show u.stream.length < _; rw [hstream]; decide)
  exact ⟨_, hticket, hlog, (h.2.2.2 1 0 rfl (by rw [hticket]; rfl)).2⟩

end ShmRings.Threads
