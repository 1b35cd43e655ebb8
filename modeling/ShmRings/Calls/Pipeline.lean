import ShmRings.Calls.Sound

/-!
# One reader on one handle

Reader `r` is consumed through handle `k` alone, with any number of open loans resolved in any order.
A commit or a drop that moves the cursor past an index also takes it from every other open loan of
that index, and a drop away from the cursor leaves its index to the other loans: both are harmless
exactly when the loan is not, or is, the only one of its index.

* `OneHandle`, `Start`, `Views`; `open_settle`, `open_claim`;
* `Pinned.step`, **`open_loan_pinned`**; **`loan_overwritten`**: a run in which an open loan is passed;
* `Covered.step`, **`no_message_lost`**; **`message_lost`**: a run after which a message is skipped.
-/

set_option autoImplicit false

namespace ShmRings

open Transition

variable {α : Type}

/-- Reader `r` is popped and claimed through handle `k` only. -/
def OneHandle (k r : ℕ) : Call α → Prop
  | .tryPop q s | .claim q s => s = r → q = k
  | _ => True

/-- An open loan of reader `r` views index `j`. -/
def Views (w : World α) (r j : ℕ) : Prop := ∃ i q l, w.Open i q l ∧ l.readerId = r ∧ l.index = j

/-- No loan of reader `r` is open, and the pipeline of handle `k` is not ahead of the cursor. -/
structure Start (cfg : Config) (k r : ℕ) (w : World α) : Prop where
  sound : Sound cfg w
  idle : ∀ j, ¬ Views w r j
  base : w.base k r ≤ w.cursor r

variable {p : Profile} {cfg : Config} {k r : ℕ} {w w' : World α} {c : Call α}
  {a : Except ShmRingError (Reply α)}

theorem start_created (cfg : Config) (slots : ℕ → α) (k r : ℕ) :
    Start cfg k r (World.created cfg slots) where
  sound := sound_created cfg slots
  idle := by
    rintro j ⟨i, q, l, ⟨hi, -⟩, -⟩
    cases hi
  base := le_rfl

/-- The state after a call that `check` admits. -/
def World.next (p : Profile) (check : World α → Call α → Bool) (w : World α) (c : Call α) :
    Option (World α) :=
  if check w c then (w.call p c).toOption.map Prod.snd else none

theorem run_of_follow {S : World α → Prop} {C : World α → Call α → Prop}
    {check : World α → Call α → Bool} (hC : ∀ w c, check w c = true → C w c) {cs : List (Call α)}
    (h : follow (World.next p check) cs w = some w') :
    ∃ es, es.map Prod.fst = cs ∧ Run (world p S C) w es w' := by
  refine Run.of_follow (fun w c w' hnext => ?_) h
  unfold World.next at hnext
  split_ifs at hnext with hcheck
  cases hcall : w.call p c with
  | error e =>
      rw [hcall] at hnext
      cases hnext
  | ok res =>
      rw [hcall] at hnext
      cases hnext
      exact ⟨(c, res.1), rfl, hC w c hcheck, hcall⟩

theorem reachable_of_follow {S : World α → Prop} {C : World α → Call α → Prop}
    {check : World α → Call α → Bool} (hC : ∀ w c, check w c = true → C w c) (hw : S w)
    {cs : List (Call α)} (h : follow (World.next p check) cs w = some w') :
    Reachable (world p S C) w' := by
  obtain ⟨es, -, hrun⟩ := run_of_follow (S := S) hC h
  exact hrun.reachable (.init hw)

/-- Pushes, and claims on handle 0. -/
def lends (w : World α) : Call α → Bool
  | .tryPush _ _ => decide (w.stream.length + 1 < u64Size)
  | .claim q _ => q == 0
  | _ => false

/-- The calls on handle 0 that need no other condition than the word size. -/
def onZero (w : World α) : Call α → Bool
  | .openExisting _ => false
  | .tryPush _ _ => decide (w.stream.length + 1 < u64Size)
  | .tryPop q _ | .claim q _ => q == 0
  | _ => true

theorem permits_of_onZero (h : onZero w c = true) : w.Permits c ∧ OneHandle 0 r c := by
  cases c with
  | openExisting q => cases h
  | tryPush q v =>
      have hlen : w.stream.length + 1 < u64Size := of_decide_eq_true h
      exact ⟨fun _ => hlen, trivial⟩
  | tryPop q s | claim q s => exact ⟨trivial, fun _ => beq_iff_eq.mp h⟩
  | _ => exact ⟨trivial, trivial⟩

theorem onZero_of_lends (h : lends w c = true) : onZero w c = true ∧ c.loan? = none ∧
    c ≠ .tryPop k r := by
  cases c with
  | tryPush q v | claim q s => exact ⟨h, rfl, nofun⟩
  | _ => cases h

/-! ## The open loans after a call -/

theorem cursor_advance (s v q : ℕ) : ({ w with file := w.file.advance s v } : World α).cursor q =
    if q = s then v else w.cursor q := by
  change Function.update w.file.hdr.readIndices s v q = _
  rw [Function.update_apply]
  rfl

theorem open_settle {i q : ℕ} {l : Loan} {h : Handle} {f : RingFile α} (hi : w.Open i q l)
    (j s : ℕ) (l' : Loan) : (w.settle i q l h f).Open j s l' ↔ j ≠ i ∧ w.Open j s l' := by
  change (w.loans.set i _)[j]? = _ ∧ _ ↔ _
  by_cases hj : j = i
  · subst hj
    have hlt := (List.getElem?_eq_some_iff.mp hi.1).1
    rw [List.getElem?_set_self hlt]
    constructor
    · rintro ⟨heq, hres⟩
      cases heq
      cases hres
    · rintro ⟨hne, -⟩
      exact absurd rfl hne
  · rw [List.getElem?_set_ne (Ne.symm hj)]
    exact ⟨fun h => ⟨hj, h⟩, fun h => h.2⟩

theorem open_claim {loans : List (ℕ × Loan)} {q : ℕ} {l : Loan} (hw : w.loans = loans ++ [(q, l)])
    (hl : l.resolved = false) (j s : ℕ) (l' : Loan) : w.Open j s l' ↔
      (loans[j]? = some (s, l') ∧ l'.resolved = false) ∨ j = loans.length ∧ s = q ∧ l' = l := by
  rw [World.Open, hw]
  rcases Nat.lt_trichotomy j loans.length with hlt | rfl | hgt
  · rw [List.getElem?_append_left hlt]
    exact ⟨.inl, fun h => h.resolve_right fun h' => absurd h'.1 hlt.ne⟩
  · rw [List.getElem?_concat_length]
    constructor
    · rintro ⟨heq, -⟩
      cases heq
      exact .inr ⟨rfl, rfl, rfl⟩
    · rintro (⟨hnone, -⟩ | ⟨-, rfl, rfl⟩)
      · rw [List.getElem?_eq_none le_rfl] at hnone
        cases hnone
      · exact ⟨rfl, hl⟩
  · rw [List.getElem?_eq_none (by simp; omega)]
    constructor
    · rintro ⟨hnone, -⟩
      cases hnone
    · rintro (⟨hsome, -⟩ | ⟨rfl, -⟩)
      · rw [List.getElem?_eq_none hgt.le] at hsome
        cases hsome
      · exact absurd hgt (lt_irrefl _)

/-- The loans of reader `r` are those of handle `k`. -/
def Mine (k r : ℕ) (w : World α) : Prop := ∀ i q l, w.Open i q l → l.readerId = r → q = k

theorem Mine.step (h : Mine k r w) (hone : OneHandle k r c) (heff : Effect w c a w') :
    Mine k r w' := by
  cases heff with
  | claimSome hr hidx hlt =>
      intro i q l hopen hl
      rcases (open_claim rfl rfl i q l).mp hopen with hold | ⟨-, rfl, rfl⟩
      · exact h i q l hold hl
      · exact hone hl
  | committed _ hi _ | aborted hi | droppedAway hi _ =>
      exact fun j q l hopen hl => h j q l ((open_settle hi j q l).mp hopen).2 hl
  | _ => exact h

/-! ## An open loan pins its slot -/

/-- Below the bounds of a machine word, a call does not move the cursor of `r` past an index that
another open loan views. -/
structure Keeps (k r : ℕ) (w : World α) (c : Call α) : Prop where
  permits : w.Permits c
  oneHandle : OneHandle k r c
  gate : c = .tryPop k r → w.loans.countP (isOpen k r) < u64Size
  sole : ∀ i, c.loan? = some i → c ≠ .abort i → ∀ q l, w.Open i q l → l.readerId = r →
    l.index = w.cursor r → ∀ j q' l', w.Open j q' l' → l'.readerId = r → l'.index = l.index → j = i

/-- No open loan of reader `r` is behind its cursor. -/
structure Pinned (cfg : Config) (k r : ℕ) (w : World α) : Prop where
  sound : Sound cfg w
  mine : Mine k r w
  pinned : ∀ i q l, w.Open i q l → l.readerId = r → w.cursor r ≤ l.index

theorem Start.pinned (h : Start cfg k r w) : Pinned cfg k r w where
  sound := h.sound
  mine := fun i q l hopen hl => absurd ⟨i, q, l, hopen, hl, rfl⟩ (h.idle l.index)
  pinned := fun i q l hopen hl => absurd ⟨i, q, l, hopen, hl, rfl⟩ (h.idle l.index)

/-- A gate at zero: the reader has no open loan, unless the count wrapped. -/
theorem Pinned.not_open (h : Pinned cfg k r w) (hcount : w.loans.countP (isOpen k r) < u64Size)
    (hgate : (w.handle k).loanDepth r = 0) {i q : ℕ} {l : Loan} (hopen : w.Open i q l) :
    l.readerId ≠ r := by
  intro hl
  obtain rfl := h.mine i q l hopen hl
  subst hl
  have hpos := countP_pos hopen
  rw [h.sound.gate, Nat.mod_eq_of_lt hcount] at hgate
  omega

theorem Pinned.step (h : Pinned cfg k r w) (hc : Keeps k r w c) (heff : Effect w c a w') :
    Pinned cfg k r w' := by
  refine ⟨h.sound.effect hc.permits heff, h.mine.step hc.oneHandle heff, ?_⟩
  cases heff with
  | @popSome q s hs hd hne =>
      intro i q' l hopen hl
      rw [cursor_advance]
      by_cases hrs : r = s
      · subst hrs
        obtain rfl := hc.oneHandle rfl
        exact absurd hl (h.not_open (hc.gate rfl) hd hopen)
      · rw [if_neg hrs]
        exact h.pinned i q' l hopen hl
  | @claimSome q s idx hs hidx hlt =>
      intro i q' l hopen hl
      rcases (open_claim rfl rfl i q' l).mp hopen with hold | ⟨-, rfl, rfl⟩
      · exact h.pinned i q' l hold hl
      · obtain rfl : s = r := hl
        exact (le_max_right _ _).trans hidx.ge
  | @committed _ i q l hkind hi heq =>
      intro j q' l' hopen hl'
      obtain ⟨hj, hold⟩ := (open_settle hi j q' l').mp hopen
      have hle := h.pinned j q' l' hold hl'
      change Function.update w.file.hdr.readIndices _ _ r ≤ _
      by_cases hrl : l.readerId = r
      · -- the loan was the only one at the cursor
        subst hrl
        rw [Function.update_self]
        have hne : l'.index ≠ l.index := fun hsame => hj (hc.sole i (by rcases hkind with rfl | rfl <;> rfl)
          (by rcases hkind with rfl | rfl <;> simp) q l hi rfl heq.symm j q' l' hold hl' hsame)
        rw [heq] at hle
        exact lt_of_le_of_ne hle hne.symm
      · rw [Function.update_of_ne (Ne.symm hrl)]
        exact hle
  | aborted hi | droppedAway hi _ =>
      exact fun j q l hopen hl => h.pinned j q l ((open_settle hi j q l).mp hopen).2 hl
  | _ => exact h.pinned

/-- **An open loan pins its slot**: it is not behind the cursor, and it still views the message it
was claimed for. -/
theorem open_loan_pinned (h : Reachable (world p (Start cfg k r) (Keeps k r)) w) {i q : ℕ} {l : Loan}
    (hopen : w.Open i q l) (hl : l.readerId = r) :
    w.cursor r ≤ l.index ∧ w.stream[l.index]? = some (l.deref (w.handle q) w.file) := by
  have hinv : Pinned cfg k r w := world_invariant (fun _ hs => hs.sound) (fun _ _ hc => hc.permits)
    (fun _ hs => hs.pinned) (fun _ _ _ _ hs => hs.step) h
  obtain ⟨hr, hlt⟩ := hinv.sound.loans _ (List.mem_of_getElem? hopen.1)
  have hle := hinv.pinned i q l hopen hl
  have hget := List.getElem?_eq_getElem hlt
  have hslot : (w.handle q).slot l.index = l.index % cfg.capacity := by
    rw [Handle.slot, hinv.sound.capacity]
    exact cfg.slot_eq_mod _
  refine ⟨hle, hget.trans (congrArg some ?_)⟩
  rw [Loan.deref, hslot]
  exact (hinv.sound.holds _ hr l.index _ (by rw [hl]; exact hle) hget).symm

theorem keeps_of_lends (h : lends w c = true) : Keeps 0 r w c := by
  obtain ⟨hzero, hloan, hpop⟩ := onZero_of_lends (k := 0) (r := r) h
  obtain ⟨hp, hone⟩ := permits_of_onZero (r := r) hzero
  refine ⟨hp, hone, fun hc => absurd hc hpop, fun i hi => ?_⟩
  rw [hloan] at hi
  cases hi

/-- Two messages, two loans: the second one still views the second message. -/
theorem open_loan_pinned_second : ∃ w : World ℕ, w.Open 1 0 ⟨0, 1, false⟩ ∧
    w.cursor 0 ≤ 1 ∧ w.stream[1]? = some (Loan.deref ⟨0, 1, false⟩ (w.handle 0) w.file) := by
  have hrun : (follow (World.next checked lends) [.tryPush 1 10, .tryPush 1 11, .claim 0 0, .claim 0 0]
      (World.created twoSlots fun _ => 0)).map (·.loans[1]?) = some (some (0, ⟨0, 1, false⟩)) := rfl
  obtain ⟨w, hw, hloan⟩ := Option.map_eq_some_iff.mp hrun
  have hreach : Reachable (world checked (Start twoSlots 0 0) (Keeps 0 0)) w :=
    reachable_of_follow (fun _ _ => keeps_of_lends) (start_created _ _ _ _) hw
  exact ⟨w, ⟨hloan, rfl⟩, open_loan_pinned hreach ⟨hloan, rfl⟩ rfl⟩

theorem Open.unique {i q q' : ℕ} {l l' : Loan} (h : w.Open i q l) (h' : w.loans[i]? = some (q', l')) :
    q' = q ∧ l' = l :=
  Prod.mk.inj (Option.some.inj (h'.symm.trans h.1))

/-- A commit or a drop at the cursor. -/
theorem Effect.at_cursor {i q : ℕ} {l : Loan} (heff : Effect w c a w') (hc : c = .commit i ∨ c = .drop i)
    (hi : w.Open i q l) (heq : w.cursor l.readerId = l.index) : a = .ok .done ∧ w' =
      w.settle i q l (w.lower q l.readerId) (w.file.advance l.readerId (l.index + 1)) := by
  have hloan : c.loan? = some i := by rcases hc with rfl | rfl <;> rfl
  have hreader : c.reader? = none := by rcases hc with rfl | rfl <;> rfl
  cases heff with
  | invalid hr _ =>
      rw [hreader] at hr
      cases hr
  | noLoan hj hnone =>
      obtain rfl := Option.some.inj (hloan.symm.trans hj)
      rw [hi.1] at hnone
      cases hnone
  | settled hj hget hres =>
      obtain rfl := Option.some.inj (hloan.symm.trans hj)
      obtain ⟨-, rfl⟩ := Open.unique hi hget
      rw [hi.2] at hres
      cases hres
  | commitEarly hj hne | droppedAway hj hne =>
      obtain rfl := Option.some.inj hloan
      obtain ⟨-, rfl⟩ := Open.unique hi hj.1
      exact absurd heq hne
  | committed hkind hj _ =>
      rcases hkind with rfl | rfl <;> obtain rfl := Option.some.inj hloan <;>
        obtain ⟨rfl, rfl⟩ := Open.unique hi hj.1 <;> exact ⟨rfl, rfl⟩
  | aborted => rcases hc with hc | hc <;> cases hc
  | _ => cases hloan

/-- A loan at the cursor takes its index from every other open loan of that index. -/
theorem passes_open_loan {i j q q' : ℕ} {l l' : Loan}
    (hc : c = .commit i ∨ c = .drop i) (hi : w.Open i q l) (hcur : l.index = w.cursor l.readerId)
    (hj : w.Open j q' l') (hne : j ≠ i) (hr : l'.readerId = l.readerId) (hidx : l'.index = l.index)
    (heff : Effect w c a w') : w'.Open j q' l' ∧ l'.index < w'.cursor l'.readerId := by
  obtain ⟨-, rfl⟩ := heff.at_cursor hc hi hcur.symm
  refine ⟨(open_settle hi j q' l').mpr ⟨hne, hj⟩, ?_⟩
  change _ < Function.update w.file.hdr.readIndices _ _ _
  rw [hr, Function.update_self, hidx]
  exact Nat.lt_succ_self _

/-- Loans 0 and 1 view both messages and loan 0 is aborted; loans 2 and 3 view them again. When 2 and
1 are committed, loan 3 is behind the cursor, and two more messages overwrite its slot. -/
theorem loan_overwritten : ∃ w, Reachable (world checked (Start twoSlots 0 0)
    fun w c => w.Permits c ∧ OneHandle 0 0 c) w ∧
    w.Open 3 0 ⟨0, 1, false⟩ ∧ w.cursor 0 = 2 ∧ w.stream = [10, 11, 12, 13] ∧
      Loan.deref ⟨0, 1, false⟩ (w.handle 0) w.file = 13 := by
  have hrun : (follow (World.next checked onZero) [.tryPush 1 10, .tryPush 1 11, .claim 0 0, .claim 0 0,
      .abort 0, .claim 0 0, .claim 0 0, .commit 2, .commit 1, .tryPush 1 12, .tryPush 1 13]
      (World.created twoSlots fun _ => 0)).map (fun w => (w.loans[3]?, w.cursor 0, w.stream,
        Loan.deref ⟨0, 1, false⟩ (w.handle 0) w.file)) =
      some (some (0, ⟨0, 1, false⟩), 2, [10, 11, 12, 13], 13) := rfl
  obtain ⟨w, hw, hview⟩ := Option.map_eq_some_iff.mp hrun
  simp only [Prod.mk.injEq] at hview
  obtain ⟨hloan, hcur, hstream, hderef⟩ := hview
  exact ⟨w, reachable_of_follow (fun _ _ => permits_of_onZero) (start_created _ _ _ _) hw,
    ⟨hloan, rfl⟩, hcur, hstream, hderef⟩

/-! ## No message is lost -/

/-- Below the bounds of a machine word, a dropped loan that the pipeline has passed and the cursor has
not is not the only open one of its index. -/
structure Covers (k r : ℕ) (w : World α) (c : Call α) : Prop where
  permits : w.Permits c
  oneHandle : OneHandle k r c
  shared : ∀ i, c = .drop i → ∀ q l, w.Open i q l → l.readerId = r → w.cursor r < l.index →
    l.index < w.base k r → ∃ j q' l', j ≠ i ∧ w.Open j q' l' ∧ l'.readerId = r ∧ l'.index = l.index

/-- Every index between the cursor and the head of the pipeline is viewed by an open loan. -/
structure Covered (cfg : Config) (k r : ℕ) (w : World α) : Prop where
  sound : Sound cfg w
  mine : Mine k r w
  cover : ∀ j, w.cursor r ≤ j → j < w.base k r → Views w r j

theorem Start.covered (h : Start cfg k r w) : Covered cfg k r w where
  sound := h.sound
  mine := h.pinned.mine
  cover := fun _ hj hlt => absurd (h.base.trans hj) (Nat.not_le.mpr hlt)

theorem base_update (q : ℕ) (h : Handle) (s : ℕ) :
    (Function.update w.handle q h k).claimBase s = if k = q then h.claimBase s else w.base k s := by
  rw [Function.update_apply]
  split_ifs <;> rfl

/-- A gate that goes down leaves every pipeline head. -/
theorem base_lower {i q s : ℕ} {l : Loan} {f : RingFile α} :
    (w.settle i q l (w.lower q s) f).base k r = w.base k r := by
  change (Function.update w.handle q (w.lower q s) k).claimBase r = _
  rw [base_update]
  split_ifs with hk
  · rw [hk]
    rfl
  · rfl

/-- The indices the other loans view after one was resolved. -/
theorem views_settle {i q : ℕ} {l : Loan} {h : Handle} {f : RingFile α} (hi : w.Open i q l) {j : ℕ}
    (hj : Views w r j) (hne : l.readerId = r → l.index = j →
      ∃ m q' l', m ≠ i ∧ w.Open m q' l' ∧ l'.readerId = r ∧ l'.index = j) :
    Views (w.settle i q l h f) r j := by
  obtain ⟨m, q', l', hopen, hr, hidx⟩ := hj
  by_cases hm : m = i
  · subst hm
    obtain ⟨rfl, rfl⟩ := Open.unique hi hopen.1
    obtain ⟨m', q'', l'', hm', hopen', hr', hidx'⟩ := hne hr hidx
    exact ⟨m', q'', l'', (open_settle hi _ _ _).mpr ⟨hm', hopen'⟩, hr', hidx'⟩
  · exact ⟨m, q', l', (open_settle hi _ _ _).mpr ⟨hm, hopen⟩, hr, hidx⟩

theorem views_claim {q j : ℕ} {l : Loan} (hw : w'.loans = w.loans ++ [(q, l)])
    (hl : l.resolved = false) (h : Views w r j) : Views w' r j := by
  obtain ⟨i, q', l', hopen, hv⟩ := h
  exact ⟨i, q', l', (open_claim hw hl i q' l').mpr (.inl hopen), hv⟩

theorem Covered.step (h : Covered cfg k r w) (hc : Covers k r w c) (heff : Effect w c a w') :
    Covered cfg k r w' := by
  refine ⟨h.sound.effect hc.permits heff, h.mine.step hc.oneHandle heff, ?_⟩
  cases heff with
  | @opened q =>
      intro j hj hlt
      change j < (Function.update w.handle q _ k).claimBase r at hlt
      rw [base_update] at hlt
      split_ifs at hlt
      · exact absurd hlt (Nat.not_lt_zero _)
      · exact h.cover j hj hlt
  | @popSome q s =>
      intro j hj hlt
      rw [cursor_advance] at hj
      refine h.cover j (le_trans ?_ hj) hlt
      split_ifs with hrs
      · exact hrs ▸ Nat.le_succ _
      · exact le_rfl
  | @claimSome q s idx hs hidx hidxw =>
      intro j hj hlt
      change j < (Function.update w.handle q _ k).claimBase r at hlt
      rw [base_update] at hlt
      change j < if k = q then Function.update (w.handle q).claimBase s (idx + 1) r else _ at hlt
      by_cases hkr : k = q ∧ r = s
      · obtain ⟨rfl, rfl⟩ := hkr
        rw [if_pos rfl, Function.update_self] at hlt
        rcases Nat.lt_succ_iff_lt_or_eq.mp hlt with hjlt | rfl
        · change w.cursor r ≤ j at hj
          exact views_claim rfl rfl (h.cover j hj (by omega))
        · exact ⟨_, _, _, (open_claim rfl rfl _ _ _).mpr (.inr ⟨rfl, rfl, rfl⟩), rfl, rfl⟩
      · refine views_claim rfl rfl (h.cover j hj ?_)
        split_ifs at hlt with hk
        · rw [Function.update_of_ne fun hr => hkr ⟨hk, hr⟩] at hlt
          exact hk ▸ hlt
        · exact hlt
  | @committed _ i q l hkind hi heq =>
      intro j hj hlt
      change Function.update w.file.hdr.readIndices _ _ r ≤ j at hj
      rw [base_lower] at hlt
      by_cases hr : l.readerId = r
      · subst hr
        rw [Function.update_self, ← heq] at hj
        exact views_settle hi (h.cover j (Nat.le_of_succ_le hj) hlt) fun _ hidx => by omega
      · rw [Function.update_of_ne (Ne.symm hr)] at hj
        exact views_settle hi (h.cover j hj hlt) fun hr' => absurd hr' hr
  | @aborted i q l hi =>
      intro j hj hlt
      change j < (Function.update w.handle q _ k).claimBase r at hlt
      rw [base_update] at hlt
      change j < if k = q then Function.update (w.handle q).claimBase l.readerId _ r else _ at hlt
      by_cases hr : l.readerId = r
      · obtain rfl := h.mine i q l hi hr
        subst hr
        rw [if_pos rfl, Function.update_self] at hlt
        exact views_settle hi (h.cover j hj (by omega)) fun _ hidx => by omega
      · refine views_settle hi (h.cover j hj ?_) fun hr' => absurd hr' hr
        split_ifs at hlt with hk
        · rw [Function.update_of_ne (Ne.symm hr)] at hlt
          exact hk ▸ hlt
        · exact hlt
  | @droppedAway i q l hi hne =>
      intro j hj hlt
      rw [base_lower] at hlt
      refine views_settle hi (h.cover j hj hlt) fun hr hidx => ?_
      subst hr hidx
      exact hc.shared i rfl q l hi rfl (lt_of_le_of_ne hj hne) hlt
  | _ => exact h.cover

/-- When no loan of the reader is open, the pipeline is not ahead of the cursor. -/
theorem Covered.base_le (h : Covered cfg k r w) (hidle : ∀ j, ¬ Views w r j) :
    w.base k r ≤ w.cursor r := by
  by_contra hlt
  exact hidle _ (h.cover _ le_rfl (Nat.not_le.mp hlt))

/-- A claim for a reader that participates. -/
theorem Effect.claimed (heff : Effect w (.claim k r) a w') (hr : r < w.file.hdr.numReaders) :
    (a = .ok (.claimed none) ∧ w.file.hdr.writeIdx ≤ max (w.base k r) (w.cursor r)) ∨
    (∃ v, a = .ok (.claimed (some (max (w.base k r) (w.cursor r), v)))) ∧ w'.file = w.file ∧
      w'.loans = w.loans ++ [(k, ⟨r, max (w.base k r) (w.cursor r), false⟩)] := by
  cases heff with
  | invalid hs hn =>
      obtain rfl := Option.some.inj hs
      exact absurd hr (Nat.not_lt.mpr hn)
  | claimNone _ hle => exact .inl ⟨rfl, hle⟩
  | claimSome _ hidx _ =>
      subst hidx
      exact .inr ⟨⟨_, rfl⟩, rfl, rfl⟩
  | noLoan hi _ | settled hi _ _ => cases hi
  | committed hkind _ _ => rcases hkind with hkind | hkind <;> cases hkind

/-- A claim without open loans returns the message at the cursor, and its commit succeeds. -/
theorem claim_then_commit (h : Sound cfg w) (hr : r < cfg.readers) (hbase : w.base k r ≤ w.cursor r)
    (hlt : w.cursor r < w.file.hdr.writeIdx) : ∃ v w₁ w₂,
      w.call p (.claim k r) = .ok (.ok (.claimed (some (w.cursor r, v))), w₁) ∧
      w₁.call p (.commit w.loans.length) = .ok (.ok .done, w₂) ∧ w₂.cursor r = w.cursor r + 1 := by
  have hp : w.Permits (.claim k r) := trivial
  obtain ⟨a, w₁, hcall, heff⟩ := @call_effect _ p _ _ _ h hp
  have hsound := h.effect hp heff
  rw [← h.numReaders] at hr
  rw [← max_eq_right hbase] at hlt ⊢
  rcases heff.claimed hr with ⟨-, hle⟩ | ⟨⟨v, rfl⟩, hfile, hloans⟩
  · exact absurd hlt (Nat.not_lt.mpr hle)
  · have hp₁ : w₁.Permits (.commit w.loans.length) := trivial
    have hopen := (open_claim hloans rfl _ _ _).mpr (.inr ⟨rfl, rfl, rfl⟩)
    obtain ⟨a, w₂, hcall₂, heff₂⟩ := @call_effect _ p _ _ _ hsound hp₁
    have hcur : w₁.cursor r = max (w.base k r) (w.cursor r) := by
      rw [World.cursor, hfile, max_eq_right hbase]
      rfl
    obtain ⟨rfl, rfl⟩ := heff₂.at_cursor (.inl rfl) hopen hcur
    exact ⟨v, _, _, hcall, hcall₂, Function.update_self _ _ _⟩

/-- **No message is lost**: an index the pipeline has passed is viewed by an open loan until the cursor
passes it, and without open loans the reader gets the message at its cursor and can commit it. -/
theorem no_message_lost (h : Reachable (world p (Start cfg k r) (Covers k r)) w) (hr : r < cfg.readers) :
    (∀ j, w.cursor r ≤ j → j < max (w.base k r) (w.cursor r) → Views w r j) ∧
    ((∀ j, ¬ Views w r j) →
      (w.cursor r < w.file.hdr.writeIdx → ∃ v w₁ w₂,
        w.call p (.claim k r) = .ok (.ok (.claimed (some (w.cursor r, v))), w₁) ∧
        w₁.call p (.commit w.loans.length) = .ok (.ok .done, w₂) ∧ w₂.cursor r = w.cursor r + 1) ∧
      ∀ w₁, w.call p (.claim k r) = .ok (.ok (.claimed none), w₁) →
        w.cursor r = w.file.hdr.writeIdx) := by
  have hinv : Covered cfg k r w := world_invariant (fun _ hs => hs.sound) (fun _ _ hc => hc.permits)
    (fun _ hs => hs.covered) (fun _ _ _ _ hs => hs.step) h
  refine ⟨fun j hj hlt => hinv.cover j hj (by omega), fun hidle => ⟨fun hlt => ?_, fun w₁ hcall => ?_⟩⟩
  · exact claim_then_commit hinv.sound hr (hinv.base_le hidle) hlt
  · have hbase := hinv.base_le hidle
    have hbehind := hinv.sound.behind r hr
    rw [← hinv.sound.writeIdx] at hbehind
    have hp : w.Permits (.claim k r) := trivial
    rw [← hinv.sound.numReaders] at hr
    rcases (Effect.of_call hinv.sound hp hcall).claimed hr with ⟨-, hle⟩ | ⟨⟨v, hv⟩, -⟩
    · omega
    · cases hv

theorem covers_of_lends (h : lends w c = true) : Covers 0 r w c := by
  obtain ⟨hzero, hloan, -⟩ := onZero_of_lends (k := 0) (r := r) h
  obtain ⟨hp, hone⟩ := permits_of_onZero (r := r) hzero
  refine ⟨hp, hone, fun i hi => ?_⟩
  subst hi
  cases hloan

/-- After two messages and one claim, index 0 is viewed and index 1 is next. -/
theorem no_message_lost_first : ∃ w : World ℕ, w.base 0 0 = 1 ∧ Views w 0 0 := by
  have hrun : (follow (World.next checked lends) [.tryPush 1 10, .tryPush 1 11, .claim 0 0]
      (World.created twoSlots fun _ => 0)).map (fun w => (w.cursor 0, w.base 0 0)) = some (0, 1) := rfl
  obtain ⟨w, hw, hview⟩ := Option.map_eq_some_iff.mp hrun
  obtain ⟨hcur, hbase⟩ := Prod.mk.inj hview
  have hreach : Reachable (world checked (Start twoSlots 0 0) (Covers 0 0)) w :=
    reachable_of_follow (fun _ _ => covers_of_lends) (start_created _ _ _ _) hw
  exact ⟨w, hbase, (no_message_lost hreach (by decide)).1 0 hcur.le (by omega)⟩

/-- A dropped loan that is the only one of its index, ahead of the cursor, leaves the index to nobody. -/
theorem drop_skips {i q : ℕ} {l : Loan} (hi : w.Open i q l) (hlt : w.cursor l.readerId < l.index)
    (hsole : ∀ j q' l', w.Open j q' l' → l'.readerId = l.readerId → l'.index = l.index → j = i)
    (heff : Effect w (.drop i) a w') :
    ¬ Views w' l.readerId l.index ∧ w'.file = w.file ∧ w'.base q = w.base q := by
  cases heff with
  | invalid hr _ => cases hr
  | noLoan hj hnone =>
      obtain rfl := Option.some.inj hj
      rw [hi.1] at hnone
      cases hnone
  | settled hj hget hres =>
      obtain rfl := Option.some.inj hj
      obtain ⟨-, rfl⟩ := Open.unique hi hget
      rw [hi.2] at hres
      cases hres
  | committed hkind hj heq =>
      rcases hkind with hkind | hkind <;> cases hkind
      obtain ⟨-, rfl⟩ := Open.unique hi hj.1
      exact absurd heq hlt.ne
  | droppedAway hj hne =>
      obtain ⟨rfl, rfl⟩ := Open.unique hi hj.1
      refine ⟨?_, rfl, funext fun s => ?_⟩
      · rintro ⟨j, q', l', hopen, hr, hidx⟩
        obtain ⟨hji, hold⟩ := (open_settle hi j q' l').mp hopen
        exact hji (hsole j q' l' hold hr hidx)
      · exact (base_update _ _ _).trans (if_pos rfl)

/-- Two loans are dropped in the reverse order of their claims: the first drop leaves index 1, the
second moves the cursor there, and no later claim returns it. -/
theorem message_lost : ∃ w : World ℕ, Reachable (world checked (Start twoSlots 0 0)
    fun w c => w.Permits c ∧ OneHandle 0 0 c) w ∧
    (∀ j, ¬ Views w 0 j) ∧ w.cursor 0 = 1 ∧ w.base 0 0 = 2 ∧ w.file.hdr.writeIdx = 2 ∧
      (w.call checked (.claim 0 0)).map Prod.fst = .ok (.ok (.claimed none)) := by
  have hrun : (follow (World.next checked onZero) [.tryPush 1 10, .tryPush 1 11, .claim 0 0, .claim 0 0,
      .drop 1, .drop 0] (World.created twoSlots fun _ => 0)).map (fun w => (w.loans, w.cursor 0,
        w.base 0 0, w.file.hdr.writeIdx, (w.call checked (.claim 0 0)).map Prod.fst)) =
      some ([(0, ⟨0, 0, true⟩), (0, ⟨0, 1, true⟩)], 1, 2, 2, .ok (.ok (.claimed none))) := rfl
  obtain ⟨w, hw, hview⟩ := Option.map_eq_some_iff.mp hrun
  simp only [Prod.mk.injEq] at hview
  obtain ⟨hloans, hcur, hbase, hwrite, hclaim⟩ := hview
  refine ⟨w, reachable_of_follow (fun _ _ => permits_of_onZero) (start_created _ _ _ _) hw, ?_, hcur,
    hbase, hwrite, hclaim⟩
  rintro j ⟨i, q, l, ⟨hi, hl⟩, -⟩
  have hmem := List.mem_of_getElem? hi
  rw [hloans] at hmem
  simp only [List.mem_cons, Prod.mk.injEq, List.not_mem_nil, or_false] at hmem
  rcases hmem with ⟨-, rfl⟩ | ⟨-, rfl⟩ <;> cases hl

end ShmRings
