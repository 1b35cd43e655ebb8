import ShmRings.Threads.Crash

/-!
# A reader that starts again

The cursor of a reader is in the file, so its next process goes on where the last one stopped. The first pops of
the new handle find what was published before it was opened, however stale their later loads are and whatever
the others do. As in `Mode.replace`, the new handle starts with a view of the newest values.

* `answers`: the pops that have returned; `Looks`: what a pop has found, when `k` messages are seen to be there;
* `Looks.access`: an access keeps it; `Resumed`, `Resumed.step`; **`resumes`**.
-/

set_option autoImplicit false

namespace ShmRings.Threads

open Coherent Transition Atomic

variable {α : Type} {cfg : Config} {md : Mode} {r k c₀ : ℕ}

/-- A return of reader `r`. -/
def answers (r : ℕ) : Option (Event Party (Op α) (Answer α)) → Bool
  | some (.ret (.reader q) _) => q = r
  | _ => false

/-- A pop that has seen `k` messages does not stop before index `k`. -/
def Looks (k cursor : ℕ) : PopPc α → Prop
  | .loadReadIdx w => k ≤ w
  | .done (.ok none) => k ≤ cursor
  | _ => True

section Access

variable {sc : Prop} {m m' : Memory Loc α} {vw vw' : View Loc} {pc pc' : PopPc α} {n c : ℕ}

/-- **An access of a reader that has seen `k` messages keeps this.** -/
theorem Looks.access (h : Access sc m vw (popCode cfg r pc) m' vw' pc') (hlooks : Looks k c pc)
    (hk : k ≤ vw .writeIdx) (hw : m.word .writeIdx = .counter n) (hcell : m.word (.readIdx r) = .counter c)
    (hown : vw (.readIdx r) = c) : Looks k c pc' := by
  cases pc with
  | checkReader =>
      cases h
      dsimp only
      split_ifs <;> trivial
  | checkGate =>
      cases h
      dsimp only
      split_ifs <;> trivial
  | loadWriteIdx =>
      cases h with
      | load hs => exact hk.trans (hs.counter hw).2.1
  | loadReadIdx w =>
      cases h with
      | load hs =>
          obtain ⟨rfl, hlo, hhi⟩ := hs.counter hcell
          rw [hown] at hlo
          dsimp only
          split_ifs with heq
          · show k ≤ c
            rw [← le_antisymm hhi hlo, heq]
            exact hlooks
          · trivial
  | readSlot _ => cases h; trivial
  | advance _ _ => cases h; trivial
  | idle | done _ => cases h

end Access

/-- What the new process of reader `r` has done by `t`, if it started at cursor `c₀` with `k` messages
published. -/
structure Resumed (r c₀ k : ℕ) (es : List (Option (Event Party (Op α) (Answer α)))) (t : State α) : Prop where
  seen : k ≤ t.view (.reader r) .writeIdx
  looks : Looks k (t.cursor r) (t.pop r)
  start : c₀ ≤ t.cursor r
  taken : popped r es ++ (t.pop r).pending = (t.stream.take (t.cursor r)).drop c₀
  found : min (es.countP (answers r)) (k - c₀) ≤ (popped r es).length

section Step

variable {s t : State α} {e : Option (Event Party (Op α) (Answer α))}
  {es : List (Option (Event Party (Op α) (Answer α)))}

/-- What a step shows of the reader. -/
theorem looks_step (h : Inv cfg md s) (hr : Honest cfg md r) (hst : Step cfg md s e t)
    (hlen : t.stream.length < u64Size) (hseen : k ≤ s.view (.reader r) .writeIdx)
    (hlooks : Looks k (s.cursor r) (s.pop r)) (hk : k ≤ s.stream.length) :
    k ≤ t.view (.reader r) .writeIdx ∧ s.cursor r ≤ t.cursor r ∧ Looks k (t.cursor r) (t.pop r) := by
  have hr' := h.reader r hr
  cases hst with
  | callPush | retPush => exact ⟨hseen, le_rfl, hlooks⟩
  | @push m vw pc hacc =>
      have hcur : (s.pushStep m vw pc).cursor r = s.cursor r :=
        congrArg Cell.now (push_word hacc (by simp) (by simp))
      rw [State.pushStep_view_reader, hcur]
      exact ⟨hseen, le_rfl, hlooks⟩
  | @callPop q _ _ =>
      refine ⟨hseen, le_rfl, ?_⟩
      by_cases hq : r = q
      · subst hq
        show Looks k (s.cursor r) (Function.update s.pop r .checkReader r)
        rw [Function.update_self]
        trivial
      · show Looks k (s.cursor r) (Function.update s.pop q .checkReader r)
        rwa [Function.update_of_ne hq]
  | @retPop q res _ =>
      refine ⟨hseen, le_rfl, ?_⟩
      by_cases hq : r = q
      · subst hq
        show Looks k (s.cursor r) (Function.update s.pop r .idle r)
        rw [Function.update_self]
        trivial
      · show Looks k (s.cursor r) (Function.update s.pop q .idle r)
        rwa [Function.update_of_ne hq]
  | @pop q m vw pc hacc =>
      by_cases hq : r = q
      · subst hq
        have hnext := (h.step_pop hlen hacc).reader r hr
        have hview := hacc.view_le .writeIdx (by rw [h.writeIdx, Cell.counter_top]; exact hr'.seen_le)
        have hlooks' := hlooks.access hacc hseen h.writeIdx hr'.cell hr'.own
        have hcur : s.cursor r ≤ (s.popStep m vw r pc).cursor r := by
          rw [← hr'.own, ← hnext.own, State.popStep_view]
          exact (hacc.view_le (.readIdx r) (by rw [hr'.cell, Cell.counter_top, hr'.own])).1
        rw [State.popStep_view, State.popStep_pop]
        refine ⟨hseen.trans hview.1, hcur, ?_⟩
        cases pc with
        | done res =>
            rcases res with err | _ | v
            · trivial
            · exact hlooks'.trans hcur
            · trivial
        | loadReadIdx w => exact hlooks'
        | _ => trivial
      · have hcur : (s.popStep m vw q pc).cursor r = s.cursor r :=
          congrArg Cell.now (pop_word hacc (by simp [hq]))
        rw [State.popStep_view_ne hq, State.popStep_pop_ne hq, hcur]
        exact ⟨hseen, le_rfl, hlooks⟩
  | replacePush _ =>
      refine ⟨?_, le_rfl, hlooks⟩
      show k ≤ Function.update s.view .producer s.mem.newest (.reader r) .writeIdx
      rwa [Function.update_of_ne (by simp)]
  | replacePop q _ =>
      by_cases hq : r = q
      · subst hq
        rw [State.popStep_view, State.popStep_pop]
        refine ⟨?_, le_rfl, trivial⟩
        show k ≤ (s.mem.word .writeIdx).top
        rw [h.writeIdx, Cell.counter_top]
        exact hk
      · rw [State.popStep_view_ne hq, State.popStep_pop_ne hq]
        exact ⟨hseen, le_rfl, hlooks⟩
  | poke q v hq _ =>
      have hqr : r ≠ q := fun heq => hr.2 (heq ▸ hq)
      have hcur : (s.mem.store (.readIdx q) v).now (.readIdx r) = s.cursor r :=
        Memory.store_now_ne _ (by simp [hqr]) _
      refine ⟨hseen, hcur.ge, ?_⟩
      show Looks k ((s.mem.store (.readIdx q) v).now (.readIdx r)) (s.pop r)
      rwa [hcur]

/-- A pop returns a message, or its reader has caught up. -/
theorem answers_step (h : Inv cfg md s) (hr : Honest cfg md r) (hst : Step cfg md s e t)
    (hlooks : Looks k (s.cursor r) (s.pop r)) (hans : answers r e = true) :
    given r e ≠ [] ∨ k ≤ s.cursor r ∧ (s.pop r).pending = [] := by
  cases hst with
  | @retPop q res hres =>
      obtain rfl : q = r := of_decide_eq_true hans
      have hok := (h.reader q hr).pop
      rw [hres] at hlooks hok ⊢
      rcases res with err | _ | v
      · exact hok.elim
      · exact .inr ⟨hlooks, rfl⟩
      · exact .inl (by simp [given])
  | _ => cases hans

/-- **Every step that does not cut off the reader keeps what it has done.** -/
theorem Resumed.step (hd : Resumed r c₀ k es s) (h : Inv cfg md s) (hr : Honest cfg md r)
    (hst : Step cfg md s e t) (hcut : Uncut r s e t) (hlen : t.stream.length < u64Size)
    (hk : k ≤ s.stream.length) : Resumed r c₀ k (es ++ [e]) t := by
  obtain ⟨hseen, hcur, hlooks⟩ := looks_step h hr hst hlen hd.seen hd.looks hk
  obtain ⟨d, hgiven, htake⟩ := taken_step h hr hst hcut ((length_stream_le hst).trans_lt hlen)
  have hle := (h.reader r hr).cursor_le
  refine ⟨hseen, hlooks, hd.start.trans hcur, ?_, ?_⟩
  · rw [popped_snoc, List.append_assoc, hgiven, ← List.append_assoc, hd.taken, htake, List.drop_append_of_le_length]
    rw [List.length_take]
    exact le_min hd.start (hd.start.trans hle)
  · rw [popped_snoc, List.length_append, List.countP_append]
    have hfound := hd.found
    by_cases hans : answers r e = true
    · have hone : [e].countP (answers r) = 1 := by simp [hans]
      rw [hone]
      rcases answers_step h hr hst hd.looks hans with hne | ⟨hcaught, hnone⟩
      · have := List.length_pos_iff.mpr hne
        omega
      · have htaken := congrArg List.length hd.taken
        rw [hnone, List.append_nil, List.length_drop, List.length_take] at htaken
        omega
    · have hzero : [e].countP (answers r) = 0 := by simp [hans]
      rw [hzero]
      omega

end Step

/-- **A reader that starts again goes on where it stopped.** From any reachable state in which the process of an
honest reader ends, and beside any steps of the others, the new process gets the messages from the cursor on, in
order, without a gap and without one that was consumed before; and as long as some that were published before it
started are left, every one of its pops returns a message. -/
theorem resumes {s t : State α} {es : List (Option (Event Party (Op α) (Answer α)))} (hr : Honest cfg md r)
    (hs : Reachable (machine cfg md) s)
    (hrun : Run ((machine cfg md).guard (Uncut r)) (s.popStep s.mem s.mem.newest r .idle) es t)
    (hlen : t.stream.length < u64Size) :
    popped r es ++ (t.pop r).pending = (t.stream.take (t.cursor r)).drop (s.cursor r) ∧
      min (es.countP (answers r)) (s.stream.length - s.cursor r) ≤ (popped r es).length := by
  set s₀ := s.popStep s.mem s.mem.newest r .idle
  have hgrow : ∀ {u fs}, Run ((machine cfg md).guard (Uncut r)) s₀ fs u → s.stream.length ≤ u.stream.length := by
    intro u fs hfs
    induction hfs with
    | nil => exact le_rfl
    | snoc _ hst ih => exact ih.trans (length_stream_le hst.1)
  have hinv := reachable_inv ⟨r, hr⟩ hs ((hgrow hrun).trans_lt hlen)
  have hinv₀ : Inv cfg md s₀ := by
    have hmortal : Inv cfg ⟨md.sc, True, md.rogue⟩ s := hinv.of_honest fun _ => Iff.rfl
    exact (hmortal.step ⟨r, hr⟩ (.replacePop r trivial) ((hgrow hrun).trans_lt hlen)).of_honest fun _ => Iff.rfl
  suffices h : ∀ {u fs}, Run ((machine cfg md).guard (Uncut r)) s₀ fs u → u.stream.length < u64Size →
      Inv cfg md u ∧ Resumed r (s.cursor r) s.stream.length fs u by
    obtain ⟨-, hd⟩ := h hrun hlen
    exact ⟨hd.taken, hd.found⟩
  intro u fs hfs hlt
  induction hfs with
  | nil =>
      refine ⟨hinv₀, ?_, ?_, le_rfl, ?_, ?_⟩
      · show s.stream.length ≤ s₀.view (.reader r) .writeIdx
        rw [State.popStep_view]
        show s.stream.length ≤ (s.mem.word .writeIdx).top
        rw [hinv.writeIdx, Cell.counter_top]
      · rw [State.popStep_pop]
        trivial
      · rw [State.popStep_pop]
        show [] = (s.stream.take (s.cursor r)).drop (s.cursor r)
        rw [List.drop_eq_nil_of_le (by rw [List.length_take]; exact min_le_left _ _)]
      · exact Nat.min_le_left _ _
  | snoc hfs hst ih =>
      obtain ⟨hi, hd⟩ := ih ((length_stream_le hst.1).trans_lt hlt)
      exact ⟨hi.step ⟨r, hr⟩ hst.1 hlt, hd.step hi hr hst.1 hst.2 hlt (hgrow hfs)⟩

/-- A new process gets the message that was published before it started. -/
theorem resumes_push : ∃ (es : List (Option (Event Party (Op ℕ) (Answer ℕ)))) (s t : State ℕ), s.stream = [7] ∧
    es.countP (answers 0) = 1 ∧ popped 0 es ++ (t.pop 0).pending = (t.stream.take (t.cursor 0)).drop (s.cursor 0) ∧
    1 ≤ (popped 0 es).length := by
  let S : System (State ℕ) _ := (machine oneSlot .stale).guard (Uncut 0)
  let restart {s : State ℕ} (_ : Reachable (machine oneSlot .stale) s) := s.popStep s.mem s.mem.newest 0 .idle
  have hbusy : ∀ {s t : State ℕ} {e}, t.pop 0 ≠ .idle → Uncut 0 s e t := fun hne _ hidle => absurd hidle hne
  have h₀ := Reachable.step (S := machine oneSlot .stale) (s := State.fresh oneSlot fun _ => 0)
    (.init ⟨_, rfl⟩) (.callPush 7 rfl)
  have h₁ := h₀.step (.push (.load ⟨Nat.le_refl 0, rfl, False.elim⟩))
  have h₂ := h₁.step (.push (.load ⟨Nat.le_refl 0, rfl, False.elim⟩))
  have h₃ := h₂.step (.push (.load ⟨Nat.le_refl 0, rfl, False.elim⟩))
  have h₄ := h₃.step (.push .put)
  have h₅ := h₄.step (.push .store)
  have g₀ := Run.single (S := S) (s := restart h₅) ⟨.callPop (r := 0) (by decide) rfl, fun h => by cases h⟩
  have g₁ := g₀.snoc ⟨.pop (r := 0) (.load (i := 0) (v := 1) ⟨Nat.le_refl 0, rfl, False.elim⟩), hbusy (by simp)⟩
  have g₂ := g₁.snoc ⟨.pop (r := 0) (.load (i := 0) (v := 0) ⟨Nat.le_refl 0, rfl, False.elim⟩), hbusy (by simp)⟩
  have g₃ := g₂.snoc ⟨.pop (r := 0) (.load (i := 1) (v := 1) ⟨Nat.le_refl 1, rfl, False.elim⟩), hbusy (by simp)⟩
  have g₄ := g₃.snoc ⟨.pop (r := 0) (.load (i := 0) (v := 0) ⟨Nat.le_refl 0, rfl, False.elim⟩), hbusy (by simp)⟩
  have g₅ := g₄.snoc ⟨.pop (r := 0) .get, hbusy (by simp)⟩
  have g₆ := g₅.snoc ⟨.pop (r := 0) .store, hbusy (by simp)⟩
  have g := g₆.snoc ⟨.retPop (r := 0) rfl, fun h => by cases h⟩
  have h := resumes (honest_stale (by decide)) h₅ g (by decide)
  exact ⟨_, _, _, rfl, rfl, h.1, h.2⟩

end ShmRings.Threads
