import ShmRings.Threads.Safety

/-!
# A rogue reader cannot harm honest readers

The cursors of some readers are overwritten with arbitrary words at any moment. As long as one
participating reader is honest, its cursor alone keeps every decision of the producer conservative.

* `Mode.poisoned`: loads may be stale, and the cursors in `P` are overwritten from outside;
* `popped`, `PopPc.pending`; `popped_step`, `popped_run`: what a reader has been given;
* **`rogue_cannot_harm`**.
-/

set_option autoImplicit false

namespace ShmRings.Threads

open Coherent Transition Atomic

variable {α : Type} {cfg : Config} {md : Mode} {r : ℕ}

/-- Loads may be stale, and the cursors of the readers in `P` are overwritten from outside. -/
def Mode.poisoned (P : ℕ → Prop) : Mode := ⟨False, False, P⟩

/-- The message an event returns to reader `r`. -/
def given (r : ℕ) : Option (Event Party (Op α) (Answer α)) → List α
  | some (.ret (.reader q) (.popped (.ok (some v)))) => if q = r then [v] else []
  | _ => []

/-- The messages the pops of reader `r` returned. -/
def popped (r : ℕ) (es : List (Option (Event Party (Op α) (Answer α)))) : List α := es.flatMap (given r)

/-- The message of a pop that has moved the cursor and is about to return. -/
def PopPc.pending : PopPc α → List α
  | .done (.ok (some v)) => [v]
  | _ => []

theorem popped_snoc (es : List (Option (Event Party (Op α) (Answer α)))) (e) :
    popped r (es ++ [e]) = popped r es ++ given r e := by
  simp [popped]

/-- A pop takes its message at the store of the cursor. -/
theorem pending_access {sc : Prop} {m m' : Memory Loc α} {vw vw' : View Loc} {pc pc' : PopPc α}
    (h : Access sc m vw (popCode cfg r pc) m' vw' pc') : pc.pending = [] ∧
      (m' = m ∧ pc'.pending = [] ∨ ∃ c v, pc = .advance c v ∧
        m' = m.store (.readIdx r) (wrappingAdd c 1) ∧ pc'.pending = [v]) := by
  cases pc with
  | checkReader | checkGate | loadReadIdx _ =>
      simp only [popCode] at h
      cases h
      refine ⟨rfl, .inl ⟨rfl, ?_⟩⟩
      dsimp only
      split_ifs <;> rfl
  | loadWriteIdx | readSlot _ =>
      simp only [popCode] at h
      cases h
      exact ⟨rfl, .inl ⟨rfl, rfl⟩⟩
  | advance c v =>
      simp only [popCode] at h
      cases h
      exact ⟨rfl, .inr ⟨c, v, rfl, rfl, rfl⟩⟩
  | idle | done _ => simp only [popCode] at h; cases h

/-- **A step gives an honest reader the messages its cursor passes**, once they are returned. -/
theorem popped_step {s t : State α} {e : Option (Event Party (Op α) (Answer α))} (h : Inv cfg md s)
    (hr : Honest cfg md r) (hrep : ¬ md.replace) (hst : Step cfg md s e t)
    (hlen : s.stream.length < u64Size) :
    ∃ d, given r e ++ (t.pop r).pending = (s.pop r).pending ++ d ∧
      t.stream.take (t.cursor r) = s.stream.take (s.cursor r) ++ d := by
  have hr' := h.reader r hr
  cases hst with
  | callPush value _ => exact ⟨[], by simp [given], (List.append_nil _).symm⟩
  | @push m vw pc hacc =>
      have hcur : (s.pushStep m vw pc).cursor r = s.cursor r :=
        congrArg Cell.now (push_word hacc (by simp) (by simp))
      refine ⟨[], by simp [given, State.pushStep], ?_⟩
      rw [hcur, List.append_nil]
      exact List.take_append_of_le_length hr'.cursor_le
  | retPush _ => exact ⟨[], by simp [given], (List.append_nil _).symm⟩
  | @callPop q _ hidle =>
      refine ⟨[], ?_, (List.append_nil _).symm⟩
      by_cases hq : q = r
      · subst hq
        rw [hidle]
        simp [given, PopPc.pending]
      · simp [given, Function.update_of_ne (Ne.symm hq)]
  | @pop q m vw pc hacc =>
      by_cases hq : q = r
      · subst hq
        obtain ⟨hpend, ⟨rfl, hpend'⟩ | ⟨c, v, hpc, rfl, hpend'⟩⟩ := pending_access hacc
        · refine ⟨[], ?_, (List.append_nil _).symm⟩
          rw [State.popStep_pop, hpend, hpend']
          rfl
        · obtain ⟨rfl, -, hv, hadd⟩ := hr'.advance hpc hlen
          refine ⟨[v], ?_, ?_⟩
          · rw [State.popStep_pop, hpend, hpend']
            rfl
          · rw [hadd, cursor_popStep_store]
            change s.stream.take (s.cursor q + 1) = _
            rw [List.take_add_one, hv]
            rfl
      · refine ⟨[], ?_, ?_⟩
        · rw [State.popStep_pop_ne (Ne.symm hq)]
          simp [given]
        · have hcur : (s.popStep m vw q pc).cursor r = s.cursor r :=
            congrArg Cell.now (pop_word hacc (by simp [Ne.symm hq]))
          rw [hcur, List.append_nil]
          rfl
  | @retPop q res hres =>
      refine ⟨[], ?_, (List.append_nil _).symm⟩
      by_cases hq : q = r
      · subst hq
        rw [hres]
        rcases res with err | _ | v <;> simp [given, PopPc.pending]
      · rcases res with err | _ | v <;> simp [given, hq, Function.update_of_ne (Ne.symm hq)]
  | replacePush hmd => exact absurd hmd hrep
  | replacePop q hmd => exact absurd hmd hrep
  | poke q v hq _ =>
      have hqr : r ≠ q := fun heq => hr.2 (heq ▸ hq)
      refine ⟨[], by simp [given], ?_⟩
      have hcur : (s.mem.store (.readIdx q) v).now (.readIdx r) = s.cursor r :=
        Memory.store_now_ne _ (by simp [hqr]) _
      rw [State.cursor, hcur, List.append_nil]

/-- **The pops of an honest reader return the published stream in order.** -/
theorem popped_run {data : ℕ → α} {s : State α} {es : List (Option (Event Party (Op α) (Answer α)))}
    (hr : Honest cfg md r) (hrep : ¬ md.replace)
    (hrun : Run (machine cfg md) (State.fresh cfg data) es s) (hlen : s.stream.length < u64Size) :
    popped r es ++ (s.pop r).pending = s.stream.take (s.cursor r) := by
  induction hrun with
  | nil => rfl
  | @snoc es s e t hrun hst ih =>
      have hlen' := (length_stream_le hst).trans_lt hlen
      have hinv := reachable_inv ⟨r, hr⟩ (hrun.reachable (.init ⟨data, rfl⟩)) hlen'
      obtain ⟨d, hgiven, htake⟩ := popped_step hinv hr hrep hst hlen'
      rw [popped_snoc, List.append_assoc, hgiven, ← List.append_assoc, ih hlen', htake]

/-- **A rogue reader cannot harm honest readers.** Whatever the cursors in `P` hold, every honest reader's
window is intact and its pops return the published stream in order, and at the decision of a push the
minimum is not ahead of `write_idx`. -/
theorem rogue_cannot_harm {P : ℕ → Prop} (hP : ∃ r < cfg.readers, ¬ P r) {data : ℕ → α} {s : State α}
    {es : List (Option (Event Party (Op α) (Answer α)))}
    (hrun : Run (machine cfg (.poisoned P)) (State.fresh cfg data) es s)
    (hlen : s.stream.length < u64Size) :
    (∀ r < cfg.readers, ¬ P r →
      s.cursor r ≤ s.mem.now .writeIdx ∧ s.mem.now .writeIdx ≤ s.cursor r + cfg.capacity ∧
      (∀ i, s.cursor r ≤ i → i < s.mem.now .writeIdx →
        s.stream[i]? = some (s.mem.data (cfg.slot i))) ∧
      popped r es ++ (s.pop r).pending = s.stream.take (s.cursor r)) ∧
    ∀ value w i minRead, s.push = .scan value w (i + 1) i minRead →
      ∀ pos c, Sees False s.mem (s.view .producer) (.readIdx i) pos c → min minRead c ≤ w := by
  have hhon : ∃ r, Honest cfg (.poisoned P) r := hP
  have hinv := reachable_inv hhon (hrun.reachable (.init ⟨data, rfl⟩)) hlen
  have hnow : s.mem.now .writeIdx = s.stream.length := congrArg Cell.now hinv.writeIdx
  rw [hnow]
  refine ⟨fun r hr hPr => ?_, fun value w i minRead hpc pos c hsees => ?_⟩
  · have hr' := hinv.reader r ⟨hr, hPr⟩
    refine ⟨hr'.cursor_le, hr'.lag, fun i hlo hhi => ?_, popped_run ⟨hr, hPr⟩ id hrun hlen⟩
    have hi := List.getElem?_eq_getElem hhi
    rw [cfg.slot_eq_mod, hr'.holds i _ hlo hi]
    exact hi
  · -- the honest reader was scanned before, or is the one loaded now
    have hpush := hinv.push
    rw [hpc] at hpush
    obtain ⟨rfl, hn, -, hmin⟩ := hpush
    obtain ⟨r, hr, hPr⟩ := hP
    have hr' := hinv.reader r ⟨hr, hPr⟩
    rcases Nat.lt_succ_iff_lt_or_eq.mp (hn ▸ hr) with hlt | rfl
    · exact (Nat.min_le_left _ _).trans ((hmin r hlt ⟨hr, hPr⟩).trans hr'.cursor_le)
    · exact (Nat.min_le_right _ _).trans ((hsees.counter hr'.cell).2.2.trans hr'.cursor_le)

/-- Two slots and two readers. -/
def twoReaders : Config := ⟨1, 2, Config.one_lt, Nat.two_pos, by decide⟩

/-- With the cursor of reader 1 at `u64::MAX`, a push publishes and reader 0 keeps its message. -/
theorem rogue_beside_push : ∃ s : State ℕ, s.stream = [7] ∧ s.mem.now (.readIdx 1) = u64Max ∧
    s.cursor 0 = 0 ∧ s.stream[0]? = some (s.mem.data 0) := by
  have h₀ := Run.single (S := machine twoReaders (.poisoned (· = 1)))
    (s := State.fresh twoReaders fun _ => 0) (.poke 1 u64Max rfl (by decide))
  have h₁ := h₀.snoc (.callPush 7 rfl)
  have h₂ := h₁.snoc (.push (.load ⟨Nat.le_refl 0, rfl, False.elim⟩))
  have h₃ := h₂.snoc (.push (.load ⟨Nat.le_refl 0, rfl, False.elim⟩))
  have h₄ := h₃.snoc (.push (.load ⟨Nat.le_refl 0, rfl, False.elim⟩))
  have h₅ := h₄.snoc (.push (.load (i := 1) ⟨Nat.zero_le 1, rfl, False.elim⟩))
  have h₆ := h₅.snoc (.push .put)
  have h₇ := h₆.snoc (.push .store)
  have h := (rogue_cannot_harm ⟨0, by decide, by decide⟩ h₇ (by decide)).1 0 (by decide) (by decide)
  exact ⟨_, rfl, rfl, rfl, h.2.2.1 0 (Nat.zero_le _) (by decide)⟩

end ShmRings.Threads
