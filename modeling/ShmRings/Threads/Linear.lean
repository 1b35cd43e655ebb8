import ShmRings.Lib.Broadcast
import ShmRings.Threads.Safety

/-!
# The ring is linearizable

On sequentially consistent memory the calls of the producer and of one thread for each reader take
effect at one instant. `abs` reads the broadcast queue and the calls in progress off a state:

* a push takes effect at the store of `write_idx`, or at the first cursor of the scan that lags by
  the capacity;
* a pop takes effect at the store of the cursor, or at the load of `write_idx` that finds the reader
  caught up.

* `broadcast`, `abs`; `abs_step_push`, `abs_step_pop`: the effect of one access;
* **`ring_linearizable`**.
-/

set_option autoImplicit false

namespace ShmRings.Threads

open Coherent Transition Atomic Broadcast

variable {α : Type} {cfg : Config}

/-- The broadcast queue as a sequential object. -/
def broadcast (cfg : Config) : Object (Queue α) Party (Op α) (Answer α) where
  init := .empty
  apply q _ op := match op with
    | .push value => (.pushed (q.push cfg.capacity cfg.readers value).1,
        (q.push cfg.capacity cfg.readers value).2)
    | .pop r => (.popped (.ok (q.pop r).1), (q.pop r).2)

/-- The call of a push at `pc`. While scanning, it is decided once a cursor has lagged by the
capacity. -/
def pushStatus (cfg : Config) : PushPc α → Status (Op α) (Answer α)
  | .idle | .panicked => .idle
  | .loadWriteIdx v | .loadNumReaders v _ | .writeSlot v _ | .publish v _ => .called (.push v)
  | .scan v w _ _ minRead =>
      if w < minRead + cfg.capacity then .called (.push v) else .done (.pushed false)
  | .bumpTotal => .done (.pushed true)
  | .done b => .done (.pushed b)

/-- The call of a pop of reader `r` at `pc`, with its cursor at `c`. -/
def popStatus (r c : ℕ) : PopPc α → Status (Op α) (Answer α)
  | .idle => .idle
  | .checkReader | .checkGate | .loadWriteIdx | .readSlot _ | .advance _ _ => .called (.pop r)
  | .loadReadIdx w => if c = w then .done (.popped (.ok none)) else .called (.pop r)
  | .done res => .done (.popped res)

/-- Where the call of a party is. -/
def absStatus (cfg : Config) (s : State α) : Party → Status (Op α) (Answer α)
  | .producer => pushStatus cfg s.push
  | .reader r => popStatus r (s.cursor r) (s.pop r)

/-- The queue and the calls in progress, read off a state. -/
def abs (cfg : Config) (s : State α) : Conf (Queue α) Party (Op α) (Answer α) :=
  ⟨⟨s.stream, s.cursor⟩, absStatus cfg s⟩

/-- Loads return the newest value, and nothing else happens. -/
def Mode.seq : Mode := ⟨True, False, fun _ => False⟩

theorem honest_seq {r : ℕ} (hr : r < cfg.readers) : Honest cfg .seq r := ⟨hr, id⟩

section Abs

variable {s t : State α}

/-- A step of the producer that leaves the cursors alone moves only its own call. -/
theorem abs_of_push (hcur : t.cursor = s.cursor) (hpop : t.pop = s.pop) :
    abs cfg t = (abs cfg s).move ⟨t.stream, s.cursor⟩ .producer (pushStatus cfg t.push) := by
  unfold abs Conf.move
  rw [hcur]
  congr 1
  funext p
  cases p with
  | producer => rw [Function.update_self]; rfl
  | reader r =>
      rw [Function.update_of_ne (by simp)]
      simp only [absStatus, hcur, hpop]

/-- A step of reader `r` that leaves the other cursors alone moves only its own call. -/
theorem abs_of_pop {r : ℕ} (hcur : ∀ q, q ≠ r → t.cursor q = s.cursor q)
    (hpop : ∀ q, q ≠ r → t.pop q = s.pop q) (hpush : t.push = s.push) :
    abs cfg t = (abs cfg s).move ⟨t.stream, t.cursor⟩ (.reader r)
      (popStatus r (t.cursor r) (t.pop r)) := by
  unfold abs Conf.move
  congr 1
  funext p
  cases p with
  | producer =>
      rw [Function.update_of_ne (by simp)]
      simp only [absStatus, hpush]
  | reader q =>
      by_cases hqr : q = r
      · subst hqr
        rw [Function.update_self]
        rfl
      · rw [Function.update_of_ne (by simp [hqr])]
        simp only [absStatus, hcur q hqr, hpop q hqr]

theorem abs_set_push (pc : PushPc α) : abs cfg { s with push := pc } =
    (abs cfg s).move (abs cfg s).obj .producer (pushStatus cfg pc) := abs_of_push rfl rfl

theorem abs_set_pop (r : ℕ) (pc : PopPc α) :
    abs cfg { s with pop := Function.update s.pop r pc } =
      (abs cfg s).move (abs cfg s).obj (.reader r) (popStatus r (s.cursor r) pc) := by
  have h : abs cfg { s with pop := Function.update s.pop r pc } = _ :=
    abs_of_pop (s := s) (fun _ _ => rfl) (fun q hqr => Function.update_of_ne hqr _ _) rfl
  simp only [Function.update_self] at h
  exact h

end Abs

/-! ## The producer -/

theorem pushStatus_scanFrom {v : α} {w n i minRead : ℕ} (hmin : minRead ≤ w ∨ i < n)
    (hw : w < u64Size) : pushStatus cfg (.scanFrom cfg v w n i minRead) =
      if w < minRead + cfg.capacity then .called (.push v) else .done (.pushed false) := by
  unfold PushPc.scanFrom
  by_cases hi : i < n
  · rw [if_pos hi]
    rfl
  · have hle : minRead ≤ w := hmin.resolve_right hi
    have hcap := cfg.capacity_pos
    rw [if_neg hi, wrappingSub_eq hle hw]
    split_ifs with h1 h2 h2
    · omega
    · rfl
    · rfl
    · omega

section Push

variable {s : State α} {m : Memory Loc α} {vw : View Loc} {pc : PushPc α}

/-- What the queue does at an access of the producer: nothing, or the effect of the push. -/
theorem push_effect (h : Inv cfg .seq s) (hlen : s.stream.length < u64Size)
    (hacc : Access True s.mem (s.view .producer) (pushCode cfg s.push) m vw pc) :
    (s.push.publishes = [] ∧ pushStatus cfg pc = pushStatus cfg s.push) ∨
    ∃ v b, pushStatus cfg s.push = .called (.push v) ∧ pushStatus cfg pc = .done (.pushed b) ∧
      (Queue.mk s.stream s.cursor).push cfg.capacity cfg.readers v =
        (b, ⟨s.stream ++ s.push.publishes, s.cursor⟩) := by
  have hcap := cfg.capacity_pos
  have hok := h.push
  cases hpc : s.push with
  | loadWriteIdx v =>
      rw [hpc] at hacc
      cases hacc with
      | load _ => exact .inl ⟨rfl, rfl⟩
  | loadNumReaders v w =>
      rw [hpc] at hacc hok
      cases hacc with
      | load hs =>
          obtain rfl : w = s.stream.length := hok
          have hmax : s.stream.length ≤ u64Max := Nat.le_pred_of_lt hlen
          refine .inl ⟨rfl, ?_⟩
          dsimp only
          rw [hs.const h.numReaders, if_pos cfg.readers_le,
            pushStatus_scanFrom (.inr cfg.readers_pos) hlen,
            if_pos (hmax.trans_lt (Nat.lt_add_of_pos_right hcap))]
          rfl
  | scan v w n i minRead =>
      rw [hpc] at hacc hok
      obtain ⟨rfl, rfl, hi, hmin⟩ := hok
      cases hacc with
      | @load _ _ _ c hs =>
          -- the cursor just read is the current one, so a lag seen now is a lag now
          have hc : c = s.cursor i := hs.now trivial
          have hle : c ≤ s.stream.length := hc ▸ (h.reader i (honest_seq hi)).cursor_le
          have hscan : pushStatus cfg (.scanFrom cfg v _ cfg.readers (i + 1) (min minRead c)) = _ :=
            pushStatus_scanFrom (.inl ((Nat.min_le_right minRead c).trans hle)) hlen
          by_cases hlag : s.stream.length < minRead + cfg.capacity
          · by_cases hlag' : s.stream.length < c + cfg.capacity
            · refine .inl ⟨rfl, hscan.trans ?_⟩
              rw [if_pos (by omega), pushStatus, if_pos hlag]
            · refine .inr ⟨v, false, if_pos hlag, hscan.trans (if_neg (by omega)), ?_⟩
              have hfull : s.cursor i + cfg.capacity ≤ s.stream.length := by omega
              simp only [PushPc.publishes, List.append_nil]
              exact Queue.push_of_full hcap hi hfull
          · refine .inl ⟨rfl, hscan.trans ?_⟩
            rw [if_neg (by omega), pushStatus, if_neg hlag]
  | writeSlot v w =>
      rw [hpc] at hacc
      cases hacc
      exact .inl ⟨rfl, rfl⟩
  | publish v w =>
      rw [hpc] at hacc hok
      obtain ⟨rfl, hroom, -⟩ := hok
      cases hacc
      exact .inr ⟨v, true, rfl, rfl,
        Queue.push_of_room hcap cfg.readers_pos fun r hr => hroom r hr (honest_seq hr)⟩
  | bumpTotal =>
      rw [hpc] at hacc
      cases hacc
      exact .inl ⟨rfl, rfl⟩
  | idle | done _ | panicked => rw [hpc] at hacc; cases hacc

/-- **An access of the producer** leaves the abstract state alone or is its effect. -/
theorem abs_step_push (h : Inv cfg .seq s) (hlen : s.stream.length < u64Size)
    (hacc : Access True s.mem (s.view .producer) (pushCode cfg s.push) m vw pc) :
    abs cfg (s.pushStep m vw pc) = abs cfg s ∨
      Atomic.Step (broadcast cfg) (abs cfg s) none (abs cfg (s.pushStep m vw pc)) := by
  have hcur : (s.pushStep m vw pc).cursor = s.cursor :=
    funext fun r => congrArg Cell.now (push_word hacc (by simp) (by simp))
  rw [abs_of_push hcur rfl]
  rcases push_effect h hlen hacc with ⟨hpub, hst⟩ | ⟨v, b, hcalled, hdone, hpush⟩
  · left
    rw [State.pushStep, hpub, List.append_nil]
    exact Conf.move_self hst.symm
  · right
    change Atomic.Step _ _ _ (Conf.move _ _ _ (pushStatus cfg pc))
    rw [hdone]
    refine Step.takes_effect hcalled ?_
    change (Answer.pushed (Queue.push _ _ (Queue.mk s.stream s.cursor) v).1,
      (Queue.push _ _ (Queue.mk s.stream s.cursor) v).2) = _
    rw [hpush]
    rfl

end Push

/-! ## The readers -/

section Pop

variable {s : State α} {m : Memory Loc α} {vw : View Loc} {pc : PopPc α} {r : ℕ}

/-- What the queue does at an access of a reader: nothing, or the effect of the pop. -/
theorem pop_effect (h : Inv cfg .seq s) (hr : r < cfg.readers) (hlen : s.stream.length < u64Size)
    (hacc : Access True s.mem (s.view (.reader r)) (popCode cfg r (s.pop r)) m vw pc) :
    (m.now (.readIdx r) = s.cursor r ∧
      popStatus r (m.now (.readIdx r)) pc = popStatus r (s.cursor r) (s.pop r)) ∨
    ∃ v, popStatus r (s.cursor r) (s.pop r) = .called (.pop r) ∧
      popStatus r (m.now (.readIdx r)) pc = .done (.popped (.ok v)) ∧
      (Queue.mk s.stream s.cursor).pop r =
        (v, ⟨s.stream, Function.update s.cursor r (m.now (.readIdx r))⟩) := by
  have hr' := h.reader r (honest_seq hr)
  have hok := hr'.pop
  cases hpc : s.pop r with
  | checkReader =>
      rw [hpc] at hacc
      cases hacc with
      | load hs =>
          dsimp only
          rw [hs.const h.numReaders, if_neg (Nat.not_le.mpr hr)]
          exact .inl ⟨rfl, rfl⟩
  | checkGate =>
      rw [hpc] at hacc
      cases hacc with
      | load hs =>
          dsimp only
          rw [hs.const (h.gate r), if_neg (not_not.mpr rfl)]
          exact .inl ⟨rfl, rfl⟩
  | loadWriteIdx =>
      rw [hpc] at hacc
      cases hacc with
      | @load _ _ _ w hs =>
          have hw : w = s.stream.length :=
            (hs.now trivial).trans (congrArg Cell.now h.writeIdx)
          subst hw
          change (_ ∧ (if s.cursor r = _ then _ else _) = _) ∨
            ∃ v, _ ∧ (if s.cursor r = _ then _ else _) = _ ∧ _
          -- caught up: the pop is decided here, before it looks at its own cursor
          split_ifs with heq
          · refine .inr ⟨none, rfl, rfl, ?_⟩
            have hsame : Function.update s.cursor r (s.mem.now (.readIdx r)) = s.cursor :=
              Function.update_eq_self _ _
            rw [Queue.pop_none heq.ge, hsame]
          · exact .inl ⟨rfl, rfl⟩
  | loadReadIdx w =>
      rw [hpc] at hacc hok
      cases hacc with
      | @load _ _ _ c hs =>
          have hc : c = s.cursor r := hs.now trivial
          subst hc
          refine .inl ⟨rfl, ?_⟩
          change popStatus r (s.cursor r) (if s.cursor r = w then _ else _) = if s.cursor r = w then _ else _
          split_ifs with heq
          · rfl
          · rfl
  | readSlot c =>
      rw [hpc] at hacc
      cases hacc
      exact .inl ⟨rfl, rfl⟩
  | advance c v =>
      rw [hpc] at hacc hok
      obtain ⟨rfl, hlt, hv⟩ := hok
      have hbound := (List.getElem?_eq_some_iff.mp hv).1
      cases hacc
      refine .inr ⟨some v, rfl, rfl, ?_⟩
      rw [Memory.store_now_self, wrappingAdd_eq (by omega)]
      exact Queue.pop_some hv
  | idle | done _ => rw [hpc] at hacc; cases hacc

/-- **An access of a reader** leaves the abstract state alone or is its effect. -/
theorem abs_step_pop (h : Inv cfg .seq s) (hr : r < cfg.readers) (hlen : s.stream.length < u64Size)
    (hacc : Access True s.mem (s.view (.reader r)) (popCode cfg r (s.pop r)) m vw pc) :
    abs cfg (s.popStep m vw r pc) = abs cfg s ∨
      Atomic.Step (broadcast cfg) (abs cfg s) none (abs cfg (s.popStep m vw r pc)) := by
  have hcur : (s.popStep m vw r pc).cursor = Function.update s.cursor r (m.now (.readIdx r)) := by
    funext q
    by_cases hqr : q = r
    · subst hqr
      rw [Function.update_self]
      rfl
    · rw [Function.update_of_ne hqr]
      exact congrArg Cell.now (pop_word hacc (by simp [hqr]))
  rw [abs_of_pop (fun q hqr => by rw [hcur, Function.update_of_ne hqr])
    (fun q hqr => State.popStep_pop_ne hqr) rfl, State.popStep_pop, hcur, Function.update_self]
  rcases pop_effect h hr hlen hacc with ⟨hsame, hst⟩ | ⟨v, hcalled, hdone, hpop⟩
  · left
    rw [hst, hsame, Function.update_eq_self]
    exact Conf.move_self rfl
  · right
    rw [hdone]
    refine Step.takes_effect hcalled ?_
    change (Answer.popped (.ok (Queue.pop (Queue.mk s.stream s.cursor) r).1),
      (Queue.pop (Queue.mk s.stream s.cursor) r).2) = _
    rw [hpop]
    rfl

end Pop

/-! ## Linearizability -/

/-- **Every step is matched** by at most one step of the atomic queue. -/
theorem abs_step {s t : State α} {e : Option (Event Party (Op α) (Answer α))} (h : Inv cfg .seq s)
    (hlen : s.stream.length < u64Size) (hst : Step cfg .seq s e t) :
    ∃ es, Run (atomic (broadcast cfg)) (abs cfg s) es (abs cfg t) ∧ visible es = e.toList := by
  cases hst with
  | callPush value hidle =>
      have hstat : (abs cfg s).status .producer = .idle := by
        change pushStatus cfg s.push = _
        rw [hidle]
        rfl
      rw [abs_set_push (.loadWriteIdx value)]
      exact ⟨[some _], .single (.call (Op.push value) hstat), rfl⟩
  | push hacc => exact run_of_quiet (abs_step_push h hlen hacc)
  | @retPush b hdone =>
      have hstat : (abs cfg s).status .producer = .done (.pushed b) := by
        change pushStatus cfg s.push = _
        rw [hdone]
        rfl
      rw [abs_set_push .idle]
      exact ⟨[some _], .single (.ret hstat), rfl⟩
  | @callPop r hr hidle =>
      have hstat : (abs cfg s).status (.reader r) = .idle := by
        change popStatus r (s.cursor r) (s.pop r) = _
        rw [hidle]
        rfl
      rw [abs_set_pop r .checkReader]
      exact ⟨[some _], .single (.call (Op.pop r) hstat), rfl⟩
  | @pop r m vw pc hacc =>
      have hr : r < cfg.readers := by
        by_contra hge
        rw [h.idle r (Nat.not_lt.mp hge)] at hacc
        cases hacc
      exact run_of_quiet (abs_step_pop h hr hlen hacc)
  | @retPop r res hdone =>
      have hstat : (abs cfg s).status (.reader r) = .done (.popped res) := by
        change popStatus r (s.cursor r) (s.pop r) = _
        rw [hdone]
        rfl
      rw [abs_set_pop r .idle]
      exact ⟨[some _], .single (.ret hstat), rfl⟩
  | replacePush hno => exact hno.elim
  | replacePop _ hno => exact hno.elim
  | poke _ _ hno _ => exact hno.elim

/-- **The ring is linearizable**: the calls and returns of a run with fewer than `2 ^ 64` messages
are those of the broadcast queue with every call at one instant. -/
theorem ring_linearizable {s t : State α} {es : List (Option (Event Party (Op α) (Answer α)))}
    (hinit : (machine cfg .seq).init s) (hrun : Run (machine cfg .seq) s es t)
    (hlen : t.stream.length < u64Size) : Linearizable (broadcast cfg) (visible es) := by
  have hstart : ∀ s : State α, (machine cfg .seq).init s →
      Conf.start (broadcast cfg) = abs cfg s := by
    rintro s ⟨data, rfl⟩
    have hstat : absStatus cfg (State.fresh cfg data) = fun _ => .idle := by
      funext p
      cases p <;> rfl
    rw [abs, hstat]
    rfl
  have hmatch : ∀ (s : State α) e t c, Reachable (machine cfg .seq) s → c = abs cfg s → Step cfg .seq s e t →
      t.stream.length < u64Size →
      ∃ es c', Run (atomic (broadcast cfg)) c es c' ∧ visible es = e.toList ∧
        c' = abs cfg t := by
    rintro s e t c hreach rfl hst hlt
    have hlen' : s.stream.length < u64Size := (length_stream_le hst).trans_lt hlt
    have hinv := reachable_inv ⟨0, honest_seq cfg.readers_pos⟩ hreach hlen'
    obtain ⟨fs, hfs, hvis⟩ := abs_step hinv hlen' hst
    exact ⟨fs, _, hfs, hvis, rfl⟩
  obtain ⟨fs, c, hfs, hvis, -⟩ := linearizable_of_simulation (R := fun s c => c = abs cfg s)
    (fun s => s.stream.length < u64Size) hstart
    (fun s e t hst hlt => (length_stream_le hst).trans_lt hlt) hmatch hinit hrun hlen
  exact ⟨fs, c, hfs, hvis⟩

/-- A pop that looks before the publish returns `None`, and a push that looks before the next pop is refused. -/
theorem overlap_linearizable : Linearizable (broadcast oneSlot)
    [.call (.reader 0) (.pop 0), .call .producer (.push 7), .ret .producer (.pushed true),
      .ret (.reader 0) (.popped (.ok none)), .call (.reader 0) (.pop 0), .call .producer (.push 8),
      .ret (.reader 0) (.popped (.ok (some 7))), .ret .producer (.pushed false)] := by
  have hplay : (trace (State.turn oneSlot) (List.flatten [[.pop 0, .push 7], List.replicate 3 (.on (.reader 0)),
      List.replicate 7 (.on .producer), List.replicate 2 (.on (.reader 0)), [.pop 0, .push 8],
      List.replicate 3 (.on .producer), List.replicate 7 (.on (.reader 0)), [.on .producer]])
      (State.fresh oneSlot fun _ => 0)).map (fun x => (visible x.1, x.2.stream)) =
      some ([.call (.reader 0) (.pop 0), .call .producer (.push 7), .ret .producer (.pushed true),
        .ret (.reader 0) (.popped (.ok none)), .call (.reader 0) (.pop 0), .call .producer (.push 8),
        .ret (.reader 0) (.popped (.ok (some 7))), .ret .producer (.pushed false)], [7]) := rfl
  obtain ⟨⟨es, t⟩, ht, heq⟩ := Option.map_eq_some_iff.mp hplay
  obtain ⟨hvis, hstream⟩ := Prod.mk.inj heq
  have hrun : Run (machine oneSlot .seq) (State.fresh oneSlot fun _ => 0) es t :=
    (run_of_traced (current_fresh _) ht).1
  have h := ring_linearizable ⟨_, rfl⟩ hrun (by rw [hstream]; decide)
  rwa [hvis] at h

end ShmRings.Threads
