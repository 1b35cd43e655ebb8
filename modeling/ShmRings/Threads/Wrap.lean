import ShmRings.Threads.Rounds
import ShmRings.Threads.Solo

/-!
# The indices wrap

In a release build the indices are counted modulo `2 ^ 64`. When `write_idx` and one cursor have wrapped
and another cursor has not, the minimum of the cursors is ahead of the one that lags, and a push
overwrites a message its reader has not read.

* `push_alone`, `pop_alone`: a call alone is a run;
* `Rest`: a ring at rest; **`rest_push`**, **`rest_pop`**: a push and its signals, and a `pop_blocking`, alone;
* `rest_after`: the first `2 ^ 64 - 1` messages; **`counter_wraps`**.
-/

set_option autoImplicit false

namespace ShmRings.Threads

open Coherent Transition Atomic

variable {α : Type} {cfg : Config}

/-! ## A call alone -/

section Alone

variable {s : State α} {m m' : Memory Loc α} {vw : View Loc}

/-- The message of a push that is to be published. -/
def PushPc.message : PushPc α → List α
  | .loadWriteIdx value | .loadNumReaders value _ | .scan value _ _ _ _ | .writeSlot value _
  | .publish value _ => [value]
  | .idle | .bumpTotal | .done _ | .panicked => []

theorem message_scanFrom {value : α} {w n i minRead : ℕ} :
    PushPc.scanFrom cfg value w n i minRead = .done false ∨
      (PushPc.scanFrom cfg value w n i minRead).message = [value] := by
  unfold PushPc.scanFrom
  split_ifs
  · exact .inr rfl
  · exact .inl rfl
  · exact .inr rfl

/-- An access that does not give up publishes the message or keeps it. -/
theorem message_exec {pc pc' : PushPc α} (h : (pushCode cfg pc).exec m = some (m', pc')) :
    pc' = .done false ∨ pc' = .panicked ∨ pc.publishes ++ pc'.message = pc.message := by
  cases pc with
  | loadNumReaders value w =>
      cases h
      dsimp only
      split_ifs
      · rcases @message_scanFrom _ cfg value w (m.now .numReaders) 0 u64Max with heq | heq
        · exact .inl heq
        · exact .inr (.inr heq)
      · exact .inr (.inl rfl)
  | scan value w n i minRead =>
      cases h
      rcases @message_scanFrom _ cfg value w n (i + 1) (min minRead (m.now (.readIdx i))) with heq | heq
      · exact .inl heq
      · exact .inr (.inr heq)
  | loadWriteIdx _ | writeSlot _ _ | publish _ _ | bumpTotal =>
      cases h
      exact .inr (.inr rfl)
  | idle | done _ | panicked => cases h

theorem Solo.of_halt {L : Type} {code : L → Instr Loc α L} {l l' : L} (hl : code l = .halt)
    (h : Solo code m l m' l') : l' = l := by
  cases h with
  | refl => rfl
  | step hexec _ =>
      rw [hl] at hexec
      cases hexec

/-- **A push alone is a run** of the machine. -/
theorem push_alone {pc pc' : PushPc α} (h : Solo (pushCode cfg) m pc m' pc') (hdone : pc' = .done true)
    (hm : s.mem = m) (hpc : s.push = pc) (hs : Current s) : ∃ k t,
      Run (machine cfg .seq) s (List.replicate k none) t ∧ Current t ∧ t.mem = m' ∧ t.push = pc' ∧
        t.pop = s.pop ∧ t.stream = s.stream ++ pc.message := by
  induction h generalizing s with
  | refl =>
      subst hdone
      exact ⟨0, s, .nil, hs, hm, hpc, rfl, (List.append_nil _).symm⟩
  | @step m₁ m₂ m₃ l₁ l₂ l₃ hexec hsolo ih =>
      subst hm hpc hdone
      have hacc : Access True s.mem (s.view .producer) (pushCode cfg s.push) m₂ _ l₂ :=
        access_of_exec hexec (hs .producer)
      obtain ⟨k, t, hrun, ht, hmem, hpush, hpop, hstream⟩ := ih rfl rfl rfl (hs.push hacc)
      have hfirst : Run (machine cfg .seq) s [none] (s.pushStep m₂ _ l₂) := .single (.push hacc)
      refine ⟨k + 1, t, hfirst.append hrun, ht, hmem, hpush, hpop, ?_⟩
      rcases message_exec hexec with rfl | rfl | hmsg
      · cases Solo.of_halt rfl hsolo
      · cases Solo.of_halt rfl hsolo
      · rw [hstream, ← hmsg, ← List.append_assoc]
        rfl

/-- **A pop alone is a run** of the machine. -/
theorem pop_alone {r : ℕ} {pc pc' : PopPc α} (h : Solo (popCode cfg r) m pc m' pc')
    (hm : s.mem = m) (hpc : s.pop r = pc) (hs : Current s) : ∃ k t,
      Run (machine cfg .seq) s (List.replicate k none) t ∧ Current t ∧ t.mem = m' ∧ t.push = s.push ∧
        t.pop r = pc' ∧ (∀ q, q ≠ r → t.pop q = s.pop q) ∧ t.stream = s.stream := by
  induction h generalizing s with
  | refl => exact ⟨0, s, .nil, hs, hm, rfl, hpc, fun _ _ => rfl, rfl⟩
  | @step m₁ m₂ m₃ l₁ l₂ l₃ hexec hsolo ih =>
      subst hm hpc
      have hacc : Access True s.mem (s.view (.reader r)) (popCode cfg r (s.pop r)) m₂ _ l₂ :=
        access_of_exec hexec (hs (.reader r))
      obtain ⟨k, t, hrun, ht, hmem, hpush, hpop, hothers, hstream⟩ :=
        ih rfl State.popStep_pop (hs.pop hacc)
      have hfirst : Run (machine cfg .seq) s [none] (s.popStep m₂ _ r l₂) := .single (.pop hacc)
      refine ⟨k + 1, t, hfirst.append hrun, ht, hmem, hpush, hpop, fun q hq => ?_, hstream⟩
      rw [hothers q hq, State.popStep_pop_ne hq]

end Alone

/-! ## A round alone -/

section Labels

variable {r : ℕ}

theorem popped_append (es fs : List (Option (Event Party (Op α) (Answer α)))) :
    popped r (es ++ fs) = popped r es ++ popped r fs := List.flatMap_append

theorem onRing_append (es fs : List (RoundStep α)) : onRing (es ++ fs) = onRing es ++ onRing fs :=
  List.filterMap_append

theorem popped_silent (k : ℕ) :
    popped r (onRing ((List.replicate k none).map RoundStep.ring) : List _) = ([] : List α) := by
  simp [popped, given, onRing]

end Labels

variable {s t : RoundsState α}

/-- The steps of the ring alone are steps beside the eventfds. -/
theorem silent_run {u : State α} {k : ℕ} (h : Run (machine cfg .seq) s.ring (List.replicate k none) u) :
    Run (rounds cfg) s ((List.replicate k none).map .ring) { s with ring := u } := by
  induction k generalizing u with
  | zero =>
      rw [h.of_nil]
      exact .nil
  | succ k ih =>
      rw [List.replicate_succ'] at h ⊢
      obtain ⟨v, hv, hlast⟩ := h.split
      rw [List.map_append]
      exact (ih hv).snoc (.ring (s := { s with ring := v }) hlast.of_singleton trivial)

/-- The producer signals all the eventfds. -/
theorem signal_all {k : ℕ} (hs : s.todo = fun r => decide (r < k)) : ∃ es counter,
    Run (rounds cfg) s es { s with todo := fun _ => false, counter := counter } ∧ onRing es = [] := by
  induction k generalizing s with
  | zero =>
      obtain ⟨ring, todo, counter, phase⟩ := s
      obtain rfl : todo = fun _ => false := by simpa using hs
      exact ⟨[], counter, .nil, rfl⟩
  | succ k ih =>
      have htodo : s.todo k = true := by
        rw [hs]
        exact decide_eq_true (Nat.lt_succ_self k)
      have hnext : Function.update s.todo k false = fun r => decide (r < k) := by
        funext r
        rw [hs, Function.update_apply]
        split_ifs with hr
        · simp [hr]
        · exact decide_eq_decide.mpr (by omega)
      obtain ⟨es, counter, hrun, hlabels⟩ := ih (s := { s with
        todo := Function.update s.todo k false
        counter := Function.update s.counter k (signalled (s.counter k)) }) hnext
      exact ⟨.signal k :: es, counter, (Run.single (Rounds.signal k htodo)).append hrun, hlabels⟩

/-- A ring at rest: `write_idx` is `w`, the cursors `c`, the slots hold `data`, and `xs` is published. -/
structure Rest (cfg : Config) (s : RoundsState α) (w : ℕ) (c : ℕ → ℕ) (data : ℕ → α) (xs : List α) :
    Prop where
  current : Current s.ring
  push : s.ring.push = .idle
  pop : ∀ r, s.ring.pop r = .idle
  todo : ∀ r, s.todo r = false
  phase : ∀ r, s.phase r = .outside
  numReaders : s.ring.mem.now .numReaders = cfg.readers
  gate : ∀ r, s.ring.mem.now (.loanDepth r) = 0
  writeIdx : s.ring.mem.now .writeIdx = w
  cursor : ∀ r, s.ring.mem.now (.readIdx r) = c r
  data : s.ring.mem.data = data
  stream : s.ring.stream = xs

section Rest

variable {w : ℕ} {c : ℕ → ℕ} {data : ℕ → α} {xs : List α}

/-- **A push with room, and its signals.** -/
theorem rest_push (h : Rest cfg s w c data xs) (hroom : wrappingSub w (slowest c cfg.readers) < cfg.capacity)
    (value : α) : ∃ es t, Run (rounds cfg) s es t ∧
      Rest cfg t (wrappingAdd w 1) c (Function.update data (cfg.slot w) value) (xs ++ [value]) ∧
      ∀ r, popped r (onRing es) = [] := by
  have hcall : Rounds cfg s (.ring (some (.call .producer (.push value))))
      { s with ring := { s.ring with push := .loadWriteIdx value } } := .ring (.callPush value h.push) h.todo
  have hroom' : wrappingSub (s.ring.mem.now .writeIdx) (slowest (fun r => s.ring.mem.now (.readIdx r))
      (s.ring.mem.now .numReaders)) < cfg.capacity := by
    rw [h.writeIdx, h.numReaders, funext h.cursor]
    exact hroom
  obtain ⟨k, u, hrun, hcur, hmem, hpush, hpop, hstream⟩ := push_alone
    (s := { s.ring with push := .loadWriteIdx value })
    (solo_publish (by rw [h.numReaders]; exact cfg.readers_le) hroom') rfl rfl rfl h.current
  have hsilent : Run (rounds cfg) { s with ring := { s.ring with push := .loadWriteIdx value } } _
      { s with ring := u } := silent_run hrun
  have hret : Rounds cfg { s with ring := u } (.ring (some (.ret .producer (.pushed true))))
      { s with ring := { u with push := .idle }, todo := fun r => decide (r < cfg.readers) } :=
    .ring (.retPush hpush) trivial
  obtain ⟨fs, counter, hsignals, hlabels⟩ := @signal_all _ cfg
    { s with ring := { u with push := .idle }, todo := fun r => decide (r < cfg.readers) } _ rfl
  refine ⟨_, _, (((Run.single hcall).append hsilent).snoc hret).append hsignals, ?_, fun r => ?_⟩
  · constructor
    · exact hcur
    · rfl
    · exact fun r => (congrFun hpop r).trans (h.pop r)
    · exact fun _ => rfl
    · exact h.phase
    · simp [hmem, Memory.store_now, h.numReaders]
    · simp [hmem, Memory.store_now, h.gate]
    · simp [hmem, Memory.store_now, h.writeIdx]
    · simp [hmem, Memory.store_now, h.cursor]
    · simp [hmem, h.writeIdx, h.data]
    · simp [hstream, PushPc.message, h.stream]
  · simp only [onRing_append, popped_append, popped_silent, hlabels]
    rfl

/-- **A `pop_blocking` that finds a message.** -/
theorem rest_pop (h : Rest cfg s w c data xs) {r : ℕ} (hr : r < cfg.readers) (hne : c r ≠ w) : ∃ es t,
    Run (rounds cfg) s es t ∧ Rest cfg t w (Function.update c r (wrappingAdd (c r) 1)) data xs ∧
      popped r (onRing es) = [data (cfg.slot (c r))] ∧ ∀ q, q ≠ r → popped q (onRing es) = [] := by
  have hstart : Rounds cfg s (.popBlocking r) (s.goto r .check) := .popBlocking r hr (h.phase r)
  have hcall : Rounds cfg (s.goto r .check) (.ring (some (.call (.reader r) (.pop r))))
      { (s.goto r .check).goto r .popping with
        ring := { s.ring with pop := Function.update s.ring.pop r .checkReader } } :=
    .ring (.callPop hr (h.pop r)) (Function.update_self _ _ _)
  obtain ⟨k, u, hrun, hcur, hmem, hpush, hpop, hothers, hstream⟩ := pop_alone
    (s := { s.ring with pop := Function.update s.ring.pop r .checkReader })
    (@solo_take _ cfg _ r (by rw [h.numReaders]; exact hr) (h.gate r)
      (by rw [h.cursor, h.writeIdx]; exact hne)) rfl (Function.update_self _ _ _) h.current
  have hsilent : Run (rounds cfg) { (s.goto r .check).goto r .popping with
        ring := { s.ring with pop := Function.update s.ring.pop r .checkReader } } _
      { (s.goto r .check).goto r .popping with ring := u } := silent_run hrun
  have hret : Rounds cfg { (s.goto r .check).goto r .popping with ring := u }
      (.ring (some (.ret (.reader r) (.popped (.ok (some
        (s.ring.mem.data (cfg.slot (s.ring.mem.now (.readIdx r))))))))))
      { ((s.goto r .check).goto r .popping).goto r .outside with
        ring := { u with pop := Function.update u.pop r .idle } } :=
    .ring (.retPop hpop) trivial
  refine ⟨_, _, (((Run.single hstart).snoc hcall).append hsilent).snoc hret, ?_, ?_, fun q hq => ?_⟩
  · constructor
    · exact hcur
    · exact hpush.trans h.push
    · intro q
      by_cases hq : q = r
      · subst hq
        exact Function.update_self _ _ _
      · simp [Function.update_of_ne hq, hothers q hq, h.pop]
    · exact h.todo
    · intro q
      by_cases hq : q = r
      · subst hq
        exact Function.update_self _ _ _
      · simp [RoundsState.goto, Function.update_of_ne hq, h.phase]
    · simp [hmem, Memory.store_now, h.numReaders]
    · simp [hmem, Memory.store_now, h.gate]
    · simp [hmem, Memory.store_now, h.writeIdx]
    · intro q
      simp [hmem, Memory.store_now, h.cursor, Function.update_apply]
    · simp [hmem, h.data]
    · exact hstream.trans h.stream
  · simp only [onRing_append, popped_append, popped_silent, h.data, h.cursor]
    simp [popped, onRing, given]
  · simp only [onRing_append, popped_append, popped_silent]
    simp [popped, onRing, given, Ne.symm hq]

end Rest

/-! ## Past the last index -/

theorem rest_untouched : Rest twoReaders (untouched twoReaders) 0 (fun _ => 0) (fun _ => 0) [] where
  current _ _ := Nat.zero_le _
  push := rfl
  pop _ := rfl
  todo _ := rfl
  phase _ := rfl
  numReaders := rfl
  gate _ := rfl
  writeIdx := rfl
  cursor _ := rfl
  data := rfl
  stream := rfl

theorem slowest_two (c : ℕ → ℕ) : slowest c 2 = min (min u64Max (c 0)) (c 1) := rfl

/-- With both readers caught up there is room. -/
theorem room_of_caught_up {n : ℕ} {c : ℕ → ℕ} (hn : n < u64Size) (h0 : c 0 = n) (h1 : c 1 = n) :
    wrappingSub n (slowest c twoReaders.readers) < twoReaders.capacity := by
  have hmax : n ≤ u64Max := Nat.le_pred_of_lt hn
  have hslow : slowest c twoReaders.readers = n := by
    change slowest c 2 = n
    rw [slowest_two, h0, h1, Nat.min_eq_right hmax, Nat.min_self]
  rw [hslow, wrappingSub_eq le_rfl hn, Nat.sub_self]
  decide

/-- After `n` messages that both readers have popped. -/
theorem rest_after {n : ℕ} (hn : n < u64Size) : ∃ es t c data, Run (rounds twoReaders) (untouched twoReaders) es t ∧
    Rest twoReaders t n c data (List.replicate n 0) ∧ c 0 = n ∧ c 1 = n ∧
      popped 1 (onRing es) = List.replicate n 0 := by
  induction n with
  | zero => exact ⟨[], untouched twoReaders, _, _, .nil, rest_untouched, rfl, rfl, rfl⟩
  | succ n ih =>
      obtain ⟨es, t, c, data, hrun, hrest, h0, h1, hpop⟩ := ih (Nat.lt_of_succ_lt hn)
      have hnext : wrappingAdd n 1 = n + 1 := wrappingAdd_eq hn
      obtain ⟨es₁, t₁, hrun₁, hrest₁, hpop₁⟩ := rest_push hrest (room_of_caught_up (by omega) h0 h1) 0
      rw [hnext] at hrest₁
      obtain ⟨es₂, t₂, hrun₂, hrest₂, -, hpop₂⟩ := rest_pop hrest₁ (r := 0) (by decide) (by omega)
      obtain ⟨es₃, t₃, hrun₃, hrest₃, hpop₃, -⟩ := rest_pop hrest₂ (r := 1) (by decide)
        (by rw [Function.update_of_ne Nat.one_ne_zero]; omega)
      rw [← List.replicate_succ'] at hrest₃
      refine ⟨_, t₃, _, _, ((hrun.append hrun₁).append hrun₂).append hrun₃, hrest₃, ?_, ?_, ?_⟩
      · simp [h0, hnext]
      · simp [h1, hnext]
      · rw [Function.update_of_ne Nat.one_ne_zero, h1, Function.update_self] at hpop₃
        simp only [onRing_append, popped_append, hpop, hpop₁, hpop₂ 1 Nat.one_ne_zero, hpop₃,
          List.append_nil, List.replicate_succ']

/-- After `2 ^ 64 - 1` messages, `write_idx` and the cursor of reader 0 wrap, and the producer overwrites the
message reader 1 is to get. -/
theorem counter_wraps : ∃ (s t : RoundsState ℕ) (es : List (RoundStep ℕ)), (rounds twoReaders).init s ∧
    Run (rounds twoReaders) s es t ∧ ¬ popped 1 (onRing es) <+: t.ring.stream := by
  obtain ⟨n, hn⟩ : ∃ n, n + 1 = u64Size := ⟨u64Max, rfl⟩
  obtain ⟨es, t, c, data, hrun, hrest, h0, h1, hpop⟩ := rest_after (n := n) (by omega)
  have hwrap : wrappingAdd n 1 = 0 := by
    rw [wrappingAdd, hn, Nat.mod_self]
  have hslot : twoReaders.slot n = 1 := by
    rw [twoReaders.slot_eq_mod]
    change n % 2 = 1
    have : n + 1 = 2 ^ 64 := hn
    omega
  obtain ⟨es₁, t₁, hrun₁, hrest₁, hpop₁⟩ := rest_push hrest (room_of_caught_up (by omega) h0 h1) 0
  rw [hwrap] at hrest₁
  have hne : c 0 ≠ 0 := by
    rw [h0]
    rintro rfl
    exact absurd hn (by decide)
  obtain ⟨es₂, t₂, hrun₂, hrest₂, -, hpop₂⟩ := rest_pop hrest₁ (r := 0) (by decide) hne
  rw [h0, hwrap] at hrest₂
  have hmin : slowest (Function.update c 0 0) 2 = 0 := by
    rw [slowest_two, Function.update_self, Nat.min_eq_right (Nat.zero_le _), Nat.zero_min]
  -- the cursor of reader 1 is at `n`, and the minimum is 0
  obtain ⟨es₃, t₃, hrun₃, hrest₃, hpop₃⟩ := rest_push hrest₂
    (by change wrappingSub 0 (slowest _ 2) < 2; rw [hmin]; decide) 0
  obtain ⟨es₄, t₄, hrun₄, hrest₄, hpop₄⟩ := rest_push hrest₃
    (by change wrappingSub (wrappingAdd 0 1) (slowest _ 2) < 2; rw [hmin]; decide) 7
  obtain ⟨es₅, t₅, hrun₅, hrest₅, hpop₅, -⟩ := rest_pop hrest₄ (r := 1) (by decide)
    (by
      rw [Function.update_of_ne Nat.one_ne_zero, h1]
      have hlast : wrappingAdd (wrappingAdd 0 1) 1 = 2 := by decide
      have : n + 1 = 2 ^ 64 := hn
      omega)
  have hslot' : twoReaders.slot (wrappingAdd 0 1) = 1 := by decide
  rw [Function.update_of_ne Nat.one_ne_zero, h1, hslot, hslot', Function.update_self] at hpop₅
  refine ⟨untouched twoReaders, t₅, _, untouched_init,
    ((((hrun.append hrun₁).append hrun₂).append hrun₃).append hrun₄).append hrun₅, fun hprefix => ?_⟩
  simp only [onRing_append, popped_append, hpop, hpop₁, hpop₂ 1 Nat.one_ne_zero, hpop₃, hpop₄, hpop₅,
    hrest₅.stream, List.append_assoc] at hprefix
  exact absurd ((List.prefix_append_right_inj _).mp hprefix) (by decide)

end ShmRings.Threads
