import ShmRings.Threads.Machine
import ShmRings.Threads.Producer

/-!
# No overwrite before the slowest honest read

The invariant of the push and pop system, in every mode: with stale loads, with replaced parties and
with rogue cursors. A reader is honest when it participates and nobody else moves its cursor; what
is said of a reader is said of the honest ones.

* `Honest`, `PopOk`, `ReaderInv`, `Inv`; `Inv.step`: every step keeps the invariant;
* **`reachable_inv`**: it holds in every reachable state with fewer than `2 ^ 64` messages, when some
  reader is honest;
* **`no_overwrite_before_slowest_read`**: the unread windows, the slot the producer writes and the
  values the readers return, with stale loads and replaced parties.
-/

set_option autoImplicit false

namespace ShmRings.Threads

open Coherent Transition Atomic

variable {α : Type} {cfg : Config} {md : Mode}

/-- A participating reader whose cursor nobody else moves. -/
def Honest (cfg : Config) (md : Mode) (r : ℕ) : Prop := r < cfg.readers ∧ ¬ md.rogue r

/-- What the local variables of a reader mean, when its cursor is `c` and it has seen `write_idx` at
`seen`. -/
def PopOk (c seen : ℕ) (xs : List α) : PopPc α → Prop
  | .loadReadIdx w => c ≤ w ∧ w ≤ seen
  | .readSlot c' => c' = c ∧ c < seen
  | .advance c' v => c' = c ∧ c < seen ∧ xs[c]? = some v
  | .done (.ok (some v)) => ∃ i, c = i + 1 ∧ xs[i]? = some v
  | .done (.error _) => False
  | _ => True

theorem PopOk.append {c seen : ℕ} {xs : List α} {pc : PopPc α} (h : PopOk c seen xs pc)
    (ys : List α) : PopOk c seen (xs ++ ys) pc := by
  have hget : ∀ i v, xs[i]? = some v → (xs ++ ys)[i]? = some v := fun i v hv => by
    rwa [List.getElem?_append_left (List.getElem?_eq_some_iff.mp hv).1]
  cases pc with
  | advance c' v => exact ⟨h.1, h.2.1, hget _ _ h.2.2⟩
  | done res =>
      rcases res with e | _ | v
      · exact h
      · trivial
      · obtain ⟨i, hc, hv⟩ := h
        exact ⟨i, hc, hget _ _ hv⟩
  | _ => exact h

/-- What holds of an honest reader. -/
structure ReaderInv (cfg : Config) (s : State α) (r : ℕ) : Prop where
  cell : s.mem.word (.readIdx r) = .counter (s.cursor r)
  lag : s.stream.length ≤ s.cursor r + cfg.capacity
  holds : Window.Holds cfg.capacity s.mem.data s.stream (s.cursor r)
  own : s.view (.reader r) (.readIdx r) = s.cursor r
  seen : s.cursor r ≤ s.view (.reader r) .writeIdx
  seen_le : s.view (.reader r) .writeIdx ≤ s.stream.length
  pop : PopOk (s.cursor r) (s.view (.reader r) .writeIdx) s.stream (s.pop r)

/-- The invariant. -/
structure Inv (cfg : Config) (md : Mode) (s : State α) : Prop where
  numReaders : s.mem.word .numReaders = .const cfg.readers
  gate : ∀ r, s.mem.word (.loanDepth r) = .const 0
  idle : ∀ r, cfg.readers ≤ r → s.pop r = .idle
  writeIdx : s.mem.word .writeIdx = .counter s.stream.length
  own : s.view .producer .writeIdx = s.stream.length
  push : PushOk cfg (Honest cfg md) s.cursor s.mem.data s.stream.length s.push
  reader : ∀ r, Honest cfg md r → ReaderInv cfg s r

theorem ReaderInv.cursor_le {s : State α} {r : ℕ} (h : ReaderInv cfg s r) :
    s.cursor r ≤ s.stream.length := h.seen.trans h.seen_le

/-- A reader does not notice a step that leaves its words, the slots and what it has seen alone. -/
theorem ReaderInv.frame {s t : State α} {r : ℕ} (h : ReaderInv cfg s r)
    (hcell : t.mem.word (.readIdx r) = s.mem.word (.readIdx r)) (hdata : t.mem.data = s.mem.data)
    (hstream : t.stream = s.stream) (hview : t.view (.reader r) = s.view (.reader r))
    (hpop : PopOk (s.cursor r) (s.view (.reader r) .writeIdx) s.stream (t.pop r)) :
    ReaderInv cfg t r := by
  have hcur : t.cursor r = s.cursor r := congrArg Cell.now hcell
  constructor <;> simp only [hcell, hdata, hstream, hview, hcur]
  · exact h.cell
  · exact h.lag
  · exact h.holds
  · exact h.own
  · exact h.seen
  · exact h.seen_le
  · exact hpop

theorem inv_fresh (cfg : Config) (md : Mode) (data : ℕ → α) : Inv cfg md (State.fresh cfg data) where
  numReaders := rfl
  gate _ := rfl
  idle _ _ := rfl
  writeIdx := rfl
  own := rfl
  push := trivial
  reader _ _ :=
    { cell := rfl
      lag := Nat.zero_le _
      holds := Window.holds_of_length_le (Nat.zero_le _)
      own := rfl
      seen := Nat.zero_le _
      seen_le := Nat.zero_le _
      pop := trivial }

/-! ## Steps of the producer -/

/-- **A step of the producer keeps the invariant**, when an honest reader holds the producer back. -/
theorem Inv.step_push {s : State α} {m : Memory Loc α} {vw : View Loc} {pc : PushPc α}
    (h : Inv cfg md s) (hhon : ∃ r, Honest cfg md r)
    (hacc : Access md.sc s.mem (s.view .producer) (pushCode cfg s.push) m vw pc)
    (hlen : (s.stream ++ s.push.publishes).length < u64Size) :
    Inv cfg md (s.pushStep m vw pc) := by
  rw [List.length_append] at hlen
  have hcells : ∀ r, m.word (.readIdx r) = s.mem.word (.readIdx r) :=
    fun r => push_word hacc (by simp) (by simp)
  have hcur : (s.pushStep m vw pc).cursor = s.cursor :=
    funext fun r => congrArg Cell.now (hcells r)
  obtain ⟨hw, hvw⟩ := h.push.counter hacc h.writeIdx h.own hlen
  have hnext := h.push.step hacc (by omega) (fun i v hs => ?_) (fun i v hs => hs.const h.numReaders)
    (fun r i v hr hs => (hs.counter (h.reader r hr).cell).2.2)
    (hhon.imp fun r hr => ⟨hr.1, hr, (h.reader r hr).cursor_le⟩)
  · refine ⟨?_, fun r => ?_, h.idle, ?_, ?_, ?_, fun r hr => ?_⟩
    · exact (push_word hacc (by decide) (by decide)).trans h.numReaders
    · exact (push_word hacc (by simp) (by simp)).trans (h.gate r)
    · rw [State.length_pushStep_stream]
      exact hw
    · rw [State.pushStep_view, State.length_pushStep_stream]
      exact hvw
    · rw [hcur, State.length_pushStep_stream]
      exact hnext
    · have hr' := h.reader r hr
      obtain ⟨hholds, hlag⟩ := h.push.holds hacc hr.1 hr hr'.lag hr'.holds
      constructor <;> simp only [hcur, State.pushStep_view_reader, State.length_pushStep_stream]
      · exact (hcells r).trans hr'.cell
      · exact hlag
      · exact hholds
      · exact hr'.own
      · exact hr'.seen
      · exact hr'.seen_le.trans (Nat.le_add_right _ _)
      · exact hr'.pop.append _
  · obtain ⟨rfl, hlo, hhi⟩ := hs.counter h.writeIdx
    rw [h.own] at hlo
    omega

/-! ## Steps of a reader -/

section Pop

variable {sc : Prop} {m m' : Memory Loc α} {vw vw' : View Loc} {pc pc' : PopPc α} {r : ℕ}

/-- **What an access of a reader does**: no change, or the store of its own cursor. -/
theorem pop_access (h : Access sc m vw (popCode cfg r pc) m' vw' pc') :
    m' = m ∨ ∃ c v, pc = .advance c v ∧ m' = m.store (.readIdx r) (wrappingAdd c 1) ∧
      vw' = Function.update vw (.readIdx r) ((m.word (.readIdx r)).top + 1) ∧
      pc' = .done (.ok (some v)) := by
  cases pc with
  | checkReader | checkGate | loadWriteIdx | loadReadIdx _ | readSlot _ =>
      simp only [popCode] at h
      cases h
      exact .inl rfl
  | advance c v =>
      simp only [popCode] at h
      cases h
      exact .inr ⟨_, _, rfl, rfl, rfl, rfl⟩
  | idle | done _ => simp only [popCode] at h; cases h

theorem pop_word (h : Access sc m vw (popCode cfg r pc) m' vw' pc') {x : Loc} (hx : x ≠ .readIdx r) :
    m'.word x = m.word x := by
  rcases pop_access h with rfl | ⟨_, _, -, rfl, -⟩
  · rfl
  · exact Memory.store_word_ne _ hx _

theorem pop_data (h : Access sc m vw (popCode cfg r pc) m' vw' pc') : m'.data = m.data := by
  rcases pop_access h with rfl | ⟨_, _, -, rfl, -⟩ <;> rfl

/-- **An access of a reader keeps what it knows**: the cursor it loads is its own, `write_idx` is
past every index it reads, and the slot holds the message of that index. -/
theorem PopOk.step {xs : List α} (h : Access sc m vw (popCode cfg r pc) m' vw' pc')
    (hok : PopOk (m.now (.readIdx r)) (vw .writeIdx) xs pc) (hlen : xs.length < u64Size)
    (hn : ∀ i v, Sees sc m vw .numReaders i v → r < v)
    (hgate : ∀ i v, Sees sc m vw (.loanDepth r) i v → v = 0)
    (hown : ∀ i v, Sees sc m vw (.readIdx r) i v → v = m.now (.readIdx r))
    (hw : ∀ i v, Sees sc m vw .writeIdx i v → v = i ∧ m.now (.readIdx r) ≤ v)
    (hread : m.now (.readIdx r) < vw .writeIdx →
      xs[m.now (.readIdx r)]? = some (m.data (cfg.slot (m.now (.readIdx r))))) :
    PopOk (m'.now (.readIdx r)) (vw' .writeIdx) xs pc' := by
  cases pc with
  | checkReader =>
      simp only [popCode] at h
      cases h with
      | load hs =>
          dsimp only
          rw [if_neg (Nat.not_le.mpr (hn _ _ hs))]
          trivial
  | checkGate =>
      simp only [popCode] at h
      cases h with
      | load hs =>
          dsimp only
          rw [if_neg (not_not.mpr (hgate _ _ hs))]
          trivial
  | loadWriteIdx =>
      simp only [popCode] at h
      cases h with
      | load hs =>
          obtain ⟨rfl, hle⟩ := hw _ _ hs
          rw [Function.update_self]
          exact ⟨hle, le_rfl⟩
  | loadReadIdx w =>
      obtain ⟨hcw, hseen⟩ := hok
      simp only [popCode] at h
      cases h with
      | load hs =>
          rw [hown _ _ hs, Function.update_of_ne (by simp)]
          dsimp only
          split_ifs with heq
          · trivial
          · exact ⟨rfl, by omega⟩
  | readSlot c =>
      obtain ⟨rfl, hlt⟩ := hok
      simp only [popCode] at h
      cases h
      exact ⟨rfl, hlt, hread hlt⟩
  | advance c v =>
      obtain ⟨rfl, hlt, hv⟩ := hok
      have hbound := (List.getElem?_eq_some_iff.mp hv).1
      simp only [popCode] at h
      cases h
      rw [Memory.store_now_self, wrappingAdd_eq (by omega)]
      exact ⟨_, rfl, hv⟩
  | idle | done _ => simp only [popCode] at h; cases h

/-- The cursor after its store. -/
theorem cursor_popStep_store {s : State α} {x : ℕ} :
    (s.popStep (s.mem.store (.readIdx r) x) vw r pc).cursor r = x := Memory.store_now_self _ _ _

/-- At the store of its cursor a reader holds the message there, and the store moves it by one. -/
theorem ReaderInv.advance {s : State α} {c : ℕ} {v : α} (h : ReaderInv cfg s r)
    (hpc : s.pop r = .advance c v) (hlen : s.stream.length < u64Size) :
    c = s.cursor r ∧ s.cursor r < s.view (.reader r) .writeIdx ∧ s.stream[s.cursor r]? = some v ∧
      wrappingAdd c 1 = s.cursor r + 1 := by
  have hpop := h.pop
  rw [hpc] at hpop
  obtain ⟨rfl, hlt, hv⟩ := hpop
  have hbound := (List.getElem?_eq_some_iff.mp hv).1
  exact ⟨rfl, hlt, hv, wrappingAdd_eq (by omega)⟩

/-- **An honest reader keeps its own part of the invariant.** -/
theorem ReaderInv.step {s : State α} (h : ReaderInv cfg s r) (hr : r < cfg.readers)
    (hn : s.mem.word .numReaders = .const cfg.readers)
    (hgate : s.mem.word (.loanDepth r) = .const 0)
    (hw : s.mem.word .writeIdx = .counter s.stream.length) (hlen : s.stream.length < u64Size)
    (hacc : Access sc s.mem (s.view (.reader r)) (popCode cfg r (s.pop r)) m' vw' pc') :
    ReaderInv cfg (s.popStep m' vw' r pc') r := by
  have hw' : m'.word .writeIdx = .counter s.stream.length :=
    (pop_word hacc (by simp)).trans hw
  obtain ⟨hseen, hseen_le⟩ := hacc.view_le .writeIdx (by rw [hw, Cell.counter_top]; exact h.seen_le)
  rw [hw', Cell.counter_top] at hseen_le
  have hpop := h.pop.step hacc hlen (fun i v hs => (hs.const hn).symm ▸ hr)
    (fun i v hs => hs.const hgate) (fun i v hs => ?_) (fun i v hs => ?_) (fun hlt => ?_)
  · rcases pop_access hacc with rfl | ⟨c, v, hpc, rfl, rfl, -⟩
    · obtain ⟨hlo, hhi⟩ := hacc.view_le (.readIdx r) (by rw [h.cell, Cell.counter_top, h.own])
      rw [h.cell, Cell.counter_top] at hhi
      rw [h.own] at hlo
      refine ⟨h.cell, h.lag, h.holds, ?_, ?_, ?_, ?_⟩ <;> rw [State.popStep_view]
      · exact le_antisymm hhi hlo
      · exact h.seen.trans hseen
      · exact hseen_le
      · rw [State.popStep_pop]
        exact hpop
    · obtain ⟨rfl, hlt, -, hadd⟩ := h.advance hpc hlen
      rw [hadd] at hpop ⊢
      constructor <;> simp only [State.popStep_view, State.popStep_pop, cursor_popStep_store]
      · rw [State.popStep, Memory.store_word_self, h.cell, Cell.counter_store]
      · exact h.lag.trans (by omega)
      · exact h.holds.mono (Nat.le_succ _)
      · rw [Function.update_self, h.cell, Cell.counter_top]
      · exact (Nat.succ_le_of_lt hlt).trans hseen
      · exact hseen_le
      · rwa [Memory.store_now_self] at hpop
  · obtain ⟨rfl, hlo, hhi⟩ := hs.counter h.cell
    rw [h.own] at hlo
    exact le_antisymm hhi hlo
  · obtain ⟨rfl, hlo, hhi⟩ := hs.counter hw
    exact ⟨rfl, h.seen.trans hlo⟩
  · have hlt' : s.cursor r < s.stream.length := hlt.trans_le h.seen_le
    change s.stream[s.cursor r]? = some (s.mem.data (cfg.slot (s.cursor r)))
    rw [List.getElem?_eq_getElem hlt', cfg.slot_eq_mod]
    exact congrArg some (h.holds _ _ le_rfl (List.getElem?_eq_getElem hlt')).symm

/-- **A step of a reader keeps the invariant.** -/
theorem Inv.step_pop {s : State α} (h : Inv cfg md s) (hlen : s.stream.length < u64Size)
    (hacc : Access md.sc s.mem (s.view (.reader r)) (popCode cfg r (s.pop r)) m' vw' pc') :
    Inv cfg md (s.popStep m' vw' r pc') := by
  have hself : Honest cfg md r → ReaderInv cfg (s.popStep m' vw' r pc') r :=
    fun hr => (h.reader r hr).step hr.1 h.numReaders (h.gate r) h.writeIdx hlen hacc
  have hcell : ∀ q, q ≠ r → m'.word (.readIdx q) = s.mem.word (.readIdx q) :=
    fun q hq => pop_word hacc (by simp [hq])
  refine ⟨(pop_word hacc (by simp)).trans h.numReaders,
    fun q => (pop_word hacc (by simp)).trans (h.gate q), fun q hq => ?_,
    (pop_word hacc (by simp)).trans h.writeIdx, ?_, ?_, fun q hq => ?_⟩
  · by_cases hqr : q = r
    · subst hqr
      rw [h.idle q hq] at hacc
      simp only [popCode] at hacc
      cases hacc
    · rw [State.popStep_pop_ne hqr]
      exact h.idle q hq
  · rw [State.popStep_view_producer]
    exact h.own
  · have hdata : (s.popStep m' vw' r pc').mem.data = s.mem.data := pop_data hacc
    rw [hdata]
    refine h.push.mono fun q hq => ?_
    by_cases hqr : q = r
    · subst hqr
      have hq' := h.reader q hq
      obtain ⟨hle, -⟩ := hacc.view_le (.readIdx q) (by rw [hq'.cell, Cell.counter_top, hq'.own])
      rw [hq'.own] at hle
      have hown := (hself hq).own
      rw [State.popStep_view] at hown
      exact hle.trans hown.le
    · exact (congrArg Cell.now (hcell q hqr)).ge
  · by_cases hqr : q = r
    · subst hqr
      exact hself hq
    · refine (h.reader q hq).frame (hcell q hqr) (pop_data hacc) rfl (State.popStep_view_ne hqr) ?_
      rw [State.popStep_pop_ne hqr]
      exact (h.reader q hq).pop

/-- **A fresh handle for a reader keeps the invariant.** -/
theorem Inv.step_replacePop {s : State α} (h : Inv cfg md s) (r : ℕ) :
    Inv cfg md (s.popStep s.mem s.mem.newest r .idle) := by
  refine ⟨h.numReaders, h.gate, fun q hq => ?_, h.writeIdx, ?_, h.push, fun q hq => ?_⟩
  · by_cases hqr : q = r
    · subst hqr
      exact State.popStep_pop
    · rw [State.popStep_pop_ne hqr]
      exact h.idle q hq
  · rw [State.popStep_view_producer]
    exact h.own
  · have hq' := h.reader q hq
    by_cases hqr : q = r
    · subst hqr
      refine ⟨hq'.cell, hq'.lag, hq'.holds, ?_, ?_, ?_, ?_⟩ <;> rw [State.popStep_view]
      · rw [Memory.newest, hq'.cell, Cell.counter_top]
        rfl
      · rw [Memory.newest, h.writeIdx, Cell.counter_top]
        exact hq'.cursor_le
      · rw [Memory.newest, h.writeIdx, Cell.counter_top]
        rfl
      · rw [State.popStep_pop]
        trivial
    · refine hq'.frame rfl rfl rfl (State.popStep_view_ne hqr) ?_
      rw [State.popStep_pop_ne hqr]
      exact hq'.pop

/-- A participating reader between two calls has nothing to know. -/
theorem Inv.set_pop {s : State α} (h : Inv cfg md s) (hr : r < cfg.readers)
    (hpc : ∀ c seen (xs : List α), PopOk c seen xs pc) :
    Inv cfg md { s with pop := Function.update s.pop r pc } := by
  refine ⟨h.numReaders, h.gate, fun q hq => ?_, h.writeIdx, h.own, h.push, fun q hq => ?_⟩
  · have hqr : q ≠ r := by omega
    simp only [Function.update_of_ne hqr]
    exact h.idle q hq
  · refine (h.reader q hq).frame rfl rfl rfl rfl ?_
    by_cases hqr : q = r
    · subst hqr
      simp only [Function.update_self]
      exact hpc _ _ _
    · simp only [Function.update_of_ne hqr]
      exact (h.reader q hq).pop

end Pop

/-! ## Every step -/

/-- **Every step keeps the invariant.** -/
theorem Inv.step {s t : State α} {e : Option (Event Party (Op α) (Answer α))} (h : Inv cfg md s)
    (hhon : ∃ r, Honest cfg md r) (hst : Step cfg md s e t) (hlen : t.stream.length < u64Size) :
    Inv cfg md t := by
  have hlen' : s.stream.length < u64Size := (length_stream_le hst).trans_lt hlen
  cases hst with
  | callPush value _ => exact ⟨h.numReaders, h.gate, h.idle, h.writeIdx, h.own, trivial, fun r hr =>
      (h.reader r hr).frame rfl rfl rfl rfl (h.reader r hr).pop⟩
  | push hacc => exact h.step_push hhon hacc hlen
  | retPush _ => exact ⟨h.numReaders, h.gate, h.idle, h.writeIdx, h.own, trivial, fun r hr =>
      (h.reader r hr).frame rfl rfl rfl rfl (h.reader r hr).pop⟩
  | callPop hr _ => exact h.set_pop hr fun _ _ _ => trivial
  | pop hacc => exact h.step_pop hlen' hacc
  | @retPop r _ hres =>
      have hr : r < cfg.readers := by
        by_contra hge
        rw [h.idle r (by omega)] at hres
        cases hres
      exact h.set_pop hr fun _ _ _ => trivial
  | replacePush _ =>
      refine ⟨h.numReaders, h.gate, h.idle, h.writeIdx, ?_, trivial, fun r hr => ?_⟩
      · simp only [Function.update_self, Memory.newest, h.writeIdx, Cell.counter_top]
      · refine (h.reader r hr).frame rfl rfl rfl ?_ (h.reader r hr).pop
        simp
  | replacePop r _ => exact h.step_replacePop r
  | poke r v hr _ =>
      have hne : ∀ q, Honest cfg md q → Loc.readIdx q ≠ .readIdx r :=
        fun q hq heq => hq.2 (Loc.readIdx.inj heq ▸ hr)
      refine ⟨?_, fun q => ?_, h.idle, ?_, h.own, h.push.mono fun q hq => ?_, fun q hq => ?_⟩
      · exact (Memory.store_word_ne _ (by simp) _).trans h.numReaders
      · exact (Memory.store_word_ne _ (by simp) _).trans (h.gate q)
      · exact (Memory.store_word_ne _ (by simp) _).trans h.writeIdx
      · exact (Memory.store_now_ne _ (hne q hq) _).ge
      · exact (h.reader q hq).frame (Memory.store_word_ne _ (hne q hq) _) rfl rfl rfl
          (h.reader q hq).pop

/-- **The invariant holds in every reachable state** with fewer than `2 ^ 64` messages. -/
theorem reachable_inv (hhon : ∃ r, Honest cfg md r) {s : State α} (h : Reachable (machine cfg md) s)
    (hlen : s.stream.length < u64Size) : Inv cfg md s := by
  refine h.invariant_of_bound (fun s => s.stream.length < u64Size) ?_ ?_ ?_ hlen
  · rintro s ⟨data, rfl⟩ _
    exact inv_fresh cfg md data
  · intro s e t hst hlt
    exact (length_stream_le hst).trans_lt hlt
  · intro s e t hs hst hlt
    exact hs.step hhon hst hlt

/-! ## The unread windows -/

/-- Loads may be stale, and a party may stop anywhere and be replaced. -/
def Mode.stale : Mode := ⟨False, True, fun _ => False⟩

theorem honest_stale {r : ℕ} (hr : r < cfg.readers) : Honest cfg .stale r := ⟨hr, id⟩

/-- **No overwrite before the slowest read.** Every reader's window holds the published messages,
the producer writes outside every window, and a pop takes and returns the message at the cursor. -/
theorem no_overwrite_before_slowest_read {s : State α} (h : Reachable (machine cfg .stale) s)
    (hlen : s.stream.length < u64Size) :
    (∀ r < cfg.readers,
      s.cursor r ≤ s.mem.now .writeIdx ∧ s.mem.now .writeIdx ≤ s.cursor r + cfg.capacity ∧
      ∀ i, s.cursor r ≤ i → i < s.mem.now .writeIdx →
        s.stream[i]? = some (s.mem.data (cfg.slot i))) ∧
    (∀ v w, s.push = .writeSlot v w → ∀ r < cfg.readers, ∀ i, s.cursor r ≤ i →
      i < s.mem.now .writeIdx → cfg.slot w ≠ cfg.slot i) ∧
    (∀ r < cfg.readers, ∀ c v, s.pop r = .advance c v → c = s.cursor r ∧ s.stream[c]? = some v) ∧
    ∀ r < cfg.readers, ∀ v, s.pop r = .done (.ok (some v)) →
      ∃ i, s.cursor r = i + 1 ∧ s.stream[i]? = some v := by
  have hinv := reachable_inv ⟨0, honest_stale cfg.readers_pos⟩ h hlen
  have hnow : s.mem.now .writeIdx = s.stream.length := congrArg Cell.now hinv.writeIdx
  rw [hnow]
  refine ⟨fun r hr => ?_, fun v w hpc r hr i hlo hhi => ?_, fun r hr c v hpc => ?_,
    fun r hr v hpc => ?_⟩
  · have hr' := hinv.reader r (honest_stale hr)
    refine ⟨hr'.cursor_le, hr'.lag, fun i hlo hhi => ?_⟩
    have hi := List.getElem?_eq_getElem hhi
    rw [cfg.slot_eq_mod, hr'.holds i _ hlo hi]
    exact hi
  · have hpush := hinv.push
    rw [hpc] at hpush
    obtain ⟨rfl, hroom⟩ := hpush.room hr (honest_stale hr)
    rw [cfg.slot_eq_mod, cfg.slot_eq_mod]
    exact (Window.mod_ne_of_window hhi (by omega)).symm
  · have hpop := (hinv.reader r (honest_stale hr)).pop
    rw [hpc] at hpop
    obtain ⟨rfl, -, hv⟩ := hpop
    exact ⟨rfl, hv⟩
  · have hpop := (hinv.reader r (honest_stale hr)).pop
    rw [hpc] at hpop
    exact hpop

/-- One slot and one reader. -/
def oneSlot : Config := ⟨0, 1, Nat.zero_lt_succ _, Nat.one_pos, Config.one_le⟩

/-- The producer is about to write 9 into the slot of 7, which was popped, and the reader has read 8. -/
theorem no_overwrite_beside_pop : ∃ s : State ℕ, s.stream = [7, 8] ∧ s.push = .writeSlot 9 2 ∧
    s.pop 0 = .advance 1 8 ∧ s.mem.now .writeIdx ≤ s.cursor 0 + twoSlots.capacity ∧
    s.stream[1]? = some (s.mem.data (twoSlots.slot 1)) ∧ twoSlots.slot 2 ≠ twoSlots.slot 1 ∧ s.cursor 0 = 1 := by
  have hplay : (trace (State.turn twoSlots) (List.flatten [.push 7 :: List.replicate 7 (.on .producer),
      .pop 0 :: List.replicate 7 (.on (.reader 0)), .push 8 :: List.replicate 7 (.on .producer),
      [.pop 0, .push 9], List.replicate 5 (.on (.reader 0)), List.replicate 3 (.on .producer)])
      (State.fresh twoSlots fun _ => 0)).map
        (fun x => (x.2.stream, x.2.push, x.2.pop 0, x.2.cursor 0, x.2.mem.now .writeIdx)) =
      some ([7, 8], .writeSlot 9 2, .advance 1 8, 1, 2) := rfl
  obtain ⟨⟨es, s⟩, hs, heq⟩ := Option.map_eq_some_iff.mp hplay
  obtain ⟨hstream, hpush, hpop, hcur, hw⟩ : _ ∧ _ ∧ _ ∧ _ ∧ _ := by simpa only [Prod.mk.injEq] using heq
  have hrun : Run (machine twoSlots .stale) (State.fresh twoSlots fun _ => 0) es s :=
    (run_of_traced (current_fresh _) hs).1
  obtain ⟨hwindow, hslot, hadvance, -⟩ := no_overwrite_before_slowest_read (hrun.reachable (.init ⟨_, rfl⟩))
    (by rw [hstream]; decide)
  obtain ⟨-, hlag, hholds⟩ := hwindow 0 (by decide)
  have hlo : s.cursor 0 ≤ 1 := hcur.le
  have hhi : 1 < s.mem.now .writeIdx := by rw [hw]; decide
  exact ⟨s, hstream, hpush, hpop, hlag, hholds 1 hlo hhi, hslot 9 2 hpush 0 (by decide) 1 hlo hhi,
    (hadvance 0 (by decide) 1 8 hpop).1.symm⟩

end ShmRings.Threads
