import ShmRings.Threads.Orderings

/-!
# No data race on a slot

Every slot write of the producer is ordered after all reads of that slot, and every slot read of a
reader after the last write to it: a cursor the producer acquired carries the reads behind it, and a
`write_idx` a reader acquired carries the writes below it.

* `Past`: a cell that no index of a range has;
* `PushKnows`, `PopKnows`: what the local variables stand for; `PushKnows.step`, `PopKnows.step`;
* `WriteInv`, `ReadInv`, `RaceInv`; `RaceInv.step`; `Traced`, `Traced.step`, `Traced.learn`;
* **`race_free`**.
-/

set_option autoImplicit false

namespace ShmRings.Threads

open Coherent Transition Atomic Release

variable {α P : Type} {cfg : Config}

/-- No index from `lo` on and below `hi` has cell `j`. -/
def Past (cfg : Config) (lo hi j : ℕ) : Prop := ∀ i, lo ≤ i → i < hi → cfg.slot i ≠ j

theorem Past.mono {lo hi lo' hi' j : ℕ} (h : Past cfg lo hi j) (hlo : lo ≤ lo') (hhi : hi' ≤ hi) :
    Past cfg lo' hi' j := fun i hi₁ hi₂ => h i (hlo.trans hi₁) (hi₂.trans_le hhi)

/-- The indices of a window past `c` do not have its cell. -/
theorem past_slot {c hi : ℕ} (h : hi ≤ c + cfg.capacity) : Past cfg (c + 1) hi (cfg.slot c) := by
  intro i hlo hi' heq
  rw [cfg.slot_eq_mod, cfg.slot_eq_mod] at heq
  exact Window.mod_ne_of_window (Nat.lt_of_succ_le hlo) (hi'.trans_le h) heq.symm

/-- The indices of a window that ends before `n` do not have its cell. -/
theorem past_of_lt {lo n : ℕ} (h : n < lo + cfg.capacity) : Past cfg lo n (cfg.slot n) := by
  intro i hlo hi heq
  rw [cfg.slot_eq_mod, cfg.slot_eq_mod] at heq
  exact Window.mod_ne_of_window hi (by omega) heq

/-- What the producer knows when it has looked at a cursor: the reads behind it. -/
def PushKnows (cfg : Config) (m : Tracked Loc P α) (k : Knowledge Loc P) (cursor : ℕ → ℕ) :
    PushPc α → Prop
  | .scan _ _ _ i minRead =>
      ∀ r < i, ∃ c, minRead ≤ c ∧ c ≤ cursor r ∧ m.carried (.readIdx r) c ≤ k
  | .writeSlot _ w =>
      ∀ r < cfg.readers, ∃ c, w < c + cfg.capacity ∧ c ≤ cursor r ∧ m.carried (.readIdx r) c ≤ k
  | _ => True

/-- What a reader knows when it has looked at `write_idx`: the writes below it. -/
def PopKnows (m : Tracked Loc P α) (k : Knowledge Loc P) (len : ℕ) : PopPc α → Prop
  | .loadReadIdx w => w ≤ len ∧ m.carried .writeIdx w ≤ k
  | .readSlot c => ∃ w, c < w ∧ w ≤ len ∧ m.carried .writeIdx w ≤ k
  | _ => True

section Knows

variable {m m' : Tracked Loc P α} {k k' : Knowledge Loc P} {cursor cursor' : ℕ → ℕ} {len : ℕ}

/-- What is known stays known while the values looked at are there. -/
theorem PushKnows.mono {pc : PushPc α} (h : PushKnows cfg m k cursor pc)
    (hn : ∀ v w n i minRead, pc = .scan v w n i minRead → i ≤ cfg.readers)
    (hcur : ∀ r < cfg.readers, cursor r ≤ cursor' r)
    (hcarried : ∀ r < cfg.readers, ∀ c ≤ cursor r, m'.carried (.readIdx r) c = m.carried (.readIdx r) c)
    (hk : k ≤ k') : PushKnows cfg m' k' cursor' pc := by
  cases pc with
  | scan v w n i minRead =>
      intro r hr
      obtain ⟨c, hmin, hc, hle⟩ := h r hr
      have hr' : r < cfg.readers := hr.trans_le (hn _ _ _ _ _ rfl)
      exact ⟨c, hmin, hc.trans (hcur r hr'), (hcarried r hr' c hc).symm ▸ hle.trans hk⟩
  | writeSlot v w =>
      intro r hr
      obtain ⟨c, hroom, hc, hle⟩ := h r hr
      exact ⟨c, hroom, hc.trans (hcur r hr), (hcarried r hr c hc).symm ▸ hle.trans hk⟩
  | _ => trivial

theorem PopKnows.mono {pc : PopPc α} {len' : ℕ} (h : PopKnows m k len pc) (hlen : len ≤ len')
    (hcarried : ∀ w ≤ len, m'.carried .writeIdx w = m.carried .writeIdx w) (hk : k ≤ k') :
    PopKnows m' k' len' pc := by
  cases pc with
  | loadReadIdx w => exact ⟨h.1.trans hlen, (hcarried w h.1).symm ▸ h.2.trans hk⟩
  | readSlot c =>
      obtain ⟨w, hcw, hw, hle⟩ := h
      exact ⟨w, hcw, hw.trans hlen, (hcarried w hw).symm ▸ hle.trans hk⟩
  | _ => trivial

/-- The decision after the scan keeps the reads behind every cursor. -/
theorem pushKnows_scanFrom {value : α} {i minRead : ℕ} (hi : i ≤ cfg.readers)
    (h : ∀ r < i, ∃ c, minRead ≤ c ∧ c ≤ cursor r ∧ m.carried (.readIdx r) c ≤ k)
    (hle : ∀ r < cfg.readers, cursor r ≤ len) (hlen : len < u64Size) :
    PushKnows cfg m k cursor (PushPc.scanFrom cfg value len cfg.readers i minRead) := by
  unfold PushPc.scanFrom
  split_ifs with hlt hfull
  · exact h
  · trivial
  · obtain rfl : i = cfg.readers := by omega
    obtain ⟨c₀, hmin₀, hc₀, -⟩ := h 0 cfg.readers_pos
    have := hle 0 cfg.readers_pos
    rw [wrappingSub_eq (by omega) hlen] at hfull
    intro r hr
    obtain ⟨c, hmin, hc, hk⟩ := h r hr
    exact ⟨c, by omega, hc, hk⟩

/-- **An access of the producer keeps what it knows.** -/
theorem PushKnows.step [DecidableEq P] {p : P} {H : ℕ → Prop} {pc pc' : PushPc α}
    (h : Ordered m k p (pushOrder pc) (pushCode cfg pc) m' k' pc')
    (hknows : PushKnows cfg m k cursor pc) (hok : PushOk cfg H cursor m.data len pc) (hk : k ≤ k')
    (hlen : len < u64Size) (hn : m.word .numReaders = .const cfg.readers)
    (hcell : ∀ r < cfg.readers, m.word (.readIdx r) = .counter (cursor r) ∧ cursor r ≤ len) :
    PushKnows cfg m' k' cursor pc' := by
  have hle : ∀ r < cfg.readers, cursor r ≤ len := fun r hr => (hcell r hr).2
  cases pc with
  | loadWriteIdx value =>
      cases h
      trivial
  | loadNumReaders value w =>
      obtain rfl : w = len := hok
      cases h with
      | load hs =>
          dsimp only
          rw [hs.const hn, if_pos cfg.readers_le]
          exact pushKnows_scanFrom (Nat.zero_le _) (fun r hr => absurd hr (Nat.not_lt_zero r)) hle hlen
  | scan value w n i minRead =>
      obtain ⟨rfl, rfl, hi, -⟩ := hok
      cases h with
      | load hs =>
          obtain ⟨rfl, -, hc⟩ := hs.counter (hcell i hi).1
          refine pushKnows_scanFrom hi (fun r hr => ?_) hle hlen
          rcases Nat.lt_succ_iff_lt_or_eq.mp hr with hlt | rfl
          · obtain ⟨c, hmin, hcur, hcar⟩ := hknows r hlt
            exact ⟨c, (Nat.min_le_left _ _).trans hmin, hcur, hcar.trans hk⟩
          · exact ⟨_, Nat.min_le_right _ _, hc, le_sup_right⟩
  | writeSlot value w => cases h; trivial
  | publish value w => cases h; trivial
  | bumpTotal => cases h; trivial
  | idle | done _ | panicked => cases h

/-- **An access of a reader keeps what it knows.** -/
theorem PopKnows.step [DecidableEq P] {p : P} {r c seen : ℕ} {xs : List α} {pc pc' : PopPc α}
    (h : Ordered m k p (popOrder pc) (popCode cfg r pc) m' k' pc')
    (hknows : PopKnows m k len pc) (hok : PopOk c seen xs pc) (hk : k ≤ k')
    (hw : m.word .writeIdx = .counter len) (hcell : m.word (.readIdx r) = .counter c)
    (hown : c ≤ k (.word (.readIdx r))) : PopKnows m' k' len pc' := by
  cases pc with
  | checkReader =>
      cases h
      dsimp only
      split_ifs <;> trivial
  | checkGate =>
      cases h
      dsimp only
      split_ifs <;> trivial
  | loadWriteIdx =>
      cases h with
      | load hs =>
          obtain ⟨rfl, -, hle⟩ := hs.counter hw
          exact ⟨hle, le_sup_right⟩
  | loadReadIdx w =>
      cases h with
      | load hs =>
          obtain ⟨rfl, hlo, hhi⟩ := hs.counter hcell
          obtain rfl := le_antisymm hhi (hown.trans hlo)
          have hcw : _ ≤ w := hok.1
          dsimp only
          split_ifs with heq
          · trivial
          · exact ⟨w, by omega, hknows.1, hknows.2.trans hk⟩
  | readSlot c' => cases h; trivial
  | advance c' v => cases h; trivial
  | idle | done _ => cases h

end Knows

/-! ## The invariant -/

/-- What the values of `write_idx` carry. A write to the cell of the next index waits until no cursor
lags by the capacity. -/
structure WriteInv (cfg : Config) (m : Tracked Loc P α) (k : Knowledge Loc P) (cursor : ℕ → ℕ) (len : ℕ)
    (pc : PushPc α) : Prop where
  own : ∀ j, k (.wrote j) = m.writes j
  published : ∀ w ≤ len, ∀ j, Past cfg w len j →
    (cfg.slot len = j → ∃ r < cfg.readers, cursor r + cfg.capacity ≤ len) →
    m.carried .writeIdx w (.wrote j) = m.writes j
  push : PushKnows cfg m k cursor pc

/-- A read of the cell at the cursor waits until a message is there. -/
structure ReadInv (cfg : Config) (s : OrderedState α) (r : ℕ) : Prop where
  own : ∀ j, s.know (.reader r) (.read (.reader r) j) = s.mem.reads (.reader r) j
  released : ∀ c ≤ s.cursor r, ∀ j, Past cfg c (min (s.cursor r + 1) s.stream.length) j →
    s.mem.carried (.readIdx r) c (.read (.reader r) j) = s.mem.reads (.reader r) j
  pop : PopKnows s.mem (s.know (.reader r)) s.stream.length (s.pop r)

/-- The invariant, besides that of the coherent machine. -/
structure RaceInv (cfg : Config) (s : OrderedState α) : Prop where
  sound : s.mem.Sound
  known : ∀ p, s.know p ≤ s.mem.all
  silent : ∀ p, (∀ r < cfg.readers, p ≠ .reader r) → ∀ j, s.mem.reads p j = 0
  write : WriteInv cfg s.mem (s.know .producer) s.cursor s.stream.length s.push
  read : ∀ r < cfg.readers, ReadInv cfg s r

theorem raceInv_fresh (cfg : Config) (data : ℕ → α) : RaceInv cfg (OrderedState.fresh cfg data) where
  sound _ _ := bot_le
  known _ := bot_le
  silent _ _ _ := rfl
  write := ⟨fun _ => rfl, fun _ _ _ _ _ => rfl, trivial⟩
  read _ _ := ⟨fun _ => rfl, fun _ _ _ _ => rfl, trivial⟩

/-- What is all there is to know, and stays so, is known. -/
theorem know_eq {X P : Type} {k k' all : Knowledge X P} {x : Mark X P} {n : ℕ} (hk : k x = n)
    (hle : k ≤ k') (hall : k' ≤ all) (hn : all x = n) : k' x = n :=
  le_antisymm ((hall x).trans hn.le) (hk.ge.trans (hle x))

/-- What the coherent machine says of a state. -/
structure Coheres (cfg : Config) (s : OrderedState α) : Prop where
  numReaders : s.mem.word .numReaders = .const cfg.readers
  writeIdx : s.mem.word .writeIdx = .counter s.stream.length
  push : PushOk cfg (Honest cfg .stale) s.cursor s.mem.data s.stream.length s.push
  idle : ∀ r, cfg.readers ≤ r → s.pop r = .idle
  cell : ∀ r < cfg.readers, s.mem.word (.readIdx r) = .counter (s.cursor r)
  cursor_le : ∀ r < cfg.readers, s.cursor r ≤ s.stream.length
  lag : ∀ r < cfg.readers, s.stream.length ≤ s.cursor r + cfg.capacity
  pop : ∀ r < cfg.readers, ∃ seen ≤ s.stream.length, PopOk (s.cursor r) seen s.stream (s.pop r)
  own : ∀ r < cfg.readers, s.cursor r ≤ s.know (.reader r) (.word (.readIdx r))
  ownWrite : s.stream.length ≤ s.know .producer (.word .writeIdx)

theorem Forgets.coheres {s : OrderedState α} {t : State α} (hf : Forgets s t) (hi : Inv cfg .stale t) :
    Coheres cfg s := by
  obtain ⟨mem, push, pop, view, stream⟩ := t
  obtain ⟨hmem, hpush, hpop, hstream, hview⟩ := hf
  cases hmem
  cases hpush
  cases hpop
  cases hstream
  have hr : ∀ r < cfg.readers, ReaderInv cfg _ r := fun r hr => hi.reader r (honest_stale hr)
  exact
    { numReaders := hi.numReaders
      writeIdx := hi.writeIdx
      push := hi.push
      idle := hi.idle
      cell := fun r hlt => (hr r hlt).cell
      cursor_le := fun r hlt => (hr r hlt).cursor_le
      lag := fun r hlt => (hr r hlt).lag
      pop := fun r hlt => ⟨_, (hr r hlt).seen_le, (hr r hlt).pop⟩
      own := fun r hlt => (hr r hlt).own.ge.trans (hview (.reader r) (.readIdx r))
      ownWrite := hi.own.ge.trans (hview .producer .writeIdx) }

/-! ## Steps of the producer -/

section Write

variable [DecidableEq P] {p : P} {m m' : Tracked Loc P α} {k k' : Knowledge Loc P} {cursor cursor' : ℕ → ℕ}
  {len : ℕ} {pc pc' : PushPc α}

/-- **What an access of the producer leaves alone**, and what its slot write counts. -/
theorem push_tracked (h : Ordered m k p (pushOrder pc) (pushCode cfg pc) m' k' pc') :
    m'.reads = m.reads ∧ (∀ r, m'.carried (.readIdx r) = m.carried (.readIdx r)) ∧
    ((m'.writes = m.writes ∧ pc.publishes = [] ∧ m'.carried .writeIdx = m.carried .writeIdx) ∨
      (∃ v w, pc = .writeSlot v w ∧ m' = m.put (cfg.slot w) v ∧
        k' (.wrote (cfg.slot w)) = m.writes (cfg.slot w) + 1) ∨
      ∃ v w, pc = .publish v w ∧ m' = m.store .writeIdx (wrappingAdd w 1) k') := by
  cases pc with
  | loadWriteIdx _ | loadNumReaders _ _ | scan _ _ _ _ _ =>
      cases h
      exact ⟨rfl, fun _ => rfl, .inl ⟨rfl, rfl, rfl⟩⟩
  | writeSlot v w =>
      cases h
      exact ⟨rfl, fun _ => rfl, .inr (.inl ⟨v, w, rfl, rfl, Function.update_self _ _ _⟩)⟩
  | publish v w =>
      cases h
      exact ⟨rfl, fun r => Tracked.carried_store_ne _ (by simp) _ _, .inr (.inr ⟨v, w, rfl, rfl⟩)⟩
  | bumpTotal =>
      cases h
      exact ⟨rfl, fun r => Tracked.carried_store_ne _ (by simp) _ _,
        .inl ⟨rfl, rfl, Tracked.carried_store_ne _ (by simp) _ _⟩⟩
  | idle | done _ | panicked => cases h

/-- The values of `write_idx` stay. -/
theorem push_carried (h : Ordered m k p (pushOrder pc) (pushCode cfg pc) m' k' pc')
    (hw : m.word .writeIdx = .counter len) {w : ℕ} (hle : w ≤ len) :
    m'.carried .writeIdx w = m.carried .writeIdx w := by
  obtain ⟨-, -, ⟨-, -, heq⟩ | ⟨_, _, -, rfl, -⟩ | ⟨_, _, -, rfl⟩⟩ := push_tracked h
  · rw [heq]
  · rfl
  · refine Tracked.carried_store_of_le _ _ _ _ _ ?_
    rwa [hw, Cell.counter_top]

omit [DecidableEq P] in
/-- The producer's own part, after a step of another party that moves cursors only forward. -/
theorem WriteInv.frame {H : ℕ → Prop} (h : WriteInv cfg m k cursor len pc)
    (hok : PushOk cfg H cursor m.data len pc) (hwrites : m'.writes = m.writes)
    (hcarried : m'.carried .writeIdx = m.carried .writeIdx)
    (hread : ∀ r < cfg.readers, ∀ c ≤ cursor r, m'.carried (.readIdx r) c = m.carried (.readIdx r) c)
    (hcur : ∀ r < cfg.readers, cursor r ≤ cursor' r) : WriteInv cfg m' k cursor' len pc where
  own j := by rw [hwrites, h.own]
  published w hw j hpast hlast := by
    rw [hcarried, hwrites]
    refine h.published w hw j hpast fun heq => ?_
    obtain ⟨r, hr, hlag⟩ := hlast heq
    exact ⟨r, hr, (Nat.add_le_add_right (hcur r hr) _).trans hlag⟩
  push := by
    refine h.push.mono (fun v w n i minRead heq => ?_) hcur hread le_rfl
    rw [heq] at hok
    exact (hok.2.1 ▸ hok.2.2.1).le

/-- **A step of the producer keeps its part.** -/
theorem WriteInv.step {H : ℕ → Prop} (h : WriteInv cfg m k cursor len pc)
    (hacc : Ordered m k p (pushOrder pc) (pushCode cfg pc) m' k' pc')
    (hok : PushOk cfg H cursor m.data len pc) (hH : ∀ r < cfg.readers, H r)
    (hw : m.word .writeIdx = .counter len) (hn : m.word .numReaders = .const cfg.readers)
    (hcell : ∀ r < cfg.readers, m.word (.readIdx r) = .counter (cursor r) ∧ cursor r ≤ len)
    (hlen : len + pc.publishes.length < u64Size) (hgrow : k ≤ k') (hknown : k' ≤ m'.all) :
    WriteInv cfg m' k' cursor (len + pc.publishes.length) pc' := by
  obtain ⟨-, -, hcases⟩ := push_tracked hacc
  have hown : ∀ j, k' (.wrote j) = m'.writes j := by
    intro j
    rcases hcases with ⟨heq, -, -⟩ | ⟨v, w, -, rfl, hwrote⟩ | ⟨_, _, -, rfl⟩
    · exact (know_eq (h.own j) hgrow hknown (congrFun heq j)).trans (congrFun heq j).symm
    · by_cases hj : j = cfg.slot w
      · subst hj
        rw [hwrote, Tracked.put_writes_self]
      · have hsame := Tracked.put_writes_ne m hj v
        exact (know_eq (h.own j) hgrow hknown hsame).trans hsame.symm
    · exact know_eq (h.own j) hgrow hknown rfl
  refine ⟨hown, fun w hle j hpast hlast => ?_, h.push.step hacc hok hgrow (by omega) hn hcell⟩
  rcases hcases with ⟨heq, hpub, hcar⟩ | ⟨v, w₀, rfl, rfl, -⟩ | ⟨v, w₀, rfl, rfl⟩
  · rw [hpub, List.length_nil, Nat.add_zero] at hle hpast hlast
    rw [hcar, heq]
    exact h.published w hle j hpast hlast
  · obtain ⟨rfl, hroom⟩ := hok
    -- the cell just written is not one that a full reader still reads
    have hj : j ≠ cfg.slot w₀ := by
      rintro rfl
      obtain ⟨r, hr, hfull⟩ := hlast rfl
      have := hroom r hr (hH r hr)
      simp only [PushPc.publishes, List.length_nil] at hfull
      omega
    rw [Tracked.put_writes_ne _ hj]
    exact h.published w hle j hpast hlast
  · have htop : (m.word .writeIdx).top = len := by rw [hw, Cell.counter_top]
    simp only [PushPc.publishes, List.length_singleton] at hle hpast
    rcases Nat.le_succ_iff.mp hle with hle' | rfl
    · rw [Tracked.carried_store_of_le _ _ _ _ _ (htop ▸ hle')]
      refine h.published w hle' j (hpast.mono le_rfl (Nat.le_succ _)) fun heq => ?_
      exact absurd heq (hpast _ hle' (Nat.lt_succ_self _))
    · rw [Nat.succ_eq_add_one, ← htop, Tracked.carried_store_top]
      exact hown j

end Write

section Push

variable {s s' : OrderedState α} {m : Tracked Loc Party α} {k : Knowledge Loc Party} {pc : PushPc α}

/-- A reader does not notice a step that leaves its reads, its cursor and its values alone. -/
theorem ReadInv.frame {r : ℕ} (h : ReadInv cfg s r) (hreads : s'.mem.reads (.reader r) = s.mem.reads (.reader r))
    (hcur : s'.cursor r = s.cursor r) (hlen : s.stream.length ≤ s'.stream.length)
    (hcarried : s'.mem.carried (.readIdx r) = s.mem.carried (.readIdx r))
    (hwrite : ∀ w ≤ s.stream.length, s'.mem.carried .writeIdx w = s.mem.carried .writeIdx w)
    (hknow : s'.know (.reader r) = s.know (.reader r)) (hpop : s'.pop r = s.pop r) : ReadInv cfg s' r where
  own j := by rw [hknow, hreads, h.own]
  released c hc j hpast := by
    rw [hcur] at hc hpast
    rw [hcarried, hreads]
    exact h.released c hc j (hpast.mono le_rfl (by omega))
  pop := by
    rw [hpop, hknow]
    exact h.pop.mono hlen hwrite le_rfl

/-- **A step of the producer keeps the invariant.** -/
theorem RaceInv.step_push (h : RaceInv cfg s) (hc : Coheres cfg s)
    (hacc : Ordered s.mem (s.know .producer) .producer (pushOrder s.push) (pushCode cfg s.push) m k pc)
    (hlen : (s.stream ++ s.push.publishes).length < u64Size) : RaceInv cfg (s.pushStep m k pc) := by
  rw [List.length_append] at hlen
  obtain ⟨hsound, hgrow, hknown⟩ := hacc.known h.sound (h.known .producer)
  obtain ⟨hreads, hcarried, -⟩ := push_tracked hacc
  have hcur : (s.pushStep m k pc).cursor = s.cursor := by
    obtain ⟨vw, hacc', -⟩ := hacc.access (le_refl (s.know .producer).view)
    exact funext fun r => congrArg Cell.now (push_word hacc' (by simp) (by simp))
  refine ⟨hsound, fun p => ?_, fun p hp j => ?_, ?_, fun r hr => ?_⟩
  · cases p with
    | producer =>
        rw [OrderedState.pushStep_know]
        exact hknown
    | reader r =>
        rw [OrderedState.pushStep_know_reader]
        exact (h.known _).trans hacc.all_le
  · exact (congrFun (congrFun hreads p) j).trans (h.silent p hp j)
  · rw [hcur, OrderedState.pushStep_know, OrderedState.length_pushStep_stream]
    exact h.write.step hacc hc.push (fun r => honest_stale) hc.writeIdx hc.numReaders
      (fun r hr => ⟨hc.cell r hr, hc.cursor_le r hr⟩) hlen hgrow hknown
  · refine (h.read r hr).frame (congrFun hreads _) (congrFun hcur r) ?_ (hcarried r)
      (fun w => push_carried hacc hc.writeIdx) ?_ rfl
    · rw [OrderedState.length_pushStep_stream]
      exact Nat.le_add_right _ _
    · exact OrderedState.pushStep_know_reader

end Push

/-! ## Steps of a reader -/

section Pop

variable {s s' : OrderedState α} {m : Tracked Loc Party α} {k : Knowledge Loc Party} {pc : PopPc α} {r : ℕ}

/-- **What an access of a reader changes**: it reads the slot at its cursor, or stores the cursor. -/
theorem pop_tracked {m₀ : Tracked Loc Party α} {k₀ : Knowledge Loc Party} {pc₀ : PopPc α}
    (h : Ordered m₀ k₀ (.reader r) (popOrder pc₀) (popCode cfg r pc₀) m k pc) :
    m = m₀ ∨
    (∃ c, pc₀ = .readSlot c ∧ m = m₀.get (.reader r) (cfg.slot c) ∧
      k (.read (.reader r) (cfg.slot c)) = m₀.reads (.reader r) (cfg.slot c) + 1) ∨
    ∃ c v, pc₀ = .advance c v ∧ m = m₀.store (.readIdx r) (wrappingAdd c 1) k := by
  cases pc₀ with
  | checkReader | checkGate | loadWriteIdx | loadReadIdx _ =>
      cases h
      exact .inl rfl
  | readSlot c =>
      cases h
      exact .inr (.inl ⟨c, rfl, rfl, Function.update_self _ _ _⟩)
  | advance c v =>
      cases h
      exact .inr (.inr ⟨c, v, rfl, rfl⟩)
  | idle | done _ => cases h

/-- **A step of a reader keeps its own part.** -/
theorem ReadInv.step (h : ReadInv cfg s r) (hc : Coheres cfg s) (hr : r < cfg.readers)
    (hacc : Ordered s.mem (s.know (.reader r)) (.reader r) (popOrder (s.pop r)) (popCode cfg r (s.pop r))
      m k pc)
    (hlen : s.stream.length < u64Size) (hgrow : s.know (.reader r) ≤ k) (hknown : k ≤ m.all) :
    ReadInv cfg (s.popStep m k r pc) r := by
  obtain ⟨seen, hseen, hok⟩ := hc.pop r hr
  have hpop := h.pop.step hacc hok hgrow hc.writeIdx (hc.cell r hr) (hc.own r hr)
  have hcases := pop_tracked hacc
  have hown : ∀ j, k (.read (.reader r) j) = m.reads (.reader r) j := by
    intro j
    rcases hcases with rfl | ⟨c, -, rfl, hread⟩ | ⟨_, _, -, rfl⟩
    · exact know_eq (h.own j) hgrow hknown rfl
    · by_cases hj : j = cfg.slot c
      · subst hj
        rw [hread, Tracked.get_reads_self]
      · have hsame := Tracked.get_reads_ne s.mem (p := .reader r) (q := .reader r) (.inr hj)
        exact (know_eq (h.own j) hgrow hknown hsame).trans hsame.symm
    · exact know_eq (h.own j) hgrow hknown rfl
  refine ⟨fun j => ?_, fun c hcur j hpast => ?_, ?_⟩
  · rw [OrderedState.popStep_know]
    exact hown j
  · change m.carried (.readIdx r) c (.read (.reader r) j) = m.reads (.reader r) j
    change c ≤ m.now (.readIdx r) at hcur
    change Past cfg c (min (m.now (.readIdx r) + 1) s.stream.length) j at hpast
    rcases hcases with rfl | ⟨c', hpc, rfl, -⟩ | ⟨c', v, hpc, rfl⟩
    · exact h.released c hcur j hpast
    · rw [hpc] at hok
      obtain ⟨rfl, hlt⟩ := hok
      -- the slot at the cursor is one of those the value need not carry the reads of
      have hj : j ≠ cfg.slot (s.cursor r) := by
        rintro rfl
        exact hpast _ hcur (by change s.cursor r < min (s.cursor r + 1) _; omega) rfl
      rw [Tracked.get_reads_ne _ (.inr hj)]
      exact h.released c hcur j hpast
    · rw [hpc] at hok
      obtain ⟨rfl, hlt, -⟩ := hok
      have htop : (s.mem.word (.readIdx r)).top = s.cursor r := by rw [hc.cell r hr, Cell.counter_top]
      have hnext : (s.mem.store (.readIdx r) (wrappingAdd (s.cursor r) 1) k).now (.readIdx r) =
          s.cursor r + 1 := (Memory.store_now_self _ _ _).trans (wrappingAdd_eq (by omega))
      rw [hnext] at hcur hpast
      rcases Nat.le_succ_iff.mp hcur with hcur' | rfl
      · rw [Tracked.carried_store_of_le _ _ _ _ _ (htop ▸ hcur')]
        exact h.released c hcur' j (hpast.mono le_rfl (by omega))
      · rw [← htop, Tracked.carried_store_top]
        exact hown j
  · rw [OrderedState.popStep_pop, OrderedState.popStep_know]
    exact hpop

/-- **A step of a reader keeps the invariant.** -/
theorem RaceInv.step_pop (h : RaceInv cfg s) (hc : Coheres cfg s)
    (hacc : Ordered s.mem (s.know (.reader r)) (.reader r) (popOrder (s.pop r)) (popCode cfg r (s.pop r))
      m k pc)
    (hlen : s.stream.length < u64Size) : RaceInv cfg (s.popStep m k r pc) := by
  have hr : r < cfg.readers := by
    by_contra hge
    rw [hc.idle r (Nat.not_lt.mp hge)] at hacc
    cases hacc
  obtain ⟨hsound, hgrow, hknown⟩ := hacc.known h.sound (h.known (.reader r))
  have hcases := pop_tracked hacc
  have hreads : ∀ p, p ≠ .reader r → m.reads p = s.mem.reads p := by
    intro p hp
    rcases hcases with rfl | ⟨c, -, rfl, -⟩ | ⟨_, _, -, rfl⟩
    · rfl
    · exact Function.update_of_ne hp _ _
    · rfl
  have hcarried : ∀ x, x ≠ .readIdx r → m.carried x = s.mem.carried x := by
    intro x hx
    rcases hcases with rfl | ⟨c, -, rfl, -⟩ | ⟨_, _, -, rfl⟩
    · rfl
    · rfl
    · exact Tracked.carried_store_ne _ hx _ _
  have hcur : ∀ q, q ≠ r → (s.popStep m k r pc).cursor q = s.cursor q := by
    intro q hq
    rcases hcases with rfl | ⟨c, -, rfl, -⟩ | ⟨_, _, -, rfl⟩
    · rfl
    · rfl
    · exact Memory.store_now_ne _ (by simp [hq]) _
  -- the cursor moves forward, and the values before it stay
  have hfwd : s.cursor r ≤ (s.popStep m k r pc).cursor r ∧
      ∀ c ≤ s.cursor r, m.carried (.readIdx r) c = s.mem.carried (.readIdx r) c := by
    rcases hcases with rfl | ⟨c, -, rfl, -⟩ | ⟨c, v, hpc, rfl⟩
    · exact ⟨le_rfl, fun _ _ => rfl⟩
    · exact ⟨le_rfl, fun _ _ => rfl⟩
    · obtain ⟨seen, hseen, hok⟩ := hc.pop r hr
      rw [hpc] at hok
      obtain ⟨rfl, hlt, -⟩ := hok
      refine ⟨?_, fun c hle => Tracked.carried_store_of_le _ _ _ _ _ ?_⟩
      · change s.cursor r ≤ (s.mem.store (.readIdx r) (wrappingAdd (s.cursor r) 1) k).now (.readIdx r)
        refine le_trans (Nat.le_succ _) (le_of_eq (Eq.symm ?_))
        exact (Memory.store_now_self _ _ _).trans (wrappingAdd_eq (by omega))
      · rwa [hc.cell r hr, Cell.counter_top]
  have hwrites : m.writes = s.mem.writes := by
    rcases hcases with rfl | ⟨_, -, rfl, -⟩ | ⟨_, _, -, rfl⟩ <;> rfl
  refine ⟨hsound, fun p => ?_, fun p hp j => ?_, ?_, fun q hq => ?_⟩
  · by_cases hp : p = .reader r
    · subst hp
      rw [OrderedState.popStep_know]
      exact hknown
    · exact (Function.update_of_ne hp k s.know).le.trans ((h.known p).trans hacc.all_le)
  · exact (congrFun (hreads p (hp r hr)) j).trans (h.silent p hp j)
  · rw [OrderedState.popStep_know_producer]
    refine h.write.frame hc.push hwrites (hcarried _ (by simp)) (fun q hq c hle => ?_) fun q hq => ?_
    · by_cases hqr : q = r
      · subst hqr
        exact hfwd.2 c hle
      · exact congrFun (hcarried _ (by simp [hqr])) c
    · by_cases hqr : q = r
      · subst hqr
        exact hfwd.1
      · exact (hcur q hqr).ge
  · by_cases hqr : q = r
    · subst hqr
      exact (h.read q hq).step hc hq hacc hlen hgrow hknown
    · exact (h.read q hq).frame (hreads _ (by simp [hqr])) (hcur q hqr) le_rfl (hcarried _ (by simp [hqr]))
        (fun w _ => congrFun (hcarried _ (by simp)) w) (OrderedState.popStep_know_ne hqr)
        (OrderedState.popStep_pop_ne hqr)

end Pop

/-! ## Every step -/

section Step

variable {stops : Prop} {s s' : OrderedState α} {e : Option (Event Party (Op α) (Answer α))}

/-- A party may be told of anything that has happened. -/
theorem RaceInv.learn (h : RaceInv cfg s) (hc : Coheres cfg s) {p : Party} {k : Knowledge Loc Party}
    (hk : s.know p ≤ k) (hall : k ≤ s.mem.all) :
    RaceInv cfg { s with know := Function.update s.know p k } := by
  have hle : ∀ q, s.know q ≤ Function.update s.know p k q ∧ Function.update s.know p k q ≤ s.mem.all := by
    intro q
    by_cases hq : q = p
    · subst hq
      rw [Function.update_self]
      exact ⟨hk, hall⟩
    · rw [Function.update_of_ne hq]
      exact ⟨le_rfl, h.known q⟩
  refine ⟨h.sound, fun q => (hle q).2, h.silent, ⟨fun j => ?_, h.write.published, ?_⟩,
    fun r hr => ⟨fun j => ?_, (h.read r hr).released, ?_⟩⟩
  · exact know_eq (h.write.own j) (hle _).1 (hle _).2 rfl
  · refine h.write.push.mono (fun v w n i minRead heq => ?_) (fun _ _ => le_rfl) (fun _ _ _ _ => rfl) (hle _).1
    have hok := hc.push
    rw [heq] at hok
    exact (hok.2.1 ▸ hok.2.2.1).le
  · exact know_eq ((h.read r hr).own j) (hle _).1 (hle _).2 rfl
  · exact (h.read r hr).pop.mono le_rfl (fun _ _ => rfl) (hle _).1

/-- The producer between two calls has nothing to know. -/
theorem RaceInv.set_push (h : RaceInv cfg s) {pc : PushPc α}
    (hpc : ∀ (m : Tracked Loc Party α) k cursor, PushKnows cfg m k cursor pc) :
    RaceInv cfg { s with push := pc } :=
  ⟨h.sound, h.known, h.silent, ⟨h.write.own, h.write.published, hpc _ _ _⟩,
    fun r hr => ⟨(h.read r hr).own, (h.read r hr).released, (h.read r hr).pop⟩⟩

/-- Nor has a reader. -/
theorem RaceInv.set_pop (h : RaceInv cfg s) {r : ℕ} {pc : PopPc α}
    (hpc : ∀ (m : Tracked Loc Party α) k len, PopKnows m k len pc) :
    RaceInv cfg { s with pop := Function.update s.pop r pc } := by
  refine ⟨h.sound, h.known, h.silent, ⟨h.write.own, h.write.published, h.write.push⟩,
    fun q hq => ⟨(h.read q hq).own, (h.read q hq).released, ?_⟩⟩
  dsimp only
  by_cases hqr : q = r
  · subst hqr
    rw [Function.update_self]
    exact hpc _ _ _
  · rw [Function.update_of_ne hqr]
    exact (h.read q hq).pop

/-- **Every step keeps the invariant.** -/
theorem RaceInv.step (h : RaceInv cfg s) (hc : Coheres cfg s) (hst : OrderedStep cfg stops s e s')
    (hlen : s'.stream.length < u64Size) : RaceInv cfg s' := by
  cases hst with
  | callPush value _ => exact h.set_push fun _ _ _ => trivial
  | push hacc => exact h.step_push hc hacc hlen
  | retPush _ => exact h.set_push fun _ _ _ => trivial
  | callPop _ _ => exact h.set_pop fun _ _ _ => trivial
  | pop hacc => exact h.step_pop hc hacc hlen
  | retPop _ => exact h.set_pop fun _ _ _ => trivial
  | replacePush _ => exact (h.learn hc (h.known .producer) le_rfl).set_push fun _ _ _ => trivial
  | replacePop r _ => exact (h.learn hc (h.known (.reader r)) le_rfl).set_pop fun _ _ _ => trivial

theorem length_ordered_le (hst : OrderedStep cfg stops s e s') : s.stream.length ≤ s'.stream.length := by
  cases hst with
  | push _ => simp
  | _ => exact le_rfl

/-- The slot write is ordered after every access of its cell. -/
theorem RaceInv.push_clean (h : RaceInv cfg s) (hc : Coheres cfg s) :
    ¬ Races s.mem (s.know .producer) (pushCode cfg s.push) := by
  cases hpc : s.push with
  | writeSlot v w =>
      have hok := hc.push
      have hknows := h.write.push
      rw [hpc] at hok hknows
      obtain rfl : w = s.stream.length := hok.1
      rintro (hwrote | ⟨q, hread⟩)
      · exact hwrote (h.write.own _)
      · refine hread (le_antisymm (h.known .producer _) ?_)
        change s.mem.reads q _ ≤ _
        by_cases hq : ∃ r < cfg.readers, q = .reader r
        · obtain ⟨r, hr, rfl⟩ := hq
          obtain ⟨c, hroom, hcur, hle⟩ := hknows r hr
          rw [← (h.read r hr).released c hcur _ ((past_of_lt hroom).mono le_rfl (Nat.min_le_right _ _))]
          exact hle _
        · rw [h.silent q (fun r hr heq => hq ⟨r, hr, heq⟩)]
          exact Nat.zero_le _
  | _ => exact id

/-- The slot read is ordered after the last write to its cell. -/
theorem RaceInv.pop_clean (h : RaceInv cfg s) (hc : Coheres cfg s) (r : ℕ) :
    ¬ Races s.mem (s.know (.reader r)) (popCode cfg r (s.pop r)) := by
  by_cases hr : r < cfg.readers
  · cases hpc : s.pop r with
    | readSlot c =>
        obtain ⟨seen, hseen, hok⟩ := hc.pop r hr
        have hknows := (h.read r hr).pop
        rw [hpc] at hok hknows
        obtain ⟨rfl, hlt⟩ := hok
        obtain ⟨w, hcw, hw, hle⟩ := hknows
        have hlag := hc.lag r hr
        refine not_not.mpr (le_antisymm (h.known _ _) ?_)
        change s.mem.writes _ ≤ _
        rw [← h.write.published w hw _ ((past_slot hlag).mono hcw le_rfl) fun heq => ?_]
        · exact hle _
        · refine ⟨r, hr, ?_⟩
          rw [cfg.slot_eq_mod, cfg.slot_eq_mod] at heq
          by_contra hnot
          exact Window.mod_ne_of_window (hcw.trans_le hw) (Nat.not_le.mp hnot) heq.symm
    | _ => exact id
  · rw [hc.idle r (Nat.not_lt.mp hr)]
    exact id

/-- The invariant, beside that of the coherent machine. -/
def Traced (cfg : Config) (s : OrderedState α) : Prop :=
  RaceInv cfg s ∧ ∃ t, Forgets s t ∧ Inv cfg .stale t

theorem Traced.coheres (h : Traced cfg s) : Coheres cfg s := by
  obtain ⟨-, t, hf, hi⟩ := h
  exact hf.coheres hi

theorem traced_fresh (cfg : Config) (data : ℕ → α) : Traced cfg (OrderedState.fresh cfg data) :=
  ⟨raceInv_fresh cfg data, _, forgets_fresh cfg data, inv_fresh cfg .stale data⟩

/-- **Every step keeps both invariants.** -/
theorem Traced.step (h : Traced cfg s) (hst : OrderedStep cfg stops s e s') (hlen : s'.stream.length < u64Size) :
    Traced cfg s' := by
  have hc := h.coheres
  obtain ⟨hs, t, hf, hi⟩ := h
  obtain ⟨t', hst', hf'⟩ := hf.step hst
  exact ⟨hs.step hc hst hlen, t', hf',
    hi.step ⟨0, honest_stale cfg.readers_pos⟩ hst' (by rwa [hf'.stream])⟩

/-- What a party is told breaks neither. -/
theorem Traced.learn (h : Traced cfg s) {p : Party} {k : Knowledge Loc Party} (hk : s.know p ≤ k)
    (hall : k ≤ s.mem.all) : Traced cfg { s with know := Function.update s.know p k } := by
  have hc := h.coheres
  obtain ⟨hs, t, hf, hi⟩ := h
  exact ⟨hs.learn hc hk hall, t, hf.learn hk, hi⟩

/-- **Nothing races** where both hold. -/
theorem Traced.clean (h : Traced cfg s) :
    (¬ Races s.mem (s.know .producer) (pushCode cfg s.push) ∧
      ¬ Blind s.mem (s.know .producer) (pushCode cfg s.push)) ∧
    ∀ r, ¬ Races s.mem (s.know (.reader r)) (popCode cfg r (s.pop r)) ∧
      ¬ Blind s.mem (s.know (.reader r)) (popCode cfg r (s.pop r)) := by
  have hc := h.coheres
  obtain ⟨hrace, -⟩ := h
  refine ⟨⟨hrace.push_clean hc, ?_⟩, fun r => ⟨hrace.pop_clean hc r, ?_⟩⟩
  · cases s.push with
    | publish v w =>
        refine not_not.mpr (le_antisymm (hrace.known _ _) ?_)
        change (s.mem.word .writeIdx).top ≤ _
        rw [hc.writeIdx, Cell.counter_top]
        exact hc.ownWrite
    | _ => exact id
  · cases hpc : s.pop r with
    | advance c v =>
        have hr : r < cfg.readers := by
          by_contra hge
          rw [hc.idle r (Nat.not_lt.mp hge)] at hpc
          cases hpc
        refine not_not.mpr (le_antisymm (hrace.known _ _) ?_)
        change (s.mem.word (.readIdx r)).top ≤ _
        rw [hc.cell r hr, Cell.counter_top]
        exact hc.own r hr
    | _ => exact id

end Step

/-- **No data race.** In every reachable state the next access of the producer and that of every reader
is ordered after every conflicting access of its cell, and a store is made by a party that has seen the
newest value of its word. -/
theorem race_free {stops : Prop} {s : OrderedState α} (h : Reachable (ordered cfg stops) s)
    (hlen : s.stream.length < u64Size) :
    (¬ Races s.mem (s.know .producer) (pushCode cfg s.push) ∧
      ¬ Blind s.mem (s.know .producer) (pushCode cfg s.push)) ∧
    ∀ r, ¬ Races s.mem (s.know (.reader r)) (popCode cfg r (s.pop r)) ∧
      ¬ Blind s.mem (s.know (.reader r)) (popCode cfg r (s.pop r)) := by
  have htraced : Traced cfg s := by
    refine h.invariant_of_bound (fun s => s.stream.length < u64Size) ?_ ?_ (fun s e s' hs hst => hs.step hst) hlen
    · rintro s ⟨data, rfl⟩ _
      exact traced_fresh cfg data
    · intro s e s' hst hlt
      exact (length_ordered_le hst).trans_lt hlt
  exact htraced.clean

/-- A push on a fresh ring of one slot, and a pop up to its read of the slot. -/
theorem run_read : ∃ s : OrderedState ℕ, Reachable (ordered oneSlot True) s ∧ s.stream = [7] ∧
    s.pop 0 = .readSlot 0 := by
  have h₀ := Reachable.step (S := ordered oneSlot True) (s := OrderedState.fresh oneSlot fun _ => 0)
    (.init ⟨_, rfl⟩) (.callPush 7 rfl)
  have h₁ := h₀.step (.push (.load ⟨Nat.le_refl 0, rfl, False.elim⟩))
  have h₂ := h₁.step (.push (.load ⟨Nat.le_refl 0, rfl, False.elim⟩))
  have h₃ := h₂.step (.push (.load ⟨Nat.le_refl 0, rfl, False.elim⟩))
  have h₄ := h₃.step (.push .put)
  have h₅ := h₄.step (.push .store)
  have h₆ := h₅.step (.callPop (r := 0) (by decide) rfl)
  have h₇ := h₆.step (.pop (r := 0) (.load (i := 0) (v := 1) ⟨Nat.le_refl 0, rfl, False.elim⟩))
  have h₈ := h₇.step (.pop (r := 0) (.load (i := 0) (v := 0) ⟨Nat.le_refl 0, rfl, False.elim⟩))
  have h₉ := h₈.step (.pop (r := 0) (.load (i := 1) (v := 1) ⟨Nat.zero_le 1, rfl, False.elim⟩))
  have h := h₉.step (.pop (r := 0) (.load (i := 0) (v := 0) ⟨Nat.le_refl 0, rfl, False.elim⟩))
  exact ⟨_, h, rfl, rfl⟩

theorem race_free_read : ∃ s : OrderedState ℕ, s.pop 0 = .readSlot 0 ∧
    ¬ Races s.mem (s.know (.reader 0)) (popCode oneSlot 0 (s.pop 0)) := by
  obtain ⟨s, h, hstream, hpc⟩ := run_read
  exact ⟨s, hpc, ((race_free h (by rw [hstream]; decide)).2 0).1⟩

end ShmRings.Threads
