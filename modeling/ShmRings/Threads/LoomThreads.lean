import ShmRings.Lib.Mortal
import ShmRings.Model.Loom
import ShmRings.Threads.RaceFree

/-!
# The loom double, access by access

The threads that are explored in place of those of the ring: `try_push` and `try_pop` of the double on
release/acquire memory. It makes no access for `num_readers` and for the gate, and it calculates with checked
operators.

* `LoomPushPc`, `loomPushCode`, `LoomPopPc`, `loomPopCode`; `DoubleState`, `DoubleStep`, `double`;
* `DoubleState.of`: the double of a ring; `double_push`, `double_pop`, `ring_push`, `ring_pop`: an access of one
  is an access of the other;
* `double_of_ring`, `ring_of_double`: each simulates the other; **`double_histories`**; **`double_clean`**.
-/

set_option autoImplicit false

namespace ShmRings.Threads

open Coherent Transition Atomic Release

variable {cfg : Config} {p : Profile}

/-- Where a call of the double's `try_push` is. -/
inductive LoomPushPc
  | idle
  | loadWriteIdx (value : UInt64)
  | scan (value : UInt64) (w i minRead : ℕ)
  | writeSlot (value : UInt64) (w : ℕ)
  | publish (value : UInt64) (next : ℕ)
  | bumpTotal
  | done (pushed : Bool)
  | panicked

/-- Cursor `i` comes next in the fold over `n` cursors; after the last one the push is decided. -/
def LoomPushPc.scanFrom (p : Profile) (n : ℕ) (value : UInt64) (w i minRead : ℕ) : LoomPushPc :=
  if i < n then .scan value w i minRead
  else match p.sub w minRead with
    | .ok lag => if lag ≥ loomCapacity then .done false else .writeSlot value w
    | .error _ => .panicked

/-- The access of each program point, with `n` readers. -/
def loomPushCode (p : Profile) (n : ℕ) : LoomPushPc → Instr Loc UInt64 LoomPushPc
  | .loadWriteIdx value => .load .writeIdx fun w => .scanFrom p n value w 0 u64Max
  | .scan value w i minRead => .load (.readIdx i) fun c => .scanFrom p n value w (i + 1) (min minRead c)
  | .writeSlot value w => .put (LoomRing.slot w) value (match p.add w 1 with
      | .ok next => .publish value next
      | .error _ => .panicked)
  | .publish _ next => .store .writeIdx next .bumpTotal
  | .bumpTotal => .modify .totalWritten (wrappingAdd · 1) (.done true)
  | .idle | .done _ | .panicked => .halt

/-- The memory orders of the double's `try_push`. -/
def loomPushOrder : LoomPushPc → Strength
  | .scan _ _ _ _ => .acquire
  | .publish _ _ => .release
  | _ => .relaxed

/-- The message the access at this point publishes. -/
def LoomPushPc.publishes : LoomPushPc → List UInt64
  | .publish value _ => [value]
  | _ => []

/-- Where a call of the double's `try_pop` is. -/
inductive LoomPopPc
  | idle
  | loadWriteIdx
  | loadReadIdx (w : ℕ)
  | readSlot (r : ℕ)
  | advance (next : ℕ) (value : UInt64)
  | done (res : Option UInt64)
  | panicked

/-- The access of each program point, for reader `r`. -/
def loomPopCode (p : Profile) (r : ℕ) : LoomPopPc → Instr Loc UInt64 LoomPopPc
  | .loadWriteIdx => .load .writeIdx fun w => .loadReadIdx w
  | .loadReadIdx w => .load (.readIdx r) fun c => if c = w then .done none else .readSlot c
  | .readSlot c => .get (LoomRing.slot c) fun value => match p.add c 1 with
      | .ok next => .advance next value
      | .error _ => .panicked
  | .advance next value => .store (.readIdx r) next (.done (some value))
  | .idle | .done _ | .panicked => .halt

/-- The memory orders of the double's `try_pop`. -/
def loomPopOrder : LoomPopPc → Strength
  | .loadWriteIdx | .loadReadIdx _ => .acquire
  | .advance _ _ => .release
  | _ => .relaxed

/-- The atomics and the cells, where every thread is and what it knows, and the published messages. -/
structure DoubleState where
  mem : Tracked Loc Party UInt64
  push : LoomPushPc
  pop : ℕ → LoomPopPc
  know : Party → Knowledge Loc Party
  stream : List UInt64

namespace DoubleState

variable (d : DoubleState) (m : Tracked Loc Party UInt64) (k : Knowledge Loc Party)

/-- After an access of the producer. -/
def pushStep (pc : LoomPushPc) : DoubleState where
  mem := m
  push := pc
  pop := d.pop
  know := Function.update d.know .producer k
  stream := d.stream ++ d.push.publishes

/-- After an access of reader `r`. -/
def popStep (r : ℕ) (pc : LoomPopPc) : DoubleState where
  mem := m
  push := d.push
  pop := Function.update d.pop r pc
  know := Function.update d.know (.reader r) k
  stream := d.stream

end DoubleState

/-- One step of the threads on a double with `n` readers. The assertion of `try_pop` on its reader holds. -/
inductive DoubleStep (p : Profile) (n : ℕ) :
    DoubleState → Option (Event Party (Op UInt64) (Answer UInt64)) → DoubleState → Prop
  | callPush {d} (value : UInt64) : d.push = .idle →
      DoubleStep p n d (some (.call .producer (.push value))) { d with push := .loadWriteIdx value }
  | push {d m k pc} :
      Ordered d.mem (d.know .producer) .producer (loomPushOrder d.push) (loomPushCode p n d.push) m k pc →
      DoubleStep p n d none (d.pushStep m k pc)
  | retPush {d b} : d.push = .done b →
      DoubleStep p n d (some (.ret .producer (.pushed b))) { d with push := .idle }
  | callPop {d r} : r < n → d.pop r = .idle →
      DoubleStep p n d (some (.call (.reader r) (.pop r)))
        { d with pop := Function.update d.pop r .loadWriteIdx }
  | pop {d r m k pc} :
      Ordered d.mem (d.know (.reader r)) (.reader r) (loomPopOrder (d.pop r)) (loomPopCode p r (d.pop r)) m k pc →
      DoubleStep p n d none (d.popStep m k r pc)
  | retPop {d r res} : d.pop r = .done res →
      DoubleStep p n d (some (.ret (.reader r) (.popped (.ok res))))
        { d with pop := Function.update d.pop r .idle }

/-! ## The double of a ring -/

/-- The program point of the double; the load of `num_readers` has no counterpart. -/
def PushPc.loom : PushPc UInt64 → LoomPushPc
  | .idle => .idle
  | .loadWriteIdx value => .loadWriteIdx value
  | .loadNumReaders value w => .scan value w 0 u64Max
  | .scan value w _ i minRead => .scan value w i minRead
  | .writeSlot value w => .writeSlot value w
  | .publish value w => .publish value (wrappingAdd w 1)
  | .bumpTotal => .bumpTotal
  | .done b => .done b
  | .panicked => .panicked

/-- The program point of the double; nor have the checks of the reader and of the gate. -/
def PopPc.loom : PopPc UInt64 → LoomPopPc
  | .idle => .idle
  | .checkReader | .checkGate | .loadWriteIdx => .loadWriteIdx
  | .loadReadIdx w => .loadReadIdx w
  | .readSlot r => .readSlot r
  | .advance r value => .advance (wrappingAdd r 1) value
  | .done (.ok res) => .done res
  | .done (.error _) => .panicked

/-- The double of a ring. -/
def DoubleState.of (s : OrderedState UInt64) : DoubleState where
  mem := s.mem
  push := s.push.loom
  pop r := (s.pop r).loom
  know := s.know
  stream := s.stream

/-- The threads, from the double of a fresh ring. -/
def double (p : Profile) (cfg : Config) : System DoubleState (Option (Event Party (Op UInt64) (Answer UInt64))) where
  init d := ∃ data, d = .of (OrderedState.fresh cfg data)
  step := DoubleStep p cfg.readers

/-! ## Accesses -/

section Access

variable {m m' : Tracked Loc Party UInt64} {k k' : Knowledge Loc Party} {q : Party} {r : ℕ}

/-- Where the minimum is not ahead, both decide alike. -/
theorem loom_scanFrom (hcap : cfg.capacity = loomCapacity) {value : UInt64} {w n i minRead : ℕ}
    (hw : w < u64Size) (hmin : n ≤ i → minRead ≤ w) :
    (PushPc.scanFrom cfg value w n i minRead).loom = LoomPushPc.scanFrom p n value w i minRead := by
  unfold PushPc.scanFrom LoomPushPc.scanFrom
  by_cases hi : i < n
  · rw [if_pos hi, if_pos hi]
    rfl
  · have hle := hmin (Nat.not_lt.mp hi)
    rw [if_neg hi, if_neg hi, wrappingSub_eq hle hw, p.sub_eq hle, hcap]
    dsimp only
    split_ifs <;> rfl

omit cfg in
/-- A load of a word that was never stored changes nothing. -/
theorem load_quiet {L : Type} {o : Strength} {x : Loc} {n : ℕ} {f : ℕ → L} (hx : m.word x = .const n)
    (hcar : o.takes (m.carried x 0) = ⊥) (hk : k (.word x) = 0) :
    Ordered m k q o (.load x f : Instr Loc UInt64 L) m k (f n) := by
  have h : Ordered m k q o (.load x f : Instr Loc UInt64 L) m (k.see x 0 ⊔ o.takes (m.carried x 0)) (f n) :=
    .load ⟨hk.le, by rw [hx]; rfl, False.elim⟩
  have hsee : k.see x 0 = k := by
    unfold Knowledge.see
    rw [← hk, Function.update_eq_self]
  rwa [hcar, hsee, sup_bot_eq] at h

omit cfg in
theorem quiet_load {L : Type} {o : Strength} {x : Loc} {n : ℕ} {f : ℕ → L} {l : L}
    (h : Ordered m k q o (.load x f : Instr Loc UInt64 L) m' k' l) (hx : m.word x = .const n)
    (hcar : o.takes (m.carried x 0) = ⊥) (hk : k (.word x) = 0) : m' = m ∧ k' = k ∧ l = f n := by
  cases h with
  | @load _ _ i v hs =>
      have hi : i = 0 := by
        have hle := Cell.le_top_of_getElem? hs.2.1
        rw [hx] at hle
        exact Nat.le_zero.mp hle
      subst hi
      have hsee : k.see x 0 = k := by
        unfold Knowledge.see
        rw [← hk, Function.update_eq_self]
      rw [hcar, hsee, sup_bot_eq, hs.const hx]
      exact ⟨rfl, rfl, rfl⟩

theorem loom_writeSlot (hcap : cfg.capacity = loomCapacity) {n w : ℕ} {value : UInt64} (h : w + 1 < u64Size) :
    loomPushCode p n (.writeSlot value w) = .put (cfg.slot w) value (.publish value (wrappingAdd w 1)) := by
  simp only [loomPushCode, p.add_eq h, wrappingAdd_eq h, LoomRing.slot, Config.slot, hcap]

theorem loom_readSlot (hcap : cfg.capacity = loomCapacity) {c : ℕ} (h : c + 1 < u64Size) :
    loomPopCode p r (.readSlot c) = .get (cfg.slot c) fun value => .advance (wrappingAdd c 1) value := by
  simp only [loomPopCode, p.add_eq h, wrappingAdd_eq h, LoomRing.slot, Config.slot, hcap]

/-- **An access of `try_push` is one of the double**, or the load of `num_readers`. -/
theorem double_push (hcap : cfg.capacity = loomCapacity) {len : ℕ} {pc pc' : PushPc UInt64} {H : ℕ → Prop}
    {cursor : ℕ → ℕ} (h : Ordered m k q (pushOrder pc) (pushCode cfg pc) m' k' pc')
    (hok : PushOk cfg H cursor m.data len pc) (hlen : len < u64Max)
    (hn : m.word .numReaders = .const cfg.readers) (hcar : m.carried .numReaders = fun _ => ⊥)
    (hzero : k (.word .numReaders) = 0)
    (hcell : ∀ r < cfg.readers, m.word (.readIdx r) = .counter (cursor r) ∧ cursor r ≤ len) :
    (pc.publishes = [] ∧ m' = m ∧ k' = k ∧ pc'.loom = pc.loom) ∨
      Ordered m k q (loomPushOrder pc.loom) (loomPushCode p cfg.readers pc.loom) m' k' pc'.loom := by
  cases pc with
  | loadWriteIdx v =>
      cases h with
      | @load _ _ i w hs =>
          have hscan : LoomPushPc.scanFrom p cfg.readers v w 0 u64Max = .scan v w 0 u64Max :=
            if_pos cfg.readers_pos
          refine .inr ?_
          show Ordered m k q .relaxed _ m _ (LoomPushPc.scan v w 0 u64Max)
          rw [← hscan]
          exact .load hs
  | loadNumReaders v w =>
      obtain ⟨rfl, rfl, rfl⟩ := quiet_load h hn (by rw [hcar]; rfl) hzero
      refine .inl ⟨rfl, rfl, rfl, ?_⟩
      unfold PushPc.scanFrom
      rw [if_pos cfg.readers_le, if_pos cfg.readers_pos]
      rfl
  | scan v w n i minRead =>
      obtain ⟨rfl, rfl, hi, -⟩ := hok
      cases h with
      | @load _ _ j c hs =>
          have hc : c ≤ cursor i := (hs.counter (hcell i hi).1).2.2
          refine .inr ?_
          have heq : (PushPc.scanFrom cfg v w cfg.readers (i + 1) (min minRead c)).loom =
              .scanFrom p cfg.readers v w (i + 1) (min minRead c) :=
            loom_scanFrom hcap (hlen.trans (by decide))
              fun _ => (Nat.min_le_right _ _).trans (hc.trans (hcell i hi).2)
          rw [heq]
          exact .load hs
  | writeSlot v w =>
      obtain ⟨rfl, -⟩ := hok
      cases h
      refine .inr ?_
      show Ordered m k q .relaxed (loomPushCode p cfg.readers (.writeSlot v w)) _ _ _
      rw [loom_writeSlot hcap (Nat.add_lt_of_lt_sub hlen)]
      exact .put
  | publish v w =>
      cases h
      exact .inr .store
  | bumpTotal =>
      cases h
      exact .inr .modify
  | idle | done _ | panicked => cases h

/-- **An access of `try_pop` is one of the double**, or a check that succeeds. -/
theorem double_pop (hcap : cfg.capacity = loomCapacity) {c seen : ℕ} {xs : List UInt64} {pc pc' : PopPc UInt64}
    (h : Ordered m k q (popOrder pc) (popCode cfg r pc) m' k' pc') (hok : PopOk c seen xs pc)
    (hlen : xs.length < u64Max) (hseen : seen ≤ xs.length) (hr : r < cfg.readers)
    (hn : m.word .numReaders = .const cfg.readers) (hgate : m.word (.loanDepth r) = .const 0)
    (hcar : m.carried .numReaders = fun _ => ⊥) (hzero : k (.word .numReaders) = 0)
    (hzero' : k (.word (.loanDepth r)) = 0) :
    (m' = m ∧ k' = k ∧ pc'.loom = pc.loom) ∨
      Ordered m k q (loomPopOrder pc.loom) (loomPopCode p r pc.loom) m' k' pc'.loom := by
  cases pc with
  | checkReader =>
      obtain ⟨rfl, rfl, rfl⟩ := quiet_load h hn (by rw [hcar]; rfl) hzero
      refine .inl ⟨rfl, rfl, ?_⟩
      rw [if_neg (Nat.not_le.mpr hr)]
      rfl
  | checkGate =>
      obtain ⟨rfl, rfl, rfl⟩ := quiet_load h hgate rfl hzero'
      exact .inl ⟨rfl, rfl, rfl⟩
  | loadWriteIdx =>
      cases h with
      | load hs => exact .inr (.load hs)
  | loadReadIdx w =>
      cases h with
      | @load _ _ i v hs =>
          have hloom : (if v = w then PopPc.done (.ok none) else .readSlot v : PopPc UInt64).loom =
              if v = w then .done none else .readSlot v := by
            split_ifs <;> rfl
          refine .inr ?_
          dsimp only
          rw [hloom]
          exact .load hs
  | readSlot c' =>
      obtain ⟨rfl, hlt⟩ := hok
      cases h
      refine .inr ?_
      show Ordered m k q .relaxed (loomPopCode p r (.readSlot c')) _ _ _
      rw [loom_readSlot hcap (Nat.add_lt_of_lt_sub ((hlt.trans_le hseen).trans hlen))]
      exact .get
  | advance c' v =>
      cases h
      exact .inr .store
  | idle | done _ => cases h

/-- **An access of the double's `try_push` is one of the ring**, with the load of `num_readers` after the
first. -/
theorem ring_push (hcap : cfg.capacity = loomCapacity) {len : ℕ} {pc : PushPc UInt64} {l : LoomPushPc}
    {H : ℕ → Prop} {cursor : ℕ → ℕ}
    (h : Ordered m k q (loomPushOrder pc.loom) (loomPushCode p cfg.readers pc.loom) m' k' l)
    (hcanon : ∀ v w, pc ≠ .loadNumReaders v w) (hok : PushOk cfg H cursor m.data len pc) (hlen : len < u64Max)
    (hn : m.word .numReaders = .const cfg.readers) (hcar : m.carried .numReaders = fun _ => ⊥)
    (hzero : k (.word .numReaders) = 0)
    (hcell : ∀ r < cfg.readers, m.word (.readIdx r) = .counter (cursor r) ∧ cursor r ≤ len) :
    ∃ pc', pc'.loom = l ∧ (∀ v w, pc' ≠ .loadNumReaders v w) ∧
      (Ordered m k q (pushOrder pc) (pushCode cfg pc) m' k' pc' ∨ ∃ v w, pc = .loadWriteIdx v ∧ m' = m ∧
        Ordered m k q (pushOrder pc) (pushCode cfg pc) m k' (.loadNumReaders v w) ∧
        Ordered m k' q .acquire (pushCode cfg (.loadNumReaders v w)) m k' pc') := by
  cases pc with
  | loadWriteIdx v =>
      cases h with
      | @load _ _ i w hs =>
          refine ⟨.scan v w cfg.readers 0 u64Max, ?_, by simp, .inr ⟨v, w, rfl, rfl, .load hs, ?_⟩⟩
          · exact (if_pos cfg.readers_pos).symm
          · have hload := load_quiet (q := q) (k := k.see .writeIdx i ⊔ Strength.relaxed.takes (m.carried .writeIdx i))
              (o := .acquire) (f := fun n => if n ≤ maxReaders then PushPc.scanFrom cfg v w n 0 u64Max else .panicked) hn
              (by rw [hcar]; rfl) ?_
            · rw [if_pos cfg.readers_le] at hload
              unfold PushPc.scanFrom at hload
              rw [if_pos cfg.readers_pos] at hload
              exact hload
            · show max (Function.update k _ i (.word .numReaders)) 0 = 0
              rw [Function.update_of_ne (by simp), hzero]
              rfl
  | loadNumReaders v w => exact absurd rfl (hcanon v w)
  | scan v w n i minRead =>
      obtain ⟨rfl, rfl, hi, -⟩ := hok
      cases h with
      | @load _ _ j c hs =>
          have hc : c ≤ cursor i := (hs.counter (hcell i hi).1).2.2
          have heq : (PushPc.scanFrom cfg v w cfg.readers (i + 1) (min minRead c)).loom =
              .scanFrom p cfg.readers v w (i + 1) (min minRead c) :=
            loom_scanFrom hcap (hlen.trans (by decide))
              fun _ => (Nat.min_le_right _ _).trans (hc.trans (hcell i hi).2)
          refine ⟨.scanFrom cfg v w cfg.readers (i + 1) (min minRead c), heq, ?_, .inl (.load hs)⟩
          intro v' w'
          unfold PushPc.scanFrom
          split_ifs <;> simp
  | writeSlot v w =>
      obtain ⟨rfl, -⟩ := hok
      change Ordered m k q .relaxed (loomPushCode p cfg.readers (.writeSlot v w)) _ _ _ at h
      rw [loom_writeSlot hcap (Nat.add_lt_of_lt_sub hlen)] at h
      cases h
      exact ⟨.publish v w, rfl, by simp, .inl .put⟩
  | publish v w =>
      cases h
      exact ⟨.bumpTotal, rfl, by simp, .inl .store⟩
  | bumpTotal =>
      cases h
      exact ⟨.done true, rfl, by simp, .inl .modify⟩
  | idle | done _ | panicked => cases h

/-- **An access of the double's `try_pop` is one of the ring.** -/
theorem ring_pop (hcap : cfg.capacity = loomCapacity) {c seen : ℕ} {xs : List UInt64} {pc : PopPc UInt64}
    {l : LoomPopPc} (h : Ordered m k q (loomPopOrder pc.loom) (loomPopCode p r pc.loom) m' k' l)
    (hcanon : pc ≠ .checkReader ∧ pc ≠ .checkGate) (hok : PopOk c seen xs pc) (hlen : xs.length < u64Max)
    (hseen : seen ≤ xs.length) :
    ∃ pc', pc'.loom = l ∧ (pc' ≠ .checkReader ∧ pc' ≠ .checkGate) ∧
      Ordered m k q (popOrder pc) (popCode cfg r pc) m' k' pc' := by
  cases pc with
  | checkReader => exact absurd rfl hcanon.1
  | checkGate => exact absurd rfl hcanon.2
  | loadWriteIdx =>
      cases h with
      | @load _ _ i w hs => exact ⟨.loadReadIdx w, rfl, by simp, .load hs⟩
  | loadReadIdx w =>
      cases h with
      | @load _ _ i v hs =>
          refine ⟨if v = w then .done (.ok none) else .readSlot v, ?_, ?_, .load hs⟩
          · dsimp only
            split_ifs <;> rfl
          · split_ifs <;> simp
  | readSlot c' =>
      obtain ⟨rfl, hlt⟩ := hok
      change Ordered m k q .relaxed (loomPopCode p r (.readSlot c')) _ _ _ at h
      rw [loom_readSlot hcap (Nat.add_lt_of_lt_sub ((hlt.trans_le hseen).trans hlen))] at h
      cases h
      exact ⟨.advance c' _, rfl, by simp, .get⟩
  | advance c' v =>
      cases h
      exact ⟨.done (.ok (some v)), rfl, by simp, .store⟩
  | done res => cases res <;> cases h
  | idle => cases h

/-- Nothing is published in the load of `num_readers`. -/
theorem loom_publishes (pc : PushPc UInt64) : pc.loom.publishes = pc.publishes := by
  cases pc <;> rfl

/-- No access stores to `num_readers`. -/
theorem push_numReaders {pc pc' : PushPc UInt64} (h : Ordered m k q (pushOrder pc) (pushCode cfg pc) m' k' pc') :
    m'.carried .numReaders = m.carried .numReaders := by
  cases pc with
  | publish _ _ | bumpTotal =>
      cases h
      exact Tracked.carried_store_ne _ (by simp) _ _
  | idle | done _ | panicked => cases h
  | _ => cases h; rfl

theorem pop_numReaders {pc pc' : PopPc UInt64} (h : Ordered m k q (popOrder pc) (popCode cfg r pc) m' k' pc') :
    m'.carried .numReaders = m.carried .numReaders := by
  cases pc with
  | advance _ _ =>
      cases h
      exact Tracked.carried_store_ne _ (by simp) _ _
  | idle | done _ => cases h
  | _ => cases h; rfl

end Access

/-! ## The simulations -/

section Simulations

variable {s s' : OrderedState UInt64} {m : Tracked Loc Party UInt64} {k : Knowledge Loc Party}
  {e : Option (Event Party (Op UInt64) (Answer UInt64))}

/-- The invariant of the ring, whose `num_readers` was never stored to. -/
structure Twin (cfg : Config) (s : OrderedState UInt64) : Prop where
  traced : Traced cfg s
  silent : s.mem.carried .numReaders = fun _ => ⊥

theorem twin_fresh (cfg : Config) (data : ℕ → UInt64) : Twin cfg (OrderedState.fresh cfg data) :=
  ⟨traced_fresh cfg data, rfl⟩

theorem Twin.step (h : Twin cfg s) (hst : OrderedStep cfg False s e s') (hlen : s'.stream.length < u64Size) :
    Twin cfg s' := by
  refine ⟨h.traced.step hst hlen, ?_⟩
  cases hst with
  | push hacc => exact (push_numReaders hacc).trans h.silent
  | pop hacc => exact (pop_numReaders hacc).trans h.silent
  | _ => exact h.silent

theorem Twin.run {es : List (Option (Event Party (Op UInt64) (Answer UInt64)))} (h : Twin cfg s)
    (hrun : Run (ordered cfg False) s es s') (hlen : s'.stream.length < u64Size) : Twin cfg s' :=
  hrun.invariant_of_bound (fun s => s.stream.length < u64Size)
    (fun _ _ _ hst hlt => (length_ordered_le hst).trans_lt hlt) (fun _ _ _ hs hst hlt => hs.step hst hlt) h hlen

theorem Twin.gate (h : Twin cfg s) (r : ℕ) : s.mem.word (.loanDepth r) = .const 0 := by
  obtain ⟨-, t, hf, hi⟩ := h.traced
  rw [← hf.mem]
  exact hi.gate r

/-- Of a word that was never stored to only its first value is known. -/
theorem Twin.know_const (h : Twin cfg s) {x : Loc} {n : ℕ} (hx : s.mem.word x = .const n) (q : Party) :
    s.know q (.word x) = 0 := by
  have hle : s.know q (.word x) ≤ (s.mem.word x).top := h.traced.1.known q (.word x)
  rw [hx] at hle
  exact Nat.le_zero.mp hle

theorem Twin.reader_lt (h : Twin cfg s) {r : ℕ} (hpc : s.pop r ≠ .idle) : r < cfg.readers := by
  by_contra hge
  exact hpc (h.traced.coheres.idle r (Nat.not_lt.mp hge))

theorem of_pushStep (pc : PushPc UInt64) :
    (DoubleState.of s).pushStep m k pc.loom = .of (s.pushStep m k pc) := by
  unfold DoubleState.pushStep DoubleState.of OrderedState.pushStep
  dsimp only
  rw [loom_publishes]

theorem of_update_pop (r : ℕ) (pc : PopPc UInt64) : Function.update (DoubleState.of s).pop r pc.loom =
    fun q => (Function.update s.pop r pc q).loom := by
  funext q
  by_cases hq : q = r
  · subst hq
    simp
  · simp [hq, DoubleState.of]

theorem of_popStep (r : ℕ) (pc : PopPc UInt64) :
    (DoubleState.of s).popStep m k r pc.loom = .of (s.popStep m k r pc) := by
  unfold DoubleState.popStep
  rw [of_update_pop]
  rfl

/-- **Every step of the ring is one of the double**, or a check that the double does not make. -/
theorem double_step (hcap : cfg.capacity = loomCapacity) (h : Twin cfg s)
    (hst : OrderedStep cfg False s e s') (hlen : s'.stream.length < u64Max) :
    (e = none ∧ DoubleState.of s' = .of s) ∨ DoubleStep p cfg.readers (.of s) e (.of s') := by
  have hc := h.traced.coheres
  have hle := length_ordered_le hst
  cases hst with
  | callPush value hidle => exact .inr (.callPush value (congrArg PushPc.loom hidle))
  | @push m k pc hacc =>
      have hacc' := double_push (p := p) hcap hacc hc.push (hle.trans_lt hlen) hc.numReaders h.silent
        (h.know_const hc.numReaders _) fun r hr => ⟨hc.cell r hr, hc.cursor_le r hr⟩
      rcases hacc' with ⟨hpub, rfl, rfl, hpc⟩ | hacc'
      · refine .inl ⟨rfl, ?_⟩
        rw [← of_pushStep, hpc]
        unfold DoubleState.pushStep
        show DoubleState.mk _ _ _ (Function.update s.know _ _) (s.stream ++ s.push.loom.publishes) = _
        rw [Function.update_eq_self, loom_publishes, hpub, List.append_nil]
        rfl
      · rw [← of_pushStep]
        exact .inr (.push hacc')
  | retPush hdone => exact .inr (.retPush (congrArg PushPc.loom hdone))
  | @callPop r hr hidle =>
      have hst := DoubleStep.callPop (p := p) (d := .of s) hr (congrArg PopPc.loom hidle)
      rw [show LoomPopPc.loadWriteIdx = (PopPc.checkReader : PopPc UInt64).loom from rfl, of_update_pop] at hst
      exact .inr hst
  | @pop r m k pc hacc =>
      have hr : r < cfg.readers := h.reader_lt fun hpc => by
        rw [hpc] at hacc
        cases hacc
      obtain ⟨seen, hseen, hok⟩ := hc.pop r hr
      have hacc' := double_pop (p := p) hcap hacc hok (hle.trans_lt hlen) hseen hr hc.numReaders (h.gate r) h.silent
        (h.know_const hc.numReaders _) (h.know_const (h.gate r) _)
      rcases hacc' with ⟨rfl, rfl, hpc⟩ | hacc'
      · refine .inl ⟨rfl, ?_⟩
        rw [← of_popStep, hpc]
        show DoubleState.mk _ _ (Function.update (DoubleState.of s).pop r ((DoubleState.of s).pop r))
          (Function.update s.know _ _) _ = _
        rw [Function.update_eq_self, Function.update_eq_self]
        rfl
      · rw [← of_popStep]
        exact .inr (.pop hacc')
  | @retPop r res hdone =>
      have hr : r < cfg.readers := h.reader_lt (by rw [hdone]; simp)
      obtain ⟨seen, -, hok⟩ := hc.pop r hr
      rw [hdone] at hok
      cases res with
      | error _ => exact hok.elim
      | ok value =>
          have hst := DoubleStep.retPop (p := p) (n := cfg.readers) (d := .of s) (congrArg PopPc.loom hdone)
          rw [show LoomPopPc.idle = (PopPc.idle : PopPc UInt64).loom from rfl, of_update_pop] at hst
          exact .inr hst
  | replacePush hstop => exact hstop.elim
  | replacePop _ hstop => exact hstop.elim

/-- **The double simulates the ring.** -/
theorem double_of_ring (p : Profile) (hcap : cfg.capacity = loomCapacity) :
    Simulates (ordered cfg False) (double p cfg) (fun s : OrderedState UInt64 => s.stream.length < u64Max)
      fun s d => Twin cfg s ∧ d = .of s := by
  refine ⟨fun s e s' hst hlt => (length_ordered_le hst).trans_lt hlt, ?_⟩
  rintro s e s' d ⟨htwin, rfl⟩ hst hlt
  have htwin' := htwin.step hst (hlt.trans (by decide))
  rcases double_step (p := p) hcap htwin hst hlt with ⟨rfl, hsame⟩ | hst'
  · exact ⟨[], _, .nil, rfl, htwin', hsame.symm⟩
  · refine ⟨[e], _, .single hst', ?_, htwin', rfl⟩
    cases e <;> rfl

/-- Nobody is in an access that the double does not make. -/
structure Canonical (s : OrderedState UInt64) : Prop where
  push : ∀ v w, s.push ≠ .loadNumReaders v w
  pop : ∀ r, s.pop r ≠ .checkReader ∧ s.pop r ≠ .checkGate

theorem Canonical.set_pop (h : Canonical s) {r : ℕ} {pc : PopPc UInt64}
    (hpc : pc ≠ .checkReader ∧ pc ≠ .checkGate) (q : ℕ) :
    Function.update s.pop r pc q ≠ .checkReader ∧ Function.update s.pop r pc q ≠ .checkGate := by
  by_cases hq : q = r
  · subst hq
    rwa [Function.update_self]
  · rw [Function.update_of_ne hq]
    exact h.pop q

theorem loom_eq_idle {pc : PushPc UInt64} (h : pc.loom = .idle) : pc = .idle := by
  cases pc <;> first | rfl | cases h

theorem loom_eq_done {pc : PushPc UInt64} {b : Bool} (h : pc.loom = .done b) : pc = .done b := by
  cases pc <;> cases h
  rfl

theorem loom_pop_eq_idle {pc : PopPc UInt64} (h : pc.loom = .idle) : pc = .idle := by
  cases pc with
  | idle => rfl
  | done res => cases res <;> cases h
  | _ => cases h

theorem loom_pop_eq_done {pc : PopPc UInt64} {res : Option UInt64} (h : pc.loom = .done res) :
    pc = .done (.ok res) := by
  cases pc with
  | done res' =>
      cases res' <;> cases h
      rfl
  | _ => cases h

/-- A reader that learns nothing. -/
theorem quiet_pop {r : ℕ} {pc : PopPc UInt64}
    (hacc : Ordered s.mem (s.know (.reader r)) (.reader r) (popOrder (s.pop r)) (popCode cfg r (s.pop r)) s.mem
      (s.know (.reader r)) pc) :
    OrderedStep cfg False s none { s with pop := Function.update s.pop r pc } := by
  have hst : OrderedStep cfg False s none _ := .pop hacc
  unfold OrderedState.popStep at hst
  rwa [Function.update_eq_self] at hst

/-- The checks of the reader and of the gate succeed. -/
theorem run_checks (h : Twin cfg s) {r : ℕ} (hr : r < cfg.readers) (hpc : s.pop r = .checkReader) :
    Run (ordered cfg False) s [none, none] { s with pop := Function.update s.pop r .loadWriteIdx } := by
  have hn := h.traced.coheres.numReaders
  have h₁ : OrderedStep cfg False s none { s with pop := Function.update s.pop r .checkGate } := by
    refine quiet_pop ?_
    have hload := load_quiet (q := .reader r) (o := .acquire) (f := fun n =>
      if r ≥ n then PopPc.done (.error (.invalidReaderId r (wrappingSub n 1))) else (.checkGate : PopPc UInt64)) hn
      (by rw [h.silent]; rfl) (h.know_const hn (.reader r))
    rw [if_neg (Nat.not_le.mpr hr)] at hload
    rw [hpc]
    exact hload
  have h₂ : OrderedStep cfg False { s with pop := Function.update s.pop r .checkGate } none
      { s with pop := Function.update (Function.update s.pop r .checkGate) r .loadWriteIdx } := by
    refine quiet_pop ?_
    dsimp only
    rw [Function.update_self]
    exact load_quiet (h.gate r) rfl (h.know_const (h.gate r) (.reader r))
  rw [Function.update_idem] at h₂
  exact (Run.single h₁).snoc h₂

theorem loom_eq_panicked {pc : PushPc UInt64} (h : pc.loom = .panicked) : pc = .panicked := by
  cases pc <;> first | rfl | cases h

theorem loom_pop_eq_panicked {pc : PopPc UInt64} (h : pc.loom = .panicked) : ∃ err, pc = .done (.error err) := by
  cases pc with
  | done res =>
      cases res with
      | error err => exact ⟨err, rfl⟩
      | ok _ => cases h
  | _ => cases h

/-- **Every step of the double is a run of the ring.** -/
theorem ring_step (hcap : cfg.capacity = loomCapacity) (h : Twin cfg s) (hcanon : Canonical s) {d : DoubleState}
    (hst : DoubleStep p cfg.readers (.of s) e d) (hlen : s.stream.length < u64Max) :
    ∃ es s', Run (ordered cfg False) s es s' ∧ visible es = e.toList ∧ Canonical s' ∧ d = .of s' := by
  have hc := h.traced.coheres
  cases hst with
  | callPush value hidle =>
      exact ⟨_, _, .single (.callPush value (loom_eq_idle hidle)), rfl, ⟨by simp, hcanon.pop⟩, rfl⟩
  | @push m k l hacc =>
      obtain ⟨pc, rfl, hpc, hacc' | ⟨v, w, hload, rfl, hacc₁, hacc₂⟩⟩ := ring_push hcap hacc hcanon.push hc.push hlen
        hc.numReaders h.silent (h.know_const hc.numReaders _) fun r hr => ⟨hc.cell r hr, hc.cursor_le r hr⟩
      · exact ⟨[none], _, .single (.push hacc'), rfl, ⟨hpc, hcanon.pop⟩, of_pushStep pc⟩
      · have h₁ := Run.single (S := ordered cfg False) (.push hacc₁)
        rw [← OrderedState.pushStep_know (s := s) (k := k)] at hacc₂
        have h₂ := h₁.snoc (.push hacc₂)
        refine ⟨[none, none], _, h₂, rfl, ⟨hpc, hcanon.pop⟩, ?_⟩
        rw [of_pushStep]
        unfold OrderedState.pushStep
        dsimp only
        rw [hload, Function.update_idem]
        show DoubleState.of ⟨_, _, _, _, s.stream ++ []⟩ = DoubleState.of ⟨_, _, _, _, s.stream ++ [] ++ []⟩
        rw [List.append_nil, List.append_nil]
        rfl
  | retPush hdone =>
      exact ⟨_, _, .single (.retPush (loom_eq_done hdone)), rfl, ⟨by simp, hcanon.pop⟩, rfl⟩
  | @callPop r hr hidle =>
      have h₁ := Run.single (S := ordered cfg False) (.callPop hr (loom_pop_eq_idle hidle))
      have h₂ := h₁.append (run_checks (h.step h₁.of_singleton (hlen.trans (by decide))) hr
        (Function.update_self r _ s.pop))
      refine ⟨_, _, h₂, rfl, ⟨hcanon.push, fun q => ?_⟩, ?_⟩
      · rw [Function.update_idem]
        exact hcanon.set_pop ⟨by simp, by simp⟩ q
      · rw [show LoomPopPc.loadWriteIdx = (PopPc.loadWriteIdx : PopPc UInt64).loom from rfl, of_update_pop]
        dsimp only
        rw [Function.update_idem]
        rfl
  | @pop r m k l hacc =>
      have hr : r < cfg.readers := h.reader_lt fun hpc => by
        change Ordered _ _ _ _ (loomPopCode p r (s.pop r).loom) _ _ _ at hacc
        rw [hpc] at hacc
        cases hacc
      obtain ⟨seen, hseen, hok⟩ := hc.pop r hr
      obtain ⟨pc, rfl, hpc, hacc'⟩ := ring_pop hcap hacc (hcanon.pop r) hok hlen hseen
      exact ⟨[none], _, .single (.pop hacc'), rfl, ⟨hcanon.push, hcanon.set_pop hpc⟩, of_popStep r pc⟩
  | @retPop r res hdone =>
      refine ⟨_, _, .single (.retPop (loom_pop_eq_done hdone)), rfl,
        ⟨hcanon.push, hcanon.set_pop ⟨by simp, by simp⟩⟩, ?_⟩
      rw [show LoomPopPc.idle = (PopPc.idle : PopPc UInt64).loom from rfl, of_update_pop]
      rfl

/-- The stream of the double only grows. -/
theorem length_double_le {n : ℕ} {d d' : DoubleState} (hst : DoubleStep p n d e d') :
    d.stream.length ≤ d'.stream.length := by
  cases hst with
  | @push m k pc _ =>
      show d.stream.length ≤ (d.stream ++ d.push.publishes).length
      rw [List.length_append]
      exact Nat.le_add_right _ _
  | _ => exact le_rfl

/-- **The ring simulates the double.** -/
theorem ring_of_double (p : Profile) (hcap : cfg.capacity = loomCapacity) :
    Simulates (double p cfg) (ordered cfg False) (fun d => d.stream.length < u64Max)
      fun d s => Twin cfg s ∧ Canonical s ∧ d = .of s := by
  refine ⟨fun d e d' hst hlt => (length_double_le hst).trans_lt hlt, ?_⟩
  rintro d e d' s ⟨htwin, hcanon, rfl⟩ hst hlt
  obtain ⟨es, s', hrun, hvis, hcanon', rfl⟩ := ring_step hcap htwin hcanon hst ((length_double_le hst).trans_lt hlt)
  exact ⟨es, s', hrun, hvis, htwin.run hrun (hlt.trans (by decide)), hcanon', rfl⟩

theorem canonical_fresh (cfg : Config) (data : ℕ → UInt64) : Canonical (OrderedState.fresh cfg data) :=
  ⟨by simp [OrderedState.fresh], fun r => by simp [OrderedState.fresh]⟩

theorem loom_slot (hcap : cfg.capacity = loomCapacity) (idx : ℕ) : LoomRing.slot idx = cfg.slot idx := by
  unfold LoomRing.slot Config.slot
  rw [hcap]

/-- An access of the double that races is one of the ring that does. -/
theorem races_push (hcap : cfg.capacity = loomCapacity) {pc : PushPc UInt64} {n : ℕ}
    (h : Races m k (loomPushCode p n pc.loom)) : Races m k (pushCode cfg pc) := by
  cases pc with
  | writeSlot v w =>
      change k (.wrote (LoomRing.slot w)) ≠ _ ∨ ∃ q, k (.read q (LoomRing.slot w)) ≠ _ at h
      rw [loom_slot hcap] at h
      exact h
  | _ => exact h.elim

theorem races_pop (hcap : cfg.capacity = loomCapacity) {pc : PopPc UInt64} {r : ℕ}
    (h : Races m k (loomPopCode p r pc.loom)) : Races m k (popCode cfg r pc) := by
  cases pc with
  | readSlot c =>
      change k (.wrote (LoomRing.slot c)) ≠ _ at h
      rw [loom_slot hcap] at h
      exact h
  | done res => cases res <;> exact h.elim
  | _ => exact h.elim

end Simulations

/-! ## Histories -/

/-- **The double has the histories of the ring.** With the capacity of the double and fewer than `2^64 - 1`
messages, in every profile, the calls and returns of a run of one are those of a run of the other that leaves
the same memory, the same knowledge and the same stream. -/
theorem double_histories (p : Profile) (hcap : cfg.capacity = loomCapacity) (data : ℕ → UInt64)
    (h : List (Event Party (Op UInt64) (Answer UInt64))) (d : DoubleState) (hlen : d.stream.length < u64Max) :
    (∃ es, Run (double p cfg) (.of (.fresh cfg data)) es d ∧ visible es = h) ↔
      ∃ es s, Run (ordered cfg False) (.fresh cfg data) es s ∧ visible es = h ∧ DoubleState.of s = d := by
  constructor
  · rintro ⟨es, hrun, rfl⟩
    obtain ⟨fs, s, hrun', hvis, -, -, rfl⟩ :=
      (ring_of_double p hcap).run ⟨twin_fresh cfg data, canonical_fresh cfg data, rfl⟩ hrun hlen
    exact ⟨fs, s, hrun', hvis, rfl⟩
  · rintro ⟨es, s, hrun, rfl, rfl⟩
    obtain ⟨fs, d, hrun', hvis, -, rfl⟩ := (double_of_ring p hcap).run ⟨twin_fresh cfg data, rfl⟩ hrun hlen
    exact ⟨fs, hrun', hvis⟩

/-- A push on a double with one reader, and a pop up to its read of the slot. -/
theorem run_double : ∃ es d, Run (double checked twoSlots) (.of (.fresh twoSlots fun _ => 0)) es d ∧
    visible es = [.call .producer (.push 7), .ret .producer (.pushed true), .call (.reader 0) (.pop 0)] ∧
    d.stream = [7] ∧ d.pop 0 = .readSlot 0 := by
  have h₀ := Run.single (S := double checked twoSlots) (s := .of (.fresh twoSlots fun _ => 0)) (.callPush 7 rfl)
  have h₁ := h₀.snoc (.push (.load ⟨Nat.le_refl 0, rfl, False.elim⟩))
  have h₂ := h₁.snoc (.push (.load ⟨Nat.le_refl 0, rfl, False.elim⟩))
  have h₃ := h₂.snoc (.push .put)
  have h₄ := h₃.snoc (.push .store)
  have h₅ := h₄.snoc (.push .modify)
  have h₆ := h₅.snoc (.retPush rfl)
  have h₇ := h₆.snoc (.callPop (r := 0) (by decide) rfl)
  have h₈ := h₇.snoc (.pop (r := 0) (.load (i := 1) (v := 1) ⟨Nat.zero_le 1, rfl, False.elim⟩))
  have h₉ := h₈.snoc (.pop (r := 0) (.load (i := 0) (v := 0) ⟨Nat.le_refl 0, rfl, False.elim⟩))
  exact ⟨_, _, h₉, rfl, rfl, rfl⟩

/-- The ring can do the same. -/
theorem double_histories_pop : ∃ es s, Run (ordered twoSlots False) (.fresh twoSlots fun _ => 0) es s ∧
    visible es = [.call .producer (.push 7), .ret .producer (.pushed true), .call (.reader 0) (.pop 0)] ∧
    (DoubleState.of s).pop 0 = .readSlot 0 := by
  obtain ⟨es, d, hrun, hvis, hstream, hpop⟩ := run_double
  obtain ⟨fs, s, hrun', hvis', rfl⟩ :=
    (double_histories checked rfl (fun _ => 0) _ d (by rw [hstream]; decide)).mp ⟨es, hrun, rfl⟩
  exact ⟨fs, s, hrun', hvis'.trans hvis, hpop⟩

/-- **The double never panics and its slots never race**: no checked operator overflows, and every access of a
slot is ordered after every conflicting one. -/
theorem double_clean (p : Profile) (hcap : cfg.capacity = loomCapacity) {d : DoubleState}
    (h : Reachable (double p cfg) d) (hlen : d.stream.length < u64Max) :
    (d.push ≠ .panicked ∧ ¬ Races d.mem (d.know .producer) (loomPushCode p cfg.readers d.push)) ∧
      ∀ r, d.pop r ≠ .panicked ∧ ¬ Races d.mem (d.know (.reader r)) (loomPopCode p r (d.pop r)) := by
  obtain ⟨s, -, htwin, -, rfl⟩ := (ring_of_double p hcap).reachable (by
    rintro d ⟨data, rfl⟩
    exact ⟨_, ⟨data, rfl⟩, twin_fresh cfg data, canonical_fresh cfg data, rfl⟩) h hlen
  have hc := htwin.traced.coheres
  obtain ⟨⟨hpush, -⟩, hpop⟩ := htwin.traced.clean
  refine ⟨⟨fun hpanic => ?_, fun hrace => hpush (races_push hcap hrace)⟩, fun r => ⟨fun hpanic => ?_,
    fun hrace => (hpop r).1 (races_pop hcap hrace)⟩⟩
  · have hok := hc.push
    rw [loom_eq_panicked hpanic] at hok
    exact hok
  · obtain ⟨err, hpc⟩ := loom_pop_eq_panicked hpanic
    obtain ⟨seen, -, hok⟩ := hc.pop r (htwin.reader_lt (by rw [hpc]; simp))
    rw [hpc] at hok
    exact hok

theorem double_clean_pop : ∃ d : DoubleState, d.pop 0 = .readSlot 0 ∧
    ¬ Races d.mem (d.know (.reader 0)) (loomPopCode checked 0 (d.pop 0)) := by
  obtain ⟨es, d, hrun, -, hstream, hpop⟩ := run_double
  have hreach := hrun.reachable (Reachable.init (S := double checked twoSlots) ⟨fun _ => 0, rfl⟩)
  exact ⟨d, hpop, ((double_clean checked rfl hreach (by rw [hstream]; decide)).2 0).2⟩

end ShmRings.Threads
