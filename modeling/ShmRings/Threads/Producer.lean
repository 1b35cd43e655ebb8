import ShmRings.Lib.Window
import ShmRings.Threads.Code

/-!
# What the producer knows

The producer's part of every invariant, over any memory in which its loads are conservative: what
it reads of `write_idx` is its own last store, and what it reads of a cursor of `H` is not ahead of
that cursor. One cursor of `H` is enough.

* `push_access`: what an access of the producer does to memory;
* `PushOk`: what holds of the local variables at each program point;
* **`PushOk.step`**: an access of the producer keeps it; `PushOk.mono`: so does a cursor that moves
  forward; **`PushOk.room`**: at a slot write no cursor of `H` lags by the capacity;
* **`PushOk.counter`**, **`PushOk.holds`**: the access leaves `write_idx` the length of the stream,
  and every window of `H` full of the stream's messages.
-/

set_option autoImplicit false

namespace ShmRings.Threads

open Coherent

variable {α : Type} {cfg : Config} {sc : Prop} {m m' : Memory Loc α} {vw vw' : View Loc}
  {pc pc' : PushPc α}

/-- **What an access of the producer does**: a load, the slot write, the publication, or the
diagnostic counter. -/
theorem push_access (h : Access sc m vw (pushCode cfg pc) m' vw' pc') :
    (pc.publishes = [] ∧ m' = m) ∨
    (∃ value w, pc = .writeSlot value w ∧ m' = m.put (cfg.slot w) value ∧ vw' = vw ∧
      pc' = .publish value w) ∨
    (∃ value w, pc = .publish value w ∧ m' = m.store .writeIdx (wrappingAdd w 1) ∧
      vw' = Function.update vw .writeIdx ((m.word .writeIdx).top + 1) ∧ pc' = .bumpTotal) ∨
    (pc = .bumpTotal ∧ m' = m.store .totalWritten (wrappingAdd (m.now .totalWritten) 1) ∧
      vw' = Function.update vw .totalWritten ((m.word .totalWritten).top + 1) ∧ pc' = .done true) := by
  cases pc with
  | loadWriteIdx _ | loadNumReaders _ _ | scan _ _ _ _ _ =>
      simp only [pushCode] at h
      cases h with
      | load _ => exact .inl ⟨rfl, rfl⟩
  | writeSlot value w =>
      simp only [pushCode] at h
      cases h
      exact .inr (.inl ⟨_, _, rfl, rfl, rfl, rfl⟩)
  | publish value w =>
      simp only [pushCode] at h
      cases h
      exact .inr (.inr (.inl ⟨_, _, rfl, rfl, rfl, rfl⟩))
  | bumpTotal =>
      simp only [pushCode] at h
      cases h
      exact .inr (.inr (.inr ⟨rfl, rfl, rfl, rfl⟩))
  | idle | done _ | panicked => simp only [pushCode] at h; cases h

/-- What the local variables mean, when `len` messages are published, the cursors in `H` are at
`cur`, and the slots hold `data`. -/
def PushOk (cfg : Config) (H : ℕ → Prop) (cur : ℕ → ℕ) (data : ℕ → α) (len : ℕ) : PushPc α → Prop
  | .loadNumReaders _ w => w = len
  | .scan _ w n i minRead =>
      w = len ∧ n = cfg.readers ∧ i < n ∧ ∀ r < i, H r → minRead ≤ cur r
  | .writeSlot _ w => w = len ∧ ∀ r < cfg.readers, H r → len < cur r + cfg.capacity
  | .publish value w =>
      w = len ∧ (∀ r < cfg.readers, H r → len < cur r + cfg.capacity) ∧ data (cfg.slot len) = value
  | .panicked => False
  | _ => True

variable {H : ℕ → Prop} {cur cur' : ℕ → ℕ} {data : ℕ → α} {len : ℕ}

theorem PushOk.mono (h : PushOk cfg H cur data len pc) (hle : ∀ r, H r → cur r ≤ cur' r) :
    PushOk cfg H cur' data len pc := by
  cases pc with
  | scan value w n i minRead =>
      obtain ⟨hw, hn, hi, hmin⟩ := h
      exact ⟨hw, hn, hi, fun r hr hH => (hmin r hr hH).trans (hle r hH)⟩
  | writeSlot value w =>
      exact ⟨h.1, fun r hr hH => (h.2 r hr hH).trans_le (Nat.add_le_add_right (hle r hH) _)⟩
  | publish value w =>
      exact ⟨h.1, fun r hr hH => (h.2.1 r hr hH).trans_le (Nat.add_le_add_right (hle r hH) _), h.2.2⟩
  | _ => exact h

theorem PushOk.weaken {H' : ℕ → Prop} (h : PushOk cfg H cur data len pc) (hH : ∀ r, H' r → H r) :
    PushOk cfg H' cur data len pc := by
  cases pc with
  | scan value w n i minRead =>
      obtain ⟨hw, hn, hi, hmin⟩ := h
      exact ⟨hw, hn, hi, fun r hr hr' => hmin r hr (hH r hr')⟩
  | writeSlot value w => exact ⟨h.1, fun r hr hr' => h.2 r hr (hH r hr')⟩
  | publish value w => exact ⟨h.1, fun r hr hr' => h.2.1 r hr (hH r hr'), h.2.2⟩
  | _ => exact h

/-- **The decision after the scan is conservative**: one cursor of `H` bounds the minimum. -/
theorem pushOk_scanFrom {value : α} {i minRead : ℕ} (hi : i ≤ cfg.readers)
    (hmin : ∀ r < i, H r → minRead ≤ cur r) (hlen : len < u64Size)
    (hH : ∃ r < cfg.readers, H r ∧ cur r ≤ len) :
    PushOk cfg H cur data len (PushPc.scanFrom cfg value len cfg.readers i minRead) := by
  unfold PushPc.scanFrom
  split_ifs with hlt hfull
  · exact ⟨rfl, rfl, hlt, hmin⟩
  · trivial
  · have hin : i = cfg.readers := by omega
    subst hin
    obtain ⟨q, hq, hHq, hle⟩ := hH
    have hmq := hmin q hq hHq
    rw [wrappingSub_eq (by omega) hlen] at hfull
    refine ⟨rfl, fun r hr hHr => ?_⟩
    have := hmin r hr hHr
    omega

/-- **An access of the producer keeps what it knows.** -/
theorem PushOk.step (h : Access sc m vw (pushCode cfg pc) m' vw' pc')
    (hok : PushOk cfg H cur m.data len pc) (hlen : len < u64Size)
    (hw : ∀ i v, Sees sc m vw .writeIdx i v → v = len)
    (hn : ∀ i v, Sees sc m vw .numReaders i v → v = cfg.readers)
    (hc : ∀ r i v, H r → Sees sc m vw (.readIdx r) i v → v ≤ cur r)
    (hH : ∃ r < cfg.readers, H r ∧ cur r ≤ len) :
    PushOk cfg H cur m'.data (len + pc.publishes.length) pc' := by
  cases pc with
  | loadWriteIdx value =>
      simp only [pushCode] at h
      cases h with
      | load hs => exact hw _ _ hs
  | loadNumReaders value w =>
      simp only [pushCode] at h
      cases h with
      | load hs =>
          obtain rfl : w = len := hok
          rw [hn _ _ hs]
          change PushOk cfg H cur m.data w (if cfg.readers ≤ maxReaders then _ else _)
          rw [if_pos cfg.readers_le]
          exact pushOk_scanFrom (Nat.zero_le _) (fun r hr => absurd hr (Nat.not_lt_zero r)) hlen hH
  | scan value w n i minRead =>
      obtain ⟨rfl, rfl, hi, hmin⟩ := hok
      simp only [pushCode] at h
      cases h with
      | load hs =>
          refine pushOk_scanFrom hi (fun r hr hHr => ?_) hlen hH
          rcases Nat.lt_succ_iff_lt_or_eq.mp hr with hlt | rfl
          · exact (Nat.min_le_left _ _).trans (hmin r hlt hHr)
          · exact (Nat.min_le_right _ _).trans (hc _ _ _ hHr hs)
  | writeSlot value w =>
      obtain ⟨rfl, hroom⟩ := hok
      simp only [pushCode] at h
      cases h
      exact ⟨rfl, hroom, by simp [PushPc.publishes]⟩
  | publish value w => simp only [pushCode] at h; cases h; trivial
  | bumpTotal => simp only [pushCode] at h; cases h; trivial
  | idle | done _ | panicked => simp only [pushCode] at h; cases h

/-- **At a slot write no cursor of `H` lags by the capacity.** -/
theorem PushOk.room {value : α} {w r : ℕ} (h : PushOk cfg H cur data len (.writeSlot value w))
    (hr : r < cfg.readers) (hH : H r) : w = len ∧ len < cur r + cfg.capacity :=
  ⟨h.1, h.2 r hr hH⟩

/-! ## What the producer leaves alone -/

/-- Only `write_idx` and the diagnostic counter are the producer's. -/
theorem push_word (h : Access sc m vw (pushCode cfg pc) m' vw' pc') {x : Loc}
    (hw : x ≠ .writeIdx) (ht : x ≠ .totalWritten) : m'.word x = m.word x := by
  rcases push_access h with ⟨-, rfl⟩ | ⟨_, _, -, rfl, -, -⟩ | ⟨_, _, -, rfl, -, -⟩ | ⟨-, rfl, -, -⟩
  · rfl
  · rfl
  · exact Memory.store_word_ne _ hw _
  · exact Memory.store_word_ne _ ht _

/-- **`write_idx` counts the published messages**, and the producer has seen its own last store. -/
theorem PushOk.counter (h : Access sc m vw (pushCode cfg pc) m' vw' pc')
    (hok : PushOk cfg H cur m.data len pc) (hcell : m.word .writeIdx = .counter len)
    (hown : vw .writeIdx = len) (hlen : len + pc.publishes.length < u64Size) :
    m'.word .writeIdx = .counter (len + pc.publishes.length) ∧
      vw' .writeIdx = len + pc.publishes.length := by
  rcases push_access h with ⟨hpub, rfl⟩ | ⟨_, _, rfl, rfl, rfl, -⟩ |
    ⟨value, w, rfl, rfl, rfl, -⟩ | ⟨rfl, rfl, rfl, -⟩
  · obtain ⟨hlo, hhi⟩ := h.view_le .writeIdx (by rw [hcell, Cell.counter_top, hown])
    rw [hcell, Cell.counter_top] at hhi
    rw [hpub, List.length_nil, Nat.add_zero]
    exact ⟨hcell, by omega⟩
  · exact ⟨hcell, hown⟩
  · obtain rfl : w = len := hok.1
    simp only [PushPc.publishes, List.length_singleton] at hlen ⊢
    rw [Memory.store_word_self, hcell, wrappingAdd_eq hlen, Cell.counter_store, Function.update_self,
      Cell.counter_top]
    exact ⟨rfl, rfl⟩
  · refine ⟨?_, ?_⟩
    · rw [Memory.store_word_ne _ (by decide)]
      exact hcell
    · rw [Function.update_of_ne (by decide)]
      exact hown

theorem PushOk.now (h : Access sc m vw (pushCode cfg pc) m' vw' pc')
    (hok : PushOk cfg H cur m.data len pc) (hnow : m.now .writeIdx = len)
    (hlen : len + pc.publishes.length < u64Size) :
    m'.now .writeIdx = len + pc.publishes.length := by
  rcases push_access h with ⟨hpub, rfl⟩ | ⟨_, _, rfl, rfl, -⟩ | ⟨value, w, rfl, rfl, -⟩ | ⟨rfl, rfl, -⟩
  · rw [hpub]
    exact hnow
  · exact hnow
  · obtain rfl : w = len := hok.1
    rw [Memory.store_now_self]
    exact wrappingAdd_eq hlen
  · rw [Memory.store_now_ne _ (by decide)]
    exact hnow

/-- **The slot write leaves the windows of `H` alone, and the publication extends them.** -/
theorem PushOk.holds {xs : List α} {r : ℕ} (h : Access sc m vw (pushCode cfg pc) m' vw' pc')
    (hok : PushOk cfg H cur m.data xs.length pc) (hr : r < cfg.readers) (hH : H r)
    (hlag : xs.length ≤ cur r + cfg.capacity) (hholds : Window.Holds cfg.capacity m.data xs (cur r)) :
    Window.Holds cfg.capacity m'.data (xs ++ pc.publishes) (cur r) ∧
      xs.length + pc.publishes.length ≤ cur r + cfg.capacity := by
  rcases push_access h with ⟨hpub, rfl⟩ | ⟨value, w, rfl, rfl, -, -⟩ | ⟨value, w, rfl, rfl, -, -⟩ |
    ⟨rfl, rfl, -, -⟩
  · rw [hpub, List.append_nil]
    exact ⟨hholds, hlag⟩
  · obtain ⟨rfl, hroom⟩ := hok.room hr hH
    refine ⟨?_, hlag⟩
    simp only [PushPc.publishes, List.append_nil, Memory.put_data, cfg.slot_eq_mod]
    exact hholds.put hroom value
  · obtain ⟨-, hroom, hslot⟩ := hok
    refine ⟨?_, hroom r hr hH⟩
    rw [cfg.slot_eq_mod] at hslot
    exact hholds.push hslot
  · simp only [PushPc.publishes, List.append_nil]
    exact ⟨hholds, hlag⟩

end ShmRings.Threads
