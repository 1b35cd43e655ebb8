import ShmRings.Threads.Linear

/-!
# Diagnostics beside a running ring

`slowest_lag`, `len` and `is_empty` load `write_idx` first and the cursors after it. The cursors may have
passed the value loaded by then, and the subtraction wraps.

* `MonitorPc`, `monitorCode`: the diagnostics, load by load; `Watched`, `watch`: a monitor beside the ring;
* `Trails`: the last load finds the cursor no further than the `write_idx` loaded before;
* `MonitorOk`, `MonitorOk.load`; **`lag_le_capacity`**: in runs of such steps;
* **`lag_exceeds`**: what any other last load does; **`lag_of_passed_cursor`**.
-/

set_option autoImplicit false

namespace ShmRings.Threads

open Coherent Transition Atomic

variable {α : Type} {cfg : Config}

/-- What a diagnostic returns: a count, or the answer of `is_empty`. -/
inductive Reading
  | count (n : ℕ)
  | flag (b : Bool)
  | error (e : ShmRingError)
  deriving DecidableEq

/-- A diagnostic. -/
inductive Diagnostic
  | slowestLag
  | len (readerId : ℕ)
  | isEmpty (readerId : ℕ)

/-- Where a diagnostic is; `empty` marks `is_empty`, which is `len` and a comparison. -/
inductive MonitorPc
  | idle
  | lagNumReaders
  | lagWriteIdx (n : ℕ)
  | lagScan (w n i minRead : ℕ)
  | lenNumReaders (r : ℕ) (empty : Bool)
  | lenWriteIdx (r : ℕ) (empty : Bool)
  | lenReadIdx (r w : ℕ) (empty : Bool)
  | done (reading : Reading)
  | panicked

def Diagnostic.start : Diagnostic → MonitorPc
  | .slowestLag => .lagNumReaders
  | .len r => .lenNumReaders r false
  | .isEmpty r => .lenNumReaders r true

/-- Cursor `i` comes next in the scan of `slowest_read_idx`; after the last one the lag is computed. -/
def MonitorPc.scanFrom (w n i minRead : ℕ) : MonitorPc :=
  if i < n then .lagScan w n i minRead else .done (.count (wrappingSub w minRead))

/-- The load a diagnostic makes at each program point. -/
def monitorCode : MonitorPc → Instr Loc α MonitorPc
  | .lagNumReaders => .load .numReaders .lagWriteIdx
  | .lagWriteIdx n => .load .writeIdx fun w =>
      if n ≤ maxReaders then .scanFrom w n 0 u64Max else .panicked
  | .lagScan w n i minRead => .load (.readIdx i) fun c => .scanFrom w n (i + 1) (min minRead c)
  | .lenNumReaders r empty => .load .numReaders fun n =>
      if r ≥ n then .done (.error (.invalidReaderId r (wrappingSub n 1))) else .lenWriteIdx r empty
  | .lenWriteIdx r empty => .load .writeIdx fun w => .lenReadIdx r w empty
  | .lenReadIdx r w empty => .load (.readIdx r) fun c =>
      .done (if empty then .flag (wrappingSub w c == 0) else .count (wrappingSub w c))
  | .idle | .done _ | .panicked => .halt

/-- The ring and a monitor. -/
structure Watched (α : Type) where
  ring : State α
  pc : MonitorPc

/-- A step of the ring, or of the monitor. -/
inductive WatchStep (α : Type)
  | ring (e : Option (Event Party (Op α) (Answer α)))
  | call (d : Diagnostic)
  | load
  | ret (reading : Reading)

inductive Watch (cfg : Config) : Watched α → WatchStep α → Watched α → Prop
  | ring {s e t} : Step cfg .seq s.ring e t → Watch cfg s (.ring e) { s with ring := t }
  | call {s} (d : Diagnostic) : s.pc = .idle → Watch cfg s (.call d) { s with pc := d.start }
  | load {s m pc} : Direct s.ring.mem (monitorCode s.pc) m pc → Watch cfg s .load { s with pc := pc }
  | ret {s reading} : s.pc = .done reading → Watch cfg s (.ret reading) { s with pc := .idle }

/-- A monitor beside the producer and the readers of a fresh ring. -/
def watch (cfg : Config) : System (Watched α) (WatchStep α) where
  init s := ∃ data, s = ⟨State.fresh cfg data, .idle⟩
  step := Watch cfg

/-- The last load of a diagnostic does not find the cursor it subtracts past the loaded `write_idx`. -/
def LoadTrails (cur : ℕ → ℕ) (pc : MonitorPc) : Prop :=
  (∀ r w empty, pc = .lenReadIdx r w empty → cur r ≤ w) ∧
  ∀ i w minRead, pc = .lagScan w (i + 1) i minRead → min minRead (cur i) ≤ w

/-- Fewer than `2 ^ 64` messages are published, and a load of the monitor meets `LoadTrails`. -/
def Trails (s : Watched α) (e : WatchStep α) (t : Watched α) : Prop :=
  t.ring.stream.length < u64Size ∧ (e = .load → LoadTrails s.ring.cursor s.pc)

/-! ## The cursors -/

/-- **A cursor only moves forward.** -/
theorem cursor_le_step {s t : State α} {e : Option (Event Party (Op α) (Answer α))} {q : ℕ}
    (h : Inv cfg .seq s) (hq : q < cfg.readers) (hst : Step cfg .seq s e t)
    (hlen : s.stream.length < u64Size) : s.cursor q ≤ t.cursor q := by
  cases hst with
  | callPush _ _ | retPush _ | callPop _ _ | retPop _ => exact le_rfl
  | push hacc => exact (congrArg Cell.now (push_word hacc (by simp) (by simp))).ge
  | @pop r m vw pc hacc =>
      by_cases hr : q = r
      · subst hr
        rcases pop_access hacc with rfl | ⟨c, v, hpc, rfl, -, -⟩
        · exact le_rfl
        · obtain ⟨rfl, -, -, hadd⟩ := (h.reader q (honest_seq hq)).advance hpc hlen
          rw [hadd, cursor_popStep_store]
          exact Nat.le_succ _
      · exact (congrArg Cell.now (pop_word hacc (by simp [hr]))).ge
  | replacePush hmd => exact hmd.elim
  | replacePop _ hmd => exact hmd.elim
  | poke r _ hr _ => exact hr.elim

/-! ## The monitor -/

/-- What the local variables of a diagnostic mean: the cursors are at most the capacity behind the
`write_idx` it has loaded. -/
def MonitorOk (cfg : Config) (cur : ℕ → ℕ) : MonitorPc → Prop
  | .lagWriteIdx n => n = cfg.readers
  | .lagScan w n i minRead => n = cfg.readers ∧ i < n ∧ w < u64Size ∧ minRead < u64Size ∧
      w ≤ minRead + cfg.capacity ∧ ∀ q < cfg.readers, w ≤ cur q + cfg.capacity
  | .lenWriteIdx r _ => r < cfg.readers
  | .lenReadIdx r w _ => r < cfg.readers ∧ w < u64Size ∧ w ≤ cur r + cfg.capacity
  | .done (.count n) => n ≤ cfg.capacity
  | _ => True

theorem MonitorOk.mono {cur cur' : ℕ → ℕ} {pc : MonitorPc} (h : MonitorOk cfg cur pc)
    (hle : ∀ q < cfg.readers, cur q ≤ cur' q) : MonitorOk cfg cur' pc := by
  cases pc with
  | lagScan w n i minRead =>
      obtain ⟨hn, hi, hw, hmin, hback, hcur⟩ := h
      exact ⟨hn, hi, hw, hmin, hback, fun q hq => (hcur q hq).trans (Nat.add_le_add_right (hle q hq) _)⟩
  | lenReadIdx r w empty =>
      obtain ⟨hr, hw, hback⟩ := h
      exact ⟨hr, hw, hback.trans (Nat.add_le_add_right (hle r hr) _)⟩
  | done reading => cases reading <;> exact h
  | _ => exact h

theorem lag_le {w c : ℕ} (hw : w < u64Size) (hback : w ≤ c + cfg.capacity) (htrail : c ≤ w) :
    wrappingSub w c ≤ cfg.capacity := by
  rw [wrappingSub_eq htrail hw]
  omega

/-- **A load of the monitor keeps what it knows.** -/
theorem MonitorOk.load {s : State α} {m : Memory Loc α} {pc pc' : MonitorPc} (h : Inv cfg .seq s)
    (hlen : s.stream.length < u64Size) (hok : MonitorOk cfg s.cursor pc)
    (hload : Direct s.mem (monitorCode pc) m pc') (htrail : LoadTrails s.cursor pc) :
    MonitorOk cfg s.cursor pc' := by
  have hn : s.mem.now .numReaders = cfg.readers := congrArg Cell.now h.numReaders
  have hw : s.mem.now .writeIdx = s.stream.length := congrArg Cell.now h.writeIdx
  have hback : ∀ q < cfg.readers, s.stream.length ≤ s.cursor q + cfg.capacity :=
    fun q hq => (h.reader q (honest_seq hq)).lag
  rcases hload.cases with hexec | ⟨x, old, new, won, hx, -⟩
  swap
  · cases pc <;> cases hx
  cases pc with
  | lagNumReaders =>
      cases hexec
      exact hn
  | lagWriteIdx n =>
      obtain rfl : n = cfg.readers := hok
      cases hexec
      dsimp only
      rw [hw, if_pos cfg.readers_le, MonitorPc.scanFrom, if_pos cfg.readers_pos]
      exact ⟨rfl, cfg.readers_pos, hlen, by decide, (Nat.le_pred_of_lt hlen).trans (Nat.le_add_right _ _),
        hback⟩
  | lagScan w n i minRead =>
      obtain ⟨rfl, hi, hwlt, hmin, hle, hall⟩ := hok
      cases hexec
      have hmin' : min minRead (s.cursor i) < u64Size := (Nat.min_le_left _ _).trans_lt hmin
      have hle' : w ≤ min minRead (s.cursor i) + cfg.capacity := by
        have := hall i hi
        omega
      change MonitorOk cfg s.cursor (.scanFrom w cfg.readers (i + 1) (min minRead (s.cursor i)))
      unfold MonitorPc.scanFrom
      split_ifs with hlast
      · exact ⟨rfl, hlast, hwlt, hmin', hle', hall⟩
      · obtain hlast : cfg.readers = i + 1 := by omega
        exact lag_le hwlt hle' (htrail.2 i w minRead (by rw [hlast]))
  | lenNumReaders r empty =>
      cases hexec
      dsimp only
      rw [hn]
      split_ifs with hr
      · trivial
      · exact Nat.not_le.mp hr
  | lenWriteIdx r empty =>
      cases hexec
      exact ⟨hok, hw ▸ hlen, hw ▸ hback r hok⟩
  | lenReadIdx r w empty =>
      obtain ⟨hr, hwlt, hle⟩ := hok
      cases hexec
      cases empty with
      | true => trivial
      | false => exact lag_le hwlt hle (htrail.1 r w false rfl)
  | idle | done _ | panicked => cases hexec

/-- The invariant of the ring and the monitor. -/
def WatchOk (cfg : Config) (s : Watched α) : Prop :=
  Reachable (machine cfg .seq) s.ring ∧ MonitorOk cfg s.ring.cursor s.pc

theorem Watch.length_le {s t : Watched α} {e : WatchStep α} (h : Watch cfg s e t) :
    s.ring.stream.length ≤ t.ring.stream.length := by
  cases h with
  | ring hst => exact length_stream_le hst
  | call _ _ | load _ | ret _ => exact le_rfl

theorem WatchOk.step {s t : Watched α} {e : WatchStep α} (h : WatchOk cfg s) (hst : Watch cfg s e t)
    (htrail : Trails s e t) : WatchOk cfg t := by
  obtain ⟨hreach, hok⟩ := h
  have hlen : s.ring.stream.length < u64Size := hst.length_le.trans_lt htrail.1
  have hinv := reachable_inv ⟨0, honest_seq cfg.readers_pos⟩ hreach hlen
  cases hst with
  | ring hring =>
      exact ⟨.step hreach hring, hok.mono fun q hq => cursor_le_step hinv hq hring hlen⟩
  | call d _ =>
      refine ⟨hreach, ?_⟩
      cases d <;> exact trivial
  | load hload => exact ⟨hreach, hok.load hinv hlen hload (htrail.2 rfl)⟩
  | ret _ => exact ⟨hreach, trivial⟩

/-- **Diagnostics stay within the capacity** in every run in which no last load finds the cursor past the
loaded `write_idx`. -/
theorem lag_le_capacity {s t : Watched α} {es : List (WatchStep α)} (hs : (watch cfg).init s)
    (hrun : Run ((watch cfg).guard Trails) s es t) :
    ∀ n, WatchStep.ret (.count n) ∈ es → n ≤ cfg.capacity := by
  suffices h : WatchOk cfg t ∧ ∀ n, WatchStep.ret (.count n) ∈ es → n ≤ cfg.capacity from h.2
  induction hrun with
  | nil =>
      obtain ⟨data, rfl⟩ := hs
      exact ⟨⟨.init ⟨data, rfl⟩, trivial⟩, nofun⟩
  | @snoc es s e t hrun hst ih =>
      obtain ⟨hok, hret⟩ := ih
      obtain ⟨hwatch, htrail⟩ := hst
      refine ⟨hok.step hwatch htrail, fun n hn => ?_⟩
      rcases List.mem_append.mp hn with hmem | hmem
      · exact hret n hmem
      · obtain rfl := List.mem_singleton.mp hmem
        cases hwatch with
        | ret hdone =>
            have hle := hok.2
            rw [hdone] at hle
            exact hle

/-- The monitor waits while the ring runs. -/
theorem ring_beside {s t : State α} {es : List (Option (Event Party (Op α) (Answer α)))} (pc : MonitorPc)
    (hrun : Run (machine cfg .seq) s es t) (hlen : t.stream.length < u64Size) :
    Run ((watch cfg).guard Trails) ⟨s, pc⟩ (es.map .ring) ⟨t, pc⟩ := by
  induction hrun with
  | nil => exact .nil
  | @snoc es t e u _ hst ih =>
      rw [List.map_append]
      refine (ih ((length_stream_le hst).trans_lt hlen)).snoc ⟨.ring (s := ⟨t, pc⟩) hst, hlen, ?_⟩
      intro h
      cases h

/-- `slowest_lag` loads `write_idx` after two pushes, the reader pops one message and a third is published, and
the lag is 1. -/
theorem lag_beside_pop : ∃ es t,
    Run ((watch twoSlots).guard Trails) (⟨State.fresh twoSlots fun _ => 0, .idle⟩ : Watched ℕ) es t ∧
      t.ring.stream = [7, 8, 9] ∧ WatchStep.ret (.count 1) ∈ es ∧ 1 ≤ twoSlots.capacity := by
  let before : List (Turn ℕ) := .push 7 :: List.replicate 7 (.on .producer) ++
    .push 8 :: List.replicate 7 (.on .producer)
  let between : List (Turn ℕ) := .pop 0 :: List.replicate 7 (.on (.reader 0)) ++
    .push 9 :: List.replicate 7 (.on .producer)
  have hplay : (trace (State.turn twoSlots) before (State.fresh twoSlots fun _ => 0)).bind (fun x =>
      (trace (State.turn twoSlots) between x.2).map fun y =>
        (x.2.mem.now .numReaders, x.2.mem.now .writeIdx, x.2.stream, y.2.cursor 0, y.2.stream)) =
      some (1, 2, [7, 8], 1, [7, 8, 9]) := rfl
  obtain ⟨⟨es, s⟩, hs, hrest⟩ := Option.bind_eq_some_iff.mp hplay
  obtain ⟨⟨fs, t⟩, ht, heq⟩ := Option.map_eq_some_iff.mp hrest
  obtain ⟨hn, hw, hstream, hcur, hstream'⟩ : _ ∧ _ ∧ _ ∧ _ ∧ _ := by simpa only [Prod.mk.injEq] using heq
  obtain ⟨hrun, hs'⟩ : Run (machine twoSlots .seq) (State.fresh twoSlots fun _ => 0) es s ∧ Current s :=
    run_of_traced (current_fresh _) hs
  have hrun' : Run (machine twoSlots .seq) s fs t := (run_of_traced hs' ht).1
  have hlen : s.stream.length < u64Size := by rw [hstream]; decide
  have hlen' : t.stream.length < u64Size := by rw [hstream']; decide
  have hload : ∀ {u : State ℕ} {pc pc' : MonitorPc}, (monitorCode pc).exec u.mem = some (u.mem, pc') →
      u.stream.length < u64Size → LoadTrails u.cursor pc →
      ((watch twoSlots).guard Trails).step ⟨u, pc⟩ .load ⟨u, pc'⟩ :=
    fun hexec hlt htrail => ⟨.load (direct_of_exec hexec), hlt, fun _ => htrail⟩
  have h₁ : (monitorCode .lagNumReaders).exec s.mem = some (s.mem, .lagWriteIdx 1) := by
    rw [monitorCode, Instr.exec, hn]
  have h₂ : (monitorCode (.lagWriteIdx 1)).exec s.mem = some (s.mem, .lagScan 2 1 0 u64Max) := by
    rw [monitorCode, Instr.exec, hw]
    rfl
  have h₃ : (monitorCode (.lagScan 2 1 0 u64Max)).exec t.mem = some (t.mem, .done (.count 1)) := by
    have hnow : t.mem.now (.readIdx 0) = 1 := hcur
    rw [monitorCode, Instr.exec, hnow]
    rfl
  have hfirst := (((ring_beside .idle hrun hlen).snoc ⟨.call .slowestLag rfl, hlen, by rintro ⟨⟩⟩).snoc
    (hload h₁ hlen ⟨fun _ _ _ h => (by cases h), fun _ _ _ h => (by cases h)⟩)).snoc
      (hload h₂ hlen ⟨fun _ _ _ h => (by cases h), fun _ _ _ h => (by cases h)⟩)
  have hlast := hload h₃ hlen' ⟨fun _ _ _ h => (by cases h), fun i w minRead hpc => by
    cases hpc
    rw [hcur]
    decide⟩
  have hall := ((hfirst.append (ring_beside _ hrun' hlen')).snoc hlast).snoc
    ⟨.ret rfl, hlen', by rintro ⟨⟩⟩
  refine ⟨_, _, hall, hstream', List.mem_append_right _ (List.mem_singleton_self _), ?_⟩
  exact lag_le_capacity ⟨_, rfl⟩ hall 1 (List.mem_append_right _ (List.mem_singleton_self _))

theorem lag_wraps {w c : ℕ} (hpast : w < c) (hfew : c + cfg.capacity < w + u64Size) :
    cfg.capacity < wrappingSub w c := by
  have hlt : w + u64Size - c < u64Size := by omega
  rw [wrappingSub, Nat.mod_eq_of_lt hlt]
  omega

/-- **A last load that finds the cursor past the loaded `write_idx`** makes the diagnostic return more than
the capacity, unless almost `2 ^ 64` messages were published in between. -/
theorem lag_exceeds {s : State α} {m : Memory Loc α} {pc pc' : MonitorPc}
    (hload : Direct s.mem (monitorCode pc) m pc') :
    (∀ r w, pc = .lenReadIdx r w false → w < s.cursor r → s.cursor r + cfg.capacity < w + u64Size →
      ∃ n, pc' = .done (.count n) ∧ cfg.capacity < n) ∧
    ∀ i w minRead, pc = .lagScan w (i + 1) i minRead → w < min minRead (s.cursor i) →
      min minRead (s.cursor i) + cfg.capacity < w + u64Size →
      ∃ n, pc' = .done (.count n) ∧ cfg.capacity < n := by
  rcases hload.cases with hexec | ⟨x, old, new, won, hx, -⟩
  swap
  · cases pc <;> cases hx
  constructor
  · rintro r w rfl hpast hfew
    cases hexec
    exact ⟨_, rfl, lag_wraps hpast hfew⟩
  · rintro i w minRead rfl hpast hfew
    cases hexec
    exact ⟨_, if_neg (Nat.lt_irrefl _), lag_wraps hpast hfew⟩

/-- `len` loads `write_idx`, a message is pushed and popped, and `len` loads the cursor. -/
theorem lag_of_passed_cursor : ∃ es t,
    Run (watch twoSlots) (⟨State.fresh twoSlots fun _ => 0, .idle⟩ : Watched ℕ) es t ∧
      WatchStep.ret (.count u64Max) ∈ es := by
  have h₁ := Run.single (S := watch twoSlots) (s := (⟨State.fresh twoSlots fun _ => 0, .idle⟩ : Watched ℕ))
    (.call (.len 0) rfl)
  have h₂ := h₁.snoc (.load (direct_of_exec rfl))
  have h₃ := h₂.snoc (.load (direct_of_exec rfl))
  -- the push
  have h₄ := h₃.snoc (.ring (.callPush 7 rfl))
  have h₅ := h₄.snoc (.ring (.push (.load ⟨Nat.le_refl 0, rfl, fun _ => rfl⟩)))
  have h₆ := h₅.snoc (.ring (.push (.load ⟨Nat.le_refl 0, rfl, fun _ => rfl⟩)))
  have h₇ := h₆.snoc (.ring (.push (.load ⟨Nat.le_refl 0, rfl, fun _ => rfl⟩)))
  have h₈ := h₇.snoc (.ring (.push .put))
  have h₉ := h₈.snoc (.ring (.push .store))
  -- the pop
  have h₁₀ := h₉.snoc (.ring (.callPop (r := 0) (by decide) rfl))
  have h₁₁ := h₁₀.snoc (.ring (.pop (r := 0) (.load ⟨Nat.le_refl 0, rfl, fun _ => rfl⟩)))
  have h₁₂ := h₁₁.snoc (.ring (.pop (r := 0) (.load ⟨Nat.le_refl 0, rfl, fun _ => rfl⟩)))
  have h₁₃ := h₁₂.snoc (.ring (.pop (r := 0) (.load (i := 1) ⟨Nat.zero_le 1, rfl, fun _ => rfl⟩)))
  have h₁₄ := h₁₃.snoc (.ring (.pop (r := 0) (.load ⟨Nat.le_refl 0, rfl, fun _ => rfl⟩)))
  have h₁₅ := h₁₄.snoc (.ring (.pop (r := 0) .get))
  have h₁₆ := h₁₅.snoc (.ring (.pop (r := 0) .store))
  have h₁₇ := h₁₆.snoc (.load (direct_of_exec rfl))
  have h₁₈ := h₁₇.snoc (.ret rfl)
  exact ⟨_, _, h₁₈, List.mem_append_right _ (List.mem_singleton_self _)⟩

end ShmRings.Threads
