import ShmRings.Calls.Spec
import ShmRings.Threads.Loans

/-!
# A call alone

The accesses of a call that is not interfered with, on the words and slots of a file and a handle, end
in the answer of the call of the model and in the words of the state it leaves. Both are those of a
release build.

* `Mirrors`: the memory of a file and a handle;
* **`solo_push`**, **`solo_pop`**; **`solo_claim`**, **`solo_commit`**, **`solo_abort`**, **`solo_drop`**.
-/

set_option autoImplicit false

namespace ShmRings.Threads

open Coherent

variable {α : Type}

/-- The memory has the words and the slots of `f`, and the atomics of `h`. -/
structure Mirrors (m : Memory Loc α) (f : RingFile α) (h : Handle) : Prop where
  writeIdx : m.now .writeIdx = f.hdr.writeIdx
  readIdx : ∀ r, m.now (.readIdx r) = f.hdr.readIndices r
  numReaders : m.now .numReaders = f.hdr.numReaders
  totalWritten : m.now .totalWritten = f.hdr.totalWritten
  claimBase : ∀ r, m.now (.claimBase r) = h.claimBase r
  loanDepth : ∀ r, m.now (.loanDepth r) = h.loanDepth r
  data : m.data = f.slots

variable {cfg : Config} {m : Memory Loc α} {f f' : RingFile α} {h h' : Handle} {r : ℕ} {l l' : Loan}

section Release

variable {a b : ℕ}

theorem release_add : release.add a b = .ok (wrappingAdd a b) := by
  unfold Profile.add
  split_ifs with hlt hc
  · rw [wrappingAdd_eq hlt]
  · cases hc
  · rfl

theorem release_sub (ha : a < u64Size) : release.sub a b = .ok (wrappingSub a b) := by
  unfold Profile.sub
  split_ifs with hle hc
  · rw [wrappingSub_eq hle ha]
  · cases hc
  · rfl

end Release

/-! ## The words after a store -/

namespace Mirrors

variable (hm : Mirrors m f h)
include hm

theorem advance (v : ℕ) : Mirrors (m.store (.readIdx r) v) (f.advance r v) h where
  readIdx := fun q => by
    simp only [Memory.store_now, Loc.readIdx.injEq, hm.readIdx, RingFile.advance, Function.update_apply]
  writeIdx := (Memory.store_now_ne _ (by simp) _).trans hm.writeIdx
  numReaders := (Memory.store_now_ne _ (by simp) _).trans hm.numReaders
  totalWritten := (Memory.store_now_ne _ (by simp) _).trans hm.totalWritten
  claimBase := fun q => (Memory.store_now_ne _ (by simp) _).trans (hm.claimBase q)
  loanDepth := fun q => (Memory.store_now_ne _ (by simp) _).trans (hm.loanDepth q)
  data := hm.data

theorem setDepth (d : ℕ) : Mirrors (m.store (.loanDepth r) d) f (h.setDepth r d) where
  loanDepth := fun q => by
    simp only [Memory.store_now, Loc.loanDepth.injEq, hm.loanDepth, Handle.setDepth,
      Function.update_apply]
  writeIdx := (Memory.store_now_ne _ (by simp) _).trans hm.writeIdx
  readIdx := fun q => (Memory.store_now_ne _ (by simp) _).trans (hm.readIdx q)
  numReaders := (Memory.store_now_ne _ (by simp) _).trans hm.numReaders
  totalWritten := (Memory.store_now_ne _ (by simp) _).trans hm.totalWritten
  claimBase := fun q => (Memory.store_now_ne _ (by simp) _).trans (hm.claimBase q)
  data := hm.data

/-- A read-modify-write of the gate. -/
theorem modifyGate (g : ℕ → ℕ) : Mirrors (m.store (.loanDepth r) (g (m.now (.loanDepth r)))) f
    (h.setDepth r (g (h.loanDepth r))) :=
  hm.loanDepth r ▸ hm.setDepth _

theorem setHead (b : ℕ) : Mirrors (m.store (.claimBase r) b) f (h.setHead r b) where
  claimBase := fun q => by
    simp only [Memory.store_now, Loc.claimBase.injEq, hm.claimBase, Handle.setHead,
      Function.update_apply]
  writeIdx := (Memory.store_now_ne _ (by simp) _).trans hm.writeIdx
  readIdx := fun q => (Memory.store_now_ne _ (by simp) _).trans (hm.readIdx q)
  numReaders := (Memory.store_now_ne _ (by simp) _).trans hm.numReaders
  totalWritten := (Memory.store_now_ne _ (by simp) _).trans hm.totalWritten
  loanDepth := fun q => (Memory.store_now_ne _ (by simp) _).trans (hm.loanDepth q)
  data := hm.data

/-- The slot, `write_idx` and `total_written` after a push. -/
theorem publish (j : ℕ) (value : α) (next : ℕ) :
    Mirrors (((m.put j value).store .writeIdx next).store .totalWritten
      (wrappingAdd (m.now .totalWritten) 1))
      ⟨{ f.hdr with writeIdx := next, totalWritten := wrappingAdd f.hdr.totalWritten 1 },
        Function.update f.slots j value⟩ h where
  writeIdx := by simp [Memory.store_now]
  readIdx := fun q => by simp [Memory.store_now, hm.readIdx]
  numReaders := by simp [Memory.store_now, hm.numReaders]
  totalWritten := by simp [hm.totalWritten]
  claimBase := fun q => by simp [Memory.store_now, hm.claimBase]
  loanDepth := fun q => by simp [Memory.store_now, hm.loanDepth]
  data := by simp [hm.data]

end Mirrors

/-! ## The producer and a reader -/

/-- The scan ends with the minimum of the cursors. -/
theorem solo_scan {value : α} {w n i : ℕ} (hi : i ≤ n) :
    Solo (pushCode cfg) m (.scanFrom cfg value w n i (slowest (fun r => m.now (.readIdx r)) i)) m
      (.scanFrom cfg value w n n (slowest (fun r => m.now (.readIdx r)) n)) := by
  induction hk : n - i generalizing i with
  | zero =>
      obtain rfl : i = n := by omega
      exact .refl
  | succ k ih =>
      have hlt : i < n := by omega
      have hexec : (pushCode cfg (.scanFrom cfg value w n i
          (slowest (fun r => m.now (.readIdx r)) i))).exec m = some (m, .scanFrom cfg value w n (i + 1)
            (slowest (fun r => m.now (.readIdx r)) (i + 1))) := by
        rw [PushPc.scanFrom, if_pos hlt, slowest_succ]
        rfl
      exact .step hexec (ih hlt (by omega))

/-- The loads of a push: `write_idx`, `num_readers` and the cursors. -/
theorem solo_scanned {value : α} (hn : m.now .numReaders ≤ maxReaders) :
    Solo (pushCode cfg) m (.loadWriteIdx value) m
      (.scanFrom cfg value (m.now .writeIdx) (m.now .numReaders) (m.now .numReaders)
        (slowest (fun r => m.now (.readIdx r)) (m.now .numReaders))) := by
  refine .step rfl (.step ?_ (solo_scan (Nat.zero_le _)))
  simp only [pushCode, Instr.exec, if_pos hn]
  rfl

/-- A push with room publishes. -/
theorem solo_publish {value : α} (hn : m.now .numReaders ≤ maxReaders)
    (hroom : wrappingSub (m.now .writeIdx)
      (slowest (fun r => m.now (.readIdx r)) (m.now .numReaders)) < cfg.capacity) :
    Solo (pushCode cfg) m (.loadWriteIdx value)
      (((m.put (cfg.slot (m.now .writeIdx)) value).store .writeIdx (wrappingAdd (m.now .writeIdx) 1)).store
        .totalWritten (wrappingAdd (m.now .totalWritten) 1)) (.done true) := by
  have hscan := @solo_scanned _ cfg m value hn
  rw [PushPc.scanFrom, if_neg (lt_irrefl _), if_neg (Nat.not_le.mpr hroom)] at hscan
  exact hscan.trans (.step rfl (.step rfl (.step rfl .refl)))

/-- **A push alone** is `tryPush`. -/
theorem solo_push (hm : Mirrors m f h) (hcap : h.capacity = cfg.capacity)
    (hw : f.hdr.writeIdx < u64Size) {value : α} {b : Bool}
    (hcall : tryPush release h f value = .ok (b, f')) :
    ∃ m', Solo (pushCode cfg) m (.loadWriteIdx value) m' (.done b) ∧ Mirrors m' f' h := by
  have hcursors : (fun r => m.now (.readIdx r)) = f.hdr.readIndices := funext hm.readIdx
  simp only [tryPush, bind_eq_ok] at hcall
  obtain ⟨min, hmin, lag, hlag, hcall⟩ := hcall
  unfold RingHeader.slowestReadIdx at hmin
  split_ifs at hmin with hn
  cases hmin
  rw [release_sub hw] at hlag
  cases hlag
  have hn' : m.now .numReaders ≤ maxReaders := hm.numReaders ▸ hn
  have hslow : slowest (fun r => m.now (.readIdx r)) (m.now .numReaders) =
      slowest f.hdr.readIndices f.hdr.numReaders := by rw [hcursors, hm.numReaders]
  split_ifs at hcall with hfull
  · cases hcall
    have hscan := @solo_scanned _ cfg m value hn'
    rw [PushPc.scanFrom, if_neg (lt_irrefl _), hslow, hm.writeIdx, ← hcap, if_pos hfull] at hscan
    exact ⟨m, hscan, hm⟩
  · rw [release_add] at hcall
    cases hcall
    have hroom := Nat.not_le.mp hfull
    rw [← hslow, ← hm.writeIdx, hcap] at hroom
    have hslot : cfg.slot f.hdr.writeIdx = h.slot f.hdr.writeIdx := by
      rw [Config.slot, Handle.slot, hcap]
    refine ⟨_, solo_publish hn' hroom, ?_⟩
    rw [hm.writeIdx, hslot]
    exact hm.publish _ value _

/-- A pop that is not caught up takes the message at the cursor. -/
theorem solo_take (hr : r < m.now .numReaders) (hgate : m.now (.loanDepth r) = 0)
    (hne : m.now (.readIdx r) ≠ m.now .writeIdx) :
    Solo (popCode cfg r) m .checkReader
      (m.store (.readIdx r) (wrappingAdd (m.now (.readIdx r)) 1))
      (.done (.ok (some (m.data (cfg.slot (m.now (.readIdx r))))))) := by
  have haccept : (popCode cfg r .checkReader).exec m = some (m, .checkGate) := by
    simp only [popCode, Instr.exec, ge_iff_le, if_neg (Nat.not_le.mpr hr)]
  have hpass : (popCode cfg r .checkGate).exec m = some (m, .loadWriteIdx) := by
    simp only [popCode, Instr.exec, hgate, ne_eq, not_true_eq_false, if_false]
  have hread : (popCode cfg r (.loadReadIdx (m.now .writeIdx))).exec m =
      some (m, .readSlot (m.now (.readIdx r))) := by
    simp only [popCode, Instr.exec, if_neg hne]
  exact .step haccept (.step hpass (.step rfl (.step hread (.step rfl (.step rfl .refl)))))

/-- **A pop alone** is `tryPop`; an error leaves the memory alone. -/
theorem solo_pop (hm : Mirrors m f h) (hcap : h.capacity = cfg.capacity)
    (hn : f.hdr.numReaders < u64Size) :
    (∀ v f', tryPop release h f r = .ok (v, f') →
      ∃ m', Solo (popCode cfg r) m .checkReader m' (.done (.ok v)) ∧ Mirrors m' f' h) ∧
    ∀ e, tryPop release h f r = .error (.err e) →
      Solo (popCode cfg r) m .checkReader m (.done (.error e)) := by
  by_cases hr : f.hdr.numReaders ≤ r
  · have hcall : tryPop release h f r =
        .error (.err (.invalidReaderId r (wrappingSub f.hdr.numReaders 1))) := by
      simp only [tryPop, checkReader, ge_iff_le, if_pos hr, release_sub hn]
      rfl
    rw [hcall]
    refine ⟨fun _ _ hv => (by cases hv), fun e he => ?_⟩
    cases he
    refine .step ?_ .refl
    simp only [popCode, Instr.exec, hm.numReaders, ge_iff_le, if_pos hr]
  · have hlt := Nat.not_le.mp hr
    have haccept : (popCode cfg r .checkReader).exec m = some (m, .checkGate) := by
      simp only [popCode, Instr.exec, hm.numReaders, ge_iff_le, if_neg hr]
    by_cases hr8 : r < maxReaders
    · by_cases hd : h.loanDepth r = 0
      · have hgate : (popCode cfg r .checkGate).exec m = some (m, .loadWriteIdx) := by
          simp only [popCode, Instr.exec, hm.loanDepth, hd, ne_eq, not_true_eq_false, if_false]
        have hload : (popCode cfg r .loadWriteIdx).exec m = some (m, .loadReadIdx f.hdr.writeIdx) := by
          simp only [popCode, Instr.exec, hm.writeIdx]
        by_cases heq : f.hdr.readIndices r = f.hdr.writeIdx
        · rw [tryPop_none hlt hr8 hd heq]
          refine ⟨fun v f' hv => ?_, fun _ he => by cases he⟩
          cases hv
          refine ⟨m, .step haccept (.step hgate (.step hload (.step ?_ .refl))), hm⟩
          simp only [popCode, Instr.exec, hm.readIdx, if_pos heq]
        · have hcall : tryPop release h f r = .ok (some (f.slots (h.slot (f.hdr.readIndices r))),
              f.advance r (wrappingAdd (f.hdr.readIndices r) 1)) := by
            simp only [tryPop, checkReader_ok hlt, Handle.loadDepth, if_pos hr8, ok_bind,
              readIdx_ok hr8, hd, release_add, RingHeader.setReadIdx]
            exact if_neg heq
          rw [hcall]
          refine ⟨fun v f' hv => ?_, fun _ he => by cases he⟩
          cases hv
          have hslot : cfg.slot (f.hdr.readIndices r) = h.slot (f.hdr.readIndices r) := by
            rw [Config.slot, Handle.slot, hcap]
          have htake := @solo_take _ cfg m r (by rwa [hm.numReaders]) (by rw [hm.loanDepth, hd])
            (by rwa [hm.readIdx, hm.writeIdx])
          rw [hm.readIdx, hslot, hm.data] at htake
          exact ⟨_, htake, hm.advance _⟩
      · rw [tryPop_gate hlt hr8 hd]
        refine ⟨fun _ _ hv => (by cases hv), fun e he => ?_⟩
        cases he
        refine .step haccept (.step ?_ .refl)
        simp only [popCode, Instr.exec, hm.loanDepth, ne_eq, hd, not_false_eq_true, if_true]
    · have hcall : tryPop release h f r = .error (.panic .outOfRange) := by
        simp only [tryPop, checkReader_ok hlt, ok_bind, Handle.loadDepth, if_neg hr8, error_bind]
      rw [hcall]
      exact ⟨fun _ _ hv => (by cases hv), fun _ he => by cases he⟩

/-! ## Loans -/

/-- The loads of a claim, after the gate was raised. -/
theorem solo_loads {w c b : ℕ} (hw : m.now .writeIdx = w) (hc : m.now (.readIdx r) = c)
    (hb : m.now (.claimBase r) = b) : Solo (ticketCode r) m .loadWriteIdx m
      (if max b c ≥ w then .lowerGate else .exchange b (max b c)) := by
  have hwrite : (ticketCode r .loadWriteIdx).exec m = some (m, .loadCursor w) := by
    rw [← hw]
    rfl
  have hcursor : (ticketCode r (.loadCursor w)).exec m = some (m, .loadBase w c) := by
    rw [← hc]
    rfl
  have hbase : (ticketCode r (.loadBase w c)).exec m =
      some (m, if max b c ≥ w then .lowerGate else .exchange b (max b c)) := by
    rw [← hb]
    rfl
  exact .step hwrite (.step hcursor (.step hbase .refl))

/-- **A claim alone** is `claim`. -/
theorem solo_claim (hm : Mirrors m f h) :
    (∀ h', claim release h f r = .ok (none, h') →
      ∃ m', Solo (ticketCode r) m .checkReader m' .refused ∧ Mirrors m' f h') ∧
    ∀ l h', claim release h f r = .ok (some l, h') → l = ⟨r, l.index, false⟩ ∧
      ∃ m', Solo (ticketCode r) m .checkReader m' (.held l.index) ∧ Mirrors m' f h' := by
  by_cases hlt : r < f.hdr.numReaders
  · by_cases hr8 : r < maxReaders
    · have haccept : (ticketCode r .checkReader).exec m = some (m, .raiseGate) := by
        simp only [ticketCode, Instr.exec, hm.numReaders, ge_iff_le, if_neg (Nat.not_le.mpr hlt)]
      obtain ⟨m₁, hraise, hm₁⟩ : ∃ m₁, (ticketCode r .raiseGate).exec m = some (m₁, .loadWriteIdx) ∧
          Mirrors m₁ f (h.setDepth r (wrappingAdd (h.loanDepth r) 1)) :=
        ⟨_, rfl, hm.modifyGate (wrappingAdd · 1)⟩
      have hloads := solo_loads hm₁.writeIdx (hm₁.readIdx r) (hm₁.claimBase r)
      have hstart : Solo (ticketCode r) m .checkReader m₁ _ := .step haccept (.step hraise hloads)
      simp only [claim, checkReader_ok hlt, ok_bind, raiseGate_ok hr8, readIdx_ok hr8, loadBase_ok hr8,
        lowerGate_ok hr8, release_add, setBase_ok _ hr8]
      split_ifs at hstart ⊢ with hidx
      · refine ⟨fun h' hcall => ?_, fun _ _ hsome => by cases hsome⟩
        cases hcall
        have hlower : (ticketCode r .lowerGate).exec m₁ = some (m₁.store (.loanDepth r)
            (wrappingSub (m₁.now (.loanDepth r)) 1), .refused) := by
          rw [ticketCode, Instr.exec]
        exact ⟨_, hstart.trans (.step hlower .refl), hm₁.modifyGate (wrappingSub · 1)⟩
      · refine ⟨fun _ hnone => (by cases hnone), fun l h' hcall => ?_⟩
        cases hcall
        refine ⟨rfl, _, hstart.trans (.step ?_ .refl), hm₁.setHead _⟩
        simp only [ticketCode, Instr.exec, hm₁.claimBase, if_true]
    · have hcall : claim release h f r = .error (.panic .outOfRange) := by
        simp only [claim, checkReader_ok hlt, ok_bind, Handle.raiseGate, if_neg hr8, error_bind]
      rw [hcall]
      exact ⟨fun _ hnone => (by cases hnone), fun _ _ hsome => by cases hsome⟩
  · have hcall : ∀ x, claim release h f r ≠ .ok x := by
      intro x hx
      obtain ⟨_, hcheck, -⟩ := bind_eq_ok.mp hx
      unfold checkReader at hcheck
      dsimp only at hcheck
      rw [if_pos (Nat.not_lt.mp hlt)] at hcheck
      obtain ⟨_, _, hthrow⟩ := bind_eq_ok.mp hcheck
      cases hthrow
    exact ⟨fun _ hx => absurd hx (hcall _), fun _ _ hx => absurd hx (hcall _)⟩

/-- The gate goes down at the end of a call on a loan. -/
theorem solo_resolve (hm : Mirrors m f h) : ∃ m', Solo (ticketCode r) m .resolve m' .resolved ∧
    Mirrors m' f (h.setDepth r (wrappingSub (h.loanDepth r) 1)) :=
  ⟨_, .step rfl .refl, hm.modifyGate (wrappingSub · 1)⟩

/-- **A commit alone** is `Loan.commit`. -/
theorem solo_commit (hm : Mirrors m f h) (hl : l.resolved = false) :
    (∀ l' h' f', l.commit release h f = .ok (l', h', f') →
      ∃ m', Solo (ticketCode l.readerId) m (.commitLoad l.index) m' .resolved ∧ Mirrors m' f' h') ∧
    ∀ e, l.commit release h f = .error (.err e) → ∃ c, e = .loanNotAtCursor l.index c ∧
      Solo (ticketCode l.readerId) m (.commitLoad l.index) m (.rejected l.index c) := by
  by_cases hr8 : l.readerId < maxReaders
  · by_cases heq : f.hdr.readIndices l.readerId = l.index
    · have hcall : l.commit release h f = .ok ({ l with resolved := true },
          h.setDepth l.readerId (wrappingSub (h.loanDepth l.readerId) 1),
          f.advance l.readerId (wrappingAdd l.index 1)) := by
        simp only [Loan.commit, hl, readIdx_ok hr8, ok_bind, release_add, RingHeader.setReadIdx,
          if_pos hr8, resolve_eq hr8]
        exact if_neg (not_not.mpr heq)
      rw [hcall]
      refine ⟨fun l' h' f' hok => ?_, fun _ he => by cases he⟩
      cases hok
      obtain ⟨m', hsolo, hm'⟩ := solo_resolve (r := l.readerId) (hm.advance (wrappingAdd l.index 1))
      have hload : (ticketCode l.readerId (.commitLoad l.index)).exec m =
          some (m, .commitStore l.index) := by
        simp only [ticketCode, Instr.exec, hm.readIdx, heq, ne_eq, not_true_eq_false, if_false]
      exact ⟨m', .step hload (.step rfl hsolo), hm'⟩
    · rw [commit_early hl hr8 heq]
      refine ⟨fun _ _ _ hok => (by cases hok), fun e he => ?_⟩
      cases he
      refine ⟨_, rfl, .step ?_ .refl⟩
      simp only [ticketCode, Instr.exec, hm.readIdx, ne_eq, heq, not_false_eq_true, if_true]
  · have hcall : l.commit release h f = .error (.panic .outOfRange) := by
      simp only [Loan.commit, hl, RingHeader.readIdx, if_neg hr8, error_bind]
      rfl
    rw [hcall]
    exact ⟨fun _ _ _ hok => (by cases hok), fun _ he => by cases he⟩

/-- **An abort alone** is `Loan.abort`. -/
theorem solo_abort (hm : Mirrors m f h) (hl : l.resolved = false) (hcall : l.abort h = .ok h') :
    ∃ m', Solo (ticketCode l.readerId) m (.abortMin l.index) m' .resolved ∧ Mirrors m' f h' := by
  by_cases hr8 : l.readerId < maxReaders
  · rw [abort_eq hl hr8] at hcall
    cases hcall
    obtain ⟨m₁, hmin, hm₁⟩ : ∃ m₁, (ticketCode l.readerId (.abortMin l.index)).exec m =
        some (m₁, .resolve) ∧
        Mirrors m₁ f (h.setHead l.readerId (min (h.claimBase l.readerId) l.index)) :=
      ⟨_, rfl, hm.claimBase l.readerId ▸ hm.setHead _⟩
    obtain ⟨m₂, hsolo, hm₂⟩ := solo_resolve (r := l.readerId) hm₁
    exact ⟨m₂, .step hmin hsolo, hm₂⟩
  · simp only [Loan.abort, hl, Handle.loadBase, if_neg hr8, error_bind] at hcall
    cases hcall

/-- **A drop alone** is `Loan.drop`. -/
theorem solo_drop (hm : Mirrors m f h) (hl : l.resolved = false)
    (hcall : l.drop release h f = .ok (h', f')) :
    ∃ m', Solo (ticketCode l.readerId) m (.dropLoad l.index) m' .resolved ∧ Mirrors m' f' h' := by
  by_cases hr8 : l.readerId < maxReaders
  · by_cases heq : f.hdr.readIndices l.readerId = l.index
    · have hdrop : l.drop release h f =
          .ok (h.setDepth l.readerId (wrappingSub (h.loanDepth l.readerId) 1),
            f.advance l.readerId (wrappingAdd l.index 1)) := by
        simp only [Loan.drop, hl, readIdx_ok hr8, ok_bind, if_pos heq, release_add,
          RingHeader.setReadIdx, if_pos hr8, resolve_eq hr8]
        rfl
      rw [hdrop] at hcall
      cases hcall
      obtain ⟨m', hsolo, hm'⟩ := solo_resolve (r := l.readerId) (hm.advance (wrappingAdd l.index 1))
      have hload : (ticketCode l.readerId (.dropLoad l.index)).exec m = some (m, .dropStore l.index) := by
        simp only [ticketCode, Instr.exec, hm.readIdx, if_pos heq]
      exact ⟨m', .step hload (.step rfl hsolo), hm'⟩
    · rw [drop_away hl hr8 heq] at hcall
      cases hcall
      have hload : (ticketCode l.readerId (.dropLoad l.index)).exec m = some (m, .dropSkip l.index) := by
        simp only [ticketCode, Instr.exec, hm.readIdx, if_neg heq]
      have hlower : (ticketCode l.readerId (.dropSkip l.index)).exec m =
          some (m.store (.loanDepth l.readerId) (wrappingSub (m.now (.loanDepth l.readerId)) 1),
            .resolved) := by
        rw [ticketCode, Instr.exec]
      exact ⟨_, .step hload (.step hlower .refl), hm.modifyGate (wrappingSub · 1)⟩
  · simp only [Loan.drop, hl, RingHeader.readIdx, if_neg hr8, error_bind] at hcall
    cases hcall

end ShmRings.Threads
