import ShmRings.Calls.Sound
import ShmRings.Calls.Touch
import ShmRings.Model.Loom

/-!
# The ring and its loom double

The double is the ring's code without the file and without the look at the loan gate in `try_pop`. Call by
call the two are one computation, up to the map that forgets the file.

* `ringOf`, `World.double`; `tryPush_double`, `tryPop_double`, `claim_double`, `commit_double`,
  `abort_double`, `drop_double`: each call;
* `NoErr`: the double answers or panics; `Corresponds`, `InStep`;
* `PassesGate`; `inStep_of_not_passes`, `not_inStep_of_passes`: one operation;
* `Agree`, `Ungated`, **`loom_agrees_iff`**: a sequence of them; **`loom_pop_passes`**.
-/

set_option autoImplicit false

namespace ShmRings

variable {p : Profile} {h : Handle} {f : RingFile UInt64} {w w' : World UInt64} {l : Loan} {r n : ℕ}

/-- The double in the state of a handle and its file. -/
def ringOf (h : Handle) (f : RingFile UInt64) : LoomRing :=
  ⟨f.hdr.writeIdx, f.hdr.readIndices, f.hdr.numReaders, f.hdr.totalWritten, h.claimBase, h.loanDepth,
    f.slots⟩

def Loan.double (l : Loan) : LoomLoan := ⟨l.readerId, l.index, l.resolved⟩

/-- The double in the state of the first handle. -/
def World.double (w : World UInt64) : LoomState :=
  ⟨ringOf (w.handle 0) w.file, w.loans.map fun kl => kl.2.double⟩

theorem slot_double (hcap : h.capacity = loomCapacity) (idx : ℕ) : LoomRing.slot idx = h.slot idx := by
  rw [LoomRing.slot, Handle.slot, hcap]

theorem tryPush_double (hcap : h.capacity = loomCapacity) (value : UInt64) :
    (ringOf h f).tryPush p value = (fun x => (x.1, ringOf h x.2)) <$> tryPush p h f value := by
  simp only [LoomRing.tryPush, tryPush, map_bind]
  refine bind_congr fun minRead => bind_congr fun lag => ?_
  rw [hcap]
  split_ifs with hfull
  · rfl
  · rw [map_bind]
    refine bind_congr fun next => ?_
    rw [slot_double hcap]
    rfl

/-! ## The arrays -/

theorem loadAt_ok {words : ℕ → ℕ} (hr : r < maxReaders) : loadAt words r = .ok (words r) := if_pos hr

theorem storeAt_ok {words : ℕ → ℕ} {v : ℕ} (hr : r < maxReaders) :
    storeAt words r v = .ok (Function.update words r v) := if_pos hr

theorem setReadIdx_eq {hdr : RingHeader} {v : ℕ} (hr : r < maxReaders) :
    hdr.setReadIdx r v = .ok { hdr with readIndices := Function.update hdr.readIndices r v } := if_pos hr

/-! ## The calls -/

theorem tryPop_double (hcap : h.capacity = loomCapacity) (hr : r < f.hdr.numReaders)
    (hr' : r < maxReaders) (hd : h.loanDepth r = 0) :
    (ringOf h f).tryPop p r = (fun x => (x.1, ringOf h x.2)) <$> tryPop p h f r := by
  have hassert : r < (ringOf h f).numReaders := hr
  simp only [LoomRing.tryPop, tryPop, ensure_pos hassert, checkReader_ok hr, Handle.loadDepth,
    if_pos hr', loadAt_ok hr', readIdx_ok hr', storeAt_ok hr', setReadIdx_eq hr', ok_bind, hd]
  rw [if_neg (not_not.mpr rfl)]
  change (if f.hdr.readIndices r = f.hdr.writeIdx then _ else _) = _
  split_ifs with hempty
  · rfl
  · rw [slot_double hcap, map_bind]
    rfl

/-- The double has no gate: it finds nothing only at the end of the stream. -/
theorem tryPop_double_none (hr : r < f.hdr.numReaders) (hr' : r < maxReaders)
    (hempty : f.hdr.readIndices r = f.hdr.writeIdx) :
    (ringOf h f).tryPop p r = .ok (none, ringOf h f) := by
  have hassert : r < (ringOf h f).numReaders := hr
  simp only [LoomRing.tryPop, ensure_pos hassert, loadAt_ok hr', ok_bind]
  exact if_pos hempty

theorem claim_double (hr : r < f.hdr.numReaders) (hr' : r < maxReaders) :
    (ringOf h f).claim p r = (fun x => (x.1.map Loan.double, ringOf x.2 f)) <$> claim p h f r := by
  have hassert : r < (ringOf h f).numReaders := hr
  simp only [LoomRing.claim, claim, ensure_pos hassert, checkReader_ok hr, raiseGate_ok hr',
    lowerGate_ok hr', loadBase_ok hr', setBase_ok _ hr', loadAt_ok hr', readIdx_ok hr',
    storeAt_ok hr', ok_bind]
  change (if max (h.claimBase r) (f.hdr.readIndices r) ≥ f.hdr.writeIdx then _ else _) =
    (fun x : Option Loan × Handle => (x.1.map Loan.double, ringOf x.2 f)) <$>
      (if max (h.claimBase r) (f.hdr.readIndices r) ≥ f.hdr.writeIdx then _ else _)
  split_ifs with hempty
  · rfl
  · rw [map_bind]
    rfl

theorem resolve_double {d : LoomRing} (hr' : l.readerId < maxReaders) : l.double.resolve d =
    .ok ({ l with resolved := true }.double, { d with
      loanDepth := Function.update d.loanDepth l.readerId (wrappingSub (d.loanDepth l.readerId) 1) }) := by
  have hr : l.double.readerId < maxReaders := hr'
  simp only [LoomLoan.resolve, loadAt_ok hr, storeAt_ok hr, ok_bind]
  rfl

theorem commit_double_early (hl : l.resolved = false) (hr' : l.readerId < maxReaders)
    (hne : f.hdr.readIndices l.readerId ≠ l.index) :
    l.double.commit p (ringOf h f) = .ok (false, l.double, ringOf h f) := by
  have hr : l.double.readerId < maxReaders := hr'
  have hopen : l.double.resolved = false := hl
  simp only [LoomLoan.commit, hopen, loadAt_ok hr, ok_bind]
  exact if_pos hne

/-- The two commits agree where the ring's does not return an error. -/
theorem commit_double (hr' : l.readerId < maxReaders)
    (hat : l.resolved = true ∨ f.hdr.readIndices l.readerId = l.index) :
    l.double.commit p (ringOf h f) =
      (fun x => (true, x.1.double, ringOf x.2.1 x.2.2)) <$> l.commit p h f := by
  have hr : l.double.readerId < maxReaders := hr'
  cases hl : l.resolved with
  | true =>
      rw [commit_resolved hl]
      exact if_pos hl
  | false =>
      have hopen : l.double.resolved = false := hl
      have heq : f.hdr.readIndices l.readerId = l.index := by simpa [hl] using hat
      simp only [LoomLoan.commit, Loan.commit, hopen, hl, loadAt_ok hr, storeAt_ok hr, readIdx_ok hr',
        setReadIdx_eq hr', resolve_eq hr', resolve_double hr', ok_bind]
      change (if f.hdr.readIndices l.readerId ≠ l.index then _ else _) =
        (fun x : Loan × Handle × RingFile UInt64 => (true, x.1.double, ringOf x.2.1 x.2.2)) <$>
          (if f.hdr.readIndices l.readerId ≠ l.index then _ else _)
      rw [if_neg (not_not.mpr heq), if_neg (not_not.mpr heq), map_bind]
      rfl

theorem abort_double (hr' : l.readerId < maxReaders) :
    l.double.abort (ringOf h f) = (fun x => ringOf x f) <$> l.abort h := by
  have hr : l.double.readerId < maxReaders := hr'
  cases hl : l.resolved with
  | true =>
      rw [abort_resolved hl]
      exact if_pos hl
  | false =>
      have hopen : l.double.resolved = false := hl
      rw [abort_eq hl hr']
      simp only [LoomLoan.abort, hopen, loadAt_ok hr, storeAt_ok hr, resolve_double hr', ok_bind]
      rfl

theorem drop_double (hr' : l.readerId < maxReaders) :
    l.double.drop p (ringOf h f) = (fun x => ringOf x.1 x.2) <$> l.drop p h f := by
  have hr : l.double.readerId < maxReaders := hr'
  cases hl : l.resolved with
  | true =>
      rw [drop_resolved hl]
      exact if_pos hl
  | false =>
      have hopen : l.double.resolved = false := hl
      by_cases heq : f.hdr.readIndices l.readerId = l.index
      · have heq' : (ringOf h f).readIndices l.double.readerId = l.double.index := heq
        simp only [LoomLoan.drop, Loan.drop, hopen, hl, loadAt_ok hr, storeAt_ok hr, readIdx_ok hr',
          setReadIdx_eq hr', resolve_eq hr', resolve_double hr', ok_bind, if_pos heq, if_pos heq',
          Bool.false_eq_true, if_false, map_bind]
        rfl
      · rw [drop_away hl hr' heq]
        have hne : (ringOf h f).readIndices l.double.readerId ≠ l.double.index := heq
        simp only [LoomLoan.drop, hopen, loadAt_ok hr, resolve_double hr', ok_bind, if_neg hne]
        rfl

/-- The double finds nothing only at the end of the stream. -/
theorem tryPop_eq_none {d d' : LoomRing} (heq : d.tryPop p r = .ok (none, d')) :
    d.readIndices r = d.writeIdx := by
  simp only [LoomRing.tryPop, bind_eq_ok, loadAt] at heq
  obtain ⟨-, -, r', hload, heq⟩ := heq
  split_ifs at hload
  cases hload
  split_ifs at heq with hempty
  · exact hempty
  · simp only [bind_eq_ok] at heq
    obtain ⟨next, -, words, -, heq⟩ := heq
    cases heq

/-! ## The capacity of a handle -/

theorem raiseGate_capacity {h' : Handle} (heq : h.raiseGate r = .ok h') : h'.capacity = h.capacity := by
  unfold Handle.raiseGate at heq
  split_ifs at heq
  cases heq
  rfl

theorem lowerGate_capacity {h' : Handle} (heq : h.lowerGate r = .ok h') : h'.capacity = h.capacity := by
  unfold Handle.lowerGate at heq
  split_ifs at heq
  cases heq
  rfl

theorem setBase_capacity {h' : Handle} {b : ℕ} (heq : h.setBase r b = .ok h') :
    h'.capacity = h.capacity := by
  unfold Handle.setBase at heq
  split_ifs at heq
  cases heq
  rfl

theorem resolve_capacity {l' : Loan} {h' : Handle} (heq : l.resolve h = .ok (l', h')) :
    h'.capacity = h.capacity := by
  obtain ⟨h₁, hlower, heq⟩ := bind_eq_ok.mp heq
  cases heq
  exact lowerGate_capacity hlower

theorem claim_capacity {x : Option Loan} {h' : Handle} (heq : claim p h f r = .ok (x, h')) :
    h'.capacity = h.capacity := by
  simp only [claim, bind_eq_ok] at heq
  obtain ⟨-, -, h₁, hraise, cursor, -, base, -, heq⟩ := heq
  have hcap := raiseGate_capacity hraise
  split_ifs at heq
  · obtain ⟨h₂, hlower, heq⟩ := bind_eq_ok.mp heq
    cases heq
    exact (lowerGate_capacity hlower).trans hcap
  · simp only [bind_eq_ok] at heq
    obtain ⟨next, -, h₂, hset, heq⟩ := heq
    cases heq
    exact (setBase_capacity hset).trans hcap

/-- A loan is of the reader it was claimed for. -/
theorem claim_reader {h' : Handle} (heq : claim p h f r = .ok (some l, h')) : l.readerId = r := by
  simp only [claim, bind_eq_ok] at heq
  obtain ⟨-, -, h₁, -, cursor, -, base, -, heq⟩ := heq
  split_ifs at heq
  · obtain ⟨h₂, -, heq⟩ := bind_eq_ok.mp heq
    cases heq
  · simp only [bind_eq_ok] at heq
    obtain ⟨next, -, h₂, -, heq⟩ := heq
    cases heq
    rfl

theorem commit_capacity {l' : Loan} {h' : Handle} {f' : RingFile UInt64}
    (heq : l.commit p h f = .ok (l', h', f')) : h'.capacity = h.capacity := by
  unfold Loan.commit at heq
  split_ifs at heq
  · cases heq
    rfl
  · obtain ⟨cursor, -, heq⟩ := bind_eq_ok.mp heq
    split_ifs at heq
    · cases heq
    · simp only [bind_eq_ok] at heq
      obtain ⟨next, -, hdr, -, ⟨l₁, h₁⟩, hresolve, heq⟩ := heq
      cases heq
      exact resolve_capacity hresolve

theorem abort_capacity {h' : Handle} (heq : l.abort h = .ok h') : h'.capacity = h.capacity := by
  unfold Loan.abort at heq
  split_ifs at heq
  · cases heq
    rfl
  · simp only [bind_eq_ok] at heq
    obtain ⟨base, -, h₁, hset, ⟨l₁, h₂⟩, hresolve, heq⟩ := heq
    cases heq
    exact (resolve_capacity hresolve).trans (setBase_capacity hset)

theorem drop_capacity {h' : Handle} {f' : RingFile UInt64} (heq : l.drop p h f = .ok (h', f')) :
    h'.capacity = h.capacity := by
  unfold Loan.drop at heq
  split_ifs at heq
  · cases heq
    rfl
  · obtain ⟨cursor, -, heq⟩ := bind_eq_ok.mp heq
    split_ifs at heq
    · simp only [bind_eq_ok] at heq
      obtain ⟨next, -, hdr, -, ⟨l₁, h₁⟩, hresolve, heq⟩ := heq
      cases heq
      exact resolve_capacity hresolve
    · simp only [bind_eq_ok] at heq
      obtain ⟨hdr, -, ⟨l₁, h₁⟩, hresolve, heq⟩ := heq
      cases heq
      exact resolve_capacity hresolve

/-! ## The double returns no error -/

/-- The computation returns a value or panics. -/
def NoErr {β : Type} (x : Except Fault β) : Prop := ∀ e, x ≠ .error (.err e)

section NoErr

variable {β γ : Type}

theorem noErr_pure (b : β) : NoErr (pure b : Except Fault β) := nofun

theorem noErr_bind {x : Except Fault β} {k : β → Except Fault γ} (hx : NoErr x) (hk : ∀ b, NoErr (k b)) :
    NoErr (x >>= k) := by
  cases x with
  | ok b => exact hk b
  | error e => exact fun e' heq => hx e' (congrArg Except.error (Except.error.inj heq))

theorem noErr_ite {q : Prop} [Decidable q] {x y : Except Fault β} (hx : NoErr x) (hy : NoErr y) :
    NoErr (if q then x else y) := by
  split_ifs
  · exact hx
  · exact hy

theorem noErr_add (a b : ℕ) : NoErr (p.add a b) :=
  noErr_ite (noErr_pure _) (noErr_ite nofun (noErr_pure _))

theorem noErr_sub (a b : ℕ) : NoErr (p.sub a b) :=
  noErr_ite (noErr_pure _) (noErr_ite nofun (noErr_pure _))

theorem noErr_loadAt (words : ℕ → ℕ) (i : ℕ) : NoErr (loadAt words i) := noErr_ite (noErr_pure _) nofun

theorem noErr_storeAt (words : ℕ → ℕ) (i v : ℕ) : NoErr (storeAt words i v) :=
  noErr_ite (noErr_pure _) nofun

theorem noErr_assert (q : Prop) [Decidable q] : NoErr (ensure q (.panic .assertion)) :=
  noErr_ite (noErr_pure _) nofun

theorem noErr_of_map {x : Except Fault β} {g : β → γ} (h : NoErr (g <$> x)) : NoErr x := by
  rintro e rfl
  exact h e rfl

end NoErr

section

variable (d : LoomRing) (v : UInt64) (k : LoomLoan)

theorem noErr_tryPush : NoErr (d.tryPush p v) := by
  refine noErr_bind (noErr_ite (noErr_pure _) nofun) fun _ => noErr_bind (noErr_sub _ _) fun _ => ?_
  exact noErr_ite (noErr_pure _) (noErr_bind (noErr_add _ _) fun _ => noErr_pure _)

theorem noErr_tryPop : NoErr (d.tryPop p r) := by
  refine noErr_bind (noErr_assert _) fun _ => noErr_bind (noErr_loadAt _ _) fun _ => ?_
  refine noErr_ite (noErr_pure _) (noErr_bind (noErr_add _ _) fun _ => ?_)
  exact noErr_bind (noErr_storeAt _ _ _) fun _ => noErr_pure _

theorem noErr_claim : NoErr (d.claim p r) := by
  refine noErr_bind (noErr_assert _) fun _ => noErr_bind (noErr_loadAt _ _) fun _ => ?_
  refine noErr_bind (noErr_storeAt _ _ _) fun _ => noErr_bind (noErr_loadAt _ _) fun _ => ?_
  refine noErr_bind (noErr_loadAt _ _) fun _ => noErr_ite ?_ ?_
  · refine noErr_bind (noErr_loadAt _ _) fun _ => ?_
    exact noErr_bind (noErr_storeAt _ _ _) fun _ => noErr_pure _
  · refine noErr_bind (noErr_add _ _) fun _ => ?_
    exact noErr_bind (noErr_storeAt _ _ _) fun _ => noErr_pure _

theorem noErr_resolve : NoErr (k.resolve d) := by
  refine noErr_bind (noErr_loadAt _ _) fun _ => ?_
  exact noErr_bind (noErr_storeAt _ _ _) fun _ => noErr_pure _

theorem noErr_commit : NoErr (k.commit p d) := by
  refine noErr_ite (noErr_pure _) (noErr_bind (noErr_loadAt _ _) fun _ => ?_)
  refine noErr_ite (noErr_pure _) (noErr_bind (noErr_add _ _) fun _ => ?_)
  refine noErr_bind (noErr_storeAt _ _ _) fun _ => ?_
  exact noErr_bind (noErr_resolve _ _) fun _ => noErr_pure _

theorem noErr_abort : NoErr (k.abort d) := by
  refine noErr_ite (noErr_pure _) (noErr_bind (noErr_loadAt _ _) fun _ => ?_)
  refine noErr_bind (noErr_storeAt _ _ _) fun _ => ?_
  exact noErr_bind (noErr_resolve _ _) fun _ => noErr_pure _

theorem noErr_drop : NoErr (k.drop p d) := by
  refine noErr_ite (noErr_pure _) (noErr_bind (noErr_loadAt _ _) fun _ => noErr_ite ?_ ?_)
  · refine noErr_bind (noErr_add _ _) fun _ => noErr_bind (noErr_storeAt _ _ _) fun _ => ?_
    exact noErr_bind (noErr_resolve _ _) fun _ => noErr_pure _
  · refine noErr_bind (noErr_pure _) fun _ => ?_
    exact noErr_bind (noErr_resolve _ _) fun _ => noErr_pure _

end

/-! ## One operation -/

/-- The call of the ring that an operation of the double stands for. -/
def LoomOp.toCall : LoomOp n → Call UInt64
  | .tryPush value => .tryPush 0 value
  | .tryPop r => .tryPop 0 r
  | .claim r => .claim 0 r
  | .commit i => .commit i
  | .abort i => .abort i
  | .drop i => .drop i

/-- Corresponding answers. -/
inductive Corresponds : Except ShmRingError (Reply UInt64) → LoomReply → Prop
  | pushed {b : Bool} : Corresponds (.ok (.pushed b)) (.pushed b)
  | popped {v : Option UInt64} : Corresponds (.ok (.popped v)) (.popped v)
  | gated {r : ℕ} : Corresponds (.error (.loanOutstanding r)) (.popped none)
  | claimed {l : Option (ℕ × UInt64)} : Corresponds (.ok (.claimed l)) (.claimed l)
  | committed : Corresponds (.ok .done) (.committed true)
  | notAtCursor {i c : ℕ} : Corresponds (.error (.loanNotAtCursor i c)) (.committed false)
  | done : Corresponds (.ok .done) .done

/-- The two answer alike and are in the same state after, or both panic. -/
inductive InStep : Except Panic (Except ShmRingError (Reply UInt64) × World UInt64) →
    Except Fault (LoomReply × LoomState) → Prop
  | returns {a b} {w' : World UInt64} : Corresponds a b → InStep (.ok (a, w')) (.ok (b, w'.double))
  | panics {e} : InStep (.error e) (.error (.panic e))

theorem InStep.corresponds {a : Except ShmRingError (Reply UInt64)} {b : LoomReply} {s' : LoomState}
    (h : InStep (.ok (a, w')) (.ok (b, s'))) : Corresponds a b := by
  cases h with
  | returns hb => exact hb

/-- The pop finds a message while a loan of its reader is open: the ring's gate stops it. -/
def PassesGate (w : World UInt64) (op : LoomOp n) : Prop :=
  ∃ r : Fin n, op = .tryPop r ∧ (w.handle 0).loanDepth r ≠ 0 ∧
    w.file.hdr.readIndices r ≠ w.file.hdr.writeIdx

/-- One handle on a ring of two slots and `n` readers, with all loans on it. -/
structure Paired (n : ℕ) (w : World UInt64) : Prop where
  capacity : (w.handle 0).capacity = loomCapacity
  numReaders : w.file.hdr.numReaders = n
  loans : ∀ kl ∈ w.loans, kl.1 = 0 ∧ kl.2.readerId < maxReaders

variable {op : LoomOp n}

/-- Both sides run the same computation `x`. -/
theorem inStep_of_eq {β : Type} {x : Except Fault β} {s : LoomState} (reply : β → Reply UInt64)
    (next : β → World UInt64) (answer : β → LoomReply) (state : β → LoomState) (hno : NoErr x)
    (happly : w.apply p op.toCall = x >>= fun b => pure (reply b, next b))
    (hrun : s.run p op = x >>= fun b => pure (answer b, state b))
    (hcorr : ∀ b, x = .ok b → Corresponds (.ok (reply b)) (answer b) ∧ state b = (next b).double) :
    InStep (w.call p op.toCall) (s.run p op) := by
  rw [hrun, World.call, happly]
  cases x with
  | ok b =>
      obtain ⟨hb, hstate⟩ := hcorr b rfl
      rw [ok_bind, ok_bind, hstate]
      exact .returns hb
  | error e =>
      cases e with
      | err e => exact absurd rfl (hno e)
      | panic e => exact .panics

theorem inStep_tryPush (hp : Paired n w) (v : UInt64) :
    InStep (w.call p (LoomOp.tryPush v : LoomOp n).toCall) (w.double.run p (.tryPush v : LoomOp n)) := by
  have heq := tryPush_double (p := p) (f := w.file) hp.capacity v
  have hno : NoErr (tryPush p (w.handle 0) w.file v) := noErr_of_map (heq ▸ noErr_tryPush _ v)
  refine inStep_of_eq _ _ (fun b => .pushed b.1) (fun b => ⟨ringOf (w.handle 0) b.2, w.double.loans⟩) hno rfl
    ?_ fun _ _ => ⟨.pushed, rfl⟩
  simp only [LoomState.run, World.double]
  rw [heq, bind_map_left]

theorem Paired.reader (hp : Paired n w) (hn : n ≤ maxReaders) (r : Fin n) :
    (r : ℕ) < w.file.hdr.numReaders ∧ (r : ℕ) < maxReaders :=
  ⟨hp.numReaders ▸ r.isLt, r.isLt.trans_le hn⟩

theorem inStep_tryPop (hp : Paired n w) (hn : n ≤ maxReaders) {r : Fin n}
    (hgate : ¬ PassesGate w (.tryPop r : LoomOp n)) :
    InStep (w.call p (LoomOp.tryPop r).toCall) (w.double.run p (.tryPop r)) := by
  obtain ⟨hr, hr'⟩ := hp.reader hn r
  by_cases hd : (w.handle 0).loanDepth r = 0
  · have heq := tryPop_double (p := p) (f := w.file) hp.capacity hr hr' hd
    have hno : NoErr (tryPop p (w.handle 0) w.file r) := noErr_of_map (heq ▸ noErr_tryPop _)
    refine inStep_of_eq _ _ (fun b => .popped b.1) (fun b => ⟨ringOf (w.handle 0) b.2, w.double.loans⟩) hno
      rfl ?_ fun _ _ => ⟨.popped, rfl⟩
    simp only [LoomState.run, World.double]
    rw [heq, bind_map_left]
  · have hempty : w.file.hdr.readIndices r = w.file.hdr.writeIdx := by
      by_contra hne
      exact hgate ⟨r, rfl, hd, hne⟩
    have hcall : w.call p (LoomOp.tryPop r).toCall = .ok (.error (.loanOutstanding r), w) := by
      simp only [LoomOp.toCall, World.call, World.apply, tryPop_gate hr hr' hd, error_bind]
    have hrun : w.double.run p (.tryPop r) = .ok (.popped none, w.double) := by
      simp only [LoomState.run, World.double, tryPop_double_none hr hr' hempty, ok_bind]
      rfl
    rw [hcall, hrun]
    exact .returns .gated

theorem inStep_claim (hp : Paired n w) (hn : n ≤ maxReaders) (r : Fin n) :
    InStep (w.call p (LoomOp.claim r).toCall) (w.double.run p (.claim r)) := by
  obtain ⟨hr, hr'⟩ := hp.reader hn r
  have heq := claim_double (p := p) (h := w.handle 0) hr hr'
  have hno : NoErr (claim p (w.handle 0) w.file r) := noErr_of_map (heq ▸ noErr_claim _)
  refine inStep_of_eq (fun b => .claimed (b.1.map fun l => (l.index, l.deref b.2 w.file)))
    (fun b => { w.setHandle 0 b.2 with loans := w.loans ++ (b.1.map fun l => (0, l)).toList })
    (fun b => .claimed (b.1.map fun l => (l.index, l.double.value (ringOf b.2 w.file))))
    (fun b => ⟨ringOf b.2 w.file, w.double.loans ++ (b.1.map Loan.double).toList⟩) hno ?_ ?_ ?_
  · refine bind_congr fun b => ?_
    obtain ⟨l, h⟩ := b
    cases l with
    | none => simp [World.setHandle]
    | some l => rfl
  · simp only [LoomState.run, World.double]
    rw [heq, bind_map_left]
    refine bind_congr fun b => ?_
    obtain ⟨l, h⟩ := b
    cases l with
    | none => simp
    | some l => rfl
  · rintro ⟨l, h⟩ hb
    have hcap : h.capacity = loomCapacity := (claim_capacity hb).trans hp.capacity
    have hvalue : ∀ l : Loan, l.double.value (ringOf h w.file) = l.deref h w.file := fun l =>
      congrArg w.file.slots (slot_double hcap l.index)
    simp only [hvalue]
    refine ⟨.claimed, ?_⟩
    cases l with
    | none => simp [World.double, World.setHandle]
    | some l => simp [World.double, World.setHandle]

/-- Loan `i` on both sides. -/
theorem getElem?_double (i : ℕ) : w.double.loans[i]? = w.loans[i]?.map fun kl => kl.2.double :=
  List.getElem?_map

theorem double_set (i k : ℕ) (l : Loan) (h : Handle) (f : RingFile UInt64) :
    World.double { w.setHandle 0 h with file := f, loans := w.loans.set i (k, l) } =
      ⟨ringOf h f, w.double.loans.set i l.double⟩ := by
  simp [World.double, World.setHandle, List.map_set]

/-- A loan that was never claimed. -/
theorem inStep_missing {i : ℕ} (hi : w.loans[i]? = none)
    (hop : op = .commit i ∨ op = .abort i ∨ op = .drop i) :
    InStep (w.call p op.toCall) (w.double.run p op) := by
  have hi' : w.double.loans[i]? = none := by rw [getElem?_double, hi]; rfl
  have hcall : w.call p op.toCall = .ok (.ok .done, w) := by
    rcases hop with rfl | rfl | rfl <;> simp only [LoomOp.toCall, World.call, World.apply, hi]
  have hrun : w.double.run p op = .ok (.done, w.double) := by
    rcases hop with rfl | rfl | rfl <;> simp only [LoomState.run, hi']
  rw [hcall, hrun]
  exact .returns .done

/-- A loan is on handle 0, and the double has it in the same place. -/
theorem Paired.loan_at (hp : Paired n w) {i k : ℕ} {l : Loan} (hi : w.loans[i]? = some (k, l)) :
    k = 0 ∧ l.readerId < maxReaders ∧ w.double.loans[i]? = some l.double := by
  obtain ⟨hk, hr⟩ := hp.loans _ (List.mem_of_getElem? hi)
  refine ⟨hk, hr, ?_⟩
  rw [getElem?_double, hi]
  rfl

theorem inStep_commit (hp : Paired n w) (i : ℕ) :
    InStep (w.call p (LoomOp.commit i : LoomOp n).toCall) (w.double.run p (.commit i : LoomOp n)) := by
  cases hi : w.loans[i]? with
  | none => exact inStep_missing hi (.inl rfl)
  | some kl =>
      obtain ⟨k, l⟩ := kl
      obtain ⟨rfl, hr', hi'⟩ := hp.loan_at hi
      by_cases hat : l.resolved = true ∨ w.file.hdr.readIndices l.readerId = l.index
      · have heq := commit_double (p := p) (h := w.handle 0) (f := w.file) hr' hat
        have hno : NoErr (l.commit p (w.handle 0) w.file) := by
          refine noErr_of_map (g := fun x => (true, x.1.double, ringOf x.2.1 x.2.2)) ?_
          exact heq ▸ noErr_commit _ _
        refine inStep_of_eq (fun _ => .done)
          (fun b => { w.setHandle 0 b.2.1 with file := b.2.2, loans := w.loans.set i (0, b.1) })
          (fun _ => .committed true)
          (fun b => ⟨ringOf b.2.1 b.2.2, w.double.loans.set i b.1.double⟩) hno ?_ ?_ ?_
        · simp only [LoomOp.toCall, World.apply, hi]
        · simp only [LoomState.run, hi']
          change (l.double.commit p (ringOf (w.handle 0) w.file) >>= _) = _
          rw [heq, bind_map_left]
        · exact fun b _ => ⟨.committed, (double_set i 0 b.1 b.2.1 b.2.2).symm⟩
      · obtain ⟨hl, hne⟩ := not_or.mp hat
        have hopen : l.resolved = false := Bool.eq_false_iff.mpr hl
        have hcall : w.call p (LoomOp.commit i : LoomOp n).toCall =
            .ok (.error (.loanNotAtCursor l.index (w.file.hdr.readIndices l.readerId)), w) := by
          simp only [LoomOp.toCall, World.call, World.apply, hi, commit_early hopen hr' hne, error_bind]
        have hrun : w.double.run p (.commit i : LoomOp n) = .ok (.committed false, w.double) := by
          obtain ⟨hlt, hget⟩ := List.getElem?_eq_some_iff.mp hi'
          simp only [LoomState.run, hi']
          change (l.double.commit p (ringOf (w.handle 0) w.file) >>= _) = _
          rw [commit_double_early hopen hr' hne, ok_bind, ← hget, List.set_getElem_self]
          rfl
        rw [hcall, hrun]
        exact .returns .notAtCursor

theorem inStep_abort (hp : Paired n w) (i : ℕ) :
    InStep (w.call p (LoomOp.abort i : LoomOp n).toCall) (w.double.run p (.abort i : LoomOp n)) := by
  cases hi : w.loans[i]? with
  | none => exact inStep_missing hi (.inr (.inl rfl))
  | some kl =>
      obtain ⟨k, l⟩ := kl
      obtain ⟨rfl, hr', hi'⟩ := hp.loan_at hi
      have heq := abort_double (h := w.handle 0) (f := w.file) hr'
      have hno : NoErr (l.abort (w.handle 0)) := noErr_of_map (heq ▸ noErr_abort _ _)
      refine inStep_of_eq (fun _ => .done)
        (fun h => { w.setHandle 0 h with loans := w.loans.set i (0, { l with resolved := true }) })
        (fun _ => .done)
        (fun h => ⟨ringOf h w.file, w.double.loans.set i { l with resolved := true }.double⟩) hno ?_ ?_ ?_
      · simp only [LoomOp.toCall, World.apply, hi]
      · simp only [LoomState.run, hi']
        change (l.double.abort (ringOf (w.handle 0) w.file) >>= _) = _
        rw [heq, bind_map_left]
        rfl
      · exact fun h _ => ⟨.done, (double_set i 0 _ h w.file).symm⟩

theorem inStep_drop (hp : Paired n w) (i : ℕ) :
    InStep (w.call p (LoomOp.drop i : LoomOp n).toCall) (w.double.run p (.drop i : LoomOp n)) := by
  cases hi : w.loans[i]? with
  | none => exact inStep_missing hi (.inr (.inr rfl))
  | some kl =>
      obtain ⟨k, l⟩ := kl
      obtain ⟨rfl, hr', hi'⟩ := hp.loan_at hi
      have heq := drop_double (p := p) (h := w.handle 0) (f := w.file) hr'
      have hno : NoErr (l.drop p (w.handle 0) w.file) := noErr_of_map (heq ▸ noErr_drop _ _)
      refine inStep_of_eq (fun _ => .done)
        (fun b => { w.setHandle 0 b.1 with
          file := b.2, loans := w.loans.set i (0, { l with resolved := true }) })
        (fun _ => .done)
        (fun b => ⟨ringOf b.1 b.2, w.double.loans.set i { l with resolved := true }.double⟩) hno ?_ ?_ ?_
      · simp only [LoomOp.toCall, World.apply, hi]
      · simp only [LoomState.run, hi']
        change (l.double.drop p (ringOf (w.handle 0) w.file) >>= _) = _
        rw [heq, bind_map_left]
        rfl
      · exact fun b _ => ⟨.done, (double_set i 0 _ b.1 b.2).symm⟩

/-- **One operation on both sides**, unless it passes the gate. -/
theorem inStep_of_not_passes (hp : Paired n w) (hn : n ≤ maxReaders) (hgate : ¬ PassesGate w op) :
    InStep (w.call p op.toCall) (w.double.run p op) := by
  cases op with
  | tryPush v => exact inStep_tryPush hp v
  | tryPop r => exact inStep_tryPop hp hn hgate
  | claim r => exact inStep_claim hp hn r
  | commit i => exact inStep_commit hp i
  | abort i => exact inStep_abort hp i
  | drop i => exact inStep_drop hp i

/-- A pop that passes the gate takes a message the ring does not give. -/
theorem not_inStep_of_passes (hp : Paired n w) (hn : n ≤ maxReaders) (hgate : PassesGate w op) :
    ¬ InStep (w.call p op.toCall) (w.double.run p op) := by
  obtain ⟨r, rfl, hd, hne⟩ := hgate
  obtain ⟨hr, hr'⟩ := hp.reader hn r
  have hcall : w.call p (LoomOp.tryPop r).toCall = .ok (.error (.loanOutstanding r), w) := by
    simp only [LoomOp.toCall, World.call, World.apply, tryPop_gate hr hr' hd, error_bind]
  rw [hcall]
  generalize hrun : w.double.run p (.tryPop r) = x
  intro h
  cases h with
  | returns hb =>
      cases hb
      obtain ⟨⟨v, d⟩, hpop, heq⟩ := bind_eq_ok.mp hrun
      cases heq
      exact hne (tryPop_eq_none hpop)

/-! ## Sequences of operations -/

theorem Touch.numReaders {f' : RingFile UInt64} (ht : Touch f f') :
    f'.hdr.numReaders = f.hdr.numReaders := by
  cases ht <;> rfl

theorem handle_setHandle (w : World UInt64) (k : ℕ) (h : Handle) : (w.setHandle k h).handle k = h := by
  unfold World.setHandle
  exact Function.update_self k h w.handle

/-- A loan on the handle is resolved, or is left as it is. -/
theorem Paired.settle (hp : Paired n w) {i k : ℕ} {l l' : Loan} {h' : Handle} {f' : RingFile UInt64}
    (hi : w.loans[i]? = some (k, l)) (hl : l'.readerId = l.readerId)
    (hcap : h'.capacity = (w.handle k).capacity) (hf : f'.hdr.numReaders = w.file.hdr.numReaders) :
    Paired n { w.setHandle k h' with file := f', loans := w.loans.set i (k, l') } := by
  obtain ⟨rfl, hr'⟩ := hp.loans _ (List.mem_of_getElem? hi)
  refine ⟨?_, hf.trans hp.numReaders, fun kl hkl => ?_⟩
  · exact (congrArg Handle.capacity (handle_setHandle w 0 h')).trans (hcap.trans hp.capacity)
  · rcases List.mem_or_eq_of_mem_set hkl with hmem | rfl
    · exact hp.loans kl hmem
    · exact ⟨rfl, hl ▸ hr'⟩

theorem Paired.apply (hp : Paired n w) (hn : n ≤ maxReaders) {a : Reply UInt64}
    (happly : w.apply p op.toCall = .ok (a, w')) : Paired n w' := by
  cases op with
  | tryPush v =>
      obtain ⟨⟨b, f⟩, hpush, heq⟩ := bind_eq_ok.mp happly
      cases heq
      exact ⟨hp.capacity, (tryPush_touch hpush).numReaders.trans hp.numReaders, hp.loans⟩
  | tryPop r =>
      obtain ⟨⟨v, f⟩, hpop, heq⟩ := bind_eq_ok.mp happly
      cases heq
      exact ⟨hp.capacity, (tryPop_touch hpop).numReaders.trans hp.numReaders, hp.loans⟩
  | claim r =>
      obtain ⟨⟨loan, h⟩, hclaim, heq⟩ := bind_eq_ok.mp happly
      have hcap : ((w.setHandle 0 h).handle 0).capacity = loomCapacity := by
        rw [handle_setHandle, claim_capacity hclaim, hp.capacity]
      cases loan with
      | none =>
          cases heq
          exact ⟨hcap, hp.numReaders, hp.loans⟩
      | some l =>
          cases heq
          refine ⟨hcap, hp.numReaders, fun kl hkl => ?_⟩
          rcases List.mem_append.mp hkl with hmem | hmem
          · exact hp.loans kl hmem
          · obtain rfl := List.mem_singleton.mp hmem
            exact ⟨rfl, claim_reader hclaim ▸ r.isLt.trans_le hn⟩
  | commit i =>
      simp only [LoomOp.toCall, World.apply] at happly
      split at happly
      · cases happly
        exact hp
      · rename_i k l hi
        obtain ⟨⟨l', h, f⟩, hcommit, heq⟩ := bind_eq_ok.mp happly
        cases heq
        obtain ⟨ht, hl, -⟩ := commit_touch hcommit
        exact hp.settle hi hl (commit_capacity hcommit) ht.numReaders
  | abort i =>
      simp only [LoomOp.toCall, World.apply] at happly
      split at happly
      · cases happly
        exact hp
      · rename_i k l hi
        obtain ⟨h, habort, heq⟩ := bind_eq_ok.mp happly
        cases heq
        exact hp.settle hi rfl (abort_capacity habort) rfl
  | drop i =>
      simp only [LoomOp.toCall, World.apply] at happly
      split at happly
      · cases happly
        exact hp
      · rename_i k l hi
        obtain ⟨⟨h, f⟩, hdrop, heq⟩ := bind_eq_ok.mp happly
        cases heq
        exact hp.settle hi rfl (drop_capacity hdrop) (drop_touch hdrop).numReaders

theorem Paired.call (hp : Paired n w) (hn : n ≤ maxReaders) {a : Except ShmRingError (Reply UInt64)}
    (hcall : w.call p op.toCall = .ok (a, w')) : Paired n w' := by
  unfold World.call at hcall
  split at hcall
  · rename_i reply u happly
    cases hcall
    exact hp.apply hn happly
  · cases hcall
    exact hp
  · cases hcall

/-- The double follows the ring, from `w` and `s`. -/
def Agree (p : Profile) : World UInt64 → LoomState → List (LoomOp n) → Prop
  | _, _, [] => True
  | w, s, op :: ops => InStep (w.call p op.toCall) (s.run p op) ∧
      ∀ a w' b s', w.call p op.toCall = .ok (a, w') → s.run p op = .ok (b, s') → Agree p w' s' ops

/-- No pop of the sequence passes the gate. -/
def Ungated (p : Profile) : World UInt64 → List (LoomOp n) → Prop
  | _, [] => True
  | w, op :: ops => ¬ PassesGate w op ∧
      ∀ a w', w.call p op.toCall = .ok (a, w') → Ungated p w' ops

theorem agree_iff (hp : Paired n w) (hn : n ≤ maxReaders) (ops : List (LoomOp n)) :
    Agree p w w.double ops ↔ Ungated p w ops := by
  induction ops generalizing w with
  | nil => exact Iff.rfl
  | cons op ops ih =>
      constructor
      · rintro ⟨hstep, hrest⟩
        refine ⟨fun hgate => not_inStep_of_passes hp hn hgate hstep, fun a w' hcall => ?_⟩
        generalize hrun : w.double.run p op = x at hstep hrest
        rw [hcall] at hstep
        cases hstep with
        | returns _ => exact (ih (hp.call hn hcall)).mp (hrest a w' _ _ hcall rfl)
      · rintro ⟨hgate, hrest⟩
        have hstep := inStep_of_not_passes (p := p) hp hn hgate
        refine ⟨hstep, fun a w' b s' hcall hrun => ?_⟩
        rw [hcall, hrun] at hstep
        cases hstep with
        | returns _ => exact (ih (hp.call hn hcall)).mpr (hrest a w' hcall)

/-- The configuration of a ring that the double with `n` readers stands for. -/
def loomConfig (hpos : 0 < n) (hn : n ≤ maxReaders) : Config := ⟨1, n, Config.one_lt, hpos, hn⟩

/-- **The loom double agrees with the ring on a sequence of operations exactly when no pop of it passes
the gate**, from a fresh double and a fresh ring of two slots. -/
theorem loom_agrees_iff (p : Profile) {n : ℕ} (hpos : 0 < n) (hn : n ≤ maxReaders)
    (ops : List (LoomOp n)) : ∃ d, LoomRing.withReaders n = .ok d ∧
      (Agree p (World.created (loomConfig hpos hn) fun _ => 0) ⟨d, []⟩ ops ↔
        Ungated p (World.created (loomConfig hpos hn) fun _ => 0) ops) := by
  have hp : Paired n (World.created (loomConfig hpos hn) fun _ => (0 : UInt64)) :=
    ⟨rfl, rfl, fun kl hkl => by cases hkl⟩
  exact ⟨.fresh n, by rw [LoomRing.withReaders, ensure_pos ⟨hpos, hn⟩]; rfl, agree_iff hp hn ops⟩

/-- `Ungated`, computed. -/
def ungated (p : Profile) : World UInt64 → List (LoomOp n) → Bool
  | _, [] => true
  | w, op :: ops =>
      (match op with
        | .tryPop r => decide ((w.handle 0).loanDepth r = 0 ∨ w.file.hdr.readIndices r = w.file.hdr.writeIdx)
        | _ => true) &&
      match w.call p op.toCall with
      | .ok x => ungated p x.2 ops
      | .error _ => true

theorem ungated_of_check {ops : List (LoomOp n)} (h : ungated p w ops = true) : Ungated p w ops := by
  induction ops generalizing w with
  | nil => trivial
  | cons op ops ih =>
      obtain ⟨hop, hrest⟩ := (Bool.and_eq_true _ _).mp h
      refine ⟨?_, fun a w' hcall => ih ?_⟩
      · rintro ⟨r, rfl, hdepth, hunread⟩
        exact (of_decide_eq_true hop).elim hdepth hunread
      · rw [hcall] at hrest
        exact hrest

/-- Two loans, of which the second is committed too early, and a pop after them. -/
theorem loom_agrees_loans : (∃ d, LoomRing.withReaders 1 = .ok d ∧
      Agree checked (World.created (loomConfig (Nat.one_pos) (by decide)) fun _ => 0) ⟨d, []⟩
        ([.tryPush 5, .tryPush 6, .claim 0, .claim 0, .commit 1, .commit 0, .commit 1, .tryPush 7, .tryPop 0] :
          List (LoomOp 1))) ∧
    ([.tryPush 0 5, .tryPush 0 6, .claim 0 0, .claim 0 0].foldlM (fun w c => Prod.snd <$> w.call checked c)
      (World.created (loomConfig (n := 1) (Nat.one_pos) (by decide)) fun _ => (0 : UInt64)) >>= fun w =>
        Prod.fst <$> w.call checked (.commit 1)) = .ok (.error (.loanNotAtCursor 1 0)) := by
  refine ⟨?_, rfl⟩
  obtain ⟨d, hd, hiff⟩ := loom_agrees_iff checked Nat.one_pos (by decide)
    ([.tryPush 5, .tryPush 6, .claim 0, .claim 0, .commit 1, .commit 0, .commit 1, .tryPush 7, .tryPop 0] :
      List (LoomOp 1))
  exact ⟨d, hd, hiff.mpr (ungated_of_check rfl)⟩

/-- The pop of a reader with an open loan: the ring refuses it, and the double takes the message. -/
theorem loom_pop_passes :
    ¬ Agree checked (World.created (loomConfig (Nat.one_pos) (by decide)) fun _ => 0) ⟨.fresh 1, []⟩
      ([.tryPush 5, .claim 0, .tryPop 0] : List (LoomOp 1)) := by
  rintro ⟨-, hpush⟩
  obtain ⟨-, hclaim⟩ := hpush _ _ _ _ rfl rfl
  obtain ⟨hpop, -⟩ := hclaim _ _ _ _ rfl rfl
  have hanswers : Corresponds (.error (.loanOutstanding 0)) (.popped (some 5)) :=
    InStep.corresponds hpop
  cases hanswers

end ShmRings
