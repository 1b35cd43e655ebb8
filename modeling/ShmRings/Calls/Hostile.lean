import ShmRings.Calls.Sound
import ShmRings.Calls.Geometry
import ShmRings.Calls.Touch

/-!
# Calls on a hostile file

A file `open_existing` accepts has a valid magic, version and mask; every other word is arbitrary. In a
build with overflow checks a call returns exactly when the words it reads keep its arithmetic and its
array accesses in range.

* `Call.Safe`: the condition of each call; `Words`, `Words.call`: what the calls keep;
* `Returns` and its rules; `apply_returns_iff`; **`no_panic_iff`**: every call of every run on an accepted
  file;
* **`first_call_panics`**: accepted files on which the first call panics.
-/

set_option autoImplicit false

namespace ShmRings

open Transition

variable {α : Type}

/-- The world of a file just opened: any slots, and no loans. -/
structure Hostile (m : Mapping) (w : World α) : Prop where
  hdr : w.file.hdr = m.hdr
  handle : ∀ k, w.handle k = m.handle
  loans : w.loans = []

/-- The bounds check of reader `r` succeeds without an underflow, and its cursor is in the array. -/
def World.Answers (w : World α) (r : ℕ) : Prop :=
  0 < w.file.hdr.numReaders ∧ (r < w.file.hdr.numReaders → r < maxReaders)

/-- The words a call reads keep it from panicking. -/
def Call.Safe (w : World α) : Call α → Prop
  | .tryPush k _ => w.file.hdr.numReaders ≤ maxReaders ∧
      slowest w.file.hdr.readIndices w.file.hdr.numReaders ≤ w.file.hdr.writeIdx ∧
      (w.file.lag < (w.handle k).capacity → w.file.hdr.writeIdx + 1 < u64Size)
  | .tryPop k r => w.Answers r ∧ (r < w.file.hdr.numReaders → (w.handle k).loanDepth r = 0 →
      w.file.hdr.readIndices r ≠ w.file.hdr.writeIdx → w.file.hdr.readIndices r + 1 < u64Size)
  | .peek _ r | .len _ r | .isEmpty _ r | .claim _ r => w.Answers r
  | .slowestLag _ => w.file.hdr.numReaders ≤ maxReaders
  | .openExisting _ | .totalWritten _ | .commit _ | .abort _ | .drop _ => True

/-- `write_idx` is a word, and the loans are of readers in the array and leave room for an increment. -/
structure Words (w : World α) : Prop where
  writeIdx : w.file.hdr.writeIdx < u64Size
  loans : ∀ kl ∈ w.loans, kl.2.readerId < maxReaders ∧ kl.2.index + 1 < u64Size

variable {p : Profile} {w w' : World α} {c : Call α} {h h' : Handle} {f f' : RingFile α} {r : ℕ}
  {l l' : Loan}

/-! ## What the calls keep -/

theorem add_checked {a b n : ℕ} : checked.add a b = .ok n ↔ n = a + b ∧ a + b < u64Size := by
  unfold Profile.add
  split_ifs with hlt hc
  · exact ⟨fun h => ⟨(Except.ok.inj h).symm, hlt⟩, fun h => congrArg Except.ok h.1.symm⟩
  · exact ⟨nofun, fun h => absurd h.2 hlt⟩
  · exact absurd rfl hc

theorem Touch.writeIdx (ht : Touch f f') (hw : f.hdr.writeIdx < u64Size) :
    f'.hdr.writeIdx < u64Size := by
  cases ht with
  | same => exact hw
  | publish hnext => exact hnext
  | advance _ _ => exact hw

theorem claim_fits (hw : f.hdr.writeIdx < u64Size) (heq : claim p h f r = .ok (some l, h')) :
    l.readerId < maxReaders ∧ l.index + 1 < u64Size := by
  simp only [claim, bind_eq_ok] at heq
  obtain ⟨-, -, h₁, hraise, cursor, -, base, -, heq⟩ := heq
  have hr : r < maxReaders := by
    unfold Handle.raiseGate at hraise
    split_ifs at hraise with hr
    exact hr
  split_ifs at heq with hidx
  · obtain ⟨h₂, -, heq⟩ := bind_eq_ok.mp heq
    cases heq
  · simp only [bind_eq_ok] at heq
    obtain ⟨next, -, h₂, -, heq⟩ := heq
    cases heq
    exact ⟨hr, by dsimp only; omega⟩

/-- A resolved loan keeps its reader and its index. -/
theorem Words.set (hw : Words w) {i k q : ℕ} (hi : w.loans[i]? = some (k, l))
    (hl : l'.readerId = l.readerId ∧ l'.index = l.index) :
    ∀ kl ∈ w.loans.set i (q, l'), kl.2.readerId < maxReaders ∧ kl.2.index + 1 < u64Size := by
  intro kl hkl
  rcases List.mem_or_eq_of_mem_set hkl with hmem | rfl
  · exact hw.loans kl hmem
  · have := hw.loans _ (List.mem_of_getElem? hi)
    rw [← hl.1, ← hl.2] at this
    exact this

theorem Words.loans_apply {a : Reply α} (hw : Words w) (happly : w.apply p c = .ok (a, w')) :
    ∀ kl ∈ w'.loans, kl.2.readerId < maxReaders ∧ kl.2.index + 1 < u64Size := by
  cases c with
  | openExisting k | totalWritten k =>
      cases happly
      exact hw.loans
  | tryPush k v =>
      obtain ⟨⟨b, f⟩, -, heq⟩ := bind_eq_ok.mp happly
      cases heq
      exact hw.loans
  | tryPop k r =>
      obtain ⟨⟨v, f⟩, -, heq⟩ := bind_eq_ok.mp happly
      cases heq
      exact hw.loans
  | peek k r | len k r | isEmpty k r | slowestLag k =>
      obtain ⟨x, -, heq⟩ := bind_eq_ok.mp happly
      cases heq
      exact hw.loans
  | claim k r =>
      obtain ⟨⟨loan, h⟩, hclaim, heq⟩ := bind_eq_ok.mp happly
      cases loan with
      | none =>
          cases heq
          exact hw.loans
      | some l =>
          cases heq
          intro kl hkl
          rcases List.mem_append.mp hkl with hmem | hmem
          · exact hw.loans kl hmem
          · obtain rfl := List.mem_singleton.mp hmem
            exact claim_fits hw.writeIdx hclaim
  | commit i =>
      simp only [World.apply] at happly
      split at happly
      · cases happly
        exact hw.loans
      · rename_i k l hi
        obtain ⟨⟨l', h, f⟩, hcommit, heq⟩ := bind_eq_ok.mp happly
        cases heq
        exact hw.set hi (commit_touch hcommit).2
  | abort i =>
      simp only [World.apply] at happly
      split at happly
      · cases happly
        exact hw.loans
      · rename_i k l hi
        obtain ⟨h, -, heq⟩ := bind_eq_ok.mp happly
        cases heq
        exact hw.set hi ⟨rfl, rfl⟩
  | drop i =>
      simp only [World.apply] at happly
      split at happly
      · cases happly
        exact hw.loans
      · rename_i k l hi
        obtain ⟨⟨h, f⟩, -, heq⟩ := bind_eq_ok.mp happly
        cases heq
        exact hw.set hi ⟨rfl, rfl⟩

/-- **A call keeps the words in range.** -/
theorem Words.call {a : Except ShmRingError (Reply α)} (hw : Words w)
    (hcall : w.call p c = .ok (a, w')) : Words w' := by
  refine ⟨(call_touch hcall).writeIdx hw.writeIdx, ?_⟩
  unfold World.call at hcall
  split at hcall
  · rename_i reply u happly
    cases hcall
    exact hw.loans_apply happly
  · cases hcall
    exact hw.loans
  · cases hcall

/-! ## What panics -/

/-- The computation returns, with a value or an error of the crate. -/
def Returns {β : Type} (x : Except Fault β) : Prop := ∀ e, x ≠ .error (.panic e)

section Rules

variable {β γ : Type} {k : β → Except Fault γ}

@[simp] theorem returns_ok (b : β) : Returns (.ok b : Except Fault β) := nofun

@[simp] theorem returns_pure (b : β) : Returns (pure b : Except Fault β) := nofun

@[simp] theorem returns_throw (e : ShmRingError) : Returns (throw (.err e) : Except Fault β) := nofun

@[simp] theorem not_returns_panic (e : Panic) : ¬ Returns (.error (.panic e) : Except Fault β) :=
  fun h => h e rfl

theorem returns_ite {q : Prop} [Decidable q] {x y : Except Fault β} :
    Returns (if q then x else y) ↔ (q → Returns x) ∧ (¬ q → Returns y) := by
  split_ifs with hq <;> simp [hq]

/-- A continuation that always returns does not matter. -/
theorem returns_bind {x : Except Fault β} (hk : ∀ b, Returns (k b)) :
    Returns (x >>= k) ↔ Returns x := by
  cases x with
  | ok b => exact ⟨fun _ => returns_ok b, fun _ => hk b⟩
  | error e => constructor <;> intro h e' he' <;> cases he' <;> exact h e' rfl

theorem returns_throw_bind (e : ShmRingError) : Returns ((throw (.err e) : Except Fault β) >>= k) :=
  nofun

/-- An array access. -/
theorem returns_access {q : Prop} [Decidable q] {x : β} :
    Returns ((if q then .ok x else .error (.panic .outOfRange)) >>= k) ↔ q ∧ Returns (k x) := by
  split_ifs with hq
  · exact ⟨fun h => ⟨hq, h⟩, fun h => h.2⟩
  · exact ⟨fun h => absurd h (not_returns_panic _), fun h => absurd h.1 hq⟩

variable {k : ℕ → Except Fault γ}

theorem returns_add {a b : ℕ} :
    Returns (checked.add a b >>= k) ↔ a + b < u64Size ∧ Returns (k (a + b)) := by
  unfold Profile.add
  split_ifs with hlt hc
  · exact ⟨fun h => ⟨hlt, h⟩, fun h => h.2⟩
  · exact ⟨fun h => absurd h (not_returns_panic _), fun h => absurd h.1 hlt⟩
  · exact absurd rfl hc

theorem returns_sub {a b : ℕ} :
    Returns (checked.sub a b >>= k) ↔ b ≤ a ∧ Returns (k (a - b)) := by
  unfold Profile.sub
  split_ifs with hle hc
  · exact ⟨fun h => ⟨hle, h⟩, fun h => h.2⟩
  · exact ⟨fun h => absurd h (not_returns_panic _), fun h => absurd h.1 hle⟩
  · exact absurd rfl hc

/-- The bounds check of a reader. -/
theorem returns_checkReader {hdr : RingHeader} {k : Unit → Except Fault γ} :
    Returns (checkReader checked hdr r >>= k) ↔
      0 < hdr.numReaders ∧ (r < hdr.numReaders → Returns (k ())) := by
  unfold checkReader
  dsimp only
  split_ifs with hr
  · refine ⟨fun h => ⟨?_, fun hlt => absurd hr (Nat.not_le.mpr hlt)⟩, fun hand => ?_⟩
    · by_contra hzero
      have hsub : checked.sub hdr.numReaders 1 = .error (.panic .overflow) := by
        unfold Profile.sub
        rw [if_neg (by omega)]
        rfl
      rw [hsub] at h
      exact not_returns_panic _ h
    · rw [checked.sub_eq hand.1]
      exact nofun
  · exact ⟨fun h => ⟨by omega, fun _ => h⟩, fun h => h.2 (by omega)⟩

end Rules

theorem returns_tryPush {value : α} : Returns (tryPush checked h f value) ↔
    f.hdr.numReaders ≤ maxReaders ∧ slowest f.hdr.readIndices f.hdr.numReaders ≤ f.hdr.writeIdx ∧
      (f.lag < h.capacity → f.hdr.writeIdx + 1 < u64Size) := by
  simp only [tryPush, RingHeader.slowestReadIdx, returns_access, returns_sub, returns_ite,
    returns_add, returns_pure, implies_true, true_and, and_true, ge_iff_le, not_le, RingFile.lag]

theorem returns_tryPop : Returns (tryPop checked h f r) ↔ 0 < f.hdr.numReaders ∧
    (r < f.hdr.numReaders → r < maxReaders ∧ (h.loanDepth r = 0 →
      f.hdr.readIndices r ≠ f.hdr.writeIdx → f.hdr.readIndices r + 1 < u64Size)) := by
  simp only [tryPop, returns_checkReader, Handle.loadDepth, RingHeader.readIdx, RingHeader.setReadIdx,
    returns_access, returns_ite, returns_add, returns_pure, returns_throw_bind]
  grind

theorem returns_peek : Returns (peek checked h f r) ↔ 0 < f.hdr.numReaders ∧
    (r < f.hdr.numReaders → r < maxReaders) := by
  simp only [peek, returns_checkReader, RingHeader.readIdx, returns_access, returns_ite, returns_pure,
    implies_true, and_true]

theorem returns_len : Returns (len checked f r) ↔ 0 < f.hdr.numReaders ∧
    (r < f.hdr.numReaders → r < maxReaders) := by
  simp only [len, returns_checkReader, RingHeader.readIdx, returns_access, returns_pure, and_true]

theorem returns_slowestLag : Returns (slowestLag f) ↔ f.hdr.numReaders ≤ maxReaders := by
  simp only [slowestLag, RingHeader.slowestReadIdx, returns_access, returns_pure, and_true]

theorem returns_claim (hw : f.hdr.writeIdx < u64Size) : Returns (claim checked h f r) ↔
    0 < f.hdr.numReaders ∧ (r < f.hdr.numReaders → r < maxReaders) := by
  simp only [claim, returns_checkReader, Handle.raiseGate, Handle.lowerGate, Handle.loadBase,
    Handle.setBase, RingHeader.readIdx, returns_access, returns_ite, returns_add, returns_pure]
  refine and_congr_right fun _ => forall_congr' fun _ => ⟨fun h => h.1, fun hr => ?_⟩
  refine ⟨hr, hr, hr, fun _ => ⟨hr, trivial⟩, fun hlt => ⟨?_, hr, trivial⟩⟩
  omega

/-! A loan of a reader in the array, with room for the increment, is resolved without a panic. -/

theorem returns_commit (hr : l.readerId < maxReaders) (hidx : l.index + 1 < u64Size) :
    Returns (l.commit checked h f) := by
  cases hl : l.resolved with
  | true =>
      rw [commit_resolved hl]
      exact returns_ok _
  | false =>
      by_cases heq : f.hdr.readIndices l.readerId = l.index
      · rw [commit_eq hl hr heq hidx]
        exact returns_ok _
      · rw [commit_early hl hr heq]
        exact returns_throw _

theorem returns_abort (hr : l.readerId < maxReaders) : Returns (l.abort h) := by
  cases hl : l.resolved with
  | true =>
      rw [abort_resolved hl]
      exact returns_ok _
  | false =>
      rw [abort_eq hl hr]
      exact returns_ok _

theorem returns_drop (hr : l.readerId < maxReaders) (hidx : l.index + 1 < u64Size) :
    Returns (l.drop checked h f) := by
  cases hl : l.resolved with
  | true =>
      rw [drop_resolved hl]
      exact returns_ok _
  | false =>
      by_cases heq : f.hdr.readIndices l.readerId = l.index
      · rw [drop_eq hl hr heq hidx]
        exact returns_ok _
      · rw [drop_away hl hr heq]
        exact returns_ok _

/-- **What a call needs to return.** -/
theorem apply_returns_iff (hw : Words w) : Returns (w.apply checked c) ↔ c.Safe w := by
  cases c with
  | openExisting k | totalWritten k => exact ⟨fun _ => trivial, fun _ => returns_ok _⟩
  | tryPush k v => exact (returns_bind fun _ => returns_pure _).trans returns_tryPush
  | tryPop k r =>
      refine (returns_bind fun _ => returns_pure _).trans (returns_tryPop.trans ?_)
      simp only [Call.Safe, World.Answers]
      grind
  | peek k r => exact (returns_bind fun _ => returns_pure _).trans returns_peek
  | len k r => exact (returns_bind fun _ => returns_pure _).trans returns_len
  | isEmpty k r =>
      refine (returns_bind fun _ => returns_pure _).trans ?_
      exact (returns_bind fun _ => returns_pure _).trans returns_len
  | slowestLag k => exact (returns_bind fun _ => returns_pure _).trans returns_slowestLag
  | claim k r =>
      refine (returns_bind fun x => ?_).trans (returns_claim hw.writeIdx)
      obtain ⟨loan, h⟩ := x
      cases loan <;> exact returns_pure _
  | commit i =>
      refine ⟨fun _ => trivial, fun _ => ?_⟩
      simp only [World.apply]
      split
      · exact returns_ok _
      · obtain ⟨hr, hidx⟩ := hw.loans _ (List.mem_of_getElem? ‹_›)
        exact (returns_bind fun _ => returns_pure _).mpr (returns_commit hr hidx)
  | abort i =>
      refine ⟨fun _ => trivial, fun _ => ?_⟩
      simp only [World.apply]
      split
      · exact returns_ok _
      · obtain ⟨hr, -⟩ := hw.loans _ (List.mem_of_getElem? ‹_›)
        exact (returns_bind fun _ => returns_pure _).mpr (returns_abort hr)
  | drop i =>
      refine ⟨fun _ => trivial, fun _ => ?_⟩
      simp only [World.apply]
      split
      · exact returns_ok _
      · obtain ⟨hr, hidx⟩ := hw.loans _ (List.mem_of_getElem? ‹_›)
        exact (returns_bind fun _ => returns_pure _).mpr (returns_drop hr hidx)

theorem call_returns_iff : (∃ a w', w.call p c = .ok (a, w')) ↔ Returns (w.apply p c) := by
  unfold World.call
  constructor
  · rintro ⟨a, w', hcall⟩ e he
    rw [he] at hcall
    cases hcall
  · intro h
    split
    · exact ⟨_, _, rfl⟩
    · exact ⟨_, _, rfl⟩
    · exact absurd ‹_› (h _)

/-- A reader beyond the array is refused by every call that returns. -/
theorem refused {r : ℕ} (hsafe : c.Safe w) (hc : c.reader? = some r) (hr : maxReaders ≤ r) :
    w.call p c = .ok (.error (.invalidReaderId r (w.file.hdr.numReaders - 1)), w) := by
  have hans : w.Answers r := by
    cases c with
    | tryPop k q =>
        obtain rfl := Option.some.inj hc
        exact hsafe.1
    | peek k q | len k q | isEmpty k q | claim k q =>
        obtain rfl := Option.some.inj hc
        exact hsafe
    | _ => cases hc
  refine call_invalid hc (Nat.not_lt.mp fun hlt => ?_) hans.1
  exact absurd (hans.2 hlt) (Nat.not_lt.mpr hr)

/-! ## Runs on an accepted file -/

theorem mul_checked {a b n : ℕ} : checked.mul a b = .ok n ↔ n = a * b ∧ a * b < u64Size := by
  unfold Profile.mul
  split_ifs with hlt hc
  · exact ⟨fun h => ⟨(Except.ok.inj h).symm, hlt⟩, fun h => congrArg Except.ok h.1.symm⟩
  · exact ⟨nofun, fun h => absurd h.2 hlt⟩
  · exact absurd rfl hc

/-- The address of a slot is computed without an overflow. -/
theorem slotPtr_returns {T : RecordType} {f : RawFile} {m : Mapping}
    (hopen : openExisting checked T f = .ok m) (idx : ℕ) :
    ∃ off, m.slotPtr checked T idx = .ok off := by
  obtain ⟨-, -, -, -, -, hvalid, cap, bytes, expected, hcap, hhandle, hmul, hadd, -⟩ :=
    openExisting_ok hopen
  obtain ⟨k, -, hpow⟩ := capacity_of_valid hvalid
  obtain ⟨rfl, -⟩ := add_checked.mp hcap
  obtain ⟨rfl, -⟩ := mul_checked.mp hmul
  obtain ⟨rfl, hfit⟩ := add_checked.mp hadd
  rw [hpow] at hhandle hfit
  exact ⟨_, slotPtr_eq (congrArg Handle.capacity hhandle) hfit idx⟩

theorem Hostile.words {T : RecordType} {f : RawFile} {m : Mapping}
    (hopen : openExisting checked T f = .ok m) (hw : Hostile m w) : Words w where
  writeIdx := by
    obtain ⟨-, -, -, hhdr, -⟩ := openExisting_ok hopen
    rw [hw.hdr, hhdr]
    exact leWord_lt f.byte 24 8
  loans := by
    rw [hw.loans]
    exact nofun

/-- **When a call returns** on a file `open_existing` accepted: in every state of every run of any calls,
a call returns, and refuses a reader beyond the array, exactly when the words it reads are `Safe`. -/
theorem no_panic_iff {T : RecordType} {f : RawFile} {m : Mapping}
    (hopen : openExisting checked T f = .ok m)
    (hw : Reachable (world checked (Hostile m) fun _ _ => True) w) :
    (∀ idx, ∃ off, m.slotPtr checked T idx = .ok off) ∧
    ∀ c, (∃ a w', w.call checked c = .ok (a, w') ∧ ∀ r, c.reader? = some r → maxReaders ≤ r →
      ∃ max, a = .error (.invalidReaderId r max)) ↔ c.Safe w := by
  have hwords : Words w := hw.invariant (fun _ => Hostile.words hopen) fun _ _ _ hs hstep =>
    hs.call hstep.2
  refine ⟨slotPtr_returns hopen, fun c => ⟨?_, fun hsafe => ?_⟩⟩
  · rintro ⟨a, w', hcall, -⟩
    exact (apply_returns_iff hwords).mp (call_returns_iff.mp ⟨a, w', hcall⟩)
  · obtain ⟨a, w', hcall⟩ := call_returns_iff.mpr ((apply_returns_iff hwords).mpr hsafe)
    refine ⟨a, w', hcall, fun r hr hle => ⟨w.file.hdr.numReaders - 1, ?_⟩⟩
    rw [refused hsafe hr hle] at hcall
    cases hcall
    rfl

/-- A handle opened on a file. -/
def World.opened (m : Mapping) (slots : ℕ → α) : World α := ⟨⟨m.hdr, slots⟩, fun _ => m.handle, [], []⟩

/-- The bytes of an empty ring of two words, with any number of readers. -/
def ringBytes (readers : UInt8) (i : ℕ) : UInt8 :=
  if i = 96 then 1
  else [0x43, 0x4D, 0x50, 0x53, 0x47, 0x4E, 0x49, 0x52, 1, 0, 0, 0, readers].getD i 0

def ringFile (readers : UInt8) : RawFile := ⟨true, true, 272, by decide, true, ringBytes readers⟩

/-- With one reader the first push returns. -/
theorem push_returns : ∃ m, openExisting checked wordRecord (ringFile 1) = .ok m ∧
    ∃ a w', (World.opened m fun _ => 0).call checked (.tryPush 0 7) = .ok (a, w') := by
  obtain ⟨m, hm, hsafe⟩ : ∃ m, openExisting checked wordRecord (ringFile 1) = .ok m ∧
      (Call.tryPush 0 7).Safe (World.opened m fun _ => 0) :=
    ⟨_, rfl, by decide, by decide, fun _ => by decide⟩
  obtain ⟨a, w', hcall, -⟩ := ((no_panic_iff hm (.init ⟨rfl, fun _ => rfl, rfl⟩)).2 _).mpr hsafe
  exact ⟨m, hm, a, w', hcall⟩

/-- Accepted files on which the first call panics: without readers a push underflows, and with nine the
last one has no cursor. -/
theorem first_call_panics :
    (∃ m, openExisting checked wordRecord (ringFile 0) = .ok m ∧
      (World.opened m fun _ => 0).call checked (.tryPush 0 7) = .error .overflow) ∧
    ∃ m, openExisting checked wordRecord (ringFile 9) = .ok m ∧
      (World.opened m fun _ => 0).call checked (.peek 0 8) = .error .outOfRange :=
  ⟨⟨_, rfl, rfl⟩, _, rfl, rfl⟩

end ShmRings
