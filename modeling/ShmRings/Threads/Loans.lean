import ShmRings.Threads.Safety

/-!
# Threads that share a handle

The code of `claim`, `commit`, `abort` and `drop`, access by access, and the system of any number of
loans of one handle with a producer that pushes through another. A ticket is one call of `claim` and
the life of the loan it returns; ticket `t` works for reader `who t`. Loads return the newest value,
and `compare_exchange_weak` may fail spuriously. The cursors of the readers in `rogue` are moved from
outside.

* `TicketPc`, `ticketCode`; `TicketAccess`, **`ticket_access`**: what an access of a ticket does;
* `LoanState`, `LoanStep`, `loans`, `LoanState.play`; the logs `claimed` and `consumed` of each
  reader's indices in the order of the successful compare-exchanges and of the cursor stores;
* `Opened`, **`opened_of_reachable`**: the states in which a fresh handle is opened.
-/

set_option autoImplicit false

namespace ShmRings.Threads

open Coherent Transition

variable {α : Type}

/-- Where a ticket is: its call of `claim`, then the calls on its loan. -/
inductive TicketPc
  | idle
  | checkReader
  | raiseGate
  | loadWriteIdx
  | loadCursor (w : ℕ)
  | loadBase (w cursor : ℕ)
  | exchange (base idx : ℕ)
  | lowerGate
  /-- `claim` returned no loan. -/
  | refused
  /-- The loan is open and no call on it is running. -/
  | held (idx : ℕ)
  | commitLoad (idx : ℕ)
  /-- `commit` stopped with `LoanNotAtCursor`. -/
  | rejected (idx cursor : ℕ)
  | commitStore (idx : ℕ)
  | abortMin (idx : ℕ)
  | dropLoad (idx : ℕ)
  | dropStore (idx : ℕ)
  /-- A drop away from the cursor, about to lower the gate. -/
  | dropSkip (idx : ℕ)
  /-- About to lower the gate, in `resolve`. -/
  | resolve
  | resolved

inductive LoanCall
  | claim
  | commit
  | abort
  | drop

/-- The access of each program point, for reader `r`. -/
def ticketCode (r : ℕ) : TicketPc → Instr Loc α TicketPc
  | .checkReader => .load .numReaders fun n => if r ≥ n then .refused else .raiseGate
  | .raiseGate => .modify (.loanDepth r) (wrappingAdd · 1) .loadWriteIdx
  | .loadWriteIdx => .load .writeIdx fun w => .loadCursor w
  | .loadCursor w => .load (.readIdx r) fun cursor => .loadBase w cursor
  | .loadBase w cursor => .load (.claimBase r) fun base =>
      if max base cursor ≥ w then .lowerGate else .exchange base (max base cursor)
  | .exchange base idx =>
      .exchange (.claimBase r) base (wrappingAdd idx 1) (.held idx) .loadWriteIdx
  | .lowerGate => .modify (.loanDepth r) (wrappingSub · 1) .refused
  | .commitLoad idx => .load (.readIdx r) fun cursor =>
      if cursor ≠ idx then .rejected idx cursor else .commitStore idx
  | .commitStore idx => .store (.readIdx r) (wrappingAdd idx 1) .resolve
  | .abortMin idx => .modify (.claimBase r) (min · idx) .resolve
  | .dropLoad idx => .load (.readIdx r) fun cursor =>
      if cursor = idx then .dropStore idx else .dropSkip idx
  | .dropStore idx => .store (.readIdx r) (wrappingAdd idx 1) .resolve
  | .dropSkip _ | .resolve => .modify (.loanDepth r) (wrappingSub · 1) .resolved
  | .idle | .refused | .held _ | .rejected _ _ | .resolved => .halt

namespace TicketPc

/-- Where a call leads, if it can be made: after a rejected commit the loan is still open, and a
`commit` of a resolved loan makes no access. -/
def call : LoanCall → TicketPc → Option TicketPc
  | .claim, .idle => some .checkReader
  | .commit, .held idx | .commit, .rejected idx _ => some (.commitLoad idx)
  | .commit, .resolved => some .resolved
  | .abort, .held idx | .abort, .rejected idx _ => some (.abortMin idx)
  | .drop, .held idx | .drop, .rejected idx _ => some (.dropLoad idx)
  | _, _ => none

/-- The index of a loan that is not resolved and has not moved the cursor. -/
def loan : TicketPc → Option ℕ
  | .held idx | .commitLoad idx | .rejected idx _ | .commitStore idx | .abortMin idx
  | .dropLoad idx | .dropStore idx | .dropSkip idx => some idx
  | _ => none

/-- The index of a loan whose cursor test succeeded and whose cursor store comes next. -/
def stores : TicketPc → Option ℕ
  | .commitStore idx | .dropStore idx => some idx
  | _ => none

/-- The index a successful compare-exchange takes. -/
def claims : TicketPc → TicketPc → List ℕ
  | .exchange _ _, .held idx => [idx]
  | _, _ => []

/-- The index a cursor store consumes. -/
def consumes (pc : TicketPc) : List ℕ := pc.stores.toList

end TicketPc

/-- What an access of a ticket of reader `r` can do. -/
inductive TicketAccess (r : ℕ) (m : Memory Loc α) : TicketPc → Memory Loc α → TicketPc → Prop
  | accept : r < m.now .numReaders → TicketAccess r m .checkReader m .raiseGate
  | refuse : m.now .numReaders ≤ r → TicketAccess r m .checkReader m .refused
  | raise : TicketAccess r m .raiseGate
      (m.store (.loanDepth r) (wrappingAdd (m.now (.loanDepth r)) 1)) .loadWriteIdx
  | writeIdx : TicketAccess r m .loadWriteIdx m (.loadCursor (m.now .writeIdx))
  | cursor {w} : TicketAccess r m (.loadCursor w) m (.loadBase w (m.now (.readIdx r)))
  | caughtUp {w c} : w ≤ max (m.now (.claimBase r)) c →
      TicketAccess r m (.loadBase w c) m .lowerGate
  | choose {w c} : max (m.now (.claimBase r)) c < w → TicketAccess r m (.loadBase w c) m
      (.exchange (m.now (.claimBase r)) (max (m.now (.claimBase r)) c))
  | won {base idx} : m.now (.claimBase r) = base → TicketAccess r m (.exchange base idx)
      (m.store (.claimBase r) (wrappingAdd idx 1)) (.held idx)
  | lost {base idx} : TicketAccess r m (.exchange base idx) m .loadWriteIdx
  | lower : TicketAccess r m .lowerGate
      (m.store (.loanDepth r) (wrappingSub (m.now (.loanDepth r)) 1)) .refused
  | reject {idx} : m.now (.readIdx r) ≠ idx →
      TicketAccess r m (.commitLoad idx) m (.rejected idx (m.now (.readIdx r)))
  | passCommit {idx} : m.now (.readIdx r) = idx →
      TicketAccess r m (.commitLoad idx) m (.commitStore idx)
  | storeCommit {idx} : TicketAccess r m (.commitStore idx)
      (m.store (.readIdx r) (wrappingAdd idx 1)) .resolve
  | rewind {idx} : TicketAccess r m (.abortMin idx)
      (m.store (.claimBase r) (min (m.now (.claimBase r)) idx)) .resolve
  | passDrop {idx} : m.now (.readIdx r) = idx →
      TicketAccess r m (.dropLoad idx) m (.dropStore idx)
  | skipDrop {idx} : m.now (.readIdx r) ≠ idx →
      TicketAccess r m (.dropLoad idx) m (.dropSkip idx)
  | storeDrop {idx} : TicketAccess r m (.dropStore idx)
      (m.store (.readIdx r) (wrappingAdd idx 1)) .resolve
  | leave {idx} : TicketAccess r m (.dropSkip idx)
      (m.store (.loanDepth r) (wrappingSub (m.now (.loanDepth r)) 1)) .resolved
  | resolve : TicketAccess r m .resolve
      (m.store (.loanDepth r) (wrappingSub (m.now (.loanDepth r)) 1)) .resolved

section Access

variable {r : ℕ} {m m' : Memory Loc α} {pc pc' : TicketPc}

/-- **The accesses of a ticket.** -/
theorem ticket_access (h : Direct m (ticketCode r pc) m' pc') : TicketAccess r m pc m' pc' := by
  rcases h.cases with hexec | ⟨x, old, new, won, hinstr, rfl⟩
  · cases pc with
    | checkReader =>
        cases hexec
        dsimp only
        split_ifs with hge
        · exact .refuse hge
        · exact .accept (Nat.not_le.mp hge)
    | loadBase w c =>
        cases hexec
        dsimp only
        split_ifs with hge
        · exact .caughtUp hge
        · exact .choose (Nat.not_le.mp hge)
    | exchange base idx =>
        simp only [ticketCode, Instr.exec] at hexec
        split_ifs at hexec with heq
        · cases hexec
          exact .won heq
        · cases hexec
          exact .lost
    | commitLoad idx =>
        cases hexec
        dsimp only
        split_ifs with hne
        · exact .reject hne
        · exact .passCommit (not_not.mp hne)
    | dropLoad idx =>
        cases hexec
        dsimp only
        split_ifs with heq
        · exact .passDrop heq
        · exact .skipDrop heq
    | raiseGate => cases hexec; exact .raise
    | loadWriteIdx => cases hexec; exact .writeIdx
    | loadCursor w => cases hexec; exact .cursor
    | lowerGate => cases hexec; exact .lower
    | commitStore idx => cases hexec; exact .storeCommit
    | abortMin idx => cases hexec; exact .rewind
    | dropStore idx => cases hexec; exact .storeDrop
    | dropSkip idx => cases hexec; exact .leave
    | resolve => cases hexec; exact .resolve
    | idle | refused | held _ | rejected _ _ | resolved => cases hexec
  · cases pc with
    | exchange base idx => cases hinstr; exact .lost
    | _ => cases hinstr

theorem ticket_data (h : TicketAccess r m pc m' pc') : m'.data = m.data := by
  cases h <;> rfl

/-- Only the reader's cursor, its pipeline head and its gate are a ticket's. -/
theorem ticket_now (h : TicketAccess r m pc m' pc') {x : Loc} (hc : x ≠ .readIdx r)
    (hb : x ≠ .claimBase r) (hd : x ≠ .loanDepth r) : m'.now x = m.now x := by
  cases h with
  | raise | lower | leave | resolve => exact Memory.store_now_ne _ hd _
  | won | rewind => exact Memory.store_now_ne _ hb _
  | storeCommit | storeDrop => exact Memory.store_now_ne _ hc _
  | _ => rfl

theorem ticket_write (h : TicketAccess r m pc m' pc') : m'.now .writeIdx = m.now .writeIdx :=
  ticket_now h (by simp) (by simp) (by simp)

/-- The cursor moves by a store only. -/
theorem ticket_cursor (h : TicketAccess r m pc m' pc') (hst : pc.stores = none) :
    m'.now (.readIdx r) = m.now (.readIdx r) := by
  cases h with
  | raise | lower | leave | resolve | won | rewind => exact Memory.store_now_ne _ (by simp) _
  | storeCommit | storeDrop => cases hst
  | _ => rfl

/-- **A store moves the cursor past the loan.** -/
theorem ticket_store {idx : ℕ} (h : TicketAccess r m pc m' pc') (hst : pc.stores = some idx) :
    pc' = .resolve ∧ m' = m.store (.readIdx r) (wrappingAdd idx 1) := by
  cases h with
  | storeCommit | storeDrop => cases hst; exact ⟨rfl, rfl⟩
  | _ => cases hst

/-- **A claim is a successful compare-exchange.** -/
theorem ticket_claim {i : ℕ} {l : List ℕ} (h : TicketAccess r m pc m' pc')
    (hcl : pc.claims pc' = i :: l) :
    ∃ base idx, pc = .exchange base idx ∧ pc' = .held idx ∧ m.now (.claimBase r) = base ∧
      m' = m.store (.claimBase r) (wrappingAdd idx 1) := by
  cases h with
  | won heq => exact ⟨_, _, rfl, rfl, heq, rfl⟩
  | _ => cases hcl

end Access

/-! ## The system -/

/-- The mapped file and the handle, the producer, the tickets, the published messages, and for each
reader the indices claimed and consumed so far. -/
structure LoanState (α : Type) where
  mem : Memory Loc α
  push : PushPc α
  ticket : ℕ → TicketPc
  stream : List α
  claimed : ℕ → List ℕ
  consumed : ℕ → List ℕ

namespace LoanState

variable (s : LoanState α) (m : Memory Loc α)

def cursor (r : ℕ) : ℕ := s.mem.now (.readIdx r)

def base (r : ℕ) : ℕ := s.mem.now (.claimBase r)

/-- After an access of the producer. -/
def pushStep (pc : PushPc α) : LoanState α :=
  { s with mem := m, push := pc, stream := s.stream ++ s.push.publishes }

/-- After an access of ticket `t`, which works for reader `r`. -/
def ticketStep (t r : ℕ) (pc : TicketPc) : LoanState α :=
  { s with
    mem := m
    ticket := Function.update s.ticket t pc
    claimed := Function.update s.claimed r (s.claimed r ++ (s.ticket t).claims pc)
    consumed := Function.update s.consumed r (s.consumed r ++ (s.ticket t).consumes) }

end LoanState

/-- Who moves: a ticket, by a call or an access, or another party. -/
inductive Move
  | other
  | call (t : ℕ) (c : LoanCall)
  | access (t : ℕ)

/-- One step. -/
inductive LoanStep (cfg : Config) (who : ℕ → ℕ) (rogue : ℕ → Prop) :
    LoanState α → Move → LoanState α → Prop
  | callPush {s} (value : α) : s.push = .idle →
      LoanStep cfg who rogue s .other { s with push := .loadWriteIdx value }
  | push {s m pc} : Direct s.mem (pushCode cfg s.push) m pc →
      LoanStep cfg who rogue s .other (s.pushStep m pc)
  | retPush {s b} : s.push = .done b → LoanStep cfg who rogue s .other { s with push := .idle }
  | call {s} (t : ℕ) {c pc} : (s.ticket t).call c = some pc →
      LoanStep cfg who rogue s (.call t c) { s with ticket := Function.update s.ticket t pc }
  | access {s} (t : ℕ) {m pc} : Direct s.mem (ticketCode (who t) (s.ticket t)) m pc →
      LoanStep cfg who rogue s (.access t) (s.ticketStep m t (who t) pc)
  | poke {s} (r v : ℕ) : rogue r → v < u64Size →
      LoanStep cfg who rogue s .other { s with mem := s.mem.store (.readIdx r) v }

/-- A state in which a handle has just been opened on a ring whose readers in `H` are honest; the
producer may be in the middle of a push. -/
structure Opened (cfg : Config) (H : ℕ → Prop) (s : LoanState α) : Prop where
  numReaders : s.mem.now .numReaders = cfg.readers
  length : s.stream.length < u64Size
  writeIdx : s.mem.now .writeIdx = s.stream.length
  window : ∀ r, H r → s.cursor r ≤ s.stream.length ∧ s.stream.length ≤ s.cursor r + cfg.capacity ∧
    Window.Holds cfg.capacity s.mem.data s.stream (s.cursor r)
  push : PushOk cfg H s.cursor s.mem.data s.stream.length s.push
  base : ∀ r, s.base r = 0
  gate : ∀ r, s.mem.now (.loanDepth r) = 0
  ticket : ∀ t, s.ticket t = .idle
  claimed : ∀ r, s.claimed r = []
  consumed : ∀ r, s.consumed r = []

/-- The system, from a fresh handle; the readers outside `rogue` are honest. -/
def loans (cfg : Config) (who : ℕ → ℕ) (rogue : ℕ → Prop) :
    System (LoanState α) Move where
  init := Opened cfg fun r => r < cfg.readers ∧ ¬ rogue r
  step := LoanStep cfg who rogue

/-- The tickets' moves carried out in order, with compare-exchanges that do not fail spuriously. -/
def LoanState.play (who : ℕ → ℕ) : List Move → LoanState α → Option (LoanState α)
  | [], s => some s
  | .other :: _, _ => none
  | .call t c :: es, s => do
      let pc ← (s.ticket t).call c
      LoanState.play who es { s with ticket := Function.update s.ticket t pc }
  | .access t :: es, s => do
      let (m, pc) ← (ticketCode (who t) (s.ticket t)).exec s.mem
      LoanState.play who es (s.ticketStep m t (who t) pc)

theorem run_of_play {cfg : Config} {who : ℕ → ℕ} {rogue : ℕ → Prop} {es : List Move}
    {s t : LoanState α} (h : s.play who es = some t) : Run (loans cfg who rogue) s es t := by
  induction es generalizing s with
  | nil => cases h; exact .nil
  | cons e es ih =>
      cases e with
      | other => cases h
      | call q c =>
          obtain ⟨pc, hcall, hrest⟩ := Option.bind_eq_some_iff.mp h
          exact (Run.single (LoanStep.call q hcall)).append (ih hrest)
      | access q =>
          obtain ⟨⟨m, pc⟩, hexec, hrest⟩ := Option.bind_eq_some_iff.mp h
          exact (Run.single (LoanStep.access q (direct_of_exec hexec))).append (ih hrest)

/-- A handle opened on a ring of two slots with two unread messages. -/
def twoUnread : LoanState ℕ where
  mem :=
    { word := fun
        | .writeIdx => .const 2
        | .numReaders => .const 1
        | _ => .const 0
      data := fun j => if j = 0 then 10 else 20 }
  push := .idle
  ticket _ := .idle
  stream := [10, 20]
  claimed _ := []
  consumed _ := []

theorem opened_twoUnread (H : ℕ → Prop) : Opened twoSlots H twoUnread where
  numReaders := rfl
  length := by decide
  writeIdx := rfl
  window r _ := by
    refine ⟨Nat.zero_le _, Nat.le_refl 2, fun i v _ hv => ?_⟩
    rcases i with _ | _ | i
    · cases hv; rfl
    · cases hv; rfl
    · cases hv
  push := trivial
  base _ := rfl
  gate _ := rfl
  ticket _ := rfl
  claimed _ := rfl
  consumed _ := rfl

/-- The words of a handle opened on `m`: its own, and those of the file. -/
def openWords (m : Memory Loc α) : Memory Loc α where
  word
    | .claimBase _ | .loanDepth _ => .const 0
    | x => m.word x
  data := m.data

/-- **A handle may be opened in every reachable state of a ring.** -/
theorem opened_of_reachable {cfg : Config} {md : Mode} (hhon : ∃ r, Honest cfg md r) {s : State α}
    (h : Reachable (machine cfg md) s) (hlen : s.stream.length < u64Size) :
    Opened cfg (Honest cfg md)
      ⟨openWords s.mem, s.push, fun _ => .idle, s.stream, fun _ => [], fun _ => []⟩ where
  numReaders := congrArg Cell.now (reachable_inv hhon h hlen).numReaders
  length := hlen
  writeIdx := congrArg Cell.now (reachable_inv hhon h hlen).writeIdx
  window r hr :=
    have hr' := (reachable_inv hhon h hlen).reader r hr
    ⟨hr'.cursor_le, hr'.lag, hr'.holds⟩
  push := (reachable_inv hhon h hlen).push
  base _ := rfl
  gate _ := rfl
  ticket _ := rfl
  claimed _ := rfl
  consumed _ := rfl

end ShmRings.Threads
