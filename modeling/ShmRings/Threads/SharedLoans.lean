import ShmRings.Threads.ClaimOrder
import ShmRings.Threads.RaceFree

/-!
# Loans of several threads, with their memory orders

The calls on the loans of a shared handle on release/acquire memory. A ticket may read the slot its open
loan views at any time; its loads may be stale. Without aborts every such read finds the message the loan
was claimed for and is ordered before the write that takes the slot again.

* `Actor`, `ticketOrder`, `TicketPc.views`; `SharedState`, `SharedStep`, `sharedLoans`;
* `TicketKnows`: what the local variables stand for; `ticket_quiet`: an access that neither claims nor
  stores;
* `ReaderShared`: the invariant of one reader; **`ReaderShared.take`**, **`ReaderShared.consume`**: a claim and
  a cursor store keep it.
-/

set_option autoImplicit false

namespace ShmRings.Threads

open Coherent Transition Release

variable {α : Type}

/-- Who makes an access. -/
inductive Actor
  | producer
  | ticket (t : ℕ)
  deriving DecidableEq

/-- The memory orders of `claim`, `commit`, `abort` and `drop`. -/
def ticketOrder : TicketPc → Strength
  | .checkReader | .loadWriteIdx | .loadCursor _ | .commitLoad _ | .dropLoad _ => .acquire
  | .commitStore _ | .dropStore _ => .release
  | _ => .relaxed

/-- The index whose slot `deref` reads. -/
def TicketPc.views : TicketPc → Option ℕ
  | .held idx | .rejected idx _ => some idx
  | _ => none

/-- A read of the slot of `idx`, between two calls on the loan. -/
def derefCode (cfg : Config) (idx : ℕ) (pc : TicketPc) : Instr Loc α TicketPc :=
  .get (cfg.slot idx) fun _ => pc

/-- The mapped file and the handle, where the producer and the tickets are and what they know, the
published messages, and the index each ticket took. -/
structure SharedState (α : Type) where
  mem : Tracked Loc Actor α
  push : PushPc α
  ticket : ℕ → TicketPc
  know : Actor → Knowledge Loc Actor
  stream : List α
  took : ℕ → Option ℕ

namespace SharedState

/-- A fresh ring and a fresh handle. -/
def fresh (cfg : Config) (data : ℕ → α) : SharedState α where
  mem := ⟨⟨freshWord cfg, data⟩, fun _ _ => ⊥, fun _ _ => 0, fun _ => 0⟩
  push := .idle
  ticket _ := .idle
  know _ := ⊥
  stream := []
  took _ := none

variable (s : SharedState α) (m : Tracked Loc Actor α) (k : Knowledge Loc Actor)

def cursor (r : ℕ) : ℕ := s.mem.now (.readIdx r)

def base (r : ℕ) : ℕ := s.mem.now (.claimBase r)

/-- After an access of the producer. -/
def pushStep (pc : PushPc α) : SharedState α :=
  { s with
    mem := m
    push := pc
    know := Function.update s.know .producer k
    stream := s.stream ++ s.push.publishes }

/-- After an access of ticket `t`. -/
def ticketStep (t : ℕ) (pc : TicketPc) : SharedState α :=
  { s with
    mem := m
    ticket := Function.update s.ticket t pc
    know := Function.update s.know (.ticket t) k
    took := Function.update s.took t (((s.ticket t).claims pc).head?.or (s.took t)) }

variable {s m k} {pc : PushPc α} {t q : ℕ} {pc' : TicketPc}

@[simp] theorem pushStep_know : (s.pushStep m k pc).know .producer = k := by simp [pushStep]
@[simp] theorem pushStep_know_ticket : (s.pushStep m k pc).know (.ticket t) = s.know (.ticket t) := by
  simp [pushStep]
@[simp] theorem length_pushStep_stream :
    (s.pushStep m k pc).stream.length = s.stream.length + s.push.publishes.length := by
  simp [pushStep]
@[simp] theorem ticketStep_know : (s.ticketStep m k t pc').know (.ticket t) = k := by simp [ticketStep]
@[simp] theorem ticketStep_know_producer :
    (s.ticketStep m k t pc').know .producer = s.know .producer := by simp [ticketStep]
@[simp] theorem ticketStep_ticket : (s.ticketStep m k t pc').ticket t = pc' := by simp [ticketStep]
@[simp] theorem ticketStep_took : (s.ticketStep m k t pc').took t =
    ((s.ticket t).claims pc').head?.or (s.took t) := by simp [ticketStep]
theorem ticketStep_ne (pc' : TicketPc) (h : q ≠ t) : (s.ticketStep m k t pc').ticket q = s.ticket q ∧
    (s.ticketStep m k t pc').know (.ticket q) = s.know (.ticket q) ∧
    (s.ticketStep m k t pc').took q = s.took q := by simp [ticketStep, h]

end SharedState

/-- One step; tickets work for the readers `who` says. -/
inductive SharedStep (cfg : Config) (who : ℕ → ℕ) : SharedState α → Move → SharedState α → Prop
  | callPush {s} (value : α) : s.push = .idle →
      SharedStep cfg who s .other { s with push := .loadWriteIdx value }
  | push {s m k pc} :
      Ordered s.mem (s.know .producer) .producer (pushOrder s.push) (pushCode cfg s.push) m k pc →
      SharedStep cfg who s .other (s.pushStep m k pc)
  | retPush {s b} : s.push = .done b → SharedStep cfg who s .other { s with push := .idle }
  | call {s} (t : ℕ) {c pc} : (s.ticket t).call c = some pc →
      SharedStep cfg who s (.call t c) { s with ticket := Function.update s.ticket t pc }
  | access {s} (t : ℕ) {m k pc} :
      Ordered s.mem (s.know (.ticket t)) (.ticket t) (ticketOrder (s.ticket t))
        (ticketCode (who t) (s.ticket t)) m k pc →
      SharedStep cfg who s (.access t) (s.ticketStep m k t pc)
  | deref {s} (t : ℕ) {idx m k pc} : (s.ticket t).views = some idx →
      Ordered s.mem (s.know (.ticket t)) (.ticket t) .relaxed (derefCode cfg idx (s.ticket t)) m k pc →
      SharedStep cfg who s (.access t) (s.ticketStep m k t pc)

/-- The system, from a fresh ring and a fresh handle. -/
def sharedLoans (cfg : Config) (who : ℕ → ℕ) : System (SharedState α) Move where
  init s := ∃ data, s = SharedState.fresh cfg data
  step := SharedStep cfg who

/-! ## What a ticket knows -/

variable {cfg : Config} {who : ℕ → ℕ}

/-- The writes below a `write_idx` past `idx`. -/
def Informed (m : Tracked Loc Actor α) (k : Knowledge Loc Actor) (len idx : ℕ) : Prop :=
  ∃ w, idx < w ∧ w ≤ len ∧ m.carried .writeIdx w ≤ k

/-- What the cursor at `idx` carries. -/
def Acquired (m : Tracked Loc Actor α) (k : Knowledge Loc Actor) (r idx : ℕ) : Prop :=
  m.carried (.readIdx r) idx ≤ k ∧ idx ≤ k (.word (.readIdx r))

/-- What a ticket of reader `r` at `pc` knows. -/
def TicketKnows (m : Tracked Loc Actor α) (k : Knowledge Loc Actor) (r len : ℕ) : TicketPc → Prop
  | .loadCursor w | .loadBase w _ => w ≤ len ∧ m.carried .writeIdx w ≤ k
  | .exchange _ idx => Informed m k len idx
  | pc => ∀ idx, pc.loan = some idx →
      Informed m k len idx ∧ (pc.stores = some idx → Acquired m k r idx)

section Knows

variable {m m' : Tracked Loc Actor α} {k k' : Knowledge Loc Actor} {r len len' idx cursor base : ℕ}
  {pc pc' : TicketPc} {p : Actor}

theorem Informed.mono (h : Informed m k len idx) (hlen : len ≤ len')
    (hcarried : ∀ w ≤ len, m'.carried .writeIdx w = m.carried .writeIdx w) (hk : k ≤ k') :
    Informed m' k' len' idx := by
  obtain ⟨w, hidx, hw, hle⟩ := h
  exact ⟨w, hidx, hw.trans hlen, (hcarried w hw).symm ▸ hle.trans hk⟩

/-- What an open loan knows. -/
theorem TicketKnows.loan (h : TicketKnows m k r len pc) (hl : pc.loan = some idx) :
    Informed m k len idx ∧ (pc.stores = some idx → Acquired m k r idx) := by
  cases pc <;> first | exact h idx hl | cases hl

theorem TicketKnows.mono (h : TicketKnows m k r len pc) (hlen : len ≤ len')
    (hcarried : ∀ w ≤ len, m'.carried .writeIdx w = m.carried .writeIdx w)
    (hcur : ∀ idx, pc.stores = some idx → m'.carried (.readIdx r) idx = m.carried (.readIdx r) idx)
    (hk : k ≤ k') : TicketKnows m' k' r len' pc := by
  have hloan : (∀ idx, pc.loan = some idx →
      Informed m k len idx ∧ (pc.stores = some idx → Acquired m k r idx)) →
      ∀ idx, pc.loan = some idx →
        Informed m' k' len' idx ∧ (pc.stores = some idx → Acquired m' k' r idx) := by
    intro h idx hl
    obtain ⟨hi, hs⟩ := h idx hl
    refine ⟨hi.mono hlen hcarried hk, fun hst => ⟨?_, (hs hst).2.trans (hk _)⟩⟩
    rw [hcur idx hst]
    exact (hs hst).1.trans hk
  cases pc with
  | loadCursor w => exact ⟨h.1.trans hlen, (hcarried w h.1).symm ▸ h.2.trans hk⟩
  | loadBase w c => exact ⟨h.1.trans hlen, (hcarried w h.1).symm ▸ h.2.trans hk⟩
  | exchange b idx => exact Informed.mono h hlen hcarried hk
  | _ => exact hloan h

/-- The memories differ in gates only. -/
structure GateOnly (m m' : Tracked Loc Actor α) : Prop where
  data : m'.data = m.data
  reads : m'.reads = m.reads
  writes : m'.writes = m.writes
  word : ∀ x, (∀ r, x ≠ .loanDepth r) → m'.word x = m.word x ∧ m'.carried x = m.carried x

theorem GateOnly.refl (m : Tracked Loc Actor α) : GateOnly m m := ⟨rfl, rfl, rfl, fun _ _ => ⟨rfl, rfl⟩⟩

theorem gateOnly_modify (m : Tracked Loc Actor α) (o : Strength) (k : Knowledge Loc Actor) (r v : ℕ) :
    GateOnly m (m.modify o k (.loanDepth r) v) :=
  ⟨rfl, rfl, rfl, fun _ hx => Tracked.store_ne _ (hx r) _ _⟩

/-- **An access that neither claims nor stores the cursor**: it touches the gate at most, and what the
ticket goes on with is what it read. -/
theorem ticket_quiet (hacc : Ordered m k p (ticketOrder pc) (ticketCode r pc) m' k' pc')
    (hst : pc.stores = none) (hcl : pc.claims pc' = []) (hw : m.word .writeIdx = .counter len)
    (hcell : m.word (.readIdx r) = .counter cursor) (hhead : m.word (.claimBase r) = .counter base)
    (hcb : cursor ≤ base) (hok : ClaimOk 0 base base cursor len pc)
    (hrange : ∀ idx, pc.loan = some idx → cursor ≤ idx) (h : TicketKnows m k r len pc) (hk : k ≤ k') :
    GateOnly m m' ∧ ClaimOk 0 base base cursor len pc' ∧ TicketKnows m' k' r len pc' ∧
      (∀ idx, pc'.stores = some idx → idx = cursor) ∧
      ∀ idx, pc'.loan = some idx → pc.loan = some idx := by
  -- most accesses hand on no loan
  have hplain : ∀ {pc₁ : TicketPc}, pc₁.stores = none → pc₁.loan = none →
      (∀ idx, pc₁.stores = some idx → idx = cursor) ∧ ∀ idx, pc₁.loan = some idx → pc.loan = some idx := by
    intro pc₁ hs hl
    rw [hs, hl]
    exact ⟨fun _ h => (by cases h), fun _ h => (by cases h)⟩
  have hnone : ∀ {m₁ : Tracked Loc Actor α} {k₁ : Knowledge Loc Actor} {pc₁ : TicketPc}, pc₁.loan = none →
      ∀ idx, pc₁.loan = some idx →
        Informed m₁ k₁ len idx ∧ (pc₁.stores = some idx → Acquired m₁ k₁ r idx) := by
    intro m₁ k₁ pc₁ hl idx hidx
    rw [hl] at hidx
    cases hidx
  have hsaw : ∀ {k₁ : Knowledge Loc Actor} (i : ℕ), i ≤ (k.see (.readIdx r) i ⊔ k₁) (.word (.readIdx r)) := by
    intro k₁ i
    refine le_trans ?_ (le_sup_left (a := k.see (.readIdx r) i) (b := k₁) (.word (.readIdx r)))
    simp [Knowledge.see]
  have hkeep : ∀ idx, pc.loan = some idx → Informed m k' len idx := fun idx hl =>
    (h.loan hl).1.mono le_rfl (fun _ _ => rfl) hk
  cases pc with
  | checkReader =>
      cases hacc
      dsimp only
      split_ifs
      · exact ⟨.refl m, trivial, hnone rfl, hplain rfl rfl⟩
      · exact ⟨.refl m, trivial, hnone rfl, hplain rfl rfl⟩
  | raiseGate => cases hacc; exact ⟨gateOnly_modify _ _ _ _ _, trivial, hnone rfl, hplain rfl rfl⟩
  | loadWriteIdx =>
      cases hacc with
      | load hs =>
          obtain ⟨rfl, -, hle⟩ := hs.counter hw
          exact ⟨.refl m, hle, ⟨hle, le_sup_right⟩, hplain rfl rfl⟩
  | loadCursor w =>
      cases hacc with
      | load hs =>
          obtain ⟨-, -, hle⟩ := hs.counter hcell
          exact ⟨.refl m, ⟨h.1, Nat.zero_le _, hle⟩, ⟨h.1, h.2.trans hk⟩, hplain rfl rfl⟩
  | loadBase w c =>
      cases hacc with
      | load hs =>
          obtain ⟨-, -, hle⟩ := hs.counter hhead
          obtain ⟨hwl, -, hc⟩ := hok
          dsimp only
          split_ifs with hge
          · exact ⟨.refl m, trivial, hnone rfl, hplain rfl rfl⟩
          · have hlt := Nat.not_le.mp hge
            exact ⟨.refl m, ⟨hle, hlt.trans_le hwl, fun heq => by omega⟩, ⟨w, hlt, hwl, h.2.trans hk⟩,
              hplain rfl rfl⟩
  | exchange b idx =>
      cases hacc with
      | won _ => cases hcl
      | lost _ => exact ⟨.refl m, trivial, hnone rfl, hplain rfl rfl⟩
  | lowerGate => cases hacc; exact ⟨gateOnly_modify _ _ _ _ _, trivial, hnone rfl, hplain rfl rfl⟩
  | commitLoad idx =>
      cases hacc with
      | load hs =>
          obtain ⟨rfl, -, hle⟩ := hs.counter hcell
          dsimp only
          split_ifs with hne
          · refine ⟨.refl m, trivial, fun i hl => ⟨hkeep i hl, fun hs => (by cases hs)⟩,
              fun _ hs => (by cases hs), fun _ hl => hl⟩
          · obtain rfl := not_not.mp hne
            refine ⟨.refl m, trivial, fun i hl => ⟨hkeep i hl, fun hs => ?_⟩, fun i hs => ?_, fun _ hl => hl⟩
            · cases hs
              exact ⟨le_sup_right, hsaw _⟩
            · cases hs
              exact le_antisymm hle (hrange _ rfl)
  | dropLoad idx =>
      cases hacc with
      | load hs =>
          obtain ⟨rfl, -, hle⟩ := hs.counter hcell
          dsimp only
          split_ifs with heq
          · subst heq
            refine ⟨.refl m, trivial, fun i hl => ⟨hkeep i hl, fun hs => ?_⟩, fun i hs => ?_, fun _ hl => hl⟩
            · cases hs
              exact ⟨le_sup_right, hsaw _⟩
            · cases hs
              exact le_antisymm hle (hrange _ rfl)
          · refine ⟨.refl m, trivial, fun i hl => ⟨hkeep i hl, fun hs => (by cases hs)⟩,
              fun _ hs => (by cases hs), fun _ hl => hl⟩
  | abortMin idx => exact hok.elim
  | commitStore idx => cases hst
  | dropStore idx => cases hst
  | dropSkip idx => cases hacc; exact ⟨gateOnly_modify _ _ _ _ _, trivial, hnone rfl, hplain rfl rfl⟩
  | resolve => cases hacc; exact ⟨gateOnly_modify _ _ _ _ _, trivial, hnone rfl, hplain rfl rfl⟩
  | idle | refused | held _ | rejected _ _ | resolved => cases hacc

/-- **A store moves the cursor past the loan** and releases what the ticket knows. -/
theorem ticket_released (hacc : Ordered m k p (ticketOrder pc) (ticketCode r pc) m' k' pc')
    (hst : pc.stores = some idx) :
    pc' = .resolve ∧ m' = m.store (.readIdx r) (wrappingAdd idx 1) k' := by
  cases pc with
  | commitStore i | dropStore i =>
      cases hst
      cases hacc
      exact ⟨rfl, rfl⟩
  | _ => cases hst

/-- **A claim is a successful compare-exchange.** -/
theorem ticket_claimed {i : ℕ} {l : List ℕ} (hacc : Ordered m k p (ticketOrder pc) (ticketCode r pc) m' k' pc')
    (hcl : pc.claims pc' = i :: l) : pc = .exchange (m.now (.claimBase r)) i ∧ pc' = .held i ∧
      m' = m.modify .relaxed k (.claimBase r) (wrappingAdd i 1) := by
  cases pc with
  | exchange b idx =>
      cases hacc with
      | won heq =>
          cases hcl
          subst heq
          exact ⟨rfl, rfl, rfl⟩
      | lost => cases hcl
  | _ => cases hcl

end Knows

/-! ## The invariant -/

/-- The invariant of reader `r`. A read of the slot of index `i` is carried by every cursor past `i`. -/
structure ReaderShared (cfg : Config) (who : ℕ → ℕ) (s : SharedState α) (r : ℕ) : Prop where
  cell : s.mem.word (.readIdx r) = .counter (s.cursor r)
  head : s.mem.word (.claimBase r) = .counter (s.base r)
  lag : s.stream.length ≤ s.cursor r + cfg.capacity
  holds : Window.Holds cfg.capacity s.mem.data s.stream (s.cursor r)
  pipe : Pipeline (who · = r) 0 (s.base r) (s.base r) (s.cursor r) s.stream.length s.ticket
  taken : ∀ t i, who t = r → s.took t = some i → i < s.base r
  once : ∀ t t' i, who t = r → who t' = r → s.took t = some i → s.took t' = some i → t = t'
  loan : ∀ t i, who t = r → (s.ticket t).loan = some i → s.took t = some i
  released : ∀ c ≤ s.cursor r, ∀ t i j, who t = r → s.took t = some i → i < c →
    s.mem.carried (.readIdx r) c (.read (.ticket t) j) = s.mem.reads (.ticket t) j
  knows : ∀ t, who t = r → TicketKnows s.mem (s.know (.ticket t)) r s.stream.length (s.ticket t)

theorem ReaderShared.cursor_le {s : SharedState α} {r : ℕ} (h : ReaderShared cfg who s r) :
    s.cursor r ≤ s.stream.length := by
  have hhi := h.pipe.hi
  have hpub := h.pipe.published
  omega

section Step

variable {s s' : SharedState α} {m : Tracked Loc Actor α} {k : Knowledge Loc Actor} {r : ℕ}

/-- A reader whose words and tickets a step leaves alone. -/
theorem ReaderShared.frame (h : ReaderShared cfg who s r)
    (hcur : s'.mem.word (.readIdx r) = s.mem.word (.readIdx r) ∧
      s'.mem.carried (.readIdx r) = s.mem.carried (.readIdx r))
    (hbase : s'.mem.word (.claimBase r) = s.mem.word (.claimBase r))
    (hlen : s.stream.length ≤ s'.stream.length) (hlag : s'.stream.length ≤ s.cursor r + cfg.capacity)
    (hholds : Window.Holds cfg.capacity s'.mem.data s'.stream (s.cursor r))
    (hwrite : ∀ w ≤ s.stream.length, s'.mem.carried .writeIdx w = s.mem.carried .writeIdx w)
    (hmine : ∀ t, who t = r → s'.ticket t = s.ticket t ∧ s'.took t = s.took t ∧
      s'.know (.ticket t) = s.know (.ticket t) ∧ s'.mem.reads (.ticket t) = s.mem.reads (.ticket t)) :
    ReaderShared cfg who s' r := by
  have hc : s'.cursor r = s.cursor r := congrArg Cell.now hcur.1
  have hb : s'.base r = s.base r := congrArg Cell.now hbase
  refine ⟨?_, ?_, ?_, ?_, ?_, fun t i ht htook => ?_, fun t t' i ht ht' htook htook' => ?_,
    fun t i ht hl => ?_, fun c hle t i j ht htook hi => ?_, fun t ht => ?_⟩
  · rw [hcur.1, hc, h.cell]
  · rw [hbase, hb, h.head]
  · rw [hc]
    exact hlag
  · rw [hc]
    exact hholds
  · rw [hc, hb]
    exact (h.pipe.publish hlen).congr fun t ht => (hmine t ht).1
  · rw [hb]
    exact h.taken t i ht ((hmine t ht).2.1 ▸ htook)
  · exact h.once t t' i ht ht' ((hmine t ht).2.1 ▸ htook) ((hmine t' ht').2.1 ▸ htook')
  · rw [(hmine t ht).2.1]
    exact h.loan t i ht ((hmine t ht).1 ▸ hl)
  · rw [hcur.2, (hmine t ht).2.2.2]
    exact h.released c (hc ▸ hle) t i j ht ((hmine t ht).2.1 ▸ htook) hi
  · rw [(hmine t ht).1, (hmine t ht).2.2.1]
    exact (h.knows t ht).mono hlen hwrite (fun _ _ => congrFun hcur.2 _) le_rfl

/-! ## Steps of a ticket -/

/-- A ticket that neither claims nor stores the cursor. -/
theorem ReaderShared.quiet (h : ReaderShared cfg who s r) {t : ℕ} {pc : TicketPc} (ht : who t = r)
    (hgate : GateOnly s.mem m) (hcl : (s.ticket t).claims pc = [])
    (hclaim : ClaimOk 0 (s.base r) (s.base r) (s.cursor r) s.stream.length pc)
    (hst : ∀ idx, pc.stores = some idx → idx = s.cursor r)
    (hloan : ∀ idx, pc.loan = some idx → (s.ticket t).loan = some idx)
    (hknows : TicketKnows m k r s.stream.length pc) : ReaderShared cfg who (s.ticketStep m k t pc) r := by
  have hcur := hgate.word (.readIdx r) (by simp)
  have hbase := hgate.word (.claimBase r) (by simp)
  have hwrite := hgate.word .writeIdx (by simp)
  have hc : (s.ticketStep m k t pc).cursor r = s.cursor r := congrArg Cell.now hcur.1
  have hb : (s.ticketStep m k t pc).base r = s.base r := congrArg Cell.now hbase.1
  have htook : (s.ticketStep m k t pc).took = s.took := by
    rw [SharedState.ticketStep, hcl]
    exact Function.update_eq_self _ _
  refine ⟨?_, ?_, ?_, ?_, ?_, ?_, ?_, fun q i hq hl => ?_, fun c hle q i j hq hqi hi => ?_, fun q hq => ?_⟩
  · rw [hc]
    exact hcur.1.trans h.cell
  · rw [hb]
    exact hbase.1.trans h.head
  · rw [hc]
    exact h.lag
  · rw [hc]
    exact hgate.data ▸ h.holds
  · rw [hc, hb]
    exact h.pipe.move hclaim hst hloan
  · rw [htook, hb]
    exact h.taken
  · rw [htook]
    exact h.once
  · rw [htook]
    by_cases hqt : q = t
    · subst hqt
      rw [SharedState.ticketStep_ticket] at hl
      exact h.loan q i hq (hloan i hl)
    · rw [(SharedState.ticketStep_ne _ hqt).1] at hl
      exact h.loan q i hq hl
  · rw [hc] at hle
    rw [htook] at hqi
    change m.carried (.readIdx r) c _ = m.reads _ j
    rw [hcur.2, hgate.reads]
    exact h.released c hle q i j hq hqi hi
  · by_cases hqt : q = t
    · subst hqt
      rw [SharedState.ticketStep_ticket, SharedState.ticketStep_know]
      exact hknows
    · obtain ⟨hticket, hknow, -⟩ := SharedState.ticketStep_ne (s := s) (m := m) (k := k) pc hqt
      rw [hticket, hknow]
      exact (h.knows q hq).mono le_rfl (fun w _ => congrFun hwrite.2 w) (fun i _ => congrFun hcur.2 i) le_rfl

/-- **A claim takes the next index.** -/
theorem ReaderShared.take (h : ReaderShared cfg who s r) {t i : ℕ} (ht : who t = r)
    (hpc : s.ticket t = .exchange (s.base r) i) (hlen : s.stream.length < u64Size)
    (hm : m = s.mem.modify .relaxed (s.know (.ticket t)) (.claimBase r) (wrappingAdd i 1))
    (hgrow : s.know (.ticket t) ≤ k) : ReaderShared cfg who (s.ticketStep m k t (.held i)) r := by
  have hok := h.pipe.claim t ht
  have hinf := h.knows t ht
  rw [hpc] at hok hinf
  obtain ⟨-, hidx, hnext⟩ := hok
  obtain rfl : i = s.base r := (hnext rfl).trans (Nat.zero_add _)
  have hnow : m.now (.claimBase r) = s.base r + 1 := by
    rw [hm]
    exact (Memory.store_now_self _ _ _).trans (wrappingAdd_eq (by omega))
  have hword : ∀ x, x ≠ .claimBase r → m.word x = s.mem.word x ∧ m.carried x = s.mem.carried x := by
    intro x hx
    rw [hm]
    exact Tracked.store_ne _ hx _ _
  have hreads : m.reads = s.mem.reads := by rw [hm]; rfl
  have hdata : m.data = s.mem.data := by rw [hm]; rfl
  have hcur := hword (.readIdx r) (by simp)
  have hwrite := hword .writeIdx (by simp)
  have hc : (s.ticketStep m k t (.held (s.base r))).cursor r = s.cursor r := congrArg Cell.now hcur.1
  have htook : (s.ticketStep m k t (.held (s.base r))).took t = some (s.base r) := by
    rw [SharedState.ticketStep_took, hpc]
    rfl
  have hhi : s.cursor r ≤ s.base r := h.pipe.hi.trans (Nat.zero_add _).le
  -- an index already out is below the one taken
  have hold : ∀ q i, who q = r → q ≠ t → (s.ticketStep m k t (.held (s.base r))).took q = some i →
      s.took q = some i ∧ i < s.base r := by
    intro q i hq hqt hi
    rw [(SharedState.ticketStep_ne _ hqt).2.2] at hi
    exact ⟨hi, h.taken q i hq hi⟩
  refine ⟨?_, ?_, ?_, ?_, ?_, fun q i hq hqi => ?_, fun q q' i hq hq' hqi hqi' => ?_, fun q i hq hl => ?_,
    fun c hle q i j hq hqi hi => ?_, fun q hq => ?_⟩
  · rw [hc]
    exact hcur.1.trans h.cell
  · change m.word (.claimBase r) = .counter (m.now (.claimBase r))
    rw [hnow, hm]
    refine (Memory.store_word_self _ _ _).trans ?_
    rw [h.head, wrappingAdd_eq (by omega), Cell.counter_store]
  · rw [hc]
    exact h.lag
  · rw [hc]
    exact hdata ▸ h.holds
  · rw [hc]
    change Pipeline _ 0 (m.now (.claimBase r)) (m.now (.claimBase r)) _ s.stream.length
      (Function.update s.ticket t _)
    rw [hnow]
    simpa only [Nat.zero_add] using h.pipe.take (by omega : 0 + s.base r < _) (t := t)
  · change i < m.now (.claimBase r)
    rw [hnow]
    by_cases hqt : q = t
    · subst hqt
      rw [htook] at hqi
      cases hqi
      exact Nat.lt_succ_self _
    · exact (hold q i hq hqt hqi).2.trans (Nat.lt_succ_self _)
  · by_cases hqt : q = t
    · by_cases hqt' : q' = t
      · exact hqt.trans hqt'.symm
      · subst hqt
        rw [htook] at hqi
        cases hqi
        exact absurd (hold q' _ hq' hqt' hqi').2 (lt_irrefl _)
    · by_cases hqt' : q' = t
      · subst hqt'
        rw [htook] at hqi'
        cases hqi'
        exact absurd (hold q _ hq hqt hqi).2 (lt_irrefl _)
      · exact h.once q q' i hq hq' (hold q i hq hqt hqi).1 (hold q' i hq' hqt' hqi').1
  · by_cases hqt : q = t
    · subst hqt
      rw [SharedState.ticketStep_ticket] at hl
      cases hl
      exact htook
    · obtain ⟨hticket, -, htook'⟩ := SharedState.ticketStep_ne (s := s) (m := m) (k := k) (.held (s.base r)) hqt
      rw [hticket] at hl
      rw [htook']
      exact h.loan q i hq hl
  · rw [hc] at hle
    change m.carried (.readIdx r) c _ = m.reads _ j
    rw [hcur.2, hreads]
    by_cases hqt : q = t
    · subst hqt
      rw [htook] at hqi
      cases hqi
      omega
    · exact h.released c hle q i j hq (hold q i hq hqt hqi).1 hi
  · by_cases hqt : q = t
    · subst hqt
      rw [SharedState.ticketStep_ticket, SharedState.ticketStep_know]
      intro idx hl
      cases hl
      exact ⟨Informed.mono hinf le_rfl (fun w _ => congrFun hwrite.2 w) hgrow, fun hs => (by cases hs)⟩
    · obtain ⟨hticket, hknow, -⟩ := SharedState.ticketStep_ne (s := s) (m := m) (k := k) (.held (s.base r)) hqt
      rw [hticket, hknow]
      exact (h.knows q hq).mono le_rfl (fun w _ => congrFun hwrite.2 w) (fun i _ => congrFun hcur.2 i) le_rfl

/-- **A cursor store carries every read behind it**: those of the earlier loans came with the cursor the
ticket had acquired, the last one is its own. -/
theorem ReaderShared.consume (h : ReaderShared cfg who s r) {t idx : ℕ} (ht : who t = r)
    (hst : (s.ticket t).stores = some idx) (hlen : s.stream.length < u64Size)
    (hm : m = s.mem.store (.readIdx r) (wrappingAdd idx 1) k) (hgrow : s.know (.ticket t) ≤ k)
    (hknown : k ≤ m.all) (hown : ∀ j, k (.read (.ticket t) j) = s.mem.reads (.ticket t) j) :
    ReaderShared cfg who (s.ticketStep m k t .resolve) r := by
  obtain rfl : idx = s.cursor r := h.pipe.storing t idx ht hst
  have hloan := loan_of_stores hst
  have hcarried := ((h.knows t ht).loan hloan).2 hst
  have hmine := h.loan t _ ht hloan
  have hrange := (h.pipe.range t _ ht hloan).2
  have hpub := h.pipe.published
  have htop : (s.mem.word (.readIdx r)).top = s.cursor r := by rw [h.cell, Cell.counter_top]
  have hnow : m.now (.readIdx r) = s.cursor r + 1 := by
    rw [hm]
    exact (Memory.store_now_self _ _ _).trans (wrappingAdd_eq (by omega))
  have hword : ∀ x, x ≠ .readIdx r → m.word x = s.mem.word x ∧ m.carried x = s.mem.carried x := by
    intro x hx
    rw [hm]
    exact Tracked.store_ne _ hx _ _
  have hold : ∀ c ≤ s.cursor r, m.carried (.readIdx r) c = s.mem.carried (.readIdx r) c := by
    intro c hle
    rw [hm]
    exact Tracked.carried_store_of_le _ _ _ _ _ (htop ▸ hle)
  have hreads : m.reads = s.mem.reads := by rw [hm]; rfl
  have hdata : m.data = s.mem.data := by rw [hm]; rfl
  have hbase := hword (.claimBase r) (by simp)
  have hwrite := hword .writeIdx (by simp)
  have hb : (s.ticketStep m k t .resolve).base r = s.base r := congrArg Cell.now hbase.1
  have htook : (s.ticketStep m k t .resolve).took = s.took := by
    rw [SharedState.ticketStep, claims_resolve]
    exact Function.update_eq_self _ _
  refine ⟨?_, ?_, ?_, ?_, ?_, ?_, ?_, fun q i hq hl => ?_, fun c hle q i j hq hqi hi => ?_, fun q hq => ?_⟩
  · change m.word (.readIdx r) = .counter (m.now (.readIdx r))
    rw [hnow, hm]
    refine (Memory.store_word_self _ _ _).trans ?_
    rw [h.cell, wrappingAdd_eq (by omega), Cell.counter_store]
  · rw [hb]
    exact hbase.1.trans h.head
  · exact h.lag.trans (Nat.add_le_add_right ((Nat.le_succ _).trans hnow.ge) _)
  · exact (hdata ▸ h.holds).mono ((Nat.le_succ _).trans hnow.ge)
  · rw [hb]
    change Pipeline _ _ _ _ (m.now (.readIdx r)) s.stream.length (Function.update s.ticket t _)
    rw [hnow]
    exact h.pipe.consume ht hst
  · rw [htook, hb]
    exact h.taken
  · rw [htook]
    exact h.once
  · rw [htook]
    by_cases hqt : q = t
    · subst hqt
      rw [SharedState.ticketStep_ticket] at hl
      cases hl
    · rw [(SharedState.ticketStep_ne _ hqt).1] at hl
      exact h.loan q i hq hl
  · rw [htook] at hqi
    change c ≤ m.now (.readIdx r) at hle
    change m.carried (.readIdx r) c _ = m.reads _ j
    rw [hnow] at hle
    rcases Nat.le_succ_iff.mp hle with hle' | rfl
    · rw [hold c hle', hreads]
      exact h.released c hle' q i j hq hqi hi
    · have hk : m.carried (.readIdx r) (s.cursor r + 1) = k := by
        rw [hm, ← htop]
        exact Tracked.carried_store_top _ _ _ _
      rw [Nat.succ_eq_add_one, hk, hreads]
      rcases Nat.lt_succ_iff_lt_or_eq.mp hi with hlt | rfl
      · refine le_antisymm ((hknown _).trans ?_) ?_
        · change m.reads (.ticket q) j ≤ _
          rw [hreads]
        · rw [← h.released _ le_rfl q i j hq hqi hlt]
          exact (hcarried.1 _).trans (hgrow _)
      · obtain rfl := h.once q t _ hq ht hqi hmine
        exact hown j
  · by_cases hqt : q = t
    · subst hqt
      rw [SharedState.ticketStep_ticket]
      exact fun _ hl => (by cases hl)
    · obtain ⟨hticket, hknow, -⟩ := SharedState.ticketStep_ne (s := s) (m := m) (k := k) .resolve hqt
      rw [hticket, hknow]
      exact (h.knows q hq).mono le_rfl (fun w _ => congrFun hwrite.2 w)
        (fun i hi => hold i (h.pipe.storing q i hq hi).le) le_rfl

/-- A read of the slot of an open loan, which no cursor is past. -/
theorem ReaderShared.deref (h : ReaderShared cfg who s r) {t idx j : ℕ} (ht : who t = r)
    (hl : (s.ticket t).loan = some idx) (hcl : (s.ticket t).claims (s.ticket t) = [])
    (hm : m = s.mem.get (.ticket t) j) (hgrow : s.know (.ticket t) ≤ k) :
    ReaderShared cfg who (s.ticketStep m k t (s.ticket t)) r := by
  have htook : (s.ticketStep m k t (s.ticket t)).took = s.took := by
    rw [SharedState.ticketStep, hcl]
    exact Function.update_eq_self _ _
  have hticket : (s.ticketStep m k t (s.ticket t)).ticket = s.ticket := Function.update_eq_self _ _
  subst hm
  refine ⟨h.cell, h.head, h.lag, h.holds, ?_, ?_, ?_, ?_, fun c hle q i j' hq hqi hi => ?_,
    fun q hq => ?_⟩
  · rw [hticket]
    exact h.pipe
  · rw [htook]
    exact h.taken
  · rw [htook]
    exact h.once
  · rw [hticket, htook]
    exact h.loan
  · rw [htook] at hqi
    refine (h.released c hle q i j' hq hqi hi).trans (Tracked.get_reads_ne s.mem (.inl ?_)).symm
    intro hqt
    cases hqt
    rw [h.loan t idx ht hl] at hqi
    cases hqi
    have hpin := (h.pipe.range t idx ht hl).1
    have : c ≤ s.cursor r := hle
    omega
  · rw [hticket]
    by_cases hqt : q = t
    · subst hqt
      rw [SharedState.ticketStep_know]
      exact (h.knows q hq).mono le_rfl (fun _ _ => rfl) (fun _ _ => rfl) hgrow
    · rw [(SharedState.ticketStep_ne _ hqt).2.1]
      exact h.knows q hq

end Step

end ShmRings.Threads
