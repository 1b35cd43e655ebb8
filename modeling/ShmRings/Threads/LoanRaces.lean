import ShmRings.Threads.SharedLoans

/-!
# Loans and data races

Without aborts the threads that share a handle read each slot between the write of its message and the
write that takes it again, in every interleaving and with stale loads. `abort` is relaxed: what its thread
has read is not ordered before the commit of the thread that claims the message again.

* `TicketPc.AtDoor`, `TicketPc.Unclaimed`; `SharedInv`; **`SharedInv.step`**: every step but an abort keeps it;
* **`loans_race_free`**;
* `SharedState.next`; **`abort_races`**: a run with an abort that leads to a race.
-/

set_option autoImplicit false

namespace ShmRings.Threads

open Coherent Transition Release

variable {α : Type} {cfg : Config} {who : ℕ → ℕ}

/-- A ticket of a reader that does not participate gets no further. -/
def TicketPc.AtDoor : TicketPc → Prop
  | .idle | .checkReader | .refused => True
  | _ => False

/-- Before the claim succeeds, or when it has failed. -/
def TicketPc.Unclaimed : TicketPc → Prop
  | .idle | .checkReader | .raiseGate | .loadWriteIdx | .loadCursor _ | .loadBase _ _ | .exchange _ _
  | .lowerGate | .refused => True
  | _ => False

theorem not_door_of_loan {pc : TicketPc} {idx : ℕ} (h : pc.loan = some idx) :
    ¬ pc.AtDoor ∧ ¬ pc.Unclaimed := by
  cases pc <;> first | exact ⟨id, id⟩ | cases h

theorem unclaimed_of_door {pc : TicketPc} (h : pc.AtDoor) : pc.Unclaimed := by
  cases pc <;> trivial

/-- The invariant. -/
structure SharedInv (cfg : Config) (who : ℕ → ℕ) (s : SharedState α) : Prop where
  sound : s.mem.Sound
  known : ∀ p, s.know p ≤ s.mem.all
  numReaders : s.mem.word .numReaders = .const cfg.readers
  writeIdx : s.mem.word .writeIdx = .counter s.stream.length
  ownWrite : s.stream.length ≤ s.know .producer (.word .writeIdx)
  push : PushOk cfg (· < cfg.readers) s.cursor s.mem.data s.stream.length s.push
  write : WriteInv cfg s.mem (s.know .producer) s.cursor s.stream.length s.push
  own : ∀ t j, s.know (.ticket t) (.read (.ticket t) j) = s.mem.reads (.ticket t) j
  silent : ∀ j, s.mem.reads .producer j = 0
  viewed : ∀ t j, s.mem.reads (.ticket t) j ≠ 0 → ∃ i, s.took t = some i ∧ cfg.slot i = j
  stranger : ∀ t, cfg.readers ≤ who t → (s.ticket t).AtDoor
  unclaimed : ∀ t, (s.ticket t).Unclaimed → s.took t = none
  reader : ∀ r < cfg.readers, ReaderShared cfg who s r

/-- Only tickets of participating readers get a loan. -/
theorem SharedInv.inside {s : SharedState α} (h : SharedInv cfg who s) {t : ℕ}
    (hdoor : ¬ (s.ticket t).AtDoor) : who t < cfg.readers :=
  Nat.not_le.mp fun hge => hdoor (h.stranger t hge)

theorem sharedInv_fresh (cfg : Config) (who : ℕ → ℕ) (data : ℕ → α) :
    SharedInv cfg who (SharedState.fresh cfg data) where
  sound _ _ := bot_le
  known _ := bot_le
  numReaders := rfl
  writeIdx := rfl
  ownWrite := le_rfl
  push := trivial
  write := ⟨fun _ => rfl, fun _ _ _ _ _ => rfl, trivial⟩
  own _ _ := rfl
  silent _ := rfl
  viewed _ _ h := absurd rfl h
  stranger _ _ := trivial
  unclaimed _ _ := rfl
  reader r _ :=
    { cell := rfl
      head := rfl
      lag := Nat.zero_le _
      holds := Window.holds_of_length_le (Nat.zero_le _)
      pipe :=
        { head := rfl
          lo := le_rfl
          hi := Nat.zero_le _
          published := Nat.zero_le _
          claim := fun _ _ => trivial
          storing := fun _ _ _ h => by cases h
          range := fun _ _ _ h => by cases h
          unique := fun _ _ _ _ _ h => by cases h }
      taken := fun _ _ _ h => by cases h
      once := fun _ _ _ _ _ h => by cases h
      loan := fun _ _ _ h => by cases h
      released := fun _ _ _ _ _ _ h => by cases h
      knows := fun _ _ _ h => by cases h }

section Step

variable {s s' : SharedState α} {m : Tracked Loc Actor α} {k : Knowledge Loc Actor} {r : ℕ}

/-- **A step of the producer keeps the invariant.** -/
theorem SharedInv.step_push (h : SharedInv cfg who s) {pc : PushPc α}
    (hacc : Ordered s.mem (s.know .producer) .producer (pushOrder s.push) (pushCode cfg s.push) m k pc)
    (hlen : (s.stream ++ s.push.publishes).length < u64Size) : SharedInv cfg who (s.pushStep m k pc) := by
  rw [List.length_append] at hlen
  obtain ⟨hsound, hgrow, hknown⟩ := hacc.known h.sound (h.known .producer)
  obtain ⟨hreads, hcarried, -⟩ := push_tracked hacc
  obtain ⟨vw, hacc', hvw⟩ := hacc.access (le_refl (s.know .producer).view)
  have hword : ∀ {x : Loc}, x ≠ .writeIdx → x ≠ .totalWritten → m.word x = s.mem.word x :=
    fun hw ht => push_word hacc' hw ht
  have hcur : (s.pushStep m k pc).cursor = s.cursor :=
    funext fun r => congrArg Cell.now (hword (by simp) (by simp))
  have hown : (s.know .producer).view .writeIdx = s.stream.length := by
    refine le_antisymm ((h.known .producer (.word .writeIdx)).trans ?_) h.ownWrite
    change (s.mem.word .writeIdx).top ≤ _
    rw [h.writeIdx, Cell.counter_top]
  obtain ⟨hcell, hseen⟩ := h.push.counter hacc' h.writeIdx hown hlen
  have hnext := h.push.step hacc' (by omega)
    (fun i v hs => by
      obtain ⟨rfl, hlo, hhi⟩ := hs.counter h.writeIdx
      rw [hown] at hlo
      omega)
    (fun i v hs => hs.const h.numReaders) (fun r i v hr hs => (hs.counter (h.reader r hr).cell).2.2)
    ⟨0, cfg.readers_pos, cfg.readers_pos, (h.reader 0 cfg.readers_pos).cursor_le⟩
  refine ⟨hsound, fun p => ?_, (hword (by decide) (by decide)).trans h.numReaders, ?_, ?_, ?_, ?_,
    fun t j => ?_, fun j => (congrFun (congrFun hreads _) j).trans (h.silent j), fun t j hne => ?_,
    h.stranger, h.unclaimed, fun r hr => ?_⟩
  · cases p with
    | producer =>
        rw [SharedState.pushStep_know]
        exact hknown
    | ticket t =>
        rw [SharedState.pushStep_know_ticket]
        exact (h.known _).trans hacc.all_le
  · rw [SharedState.length_pushStep_stream]
    exact hcell
  · rw [SharedState.length_pushStep_stream, SharedState.pushStep_know]
    exact hseen.ge.trans (hvw _)
  · rw [hcur, SharedState.length_pushStep_stream]
    exact hnext
  · rw [hcur, SharedState.pushStep_know, SharedState.length_pushStep_stream]
    exact h.write.step hacc h.push (fun _ hr => hr) h.writeIdx h.numReaders
      (fun r hr => ⟨(h.reader r hr).cell, (h.reader r hr).cursor_le⟩) hlen hgrow hknown
  · rw [SharedState.pushStep_know_ticket]
    exact (h.own t j).trans (congrFun (congrFun hreads _) j).symm
  · exact h.viewed t j fun heq => hne ((congrFun (congrFun hreads _) j).trans heq)
  · have hr' := h.reader r hr
    obtain ⟨hholds, hlag⟩ := h.push.holds hacc' hr hr hr'.lag hr'.holds
    refine hr'.frame ⟨hword (by simp) (by simp), hcarried r⟩ (hword (by simp) (by simp)) ?_ ?_ hholds
      (fun w => push_carried hacc h.writeIdx)
      fun t _ => ⟨rfl, rfl, SharedState.pushStep_know_ticket, congrFun hreads _⟩
    · rw [SharedState.length_pushStep_stream]
      exact Nat.le_add_right _ _
    · rw [SharedState.length_pushStep_stream]
      exact hlag

/-! ## Steps of a ticket -/

/-- What an access of a ticket must leave alone, and what its own reader's part is. -/
theorem SharedInv.of_ticket (h : SharedInv cfg who s) {t : ℕ} {pc : TicketPc} (hsound : m.Sound)
    (hknown : k ≤ m.all) (hall : s.mem.all ≤ m.all)
    (hword : ∀ x, (∀ q, x ≠ .loanDepth q) → x ≠ .readIdx (who t) → x ≠ .claimBase (who t) →
      m.word x = s.mem.word x ∧ m.carried x = s.mem.carried x)
    (hsame : m.data = s.mem.data ∧ m.writes = s.mem.writes ∧ ∀ p, p ≠ .ticket t → m.reads p = s.mem.reads p)
    (hown : ∀ j, k (.read (.ticket t) j) = m.reads (.ticket t) j)
    (hviewed : ∀ j, m.reads (.ticket t) j ≠ 0 →
      ∃ i, (s.ticketStep m k t pc).took t = some i ∧ cfg.slot i = j)
    (hcur : s.cursor (who t) ≤ (s.ticketStep m k t pc).cursor (who t) ∧
      ∀ c ≤ s.cursor (who t), m.carried (.readIdx (who t)) c = s.mem.carried (.readIdx (who t)) c)
    (hdoor : cfg.readers ≤ who t → pc.AtDoor)
    (hunclaimed : pc.Unclaimed → (s.ticketStep m k t pc).took t = none)
    (hself : who t < cfg.readers → ReaderShared cfg who (s.ticketStep m k t pc) (who t)) :
    SharedInv cfg who (s.ticketStep m k t pc) := by
  obtain ⟨hdata, hwrites, hreads⟩ := hsame
  have hn := hword .numReaders (by simp) (by simp) (by simp)
  have hw := hword .writeIdx (by simp) (by simp) (by simp)
  have hother : ∀ q, q ≠ who t → m.word (.readIdx q) = s.mem.word (.readIdx q) ∧
      m.carried (.readIdx q) = s.mem.carried (.readIdx q) := fun q hq =>
    hword _ (by simp) (by simp [hq]) (by simp)
  have hfwd : ∀ q < cfg.readers, s.cursor q ≤ (s.ticketStep m k t pc).cursor q ∧
      ∀ c ≤ s.cursor q, m.carried (.readIdx q) c = s.mem.carried (.readIdx q) c := by
    intro q _
    by_cases hq : q = who t
    · subst hq
      exact hcur
    · exact ⟨(congrArg Cell.now (hother q hq).1).ge, fun c _ => congrFun (hother q hq).2 c⟩
  refine ⟨hsound, fun p => ?_, hn.1.trans h.numReaders, hw.1.trans h.writeIdx, ?_, ?_, ?_, fun q j => ?_,
    fun j => (congrFun (hreads _ (by simp)) j).trans (h.silent j), fun q j hne => ?_, fun q hq => ?_,
    fun q hq => ?_, fun q hq => ?_⟩
  · by_cases hp : p = .ticket t
    · subst hp
      rw [SharedState.ticketStep_know]
      exact hknown
    · exact (Function.update_of_ne hp k s.know).le.trans ((h.known p).trans hall)
  · rw [SharedState.ticketStep_know_producer]
    exact h.ownWrite
  · change PushOk cfg _ _ m.data _ _
    rw [hdata]
    exact h.push.mono fun q hq => (hfwd q hq).1
  · rw [SharedState.ticketStep_know_producer]
    exact h.write.frame h.push hwrites hw.2 (fun q hq => (hfwd q hq).2) fun q hq => (hfwd q hq).1
  · by_cases hqt : q = t
    · subst hqt
      rw [SharedState.ticketStep_know]
      exact hown j
    · rw [(SharedState.ticketStep_ne _ hqt).2.1]
      exact (h.own q j).trans (congrFun (hreads _ (by simp [hqt])) j).symm
  · by_cases hqt : q = t
    · subst hqt
      exact hviewed j hne
    · rw [(SharedState.ticketStep_ne _ hqt).2.2]
      exact h.viewed q j fun heq => hne ((congrFun (hreads _ (by simp [hqt])) j).trans heq)
  · by_cases hqt : q = t
    · subst hqt
      rw [SharedState.ticketStep_ticket]
      exact hdoor hq
    · rw [(SharedState.ticketStep_ne _ hqt).1]
      exact h.stranger q hq
  · by_cases hqt : q = t
    · subst hqt
      rw [SharedState.ticketStep_ticket] at hq
      exact hunclaimed hq
    · rw [(SharedState.ticketStep_ne _ hqt).1] at hq
      rw [(SharedState.ticketStep_ne _ hqt).2.2]
      exact h.unclaimed q hq
  · by_cases hqr : q = who t
    · subst hqr
      exact hself hq
    · have hq' := h.reader q hq
      refine hq'.frame (hother q hqr) (hword _ (by simp) (by simp) (by simp [hqr])).1 le_rfl hq'.lag
        (hdata ▸ hq'.holds) (fun w _ => congrFun hw.2 w) fun q' hmine => ?_
      have hne : q' ≠ t := fun heq => hqr (heq ▸ hmine.symm)
      obtain ⟨hticket, hknow, htook⟩ := SharedState.ticketStep_ne (s := s) (m := m) (k := k) pc hne
      exact ⟨hticket, htook, hknow, hreads _ (by simp [hne])⟩

/-- After an access the ticket has claimed, or had not before. -/
theorem unclaimed_back {pc pc' : TicketPc} {m₀ : Tracked Loc Actor α} {k₀ : Knowledge Loc Actor} {p : Actor}
    (hacc : Ordered m₀ k₀ p (ticketOrder pc) (ticketCode r pc) m k pc') (h : pc'.Unclaimed) :
    pc.Unclaimed ∧ pc.claims pc' = [] := by
  cases pc with
  | exchange b idx =>
      cases hacc with
      | won => exact h.elim
      | lost => exact ⟨trivial, rfl⟩
  | checkReader | raiseGate | loadWriteIdx | loadCursor _ | loadBase _ _ | lowerGate =>
      exact ⟨trivial, rfl⟩
  | commitLoad idx =>
      cases hacc
      dsimp only at h
      split_ifs at h <;> exact h.elim
  | dropLoad idx =>
      cases hacc
      dsimp only at h
      split_ifs at h <;> exact h.elim
  | commitStore _ | abortMin _ | dropStore _ | dropSkip _ | resolve => cases hacc; exact h.elim
  | idle | refused | held _ | rejected _ _ | resolved => cases hacc

/-- A ticket that does not participate is turned away. -/
theorem door_access {pc pc' : TicketPc} {m₀ : Tracked Loc Actor α} {k₀ : Knowledge Loc Actor} {p : Actor}
    (hacc : Ordered m₀ k₀ p (ticketOrder pc) (ticketCode r pc) m k pc') (hdoor : pc.AtDoor)
    (hn : m₀.word .numReaders = .const cfg.readers) (hge : cfg.readers ≤ r) :
    m = m₀ ∧ pc'.AtDoor ∧ pc.claims pc' = [] := by
  cases pc with
  | checkReader =>
      cases hacc with
      | load hs =>
          rw [hs.const hn]
          dsimp only
          rw [if_pos hge]
          exact ⟨rfl, trivial, rfl⟩
  | idle | refused => cases hacc
  | _ => exact hdoor.elim

/-- **An access of a ticket keeps the invariant.** -/
theorem SharedInv.step_access (h : SharedInv cfg who s) {t : ℕ} {pc : TicketPc}
    (hacc : Ordered s.mem (s.know (.ticket t)) (.ticket t) (ticketOrder (s.ticket t))
      (ticketCode (who t) (s.ticket t)) m k pc)
    (hlen : s.stream.length < u64Size) : SharedInv cfg who (s.ticketStep m k t pc) := by
  obtain ⟨hsound, hgrow, hknown⟩ := hacc.known h.sound (h.known (.ticket t))
  have hall := hacc.all_le
  have hown : ∀ j, m.reads = s.mem.reads → k (.read (.ticket t) j) = m.reads (.ticket t) j := by
    intro j heq
    have hsame : m.reads (.ticket t) j = s.mem.reads (.ticket t) j := by rw [heq]
    exact (know_eq (h.own t j) hgrow hknown hsame).trans hsame.symm
  have hviewed : m.reads = s.mem.reads → ∀ j, m.reads (.ticket t) j ≠ 0 →
      ∃ i, (s.ticketStep m k t pc).took t = some i ∧ cfg.slot i = j := by
    intro heq j hne
    rw [heq] at hne
    obtain ⟨i, htook, hslot⟩ := h.viewed t j hne
    refine ⟨i, ?_, hslot⟩
    rw [SharedState.ticketStep_took]
    cases hcl : (s.ticket t).claims pc with
    | nil => exact htook
    | cons i' l =>
        obtain ⟨hpc, -⟩ := ticket_claimed hacc hcl
        rw [h.unclaimed t (by rw [hpc]; trivial)] at htook
        cases htook
  have hunclaimed : pc.Unclaimed → (s.ticketStep m k t pc).took t = none := by
    intro hpc
    obtain ⟨hpre, hcl⟩ := unclaimed_back hacc hpc
    rw [SharedState.ticketStep_took, hcl, h.unclaimed t hpre]
    rfl
  by_cases hr : who t < cfg.readers
  · have hr' := h.reader _ hr
    have hhi : s.cursor (who t) ≤ s.base (who t) := hr'.pipe.hi.trans (Nat.zero_add _).le
    cases hst : (s.ticket t).stores with
    | some idx =>
        obtain ⟨rfl, hm⟩ := ticket_released hacc hst
        have hreads : m.reads = s.mem.reads := by rw [hm]; rfl
        obtain rfl : idx = s.cursor (who t) := hr'.pipe.storing t idx rfl hst
        have hself := hr'.consume rfl hst hlen hm hgrow hknown
          fun j => (hown j hreads).trans (congrFun (congrFun hreads _) j)
        have hpub := hr'.pipe.published
        have hrange := (hr'.pipe.range t _ rfl (loan_of_stores hst)).2
        refine h.of_ticket hsound hknown hall (fun x _ hx _ => ?_) ?_ (fun j => hown j hreads)
          (hviewed hreads) ⟨?_, fun c hle => ?_⟩ (fun hge => absurd hr (Nat.not_lt.mpr hge)) hunclaimed
          fun _ => hself
        · rw [hm]
          exact Tracked.store_ne _ hx _ _
        · rw [hm]
          exact ⟨rfl, rfl, fun _ _ => rfl⟩
        · change _ ≤ m.now (.readIdx (who t))
          rw [hm]
          refine le_trans (Nat.le_succ _) (le_of_eq (Eq.symm ?_))
          exact (Memory.store_now_self _ _ _).trans (wrappingAdd_eq (by omega))
        · rw [hm]
          refine Tracked.carried_store_of_le _ _ _ _ _ ?_
          rwa [hr'.cell, Cell.counter_top]
    | none =>
        cases hcl : (s.ticket t).claims pc with
        | nil =>
            obtain ⟨hgate, hclaim, hknows, hst', hloan⟩ := ticket_quiet hacc hst hcl h.writeIdx hr'.cell
              hr'.head hhi (hr'.pipe.claim t rfl) (fun idx hl => (hr'.pipe.range t idx rfl hl).1)
              (hr'.knows t rfl) hgrow
            have hcur := hgate.word (.readIdx (who t)) (by simp)
            exact h.of_ticket hsound hknown hall (fun x hx _ _ => hgate.word x hx)
              ⟨hgate.data, hgate.writes, fun p _ => congrFun hgate.reads p⟩ (fun j => hown j hgate.reads)
              (hviewed hgate.reads) ⟨(congrArg Cell.now hcur.1).ge, fun c _ => congrFun hcur.2 c⟩
              (fun hge => absurd hr (Nat.not_lt.mpr hge)) hunclaimed
              fun _ => hr'.quiet rfl hgate hcl hclaim hst' hloan hknows
        | cons i l =>
            obtain ⟨hpc, rfl, hm⟩ := ticket_claimed hacc hcl
            have hreads : m.reads = s.mem.reads := by rw [hm]; rfl
            have hcur : m.word (.readIdx (who t)) = s.mem.word (.readIdx (who t)) ∧
                m.carried (.readIdx (who t)) = s.mem.carried (.readIdx (who t)) := by
              rw [hm]
              exact Tracked.store_ne _ (by simp) _ _
            refine h.of_ticket hsound hknown hall (fun x _ _ hx => ?_) ?_ (fun j => hown j hreads)
              (hviewed hreads) ⟨(congrArg Cell.now hcur.1).ge, fun c _ => congrFun hcur.2 c⟩
              (fun hge => absurd hr (Nat.not_lt.mpr hge)) hunclaimed fun _ => hr'.take rfl hpc hlen hm hgrow
            · rw [hm]
              exact Tracked.store_ne _ hx _ _
            · rw [hm]
              exact ⟨rfl, rfl, fun _ _ => rfl⟩
  · have hge := Nat.not_lt.mp hr
    obtain ⟨rfl, hdoor, hcl⟩ := door_access hacc (h.stranger t hge) h.numReaders hge
    exact h.of_ticket hsound hknown hall (fun _ _ _ _ => ⟨rfl, rfl⟩) ⟨rfl, rfl, fun _ _ => rfl⟩
      (fun j => hown j rfl) (hviewed rfl) ⟨le_rfl, fun _ _ => rfl⟩ (fun _ => hdoor) hunclaimed
      fun hlt => absurd hlt hr

theorem loan_of_views {pc : TicketPc} {idx : ℕ} (h : pc.views = some idx) :
    pc.loan = some idx ∧ pc.claims pc = [] := by
  cases pc with
  | held | rejected =>
      cases h
      exact ⟨rfl, rfl⟩
  | _ => cases h

/-- **A read through an open loan keeps the invariant.** -/
theorem SharedInv.step_deref (h : SharedInv cfg who s) {t idx : ℕ} {pc : TicketPc}
    (hviews : (s.ticket t).views = some idx)
    (hacc : Ordered s.mem (s.know (.ticket t)) (.ticket t) .relaxed (derefCode cfg idx (s.ticket t)) m k pc) :
    SharedInv cfg who (s.ticketStep m k t pc) := by
  obtain ⟨hsound, hgrow, hknown⟩ := hacc.known h.sound (h.known (.ticket t))
  obtain ⟨hloan, hcl⟩ := loan_of_views hviews
  obtain ⟨hdoor, hno⟩ := not_door_of_loan hloan
  have hr := h.inside hdoor
  have hr' := h.reader _ hr
  have hmine := hr'.loan t idx rfl hloan
  have hall := hacc.all_le
  cases hacc
  have htook : ∀ k, (s.ticketStep (s.mem.get (.ticket t) (cfg.slot idx)) k t (s.ticket t)).took t =
      some idx := by
    intro k
    rw [SharedState.ticketStep_took, hcl]
    exact hmine
  refine h.of_ticket hsound hknown hall (fun _ _ _ _ => ⟨rfl, rfl⟩)
    ⟨rfl, rfl, fun p hp => Function.update_of_ne hp _ _⟩ (fun j => ?_) (fun j hne => ?_)
    ⟨le_rfl, fun _ _ => rfl⟩ (fun hge => absurd hr (Nat.not_lt.mpr hge)) (fun hpc => absurd hpc hno)
    fun _ => hr'.deref rfl hloan hcl rfl hgrow
  · by_cases hj : j = cfg.slot idx
    · subst hj
      rw [Function.update_self, Tracked.get_reads_self]
    · have hsame := Tracked.get_reads_ne s.mem (p := .ticket t) (q := .ticket t) (.inr hj)
      exact (know_eq (h.own t j) hgrow hknown hsame).trans hsame.symm
  · by_cases hj : j = cfg.slot idx
    · exact ⟨idx, htook _, hj.symm⟩
    · rw [Tracked.get_reads_ne _ (.inr hj)] at hne
      obtain ⟨i, hi, hslot⟩ := h.viewed t j hne
      rw [hmine] at hi
      cases hi
      exact absurd hslot.symm hj

/-- What a call other than an abort leads to. -/
theorem call_shared {c : LoanCall} {pc pc' : TicketPc} (hcall : pc.call c = some pc') (hno : c ≠ .abort) :
    pc'.loan = pc.loan ∧ pc'.stores = none ∧ (pc.AtDoor → pc'.AtDoor) ∧ (pc'.Unclaimed → pc.Unclaimed) ∧
      (∀ k base cursor W, ClaimOk 0 k base cursor W pc') ∧
      ∀ (m : Tracked Loc Actor α) k r len, TicketKnows m k r len pc → TicketKnows m k r len pc' := by
  have hplain : ∀ {m : Tracked Loc Actor α} {k : Knowledge Loc Actor} {r len : ℕ} {pc₁ pc₂ : TicketPc},
      pc₂.loan = pc₁.loan → pc₂.stores = none → TicketKnows m k r len pc₁ → ∀ idx, pc₂.loan = some idx →
        Informed m k len idx ∧ (pc₂.stores = some idx → Acquired m k r idx) := by
    intro m k r len pc₁ pc₂ hl hs hk idx hidx
    refine ⟨(hk.loan (hl ▸ hidx)).1, fun hst => ?_⟩
    rw [hs] at hst
    cases hst
  cases c with
  | abort => exact absurd rfl hno
  | claim | commit | drop =>
      cases pc <;> cases hcall <;>
        exact ⟨rfl, rfl, id, id, fun _ _ _ _ => trivial, fun _ _ _ _ hk => hplain rfl rfl hk⟩

/-- **A call on a ticket keeps the invariant**, unless it is an abort. -/
theorem SharedInv.step_call (h : SharedInv cfg who s) {t : ℕ} {c : LoanCall} {pc : TicketPc}
    (hcall : (s.ticket t).call c = some pc) (hno : c ≠ .abort) :
    SharedInv cfg who { s with ticket := Function.update s.ticket t pc } := by
  obtain ⟨hl, hst, hdoor, hun, hclaim, hknows⟩ := @call_shared α _ _ _ hcall hno
  -- what holds of each ticket
  have hall : ∀ {C : ℕ → TicketPc → Prop}, (∀ q, C q (s.ticket q)) → (C t (s.ticket t) → C t pc) →
      ∀ q, C q (Function.update s.ticket t pc q) := by
    intro C hold hnew q
    by_cases hqt : q = t
    · subst hqt
      rw [Function.update_self]
      exact hnew (hold q)
    · rw [Function.update_of_ne hqt]
      exact hold q
  refine ⟨h.sound, h.known, h.numReaders, h.writeIdx, h.ownWrite, h.push, h.write, h.own, h.silent, h.viewed,
    hall (C := fun q pc => cfg.readers ≤ who q → pc.AtDoor) h.stranger fun hq hge => hdoor (hq hge),
    hall (C := fun q pc => pc.Unclaimed → s.took q = none) h.unclaimed fun hq hpc => hq (hun hpc),
    fun r hr => ?_⟩
  have hr' := h.reader r hr
  refine ⟨hr'.cell, hr'.head, hr'.lag, hr'.holds, ?_, hr'.taken, hr'.once, ?_, hr'.released, ?_⟩
  · refine hr'.pipe.move (hclaim _ _ _ _) (fun idx hs => ?_) fun idx hidx => hl ▸ hidx
    rw [hst] at hs
    cases hs
  · exact fun q i hq hidx => hall (C := fun q pc => ∀ i, who q = r → pc.loan = some i → s.took q = some i)
      (fun q i => hr'.loan q i) (fun hq i hw hidx => hq i hw (hl ▸ hidx)) q i hq hidx
  · exact hall (C := fun q pc => who q = r → TicketKnows s.mem (s.know (.ticket q)) r s.stream.length pc)
      hr'.knows fun hq hw => hknows _ _ _ _ (hq hw)

/-- The producer between two calls. -/
theorem SharedInv.set_push (h : SharedInv cfg who s) {pc : PushPc α}
    (hpc : PushOk cfg (· < cfg.readers) s.cursor s.mem.data s.stream.length pc)
    (hknows : PushKnows cfg s.mem (s.know .producer) s.cursor pc) : SharedInv cfg who { s with push := pc } :=
  ⟨h.sound, h.known, h.numReaders, h.writeIdx, h.ownWrite, hpc, ⟨h.write.own, h.write.published, hknows⟩,
    h.own, h.silent, h.viewed, h.stranger, h.unclaimed, fun r hr =>
      ⟨(h.reader r hr).cell, (h.reader r hr).head, (h.reader r hr).lag, (h.reader r hr).holds,
        (h.reader r hr).pipe, (h.reader r hr).taken, (h.reader r hr).once, (h.reader r hr).loan,
        (h.reader r hr).released, (h.reader r hr).knows⟩⟩

/-- **Every step but an abort keeps the invariant.** -/
theorem SharedInv.step (h : SharedInv cfg who s) {e : Move} (hst : SharedStep cfg who s e s')
    (hno : ∀ t, e ≠ .call t .abort) (hlen : s'.stream.length < u64Size) : SharedInv cfg who s' := by
  cases hst with
  | callPush value _ => exact h.set_push trivial trivial
  | push hacc => exact h.step_push hacc hlen
  | retPush _ => exact h.set_push trivial trivial
  | call t hcall =>
      refine h.step_call hcall ?_
      rintro rfl
      exact hno t rfl
  | access t hacc => exact h.step_access hacc hlen
  | deref t hviews hacc => exact h.step_deref hviews hacc

theorem length_shared_le {e : Move} (hst : SharedStep cfg who s e s') :
    s.stream.length ≤ s'.stream.length := by
  cases hst with
  | push _ => simp
  | _ => exact le_rfl

end Step

/-! ## No race without an abort -/

/-- The invariant holds in every run without aborts. -/
theorem sharedInv_run {s₀ s : SharedState α} {es : List Move} (hinit : (sharedLoans cfg who).init s₀)
    (hrun : Run (sharedLoans cfg who) s₀ es s) (hno : ∀ t, .call t .abort ∉ es)
    (hlen : s.stream.length < u64Size) : SharedInv cfg who s := by
  obtain ⟨data, rfl⟩ := hinit
  have hrun' := hrun.guard_of_mem (P := fun e => ∀ t, e ≠ .call t .abort)
    fun e he t heq => hno t (heq ▸ he)
  refine hrun'.invariant_of_bound (fun s => s.stream.length < u64Size) ?_ ?_ (sharedInv_fresh cfg who data) hlen
  · intro s e t hst hlt
    exact (length_shared_le hst.1).trans_lt hlt
  · intro s e t hs hst hlt
    exact hs.step hst.1 hst.2 hlt

section Clean

variable {s : SharedState α}

/-- The slot write is ordered after every read through a loan. -/
theorem SharedInv.push_clean (h : SharedInv cfg who s) :
    ¬ Races s.mem (s.know .producer) (pushCode cfg s.push) := by
  cases hpc : s.push with
  | writeSlot v w =>
      have hok := h.push
      have hknows := h.write.push
      rw [hpc] at hok hknows
      obtain rfl : w = s.stream.length := hok.1
      rintro (hwrote | ⟨q, hread⟩)
      · exact hwrote (h.write.own _)
      · refine hread (le_antisymm (h.known .producer _) ?_)
        change s.mem.reads q _ ≤ _
        cases q with
        | producer =>
            rw [h.silent]
            exact Nat.zero_le _
        | ticket t =>
            by_cases hzero : s.mem.reads (.ticket t) (cfg.slot s.stream.length) = 0
            · rw [hzero]
              exact Nat.zero_le _
            · obtain ⟨i, htook, hslot⟩ := h.viewed t _ hzero
              have hr : who t < cfg.readers := by
                refine h.inside fun hdoor => ?_
                rw [h.unclaimed t (unclaimed_of_door hdoor)] at htook
                cases htook
              have hr' := h.reader _ hr
              obtain ⟨c, hroom, hc, hle⟩ := hknows _ hr
              have hlt := hr'.taken t i rfl htook
              have hpub := hr'.pipe.published
              have hic : i < c := by
                by_contra hge
                exact past_of_lt hroom i (Nat.not_lt.mp hge) (by omega) hslot
              rw [← hr'.released c hc t i _ rfl htook hic]
              exact hle _
  | _ => exact id

/-- A read through an open loan finds its message, and is ordered after the write of it. -/
theorem SharedInv.deref_clean (h : SharedInv cfg who s) {t idx : ℕ} (hviews : (s.ticket t).views = some idx) :
    s.stream[idx]? = some (s.mem.data (cfg.slot idx)) ∧
      ¬ Races s.mem (s.know (.ticket t)) (derefCode cfg idx (s.ticket t) : Instr Loc α TicketPc) := by
  obtain ⟨hloan, -⟩ := loan_of_views hviews
  have hr := h.inside (not_door_of_loan hloan).1
  have hr' := h.reader _ hr
  obtain ⟨w, hidx, hw, hle⟩ := ((hr'.knows t rfl).loan hloan).1
  have hpin := (hr'.pipe.range t idx rfl hloan).1
  have hlt : idx < s.stream.length := hidx.trans_le hw
  have hlag := hr'.lag
  refine ⟨?_, not_not.mpr (le_antisymm (h.known _ _) ?_)⟩
  · rw [List.getElem?_eq_getElem hlt, cfg.slot_eq_mod]
    exact congrArg some (hr'.holds idx _ hpin (List.getElem?_eq_getElem hlt)).symm
  · change s.mem.writes _ ≤ _
    rw [← h.write.published w hw _ ((past_slot (by omega)).mono hidx le_rfl) fun heq => ?_]
    · exact hle _
    · refine ⟨who t, hr, ?_⟩
      rw [cfg.slot_eq_mod, cfg.slot_eq_mod] at heq
      by_contra hnot
      exact Window.mod_ne_of_window hlt (by omega) heq.symm

/-- A cursor is stored by a ticket that has seen the newest value of it. -/
theorem SharedInv.store_seen (h : SharedInv cfg who s) (t : ℕ) :
    ¬ Blind s.mem (s.know (.ticket t)) (ticketCode (who t) (s.ticket t) : Instr Loc α TicketPc) := by
  have hseen : ∀ idx, (s.ticket t).stores = some idx →
      s.know (.ticket t) (.word (.readIdx (who t))) = (s.mem.word (.readIdx (who t))).top := by
    intro idx hst
    have hr := h.inside (not_door_of_loan (loan_of_stores hst)).1
    have hr' := h.reader _ hr
    obtain rfl := hr'.pipe.storing t idx rfl hst
    refine le_antisymm (h.known _ _) ?_
    rw [hr'.cell, Cell.counter_top]
    exact (((hr'.knows t rfl).loan (loan_of_stores hst)).2 hst).2
  cases hpc : s.ticket t with
  | commitStore idx => exact not_not.mpr (hseen idx (by rw [hpc]; rfl))
  | dropStore idx => exact not_not.mpr (hseen idx (by rw [hpc]; rfl))
  | _ => exact id

end Clean

/-- **Loans do not race**, in any run without an abort: every read through an open loan finds the message
it was claimed for and is ordered after the write of it, the producer takes a slot only when every such
read of it is known to be over, the cursor is stored over its newest value, and no two tickets take one
index. -/
theorem loans_race_free {s₀ s : SharedState α} {es : List Move} (hinit : (sharedLoans cfg who).init s₀)
    (hrun : Run (sharedLoans cfg who) s₀ es s) (hno : ∀ t, .call t .abort ∉ es)
    (hlen : s.stream.length < u64Size) :
    ¬ Races s.mem (s.know .producer) (pushCode cfg s.push) ∧
    (∀ t idx, (s.ticket t).views = some idx → s.stream[idx]? = some (s.mem.data (cfg.slot idx)) ∧
      ¬ Races s.mem (s.know (.ticket t)) (derefCode cfg idx (s.ticket t) : Instr Loc α TicketPc)) ∧
    (∀ t, ¬ Blind s.mem (s.know (.ticket t)) (ticketCode (who t) (s.ticket t) : Instr Loc α TicketPc)) ∧
    ∀ t t' i, who t < cfg.readers → who t' = who t → s.took t = some i → s.took t' = some i → t = t' := by
  have h := sharedInv_run hinit hrun hno hlen
  exact ⟨h.push_clean, fun t idx => h.deref_clean, h.store_seen,
    fun t t' i hr hw hi hi' => (h.reader _ hr).once t t' i rfl hw hi hi'⟩

/-! ## A race after an abort -/

/-- A step, with the newest value for every load; every push is of `v`, and an access of an open loan reads
its slot. -/
def SharedState.next (cfg : Config) (who : ℕ → ℕ) (v : α) (s : SharedState α) : Move → Option (SharedState α)
  | .other => match s.push with
      | .idle => some { s with push := .loadWriteIdx v }
      | .done _ => some { s with push := .idle }
      | pc => do
          let (m, k, pc) ← serve s.mem (s.know .producer) .producer (pushOrder pc) (pushCode cfg pc)
          return s.pushStep m k pc
  | .call t c => do
      let pc ← (s.ticket t).call c
      return { s with ticket := Function.update s.ticket t pc }
  | .access t => match (s.ticket t).views with
      | some idx => do
          let (m, k, pc) ← serve s.mem (s.know (.ticket t)) (.ticket t) .relaxed
            (derefCode cfg idx (s.ticket t))
          return s.ticketStep m k t pc
      | none => do
          let (m, k, pc) ← serve s.mem (s.know (.ticket t)) (.ticket t) (ticketOrder (s.ticket t))
            (ticketCode (who t) (s.ticket t))
          return s.ticketStep m k t pc

theorem shared_of_next {v : α} {s s' : SharedState α} {e : Move} (h : s.next cfg who v e = some s') :
    SharedStep cfg who s e s' := by
  cases e with
  | other =>
      cases hpc : s.push with
      | idle =>
          simp only [SharedState.next, hpc] at h
          cases h
          exact .callPush v hpc
      | done b =>
          simp only [SharedState.next, hpc] at h
          cases h
          exact .retPush hpc
      | _ =>
          simp only [SharedState.next, hpc] at h
          rw [← hpc] at h
          obtain ⟨⟨m, k, pc⟩, hserve, heq⟩ := Option.bind_eq_some_iff.mp h
          cases heq
          exact .push (ordered_of_serve hserve)
  | call t c =>
      obtain ⟨pc, hcall, heq⟩ := Option.bind_eq_some_iff.mp h
      cases heq
      exact .call t hcall
  | access t =>
      cases hviews : (s.ticket t).views with
      | some idx =>
          simp only [SharedState.next, hviews] at h
          obtain ⟨⟨m, k, pc⟩, hserve, heq⟩ := Option.bind_eq_some_iff.mp h
          cases heq
          exact .deref t hviews (ordered_of_serve hserve)
      | none =>
          simp only [SharedState.next, hviews] at h
          obtain ⟨⟨m, k, pc⟩, hserve, heq⟩ := Option.bind_eq_some_iff.mp h
          cases heq
          exact .access t (ordered_of_serve hserve)

deriving instance DecidableEq for PushPc, TicketPc

/-- What `next` plays is a run. -/
theorem run_of_next {v : α} {es : List Move} {s t : SharedState α}
    (h : follow (SharedState.next cfg who v) es s = some t) : Run (sharedLoans cfg who) s es t := by
  obtain ⟨es', hes, hrun⟩ := Run.of_follow (S := sharedLoans cfg who)
    (fun _ e _ hst => ⟨e, rfl, shared_of_next hst⟩) h
  rwa [← (List.map_id es').symm.trans hes]

/-- One message is pushed; ticket 0 claims it. -/
def firstLoan : List Move := List.replicate 8 .other ++ .call 0 .claim :: List.replicate 6 (.access 0)

/-- The read through the first loan of a ring of one slot finds its message. -/
theorem loans_race_free_held : ∃ s : SharedState ℕ, s.ticket 0 = .held 0 ∧
    s.stream[0]? = some (s.mem.data (oneSlot.slot 0)) ∧
    ¬ Races s.mem (s.know (.ticket 0)) (derefCode oneSlot 0 (s.ticket 0) : Instr Loc ℕ TicketPc) := by
  have hplay : (follow (SharedState.next oneSlot (fun _ => 0) 7) firstLoan (.fresh oneSlot fun _ => 0)).map
      (fun s => (s.ticket 0, s.stream)) = some (.held 0, [7]) := by decide +kernel
  obtain ⟨s, hs, heq⟩ := Option.map_eq_some_iff.mp hplay
  obtain ⟨hticket, hstream⟩ := Prod.mk.inj heq
  obtain ⟨-, hread, -⟩ := loans_race_free ⟨_, rfl⟩ (run_of_next hs) (by simp [firstLoan])
    (by rw [hstream]; decide)
  exact ⟨s, hticket, hread 0 0 (by rw [hticket]; rfl)⟩

/-- Ticket 0 reads the message and aborts; ticket 1 claims it again and commits; the next push takes its
slot. -/
def abortedLoan : List Move :=
  firstLoan ++ [Move.access 0, .call 0 .abort, .access 0, .access 0, .call 1 .claim] ++
    List.replicate 6 (Move.access 1) ++ [Move.call 1 .commit] ++ List.replicate 3 (Move.access 1) ++
    List.replicate 4 Move.other

/-- **An abort can race**: the producer takes the slot again without knowing of the read through the
aborted loan. -/
theorem abort_races : ∃ s : SharedState ℕ, Run (sharedLoans oneSlot fun _ => 0) (.fresh oneSlot fun _ => 0)
    abortedLoan s ∧ Races s.mem (s.know .producer) (pushCode oneSlot s.push) := by
  have hplay : (follow (SharedState.next oneSlot (fun _ => 0) 7) abortedLoan (.fresh oneSlot fun _ => 0)).map
      (fun s => (s.push, s.know .producer (.read (.ticket 0) 0), s.mem.reads (.ticket 0) 0)) =
        some (.writeSlot 7 1, 0, 1) := by decide +kernel
  obtain ⟨s, hs, heq⟩ := Option.map_eq_some_iff.mp hplay
  obtain ⟨hpush, hrest⟩ := Prod.mk.inj heq
  obtain ⟨hknow, hreads⟩ := Prod.mk.inj hrest
  refine ⟨s, run_of_next hs, ?_⟩
  rw [hpush]
  refine .inr ⟨.ticket 0, ?_⟩
  change s.know .producer (.read (.ticket 0) 0) ≠ s.mem.reads (.ticket 0) 0
  rw [hknow, hreads]
  decide

end ShmRings.Threads
