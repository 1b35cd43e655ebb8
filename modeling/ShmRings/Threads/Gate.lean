import ShmRings.Lib.Tally
import ShmRings.Threads.Solo

/-!
# The loan gate counts the open loans

A claim raises the gate of its reader before it knows whether there is a message, and every way a claim
or a loan can end lowers it once. The gate is a `u64`, so it holds the count modulo `2 ^ 64`.

* `TicketPc.claiming`, `TicketPc.resolving`, `TicketPc.lowers`; `LoanState.unresolved` and the other counts;
* `TicketGate`, **`ticket_gate`**: what an access of a ticket does to its gate;
* `GateInv`, `GateInv.step`; **`gate_counts_loans`**;
* **`gate_wraps`**: `2 ^ 64` claims at once.
-/

set_option autoImplicit false

namespace ShmRings.Threads

open Coherent Transition Tally

variable {α : Type} {cfg : Config} {who : ℕ → ℕ} {rogue : ℕ → Prop} {r : ℕ}

namespace TicketPc

/-- The claim has raised the gate and has no outcome yet; one without a message still has to lower it. -/
def claiming : TicketPc → Bool
  | .loadWriteIdx | .loadCursor _ | .loadBase _ _ | .exchange _ _ | .lowerGate => true
  | _ => false

/-- The loan is marked resolved, and its decrement has not run. -/
def resolving : TicketPc → Bool
  | .resolve => true
  | _ => false

/-- The next access lowers the gate. -/
def lowers : TicketPc → Bool
  | .lowerGate | .dropSkip _ | .resolve => true
  | _ => false

/-- No call of the ticket is running. -/
def settled : TicketPc → Bool
  | .idle | .refused | .held _ | .rejected _ _ | .resolved => true
  | _ => false

/-- The ticket is counted by the gate. -/
def AtGate (pc : TicketPc) : Prop := pc.loan ≠ none ∨ (pc.claiming = true ∨ pc.resolving = true)

end TicketPc

namespace LoanState

variable (s : LoanState α) (who : ℕ → ℕ) (r : ℕ)

/-- The unresolved loans of reader `r`. -/
noncomputable def unresolved : ℕ := tally (fun t pc => who t = r ∧ pc.loan ≠ none) s.ticket

/-- Its claims between raising the gate and their outcome. -/
noncomputable def claiming : ℕ := tally (fun t pc => who t = r ∧ pc.claiming = true) s.ticket

/-- Its loans that are marked resolved and have not lowered the gate. -/
noncomputable def resolving : ℕ := tally (fun t pc => who t = r ∧ pc.resolving = true) s.ticket

end LoanState

/-- What an access does to the gate `d` of its reader. -/
inductive TicketGate (d : ℕ) : TicketPc → TicketPc → ℕ → Prop
  | enter {pc pc'} : ¬ pc.AtGate → pc'.AtGate → TicketGate d pc pc' (wrappingAdd d 1)
  | leave {pc pc'} : pc.AtGate → ¬ pc'.AtGate → TicketGate d pc pc' (wrappingSub d 1)
  | stay {pc pc'} : (pc'.AtGate ↔ pc.AtGate) → TicketGate d pc pc' d

section Access

variable {m m' : Memory Loc α} {pc pc' : TicketPc}

/-- **An access raises the gate when its ticket starts to count, and lowers it when it stops.** -/
theorem ticket_gate (h : TicketAccess r m pc m' pc') :
    TicketGate (m.now (.loanDepth r)) pc pc' (m'.now (.loanDepth r)) := by
  have hstore : ∀ {x : Loc} (v : ℕ), Loc.loanDepth r ≠ x →
      (m.store x v).now (.loanDepth r) = m.now (.loanDepth r) := fun v hx => Memory.store_now_ne _ hx v
  cases h with
  | raise =>
      rw [Memory.store_now_self]
      exact .enter (by simp [TicketPc.AtGate, TicketPc.loan, TicketPc.claiming, TicketPc.resolving])
        (.inr (.inl rfl))
  | lower | leave | resolve =>
      rw [Memory.store_now_self]
      exact .leave (by simp [TicketPc.AtGate, TicketPc.loan, TicketPc.claiming, TicketPc.resolving])
        (by simp [TicketPc.AtGate, TicketPc.loan, TicketPc.claiming, TicketPc.resolving])
  | won | storeCommit | rewind | storeDrop =>
      rw [hstore _ (by simp)]
      exact .stay (by simp [TicketPc.AtGate, TicketPc.loan, TicketPc.claiming, TicketPc.resolving])
  | _ => exact .stay (by simp [TicketPc.AtGate, TicketPc.loan, TicketPc.claiming, TicketPc.resolving])

/-- A call neither opens nor closes a loan. -/
theorem call_gate {c : LoanCall} (h : pc.call c = some pc') : pc'.AtGate ↔ pc.AtGate := by
  cases pc <;> cases c <;> cases h <;>
    simp [TicketPc.AtGate, TicketPc.loan, TicketPc.claiming, TicketPc.resolving]

theorem lowers_gate (h : pc.lowers = true) : pc.AtGate := by
  cases pc with
  | lowerGate => exact .inr (.inl rfl)
  | dropSkip idx => exact .inl (Option.some_ne_none idx)
  | resolve => exact .inr (.inr rfl)
  | _ => cases h

theorem settled_gate (h : pc.settled = true) : pc.AtGate ↔ pc.loan ≠ none := by
  cases pc with
  | idle | refused | held _ | rejected _ _ | resolved =>
      simp [TicketPc.AtGate, TicketPc.claiming, TicketPc.resolving]
  | _ => cases h

end Access

/-! ## The invariant -/

/-- The tickets that the gate of reader `r` counts. -/
abbrev Counted (who : ℕ → ℕ) (r : ℕ) : ℕ → TicketPc → Prop := fun t pc => who t = r ∧ pc.AtGate

/-- The gate of reader `r` is the count, modulo `2 ^ 64`. -/
structure GateInv (cfg : Config) (who : ℕ → ℕ) (r : ℕ) (s : LoanState α) : Prop where
  numReaders : s.mem.now .numReaders = cfg.readers
  finite : (members (Counted who r) s.ticket).Finite
  depth : s.mem.now (.loanDepth r) = tally (Counted who r) s.ticket % u64Size

variable {s t : LoanState α} {e : Move}

theorem gateInv_opened {H : ℕ → Prop} (h : Opened cfg H s) (r : ℕ) : GateInv cfg who r s := by
  have hempty : members (Counted who r) s.ticket = ∅ := by
    ext q
    simp [members, Counted, h.ticket q, TicketPc.AtGate, TicketPc.loan, TicketPc.claiming,
      TicketPc.resolving]
  refine ⟨h.numReaders, ?_, ?_⟩
  · rw [hempty]
    exact Set.finite_empty
  · rw [h.gate r, tally, hempty, Set.ncard_empty, Nat.zero_mod]

/-- A party that moves neither the gate nor a ticket. -/
theorem GateInv.frame (h : GateInv cfg who r s) (hn : t.mem.now .numReaders = s.mem.now .numReaders)
    (hd : t.mem.now (.loanDepth r) = s.mem.now (.loanDepth r)) (ht : t.ticket = s.ticket) :
    GateInv cfg who r t := by
  refine ⟨hn.trans h.numReaders, ?_, ?_⟩
  · rw [ht]
    exact h.finite
  · rw [hd, ht]
    exact h.depth

/-- A ticket that moves, with the gate moved as it should be. -/
theorem GateInv.move (h : GateInv cfg who r s) {q : ℕ} {pc : TicketPc}
    (hn : t.mem.now .numReaders = s.mem.now .numReaders)
    (ht : t.ticket = Function.update s.ticket q pc)
    (hgate : who q = r →
      TicketGate (s.mem.now (.loanDepth r)) (s.ticket q) pc (t.mem.now (.loanDepth r)))
    (hother : who q ≠ r → t.mem.now (.loanDepth r) = s.mem.now (.loanDepth r)) :
    GateInv cfg who r t := by
  refine ⟨hn.trans h.numReaders, ?_, ?_⟩
  · rw [ht]
    exact finite_update h.finite
  · rw [ht]
    by_cases hq : who q = r
    · have hdepth := h.depth
      have hmove := hgate hq
      generalize t.mem.now (.loanDepth r) = d' at hmove
      cases hmove with
      | enter hout hin =>
          rw [tally_enter h.finite (fun hc => hout hc.2) ⟨hq, hin⟩, hdepth]
          exact wrappingAdd_mod _
      | leave hin hout =>
          have hleave := tally_leave h.finite ⟨hq, hin⟩ (x := pc) (fun hc => hout hc.2)
          rw [hdepth, ← hleave, wrappingSub_mod (Nat.succ_pos _)]
          rfl
      | stay hiff =>
          rw [hdepth, tally_stay (P := Counted who r) (and_congr_right fun _ => hiff)]
    · rw [hother hq, h.depth, tally_stay (P := Counted who r)
        ⟨fun hc => absurd hc.1 hq, fun hc => absurd hc.1 hq⟩]

/-- **Every step keeps the count.** -/
theorem GateInv.step (h : GateInv cfg who r s) (hst : LoanStep cfg who rogue s e t) :
    GateInv cfg who r t := by
  cases hst with
  | callPush value _ => exact h.frame rfl rfl rfl
  | push hacc =>
      obtain ⟨vw, hacc⟩ := hacc
      exact h.frame (congrArg Cell.now (push_word hacc (by simp) (by simp)))
        (congrArg Cell.now (push_word hacc (by simp) (by simp))) rfl
  | retPush _ => exact h.frame rfl rfl rfl
  | call q hcall => exact h.move rfl rfl (fun _ => .stay (call_gate hcall)) fun _ => rfl
  | access q hacc =>
      have hacc' := ticket_access hacc
      refine h.move (ticket_now hacc' (by simp) (by simp) (by simp)) rfl ?_ fun hq => ?_
      · rintro rfl
        exact ticket_gate hacc'
      · exact ticket_now hacc' (by simp) (by simp) (by simp [Ne.symm hq])
  | poke q v _ _ =>
      exact h.frame (Memory.store_now_ne _ (by simp) _) (Memory.store_now_ne _ (by simp) _) rfl

/-- The count in its three parts. -/
theorem GateInv.parts (h : GateInv cfg who r s) : tally (Counted who r) s.ticket =
    s.unresolved who r + s.claiming who r + s.resolving who r := by
  have hsplit : Counted who r = fun t (pc : TicketPc) => (who t = r ∧ pc.loan ≠ none) ∨
      ((who t = r ∧ pc.claiming = true) ∨ (who t = r ∧ pc.resolving = true)) := by
    funext t pc
    simp only [Counted, TicketPc.AtGate, and_or_left]
  have hfin := h.finite
  rw [hsplit] at hfin ⊢
  rw [tally_or hfin, tally_or (hfin.subset fun _ => .inr)]
  · exact (Nat.add_assoc _ _ _).symm
  · intro t ht ht'
    cases hpc : s.ticket t <;> simp [hpc, TicketPc.claiming, TicketPc.resolving] at ht ht'
  · intro t ht ht'
    cases hpc : s.ticket t <;>
      simp [hpc, TicketPc.loan, TicketPc.claiming, TicketPc.resolving] at ht ht'

theorem gateInv_reachable (h : Reachable (loans cfg who rogue) s) (r : ℕ) : GateInv cfg who r s :=
  h.invariant (I := fun s => GateInv cfg who r s) (fun _ hs => gateInv_opened hs r)
    fun _ _ _ hs hst => hs.step hst

/-- A pop is rejected for a loan exactly when its gate is up. -/
theorem tryPop_gate_iff {p : Profile} {h : Handle} {f : RingFile α} (hr : r < f.hdr.numReaders)
    (hr' : r < maxReaders) :
    tryPop p h f r = .error (.err (.loanOutstanding r)) ↔ h.loanDepth r ≠ 0 := by
  refine ⟨fun hpop hd => ?_, tryPop_gate hr hr'⟩
  by_cases heq : f.hdr.readIndices r = f.hdr.writeIdx
  · rw [tryPop_none hr hr' hd heq] at hpop
    cases hpop
  · simp only [tryPop, checkReader_ok hr, Handle.loadDepth, if_pos hr', ok_bind, readIdx_ok hr', hd,
      RingHeader.setReadIdx, ne_eq, not_true_eq_false, if_false, if_neg heq] at hpop
    unfold Profile.add at hpop
    split_ifs at hpop <;> cases hpop

/-- **The gate of a reader counts its open loans**, the claims that have no outcome yet and the loans
that have not lowered it, as long as these are fewer than `2 ^ 64`; whoever lowers it finds it raised.
While no call of the reader is running, a pop is rejected exactly when the reader has an open loan. -/
theorem gate_counts_loans (h : Reachable (loans cfg who rogue) s) (hr : r < cfg.readers)
    (hlt : s.unresolved who r + s.claiming who r + s.resolving who r < u64Size) :
    s.mem.now (.loanDepth r) = s.unresolved who r + s.claiming who r + s.resolving who r ∧
    (∀ t, who t = r → (s.ticket t).lowers = true → 0 < s.mem.now (.loanDepth r)) ∧
    ((∀ t, who t = r → (s.ticket t).settled = true) →
      ∀ (p : Profile) (hdl : Handle) (f : RingFile α), Mirrors s.mem f hdl →
        (tryPop p hdl f r = .error (.err (.loanOutstanding r)) ↔
          ∃ t, who t = r ∧ (s.ticket t).loan ≠ none)) := by
  have hinv := gateInv_reachable h r
  have hdepth : s.mem.now (.loanDepth r) = tally (Counted who r) s.ticket := by
    rw [hinv.depth, Nat.mod_eq_of_lt (by rwa [hinv.parts])]
  have hraised : s.mem.now (.loanDepth r) ≠ 0 ↔ ∃ t, who t = r ∧ (s.ticket t).AtGate := by
    rw [hdepth, ← Nat.pos_iff_ne_zero]
    exact tally_pos hinv.finite
  refine ⟨hdepth.trans hinv.parts, fun t ht hlow => ?_, fun hquiet p hdl f hm => ?_⟩
  · exact Nat.pos_of_ne_zero (hraised.mpr ⟨t, ht, lowers_gate hlow⟩)
  · have hreaders : r < f.hdr.numReaders := by
      rw [← hm.numReaders, hinv.numReaders]
      exact hr
    rw [tryPop_gate_iff hreaders (hr.trans_le cfg.readers_le), ← hm.loanDepth, hraised]
    exact exists_congr fun t => and_congr_right fun ht => settled_gate (hquiet t ht)

/-- When the tickets from `n` on are idle, the gate counts at most `n` of them. -/
theorem counted_le {n : ℕ} (hidle : ∀ q, n ≤ q → s.ticket q = .idle) :
    tally (Counted who r) s.ticket ≤ n := by
  have hsub : members (Counted who r) s.ticket ⊆ ↑(Finset.range n) := by
    rintro q ⟨-, hq⟩
    by_contra hn
    rw [hidle q (by simpa using hn)] at hq
    simp [TicketPc.AtGate, TicketPc.loan, TicketPc.claiming, TicketPc.resolving] at hq
  have hcard := Set.ncard_le_ncard hsub (Finset.finite_toSet _)
  rwa [Set.ncard_coe_finset, Finset.card_range] at hcard

/-- While ticket 0 resolves its loan, 1 holds one and 2 has raised the gate, the gate is at 3; when they have come
to rest, only 1 keeps pops out. -/
theorem gate_counts_three : ∃ s t : LoanState ℕ,
    (s.ticket 0 = .resolve ∧ s.ticket 1 = .held 1 ∧ s.ticket 2 = .loadWriteIdx ∧
      s.unresolved (fun _ => 0) 0 + s.claiming (fun _ => 0) 0 + s.resolving (fun _ => 0) 0 = 3) ∧
    t.ticket 0 = .resolved ∧ t.ticket 1 = .held 1 ∧ t.ticket 2 = .refused ∧
      ∃ hdl f, Mirrors t.mem f hdl ∧ tryPop checked hdl f 0 = .error (.err (.loanOutstanding 0)) := by
  have hplay : (twoUnread.play (fun _ => 0) (List.flatten [.call 0 .claim :: List.replicate 6 (.access 0),
      .call 1 .claim :: List.replicate 6 (.access 1),
      [.call 0 .commit, .access 0, .access 0, .call 2 .claim, .access 2, .access 2]])).bind (fun s =>
        (s.play (fun _ => 0) (.access 0 :: List.replicate 4 (.access 2))).map fun t =>
          (s.ticket 0, s.ticket 1, s.ticket 2, s.mem.now (.loanDepth 0), (fun q => s.ticket (q + 3)),
            t.ticket 0, t.ticket 1, t.ticket 2, t.mem.now (.loanDepth 0), fun q => t.ticket (q + 3))) =
      some (.resolve, .held 1, .loadWriteIdx, 3, fun _ => .idle, .resolved, .held 1, .refused, 1,
        fun _ => .idle) := rfl
  obtain ⟨s, hs, hrest⟩ := Option.bind_eq_some_iff.mp hplay
  obtain ⟨t, ht, heq⟩ := Option.map_eq_some_iff.mp hrest
  obtain ⟨h₀, h₁, h₂, hdepth, hidle, h₀', h₁', h₂', hdepth', hidle'⟩ :
      _ ∧ _ ∧ _ ∧ _ ∧ _ ∧ _ ∧ _ ∧ _ ∧ _ ∧ _ := by simpa only [Prod.mk.injEq] using heq
  have hreach : Reachable (loans twoSlots (fun _ => 0) fun _ => False) s :=
    (run_of_play hs).reachable (.init (opened_twoUnread _))
  have hreach' : Reachable (loans twoSlots (fun _ => 0) fun _ => False) t := (run_of_play ht).reachable hreach
  have hfew : ∀ {u : LoanState ℕ}, Reachable (loans twoSlots (fun _ => 0) fun _ => False) u →
      (fun q => u.ticket (q + 3)) = (fun _ => .idle) →
      u.unresolved (fun _ => 0) 0 + u.claiming (fun _ => 0) 0 + u.resolving (fun _ => 0) 0 < u64Size := by
    intro u hu hrest
    have hle : tally (Counted (fun _ => 0) 0) u.ticket ≤ 3 := counted_le fun q hq => by
      obtain ⟨q', rfl⟩ := Nat.exists_eq_add_of_le' hq
      exact congrFun hrest q'
    rw [(gateInv_reachable hu 0).parts] at hle
    exact hle.trans_lt (by decide)
  have hcount := (gate_counts_loans (r := 0) hreach (by decide) (hfew hreach hidle)).1
  have hgate := (gate_counts_loans (r := 0) hreach' (by decide) (hfew hreach' hidle')).2.2
  have hsettled : ∀ q, (t.ticket q).settled = true := by
    intro q
    rcases q with _ | _ | _ | q
    · rw [h₀']
      rfl
    · rw [h₁']
      rfl
    · rw [h₂']
      rfl
    · rw [show t.ticket (q + 3) = .idle from congrFun hidle' q]
      rfl
  have hheld : (t.ticket 1).loan ≠ none := by
    rw [h₁']
    exact Option.some_ne_none 1
  have hm : Mirrors t.mem ⟨⟨magic, version, t.mem.now .numReaders, t.mem.now .writeIdx,
      fun r => t.mem.now (.readIdx r), 1, t.mem.now .totalWritten⟩, t.mem.data⟩
      ⟨2, fun r => t.mem.now (.claimBase r), fun r => t.mem.now (.loanDepth r)⟩ :=
    ⟨rfl, fun _ => rfl, rfl, rfl, fun _ => rfl, fun _ => rfl, rfl⟩
  exact ⟨s, t, ⟨h₀, h₁, h₂, hcount.symm.trans hdepth⟩, h₀', h₁', h₂', _, _, hm,
    (hgate (fun q _ => hsettled q) checked _ _ hm).mpr ⟨1, rfl, hheld⟩⟩

/-! ## Too many claims -/

/-- Any number of claims may have raised the gate and gone no further. -/
theorem claims_pending (n : ℕ) : ∃ s : LoanState ℕ,
    Reachable (loans twoSlots (fun _ => 0) fun _ => False) s ∧
    ∀ t, s.ticket t = if t < n then .loadWriteIdx else .idle := by
  induction n with
  | zero => exact ⟨twoUnread, .init (opened_twoUnread _), fun t => rfl⟩
  | succ n ih =>
      obtain ⟨s, hs, hticket⟩ := ih
      have hidle : s.ticket n = .idle := by rw [hticket, if_neg (lt_irrefl n)]
      have hnum : s.mem.now .numReaders = 1 := (gateInv_reachable hs 0).numReaders
      have h₁ := hs.step (LoanStep.call n (c := .claim) (by rw [hidle]; rfl))
      have hcheck : (ticketCode 0 .checkReader : Instr Loc ℕ TicketPc).exec s.mem =
          some (s.mem, .raiseGate) := by simp [ticketCode, Instr.exec, hnum]
      have h₂ := h₁.step (LoanStep.access n (direct_of_exec (by
        simp only [Function.update_self]
        exact hcheck)))
      have h₃ := h₂.step (LoanStep.access n (direct_of_exec (by
        simp only [LoanState.ticketStep, Function.update_self, ticketCode]
        rfl)))
      refine ⟨_, h₃, fun t => ?_⟩
      simp only [LoanState.ticketStep, Function.update_idem]
      by_cases ht : t = n
      · subst ht
        rw [Function.update_self, if_pos (Nat.lt_succ_self t)]
      · rw [Function.update_of_ne ht, hticket]
        exact if_congr (by omega) rfl rfl

/-- **With `2 ^ 64` claims running at once the gate is down.** -/
theorem gate_wraps : ∃ s : LoanState ℕ, Reachable (loans twoSlots (fun _ => 0) fun _ => False) s ∧
    s.mem.now (.loanDepth 0) = 0 ∧
    s.unresolved (fun _ => 0) 0 + s.claiming (fun _ => 0) 0 + s.resolving (fun _ => 0) 0 = u64Size := by
  obtain ⟨s, hs, hticket⟩ := claims_pending u64Size
  have hinv := gateInv_reachable hs 0
  have hmembers : members (Counted (fun _ => 0) 0) s.ticket = ↑(Finset.range u64Size) := by
    ext t
    simp only [members, Counted, Set.mem_ofPred_eq, true_and, hticket, Finset.coe_range, Set.mem_Iio]
    split_ifs with ht <;>
      simp [ht, TicketPc.AtGate, TicketPc.loan, TicketPc.claiming, TicketPc.resolving]
  have htally : tally (Counted (fun _ => 0) 0) s.ticket = u64Size := by
    rw [tally, hmembers, Set.ncard_coe_finset, Finset.card_range]
  refine ⟨s, hs, ?_, hinv.parts.symm.trans htally⟩
  rw [hinv.depth, htally, Nat.mod_self]

end ShmRings.Threads
