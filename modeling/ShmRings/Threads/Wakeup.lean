import ShmRings.Calls.Touch
import ShmRings.Model.Notify

/-!
# Wakeups

A read of the eventfd drains the units that other consumers wait for. No wakeup is lost as long as a
read only takes units while the producer is about to signal again, or while no other consumer in `wait`
has an unread message; otherwise one is.

* `Waits`, `Lost`, `Harmless`; `Roused`, `Roused.step`;
* **`no_lost_wakeup`**; `drain_strands`: what any other read does;
* **`wakeup_lost`**: a run with two consumers in which one sleeps on an unread message.
-/

set_option autoImplicit false

namespace ShmRings.Threads

open Transition

variable {α : Type} {p : Profile} {h : Handle} {hs : ℕ → Handle} {s t : NotifyState α} {e : NotifyStep α}

/-- Consumer `r` is in `wait` and has an unread message. -/
def Waits (s : NotifyState α) (r : ℕ) : Prop :=
  (s.consumer r = .tryWait ∨ s.consumer r = .poll) ∧
    s.file.hdr.readIndices r < s.file.hdr.writeIdx

/-- A consumer sleeps on an unread message, and nobody is about to wake it. -/
def Lost (s : NotifyState α) : Prop :=
  s.producer = .outside ∧ s.counter = 0 ∧
    ∃ r, s.consumer r = .poll ∧ s.file.hdr.readIndices r < s.file.hdr.writeIdx

/-- A read that takes units does so while the producer is about to signal, or while no other consumer
in `wait` has an unread message. -/
def Harmless (s : NotifyState α) (e : NotifyStep α) (_ : NotifyState α) : Prop :=
  ∀ r, e = .tryWait r → s.counter ≠ 0 → s.producer = .signal ∨ ∀ q, q ≠ r → ¬ Waits s q

/-- With the producer outside and no units, no consumer in `wait` has an unread message. -/
def Roused (s : NotifyState α) : Prop :=
  s.producer = .outside → s.counter = 0 → ∀ r, ¬ Waits s r

theorem waits_goto {r q : ℕ} {pc : ConsumerPc} {f : RingFile α} {n : ℕ} :
    Waits { s.goto r pc with file := f, counter := n } q ↔
      ((if q = r then pc else s.consumer q) = .tryWait ∨ (if q = r then pc else s.consumer q) = .poll) ∧
        f.hdr.readIndices q < f.hdr.writeIdx := by
  change ((Function.update s.consumer r pc q = _ ∨ Function.update s.consumer r pc q = _) ∧ _) ↔ _
  rw [Function.update_apply]

/-- A consumer that leaves `wait`, and one that stays in it, add none to those with an unread
message. -/
theorem waits_of_goto {r q : ℕ} {pc : ConsumerPc} {f : RingFile α} {n : ℕ}
    (h : Waits { s.goto r pc with file := f, counter := n } q)
    (hf : q ≠ r → f.hdr.readIndices q = s.file.hdr.readIndices q)
    (hw : f.hdr.writeIdx = s.file.hdr.writeIdx)
    (hr : q = r → pc = .tryWait ∨ pc = .poll →
      f.hdr.readIndices q < f.hdr.writeIdx → Waits s q) : Waits s q := by
  rw [waits_goto] at h
  obtain ⟨hpc, hlt⟩ := h
  by_cases hq : q = r
  · rw [if_pos hq] at hpc
    exact hr hq hpc hlt
  · rw [if_neg hq] at hpc
    rw [hf hq, hw] at hlt
    exact ⟨hpc, hlt⟩

theorem Roused.step (hr : Roused s) (hc : Harmless s e t) (hstep : s.next p h hs e = some t) :
    Roused t := by
  intro hout hzero q hq
  cases e with
  | tryPush value =>
      simp only [NotifyState.next] at hstep
      split_ifs at hstep with hprod
      split at hstep
      · cases hstep
        cases hout
      · rename_i f hpush
        cases hstep
        cases tryPush_published hpush
        exact hr hprod hzero q hq
      · cases hstep
  | signal =>
      simp only [NotifyState.next] at hstep
      split_ifs at hstep
      cases hstep
      exact absurd hzero (Nat.succ_ne_zero _)
  | popBlocking r =>
      simp only [NotifyState.next] at hstep
      split_ifs at hstep
      cases hstep
      exact hr hout hzero q (waits_of_goto hq (fun _ => rfl) rfl fun _ hpc => by simp at hpc)
  | tryPop r =>
      simp only [NotifyState.next] at hstep
      split_ifs at hstep
      split at hstep
      · rename_i v f hpop
        cases hstep
        obtain ⟨hw, hother, -⟩ := tryPop_words hpop
        exact hr hout hzero q (waits_of_goto hq (hother q) hw fun _ hpc => by simp at hpc)
      · rename_i f hpop
        cases hstep
        obtain ⟨hw, hother, hempty⟩ := tryPop_words hpop
        refine hr hout hzero q (waits_of_goto hq (hother q) hw fun hqr _ hlt => ?_)
        subst hqr
        rw [hempty rfl, hw] at hlt
        exact absurd hlt (lt_irrefl _)
      · cases hstep
        exact hr hout hzero q (waits_of_goto hq (fun _ => rfl) rfl fun _ hpc => by simp at hpc)
      · cases hstep
  | tryWait r =>
      simp only [NotifyState.next] at hstep
      split_ifs at hstep with hpc hcount
      · cases hstep
        refine hr hout hcount q (waits_of_goto hq (fun _ => rfl) rfl fun hqr _ hlt => ?_)
        exact ⟨.inl (hqr ▸ hpc), hlt⟩
      · cases hstep
        rcases hc r rfl hcount with hsignal | hnone
        · change s.producer = .outside at hout
          rw [hsignal] at hout
          cases hout
        · have hqr : q ≠ r := by
            rintro rfl
            rw [waits_goto, if_pos rfl] at hq
            simp at hq
          exact hnone q hqr (waits_of_goto hq (fun _ => rfl) rfl fun h => absurd h hqr)
  | pollReady r =>
      simp only [NotifyState.next] at hstep
      split_ifs at hstep with hpc
      cases hstep
      exact absurd hzero hpc.2
  | pollInterrupted r =>
      simp only [NotifyState.next] at hstep
      split_ifs at hstep with hpc
      cases hstep
      refine hr hout hzero q (waits_of_goto hq (fun _ => rfl) rfl fun hqr _ hlt => ?_)
      exact ⟨.inr (hqr ▸ hpc), hlt⟩

theorem roused_of_outside (h : ∀ r, s.consumer r = .outside) : Roused s := by
  intro _ _ r hr
  rcases hr.1 with hpc | hpc <;> rw [h r] at hpc <;> cases hpc

/-- **No wakeup is lost** in a run whose reads are harmless: nobody sleeps on an unread message while the
producer is outside `push_notified` and the counter is 0. -/
theorem no_lost_wakeup (hreach : Reachable ((notifying p h hs).guard Harmless) s) : ¬ Lost s := by
  have hinv : Roused s := by
    refine Reachable.invariant (I := Roused) ?_ ?_ hreach
    · rintro s ⟨-, hs⟩
      exact roused_of_outside hs
    · rintro s e t hr ⟨hstep, hc⟩
      exact hr.step hc hstep
  rintro ⟨hout, hzero, r, hpoll, hlt⟩
  exact hinv hout hzero r ⟨.inr hpoll, hlt⟩

/-- An empty ring of two slots and two readers, with everybody outside. -/
def twoSleepers : NotifyState ℕ where
  file := ⟨⟨magic, version, 2, 0, fun _ => 0, 1, 0⟩, fun _ => 0⟩
  counter := 0
  producer := .outside
  consumer := fun _ => .outside

/-- The steps but the reads that take units. -/
def drainless (s : NotifyState ℕ) (e : NotifyStep ℕ) : Option (NotifyState ℕ) :=
  match e with
  | .tryWait r => if s.counter = 0 then s.next checked (.fresh 2) (fun _ => .fresh 2) (.tryWait r) else none
  | e => s.next checked (.fresh 2) (fun _ => .fresh 2) e

theorem harmless_of_drainless {s t : NotifyState ℕ} {e : NotifyStep ℕ} (h : drainless s e = some t) :
    ((notifying checked (.fresh 2) fun _ => .fresh 2).guard Harmless).step s e t := by
  cases e with
  | tryWait r =>
      simp only [drainless] at h
      split_ifs at h with hzero
      exact ⟨h, fun _ _ hne => absurd hzero hne⟩
  | _ => exact ⟨h, fun _ he => by cases he⟩

/-- Consumer 1 sleeps, and the push signals it. -/
theorem no_lost_wakeup_signalled : ∃ s : NotifyState ℕ, s.consumer 1 = .poll ∧
    s.file.hdr.readIndices 1 < s.file.hdr.writeIdx ∧ ¬ Lost s := by
  have hrun : (follow drainless [.popBlocking 1, .tryPop 1, .tryWait 1, .tryPush 7, .signal]
      twoSleepers).map (fun s => (s.consumer 1, s.file.hdr.readIndices 1, s.file.hdr.writeIdx)) =
        some (.poll, 0, 1) := rfl
  obtain ⟨s, hs, hview⟩ := Option.map_eq_some_iff.mp hrun
  simp only [Prod.mk.injEq] at hview
  obtain ⟨hpoll, hcursor, hwrite⟩ := hview
  obtain ⟨es, -, hes⟩ := Run.of_follow (fun _ e _ hst => ⟨e, rfl, harmless_of_drainless hst⟩) hs
  exact ⟨s, hpoll, by omega, no_lost_wakeup (hes.reachable (.init ⟨rfl, fun _ => rfl⟩))⟩

/-- A read that is not harmless strands a consumer: at once, or at its next read. -/
theorem drain_strands {r : ℕ} (hc : ¬ Harmless s (.tryWait r) t)
    (hstep : s.next p h hs (.tryWait r) = some t) :
    Lost t ∨ ∃ q u, t.next p h hs (.tryWait q) = some u ∧ Lost u := by
  simp only [Harmless, not_forall, not_or, not_not] at hc
  obtain ⟨r', hr', hcount, hsignal, q, hqr, hpc, hlt⟩ := hc
  cases hr'
  have hout : s.producer = .outside := by
    cases hprod : s.producer with
    | outside => rfl
    | signal => exact absurd hprod hsignal
  simp only [NotifyState.next, if_neg hcount] at hstep
  split_ifs at hstep
  cases hstep
  have hpc' : (s.goto r .tryPop).consumer q = s.consumer q := Function.update_of_ne hqr _ _
  rcases hpc with hpc | hpc
  · -- it has not read yet: its read fails and it goes to `poll`
    refine .inr ⟨q, NotifyState.goto { s.goto r .tryPop with counter := 0 } q .poll, ?_, hout, rfl, q,
      Function.update_self _ _ _, hlt⟩
    rw [NotifyState.next, if_pos (hpc'.trans hpc), if_pos rfl]
  · exact .inl ⟨hout, rfl, q, hpc'.trans hpc, hlt⟩

/-- Two consumers call, find nothing and sleep; the push wakes consumer 0, whose read takes the unit, and
consumer 1 sleeps on. -/
theorem wakeup_lost : ∃ s : NotifyState ℕ, Reachable (notifying checked (.fresh 2) fun _ => .fresh 2) s ∧
    Lost s ∧ s.consumer 1 = .poll ∧ s.file.hdr.readIndices 1 = 0 ∧ s.file.hdr.writeIdx = 1 := by
  have hrun : (follow (fun s e => s.next checked (.fresh 2) (fun _ => .fresh 2) e)
      [.popBlocking 0, .popBlocking 1, .tryPop 0, .tryPop 1, .tryWait 0, .tryWait 1, .tryPush 7, .signal,
        .pollReady 0, .tryWait 0] twoSleepers).map (fun s => (s.producer, s.counter, s.consumer 1,
          s.file.hdr.readIndices 1, s.file.hdr.writeIdx)) = some (.outside, 0, .poll, 0, 1) := rfl
  obtain ⟨s, hs, hview⟩ := Option.map_eq_some_iff.mp hrun
  simp only [Prod.mk.injEq] at hview
  obtain ⟨hout, hzero, hpoll, hcursor, hwrite⟩ := hview
  obtain ⟨es, -, hes⟩ := Run.of_follow (S := notifying checked (.fresh 2) fun _ => .fresh 2)
    (fun s e t hst => ⟨e, rfl, hst⟩) hs
  refine ⟨s, hes.reachable (.init ⟨rfl, fun _ => rfl⟩), ⟨hout, hzero, 1, hpoll, by omega⟩, hpoll, hcursor,
    hwrite⟩

end ShmRings.Threads
