import ShmRings.Calls.Touch
import ShmRings.Model.Eventfd

/-!
# Repeating `push_notified`

A call that returns `Ok(false)` has changed nothing. A call that returns an error has published its
message all the same, and has only not signalled it. So a producer that repeats calls under backpressure
alone publishes every value once, and one that repeats them after errors too publishes some twice.

* `signal_cases`; **`push_notified_cases`**: the three outcomes;
* `appears_same`, `appears_published`; `Outbox.step_sends`, `sends_all`;
* **`push_notified_once`**, **`push_repeated_twice`**.
-/

set_option autoImplicit false

namespace ShmRings

open Transition Eventfd

variable {α : Type} {p : Profile} {h : Handle} {f f' : RingFile α} {value : α} {fails : Bool}
  {counter counter' : ℕ} {res : Except ShmRingError Bool}

/-- A signal that returns `Ok` leaves a unit. -/
theorem signal_cases (fails : Bool) (counter : ℕ) :
    (fails = false ∧ (signal fails counter).1 = .ok () ∧ 0 < (signal fails counter).2) ∨
    (fails = true ∧ signal fails counter = (.error .other, counter)) := by
  cases fails with
  | true => exact .inr ⟨rfl, rfl⟩
  | false =>
      by_cases hfull : counter < counterMax
      · have hwrite : write false counter = .ok (counter + 1) := if_pos hfull
        refine .inl ⟨rfl, ?_⟩
        rw [signal, hwrite]
        exact ⟨rfl, Nat.succ_pos counter⟩
      · have hwrite : write false counter = .error .wouldBlock := if_neg hfull
        have hpos : 0 < counter := lt_of_lt_of_le (by decide) (Nat.not_lt.mp hfull)
        refine .inl ⟨rfl, ?_⟩
        rw [signal, hwrite]
        exact ⟨rfl, hpos⟩

/-- **The outcomes of `push_notified`**: nothing has changed, or the message has been published, and
signalled unless the write failed. -/
theorem push_notified_cases (heq : pushNotified p h f value fails counter = .ok (res, f', counter')) :
    (res = .ok false ∧ f' = f ∧ counter' = counter) ∨
    (res = .ok true ∧ fails = false ∧ f' = f.published h value ∧ 0 < counter') ∨
    (res = .error .io ∧ fails = true ∧ f' = f.published h value ∧ counter' = counter) := by
  obtain ⟨⟨pushed, f₁⟩, hpush, heq⟩ := bind_eq_ok.mp heq
  cases pushed with
  | false =>
      cases heq
      exact .inl ⟨rfl, tryPush_published hpush, rfl⟩
  | true =>
      have hfile := tryPush_published hpush
      rw [if_pos rfl] at hfile
      subst hfile
      dsimp only at heq
      rw [if_pos rfl] at heq
      rcases signal_cases fails counter with ⟨hw, hok, hpos⟩ | ⟨hw, herr⟩
      · generalize signal fails counter = answer at heq hok hpos
        obtain ⟨a, c⟩ := answer
        cases hok
        cases heq
        exact .inr (.inl ⟨rfl, hw, rfl, hpos⟩)
      · rw [herr] at heq
        cases heq
        exact .inr (.inr ⟨rfl, hw, rfl, rfl⟩)

theorem wrappingAdd_one_ne (n : ℕ) : wrappingAdd n 1 ≠ n := by
  unfold wrappingAdd u64Size
  omega

theorem appears_same : appears h f f = [] := if_pos rfl

theorem appears_published : appears h f (f.published h value) = [value] := by
  have hmoved : (f.published h value).hdr.writeIdx ≠ f.hdr.writeIdx := wrappingAdd_one_ne _
  have hnew : (f.published h value).slots (h.slot f.hdr.writeIdx) = value := Function.update_self _ _ _
  rw [appears, if_neg hmoved, hnew]

/-- **A step of a producer** that repeats a call under backpressure and goes on after `Ok(true)` publishes
the values it takes from the list, unless it repeats a call whose write has failed. -/
theorem Outbox.step_sends {again : Except ShmRingError Bool → Bool} (hfull : again (.ok false) = true)
    (htrue : again (.ok true) = false) {s t : Outbox α} {e : OutboxStep}
    (hfails : again (.error .io) = false ∨ e ≠ .push true) (hstep : s.next p h again e = some t) :
    t.appeared ++ t.todo = s.appeared ++ s.todo := by
  cases e with
  | others cursors counter =>
      cases hstep
      rfl
  | push fails =>
      simp only [Outbox.next] at hstep
      split at hstep
      · cases hstep
      · rename_i value rest htodo
        split at hstep
        · rename_i res f counter hpush
          cases hstep
          rw [htodo]
          rcases push_notified_cases hpush with
            ⟨rfl, rfl, -⟩ | ⟨rfl, -, rfl, -⟩ | ⟨rfl, rfl, rfl, -⟩
          · rw [appears_same, List.append_nil, if_pos hfull]
          · rw [appears_published, List.append_assoc, htrue]
            rfl
          · have hio : again (.error .io) = false := hfails.resolve_right fun hne => hne rfl
            rw [appears_published, List.append_assoc, hio]
            rfl
        · cases hstep

theorem sends_all {again : Except ShmRingError Bool → Bool} (hfull : again (.ok false) = true)
    (htrue : again (.ok true) = false) {values : List α} {s t : Outbox α} {es : List OutboxStep}
    (hfails : again (.error .io) = false ∨ ∀ e ∈ es, e ≠ .push true)
    (hinit : (sending p h again values).init s) (hrun : Run (sending p h again values) s es t) :
    t.appeared ++ t.todo = values := by
  induction hrun with
  | nil => rw [hinit.1, hinit.2, List.nil_append]
  | @snoc es u e v _ hst ih =>
      have hlast : again (.error .io) = false ∨ e ≠ .push true :=
        hfails.imp_right fun hes => hes e (List.mem_append_right _ (List.mem_singleton_self e))
      have hbefore : again (.error .io) = false ∨ ∀ e ∈ es, e ≠ .push true :=
        hfails.imp_right fun hes e he => hes e (List.mem_append_left _ he)
      rw [Outbox.step_sends hfull htrue hlast hst, ih hbefore]

/-- **`push_notified` publishes before it can fail.** Only `Ok(false)` leaves the ring as it was; `Ok(true)`
leaves exactly one message more and a positive counter; an error leaves exactly one message more and has
not signalled. So a producer that repeats a call under backpressure alone publishes every value exactly
once and in order, whatever the writes do and whatever other parties do between the calls; and one that
repeats it until `Ok(true)` does so as long as no write fails. -/
theorem push_notified_once :
    (∀ (p : Profile) (h : Handle) (f f' : RingFile α) (value : α) (fails : Bool) (counter counter' : ℕ)
      (res : Except ShmRingError Bool),
      pushNotified p h f value fails counter = .ok (res, f', counter') → match res with
        | .ok false => f' = f ∧ counter' = counter
        | .ok true => fails = false ∧ f' = f.published h value ∧ 0 < counter'
        | .error e => e = .io ∧ fails = true ∧ f' = f.published h value ∧ counter' = counter) ∧
    (∀ (p : Profile) (h : Handle) (values : List α) (s t : Outbox α) (es : List OutboxStep),
      (sending p h onFull values).init s → Run (sending p h onFull values) s es t →
      t.appeared ++ t.todo = values) ∧
    ∀ (p : Profile) (h : Handle) (values : List α) (s t : Outbox α) (es : List OutboxStep),
      (sending p h untilTrue values).init s → Run (sending p h untilTrue values) s es t →
      (∀ e ∈ es, e ≠ .push true) → t.appeared ++ t.todo = values := by
  refine ⟨fun p h f f' value fails counter counter' res heq => ?_,
    fun p h values s t es hinit hrun => ?_, fun p h values s t es hinit hrun hes => ?_⟩
  · rcases push_notified_cases heq with ⟨rfl, hf, hc⟩ | ⟨rfl, hw, hf, hc⟩ | ⟨rfl, hw, hf, hc⟩
    · exact ⟨hf, hc⟩
    · exact ⟨hw, hf, hc⟩
    · exact ⟨rfl, hw, hf, hc⟩
  · exact sends_all rfl rfl (.inl rfl) hinit hrun
  · exact sends_all rfl rfl (.inr hes) hinit hrun

/-- An empty ring of two slots and one reader, and 7 and 8 to send. -/
def twoToSend : Outbox ℕ where
  file := ⟨⟨magic, version, 1, 0, fun _ => 0, 1, 0⟩, fun _ => 0⟩
  counter := 0
  todo := [7, 8]
  appeared := []

/-- The write of the first call fails, and both values are in the ring after the second. -/
theorem push_notified_once_failing : ∃ t : Outbox ℕ, t.todo = [] ∧ t.counter = 1 ∧ t.appeared = [7, 8] := by
  have hrun : (follow (fun s e => s.next checked (.fresh 2) onFull e) [.push true, .push false]
      twoToSend).map (fun t => (t.todo, t.counter)) = some ([], 1) := rfl
  obtain ⟨t, ht, hview⟩ := Option.map_eq_some_iff.mp hrun
  simp only [Prod.mk.injEq] at hview
  obtain ⟨htodo, hcounter⟩ := hview
  obtain ⟨es, -, hes⟩ := Run.of_follow (S := sending checked (.fresh 2) onFull [7, 8])
    (fun s e t hst => ⟨e, rfl, hst⟩) ht
  have hsent := push_notified_once.2.1 checked (.fresh 2) [7, 8] twoToSend t es ⟨rfl, rfl⟩ hes
  rw [htodo, List.append_nil] at hsent
  exact ⟨t, htodo, hcounter, hsent⟩

/-- A call whose write fails returns an error and has published 7; repeated, it publishes 7 again. -/
theorem push_repeated_twice :
    (∃ f', pushNotified checked (.fresh 2) twoToSend.file 7 true 0 = .ok (.error .io, f', 0) ∧
      f'.hdr.writeIdx = 1 ∧ twoToSend.file.hdr.writeIdx = 0) ∧
    ∃ es t, Run (sending checked (.fresh 2) untilTrue [7, 8]) twoToSend es t ∧
      t.todo = [8] ∧ t.appeared = [7, 7] := by
  refine ⟨⟨_, rfl, rfl, rfl⟩, ?_⟩
  have hrun : (follow (fun s e => s.next checked (.fresh 2) untilTrue e) [.push true, .push false]
      twoToSend).map (fun t => (t.todo, t.appeared)) = some ([8], [7, 7]) := rfl
  obtain ⟨t, ht, hview⟩ := Option.map_eq_some_iff.mp hrun
  simp only [Prod.mk.injEq] at hview
  obtain ⟨htodo, happeared⟩ := hview
  obtain ⟨es, -, hes⟩ := Run.of_follow (S := sending checked (.fresh 2) untilTrue [7, 8])
    (fun s e t hst => ⟨e, rfl, hst⟩) ht
  exact ⟨es, t, hes, htodo, happeared⟩

end ShmRings
