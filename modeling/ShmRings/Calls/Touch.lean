import ShmRings.Calls.Spec

/-!
# What a call can change in the file

In any state, and in either build: a call that returns has published a message, moved one cursor, or left
the file as it was.

* `RingFile.published`, **`tryPush_published`**, **`tryPop_advanced`**, `tryPop_words`;
* `Touch`; `tryPush_touch`, `tryPop_touch`, `commit_touch`, `drop_touch`;
* **`call_touch`**.
-/

set_option autoImplicit false

namespace ShmRings

variable {α : Type}

/-- The changes of a ring file. -/
inductive Touch (f : RingFile α) : RingFile α → Prop
  | same : Touch f f
  | publish {j : ℕ} {value : α} {next : ℕ} : next < u64Size →
      Touch f ⟨{ f.hdr with writeIdx := next, totalWritten := wrappingAdd f.hdr.totalWritten 1 },
        Function.update f.slots j value⟩
  | advance {r next : ℕ} : r < maxReaders → next < u64Size →
      Touch f ⟨{ f.hdr with readIndices := Function.update f.hdr.readIndices r next }, f.slots⟩

variable {p : Profile} {w w' : World α} {c : Call α} {h h' : Handle} {f f' : RingFile α} {r : ℕ}
  {l l' : Loan}

theorem Profile.add_lt {a b n : ℕ} (h : p.add a b = .ok n) : n < u64Size :=
  p.add_ok h ▸ wrappingAdd_lt a b

theorem setReadIdx_touch {hdr : RingHeader} {a b next : ℕ} (hnext : p.add a b = .ok next)
    (heq : f.hdr.setReadIdx r next = .ok hdr) : Touch f ⟨hdr, f.slots⟩ := by
  unfold RingHeader.setReadIdx at heq
  split_ifs at heq with hr
  cases heq
  exact .advance hr (Profile.add_lt hnext)

/-- The file with one message more: the slot, `write_idx` and the total. -/
def RingFile.published (h : Handle) (f : RingFile α) (value : α) : RingFile α where
  hdr := { f.hdr with
    writeIdx := wrappingAdd f.hdr.writeIdx 1
    totalWritten := wrappingAdd f.hdr.totalWritten 1 }
  slots := Function.update f.slots (h.slot f.hdr.writeIdx) value

/-- **What a push leaves**, in any ring and either build. -/
theorem tryPush_published {value : α} {b : Bool} (heq : tryPush p h f value = .ok (b, f')) :
    f' = if b then f.published h value else f := by
  simp only [tryPush, bind_eq_ok] at heq
  obtain ⟨min, -, lag, -, heq⟩ := heq
  split_ifs at heq
  · cases heq
    rfl
  · obtain ⟨next, hnext, heq⟩ := bind_eq_ok.mp heq
    cases heq
    cases p.add_ok hnext
    rfl

/-- **What a pop leaves**, in any ring and either build. -/
theorem tryPop_advanced {v : Option α} (heq : tryPop p h f r = .ok (v, f')) :
    (v = none ∧ f' = f ∧ f.hdr.readIndices r = f.hdr.writeIdx) ∨
    (v = some (f.slots (h.slot (f.hdr.readIndices r))) ∧ r < maxReaders ∧
      f' = f.advance r (wrappingAdd (f.hdr.readIndices r) 1)) := by
  simp only [tryPop, bind_eq_ok] at heq
  obtain ⟨-, -, depth, -, heq⟩ := heq
  split_ifs at heq
  · cases heq
  · simp only [bind_eq_ok] at heq
    obtain ⟨r', hread, heq⟩ := heq
    unfold RingHeader.readIdx at hread
    split_ifs at hread with hr
    cases hread
    split_ifs at heq with hempty
    · cases heq
      exact .inl ⟨rfl, rfl, hempty⟩
    · simp only [bind_eq_ok] at heq
      obtain ⟨next, hnext, hdr, hset, heq⟩ := heq
      unfold RingHeader.setReadIdx at hset
      rw [if_pos hr] at hset
      cases hset
      cases heq
      cases p.add_ok hnext
      exact .inr ⟨rfl, hr, rfl⟩

/-- A pop publishes nothing and moves no other cursor; it finds nothing only at the end of the stream. -/
theorem tryPop_words {v : Option α} (heq : tryPop p h f r = .ok (v, f')) :
    f'.hdr.writeIdx = f.hdr.writeIdx ∧
      (∀ q, q ≠ r → f'.hdr.readIndices q = f.hdr.readIndices q) ∧
      (v = none → f'.hdr.readIndices r = f.hdr.writeIdx) := by
  rcases tryPop_advanced heq with ⟨-, rfl, hempty⟩ | ⟨rfl, -, rfl⟩
  · exact ⟨rfl, fun _ _ => rfl, fun _ => hempty⟩
  · exact ⟨rfl, fun q hq => Function.update_of_ne hq _ _, fun hv => by cases hv⟩

theorem tryPush_touch {value : α} {b : Bool} (heq : tryPush p h f value = .ok (b, f')) :
    Touch f f' := by
  rw [tryPush_published heq]
  cases b with
  | false => exact .same
  | true => exact .publish (wrappingAdd_lt _ _)

theorem tryPop_touch {v : Option α} (heq : tryPop p h f r = .ok (v, f')) : Touch f f' := by
  rcases tryPop_advanced heq with ⟨-, rfl, -⟩ | ⟨-, hr, rfl⟩
  · exact .same
  · exact .advance hr (wrappingAdd_lt _ _)

/-- A loan that is committed is still of the same message. -/
theorem commit_touch (heq : l.commit p h f = .ok (l', h', f')) :
    Touch f f' ∧ l'.readerId = l.readerId ∧ l'.index = l.index := by
  unfold Loan.commit at heq
  split_ifs at heq
  · cases heq
    exact ⟨.same, rfl, rfl⟩
  · simp only [bind_eq_ok] at heq
    obtain ⟨cursor, -, heq⟩ := heq
    split_ifs at heq
    · cases heq
    · simp only [bind_eq_ok] at heq
      obtain ⟨next, hnext, hdr, hset, ⟨l₁, h₁⟩, hresolve, heq⟩ := heq
      simp only [Loan.resolve, bind_eq_ok] at hresolve
      obtain ⟨h₂, -, hres⟩ := hresolve
      cases hres
      cases heq
      exact ⟨setReadIdx_touch hnext hset, rfl, rfl⟩

theorem drop_touch (heq : l.drop p h f = .ok (h', f')) : Touch f f' := by
  unfold Loan.drop at heq
  split_ifs at heq
  · cases heq
    exact .same
  · obtain ⟨cursor, -, heq⟩ := bind_eq_ok.mp heq
    split_ifs at heq
    · simp only [bind_eq_ok] at heq
      obtain ⟨next, hnext, hdr, hset, ⟨l₁, h₁⟩, -, heq⟩ := heq
      cases heq
      exact setReadIdx_touch hnext hset
    · simp only [bind_eq_ok] at heq
      obtain ⟨hdr, hset, ⟨l₁, h₁⟩, -, heq⟩ := heq
      cases hset
      cases heq
      exact .same

theorem apply_touch {a : Reply α} (happly : w.apply p c = .ok (a, w')) : Touch w.file w'.file := by
  cases c with
  | openExisting k | totalWritten k =>
      cases happly
      exact .same
  | tryPush k v =>
      obtain ⟨⟨b, f⟩, hpush, heq⟩ := bind_eq_ok.mp happly
      cases heq
      exact tryPush_touch hpush
  | tryPop k r =>
      obtain ⟨⟨v, f⟩, hpop, heq⟩ := bind_eq_ok.mp happly
      cases heq
      exact tryPop_touch hpop
  | peek k r | len k r | isEmpty k r | slowestLag k =>
      obtain ⟨x, -, heq⟩ := bind_eq_ok.mp happly
      cases heq
      exact .same
  | claim k r =>
      obtain ⟨⟨loan, h⟩, -, heq⟩ := bind_eq_ok.mp happly
      cases loan with
      | none | some l =>
          cases heq
          exact .same
  | commit i =>
      simp only [World.apply] at happly
      split at happly
      · cases happly
        exact .same
      · obtain ⟨⟨l', h, f⟩, hcommit, heq⟩ := bind_eq_ok.mp happly
        cases heq
        exact (commit_touch hcommit).1
  | abort i =>
      simp only [World.apply] at happly
      split at happly
      · cases happly
        exact .same
      · obtain ⟨h, -, heq⟩ := bind_eq_ok.mp happly
        cases heq
        exact .same
  | drop i =>
      simp only [World.apply] at happly
      split at happly
      · cases happly
        exact .same
      · obtain ⟨⟨h, f⟩, hdrop, heq⟩ := bind_eq_ok.mp happly
        cases heq
        exact drop_touch hdrop

/-- **A call changes the file in one of the ways of `Touch`.** -/
theorem call_touch {a : Except ShmRingError (Reply α)} (hcall : w.call p c = .ok (a, w')) :
    Touch w.file w'.file := by
  unfold World.call at hcall
  split at hcall
  · rename_i reply u happly
    cases hcall
    exact apply_touch happly
  · cases hcall
    exact .same
  · cases hcall

end ShmRings
