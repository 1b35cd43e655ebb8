import ShmRings.Lib.Mortal
import ShmRings.Threads.Linear
import ShmRings.Threads.Orderings
import ShmRings.Threads.Rogue

/-!
# Parties that stop anywhere

A party may stop between any two of its accesses and be replaced by a fresh handle.

* `Mode.mortal`; `abs_replacePush`, `abs_replacePop`; **`crash_linearizable`**: a call that is cut off has
  taken effect or never does, and the file is the queue that the effects have left;
* `Ledger`, `ledger`, `LedgerInv`, `LedgerInv.step`: what the calls of the producer have come to;
  `given_step`, `given_run`: what a reader has been given;
* **`delivered`**: in every mode, each message at most once and in order; `delivered_ordered`.
-/

set_option autoImplicit false

namespace ShmRings.Threads

open Coherent Transition Atomic

variable {α : Type} {cfg : Config}

/-! ## Calls that are cut off -/

/-- Loads return the newest value, and a party may stop anywhere. -/
def Mode.mortal : Mode := ⟨True, True, fun _ => False⟩

/-- The invariant does not depend on what else may happen, only on whose cursors are overwritten. -/
theorem Inv.of_honest {md md' : Mode} {s : State α} (h : Inv cfg md s)
    (hon : ∀ r, Honest cfg md' r ↔ Honest cfg md r) : Inv cfg md' s where
  numReaders := h.numReaders
  gate := h.gate
  idle := h.idle
  writeIdx := h.writeIdx
  own := h.own
  push := (funext fun r => propext (hon r) : Honest cfg md' = Honest cfg md) ▸ h.push
  reader r hr := h.reader r ((hon r).mp hr)

/-- Nobody stops. -/
def Mode.whole (md : Mode) : Mode := ⟨md.sc, False, md.rogue⟩

/-- **A step of a party that lives, or the end of one.** -/
theorem Step.whole_or_replaced {md : Mode} {s t : State α} {e : Option (Event Party (Op α) (Answer α))}
    (hst : Step cfg md s e t) : Step cfg md.whole s e t ∨ e = none ∧ md.replace ∧
      (t = { s with push := .idle, view := Function.update s.view .producer s.mem.newest } ∨
        ∃ r, t = s.popStep s.mem s.mem.newest r .idle) := by
  cases hst with
  | callPush value hidle => exact .inl (.callPush value hidle)
  | push hacc => exact .inl (.push hacc)
  | retPush hdone => exact .inl (.retPush hdone)
  | callPop hr hidle => exact .inl (.callPop hr hidle)
  | pop hacc => exact .inl (.pop hacc)
  | retPop hres => exact .inl (.retPop hres)
  | replacePush hmd => exact .inr ⟨rfl, hmd, .inl rfl⟩
  | replacePop r hmd => exact .inr ⟨rfl, hmd, .inr ⟨r, rfl⟩⟩
  | poke r v hrogue hv => exact .inl (.poke r v hrogue hv)

section Abs

variable {s t : State α} {e : Option (Event Party (Op α) (Answer α))}

/-- A producer that stops gives up its call. -/
theorem abs_replacePush : abs cfg
    { s with push := .idle, view := Function.update s.view .producer s.mem.newest } =
      (abs cfg s).move (abs cfg s).obj .producer .idle := abs_of_push rfl rfl

/-- A reader that stops gives up its call. -/
theorem abs_replacePop (r : ℕ) : abs cfg (s.popStep s.mem s.mem.newest r .idle) =
    (abs cfg s).move (abs cfg s).obj (.reader r) .idle := by
  have h : abs cfg (s.popStep s.mem s.mem.newest r .idle) = (abs cfg s).move _ (.reader r) _ :=
    abs_of_pop (fun _ _ => rfl) (fun q hq => State.popStep_pop_ne hq) rfl
  rwa [State.popStep_pop] at h

/-- **Every step is matched**, by an effect or by a stop. -/
theorem mortal_step (h : Inv cfg .mortal s) (hlen : s.stream.length < u64Size)
    (hst : Step cfg .mortal s e t) :
    ∃ es, Run (mortal (broadcast cfg)) (abs cfg s) es (abs cfg t) ∧ visible es = e.toList := by
  have hseq : Inv cfg .seq s := h.of_honest fun _ => Iff.rfl
  rcases hst.whole_or_replaced with hlive | ⟨rfl, -, rfl | ⟨r, rfl⟩⟩
  · obtain ⟨es, hes, hvis⟩ := abs_step hseq hlen hlive
    exact ⟨es, mortal_of_atomic hes, hvis⟩
  · rw [abs_replacePush]
    exact ⟨[none], .single (Mortal.stop Party.producer), rfl⟩
  · rw [abs_replacePop]
    exact ⟨[none], .single (Mortal.stop (Party.reader r)), rfl⟩

end Abs

/-- **Crashes do not break linearizability.** The calls and returns of a run in which parties stop anywhere are
those of the broadcast queue with every call at one instant, unless it is cut off before that instant; and
what the run leaves in the file is the queue after these effects: `write_idx` counts its messages, and what a
reader has not read is in the slots. -/
theorem crash_linearizable {s t : State α} {es : List (Option (Event Party (Op α) (Answer α)))}
    (hinit : (machine cfg .mortal).init s) (hrun : Run (machine cfg .mortal) s es t)
    (hlen : t.stream.length < u64Size) :
    (∃ fs, Run (mortal (broadcast cfg)) (Conf.start (broadcast cfg)) fs (abs cfg t) ∧
      visible fs = visible es) ∧
    t.mem.now .writeIdx = t.stream.length ∧
    ∀ r < cfg.readers, t.cursor r ≤ t.stream.length ∧
      ∀ i, t.cursor r ≤ i → i < t.stream.length → t.stream[i]? = some (t.mem.data (cfg.slot i)) := by
  obtain ⟨data, rfl⟩ := hinit
  have hstart : abs cfg (State.fresh cfg data) = Conf.start (broadcast cfg) := by
    have hstat : absStatus cfg (State.fresh cfg data) = fun _ => .idle := by
      funext p
      cases p <;> rfl
    rw [abs, hstat]
    rfl
  have hsim : Simulates (machine cfg .mortal) (mortal (broadcast cfg))
      (fun s : State α => s.stream.length < u64Size) fun s c => Inv cfg .mortal s ∧ c = abs cfg s := by
    refine ⟨fun s e t hst hlt => (length_stream_le hst).trans_lt hlt, ?_⟩
    rintro s e t c ⟨hinv, rfl⟩ hst hlt
    obtain ⟨es, hes, hvis⟩ := mortal_step hinv ((length_stream_le hst).trans_lt hlt) hst
    exact ⟨es, _, hes, hvis, hinv.step ⟨0, cfg.readers_pos, id⟩ hst hlt, rfl⟩
  obtain ⟨fs, c, hfs, hvis, hinv, rfl⟩ := hsim.run ⟨inv_fresh cfg .mortal data, hstart.symm⟩ hrun hlen
  refine ⟨⟨fs, hfs, hvis⟩, congrArg Cell.now hinv.writeIdx, fun r hr => ?_⟩
  have hr' := hinv.reader r ⟨hr, id⟩
  refine ⟨hr'.cursor_le, fun i hlo hhi => ?_⟩
  have hi := List.getElem?_eq_getElem hhi
  rw [cfg.slot_eq_mod, hr'.holds i _ hlo hi]
  exact hi

/-- The producer stops between the publication of its message and its return. -/
theorem run_cut (md : Mode) (hmd : md.replace) : ∃ t : State ℕ,
    Run (machine oneSlot md) (State.fresh oneSlot fun _ => 0)
      ([some (.call .producer (.push 7))] ++ List.replicate 6 none) t ∧ t.stream = [7] ∧ t.push = .idle ∧
        t.cursor 0 = 0 := by
  have h₀ := Run.single (S := machine oneSlot md) (s := State.fresh oneSlot fun _ => 0) (.callPush 7 rfl)
  have h₁ := h₀.snoc (.push (.load ⟨Nat.le_refl 0, rfl, fun _ => rfl⟩))
  have h₂ := h₁.snoc (.push (.load ⟨Nat.le_refl 0, rfl, fun _ => rfl⟩))
  have h₃ := h₂.snoc (.push (.load ⟨Nat.le_refl 0, rfl, fun _ => rfl⟩))
  have h₄ := h₃.snoc (.push .put)
  have h₅ := h₄.snoc (.push .store)
  have h₆ := h₅.snoc (.replacePush hmd)
  exact ⟨_, h₆, rfl, rfl, rfl⟩

/-- The call that was cut off has taken effect. -/
theorem crash_linearizable_cut : ∃ fs t,
    Run (mortal (broadcast oneSlot)) (Conf.start (broadcast oneSlot)) fs (abs oneSlot t) ∧
    visible fs = [.call .producer (.push 7)] ∧ t.stream = [7] ∧ t.push = .idle ∧
    t.mem.now .writeIdx = t.stream.length ∧ t.stream[0]? = some (t.mem.data (oneSlot.slot 0)) := by
  obtain ⟨t, hrun, hstream, hpush, hcur⟩ := run_cut .mortal trivial
  obtain ⟨⟨fs, hfs, hvis⟩, hw, hwindow⟩ := crash_linearizable ⟨_, rfl⟩ hrun (by rw [hstream]; decide)
  exact ⟨fs, t, hfs, hvis, hstream, hpush, hw,
    (hwindow 0 (by decide)).2 0 hcur.le (by rw [hstream]; decide)⟩

/-! ## What the producer has published -/

/-- What the calls of the producer have come to: the value of the call that is open or was cut off last, the
values whose push returned `true`, and those whose push has not returned `false`. -/
structure Ledger (α : Type) where
  last : List α
  accepted : List α
  possible : List α

namespace Ledger

/-- An event of the producer. -/
def note (l : Ledger α) : Option (Event Party (Op α) (Answer α)) → Ledger α
  | some (.call .producer (.push v)) => ⟨[v], l.accepted, l.possible ++ l.last⟩
  | some (.ret .producer (.pushed true)) => ⟨[], l.accepted ++ l.last, l.possible ++ l.last⟩
  | some (.ret .producer (.pushed false)) => ⟨[], l.accepted, l.possible⟩
  | _ => l

/-- The values that are published for sure, with the producer at `pc`. -/
def least (l : Ledger α) : PushPc α → List α
  | .bumpTotal | .done true => l.accepted ++ l.last
  | _ => l.accepted

/-- The values that may be published, with the producer at `pc`. -/
def most (l : Ledger α) : PushPc α → List α
  | .loadWriteIdx _ | .loadNumReaders _ _ | .scan _ _ _ _ _ | .writeSlot _ _ | .publish _ _ | .done false =>
      l.possible
  | _ => l.possible ++ l.last

theorem accepted_sublist (l : Ledger α) (pc : PushPc α) : l.accepted.Sublist (l.least pc) := by
  unfold least
  split
  · exact List.sublist_append_left _ _
  · exact List.sublist_append_left _ _
  · exact List.Sublist.refl _

theorem most_sublist (l : Ledger α) (pc : PushPc α) : (l.most pc).Sublist (l.possible ++ l.last) := by
  unfold most
  split
  case h_7 => exact List.Sublist.refl _
  all_goals exact List.sublist_append_left _ _

end Ledger

/-- The ledger of a run. -/
def ledger (es : List (Option (Event Party (Op α) (Answer α)))) : Ledger α := es.foldl .note ⟨[], [], []⟩

/-- The value of a call that has not published it yet. -/
def PushPc.value : PushPc α → Option α
  | .loadWriteIdx v | .loadNumReaders v _ | .scan v _ _ _ _ | .writeSlot v _ | .publish v _ => some v
  | _ => none

/-- What the ledger says of the stream. -/
structure LedgerInv (md : Mode) (l : Ledger α) (s : State α) : Prop where
  value : ∀ v, s.push.value = some v → l.last = [v]
  least : (l.least s.push).Sublist s.stream
  exact : ¬ md.replace → l.least s.push = s.stream
  most : s.stream.Sublist (l.most s.push)

section Steps

variable {md : Mode} {s t : State α} {l : Ledger α} {e : Option (Event Party (Op α) (Answer α))} {r : ℕ}

/-- An access before the decision of a push keeps its value; after it there is none. -/
theorem ledger_access {sc : Prop} {m m' : Memory Loc α} {vw vw' : View Loc} {pc pc' : PushPc α} (l : Ledger α)
    (h : Access sc m vw (pushCode cfg pc) m' vw' pc') :
    (∃ v w, pc = .publish v w ∧ pc' = .bumpTotal) ∨
      (pc.publishes = [] ∧ (∀ v, pc'.value = some v → pc.value = some v) ∧ l.least pc' = l.least pc ∧
        (l.most pc).Sublist (l.most pc')) := by
  have hscan : ∀ v w n i minRead,
      (∀ v', (PushPc.scanFrom cfg v w n i minRead).value = some v' → some v = some v') ∧
      l.least (PushPc.scanFrom cfg v w n i minRead) = l.accepted ∧
      l.most (PushPc.scanFrom cfg v w n i minRead) = l.possible := by
    intro v w n i minRead
    unfold PushPc.scanFrom
    split_ifs
    · exact ⟨fun _ => id, rfl, rfl⟩
    · exact ⟨fun _ h => (by cases h), rfl, rfl⟩
    · exact ⟨fun _ => id, rfl, rfl⟩
  cases pc with
  | publish v w =>
      cases h
      exact .inl ⟨v, w, rfl, rfl⟩
  | loadNumReaders v w =>
      cases h with
      | @load _ _ _ n _ =>
          dsimp only
          split_ifs
          · obtain ⟨hv, hl, hm⟩ := hscan v w n 0 u64Max
            exact .inr ⟨rfl, hv, hl, hm ▸ .refl _⟩
          · exact .inr ⟨rfl, fun _ h => (by cases h), rfl, List.sublist_append_left _ _⟩
  | scan v w n i minRead =>
      cases h with
      | @load _ _ _ c _ =>
          obtain ⟨hv, hl, hm⟩ := hscan v w n (i + 1) (min minRead c)
          exact .inr ⟨rfl, hv, hl, hm ▸ .refl _⟩
  | loadWriteIdx v | writeSlot v w =>
      cases h
      exact .inr ⟨rfl, fun _ => id, rfl, .refl _⟩
  | bumpTotal =>
      cases h
      exact .inr ⟨rfl, fun _ h => (by cases h), rfl, .refl _⟩
  | idle | done _ | panicked => cases h

/-- **Every step keeps the ledger**: a push is accepted once and in order, and one that is cut off may be. -/
theorem LedgerInv.step (h : LedgerInv md l s) (hst : Step cfg md s e t) : LedgerInv md (l.note e) t := by
  obtain ⟨hvalue, hleast, hexact, hmost⟩ := h
  cases hst with
  | callPush value hidle =>
      rw [hidle] at hleast hexact hmost
      exact ⟨fun v hv => (by cases hv; rfl), hleast, hexact, hmost⟩
  | @push m vw pc hacc =>
      rcases ledger_access l hacc with ⟨v, w, hpc, rfl⟩ | ⟨hpub, hnext, hsame, hmore⟩
      · have hlast : s.push.publishes = l.last := by
          rw [hvalue v (by rw [hpc]; rfl), hpc]
          rfl
        have hstream : (s.pushStep m vw .bumpTotal).stream = s.stream ++ l.last :=
          congrArg (s.stream ++ ·) hlast
        rw [hpc] at hleast hexact hmost
        refine ⟨fun v hv => (by cases hv), ?_, fun hno => ?_, ?_⟩
        · rw [hstream]
          exact hleast.append_right l.last
        · rw [hstream, ← hexact hno]
          rfl
        · rw [hstream]
          exact hmost.append_right l.last
      · have hstream : (s.pushStep m vw pc).stream = s.stream := by
          rw [State.pushStep, hpub, List.append_nil]
        refine ⟨fun v hv => hvalue v (hnext v hv), ?_, fun hno => ?_, ?_⟩
        · rw [hstream]
          change (l.least pc).Sublist s.stream
          rw [hsame]
          exact hleast
        · rw [hstream]
          exact hsame.trans (hexact hno)
        · rw [hstream]
          exact hmost.trans hmore
  | @retPush b hdone =>
      rw [hdone] at hleast hexact hmost
      cases b with
      | true =>
          refine ⟨fun v hv => (by cases hv), hleast, hexact, ?_⟩
          change s.stream.Sublist (l.possible ++ l.last ++ [])
          rwa [List.append_nil]
      | false =>
          refine ⟨fun v hv => (by cases hv), hleast, hexact, ?_⟩
          change s.stream.Sublist (l.possible ++ [])
          rwa [List.append_nil]
  | replacePush hmd =>
      exact ⟨fun v hv => (by cases hv), (l.accepted_sublist s.push).trans hleast, fun hno => absurd hmd hno,
        hmost.trans (l.most_sublist s.push)⟩
  | callPop | pop | retPop | replacePop | poke => exact ⟨hvalue, hleast, hexact, hmost⟩

/-! ## What a reader is given -/

/-- Reader `r` is not cut off in a call. -/
def Uncut (r : ℕ) (s : State α) (e : Option (Event Party (Op α) (Answer α))) (t : State α) : Prop :=
  e = none → t.pop r = .idle → s.pop r = .idle

/-- **A step that does not cut off an honest reader gives it the messages its cursor passes.** -/
theorem taken_step (h : Inv cfg md s) (hr : Honest cfg md r) (hst : Step cfg md s e t) (hcut : Uncut r s e t)
    (hlen : s.stream.length < u64Size) :
    ∃ d, given r e ++ (t.pop r).pending = (s.pop r).pending ++ d ∧
      t.stream.take (t.cursor r) = s.stream.take (s.cursor r) ++ d := by
  rcases hst.whole_or_replaced with hlive | ⟨rfl, -, rfl | ⟨q, rfl⟩⟩
  · have hinv : Inv cfg md.whole s := h.of_honest fun _ => Iff.rfl
    exact popped_step hinv hr id hlive hlen
  · exact ⟨[], by simp [given], (List.append_nil _).symm⟩
  · refine ⟨[], ?_, (List.append_nil _).symm⟩
    by_cases hq : q = r
    · subst hq
      rw [State.popStep_pop, hcut rfl State.popStep_pop]
      rfl
    · rw [State.popStep_pop_ne (Ne.symm hq)]
      simp [given]

/-- **A step gives an honest reader the messages its cursor passes**, or its call is cut off. -/
theorem given_step (h : Inv cfg md s) (hr : Honest cfg md r) (hst : Step cfg md s e t)
    (hlen : s.stream.length < u64Size) :
    ∃ d, (given r e ++ (t.pop r).pending).Sublist ((s.pop r).pending ++ d) ∧
      t.stream.take (t.cursor r) = s.stream.take (s.cursor r) ++ d := by
  by_cases hcut : Uncut r s e t
  · obtain ⟨d, hgiven, htake⟩ := taken_step h hr hst hcut hlen
    exact ⟨d, hgiven ▸ List.Sublist.refl _, htake⟩
  · rcases hst.whole_or_replaced with hlive | ⟨rfl, -, rfl | ⟨q, rfl⟩⟩
    · have hinv : Inv cfg md.whole s := h.of_honest fun _ => Iff.rfl
      obtain ⟨d, hgiven, htake⟩ := popped_step hinv hr id hlive hlen
      exact ⟨d, hgiven ▸ List.Sublist.refl _, htake⟩
    · exact absurd (fun _ hidle => hidle) hcut
    · refine ⟨[], ?_, (List.append_nil _).symm⟩
      unfold Uncut at hcut
      push Not at hcut
      rw [hcut.2.1]
      exact List.nil_sublist _

end Steps

/-- **The pops of an honest reader return messages of the stream in order**, whoever stops. -/
theorem given_run {md : Mode} {data : ℕ → α} {r : ℕ} {s : State α}
    {es : List (Option (Event Party (Op α) (Answer α)))} (hr : Honest cfg md r)
    (hrun : Run (machine cfg md) (State.fresh cfg data) es s) (hlen : s.stream.length < u64Size) :
    (popped r es ++ (s.pop r).pending).Sublist (s.stream.take (s.cursor r)) := by
  induction hrun with
  | nil => exact .refl _
  | @snoc es s e t hrun hst ih =>
      have hlen' := (length_stream_le hst).trans_lt hlen
      have hinv := reachable_inv ⟨r, hr⟩ (hrun.reachable (.init ⟨data, rfl⟩)) hlen'
      obtain ⟨d, hgiven, htake⟩ := given_step hinv hr hst hlen'
      rw [popped_snoc, List.append_assoc, htake]
      refine (hgiven.append_left (popped r es)).trans ?_
      rw [← List.append_assoc]
      exact (ih hlen').append_right d

/-- The ledger of a run. -/
theorem ledger_run {md : Mode} {data : ℕ → α} {s : State α}
    {es : List (Option (Event Party (Op α) (Answer α)))}
    (hrun : Run (machine cfg md) (State.fresh cfg data) es s) : LedgerInv md (ledger es) s := by
  induction hrun with
  | nil => exact ⟨fun v hv => (by cases hv), .refl _, fun _ => rfl, .refl _⟩
  | snoc _ hst ih =>
      rw [ledger, List.foldl_append]
      exact ih.step hst

/-- **Each message is delivered at most once and in order**, with stale loads, with parties that stop anywhere
and beside rogue cursors. The stream has every accepted value and none that was refused, in the order of
the calls; a reader gets a subsequence of what its cursor has passed. When nobody stops, the stream is what
was accepted, and the reader gets all that its cursor has passed. -/
theorem delivered {md : Mode} {data : ℕ → α} {r : ℕ} {s : State α}
    {es : List (Option (Event Party (Op α) (Answer α)))} (hr : Honest cfg md r)
    (hrun : Run (machine cfg md) (State.fresh cfg data) es s) (hlen : s.stream.length < u64Size) :
    ((ledger es).accepted.Sublist s.stream ∧
      s.stream.Sublist ((ledger es).possible ++ (ledger es).last) ∧
      (popped r es).Sublist (s.stream.take (s.cursor r))) ∧
    (¬ md.replace → (ledger es).least s.push = s.stream ∧
      popped r es ++ (s.pop r).pending = s.stream.take (s.cursor r)) := by
  obtain ⟨-, hleast, hexact, hmost⟩ := ledger_run hrun
  exact ⟨⟨((ledger es).accepted_sublist _).trans hleast, hmost.trans ((ledger es).most_sublist _),
    (List.sublist_append_left _ _).trans (given_run hr hrun hlen)⟩,
    fun hno => ⟨hexact hno, popped_run hr hno hrun hlen⟩⟩

/-- A push that was cut off is delivered without having been accepted. -/
theorem delivered_cut : ∃ (es : List (Option (Event Party (Op ℕ) (Answer ℕ)))) (s : State ℕ),
    (ledger es).accepted = [] ∧ s.stream = [7] ∧ s.stream.Sublist ((ledger es).possible ++ (ledger es).last) := by
  obtain ⟨t, hrun, hstream, -⟩ := run_cut .stale trivial
  have h := delivered (r := 0) (honest_stale (by decide)) hrun (by rw [hstream]; decide)
  exact ⟨_, t, rfl, hstream, h.1.2.1⟩

/-- The same with release and acquire. -/
theorem delivered_ordered {stops : Prop} {data : ℕ → α} {s : OrderedState α} {r : ℕ}
    {es : List (Option (Event Party (Op α) (Answer α)))} (hr : r < cfg.readers)
    (hrun : Run (ordered cfg stops) (OrderedState.fresh cfg data) es s) (hlen : s.stream.length < u64Size) :
    (ledger es).accepted.Sublist s.stream ∧ s.stream.Sublist ((ledger es).possible ++ (ledger es).last) ∧
      (popped r es).Sublist (s.stream.take (s.cursor r)) := by
  obtain ⟨t, hrun', hf⟩ := ordered_run (forgets_fresh cfg data) hrun
  obtain ⟨-, hleast, -, hmost⟩ := ledger_run hrun'
  have hgiven := given_run (honest_stale hr) hrun' (by rw [hf.stream]; exact hlen)
  rw [hf.stream] at hleast hmost hgiven
  rw [hf.cursor] at hgiven
  exact ⟨((ledger es).accepted_sublist _).trans hleast, hmost.trans ((ledger es).most_sublist _),
    (List.sublist_append_left _ _).trans hgiven⟩

end ShmRings.Threads
