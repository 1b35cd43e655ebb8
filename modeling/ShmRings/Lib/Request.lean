import ShmRings.Lib.System

/-!
# Threads that make requests

A thread is a map from its program points to requests: it asks its environment and goes on with the
answer. What the environment may answer, and how that changes its own state, is a relation, so one
program can be run in many environments: against a clock, or beside other parties.

* `Act`, `Act.map`; `Env`; `Turn`: one exchange;
* `dialogue`: the runs of a thread alone with its environment; `beside`: with parties that change the
  environment between its exchanges;
* `Turn.of_ask`, `Turn.not_stop`: the exchange at a program point; **`Turn.of_map`**: a caller that is in
  a call makes the exchanges of its callee;
* `Run.stopped`; **`Run.extremal`**: a run with the same answers that ends in an extreme state.
-/

set_option autoImplicit false

namespace Request

open Transition

/-- What a thread does at a program point: it makes the request `q` and goes on by the answer, or it
has stopped. -/
inductive Act (Q : Type*) (A : Q → Type*) (L : Type*)
  | ask (q : Q) (k : A q → L)
  | stop

variable {Q : Type*} {A : Q → Type*} {L L' σ ε : Type*}

/-- The same requests, with other program points. -/
def Act.map (g : L → L') : Act Q A L → Act Q A L'
  | .ask q k => .ask q fun a => g (k a)
  | .stop => .stop

/-- `env s q a t`: in the state `s` the environment may answer `a` to `q`, and is in `t` then. -/
abbrev Env (σ : Type*) (Q : Type*) (A : Q → Type*) := σ → (q : Q) → A q → σ → Prop

/-- One exchange of a thread with its environment; the label is the request and its answer. -/
def Turn (env : Env σ Q A) (code : L → Act Q A L) (x : σ × L) (e : Σ q, A q) (y : σ × L) : Prop :=
  ∃ k, code x.2 = .ask e.1 k ∧ y.2 = k e.2 ∧ env x.1 e.1 e.2 y.1

/-- A thread alone with its environment. -/
def dialogue (env : Env σ Q A) (code : L → Act Q A L) : System (σ × L) (Σ q, A q) where
  init _ := True
  step := Turn env code

/-- A thread beside parties that move by `world`. -/
def beside (env : Env σ Q A) (code : L → Act Q A L) (world : σ → ε → σ → Prop) :
    System (σ × L) ((Σ q, A q) ⊕ ε) where
  init _ := True
  step x
    | .inl e, y => Turn env code x e y
    | .inr e, y => world x.1 e y.1 ∧ y.2 = x.2

variable {env : Env σ Q A} {code : L → Act Q A L} {code' : L' → Act Q A L'}

/-- The exchange at a known program point. -/
theorem Turn.of_ask {s : σ} {l : L} {q : Q} {k : A q → L} {e : Σ q, A q} {y : σ × L}
    (h : Turn env code (s, l) e y) (hcode : code l = .ask q k) :
    ∃ a, e = ⟨q, a⟩ ∧ y.2 = k a ∧ env s q a y.1 := by
  obtain ⟨q', a⟩ := e
  obtain ⟨k', hask, hnext, henv⟩ := h
  rw [hcode] at hask
  cases hask
  exact ⟨a, rfl, hnext, henv⟩

theorem Turn.not_stop {s : σ} {l : L} {e : Σ q, A q} {y : σ × L} (h : Turn env code (s, l) e y) :
    code l ≠ .stop := by
  obtain ⟨k, hask, -⟩ := h
  rw [hask]
  exact fun hstop => by cases hstop

/-- **A call**: at a program point of its callee a caller makes the callee's exchange. -/
theorem Turn.of_map {g : L → L'} {s : σ} {l : L} {l' : L'} (hcode : code' l' = (code l).map g)
    {e : Σ q, A q} {y : σ × L'} (h : Turn env code' (s, l') e y) :
    ∃ next, Turn env code (s, l) e (y.1, next) ∧ y.2 = g next := by
  obtain ⟨k, hask, hnext, henv⟩ := h
  rw [hcode] at hask
  cases hact : code l with
  | ask q k₀ =>
      rw [hact] at hask
      cases hask
      exact ⟨k₀ e.2, ⟨k₀, hact, rfl, henv⟩, hnext⟩
  | stop =>
      rw [hact] at hask
      cases hask

/-- A thread that has stopped makes no exchange. -/
theorem Run.stopped {x y : σ × L} {es : List (Σ q, A q)} (hstop : code x.2 = .stop)
    (h : Run (dialogue env code) x es y) : y = x := by
  induction h with
  | nil => rfl
  | snoc _ hst ih =>
      subst ih
      exact absurd hstop hst.not_stop

/-- **A run can be repeated with the same answers in extreme states.** `ext s e` is the extreme state after
the exchange `e` in the extreme state `s`: the environment allows it, and it stays related to the state
that was reached. -/
theorem Run.extremal {R : σ → σ → Prop} {ext : σ → (Σ q, A q) → σ}
    (hstep : ∀ s₁ x e y, R s₁ x.1 → Turn env code x e y →
      R (ext s₁ e) y.1 ∧ env s₁ e.1 e.2 (ext s₁ e)) {s₀ : σ} {l₀ : L} {es : List (Σ q, A q)}
    {y : σ × L} (hrefl : R s₀ s₀) (h : Run (dialogue env code) (s₀, l₀) es y) :
    R (es.foldl ext s₀) y.1 ∧ Run (dialogue env code) (s₀, l₀) es (es.foldl ext s₀, y.2) := by
  induction h with
  | nil => exact ⟨hrefl, .nil⟩
  | @snoc es y e z _ hst ih =>
      obtain ⟨hrel, hrun⟩ := ih
      obtain ⟨hrel', henv⟩ := hstep _ y e z hrel hst
      obtain ⟨k, hcode, hnext, -⟩ := hst
      rw [List.foldl_append]
      exact ⟨hrel', hrun.snoc ⟨k, hcode, hnext, henv⟩⟩

end Request
