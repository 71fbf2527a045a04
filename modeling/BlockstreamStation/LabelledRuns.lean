import Mathlib.Tactic.Common

/-!
# Runs of labelled steps

A system is given by a partial step function: in a state, a label names at most
one step, and `none` means that the step cannot be taken there.  A run is a list
of labels; quantifying over runs quantifies over all interleavings.

* `exec_invariant` — what every step keeps, a run keeps;
* `always_iff_guarded` — a property holds all along a run exactly when every
  step of the run was taken under a guard, given an invariant that holds as long
  as the guard is respected and a property that fails at the first step that
  ignores it.
-/

namespace LabelledRuns

variable {σ ℓ : Type} (step : σ → ℓ → Option σ)

/-- The state after a run, if all its steps can be taken. -/
def exec : σ → List ℓ → Option σ
  | s, [] => some s
  | s, x :: rest => (step s x).bind fun s' => exec s' rest

/-- `P` holds in every state a run goes through, its first and last included. -/
def Always (P : σ → Prop) (s : σ) (labels : List ℓ) : Prop :=
  ∀ front back s', labels = front ++ back → exec step s front = some s' → P s'

/-- Every step a run takes is taken in a state that satisfies the guard. -/
def Guarded (G : σ → ℓ → Prop) (s : σ) (labels : List ℓ) : Prop :=
  ∀ front x back s', labels = front ++ x :: back → exec step s front = some s' →
    (step s' x).isSome → G s' x

variable {step}

/-- The first step of a run, when it can be taken. -/
theorem exec_cons_of_step {s s' : σ} {x : ℓ} (h : step s x = some s') (rest : List ℓ) :
    exec step s (x :: rest) = exec step s' rest := by
  rw [exec, h, Option.bind_some]

/-- A run in two parts: the second one starts where the first one stopped. -/
theorem exec_append (s : σ) (front back : List ℓ) :
    exec step s (front ++ back) = (exec step s front).bind fun s' => exec step s' back := by
  induction front generalizing s with
  | nil => rfl
  | cons x front ih =>
      rw [List.cons_append, exec, exec, Option.bind_assoc]
      exact Option.bind_congr fun s' _ => ih s'

/-- What every step keeps, a run keeps. -/
theorem exec_invariant {I : σ → Prop} (hstep : ∀ s x s', I s → step s x = some s' → I s')
    (labels : List ℓ) : ∀ s s', I s → exec step s labels = some s' → I s' := by
  induction labels with
  | nil =>
      intro s s' hs heq
      cases heq
      exact hs
  | cons x rest ih =>
      intro s s' hs hexec
      obtain ⟨t, hx, hrest⟩ := Option.bind_eq_some_iff.mp hexec
      exact ih t s' (hstep s x t hs hx) hrest

/-- The empty run goes through one state. -/
theorem always_nil {P : σ → Prop} {s : σ} : Always step P s [] ↔ P s := by
  constructor
  · intro h
    exact h [] [] s rfl rfl
  · intro h front back s' hsplit hexec
    obtain ⟨rfl, -⟩ := List.append_eq_nil_iff.mp hsplit.symm
    obtain rfl := Option.some.inj hexec
    exact h

/-- Along a run a property holds at its first state, and along the rest from the next one.
-/
theorem always_cons {P : σ → Prop} {s : σ} {x : ℓ} {rest : List ℓ} :
    Always step P s (x :: rest) ↔
      P s ∧ ∀ s', step s x = some s' → Always step P s' rest := by
  constructor
  · intro h
    refine ⟨h [] (x :: rest) s rfl rfl, fun s' hx front back t hsplit hexec => ?_⟩
    refine h (x :: front) back t (by rw [hsplit, List.cons_append]) ?_
    rw [exec_cons_of_step hx, hexec]
  · intro hparts front back t hsplit hexec
    obtain ⟨hs, hrest⟩ := hparts
    cases front with
    | nil =>
        obtain rfl := Option.some.inj hexec
        exact hs
    | cons y front =>
        obtain ⟨rfl, htail⟩ := List.cons.inj hsplit
        obtain ⟨s', hx, hfront⟩ := Option.bind_eq_some_iff.mp hexec
        exact hrest s' hx front back t htail hfront

/-- The empty run takes no step. -/
theorem guarded_nil {G : σ → ℓ → Prop} {s : σ} : Guarded step G s [] := by
  intro front x back s' hsplit
  cases front <;> cases hsplit

/-- A run is guarded if its first step is, and the rest is from the next state on. -/
theorem guarded_cons {G : σ → ℓ → Prop} {s : σ} {x : ℓ} {rest : List ℓ} :
    Guarded step G s (x :: rest) ↔
      ∀ s', step s x = some s' → G s x ∧ Guarded step G s' rest := by
  constructor
  · intro h s' hx
    refine ⟨h [] x rest s rfl rfl (by simp [hx]), fun front y back t hsplit hexec htaken => ?_⟩
    refine h (x :: front) y back t (by rw [hsplit, List.cons_append]) ?_ htaken
    rw [exec_cons_of_step hx, hexec]
  · intro h front y back t hsplit hexec htaken
    cases front with
    | nil =>
        obtain ⟨rfl, -⟩ := List.cons.inj hsplit
        obtain rfl := Option.some.inj hexec
        obtain ⟨s', hx⟩ := Option.isSome_iff_exists.mp htaken
        exact (h s' hx).1
    | cons z front =>
        obtain ⟨rfl, htail⟩ := List.cons.inj hsplit
        obtain ⟨s', hx, hfront⟩ := Option.bind_eq_some_iff.mp hexec
        exact (h s' hx).2 front y back t htail hfront htaken

/-- A property holds all along a run exactly when all its steps are guarded.
`A` is what is known of the labels. -/
theorem always_iff_guarded {A : ℓ → Prop} {I P : σ → Prop} {G : σ → ℓ → Prop}
    (hP : ∀ s, I s → P s)
    (hkeep : ∀ s x s', A x → I s → step s x = some s' → G s x → I s')
    (hbreak : ∀ s x s', A x → I s → step s x = some s' → ¬ G s x → ¬ P s')
    (labels : List ℓ) :
    ∀ s, I s → (∀ x ∈ labels, A x) →
      (Always step P s labels ↔ Guarded step G s labels) := by
  induction labels with
  | nil =>
      intro s hs _
      exact iff_of_true (always_nil.mpr (hP s hs)) guarded_nil
  | cons x rest ih =>
      intro s hs hlabels
      have hx := hlabels x List.mem_cons_self
      have hrest : ∀ y ∈ rest, A y := fun y hy => hlabels y (List.mem_cons_of_mem x hy)
      rw [always_cons, guarded_cons]
      constructor
      · intro hparts s' hstep
        obtain ⟨-, halways⟩ := hparts
        have hguard : G s x := by
          by_contra hnot
          exact hbreak s x s' hx hs hstep hnot (halways s' hstep [] rest s' rfl rfl)
        exact ⟨hguard, (ih s' (hkeep s x s' hx hs hstep hguard) hrest).mp (halways s' hstep)⟩
      · intro hguarded
        refine ⟨hP s hs, fun s' hstep => ?_⟩
        obtain ⟨hguard, hafter⟩ := hguarded s' hstep
        exact (ih s' (hkeep s x s' hx hs hstep hguard) hrest).mpr hafter

end LabelledRuns
