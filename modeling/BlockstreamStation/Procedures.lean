import Mathlib.Tactic.Common

/-!
# Procedures that may fail to return

A C++ call that runs on a state `σ` can return a value, leave by an exception
of type `ε`, stop at a failed assertion, or leave the defined language
altogether (an overrun buffer, an invalid pointer handed to the library).
`Proc` is the state-passing monad of such calls, and keeps the four endings
apart because they are caught by different things: a `catch` sees the second
only, and a destructor also runs on the second but on neither of the last two.

The rules used downstream are

* `returns_bind`, `completes_bind`, `returns_ensuring` — when a procedure
  returns;
* `Yields` — a procedure without effect, by the value it returns if any;
* `keeps_bind`, … — which part of the state a procedure that returns leaves
  alone;
* `defined_bind`, `leaves_bind`, … — when a procedure stays in the defined
  language, and how it then changes the state, on every way out;
* `moves_bind`, … — how it changes the state as far as it runs;
* `returning_bind`, … — what a procedure returns, if it does.
-/

namespace Procedures

/-- How a call ends. -/
inductive Outcome (ε α : Type) where
  | returns (value : α)
  | throws (exception : ε)
  | aborts
  | undefined
deriving DecidableEq

/-- A procedure: from a state, how the call ends and the state it leaves. -/
def Proc (σ ε α : Type) := σ → Outcome ε α × σ

namespace Proc

variable {σ ε α β : Type}

/-- Run one procedure and, if it returns, a second one on its value. -/
def andThen (p : Proc σ ε α) (f : α → Proc σ ε β) : Proc σ ε β := fun s =>
  match p s with
  | (.returns a, s') => f a s'
  | (.throws e, s') => (.throws e, s')
  | (.aborts, s') => (.aborts, s')
  | (.undefined, s') => (.undefined, s')

instance : Monad (Proc σ ε) where
  pure a := fun s => (.returns a, s)
  bind := andThen

/-- Leave by an exception. -/
def throwing (e : ε) : Proc σ ε α := fun s => (.throws e, s)

/-- A failed assertion. -/
def abort : Proc σ ε α := fun s => (.aborts, s)

/-- Behaviour the language does not define. -/
def undefined : Proc σ ε α := fun s => (.undefined, s)

/-- Change the state. -/
def modify (f : σ → σ) : Proc σ ε Unit := fun s => (.returns (), f s)

/-- Read a part of the state. -/
def gets (f : σ → α) : Proc σ ε α := fun s => (.returns (f s), s)

/-- `try … catch`: `handler` says which exceptions it takes and what it then
does; all others pass. -/
def catching (p : Proc σ ε α) (handler : ε → Option (Proc σ ε α)) : Proc σ ε α := fun s =>
  match p s with
  | (.throws e, s') =>
      match handler e with
      | some h => h s'
      | none => (.throws e, s')
  | (.returns a, s') => (.returns a, s')
  | (.aborts, s') => (.aborts, s')
  | (.undefined, s') => (.undefined, s')

/-- A destructor at the end of a scope: `cleanup` runs when the scope is left
by a return or an exception. -/
def ensuring (p : Proc σ ε α) (cleanup : Proc σ ε Unit) : Proc σ ε α := fun s =>
  match p s with
  | (.returns a, s') => andThen cleanup (fun _ s'' => (.returns a, s'')) s'
  | (.throws e, s') => andThen cleanup (fun _ s'' => (.throws e, s'')) s'
  | (.aborts, s') => (.aborts, s')
  | (.undefined, s') => (.undefined, s')

/-- `sprintf` into a buffer of `room` bytes: the text and its terminator have
to fit. -/
def sprintf {κ : Type} (room : Nat) (formatted : List κ) : Proc σ ε (List κ) :=
  if formatted.length < room then pure formatted else undefined

/-! ## Evaluation -/

/-- `pure` returns and leaves the state. -/
@[simp] theorem pure_apply (a : α) (s : σ) :
    (pure a : Proc σ ε α) s = (.returns a, s) := rfl

/-- `throwing` throws in the state it is in. -/
@[simp] theorem throwing_apply (e : ε) (s : σ) :
    (throwing e : Proc σ ε α) s = (.throws e, s) := rfl

/-- `abort` ends the program where it is. -/
@[simp] theorem abort_apply (s : σ) : (abort : Proc σ ε α) s = (.aborts, s) := rfl

/-- Undefined behaviour, in the state where it begins. -/
@[simp] theorem undefined_apply (s : σ) :
    (undefined : Proc σ ε α) s = (.undefined, s) := rfl

/-- `modify` changes the state and returns nothing. -/
@[simp] theorem modify_apply (f : σ → σ) (s : σ) :
    (modify f : Proc σ ε Unit) s = (.returns (), f s) := rfl

/-- `gets` reads the state and leaves it. -/
@[simp] theorem gets_apply (f : σ → α) (s : σ) :
    (gets f : Proc σ ε α) s = (.returns (f s), s) := rfl

/-- A text with room for its terminator is formatted. -/
theorem sprintf_apply {κ : Type} {room : Nat} {formatted : List κ}
    (h : formatted.length < room) (s : σ) :
    (sprintf room formatted : Proc σ ε (List κ)) s = (.returns formatted, s) := by
  rw [sprintf, if_pos h]
  rfl

/-- A sequence goes on where its first half returns. -/
theorem bind_apply (p : Proc σ ε α) (f : α → Proc σ ε β) (s : σ) :
    (p >>= f) s = match p s with
      | (.returns a, s') => f a s'
      | (.throws e, s') => (.throws e, s')
      | (.aborts, s') => (.aborts, s')
      | (.undefined, s') => (.undefined, s') := rfl

/-- Past a procedure that returns, a sequence continues. -/
theorem bind_of_returns {p : Proc σ ε α} {f : α → Proc σ ε β} {s s' : σ} {a : α}
    (h : p s = (.returns a, s')) : (p >>= f) s = f a s' := by
  rw [bind_apply, h]

/-! ## Returning -/

/-- The call returns. -/
def Completes (p : Proc σ ε α) (s : σ) : Prop := ∃ a s', p s = (.returns a, s')

/-- `pure` always returns. -/
@[simp] theorem completes_pure (a : α) (s : σ) :
    Completes (pure a : Proc σ ε α) s := ⟨a, s, rfl⟩

/-- So does `modify`. -/
@[simp] theorem completes_modify (f : σ → σ) (s : σ) :
    Completes (modify f : Proc σ ε Unit) s := ⟨(), f s, rfl⟩

/-- A sequence returns exactly when both halves do, the second from where the
first stopped. -/
theorem returns_bind {p : Proc σ ε α} {f : α → Proc σ ε β} {s s'' : σ} {b : β} :
    (p >>= f) s = (.returns b, s'') ↔
      ∃ a s', p s = (.returns a, s') ∧ f a s' = (.returns b, s'') := by
  rw [bind_apply]
  rcases p s with ⟨_ | _ | _ | _, s'⟩ <;> simp

/-- A sequence completes exactly when both halves do. -/
theorem completes_bind {p : Proc σ ε α} {f : α → Proc σ ε β} {s : σ} :
    Completes (p >>= f) s ↔ ∃ a s', p s = (.returns a, s') ∧ Completes (f a) s' := by
  constructor
  · intro hparts
    obtain ⟨b, s'', h⟩ := hparts
    obtain ⟨a, s', hp, hf⟩ := returns_bind.mp h
    exact ⟨a, s', hp, b, s'', hf⟩
  · intro hparts
    obtain ⟨a, s', hp, b, s'', hf⟩ := hparts
    exact ⟨b, s'', returns_bind.mpr ⟨a, s', hp, hf⟩⟩

/-- A scope with a destructor returns what its body returns, once the
destructor has returned too. -/
theorem returns_ensuring {p : Proc σ ε α} {cleanup : Proc σ ε Unit} {s s'' : σ} {a : α} :
    ensuring p cleanup s = (.returns a, s'') ↔
      ∃ s', p s = (.returns a, s') ∧ cleanup s' = (.returns (), s'') := by
  unfold ensuring
  rcases p s with ⟨_ | _ | _ | _, s'⟩
  case returns b =>
    simp only [andThen]
    rcases hclean : cleanup s' with ⟨_ | _ | _ | _, s''⟩ <;> simp [hclean]
  case throws e =>
    simp only [andThen]
    rcases cleanup s' with ⟨_ | _ | _ | _, s''⟩ <;> simp
  all_goals simp

/-! ## Procedures without effect -/

/-- The call leaves the state alone, and returns `a` exactly when `v` is
`some a`. -/
def Yields (p : Proc σ ε α) (v : Option α) : Prop :=
  ∀ s a s', p s = (.returns a, s') ↔ v = some a ∧ s' = s

/-- `pure` gives its value. -/
theorem yields_pure (a : α) : Yields (pure a : Proc σ ε α) (some a) := by
  intro s b s'
  simp [eq_comm]

/-- An exception gives no value. -/
theorem yields_throwing (e : ε) : Yields (throwing e : Proc σ ε α) none := by
  intro s b s'
  simp

/-- Nor does an assertion that fails. -/
theorem yields_abort : Yields (abort : Proc σ ε α) none := by
  intro s b s'
  simp

/-- Nor does undefined behaviour. -/
theorem yields_undefined : Yields (undefined : Proc σ ε α) none := by
  intro s b s'
  simp

/-- Formatting gives the text if the buffer has room for it. -/
theorem yields_sprintf {κ : Type} (room : Nat) (formatted : List κ) :
    Yields (sprintf room formatted : Proc σ ε (List κ))
      (if formatted.length < room then some formatted else none) := by
  unfold sprintf
  split
  · exact yields_pure _
  · exact yields_undefined

/-- A sequence of two procedures that leave the state is one. -/
theorem yields_bind {p : Proc σ ε α} {f : α → Proc σ ε β} {v : Option α} {w : α → Option β}
    (hp : Yields p v) (hf : ∀ a, Yields (f a) (w a)) : Yields (p >>= f) (v.bind w) := by
  intro s b s''
  rw [returns_bind, Option.bind_eq_some_iff]
  constructor
  · intro hparts
    obtain ⟨a, s', ha, hb⟩ := hparts
    obtain ⟨hv, rfl⟩ := (hp s a s').mp ha
    obtain ⟨hw, rfl⟩ := (hf a s' b s'').mp hb
    exact ⟨⟨a, hv, hw⟩, rfl⟩
  · intro hparts
    obtain ⟨⟨a, hv, hw⟩, rfl⟩ := hparts
    exact ⟨a, s'', (hp s'' a s'').mpr ⟨hv, rfl⟩, (hf a s'' b s'').mpr ⟨hw, rfl⟩⟩

/-- Such a procedure returns exactly if it has a value to give. -/
theorem Yields.completes {p : Proc σ ε α} {v : Option α} (h : Yields p v) {s : σ} :
    Completes p s ↔ v.isSome := by
  rw [Option.isSome_iff_exists]
  constructor
  · intro hparts
    obtain ⟨a, s', ha⟩ := hparts
    exact ⟨a, ((h s a s').mp ha).1⟩
  · intro hparts
    obtain ⟨a, ha⟩ := hparts
    exact ⟨a, s, (h s a s).mpr ⟨ha, rfl⟩⟩

/-- A sequence that begins without effect. -/
theorem Yields.completes_bind {p : Proc σ ε α} {v : Option α} (h : Yields p v)
    {f : α → Proc σ ε β} {s : σ} :
    Completes (p >>= f) s ↔ ∃ a, v = some a ∧ Completes (f a) s := by
  rw [Proc.completes_bind]
  constructor
  · intro hparts
    obtain ⟨a, s', ha, hf⟩ := hparts
    obtain ⟨hv, rfl⟩ := (h s a s').mp ha
    exact ⟨a, hv, hf⟩
  · intro hparts
    obtain ⟨a, ha, hf⟩ := hparts
    exact ⟨a, s, (h s a s).mpr ⟨ha, rfl⟩, hf⟩

/-- A sequence that begins by changing the state. -/
theorem completes_modify_bind {f : σ → σ} {q : Unit → Proc σ ε β} {s : σ} :
    Completes (modify f >>= q) s ↔ Completes (q ()) (f s) := Iff.rfl

/-! ## What a call that returns leaves alone -/

/-- When the call returns, the part `f` of the state is as it was. -/
def Keeps {γ : Type} (f : σ → γ) (p : Proc σ ε α) : Prop :=
  ∀ s a s', p s = (.returns a, s') → f s' = f s

section Keeps

variable {γ : Type} {f : σ → γ}

/-- Such a procedure keeps everything about the state. -/
theorem Yields.keeps {p : Proc σ ε α} {v : Option α} (h : Yields p v) : Keeps f p := by
  intro s a s' hp
  rw [((h s a s').mp hp).2]

/-- A sequence keeps what both halves keep. -/
theorem keeps_bind {p : Proc σ ε α} {q : α → Proc σ ε β}
    (hp : Keeps f p) (hq : ∀ a, Keeps f (q a)) : Keeps f (p >>= q) := by
  intro s b s'' h
  obtain ⟨a, s', ha, hb⟩ := returns_bind.mp h
  exact (hq a s' b s'' hb).trans (hp s a s' ha)

/-- So do the branches of a condition. -/
theorem keeps_ite {c : Prop} [Decidable c] {p q : Proc σ ε α}
    (hp : Keeps f p) (hq : Keeps f q) : Keeps f (if c then p else q) := by
  split
  · exact hp
  · exact hq

end Keeps

/-! ## Staying in the defined language -/

/-- The call ends in one of the ways the language defines. -/
def Defined (p : Proc σ ε α) (s : σ) : Prop := (p s).1 ≠ .undefined

/-- `pure` is defined. -/
@[simp] theorem defined_pure (a : α) (s : σ) : Defined (pure a : Proc σ ε α) s := by
  simp [Defined]

/-- An exception is defined. -/
@[simp] theorem defined_throwing (e : ε) (s : σ) : Defined (throwing e : Proc σ ε α) s := by
  simp [Defined]

/-- So is an assertion that fails. -/
@[simp] theorem defined_abort (s : σ) : Defined (abort : Proc σ ε α) s := by
  simp [Defined]

/-- Undefined behaviour is not. -/
@[simp] theorem not_defined_undefined (s : σ) : ¬ Defined (undefined : Proc σ ε α) s := by
  simp [Defined]

/-- A change of the state is defined. -/
@[simp] theorem defined_modify (f : σ → σ) (s : σ) : Defined (modify f : Proc σ ε Unit) s := by
  simp [Defined]

/-- Formatting is defined exactly if the buffer has room. -/
theorem defined_sprintf {κ : Type} {room : Nat} {formatted : List κ} {s : σ} :
    Defined (sprintf room formatted : Proc σ ε (List κ)) s ↔ formatted.length < room := by
  unfold sprintf
  split <;> simp [*]

/-- What returns is defined. -/
theorem defined_of_returns {p : Proc σ ε α} {s s' : σ} {a : α}
    (h : p s = (.returns a, s')) : Defined p s := by
  simp [Defined, h]

/-- A sequence is defined exactly if its first half is, and the second is wherever the
first returns. -/
theorem defined_bind {p : Proc σ ε α} {f : α → Proc σ ε β} {s : σ} :
    Defined (p >>= f) s ↔
      Defined p s ∧ ∀ a s', p s = (.returns a, s') → Defined (f a) s' := by
  unfold Defined
  rw [bind_apply]
  rcases p s with ⟨_ | _ | _ | _, s'⟩ <;> simp

/-- A sequence that begins without effect. -/
theorem Yields.defined_bind {p : Proc σ ε α} {v : Option α} (h : Yields p v)
    {f : α → Proc σ ε β} {s : σ} :
    Defined (p >>= f) s ↔ Defined p s ∧ ∀ a, v = some a → Defined (f a) s := by
  rw [Proc.defined_bind]
  apply and_congr_right'
  constructor
  · intro hf a ha
    exact hf a s ((h s a s).mpr ⟨ha, rfl⟩)
  · intro hf a s' ha
    obtain ⟨hv, rfl⟩ := (h s a s').mp ha
    exact hf a hv

/-- A scope with a destructor, which also runs on an exception. -/
theorem defined_ensuring {p : Proc σ ε α} {cleanup : Proc σ ε Unit} {s : σ} :
    Defined (ensuring p cleanup) s ↔
      Defined p s ∧
        ((∃ a, (p s).1 = .returns a) ∨ (∃ e, (p s).1 = .throws e) →
          Defined cleanup (p s).2) := by
  unfold Defined ensuring
  rcases p s with ⟨_ | e | _ | _, s'⟩
  case returns | throws =>
    simp only [andThen]
    rcases cleanup s' with ⟨_ | _ | _ | _, s''⟩ <;> simp
  all_goals simp

/-! ## What a call changes, on every way out -/

/-- On every way out that the language defines, `R` relates the state before the
call to the state after it. -/
def Leaves (R : σ → σ → Prop) (p : Proc σ ε α) : Prop := ∀ s, Defined p s → R s (p s).2

section Leaves

variable {R : σ → σ → Prop}

/-- A condition leaves a relation that both its branches leave. -/
theorem leaves_ite {c : Prop} [Decidable c] {p q : Proc σ ε α} (hp : Leaves R p)
    (hq : Leaves R q) : Leaves R (if c then p else q) := by
  split
  · exact hp
  · exact hq

/-- A sequence leaves a transitive relation that both halves leave. -/
theorem leaves_bind (htrans : ∀ s₁ s₂ s₃, R s₁ s₂ → R s₂ s₃ → R s₁ s₃)
    {p : Proc σ ε α} {f : α → Proc σ ε β} (hp : Leaves R p) (hf : ∀ a, Leaves R (f a)) :
    Leaves R (p >>= f) := by
  intro s hdefined
  obtain ⟨hfirst, hsecond⟩ := defined_bind.mp hdefined
  have hbefore := hp s hfirst
  rw [bind_apply]
  rcases hp' : p s with ⟨a | _ | _ | _, s'⟩
  case returns =>
    rw [hp'] at hbefore
    exact htrans _ _ _ hbefore (hf a s' (hsecond a s' hp'))
  all_goals
    rw [hp'] at hbefore
    exact hbefore

end Leaves

/-! ## What a call does, as far as it runs -/

/-- `R` relates the state before the call to the state in which it ends, whatever
way it ends; of an undefined call that is the state it was undefined in. -/
def Moves (R : σ → σ → Prop) (p : Proc σ ε α) : Prop := ∀ s, R s (p s).2

section Moves

variable {R : σ → σ → Prop}

/-- A condition moves as both its branches do. -/
theorem moves_ite {c : Prop} [Decidable c] {p q : Proc σ ε α} (hp : Moves R p)
    (hq : Moves R q) : Moves R (if c then p else q) := by
  split
  · exact hp
  · exact hq

/-- A sequence moves by a transitive relation if both halves do. -/
theorem moves_bind (htrans : ∀ s₁ s₂ s₃, R s₁ s₂ → R s₂ s₃ → R s₁ s₃)
    {p : Proc σ ε α} {f : α → Proc σ ε β} (hp : Moves R p) (hf : ∀ a, Moves R (f a)) :
    Moves R (p >>= f) := by
  intro s
  have hbefore := hp s
  rw [bind_apply]
  rcases hp' : p s with ⟨a | _ | _ | _, s'⟩
  case returns =>
    rw [hp'] at hbefore
    exact htrans _ _ _ hbefore (hf a s')
  all_goals
    rw [hp'] at hbefore
    exact hbefore

end Moves

/-! ## What a call returns -/

/-- Whatever the call returns has the property. -/
def Returning (P : α → Prop) (p : Proc σ ε α) : Prop := ∀ s a s', p s = (.returns a, s') → P a

section Returning

variable {P : α → Prop}

/-- What both branches of a condition return has the property. -/
theorem returning_ite {c : Prop} [Decidable c] {p q : Proc σ ε α} (hp : Returning P p)
    (hq : Returning P q) : Returning P (if c then p else q) := by
  split
  · exact hp
  · exact hq

/-- A sequence returns what its second half returns. -/
theorem returning_bind {p : Proc σ ε β} {f : β → Proc σ ε α} (hf : ∀ b, Returning P (f b)) :
    Returning P (p >>= f) := by
  intro s a s'' h
  obtain ⟨b, s', -, hreturns⟩ := returns_bind.mp h
  exact hf b s' a s'' hreturns

/-- With a handler, what the procedure or the handler returns. -/
theorem returning_catching {p : Proc σ ε α} {handler : ε → Option (Proc σ ε α)}
    (hp : Returning P p) (hhandler : ∀ e q, handler e = some q → Returning P q) :
    Returning P (catching p handler) := by
  intro s a s'' h
  unfold catching at h
  rcases hcall : p s with ⟨b | e | _ | _, s'⟩
  case returns =>
    rw [hcall] at h
    obtain ⟨hreturns, -⟩ := Prod.mk.inj h
    exact Outcome.returns.inj hreturns ▸ hp s b s' hcall
  case throws =>
    rw [hcall] at h
    cases hq : handler e with
    | some q =>
        simp only [hq] at h
        exact hhandler e q hq s' a s'' h
    | none =>
        simp only [hq] at h
        cases h
  all_goals
    rw [hcall] at h
    cases h

end Returning

end Proc

end Procedures
