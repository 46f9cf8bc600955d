import Mathlib.Logic.Basic

/-!
# Running state-and-error programs

Equations for programs in `EStateM` applied to a start state, the rules that take a
successful run apart, and postconditions for results and for errors with the rules that follow the
structure of a program. A failed run keeps the state in which it failed.
-/

namespace TrieDb.Base

variable {ε σ α β : Type}

/-- A sequence goes on with what its first part leaves. -/
@[simp] theorem bind_apply (x : EStateM ε σ α) (f : α → EStateM ε σ β) (s : σ) :
    (x >>= f) s = match x s with
      | .ok a s' => f a s'
      | .error e s' => .error e s' := rfl

/-- A returned value leaves the state as it is. -/
@[simp] theorem pure_apply (a : α) (s : σ) : (pure a : EStateM ε σ α) s = .ok a s := rfl

/-- A map changes the result and not the state. -/
@[simp] theorem map_apply (f : α → β) (x : EStateM ε σ α) (s : σ) :
    (f <$> x) s = match x s with
      | .ok a s' => .ok (f a) s'
      | .error e s' => .error e s' := rfl

/-- `get` returns the state. -/
@[simp] theorem get_apply (s : σ) : (get : EStateM ε σ σ) s = .ok s s := rfl

/-- `set` replaces the state. -/
@[simp] theorem set_apply (s s' : σ) : (set s' : EStateM ε σ PUnit) s = .ok ⟨⟩ s' := rfl

/-- `modify` changes the state. -/
@[simp] theorem modify_apply (f : σ → σ) (s : σ) :
    (modify f : EStateM ε σ PUnit) s = .ok ⟨⟩ (f s) := rfl

/-- `throw` fails and leaves the state as it is. -/
@[simp] theorem throw_apply (e : ε) (s : σ) : (throw e : EStateM ε σ α) s = .error e s := rfl

/-- A sequence succeeds exactly when both parts do. -/
theorem bind_eq_ok {x : EStateM ε σ α} {f : α → EStateM ε σ β} {s s'' : σ} {b : β} :
    (x >>= f) s = .ok b s'' ↔ ∃ a s', x s = .ok a s' ∧ f a s' = .ok b s'' := by
  simp only [bind_apply]
  cases x s with
  | ok a s' => simp [and_assoc]
  | error e s' => simp

/-! ### Postconditions -/

/-- The run from `s` ends in `Q` or fails in `E`. -/
def Ensures (x : EStateM ε σ α) (s : σ) (Q : α → σ → Prop) (E : ε → σ → Prop) : Prop :=
  match x s with
  | .ok a s' => Q a s'
  | .error e s' => E e s'

namespace Ensures

variable {x : EStateM ε σ α} {s s' : σ} {Q Q' : α → σ → Prop} {E E' : ε → σ → Prop}

/-- The rule of sequences. -/
theorem bind {f : α → EStateM ε σ β} {R : β → σ → Prop}
    (h : Ensures x s (fun a t ↦ Ensures (f a) t R E) E) : Ensures (x >>= f) s R E := by
  simp only [Ensures, bind_apply] at h ⊢
  cases hx : x s with
  | ok a t => simpa [hx] using h
  | error e t => simpa [hx] using h

/-- The rule of returned values. -/
theorem pure {a : α} (h : Q a s) : Ensures (Pure.pure a) s Q E := h

/-- The rule of errors. -/
theorem throw {e : ε} (h : E e s) : Ensures (throwThe ε e : EStateM ε σ α) s Q E := h

/-- The rule of reading the state. -/
theorem get {Q : σ → σ → Prop} (h : Q s s) : Ensures (MonadState.get : EStateM ε σ σ) s Q E := h

/-- A postcondition may be weakened. -/
theorem mono (h : Ensures x s Q E) (hQ : ∀ a t, Q a t → Q' a t) (hE : ∀ e t, E e t → E' e t) :
    Ensures x s Q' E' := by
  simp only [Ensures] at h ⊢
  cases hx : x s with
  | ok a t => simpa [hx] using hQ a t (by simpa [hx] using h)
  | error e t => simpa [hx] using hE e t (by simpa [hx] using h)

/-- A program after one whose postcondition is known. -/
theorem seq {f : α → EStateM ε σ β} {R : β → σ → Prop} (h : Ensures x s Q E)
    (h' : ∀ a t, Q a t → Ensures (f a) t R E) : Ensures (x >>= f) s R E :=
  bind (h.mono h' fun _ _ he ↦ he)

/-- A rule for a program whose results and errors are known. -/
theorem intro (hQ : ∀ a t, x s = .ok a t → Q a t) (hE : ∀ e t, x s = .error e t → E e t) :
    Ensures x s Q E := by
  simp only [Ensures]
  cases hx : x s with
  | ok a t => exact hQ a t hx
  | error e t => exact hE e t hx

/-- What a successful run ends in. -/
theorem ok {a : α} (h : Ensures x s Q E) (hx : x s = .ok a s') : Q a s' := by
  simpa [Ensures, hx] using h

/-- What a failed run ends in. -/
theorem error {e : ε} (h : Ensures x s Q E) (hx : x s = .error e s') : E e s' := by
  simpa [Ensures, hx] using h

end Ensures

/-- The rule of changing the state. -/
theorem ensures_modify {f : σ → σ} {s : σ} {Q : PUnit → σ → Prop} {E : ε → σ → Prop}
    (h : Q ⟨⟩ (f s)) : Ensures (modify f : EStateM ε σ PUnit) s Q E := h

/-! ### Invariants -/

/-- The state in which a run ended, by a result or by an error. -/
def finalState : EStateM.Result ε σ α → σ
  | .ok _ s => s
  | .error _ s => s

/-- A run from a state in `P` ends in `P`, also when it fails. -/
def Preserves (P : σ → Prop) (x : EStateM ε σ α) : Prop :=
  ∀ s, P s → Ensures x s (fun _ t ↦ P t) (fun _ t ↦ P t)

namespace Preserves

variable {P : σ → Prop} {x : EStateM ε σ α}

/-- A returned value preserves everything. -/
theorem pure (a : α) : Preserves P (Pure.pure a : EStateM ε σ α) := fun _ hs ↦ hs

/-- An error preserves everything. -/
theorem throw (e : ε) : Preserves P (throwThe ε e : EStateM ε σ α) := fun _ hs ↦ hs

/-- Reading the state preserves everything. -/
theorem get : Preserves P (MonadState.get : EStateM ε σ σ) := fun _ hs ↦ hs

/-- A change preserves what its function does. -/
theorem modify {f : σ → σ} (h : ∀ s, P s → P (f s)) :
    Preserves P (modify f : EStateM ε σ PUnit) := h

/-- A sequence preserves what both parts do. -/
theorem bind {f : α → EStateM ε σ β} (hx : Preserves P x) (hf : ∀ a, Preserves P (f a)) :
    Preserves P (x >>= f) := by
  intro s hs
  exact (hx s hs).seq fun a t ht ↦ hf a t ht

/-- What is preserved holds in the final state, also after an error. -/
theorem final (h : Preserves P x) {s : σ} (hs : P s) : P (finalState (x s)) := by
  have := h s hs
  unfold Ensures at this
  cases hx : x s with
  | ok a t =>
    rw [hx] at this
    exact this
  | error e t =>
    rw [hx] at this
    exact this

end Preserves

end TrieDb.Base
