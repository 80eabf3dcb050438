import Mathlib.Algebra.Group.Int.Defs
import Mathlib.Algebra.Group.Nat.Defs
import TreeWasm.Fault

/-! # Steps that may fail

When a chain of steps succeeds, each of its steps did; when it fails, one of them did.

Steps with a state are related to what they do to it: `Steps R x` says that the states before and
after `x` are related by `R` whenever `x` succeeds. The rules follow the ways in which steps are put
together, and hold of every relation that is reflexive and transitive. `Runs` is about one state: it
says how a step fails, too.
-/

namespace TreeWasm

namespace Except

variable {ε α β : Type} {x : Except ε α} {f : α → Except ε β} {a : α} {b : β} {e : ε}

theorem exists_of_bind (h : x >>= f = .ok b) : ∃ a, x = .ok a ∧ f a = .ok b := by
  cases x with
  | error e => cases h
  | ok a => exact ⟨a, rfl, h⟩

theorem exists_of_map {f : α → β} (h : x.map f = .ok b) : ∃ a, x = .ok a ∧ f a = b := by
  cases x with
  | error e => cases h
  | ok a => exact ⟨a, rfl, Except.ok.inj h⟩

theorem ok_of_mapError {ε' : Type} {f : ε → ε'} (h : x.mapError f = .ok a) : x = .ok a := by
  cases x with
  | error e => cases h
  | ok a => exact congrArg Except.ok (Except.ok.inj h)

theorem error_of_bind (h : x >>= f = .error e) : x = .error e ∨ ∃ a, x = .ok a ∧ f a = .error e := by
  cases x with
  | error e' =>
    cases h
    exact .inl rfl
  | ok a => exact .inr ⟨a, rfl, h⟩

theorem exists_of_isOk (h : x.isOk) : ∃ a, x = .ok a := by
  cases x with
  | error e => cases h
  | ok a => exact ⟨a, rfl⟩

end Except

/-- Steps that read a context, change a state and may fail. -/
abbrev Step (ρ ε σ : Type) := ReaderT ρ (ExceptT ε (StateM σ))

/-- Whenever the step succeeds, the states before and after it are related. -/
def Steps {ρ ε σ α : Type} (R : σ → σ → Prop) (x : Step ρ ε σ α) : Prop :=
  ∀ ctx s a s', x ctx s = (.ok a, s') → R s s'

namespace Steps

variable {ρ ε σ α β : Type} {R : σ → σ → Prop} {x : Step ρ ε σ α}
  {f : α → Step ρ ε σ β} {ctx : ρ} {s s' s'' : σ} {a : α} {b : β} {failure : ε}

theorem bind_of_error (h : x ctx s = (.error failure, s')) : (x >>= f) ctx s = (.error failure, s') := by
  simp only [Bind.bind, ReaderT.bind, ExceptT.bind, ExceptT.mk, StateT.bind, h]
  rfl

theorem bind_of_ok (h : x ctx s = (.ok a, s')) : (x >>= f) ctx s = f a ctx s' := by
  simp only [Bind.bind, ReaderT.bind, ExceptT.bind, ExceptT.mk, StateT.bind, h]
  rfl

theorem bind_eq_ok (h : (x >>= f) ctx s = (.ok b, s'')) :
    ∃ a s', x ctx s = (.ok a, s') ∧ f a ctx s' = (.ok b, s'') := by
  rcases hfirst : x ctx s with ⟨failure | a, s'⟩
  · rw [bind_of_error hfirst] at h
    cases h
  · rw [bind_of_ok hfirst] at h
    exact ⟨a, s', rfl, h⟩

theorem bind_eq_error (h : (x >>= f) ctx s = (.error failure, s'')) :
    x ctx s = (.error failure, s'') ∨ ∃ a s', x ctx s = (.ok a, s') ∧ f a ctx s' = (.error failure, s'') := by
  rcases hfirst : x ctx s with ⟨failure' | a, s'⟩
  · rw [bind_of_error hfirst] at h
    cases h
    exact .inl rfl
  · rw [bind_of_ok hfirst] at h
    exact .inr ⟨a, s', rfl, h⟩

theorem mono {R' : σ → σ → Prop} (h : Steps R x) (himp : ∀ s s', R s s' → R' s s') : Steps R' x :=
  fun ctx s a s' hrun => himp s s' (h ctx s a s' hrun)

theorem throw {failure : ε} : Steps R (throw failure : Step ρ ε σ α) := by
  rintro ctx s a s' ⟨⟩

theorem ite {c : Prop} [Decidable c] {y : Step ρ ε σ α} (hx : Steps R x)
    (hy : Steps R y) : Steps R (if c then x else y) := by
  split
  · exact hx
  · exact hy

theorem withReader {f : ρ → ρ} (h : Steps R x) : Steps R (withReader f x) :=
  fun ctx s a s' hrun => h (f ctx) s a s' hrun

theorem modify {f : σ → σ} (h : ∀ s, R s (f s)) : Steps R (modify f : Step ρ ε σ Unit) := by
  rintro ctx s _ _ ⟨⟩
  exact h s

section Refl

variable [Std.Refl R]

theorem pure {a : α} : Steps R (Pure.pure a : Step ρ ε σ α) := by
  rintro ctx s _ _ ⟨⟩
  exact Std.Refl.refl s

theorem get : Steps R (MonadState.get : Step ρ ε σ σ) := by
  rintro ctx s _ _ ⟨⟩
  exact Std.Refl.refl s

theorem read : Steps R (MonadReader.read : Step ρ ε σ ρ) := by
  rintro ctx s _ _ ⟨⟩
  exact Std.Refl.refl s

end Refl

theorem bind [Trans R R R] (hx : Steps R x) (hf : ∀ a, Steps R (f a)) : Steps R (x >>= f) := by
  intro ctx s b s'' hrun
  obtain ⟨a, s', hfirst, hrest⟩ := bind_eq_ok hrun
  exact Trans.trans (hx ctx s a s' hfirst) (hf a ctx s' b s'' hrest)

variable [Std.Refl R] [Trans R R R] {γ : Type}

theorem mapM {f : γ → Step ρ ε σ α} (items : List γ)
    (h : ∀ item ∈ items, Steps R (f item)) : Steps R (items.mapM f) := by
  induction items with
  | nil => exact pure
  | cons item rest ih =>
    rw [List.mapM_cons]
    refine (h item (.head _)).bind (fun a => ?_)
    exact (ih (fun other hother => h other (.tail _ hother))).bind (fun _ => pure)

theorem forM {f : γ → Step ρ ε σ Unit} (items : List γ)
    (h : ∀ item ∈ items, Steps R (f item)) : Steps R (items.forM f) := by
  induction items with
  | nil => exact pure
  | cons item rest ih =>
    refine (h item (.head _)).bind (fun _ => ?_)
    exact ih (fun other hother => h other (.tail _ hother))

/-- From a state, a step fails for allowed reasons only, and after it the last property holds. -/
def Runs (allowed : ε → Prop) (ctx : ρ) (s : σ) (x : Step ρ ε σ α) (post : α → σ → Prop) : Prop :=
  match x ctx s with
  | (.ok a, s') => post a s'
  | (.error failure, _) => allowed failure

namespace Runs

variable {allowed allowed' : ε → Prop} {P P' : α → σ → Prop} {Q : β → σ → Prop}

theorem imp (h : Runs allowed ctx s x P) (hallowed : ∀ failure, allowed failure → allowed' failure)
    (himp : ∀ a s', P a s' → P' a s') : Runs allowed' ctx s x P' := by
  unfold Runs at h ⊢
  split
  next a s' hrun =>
    rw [hrun] at h
    exact himp a s' h
  next failure s' hrun =>
    rw [hrun] at h
    exact hallowed failure h

theorem mono (h : Runs allowed ctx s x P) (himp : ∀ a s', P a s' → P' a s') : Runs allowed ctx s x P' :=
  h.imp (fun _ => id) himp

theorem pure (h : P a s) : Runs allowed ctx s (Pure.pure a) P := h

theorem throw (h : allowed failure) : Runs allowed ctx s (MonadExcept.throw failure) P := h

theorem bind (hx : Runs allowed ctx s x P)
    (hf : ∀ a s', P a s' → Runs allowed ctx s' (f a) Q) :
    Runs allowed ctx s (x >>= f) Q := by
  unfold Runs at hx
  rcases hrun : x ctx s with ⟨failure | a, s'⟩
  · rw [hrun] at hx
    rw [Runs, bind_of_error hrun]
    exact hx
  · rw [hrun] at hx
    rw [Runs, bind_of_ok hrun]
    exact hf a s' hx

theorem throw_bind (h : allowed failure) :
    Runs allowed ctx s ((MonadExcept.throw failure : Step ρ ε σ α) >>= f) Q :=
  (throw h).bind (fun _ _ => False.elim)

theorem get {f : σ → Step ρ ε σ β} (h : Runs allowed ctx s (f s) Q) :
    Runs allowed ctx s (MonadState.get >>= f) Q := h

theorem set {f : PUnit → Step ρ ε σ β}
    (h : Runs allowed ctx s' (f ⟨⟩) Q) : Runs allowed ctx s (MonadStateOf.set s' >>= f) Q := h

theorem ite {c : Prop} [Decidable c] {y : Step ρ ε σ α}
    (hx : c → Runs allowed ctx s x P) (hy : ¬ c → Runs allowed ctx s y P) :
    Runs allowed ctx s (if c then x else y) P := by
  split
  next hc => exact hx hc
  next hc => exact hy hc

theorem of_error (h : Runs allowed ctx s x P) (hrun : x ctx s = (.error failure, s')) :
    allowed failure := by
  rwa [Runs, hrun] at h

theorem of_ok (h : Runs allowed ctx s x P) (hrun : x ctx s = (.ok a, s')) : P a s' := by
  rwa [Runs, hrun] at h

end Runs

end Steps

end TreeWasm
