import TreeWasm.Proofs.Lowering.Frame

/-! # Steps that look names up

Steps of lowering look names up, and may fail. `Meets` says of a step which names it looks up when it
succeeds, what is true afterwards, and that it fails for allowed reasons only: when it does, it has
looked up names from the start of the list only. The rules follow the ways in which steps are put
together.
-/

namespace TreeWasm

/-- The step looks up the given names in order, unless it fails before for an allowed reason. After a
success the last property holds. -/
structure Meets {ρ σ α : Type} (allowed : Failure → Prop) (log : σ → List Resolution)
    (x : Step ρ Failure σ α) (ctx : ρ) (s : σ) (uses : List Resolution)
    (post : α → σ → Prop) : Prop where
  ok : ∀ a s', x ctx s = (.ok a, s') → log s' = uses.reverse ++ log s ∧ post a s'
  error : ∀ failure s', x ctx s = (.error failure, s') → allowed failure ∧ log s' <:+ uses.reverse ++ log s

namespace Meets

variable {ρ σ α β : Type} {allowed : Failure → Prop} {log : σ → List Resolution}
  {x : Step ρ Failure σ α} {ctx : ρ} {s : σ} {uses uses' : List Resolution} {P P' : α → σ → Prop} {Q : β → σ → Prop}
  {f : α → Step ρ Failure σ β}

theorem mono (h : Meets allowed log x ctx s uses P) (himp : ∀ a s', P a s' → P' a s') :
    Meets allowed log x ctx s uses P' where
  ok := fun a s' hrun => ⟨(h.ok a s' hrun).1, himp a s' (h.ok a s' hrun).2⟩
  error := h.error

/-- What is known from elsewhere of the runs that succeed can be added. -/
theorem and_of (h : Meets allowed log x ctx s uses P)
    (h' : ∀ a s', x ctx s = (.ok a, s') → P' a s') :
    Meets allowed log x ctx s uses (fun a s' => P a s' ∧ P' a s') where
  ok := fun a s' hrun => ⟨(h.ok a s' hrun).1, (h.ok a s' hrun).2, h' a s' hrun⟩
  error := h.error

theorem pure {a : α} (h : P a s) : Meets allowed log (Pure.pure a) ctx s [] P where
  ok := by
    rintro _ _ ⟨⟩
    exact ⟨rfl, h⟩
  error := by
    rintro _ _ ⟨⟩

theorem throw {failure : Failure} (h : allowed failure) : Meets allowed log (throw failure) ctx s uses P where
  ok := by
    rintro _ _ ⟨⟩
  error := by
    rintro _ _ ⟨⟩
    exact ⟨h, List.suffix_append _ _⟩

theorem bind (hx : Meets allowed log x ctx s uses P)
    (hf : ∀ a s', P a s' → Meets allowed log (f a) ctx s' uses' Q) :
    Meets allowed log (x >>= f) ctx s (uses ++ uses') Q where
  ok := by
    intro b s'' hrun
    obtain ⟨a, s', hfirst, hrest⟩ := Steps.bind_eq_ok hrun
    obtain ⟨hlog, ha⟩ := hx.ok a s' hfirst
    obtain ⟨hlog', hb⟩ := (hf a s' ha).ok b s'' hrest
    refine ⟨?_, hb⟩
    rw [hlog', hlog, List.reverse_append, List.append_assoc]
  error := by
    intro failure s'' hrun
    rw [List.reverse_append, List.append_assoc]
    obtain hfirst | ⟨a, s', hfirst, hrest⟩ := Steps.bind_eq_error hrun
    · obtain ⟨hallowed, hlog⟩ := hx.error failure s'' hfirst
      exact ⟨hallowed, hlog.trans (List.suffix_append _ _)⟩
    · obtain ⟨hlog, ha⟩ := hx.ok a s' hfirst
      obtain ⟨hallowed, hlog'⟩ := (hf a s' ha).error failure s'' hrest
      exact ⟨hallowed, hlog ▸ hlog'⟩

theorem bind_nil (hx : Meets allowed log x ctx s [] P)
    (hf : ∀ a s', P a s' → Meets allowed log (f a) ctx s' uses Q) :
    Meets allowed log (x >>= f) ctx s uses Q :=
  hx.bind hf

theorem bind_last (hx : Meets allowed log x ctx s uses P)
    (hf : ∀ a s', P a s' → Meets allowed log (f a) ctx s' [] Q) :
    Meets allowed log (x >>= f) ctx s uses Q := by
  have h := hx.bind hf
  rwa [List.append_nil] at h

theorem map (hx : Meets allowed log x ctx s uses P) {g : α → β} (hg : ∀ a s', P a s' → Q (g a) s') :
    Meets allowed log (do return g (← x)) ctx s uses Q :=
  hx.bind_last (fun a s' ha => .pure (hg a s' ha))

theorem get {f : σ → Step ρ Failure σ β}
    (h : Meets allowed log (f s) ctx s uses Q) : Meets allowed log (MonadState.get >>= f) ctx s uses Q :=
  ⟨h.ok, h.error⟩

theorem read {f : ρ → Step ρ Failure σ β}
    (h : Meets allowed log (f ctx) ctx s uses Q) :
    Meets allowed log (MonadReader.read >>= f) ctx s uses Q :=
  ⟨h.ok, h.error⟩

theorem lookups {g : σ → σ} (hlog : log (g s) = uses.reverse ++ log s) {P : PUnit → σ → Prop}
    (h : P ⟨⟩ (g s)) :
    Meets allowed log (modify g : Step ρ Failure σ PUnit) ctx s uses P where
  ok := by
    rintro _ _ ⟨⟩
    exact ⟨hlog, h⟩
  error := by
    rintro _ _ ⟨⟩

theorem modify {g : σ → σ} {P : PUnit → σ → Prop} (hlog : log (g s) = log s) (h : P ⟨⟩ (g s)) :
    Meets allowed log (modify g : Step ρ Failure σ PUnit) ctx s [] P :=
  lookups hlog h

theorem set {s' : σ} {P : PUnit → σ → Prop} (hlog : log s' = log s) (h : P ⟨⟩ s') :
    Meets allowed log (MonadStateOf.set s' : Step ρ Failure σ PUnit) ctx s [] P where
  ok := by
    rintro _ _ ⟨⟩
    exact ⟨hlog, h⟩
  error := by
    rintro _ _ ⟨⟩

theorem withReader {g : ρ → ρ} (h : Meets allowed log x (g ctx) s uses P) :
    Meets allowed log (withReader g x) ctx s uses P :=
  ⟨h.ok, h.error⟩

theorem ite {c : Prop} [Decidable c] {y : Step ρ Failure σ α}
    (hx : c → Meets allowed log x ctx s uses P) (hy : ¬ c → Meets allowed log y ctx s uses P) :
    Meets allowed log (if c then x else y) ctx s uses P := by
  split
  next hc => exact hx hc
  next hc => exact hy hc

/-- A step that changes nothing that is looked at, for each item of a list. -/
theorem forM {γ : Type} {f : γ → Step ρ Failure σ PUnit} {items : List γ}
    {I : σ → Prop} (h : ∀ item ∈ items, ∀ s, I s → Meets allowed log (f item) ctx s [] (fun _ => I))
    (hs : I s) : Meets allowed log (items.forM f) ctx s [] (fun _ => I) := by
  induction items generalizing s with
  | nil => exact .pure hs
  | cons item rest ih =>
    rw [List.forall_mem_cons] at h
    exact (h.1 s hs).bind_nil (fun _ s' hs' => ih h.2 hs')

end Meets

end TreeWasm
