import Mathlib.Data.List.Forall2

/-! # Rows

Lists that are related item by item, and rows of a concatenation.
-/

namespace TreeWasm

variable {i : Nat} {α β : Type} {items : List α} {others : List β} {R : α → β → Prop}

theorem flatMap_eq_of_forall₂ {γ : Type} {f : α → List γ} {g : β → List γ} {as : List α} {bs : List β}
    (h : List.Forall₂ (fun a b => f a = g b) as bs) : as.flatMap f = bs.flatMap g := by
  induction h with
  | nil => rfl
  | cons hfirst _ ih => rw [List.flatMap_cons, List.flatMap_cons, hfirst, ih]

theorem forall₂_trans {γ : Type} {S : β → γ → Prop} {T : α → γ → Prop} {as : List α} {bs : List β}
    {cs : List γ} (h : ∀ a b c, R a b → S b c → T a c) (hR : List.Forall₂ R as bs)
    (hS : List.Forall₂ S bs cs) : List.Forall₂ T as cs := by
  induction hR generalizing cs with
  | nil =>
    cases hS
    exact .nil
  | cons hfirst _ ih =>
    cases hS with
    | cons hsecond hrest => exact .cons (h _ _ _ hfirst hsecond) (ih hrest)

/-- What holds on the left of related lists and passes along the relation holds on the right. -/
theorem forall_mem_of_forall₂ {P : α → Prop} {Q : β → Prop} {xs : List α} {ys : List β}
    (h : List.Forall₂ R xs ys) (hP : ∀ x ∈ xs, P x) (hpass : ∀ x y, R x y → P x → Q y) :
    ∀ y ∈ ys, Q y := by
  induction h with
  | nil => simp
  | @cons x y xs ys hfirst _ ih =>
    intro z hz
    rcases List.mem_cons.mp hz with rfl | hz
    · exact hpass x z hfirst (hP x (.head _))
    · exact ih (fun w hw => hP w (.tail _ hw)) z hz

theorem map_eq_map_iff_forall₂ {γ : Type} {f : α → γ} {g : β → γ} :
    items.map f = others.map g ↔ List.Forall₂ (fun a b => f a = g b) items others := by
  rw [← List.forall₂_eq_eq_eq, List.forall₂_map_left_iff, List.forall₂_map_right_iff]

/-- A table that knows all another one knows has the same entries for a list of keys. -/
theorem map_eq_map_some {f g : α → Option β} (h : items.map f = others.map some)
    (hfg : ∀ a b, f a = some b → g a = some b) : items.map g = others.map some := by
  rw [map_eq_map_iff_forall₂] at h ⊢
  exact h.imp hfg

section

variable (h : List.Forall₂ R items others)
include h

/-- Two tables with a default are read at the same place. -/
theorem getD_forall₂ {default : α} {d : β} (hdefault : R default d) (i : Nat) :
    R ((items[i]?).getD default) ((others[i]?).getD d) := by
  induction h generalizing i with
  | nil => exact hdefault
  | cons hfirst _ ih =>
    cases i with
    | zero => exact hfirst
    | succ i => exact ih i

theorem exists_of_forall₂ {a : α} (ha : items[i]? = some a) : ∃ b, others[i]? = some b ∧ R a b := by
  induction h generalizing i with
  | nil => cases ha
  | cons hfirst _ ih =>
    cases i with
    | zero =>
      obtain rfl := Option.some.inj ha
      exact ⟨_, rfl, hfirst⟩
    | succ i => exact ih ha

theorem exists_mem_of_forall₂ {b : β} (hb : b ∈ others) : ∃ a ∈ items, R a b := by
  induction h with
  | nil => cases hb
  | cons hfirst _ ih =>
    rcases List.mem_cons.mp hb with rfl | hrest
    · exact ⟨_, (.head _), hfirst⟩
    · obtain ⟨a, ha, hR⟩ := ih hrest
      exact ⟨a, List.mem_cons_of_mem _ ha, hR⟩

theorem forall₂_imp_mem {S : α → β → Prop} (himp : ∀ a b, a ∈ items → R a b → S a b) :
    List.Forall₂ S items others := by
  induction h with
  | nil => exact .nil
  | cons hfirst _ ih =>
    exact .cons (himp _ _ (.head _) hfirst) (ih (fun a b ha hR => himp a b (.tail _ ha) hR))

end

/-- One row is found in the concatenation of all behind those before it. -/
theorem take_drop_flatten {rows : List (List α)} {row : List α} (h : rows[i]? = some row) :
    (rows.flatten.drop (rows.take i).flatten.length).take row.length = row := by
  induction rows generalizing i with
  | nil => cases h
  | cons first rest ih =>
    cases i with
    | zero =>
      obtain rfl := Option.some.inj h
      simp
    | succ i => simpa using ih h

end TreeWasm
