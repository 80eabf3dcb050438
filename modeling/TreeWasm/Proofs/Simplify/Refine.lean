import TreeWasm.Proofs.Meaning.Canonical
import TreeWasm.Proofs.Simplify.Keeps

/-! # Nodes that may stand for others

A node refines another one if it may stand in its place: it is as well-formed, has a layout like it,
and keeps the answers of every run that reads only canonical values.
-/

namespace TreeWasm

open Wasm

/-- What the runs of nodes are compared in. -/
structure Setting where
  world : World
  /-- The kinds of the scalar types. -/
  kindOf : TypeKey → Option Scalar
  /-- Whether a run that traps must stay one. -/
  traps : Bool

namespace Setting

/-- The runs that count read canonical values. Address arithmetic may leave the address space only
where traps are kept, since folding an address into the offset of an access moves its traps. -/
def watch (S : Setting) : Watch := ⟨true, !S.traps⟩

/-- The node can stand in the surroundings, where functions have the types that they have in the world. -/
structure Admits (S : Setting) (Γ : Surroundings) (n : Node) : Prop where
  world : S.world.signature = Γ.functions
  wellFormed : n.WellFormed Γ
  plain : n.every (Node.isPlain S.kindOf)

/-- `m` may stand for `n`. -/
structure Refines (S : Setting) (Γ : Surroundings) (n m : Node) : Prop where
  wellFormed : m.WellFormed Γ
  plain : m.every (Node.isPlain S.kindOf)
  layout : m.layout.Alike n.layout
  keeps : ∀ fuel s, (n.eval S.world S.watch fuel s).Keeps S.traps (m.eval S.world S.watch fuel s)

namespace Refines

variable {S : Setting} {Γ : Surroundings} {n m k : Node}

theorem refl (hn : S.Admits Γ n) : S.Refines Γ n n where
  wellFormed := hn.wellFormed
  plain := hn.plain
  layout := .refl _
  keeps := fun _ _ => .refl _

theorem trans (h : S.Refines Γ n m) (h' : S.Refines Γ m k) : S.Refines Γ n k where
  wellFormed := h'.wellFormed
  plain := h'.plain
  layout := h'.layout.trans h.layout
  keeps := fun fuel s => (h.keeps fuel s).trans (h'.keeps fuel s)

theorem admits (h : S.Refines Γ n m) (hn : S.Admits Γ n) : S.Admits Γ m := ⟨hn.world, h.wellFormed, h.plain⟩

theorem isAbsent_eq (h : S.Refines Γ n m) : m.isAbsent = false := h.wellFormed.isAbsent_eq

end Refines

end Setting

namespace Layout

variable {l l' source source' : Layout} {parts parts' : List Layout} {op : Operator}
  {floats : FloatUnit} {values : List Value}

theorem TakesUnary.of_alike (h : l.TakesUnary op source) (halike : source'.Alike source) :
    l.TakesUnary op source' := by
  unfold TakesUnary at h ⊢
  rw [halike.slot_eq]
  exact h

theorem isOk_compare_alike (h : l'.Alike l) (hop : (l.compare op).isOk) : (l'.compare op).isOk := by
  obtain ⟨kind, rel, hkind, rfl⟩ := exists_of_compare hop
  simp [compare, h.2, hkind, Except.isOk, Except.toBool]

theorem Sequence.of_alike (h : l.Sequence parts)
    (halike : List.Forall₂ (fun part part' => part'.Alike part) parts parts') :
    l.Sequence parts' := by
  induction halike with
  | nil => exact h
  | @cons first first' rest rest' hfirst hrest ih =>
    cases hrest with
    | nil => exact hfirst.trans h
    | cons hsecond hrest =>
      exact ⟨by rw [hfirst.1.isVoid_eq]; exact h.1, ih h.2⟩

theorem TakesParts.of_alike (h : l.TakesParts parts)
    (halike : List.Forall₂ (fun part part' => part'.Alike part) parts parts') :
    l.TakesParts parts' := by
  cases l with
  | void tag | scalar tag kind => exact h.elim
  | struct tag union size fields =>
    exact ⟨h.1, h.2.1, forall₂_trans (fun _ _ _ halike hfits => halike.1.trans hfits) halike.flip h.2.2⟩
  | array tag elem count size =>
    cases count with
    | none => exact h.elim
    | some count =>
      refine ⟨by rw [← halike.length_eq]; exact h.1, ?_⟩
      exact forall_mem_of_forall₂ halike h.2 (fun part part' halike hfits =>
        halike.1.trans hfits)

end Layout

namespace Setting.Refines

open Node

variable {S : Setting} {Γ : Surroundings}

/-- A node without parts is plain if it is proper and has the layout of a plain node. -/
theorem plain_leaf {n m : Node} (hplain : n.isPlain S.kindOf) (hinfo : m.info = n.info)
    (hparts : m.children = []) (hpresent : m.isAbsent = false) (hproper : m.isProper) :
    m.every (isPlain S.kindOf) := by
  obtain ⟨hfollows, _, hfloat⟩ := isPlain_iff.mp hplain
  refine (every_iff hpresent).mpr ⟨isPlain_iff.mpr ?_, by simp [hparts]⟩
  rw [Node.layout, hinfo]
  exact ⟨hfollows, hproper, hfloat⟩

/-! ## Rows of nodes -/

section Rows

variable {nodes nodes' : List Node} (h : List.Forall₂ (S.Refines Γ) nodes nodes')

include h

theorem allWellFormed : AllWellFormed Γ nodes' :=
  allWellFormed_iff.mpr (forall_mem_of_forall₂ h (fun _ _ => trivial) (fun _ _ h _ => h.wellFormed))

theorem allPlain : ∀ n ∈ nodes', n.every (isPlain S.kindOf) :=
  forall_mem_of_forall₂ h (fun _ _ => trivial) (fun _ _ h _ => h.plain)

theorem layouts : List.Forall₂ (fun part part' : Layout => part'.Alike part)
    (nodes.map Node.layout) (nodes'.map Node.layout) := by
  rw [List.forall₂_map_left_iff, List.forall₂_map_right_iff]
  exact h.imp (fun _ _ h => h.layout)

theorem slots_eq : nodes'.flatMap (fun n => n.layout.slots) = nodes.flatMap (fun n => n.layout.slots) :=
  (flatMap_eq_of_forall₂ (h.imp (fun _ _ h => h.layout.1.slots_eq.symm))).symm

theorem evalAll (fuel : Nat) (s : Store) :
    (Node.evalAll S.world S.watch fuel nodes s).Keeps S.traps (Node.evalAll S.world S.watch fuel nodes' s) :=
  evalAll_keeps (h.imp (fun _ _ h => h.keeps fuel)) s

end Rows

end Setting.Refines

end TreeWasm
