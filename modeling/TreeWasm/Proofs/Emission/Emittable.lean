import TreeWasm.Proofs.Needs.Shapes
import TreeWasm.Proofs.Validation.Storing

/-! # Code that can be emitted

Emission asks of each node that its operation exists for its layout, that its parts have slots where
they are used as values, and that what it stores fits its place. Well-formed code has this, and keeps
it when it is simplified.
-/

namespace TreeWasm

open Wasm

namespace Node

variable {Γ : Surroundings}

/-- Whether a node is a value in memory. -/
def isData : Node → Bool
  | data .. => true
  | _ => false

theorem isPlace_of_isData {n : Node} (h : n.isData) : n.isPlace := by
  cases n with
  | data => rfl
  | _ => cases h

/-- Whether a node uses the values of its parts. The address of a part can be taken also where it is a
union, which has no slots. -/
def usesValues : Node → Bool
  | addressOf .. => false
  | _ => true

/-- What emission asks of a node itself. -/
def IsEmittable : Node → Prop
  | absent => False
  | binary info op _ _ => (info.layout.arith op).isOk
  | unary info op x => info.layout.TakesUnary op x.layout
  | convert _ x => x.layout.isScalar
  | compare _ op x _ => (x.layout.compare op).isOk
  | locals info slots => slots.length = info.layout.slots.length
  | ifElse info .. | loop info .. | block info .. => info.layout.leaves.isOk
  | structLit info parts | arrayLit info parts => info.layout.TakesParts (parts.map layout)
  | assign _ target value => target.isPlace ∧ value.layout.Fits target.layout
  | addressOf _ x => x.isData
  | _ => True

/-- The node and all nodes inside it can be emitted. -/
inductive Emittable : Node → Prop
  | intro {n} : n.IsEmittable → (n.usesValues → ∀ c ∈ n.children, c.layout.leaves.isOk) →
      (∀ c ∈ n.children, Emittable c) → Emittable n

variable {functions : Nat → Option FuncType} {labels : Labels} {n m c : Node}

namespace Emittable

theorem isEmittable (h : n.Emittable) : n.IsEmittable := by
  cases h with
  | intro hown _ _ => exact hown

theorem leaves (h : n.Emittable) (hvalues : n.usesValues) (hc : c ∈ n.children) : c.layout.leaves.isOk := by
  cases h with
  | intro _ hleaves _ => exact hleaves hvalues c hc

theorem child (h : n.Emittable) (hc : c ∈ n.children) : c.Emittable := by
  cases h with
  | intro _ _ hparts => exact hparts c hc

theorem leaf (h : n.IsEmittable) (hparts : n.children = []) : n.Emittable :=
  .intro h (fun _ _ hc => by rw [hparts] at hc; cases hc) (fun _ hc => by rw [hparts] at hc; cases hc)

/-! ## Simplification -/

theorem negate {info : Info} {x : Node} (h : (unary info .not x).Emittable)
    (hnegate : x.negate? = some m) : m.Emittable := by
  have hx := h.child (List.mem_singleton_self x)
  unfold negate? at hnegate
  split at hnegate
  next cinfo op a b =>
    split at hnegate
    · cases hnegate
    · cases hnegate
      refine .intro ?_ (fun _ _ hc => hx.leaves rfl hc) (fun _ hc => hx.child hc)
      obtain ⟨kind, rel, hkind, rfl⟩ := Layout.exists_of_compare hx.isEmittable
      simp [IsEmittable, Operator.negate, Layout.compare, hkind, Except.isOk, Except.toBool]
  · cases hnegate
    exact hx.child (List.mem_singleton_self m)
  · split at hnegate
    · cases hnegate
      exact leaf trivial rfl
    · cases hnegate
  · cases hnegate

theorem splice (h : n.Emittable) (hok : n.layout.leaves.isOk) (hm : m ∈ n.splice) :
    m.Emittable ∧ m.layout.leaves.isOk := by
  cases n with
  | seq info children =>
    rw [Node.splice] at hm
    split at hm
    · exact ⟨h.child hm, h.leaves rfl hm⟩
    · rw [List.mem_singleton.mp hm]
      exact ⟨h, hok⟩
  | nop info => cases hm
  | _ =>
    rw [List.mem_singleton.mp hm]
    exact ⟨h, hok⟩

end Emittable

theorem Reduction.emittable (h : Reduction labels n m) (hn : n.Emittable) : m.Emittable := by
  cases h with
  | simpler h =>
    cases h with
    | fold _ hfolds =>
      have hconstant := hfolds.constant
      cases m with
      | const32 | const64 | constFloat => exact .leaf trivial rfl
      | _ => cases hconstant
    | negate hnegate => exact hn.negate hnegate
    | left | right | same | still | aloneBlock | aloneSeq => exact hn.child (by simp)
    | yes => exact hn.child yes_mem_children
    | no _ hno => exact hn.child (no_mem_children hno)
    | @swap info info' inner yes no hno _ =>
      have hcond := hn.child cond_mem_children
      have hinner : inner ∈ (unary info' .not inner).children := .head _
      have hyes := @yes_mem_children info (unary info' .not inner) no yes
      have hother := @no_mem_children info (unary info' .not inner) no yes hno
      have hparts : ∀ c ∈ (ifElse info inner no yes).children, c.layout.leaves.isOk ∧ c.Emittable := by
        rw [children_ifElse]
        split <;> simp [hn.leaves rfl hyes, hn.leaves rfl hother, hcond.leaves rfl hinner,
          hn.child hyes, hn.child hother, hcond.child hinner]
      exact .intro hn.isEmittable (fun _ c hc => (hparts c hc).1) (fun c hc => (hparts c hc).2)
    | _ => exact .leaf trivial rfl
  | @address info info' ptr index size offset offset' =>
    have haddr := hn.child (.head _)
    have hptr : ptr ∈ (scaledOffset info' ptr index size).children := .head _
    refine .intro trivial (fun _ c hc => ?_) (fun c hc => ?_)
    · rw [List.mem_singleton.mp hc]
      exact haddr.leaves rfl hptr
    · rw [List.mem_singleton.mp hc]
      exact haddr.child hptr
  | rebase => exact .intro trivial (fun _ _ hc => hn.leaves rfl hc) (fun _ hc => hn.child hc)
  | @spliceBlock _ _ children | @spliceSeq _ children =>
    have hparts : ∀ c ∈ children.flatMap splice, c.Emittable ∧ c.layout.leaves.isOk := by
      intro c hc
      obtain ⟨part, hpart, hc⟩ := List.mem_flatMap.mp hc
      exact (hn.child hpart).splice (hn.leaves rfl hpart) hc
    exact .intro hn.isEmittable (fun _ c hc => (hparts c hc).2) (fun c hc => (hparts c hc).1)

/-- A place stays a place, and a value in memory stays there. -/
theorem Becomes.isPlace (h : n.Becomes labels m) : (n.isPlace → m.isPlace) ∧ (n.isData → m.isData) := by
  obtain ⟨_, h⟩ := h
  cases n with
  | locals =>
    cases h
    exact ⟨fun _ => rfl, nofun⟩
  | data =>
    obtain ⟨_, -, h⟩ := Except.exists_of_bind h
    cases h
    exact ⟨fun _ => rfl, fun _ => rfl⟩
  | _ => exact ⟨nofun, nofun⟩

/-- A node asks of its parts what their layouts say, and whether they are places. -/
theorem IsEmittable.rebuild {parts : List Node} (h : n.IsEmittable)
    (hparts : List.Forall₂ (fun c p => p.layout.Alike c.layout ∧ c.Becomes labels p) n.children parts) :
    (n.rebuild parts).IsEmittable := by
  cases n with
  | unary =>
    obtain _ | ⟨hx, _ | _⟩ := hparts
    exact Layout.TakesUnary.of_alike h hx.1
  | convert =>
    obtain _ | ⟨hx, _ | _⟩ := hparts
    exact hx.1.isScalar_eq.trans h
  | compare =>
    obtain _ | ⟨hx, _ | ⟨_, _ | _⟩⟩ := hparts
    exact Layout.isOk_compare_alike hx.1 h
  | structLit | arrayLit =>
    refine Layout.TakesParts.of_alike h ?_
    rw [List.forall₂_map_left_iff, List.forall₂_map_right_iff]
    exact hparts.imp (fun _ _ hp => hp.1)
  | assign =>
    obtain _ | ⟨ht, _ | ⟨hv, _ | _⟩⟩ := hparts
    exact ⟨ht.2.isPlace.1 h.1, hv.1.1.trans (h.2.trans ht.1.1.symm)⟩
  | addressOf =>
    obtain _ | ⟨hx, _ | _⟩ := hparts
    exact hx.2.isPlace.2 h
  | ifElse info cond yes no =>
    rw [children_ifElse] at hparts
    split at hparts
    · obtain _ | ⟨_, _ | ⟨_, _ | _⟩⟩ := hparts
      exact h
    · obtain _ | ⟨_, _ | ⟨_, _ | ⟨_, _ | _⟩⟩⟩ := hparts
      exact h
  | ret info value =>
    rw [children_ret] at hparts
    split at hparts
    · obtain _ | _ := hparts
      exact h
    · obtain _ | ⟨_, _ | _⟩ := hparts
      exact h
  | binary | scaledOffset =>
    obtain _ | ⟨_, _ | ⟨_, _ | _⟩⟩ := hparts
    exact h
  | data | loop | branchIf | branchTable | drop =>
    obtain _ | ⟨_, _ | _⟩ := hparts
    exact h
  | block | seq | call => exact h
  | _ =>
    obtain _ | _ := hparts
    exact h

theorem usesValues_rebuild {parts : List Node} (h : (n.rebuild parts).usesValues) : n.usesValues := by
  cases n with
  | addressOf =>
    unfold rebuild at h
    split at h <;> simp_all [usesValues]
  | _ => rfl

theorem Becomes.emittable (h : n.Becomes labels m) (hshaped : n.Shaped functions) (hn : n.Emittable) :
    m.Emittable := by
  induction n using childInduction generalizing m with
  | absent => exact hn.isEmittable.elim
  | step n _ ih =>
    obtain ⟨parts, hfill, hparts, hreduces⟩ := h.cases
    have hchildren := (rebuilt hfill).children
    have hnew : List.Forall₂ (fun c p => p.layout.Alike c.layout ∧ c.Becomes labels p) n.children parts :=
      forall₂_imp_mem hparts (fun c p hc hp => ⟨(hp.shaped (hshaped.child hc)).2, hp⟩)
    have hrebuilt : (n.rebuild parts).Emittable := by
      refine .intro (hn.isEmittable.rebuild hnew) (fun hvalues p hp => ?_) (fun p hp => ?_)
      · rw [hchildren] at hp
        obtain ⟨c, hc, halike, -⟩ := exists_mem_of_forall₂ hnew hp
        exact halike.symm.1.isOk_leaves (hn.leaves (usesValues_rebuild hvalues) hc)
      · rw [hchildren] at hp
        obtain ⟨c, hc, -, hbecomes⟩ := exists_mem_of_forall₂ hnew hp
        exact ih c hc hbecomes (hshaped.child hc) (hn.child hc)
    clear h
    induction hreduces with
    | refl => exact hrebuilt
    | step _ hlast ih => exact hlast.emittable ih

/-! ## Well-formed code -/

theorem targets_enter_subset {label : Option Nat} {reachable : Bool} :
    (Γ.enter label reachable).targets ⊆ label.toList ++ Γ.targets := by
  intro l hl
  by_cases heq : label = some l
  · simp [heq]
  · exact List.mem_append_right _ (Surroundings.mem_targets_of_enter heq hl)

/-- The parts of well-formed code are well-formed, or places in memory of which the address is taken. -/
theorem WellFormed.parts (h : n.WellFormed Γ ∨ n.InMemory Γ) (hc : c ∈ n.children) :
    ∃ Γ' : Surroundings, Γ'.functions = Γ.functions ∧ Γ'.targets ⊆ n.label?.toList ++ Γ.targets ∧
      (c.WellFormed Γ' ∨ n.usesValues = false ∧ c.InMemory Γ') := by
  have here (hwf : c.WellFormed Γ) : ∃ Γ' : Surroundings, Γ'.functions = Γ.functions ∧
      Γ'.targets ⊆ n.label?.toList ++ Γ.targets ∧
      (c.WellFormed Γ' ∨ n.usesValues = false ∧ c.InMemory Γ') :=
    ⟨Γ, rfl, List.subset_append_right _ _, .inl hwf⟩
  cases n with
  | data info addr offset =>
    rw [List.mem_singleton.mp hc] at here ⊢
    exact here (h.elim And.left And.left)
  | addressOf info x =>
    rw [List.mem_singleton.mp hc]
    exact ⟨Γ, rfl, List.subset_append_right _ _, .inr ⟨rfl, (h.resolve_right id).2⟩⟩
  | loop info label body =>
    rw [List.mem_singleton.mp hc]
    exact ⟨_, Γ.functions_enter, targets_enter_subset, .inl (h.resolve_right id).1⟩
  | block info label children =>
    exact ⟨_, Γ.functions_enter, targets_enter_subset,
      .inl (allWellFormed_iff.mp (h.resolve_right id).1 c hc)⟩
  | seq | structLit | arrayLit | call =>
    exact here (allWellFormed_iff.mp (h.resolve_right id).1 c hc)
  | ifElse info cond yes no =>
    obtain ⟨hcond, -, hyes, -, hno⟩ := h.resolve_right id
    refine here ?_
    rw [children_ifElse] at hc
    obtain ⟨habsent, -⟩ | ⟨hno, -⟩ := hno
    · simp only [habsent, if_true, List.mem_cons, List.not_mem_nil, or_false] at hc
      obtain rfl | rfl := hc <;> assumption
    · simp only [hno.isAbsent_eq, Bool.false_eq_true, if_false, List.mem_cons, List.not_mem_nil,
        or_false] at hc
      obtain rfl | rfl | rfl := hc <;> assumption
  | ret info value =>
    obtain ⟨-, ⟨habsent, -⟩ | ⟨hvalue, -⟩⟩ := h.resolve_right id
    · simp [children_ret, habsent] at hc
    · simp only [children_ret, hvalue.isAbsent_eq, Bool.false_eq_true, if_false, List.mem_singleton] at hc
      exact here (hc ▸ hvalue)
  | binary | compare | scaledOffset =>
    obtain ⟨hx, hy, -⟩ := h.resolve_right id
    obtain rfl | rfl : _ ∨ _ := by simpa using hc
    · exact here hx
    · exact here hy
  | assign info target value =>
    obtain ⟨-, -, ht, hv, -⟩ := h.resolve_right id
    obtain rfl | rfl : _ ∨ _ := by simpa using hc
    · exact here ht
    · exact here hv
  | unary | convert =>
    rw [List.mem_singleton.mp hc] at here ⊢
    exact here (h.resolve_right id).1
  | branchIf | branchTable =>
    rw [List.mem_singleton.mp hc] at here ⊢
    exact here (h.resolve_right id).2.2.1
  | drop =>
    rw [List.mem_singleton.mp hc] at here ⊢
    exact here (h.resolve_right id).2
  | _ => cases hc

theorem WellFormed.mem_targets {l : Nat} (h : n.WellFormed Γ) (hl : l ∈ n.ownTargets) : l ∈ Γ.targets := by
  cases n with
  | branch => exact List.mem_singleton.mp hl ▸ h.2
  | branchIf => exact List.mem_singleton.mp hl ▸ h.2.1
  | branchTable info index targets default =>
    exact h.2.1 l (by simpa [ownTargets, or_comm] using hl)
  | _ => cases hl

theorem WellFormed.isEmittable (h : n.WellFormed Γ) : n.IsEmittable := by
  have hok := h.isOk_leaves
  cases n with
  | absent => exact h.elim
  | locals info slots =>
    have hlen : slots.length = info.layout.slots.length := by
      simpa using congrArg List.length h.2
    exact hlen
  | binary => exact h.2.2.2.2
  | unary | structLit | arrayLit => exact h.2
  | convert => exact h.2.1
  | compare => exact h.2.2.2.1
  | ifElse | loop | block => exact hok
  | assign => exact ⟨h.2.1, h.2.2.2.2⟩
  | addressOf info x =>
    cases x with
    | data => exact rfl
    | _ => exact h.2.elim
  | _ => trivial

theorem WellFormed.isShaped (h : n.WellFormed Γ) (hproper : n.isProper) : n.IsShaped Γ.functions := by
  cases n with
  | binary info op x y =>
    obtain ⟨hx, hy⟩ := of_decide_eq_true hproper
    have hscalar := Layout.isScalar_of_arith h.2.2.2.2
    exact ⟨(Layout.alike_of_scalar?_eq hscalar hx.symm).symm,
      (Layout.alike_of_scalar?_eq hscalar hy.symm).symm⟩
  | unary info op x =>
    rintro rfl
    obtain ⟨hinfo, hx⟩ := Bool.and_eq_true_iff.mp hproper
    rw [Layout.isBool, beq_iff_eq] at hinfo hx
    exact Layout.alike_of_scalar? hx hinfo
  | convert => exact .inr h.2
  | scaledOffset info ptr index size =>
    have hptr := (of_decide_eq_true hproper).2
    exact Layout.alike_of_scalar?_eq (Layout.isScalar_of_slot h.2.2.1 (by decide)) hptr
  | ifElse info cond yes no =>
    exact ⟨h.2.2.2.1, h.2.2.2.2.imp_right And.right⟩
  | block | seq => exact h.2
  | nop => exact h
  | branchIf | drop => exact h.1
  | call info func name args =>
    exact ⟨fun arg harg => (allWellFormed_iff.mp h.1 arg harg).isOk_leaves, _, h.2.2, rfl⟩
  | _ => trivial

/-- Well-formed code in which each type has one representation can be simplified and emitted. -/
theorem WellFormed.emittable (h : n.WellFormed Γ ∨ n.InMemory Γ)
    (hregular : n.every (isRegular TypeKey.kind?)) :
    n.Shaped Γ.functions ∧ n.Emittable ∧ n.Enclosed Γ.targets := by
  induction n using childInduction generalizing Γ with
  | absent => exact (h.elim id id).elim
  | step n hpresent ih =>
    obtain ⟨hown, hparts⟩ := (every_iff hpresent).mp hregular
    obtain ⟨hfaithful, hproper⟩ := Bool.and_eq_true_iff.mp hown
    have hchild (c : Node) (hc : c ∈ n.children) : c.Shaped Γ.functions ∧ c.Emittable ∧
        c.Enclosed (n.label?.toList ++ Γ.targets) ∧ (n.usesValues → c.layout.leaves.isOk) := by
      obtain ⟨Γ', hfunctions, htargets, hwf⟩ := WellFormed.parts h hc
      obtain ⟨hshaped, hemittable, henclosed⟩ := ih c hc (hwf.imp_right And.right) (hparts c hc)
      refine ⟨hfunctions ▸ hshaped, hemittable, henclosed.mono htargets, fun hvalues => ?_⟩
      obtain hwf | ⟨hnot, -⟩ := hwf
      · exact hwf.isOk_leaves
      · rw [hvalues] at hnot
        cases hnot
    have hself : n.IsShaped Γ.functions ∧ n.IsEmittable ∧ ∀ l ∈ n.ownTargets, l ∈ Γ.targets := by
      obtain hwf | hmemory := h
      · exact ⟨hwf.isShaped hproper, hwf.isEmittable, fun _ hl => hwf.mem_targets hl⟩
      · cases n with
        | data => exact ⟨trivial, trivial, nofun⟩
        | _ => exact hmemory.elim
    exact ⟨.intro hfaithful hself.1 (fun c hc => (hchild c hc).1),
      .intro hself.2.1 (fun hvalues c hc => (hchild c hc).2.2.2 hvalues) (fun c hc => (hchild c hc).2.1),
      .intro hself.2.2 (fun c hc => (hchild c hc).2.2.1)⟩

end Node

end TreeWasm
