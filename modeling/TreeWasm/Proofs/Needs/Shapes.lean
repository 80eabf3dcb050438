import TreeWasm.Proofs.Meaning.Faithful
import TreeWasm.Proofs.Needs.Simplified

/-! # The shapes of calls

A call passes the slots of its arguments one after the other, and the function that it names takes
just these. Code has this shape when it is built. It keeps it when a part of an operation comes to
stand for the whole, since what may do so represents values alike: the operands of an operation, the
branches of a conditional, the last statement of a sequence.
-/

namespace TreeWasm

open Wasm

namespace Node

variable {info : Info}

section Shaped

variable (functions : Nat → Option FuncType)

/-- What is asked of a node itself: that a part which may come to stand for it is like it, and that a
call fits the function it names. -/
def IsShaped : Node → Prop
  | binary info _ x y => x.layout.Alike info.layout ∧ y.layout.Alike info.layout
  | unary info op x => op = .not → x.layout.Alike info.layout
  | convert info x => x.layout.Alike info.layout ∨ (x.layout.isScalar ∧ info.layout.isScalar)
  | scaledOffset info ptr _ _ => ptr.layout.Alike info.layout
  | ifElse info _ yes no =>
    yes.layout.Alike info.layout ∧ ((no.isAbsent ∧ info.layout.isVoid) ∨ no.layout.Alike info.layout)
  | block info _ children | seq info children => info.layout.Sequence (children.map layout)
  | nop info | branchIf info _ _ | drop info _ => info.layout.isVoid
  | call _ func _ args =>
    (∀ arg ∈ args, arg.layout.leaves.isOk) ∧
      ∃ type, functions func = some type ∧
        type.params = args.flatMap (fun arg => arg.layout.slots)
  | _ => True

/-- The node and all nodes inside it have the shape of code. -/
inductive Shaped : Node → Prop
  | intro {n} : n.layout.isFaithful → n.IsShaped functions → (∀ c ∈ n.children, Shaped c) → Shaped n

end Shaped

variable {functions : Nat → Option FuncType} {labels : Labels} {n m : Node}

namespace Shaped

section

variable (h : n.Shaped functions)
include h

theorem isFaithful : n.layout.isFaithful := by
  cases h with
  | intro hfaithful _ _ => exact hfaithful

theorem isShaped : n.IsShaped functions := by
  cases h with
  | intro _ hshaped _ => exact hshaped

theorem child {c : Node} (hc : c ∈ n.children) : c.Shaped functions := by
  cases h with
  | intro _ _ hparts => exact hparts c hc

theorem mono {functions' : Nat → Option FuncType}
    (hsub : ∀ func type, functions func = some type → functions' func = some type) :
    n.Shaped functions' := by
  induction h with
  | @intro n hfaithful hshaped _ ih =>
    refine .intro hfaithful ?_ ih
    cases n with
    | call =>
      obtain ⟨hargs, type, htype, hparams⟩ := hshaped
      exact ⟨hargs, type, hsub _ _ htype, hparams⟩
    | _ => exact hshaped

end

/-- The node may stand for another one. -/
def Stands (functions : Nat → Option FuncType) (n m : Node) : Prop :=
  m.Shaped functions ∧ m.layout.Alike n.layout

theorem Stands.trans {k : Node} (h : Stands functions n m) (h' : Stands functions m k) :
    Stands functions n k :=
  ⟨h'.1, h'.2.trans h.2⟩

theorem stands {c : Node} (h : n.Shaped functions) (hc : c ∈ n.children)
    (halike : c.layout.Alike n.layout) : Stands functions n c :=
  ⟨h.child hc, halike⟩

end Shaped

open Shaped (Stands)

/-! ## Reductions -/

theorem shaped_of_constant? (h : n.constant?.isSome) (hfaithful : n.layout.isFaithful) :
    n.Shaped functions := by
  cases n with
  | const32 | const64 | constFloat => exact .intro hfaithful trivial nofun
  | _ => cases h

theorem shaped_nop (h : info.layout.isVoid) : (nop info).Shaped functions :=
  .intro (Layout.isFaithful_of_isVoid h) h nofun

theorem layout_eq_of_info_eq (h : m.info = n.info) : m.layout = n.layout := congrArg Info.layout h

theorem Shaped.negate {x : Node} (h : (unary info .not x).Shaped functions)
    (hnegate : x.negate? = some m) : Stands functions (unary info .not x) m := by
  have hx := h.child (List.mem_singleton_self x)
  have halike : x.layout.Alike info.layout := h.isShaped rfl
  unfold negate? at hnegate
  split at hnegate
  · split at hnegate
    · cases hnegate
    · cases hnegate
      exact ⟨.intro hx.isFaithful trivial (fun c hc => hx.child hc), halike⟩
  · cases hnegate
    exact ⟨hx.child (List.mem_singleton_self m), (hx.isShaped rfl).trans halike⟩
  · split at hnegate
    · cases hnegate
      exact ⟨.intro hx.isFaithful trivial nofun, halike⟩
    · cases hnegate
  · cases hnegate

theorem Shaped.splice (h : n.Shaped functions) : ∀ m ∈ n.splice, m.Shaped functions := by
  cases n with
  | seq info children =>
    rw [Node.splice]
    split
    · exact fun m hm => h.child hm
    · simpa using h
  | nop info => rintro _ ⟨⟩
  | _ => simpa [Node.splice] using h

theorem Shaped.splices (h : n.Shaped functions) : n.Splices := by
  refine splices_of_sequence ?_ ?_
  · cases n with
    | nop info => exact fun _ => h.isShaped
    | absent => exact fun _ => rfl
    | _ => nofun
  · rintro info children rfl
    exact h.isShaped

/-- A conditional with nothing to do otherwise has no value. -/
theorem Shaped.isVoid_of_isNop {cond yes no : Node}
    (h : (ifElse info cond yes no).Shaped functions) (hno : no.isNop) : info.layout.isVoid := by
  obtain ⟨-, ⟨-, hvoid⟩ | halike⟩ := h.isShaped
  · exact hvoid
  · rw [← halike.1.isVoid_eq]
    cases no with
    | absent => rfl
    | nop other => exact (h.child (no_mem_children rfl)).isShaped
    | _ => cases hno

theorem Reduction.shaped (h : Reduction labels n m) (hn : n.Shaped functions) :
    Stands functions n m := by
  have hparts := hn.isShaped
  cases h with
  | simpler h =>
    cases h with
    | fold _ hfolds =>
      have hlayout := layout_eq_of_info_eq hfolds.info_eq
      exact ⟨shaped_of_constant? hfolds.constant (hlayout ▸ hn.isFaithful), hlayout ▸ .refl _⟩
    | left => exact hn.stands (by simp) hparts.1
    | right => exact hn.stands (by simp) hparts.2
    | negate hnegate => exact hn.negate hnegate
    | @same info _ hsame =>
      refine hn.stands (List.mem_singleton_self m) ?_
      obtain halike | ⟨hm, hinfo⟩ := hparts
      · exact halike
      · have hfaithful := (hn.child (List.mem_singleton_self m)).isFaithful
        exact Layout.alike_of_scalar?_eq hm (Layout.scalar?_eq_of_same hfaithful hn.isFaithful hm hinfo hsame)
    | still => exact hn.stands (by simp) hparts
    | yes => exact hn.stands yes_mem_children hparts.1
    | no _ hno =>
      refine hn.stands (no_mem_children hno) (hparts.2.resolve_left ?_)
      simp [hno]
    | skip hno => exact ⟨shaped_nop (hn.isVoid_of_isNop hno), .refl _⟩
    | passed | drop | emptyBlock | emptySeq => exact ⟨shaped_nop hparts, .refl _⟩
    | @swap info info' inner yes no hno _ =>
      have hcond := hn.child cond_mem_children
      have hinner := hcond.child (List.mem_singleton_self inner)
      have hyes := hn.child yes_mem_children
      have hother := hn.child (no_mem_children hno)
      have hlike : no.layout.Alike info.layout := hparts.2.resolve_left (by simp [hno])
      refine ⟨.intro hn.isFaithful ⟨hlike, .inr hparts.1⟩ ?_, .refl _⟩
      rw [children_ifElse]
      split <;> simp [hinner, hyes, hother]
    | aloneBlock | aloneSeq => exact hn.stands (.head _) hparts
    | taken | chosen => exact ⟨.intro hn.isFaithful trivial nofun, .refl _⟩
  | @address info info' ptr index size offset offset' =>
    have haddr := hn.child (.head _)
    refine ⟨.intro hn.isFaithful trivial ?_, .refl _⟩
    simpa using haddr.child (.head _)
  | @rebase info ptr index size =>
    have hptr := hn.child (.head _)
    exact ⟨.intro hptr.isFaithful (.refl _) (fun c hc => hn.child hc), hparts⟩
  | spliceBlock | spliceSeq =>
    refine ⟨.intro hn.isFaithful ?_ (fun c hc => ?_), .refl _⟩
    · exact sequence_flatMap_splice (fun c hc => (hn.child hc).splices) hparts
    · obtain ⟨part, hpart, hc⟩ := List.mem_flatMap.mp hc
      exact (hn.child hpart).splice c hc

theorem Reduces.shaped (h : Reduces labels n m) (hn : n.Shaped functions) : Stands functions n m := by
  induction h with
  | refl => exact ⟨hn, .refl _⟩
  | step _ hlast ih => exact ih.trans (hlast.shaped ih.1)

/-! ## Simplification -/

/-- A node asks of its parts only what their layouts say. -/
theorem IsShaped.rebuild {parts : List Node} (h : n.IsShaped functions)
    (hparts : List.Forall₂ (fun c p => p.layout.Alike c.layout) n.children parts) :
    (n.rebuild parts).IsShaped functions := by
  cases n with
  | binary info op x y =>
    obtain _ | ⟨hx, _ | ⟨hy, _ | _⟩⟩ := hparts
    exact ⟨hx.trans h.1, hy.trans h.2⟩
  | unary info op x =>
    obtain _ | ⟨hx, _ | _⟩ := hparts
    exact fun hop => hx.trans (h hop)
  | convert info x =>
    obtain _ | ⟨hx, _ | _⟩ := hparts
    refine h.imp hx.trans (fun hscalar => ?_)
    rwa [hx.isScalar_eq]
  | scaledOffset info ptr index size =>
    obtain _ | ⟨hptr, _ | ⟨_, _ | _⟩⟩ := hparts
    exact hptr.trans h
  | ifElse info cond yes no =>
    rw [children_ifElse] at hparts
    split at hparts
    next hno =>
      obtain _ | ⟨_, _ | ⟨hyes, _ | _⟩⟩ := hparts
      have hvoid : info.layout.isVoid := by
        obtain ⟨-, hvoid⟩ | halike := h.2
        · exact hvoid
        · cases no with
          | absent => exact halike.symm.1.isVoid_eq
          | _ => cases hno
      exact ⟨hyes.trans h.1, .inl ⟨rfl, hvoid⟩⟩
    next hno =>
      obtain _ | ⟨_, _ | ⟨hyes, _ | ⟨hother, _ | _⟩⟩⟩ := hparts
      exact ⟨hyes.trans h.1, .inr (hother.trans (h.2.resolve_left (fun habsent => hno habsent.1)))⟩
  | block info label children | seq info children =>
    refine Layout.Sequence.of_alike h ?_
    rwa [List.forall₂_map_left_iff, List.forall₂_map_right_iff]
  | call info func name args =>
    obtain ⟨hok, type, htype, hparams⟩ := h
    refine ⟨?_, type, htype, hparams.trans ?_⟩
    · exact forall_mem_of_forall₂ hparts hok (fun _ _ halike => halike.symm.1.isOk_leaves)
    · exact flatMap_eq_of_forall₂ (hparts.imp (fun _ _ halike => halike.1.slots_eq.symm))
  | ret info value =>
    rw [children_ret] at hparts
    split at hparts
    · obtain _ | _ := hparts
      exact h
    · obtain _ | ⟨_, _ | _⟩ := hparts
      exact h
  | compare | assign =>
    obtain _ | ⟨_, _ | ⟨_, _ | _⟩⟩ := hparts
    exact h
  | data | loop | branchIf | branchTable | drop | addressOf =>
    obtain _ | ⟨_, _ | _⟩ := hparts
    exact h
  | structLit | arrayLit | nop => exact h
  | _ =>
    obtain _ | _ := hparts
    exact h

theorem Becomes.shaped (h : n.Becomes labels m) (hn : n.Shaped functions) : Stands functions n m := by
  induction n using childInduction generalizing m with
  | absent =>
    obtain ⟨_, h⟩ := h
    cases h
  | step n hpresent ih =>
    obtain ⟨parts, hfill, hparts, hreduces⟩ := h.cases
    have hrebuilt := rebuilt hfill
    have hlayout := layout_eq_of_info_eq hrebuilt.info
    have hstands : List.Forall₂ (Stands functions) n.children parts :=
      forall₂_imp_mem hparts (fun c p hc hbecomes => ih c hc hbecomes (hn.child hc))
    have hshaped : (n.rebuild parts).Shaped functions := by
      refine .intro (hlayout ▸ hn.isFaithful) ?_ ?_
      · exact hn.isShaped.rebuild (hstands.imp (fun c p hp => hp.2))
      · intro p hp
        rw [hrebuilt.children] at hp
        obtain ⟨c, -, hc⟩ := exists_mem_of_forall₂ hstands hp
        exact hc.1
    have hreduced := hreduces.shaped hshaped
    exact ⟨hreduced.1, hlayout ▸ hreduced.2⟩

end Node

end TreeWasm
