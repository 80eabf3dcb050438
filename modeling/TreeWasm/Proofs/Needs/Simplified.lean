import Mathlib.Data.List.Nodup
import TreeWasm.Proofs.Meaning.Rows
import TreeWasm.Proofs.Needs.Basic

/-! # Simplification and needs

Simplified code needs nothing new: it uses no other slots and functions, has no more branches to any
label, carries no label twice that was carried once, and its branches still stand inside the
constructs they lead to. The last holds because a construct is only opened when no use of its label
is counted.
-/

namespace TreeWasm

namespace Node

variable {labels : Labels} {n m : Node} {around : List Nat} {nodes parts : List Node}

/-! ## Other parts -/

/-- A row of simplified parts for a node. -/
def Fill (n : Node) (parts : List Node) : Prop :=
  parts.length = n.children.length ∧ ∀ p ∈ parts, p.isAbsent = false

/-- A node has these parts, and is otherwise what another one is. -/
structure Rebuilt (n : Node) (parts : List Node) (m : Node) : Prop where
  children : m.children = parts
  needs : m.ownNeeds = n.ownNeeds
  targets : m.ownTargets = n.ownTargets
  label : m.label? = n.label?
  info : m.info = n.info
  absent : m.isAbsent = n.isAbsent
  expression : m.isExpression = n.isExpression
  sequence : m.isSequence = n.isSequence

/-- A node put together again has the new parts, and is otherwise what it was. -/
theorem rebuilt (h : n.Fill parts) : Rebuilt n parts (n.rebuild parts) := by
  obtain ⟨hlen, hpresent⟩ := h
  cases n with
  | ifElse info cond yes no =>
    rw [children_ifElse] at hlen
    split at hlen
    next habsent =>
      obtain ⟨c, y, rfl⟩ := List.length_eq_two.mp hlen
      refine ⟨rfl, rfl, rfl, rfl, rfl, rfl, ?_, rfl⟩
      rw [rebuild, isExpression, isExpression, habsent]
      rfl
    next habsent =>
      obtain ⟨c, y, o, rfl⟩ := List.length_eq_three.mp hlen
      have ho : o.isAbsent = false := hpresent o (by simp)
      refine ⟨?_, rfl, rfl, rfl, rfl, rfl, by simp [rebuild, isExpression, ho, habsent], rfl⟩
      rw [rebuild, children_ifElse, if_neg (by simp [ho])]
  | ret info value =>
    rw [children_ret] at hlen
    split at hlen
    · obtain rfl := List.length_eq_zero_iff.mp hlen
      exact ⟨rfl, rfl, rfl, rfl, rfl, rfl, rfl, rfl⟩
    · obtain ⟨v, rfl⟩ := List.length_eq_one_iff.mp hlen
      have hv : v.isAbsent = false := hpresent v (by simp)
      refine ⟨?_, rfl, rfl, rfl, rfl, rfl, rfl, rfl⟩
      rw [rebuild, children_ret, if_neg (by simp [hv])]
  | block | seq | structLit | arrayLit | call => exact ⟨rfl, rfl, rfl, rfl, rfl, rfl, rfl, rfl⟩
  | binary | compare | scaledOffset | assign =>
    obtain ⟨x, y, rfl⟩ := List.length_eq_two.mp hlen
    exact ⟨rfl, rfl, rfl, rfl, rfl, rfl, rfl, rfl⟩
  | unary | convert | data | loop | branchIf | branchTable | drop | addressOf =>
    obtain ⟨x, rfl⟩ := List.length_eq_one_iff.mp hlen
    exact ⟨rfl, rfl, rfl, rfl, rfl, rfl, rfl, rfl⟩
  | _ =>
    obtain rfl := List.length_eq_zero_iff.mp hlen
    exact ⟨rfl, rfl, rfl, rfl, rfl, rfl, rfl, rfl⟩

/-! ## Reductions -/

theorem needs_of_constant? (h : n.constant?.isSome) : n.needs = [] ∧ n.constructs = [] := by
  cases n <;> simp_all [constant?, needs, constructs]

/-- The statements that stand for one statement have its branches and constructs. -/
theorem splice_spec :
    n.splice.flatMap needs = n.needs ∧ n.splice.flatMap constructs = n.constructs ∧
      n.splice.flatMap targets = n.targets := by
  cases n with
  | seq info children =>
    rw [splice]
    split
    · simp [needs, constructs, targets, needsAll_eq, constructsAll_eq, targetsAll_eq]
    · simp
  | nop info => simp [splice, needs, constructs, targets]
  | _ => simp [splice]

theorem flatMap_splice_spec :
    (nodes.flatMap splice).flatMap needs = nodes.flatMap needs ∧
      (nodes.flatMap splice).flatMap constructs = nodes.flatMap constructs ∧
      (nodes.flatMap splice).flatMap targets = nodes.flatMap targets := by
  refine ⟨?_, ?_, ?_⟩ <;> rw [List.flatMap_assoc] <;> refine List.flatMap_congr (fun n _ => ?_)
  · exact splice_spec.1
  · exact splice_spec.2.1
  · exact splice_spec.2.2

theorem negate?_spec (h : n.negate? = some m) :
    m.needs ⊆ n.needs ∧ m.constructs = n.constructs ∧ m.targets = n.targets ∧ m.isAbsent = n.isAbsent ∨
    ∃ info, n = unary info .not m := by
  unfold negate? at h
  split at h
  · split at h
    · cases h
    · cases h
      exact .inl ⟨by simp [needs], rfl, rfl, rfl⟩
  · cases h
    exact .inr ⟨_, rfl⟩
  · split at h
    · cases h
      exact .inl ⟨by simp [needs, int32], rfl, rfl, rfl⟩
    · cases h
  · cases h

theorem Reduction.needs_subset (h : Reduction labels n m) : m.needs ⊆ n.needs := by
  cases h with
  | simpler h =>
    cases h with
    | fold _ hfolds => simp [(needs_of_constant? hfolds.constant).1]
    | negate hnegate =>
      obtain ⟨hsub, -⟩ | ⟨_, rfl⟩ := negate?_spec hnegate
      · simpa [needs] using hsub
      · simp [needs]
    | _ => simp [needs, needsAll]
  | spliceBlock | spliceSeq => simp [needs, needsAll_eq, flatMap_splice_spec.1]
  | _ => simp [needs, offsetBy]

theorem Reduction.count_constructs (h : Reduction labels n m) (l : Nat) :
    m.constructs.count l ≤ n.constructs.count l := by
  cases h with
  | simpler h =>
    cases h with
    | fold _ hfolds => simp [(needs_of_constant? hfolds.constant).2]
    | negate hnegate =>
      obtain ⟨-, hconstructs, -⟩ | ⟨_, rfl⟩ := negate?_spec hnegate
      · simp [constructs, hconstructs]
      · simp [constructs]
    | _ => simp [constructs, constructsAll] <;> omega
  | spliceBlock | spliceSeq =>
    simp [constructs, constructsAll_eq, flatMap_splice_spec.2.1]
  | _ => simp [constructs, offsetBy]

/-- The branch that a table takes is one of its branches. -/
theorem tableTarget_mem {targets : List Nat} {default : Nat} {i : Int64} :
    tableTarget targets default i ∈ targets ++ [default] := by
  unfold tableTarget
  split
  · simp
  · cases hi : targets[i.toInt.toNat]? with
    | none => simp
    | some l => exact List.mem_append_left _ (by simpa using List.mem_of_getElem? hi)

theorem Reduction.count_targets_le (h : Reduction labels n m) (l : Nat) :
    m.targets.count l ≤ n.targets.count l := by
  cases h with
  | simpler h =>
    cases h with
    | fold _ hfolds => simp [targets_of_constant? hfolds.constant]
    | negate hnegate =>
      obtain ⟨-, -, htargets, -⟩ | ⟨_, rfl⟩ := negate?_spec hnegate
      · simp [targets, htargets]
      · simp [targets]
    | @chosen info index table default i _ =>
      have hmem : 1 ≤ (table ++ [default]).count (tableTarget table default i) :=
        List.count_pos_iff.mpr tableTarget_mem
      simp only [List.count_append, List.count_singleton] at hmem
      simp only [targets, List.count_append, List.count_cons, List.count_nil]
      by_cases hl : tableTarget table default i = l
      · subst hl
        simp at hmem ⊢
        omega
      · simp [hl]
    | _ => simp [targets, targetsAll, List.count_cons] <;> omega
  | spliceBlock | spliceSeq =>
    simp [targets, targetsAll_eq, flatMap_splice_spec.2.2]
  | _ => simp [targets, offsetBy]

section Enclosed

variable {around : List Nat}

theorem Enclosed.child {c : Node} (h : n.Enclosed around) (hlabel : n.label? = none)
    (hc : c ∈ n.children) : c.Enclosed around := by
  have hc := (enclosed_iff.mp h).2 c hc
  rwa [hlabel] at hc

theorem enclosed_of_parts (hinert : n.isInert) (hparts : ∀ c ∈ n.children, c.Enclosed around) :
    n.Enclosed around := by
  simp only [isInert, Bool.and_eq_true, Option.isNone_iff_eq_none, List.isEmpty_iff] at hinert
  refine .intro (by simp [hinert]) (fun c hc => ?_)
  rw [hinert.1]
  exact hparts c hc

theorem Enclosed.splice (h : n.Enclosed around) : ∀ m ∈ n.splice, m.Enclosed around := by
  cases n with
  | seq info children =>
    rw [Node.splice]
    split
    · exact fun m hm => h.child rfl hm
    · simpa using h
  | nop info => nofun
  | _ => simpa [Node.splice] using h

theorem Enclosed.negate (h : n.Enclosed around) (hnegate : n.negate? = some m) : m.Enclosed around := by
  unfold negate? at hnegate
  split at hnegate
  · split at hnegate
    · cases hnegate
    · cases hnegate
      exact enclosed_of_parts rfl (fun c hc => h.child rfl hc)
  · cases hnegate
    exact h.child rfl (by simp)
  · split at hnegate
    · cases hnegate
      exact enclosed_of_targets rfl around
    · cases hnegate
  · cases hnegate

/-- Branches stay inside their constructs, as long as no use of a label is missing from its count. -/
theorem Reduction.enclosed (h : Reduction labels n m)
    (huses : ∀ l, n.targets.count l ≤ labels.uses (some l)) (hn : n.Enclosed around) :
    m.Enclosed around := by
  cases h with
  | simpler h =>
    cases h with
    | fold _ hfolds => exact enclosed_of_targets (targets_of_constant? hfolds.constant) around
    | negate hnegate => exact (hn.child rfl (by simp)).negate hnegate
    | yes => exact hn.child rfl yes_mem_children
    | no _ hno => exact hn.child rfl (no_mem_children hno)
    | @swap info info' inner yes no hno _ =>
      have hcond := hn.child rfl cond_mem_children
      have hinner := hcond.child rfl (List.mem_singleton_self inner)
      have hyes := hn.child rfl yes_mem_children
      have hno := hn.child rfl (no_mem_children hno)
      refine enclosed_of_parts rfl ?_
      rw [children_ifElse]
      split <;> simp [hinner, hyes, hno]
    | @aloneBlock info label child hunused =>
      have hchild := (enclosed_iff.mp hn).2 m (.head _)
      refine hchild.of_targets (fun l hl hmem => ?_)
      rcases List.mem_append.mp hmem with hlabel | haround
      · -- The block carries this label, but then a use of it would be counted.
        obtain rfl : label = some l := by simpa [label?] using hlabel
        have hcount := huses l
        simp only [targets, targetsAll, List.append_nil, hunused] at hcount
        exact absurd (List.count_pos_iff.mpr hl) (by omega)
      · exact haround
    | taken =>
      refine .intro (fun l hl => ?_) (by rintro _ ⟨⟩)
      exact (enclosed_iff.mp hn).1 l hl
    | chosen =>
      refine .intro (fun l hl => ?_) (by rintro _ ⟨⟩)
      obtain rfl := List.mem_singleton.mp hl
      exact (enclosed_iff.mp hn).1 _ tableTarget_mem
    | skip | emptyBlock | emptySeq | passed | drop => exact enclosed_of_targets rfl around
    | _ => exact hn.child rfl (by simp)
  | address =>
    have haddr := hn.child rfl (.head _)
    exact enclosed_of_parts rfl (by simpa using haddr.child rfl (.head _))
  | rebase => exact enclosed_of_parts rfl (fun c hc => hn.child rfl hc)
  | spliceBlock =>
    refine .intro (by rintro _ ⟨⟩) (fun c hc => ?_)
    obtain ⟨part, hpart, hc⟩ := List.mem_flatMap.mp hc
    exact ((enclosed_iff.mp hn).2 part hpart).splice c hc
  | spliceSeq =>
    refine enclosed_of_parts rfl (fun c hc => ?_)
    obtain ⟨part, hpart, hc⟩ := List.mem_flatMap.mp hc
    exact (hn.child rfl hpart).splice c hc

end Enclosed

/-- No part of a node that has to be there is missing. -/
inductive Full : Node → Prop
  | intro {k : Node} : k.isAbsent = false → (∀ c ∈ k.children, Full c) → Full k

theorem Full.isAbsent_eq (h : n.Full) : n.isAbsent = false := by
  cases h with
  | intro h _ => exact h

theorem Full.child {c : Node} (h : n.Full) (hc : c ∈ n.children) : c.Full := by
  cases h with
  | intro _ h => exact h c hc

theorem full_of_constant? (h : n.constant?.isSome) : n.Full := by
  cases n with
  | const32 | const64 | constFloat => exact .intro rfl nofun
  | _ => cases h

theorem Full.negate (h : n.Full) (hnegate : n.negate? = some m) : m.Full := by
  unfold negate? at hnegate
  split at hnegate
  · split at hnegate
    · cases hnegate
    · cases hnegate
      exact .intro rfl (fun c hc => h.child hc)
  · cases hnegate
    exact h.child (by simp)
  · split at hnegate
    · cases hnegate
      exact .intro rfl nofun
    · cases hnegate
  · cases hnegate

theorem Full.splice (h : n.Full) : ∀ m ∈ n.splice, m.Full := by
  cases n with
  | seq info children =>
    rw [Node.splice]
    split
    · exact fun m hm => h.child hm
    · simpa using h
  | nop info => nofun
  | _ => simpa [Node.splice] using h

theorem Reduction.full (h : Reduction labels n m) (hn : n.Full) : m.Full := by
  have hspliced {nodes : List Node} (hall : ∀ c ∈ nodes, c.Full) : ∀ c ∈ nodes.flatMap splice, c.Full := by
    intro c hc
    obtain ⟨part, hpart, hc⟩ := List.mem_flatMap.mp hc
    exact (hall part hpart).splice c hc
  cases h with
  | simpler h =>
    cases h with
    | fold _ hfolds => exact full_of_constant? hfolds.constant
    | negate hnegate => exact (hn.child (by simp)).negate hnegate
    | yes => exact hn.child yes_mem_children
    | no _ hno => exact hn.child (no_mem_children hno)
    | @swap info info' inner yes no hno _ =>
      have hinner := (hn.child cond_mem_children).child (List.mem_singleton_self inner)
      have hyes := hn.child yes_mem_children
      have hno := hn.child (no_mem_children hno)
      refine .intro rfl ?_
      rw [children_ifElse]
      split <;> simp [hinner, hyes, hno]
    | skip | emptyBlock | emptySeq | passed | drop | taken | chosen => exact .intro rfl nofun
    | _ => exact hn.child (by simp)
  | address =>
    have haddr := hn.child (.head _)
    exact .intro rfl (by simpa using haddr.child (.head _))
  | rebase => exact .intro rfl (fun c hc => hn.child hc)
  | spliceBlock | spliceSeq => exact .intro rfl (hspliced (fun c hc => hn.child hc))

/-! ## Simplification -/

theorem Reduction.within (h : Reduction labels n m) : m.demand.Within n.demand :=
  ⟨h.needs_subset, h.count_constructs, h.count_targets_le⟩

theorem Reduces.within (h : Reduces labels n m) : m.demand.Within n.demand := by
  induction h with
  | refl => exact .refl n.demand
  | step _ hlast ih => exact hlast.within.trans ih

theorem Reduces.enclosed (h : Reduces labels n m)
    (huses : ∀ l, n.targets.count l ≤ labels.uses (some l)) (hn : n.Enclosed around) :
    m.Enclosed around := by
  induction h with
  | refl => exact hn
  | step hfirst hlast ih =>
    exact hlast.enclosed (fun l => Nat.le_trans (hfirst.within.targets l) (huses l)) ih

theorem count_flatMap_le {f : Node → List Nat} (l : Nat)
    (h : List.Forall₂ (fun c p => (f p).count l ≤ (f c).count l) nodes parts) :
    (parts.flatMap f).count l ≤ (nodes.flatMap f).count l := by
  induction h with
  | nil => exact Nat.le_refl _
  | cons hpart _ ih =>
    simp only [List.flatMap_cons, List.count_append]
    omega

theorem flatMap_needs_subset (h : List.Forall₂ (fun c p => p.demand.Within c.demand) nodes parts) :
    parts.flatMap needs ⊆ nodes.flatMap needs := by
  induction h with
  | nil => exact List.Subset.refl _
  | cons hpart _ ih =>
    simp only [List.flatMap_cons]
    exact List.append_subset.mpr ⟨List.Subset.trans hpart.needs (List.subset_append_left _ _),
      List.Subset.trans ih (List.subset_append_right _ _)⟩

theorem rebuild_within (hfill : n.Fill parts)
    (h : List.Forall₂ (fun c p => p.demand.Within c.demand) n.children parts) :
    (n.rebuild parts).demand.Within n.demand := by
  have hrebuilt := rebuilt hfill
  refine ⟨?_, fun l => ?_, fun l => ?_⟩
  · change (n.rebuild parts).needs ⊆ n.needs
    rw [needs_eq, needs_eq n, hrebuilt.children, hrebuilt.needs]
    exact List.append_subset.mpr ⟨List.subset_append_left _ _,
      List.Subset.trans (flatMap_needs_subset h) (List.subset_append_right _ _)⟩
  · change (n.rebuild parts).constructs.count l ≤ n.constructs.count l
    rw [constructs_eq, constructs_eq n, hrebuilt.children, hrebuilt.label, List.count_append,
      List.count_append]
    have hparts := count_flatMap_le (f := constructs) l (h.imp (fun c p hp => hp.constructs l))
    omega
  · change (n.rebuild parts).targets.count l ≤ n.targets.count l
    rw [count_targets, count_targets n, hrebuilt.children, hrebuilt.targets]
    have hparts := count_flatMap_le (f := targets) l (h.imp (fun c p hp => hp.targets l))
    omega

theorem Reduces.full (h : Reduces labels n m) (hn : n.Full) : m.Full := by
  induction h with
  | refl => exact hn
  | step _ hlast ih => exact hlast.full ih

theorem rebuild_full (hn : n.isAbsent = false) (hfill : n.Fill parts) (h : ∀ p ∈ parts, p.Full) :
    (n.rebuild parts).Full := by
  have hrebuilt := rebuilt hfill
  exact .intro (hrebuilt.absent.trans hn) (by rwa [hrebuilt.children])

theorem fill_of_full (hlen : parts.length = n.children.length) (h : ∀ p ∈ parts, p.Full) : n.Fill parts :=
  ⟨hlen, fun p hp => (h p hp).isAbsent_eq⟩

theorem Becomes.full (h : n.Becomes labels m) : m.Full := by
  induction n using childInduction generalizing m with
  | absent =>
    obtain ⟨_, h⟩ := h
    cases h
  | step n hn ih =>
    obtain ⟨_, h⟩ := h
    obtain ⟨-, parts, hparts, hreduces⟩ := simplify_eq_ok h
    have hfull : ∀ p ∈ parts, p.Full := by
      intro p hp
      obtain ⟨c, hc, hbecomes⟩ := exists_mem_of_forall₂ hparts hp
      exact ih c hc hbecomes
    exact hreduces.full (rebuild_full hn (fill_of_full hparts.length_eq.symm hfull) hfull)

theorem full_of_becomes (h : List.Forall₂ (Becomes labels) nodes parts) : ∀ p ∈ parts, p.Full :=
  fun _ hp => (exists_mem_of_forall₂ h hp).elim (fun _ hc => hc.2.full)

theorem fill_of_becomes (h : List.Forall₂ (Becomes labels) n.children parts) : n.Fill parts :=
  fill_of_full h.length_eq.symm (full_of_becomes h)

section

variable (h : n.Becomes labels m)
include h

/-- A node put together from simplified parts, before it is reduced. -/
theorem Becomes.cases :
    ∃ parts, n.Fill parts ∧ List.Forall₂ (Becomes labels) n.children parts ∧
      Reduces labels (n.rebuild parts) m := by
  obtain ⟨_, h⟩ := h
  obtain ⟨-, parts, hparts, hreduces⟩ := simplify_eq_ok h
  exact ⟨parts, fill_of_becomes hparts, hparts, hreduces⟩

/-- Simplified code needs nothing new, and has no more branches to any label. -/
theorem Becomes.within : m.demand.Within n.demand := by
  induction n using childInduction generalizing m with
  | absent =>
    obtain ⟨_, h⟩ := h
    cases h
  | step n hn ih =>
    obtain ⟨parts, hfill, hparts, hreduces⟩ := h.cases
    refine hreduces.within.trans (rebuild_within hfill ?_)
    exact forall₂_imp_mem hparts (fun c p hc hbecomes => ih c hc hbecomes)

/-- In simplified code every branch stands inside the construct it leads to. -/
theorem Becomes.enclosed (huses : ∀ l, n.targets.count l ≤ labels.uses (some l))
    (hn : n.Enclosed around) : m.Enclosed around := by
  induction n using childInduction generalizing m around with
  | absent =>
    obtain ⟨_, h⟩ := h
    cases h
  | step n hpresent ih =>
    obtain ⟨parts, hfill, hparts, hreduces⟩ := h.cases
    have hrebuilt := rebuilt hfill
    have hwithin : (n.rebuild parts).demand.Within n.demand :=
      rebuild_within hfill (hparts.imp (fun c p hbecomes => hbecomes.within))
    refine hreduces.enclosed (fun l => Nat.le_trans (hwithin.targets l) (huses l)) ?_
    refine .intro ?_ (fun p hp => ?_)
    · rw [hrebuilt.targets]
      exact (enclosed_iff.mp hn).1
    · rw [hrebuilt.children] at hp
      rw [hrebuilt.label]
      obtain ⟨c, hc, hbecomes⟩ := exists_mem_of_forall₂ hparts hp
      refine ih c hc hbecomes (fun l => ?_) ((enclosed_iff.mp hn).2 c hc)
      exact Nat.le_trans (count_targets_child hc l) (huses l)

end

end Node

/-! ## Counts of uses

The uses that are counted for a label are at least the branches to it. `Node.Counted` says so of a
whole body, together with what makes branches meaningful: each stands inside the construct with its
label, and no two constructs carry the same label. Folding and recounting preserve it, in any order.
-/

namespace Labels

variable {labels : Labels} {l other : Nat}

theorem uses_some : labels.uses (some l) = (labels.counts[l]?).getD 0 := rfl

theorem uses_eq_zero (h : labels.counts.length ≤ l) : labels.uses (some l) = 0 := by
  rw [uses_some, List.getElem?_eq_none h]
  rfl

theorem uses_use (h : other < labels.counts.length) :
    (labels.use other).uses (some l) = labels.uses (some l) + if l = other then 1 else 0 := by
  rw [uses_some, uses_some, use, List.getElem?_modify]
  by_cases hl : other = l
  · subst hl
    simp [List.getElem?_eq_getElem h]
  · cases labels.counts[l]? <;> simp [hl, Ne.symm hl]

theorem uses_useAll {targets : List Nat} (h : ∀ t ∈ targets, t < labels.counts.length) :
    (labels.useAll targets).uses (some l) = labels.uses (some l) + targets.count l := by
  unfold useAll
  induction targets generalizing labels with
  | nil => rfl
  | cons target rest ih =>
    have hfirst := h target (.head _)
    have hrest : ∀ t ∈ rest, t < (labels.use target).counts.length := by
      intro t ht
      have := h t (.tail _ ht)
      simpa [use] using this
    rw [List.foldl_cons, ih hrest, uses_use hfirst, List.count_cons, Nat.add_assoc]
    by_cases hl : l = target
    · subst hl
      simp
      omega
    · simp [hl, Ne.symm hl]

theorem uses_fresh : labels.fresh.1.uses (some l) = labels.uses (some l) := by
  rw [uses_some, uses_some, fresh, List.getElem?_append]
  split
  · rfl
  next h =>
    rw [List.getElem?_eq_none (Nat.le_of_not_lt h)]
    cases l - labels.counts.length <;> rfl

/-- Counting again gives the number of branches to each known label. -/
theorem uses_recount (body : Node) (h : l < labels.counts.length) :
    (labels.recount body).1.uses (some l) = body.targets.count l := by
  simp [uses_some, recount, h]

/-- Counting again tells whether there are fewer uses of some label than were counted before. -/
theorem recount_dropped (labels : Labels) (body : Node) :
    (labels.recount body).2 = true ↔ ∃ l, body.targets.count l < labels.uses (some l) := by
  simp only [recount, List.any_eq_true, decide_eq_true_eq]
  constructor
  · rintro ⟨⟨now, before⟩, hmem, hlt⟩
    obtain ⟨l, hl⟩ := List.getElem?_of_mem hmem
    obtain ⟨hnow, hbefore⟩ := List.getElem?_zip_eq_some.mp hl
    refine ⟨l, ?_⟩
    rw [List.getElem?_map, Option.map_eq_some_iff] at hnow
    obtain ⟨k, hk, rfl⟩ := hnow
    obtain ⟨hl, hk⟩ := List.getElem?_eq_some_iff.mp hk
    obtain rfl : l = k := by simpa using hk
    rw [uses_some, hbefore]
    exact hlt
  · rintro ⟨l, hlt⟩
    have hlen : l < labels.counts.length := by
      by_contra hge
      rw [uses_eq_zero (Nat.le_of_not_lt hge)] at hlt
      exact Nat.not_lt_zero _ hlt
    rw [uses_some, List.getElem?_eq_getElem hlen] at hlt
    refine ⟨(body.targets.count l, labels.counts[l]), ?_, hlt⟩
    refine List.mem_of_getElem? (i := l) (List.getElem?_zip_eq_some.mpr ⟨?_, ?_⟩)
    · simp [hlen]
    · exact List.getElem?_eq_getElem hlen

end Labels

namespace Node

variable {labels' : Labels} {body : Node}

/-- No branch of a body is missing from the counts, and each stands inside the one construct that
carries its label. -/
structure Counted (labels : Labels) (body : Node) : Prop where
  uses : ∀ l, body.targets.count l ≤ labels.uses (some l)
  enclosed : body.Enclosed []
  distinct : body.constructs.Nodup

/-- What a body can become between its construction and its emission: it may be folded, and its
branches may be counted again. -/
inductive Stage (labels : Labels) (body : Node) : Labels → Node → Prop
  | built : Stage labels body labels body
  | folded {labels' n m} : Stage labels body labels' n → n.Becomes labels' m → Stage labels body labels' m
  | recounted {labels' n} : Stage labels body labels' n → Stage labels body (labels'.recount n).1 n

variable {labels : Labels} {n m : Node}

theorem Counted.fold (h : n.Counted labels) (hbecomes : n.Becomes labels m) : m.Counted labels where
  uses := fun l => Nat.le_trans (hbecomes.within.targets l) (h.uses l)
  enclosed := hbecomes.enclosed h.uses h.enclosed
  distinct := List.nodup_iff_count_le_one.mpr (fun l =>
    Nat.le_trans (hbecomes.within.constructs l) (List.nodup_iff_count_le_one.mp h.distinct l))

theorem Counted.uses_recount (h : n.Counted labels) (l : Nat) :
    (labels.recount n).1.uses (some l) = n.targets.count l := by
  rcases Nat.lt_or_ge l labels.counts.length with hl | hl
  · exact Labels.uses_recount n hl
  · have hnone := h.uses l
    rw [Labels.uses_eq_zero hl] at hnone
    rw [Labels.uses_eq_zero (by simpa [Labels.recount] using hl)]
    omega

theorem Counted.recount (h : n.Counted labels) : n.Counted (labels.recount n).1 :=
  { h with uses := fun l => Nat.le_of_eq (h.uses_recount l).symm }

/-- Whatever is done to a body until it is emitted, its branches stay counted. -/
theorem Stage.counted (h : Stage labels body labels' n) (hbody : body.Counted labels) :
    n.Counted labels' := by
  induction h with
  | built => exact hbody
  | folded _ hbecomes ih => exact ih.fold hbecomes
  | recounted _ ih => exact ih.recount

theorem Stage.within (h : Stage labels body labels' n) : n.demand.Within body.demand := by
  induction h with
  | built => exact .refl _
  | folded _ hbecomes ih => exact hbecomes.within.trans ih
  | recounted _ ih => exact ih

end Node

end TreeWasm
