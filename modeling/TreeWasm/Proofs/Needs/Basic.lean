import TreeWasm.Proofs.Simplify.Reductions

/-! # What code needs

A node needs things from around it: memory for its values there, slots, the functions that it calls,
and for each branch a construct with its label that the branch stands in. `Node.needs` collects the
first three, `Node.Enclosed` is about branches, and `Node.constructs` lists the labels that a node
carries itself.

All of them are given by what a node needs by itself and what its parts need, so that most facts
about them hold for all forms of nodes at once.
-/

namespace TreeWasm

/-- Something that code needs from around it. -/
inductive Need
  | memory
  /-- Slots that hold a value of a layout. -/
  | slots (layout : Layout) (slots : List Nat)
  | function (index : Nat)

namespace Node

/-- The needs of a node itself. -/
def ownNeeds : Node → List Need
  | data .. => [.memory]
  | locals info slots => [.slots info.layout slots]
  | call _ func _ _ => [.function func]
  | _ => []

/-- The labels that a node itself branches to. -/
def ownTargets : Node → List Nat
  | branch _ label | branchIf _ label _ => [label]
  | branchTable _ _ targets default => targets ++ [default]
  | _ => []

/-- The label that a node carries. -/
def label? : Node → Option Nat
  | loop _ label _ | block _ label _ => label
  | _ => none

/-- Whether a node carries no label and has no branches of its own. -/
def isInert (n : Node) : Bool := n.label?.isNone && n.ownTargets.isEmpty

mutual

/-- The needs of a node and of all nodes inside it. -/
def needs : Node → List Need
  | absent | const32 .. | const64 .. | constFloat .. | unreachable .. | nop .. | branch .. => []
  | locals info slots => [.slots info.layout slots]
  | data _ addr _ => .memory :: needs addr
  | call _ func _ args => .function func :: needsAll args
  | binary _ _ x y | compare _ _ x y => needs x ++ needs y
  | unary _ _ x | convert _ x | drop _ x | addressOf _ x => needs x
  | scaledOffset _ ptr index _ => needs ptr ++ needs index
  | ifElse _ cond yes no => needs cond ++ (needs yes ++ needs no)
  | loop _ _ body => needs body
  | block _ _ children => needsAll children
  | seq _ children => needsAll children
  | branchIf _ _ cond => needs cond
  | branchTable _ index _ _ => needs index
  | ret _ value => needs value
  | structLit _ fields => needsAll fields
  | arrayLit _ elems => needsAll elems
  | assign _ target value => needs target ++ needs value

def needsAll : List Node → List Need
  | [] => []
  | n :: rest => needs n ++ needsAll rest

end

mutual

/-- The labels that a node and the nodes inside it carry. -/
def constructs : Node → List Nat
  | absent | const32 .. | const64 .. | constFloat .. | unreachable .. | nop .. | branch ..
  | locals .. => []
  | data _ addr _ => constructs addr
  | call _ _ _ args => constructsAll args
  | binary _ _ x y | compare _ _ x y => constructs x ++ constructs y
  | unary _ _ x | convert _ x | drop _ x | addressOf _ x => constructs x
  | scaledOffset _ ptr index _ => constructs ptr ++ constructs index
  | ifElse _ cond yes no => constructs cond ++ (constructs yes ++ constructs no)
  | loop _ label body => label.toList ++ constructs body
  | block _ label children => label.toList ++ constructsAll children
  | seq _ children => constructsAll children
  | branchIf _ _ cond => constructs cond
  | branchTable _ index _ _ => constructs index
  | ret _ value => constructs value
  | structLit _ fields => constructsAll fields
  | arrayLit _ elems => constructsAll elems
  | assign _ target value => constructs target ++ constructs value

def constructsAll : List Node → List Nat
  | [] => []
  | n :: rest => constructs n ++ constructsAll rest

end

end Node

/-- All that a piece of code asks for: its needs, the labels that it carries and those that it branches
to. Labels are listed as often as they occur. -/
structure Demand where
  needs : List Need
  constructs : List Nat
  targets : List Nat

namespace Demand

/-- Nothing is asked for. -/
@[grind]
def none : Demand := ⟨[], [], []⟩

/-- Some needs alone. -/
@[grind =]
def ofNeeds (needs : List Need) : Demand := ⟨needs, [], []⟩

/-- A construct with a label. -/
@[grind =]
def label (l : Nat) : Demand := ⟨[], [l], []⟩

/-- Constructs with some labels. -/
@[grind =]
def labels (labels : List Nat) : Demand := ⟨[], labels, []⟩

/-- Branches to some labels. -/
@[grind =]
def branches (labels : List Nat) : Demand := ⟨[], [], labels⟩

instance : Append Demand :=
  ⟨fun d e => ⟨d.needs ++ e.needs, d.constructs ++ e.constructs, d.targets ++ e.targets⟩⟩

@[simp, grind =]
theorem needs_append (d e : Demand) : (d ++ e).needs = d.needs ++ e.needs := rfl

@[simp, grind =]
theorem constructs_append (d e : Demand) : (d ++ e).constructs = d.constructs ++ e.constructs := rfl

@[simp, grind =]
theorem targets_append (d e : Demand) : (d ++ e).targets = d.targets ++ e.targets := rfl

@[simp]
theorem none_append (d : Demand) : none ++ d = d := rfl

@[simp]
theorem append_none (d : Demand) : d ++ none = d := by
  change Demand.mk _ _ _ = d
  simp [none]

theorem append_assoc (d e f : Demand) : d ++ e ++ f = d ++ (e ++ f) := by
  change Demand.mk _ _ _ = Demand.mk _ _ _
  simp

/-- One demand asks for no more than another. -/
structure Within (d e : Demand) : Prop where
  needs : d.needs ⊆ e.needs
  constructs : ∀ l, d.constructs.count l ≤ e.constructs.count l
  targets : ∀ l, d.targets.count l ≤ e.targets.count l

/-- Nothing branches. -/
@[grind =]
def Free (d : Demand) : Prop := d.constructs = [] ∧ d.targets = []

variable {d d' e e' : Demand}

-- With this, `grind` compares demands that are put together from parts.
@[grind =]
theorem within_iff : d.Within e ↔ (∀ need ∈ d.needs, need ∈ e.needs) ∧
    ∀ l, d.constructs.count l ≤ e.constructs.count l ∧ d.targets.count l ≤ e.targets.count l :=
  ⟨fun h => ⟨fun _ hneed => h.needs hneed, fun l => ⟨h.constructs l, h.targets l⟩⟩,
    fun h => ⟨fun _ hneed => h.1 _ hneed, fun l => (h.2 l).1, fun l => (h.2 l).2⟩⟩

theorem Within.refl (d : Demand) : d.Within d := by grind

theorem Within.trans (h : d.Within d') (h' : d'.Within e) : d.Within e := by grind

theorem Within.append (h : d.Within e) (h' : d'.Within e') : (d ++ d').Within (e ++ e') := by grind

theorem free_ofNeeds {needs : List Need} : (ofNeeds needs).Free := ⟨rfl, rfl⟩

theorem Free.append (hd : d.Free) (he : e.Free) : (d ++ e).Free := by grind

theorem Free.twice (h : d.Free) : (d ++ d).Within d := by grind

theorem Within.none (d : Demand) : Demand.none.Within d := by grind

theorem within_append_left : d.Within (d ++ e) := by grind

theorem within_comm (d e : Demand) : (d ++ e).Within (e ++ d) := by grind

theorem within_left_comm {f : Demand} : (d ++ (e ++ f)).Within (e ++ (d ++ f)) := by grind

theorem within_append_right (d e : Demand) : e.Within (d ++ e) := by grind

end Demand

namespace Node

def demand (n : Node) : Demand := ⟨n.needs, n.constructs, n.targets⟩

def demandAll (nodes : List Node) : Demand := ⟨needsAll nodes, constructsAll nodes, targetsAll nodes⟩

section Demand

variable {info : Info} {op : Operator} {x y z : Node} {nodes rest : List Node} {size : Int64} {l : Nat}

@[simp] theorem demandAll_nil : demandAll [] = .none := rfl

@[simp] theorem demandAll_cons : demandAll (x :: rest) = x.demand ++ demandAll rest := rfl

@[simp] theorem demandAll_append : demandAll (nodes ++ rest) = demandAll nodes ++ demandAll rest := by
  induction nodes with
  | nil => rfl
  | cons x nodes ih => rw [List.cons_append, demandAll_cons, demandAll_cons, ih, Demand.append_assoc]

@[simp] theorem demand_absent : absent.demand = .none := rfl

@[simp] theorem demand_drop : (drop info x).demand = x.demand := rfl

@[simp] theorem demand_nop : (nop info).demand = .none := rfl

@[simp] theorem demand_unreachable : (unreachable info).demand = .none := rfl

@[simp] theorem demand_binary : (binary info op x y).demand = x.demand ++ y.demand := rfl

@[simp] theorem demand_compare : (compare info op x y).demand = x.demand ++ y.demand := rfl

@[simp] theorem demand_unary : (unary info op x).demand = x.demand := rfl

@[simp] theorem demand_convert : (convert info x).demand = x.demand := rfl

@[simp] theorem demand_assign : (assign info x y).demand = x.demand ++ y.demand := rfl

@[simp]
theorem demand_data {offset : Int64} : (data info x offset).demand = .ofNeeds [.memory] ++ x.demand := rfl

@[simp]
theorem demand_locals {slots : List Nat} :
    (locals info slots).demand = .ofNeeds [.slots info.layout slots] := rfl

@[simp]
theorem demand_scaledOffset : (scaledOffset info x y size).demand = x.demand ++ y.demand := rfl

@[simp]
theorem demand_ifElse : (ifElse info x y z).demand = x.demand ++ (y.demand ++ z.demand) := rfl

@[simp]
theorem demand_loop : (loop info (some l) x).demand = .label l ++ x.demand := rfl

@[simp]
theorem demand_block : (block info (some l) nodes).demand = .label l ++ demandAll nodes := rfl

@[simp] theorem demand_seq : (seq info nodes).demand = demandAll nodes := rfl

@[simp] theorem demand_arrayLit : (arrayLit info nodes).demand = demandAll nodes := rfl

@[simp]
theorem demand_call {name : String} :
    (call info l name nodes).demand = .ofNeeds [.function l] ++ demandAll nodes := rfl

@[simp] theorem demand_branch : (branch info l).demand = .branches [l] := rfl

@[simp]
theorem demand_branchIf : (branchIf info l x).demand = .branches [l] ++ x.demand := rfl

@[simp]
theorem demand_branchTable {labels : List Nat} :
    (branchTable info x labels l).demand = .branches (labels ++ [l]) ++ x.demand := by
  change Demand.mk _ _ _ = Demand.mk _ _ _
  simp [Demand.branches, demand, targets, needs, constructs]

end Demand

/-- Every branch in a node leads to a construct around it: to one inside the node that carries its
label, or to one outside of the node with one of the given labels. -/
inductive Enclosed : List Nat → Node → Prop
  | intro {around n} : (∀ l ∈ n.ownTargets, l ∈ around) →
      (∀ c ∈ n.children, Enclosed (n.label?.toList ++ around) c) → Enclosed around n

/-! ## Wholes and parts -/

theorem needsAll_eq (nodes : List Node) : needsAll nodes = nodes.flatMap needs := by
  induction nodes with
  | nil => rfl
  | cons n rest ih => rw [needsAll, ih, List.flatMap_cons]

theorem constructsAll_eq (nodes : List Node) : constructsAll nodes = nodes.flatMap constructs := by
  induction nodes with
  | nil => rfl
  | cons n rest ih => rw [constructsAll, ih, List.flatMap_cons]

/-- A node needs what it needs by itself and what its parts need. -/
theorem needs_eq (n : Node) : n.needs = n.ownNeeds ++ n.children.flatMap needs := by
  cases n with
  | ifElse info cond yes last | ret info last => cases last <;> simp [needs, ownNeeds]
  | _ => simp [needs, ownNeeds, needsAll_eq]

theorem constructs_eq (n : Node) : n.constructs = n.label?.toList ++ n.children.flatMap constructs := by
  cases n with
  | ifElse info cond yes last | ret info last => cases last <;> simp [constructs, label?]
  | _ => simp [constructs, label?, constructsAll_eq]

theorem count_targets (n : Node) (l : Nat) :
    n.targets.count l = n.ownTargets.count l + (n.children.flatMap targets).count l := by
  cases n with
  | ifElse info cond yes no =>
    cases no <;> simp [targets, ownTargets, List.count_append]
  | ret info value => cases value <;> simp [targets, ownTargets]
  | branchTable info index labels default =>
    simp [targets, ownTargets, List.count_append, List.count_cons]
    omega
  | branchIf info label cond =>
    simp [targets, ownTargets, List.count_cons]
    omega
  | _ => simp [targets, ownTargets, targetsAll_eq, List.count_append]

theorem enclosed_iff {around : List Nat} {n : Node} :
    n.Enclosed around ↔ (∀ l ∈ n.ownTargets, l ∈ around) ∧
      ∀ c ∈ n.children, c.Enclosed (n.label?.toList ++ around) := by
  constructor
  · rintro ⟨hown, hparts⟩
    exact ⟨hown, hparts⟩
  · exact fun h => .intro h.1 h.2

theorem mem_targets {n : Node} {l : Nat} :
    l ∈ n.targets ↔ l ∈ n.ownTargets ∨ ∃ c ∈ n.children, l ∈ c.targets := by
  rw [← List.count_pos_iff, count_targets, Nat.add_pos_iff_pos_or_pos, List.count_pos_iff,
    List.count_pos_iff, List.mem_flatMap]

/-- Only the labels that a node branches to matter to what encloses it. -/
theorem Enclosed.of_targets {around around' : List Nat} {n : Node} (h : n.Enclosed around)
    (hlabels : ∀ l ∈ n.targets, l ∈ around → l ∈ around') : n.Enclosed around' := by
  induction h generalizing around' with
  | @intro around n hown hparts ih =>
    refine .intro (fun l hl => hlabels l (mem_targets.mpr (.inl hl)) (hown l hl)) (fun c hc => ?_)
    refine ih c hc (fun l hl hmem => ?_)
    rcases List.mem_append.mp hmem with hlabel | haround
    · exact List.mem_append_left _ hlabel
    · exact List.mem_append_right _ (hlabels l (mem_targets.mpr (.inr ⟨c, hc, hl⟩)) haround)

theorem Enclosed.mono {around around' : List Nat} {n : Node} (h : n.Enclosed around)
    (hsub : around ⊆ around') : n.Enclosed around' :=
  h.of_targets (fun _ _ hmem => hsub hmem)

theorem enclosed_of_targets {n : Node} (h : n.targets = []) (around : List Nat) : n.Enclosed around := by
  induction n using childInduction generalizing around with
  | absent => exact .intro nofun nofun
  | step n hn ih =>
    have hnone : ∀ l, l ∉ n.targets := by simp [h]
    refine .intro (fun l hl => absurd (mem_targets.mpr (.inl hl)) (hnone l)) (fun c hc => ?_)
    refine ih c hc ?_ _
    rw [List.eq_nil_iff_forall_not_mem]
    exact fun l hl => hnone l (mem_targets.mpr (.inr ⟨c, hc, hl⟩))

end Node

end TreeWasm
