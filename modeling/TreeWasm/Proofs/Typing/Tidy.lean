import TreeWasm.Program.Tree
import TreeWasm.Typed.Sameness

/-! # Trees as they are read

Written types are whole: only the check makes locations. The bodies of loops and of the cases of a
switch are blocks, so that what they declare is not seen outside of them. A tree that was checked has
a type at each of its nodes.
-/

namespace TreeWasm

variable {t : Ty}

mutual

/-- Whether all parts of a type are there, and none is a location. -/
def Ty.isWhole : Ty → Bool
  | .absent | .location _ => false
  | .builtin _ | .aggregate _ => true
  | .pointer _ elem | .array _ _ elem => elem.isWhole
  | .function _ params result => Ty.areWhole params && result.isWhole

def Ty.areWhole : List Ty → Bool
  | [] => true
  | t :: rest => t.isWhole && Ty.areWhole rest

end

namespace Ty

/-- Whether a type is whole, or left out. -/
def isPlain : Ty → Bool
  | .absent => true
  | t => t.isWhole

theorem isPlain_of_isWhole (h : t.isWhole) : t.isPlain := by
  cases t with
  | absent => cases h
  | _ => exact h

theorem isWhole_of_isPlain (h : t.isPlain) (hwritten : t.isAbsent = false) : t.isWhole := by
  cases t with
  | absent => cases hwritten
  | _ => exact h

theorem isAbsent_of_isWhole (h : t.isWhole) : t.isAbsent = false := by
  cases t with
  | absent => cases h
  | _ => rfl

theorem areWhole_iff {types : List Ty} : areWhole types ↔ ∀ t ∈ types, t.isWhole := by
  induction types with
  | nil => simp [areWhole]
  | cons t rest ih => simp [areWhole, ih]

theorem unwrap_of_isPlain (h : t.isPlain) : t.unwrap = t := by
  cases t with
  | location elem => cases h
  | _ => rfl

theorem isPlain_unwrap (h : t.isPlain) : t.unwrap.isPlain := by
  rwa [unwrap_of_isPlain h]

theorem unwrap_of_isWhole (h : t.isWhole) : t.unwrap = t := unwrap_of_isPlain (isPlain_of_isWhole h)

theorem isWhole_unwrap (h : t.isWhole) : t.unwrap.isWhole := by
  rwa [unwrap_of_isWhole h]

theorem isWhole_unwrap_location (h : t.isWhole) : (location t).unwrap.isWhole := by
  rwa [unwrap, unwrap_of_isWhole h]

theorem isLocation_of_isWhole (h : t.isWhole) : t.isLocation = false := by
  cases t with
  | location elem => cases h
  | _ => rfl

end Ty

/-- The fields of all aggregates have whole types. -/
def Aggregate.AreWhole (aggregates : Array Aggregate) : Prop :=
  ∀ a ∈ aggregates, ∀ field ∈ a.fields.bindings, field.2.isWhole

namespace Tree

def isBlock : Tree → Bool
  | .block .. => true
  | _ => false

def isCase : Tree → Bool
  | .case .. => true
  | _ => false

def isImport : Tree → Bool
  | .importDecl .. => true
  | _ => false

def isDeclaration : Tree → Bool
  | .varDecl .. | .funcDecl .. => true
  | _ => false

/-- Whether a tree declares a parameter, with its type and no initial value. -/
def isParameter : Tree → Bool
  | .varDecl _ _ declared init => declared.isWhole && init.isMissing
  | _ => false

mutual

/-- Whether a tree is as trees are read: nothing that has to be there is left out, written types are
whole, and bodies are blocks. -/
@[simp] def isTidy : Tree → Bool
  | .missing => false
  | .bool .. | .ident .. | .break _ | .continue _ => true
  | .number info _ | .float info _ => info.type.isPlain
  | .assign _ _ target value => target.isTidy && value.isTidy
  | .binary _ _ left right => left.isTidy && right.isTidy
  | .unary _ _ operand | .deref _ operand | .addressOf _ operand | .member _ operand _ =>
    operand.isTidy
  | .call _ _ args => areTidy args
  | .subscript _ array index => array.isTidy && index.isTidy
  | .cast _ value target => value.isTidy && target.isWhole
  | .structLit _ _ values | .arrayLit _ values => areTidy values
  | .module _ imports decls _ =>
    imports.all isImport && areTidy imports && decls.all isDeclaration && areTidy decls
  | .importDecl _ _ _ _ signature => signature.isWhole
  | .funcDecl _ _ params body result _ => params.all isParameter && body.isTidy && result.isPlain
  | .varDecl _ _ declared init => declared.isPlain && (init.isMissing || init.isTidy)
  | .ifElse _ cond yes no => cond.isTidy && yes.isTidy && (no.isMissing || no.isTidy)
  | .whileLoop _ cond body => cond.isTidy && body.isBlock && body.isTidy
  | .loop _ body => body.isBlock && body.isTidy
  | .ret _ value => value.isMissing || value.isTidy
  | .block _ stmts => areTidy stmts
  | .switch _ selector cases fallback =>
    selector.isTidy && cases.all isCase && areTidy cases &&
      (fallback.isMissing || fallback.isBlock && fallback.isTidy)
  | .case _ _ body => body.isBlock && body.isTidy

def areTidy : List Tree → Bool
  | [] => true
  | tree :: rest => tree.isTidy && areTidy rest

end

theorem areTidy_iff {trees : List Tree} : areTidy trees ↔ ∀ tree ∈ trees, tree.isTidy := by
  induction trees with
  | nil => simp [areTidy]
  | cons tree rest ih => simp [areTidy, ih]

theorem isTidy_withType {tree : Tree} (h : tree.isTidy) (ht : t.isPlain) : (tree.withType t).isTidy := by
  cases tree with
  | number | float => exact ht
  | _ => exact h

/-! ## Trees with types -/

/-- The nodes right below a node that have to be there. -/
def required : Tree → List Tree
  | .assign _ _ left right | .binary _ _ left right | .subscript _ left right
  | .whileLoop _ left right => [left, right]
  | .unary _ _ part | .deref _ part | .addressOf _ part | .member _ part _ | .cast _ part _
  | .loop _ part | .case _ _ part => [part]
  | .call _ part parts | .switch _ part parts _ | .funcDecl _ _ parts part _ _ => part :: parts
  | .structLit _ _ parts | .arrayLit _ parts | .block _ parts => parts
  | .module _ imports decls _ => imports ++ decls
  | .ifElse info cond yes no => cond :: yes :: if info.type.isVoid then [] else [no]
  | _ => []

/-- The nodes right below a node that may be left out. -/
def optional : Tree → List Tree
  | .ifElse _ _ _ part | .varDecl _ _ _ part | .switch _ _ _ part | .ret _ part => [part]
  | _ => []

/-- The tree has all parts that it needs, and all its nodes have types. -/
inductive Typed : Tree → Prop
  | node {tree : Tree} :
      tree.type.unwrap.isWhole → (∀ part ∈ tree.required, Typed part) →
      (∀ part ∈ tree.optional, part.isMissing = false → Typed part) → Typed tree

/-- A node of a tree. -/
inductive Within : Tree → Tree → Prop
  | self (tree : Tree) : Within tree tree
  | under {tree part node : Tree} :
      part ∈ tree.required ++ tree.optional → Within part node → Within tree node

namespace Typed

variable {tree part : Tree}

section

variable (h : tree.Typed)
include h

theorem type : tree.type.unwrap.isWhole := by
  cases h; assumption

theorem required : ∀ part ∈ tree.required, part.Typed := by
  cases h; assumption

theorem optional : ∀ part ∈ tree.optional, part.isMissing = false → part.Typed := by
  cases h; assumption

theorem one : ∀ part ∈ [tree], part.Typed := List.forall_mem_singleton.mpr h

theorem two (h' : part.Typed) : ∀ other ∈ [tree, part], other.Typed := List.forall_mem_cons.mpr ⟨h, h'.one⟩

end

theorem ifElse {info : TreeInfo} {cond yes no : Tree} (htype : info.type.unwrap.isWhole)
    (hcond : cond.Typed) (hyes : yes.Typed) (hno : no.Typed) : (Tree.ifElse info cond yes no).Typed := by
  refine .node htype ?_ (fun _ hpart _ => hno.one _ hpart)
  apply List.forall_mem_cons.mpr ⟨hcond, List.forall_mem_cons.mpr ⟨hyes, ?_⟩⟩
  split
  · exact nofun
  · exact hno.one

section

variable (h : tree.Typed)
include h

theorem isAbsent : tree.type.isAbsent = false := by
  have htype := h.type
  cases ht : tree.type with
  | absent =>
    rw [ht] at htype
    cases htype
  | _ => rfl

theorem isPlain : tree.type.unwrap.isPlain := Ty.isPlain_of_isWhole h.type

theorem isAbsent_pointee {occurrence : Nat} {elem : Ty}
    (ht : tree.type.unwrap = .pointer occurrence elem) : elem.isAbsent = false := by
  have htype := h.type
  rw [ht] at htype
  exact Ty.isAbsent_of_isWhole htype

/-- Every node of a typed tree has a type, unless it is left out. -/
theorem isAbsent_within {node : Tree} (hnode : tree.Within node)
    (hpresent : node.isMissing = false) : node.type.isAbsent = false := by
  replace h : tree.isMissing = false → tree.Typed := fun _ => h
  induction hnode with
  | self => exact (h hpresent).isAbsent
  | @under tree part node hpart hnode ih =>
    -- There is nothing under a node that is left out.
    have htree : tree.Typed := by
      apply h
      cases tree with
      | missing => cases hpart
      | _ => rfl
    rcases List.mem_append.mp hpart with hpart | hpart
    · exact ih hpresent (fun _ => htree.required part hpart)
    · exact ih hpresent (htree.optional part hpart)

end

end Typed

end Tree

end TreeWasm
