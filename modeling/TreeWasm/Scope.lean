/-! # Scopes

A level binds names in the order of their first definition; defining a name again replaces its
value and keeps its place. A chain of levels, innermost first, is searched from the inside out.
A scope tree keeps levels that enclose one another and grow independently.

The view of a level is its list of bindings. `Level.names_define` says how a definition changes
the names, `Level.find?_define` how it changes the values.
-/

namespace TreeWasm

/-- One lexical level: names with their values, in the order of first definition. -/
structure Level (α : Type) where
  bindings : List (String × α)
  deriving Repr

namespace Level

variable {α : Type}

def empty : Level α := ⟨[]⟩

instance : Inhabited (Level α) := ⟨empty⟩

/-- Replaces the value bound to a name, in place, or adds the binding at the end. -/
def bind (name : String) (value : α) : List (String × α) → List (String × α)
  | [] => [(name, value)]
  | (other, old) :: rest =>
    if other = name then (name, value) :: rest else (other, old) :: bind name value rest

def define (level : Level α) (name : String) (value : α) : Level α :=
  ⟨bind name value level.bindings⟩

def find? (level : Level α) (name : String) : Option α :=
  level.bindings.lookup name

def names (level : Level α) : List String :=
  level.bindings.map Prod.fst

def size (level : Level α) : Nat :=
  level.bindings.length

def get? (level : Level α) (i : Nat) : Option (String × α) :=
  level.bindings[i]?

/-- The names that follow a name in its level. -/
def namesAfter (level : Level α) (name : String) : List String :=
  (level.names.dropWhile (· != name)).drop 1

def contains (level : Level α) (name : String) : Bool :=
  (level.find? name).isSome

theorem lookup_bind (name other : String) (value : α) (bindings : List (String × α)) :
    (bind name value bindings).lookup other =
      if other = name then some value else bindings.lookup other := by
  induction bindings with
  | nil => by_cases h : other = name <;> simp [bind, h, List.lookup_cons, beq_false_of_ne]
  | cons head rest ih =>
    obtain ⟨key, old⟩ := head
    by_cases hkey : key = name
    · subst hkey
      by_cases h : other = key <;> simp [bind, h, List.lookup_cons, beq_false_of_ne]
    · by_cases h : other = name
      · subst h
        simp [bind, hkey, List.lookup_cons, ih, beq_false_of_ne (Ne.symm hkey)]
      · simp [bind, hkey, List.lookup_cons, ih, h]

theorem find?_define (level : Level α) (name other : String) (value : α) :
    (level.define name value).find? other =
      if other = name then some value else level.find? other :=
  lookup_bind name other value level.bindings

theorem mem_of_lookup {name : String} {value : α} {bindings : List (String × α)}
    (h : bindings.lookup name = some value) : (name, value) ∈ bindings := by
  obtain ⟨before, after, rfl, -⟩ := List.lookup_eq_some_iff.mp h
  exact List.mem_append_right before List.mem_cons_self

theorem lookup_of_mem {entry : String × α} {bindings : List (String × α)}
    (hnodup : (bindings.map Prod.fst).Nodup) (h : entry ∈ bindings) :
    bindings.lookup entry.1 = some entry.2 := by
  induction bindings with
  | nil => cases h
  | cons head rest ih => grind

theorem map_fst_bind (name : String) (value : α) (bindings : List (String × α)) :
    (bind name value bindings).map Prod.fst =
      if name ∈ bindings.map Prod.fst then bindings.map Prod.fst
      else bindings.map Prod.fst ++ [name] := by
  induction bindings with
  | nil => simp [bind]
  | cons head rest ih =>
    obtain ⟨key, old⟩ := head
    by_cases hkey : key = name
    · subst hkey
      simp [bind]
    · simp only [bind, hkey, if_false, List.map_cons, ih, List.mem_cons, Ne.symm hkey, false_or]
      split <;> simp

/-- A definition adds a new name at the end and leaves the names of a known one as they are. -/
theorem names_define (level : Level α) (name : String) (value : α) :
    (level.define name value).names =
      if name ∈ level.names then level.names else level.names ++ [name] :=
  map_fst_bind name value level.bindings

end Level

/-- Levels that enclose one another, innermost first. -/
abbrev Chain (α : Type) := List (Level α)

namespace Chain

variable {α : Type}

/-- The value bound to a name in the innermost level that binds it. -/
def lookup (chain : Chain α) (name : String) : Option α :=
  chain.findSome? (fun level => level.find? name)

def lookupLocal (chain : Chain α) (name : String) : Option α :=
  chain.head?.bind (fun level => level.find? name)

def define (chain : Chain α) (name : String) (value : α) : Chain α :=
  match chain with
  | [] => [Level.empty.define name value]
  | level :: rest => level.define name value :: rest

theorem lookupLocal_define (chain : Chain α) (name other : String) (value : α) :
    (chain.define name value).lookupLocal other =
      if other = name then some value else chain.lookupLocal other := by
  cases chain with
  | nil => exact Level.find?_define Level.empty name other value
  | cons level rest => exact Level.find?_define level name other value

theorem tail_define (chain : Chain α) (name : String) (value : α) :
    (chain.define name value).tail = chain.tail := by
  cases chain <;> rfl

theorem lookup_define (chain : Chain α) (name other : String) (value : α) :
    (chain.define name value).lookup other =
      if other = name then some value else chain.lookup other := by
  by_cases hother : other = name
  · cases chain with
    | nil => simp only [define, lookup, List.findSome?_cons, Level.find?_define, if_pos hother]
    | cons level rest =>
      simp only [define, lookup, List.findSome?_cons, Level.find?_define, if_pos hother]
  · cases chain with
    | nil =>
      simp only [define, lookup, List.findSome?_cons, Level.find?_define, if_neg hother]
      rfl
    | cons level rest =>
      simp only [define, lookup, List.findSome?_cons, Level.find?_define, if_neg hother]

/-- A level without names hides none. -/
theorem lookup_empty_cons (chain : Chain α) (name : String) :
    lookup (Level.empty :: chain) name = chain.lookup name := rfl

end Chain

/-- A level of a scope tree with the indices of the levels around it, nearest first. -/
structure ScopeNode (α : Type) where
  level : Level α
  enclosing : List Nat
  deriving Repr

/-- Levels that may be defined into at any time, each known by its index. -/
structure ScopeTree (α : Type) where
  nodes : List (ScopeNode α)
  deriving Repr

namespace ScopeTree

variable {α : Type}

/-- One empty level without a parent, with index 0. -/
def root : ScopeTree α := ⟨[⟨Level.empty, []⟩]⟩

def level (tree : ScopeTree α) (scope : Nat) : Level α :=
  (tree.nodes[scope]?).elim Level.empty ScopeNode.level

def enclosing (tree : ScopeTree α) (scope : Nat) : List Nat :=
  (tree.nodes[scope]?).elim [] ScopeNode.enclosing

/-- Adds an empty level inside the given one; its index is the number of levels so far. -/
def child (tree : ScopeTree α) (scope : Nat) : ScopeTree α :=
  ⟨tree.nodes ++ [⟨Level.empty, scope :: tree.enclosing scope⟩]⟩

def chain (tree : ScopeTree α) (scope : Nat) : Chain α :=
  (scope :: tree.enclosing scope).map tree.level

def define (tree : ScopeTree α) (scope : Nat) (name : String) (value : α) : ScopeTree α :=
  ⟨tree.nodes.modify scope (fun node => { node with level := node.level.define name value })⟩

def lookup (tree : ScopeTree α) (scope : Nat) (name : String) : Option α :=
  (tree.chain scope).lookup name

/-- The innermost level, seen from a scope, that binds the name. -/
def binder? (tree : ScopeTree α) (scope : Nat) (name : String) : Option (Level α) :=
  (tree.chain scope).find? (fun level => level.contains name)

/-- How many levels are seen from a scope, itself included. -/
def depth (tree : ScopeTree α) (scope : Nat) : Nat :=
  (tree.enclosing scope).length + 1

end ScopeTree

end TreeWasm
