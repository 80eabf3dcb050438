import TreeWasm.Scope

/-! # Histories of scopes

Levels are opened inside of others and names are defined in them, in any order. What a scope tree
answers follows from this history: from the parents of the levels and the definitions made in each.
-/

namespace TreeWasm

variable {α : Type} {tree : ScopeTree α} {scope : Nat}

namespace Level

variable {level : Level α} {history : List (String × α)}

/-- The level that a history of definitions leaves behind. -/
structure Follows (level : Level α) (history : List (String × α)) : Prop where
  names_eq : level.names = (history.map Prod.fst).eraseDups
  nodup : level.names.Nodup
  find? (name : String) : level.find? name = history.reverse.lookup name

theorem Follows.define (h : level.Follows history) (name : String) (value : α) :
    (level.define name value).Follows (history ++ [(name, value)]) where
  names_eq := by
    have hmem : name ∈ level.names ↔ name ∈ history.map Prod.fst := by
      rw [h.names_eq, List.mem_eraseDups]
    rw [names_define, h.names_eq, List.map_append, List.eraseDups_append]
    by_cases hname : name ∈ history.map Prod.fst <;>
      simp [hname, List.removeAll, h.names_eq ▸ hmem, List.eraseDups_cons]
  nodup := by
    rw [names_define]
    split
    · exact h.nodup
    next hnew => exact List.nodup_append.mpr ⟨h.nodup, by simp, by grind⟩
  find? other := by
    rw [find?_define, h.find?, List.reverse_append, List.reverse_singleton, List.singleton_append,
      List.lookup_cons]
    grind

theorem Follows.bindings_eq (h : level.Follows history) :
    level.bindings.map (fun (name, value) => (name, some value)) =
      level.names.map (fun name => (name, history.reverse.lookup name)) := by
  rw [names, List.map_map]
  refine List.map_congr_left (fun entry hentry => ?_)
  have hvalue : history.reverse.lookup entry.1 = some entry.2 :=
    (h.find? entry.1).symm.trans (lookup_of_mem h.nodup hentry)
  rw [Function.comp_apply, hvalue]

end Level

namespace ScopeTree

/-- Trees by their history: the parent of each level, and what was defined in which of them, the first
definition first. -/
inductive Grown : List (Option Nat) → List (Nat × String × α) → ScopeTree α → Prop
  | root : Grown [none] [] root
  | child {parents history tree scope} : Grown parents history tree → scope < parents.length →
    Grown (parents ++ [some scope]) history (tree.child scope)
  | define {parents history tree scope name value} : Grown parents history tree →
    scope < parents.length →
    Grown parents (history ++ [(scope, name, value)]) (tree.define scope name value)

/-- The definitions made in one level. -/
def within (scope : Nat) (history : List (Nat × String × α)) : List (String × α) :=
  history.filterMap (fun (other, entry) => if other = scope then some entry else none)

@[simp] theorem within_append (history : List (Nat × String × α)) (other : Nat) (entry : String × α) :
    within scope (history ++ [(other, entry)]) =
      within scope history ++ if other = scope then [entry] else [] := by
  rw [within, List.filterMap_append, ← within]
  by_cases h : other = scope <;> simp [h]

variable {parents : List (Option Nat)} {history : List (Nat × String × α)} {name : String} {value : α}
  {other : Nat}

theorem level_child : (tree.child scope).level other = tree.level other := by
  rw [level, level, child, List.getElem?_append]
  split
  · rfl
  next hnew =>
    rw [List.getElem?_eq_none (Nat.not_lt.mp hnew)]
    cases other - tree.nodes.length <;> rfl

theorem level_define_self (h : scope < tree.nodes.length) :
    (tree.define scope name value).level scope = (tree.level scope).define name value := by
  simp [level, define, List.getElem?_eq_getElem h]

theorem level_define_of_ne (h : other ≠ scope) :
    (tree.define scope name value).level other = tree.level other := by
  simp [level, define, h.symm]

theorem enclosing_child : (tree.child scope).enclosing other =
    if other = tree.nodes.length then scope :: tree.enclosing scope else tree.enclosing other := by
  simp only [enclosing, child, List.getElem?_append]
  grind

theorem enclosing_define : (tree.define scope name value).enclosing other = tree.enclosing other := by
  simp only [enclosing, define, List.getElem?_modify]
  split <;> cases tree.nodes[other]? <;> rfl

namespace Grown

theorem length_nodes (h : Grown parents history tree) : tree.nodes.length = parents.length := by
  induction h with
  | root => rfl
  | child _ _ ih => simp [ScopeTree.child, ih]
  | define _ _ ih => simp [ScopeTree.define, ih]

theorem follows (h : Grown parents history tree) (scope : Nat) :
    (tree.level scope).Follows (within scope history) := by
  induction h with
  | root => cases scope <;> exact ⟨rfl, .nil, fun _ => rfl⟩
  | child _ _ ih =>
    rw [level_child]
    exact ih
  | @define _ _ _ other name value hgrown hother ih =>
    by_cases hscope : other = scope
    · subst hscope
      rw [level_define_self (hgrown.length_nodes ▸ hother), within_append, if_pos rfl]
      exact ih.define name value
    · rw [level_define_of_ne (Ne.symm hscope), within_append, if_neg hscope, List.append_nil]
      exact ih

theorem parent_lt (h : Grown parents history tree) {parent : Nat} (hparent : some parent ∈ parents) :
    parent < parents.length := by
  induction h with
  | root => simp at hparent
  | child _ hscope ih => grind
  | define _ _ ih => exact ih hparent

/-- The levels around a level are its parent and those around that. -/
theorem enclosing_eq (h : Grown parents history tree) (scope : Nat) :
    tree.enclosing scope =
      (parents[scope]?.join).elim [] (fun parent => parent :: tree.enclosing parent) := by
  induction h generalizing scope with
  | root => cases scope <;> rfl
  | @child parents history tree inside hgrown hinside ih =>
    have hkept {k : Nat} (hk : k ≠ parents.length) : (tree.child inside).enclosing k = tree.enclosing k := by
      rw [enclosing_child, if_neg (hgrown.length_nodes ▸ hk)]
    by_cases hscope : scope = parents.length
    · rw [enclosing_child, if_pos (hscope.trans hgrown.length_nodes.symm), hscope]
      simp [hkept (Nat.ne_of_lt hinside)]
    · have hparents : (parents ++ [some inside])[scope]? = parents[scope]? := by grind
      rw [hkept hscope, ih, hparents]
      cases hparent : parents[scope]?.join with
      | none => rfl
      | some parent =>
        have hlt := hgrown.parent_lt (List.mem_of_getElem? (Option.join_eq_some_iff.mp hparent))
        exact congrArg (parent :: ·) (hkept (Nat.ne_of_lt hlt)).symm
  | define _ _ ih => simpa only [enclosing_define] using ih scope

theorem lookup_eq (h : Grown parents history tree) (scope : Nat) (name : String) :
    tree.lookup scope name = ((tree.level scope).find? name).or
      ((parents[scope]?.join).bind (tree.lookup · name)) := by
  rw [lookup, chain, Chain.lookup, List.map_cons, List.findSome?_cons, h.enclosing_eq]
  cases (tree.level scope).find? name with
  | some value => rfl
  | none => cases parents[scope]?.join <;> rfl

end Grown

end ScopeTree

end TreeWasm
