import TreeWasm.Document.Node

/-! # Outlines

The top level of a program document: its types, imports, exports and declarations. Its mappings
know their keys, each given at most once; what types, signatures and declarations look like inside
is left to the reader of programs.
-/

namespace TreeWasm.Document

structure TypeEntry where
  name : String := ""
  struct : DocNode := .absent
  union : DocNode := .absent
  deriving Repr

structure ImportEntry where
  name : String := ""
  module : String := ""
  field : String := ""
  type : DocNode := .absent
  deriving Repr

structure Outline where
  types : List TypeEntry := []
  imports : List ImportEntry := []
  exports : List String := []
  decls : List DocNode := []
  deriving Repr

/-- What an entry of a mapping brings in, by its key. -/
inductive EntryKey
  | named (name : String)
  /-- A null key: its entry is passed over. -/
  | blank
  /-- The key that merges other mappings in. -/
  | merge
  deriving DecidableEq, Repr

def EntryKey.ofNode? : DocNode → Option EntryKey
  | .scalar _ _ text tag =>
    if tag = .null then some .blank
    else if tag = .merge then some .merge
    else some (.named text)
  | _ => none

/-- Entries of one mapping, and then those of another that the first does not have. -/
def mergeEntries (entries others : List (String × DocNode)) : List (String × DocNode) :=
  entries ++ others.filter (fun other => (entries.lookup other.1).isNone)

/-- The entries of a mapping with those merged into it. A mapping with two keys of one text is
refused. -/
def withMerged (entries : List (DocNode × DocNode))
    (named : Option (List (String × DocNode) × List (String × DocNode))) :
    Option (List (String × DocNode)) :=
  let keys := entries.map (fun entry => entry.1.text)
  if keys.eraseDups.length = keys.length then
    named.map (fun (own, merged) => mergeEntries own merged)
  else none

mutual

/-- The entries of a mapping by their keys, which have to be scalars. A merge key brings in the
entries of a mapping, or of several in a list, unless they are given already. -/
def DocNode.named : DocNode → Option (List (String × DocNode))
  | .mapping _ _ entries => withMerged entries (namedEntries entries)
  | _ => none

/-- The entries that a node brings in as the value of a merge key. -/
def DocNode.mergedIn : DocNode → Option (List (String × DocNode))
  | .mapping _ _ entries => withMerged entries (namedEntries entries)
  | .sequence _ _ items => namedItems items
  | _ => none

def namedItems : List DocNode → Option (List (String × DocNode))
  | [] => some []
  | item :: items => do
    let first ← item.named
    let others ← namedItems items
    return mergeEntries first others

/-- The entries of a mapping with names, and those that are merged in. -/
def namedEntries : List (DocNode × DocNode) →
    Option (List (String × DocNode) × List (String × DocNode))
  | [] => some ([], [])
  | entry :: entries => do
    let (own, merged) ← namedEntry entry
    let (others, mergedLater) ← namedEntries entries
    return (own ++ others, merged ++ mergedLater)

def namedEntry : DocNode × DocNode →
    Option (List (String × DocNode) × List (String × DocNode))
  | (key, value) =>
    match EntryKey.ofNode? key with
    | some (.named name) => some ([(name, value)], [])
    | some .blank => some ([], [])
    | some .merge => value.mergedIn.map (fun merged => ([], merged))
    | none => none

end

/-- The text of a scalar; null leaves what was there. -/
def textOr (old : String) : DocNode → Option String
  | .scalar _ _ text tag => some (if tag = .null then old else text)
  | _ => none

/-- The items of a list; null is the empty list. -/
def itemsOf : DocNode → Option (List DocNode)
  | .sequence _ _ items => some items
  | node => if node.isNull then some [] else none

/-- Reads the entries of a mapping into a record; a null node gives no record. -/
def recordOf {α : Type} (start : α) (set : α → String → DocNode → Option α) :
    DocNode → Option (Option α)
  | .mapping line column entries => do
    let named ← (DocNode.mapping line column entries).named
    let record ← named.foldlM (fun record (name, value) => set record name value) start
    return some record
  | node => if node.isNull then some none else none

def TypeEntry.set (entry : TypeEntry) (key : String) (value : DocNode) : Option TypeEntry :=
  match key with
  | "name" => (textOr entry.name value).map (fun name => { entry with name := name })
  | "struct" => some { entry with struct := value }
  | "union" => some { entry with union := value }
  | _ => none

def ImportEntry.set (entry : ImportEntry) (key : String) (value : DocNode) :
    Option ImportEntry :=
  match key with
  | "name" => (textOr entry.name value).map (fun name => { entry with name := name })
  | "module" => (textOr entry.module value).map (fun module => { entry with module := module })
  | "field" => (textOr entry.field value).map (fun field => { entry with field := field })
  | "type" => some { entry with type := value }
  | _ => none

def Outline.set (outline : Outline) (key : String) (value : DocNode) : Option Outline := do
  match key with
  | "types" =>
    let types ← (← itemsOf value).mapM (recordOf {} TypeEntry.set)
    return { outline with types := types.filterMap id }
  | "imports" =>
    let imports ← (← itemsOf value).mapM (recordOf {} ImportEntry.set)
    return { outline with imports := imports.filterMap id }
  | "exports" =>
    let items ← itemsOf value
    let names ← (items.filter (fun item => !item.isNull)).mapM (textOr "")
    return { outline with exports := names }
  | "decls" =>
    return { outline with decls := ← itemsOf value }
  | _ => none

/-- The outline of a document, if its top level has the right shape. -/
def Outline.ofNode? (root : DocNode) : Option Outline :=
  (recordOf {} Outline.set root).map (fun outline => outline.getD {})

def Outline.ofChars? (text : List Char) : Option Outline := do
  Outline.ofNode? (← DocNode.ofChars? text)

end TreeWasm.Document
