import TreeWasm.Code.Node

/-! # Labels and their uses

A function numbers its branch targets and counts the branches to each. The count may be too high
after code was removed; `Labels.recount` makes it exact for a whole body.
-/

namespace TreeWasm

/-- The number of uses of each label, by its number. -/
structure Labels where
  counts : List Nat
  deriving DecidableEq, Repr

namespace Labels

def empty : Labels := ⟨[]⟩

def fresh (labels : Labels) : Labels × Nat :=
  (⟨labels.counts ++ [0]⟩, labels.counts.length)

def use (labels : Labels) (label : Nat) : Labels :=
  ⟨labels.counts.modify label (· + 1)⟩

def useAll (labels : Labels) (targets : List Nat) : Labels :=
  targets.foldl use labels

/-- The uses of a label; a construct without a label has none. -/
def uses (labels : Labels) (label : Option Nat) : Nat :=
  label.elim 0 (fun l => (labels.counts[l]?).getD 0)

end Labels

namespace Node

mutual

/-- The labels that branches inside a node refer to, once for each reference. -/
def targets : Node → List Nat
  | absent | const32 .. | const64 .. | constFloat .. | locals .. | unreachable .. | nop .. => []
  | branch _ label => [label]
  | branchIf _ label cond => label :: targets cond
  | branchTable _ index labels default => labels ++ default :: targets index
  | binary _ _ x y | compare _ _ x y => targets x ++ targets y
  | unary _ _ x | convert _ x | drop _ x | addressOf _ x => targets x
  | data _ addr _ => targets addr
  | scaledOffset _ ptr index _ => targets ptr ++ targets index
  | ifElse _ cond yes no => targets cond ++ (targets yes ++ targets no)
  | loop _ _ body => targets body
  | block _ _ children => targetsAll children
  | seq _ children => targetsAll children
  | ret _ value => targets value
  | structLit _ fields => targetsAll fields
  | arrayLit _ elems => targetsAll elems
  | call _ _ _ args => targetsAll args
  | assign _ target value => targets target ++ targets value

def targetsAll : List Node → List Nat
  | [] => []
  | n :: rest => targets n ++ targetsAll rest

end

end Node

/-- The exact counts for a whole body, and whether one of them dropped. -/
def Labels.recount (labels : Labels) (body : Node) : Labels × Bool :=
  let targets := body.targets
  let counts := (List.range labels.counts.length).map (fun l => targets.count l)
  (⟨counts⟩, (counts.zip labels.counts).any (fun (now, before) => now < before))

end TreeWasm
