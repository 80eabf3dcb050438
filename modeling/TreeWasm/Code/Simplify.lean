import TreeWasm.Code.Fold
import TreeWasm.Code.Labels

/-! # Simplification

One pass over a node: constants are folded, branches on constants decided, unused blocks opened
and statements without effect removed. The pass also says whether it changed anything.
-/

namespace TreeWasm.Node

def isNop : Node → Bool
  | absent | nop .. => true
  | _ => false

/-- Moves constant parts of an address into the offset, as long as the offset is not negative. -/
def foldAddress : Node → Int64 → Node × Int64 × Bool
  | scaledOffset info ptr index size, offset =>
    match index.constant? with
    | some c =>
      let moved := offset + c.int * size
      if moved < 0 then (scaledOffset info ptr index size, offset, false)
      else
        let (addr, offset, _) := foldAddress ptr moved
        (addr, offset, true)
    | none => (scaledOffset info ptr index size, offset, false)
  | addr, offset => (addr, offset, false)

/-- The statements that stand for one statement of a sequence: none for a no-op, the inner ones
for a nested sequence without a value. -/
def splice : Node → List Node
  | nop _ => []
  | seq info children => if info.layout.isVoid then children else [seq info children]
  | n => [n]

def isSpliced : Node → Bool
  | nop _ => true
  | seq info _ => info.layout.isVoid
  | _ => false

def simplifyChoice (info : Info) (cond yes no : Node) : Option Node :=
  match cond.constant? with
  | some c =>
    if c.int ≠ 0 then some yes
    else if no.isAbsent then some (nop info)
    else some no
  | none =>
    if yes.isNop && no.isNop && cond.isPure then some (nop info)
    else
      match cond with
      | unary _ .not inner => if no.isAbsent then none else some (ifElse info inner no yes)
      | _ => none

/-- The label that a branch table takes for a constant index. -/
def tableTarget (targets : List Nat) (default : Nat) (index : Int64) : Nat :=
  if index < 0 then default else (targets[index.toInt.toNat]?).getD default

/-- The outcome of a step: a simpler form if there is one, else the node with its new parts. -/
def settle (simpler : Option Node) (rebuilt : Node) (changed : Bool) : Node × Bool :=
  match simpler with
  | some n => (n, true)
  | none => (rebuilt, changed)

/-- A sequence of simplified statements, spliced, and whether anything changed. -/
def flattenSequence (parts : List (Node × Bool)) : List Node × Bool :=
  (parts.flatMap (fun (n, _) => n.splice), parts.any (fun (n, changed) => changed || n.isSpliced))

/-- A sequence without statements, or with a single one that can stand alone. -/
def collapse (info : Info) (children : List Node) (alone : Bool) : Option Node :=
  match children with
  | [] => if info.layout.isVoid then some (nop info) else none
  | [child] => if alone then some child else none
  | _ => none

mutual

/-- Simplifies a node; the flag says whether the result differs from it. -/
def simplify (labels : Labels) : Node → Except Failure (Node × Bool)
  | absent => .error (.code .unset (.cannotSimplify absent.formName))
  | const32 info v => .ok (const32 info v, false)
  | const64 info v => .ok (const64 info v, false)
  | constFloat info v => .ok (constFloat info v, false)
  | locals info slots => .ok (locals info slots, false)
  | nop info => .ok (nop info, false)
  | unreachable info => .ok (unreachable info, false)
  | branch info label => .ok (branch info label, false)
  | binary info op x y => do
    let (x, cx) ← simplify labels x
    let (y, cy) ← simplify labels y
    return settle (← foldBinary info op x y) (binary info op x y) (cx || cy)
  | unary info op x => do
    let (x, cx) ← simplify labels x
    let negated := if op = .not then x.negate? else none
    return settle (foldUnary info op x <|> negated) (unary info op x) cx
  | convert info x => do
    let (x, cx) ← simplify labels x
    let same := if x.layout.same info.layout then some x else none
    return settle (same <|> foldConvert info x) (convert info x) cx
  | compare info op x y => do
    let (x, cx) ← simplify labels x
    let (y, cy) ← simplify labels y
    return settle (← foldCompare info op x y) (compare info op x y) (cx || cy)
  | data info addr offset => do
    let (addr, changed) ← simplify labels addr
    let (addr, offset, moved) := foldAddress addr offset
    return (data info addr offset, changed || moved)
  | scaledOffset info ptr index size => do
    let (ptr, cp) ← simplify labels ptr
    let (index, ci) ← simplify labels index
    let simpler := index.constant?.bind (fun i =>
      match ptr.constant? with
      | some p => some (int32 info (p.int + i.int * size).toInt32)
      | none => if i.int * size = 0 then some ptr else none)
    let rebuilt := if cp || ci then offsetBy info.pos ptr index size
      else scaledOffset info ptr index size
    return settle simpler rebuilt (cp || ci)
  | ifElse info cond yes no => do
    let (cond, cc) ← simplify labels cond
    let (yes, cy) ← simplify labels yes
    let (no, cn) ← if no.isAbsent then .ok (absent, false) else simplify labels no
    return settle (simplifyChoice info cond yes no) (ifElse info cond yes no) (cc || cy || cn)
  | loop info label body => do
    let (body, changed) ← simplify labels body
    return (loop info label body, changed)
  | block info label children => do
    let (children, changed) := flattenSequence (← simplifyAll labels children)
    let simpler := collapse info children (labels.uses label = 0)
    return settle simpler (block info label children) changed
  | seq info children => do
    let (children, changed) := flattenSequence (← simplifyAll labels children)
    return settle (collapse info children true) (seq info children) changed
  | branchIf info label cond => do
    let (cond, changed) ← simplify labels cond
    let simpler := cond.constant?.map (fun c =>
      if c.int ≠ 0 then branch info label else nop info)
    return settle simpler (branchIf info label cond) changed
  | branchTable info index targets default => do
    let (index, changed) ← simplify labels index
    let simpler := index.constant?.map (fun c => branch info (tableTarget targets default c.int))
    return settle simpler (branchTable info index targets default) changed
  | ret info value => do
    let (value, changed) ← if value.isAbsent then .ok (absent, false) else simplify labels value
    return (ret info value, changed)
  | drop info x => do
    let (x, changed) ← simplify labels x
    return settle (if x.isPure then some (nop info) else none) (drop info x) changed
  | structLit info fields => do
    let parts ← simplifyAll labels fields
    return (structLit info (parts.map Prod.fst), parts.any Prod.snd)
  | arrayLit info elems => do
    let parts ← simplifyAll labels elems
    return (arrayLit info (parts.map Prod.fst), parts.any Prod.snd)
  | call info func name args => do
    let parts ← simplifyAll labels args
    return (call info func name (parts.map Prod.fst), parts.any Prod.snd)
  | assign info target value => do
    let (target, ct) ← simplify labels target
    let (value, cv) ← simplify labels value
    return (assign info target value, ct || cv)
  | addressOf info x => do
    let (x, changed) ← simplify labels x
    let simpler := match x with
      | data _ addr offset => addr.constant?.map (fun c => int32 info (c.int + offset).toInt32)
      | _ => none
    return settle simpler (addressOf info x) changed
  termination_by structural n => n

def simplifyAll (labels : Labels) : List Node → Except Failure (List (Node × Bool))
  | [] => .ok []
  | n :: rest => do
    let part ← simplify labels n
    let parts ← simplifyAll labels rest
    return part :: parts
  termination_by structural nodes => nodes

end

end TreeWasm.Node
