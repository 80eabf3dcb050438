import TreeWasm.Code.Labels
import TreeWasm.Proofs.Meaning.Scalar

/-! # The meaning of code nodes

A big-step evaluator for code nodes, against which simplification and emission are measured. Parts
are evaluated from left to right; the values of a node are those of its slots in order. A branch
ends in the label it names and carries no values.

Fuel bounds how often a loop starts over, as in the machine. A `Watch` can stop an evaluation that
reads a value not canonical for its layout, or whose address arithmetic leaves the address space:
an answer under a watch is an answer without it.
-/

namespace TreeWasm

open Wasm

namespace Wasm.Result

def ofValue (x : Attempt Value) (s : Store) : Result := ofAttempt (x.map (fun v => [v])) s

@[simp]
theorem ofValue_value (v : Value) (s : Store) : ofValue (.value v) s = some (.normal [v], s) := rfl

end Wasm.Result

namespace Wasm.Outcome

/-- The outcome of a construct with a label, from that of its body. -/
def endAt (label : Option Nat) : Outcome → Outcome
  | branch l values => if label = some l then normal values else branch l values
  | o => o

/-- The values with which a loop with a label starts over, if its body branched to it. -/
def restartAt? (label : Option Nat) : Outcome → Option (List Value)
  | branch l values => if label = some l then some values else none
  | _ => none

@[simp]
theorem endAt_none (o : Outcome) : o.endAt none = o := by
  cases o <;> simp [endAt]

/-- Only a branch to the label itself is changed by the end of a construct. -/
theorem endAt_of_restartAt? {o : Outcome} {label : Option Nat} (h : o.restartAt? label = none) :
    o.endAt label = o := by
  cases o with
  | branch l values =>
    rw [restartAt?] at h
    split at h
    · cases h
    next hlabel => rw [endAt, if_neg hlabel]
  | _ => rfl

end Wasm.Outcome

/-- What stops an evaluation. -/
structure Watch where
  /-- Reading a value that is not canonical, from a slot, from memory or from a call. -/
  canonical : Bool
  /-- An address `ptr + index * size` outside the 32-bit addresses, the index taken as signed. -/
  inRange : Bool
  deriving DecidableEq, Repr

namespace Watch

def off : Watch := ⟨false, false⟩

def strict : Watch := ⟨true, true⟩

/-- A result with the values of a layout, unless the watch objects to them. -/
def reads (watch : Watch) (l : Layout) (r : Result) : Result :=
  r.andThen (fun values s =>
    if watch.canonical → Scalar.allCanonical l.kinds values then some (.normal values, s) else none)

theorem off_reads (l : Layout) (r : Result) : off.reads l r = r := by
  simp [reads, off]

def allows (watch : Watch) (ptr index : BitVec 32) (size : Int64) : Bool :=
  let address : Int := ptr.toNat + index.toInt * size.toInt
  watch.inRange → 0 ≤ address ∧ address < 2 ^ 32

end Watch

namespace Layout

/-- The address of an access at a 32-bit address plus a static offset. -/
def effective (a : BitVec 32) (offset : Int64) : Int := a.toNat + offset.toInt

/-- An address moved by a static offset. Nothing but a word can be moved. -/
def displace (offset : Int64) (as : List Value) : Attempt (List Value) :=
  if offset = 0 then .value as
  else
    match as with
    | [.i32 a] => .value [.i32 (a + offset.toInt32.toBitVec)]
    | _ => .stuck

theorem displace_word (offset : Int64) (a : BitVec 32) :
    displace offset [.i32 a] = .value [.i32 (a + offset.toInt32.toBitVec)] := by
  unfold displace
  split
  next hzero =>
    subst hzero
    exact congrArg (fun b => Attempt.value [Value.i32 b]) (BitVec.add_zero a).symm
  · rfl

/-- Reads leaves of a value in memory. -/
def readLeaves (m : Memory) (a : BitVec 32) (offset : Int64) : List Leaf → Attempt (List Value)
  | [] => .value []
  | leaf :: rest =>
    (m.load leaf.kind.loadOp (effective a (offset + leaf.offset))).bind (fun v =>
      (readLeaves m a offset rest).map (fun values => v :: values))

def readAt (l : Layout) (m : Memory) (a : BitVec 32) (offset : Int64) : Attempt (List Value) :=
  match l.leaves with
  | .ok leaves => readLeaves m a offset leaves
  | .error _ => .stuck

/-- Writes values to leaves in memory, one after the other. -/
def writeLeaves (a : BitVec 32) (offset : Int64) : List Leaf → List Value → Store → Result
  | [], [], s => some (.normal [], s)
  | leaf :: leaves, v :: values, s =>
    match s.memory.store leaf.kind.storeOp (effective a (offset + leaf.offset)) v with
    | .value memory => writeLeaves a offset leaves values { s with memory := memory }
    | .trap => some (.trap, s)
    | .stuck => none
  | _, _, _ => none

def writeAt (l : Layout) (a : BitVec 32) (offset : Int64) (values : List Value) (s : Store) :
    Result :=
  match l.leaves with
  | .ok leaves => writeLeaves a offset leaves values s
  | .error _ => none

end Layout

namespace Node

mutual

/-- Evaluates a node. -/
def eval (world : World) (watch : Watch) (fuel : Nat) : Node → Store → Result
  | absent, _ => none
  | const32 _ v, s => some (.normal [.i32 v.toBitVec], s)
  | const64 _ v, s => some (.normal [.i64 v.toBitVec], s)
  | constFloat info v, s =>
    let value : Value := if info.layout.slot = .f32 then .f32 v.narrow.bits.toBitVec
      else .f64 v.bits.toBitVec
    some (.normal [value], s)
  | binary info op x y, s =>
    (eval world watch fuel x s).andThen (fun xs s =>
      (eval world watch fuel y s).andThen (fun ys s =>
        Result.ofValue (info.layout.binaryValue world.floats op (xs ++ ys)) s))
  | unary info op x, s =>
    (eval world watch fuel x s).andThen (fun xs s =>
      Result.ofValue (info.layout.unaryValue world.floats x.layout op xs) s)
  | convert info x, s =>
    (eval world watch fuel x s).andThen (fun xs s =>
      Result.ofValue (x.layout.convertValue world.floats info.layout xs) s)
  | compare _ op x y, s =>
    (eval world watch fuel x s).andThen (fun xs s =>
      (eval world watch fuel y s).andThen (fun ys s =>
        Result.ofValue (x.layout.compareValue world.floats op (xs ++ ys)) s))
  | data info addr offset, s =>
    (eval world watch fuel addr s).andThen (fun as s =>
      match as with
      | [.i32 a] =>
        watch.reads info.layout (Result.ofAttempt (info.layout.readAt s.memory a offset) s)
      | _ => none)
  | scaledOffset _ ptr index size, s =>
    (eval world watch fuel ptr s).andThen (fun ps s =>
      (eval world watch fuel index s).andThen (fun is s =>
        match ps ++ is with
        | [.i32 p, .i32 i] =>
          if watch.allows p i size then
            some (.normal [.i32 (p + i * size.toInt32.toBitVec)], s)
          else none
        | _ => none))
  | locals info slots, s =>
    watch.reads info.layout (some (.normal (slots.map s.locals), s))
  | ifElse _ cond yes no, s =>
    (eval world watch fuel cond s).andThen (fun cs s =>
      match cs with
      | [.i32 c] =>
        if c ≠ 0 then eval world watch fuel yes s
        else if no.isAbsent then some (.normal [], s)
        else eval world watch fuel no s
      | _ => none)
  | loop _ label body, s =>
    Result.repeating (Outcome.restartAt? label) (fun _ s => eval world watch fuel body s) fuel [] s
  | block _ label children, s =>
    (evalAll world watch fuel children s).map (fun (o, s) => (o.endAt label, s))
  | seq _ children, s => evalAll world watch fuel children s
  | branch _ label, s => some (.branch label [], s)
  | branchIf _ label cond, s =>
    (eval world watch fuel cond s).andThen (fun cs s =>
      match cs with
      | [.i32 c] => if c ≠ 0 then some (.branch label [], s) else some (.normal [], s)
      | _ => none)
  | branchTable _ index targets default, s =>
    (eval world watch fuel index s).andThen (fun is s =>
      match is with
      | [.i32 i] => some (.branch ((targets[i.toNat]?).getD default) [], s)
      | _ => none)
  | ret _ value, s =>
    if value.isAbsent then some (.ret [], s)
    else (eval world watch fuel value s).andThen (fun values s => some (.ret values, s))
  | unreachable _, s => some (.trap, s)
  | nop _, s => some (.normal [], s)
  | drop _ x, s => (eval world watch fuel x s).andThen (fun _ s => some (.normal [], s))
  | structLit _ fields, s => evalAll world watch fuel fields s
  | arrayLit _ elems, s => evalAll world watch fuel elems s
  | call info func _ args, s =>
    (evalAll world watch fuel args s).andThen (fun values s =>
      watch.reads info.layout (world.invoke func values s))
  | assign _ target value, s =>
    match target with
    | locals _ slots =>
      (eval world watch fuel value s).andThen (fun values s =>
        if values.length = slots.length then some (.normal [], s.setLocals slots values)
        else none)
    | data info addr offset =>
      (eval world watch fuel addr s).andThen (fun as s =>
        (eval world watch fuel value s).andThen (fun values s =>
          match as with
          | [.i32 a] => info.layout.writeAt a offset values s
          | _ => none))
    | _ => none
  | addressOf _ x, s =>
    match x with
    | data _ addr offset =>
      (eval world watch fuel addr s).andThen (fun as s =>
        Result.ofAttempt (Layout.displace offset as) s)
    | _ => none
  termination_by structural n => n

/-- Evaluates nodes one after the other, and gives all their values. -/
def evalAll (world : World) (watch : Watch) (fuel : Nat) : List Node → Store → Result
  | [], s => some (.normal [], s)
  | n :: rest, s =>
    (eval world watch fuel n s).andThen (fun values s =>
      (evalAll world watch fuel rest s).andThen (fun more s => some (.normal (values ++ more), s)))
  termination_by structural nodes => nodes

end

/-- A node runs from a store to an outcome and a store. -/
def Runs (world : World) (watch : Watch) (n : Node) (s : Store) (o : Outcome) (s' : Store) : Prop :=
  ∃ fuel, n.eval world watch fuel s = some (o, s')

end Node

end TreeWasm
