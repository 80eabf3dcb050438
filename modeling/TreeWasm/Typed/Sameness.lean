import TreeWasm.Typed.Type

/-! # Sameness of types

Pointers, arrays and functions are the same when their parts are; an aggregate is the same only as
itself. Locations count for what they hold when a pointer leads to them.
-/

namespace TreeWasm

mutual

/-- Whether two types are the same. With `strip`, locations around the first type are passed over;
the second one has then none. -/
def Ty.sameWith (strip : Bool) : Ty → Ty → Bool
  | .location a, b =>
    if strip then a.sameWith true b
    else
      match b with
      | .location b => a.sameWith true b.unwrap
      | _ => false
  | .absent, b => b.isAbsent
  | .builtin a, b =>
    match b with
    | .builtin b => a == b
    | _ => false
  | .pointer _ a, b =>
    match b with
    | .pointer _ b => a.sameWith true b.unwrap
    | _ => false
  | .array _ n a, b =>
    match b with
    | .array _ m b => n == m && a.sameWith false b
    | _ => false
  | .function _ params result, b =>
    match b with
    | .function _ params' result' =>
      Ty.sameAll params params' && result.sameWith false result'
    | _ => false
  | .aggregate a, b =>
    match b with
    | .aggregate b => a == b
    | _ => false

def Ty.sameAll : List Ty → List Ty → Bool
  | [], [] => true
  | a :: as, b :: bs => a.sameWith false b && Ty.sameAll as bs
  | _, _ => false

end

namespace Ty

def same (a b : Ty) : Bool := a.sameWith false b

def isVoid : Ty → Bool
  | builtin .void => true
  | _ => false

def isFunction : Ty → Bool
  | function _ _ _ => true
  | _ => false

def isLocation : Ty → Bool
  | location _ => true
  | _ => false

/-- Whether values of the type contain a union, when this is known of aggregates. -/
def holdsUnionWith (aggregate : Nat → Bool) : Ty → Bool
  | location elem => elem.holdsUnionWith aggregate
  | array _ _ elem => elem.holdsUnionWith aggregate
  | .aggregate id => aggregate id
  | _ => false

end Ty

namespace TypeTable

/-- Whether an aggregate is a union or contains one, looking through aggregates inside one another
to the given depth. -/
def aggregateHoldsUnion (table : TypeTable) : (depth : Nat) → Nat → Bool
  | 0, _ => false
  | depth + 1, id =>
    match table.get? id with
    | none => false
    | some a =>
      a.union ||
        a.fields.bindings.any (fun (_, t) => t.holdsUnionWith (table.aggregateHoldsUnion depth))

/-- Whether values of a type contain a union anywhere. Such values live in memory only. -/
def holdsUnion (table : TypeTable) (t : Ty) : Bool :=
  t.holdsUnionWith (table.aggregateHoldsUnion (table.aggregates.size + 1))

def isUnion (table : TypeTable) (t : Ty) : Bool := table.kind t == .union

def isStruct (table : TypeTable) (t : Ty) : Bool := table.kind t == .struct

end TypeTable

end TreeWasm
