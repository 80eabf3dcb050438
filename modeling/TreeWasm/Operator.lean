/-! # Operators of program trees

An operator is an assignment, a compound assignment, an arithmetic, relational or logical
operator. The lexical classes that may stand where an operator is expected have members of
their own, so that every spelling and every code has an operator.
-/

namespace TreeWasm

/-- Arithmetic and bitwise operators, in the order of their codes. -/
inductive Arith
  | add | sub | mul | div | rem | and | or | xor | shl | shr
  deriving DecidableEq, Repr

namespace Arith

def all : List Arith := [add, sub, mul, div, rem, and, or, xor, shl, shr]

def text : Arith → String
  | add => "+"
  | sub => "-"
  | mul => "*"
  | div => "/"
  | rem => "%"
  | and => "&"
  | or => "|"
  | xor => "^"
  | shl => "<<"
  | shr => ">>"

def rank : Arith → Nat
  | add => 0
  | sub => 1
  | mul => 2
  | div => 3
  | rem => 4
  | and => 5
  | or => 6
  | xor => 7
  | shl => 8
  | shr => 9

end Arith

/-- Relational operators, in the order of their codes. -/
inductive Relation
  | eq | ne | lt | gt | ge | le
  deriving DecidableEq, Repr

namespace Relation

def all : List Relation := [eq, ne, lt, gt, ge, le]

def text : Relation → String
  | eq => "=="
  | ne => "!="
  | lt => "<"
  | gt => ">"
  | ge => ">="
  | le => "<="

def rank : Relation → Nat
  | eq => 0
  | ne => 1
  | lt => 2
  | gt => 3
  | ge => 4
  | le => 5

/-- The relation that holds exactly when the given one does not. -/
def negate : Relation → Relation
  | eq => ne
  | ne => eq
  | lt => ge
  | ge => lt
  | gt => le
  | le => gt

theorem negate_negate (r : Relation) : r.negate.negate = r := by
  cases r <;> rfl

/-- Whether the relation holds of two values that compare as `o`. -/
def holds : Relation → Ordering → Bool
  | eq, o => o == .eq
  | ne, o => o != .eq
  | lt, o => o == .lt
  | gt, o => o == .gt
  | ge, o => o != .lt
  | le, o => o != .gt

theorem holds_negate (r : Relation) (o : Ordering) : r.negate.holds o = !r.holds o := by
  cases r <;> cases o <;> rfl

end Relation

inductive Operator
  | endOfInput
  | identifier
  | number
  | float
  | assign
  | compound (op : Arith)
  | arith (op : Arith)
  | relation (op : Relation)
  | both
  | either
  | not
  | complement
  | unknown (code : Int)
  deriving DecidableEq, Repr

namespace Operator

/-- The operators proper, those with a spelling of their own. -/
def spelled : List Operator :=
  assign :: Arith.all.map compound ++ Arith.all.map arith ++ Relation.all.map relation ++
    [both, either, not, complement]

def text : Operator → String
  | endOfInput => "EOF"
  | identifier => "identifier"
  | number => "number"
  | float => "float"
  | assign => "="
  | compound op => op.text ++ "="
  | arith op => op.text
  | relation op => op.text
  | both => "&&"
  | either => "||"
  | not => "!"
  | complement => "~"
  | unknown _ => "?"

def code : Operator → Int
  | endOfInput => 0
  | identifier => 1
  | number => 2
  | float => 3
  | assign => 4
  | compound op => 5 + op.rank
  | arith op => 15 + op.rank
  | relation op => 25 + op.rank
  | both => 31
  | either => 32
  | not => 33
  | complement => 34
  | unknown code => code

def ofCode (code : Int) : Operator :=
  let known := [endOfInput, identifier, number, float] ++ spelled
  (known.find? (fun op => op.code == code)).getD (unknown code)

def ofText? (text : String) : Option Operator :=
  spelled.find? (fun op => op.text == text)

/-- Reads any text: the names of the lexical classes are known too, and any other text
stands for the operator with code 999. -/
def named (text : String) : Operator :=
  ([endOfInput, identifier, number, float] ++ spelled).find? (fun op => op.text == text)
    |>.getD (unknown 999)

def isComparison : Operator → Bool
  | relation _ => true
  | _ => false

/-- The complementary relation; every other operator is left as it is. -/
def negate : Operator → Operator
  | relation op => relation op.negate
  | op => op

/-- The operator that a compound assignment applies before it assigns. -/
def underlying? : Operator → Option Arith
  | compound op => some op
  | _ => none

end Operator

end TreeWasm
