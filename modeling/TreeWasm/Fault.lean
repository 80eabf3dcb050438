import TreeWasm.Source.Position
import TreeWasm.Text.Quoted

/-! # Faults

What can be wrong with a program, by the activity that finds it, and the wording of each. Types,
layouts and operators appear in a fault as the text they are shown by.

A defect is a fault of the compiler's own consistency and not of the program: its message starts
with `internal:`.
-/

namespace TreeWasm

inductive SpellingFault
  | expectedName
  | unknownName (name : String)
  | unexpected (rest : String)
  | expected (mark : String)
  | arrayLength
  deriving DecidableEq, Repr

def SpellingFault.message : SpellingFault → String
  | expectedName => "expected a type name"
  | unknownName name => s!"unknown type '{name}'"
  | unexpected rest => s!"unexpected '{rest}'"
  | expected mark => s!"expected '{mark}'"
  | arrayLength => "array length must be a non-negative integer"

/-- Expression forms whose operands are given as a list of fixed length. -/
inductive ListedForm
  | binary | unary | field | cast
  deriving DecidableEq, Repr

def ListedForm.usage : ListedForm → String
  | binary => "'binary' takes [operator, left, right]"
  | unary => "'unary' takes [operator, operand]"
  | field => "'field' takes [value, name]"
  | cast => "'cast' takes [type, value]"

/-- Faults found while a document is read as a program tree. -/
inductive ReadingFault
  | importNeedsField
  | typeDefinedTwice (name : String)
  | typeNeedsFields (name : String)
  | fieldDefinedTwice (name : String)
  | expectedEntry
  | expectedEntries
  | unexpectedKey (key : String)
  | expectedKind
  | expectedDeclaration (kind : String)
  | functionNeedsBody (name : String)
  | notAssignment (operator : String)
  | caseNeedsValues
  | missingKey (key : String)
  | invalidInteger (text : String)
  | unknownOperator (text : String)
  | operandCount (count : Nat)
  | invalidNumber (text : String)
  | unexpectedValue (text : String)
  | listedForm (form : ListedForm)
  | unknownExpression (kind : String)
  | emptyValue
  | expectedType
  | invalidType (spelling : String) (why : SpellingFault)
  deriving DecidableEq, Repr

def ReadingFault.message : ReadingFault → String
  | importNeedsField => "Import needs a 'field'"
  | typeDefinedTwice name => s!"Type '{name}' is defined twice"
  | typeNeedsFields name => s!"Type '{name}' needs 'struct' or 'union' fields"
  | fieldDefinedTwice name => s!"Field '{name}' is defined twice"
  | expectedEntry => "Expected a single 'name: value' entry"
  | expectedEntries => "Expected a mapping or a list of entries"
  | unexpectedKey key => s!"Unexpected key '{key}'"
  | expectedKind => "Expected a map such as \x7bkind: ...\x7d"
  | expectedDeclaration kind => s!"Expected a 'var' or 'fun' declaration, got '{kind}'"
  | functionNeedsBody name => s!"Function '{name}' needs an 'expr' or a 'body'"
  | notAssignment operator => s!"'{operator}' is not an assignment operator"
  | caseNeedsValues => "Case needs a 'case' value list"
  | missingKey key => s!"Missing '{key}'"
  | invalidInteger text => s!"Invalid integer '{text}'"
  | unknownOperator text => s!"Unknown operator '{text}'"
  | operandCount count => s!"Expected a list of {count} operands"
  | invalidNumber text => s!"Invalid number '{text}'"
  | unexpectedValue text => s!"Unexpected value '{text}'"
  | listedForm form => form.usage
  | unknownExpression kind => s!"Unknown expression kind '{kind}'"
  | emptyValue => "Empty block used as a value"
  | expectedType => "Expected a type"
  | invalidType spelling why => s!"Invalid type '{spelling}': {why.message}"

/-- Faults found while a program tree is given types. -/
inductive TypingFault
  | importNotFunction (name : String)
  | redefinition (name : String)
  | undefined (name : String)
  | exportUndeclared (name : String)
  | parameterHoldsUnion (name : String)
  | returnsUnion (name : String)
  | mismatch (got want : String)
  | variableNeedsType (name : String)
  | variableType (name type : String)
  | localHoldsUnion (name : String)
  | breakOutside
  | continueOutside
  | returnOutside
  | mustReturn (function type : String)
  | returnsNothing (function : String)
  | notAssignable
  | wholeUnion
  | switchType (type : String)
  | duplicateCase (value : Int64)
  | conditionType (type : String)
  | functionAsValue (name : String)
  | indexType (type : String)
  | notIndexable (type : String)
  | notPointer (type : String)
  | notAddressable
  | notConvertible (source target : String)
  | arrayLiteralType
  | arrayLiteralLength (given : Nat) (type : String) (length : Int64)
  | valueNeedsElse
  | emptyValue
  | notExpression (kind : String)
  | operatorUndefined (operator left right : String)
  | unaryUndefined (operator : String)
  | calleeNotNamed
  | notFunction (name : String)
  | argumentCount (function : String) (want got : Nat)
  | hasNoFields (type : String)
  | hasNoField (type field : String)
  | structLiteralType
  | fieldGivenTwice (field : String)
  | fieldMissing (type field : String)
  deriving DecidableEq, Repr

def TypingFault.message : TypingFault → String
  | importNotFunction name => s!"Import '{name}' must have a function type"
  | redefinition name => s!"Redefinition of '{name}'"
  | undefined name => s!"Undefined identifier '{name}'"
  | exportUndeclared name => s!"Exported name '{name}' is not declared"
  | parameterHoldsUnion name => s!"Parameter '{name}' cannot hold a union"
  | returnsUnion name => s!"Function '{name}' cannot return a union"
  | mismatch got want => s!"Cannot use value of type '{got}' as '{want}'"
  | variableNeedsType name => s!"Variable '{name}' needs a type or an initializer"
  | variableType name type => s!"Variable '{name}' cannot have type '{type}'"
  | localHoldsUnion name =>
    s!"Local variable '{name}' cannot hold a union; declare it at module level"
  | breakOutside => "'break' outside of a loop or switch"
  | continueOutside => "'continue' outside of a loop"
  | returnOutside => "'return' outside of a function"
  | mustReturn function type => s!"Function '{function}' must return a value of type '{type}'"
  | returnsNothing function => s!"Function '{function}' does not return a value"
  | notAssignable => "Cannot assign to this expression"
  | wholeUnion => "Cannot assign a whole union; assign one of its fields"
  | switchType type => s!"Switch on non-integer type '{type}'"
  | duplicateCase value => s!"Duplicate case value {value}"
  | conditionType type => s!"Condition must be 'bool', got '{type}'"
  | functionAsValue name => s!"Function '{name}' used as a value"
  | indexType type => s!"Index must be an integer, got '{type}'"
  | notIndexable type => s!"Cannot index type '{type}'"
  | notPointer type => s!"Cannot dereference non-pointer type '{type}'"
  | notAddressable => "Cannot take the address of this expression"
  | notConvertible source target => s!"Cannot convert '{source}' to '{target}'"
  | arrayLiteralType => "Array literal needs a sized array type"
  | arrayLiteralLength given type length =>
    s!"Array literal has {given} elements, type '{type}' needs {length}"
  | valueNeedsElse => "'if' used as a value needs an 'else' branch"
  | emptyValue => "Empty block used as a value"
  | notExpression kind => s!"{kind} is not an expression"
  | operatorUndefined operator left right =>
    s!"Operator '{operator}' is not defined on '{left}' and '{right}'"
  | unaryUndefined operator => s!"Unary operator '{operator}' is not defined here"
  | calleeNotNamed => "Only named functions can be called"
  | notFunction name => s!"'{name}' is not a function"
  | argumentCount function want got => s!"Function '{function}' takes {want} arguments, got {got}"
  | hasNoFields type => s!"Type '{type}' has no fields"
  | hasNoField type field => s!"Type '{type}' has no field '{field}'"
  | structLiteralType => "Struct literal needs a known struct type"
  | fieldGivenTwice field => s!"Field '{field}' given twice"
  | fieldMissing type field => s!"Struct literal of '{type}' is missing field '{field}'"

/-- Faults found while a checked tree is lowered and its constants are folded. -/
inductive LoweringFault
  | redefinition (name : String)
  | functionAsValue (name : String)
  | notFunction (name : String)
  | needsMultiValue (what type : String)
  | jumpOutside (keyword : String)
  | returnOutside
  | exportUndeclared (name : String)
  | exportUsedTwice (name : String)
  | tooManyPages (need limit : UInt32)
  | dynamicIndex
  | indexOutOfRange (index : Int64) (type : String)
  | addressOfLocal
  | unionInLocals (type : String)
  | divisionByZero
  | divisionOverflow
  deriving DecidableEq, Repr

def LoweringFault.message : LoweringFault → String
  | redefinition name => s!"Redefinition of '{name}'"
  | functionAsValue name => s!"Function '{name}' used as a value"
  | notFunction name => s!"'{name}' is not a function"
  | needsMultiValue what type =>
    s!"{what} of type '{type}' needs the multi-value feature (-Fmulti-value)"
  | jumpOutside keyword => s!"'{keyword}' outside of a construct it can leave"
  | returnOutside => "'return' outside of a function"
  | exportUndeclared name => s!"Exported name '{name}' is not declared"
  | exportUsedTwice name => s!"Export name '{name}' is used twice"
  | tooManyPages need limit =>
    s!"Static data needs {need} pages of memory, more than the limit of {limit}"
  | dynamicIndex => "Arrays held in locals can only be indexed by constants"
  | indexOutOfRange index type => s!"Index {index} is out of range for '{type}'"
  | addressOfLocal => "Cannot take the address of a value held in locals"
  | unionInLocals type => s!"Union '{type}' cannot be held in locals"
  | divisionByZero => "division by zero in constant expression"
  | divisionOverflow => "integer overflow in constant division"

inductive LayoutDefect
  | noType
  | functionType (type : String)
  | noLayout (type : String)
  | recursive (type : String)
  | noField (layout name : String)
  | noFieldAt (layout : String) (index : Int)
  | notIndexable (layout : String)
  | unionInRegisters (type : String)
  | undefinedOn (operator layout : String)
  | incomparable (operator layout : String)
  | load (layout : String)
  | store (layout : String)
  | memoryOffset (offset : Int64)
  deriving DecidableEq, Repr

def LayoutDefect.message : LayoutDefect → String
  | noType => "layout of a nil type"
  | functionType type => s!"function type {type} has no value layout"
  | noLayout type => s!"no layout for type {type}"
  | recursive type => s!"type {type} contains itself"
  | noField layout name => s!"layout {layout} has no field {Text.quote name}"
  | noFieldAt layout index => s!"layout {layout} has no field #{index}"
  | notIndexable layout => s!"layout {layout} is not indexable"
  | unionInRegisters type => s!"union {type} has no register representation"
  | undefinedOn operator layout => s!"operator {operator} is not defined on {layout}"
  | incomparable operator layout => s!"comparison {operator} is not defined on {layout}"
  | load layout => s!"load of non-primitive layout {layout}"
  | store layout => s!"store of non-primitive layout {layout}"
  | memoryOffset offset => s!"memory offset {offset} out of range"

inductive CodeDefect
  | noField (layout name : String)
  | cannotSelect (node : String)
  | dynamicIndex
  | indexRange (index count : Int64)
  | cannotIndex (node : String)
  | cannotReference (node : String)
  | cannotSimplify (node : String)
  | cannotFold (operator : String)
  | cannotFoldComparison (operator : String)
  | labelOutside (label : Nat)
  | cannotLoad (node : String)
  | unary (operator : String)
  | conversion (source target : String)
  | unionLoad (type : String)
  | notAddressable (node : String)
  | notAssignable (node : String)
  | slotCount (slots : Nat) (layout : String)
  deriving DecidableEq, Repr

def CodeDefect.message : CodeDefect → String
  | noField layout name => s!"{layout} has no field {Text.quote name}"
  | cannotSelect node => s!"cannot select a field of {node}"
  | dynamicIndex => "dynamic index into a register-backed array"
  | indexRange index count => s!"index {index} out of range [0, {count})"
  | cannotIndex node => s!"cannot index {node}"
  | cannotReference node => s!"cannot reference {node}"
  | cannotSimplify node => s!"cannot simplify {node}"
  | cannotFold operator => s!"cannot fold operator {operator}"
  | cannotFoldComparison operator => s!"cannot fold comparison {operator}"
  | labelOutside label => s!"branch to label {label} outside of its construct"
  | cannotLoad node => s!"cannot load {node}"
  | unary operator => s!"unary operator {operator}"
  | conversion source target => s!"conversion from {source} to {target}"
  | unionLoad type => s!"union {type} cannot be loaded as a value"
  | notAddressable node => s!"{node} is not addressable"
  | notAssignable node => s!"{node} is not assignable"
  | slotCount slots layout => s!"storing {slots} slots into {layout}"

inductive ModuleFault
  | lateImport (module name : String)
  | undeclared (index : Nat)
  | definedTwice (index : Nat)
  | neverDefined (index : Nat)
  | truncatedInteger
  | missingHeader
  | sectionOverrun (id : UInt8)
  deriving DecidableEq, Repr

def ModuleFault.message : ModuleFault → String
  | lateImport module name => s!"wasm: import {module}.{name} added after a function was declared"
  | undeclared index => s!"wasm: function index {index} is not a declared function"
  | definedTwice index => s!"wasm: function {index} defined twice"
  | neverDefined index => s!"wasm: function {index} declared but never defined"
  | truncatedInteger => "wasm: truncated LEB128"
  | missingHeader => "wasm: missing module header"
  | sectionOverrun id => s!"wasm: section {id} overruns the module"

/-- An activity was handed something that the activity before it never produces. -/
inductive PipelineDefect
  | lostEntry (key : String)
  | lostPart (index : Nat)
  | checkerExpectsModule (kind : String)
  | lowererExpectsModule (kind : String)
  | unknownAssignment (operator : String)
  | slotReleasedTwice (slot : Nat)
  | untyped
  | noStorage (name : String)
  | liveSlots (count : Nat) (function : String)
  | liveScratch (count : Nat)
  | module (fault : ModuleFault)
  | unreadableModule (fault : ModuleFault)
  | notAValue (kind : String)
  | noZero (layout : String)
  deriving DecidableEq, Repr

def PipelineDefect.message : PipelineDefect → String
  | lostEntry key => s!"no entry '{key}'"
  | lostPart index => s!"no part {index}"
  | checkerExpectsModule kind => s!"type checker expects a module, got {kind}"
  | lowererExpectsModule kind => s!"code generation expects a module, got {kind}"
  | unknownAssignment operator => s!"unknown assignment operator {operator}"
  | slotReleasedTwice slot => s!"local slot {slot} released twice"
  | untyped => "node without a type reached code generation"
  | noStorage name => s!"'{name}' has no storage"
  | liveSlots count function => s!"{count} local slots still live at the end of '{function}'"
  | liveScratch count => s!"{count} scratch slots still live after emission"
  | module fault => fault.message
  | unreadableModule fault => s!"re-reading encoded module: {fault.message}"
  | notAValue kind => s!"unexpected {kind} in expression"
  | noZero layout => s!"no zero value for {layout}"

inductive Fault
  | reading (fault : ReadingFault)
  | typing (fault : TypingFault)
  | lowering (fault : LoweringFault)
  | layout (defect : LayoutDefect)
  | code (defect : CodeDefect)
  | pipeline (defect : PipelineDefect)
  | stated (text : String)
  deriving DecidableEq, Repr

namespace Fault

def message : Fault → String
  | reading fault => fault.message
  | typing fault => fault.message
  | lowering fault => fault.message
  | layout defect => "internal: " ++ defect.message
  | code defect => "internal: " ++ defect.message
  | pipeline defect => "internal: " ++ defect.message
  | stated text => text

/-- Whether the fault is a defect of the compiler and not of the program. -/
def isInternal : Fault → Bool
  | reading _ | typing _ | lowering _ => false
  | layout _ | code _ | pipeline _ => true
  | stated text => text.startsWith "internal:"

end Fault

structure Failure where
  pos : Position
  fault : Fault
  deriving DecidableEq, Repr

namespace Failure

def message (failure : Failure) : String :=
  failure.fault.message

def isInternal (failure : Failure) : Bool :=
  failure.fault.isInternal

def describe (sources : Sources) (failure : Failure) : String :=
  s!"{sources.location failure.pos}: {failure.message}"

def reading (pos : Position) (fault : ReadingFault) : Failure := ⟨pos, .reading fault⟩

def typing (pos : Position) (fault : TypingFault) : Failure := ⟨pos, .typing fault⟩

def lowering (pos : Position) (fault : LoweringFault) : Failure := ⟨pos, .lowering fault⟩

def code (pos : Position) (defect : CodeDefect) : Failure := ⟨pos, .code defect⟩

def pipeline (pos : Position) (defect : PipelineDefect) : Failure := ⟨pos, .pipeline defect⟩

/-- Layout defects are found by rules that know no place. -/
def layout (defect : LayoutDefect) : Failure := ⟨.nowhere, .layout defect⟩

end Failure

end TreeWasm
