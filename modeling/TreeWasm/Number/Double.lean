/-! # Floating-point numbers by their bits

A number is kept as its IEEE-754 bits: equality is equality of bits, so that the two zeros differ
and a NaN is equal to itself. Arithmetic goes through the machine's own operations.
-/

namespace TreeWasm

structure Single where
  bits : UInt32
  deriving DecidableEq, Repr

structure Double where
  bits : UInt64
  deriving DecidableEq, Repr

namespace Single

def isNaN (x : Single) : Bool :=
  x.bits &&& 0x7FFFFFFF > 0x7F800000

def value (x : Single) : Float32 :=
  Float32.ofBits x.bits

/-- The same number in double precision. A NaN keeps its sign and payload. -/
def widen (x : Single) : Double :=
  if x.isNaN then
    let sign := (x.bits &&& 0x80000000).toUInt64 <<< 32
    let payload := (x.bits &&& 0x7FFFFF).toUInt64 <<< 29
    ⟨sign ||| 0x7FF8000000000000 ||| payload⟩
  else ⟨x.value.toFloat.toBits⟩

end Single

namespace Double

def zero : Double := ⟨0⟩

def ofFloat (x : Float) : Double := ⟨x.toBits⟩

def value (x : Double) : Float :=
  Float.ofBits x.bits

def isNaN (x : Double) : Bool :=
  x.bits &&& 0x7FFFFFFFFFFFFFFF > 0x7FF0000000000000

/-- Flips the sign, of a NaN too. -/
def negate (x : Double) : Double :=
  ⟨x.bits ^^^ 0x8000000000000000⟩

/-- The nearest number of single precision. A NaN keeps its sign and the head of its payload. -/
def narrow (x : Double) : Single :=
  if x.isNaN then
    let sign := (x.bits >>> 32).toUInt32 &&& 0x80000000
    let payload := (x.bits >>> 29).toUInt32 &&& 0x7FFFFF
    ⟨sign ||| 0x7FC00000 ||| payload⟩
  else ⟨x.value.toFloat32.toBits⟩

/-- The number after a detour through single precision. -/
def roundSingle (x : Double) : Double :=
  x.narrow.widen

def truncate (x : Double) : Float :=
  let v := x.value
  if v < 0 then v.ceil else v.floor

/-- Order of two numbers of which neither is a NaN. -/
def order (x y : Double) : Ordering :=
  if x.value < y.value then .lt else if y.value < x.value then .gt else .eq

end Double

end TreeWasm
