import TreeWasm.Code.Node

/-! # Memory images of constant values

A tree of literals can be written to memory before the program runs. Writing goes into a window of
a buffer: what was written before a part turns out not to be constant stays written.
-/

namespace TreeWasm

/-- A buffer with the window that is written to. -/
structure Image where
  bytes : Array UInt8
  start : Nat
  length : Nat
  deriving Repr

namespace Image

def zeros (size : Nat) : Image := ⟨Array.replicate size 0, 0, size⟩

/-- Writes bytes from the start of the window on. -/
def write (image : Image) (bytes : List UInt8) : Image :=
  let written := (bytes.zipIdx image.start).foldl (fun buffer (b, i) => buffer.setIfInBounds i b)
    image.bytes
  { image with bytes := written }

/-- Another window of the buffer, relative to the start of this one. -/
def window (image : Image) (offset length : Nat) : Image :=
  { image with start := image.start + offset, length := length }

def fits (image : Image) (offset length : Nat) : Bool :=
  image.start + offset + length ≤ image.bytes.size

end Image

namespace Node

/-- Writes a constant, if its layout is scalar and fits the window. -/
def writeConstant (l : Layout) (c : Constant) (image : Image) : Bool × Image :=
  match l.scalar? with
  | none => (false, image)
  | some kind =>
    if image.length < kind.size then (false, image) else (true, image.write (kind.bytes c))

mutual

/-- Writes a tree of literals into the window; `false` when some part is not constant. -/
def writeStatic : Node → Image → Bool × Image
  | const32 info v, image => writeConstant info.layout ⟨v.toInt64, .zero⟩ image
  | const64 info v, image => writeConstant info.layout ⟨v, .zero⟩ image
  | constFloat info v, image => writeConstant info.layout ⟨0, v⟩ image
  | structLit info fields, image =>
    match info.layout with
    | .struct _ true _ _ => (false, image)
    | l =>
      if fields.length = l.fields.length then writeFields fields l.fields image
      else (false, image)
  | arrayLit info elems, image =>
    match info.layout with
    | .array _ elem _ _ => writeElems elems elem.size.toInt.toNat 0 image
    | _ => (elems.isEmpty, image)
  | _, image => (false, image)

def writeFields : List Node → List (Field Layout) → Image → Bool × Image
  | value :: values, field :: fields, image =>
    let offset := field.offset.toInt.toNat
    let size := field.layout.size.toInt.toNat
    if image.fits offset size then
      let (done, written) := writeStatic value (image.window offset size)
      let image := { image with bytes := written.bytes }
      if done then writeFields values fields image else (false, image)
    else (false, image)
  | _, _, image => (true, image)

def writeElems : List Node → (size offset : Nat) → Image → Bool × Image
  | [], _, _, image => (true, image)
  | value :: values, size, offset, image =>
    if offset + size ≤ image.length then
      let (done, written) := writeStatic value (image.window offset size)
      let image := { image with bytes := written.bytes }
      if done then writeElems values size (offset + size) image else (false, image)
    else (false, image)

end

end Node

end TreeWasm
