/-! # A 64-bit checksum of bytes

The xxHash function of 64 bits with seed 0: four lanes over stripes of 32 bytes, then the rest in
words of 8, 4 and 1 bytes, then an avalanche.
-/

namespace TreeWasm.Checksum

def prime1 : UInt64 := 11400714785074694791
def prime2 : UInt64 := 14029467366897019727
def prime3 : UInt64 := 1609587929392839161
def prime4 : UInt64 := 9650029242287828579
def prime5 : UInt64 := 2870177450012600261

def rotateLeft (x : UInt64) (n : UInt64) : UInt64 :=
  (x <<< n) ||| (x >>> (64 - n))

/-- The number spelled by bytes, lowest first. -/
def word (bytes : List UInt8) : UInt64 :=
  bytes.foldr (fun b n => (n <<< 8) ||| b.toUInt64) 0

def round (lane input : UInt64) : UInt64 :=
  rotateLeft (lane + input * prime2) 31 * prime1

def mergeLane (hash lane : UInt64) : UInt64 :=
  (hash ^^^ round 0 lane) * prime1 + prime4

structure Lanes where
  a : UInt64
  b : UInt64
  c : UInt64
  d : UInt64

def Lanes.start : Lanes := ⟨prime1 + prime2, prime2, 0, 0 - prime1⟩

def Lanes.absorb (lanes : Lanes) (stripe : List UInt8) : Lanes :=
  { a := round lanes.a (word (stripe.take 8))
    b := round lanes.b (word ((stripe.drop 8).take 8))
    c := round lanes.c (word ((stripe.drop 16).take 8))
    d := round lanes.d (word ((stripe.drop 24).take 8)) }

def Lanes.merge (lanes : Lanes) : UInt64 :=
  let mixed := rotateLeft lanes.a 1 + rotateLeft lanes.b 7 + rotateLeft lanes.c 12 +
    rotateLeft lanes.d 18
  [lanes.a, lanes.b, lanes.c, lanes.d].foldl mergeLane mixed

/-- Absorbs whole stripes and returns what is left over. -/
def stripes (lanes : Lanes) (bytes : List UInt8) : Lanes × List UInt8 :=
  if 32 ≤ bytes.length then stripes (lanes.absorb (bytes.take 32)) (bytes.drop 32)
  else (lanes, bytes)
  termination_by bytes.length
  decreasing_by simp only [List.length_drop]; omega

/-- Mixes in the bytes that do not fill a stripe. -/
def tail (hash : UInt64) : List UInt8 → UInt64
  | [] => hash
  | b :: rest =>
    if 7 ≤ rest.length then
      tail (rotateLeft (hash ^^^ round 0 (word (b :: rest.take 7))) 27 * prime1 + prime4)
        (rest.drop 7)
    else if 3 ≤ rest.length then
      tail (rotateLeft (hash ^^^ (word (b :: rest.take 3) * prime1)) 23 * prime2 + prime3)
        (rest.drop 3)
    else tail (rotateLeft (hash ^^^ (b.toUInt64 * prime5)) 11 * prime1) rest
  termination_by bytes => bytes.length
  decreasing_by all_goals simp only [List.length_drop, List.length_cons] <;> omega

def avalanche (hash : UInt64) : UInt64 :=
  let hash := (hash ^^^ (hash >>> 33)) * prime2
  let hash := (hash ^^^ (hash >>> 29)) * prime3
  hash ^^^ (hash >>> 32)

def ofBytes (bytes : List UInt8) : UInt64 :=
  let length := UInt64.ofNat bytes.length
  if bytes.length < 32 then avalanche (tail (prime5 + length) bytes)
  else
    let (lanes, rest) := stripes Lanes.start bytes
    avalanche (tail (lanes.merge + length) rest)

end TreeWasm.Checksum
