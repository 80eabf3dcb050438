import TreeWasm.Number.Literal

/-! # Dates and times

Days of the calendar, times of day and time zones as they are written in documents. Each reader
takes what it reads off the front of a text and returns the rest.
-/

namespace TreeWasm.Calendar

/-- Splits a number of two digits off a text. -/
def splitTwo : List Char → Option (Nat × List Char)
  | a :: b :: rest =>
    if Number.isDigit a && Number.isDigit b then
      some ((a.toNat - 48) * 10 + (b.toNat - 48), rest)
    else none
  | _ => none

/-- Splits a number of one or two digits off a text. -/
def splitShort : List Char → Option (Nat × List Char)
  | [] => none
  | a :: rest =>
    match splitTwo (a :: rest) with
    | some split => some split
    | none => if Number.isDigit a then some (a.toNat - 48, rest) else none

def splitChar (c : Char) : List Char → Option (List Char)
  | d :: rest => if c = d then some rest else none
  | [] => none

def isLeapYear (year : Nat) : Bool :=
  year % 4 = 0 && (year % 100 ≠ 0 || year % 400 = 0)

def daysIn (year month : Nat) : Nat :=
  if month = 2 then (if isLeapYear year then 29 else 28)
  else if [4, 6, 9, 11].contains month then 30 else 31

/-- Whether a day is in the calendar. -/
def isDay (year month day : Nat) : Bool :=
  1 ≤ month && month ≤ 12 && 1 ≤ day && day ≤ daysIn year month

/-- Splits a day `Y-M-D` off a text: the year has four digits, and `part` splits off the month and
the day. -/
def splitDay (part : List Char → Option (Nat × List Char)) (text : List Char) :
    Option (List Char) := do
  let (century, rest) ← splitTwo text
  let (year, rest) ← splitTwo rest
  let rest ← splitChar '-' rest
  let (month, rest) ← part rest
  let rest ← splitChar '-' rest
  let (day, rest) ← part rest
  if isDay (century * 100 + year) month day then some rest else none

/-- Splits a time of day `h:m:s` off a text, `part` splitting off each of its numbers. -/
def splitClock (part : List Char → Option (Nat × List Char)) (text : List Char) :
    Option (List Char) := do
  let (hour, rest) ← part text
  let rest ← splitChar ':' rest
  let (minute, rest) ← part rest
  let rest ← splitChar ':' rest
  let (second, rest) ← part rest
  if hour < 24 ∧ minute < 60 ∧ second < 60 then some rest else none

def dropFraction : List Char → List Char
  | mark :: c :: rest =>
    if (mark = '.' || mark = ',') && Number.isDigit c then rest.dropWhile Number.isDigit
    else mark :: c :: rest
  | rest => rest

/-- Splits a time zone off a text: `Z`, or a difference of at most 24 hours and 60 minutes. -/
def splitZone : List Char → Option (List Char)
  | [] => none
  | sign :: rest =>
    if sign = 'Z' then some rest
    else if sign = '+' || sign = '-' then do
      let (hour, rest) ← splitTwo rest
      let rest ← splitChar ':' rest
      let (minute, rest) ← splitTwo rest
      if hour ≤ 24 ∧ minute ≤ 60 then some rest else none
    else none

end TreeWasm.Calendar
