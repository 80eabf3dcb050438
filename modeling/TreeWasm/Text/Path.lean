/-! # Paths

File paths as text with `/` between their parts. A clean path has no empty and no `.` part, and
`..` only at its start.
-/

namespace TreeWasm.Path

/-- Takes one more part into the parts kept so far, last first. -/
def step (rooted : Bool) (kept : List String) (part : String) : List String :=
  if part = "" ∨ part = "." then kept
  else if part = ".." then
    match kept with
    | [] => if rooted then [] else [".."]
    | last :: rest => if last = ".." then ".." :: kept else rest
  else part :: kept

/-- The shortest path of the same meaning. -/
def clean (path : String) : String :=
  let rooted := path.startsWith "/"
  let parts := ((path.splitOn "/").foldl (step rooted) []).reverse
  let joined := "/".intercalate parts
  if rooted then "/" ++ joined else if joined = "" then "." else joined

/-- Joins two paths; an empty one adds nothing. -/
def join (first second : String) : String :=
  match [first, second].filter (· ≠ "") with
  | [] => ""
  | paths => clean ("/".intercalate paths)

/-- The last part of a path. -/
def base (path : String) : String :=
  if path = "" then "."
  else ((path.splitOn "/").filter (· ≠ "")).getLastD "/"

def parent (path : String) : String :=
  let parts := (path.splitOn "/").dropLast
  clean ("/".intercalate parts ++ if parts.isEmpty then "" else "/")

end TreeWasm.Path
