/-! # Tables of a settings file

The keys of a settings file form tables within tables. A path of keys leads from the outermost
table inwards; where several tables share one key, it leads into the last of them.
-/

namespace TreeWasm

/-- A value in a settings file, as far as settings care. -/
inductive FileValue
  | text (value : String)
  | integer (value : Int64)
  /-- A truth value, a number with a fraction or exponent, a date or a time. -/
  | other
  | array (items : List FileValue)
  /-- A closed table was written as one value and takes no further keys. -/
  | table (closed : Bool) (entries : List (String × FileValue))
  /-- Tables that share a key; the last one can still grow. -/
  | tables (closed : Bool) (last : List (String × FileValue))
  deriving Repr

abbrev FileTable := List (String × FileValue)

namespace FileTable

def put (key : String) (value : FileValue) : FileTable → FileTable
  | [] => [(key, value)]
  | (k, v) :: rest => if k = key then (key, value) :: rest else (k, v) :: put key value rest

/-- Changes the table that a path leads to. Missing tables are made, closed if they are made in a
closed one; a path through any other value leads nowhere. -/
def alter (change : (closed : Bool) → FileTable → Option FileTable) :
    (path : List String) → (closed : Bool) → FileTable → Option FileTable
  | [], closed, t => change closed t
  | key :: path, closed, t =>
    match t.lookup key with
    | none => (alter change path closed []).map (fun inner => put key (.table closed inner) t)
    | some (.table closed inner) =>
      (alter change path closed inner).map (fun inner => put key (.table closed inner) t)
    | some (.tables closed last) =>
      (alter change path closed last).map (fun last => put key (.tables closed last) t)
    | some _ => none

/-- Makes the tables along a path. -/
def openPath? (path : List String) (t : FileTable) : Option FileTable :=
  alter (fun _ t => some t) path false t

/-- Adds a key to the table that a path leads to. A key that is there, and a closed table, are
refused. -/
def add? (path : List String) (key : String) (value : FileValue) (t : FileTable) :
    Option FileTable :=
  alter (fun closed t =>
    if closed || (t.lookup key).isSome then none else some (put key value t)) path false t

def find? : (path : List String) → FileTable → Option FileValue
  | [], _ => none
  | [key], t => t.lookup key
  | key :: path, t =>
    match t.lookup key with
    | some (.table _ inner) | some (.tables _ inner) => find? path inner
    | _ => none

/-- Sets the value that a path leads to, whatever was there. A key on the way that has another
value is passed over. -/
def setPath (value : FileValue) : (path : List String) → FileTable → FileTable
  | [], t => t
  | [key], t => put key value t
  | key :: path, t =>
    match t.lookup key with
    | none => put key (.table false (setPath value path [])) t
    | some (.table closed inner) => put key (.table closed (setPath value path inner)) t
    | some (.tables closed last) => put key (.tables closed (setPath value path last)) t
    | some _ => setPath value path t

end FileTable

end TreeWasm
