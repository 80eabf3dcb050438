import TreeWasm.Proofs.Meaning.Alike
import TreeWasm.Proofs.Meaning.Forms
import TreeWasm.Proofs.Meaning.Rows

/-! # Well-formed code nodes

When the parts of a node have the layouts that its instructions need. This is the discipline of the
node constructors and of the program trees they are called for; neither simplification nor emission
checks it.
-/

namespace TreeWasm

open Wasm

variable {Γ : Surroundings} {reachable : Bool} {l : Nat} {nodes : List Node} {n : Node}

/-- What a node may refer to in the function it stands in. -/
structure Surroundings where
  /-- The value types of the declared slots. -/
  slots : Nat → Option ValType
  functions : Nat → Option FuncType
  /-- The layout of the results of the function. -/
  result : Layout
  /-- The labels that a branch may name. -/
  targets : List Nat

namespace Surroundings

variable {label : Option Nat}

/-- Inside a construct with a label. A construct with a value hides its label from branches, which
could not bring the value. -/
def enter (Γ : Surroundings) (label : Option Nat) (reachable : Bool) : Surroundings :=
  match label with
  | none => Γ
  | some l =>
    { Γ with targets := if reachable then l :: Γ.targets else Γ.targets.filter (· ≠ l) }

@[simp]
theorem functions_enter : (Γ.enter label reachable).functions = Γ.functions := by
  cases label <;> rfl

@[simp]
theorem slots_enter : (Γ.enter label reachable).slots = Γ.slots := by
  cases label <;> rfl

@[simp]
theorem result_enter : (Γ.enter label reachable).result = Γ.result := by
  cases label <;> rfl

theorem mem_targets_of_enter (hne : label ≠ some l) (h : l ∈ (Γ.enter label reachable).targets) :
    l ∈ Γ.targets := by
  cases label with
  | none => exact h
  | some own =>
    have hown : l ≠ own := fun heq => hne (heq ▸ rfl)
    cases reachable <;> simp_all [enter]

theorem reachable_of_mem_enter (h : l ∈ (Γ.enter (some l) reachable).targets) : reachable := by
  cases reachable with
  | true => rfl
  | false => simp [enter] at h

end Surroundings

namespace Layout

/-- The layouts of statements of which only the last leaves a value, of layout `l`. -/
def Sequence (l : Layout) : List Layout → Prop
  | [] => l.isVoid
  | [last] => last.Alike l
  | first :: rest => first.isVoid ∧ Sequence l rest

/-- Whether an operator takes an operand of layout `source` to a value of layout `l`. -/
def TakesUnary (l : Layout) (op : Operator) (source : Layout) : Prop :=
  match op with
  | .arith .sub => l.isScalar ∧ source.slot = l.slot
  | .not => l.slot = .i32 ∧ (source.slot = .i32 ∨ source.slot = .i64)
  | .complement => (l.slot = .i32 ∨ l.slot = .i64) ∧ source.slot = l.slot
  | _ => False

/-- Whether a scalar has the kind that all scalars of its type have. -/
def follows (kindOf : TypeKey → Option Scalar) (l : Layout) : Bool :=
  !l.isScalar || kindOf l.tag.key == l.scalar?

/-- The slots of fields follow one another. -/
def FieldsPlaced (slot : Nat) : List (Field Layout) → Prop
  | [] => True
  | field :: rest => field.slot = slot ∧ FieldsPlaced (slot + field.layout.slots.length) rest

/-- Whether a literal of this layout has parts of the given layouts. -/
def TakesParts (l : Layout) (parts : List Layout) : Prop :=
  match l with
  | struct _ union _ fields =>
    union = false ∧ FieldsPlaced 0 fields ∧ List.Forall₂ Fits parts (fields.map Field.layout)
  | array _ elem (some count) _ => count.toInt = parts.length ∧ ∀ part ∈ parts, part.Fits elem
  | _ => False

end Layout

namespace Layout

variable {first l source : Layout} {parts rest : List Layout} {op : Operator}

theorem Sequence.tail {second : Layout} (h : l.Sequence (first :: second :: rest)) :
    first.isVoid ∧ l.Sequence (second :: rest) := h

theorem Sequence.cons (hfirst : first.isVoid) (h : l.Sequence rest) : l.Sequence (first :: rest) := by
  cases rest with
  | nil => exact alike_of_isVoid hfirst h
  | cons second rest => exact ⟨hfirst, h⟩

theorem Sequence.append {init : List Layout} (hinit : ∀ m ∈ init, m.isVoid) (h : l.Sequence rest) :
    l.Sequence (init ++ rest) := by
  induction init with
  | nil => exact h
  | cons first init ih =>
    have hrest := ih (fun m hm => hinit m (.tail _ hm))
    exact Sequence.cons (hinit first (.head _)) hrest

/-- Without a value of its own, a sequence consists of statements. -/
theorem Sequence.isVoid_of_mem {m : Layout} (h : l.Sequence parts) (hvoid : l.isVoid)
    (hm : m ∈ parts) : m.isVoid := by
  induction parts with
  | nil => cases hm
  | cons first rest ih =>
    cases rest with
    | nil =>
      rw [List.mem_singleton.mp hm, h.1.isVoid_eq]
      exact hvoid
    | cons second rest =>
      rcases List.mem_cons.mp hm with rfl | hm
      · exact h.tail.1
      · exact ih h.tail.2 hm

theorem Sequence.isOk_leaves (h : l.Sequence parts) (hok : ∀ part ∈ parts, part.leaves.isOk) :
    l.leaves.isOk := by
  induction parts with
  | nil => exact isOk_leaves_of_isVoid h
  | cons first rest ih =>
    cases rest with
    | nil => exact h.1.isOk_leaves (hok first (.head _))
    | cons second rest => exact ih h.tail.2 (fun m hm => hok m (.tail _ hm))

theorem Sequence.kinds_eq (h : l.Sequence parts) : l.kinds = parts.flatMap kinds := by
  induction parts with
  | nil => exact kinds_of_isVoid h
  | cons first rest ih =>
    cases rest with
    | nil => rw [List.flatMap_cons, List.flatMap_nil, List.append_nil, h.1.kinds_eq]
    | cons second rest =>
      rw [List.flatMap_cons, kinds_of_isVoid h.tail.1, List.nil_append]
      exact ih h.tail.2

theorem Sequence.slots_eq (h : l.Sequence (nodes.map Node.layout)) :
    l.slots = nodes.flatMap (fun n => n.layout.slots) := by
  rw [slots, h.kinds_eq, List.flatMap_map, List.map_flatMap]
  rfl

theorem TakesUnary.isScalar (h : l.TakesUnary op source) : l.isScalar := by
  unfold TakesUnary at h
  split at h
  · exact h.1
  · exact isScalar_of_slot h.1 (by decide)
  · rcases h.1 with hslot | hslot <;> exact isScalar_of_slot hslot (by decide)
  · exact h.elim

theorem TakesUnary.isScalar_source (h : l.TakesUnary op source) : source.isScalar := by
  unfold TakesUnary at h
  split at h
  · obtain ⟨kind, hkind⟩ := Option.isSome_iff_exists.mp h.1
    refine isScalar_of_slot (h.2.trans (slot_of_scalar? hkind)) ?_
    cases kind <;> decide
  · rcases h.2 with hslot | hslot <;> exact isScalar_of_slot hslot (by decide)
  · rcases h.1 with hslot | hslot <;> exact isScalar_of_slot (h.2.trans hslot) (by decide)
  · exact h.elim

theorem kinds_of_spots {row : List (Int64 × Scalar)} (h : l.spots = some row) :
    l.kinds = row.map Prod.snd := by
  rw [kinds_eq, h, Option.getD_some]

theorem exists_fieldSpots {fields : List (Field Layout)}
    (hfit : List.Forall₂ Fits parts (fields.map Field.layout))
    (hok : ∀ part ∈ parts, part.leaves.isOk) :
    ∃ row, fieldSpots fields = some row ∧ row.map Prod.snd = parts.flatMap kinds := by
  induction fields generalizing parts with
  | nil =>
    cases hfit
    exact ⟨[], rfl, rfl⟩
  | cons field rest ih =>
    obtain ⟨name, layout, offset, slot⟩ := field
    cases hfit with
    | @cons part _ parts _ hpart hrest =>
      obtain ⟨row, hrow⟩ := Option.isSome_iff_exists.mp (isOk_leaves_iff.mp (hok part (.head _)))
      obtain ⟨more, hmore, hkinds⟩ := ih hrest (fun p hp => hok p (.tail _ hp))
      refine ⟨row.map (shiftSpot offset) ++ more, ?_, ?_⟩
      · rw [fieldSpots_cons, ← hpart.spots_eq, hrow, hmore]
        rfl
      · rw [List.map_append, hkinds, List.map_map, List.flatMap_cons, kinds_of_spots hrow]
        rfl

theorem exists_arraySpots {elem : Layout} {count : Int64} {tag : TypeTag} {size : Int64}
    (hcount : count.toInt = parts.length) (hfit : ∀ part ∈ parts, part.Fits elem)
    (hok : ∀ part ∈ parts, part.leaves.isOk) :
    ∃ row, (array tag elem (some count) size).spots = some row ∧
      row.map Prod.snd = parts.flatMap kinds := by
  rw [spots_array_some]
  cases parts with
  | nil =>
    have hzero : count ≤ 0 := Int64.le_iff_toInt_le.mpr (by rw [hcount]; simp)
    exact ⟨[], by rw [if_pos hzero], rfl⟩
  | cons first rest =>
    have hpos : ¬ count ≤ 0 := by
      rw [Int64.le_iff_toInt_le, hcount]
      simp
    obtain ⟨row, hrow⟩ := Option.isSome_iff_exists.mp (isOk_leaves_iff.mp (hok first (.head _)))
    have hkinds : ∀ part ∈ first :: rest, part.kinds = row.map Prod.snd := by
      intro part hpart
      rw [(hfit part hpart).kinds_eq, ← (hfit first (.head _)).kinds_eq, kinds_of_spots hrow]
    rw [(hfit first (.head _)).spots_eq] at hrow
    refine ⟨_, by rw [if_neg hpos, hrow, Option.map_some], ?_⟩
    rw [List.map_flatMap, hcount, Int.toNat_natCast, List.flatMap_def, List.flatMap_def,
      List.map_congr_left hkinds]
    simp [Function.comp_def, shiftSpot, List.replicate_succ]

/-- The slots of a literal are those of its parts, one after the other. -/
theorem TakesParts.kinds_eq (h : l.TakesParts parts) (hok : ∀ part ∈ parts, part.leaves.isOk) :
    l.leaves.isOk ∧ l.kinds = parts.flatMap kinds := by
  rw [isOk_leaves_iff]
  cases l with
  | void tag | scalar tag kind => exact h.elim
  | struct tag union size fields =>
    obtain ⟨rfl, _, hfit⟩ := h
    obtain ⟨row, hrow, hkinds⟩ := exists_fieldSpots hfit hok
    have hspots : (struct tag false size fields).spots = some row := by
      rw [spots_struct, hrow]
      rfl
    exact ⟨by rw [hspots]; rfl, by rw [kinds_of_spots hspots, hkinds]⟩
  | array tag elem count size =>
    cases count with
    | none => exact h.elim
    | some count =>
      obtain ⟨hcount, hfit⟩ := h
      obtain ⟨row, hspots, hkinds⟩ := exists_arraySpots hcount hfit hok
      exact ⟨by rw [hspots]; rfl, by rw [kinds_of_spots hspots, hkinds]⟩

end Layout

namespace Node

/-- Whether a value can be assigned to what a node names. -/
def isPlace : Node → Bool
  | locals .. | data .. => true
  | _ => false

mutual

def WellFormed (Γ : Surroundings) : Node → Prop
  | absent => False
  | const32 info _ => info.layout.slot = .i32
  | const64 info _ => info.layout.slot = .i64
  | constFloat info _ => info.layout.isFloat
  | binary info op x y =>
    WellFormed Γ x ∧ WellFormed Γ y ∧ x.layout.slot = info.layout.slot ∧
      y.layout.slot = info.layout.slot ∧ (info.layout.arith op).isOk
  | unary info op x => WellFormed Γ x ∧ info.layout.TakesUnary op x.layout
  | convert info x => WellFormed Γ x ∧ x.layout.isScalar ∧ info.layout.isScalar
  | compare info op x y =>
    WellFormed Γ x ∧ WellFormed Γ y ∧ y.layout.slot = x.layout.slot ∧
      (x.layout.compare op).isOk ∧ info.layout.slot = .i32
  | data info addr _ => WellFormed Γ addr ∧ addr.layout.slot = .i32 ∧ info.layout.leaves.isOk
  | scaledOffset info ptr index _ =>
    WellFormed Γ ptr ∧ WellFormed Γ index ∧ ptr.layout.slot = .i32 ∧
      info.layout.slot = .i32 ∧ index.layout.slot = .i32
  | locals info slots =>
    info.layout.leaves.isOk ∧ slots.map Γ.slots = info.layout.slots.map some
  | ifElse info cond yes no =>
    WellFormed Γ cond ∧ cond.layout.slot = .i32 ∧ WellFormed Γ yes ∧
      yes.layout.Alike info.layout ∧
      ((no.isAbsent ∧ info.layout.isVoid) ∨ (WellFormed Γ no ∧ no.layout.Alike info.layout))
  | loop info label body =>
    WellFormed (Γ.enter label true) body ∧ body.layout.Alike info.layout
  | block info label children =>
    AllWellFormed (Γ.enter label info.layout.isVoid) children ∧ info.layout.Sequence (children.map layout)
  | seq info children => AllWellFormed Γ children ∧ info.layout.Sequence (children.map layout)
  | branch info label => info.layout.isVoid ∧ label ∈ Γ.targets
  | branchIf info label cond =>
    info.layout.isVoid ∧ label ∈ Γ.targets ∧ WellFormed Γ cond ∧ cond.layout.slot = .i32
  | branchTable info index targets default =>
    info.layout.isVoid ∧ (∀ label ∈ default :: targets, label ∈ Γ.targets) ∧
      WellFormed Γ index ∧ index.layout.slot = .i32
  | ret info value =>
    info.layout.isVoid ∧
      ((value.isAbsent ∧ Γ.result.isVoid) ∨ (WellFormed Γ value ∧ value.layout.Alike Γ.result))
  | unreachable info => info.layout.isVoid
  | nop info => info.layout.isVoid
  | drop info x => info.layout.isVoid ∧ WellFormed Γ x
  | structLit info fields => AllWellFormed Γ fields ∧ info.layout.TakesParts (fields.map layout)
  | arrayLit info elems => AllWellFormed Γ elems ∧ info.layout.TakesParts (elems.map layout)
  | call info func _ args =>
    AllWellFormed Γ args ∧ info.layout.leaves.isOk ∧
      Γ.functions func = some ⟨args.flatMap (fun arg => arg.layout.slots), info.layout.slots⟩
  | assign info target value =>
    info.layout.isVoid ∧ target.isPlace ∧ WellFormed Γ target ∧ WellFormed Γ value ∧
      value.layout.Fits target.layout
  | addressOf info x => info.layout.slot = .i32 ∧ InMemory Γ x
  termination_by structural n => n

/-- A node names a place in memory. Its layout may be a union, which has an address but no value. -/
def InMemory (Γ : Surroundings) : Node → Prop
  | data _ addr _ => WellFormed Γ addr ∧ addr.layout.slot = .i32
  | _ => False
  termination_by structural n => n

def AllWellFormed (Γ : Surroundings) : List Node → Prop
  | [] => True
  | n :: rest => WellFormed Γ n ∧ AllWellFormed Γ rest
  termination_by structural nodes => nodes

end

theorem allWellFormed_iff : AllWellFormed Γ nodes ↔ ∀ n ∈ nodes, n.WellFormed Γ := by
  induction nodes with
  | nil => simp [AllWellFormed]
  | cons n rest ih => simp [AllWellFormed, ih]

theorem WellFormed.isAbsent_eq (h : n.WellFormed Γ) : n.isAbsent = false := by
  cases n with
  | absent => exact h.elim
  | _ => rfl

/-- What no instruction needs but programs promise: constants are canonical, operands are of one kind,
`not` is for truth values and the other unary operators for other ones, addresses fill a slot, and a
branch table has no more entries than there are non-negative indices. -/
def isProper : Node → Bool
  | const32 info v => info.layout.wrap v.toInt64 = v.toInt64
  | binary info _ x y =>
    x.layout.scalar? = info.layout.scalar? ∧ y.layout.scalar? = info.layout.scalar?
  | compare _ _ x y => y.layout.scalar? = x.layout.scalar?
  | unary info .not x => info.layout.isBool && x.layout.isBool
  | unary info _ _ => !info.layout.isBool
  | scaledOffset info ptr _ _ => info.layout.size = 4 ∧ ptr.layout.scalar? = info.layout.scalar?
  | addressOf info _ => info.layout.size = 4
  | branchTable _ _ targets _ => targets.length ≤ 2 ^ 31
  | _ => true

/-- A proper node whose type has one representation. -/
def isRegular (kindOf : TypeKey → Option Scalar) (n : Node) : Bool := n.layout.follows kindOf && n.isProper

/-- A regular node that is no floating-point number. -/
def isPlain (kindOf : TypeKey → Option Scalar) (n : Node) : Bool := n.isRegular kindOf && !n.layout.isFloat

theorem isPlain_iff {kindOf : TypeKey → Option Scalar} :
    n.isPlain kindOf ↔ n.layout.follows kindOf ∧ n.isProper ∧ n.layout.isFloat = false := by
  simp [isPlain, isRegular, and_assoc]

theorem WellFormed.isOk_leaves (h : n.WellFormed Γ) : n.layout.leaves.isOk := by
  induction n using partsInduction generalizing Γ with
  | absent => exact h.elim
  | const32 info v | const64 info v =>
    exact Layout.isOk_leaves_of_isScalar (Layout.isScalar_of_slot h (by decide))
  | constFloat info v => exact Layout.isOk_leaves_of_isScalar (Layout.isScalar_of_isFloat h)
  | binary info op x y _ _ =>
    exact Layout.isOk_leaves_of_isScalar (Layout.isScalar_of_arith h.2.2.2.2)
  | unary info op x _ => exact Layout.isOk_leaves_of_isScalar h.2.isScalar
  | convert info x _ => exact Layout.isOk_leaves_of_isScalar h.2.2
  | compare info op x y _ _ =>
    exact Layout.isOk_leaves_of_isScalar (Layout.isScalar_of_slot h.2.2.2.2 (by decide))
  | data info addr offset _ => exact h.2.2
  | scaledOffset info ptr index size _ _ =>
    exact Layout.isOk_leaves_of_isScalar (Layout.isScalar_of_slot h.2.2.2.1 (by decide))
  | locals info slots => exact h.1
  | ifElse info cond yes no _ hyes _ => exact h.2.2.2.1.1.isOk_leaves (hyes h.2.2.1)
  | loop info label body hbody => exact h.2.1.isOk_leaves (hbody h.1)
  | block info label children ih | seq info children ih =>
    refine h.2.isOk_leaves (fun part hpart => ?_)
    obtain ⟨n, hn, rfl⟩ := List.mem_map.mp hpart
    exact ih n hn (allWellFormed_iff.mp h.1 n hn)
  | structLit info parts ih | arrayLit info parts ih =>
    refine (h.2.kinds_eq (fun part hpart => ?_)).1
    obtain ⟨n, hn, rfl⟩ := List.mem_map.mp hpart
    exact ih n hn (allWellFormed_iff.mp h.1 n hn)
  | call info func name args _ => exact h.2.1
  | addressOf info x _ _ =>
    exact Layout.isOk_leaves_of_isScalar (Layout.isScalar_of_slot h.1 (by decide))
  | branch | branchIf | branchTable | ret | drop | assign => exact Layout.isOk_leaves_of_isVoid h.1
  | unreachable | nop => exact Layout.isOk_leaves_of_isVoid h

end Node

end TreeWasm
