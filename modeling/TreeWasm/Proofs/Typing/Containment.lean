import Mathlib.Logic.Relation
import Mathlib.Order.WellFounded
import TreeWasm.Proofs.Typing.Reading

/-! # Types that contain one another

A declared type is known to its own fields, and no field knows a type that is declared later. So the only
way for containment to come back to a type is for an aggregate to hold itself in one of its fields.
-/

namespace TreeWasm

open Program (Declared)

variable {deep strip : Bool} {t u : Ty} {id : Nat} {declared : Level Ty} {aggregates : Array Aggregate}
  {a : Aggregate} {table : TypeTable}

/-- The aggregate that values of a type hold, perhaps as the elements of arrays: of sized ones, and with
`deep` of open ones too. -/
def Ty.held? (deep : Bool) : Ty → Option Nat
  | .aggregate id => some id
  | .array _ length elem => if deep || length.isSome then elem.held? deep else none
  | _ => none

/-- A type contains another by value: an aggregate the types of its fields, a sized array that of its
elements, and with `deep` so does an open array. -/
inductive TypeTable.Contains (table : TypeTable) (deep : Bool) : Ty → Ty → Prop
  | field {id a field} : table.get? id = some a → field ∈ a.fields.bindings →
      Contains table deep (.aggregate id) field.2
  | element {occurrence length elem} : deep || length.isSome →
      Contains table deep (.array occurrence length elem) elem

theorem Ty.held?_form (strip : Bool) : (t : Ty) → t.isWhole → (t.form strip).held? deep = t.held? deep
  | .builtin _, _ | .aggregate _, _ | .pointer .., _ | .function .., _ => by simp [form, held?]
  | .array _ length elem, h => by rw [form, held?, held?, elem.held?_form false h]

theorem Spelling.MadeOf.held? {known : List UInt8 → Option Ty} (h : MadeOf known t)
    (hheld : t.held? deep = some id) : ∃ name u, known name = some u ∧ u.held? deep = some id := by
  induction h with
  | name hknown => exact ⟨_, _, hknown, hheld⟩
  | array _ ih =>
    rw [Ty.held?] at hheld
    split at hheld
    · exact ih hheld
    · cases hheld
  | nothing | pointer | function => simp [Ty.held?, Ty.void] at hheld

/-! ## Declared types -/

namespace Program.Declared

section

variable (h : Declared declared aggregates)
include h

/-- The declared names stand for the aggregates. -/
theorem exists_of_mem : ∀ binding ∈ declared.bindings, ∃ id < aggregates.size, binding.2 = .aggregate id := by
  induction h with
  | empty => exact nofun
  | @more declared aggregates a _ _ _ _ ih =>
    refine Level.forall_define (P := fun t : Ty => ∃ id < (aggregates.push a).size, t = .aggregate id)
      (fun binding hbinding => ?_) _ ⟨aggregates.size, by simp, rfl⟩
    obtain ⟨id, hid, ht⟩ := ih binding hbinding
    exact ⟨id, by rw [Array.size_push]; omega, ht⟩

/-- A field holds its own aggregate or an earlier one. -/
theorem held?_le (ha : aggregates[id]? = some a) {field : String × Ty}
    (hfield : field ∈ a.fields.bindings) {held : Nat} (hheld : field.2.held? deep = some held) :
    held ≤ id := by
  induction h with
  | empty => simp at ha
  | @more declared aggregates new hdeclared hfresh hbuiltin hfields ih =>
    rw [Array.getElem?_push] at ha
    split at ha
    next hid =>
      cases ha
      obtain ⟨hwhole, text, u, hread, hform⟩ := hfields field hfield
      have hall := Declared.more hdeclared hfresh hbuiltin hfields
      have hu := Spelling.isWhole_of_read hall.isWhole hread
      rw [← Ty.held?_form false _ hwhole, hform, Ty.held?_form false _ hu] at hheld
      obtain ⟨name, u, hknown, hheld⟩ := (Spelling.madeOf_of_read hread).held? hheld
      obtain ⟨b, rfl⟩ | ⟨binding, hmem, rfl⟩ := Spelling.of_knownType hknown
      · cases hheld
      · obtain ⟨k, hk, hbinding⟩ := hall.exists_of_mem binding hmem
        rw [hbinding] at hheld
        cases hheld
        rw [Array.size_push] at hk
        omega
    · exact ih ha

end

end Program.Declared

/-! ## Cycles -/

namespace TypeTable

/-- Whether an aggregate holds itself in one of its fields. -/
def holdsItself (table : TypeTable) (deep : Bool) (id : Nat) : Bool :=
  (table.get? id).any (fun a => a.fields.bindings.any (fun field => field.2.held? deep == some id))

theorem holdsItself_iff : table.holdsItself deep id ↔
    ∃ a field, table.get? id = some a ∧ field ∈ a.fields.bindings ∧ field.2.held? deep = some id := by
  rw [holdsItself, Option.any_eq_true]
  simp only [List.any_eq_true, beq_iff_eq]
  exact ⟨fun ⟨a, ha, field, hfield, hheld⟩ => ⟨a, field, ha, hfield, hheld⟩,
    fun ⟨a, field, ha, hfield, hheld⟩ => ⟨a, ha, field, hfield, hheld⟩⟩

theorem contains_held (table : TypeTable) : (t : Ty) → t.held? deep = some id →
    Relation.ReflTransGen (table.Contains deep) t (.aggregate id)
  | .aggregate _, h => by
    cases h
    exact .refl
  | .array _ length elem, h => by
    rw [Ty.held?] at h
    split at h
    next hlen => exact .head (.element hlen) (table.contains_held elem h)
    · cases h

/-- What a type holds, then within how many arrays. -/
def rank (deep : Bool) : Ty → Nat × Nat
  | .array _ length elem =>
    (((Ty.array 0 length elem).held? deep).elim 0 (· + 1), (rank deep elem).2 + 1)
  | t => ((t.held? deep).elim 0 (· + 1), 0)

theorem rank_fst : (rank deep t).1 = (t.held? deep).elim 0 (· + 1) := by
  cases t <;> rfl

theorem Contains.rank_lt (hdeclared : Declared declared table.aggregates) (hnone : ∀ id, ¬ table.holdsItself deep id)
    (h : table.Contains deep t u) : Prod.Lex (· < ·) (· < ·) (rank deep u) (rank deep t) := by
  cases h with
  | @field id a field ha hfield =>
    rw [Prod.lex_def, rank_fst, rank_fst]
    refine .inl ?_
    cases hheld : field.2.held? deep with
    | none => exact Nat.succ_pos id
    | some held =>
      have hle := hdeclared.held?_le ha hfield hheld
      have hne : held ≠ id := fun heq =>
        hnone id (holdsItself_iff.mpr ⟨a, field, ha, hfield, heq ▸ hheld⟩)
      exact Nat.succ_lt_succ (Nat.lt_of_le_of_ne hle hne)
  | @element occurrence length elem hlen =>
    have hheld : (Ty.array occurrence length u).held? deep = u.held? deep := if_pos hlen
    rw [Prod.lex_def, rank_fst, rank_fst, hheld]
    exact .inr ⟨rfl, Nat.lt_succ_self _⟩

end TypeTable

/-- Containment among the types of a program that is read has no cycle, and there is an end to it, exactly
if no aggregate holds itself in a field. A type may hold itself: nothing refuses that when types are
declared. -/
theorem Program.acyclic_iff_holds_none_itself (deep : Bool) {file : Int} {outline : Document.Outline}
    {program : Program} (h : ofOutline file outline = .ok program) :
    ((∀ t, ¬ Relation.TransGen (program.table.Contains deep) t t) ↔ ∀ id, ¬ program.table.holdsItself deep id) ∧
    (WellFounded (fun part whole => program.table.Contains deep whole part) ↔
      ∀ id, ¬ program.table.holdsItself deep id) := by
  obtain ⟨-, declared, hdeclared⟩ := declared_of_ofOutline h
  have hcycle : (∀ t, ¬ Relation.TransGen (program.table.Contains deep) t t) →
      ∀ id, ¬ program.table.holdsItself deep id := by
    intro hacyclic id hself
    obtain ⟨a, field, ha, hfield, hheld⟩ := TypeTable.holdsItself_iff.mp hself
    exact hacyclic (.aggregate id) (.head' (.field ha hfield) (program.table.contains_held _ hheld))
  have hwf : (∀ id, ¬ program.table.holdsItself deep id) →
      WellFounded (fun part whole => program.table.Contains deep whole part) := by
    intro hnone
    have hlex : WellFounded (Prod.Lex (· < · : Nat → Nat → Prop) (· < · : Nat → Nat → Prop)) :=
      (Prod.lex Nat.lt_wfRel Nat.lt_wfRel).wf
    exact Subrelation.wf (fun h => h.rank_lt hdeclared hnone) (InvImage.wf (TypeTable.rank deep) hlex)
  have hacyclic : WellFounded (fun part whole => program.table.Contains deep whole part) →
      ∀ t, ¬ Relation.TransGen (program.table.Contains deep) t t := by
    intro hwf t hloop
    exact hwf.transGen.irrefl.irrefl t (Relation.transGen_swap.mpr hloop)
  exact ⟨⟨hcycle, fun hnone => hacyclic (hwf hnone)⟩, ⟨fun hwf => hcycle (hacyclic hwf), hwf⟩⟩

/-- A type with one field. -/
def Document.Outline.ofField (type : String) : Outline :=
  { types := [⟨"t", .mapping 3 13 [(.scalar 3 14 "a" .text, .scalar 3 17 type .text)], .absent⟩] }

theorem Program.exists_of_reads (outline : Document.Outline) {p : Program → Bool}
    (h : (ofOutline 0 outline).toOption.any p) : ∃ program, ofOutline 0 outline = .ok program ∧ p program := by
  cases hread : ofOutline 0 outline with
  | error failure => simp [hread, Except.toOption] at h
  | ok program => exact ⟨program, rfl, by simpa [hread, Except.toOption] using h⟩

/-- A type that points to itself does not hold itself. -/
theorem Program.acyclic_of_pointer : ∃ program, ofOutline 0 (.ofField "*t") = .ok program ∧
    ∀ t, ¬ Relation.TransGen (program.table.Contains true) t t := by
  obtain ⟨program, hread, hprogram⟩ := exists_of_reads (.ofField "*t") (p := fun program =>
    program.table.aggregates.size == 1 && !program.table.holdsItself true 0) (by decide +kernel)
  refine ⟨program, hread, (acyclic_iff_holds_none_itself true hread).1.mpr (fun id hself => ?_)⟩
  rw [Bool.and_eq_true, beq_iff_eq, Bool.not_eq_true'] at hprogram
  obtain ⟨a, -, ha, -⟩ := TypeTable.holdsItself_iff.mp hself
  obtain ⟨hid, -⟩ := Array.getElem?_eq_some_iff.mp ha
  obtain rfl : id = 0 := by omega
  rw [hprogram.2] at hself
  cases hself

/-- A type that holds itself is read. -/
theorem Program.cyclic_of_self : ∃ program, ofOutline 0 (.ofField "t") = .ok program ∧
    Relation.TransGen (program.table.Contains false) (.aggregate 0) (.aggregate 0) := by
  obtain ⟨program, hread, hself⟩ := exists_of_reads (.ofField "t")
    (p := fun program => program.table.holdsItself false 0) (by decide +kernel)
  obtain ⟨a, field, ha, hfield, hheld⟩ := TypeTable.holdsItself_iff.mp hself
  exact ⟨program, hread, .head' (.field ha hfield) (program.table.contains_held _ hheld)⟩

end TreeWasm
