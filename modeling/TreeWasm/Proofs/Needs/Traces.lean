import TreeWasm.Proofs.Emission.Scope
import TreeWasm.Proofs.Needs.Basic

/-! # Where instructions come from

Every instruction of emitted code that refers to something outside of it is there because a node
asked for it: a memory access for a value in memory, a call for a call, a local for a value in slots or
for a scratch slot, and a branch for a branch. `Traces` relates a piece of code to the labels that its
constructs carry and its branches lead to: the depth of a branch is that of the innermost construct
around it with the label of the branch.
-/

namespace TreeWasm

open Wasm

namespace Wasm.Instr

variable {i : Instr} {needs : List Need} {tables : Tables}

mutual

/-- An instruction with all instructions inside it. -/
def inner : Instr → List Instr
  | block type body => block type body :: innerAll body
  | loop type body => loop type body :: innerAll body
  | ifThen type body => ifThen type body :: innerAll body
  | ifElse type yes no => ifElse type yes no :: (innerAll yes ++ innerAll no)
  | i => [i]

/-- All instructions of some code. -/
def innerAll : List Instr → List Instr
  | [] => []
  | i :: rest => inner i ++ innerAll rest

end

/-- Whether an instruction neither holds others nor branches. -/
def isPlain : Instr → Bool
  | block .. | loop .. | ifThen .. | ifElse .. | br .. | brIf .. | brTable .. => false
  | _ => true

/-- Whether an instruction refers to nothing outside of it. -/
def isQuiet : Instr → Bool
  | unreachable | nop | drop | ret | const32 _ | const64 _ | constSingle _ | constDouble _ | numeric _
  | mark _ => true
  | _ => false

/-- What an instruction refers to is there: a memory access, a function or a slot has been asked for, or
a signature, or the slots of a value, are in the tables. -/
def Backed (tables : Tables) (needs : List Need) : Instr → Prop
  | load .. | store .. => .memory ∈ needs
  | call func => .function func ∈ needs
  | localGet slot | localSet slot | localTee slot =>
    (∃ (l : Layout) (held : List Nat), slot ∈ held ∧ l.leaves.isOk ∧
      held.map tables.slots = l.slots.map some) ∨
      ∃ l held, .slots l held ∈ needs ∧ slot ∈ held
  | block type _ | loop type _ | ifThen type _ | ifElse type _ _ =>
    (Frame.signature? tables.types type).isSome
  | _ => True

theorem Backed.mono {needs' : List Need} (h : i.Backed tables needs) (hsub : needs ⊆ needs') :
    i.Backed tables needs' := by
  cases i with
  | load | store | call => exact hsub h
  | localGet | localSet | localTee =>
    exact h.imp_right (fun ⟨l, held, hmem, hslot⟩ => ⟨l, held, hsub hmem, hslot⟩)
  | _ => exact h

theorem backed_of_isQuiet (h : i.isQuiet) : i.isPlain ∧ i.Backed tables needs := by
  cases i with
  | unreachable | nop | drop | ret | const32 | const64 | constSingle | constDouble | numeric | mark =>
    exact ⟨rfl, trivial⟩
  | _ => cases h

end Wasm.Instr

/-- The depth of the innermost of some constructs that carries a label. -/
def LeadsTo (around : List (Option Nat)) (l depth : Nat) : Prop := around.findIdx? (· == some l) = some depth

/-- The code stands inside constructs with some labels; its own constructs carry the first of the given
labels, and its branches lead to the second. -/
inductive Traces (tables : Tables) (needs : List Need) :
    List (Option Nat) → Code → List Nat → List Nat → Prop
  | nil {around} : Traces tables needs around [] [] []
  | plain {around i code c t} : i.isPlain → i.Backed tables needs →
      Traces tables needs around code c t → Traces tables needs around (i :: code) c t
  | br {around l d code c t} : LeadsTo around l d → Traces tables needs around code c t →
      Traces tables needs around (.br d :: code) c (l :: t)
  | brIf {around l d code c t} : LeadsTo around l d → Traces tables needs around code c t →
      Traces tables needs around (.brIf d :: code) c (l :: t)
  | brTable {around ls l ds d code c t} : List.Forall₂ (LeadsTo around) ls ds →
      LeadsTo around l d → Traces tables needs around code c t →
      Traces tables needs around (.brTable ds d :: code) c (ls ++ l :: t)
  | block {around label type body code c t c' t'} :
      (Instr.block type body).Backed tables needs →
      Traces tables needs (label :: around) body c t → Traces tables needs around code c' t' →
      Traces tables needs around (.block type body :: code) (label.toList ++ c ++ c') (t ++ t')
  | loop {around label type body code c t c' t'} :
      (Instr.loop type body).Backed tables needs →
      Traces tables needs (label :: around) body c t → Traces tables needs around code c' t' →
      Traces tables needs around (.loop type body :: code) (label.toList ++ c ++ c') (t ++ t')
  | ifThen {around type body code c t c' t'} :
      (Instr.ifThen type body).Backed tables needs →
      Traces tables needs (none :: around) body c t → Traces tables needs around code c' t' →
      Traces tables needs around (.ifThen type body :: code) (c ++ c') (t ++ t')
  | ifElse {around type yes no code c t c' t' c'' t''} :
      (Instr.ifElse type yes no).Backed tables needs →
      Traces tables needs (none :: around) yes c t → Traces tables needs (none :: around) no c' t' →
      Traces tables needs around code c'' t'' →
      Traces tables needs around (.ifElse type yes no :: code) (c ++ c' ++ c'') (t ++ t' ++ t'')

namespace Traces

variable {tables : Tables} {needs needs' : List Need} {around : List (Option Nat)} {code code' : Code}
  {c t c' t' : List Nat}

section

variable (h : Traces tables needs around code c t)
include h

theorem map (hmap : ∀ i : Instr, i.Backed tables needs → i.Backed tables needs') :
    Traces tables needs' around code c t := by
  induction h with
  | nil => exact .nil
  | plain hplain hbacked _ ih => exact .plain hplain (hmap _ hbacked) ih
  | br hdepth _ ih => exact .br hdepth ih
  | brIf hdepth _ ih => exact .brIf hdepth ih
  | brTable hdepths hdepth _ ih => exact .brTable hdepths hdepth ih
  | block hbacked _ _ ih ih' => exact .block (hmap _ hbacked) ih ih'
  | loop hbacked _ _ ih ih' => exact .loop (hmap _ hbacked) ih ih'
  | ifThen hbacked _ _ ih ih' => exact .ifThen (hmap _ hbacked) ih ih'
  | ifElse hbacked _ _ _ ih ih' ih'' => exact .ifElse (hmap _ hbacked) ih ih' ih''

theorem mono (hsub : needs ⊆ needs') : Traces tables needs' around code c t :=
  h.map (fun _ hbacked => hbacked.mono hsub)

theorem append (h' : Traces tables needs around code' c' t') :
    Traces tables needs around (code ++ code') (c ++ c') (t ++ t') := by
  induction h with
  | nil => exact h'
  | plain hplain hbacked _ ih => exact .plain hplain hbacked (ih h')
  | br hdepth _ ih => exact .br hdepth (ih h')
  | brIf hdepth _ ih => exact .brIf hdepth (ih h')
  | brTable hdepths hdepth _ ih =>
    rw [List.append_assoc, List.cons_append]
    exact .brTable hdepths hdepth (ih h')
  | block hbacked hbody _ _ ih' =>
    simpa only [List.append_assoc, List.cons_append] using Traces.block hbacked hbody (ih' h')
  | loop hbacked hbody _ _ ih' =>
    simpa only [List.append_assoc, List.cons_append] using Traces.loop hbacked hbody (ih' h')
  | ifThen hbacked hbody _ _ ih' =>
    rw [List.append_assoc, List.append_assoc]
    exact .ifThen hbacked hbody (ih' h')
  | ifElse hbacked hyes hno _ _ _ ih'' =>
    rw [List.append_assoc (_ ++ _), List.append_assoc (_ ++ _)]
    exact .ifElse hbacked hyes hno (ih'' h')

/-- Every instruction, however deep, has what it refers to. -/
theorem backed : ∀ i ∈ Instr.innerAll code, i.Backed tables needs := by
  induction h with
  | nil => nofun
  | @plain _ i _ _ _ hplain hbacked _ ih =>
    have hinner : i.inner = [i] := by cases i <;> first | rfl | cases hplain
    simpa [Instr.innerAll, hinner] using ⟨hbacked, ih⟩
  | br _ _ ih | brIf _ _ ih | brTable _ _ _ ih =>
    simpa [Instr.innerAll, Instr.inner, Instr.Backed] using ih
  | block hbacked _ _ ih ih' | loop hbacked _ _ ih ih' | ifThen hbacked _ _ ih ih' =>
    intro i hi
    simp only [Instr.innerAll, Instr.inner, List.cons_append, List.mem_cons, List.mem_append] at hi
    rcases hi with rfl | hi | hi
    · exact hbacked
    · exact ih i hi
    · exact ih' i hi
  | ifElse hbacked _ _ _ ih ih' ih'' =>
    intro i hi
    simp only [Instr.innerAll, Instr.inner, List.cons_append, List.mem_cons, List.mem_append] at hi
    rcases hi with rfl | (hi | hi) | hi
    · exact hbacked
    · exact ih i hi
    · exact ih' i hi
    · exact ih'' i hi

end

end Traces

/-- The code asks for no more than a demand, inside constructs with the given labels. -/
def Demand.Covers (d : Demand) (tables : Tables) (around : List (Option Nat)) (code : Code) : Prop :=
  ∃ c t, Traces tables d.needs around code c t ∧ (∀ l, c.count l ≤ d.constructs.count l) ∧
    ∀ l, t.count l ≤ d.targets.count l

namespace Demand.Covers

variable {tables : Tables} {d e : Demand} {around : List (Option Nat)} {code code' : Code}

theorem mono (h : d.Covers tables around code) (hwithin : d.Within e) : e.Covers tables around code := by
  obtain ⟨c, t, htraces, hc, ht⟩ := h
  exact ⟨c, t, htraces.mono hwithin.needs, fun l => Nat.le_trans (hc l) (hwithin.constructs l),
    fun l => Nat.le_trans (ht l) (hwithin.targets l)⟩

theorem append (h : d.Covers tables around code) (h' : e.Covers tables around code') :
    (d ++ e).Covers tables around (code ++ code') := by
  obtain ⟨c, t, htraces, hc, ht⟩ := h
  obtain ⟨c', t', htraces', hc', ht'⟩ := h'
  refine ⟨c ++ c', t ++ t', ?_, by grind, by grind⟩
  exact (htraces.mono (List.subset_append_left _ _)).append (htraces'.mono (List.subset_append_right _ _))

theorem plain (h : ∀ i ∈ code, i.isPlain ∧ i.Backed tables d.needs) : d.Covers tables around code := by
  refine ⟨[], [], ?_, by simp, by simp⟩
  induction code with
  | nil => exact .nil
  | cons i rest ih =>
    obtain ⟨hplain, hbacked⟩ := h i (.head _)
    exact .plain hplain hbacked (ih (fun j hj => h j (.tail _ hj)))

theorem quiet (h : code.all Instr.isQuiet) : d.Covers tables around code :=
  .plain (fun i hi => Instr.backed_of_isQuiet (List.all_eq_true.mp h i hi))

/-- Instructions that refer to nothing may stand around a piece of code. -/
theorem wrap (h : d.Covers tables around code) (before after : Code)
    (hbefore : before.all Instr.isQuiet) (hafter : after.all Instr.isQuiet) :
    d.Covers tables around (before ++ code ++ after) := by
  have hall := ((quiet (d := .none) hbefore).append h).append (quiet (d := .none) hafter)
  exact hall.mono (by grind)

theorem discharge {l : Layout} {slots : List Nat}
    (h : (d ++ ofNeeds [.slots l slots]).Covers tables around code)
    (hslots : l.leaves.isOk ∧ slots.map tables.slots = l.slots.map some) :
    d.Covers tables around code := by
  obtain ⟨c, t, htraces, hc, ht⟩ := h
  refine ⟨c, t, htraces.map (fun i hi => ?_), by simpa [ofNeeds] using hc, by simpa [ofNeeds] using ht⟩
  cases i with
  | load | store | call => simpa [Instr.Backed, ofNeeds] using hi
  | localGet | localSet | localTee =>
    rcases hi with hknown | ⟨l', held, hmem, hslot⟩
    · exact .inl hknown
    · rcases List.mem_append.mp hmem with hmem | hmem
      · exact .inr ⟨l', held, hmem, hslot⟩
      · obtain ⟨rfl, rfl⟩ : l' = l ∧ held = slots := by simpa [ofNeeds] using hmem
        exact .inl ⟨_, _, hslot, hslots⟩
  | _ => exact hi

end Demand.Covers

end TreeWasm
