import TreeWasm.Proofs.Emission.Ensures
import TreeWasm.Proofs.Meaning.Eval

/-! # Code that performs a computation

Code performs a computation if, on any stack, it pushes the values the computation gives and ends as
the computation ends. Labels become depths: a branch to a label is one to the innermost construct
around with that label.
-/

namespace TreeWasm

open Wasm

namespace Wasm

/-- The outcome of code on a stack, from that of the computation it performs. -/
def Outcome.onto (enclosing : List (Option Nat)) (below : List Value) : Outcome → Outcome
  | normal values => normal (values.reverse ++ below)
  | branch label values => branch (enclosing.findIdx (· == some label)) values.reverse
  | ret values => ret values
  | trap => trap

namespace Result

variable {label : Option Nat} {r : Result}

/-- The result of code on a stack, from that of the computation it performs. -/
def onto (enclosing : List (Option Nat)) (below : List Value) (r : Result) : Result :=
  r.map (fun (o, s) => (o.onto enclosing below, s))

variable {enclosing : List (Option Nat)} {below base : List Value} {s : Store}

@[simp]
theorem onto_some (o : Outcome) : onto enclosing below (some (o, s)) = some (o.onto enclosing below, s) := rfl

@[simp]
theorem onto_ofAttempt (x : Attempt (List Value)) :
    onto enclosing below (ofAttempt x s) = ofAttempt (x.map (fun values => values.reverse ++ below)) s := by
  cases x <;> rfl

@[simp]
theorem onto_ofValue (x : Attempt Value) :
    onto enclosing below (ofValue x s) = ofAttempt (x.map (fun v => v :: below)) s := by
  cases x <;> rfl

/-- Code goes on as the computation goes on with its values. -/
theorem onto_andThen {f g : List Value → Store → Result}
    (h : ∀ values s, r = some (.normal values, s) →
      g (values.reverse ++ base) s = (f values s).onto enclosing below) :
    (r.onto enclosing base).andThen g = (r.andThen f).onto enclosing below := by
  rcases r with _ | ⟨values | _ | _ | _, s⟩
  case some.normal => exact h values s rfl
  all_goals rfl

theorem leave_onto {o : Outcome} :
    (o.onto (label :: enclosing) []).leave below = (o.endAt label).onto enclosing below := by
  cases o with
  | normal values => simp [Outcome.onto, Outcome.leave, Outcome.endAt]
  | branch l values =>
    by_cases hlabel : label = some l
    · simp [Outcome.onto, Outcome.leave, Outcome.endAt, List.findIdx_cons, hlabel]
    · have hbeq : (label == some l) = false := beq_false_of_ne hlabel
      simp [Outcome.onto, Outcome.leave, Outcome.endAt, List.findIdx_cons, hlabel, hbeq]
  | ret values => rfl
  | trap => rfl

theorem map_leave_onto :
    (r.onto (label :: enclosing) []).map (fun (o, s) => (o.leave below, s)) =
      onto enclosing below (r.map (fun (o, s) => (o.endAt label, s))) := by
  rcases r with _ | ⟨o, s⟩
  · rfl
  · simp [leave_onto]

/-- A loop starts over when its body branches to its label. -/
theorem restart?_onto {o : Outcome} :
    (o.onto (label :: enclosing) []).restart? = (o.restartAt? label).map List.reverse := by
  cases o with
  | branch l values =>
    by_cases hlabel : label = some l
    · simp [Outcome.onto, Outcome.restart?, Outcome.restartAt?, List.findIdx_cons, hlabel]
    · have hbeq : (label == some l) = false := beq_false_of_ne hlabel
      simp [Outcome.onto, Outcome.restart?, Outcome.restartAt?, List.findIdx_cons, hlabel, hbeq]
  | _ => rfl

/-- A loop whose branches carry no values repeats its body as the computation is repeated. -/
theorem repeating_onto {code : List Value → Store → Result} {body : Store → Result}
    (hbody : ∀ s, code [] s = (body s).onto (label :: enclosing) [])
    (hempty : ∀ l values s s', body s = some (.branch l values, s') → values = []) (fuel : Nat)
    (s : Store) :
    repeating Outcome.restart? code fuel [] s =
      (repeating (Outcome.restartAt? label) (fun _ => body) fuel [] s).onto (label :: enclosing) [] := by
  induction fuel generalizing s with
  | zero =>
    rw [repeating, repeating, hbody]
    rcases body s with _ | ⟨o, s'⟩
    · rfl
    · simp only [onto_some, Option.bind_some, restart?_onto]
      cases o.restartAt? label <;> rfl
  | succ fuel ih =>
    rw [repeating, repeating, hbody]
    rcases hrun : body s with _ | ⟨o, s'⟩
    · rfl
    · simp only [onto_some, Option.bind_some, restart?_onto]
      cases hagain : o.restartAt? label with
      | none => rfl
      | some values =>
        have hvalues : values = [] := by
          cases o with
          | branch l carried =>
            rw [Outcome.restartAt?] at hagain
            split at hagain
            · cases hagain
              exact hempty l values s s' hrun
            · cases hagain
          | _ => cases hagain
        rw [hvalues]
        exact ih s'

theorem repeating_endAt {body : List Value → Store → Result} {fuel : Nat} {values : List Value} :
    (repeating (Outcome.restartAt? label) body fuel values s).map (fun (o, s) => (o.endAt label, s)) =
      repeating (Outcome.restartAt? label) body fuel values s := by
  cases hrun : repeating (Outcome.restartAt? label) body fuel values s with
  | none => rfl
  | some result =>
    obtain ⟨o, s'⟩ := result
    obtain ⟨_, _, _, hstop⟩ := repeating_last hrun
    simp only [Option.map_some, Outcome.endAt_of_restartAt? hstop]

end Result

namespace Instr

variable {world : World} {fuel : Nat} {frame : Frame}

theorem runAll_append (code more : List Instr) (stack : List Value) (s : Store) :
    runAll world fuel frame (code ++ more) stack s =
      (runAll world fuel frame code stack s).andThen (runAll world fuel frame more) := by
  induction code generalizing stack s with
  | nil => rfl
  | cons instr code ih =>
    rw [List.cons_append, runAll, runAll, Result.andThen_assoc]
    exact Result.andThen_congr (fun stack' s' _ => ih stack' s')

theorem runAll_singleton {instr : Instr} {stack : List Value} {s : Store} :
    runAll world fuel frame [instr] stack s = run world fuel frame instr stack s := by
  rw [runAll]
  exact Result.andThen_normal_self

/-! Constructs without parameters hide the whole stack from their bodies. -/

section Constructs

variable {type : BlockType} {types : List ValType} {c : BitVec 32} {stack : List Value} {s : Store}
  {body : List Instr}

section

variable (htype : Frame.signature? frame.types type = some ⟨[], types⟩)
include htype

theorem run_block :
    run world fuel frame (.block type body) stack s =
      (runAll world fuel (frame.enter types.length) body [] s).map (fun (o, s) => (o.leave stack, s)) := by
  simp [run, htype]

theorem run_loop :
    run world fuel frame (.loop type body) stack s =
      (Result.repeating Outcome.restart? (runAll world fuel (frame.enter 0) body) fuel [] s).map
        (fun (o, s) => (o.leave stack, s)) := by
  simp [run, htype]

theorem run_ifThen :
    run world fuel frame (.ifThen type body) (.i32 c :: stack) s =
      if c = 0 then some (.normal stack, s)
      else (runAll world fuel (frame.enter types.length) body [] s).map
        (fun (o, s) => (o.leave stack, s)) := by
  simp [run, htype]

theorem run_ifElse {yes no : List Instr} :
    run world fuel frame (.ifElse type yes no) (.i32 c :: stack) s =
      (if c = 0 then runAll world fuel (frame.enter types.length) no [] s
        else runAll world fuel (frame.enter types.length) yes [] s).map
        (fun (o, s) => (o.leave stack, s)) := by
  simp [run, htype]

end

end Constructs

end Instr

end Wasm

end TreeWasm
