import TreeWasm.Proofs.Machine.Memory

/-! # Running structured code

A big-step machine for instructions. A sequence ends by running off its end, by a branch out of
some enclosing construct, by a return or by a trap. Loops are the only source of divergence: fuel
bounds how often one execution of a loop may start over, and a run without an answer either needs
more fuel or is stuck on code that validation refuses.
-/

namespace TreeWasm.Wasm

variable {r : Result} {next : List Value → Store → Result} {s' : Store} {values : List Value}

/-- How code ends. A branch names its target and carries values to it. -/
inductive Outcome
  | normal (values : List Value)
  | branch (target : Nat) (values : List Value)
  | ret (values : List Value)
  | trap
  deriving DecidableEq, Repr

abbrev Result := Option (Outcome × Store)

namespace Result

variable {s : Store}

/-- Goes on with the values of a run that ended normally. -/
def andThen (r : Result) (next : List Value → Store → Result) : Result :=
  match r with
  | some (.normal values, s) => next values s
  | r => r

def ofAttempt (x : Attempt (List Value)) (s : Store) : Result :=
  match x with
  | .value values => some (.normal values, s)
  | .trap => some (.trap, s)
  | .stuck => none

@[simp]
theorem andThen_normal : andThen (some (.normal values, s)) next = next values s := rfl

@[simp]
theorem ofAttempt_value : ofAttempt (.value values) s = some (.normal values, s) := rfl

theorem andThen_assoc {f g : List Value → Store → Result} :
    (r.andThen f).andThen g = r.andThen (fun values s => (f values s).andThen g) := by
  rcases r with _ | ⟨_ | _ | _ | _, s⟩ <;> rfl

@[simp]
theorem andThen_normal_self : r.andThen (fun values s => some (.normal values, s)) = r := by
  rcases r with _ | ⟨_ | _ | _ | _, s⟩ <;> rfl

/-- Two continuations may differ where the first run does not end normally. -/
theorem andThen_congr {f g : List Value → Store → Result}
    (h : ∀ values s, r = some (.normal values, s) → f values s = g values s) :
    r.andThen f = r.andThen g := by
  rcases r with _ | ⟨values | _ | _ | _, s⟩
  case some.normal => exact h values s rfl
  all_goals rfl

/-- A sequence ends in the outcome of its first part, unless that ended normally. -/
theorem andThen_eq_some {o : Outcome} (h : r.andThen next = some (o, s')) :
    (∃ values s, r = some (.normal values, s) ∧ next values s = some (o, s')) ∨
      (r = some (o, s') ∧ ∀ values, o ≠ .normal values) := by
  rcases r with _ | ⟨values | _ | _ | _, s⟩
  case none => cases h
  case some.normal => exact .inl ⟨values, s, rfl, h⟩
  all_goals
    simp only [andThen, Option.some.injEq, Prod.mk.injEq] at h
    obtain ⟨rfl, rfl⟩ := h
    exact .inr ⟨rfl, by simp⟩

theorem ofAttempt_eq_normal {x : Attempt (List Value)}
    (h : ofAttempt x s = some (.normal values, s')) : x = .value values ∧ s' = s := by
  cases x with
  | value a =>
    simp only [ofAttempt, Option.some.injEq, Prod.mk.injEq, Outcome.normal.injEq] at h
    exact ⟨by rw [h.1], h.2.symm⟩
  | trap => simp [ofAttempt] at h
  | stuck => simp [ofAttempt] at h

/-- Runs a body again with the values it asks for, at most `fuel` times. -/
def repeating (again : Outcome → Option (List Value)) (body : List Value → Store → Result) :
    (fuel : Nat) → List Value → Store → Result
  | 0, values, s =>
    (body values s).bind (fun (o, s') => (again o).elim (some (o, s')) (fun _ => none))
  | fuel + 1, values, s =>
    (body values s).bind (fun (o, s') =>
      (again o).elim (some (o, s')) (fun values => repeating again body fuel values s'))

section Repeating

variable {again : Outcome → Option (List Value)} {body : List Value → Store → Result} {fuel : Nat}
  {values next : List Value} {s s' : Store} {o : Outcome}

theorem repeating_stop (h : body values s = some (o, s')) (hstop : again o = none) :
    repeating again body fuel values s = some (o, s') := by
  cases fuel <;> simp [repeating, h, hstop]

/-- A repetition that ends has run its body once, and then ended or gone on. -/
theorem repeating_cases (h : repeating again body fuel values s = some (o, s')) :
    (body values s = some (o, s') ∧ again o = none) ∨
      ∃ fuel₁ o₁ s₁ next, fuel = fuel₁ + 1 ∧ body values s = some (o₁, s₁) ∧
        again o₁ = some next ∧ repeating again body fuel₁ next s₁ = some (o, s') := by
  cases hrun : body values s with
  | none => cases fuel <;> simp [repeating, hrun] at h
  | some result =>
    obtain ⟨o₁, s₁⟩ := result
    cases hagain : again o₁ with
    | none =>
      cases (repeating_stop hrun hagain).symm.trans h
      exact .inl ⟨rfl, hagain⟩
    | some next =>
      cases fuel with
      | zero => simp [repeating, hrun, hagain] at h
      | succ fuel =>
        simp only [repeating, hrun, Option.bind_some, hagain, Option.elim] at h
        exact .inr ⟨fuel, o₁, s₁, next, rfl, rfl, hagain, h⟩

theorem repeating_last (h : repeating again body fuel values s = some (o, s')) :
    ∃ values₁ s₁, body values₁ s₁ = some (o, s') ∧ again o = none := by
  induction fuel generalizing values s with
  | zero =>
    rcases repeating_cases h with hstop | ⟨_, _, _, _, hfuel, _⟩
    · exact ⟨values, s, hstop⟩
    · cases hfuel
  | succ fuel ih =>
    rcases repeating_cases h with hstop | ⟨_, _, _, _, hfuel, _, _, h⟩
    · exact ⟨values, s, hstop⟩
    · cases hfuel
      exact ih h

theorem repeating_once (h : ∀ o s', body values s = some (o, s') → again o = none) :
    repeating again body fuel values s = body values s := by
  cases hrun : body values s with
  | none => cases fuel <;> simp [repeating, hrun]
  | some result => exact repeating_stop hrun (h result.1 result.2 hrun)

end Repeating

end Result

/-- What code knows of the function around it: the number of values that a branch to each enclosing
construct carries, the number of results, and the signatures of the module. -/
structure Frame where
  arities : List Nat
  results : Nat
  types : List FuncType

namespace Frame

def enter (frame : Frame) (arity : Nat) : Frame := { frame with arities := arity :: frame.arities }

/-- The signature that the annotation of a construct stands for. -/
def signature? (types : List FuncType) : BlockType → Option FuncType
  | .empty => some ⟨[], []⟩
  | .value type => some ⟨[], [type]⟩
  | .signature index => types[index]?

end Frame

namespace Outcome

/-- The outcome of a construct, from that of its body and the stack below it: a branch to the
construct itself ends it, and branches further out lose one level. -/
def leave (below : List Value) : Outcome → Outcome
  | normal values => normal (values ++ below)
  | branch 0 values => normal (values ++ below)
  | branch (depth + 1) values => branch depth values
  | ret values => ret values
  | trap => trap

/-- The values with which the body of a loop starts over, if it branched back to its start. -/
def restart? : Outcome → Option (List Value)
  | branch 0 values => some values
  | _ => none

end Outcome

namespace World

/-- A call, which is on record even if it traps. -/
def invoke (world : World) (func : Nat) (args : List Value) (s : Store) : Result :=
  let called := { s with trace := s.trace ++ [⟨func, args⟩] }
  match world.call s.trace s.memory ⟨func, args⟩ with
  | none => some (.trap, called)
  | some (results, memory) => some (.normal results, { called with memory := memory })

end World

namespace Instr

/-- Runs an instruction other than a structured one. Stacks have their top first. -/
@[grind =] def step (world : World) (frame : Frame) : Instr → List Value → Store → Result
  | unreachable, _, s => some (.trap, s)
  | nop, stack, s => some (.normal stack, s)
  | mark _, stack, s => some (.normal stack, s)
  | drop, _ :: stack, s => some (.normal stack, s)
  | ret, stack, s => some (.ret (stack.take frame.results).reverse, s)
  | br depth, stack, s =>
    frame.arities[depth]?.bind (fun arity => some (.branch depth (stack.take arity), s))
  | brIf depth, .i32 c :: stack, s =>
    if c = 0 then some (.normal stack, s)
    else frame.arities[depth]?.bind (fun arity => some (.branch depth (stack.take arity), s))
  | brTable targets default, .i32 c :: stack, s =>
    let depth := (targets[c.toNat]?).getD default
    frame.arities[depth]?.bind (fun arity => some (.branch depth (stack.take arity), s))
  | call func, stack, s =>
    (world.signature func).bind (fun ft =>
      let count := ft.params.length
      (world.invoke func (stack.take count).reverse s).andThen (fun results s =>
        some (.normal (results.reverse ++ stack.drop count), s)))
  | localGet slot, stack, s => some (.normal (s.locals slot :: stack), s)
  | localSet slot, v :: stack, s => some (.normal stack, s.setLocal slot v)
  | localTee slot, v :: stack, s => some (.normal (v :: stack), s.setLocal slot v)
  | const32 v, stack, s => some (.normal (.i32 v.toBitVec :: stack), s)
  | const64 v, stack, s => some (.normal (.i64 v.toBitVec :: stack), s)
  | constSingle v, stack, s => some (.normal (.f32 v.bits.toBitVec :: stack), s)
  | constDouble v, stack, s => some (.normal (.f64 v.bits.toBitVec :: stack), s)
  | load op offset, .i32 a :: stack, s =>
    Result.ofAttempt ((s.memory.load op (a.toNat + offset)).map (· :: stack)) s
  | store op offset, v :: .i32 a :: stack, s =>
    match s.memory.store op (a.toNat + offset) v with
    | .value memory => some (.normal stack, { s with memory := memory })
    | .trap => some (.trap, s)
    | .stuck => none
  | numeric op, stack, s =>
    let count := op.params.length
    Result.ofAttempt ((op.apply world.floats (stack.take count).reverse).map (· :: stack.drop count)) s
  | _, _, _ => none

mutual

/-- Runs one instruction. A construct takes its parameters off the stack and hides the rest of it
from its body. -/
@[grind =] def run (world : World) (fuel : Nat) : Frame → Instr → List Value → Store → Result
  | frame, block type body, stack, s =>
    (Frame.signature? frame.types type).bind (fun ft =>
      let count := ft.params.length
      (runAll world fuel (frame.enter ft.results.length) body (stack.take count) s).map
        (fun (o, s) => (o.leave (stack.drop count), s)))
  | frame, loop type body, stack, s =>
    (Frame.signature? frame.types type).bind (fun ft =>
      let count := ft.params.length
      (Result.repeating Outcome.restart? (runAll world fuel (frame.enter count) body) fuel
        (stack.take count) s).map
        (fun (o, s) => (o.leave (stack.drop count), s)))
  | frame, ifThen type body, .i32 c :: stack, s =>
    (Frame.signature? frame.types type).bind (fun ft =>
      let count := ft.params.length
      if c = 0 then some (.normal stack, s)
      else (runAll world fuel (frame.enter ft.results.length) body (stack.take count) s).map
        (fun (o, s) => (o.leave (stack.drop count), s)))
  | frame, ifElse type yes no, .i32 c :: stack, s =>
    (Frame.signature? frame.types type).bind (fun ft =>
      let count := ft.params.length
      let inner := frame.enter ft.results.length
      (if c = 0 then runAll world fuel inner no (stack.take count) s
        else runAll world fuel inner yes (stack.take count) s).map
        (fun (o, s) => (o.leave (stack.drop count), s)))
  | frame, instr, stack, s => step world frame instr stack s

@[grind =] def runAll (world : World) (fuel : Nat) : Frame → List Instr → List Value → Store → Result
  | _, [], stack, s => some (.normal stack, s)
  | frame, instr :: rest, stack, s =>
    (run world fuel frame instr stack s).andThen (fun stack s => runAll world fuel frame rest stack s)

end

end Instr

end TreeWasm.Wasm
