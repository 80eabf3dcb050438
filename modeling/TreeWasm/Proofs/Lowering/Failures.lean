import TreeWasm.Lowering.Module
import TreeWasm.Proofs.Simplify.Reductions

/-! # Reasons of failure

Lowering may fail for a reason of scope, because a node has no type, or because of slots that were not
in use or were not given back. All other failures are ordinary ones; the functions on nodes that
lowering calls have no others.
-/

namespace TreeWasm

variable {failure : Failure} {address : Layout} {pos : Position}

/-- Whether a fault is about what a name or a jump stands for, or where a branch leads. -/
def LoweringFault.isScoping : LoweringFault → Bool
  | .redefinition _ | .functionAsValue _ | .notFunction _ | .jumpOutside _ | .returnOutside
  | .exportUndeclared _ => true
  | _ => false

def PipelineDefect.isScoping : PipelineDefect → Bool
  | .noStorage _ => true
  | _ => false

def CodeDefect.isScoping : CodeDefect → Bool
  | .labelOutside _ => true
  | _ => false

def Fault.isScoping : Fault → Bool
  | .lowering fault => fault.isScoping
  | .code defect => defect.isScoping
  | .pipeline defect => defect.isScoping
  | _ => false

def Failure.isScoping (failure : Failure) : Bool := failure.fault.isScoping

/-- Whether a defect is about slots that were given back without being in use, or not given back. -/
def PipelineDefect.isOfSlots : PipelineDefect → Bool
  | .slotReleasedTwice _ | .liveSlots .. | .liveScratch _ => true
  | _ => false

/-- Whether the failure is about slots that were given back without being in use, or not given back. -/
def Failure.isOfSlots (failure : Failure) : Bool :=
  match failure.fault with
  | .pipeline defect => defect.isOfSlots
  | _ => false

/-- Whether a node without a type was met. -/
def Failure.isUntyped (failure : Failure) : Bool := failure.fault == .pipeline .untyped

def Failure.isOrdinary (failure : Failure) : Bool :=
  !failure.isScoping && !failure.isOfSlots && !failure.isUntyped

theorem Failure.isOrdinary_iff : failure.isOrdinary ↔
    failure.isScoping = false ∧ failure.isOfSlots = false ∧ failure.isUntyped = false := by
  simp [isOrdinary, and_assoc]

/-! ## Failures of simplification -/

namespace Node

variable {failure : Failure} {info : Info} {base idx x y : Node} {op : Operator} {α : Type}

theorem isOrdinary_of_foldIntegers {a b : Int64} (h : foldIntegers info op a b = .error failure) :
    failure.isOrdinary := by
  unfold foldIntegers at h
  split at h
  · split at h
    · cases h
    next trap _ =>
      cases h
      cases trap <;> rfl
  · cases h
    rfl

theorem isOrdinary_of_foldBinary (h : foldBinary info op x y = .error failure) : failure.isOrdinary := by
  unfold foldBinary at h
  split at h
  · split at h <;> cases h
  · split at h
    next a b _ _ =>
      cases hfold : foldIntegers info op a.int b.int with
      | ok n =>
        rw [hfold] at h
        cases h
      | error failure' =>
        rw [hfold] at h
        cases h
        exact isOrdinary_of_foldIntegers hfold
    · cases h
    · cases h
    · cases h

theorem isOrdinary_of_foldCompare (h : foldCompare info op x y = .error failure) : failure.isOrdinary := by
  unfold foldCompare at h
  split at h
  · split at h
    · cases h
    · split at h
      · cases h
      · cases h
        rfl
  · cases h

theorem isOrdinary_of_bind {β : Type} {x : Except Failure α} {f : α → Except Failure β}
    (h : x >>= f = .error failure) (hx : ∀ failure, x = .error failure → failure.isOrdinary)
    (hf : ∀ a failure, f a = .error failure → failure.isOrdinary) : failure.isOrdinary := by
  rcases Except.error_of_bind h with hfirst | ⟨a, -, hrest⟩
  · exact hx failure hfirst
  · exact hf a failure hrest

theorem isOrdinary_of_simplify {labels : Labels} (n : Node) (failure : Failure)
    (h : n.simplify labels = .error failure) : failure.isOrdinary := by
  induction n using childInduction with
  | absent =>
    cases h
    rfl
  | step n hn ih =>
    rcases simplify_eq_error hn h with ⟨c, hc, h⟩ | ⟨-, parts, -, h⟩
    · exact ih c hc h
    · cases hrebuilt : n.rebuild parts with
      | binary =>
        rw [hrebuilt] at h
        exact isOrdinary_of_foldBinary h
      | compare =>
        rw [hrebuilt] at h
        exact isOrdinary_of_foldCompare h
      | _ =>
        rw [hrebuilt] at h
        cases h

theorem isOrdinary_of_mapError {result : Except LayoutDefect α}
    (h : result.mapError Failure.layout = .error failure) : failure.isOrdinary := by
  cases result with
  | ok => cases h
  | error =>
    cases h
    rfl

theorem isOrdinary_of_select {name : String} (h : base.select name = .error failure) :
    failure.isOrdinary := by
  unfold select at h
  split at h
  · refine isOrdinary_of_bind h (fun _ => isOrdinary_of_mapError) (fun field failure h => ?_)
    cases base with
    | data | structLit => cases h
    | locals => exact isOrdinary_of_bind h (fun _ => isOrdinary_of_mapError) (fun _ _ h => nomatch h)
    | _ =>
      cases h
      rfl
  · cases h
    rfl

theorem isOrdinary_of_constantIndex (h : base.constantIndex idx = .error failure) : failure.isOrdinary := by
  unfold constantIndex at h
  split at h
  · dsimp only at h
    split at h <;> split at h <;> cases h <;> rfl
  · cases h
    rfl

theorem isOrdinary_of_index (h : base.index idx = .error failure) : failure.isOrdinary := by
  refine isOrdinary_of_bind h (fun _ => isOrdinary_of_mapError) (fun elem failure h => ?_)
  cases base with
  | data => cases h
  | locals =>
    refine isOrdinary_of_bind h (fun _ => isOrdinary_of_constantIndex) (fun _ _ h => ?_)
    exact isOrdinary_of_bind h (fun _ => isOrdinary_of_mapError) (fun _ _ h => nomatch h)
  | arrayLit =>
    exact isOrdinary_of_bind h (fun _ => isOrdinary_of_constantIndex) (fun _ _ h => nomatch h)
  | _ =>
    cases h
    rfl

theorem isOrdinary_of_reference {n : Node} {pos : Position} (h : n.reference pos = .error failure) :
    failure.isOrdinary := by
  unfold reference at h
  split at h
  · cases h
  · cases h
    rfl

end Node

mutual

theorem isOrdinary_of_zero : (l : Layout) → Layout.zero address pos l = .error failure → failure.isOrdinary
  | .void tag, h => by
    cases h
    rfl
  | .scalar _ _, h | .array _ _ none _, h => nomatch h
  | .struct tag union size fields, h => by
    rw [Layout.zero] at h
    split at h
    · cases h
      rfl
    · split at h
      next hvalues =>
        cases h
        exact isOrdinary_of_zeroFields fields hvalues
      · cases h
  | .array tag elem (some count) size, h => by
    rw [Layout.zero] at h
    split at h
    · cases h
    · split at h
      next hvalue =>
        cases h
        exact isOrdinary_of_zero elem hvalue
      · cases h

theorem isOrdinary_of_zeroFields :
    (fields : List (Field Layout)) → Layout.zeroFields address pos fields = .error failure →
    failure.isOrdinary
  | [], h => nomatch h
  | ⟨name, layout, offset, slot⟩ :: rest, h => by
    rw [Layout.zeroFields] at h
    split at h
    next hvalue =>
      cases h
      exact isOrdinary_of_zero layout hvalue
    · split at h
      next hvalues =>
        cases h
        exact isOrdinary_of_zeroFields rest hvalues
      · cases h

end

end TreeWasm
