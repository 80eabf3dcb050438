import TreeWasm.Proofs.Building.Switches

/-! # Building trees

By the rules for each form, lowering follows the check through any tree that the check allows: it looks
up the same names in the same order, and finds for each what the check found. The proof follows the
derivation of the typing judgement.
-/

namespace TreeWasm

namespace Scene

variable {ctx : LowerContext} {s s' : LowerState} {n : Node} {info : TreeInfo}

theorem ifStmt_eq_ok {cond yes no : Lowering}
    (hrun : Lowering.ifStmt info cond yes no ctx s = (.ok n, s')) :
    ∃ c y m, n = .ifElse ⟨info.pos, .unit⟩ c y m := by
  have hbranches {c : Node} {s : LowerState} (hrun : (do
      let y ← yes.statement
      let n ← if no.node.isMissing then pure .absent else no.statement
      return .ifElse ⟨info.pos, .unit⟩ c y n : Lower Node) ctx s = (.ok n, s')) :
      ∃ c y m, n = .ifElse ⟨info.pos, .unit⟩ c y m := by
    obtain ⟨y, s₁, -, hrun₁⟩ := Steps.bind_eq_ok hrun
    dsimp only at hrun₁
    split at hrun₁
    · cases hrun₁
      exact ⟨c, y, .absent, rfl⟩
    · obtain ⟨m, s₂, -, hrun₂⟩ := Steps.bind_eq_ok hrun₁
      cases hrun₂
      exact ⟨c, y, m, rfl⟩
  obtain ⟨c, s₁, -, hrun₁⟩ := Steps.bind_eq_ok hrun
  obtain ⟨folded, s₂, -, hrun₂⟩ := Steps.bind_eq_ok hrun₁
  cases hconstant : folded.constant? with
  | none =>
    rw [hconstant] at hrun₂
    exact hbranches hrun₂
  | some value =>
    rw [hconstant] at hrun₂
    obtain ⟨_, s₃, -, hrun₃⟩ := Steps.bind_eq_ok hrun₂
    exact hbranches hrun₃

end Scene

namespace Tree

open Scene

variable {table : TypeTable}

theorem length_lowerings (trees : List Tree) : (Tree.lowerings trees).length = trees.length := by
  induction trees with
  | nil => rfl
  | cons tree rest ih => rw [Tree.lowerings, List.length_cons, ih, List.length_cons]

theorem lowerings_append (init rest : List Tree) :
    Tree.lowerings (init ++ rest) = Tree.lowerings init ++ Tree.lowerings rest := by
  induction init with
  | nil => rfl
  | cons tree init ih => rw [List.cons_append, Tree.lowerings, ih, Tree.lowerings, List.cons_append]

variable {scene : Scene} {ctx : CheckContext} {names names' : Chain TypedName}
  {uses : List Resolution} {tree : Tree}

theorem composed_concat {init : List Tree} {last : Tree} :
    ∀ x ∈ lowerings init ++ [last.lowering], x.AllComposed False := by
  have hall : ∀ x ∈ lowerings (init ++ [last]), x.AllComposed False := composed_lowerings _ nofun
  rwa [lowerings_append] at hall

theorem IsValue.isMissing_eq (h : IsValue table ctx names uses tree) : tree.isMissing = false := by
  cases h <;> rfl

section

variable (h : IsStatement table ctx names uses tree names') (hmissing : tree.isMissing)
include h hmissing

theorem IsStatement.eq_of_isMissing : names' = names := by
  cases tree with
  | missing =>
    cases h with
    | missing => rfl
    | expression => rfl
  | _ => cases hmissing

theorem IsStatement.uses_eq_of_isMissing : uses = [] := by
  cases tree with
  | missing =>
    cases h with
    | missing => rfl
    | expression h => cases h
  | _ => cases hmissing

end

theorem builds_ofExpression {value : Layout → Lower Node}
    (h : scene.Evaluates ctx names uses (Lowering.ofExpression tree value)) :
    scene.Evaluates ctx names uses (Lowering.ofExpression tree value) ∧
      scene.Stays ctx names uses (Lowering.ofExpression tree value).statement :=
  ⟨h, (stays_discard h).withTemporaries⟩

theorem proceeds_missing : scene.Proceeds ctx names uses names' Tree.missing.lowering.statement := by
  intro lower s _
  refine ⟨fun n s' hrun => ?_, fun failure s' hrun => ?_⟩
  · obtain ⟨s₁, hdiscard, -⟩ := Lower.withTemporaries_eq_ok hrun
    obtain ⟨_, s₂, hvalue, -⟩ := Steps.bind_eq_ok hdiscard
    cases hvalue
  · cases hrun
    exact ⟨rfl, List.suffix_append _ _⟩

/-- The alternative of a conditional statement, which may be missing. -/
theorem IsStatement.otherwise (h : IsStatement table ctx names uses tree names')
    (hproceeds : scene.Proceeds ctx names uses names' tree.lowering.statement) :
    (tree.lowering.node.isMissing ∧ uses = [] ∧ names' = names) ∨
      (tree.lowering.node.isMissing = false ∧
        scene.Proceeds ctx names uses names' tree.lowering.statement) := by
  rw [node_lowering]
  cases hmissing : tree.isMissing with
  | true => exact .inl ⟨rfl, h.uses_eq_of_isMissing hmissing, h.eq_of_isMissing hmissing⟩
  | false => exact .inr ⟨rfl, hproceeds⟩

mutual

/-- A value is built as the check saw it, and so is the statement that drops it. -/
theorem IsValue.builds {ctx : CheckContext} {names : Chain TypedName} {uses : List Resolution}
    {tree : Tree} : IsValue scene.types ctx names uses tree →
    scene.Evaluates ctx names uses tree.lowering ∧ scene.Stays ctx names uses tree.lowering.statement
  | .number _ => builds_ofExpression evaluates_number
  | .float _ | .bool _ =>
    builds_ofExpression (evaluates_ofExpression (fun _ _ _ _ hl => .pure (.constant rfl hl rfl)))
  | .ident hlookup hfunction htype => builds_ofExpression (evaluates_ident hlookup hfunction htype)
  | .logical hop hl hr _ hright ht =>
    builds_ofExpression (evaluates_logical hop hl.builds.1 hr.builds.1 (by simpa) ht)
  | .binary hl hr hresult =>
    builds_ofExpression (evaluates_binary hl.builds.1 hr.builds.1 (by simpa))
  | .not h hbool ht => builds_ofExpression (evaluates_unary h.builds.1 (fun _ => ⟨by simpa, ht⟩))
  | .negate h _ _ | .complement h _ _ => builds_ofExpression (evaluates_unary h.builds.1 nofun)
  | .call hlookup hfunction htype _ hargs =>
    builds_ofExpression (evaluates_call hlookup hfunction htype hargs.builds)
  | .member h hfield _ ht =>
    builds_ofExpression (evaluates_member (node_lowering _) h.builds.1 (by simpa) (by rw [ht]; split <;> rfl))
  | .element hbase hindex harray _ _ ht =>
    builds_ofExpression (evaluates_element (node_lowering _) hbase.builds.1 hindex.builds.1
      (by simpa) (by rw [ht]; split <;> rfl))
  | .pointee hbase hindex hpointer _ _ =>
    builds_ofExpression (evaluates_pointee hbase.builds.1 hindex.builds.1 (by simp [Ty.isPointer, hpointer]))
  | .deref h _ _ => builds_ofExpression (evaluates_deref h.builds.1)
  | .addressOf h _ _ => builds_ofExpression (evaluates_addressOf h.builds.1)
  | .cast h hkind _ => builds_ofExpression (evaluates_cast h.builds.1 (by simpa))
  | .structLit ht ha _ hvalues => builds_ofExpression (evaluates_structLit ht ha hvalues.builds)
  | .arrayLit ht hlen hvalues =>
    builds_ofExpression (evaluates_arrayLit ht (by rwa [length_lowerings])
      (by rw [length_lowerings]; exact hvalues.builds))
  | .ifElse hcond _ hyes hno hyesTakes hnoTakes => by
    have hstatement (info : TreeInfo) : scene.Stays ctx names _ (Lowering.ifStmt info _ _ _) :=
      stays_ifStmt hcond.builds.1 hyes.builds.2 (by simpa using hno.isMissing_eq) hno.builds.2
    refine ⟨evaluates_ofEither rfl (hstatement _) ?_ ?_, (hstatement _).withTemporaries⟩
    · intro ctx s n s' hrun
      obtain ⟨c, y, m, rfl⟩ := ifStmt_eq_ok hrun
      exact ⟨rfl, rfl⟩
    · intro l lower s hgoes hl
      exact does_ifValue hcond.builds.1 hyes.builds.1 hno.builds.1
        (by simpa using Ty.takes_of_eq_unwrap hyesTakes) (by simpa) hgoes hl
  | .block hinit hlast htakes => by
    -- As a statement the block drops its last value, as a value it yields it.
    have hstatement (info : TreeInfo) : scene.Stays ctx names _ (Lowering.blockStmt info _) :=
      stays_blockStmt composed_concat (hinit.builds.concat hlast.builds.2.proceeds)
    rw [Tree.lowering, lowerings_append]
    refine ⟨evaluates_ofEither rfl (hstatement _) ?_ ?_, (hstatement _).withTemporaries⟩
    · intro ctx s n s' hrun
      obtain ⟨children, _, -, hrun⟩ := Steps.bind_eq_ok hrun
      cases hrun
      exact ⟨rfl, rfl⟩
    · intro l lower s hgoes hl
      exact does_blockValue composed_concat hinit.builds hlast.builds.1
        (by simpa using Ty.takes_of_eq_unwrap htakes) hgoes hl

theorem AreValues.builds {ctx : CheckContext} {names : Chain TypedName} {uses : List Resolution}
    {types : List Ty} {trees : List Tree} : AreValues scene.types ctx names uses types trees →
    scene.EvaluateAll ctx names uses types (Tree.lowerings trees)
  | .nil => fun _ s _ => .pure ⟨.none s, nofun, .nil, nofun, nofun⟩
  | .cons h htakes hrest => evaluateAll_cons h.builds.1 (by simpa) hrest.builds

/-- A statement is built as the check saw it, and binds the names that the check bound. -/
theorem IsStatement.builds {ctx : CheckContext} {names names' : Chain TypedName}
    {uses : List Resolution} {tree : Tree} :
    IsStatement scene.types ctx names uses tree names' →
    scene.Proceeds ctx names uses names' tree.lowering.statement
  | .missing => proceeds_missing
  | .expression h => h.builds.2.proceeds
  | .ifElse hcond _ hyes hno =>
    (proceeds_ifStmt hcond.builds.1 hyes.builds (hno.otherwise hno.builds)).withTemporaries
  | .block hstmts => (stays_blockStmt (composed_lowerings _ nofun) hstmts.builds).withTemporaries.proceeds
  | .declare hname => (proceeds_declare rfl hname).withTemporaries
  | .declareAs hinit _ hname =>
    (proceeds_declareAs (by simpa using hinit.isMissing_eq) hinit.builds.1 hname).withTemporaries
  | .assign htarget _ hvalue _ =>
    (stays_assign htarget.builds.1 hvalue.builds.1).withTemporaries.proceeds
  | .update hop htarget hplace hvalue hresult _ =>
    (stays_update hop htarget.builds.1 hvalue.builds.1 (by simpa) (by simpa)).withTemporaries.proceeds
  | .whileLoop hcond hbool hbody =>
    (stays_whileLoop (composed _ nofun) hcond.builds.1 (by simpa) hbody.builds).withTemporaries.proceeds
  | .loop hbody => (stays_loop (composed _ nofun) hbody.builds).withTemporaries.proceeds
  | .switch hselector hinteger hcases hfallback =>
    (stays_switch (composed_lowerings _ nofun) (composed _ nofun) hselector.builds.1 (by simpa) hcases.builds
      ((hfallback.otherwise hfallback.builds).imp_left (fun h => ⟨h.1, h.2.1⟩))).withTemporaries.proceeds
  | .break h => (stays_break h).withTemporaries.proceeds
  | .continue h => (stays_continue h).withTemporaries.proceeds
  | .leave hfunction _ => (stays_leave rfl (by simp [hfunction])).withTemporaries.proceeds
  | .ret hfunction hvalue _ =>
    (stays_ret (by simpa using hvalue.isMissing_eq) (by simp [hfunction])
      hvalue.builds.1).withTemporaries.proceeds

theorem AreStatements.builds {ctx : CheckContext} {names names' : Chain TypedName}
    {uses : List Resolution} {trees : List Tree} :
    AreStatements scene.types ctx names uses trees names' →
    scene.ProceedAll ctx names uses (Tree.lowerings trees) names'
  | .nil => .nil
  | .cons h hrest => .cons h.builds hrest.builds

theorem AreCases.builds {ctx : CheckContext} {names : Chain TypedName} {uses : List Resolution}
    {trees : List Tree} : AreCases scene.types ctx names uses trees →
    scene.ProceedCases ctx names uses (Tree.lowerings trees)
  | .nil => .nil
  | .cons h hrest => .cons h.builds hrest.builds

end

end Tree

end TreeWasm
