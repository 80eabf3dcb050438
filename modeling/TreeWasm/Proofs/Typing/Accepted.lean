import TreeWasm.Proofs.Typing.Checked

/-! # Checked statements

A tree that the check gives back for a statement is one by the typing rules, and has a type at each of
its nodes. A block leaves the names around it as they are, and so do the bodies of loops and cases,
which are blocks. `Tree.fits` puts the forms of values and statements together.
-/

namespace TreeWasm

namespace Tree

variable {table : TypeTable} {ctx : CheckContext} {names names' : Chain TypedName} {uses : List Resolution}

mutual

theorem IsStatement.tail_eq {ctx : CheckContext} {names names' : Chain TypedName}
    {uses : List Resolution} {tree : Tree} :
    IsStatement table ctx names uses tree names' → names'.tail = names.tail
  | .missing | .expression _ | .block _ | .assign .. | .update .. | .whileLoop .. | .loop _
  | .switch .. | .break _ | .continue _ | .leave .. | .ret .. => rfl
  | .ifElse _ _ hyes hno => hno.tail_eq.trans hyes.tail_eq
  | .declare _ | .declareAs .. => Chain.tail_define _ _ _

theorem AreStatements.tail_eq {ctx : CheckContext} {names names' : Chain TypedName}
    {uses : List Resolution} {trees : List Tree} :
    AreStatements table ctx names uses trees names' → names'.tail = names.tail
  | .nil => rfl
  | .cons h hrest => hrest.tail_eq.trans h.tail_eq

end

end Tree

namespace Typing

open Check CheckState Tree

variable {table : TypeTable} {ctx : CheckContext} {names : Chain TypedName}
  {c left right body cond : Checker} {cases stmts : List Checker} {tree : Tree}
  {declared expected written : Ty} {name : String} {info : TreeInfo}

theorem finds_optional (h : c.Fits table) : FindsStatement (optional c) table ctx names := by
  rw [optional, h.present]
  exact h.statement

theorem finds_part {P Q : List Resolution → Chain TypedName → Tree → Prop}
    (h : c.node.isMissing ∨ (optional c).Finds table ctx [] names P) (hmissing : Q [] names .missing)
    (hpresent : ∀ uses names' tree, P uses names' tree → Q uses names' tree) :
    (optional c).Finds table ctx [] names Q := by
  rcases h with h | h
  · rw [optional, h]
    exact .pure hmissing
  · exact h.mono hpresent

/-- Statements one after the other, with types. -/
def Statements (table : TypeTable) (ctx : CheckContext) (names : Chain TypedName)
    (uses : List Resolution) (names' : Chain TypedName) (trees : List Tree) : Prop :=
  AreStatements table ctx names uses trees names' ∧ ∀ tree ∈ trees, tree.Typed

theorem finds_optionals (h : ∀ c ∈ stmts, c.Fits table) :
    (stmts.mapM optional).Finds table ctx [] names (Statements table ctx names) := by
  induction stmts generalizing names with
  | nil => exact .pure ⟨.nil, nofun⟩
  | cons c rest ih =>
    rw [List.forall_mem_cons] at h
    rw [List.mapM_cons]
    refine (finds_optional h.1).bind ?_
    rintro tree uses names' ⟨hstatement, htyped⟩
    refine (ih h.2).bind ?_
    rintro trees uses' names'' ⟨hstatements, htyped'⟩
    exact .pure ⟨.cons hstatement hstatements, List.forall_mem_cons.mpr ⟨htyped, htyped'⟩⟩

/-- The tree is a statement that leaves the names around it as they are. -/
def Enclosed (table : TypeTable) (ctx : CheckContext) (names : Chain TypedName)
    (uses : List Resolution) (names' : Chain TypedName) (tree : Tree) : Prop :=
  names = names' ∧ Statement table ctx names uses names tree

theorem finds_blockStmt (h : ∀ c ∈ stmts, c.Fits table) :
    (Typing.blockStmt info stmts).Finds table ctx [] names (Enclosed table ctx names) := by
  have hinside : (stmts.mapM optional).Finds table ctx [] (Level.empty :: names)
      (fun uses names' trees => names = names'.tail ∧ ∃ inner,
        Statements table ctx (Level.empty :: names) uses inner trees) :=
    (finds_optionals h).mono (fun uses names' trees htrees => ⟨htrees.1.tail_eq.symm, names', htrees⟩)
  refine hinside.inLevel.bind ?_
  rintro trees uses _ ⟨rfl, inner, hstatements, htyped⟩
  exact .pure ⟨rfl, .block hstatements, .node rfl htyped nofun⟩

theorem finds_blockValue (h : ∀ c ∈ stmts, c.Fits table) (hexpected : expected.isPlain) :
    FindsValue (Typing.blockValue info stmts expected) table ctx names := by
  unfold Typing.blockValue
  split
  · exact .fails rfl
  next last hlast =>
    have hinit : ∀ c ∈ stmts.dropLast, c.Fits table :=
      fun c hc => h c ((List.dropLast_sublist stmts).subset hc)
    refine Finds.inLevel ((finds_optionals hinit).bind ?_)
    rintro trees uses names' ⟨hstatements, htyped⟩
    refine ((h last (List.mem_of_getLast? hlast)).value hexpected).bind ?_
    rintro tree uses' _ ⟨rfl, hvalue, htyped'⟩
    exact .pure ⟨hstatements.tail_eq.symm, .block hstatements hvalue rfl,
      .node (Ty.isWhole_unwrap htyped'.type) (List.forall_mem_append.mpr ⟨htyped, htyped'.one⟩) nofun⟩

theorem finds_ifStmt {yes no : Checker} (hc : cond.Fits table)
    (hy : yes.Fits table) (hn : no.node.isMissing ∨ no.Fits table) :
    FindsStatement (Typing.ifStmt info cond yes no) table ctx names := by
  refine (finds_condition hc).bind ?_
  rintro c uses _ ⟨⟨rfl, hvalue, htyped⟩, hbool⟩
  refine (finds_optional hy).bind ?_
  rintro y uses' names' ⟨hstatement, htyped'⟩
  refine (finds_part (Q := fun uses names'' tree => IsStatement table ctx names' uses tree names'' ∧
    (tree.isMissing = false → tree.Typed)) (hn.imp_right finds_optional) ⟨.missing, nofun⟩
    (fun _ _ _ h => ⟨h.1, fun _ => h.2⟩)).bind ?_
  rintro n uses'' names'' ⟨hstatement', htyped''⟩
  exact .pure ⟨.ifElse hvalue hbool hstatement hstatement',
    .node rfl (.two htyped htyped') (List.forall_mem_singleton.mpr htyped'')⟩

/-- A name is bound that was not bound before in its level. -/
theorem finds_bind {pos : Position} {value : TypedName} (hvalue : value.type.isWhole) :
    (Check.bind pos name value).Finds table ctx [] names (fun uses names' _ => uses = [] ∧
      names.lookupLocal name = none ∧ names' = names.define name value) := by
  rintro st _ st' rfl hst hrun
  change (if (st.names.lookupLocal name).isSome then _ else _ : Check Unit) ctx st = _ at hrun
  split at hrun
  · cases hrun
  next hfresh =>
    cases hrun
    exact ⟨[], ⟨rfl, rfl⟩, hst.whole.define name hvalue, rfl, by simpa using hfresh, rfl⟩

/-- What the declaration of a variable tells. -/
structure Declared (table : TypeTable) (ctx : CheckContext) (names : Chain TypedName)
    (info : TreeInfo) (name : String) (init : Tree) (uses : List Resolution)
    (names' : Chain TypedName) : Prop where
  fresh : names.lookupLocal name = none
  defined : names' = names.define name ⟨info.type, false, info.pos⟩
  whole : info.type.isWhole
  init : (init = .missing ∧ uses = []) ∨
    (IsValue table ctx names uses init ∧ info.type.takes init.type ∧ init.Typed)

theorem Declared.typed {init : Tree} {uses : List Resolution} {names' : Chain TypedName}
    (h : Declared table ctx names info name init uses names') (declared : Ty) :
    (Tree.varDecl info name declared init).Typed := by
  refine .node (Ty.isWhole_unwrap h.whole) nofun (List.forall_mem_singleton.mpr (fun hpresent => ?_))
  rcases h.init with ⟨rfl, -⟩ | ⟨-, -, htyped⟩
  · cases hpresent
  · exact htyped

section

variable (hdeclared : declared.isPlain) (h : c.node.isMissing ∨ c.Fits table)
include hdeclared h

theorem finds_varDecl :
    (Typing.varDecl info name declared c).Finds table ctx [] names (fun uses names' tree =>
      ∃ t init, tree = .varDecl { info with type := t } name declared init ∧
        Declared table ctx names { info with type := t } name init uses names') := by
  have hrest (t : Ty) (tree : Tree) (uses : List Resolution) (ht : t.isWhole)
      (hinit : (tree = .missing ∧ uses = []) ∨
        (IsValue table ctx names uses tree ∧ t.takes tree.type ∧ tree.Typed)) :
      Finds (if t.isVoid || t.isFunction then do fail info.pos (.variableType name (← text t))
        else do
          Check.bind info.pos name ⟨t, false, info.pos⟩
          return Tree.varDecl { info with type := t } name declared tree) table ctx uses names
        (fun uses names' tree => ∃ t init,
          tree = Tree.varDecl { info with type := t } name declared init ∧
            Declared table ctx names { info with type := t } name init uses names') := by
    split
    · exact .fails rfl
    · refine (finds_bind (by exact ht)).bind ?_
      rintro _ _ _ ⟨rfl, hfresh, rfl⟩
      rw [List.append_nil]
      exact .pure ⟨t, tree, rfl, hfresh, rfl, ht, hinit⟩
  have hwhole (hwritten : declared.isAbsent = false) : declared.isWhole :=
    Ty.isWhole_of_isPlain hdeclared hwritten
  unfold Typing.varDecl
  split
  next hpresent =>
    have h := h.resolve_left (by simpa using hpresent)
    split
    next hwritten =>
      refine (finds_fitting h hdeclared).bind ?_
      rintro tree uses _ ⟨⟨rfl, hvalue, htyped⟩, htakes⟩
      exact hrest declared tree uses (hwhole (by simpa using hwritten)) (.inr ⟨hvalue, htakes, htyped⟩)
    · refine (h.value rfl).bind ?_
      rintro tree uses _ ⟨rfl, hvalue, htyped⟩
      exact hrest tree.type.unwrap tree uses htyped.type (.inr ⟨hvalue, Ty.takes_of_eq_unwrap rfl, htyped⟩)
  · split
    · exact .fails rfl
    next hwritten => exact hrest declared .missing [] (hwhole (by simpa using hwritten)) (.inl ⟨rfl, rfl⟩)

theorem finds_localDecl : FindsStatement (Typing.localDecl info name declared c) table ctx names := by
  refine (finds_varDecl hdeclared h).bind ?_
  rintro _ uses names' ⟨t, init, rfl, hdecl⟩
  refine .get (fun st _ _ => ?_)
  split
  · exact .fails rfl
  · refine .pure ⟨?_, hdecl.typed declared⟩
    rw [hdecl.defined]
    rcases hdecl.init with ⟨rfl, rfl⟩ | ⟨hvalue, htakes, -⟩
    · exact .declare hdecl.fresh
    · exact .declareAs hvalue htakes hdecl.fresh

end

theorem finds_assign {op : Operator} (hl : left.Fits table) (hr : right.Fits table) :
    FindsStatement (Typing.assign info op left right) table ctx names := by
  refine (hl.value rfl).bind ?_
  rintro lhs uses _ ⟨rfl, hvalue, htyped⟩
  split
  · exact .fails rfl
  next hlocation =>
    have hplace := isPlace_of_isLocation hvalue (by simpa using hlocation)
    refine .get (fun st _ _ => ?_)
    split
    · exact .fails rfl
    · split
      next hop =>
        refine (finds_fitting hr htyped.isPlain).bind ?_
        rintro rhs uses' _ ⟨⟨rfl, hvalue', htyped'⟩, htakes⟩
        rw [Ty.takes, Ty.unwrap_unwrap] at htakes
        refine .pure ⟨?_, .node rfl (.two htyped htyped') (by rintro _ ⟨⟩)⟩
        rw [hop]
        exact .assign hvalue hplace hvalue' htakes
      · split
        · exact .fails rfl
        next arith harith =>
          have hwant : (if lhs.type.unwrap.isPointer then Ty.i32 else lhs.type.unwrap).isPlain := by
            split
            · rfl
            · exact htyped.isPlain
          refine (hr.value hwant).bind ?_
          rintro rhs uses' _ ⟨rfl, hvalue', htyped'⟩
          refine .test tests_requireResult (fun t hresult => ?_)
          refine .test tests_expect (fun _ htakes => ?_)
          rw [Ty.takes, Ty.unwrap_unwrap] at htakes
          exact .pure ⟨.update harith hvalue hplace hvalue' hresult htakes,
            .node rfl (.two htyped htyped') (by rintro _ ⟨⟩)⟩

theorem finds_ret (h : c.node.isMissing ∨ c.Fits table) :
    FindsStatement (Typing.ret info c) table ctx names := by
  refine .read (fun hreturns => ?_)
  split
  · exact .fails rfl
  next name result hfunction =>
    split
    · split
      next hvoid =>
        exact .pure ⟨.leave hfunction hvoid, .node rfl nofun (List.forall_mem_singleton.mpr nofun)⟩
      · exact .fails rfl
    next hpresent =>
      split
      · exact .fails rfl
      · have hwant := Ty.isPlain_of_isWhole (hreturns name result hfunction)
        refine (finds_fitting (h.resolve_left hpresent) hwant).bind ?_
        rintro tree uses _ ⟨⟨rfl, hvalue, htyped⟩, htakes⟩
        exact .pure ⟨.ret hfunction hvalue htakes,
          .node rfl nofun (List.forall_mem_singleton.mpr (fun _ => htyped))⟩

/-! ## Bodies -/

/-- The check of a body gives back a statement that leaves the names around it as they are. -/
def IsBody (table : TypeTable) (c : Checker) : Prop :=
  ∀ ctx names, (optional c).Finds table ctx [] names (Enclosed table ctx names)

theorem finds_inLoop (h : IsBody table c) :
    (inLoop (optional c)).Finds table ctx [] names
      (Enclosed table { ctx with inLoop := true, inBreakable := true } names) :=
  .withReader (fun ctx => { ctx with inLoop := true, inBreakable := true }) (h _ _)

theorem finds_whileLoop (hc : cond.Fits table) (hb : IsBody table body) :
    Finds (do
        let c ← Check.condition cond
        return .whileLoop { info with type := .void } c (← Check.inLoop (optional body)))
      table ctx [] names (Statement table ctx names) := by
  refine (finds_condition hc).bind ?_
  rintro c uses _ ⟨⟨rfl, hvalue, htyped⟩, hbool⟩
  refine (finds_inLoop hb).bind ?_
  rintro b uses' _ ⟨rfl, hstatement, htyped'⟩
  exact .pure ⟨.whileLoop hvalue hbool hstatement, .node rfl (.two htyped htyped') nofun⟩

/-- The tree is a case whose body leaves the names around it as they are. -/
def Branch (table : TypeTable) (ctx : CheckContext) (names : Chain TypedName)
    (uses : List Resolution) (names' : Chain TypedName) (tree : Tree) : Prop :=
  ∃ info values body, tree = .case info values body ∧ Enclosed table ctx names uses names' body

/-- The check of a case gives back a case. -/
def IsBranch (table : TypeTable) (c : Checker) : Prop :=
  ∀ ctx names, (c.check .branch).Finds table ctx [] names (fun uses names' tree =>
    tree.Typed ∧ Branch table ctx names uses names' tree)

theorem finds_case {values : List Int64} (hb : IsBody table c) :
    Finds (do return Tree.case { info with type := .void } values (← optional c)) table ctx [] names
      (fun uses names' tree => tree.Typed ∧ Branch table ctx names uses names' tree) :=
  (hb ctx names).bind (fun body _ _ hbody =>
    .pure ⟨.node rfl hbody.2.2.one nofun, _, _, body, rfl, hbody⟩)

theorem tests_caseValues (pos : Position) (values seen : List Int64) :
    (caseValues pos values seen).Tests ctx (fun _ => True) := by
  induction values generalizing seen with
  | nil =>
    rintro st _ _ ⟨⟩
    exact ⟨rfl, trivial⟩
  | cons value rest ih =>
    unfold caseValues
    split
    · rintro st _ _ ⟨⟩
    · exact ih _

theorem finds_caseList (h : ∀ c ∈ cases, IsBranch table c) (seen : List Int64) :
    (caseList seen cases).Finds table ctx [] names (fun uses names' trees => names = names' ∧
      AreCases table ctx names uses trees ∧ ∀ tree ∈ trees, tree.Typed) := by
  induction cases generalizing seen with
  | nil => exact .pure ⟨rfl, .nil, nofun⟩
  | cons c rest ih =>
    rw [List.forall_mem_cons] at h
    refine .test (tests_caseValues _ _ _) (fun seen' _ => ?_)
    refine (h.1 ctx names).bind ?_
    rintro _ uses _ ⟨htyped, info, values, body, rfl, rfl, hstatement, -⟩
    refine (ih h.2 seen').bind ?_
    rintro trees uses' _ ⟨rfl, hcases, htyped'⟩
    exact .pure ⟨rfl, .cons hstatement hcases, List.forall_mem_cons.mpr ⟨htyped, htyped'⟩⟩

theorem finds_switch {selector fallback : Checker} (hs : selector.Fits table)
    (hc : ∀ c ∈ cases, IsBranch table c) (hf : fallback.node.isMissing ∨ IsBody table fallback) :
    FindsStatement (Typing.switch info selector cases fallback) table ctx names := by
  refine (hs.value rfl).bind ?_
  rintro s uses _ ⟨rfl, hvalue, htyped⟩
  split
  · exact .fails rfl
  next hinteger =>
    refine .withReader (fun ctx => { ctx with inBreakable := true }) ((finds_caseList hc []).bind ?_)
    rintro trees uses' _ ⟨rfl, hcases, htyped'⟩
    refine (finds_part (Q := fun uses names' tree => names = names' ∧
      IsStatement table _ names uses tree names ∧ (tree.isMissing = false → tree.Typed))
      (hf.imp_right (fun h => h _ _)) ⟨rfl, .missing, nofun⟩
      (fun _ _ _ h => ⟨h.1, h.2.1, fun _ => h.2.2⟩)).bind ?_
    rintro tree uses'' _ ⟨rfl, hfallback, htyped''⟩
    exact .pure ⟨.switch hvalue (by simpa using hinteger) hcases hfallback,
      .node rfl (List.forall_mem_cons.mpr ⟨htyped, htyped'⟩) (List.forall_mem_singleton.mpr htyped'')⟩

/-! ## Trees -/

/-- A node whose check gives a value for every use, and that is no literal. -/
theorem fits_of_values (hpresent : tree.isMissing = false) (hliteral : isLiteral tree = false)
    (h : ∀ {use ctx names}, use.expected.isPlain → FindsValue (tree.check use) table ctx names) :
    Checker.Fits table ⟨tree, tree.check⟩ where
  present := hpresent
  value hexpected := h (Ty.isPlain_unwrap hexpected)
  statement := (h rfl).mono (fun _ _ _ hvalue => hvalue.statement)
  literal hnode := nomatch hliteral.symm.trans hnode

theorem fits_of_literal (f : Ty → Tree) (hpresent : tree.isMissing = false)
    (hcheck : ∀ use, tree.check use = pure (f use.expected))
    (h : ∀ expected ctx names, expected.isPlain →
      IsValue table ctx names [] (f expected) ∧ (f expected).Typed) :
    Checker.Fits table ⟨tree, tree.check⟩ := by
  have hvalue {use : Use} {ctx : CheckContext} {names : Chain TypedName}
      (hexpected : use.expected.isPlain) :
      FindsValue (tree.check use) table ctx names := by
    rw [hcheck]
    exact .pure ⟨rfl, h use.expected ctx names hexpected⟩
  refine ⟨hpresent, fun hexpected => hvalue (Ty.isPlain_unwrap hexpected),
    (hvalue rfl).mono (fun _ _ _ hvalue => hvalue.statement), fun _ use ctx => ?_⟩
  show (tree.check use).Tests ctx _
  rw [hcheck]
  rintro st _ _ ⟨⟩
  exact ⟨rfl, trivial⟩

theorem fits_of_statements (hpresent : tree.isMissing = false) (hliteral : isLiteral tree = false)
    (hvalue : ∀ expected, tree.check (.value expected) = fail tree.pos (.notExpression tree.kindName))
    (h : ∀ {ctx names}, FindsStatement (tree.check .statement) table ctx names) :
    Checker.Fits table ⟨tree, tree.check⟩ where
  present := hpresent
  value _ := .fails (congrFun (hvalue _) _)
  statement := h
  literal hnode := nomatch hliteral.symm.trans hnode

theorem isWhole_numberType (hwritten : written.isPlain) (hexpected : expected.isPlain)
    (value : Int64) : (numberType written expected value).isWhole := by
  unfold numberType
  split
  next hpresent => exact Ty.isWhole_of_isPlain hwritten (by simpa using hpresent)
  · split
    next hnumber =>
      apply Ty.isWhole_of_isPlain hexpected
      cases expected with
      | absent => cases hnumber
      | _ => rfl
    · split
      · rfl
      · rfl

theorem isWhole_floatType (hwritten : written.isPlain) (hexpected : expected.isPlain) :
    (floatType written expected).isWhole := by
  unfold floatType
  split
  next hpresent => exact Ty.isWhole_of_isPlain hwritten (by simpa using hpresent)
  · split
    next hfloat =>
      apply Ty.isWhole_of_isPlain hexpected
      cases expected with
      | absent => cases hfloat
      | _ => rfl
    · rfl

theorem fits_number {value : Int64} (h : info.type.isPlain) :
    Checker.Fits table ⟨.number info value, (Tree.number info value).check⟩ := by
  refine fits_of_literal (fun t => .number { info with type := numberType info.type t value } value)
    rfl (fun _ => rfl) (fun t ctx names ht => ?_)
  have hwhole := isWhole_numberType h ht value
  exact ⟨.number (Ty.isLocation_of_isWhole hwhole), .node (Ty.isWhole_unwrap hwhole) nofun nofun⟩

theorem fits_float {value : Double} (h : info.type.isPlain) :
    Checker.Fits table ⟨.float info value, (Tree.float info value).check⟩ := by
  refine fits_of_literal (fun t => .float { info with type := floatType info.type t } value)
    rfl (fun _ => rfl) (fun t ctx names ht => ?_)
  have hwhole := isWhole_floatType h ht
  exact ⟨.float (Ty.isLocation_of_isWhole hwhole), .node (Ty.isWhole_unwrap hwhole) nofun nofun⟩

end Typing

namespace Tree

open Check CheckState Typing

variable {table : TypeTable} (htable : Aggregate.AreWhole table.aggregates)

include htable

mutual

/-- The check of a tree gives back values and statements by the typing rules. -/
theorem fits : (tree : Tree) → tree.isTidy → Checker.Fits table ⟨tree, tree.check⟩
  | .number info value, h => fits_number h
  | .float info value, h => fits_float h
  | .bool .., _ => fits_of_values rfl rfl (fun _ => .pure ⟨rfl, .bool rfl, .node rfl nofun nofun⟩)
  | .ident info name, _ => fits_of_values rfl rfl (fun _ => finds_ident)
  | .binary info op left right, h => by
    rw [isTidy, Bool.and_eq_true] at h
    exact fits_of_values rfl rfl (finds_binary (left.fits h.1) (right.fits h.2))
  | .unary info op operand, h => fits_of_values rfl rfl (finds_unary (operand.fits h))
  | .call info callee args, h =>
    fits_of_values rfl rfl (fun _ => finds_call (allFit args h))
  | .member info base name, h =>
    fits_of_values rfl rfl (fun _ => finds_member htable (base.fits h))
  | .subscript info array index, h => by
    rw [isTidy, Bool.and_eq_true] at h
    exact fits_of_values rfl rfl (fun _ => finds_subscript (array.fits h.1) (index.fits h.2))
  | .deref info pointer, h => fits_of_values rfl rfl (fun _ => finds_deref (pointer.fits h))
  | .addressOf info operand, h =>
    fits_of_values rfl rfl (fun _ => finds_addressOf (operand.fits h))
  | .cast info value target, h => by
    rw [isTidy, Bool.and_eq_true] at h
    exact fits_of_values rfl rfl (fun _ => finds_cast (value.fits h.1) h.2)
  | .structLit info names values, h =>
    fits_of_values rfl rfl (finds_structLit htable (allFit values h))
  | .arrayLit info values, h => fits_of_values rfl rfl (finds_arrayLit (allFit values h))
  | .ifElse info cond yes no, h => by
    simp only [isTidy, Bool.and_eq_true, Bool.or_eq_true] at h
    have hc := cond.fits h.1.1
    have hy := yes.fits h.1.2
    have hn := h.2.imp_right (no.fits)
    exact ⟨rfl, fun huse => finds_ifValue hc hy hn (Ty.isPlain_unwrap huse), finds_ifStmt hc hy hn, nofun⟩
  | .block info stmts, h =>
    ⟨rfl, fun huse => finds_blockValue (allFit stmts h) (Ty.isPlain_unwrap huse),
      (finds_blockStmt (allFit stmts h)).mono (fun _ _ _ hblock => hblock.1 ▸ hblock.2), nofun⟩
  | .varDecl info name declared init, h => by
    rw [isTidy, Bool.and_eq_true, Bool.or_eq_true] at h
    exact fits_of_statements rfl rfl (fun _ => rfl) (finds_localDecl h.1 (h.2.imp_right (init.fits)))
  | .assign info op target value, h => by
    rw [isTidy, Bool.and_eq_true] at h
    exact fits_of_statements rfl rfl (fun _ => rfl) (finds_assign (target.fits h.1) (value.fits h.2))
  | .whileLoop info cond body, h => by
    rw [isTidy, Bool.and_eq_true, Bool.and_eq_true] at h
    exact fits_of_statements rfl rfl (fun _ => rfl)
      (finds_whileLoop (cond.fits h.1.1) (body.isBody h.1.2 h.2))
  | .loop info body, h => by
    rw [isTidy, Bool.and_eq_true] at h
    refine fits_of_statements rfl rfl (fun _ => rfl) ((finds_inLoop (body.isBody h.1 h.2)).bind ?_)
    rintro b uses _ ⟨rfl, hstatement, htyped⟩
    exact .pure ⟨.loop hstatement, .node rfl htyped.one nofun⟩
  | .switch info selector cases fallback, h => by
    simp only [isTidy, Bool.and_eq_true, Bool.or_eq_true] at h
    exact fits_of_statements rfl rfl (fun _ => rfl)
      (finds_switch (selector.fits h.1.1.1) (allBranches cases h.1.1.2 h.1.2)
        (h.2.imp_right (fun hf => fallback.isBody hf.1 hf.2)))
  | .break _, _ =>
    fits_of_statements rfl rfl (fun _ => rfl) (.read (fun _ => by
      split
      next hbreak => exact .pure ⟨.break hbreak, .node rfl nofun nofun⟩
      · exact .fails rfl))
  | .continue _, _ =>
    fits_of_statements rfl rfl (fun _ => rfl) (.read (fun _ => by
      split
      next hcontinue => exact .pure ⟨.continue hcontinue, .node rfl nofun nofun⟩
      · exact .fails rfl))
  | .ret info value, h => by
    rw [isTidy, Bool.or_eq_true] at h
    exact fits_of_statements rfl rfl (fun _ => rfl) (finds_ret (h.imp_right (value.fits)))
  | .module .., _ | .importDecl .., _ | .funcDecl .., _ | .case .., _ =>
    fits_of_statements rfl rfl (fun _ => rfl) (.fails rfl)

theorem allFit : (trees : List Tree) → areTidy trees → ∀ c ∈ checkers trees, c.Fits table
  | [], _ => nofun
  | tree :: rest, h => by
    rw [areTidy, Bool.and_eq_true] at h
    rw [checkers, List.forall_mem_cons]
    exact ⟨tree.fits h.1, allFit rest h.2⟩

theorem isBody (tree : Tree) (hbody : tree.isBlock) (h : tree.isTidy) : IsBody table ⟨tree, tree.check⟩ := by
  cases tree with
  | block info stmts => exact fun _ _ => finds_blockStmt (allFit stmts h)
  | _ => cases hbody

theorem isBranch (tree : Tree) (hcase : tree.isCase)
    (h : tree.isTidy) : IsBranch table ⟨tree, tree.check⟩ := by
  cases tree with
  | case info values body =>
    rw [isTidy, Bool.and_eq_true] at h
    exact fun _ _ => finds_case (body.isBody h.1 h.2)
  | _ => cases hcase

theorem allBranches : (trees : List Tree) → trees.all isCase → areTidy trees →
    ∀ c ∈ checkers trees, IsBranch table c
  | [], _, _ => nofun
  | tree :: rest, hcases, h => by
    rw [areTidy, Bool.and_eq_true] at h
    rw [List.all_cons, Bool.and_eq_true] at hcases
    rw [checkers, List.forall_mem_cons]
    exact ⟨tree.isBranch hcases.1 h.1, allBranches rest hcases.2 h.2⟩

end

end Tree

end TreeWasm
