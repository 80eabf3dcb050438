import TreeWasm.Proofs.Typing.Accepted

/-! # Checked modules

A module that the check gives back is one by the typing rules, and has a type at each of its nodes. The
declarations of a module are gone through three times: for the signatures of functions, for variables,
and for the bodies of functions. Each pass leaves alone what the others look at.
-/

namespace TreeWasm

variable {name : String} {value : TypedName} {decls before after params : List Tree}
  {info : TreeInfo} {body : Tree} {result : Ty} {exprBody : Bool} {α : Type} {chain : Chain α}

/-- A name that is bound anew hides no other one of its level. -/
theorem Chain.lookupLocal_define_of_fresh {other : String} {value found : α}
    (hfresh : chain.lookupLocal other = none) (hname : chain.lookupLocal name = some value) :
    (chain.define other found).lookupLocal name = some value := by
  rw [Chain.lookupLocal_define, if_neg ?_]
  · exact hname
  · rintro rfl
    cases hfresh.symm.trans hname

namespace Tree

variable {table : TypeTable} {names names' names'' : Chain TypedName}
  {bindings bindings' : List (String × TypedName)} {uses : List Resolution}

namespace Defines

theorem trans (h : Defines names bindings names') (h' : Defines names' bindings' names'') :
    Defines names (bindings ++ bindings') names'' := by
  induction h with
  | nil => exact h'
  | cons hfresh _ ih => exact .cons hfresh (ih h')

theorem of_append (h : Defines names (bindings ++ bindings') names'') :
    ∃ inner, Defines names bindings inner ∧ Defines inner bindings' names'' := by
  induction bindings generalizing names with
  | nil => exact ⟨names, .nil, h⟩
  | cons binding rest ih =>
    cases h with
    | cons hfresh h =>
      obtain ⟨inner, hrest, hlast⟩ := ih h
      exact ⟨inner, .cons hfresh hrest, hlast⟩

section

variable (h : Defines names bindings names')
include h

theorem tail_eq : names'.tail = names.tail := by
  induction h with
  | nil => rfl
  | cons _ _ ih => rw [ih, Chain.tail_define]

/-- What was defined in the innermost level stays as it is. -/
theorem lookupLocal (hname : names.lookupLocal name = some value) : names'.lookupLocal name = some value := by
  induction h with
  | nil => exact hname
  | cons hfresh _ ih => exact ih (Chain.lookupLocal_define_of_fresh hfresh hname)

theorem lookupLocal_of_mem {binding : String × TypedName} (hmem : binding ∈ bindings) :
    names'.lookupLocal binding.1 = some binding.2 := by
  induction h with
  | nil => cases hmem
  | cons _ hrest ih =>
    rcases List.mem_cons.mp hmem with rfl | hmem
    · exact hrest.lookupLocal (by rw [Chain.lookupLocal_define, if_pos rfl])
    · exact ih hmem

end

end Defines

/-- What declares a function gives it a whole type by which it can be called. -/
def Callable (tree : Tree) : Prop :=
  ∀ binding, tree.imported? = some binding ∨ tree.function? = some binding →
    binding.2.type.isFunction ∧ binding.2.type.isWhole

theorem AreGlobals.lookupLocal (h : AreGlobals table names uses decls names')
    (hname : names.lookupLocal name = some value) : names'.lookupLocal name = some value := by
  induction h with
  | nil => exact hname
  | declare hfresh _ ih | declareAs _ _ hfresh _ ih =>
    exact ih (Chain.lookupLocal_define_of_fresh hfresh hname)
  | skip _ _ ih => exact ih hname

theorem AreGlobals.of_append (h : AreGlobals table names uses (before ++ after) names'') :
    ∃ first rest names', uses = first ++ rest ∧ AreGlobals table names first before names' ∧
      AreGlobals table names' rest after names'' := by
  induction before generalizing names uses with
  | nil => exact ⟨[], uses, names, rfl, .nil, h⟩
  | cons tree before ih =>
    cases h with
    | declare hfresh h =>
      obtain ⟨first, rest, names', rfl, hbefore, hafter⟩ := ih h
      exact ⟨first, rest, names', rfl, .declare hfresh hbefore, hafter⟩
    | declareAs hvalue htakes hfresh h =>
      obtain ⟨first, rest, names', rfl, hbefore, hafter⟩ := ih h
      exact ⟨_ ++ first, rest, names', (List.append_assoc _ _ _).symm,
        .declareAs hvalue htakes hfresh hbefore, hafter⟩
    | skip hnone h =>
      obtain ⟨first, rest, names', rfl, hbefore, hafter⟩ := ih h
      exact ⟨first, rest, names', rfl, .skip hnone hbefore, hafter⟩

theorem AreFunctions.of_append (h : AreFunctions table names uses (before ++ after)) :
    ∃ first rest, uses = first ++ rest ∧ AreFunctions table names first before ∧
      AreFunctions table names rest after := by
  induction before generalizing uses with
  | nil => exact ⟨[], uses, rfl, .nil, h⟩
  | cons tree before ih =>
    cases h with
    | cons htree h =>
      obtain ⟨first, rest, rfl, hbefore, hafter⟩ := ih h
      exact ⟨_ ++ first, rest, (List.append_assoc _ _ _).symm, .cons htree hbefore, hafter⟩
    | skip hnone h =>
      obtain ⟨first, rest, rfl, hbefore, hafter⟩ := ih h
      exact ⟨first, rest, rfl, .skip hnone hbefore, hafter⟩

theorem AreFunctions.isFunction {index : Nat} (h : AreFunctions table names uses (decls.drop index))
    (hdecl : decls[index]? = some (.funcDecl info name params body result exprBody)) :
    ∃ uses, IsFunction table names uses (.funcDecl info name params body result exprBody) := by
  obtain ⟨hlt, hdecl⟩ := List.getElem?_eq_some_iff.mp hdecl
  rw [List.drop_eq_getElem_cons hlt, hdecl] at h
  cases h with
  | cons htree _ => exact ⟨_, htree⟩
  | skip hnone _ => cases hnone

end Tree

theorem Chain.lookup_of_lookupLocal {value : α} (h : chain.lookupLocal name = some value) :
    chain.lookup name = some value := by
  cases chain with
  | nil => cases h
  | cons level rest =>
    rw [Chain.lookup, List.findSome?_cons]
    rw [show level.find? name = some value from h]

namespace Typing

open Check CheckState Tree

variable {table : TypeTable} {ctx : CheckContext} {names : Chain TypedName} {trees : List Tree}
  {tree : Tree} {pos : Position}

theorem filterMap_cons_toList {β : Type} (f : α → Option β) (a : α) (rest : List α) :
    (a :: rest).filterMap f = (f a).toList ++ rest.filterMap f := by
  cases h : f a <;> simp [h]

/-- A pass over declarations that binds one name or none for each. -/
theorem finds_mapM_defines {f : Tree → Check Tree} {binding? : Tree → Option (String × TypedName)}
    {P Q : Tree → Prop}
    (hf : ∀ tree names, P tree → (f tree).Finds table ctx [] names (fun uses names' tree' =>
      uses = [] ∧ Defines names (binding? tree').toList names' ∧ Q tree'))
    (h : ∀ tree ∈ trees, P tree) :
    (trees.mapM f).Finds table ctx [] names (fun uses names' trees' =>
      uses = [] ∧ Defines names (trees'.filterMap binding?) names' ∧ ∀ tree' ∈ trees', Q tree') := by
  induction trees generalizing names with
  | nil => exact .pure ⟨rfl, .nil, nofun⟩
  | cons tree rest ih =>
    rw [List.forall_mem_cons] at h
    rw [List.mapM_cons]
    refine (hf tree names h.1).bind ?_
    rintro tree' _ names' ⟨rfl, hdefines, hQ⟩
    refine (ih h.2).bind ?_
    rintro trees' _ names'' ⟨rfl, hdefines', hQ'⟩
    refine .pure ⟨rfl, ?_, List.forall_mem_cons.mpr ⟨hQ, hQ'⟩⟩
    rw [filterMap_cons_toList]
    exact hdefines.trans hdefines'

theorem finds_bind_defines (hvalue : value.type.isWhole) :
    (Check.bind pos name value).Finds table ctx [] names (fun uses names' _ =>
      uses = [] ∧ Defines names [(name, value)] names') := by
  refine (finds_bind hvalue).mono ?_
  rintro uses names' _ ⟨huses, hfresh, rfl⟩
  exact ⟨huses, .cons hfresh .nil⟩

theorem finds_importDecl (h : tree.isImport ∧ tree.isTidy) :
    (importDecl tree).Finds table ctx [] names (fun uses names' tree' =>
      uses = [] ∧ Defines names tree'.imported?.toList names' ∧ tree'.Typed ∧ tree'.Callable) := by
  obtain ⟨himport, h⟩ := h
  cases tree with
  | importDecl info source field name signature =>
    unfold importDecl
    dsimp only
    split
    · exact .fails rfl
    next hfunction =>
      have hwhole : signature.isWhole := h
      refine (finds_bind_defines hwhole).bind ?_
      rintro _ _ names' ⟨rfl, hdefines⟩
      refine .pure ⟨rfl, hdefines, .node (Ty.isWhole_unwrap hwhole) nofun nofun, ?_⟩
      rintro _ (hbinding | hbinding) <;> cases hbinding
      exact ⟨by simpa using hfunction, hwhole⟩
  | _ => cases himport

/-! ## Functions -/

/-- What a function returns, of which a result may be written. -/
def returned (result : Ty) : Ty := if result.isAbsent then .void else result

/-- A declaration of a function has the type that its parameters and its result give. -/
def Signed : Tree → Prop
  | .funcDecl info _ params _ result _ => (∀ p ∈ params, p.type = declaredType p) ∧ ∃ occurrence,
      info.type = .function occurrence (params.map type) (returned result)
  | _ => True

/-- A declaration before the bodies of functions are checked: it has its types, or is a function with
its signature. -/
def Ready (tree : Tree) : Prop :=
  tree.Typed ∧ tree.function? = none ∧ tree.imported? = none ∨
    tree.isTidy ∧ Signed tree ∧ tree.function?.isSome

theorem isWhole_returned (h : result.isPlain) : (returned result).isWhole := by
  unfold returned
  split
  · rfl
  next hwritten => exact Ty.isWhole_of_isPlain h (by simpa using hwritten)

theorem type_withType_declaredType : (tree.withType (declaredType tree)).type = declaredType tree := by
  cases tree <;> rfl

theorem isParameter_withType (h : tree.isParameter) (t : Ty) : (tree.withType t).isParameter := by
  cases tree with
  | varDecl => exact h
  | _ => cases h

theorem isWhole_declaredType (h : tree.isParameter) : (declaredType tree).isWhole := by
  cases tree with
  | varDecl => exact (Bool.and_eq_true_iff.mp h).1
  | _ => cases h

theorem typed_parameter (h : tree.isParameter) (htype : tree.type = declaredType tree) : tree.Typed := by
  have hwhole := Ty.isWhole_unwrap (isWhole_declaredType h)
  rw [← htype] at hwhole
  cases tree with
  | varDecl info name declared init =>
    have hmissing := (Bool.and_eq_true_iff.mp h).2
    exact .node hwhole nofun (List.forall_mem_singleton.mpr (fun hpresent =>
      nomatch hmissing.symm.trans hpresent))
  | _ => cases h

theorem Signed.isWhole (h : Signed (.funcDecl info name params body result exprBody))
    (hparams : ∀ p ∈ params, p.isParameter) (hresult : result.isPlain) : info.type.isWhole := by
  obtain ⟨htypes, occurrence, htype⟩ := h
  rw [htype, Ty.isWhole, Bool.and_eq_true, Ty.areWhole_iff, List.forall_mem_map]
  exact ⟨fun p hp => htypes p hp ▸ isWhole_declaredType (hparams p hp), isWhole_returned hresult⟩

theorem finds_signature (h : tree.isDeclaration ∧ tree.isTidy) :
    (signature tree).Finds table ctx [] names (fun uses names' tree' =>
      uses = [] ∧ Defines names tree'.function?.toList names' ∧
        tree'.isDeclaration ∧ tree'.isTidy ∧ Signed tree') := by
  unfold signature
  split
  next info name params body result exprBody =>
    simp only [isTidy, Bool.and_eq_true, List.all_eq_true] at h
    obtain ⟨-, ⟨hparams, hbody⟩, hresult⟩ := h
    intro st tree' st' hnames hst hrun
    let t := Ty.function st.table.occurrence (params.map declaredType) (returned result)
    have hwhole : t.isWhole := by
      rw [Ty.isWhole, Bool.and_eq_true, Ty.areWhole_iff, List.forall_mem_map]
      exact ⟨fun p hp => isWhole_declaredType (hparams p hp), isWhole_returned hresult⟩
    have htypes : (params.map (fun p => p.withType (declaredType p))).map type = params.map declaredType := by
      rw [List.map_map]
      exact List.map_congr_left (fun p _ => type_withType_declaredType)
    have hrest : Finds (do
          Check.bind info.pos name ⟨t, true, info.pos⟩
          return Tree.funcDecl { info with type := t } name
            (params.map (fun p => p.withType (declaredType p))) body result exprBody)
        table ctx [] names (fun uses names' tree' =>
          uses = [] ∧ Defines names tree'.function?.toList names' ∧
            tree'.isDeclaration ∧ tree'.isTidy ∧ Signed tree') := by
      refine (finds_bind_defines hwhole).bind ?_
      rintro _ _ names' ⟨rfl, hdefines⟩
      refine .pure ⟨rfl, hdefines, rfl, ?_, ?_, st.table.occurrence, by rw [htypes]⟩
      · simp only [isTidy, Bool.and_eq_true, List.all_eq_true, List.forall_mem_map]
        exact ⟨⟨fun p hp => isParameter_withType (hparams p hp) _, hbody⟩, hresult⟩
      · rw [List.forall_mem_map]
        intro p _
        rw [type_withType_declaredType]
        cases p <;> rfl
    obtain ⟨uses, hlearns, hrest⟩ := hrest { st with table := st.table.freshOccurrence.1 } tree' st'
      hnames ⟨hst.aggregates, hst.whole, hst.returns⟩ hrun
    exact ⟨uses, ⟨hlearns.aggregates, hlearns.resolved⟩, hrest⟩
  next other =>
    refine .pure ⟨rfl, ?_, h.1, h.2, ?_⟩
    · cases tree with
      | funcDecl => exact absurd rfl (other _ _ _ _ _ _)
      | _ => exact .nil
    · cases tree with
      | funcDecl => exact absurd rfl (other _ _ _ _ _ _)
      | _ => trivial

theorem finds_parameter (h : tree.isParameter) (htype : tree.type = declaredType tree) :
    (parameter tree).Finds table ctx [] names (fun uses names' _ =>
      uses = [] ∧ Defines names tree.declared?.toList names') := by
  have hwhole := isWhole_declaredType h
  cases tree with
  | varDecl info name declared init =>
    have htype : info.type = declared := htype
    rw [declared?, htype]
    unfold parameter
    refine .get (fun st _ _ => ?_)
    split
    · exact .fails rfl
    · exact finds_bind_defines hwhole
  | _ => cases h

theorem finds_parameters (h : ∀ p ∈ params, p.isParameter) (htype : ∀ p ∈ params, p.type = declaredType p) :
    (params.forM parameter).Finds table ctx [] names (fun uses names' _ =>
      uses = [] ∧ Defines names (params.filterMap declared?) names') := by
  induction params generalizing names with
  | nil => exact .pure ⟨rfl, .nil⟩
  | cons p rest ih =>
    rw [List.forall_mem_cons] at h htype
    refine (finds_parameter h.1 htype.1).bind ?_
    rintro _ _ names' ⟨rfl, hdefines⟩
    refine (ih h.2 htype.2).mono ?_
    rintro uses names'' _ ⟨huses, hdefines'⟩
    rw [filterMap_cons_toList]
    exact ⟨huses, hdefines.trans hdefines'⟩

theorem finds_functionBody (htable : Aggregate.AreWhole table.aggregates) (hready : Ready tree)
    (hnames : ∀ binding ∈ tree.function?, names.lookup binding.1 = some binding.2) :
    (functionBody tree).Finds table {} [] names (fun uses names' tree' => names = names' ∧
      (tree'.function? = tree.function? ∧ (tree' = tree ∨ tree.declared? = none ∧ tree'.declared? = none)) ∧
      ((tree'.function? = none ∧ uses = []) ∨ IsFunction table names uses tree') ∧
      tree'.Typed ∧ tree'.Callable) := by
  unfold functionBody
  split
  next info name params body result exprBody =>
    obtain ⟨htidy, hsigned, -⟩ := hready.resolve_left (fun h => nomatch h.2.1)
    simp only [isTidy, Bool.and_eq_true, List.all_eq_true] at htidy
    obtain ⟨⟨hparams, hbody⟩, hresult⟩ := htidy
    have hwhole := hsigned.isWhole hparams hresult
    obtain ⟨htypes, occurrence, htype⟩ := hsigned
    have hname := hnames _ rfl
    have hreturned := isWhole_returned hresult
    have htyped (body' : Tree) (h : body'.Typed) :
        (Tree.funcDecl info name params body' result exprBody).Typed :=
      .node (Ty.isWhole_unwrap hwhole)
        (List.forall_mem_cons.mpr ⟨h, fun p hp => typed_parameter (hparams p hp) (htypes p hp)⟩) nofun
    have hcallable (body' : Tree) : (Tree.funcDecl info name params body' result exprBody).Callable := by
      rintro _ (hbinding | hbinding) <;> cases hbinding
      exact ⟨by rw [htype]; rfl, hwhole⟩
    refine .withReader (fun ctx => { ctx with function := some (name, returned result) })
      (Finds.inLevel ((finds_parameters hparams htypes).bind ?_)) (by rintro - _ _ ⟨⟩; exact hreturned)
    rintro _ _ inner ⟨rfl, hdefines⟩
    have htail : names = inner.tail := hdefines.tail_eq.symm
    refine .get (fun st _ _ => ?_)
    rw [← returned]
    split
    · exact .fails rfl
    · split
      next hexpr =>
        subst hexpr
        refine (finds_fitting (body.fits htable hbody) (Ty.isPlain_of_isWhole hreturned)).bind ?_
        rintro checked uses _ ⟨⟨rfl, hvalue, hchecked⟩, htakes⟩
        exact .pure ⟨htail, ⟨rfl, .inr ⟨rfl, rfl⟩⟩, .inr (.value htype hname hdefines hvalue htakes),
          htyped checked hchecked, hcallable checked⟩
      next hexpr =>
        obtain rfl : exprBody = false := by simpa using hexpr
        refine (finds_optional (body.fits htable hbody)).bind ?_
        rintro checked uses names' ⟨hstatement, hchecked⟩
        exact .pure ⟨htail.trans hstatement.tail_eq.symm, ⟨rfl, .inr ⟨rfl, rfl⟩⟩,
          .inr (.statement htype hname hdefines hstatement), htyped checked hchecked, hcallable checked⟩
  next other =>
    have hnone : tree.function? = none := by
      cases tree with
      | funcDecl => exact absurd rfl (other _ _ _ _ _ _)
      | _ => rfl
    obtain ⟨htyped, -, himport⟩ := hready.resolve_right (fun h => nomatch hnone ▸ h.2.2)
    refine .pure ⟨rfl, ⟨rfl, .inl rfl⟩, .inl ⟨hnone, rfl⟩, htyped, ?_⟩
    rintro _ (hbinding | hbinding)
    · cases himport.symm.trans hbinding
    · cases hnone.symm.trans hbinding

/-- The globals among trees do not depend on the bodies of functions. -/
theorem areGlobals_cons_congr {tree' : Tree} {rest rest' : List Tree}
    (htree : tree' = tree ∨ tree.declared? = none ∧ tree'.declared? = none)
    (hrest : ∀ names uses names', AreGlobals table names uses rest names' →
      AreGlobals table names uses rest' names') {names names' : Chain TypedName}
    {uses : List Resolution} (h : AreGlobals table names uses (tree :: rest) names') :
    AreGlobals table names uses (tree' :: rest') names' := by
  rcases htree with rfl | ⟨hnone, hnone'⟩
  · cases h with
    | declare hfresh h => exact .declare hfresh (hrest _ _ _ h)
    | declareAs hvalue htakes hfresh h => exact .declareAs hvalue htakes hfresh (hrest _ _ _ h)
    | skip hnone h => exact .skip hnone (hrest _ _ _ h)
  · cases h with
    | declare => cases hnone
    | declareAs => cases hnone
    | skip _ h => exact .skip hnone' (hrest _ _ _ h)

section

variable (htable : Aggregate.AreWhole table.aggregates)
include htable

theorem finds_functionBodies (hready : ∀ tree ∈ trees, Ready tree)
    (hnames : ∀ binding ∈ trees.filterMap function?, names.lookup binding.1 = some binding.2) :
    (trees.mapM functionBody).Finds table {} [] names (fun uses names' trees' => names = names' ∧
      trees'.filterMap function? = trees.filterMap function? ∧
      (∀ names uses names', AreGlobals table names uses trees names' →
        AreGlobals table names uses trees' names') ∧
      AreFunctions table names uses trees' ∧ ∀ tree' ∈ trees', tree'.Typed ∧ tree'.Callable) := by
  induction trees with
  | nil => exact .pure ⟨rfl, rfl, fun _ _ _ h => h, .nil, nofun⟩
  | cons tree rest ih =>
    rw [List.forall_mem_cons] at hready
    rw [filterMap_cons_toList, List.forall_mem_append] at hnames
    rw [List.mapM_cons]
    refine (finds_functionBody htable hready.1
      (fun binding h => hnames.1 binding (Option.mem_toList.mpr h))).bind ?_
    rintro tree' uses _ ⟨rfl, ⟨hsame, hglobal⟩, hfunction, htyped⟩
    refine (ih hready.2 hnames.2).bind ?_
    rintro trees' uses' _ ⟨rfl, hsame', hglobals, hfunctions, htyped'⟩
    refine .pure ⟨rfl, ?_, fun _ _ _ h => areGlobals_cons_congr hglobal hglobals h, ?_,
      List.forall_mem_cons.mpr ⟨htyped, htyped'⟩⟩
    · rw [filterMap_cons_toList, filterMap_cons_toList, hsame, hsame']
    · rcases hfunction with ⟨hnone, rfl⟩ | hfunction
      · exact .skip hnone hfunctions
      · exact .cons hfunction hfunctions

/-! ## Variables -/

theorem finds_globalDecl (h : tree.isDeclaration ∧ tree.isTidy ∧ Signed tree) :
    (globalDecl tree).Finds table {} [] names (fun uses names' tree' =>
      tree'.function? = tree.function? ∧ Ready tree' ∧
      ∀ rest uses' names'', AreGlobals table names' uses' rest names'' →
        AreGlobals table names (uses ++ uses') (tree' :: rest) names'') := by
  obtain ⟨hdeclaration, htidy, hsigned⟩ := h
  cases tree with
  | varDecl info name declared init =>
    rw [isTidy, Bool.and_eq_true, Bool.or_eq_true] at htidy
    refine (finds_varDecl htidy.1 (htidy.2.imp_right (init.fits htable))).mono ?_
    rintro uses names' _ ⟨t, init', rfl, hdecl⟩
    refine ⟨rfl, .inl ⟨hdecl.typed declared, rfl, rfl⟩, fun rest uses' names'' hrest => ?_⟩
    rw [hdecl.defined] at hrest
    rcases hdecl.init with ⟨rfl, rfl⟩ | ⟨hvalue, htakes, -⟩
    · exact .declare hdecl.fresh hrest
    · exact .declareAs hvalue htakes hdecl.fresh hrest
  | funcDecl => exact .pure ⟨rfl, .inr ⟨htidy, hsigned, rfl⟩, fun _ _ _ hrest => .skip rfl hrest⟩
  | _ => cases hdeclaration

theorem finds_globalDecls (h : ∀ tree ∈ trees, tree.isDeclaration ∧ tree.isTidy ∧ Signed tree) :
    (trees.mapM globalDecl).Finds table {} [] names (fun uses names' trees' =>
      trees'.filterMap function? = trees.filterMap function? ∧ (∀ tree' ∈ trees', Ready tree') ∧
      AreGlobals table names uses trees' names') := by
  induction trees generalizing names with
  | nil => exact .pure ⟨rfl, nofun, .nil⟩
  | cons tree rest ih =>
    rw [List.forall_mem_cons] at h
    rw [List.mapM_cons]
    refine (finds_globalDecl htable h.1).bind ?_
    rintro tree' uses names' ⟨hsame, hdecl, hglobal⟩
    refine (ih h.2).bind ?_
    rintro trees' uses' names'' ⟨hsame', hdecls, hglobals⟩
    refine .pure ⟨?_, List.forall_mem_cons.mpr ⟨hdecl, hdecls⟩, hglobal _ _ _ hglobals⟩
    rw [filterMap_cons_toList, filterMap_cons_toList, hsame, hsame']

end

/-! ## Modules -/

theorem finds_exports {exports : List String} :
    (exports.forM (exportName pos)).Finds table ctx [] names (fun uses names' _ =>
      uses = [] ∧ names = names' ∧ ∀ name ∈ exports, (names.lookup name).isSome) := by
  induction exports with
  | nil => exact .pure ⟨rfl, rfl, nofun⟩
  | cons name rest ih =>
    have hhead : (exportName pos name).Finds table ctx [] names (fun uses names' _ =>
        uses = [] ∧ names = names' ∧ (names.lookup name).isSome) := by
      refine .get (fun st hnames _ => ?_)
      rw [hnames]
      split
      next hsome => exact .pure ⟨rfl, rfl, hsome⟩
      · exact .fails rfl
    refine hhead.bind ?_
    rintro _ _ _ ⟨rfl, rfl, hname⟩
    exact ih.mono (fun _ _ _ hrest => ⟨hrest.1, hrest.2.1, List.forall_mem_cons.mpr ⟨hname, hrest.2.2⟩⟩)

/-- A module that the check gives back is one by the typing rules and has all types, and the check has
looked up the names in it in the order in which they are used. -/
theorem finds_module (htable : Aggregate.AreWhole table.aggregates) {root : Tree} (htidy : root.isTidy) :
    (Typing.module root).Finds table {} [] [Level.empty] (fun uses _ root' =>
      IsModule table uses root' ∧ root'.Typed ∧ ∀ tree ∈ root'.required, tree.Callable) := by
  unfold Typing.module
  split
  next info imports decls exports =>
    simp only [isTidy, Bool.and_eq_true, areTidy_iff, List.all_eq_true] at htidy
    obtain ⟨⟨⟨himport, himportTidy⟩, hdeclaration⟩, hdeclTidy⟩ := htidy
    refine (finds_mapM_defines (fun tree _ h => finds_importDecl h)
      (fun tree h => ⟨himport tree h, himportTidy tree h⟩)).bind ?_
    rintro imports' _ names₁ ⟨rfl, hdefines₁, himports⟩
    refine (finds_mapM_defines (fun tree _ h => finds_signature h)
      (fun tree h => ⟨hdeclaration tree h, hdeclTidy tree h⟩)).bind ?_
    rintro signed _ names₂ ⟨rfl, hdefines₂, hsigned⟩
    refine (finds_globalDecls htable hsigned).bind ?_
    rintro declared uses names₃ ⟨hsame₃, hdecls, hglobals⟩
    have hdefines := hdefines₁.trans hdefines₂
    have hfunctions (binding : String × TypedName) (hmem : binding ∈ declared.filterMap function?) :
        names₃.lookup binding.1 = some binding.2 := by
      rw [hsame₃] at hmem
      exact Chain.lookup_of_lookupLocal (hglobals.lookupLocal (hdefines₂.lookupLocal_of_mem hmem))
    refine (finds_functionBodies htable hdecls hfunctions).bind ?_
    rintro decls' uses' _ ⟨rfl, hsame₄, hglobals', hbodies, hdecls⟩
    refine finds_exports.bind ?_
    rintro _ _ _ ⟨rfl, rfl, hexports⟩
    have hparts : ∀ tree ∈ imports' ++ decls', tree.Typed ∧ tree.Callable :=
      List.forall_mem_append.mpr ⟨himports, hdecls⟩
    rw [← hsame₃, ← hsame₄] at hdefines
    refine .pure ⟨?_, .node rfl (fun tree htree => (hparts tree htree).1) nofun,
      fun tree htree => (hparts tree htree).2⟩
    rw [List.append_nil]
    exact .module hdefines (hglobals' _ _ _ hglobals) hbodies hexports
  · exact .fails rfl

end Typing

end TreeWasm
