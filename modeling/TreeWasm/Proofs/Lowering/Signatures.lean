import TreeWasm.Proofs.Lowering.Program
import TreeWasm.Proofs.Storage.Phases

/-! # Signatures

Functions are imported and declared before anything else is lowered. A signature needs slots for each
parameter and for the result: a declaration fails by a defect of the compiler exactly if the signature
has none, and a program is compiled only if all its signatures have them.

The check of a program does not ask for slots. It accepts a parameter that is a function.
-/

namespace TreeWasm

open Wasm

open Steps (Runs)

namespace Ty

/-- Values of the type can be kept in slots. -/
def HasSlots (table : TypeTable) (t : Ty) : Prop :=
  t.isAbsent = false ∧ ∃ l, table.layout t.unwrap = .ok l ∧ l.flatten.isOk

/-- The type is that of a function whose parameters and result can be kept in slots. -/
def Callable (table : TypeTable) : Ty → Prop
  | .function _ params result => (∀ t ∈ params, t.HasSlots table) ∧ result.HasSlots table
  | _ => False

end Ty

namespace Lower

variable {ctx : LowerContext} {s : LowerState} {pos : Position}

theorem runs_ofLayout {α : Type} (result : Except LayoutDefect α) :
    Runs (fun failure => failure.isInternal ∧ ¬ result.isOk) ctx s (ofLayout result)
      (fun a s' => result = .ok a ∧ s' = s) := by
  cases result with
  | ok a => exact .pure ⟨rfl, rfl⟩
  | error defect => exact .throw ⟨rfl, nofun⟩

theorem runs_layoutOf {t : Ty} :
    Runs (fun failure => failure.isInternal ∧ ¬ t.HasSlots s.table) ctx s (layoutOf t)
      (fun l s' => (t.HasSlots s.table ↔ l.flatten.isOk) ∧ s' = s) := by
  unfold layoutOf
  split
  next habsent => exact .throw ⟨rfl, fun hslots => nomatch hslots.1.symm.trans habsent⟩
  next hpresent =>
    refine .get ((runs_ofLayout _).imp ?_ ?_)
    · rintro failure ⟨hinternal, hnone⟩
      refine ⟨hinternal, ?_⟩
      rintro ⟨-, l, hlayout, -⟩
      exact hnone (by rw [hlayout]; rfl)
    · rintro l s' ⟨hlayout, hs⟩
      refine ⟨⟨?_, fun hslots => ⟨Bool.eq_false_iff.mpr hpresent, l, hlayout, hslots⟩⟩, hs⟩
      rintro ⟨-, l', hlayout', hslots⟩
      cases hlayout.symm.trans hlayout'
      exact hslots

/-- Without several results, a declaration is refused, and not by a defect. -/
theorem runs_requireMultiValue {l : Layout} {what : String} (h : l.flatten.isOk) :
    Runs (fun failure => failure.isInternal = false) ctx s (requireMultiValue pos l what)
      (fun _ s' => s' = s) := by
  refine ((runs_ofLayout _).imp (fun _ hfailure => absurd h hfailure.2) (fun _ _ h => h)).bind ?_
  rintro kinds s' ⟨-, hs⟩
  refine Runs.bind (P := fun _ s'' => s'' = s') rfl ?_
  rintro enabled _ rfl
  exact .ite (fun _ => .throw rfl) (fun _ => .pure hs)

theorem runs_bind {name : String} {binding : Binding} :
    Runs (fun failure => failure.isInternal = false) ctx s (Lower.bind pos name binding)
      (fun _ s' => s'.table = s.table) :=
  .get (.ite (fun _ => .throw rfl) (fun _ => rfl))

end Lower

namespace Build

open Lower

variable {ctx : LowerContext} {decls imports trees : List Tree} {pos : Position} {name : String}
  {t : Ty} {table : TypeTable} {s : LowerState} {st : ModuleState}

theorem runs_paramLayouts {params : List Ty} :
    Runs (fun failure => failure.isInternal ∧ ¬ ∀ t ∈ params, t.HasSlots s.table) ctx s
      (paramLayouts params) (fun _ s' => (∀ t ∈ params, t.HasSlots s.table) ∧ s' = s) := by
  induction params with
  | nil => exact .pure ⟨(by rintro _ ⟨⟩), rfl⟩
  | cons t rest ih =>
    simp only [List.forall_mem_cons]
    refine (runs_layoutOf.imp (fun _ h => ⟨h.1, fun hall => h.2 hall.1⟩) (fun _ _ h => h)).bind ?_
    rintro l _ ⟨hslots, rfl⟩
    refine ((runs_ofLayout l.flatten).imp (fun _ h => ⟨h.1, fun hall => h.2 (hslots.mp hall.1)⟩)
      (fun _ _ h => h)).bind ?_
    rintro kinds _ ⟨hflat, rfl⟩
    refine (ih.imp (fun _ h => ⟨h.1, fun hall => h.2 hall.2⟩) (fun _ _ h => h)).bind ?_
    rintro more _ ⟨hrest, rfl⟩
    exact .pure ⟨⟨hslots.mpr (by rw [hflat]; rfl), hrest⟩, rfl⟩

/-- A signature is refused by a defect exactly if it has no slots. -/
theorem runs_signature :
    Runs (fun failure => failure.isInternal ↔ ¬ t.Callable s.table) ctx s (signature pos name t)
      (fun _ s' => t.Callable s.table ∧ s'.table = s.table) := by
  cases t with
  | function occurrence params result =>
    refine (runs_layoutOf.imp (fun _ h => iff_of_true h.1 (fun hall => h.2 hall.2)) (fun _ _ h => h)).bind ?_
    rintro l _ ⟨hslots, rfl⟩
    refine (runs_paramLayouts.imp
      (fun _ h => iff_of_true h.1 (fun hall => h.2 hall.1)) (fun _ _ h => h)).bind ?_
    rintro layouts _ ⟨hparams, rfl⟩
    refine ((runs_ofLayout l.flatten).imp
      (fun _ h => iff_of_true h.1 (fun hall => h.2 (hslots.mp hall.2))) (fun _ _ h => h)).bind ?_
    rintro kinds _ ⟨hflat, rfl⟩
    have hok : l.flatten.isOk := by rw [hflat]; rfl
    have hcallable : (Ty.function occurrence params result).Callable _ := ⟨hparams, hslots.mpr hok⟩
    refine ((runs_requireMultiValue hok).imp ?_ (fun _ _ h => h)).bind
      (fun _ _ hs => .pure ⟨hcallable, hs ▸ rfl⟩)
    exact fun _ hfailure => iff_of_false (by simp [hfailure]) (fun h => h hcallable)
  | _ => exact .throw (iff_of_true rfl id)

/-- What a step that introduces a function does, while the types are those of the table and a
condition on the module holds: it succeeds only with a signature that has slots, and fails by a defect
exactly if the signature has none. -/
def Introduces (table : TypeTable) (inv : Module → Prop) (step : Build Unit) (t : Ty) : Prop :=
  ∀ ctx st, st.lower.table = table → inv st.module →
    Runs (fun failure => failure.isInternal ↔ ¬ t.Callable table) ctx st step
      (fun _ st' => t.Callable table ∧ st'.lower.table = table ∧ inv st'.module)

theorem runs_lift {α : Type} {allowed : Failure → Prop} {lower : Lower α}
    {P : α → LowerState → Prop} (h : Runs allowed ctx st.lower lower P) :
    Runs allowed ctx st (lift lower) (fun a st' => P a st'.lower ∧ st'.module = st.module) := by
  rw [Runs, lift_run]
  rcases hrun : lower ctx st.lower with ⟨failure | a, s'⟩
  · exact h.of_error hrun
  · exact ⟨h.of_ok hrun, rfl⟩

/-- An import is added as long as no function is declared. -/
theorem exists_addImport {m : Module} (h : m.functions = []) {module : String} {ft : FuncType} :
    ∃ m' index, m.addImport module name ft = .ok (m', index) ∧ m'.functions = [] := by
  refine ⟨{ (m.intern ft).1 with imports := m.imports ++ [⟨module, name, (m.intern ft).2⟩] },
    m.imports.length, ?_, ?_⟩
  · rw [Module.addImport, Module.addImportWith, h]
    rfl
  · dsimp only
    rw [m.intern_frame, h]

/-- When the signature has slots, a function is introduced unless its name is in use. -/
theorem runs_bindFunction (inv : Module → Prop) {binding : Binding} (hcallable : t.Callable table)
    (htable : st.lower.table = table) (hinv : inv st.module) :
    Runs (fun failure => failure.isInternal ↔ ¬ t.Callable table) ctx st
      (lift (Lower.bind pos name binding))
      (fun _ st' => t.Callable table ∧ st'.lower.table = table ∧ inv st'.module) :=
  (runs_lift runs_bind).imp
    (fun _ hfailure => iff_of_false (by simp [hfailure]) (fun h => h hcallable))
    (fun _ _ h => ⟨hcallable, h.1.trans htable, h.2 ▸ hinv⟩)

/-- The type that an import is called with. -/
def importedType? : Tree → Option Ty
  | .importDecl _ _ _ _ t => some t
  | _ => none

/-- The type that a declared function is called with. -/
def declaredType? : Tree → Option Ty
  | .funcDecl info _ _ _ _ _ => some info.type
  | _ => none

theorem introduces_importFunction (tree : Tree) (t : Ty) (h : importedType? tree = some t) :
    Introduces table (fun m => m.functions = []) (importFunction tree) t := by
  cases tree with
  | importDecl info source field name type =>
    cases h
    rintro ctx st rfl hnone
    refine (runs_lift runs_signature).bind ?_
    rintro f st₁ ⟨⟨hcallable, htable⟩, hmodule⟩
    obtain ⟨m, index, hadd, hnone'⟩ := exists_addImport (hmodule ▸ hnone : st₁.module.functions = [])
    refine .get (Runs.bind (P := fun added st₂ => added = (m, index) ∧ st₂ = st₁) ?_ ?_)
    · rw [hadd]
      exact .pure ⟨rfl, rfl⟩
    · rintro _ _ ⟨rfl, rfl⟩
      refine .set (runs_bindFunction (fun m => m.functions = []) hcallable ?_ hnone')
      exact htable
  | _ => cases h

theorem introduces_declareFunction (tree : Tree) (t : Ty) (h : declaredType? tree = some t) :
    Introduces table (fun _ => True) (declareFunction tree) t := by
  cases tree with
  | funcDecl info name params body result exprBody =>
    cases h
    rintro ctx st rfl -
    refine (runs_lift runs_signature).bind ?_
    rintro f st₁ ⟨⟨hcallable, htable⟩, -⟩
    refine Runs.bind (P := fun _ (st₂ : ModuleState) => st₂.lower.table = st₁.lower.table) rfl
      (fun index st₂ htable₂ => ?_)
    exact runs_bindFunction (fun _ => True) hcallable (htable₂.trans htable) trivial
  | _ => cases h

/-- Functions are introduced one after the other. The first that cannot be introduced decides how the
run fails. -/
theorem runs_forM {inv : Module → Prop} {step : Tree → Build Unit} {type? : Tree → Option Ty}
    (hintroduces : ∀ tree t, type? tree = some t → Introduces table inv (step tree) t)
    (hskips : ∀ tree, type? tree = none → step tree = pure ()) (htable : st.lower.table = table)
    (hinv : inv st.module) :
    Runs (fun failure => ∃ before t after, trees.filterMap type? = before ++ t :: after ∧
        (∀ u ∈ before, u.Callable table) ∧ (failure.isInternal ↔ ¬ t.Callable table)) ctx st
      (trees.forM step) (fun _ st' => (∀ t ∈ trees.filterMap type?, t.Callable table) ∧
        st'.lower.table = table ∧ inv st'.module) := by
  induction trees generalizing st with
  | nil => exact .pure ⟨(by rintro _ ⟨⟩), htable, hinv⟩
  | cons tree rest ih =>
    cases htype : type? tree with
    | none =>
      rw [List.filterMap_cons_none htype]
      change Runs _ _ _ (step tree >>= fun _ => rest.forM step) _
      rw [hskips tree htype, pure_bind]
      exact ih htable hinv
    | some t =>
      rw [List.filterMap_cons_some htype]
      refine ((hintroduces tree t htype ctx st htable hinv).imp
        (fun _ hiff => ⟨[], t, _, rfl, (by rintro _ ⟨⟩), hiff⟩) (fun _ _ h => h)).bind ?_
      rintro _ st₁ ⟨hcallable, htable₁, hinv₁⟩
      refine (ih htable₁ hinv₁).imp ?_ (fun _ _ h => ⟨List.forall_mem_cons.mpr ⟨hcallable, h.1⟩, h.2⟩)
      rintro failure ⟨before, u, after, hsplit, hbefore, hiff⟩
      exact ⟨t :: before, u, after, by rw [hsplit, List.cons_append],
        List.forall_mem_cons.mpr ⟨hcallable, hbefore⟩, hiff⟩

/-- The phases that introduce the functions of a module. -/
def declarations (imports decls : List Tree) : Build Unit := do
  imports.forM importFunction
  decls.forM declareFunction

theorem runs_declarations (htable : st.lower.table = table) (hnone : st.module.functions = []) :
    Runs (fun failure => ∃ before t after,
        imports.filterMap importedType? ++ decls.filterMap declaredType? = before ++ t :: after ∧
        (∀ u ∈ before, u.Callable table) ∧ (failure.isInternal ↔ ¬ t.Callable table)) ctx st
      (declarations imports decls) (fun _ _ =>
        ∀ t ∈ imports.filterMap importedType? ++ decls.filterMap declaredType?, t.Callable table) := by
  refine ((runs_forM introduces_importFunction (by rintro ⟨⟩ ⟨⟩ <;> rfl) htable hnone).imp ?_
    (fun _ _ h => h)).bind ?_
  · rintro failure ⟨before, t, after, hsplit, hrest⟩
    exact ⟨before, t, _, by rw [hsplit, List.append_assoc, List.cons_append], hrest⟩
  · rintro _ st₁ ⟨himported, htable₁, -⟩
    refine (runs_forM introduces_declareFunction (by rintro ⟨⟩ ⟨⟩ <;> rfl) htable₁ trivial).imp ?_
      (fun _ _ h => List.forall_mem_append.mpr ⟨himported, h.1⟩)
    rintro failure ⟨before, t, after, hsplit, hbefore, hiff⟩
    exact ⟨_, t, after, by rw [hsplit, ← List.append_assoc],
      List.forall_mem_append.mpr ⟨himported, hbefore⟩, hiff⟩

/-- What happens after the declarations. -/
def definitions (info : TreeInfo) (decls : List Tree) (exports : List String) : Build Unit := do
  decls.forM (fun decl => lift (globalVariable decl))
  decls.forM defineFunction
  initRoutine info.pos
  memory info.pos
  exports.forM (exportName info.pos)

theorem moduleOf_eq {info : TreeInfo} {exports : List String} :
    moduleOf (.module info imports decls exports) =
      (do declarations imports decls; definitions info decls exports) := by
  simp only [moduleOf, declarations, definitions, bind_assoc]

end Build

namespace Program

/-- The types of all functions of a program, imports first. -/
def signatures (program : Program) : List Ty :=
  match program.root with
  | .module _ imports decls _ =>
    imports.filterMap Build.importedType? ++ decls.filterMap Build.declaredType?
  | _ => []

/-- The outcome of introducing the functions of a program. -/
def declare (settings : Settings) (program : Program) : Except Failure Unit :=
  match program.root with
  | .module _ imports decls _ =>
    (Build.declarations imports decls (program.context settings) program.start).1
  | _ => .ok ()

theorem callable_types (program : Program) (t : Ty) :
    t.Callable program.types ↔ t.Callable program.table := by
  cases t with
  | function occurrence params result => simp only [Ty.Callable, Ty.HasSlots, program.layout_types]
  | _ => rfl

/-- When the functions cannot be introduced, the program is refused for that. -/
theorem compile_of_declare {settings : Settings} {program : Program} {failure : Failure}
    (h : program.declare settings = .error failure) :
    (program.compile settings).1 = .error failure := by
  have hlower : (program.lower settings).1 = .error failure := by
    unfold declare at h
    unfold lower
    cases hroot : program.root with
    | module info imports decls exports =>
      rw [hroot] at h
      dsimp only at h
      rw [Build.moduleOf_eq]
      rw [Steps.bind_of_error (Prod.ext h rfl)]
    | _ =>
      rw [hroot] at h
      cases h
  rw [compile_fst, hlower]
  rfl

/-- A program is compiled only if every signature has slots. Where its functions cannot be introduced,
this is how it is refused; and the first function that cannot be introduced is refused by a defect of
the compiler exactly if its signature has no slots. -/
theorem compile_signatures (settings : Settings) (program : Program) :
    ((program.compile settings).1.isOk → ∀ t ∈ program.signatures, t.Callable program.table) ∧
    ∀ failure, program.declare settings = .error failure →
      (program.compile settings).1 = .error failure ∧
      ∃ before t after, program.signatures = before ++ t :: after ∧
        (∀ u ∈ before, u.Callable program.table) ∧
        (failure.isInternal ↔ ¬ t.Callable program.table) := by
  simp only [← program.callable_types]
  constructor
  · intro hok
    cases hcompiled : (program.compile settings).1 with
    | error failure =>
      rw [hcompiled] at hok
      cases hok
    | ok compiled =>
      obtain ⟨state, hlowered, -⟩ := lowered_of_compile hcompiled
      have hrun := lower_of_lowered hlowered
      unfold lower at hrun
      unfold signatures
      cases hroot : program.root with
      | module info imports decls exports =>
        rw [hroot, Build.moduleOf_eq] at hrun
        obtain ⟨_, st₁, hdeclared, -⟩ := Steps.bind_eq_ok hrun
        exact (Build.runs_declarations rfl rfl).of_ok hdeclared
      | _ => simp
  · intro failure hdeclare
    refine ⟨compile_of_declare hdeclare, ?_⟩
    unfold declare at hdeclare
    unfold signatures
    cases hroot : program.root with
    | module info imports decls exports =>
      rw [hroot] at hdeclare
      exact (Build.runs_declarations rfl rfl).of_error (Prod.ext hdeclare rfl)
    | _ =>
      rw [hroot] at hdeclare
      cases hdeclare

/-- A function that takes a function. -/
def higherOrder : String := "exports: [f]\ndecls:\n  - fun: f\n    params: \x7bx: 'fun()'\x7d\n    body: []\n"

/-- A function as a parameter passes the check, and is then refused by a defect of the compiler. -/
theorem compile_internal_higherOrder :
    ∃ program failure, accepted? higherOrder = some program ∧
      (program.compile .initial).1 = .error failure ∧ failure.isInternal := by
  have hfacts : (accepted? higherOrder).any (fun program =>
      match (program.compile .initial).1 with
      | .ok _ => false
      | .error failure => failure.isInternal) = true := by
    decide +kernel
  obtain ⟨program, hprogram, hfacts⟩ := (Option.any_eq_true _ _).mp hfacts
  cases hcompiled : (program.compile .initial).1 with
  | ok compiled =>
    rw [hcompiled] at hfacts
    cases hfacts
  | error failure =>
    rw [hcompiled] at hfacts
    exact ⟨program, failure, hprogram, hcompiled, hfacts⟩

end Program

end TreeWasm
