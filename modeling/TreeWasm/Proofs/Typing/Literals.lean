import Mathlib.Data.List.Perm.Basic
import TreeWasm.Proofs.Typing.Checked
import TreeWasm.Proofs.Typing.Layouts

/-! # Literals of structs

A literal of a struct gives each field of its type once, in any order. The check brings the values into
the order of the fields and leaves none out.
-/

namespace TreeWasm

namespace Typing

variable {type : Ty} {types : List Ty} {pos : Position} {context : CheckContext} {st st' : CheckState}
  {entries seen written : List (String × Checker)} {args : List Checker} {trees : List Tree}
  {bindings : List (String × Ty)}

theorem fieldValues_eq (hnames : written.map Prod.fst = bindings.map Prod.fst)
    (hseen : ∀ entry ∈ written, seen.lookup entry.1 = some entry.2) :
    fieldValues pos type seen bindings = arguments (bindings.map Prod.snd) (written.map Prod.snd) := by
  induction bindings generalizing written with
  | nil =>
    obtain rfl := List.map_eq_nil_iff.mp hnames
    rfl
  | cons binding bindings ih =>
    obtain ⟨entry, written, rfl, hname, hnames⟩ := List.map_eq_cons_iff.mp hnames
    rw [List.forall_mem_cons] at hseen
    have hfound : seen.lookup binding.1 = some entry.2 := hname ▸ hseen.1
    rw [fieldValues, hfound, List.map_cons, List.map_cons, arguments, ih hnames hseen.2]

theorem mem_of_fieldValues (h : fieldValues pos type seen bindings context st = .ok (trees, st')) :
    ∀ name ∈ bindings.map Prod.fst, name ∈ seen.map Prod.fst := by
  induction bindings generalizing st st' trees with
  | nil => nofun
  | cons binding bindings ih =>
    obtain ⟨name, t⟩ := binding
    rw [fieldValues] at h
    cases hvalue : seen.lookup name with
    | none =>
      rw [hvalue] at h
      cases h
    | some value =>
      rw [hvalue] at h
      obtain ⟨⟨tree, st₁⟩, -, h⟩ := Except.exists_of_bind h
      obtain ⟨⟨rest, st₂⟩, hrest, -⟩ := Except.exists_of_bind h
      rw [List.map_cons, List.forall_mem_cons]
      exact ⟨List.mem_map_of_mem (Level.mem_of_lookup hvalue), ih hrest⟩

theorem takes_of_arguments (h : arguments types args context st = .ok (trees, st'))
    (hlen : args.length = types.length) :
    List.Forall₂ (fun t tree => Ty.takes t tree.type) types trees := by
  induction types generalizing args st st' trees with
  | nil =>
    cases h
    exact .nil
  | cons t types ih =>
    match args, hlen with
    | arg :: args, hlen =>
      obtain ⟨⟨tree, st₁⟩, hfirst, h⟩ := Except.exists_of_bind h
      obtain ⟨⟨rest, st₂⟩, hrest, ⟨⟩⟩ := Except.exists_of_bind h
      obtain ⟨⟨found, st₃⟩, -, h⟩ := Except.exists_of_bind hfirst
      obtain ⟨⟨⟨⟩, st₄⟩, hexpect, ⟨⟩⟩ := Except.exists_of_bind h
      exact .cons (tests_expect _ _ _ hexpect).2 (ih hrest (Nat.succ.inj hlen))

variable {info : TreeInfo} {names : List String} {values : List Checker} {aggregate : Aggregate} {tree : Tree}

/-- The layout is that of a struct, and each field has the name and the layout of a value, one by one. -/
def Matches (table : TypeTable) (names : List String) (values : List Tree) (l : Layout) : Prop :=
  ∃ tag size fields, l = .struct tag false size fields ∧ fields.map Field.name = names ∧
    List.Forall₂ (fun value field => ∀ m, table.layout value.type = .ok m → m.Similar field.layout)
      values fields

theorem matches_layout {table : TypeTable} {l : Layout} (haggregate : table.aggregate? type = some aggregate)
    (hstruct : aggregate.union = false) (hl : table.layout type = .ok l)
    (htakes : List.Forall₂ (fun t tree => Ty.takes t tree.type) (aggregate.fields.bindings.map Prod.snd) trees) :
    Matches table aggregate.fields.names trees l := by
  rw [← TypeTable.layout_unwrap] at hl
  unfold TypeTable.aggregate? at haggregate
  split at haggregate
  next id hid =>
    rw [hid] at hl
    obtain ⟨a, tag, size, fields, ha, rfl, hbuilds, -⟩ := TypeTable.layout_aggregate hl
    cases haggregate.symm.trans ha
    refine ⟨tag, size, fields, by rw [hstruct], ?_, ?_⟩
    · rw [Level.names, map_eq_map_iff_forall₂]
      exact hbuilds.flip.imp (fun _ _ h => h.1)
    · rw [List.forall₂_map_left_iff] at htakes
      refine forall₂_trans (fun value binding field htake hbuild m hm => ?_) htakes.flip hbuilds
      rw [← TypeTable.layout_unwrap] at hm
      exact (TypeTable.similar_layout htake (TypeTable.layout_unwrap.trans hbuild.2) hm).symm
  · cases haggregate

theorem isSome_field?_iff (haggregate : st.table.aggregate? type = some aggregate) (name : String) :
    (st.table.field? type name).isSome ↔ name ∈ aggregate.fields.names := by
  rw [TypeTable.field?, haggregate]
  exact List.lookup_isSome_iff.trans (by simp [Level.names])

theorem structLit_eq (haggregate : st.table.aggregate? type = some aggregate)
    (hstruct : aggregate.union = false) :
    Typing.structLit info names values type context st = (do
      let seen ← writtenFields type (names.zip values) []
      let trees ← fieldValues info.pos type seen aggregate.fields.bindings
      return .structLit { info with type := type } aggregate.fields.names trees : Check Tree)
        context st := by
  rw [Typing.structLit, run_get_bind]
  simp only [haggregate, hstruct, Bool.false_eq_true, if_false]

/-- A literal is accepted for a struct exactly if its names are those of the fields, and the values,
brought into the order of the fields, have the types of the fields. -/
theorem structLit_eq_ok_iff (hlength : names.length = values.length)
    (haggregate : st.table.aggregate? type = some aggregate) (hstruct : aggregate.union = false)
    (hnodup : aggregate.fields.names.Nodup) :
    Typing.structLit info names values type context st = .ok (tree, st') ↔
      names.Perm aggregate.fields.names ∧ ∃ (written : List (String × Checker)) (trees : List Tree),
        written.Perm (names.zip values) ∧ written.map Prod.fst = aggregate.fields.names ∧
        arguments (aggregate.fields.bindings.map Prod.snd) (written.map Prod.snd) context st =
          .ok (trees, st') ∧
        tree = .structLit { info with type := type } aggregate.fields.names trees ∧
        ∀ l, st.table.layout type = .ok l → Matches st.table aggregate.fields.names trees l := by
  have hzip : (names.zip values).map Prod.fst = names := List.map_fst_zip (Nat.le_of_eq hlength)
  -- Values in the order of the fields are found by the names of the fields.
  have hvalues {written : List (String × Checker)} (hwritten : written.Perm (names.zip values))
      (hfields : written.map Prod.fst = aggregate.fields.names) :
      fieldValues info.pos type ((names.zip values).reverse ++ []) aggregate.fields.bindings =
        arguments (aggregate.fields.bindings.map Prod.snd) (written.map Prod.snd) := by
    have hperm : ((names.zip values).reverse ++ []).Perm written := by
      rw [List.append_nil]
      exact (List.reverse_perm _).trans hwritten.symm
    refine fieldValues_eq hfields (fun entry hentry => Level.lookup_of_mem ?_ (hperm.mem_iff.mpr hentry))
    rwa [(hperm.map _).nodup_iff, hfields]
  rw [structLit_eq haggregate hstruct]
  constructor
  · intro h
    obtain ⟨⟨seen, st₁⟩, hseen, h⟩ := Except.exists_of_bind h
    obtain ⟨⟨trees, st₂⟩, htrees, ⟨⟩⟩ := Except.exists_of_bind h
    obtain ⟨hentries, hnames, -, rfl, rfl⟩ := writtenFields_eq_ok_iff.mp hseen
    have hperm : aggregate.fields.names.Perm ((names.zip values).map Prod.fst) := by
      refine (List.perm_ext_iff_of_nodup hnodup hnames).mpr (fun name => ⟨fun hname => ?_, fun hname => ?_⟩)
      · simpa using mem_of_fieldValues htrees name hname
      · obtain ⟨entry, hentry, rfl⟩ := List.mem_map.mp hname
        exact (isSome_field?_iff haggregate _).mp (hentries entry hentry)
    obtain ⟨written, hfields, hwritten⟩ := (congrFun₂ (List.eq_map_comp_perm Prod.fst) _ _).mpr hperm
    rw [hvalues hwritten hfields.symm] at htrees
    refine ⟨hzip ▸ hperm.symm, written, trees, hwritten, hfields.symm, htrees, rfl, fun l hl => ?_⟩
    refine matches_layout haggregate hstruct hl (takes_of_arguments htrees ?_)
    simpa [Level.names] using congrArg List.length hfields.symm
  · rintro ⟨hperm, written, trees, hwritten, hfields, htrees, rfl, -⟩
    have hseen : writtenFields type (names.zip values) [] context st =
        .ok ((names.zip values).reverse ++ [], st) := by
      refine writtenFields_eq_ok_iff.mpr ⟨fun entry hentry => ?_, ?_, fun _ _ => rfl, rfl, rfl⟩
      · rw [isSome_field?_iff haggregate, ← hperm.mem_iff]
        exact (List.of_mem_zip hentry).1
      · rwa [hzip, hperm.nodup_iff]
    rw [← hvalues hwritten hfields] at htrees
    simp only [bind, ReaderT.bind, StateT.bind, Except.bind, hseen, htrees]
    rfl

theorem structLit_eq_ok_swapped :
    let pair : Aggregate := ⟨"pair", false, ⟨[("left", .i32), ("right", .bool)]⟩⟩
    let number : Tree := .number ⟨.unset, .absent⟩ 1
    let truth : Tree := .bool ⟨.unset, .absent⟩ true
    Typing.structLit ⟨.unset, .absent⟩ ["right", "left"] (Tree.checkers [truth, number]) (.aggregate 0)
        {} ⟨⟨#[pair], 0⟩, [], []⟩ =
      .ok (.structLit ⟨.unset, .aggregate 0⟩ ["left", "right"]
        [.number ⟨.unset, .i32⟩ 1, .bool ⟨.unset, .bool⟩ true], ⟨⟨#[pair], 0⟩, [], []⟩) ∧
      ["right", "left"].Perm pair.fields.names := by
  intro pair number truth
  refine ⟨?hrun, ((structLit_eq_ok_iff rfl rfl rfl (by decide)).mp ?hrun).1⟩
  rfl

end Typing

end TreeWasm
