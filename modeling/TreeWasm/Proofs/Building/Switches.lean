import TreeWasm.Proofs.Building.Statements

/-! # Building switches

The bodies of a switch are built first, and what jumps to them is put around them. A table takes a
label for each case. A chain of comparisons reads the selector again and again, which is why it is one
that can be read without computing anything.
-/

namespace TreeWasm

open Wasm
open Node (demandAll demandAll_cons demand_seq demandAll_nil demand_block)

namespace Scene

open LowerState (Supplies Takes Keeps)

variable {names' : Chain TypedName} {hi lo : Int64} {xs : List Lowering} {cases : List SwitchCase}
  {fallback : Lowering} {pos : Position}

/-- The bodies of the cases of a switch. -/
inductive ProceedCases (scene : Scene) (check : CheckContext) (names : Chain TypedName) :
    List Resolution → List Lowering → Prop
  | nil : ProceedCases scene check names [] []
  | cons {uses uses' x rest} : scene.Proceeds check names uses names x.body →
      ProceedCases scene check names uses' rest → ProceedCases scene check names (uses ++ uses') (x :: rest)

/-- A statement was built from parts that were there, which ask for what is given. -/
structure Wraps (scene : Scene) (around : List Nat) (d : Demand) (s : LowerState) (n : Node)
    (s' : LowerState) : Prop where
  takes : ∃ e, s.Takes scene s' e ∧ n.demand.Within (d ++ e)
  formed : n.Formed scene around
  void : n.layout.isVoid

variable {scene : Scene} {check : CheckContext} {names : Chain TypedName}
  {uses uses' uses'' : List Resolution} {ctx : LowerContext} {s s' : LowerState}
  {n selector : Node} {around : List Nat} {exit : Nat}

/-! ## Chains of comparisons -/

/-- The condition that the selector is one of some values asks for no more than the selector. -/
theorem isOneOf_spec {values : List Int64} (hfree : selector.demand.Free)
    (hformed : selector.Formed scene around) :
    (Switch.isOneOf pos selector values).demand.Within selector.demand ∧
      (Switch.isOneOf pos selector values).Formed scene around := by
  have hequal (v : Int64) :
      let equal := Node.compare ⟨pos, .truth⟩ (.relation .eq) selector
        (.constant ⟨pos, selector.layout⟩ ⟨v, .zero⟩)
      equal.demand = selector.demand ∧ equal.Formed scene around := by
    have hconstant := Node.constant?_constant ⟨pos, selector.layout⟩ ⟨v, .zero⟩
    refine ⟨?_, .of_parts rfl ?_ rfl trivial⟩
    · rw [Node.demand_compare, Node.demand_of_constant? hconstant, Demand.append_none]
    · have hfaithful : (Node.constant ⟨pos, selector.layout⟩ ⟨v, .zero⟩).layout.isFaithful := by
        rw [Node.layout_constant]
        exact hformed.shaped.isFaithful
      simpa using ⟨hformed, .of_constant? hconstant hfaithful⟩
  have hrest (cond : Node) (hcond : cond.demand.Within selector.demand ∧ cond.Formed scene around) :
      let all := values.foldl (fun cond v =>
        let equal := Node.compare ⟨pos, .truth⟩ (.relation .eq) selector
          (.constant ⟨pos, selector.layout⟩ ⟨v, .zero⟩)
        if cond.isAbsent then equal
        else .ifElse ⟨pos, .truth⟩ cond (.int32 ⟨pos, .truth⟩ 1) equal) cond
      all.demand.Within selector.demand ∧ all.Formed scene around := by
    induction values generalizing cond with
    | nil => exact hcond
    | cons v rest ih =>
      obtain ⟨hwithin, hcformed⟩ := hcond
      obtain ⟨hdemand, heformed⟩ := hequal v
      rw [List.foldl_cons]
      split
      · exact ih _ ⟨hdemand ▸ .refl _, heformed⟩
      · refine ih _ ⟨?_, .of_parts rfl (.of_choice hcformed ?_ (fun _ => heformed)) rfl
          ⟨.refl _, .inr (.refl _)⟩⟩
        · rw [Node.demand_ifElse, Node.demand_int32, hdemand, Demand.none_append]
          exact (hwithin.append (.refl _)).trans hfree.twice
        · exact .of_constant? rfl rfl
  exact hrest .absent ⟨.none _, .intro nofun nofun, .intro rfl trivial nofun⟩

theorem formed_branch (info : Info) (hvoid : info.layout.isVoid) (hexit : exit ∈ around) :
    (Node.branch info exit).Formed scene around :=
  ⟨.intro (by simpa [Node.ownTargets] using hexit) nofun,
    .intro (Layout.isFaithful_of_isVoid hvoid) trivial nofun⟩

section

variable (hfree : selector.demand.Free) (hselected : s.Takes scene s selector.demand)
  (hselector : selector.Formed scene around)
  (hcases : ∀ c ∈ cases, c.body.Formed scene around ∧ c.body.layout.isVoid)
include hfree hselected hselector hcases

/-- The comparisons of a chain, each before the body of its case. -/
theorem does_tests (hexit : exit < s.labels.counts.length) (haround : exit ∈ around) :
    Lower.Does (cases.mapM (fun c => do
      let info : Info := ⟨c.pos, .unit⟩
      let leave ← Lower.branch info exit
      return Node.ifElse info (Switch.isOneOf c.pos selector c.values) (.seq info [c.body, leave]) .absent))
      ctx s [] (fun tests s' =>
        (∃ e, s.Takes scene s' e ∧
          (demandAll tests).Within (demandAll (cases.map SwitchCase.body) ++ e)) ∧
        ∀ n ∈ tests, n.Formed scene around ∧ n.layout.isVoid) := by
  induction cases generalizing s with
  | nil => exact .pure ⟨⟨.none, .none s, .refl _⟩, nofun⟩
  | cons c rest ih =>
    rw [List.forall_mem_cons] at hcases
    obtain ⟨⟨hbody, hvoid⟩, hrest⟩ := hcases
    obtain ⟨hcond, hcformed⟩ := isOneOf_spec hfree hselector
    rw [List.mapM_cons]
    refine .bind_nil (P := fun test s₁ => s.Takes scene s₁ (.branches [exit]) ∧
      test = .ifElse ⟨c.pos, .unit⟩ (Switch.isOneOf c.pos selector c.values)
        (.seq ⟨c.pos, .unit⟩ [c.body, .branch ⟨c.pos, .unit⟩ exit]) .absent) ?_ ?_
    · refine (Lower.does_branch scene hexit).bind_nil ?_
      rintro _ s₁ ⟨rfl, hleave⟩
      exact .pure ⟨hleave, rfl⟩
    · rintro _ s₁ ⟨hleave, rfl⟩
      have hselected₁ : s₁.Takes scene s₁ selector.demand :=
        .still hfree (fun need hneed => hleave.provides (hselected.provided need hneed))
      refine (ih hselected₁ hrest (Nat.lt_of_lt_of_le hexit hleave.grows.labels)).map ?_
      rintro tests s₂ ⟨⟨e, he, hwithin⟩, hformed⟩
      refine ⟨⟨_, (hselected.append hleave).append he, ?_⟩, List.forall_mem_cons.mpr ⟨⟨?_, rfl⟩, hformed⟩⟩
      · simp only [List.map_cons, demandAll_cons, Node.demand_ifElse, demand_seq,
          Node.demand_branch, demandAll_nil, Node.demand_absent, Demand.append_none]
        exact ((hcond.append (.refl _)).append hwithin).trans (by grind)
      · have hseq : (Node.seq ⟨c.pos, .unit⟩ [c.body, .branch ⟨c.pos, .unit⟩ exit]).Formed scene
            around := by
          refine .of_parts rfl ?_ rfl ⟨hvoid, .refl _⟩
          simp [hbody, formed_branch ⟨c.pos, .unit⟩ rfl haround]
        exact .of_parts rfl (.of_choice hcformed hseq nofun) rfl ⟨.refl _, .inl ⟨rfl, rfl⟩⟩

theorem does_chain {fallback : Node}
    (hfallback : fallback.Formed scene around ∧ fallback.layout.isVoid)
    (hexit : exit < s.labels.counts.length) (haround : exit ∈ around) :
    (Switch.chain pos selector cases fallback exit).Does ctx s []
      (scene.Wraps around (demandAll (cases.map SwitchCase.body) ++ fallback.demand) s) := by
  refine (does_tests hfree hselected hselector hcases hexit haround).map ?_
  rintro tests s' ⟨⟨e, he, hwithin⟩, hformed⟩
  refine ⟨⟨e, he, ?_⟩, .of_parts rfl ?_ rfl ?_, rfl⟩
  · rw [demand_seq, Node.demandAll_append, demandAll_cons, demandAll_nil, Demand.append_none]
    exact (hwithin.append (.refl _)).trans (by grind)
  · simp only [Node.children, List.forall_mem_append, List.forall_mem_singleton]
    exact ⟨fun n hn => (hformed n hn).1, hfallback.1⟩
  · change Layout.unit.Sequence (List.map Node.layout (tests ++ _))
    rw [List.map_append]
    exact sequence_of_void (fun n hn => (hformed n hn).2) (Layout.alike_of_isVoid hfallback.2 rfl)

end

/-! ## Tables -/

theorem does_freshLabels {α : Type} (scene : Scene) {items : List α} :
    Lower.Does (items.mapM (fun _ => Lower.freshLabel)) ctx s [] (fun labels s' =>
      s.Takes scene s' (.labels labels) ∧ labels.length = items.length) := by
  induction items generalizing s with
  | nil => exact .pure ⟨.none s, rfl⟩
  | cons item rest ih =>
    rw [List.mapM_cons]
    refine (Lower.does_freshLabel scene).bind_nil (fun label s₁ hlabel => ?_)
    refine ih.map ?_
    rintro labels s₂ ⟨hlabels, hlen⟩
    exact ⟨hlabel.append hlabels, congrArg Nat.succ hlen⟩

/-- Each case is put around what leads to the cases before it. -/
theorem does_nestCases {cases : List (SwitchCase × Nat)} {inner : Node}
    (hinner : inner.Formed scene (cases.map Prod.snd ++ around)) (hvoid : inner.layout.isVoid)
    (hcases : ∀ c ∈ cases, c.1.body.Formed scene around ∧ c.1.body.layout.isVoid)
    (hexit : exit < s.labels.counts.length) (haround : exit ∈ around) :
    (Switch.nestCases ⟨pos, .unit⟩ exit cases inner).Does ctx s []
      (scene.Wraps around (inner.demand ++ .labels (cases.map Prod.snd) ++
        demandAll (cases.map (fun c => c.1.body))) s) := by
  induction cases generalizing s inner with
  | nil =>
    refine .pure ⟨⟨.none, .none s, ?_⟩, hinner, hvoid⟩
    rw [Demand.append_assoc, Demand.append_assoc]
    exact Demand.within_append_left
  | cons entry rest ih =>
    obtain ⟨c, label⟩ := entry
    rw [List.forall_mem_cons] at hcases
    obtain ⟨⟨hbody, hbvoid⟩, hrest⟩ := hcases
    refine (Lower.does_branch scene hexit).bind_nil ?_
    rintro _ s₁ ⟨rfl, hleave⟩
    have hblock : (Node.block ⟨pos, .unit⟩ (some label) [inner]).Formed scene (rest.map Prod.snd ++ around) :=
      .of_label rfl rfl (by simpa using hinner) rfl (Layout.alike_of_isVoid hvoid rfl)
    have hwrapped : (Node.seq ⟨pos, .unit⟩ [.block ⟨pos, .unit⟩ (some label) [inner], c.body,
        .branch ⟨pos, .unit⟩ exit]).Formed scene (rest.map Prod.snd ++ around) := by
      refine .of_parts rfl ?_ rfl ⟨rfl, hbvoid, .refl _⟩
      have hbranch : (Node.branch ⟨pos, .unit⟩ exit).Formed scene (rest.map Prod.snd ++ around) :=
        formed_branch _ rfl (List.mem_append_right _ haround)
      simp [hblock, hbody.mono (List.subset_append_right _ _), hbranch]
    refine (ih hwrapped rfl hrest (Nat.lt_of_lt_of_le hexit hleave.grows.labels)).mono ?_
    rintro n s₂ ⟨⟨e, he, hwithin⟩, hn, hnvoid⟩
    refine ⟨⟨_, hleave.append he, hwithin.trans ?_⟩, hn, hnvoid⟩
    simp only [List.map_cons, demandAll_cons, demand_seq, demand_block,
      Node.demand_branch, demandAll_nil, Demand.append_none]
    grind

/-- The index into a table asks for what the selector does. -/
theorem tableIndex_spec (h : selector.Formed scene around) (hscalar : selector.layout.isScalar) :
    let index := if lo = 0 then Node.convert ⟨pos, .index⟩ selector
      else .binary ⟨pos, .index⟩ (.arith .sub) (.convert ⟨pos, .index⟩ selector)
        (.int32 ⟨pos, .index⟩ lo.toInt32)
    index.Formed scene around ∧ index.demand = selector.demand := by
  have hconvert : (Node.convert ⟨pos, .index⟩ selector).Formed scene around :=
    .of_parts rfl (by simpa using h) rfl (.inr ⟨hscalar, rfl⟩)
  have hlow : (Node.int32 ⟨pos, .index⟩ lo.toInt32).Formed scene around := .of_constant? rfl rfl
  split
  · exact ⟨hconvert, rfl⟩
  · refine ⟨.of_parts rfl (by simp [hconvert, hlow]) rfl ⟨.refl _, .refl _⟩, ?_⟩
    rw [Node.demand_binary, Node.demand_convert, Node.demand_int32, Demand.append_none]

/-- A table leads to the labels of cases, or to that of the fallback. -/
theorem mem_tableTargets {fallback target : Nat} {cases : List (List Int64 × Nat)}
    (h : target ∈ Switch.tableTargets lo hi fallback cases) :
    target = fallback ∨ target ∈ cases.map Prod.snd := by
  have hset (values : List Int64) (label : Nat) (targets : List Nat)
      (h : target ∈ values.foldl (fun targets v => targets.set (v - lo).toInt.toNat label) targets) :
      target = label ∨ target ∈ targets := by
    induction values generalizing targets with
    | nil => exact .inr h
    | cons v rest ih =>
      obtain h | h := ih _ h
      · exact .inl h
      · exact (List.mem_or_eq_of_mem_set h).symm
  have hcases (targets : List Nat)
      (h : target ∈ cases.foldl (fun targets entry =>
        entry.1.foldl (fun targets v => targets.set (v - lo).toInt.toNat entry.2) targets) targets) :
      target ∈ targets ∨ target ∈ cases.map Prod.snd := by
    clear * - hset h
    induction cases generalizing targets with
    | nil => exact .inl h
    | cons entry rest ih =>
      obtain h | h := ih _ h
      · obtain rfl | h := hset _ _ _ h
        · exact .inr (.head _)
        · exact .inl h
      · exact .inr (.tail _ h)
  obtain h | h := hcases _ h
  · exact .inl (List.eq_of_mem_replicate h)
  · exact .inr h

theorem does_table {fallback : Node} (hselector : selector.Formed scene around)
    (hscalar : selector.layout.isScalar)
    (hcases : ∀ c ∈ cases, c.body.Formed scene around ∧ c.body.layout.isVoid)
    (hfallback : fallback.Formed scene around ∧ fallback.layout.isVoid)
    (hexit : exit < s.labels.counts.length) (haround : exit ∈ around) :
    (Switch.table pos selector lo hi cases fallback exit).Does ctx s []
      (scene.Wraps around (selector.demand ++
        (demandAll (cases.map SwitchCase.body) ++ fallback.demand)) s) := by
  refine (does_freshLabels scene).bind_nil ?_
  rintro labels s₁ ⟨hlabels, hlen⟩
  refine (Lower.does_freshLabel scene).bind_nil (fun last s₂ hlast => ?_)
  have htaken := hlabels.append hlast
  have hzip : (cases.zip labels).map Prod.snd = labels := List.map_snd_zip (Nat.le_of_eq hlen)
  have hbodies : (cases.zip labels).map (fun c => c.1.body) = cases.map SwitchCase.body := by
    conv_rhs => rw [← List.map_fst_zip (Nat.le_of_eq hlen.symm), List.map_map]
    rfl
  have hlabel (l : Nat) (hl : l ∈ labels ++ [last]) : l < s₂.labels.counts.length :=
    (htaken.fresh l (by simpa [Demand.labels, Demand.label] using hl)).2
  have htarget (l : Nat) (hl : l ∈ Switch.tableTargets lo hi last
      ((cases.map SwitchCase.values).zip labels) ++ [last]) : l ∈ labels ++ [last] := by
    rw [List.mem_append, List.mem_singleton] at hl
    obtain hl | rfl := hl
    · obtain rfl | hl := mem_tableTargets hl
      · simp
      · rw [List.map_snd_zip (by simp [hlen])] at hl
        exact List.mem_append_left _ hl
    · simp
  refine (Lower.does_branchTable scene (fun l hl => hlabel l (htarget l hl))).bind_nil ?_
  rintro _ s₃ ⟨rfl, hjump⟩
  have hexit₃ := Nat.lt_of_lt_of_le hexit (htaken.append hjump).grows.labels
  have hinside : around ⊆ last :: around := List.subset_cons_self _ _
  obtain ⟨hindex, hdemand⟩ := tableIndex_spec hselector hscalar
  generalize (if lo = 0 then _ else _ : Node) = index at hindex hdemand ⊢
  have hformed : (Node.branchTable ⟨pos, .unit⟩ index (Switch.tableTargets lo hi last
      ((cases.map SwitchCase.values).zip labels)) last).Formed scene
      ((cases.zip labels).map Prod.snd ++ last :: around) := by
    rw [hzip, List.append_cons]
    refine ⟨.intro (fun l hl => List.mem_append_left _ (htarget l hl)) ?_, .intro rfl trivial ?_⟩
    · have henclosed := hindex.enclosed.mono (List.subset_append_right (labels ++ [last]) around)
      exact List.forall_mem_singleton.mpr henclosed
    · simpa using hindex.shaped
  refine (does_nestCases hformed rfl (fun c hc => ?_) hexit₃ (hinside haround)).map ?_
  · obtain ⟨hbody, hvoid⟩ := hcases c.1 (List.of_mem_zip hc).1
    exact ⟨hbody.mono hinside, hvoid⟩
  · rintro nested s₄ ⟨⟨e, he, hwithin⟩, hnested, hvoid⟩
    have hblock : (Node.block ⟨pos, .unit⟩ (some last) [nested]).Formed scene around :=
      .of_label rfl rfl (by simpa using hnested) rfl (Layout.alike_of_isVoid hvoid rfl)
    refine ⟨⟨_, (htaken.append hjump).append he, ?_⟩, .of_parts rfl ?_ rfl ?_, rfl⟩
    · rw [hzip, hbodies, Node.demand_branchTable, hdemand] at hwithin
      simp only [demandAll_cons, demand_seq, demand_block, demandAll_nil,
        Demand.append_none]
      exact (((Demand.Within.refl _).append hwithin).append (.refl _)).trans (by grind)
    · simp [hblock, hfallback.1]
    · exact ⟨rfl, Layout.alike_of_isVoid hfallback.2 rfl⟩

/-! ## The switch -/

theorem ProceedCases.does_mapM (h : scene.ProceedCases check names uses xs)
    (hgoes : scene.Goes check names ctx s) :
    Lower.Does (xs.mapM (fun c => do
      return (⟨c.node.pos, Switch.caseValues c.node, ← c.body⟩ : SwitchCase))) ctx s uses
      (fun cases s' => scene.MakesAll ctx s (cases.map SwitchCase.body) s' ∧
        scene.Goes check names ctx s') := by
  induction h generalizing s with
  | nil => exact .pure ⟨.nil s, hgoes⟩
  | cons hx _ ih =>
    rw [List.mapM_cons]
    refine .bind (P := fun c s₁ => scene.Makes ctx s c.body s₁ ∧ scene.Goes check names ctx s₁)
      ((hx hgoes).map (fun _ _ h => h)) ?_
    rintro c s₁ ⟨hmakes, hgoes₁⟩
    refine (ih hgoes₁).map ?_
    rintro cases s₂ ⟨hall, hgoes₂⟩
    exact ⟨.cons hmakes hall, hgoes₂⟩

/-- The bodies of a switch and what is done otherwise. -/
def bodies (pos : Position) (xs : List Lowering) (fallback : Lowering) : Lower (List SwitchCase × Node) := do
  let bodies ← xs.mapM (fun c => do
    return (⟨c.node.pos, Switch.caseValues c.node, ← c.body⟩ : SwitchCase))
  let otherwise ← if fallback.node.isMissing then pure (.nop ⟨pos, .unit⟩) else fallback.statement
  return (bodies, otherwise)

section

variable (hframes : ∀ x ∈ xs, x.AllComposed False) (hframe : fallback.AllComposed False)
  (hcases : scene.ProceedCases { check with inBreakable := true } names uses xs)
  (hfallback : (fallback.node.isMissing ∧ uses' = []) ∨ (fallback.node.isMissing = false ∧
    scene.Proceeds { check with inBreakable := true } names uses' names' fallback.statement))
  (hgoes : scene.Goes check names ctx s)
include hframes hframe hcases hfallback hgoes

/-- The bodies are in a level of their own and have the label to leave the switch. -/
theorem does_bodies (hexit : exit < s.labels.counts.length) :
    Lower.Does (withReader (fun ctx => { ctx with breakTo := some exit })
      (Lower.inLevel (bodies pos xs fallback))) ctx s (uses ++ uses') (fun (bodies, otherwise) s' =>
        s.Takes scene s' (demandAll (bodies.map SwitchCase.body) ++ otherwise.demand) ∧
        (∀ c ∈ bodies, c.body.Formed scene (exit :: ctx.around) ∧ c.body.layout.isVoid) ∧
          otherwise.Formed scene (exit :: ctx.around) ∧ otherwise.layout.isVoid) := by
  refine .withReader ?_
  have hinside : scene.Goes { check with inBreakable := true } names { ctx with breakTo := some exit } s :=
    { toFollows := hgoes.toFollows
      admits := { hgoes.admits with breakTo := fun _ h => Option.some.inj h ▸ hexit }
      breaks := fun _ => rfl
      continues := hgoes.continues
      returns := hgoes.returns }
  have haround : LowerContext.around { ctx with breakTo := some exit } ⊆ exit :: ctx.around := by
    simp [LowerContext.around]
  have hkeeps : Steps Keeps (bodies pos xs fallback) := by
    refine .bind (.mapM xs (fun x hx => (hframes x hx).body.keeps.bind (fun _ => .pure))) (fun _ => ?_)
    exact .ite .pure (hframe.statement.keeps.bind (fun _ => .pure))
  refine hinside.does_inLevel
    (fun made => demandAll (made.1.map SwitchCase.body) ++ made.2.demand) hkeeps
    (fun s₀ hgoes₀ _ => ?_)
  refine (hcases.does_mapM hgoes₀).bind ?_
  rintro bodies s₁ ⟨hall, hgoes₁⟩
  have hbodies : ∀ c ∈ bodies, c.body.Formed scene (exit :: ctx.around) ∧ c.body.layout.isVoid := by
    intro c hc
    have hmem := List.mem_map_of_mem (f := SwitchCase.body) hc
    exact ⟨(hall.formed _ hmem).mono haround, hall.void _ hmem⟩
  obtain ⟨hmissing, rfl⟩ | ⟨hmissing, hproceeds⟩ := hfallback
  · rw [if_pos hmissing]
    refine .pure ⟨?_, hbodies, .of_parts rfl (by rintro _ ⟨⟩) rfl rfl, rfl⟩
    simpa using hall.toSupplies
  · rw [if_neg (by simp [hmissing])]
    refine (hproceeds hgoes₁).map ?_
    rintro otherwise s₂ ⟨hmakes, -⟩
    exact ⟨hall.toSupplies.append hmakes.toSupplies, hbodies, hmakes.formed.mono haround, hmakes.void⟩

/-- What is left of a switch when its selector is at hand. Comparisons read the selector more than
once, a table reads it once. -/
theorem does_cases {dense : Option (Int64 × Int64)} {prelude : List Node} {d : Demand}
    {s₁ : LowerState} (htakes : s.Takes scene s₁ d)
    (hprelude : ∀ n ∈ prelude, n.Formed scene ctx.around ∧ n.layout.isVoid)
    (hselector : selector.Formed scene ctx.around) (hscalar : selector.layout.isScalar)
    (htable : dense.isSome → (demandAll prelude ++ selector.demand).Within d)
    (hchain : dense = none → (demandAll prelude).Within d ∧ selector.demand.Free ∧ selector.needs ⊆ d.needs) :
    Lower.Does (do
      let exit ← Lower.freshLabel
      let (bodies, otherwise) ← withReader (fun ctx => { ctx with breakTo := some exit })
        (Lower.inLevel (bodies pos xs fallback))
      let inner ← match dense with
        | some (lo, hi) => Switch.table pos selector lo hi bodies otherwise exit
        | none => Switch.chain pos selector bodies otherwise exit
      return .seq ⟨pos, .unit⟩ (prelude ++ [.block ⟨pos, .unit⟩ (some exit) [inner]]))
      ctx s₁ (uses ++ uses') (fun n s' => scene.Makes ctx s n s' ∧ s'.names = s.names) := by
  refine (Lower.does_freshLabel scene).bind_nil (fun exit s₂ hlabel => ?_)
  have hexit : exit < s₂.labels.counts.length := (hlabel.fresh exit (.head _)).2
  have htakes₂ := htakes.append hlabel
  refine (does_bodies hframes hframe hcases hfallback (hgoes.of_takes htakes₂) hexit).bind_last ?_
  rintro ⟨bodies, otherwise⟩ s₃ ⟨hb, hbodies, hotherwise⟩
  have htakes₃ := htakes₂.append hb
  have hexit₃ := Nat.lt_of_lt_of_le hexit hb.grows.labels
  have hsub : ctx.around ⊆ exit :: ctx.around := List.subset_cons_self _ _
  -- What a switch asks for is what was taken for its selector and bodies, and for its jumps.
  have hfinish {inner : Node} {s₄ : LowerState} {e f : Demand} (he : s₃.Takes scene s₄ e)
      (hinner : inner.demand.Within (f ++ (demandAll (bodies.map SwitchCase.body) ++
        otherwise.demand) ++ e)) (hd : (demandAll prelude ++ f).Within d)
      (hformed : inner.Formed scene (exit :: ctx.around)) (hvoid : inner.layout.isVoid) :
      scene.Makes ctx s (.seq ⟨pos, .unit⟩ (prelude ++ [.block ⟨pos, .unit⟩ (some exit) [inner]])) s₄ ∧
        s₄.names = s.names := by
    have hall := htakes₃.append he
    have hblock : (Node.block ⟨pos, .unit⟩ (some exit) [inner]).Formed scene ctx.around :=
      .of_label rfl rfl (by simpa using hformed) rfl (Layout.alike_of_isVoid hvoid rfl)
    refine ⟨⟨hall.toSupplies.within ?_, formed_seq hprelude hblock (.refl _), rfl⟩, hall.names⟩
    simp only [demand_seq, Node.demandAll_append, demandAll_cons, demandAll_nil,
      demand_block, Demand.append_none]
    simp only [Demand.append_assoc] at hinner ⊢
    refine ((Demand.Within.refl _).append (((Demand.Within.refl _).append hinner).trans
      Demand.within_left_comm)).trans ?_
    rw [← Demand.append_assoc]
    exact hd.append (.refl _)
  cases dense with
  | none =>
    obtain ⟨hd, hfree, hneeds⟩ := hchain rfl
    have hselected : s₃.Takes scene s₃ selector.demand :=
      .still hfree (fun need hneed => htakes₃.provided need (by simp [hneeds hneed]))
    refine (does_chain hfree hselected (hselector.mono hsub) hbodies hotherwise hexit₃ (.head _)).map ?_
    rintro inner s₄ ⟨⟨e, he, hwithin⟩, hformed, hvoid⟩
    exact hfinish (f := .none) he hwithin (by simpa using hd) hformed hvoid
  | some range =>
    refine (does_table (hselector.mono hsub) hscalar hbodies hotherwise hexit₃ (.head _)).map ?_
    rintro inner s₄ ⟨⟨e, he, hwithin⟩, hformed, hvoid⟩
    exact hfinish he hwithin (htable rfl) hformed hvoid

end

theorem stays_switch {info : TreeInfo} {selector : Lowering} {cases : List Lowering}
    (hframes : ∀ x ∈ cases, x.AllComposed False) (hframe : fallback.AllComposed False)
    (hselector : scene.Evaluates check names uses selector)
    (hinteger : selector.node.type.isInteger)
    (hcases : scene.ProceedCases { check with inBreakable := true } names uses' cases)
    (hfallback : (fallback.node.isMissing ∧ uses'' = []) ∨ (fallback.node.isMissing = false ∧
      scene.Proceeds { check with inBreakable := true } names uses'' names' fallback.statement)) :
    scene.Stays check names (uses ++ uses' ++ uses'') (Switch.lower info selector cases fallback) := by
  intro ctx s hgoes
  rw [List.append_assoc]
  refine (hselector hgoes).bind (fun sel s₁ hsel => ?_)
  obtain ⟨kind, hkind, -⟩ := Ty.isInteger_iff.mp hinteger
  have hscalar : sel.layout.isScalar := by
    rw [Layout.isScalar, hsel.scalar?_eq, hkind]
    rfl
  dsimp only
  generalize (if sel.layout.slot = .i32 then
    Switch.dense? (cases.flatMap (fun c => Switch.caseValues c.node)) else none) = dense
  split
  next hread =>
    rw [Bool.and_eq_true, Option.isNone_iff_eq_none] at hread
    obtain ⟨hnone, -⟩ := hread
    refine (Lower.does_temporary scene).bind_nil ?_
    rintro _ s₂ ⟨htemporary, slots, rfl⟩
    have hslots : (Node.locals ⟨selector.node.pos, sel.layout⟩ slots).Formed scene ctx.around :=
      .of_parts rfl (by rintro _ ⟨⟩) hsel.isFaithful trivial
    have hassign : (Node.assign ⟨info.pos, .unit⟩ (.locals ⟨selector.node.pos, sel.layout⟩ slots)
        sel).Formed scene ctx.around :=
      .of_parts rfl (by simp [hslots, hsel.formed]) rfl trivial
    refine does_cases hframes hframe hcases hfallback hgoes (hsel.toTakes.append htemporary)
      (List.forall_mem_singleton.mpr ⟨hassign, rfl⟩) hslots hscalar ?_
      (fun _ => ⟨?_, ⟨rfl, rfl⟩, ?_⟩)
    · simp [hnone]
    · simpa using Demand.within_comm _ _
    · exact List.subset_append_right _ _
  next hread =>
    refine does_cases hframes hframe hcases hfallback hgoes hsel.toTakes (by rintro _ ⟨⟩) hsel.formed hscalar
      (fun _ => .refl _) (fun hnone => ⟨.none _, ?_, List.Subset.refl _⟩)
    -- A chain reads a selector that is at hand.
    have hstable : Switch.isStable sel := by simpa [hnone] using hread
    cases sel with
    | const32 | locals => exact ⟨rfl, rfl⟩
    | _ => cases hstable

end Scene

end TreeWasm
