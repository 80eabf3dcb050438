import TreeWasm.Proofs.Building.Trees
import TreeWasm.Proofs.Lowering.Growth
import TreeWasm.Proofs.Lowering.Slots

/-! # Building functions

The parameters of a function take the first slots of its pool one after the other, and the signature
gives these slots the types that the parameters are kept in. The body is lowered with the parameters in
sight, in a level of its own.
-/

namespace TreeWasm

open Wasm

variable {slot : Nat} {params : List Tree} {layouts : List Layout} {typed : Prop} {body : Tree}
  {exprBody : Bool}

namespace Build

open Lower (Orderly does_bind does_ofLayout)
open LowerState (Settles Supplies Takes)
open Tree (Defines IsFunction)

variable {scene : Scene} {names inner : Chain TypedName} {uses : List Resolution}
  {ctx : LowerContext} {s : LowerState} {f : LoweredFunction}

/-- Parameters are bound to slots that follow one another. -/
theorem does_bindParams
    (hlayouts : List.Forall₂ (fun p l => scene.types.layout p.type = .ok l) params layouts)
    (hok : ∀ l ∈ layouts, l.leaves.isOk)
    (hkinds : ∀ i kind, (layouts.flatMap Layout.slots)[i]? = some kind → s.pool.kind? (slot + i) = some kind)
    (hnames : Defines names (params.filterMap Tree.declared?) inner) (hfollows : scene.Follows names s) :
    (bindParams params layouts slot).Does ctx s [] (fun _ s' =>
      scene.Follows inner s' ∧ ∃ chain, s' = { s with names := chain }) := by
  induction hlayouts generalizing names slot s with
  | nil =>
    cases hnames
    exact .pure ⟨hfollows, s.names, rfl⟩
  | @cons p l params layouts hl _ ih =>
    rw [List.forall_mem_cons] at hok
    rw [bindParams]
    refine .bind_nil does_ofLayout ?_
    rintro kinds s' ⟨hflatten, rfl⟩
    obtain ⟨hleaves, rfl⟩ := Layout.slots_of_flatten hflatten
    -- the other parameters come after the slots of the first
    have hrest (i : Nat) (kind : ValType) (hi : (layouts.flatMap Layout.slots)[i]? = some kind) :
        s'.pool.kind? (slot + l.slots.length + i) = some kind := by
      rw [Nat.add_assoc]
      refine hkinds _ _ ?_
      rwa [List.flatMap_cons, List.getElem?_append_right (Nat.le_add_right _ _), Nat.add_sub_cancel_left]
    cases p with
    | varDecl info name declared init =>
      cases hnames with
      | cons hfresh hnames =>
        have hheld : ((List.range l.slots.length).map (slot + ·)).map s'.pool.kind? = l.slots.map some := by
          refine List.ext_getElem (by simp) (fun i hi hi' => ?_)
          rw [List.length_map] at hi'
          simp only [List.getElem_map, List.getElem_range]
          refine hkinds i _ ?_
          rw [List.flatMap_cons, List.getElem?_append_left hi', List.getElem?_eq_getElem hi']
        have hhouses : scene.Houses s' info.type
            (.locals ⟨info.pos, l⟩ ((List.range l.slots.length).map (slot + ·))) := by
          refine ⟨hl, rfl, ⟨rfl, rfl⟩, fun need hneed => ?_, ?_⟩
          · obtain rfl := List.mem_singleton.mp hneed
            exact ⟨hleaves, hheld⟩
          · exact .intro (TypeTable.isFaithful_layout hl) trivial (by rintro _ ⟨⟩)
        refine .bind_nil (does_bind (hfollows.unbound name hfresh)) ?_
        rintro _ _ rfl
        have hmeans : scene.Means s' ⟨info.type, false, info.pos⟩ (.parameter
            (.locals ⟨info.pos, l⟩ ((List.range l.slots.length).map (slot + ·)))) :=
          ⟨rfl, rfl, hhouses⟩
        refine (ih hok.2 ?_ hnames (hfollows.define name hmeans)).mono ?_
        · exact hrest
        · rintro _ _ ⟨hinner, chain, rfl⟩
          exact ⟨hinner, chain, rfl⟩
    | _ => exact ih hok.2 hrest hnames hfollows

/-! ## The slots of a function -/

/-- Parameters get slots of their own, below those that are taken later. -/
theorem orderly_bindParams {settled : Prop} (hs : s.Disciplined)
    (hbelow : ∀ other ∈ s.parameters, other < slot)
    (hroom : slot + (layouts.flatMap Layout.slots).length ≤ s.pool.first + s.pool.params) :
    Orderly typed settled (bindParams params layouts slot) ctx s := by
  induction params generalizing layouts slot s with
  | nil => exact .of_ok rfl hs.advances
  | cons p params ih =>
    cases layouts with
    | nil => exact .of_ok rfl hs.advances
    | cons l layouts =>
      rw [List.flatMap_cons, List.length_append, ← Nat.add_assoc] at hroom
      rw [bindParams]
      cases hflatten : l.flatten with
      | error defect => exact .of_error rfl ⟨rfl, fun _ => rfl⟩
      | ok kinds =>
        obtain ⟨-, rfl⟩ := Layout.slots_of_flatten hflatten
        cases p with
        | varDecl info name declared init =>
          have hlayout : Lower.ofLayout (.ok l.slots) ctx s = (.ok l.slots, s) := rfl
          have hbind := Lower.bind_run info.pos name (.parameter (.locals ⟨info.pos, l⟩
            ((List.range l.slots.length).map (slot + ·)))) ctx s
          split at hbind
          · exact .of_error ((Steps.bind_of_ok hlayout).trans (Steps.bind_of_error hbind)) ⟨rfl, fun _ => rfl⟩
          next hfresh =>
            have hrange : ∀ a ∈ (List.range l.slots.length).map (slot + ·),
                slot ≤ a ∧ a < slot + l.slots.length := by
              simp only [List.mem_map, List.mem_range]
              omega
            have hnew : ((List.range l.slots.length).map (slot + ·) ++ s.parameters).Nodup := by
              refine List.nodup_append.mpr ⟨List.nodup_range.map (fun _ _ => Nat.add_left_cancel),
                hs.distinct, fun a ha b hb hab => ?_⟩
              have := hrange a ha
              have := hbelow b hb
              omega
            obtain ⟨hdisciplined, hparameters⟩ := hs.defineParameter (by simpa using hfresh) hnew
              (fun a ha => by have := hrange a ha; omega)
            refine .after ((Steps.bind_of_ok hlayout).trans (Steps.bind_of_ok hbind))
              ⟨hdisciplined, Chain.tail_define _ _ _, List.suffix_refl _, fun _ => rfl⟩
              (ih hdisciplined (fun other hother => ?_) hroom)
            obtain hother | hother := List.mem_append.mp (hparameters.mem_iff.mp hother)
            · exact (hrange other hother).2
            · exact Nat.lt_add_right _ (hbelow other hother)
        | _ =>
          refine ih hs (fun other hother => ?_) hroom
          exact Nat.lt_add_right _ (hbelow other hother)

section

variable (hidle : s.Idle) (hroom : (f.params.flatMap Layout.slots).length ≤ s.pool.first + s.pool.params)
include hidle hroom

theorem orderly_opened : Orderly typed True (bindParams params f.params 0) ctx s.opened := by
  have hopened : s.opened.Disciplined := { hidle.disciplined with }
  have hbelow : ∀ other ∈ s.opened.parameters, other < 0 := by
    change ∀ other ∈ s.parameters, other < 0
    simp [hidle.parameters]
  exact orderly_bindParams hopened hbelow (by simpa using hroom)

/-- After the body of a function all its slots were given back. -/
theorem orderly_functionBody (hbody : typed → body.Typed) :
    Orderly typed True (functionBody params body exprBody f) ctx s := by
  have hcomposed := body.composed hbody
  refine .inLevel ((orderly_opened hidle hroom).bind (fun _ s₁ _ hfirst => ?_))
  split
  · exact (hcomposed.value.orderly ctx hfirst.disciplined).withTemporaries
  · obtain ⟨x, hx, hstatement⟩ := hcomposed.whole
    rw [hstatement]
    refine ((hx.orderly ctx hfirst.disciplined).withTemporaries).bind (fun n s₂ _ hsecond => ?_)
    split <;> exact .of_ok rfl hsecond.disciplined.advances

end

theorem orderly_functionBody_of_idle {t : Ty} (hcalls : scene.Calls t f)
    (hpool : s.pool = .ofParams f.signature.params) (hidle : s.Idle) (hbody : typed → body.Typed) :
    Orderly typed True (functionBody params body exprBody f) ctx s := by
  refine orderly_functionBody hidle ?_ hbody
  rw [hpool, hcalls.signature]
  exact Nat.le_add_left _ _

theorem does_functionBody {info : TreeInfo} {name : String} {result : Ty}
    (h : IsFunction scene.types names uses (.funcDecl info name params body result exprBody))
    (hcalls : scene.Calls info.type f) (hpool : s.pool = .ofParams f.signature.params) (hidle : s.Idle)
    (hfollows : scene.Follows names s) (hadmits : ctx.Admits s) (hreturns : ctx.inFunction) :
    (functionBody params body exprBody f).Does ctx s uses (fun n s' =>
      n.Formed scene ctx.around ∧ s.Takes scene s' n.demand ∧ s'.static = s.static ∧ s'.Idle) := by
  have hparams {returned : Ty} {occurrence : Nat} {inner : Chain TypedName}
      (htype : info.type = .function occurrence (params.map Tree.type) returned)
      (hnames : Defines (Level.empty :: names) (params.filterMap Tree.declared?) inner) :
      (bindParams params f.params 0).Does ctx s.opened []
        (fun _ s' => s.Supplies scene s' .none ∧
          scene.Goes { function := some (name, returned) } inner ctx s') := by
    obtain ⟨⟨_, _, _, htype', hlayouts, -⟩, hok, -, hsignature, -⟩ := hcalls
    rw [htype] at htype'
    cases htype'
    rw [List.forall₂_map_left_iff] at hlayouts
    refine (does_bindParams hlayouts hok ?_ hnames hfollows.level).mono ?_
    · intro i kind hi
      rw [hpool, hsignature, Nat.zero_add]
      simpa [SlotPool.kind?, SlotPool.ofParams] using hi
    · rintro _ _ ⟨hinner, chain, rfl⟩
      have hsettles : s.Settles { s with names := chain } := ⟨rfl, .refl _, rfl, rfl⟩
      exact ⟨(Supplies.none s).settle hsettles, hinner, hadmits.of_grows hsettles.grows, (by rintro ⟨⟩), (by rintro ⟨⟩),
        fun _ => hreturns⟩
  suffices hinside : Lower.Does (do
      bindParams params f.params 0
      if exprBody then Lower.withTemporaries body.lowering.value
      else
        let n ← body.lowering.statement
        if f.result.isVoid then return n
        else return .seq ⟨body.pos, .unit⟩ [n, .unreachable ⟨body.pos, .unit⟩])
      ctx s.opened uses
      (fun n s' => n.Formed scene ctx.around ∧ s.Supplies scene s' n.demand) by
    have hframe := steps_functionBody params body exprBody f ctx s
    have horderly : Orderly False True (functionBody params body exprBody f) ctx s :=
      orderly_functionBody_of_idle hcalls hpool hidle (by rintro ⟨⟩)
    refine (((Lower.does_inLevel hinside).and_of hframe).and_of horderly.ok).mono ?_
    rintro n s' ⟨⟨⟨s₁, ⟨hformed, hsupplies⟩, hsettles, -⟩, hfixed⟩, hadvances⟩
    exact ⟨hformed, ⟨hsupplies.settle hsettles, hfixed.names⟩, hfixed.static,
      hidle.advance hadvances hfixed.names⟩
  cases h with
  | value htype hname hnames hbody htakes =>
    refine .bind_nil (hparams htype hnames) ?_
    rintro _ s₁ ⟨hfirst, hgoes⟩
    refine Lower.does_withTemporaries ((hbody.builds.1 hgoes).mono ?_) ?_
    · exact fun n s₂ hn => ⟨hn.formed, hfirst.append hn.toSupplies⟩
    · exact fun n s₂ s₃ hn hsettles _ => ⟨hn.1, hn.2.settle hsettles⟩
  | statement htype hname hnames hbody =>
    refine .bind_nil (hparams htype hnames) ?_
    rintro _ s₁ ⟨hfirst, hgoes⟩
    refine (hbody.builds hgoes).bind_last ?_
    rintro n s₂ ⟨hn, -⟩
    have hsupplies : s.Supplies scene s₂ n.demand := hfirst.append hn.toSupplies
    refine .ite (fun _ => .pure ⟨hn.formed, hsupplies⟩) (fun _ => .pure ⟨?_, ?_⟩)
    · refine .of_parts rfl (fun c hc => ?_) rfl ⟨hn.void, .refl _⟩
      obtain rfl | hc := List.mem_cons.mp hc
      · exact hn.formed
      · obtain rfl := List.mem_singleton.mp hc
        exact .of_free (.intro rfl trivial (by rintro _ ⟨⟩)) ⟨rfl, rfl⟩
    · simpa using hsupplies

end Build

end TreeWasm
