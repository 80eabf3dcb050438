import TreeWasm.Proofs.Emission.Ensures
import TreeWasm.Proofs.Meaning.WellFormed

/-! # Constructs around emitted code

Emission leaves out constructs that no branch names, so the constructs around a node and those around
its code are not the same. Where a branch finds its label, it finds a construct that takes no values.
-/

namespace TreeWasm

open Wasm

namespace Site

/-- The code of a node in these surroundings, emitted in this context, can stand at the site. -/
structure Serves (site : Site) (Γ : Surroundings) (ctx : EmitContext) : Prop where
  functions : site.functions = Γ.functions
  results : site.results = Γ.result.slots
  used : ∀ l, some l ∈ ctx.enclosing → ctx.labels.uses (some l) ≠ 0
  reach : ∀ l ∈ Γ.targets, ∀ depth, ctx.enclosing.findIdx? (· == some l) = some depth →
    site.labels[depth]? = some []

end Site

/-- The context inside a construct. -/
def EmitContext.inside (ctx : EmitContext) (label : Option Nat) : EmitContext :=
  { ctx with enclosing := label :: ctx.enclosing }

namespace Site.Serves

variable {site : Site} {Γ : Surroundings} {ctx : EmitContext} {types : List ValType} {label : Option Nat}

section

variable (h : site.Serves Γ ctx)
include h

theorem reach_inside {l depth : Nat} (htarget : l ∈ Γ.targets) (hne : label ≠ some l)
    (hdepth : (ctx.inside label).enclosing.findIdx? (· == some l) = some depth) :
    (site.enter types).labels[depth]? = some [] := by
  rw [EmitContext.inside, List.findIdx?_cons, if_neg (by simpa using hne)] at hdepth
  obtain ⟨d, hd, rfl⟩ := Option.map_eq_some_iff.mp hdepth
  exact h.reach l htarget d hd

theorem anonymous (types : List ValType) : (site.enter types).Serves Γ (ctx.inside none) where
  functions := h.functions
  results := h.results
  used := fun l hl => h.used l (by simpa [EmitContext.inside] using hl)
  reach := fun l htarget depth hdepth => h.reach_inside htarget (by simp) hdepth

/-- A construct with a label that is used. If branches may name it, they carry no values. -/
theorem enter {reachable : Bool} (hused : ctx.labels.uses label ≠ 0)
    (hempty : reachable → types = []) :
    (site.enter types).Serves (Γ.enter label reachable) (ctx.inside label) where
  functions := by rw [Surroundings.functions_enter]; exact h.functions
  results := by rw [Surroundings.result_enter]; exact h.results
  used := fun l hl => by
    rcases List.mem_cons.mp hl with rfl | hl
    · exact hused
    · exact h.used l hl
  reach := fun l htarget depth hdepth => by
    by_cases hlabel : label = some l
    · subst hlabel
      cases reachable with
      | true =>
        rw [EmitContext.inside, List.findIdx?_cons, if_pos (by simp)] at hdepth
        cases hdepth
        rw [hempty rfl]
        rfl
      | false => cases Surroundings.reachable_of_mem_enter htarget
    · exact h.reach_inside (Surroundings.mem_targets_of_enter hlabel htarget) hlabel hdepth

/-- A construct that is left out because no branch names it. -/
theorem skip (reachable : Bool) (hunused : ctx.labels.uses label = 0) :
    site.Serves (Γ.enter label reachable) ctx where
  functions := by rw [Surroundings.functions_enter]; exact h.functions
  results := by rw [Surroundings.result_enter]; exact h.results
  used := h.used
  reach := fun l htarget depth hdepth => by
    by_cases hlabel : label = some l
    · subst hlabel
      obtain ⟨hlen, rfl⟩ := List.findIdx?_eq_some_iff_findIdx_eq.mp hdepth
      obtain ⟨label, hmem, hlabel⟩ := List.findIdx_lt_length.mp hlen
      rw [beq_iff_eq.mp hlabel] at hmem
      exact absurd hunused (h.used l hmem)
    · exact h.reach l (Surroundings.mem_targets_of_enter hlabel htarget) depth hdepth

end

end Site.Serves

namespace Node

theorem emissions_eq (nodes : List Node) : emissions nodes = nodes.map emission := by
  induction nodes with
  | nil => rfl
  | cons n rest ih => rw [emissions, ih, List.map_cons]

theorem emission_address {n : Node} (h : n.isAbsent = false) :
    n.emission.address.layout = n.layout ∧ n.emission.address.code = n.emission.load := by
  cases n with
  | absent => cases h
  | _ => exact ⟨rfl, rfl⟩

theorem emission_reach {info : Info} {addr : Node} {offset : Int64} :
    (data info addr offset).emission.reach = (match addr with
      | .const32 _ base => pure [.const32 (base + offset.toInt32)]
      | _ => do
        let code ← addr.emission.address.code
        if offset = 0 then return code
        return code ++ [.const32 offset.toInt32, .numeric (.int .w32 .add)]) := rfl

end Node

end TreeWasm
