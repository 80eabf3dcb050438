import TreeWasm.Proofs.Meaning.Eval
import TreeWasm.Proofs.Meaning.WellFormed

/-! # Where branches go

A branch that leaves a node carries no values, names a label that some branch inside the node names,
and is one that the surroundings of the node can catch.
-/

namespace TreeWasm

open Wasm

namespace Wasm.Result

/-- If a run ends in a branch, then without values and to one of the given labels. -/
def BranchesTo (T : Nat → Prop) (r : Result) : Prop :=
  ∀ l values s, r = some (.branch l values, s) → values = [] ∧ T l

namespace BranchesTo

variable {T T' : Nat → Prop} {r : Result} {label : Option Nat}

theorem mono (h : r.BranchesTo T) (hT : ∀ l, T l → T' l) : r.BranchesTo T' := by
  intro l values s hr
  obtain ⟨hvalues, hl⟩ := h l values s hr
  exact ⟨hvalues, hT l hl⟩

theorem none : BranchesTo T none := by
  intro l values s hr
  cases hr

theorem normal (values : List Value) (s : Store) : BranchesTo T (some (.normal values, s)) := by
  intro l values s hr
  cases hr

theorem branch {l : Nat} (h : T l) (s : Store) : BranchesTo T (some (.branch l [], s)) := by
  intro l' values s' hr
  cases hr
  exact ⟨rfl, h⟩

theorem andThen {next : List Value → Store → Result} (h : r.BranchesTo T)
    (hnext : ∀ values s, (next values s).BranchesTo T) : (r.andThen next).BranchesTo T := by
  intro l values s hr
  rcases andThen_eq_some hr with ⟨vs, s', _, hr⟩ | ⟨hr, _⟩
  · exact hnext vs s' l values s hr
  · exact h l values s hr

theorem ofAttempt (x : Attempt (List Value)) (s : Store) : BranchesTo T (ofAttempt x s) := by
  intro l values s' hr
  cases x <;> cases hr

theorem reads (watch : Watch) (layout : Layout) (h : r.BranchesTo T) :
    (watch.reads layout r).BranchesTo T := by
  refine h.andThen (fun values s => ?_)
  split
  · exact normal values s
  · exact none

theorem invoke (world : World) (func : Nat) (args : List Value) (s : Store) :
    BranchesTo T (world.invoke func args s) := by
  intro l values s' hr
  unfold World.invoke at hr
  dsimp only at hr
  split at hr <;> cases hr

theorem writeLeaves (a : BitVec 32) (offset : Int64) (leaves : List Leaf) (values : List Value)
    (s : Store) : BranchesTo T (Layout.writeLeaves a offset leaves values s) := by
  induction leaves generalizing values s with
  | nil => cases values <;> intro l values s hr <;> cases hr
  | cons leaf leaves ih =>
    cases values with
    | nil => exact none
    | cons v values =>
      rw [Layout.writeLeaves]
      split
      · exact ih _ _
      · intro l values s hr
        cases hr
      · exact none

theorem writeAt (layout : Layout) (a : BitVec 32) (offset : Int64) (values : List Value)
    (s : Store) : BranchesTo T (layout.writeAt a offset values s) := by
  unfold Layout.writeAt
  split
  · exact writeLeaves a offset _ values s
  · exact none

theorem endAt (h : r.BranchesTo (fun l => label ≠ some l → T l)) :
    BranchesTo T (r.map (fun (o, s) => (o.endAt label, s))) := by
  intro l values s hr
  obtain ⟨⟨o, s'⟩, hrun, heq⟩ := Option.map_eq_some_iff.mp hr
  cases o with
  | branch l' values' =>
    simp only [Outcome.endAt] at heq
    split at heq
    · cases heq
    next hlabel =>
      cases heq
      obtain ⟨hvalues, hl⟩ := h l values s hrun
      exact ⟨hvalues, hl hlabel⟩
  | normal values' => cases heq
  | ret values' => cases heq
  | trap => cases heq

theorem repeating {body : Store → Result}
    (h : ∀ s, (body s).BranchesTo (fun l => label ≠ some l → T l)) (fuel : Nat)
    (values : List Value) (s : Store) :
    BranchesTo T (repeating (Outcome.restartAt? label) (fun _ s => body s) fuel values s) := by
  intro l values' s' hr
  obtain ⟨_, s₁, hrun, hstop⟩ := repeating_last hr
  obtain ⟨hvalues, hl⟩ := h s₁ l values' s' hrun
  refine ⟨hvalues, hl ?_⟩
  intro hlabel
  simp [Outcome.restartAt?, hlabel] at hstop

end BranchesTo

end Wasm.Result

namespace Node

variable {nodes : List Node} {fuel : Nat} {T : Nat → Prop} {n : Node} {label : Option Nat}
  {watch : Watch} {world : World}

/-- The target that a branch table takes is one of those it lists. -/
theorem getD_mem_cons (labels : List Nat) (default i : Nat) :
    (labels[i]?).getD default ∈ default :: labels := by
  cases h : labels[i]? with
  | none => exact .head _
  | some l => exact List.mem_cons_of_mem _ (List.mem_of_getElem? h)

/-- A branch to a label can leave a node. -/
def MayBranch (n : Node) (l : Nat) : Prop := l ∈ n.targets ∧ ∀ Γ, n.WellFormed Γ → l ∈ Γ.targets

/-- The branches that leave a part, if the part has the surroundings of the node. -/
theorem MayBranch.part {c : Node} {r : Result} (h : r.BranchesTo c.MayBranch)
    (htargets : c.targets ⊆ n.targets) (hwf : ∀ {Γ}, n.WellFormed Γ → c.WellFormed Γ) :
    r.BranchesTo n.MayBranch :=
  h.mono (fun _ hl => ⟨htargets hl.1, fun Γ hn => hl.2 Γ (hwf hn)⟩)

theorem MayBranch.andThen {c : Node} {r : Result} {next : List Value → Store → Result}
    (h : r.BranchesTo c.MayBranch) (htargets : c.targets ⊆ n.targets)
    (hwf : ∀ {Γ}, n.WellFormed Γ → c.WellFormed Γ) (hnext : ∀ values s, (next values s).BranchesTo n.MayBranch) :
    (r.andThen next).BranchesTo n.MayBranch :=
  (part h htargets hwf).andThen hnext

theorem evalAll_branchesTo (h : ∀ n ∈ nodes, ∀ s, (n.eval world watch fuel s).BranchesTo T)
    (s : Store) : (evalAll world watch fuel nodes s).BranchesTo T := by
  induction nodes generalizing s with
  | nil => exact .normal [] s
  | cons n rest ih =>
    rw [evalAll]
    refine (h n (.head _) s).andThen (fun values s => ?_)
    refine (ih (fun m hm => h m (.tail _ hm)) s).andThen (fun more s => ?_)
    exact .normal _ s

theorem mem_targetsAll {l : Nat} (hn : n ∈ nodes) (hl : l ∈ n.targets) : l ∈ targetsAll nodes := by
  rw [targetsAll_eq]
  exact List.mem_flatMap.mpr ⟨n, hn, hl⟩

/-- The branches that leave a list of nodes whose surroundings are those of the whole. -/
theorem evalAll_mayBranch
    (ih : ∀ n ∈ nodes, ∀ s, (n.eval world watch fuel s).BranchesTo n.MayBranch)
    (hT : ∀ l, l ∈ targetsAll nodes → (∀ Γ, AllWellFormed Γ nodes → l ∈ Γ.targets) → T l)
    (s : Store) : (evalAll world watch fuel nodes s).BranchesTo T := by
  refine evalAll_branchesTo (fun n hn s => (ih n hn s).mono ?_) s
  rintro l ⟨htargets, hΓ⟩
  exact hT l (mem_targetsAll hn htargets) (fun Γ hwf => hΓ Γ (allWellFormed_iff.mp hwf n hn))

/-- The branches that leave a node are its own, to labels around it. -/
theorem eval_mayBranch : ∀ s, (n.eval world watch fuel s).BranchesTo n.MayBranch := by
  induction n using partsInduction with
  | absent => exact fun _ => .none
  | const32 | const64 | constFloat | nop => exact fun s => .normal _ s
  | locals info slots => exact fun s => .reads _ _ (.normal _ s)
  | unreachable =>
    intro s l values s' h
    cases h
  | binary info op x y hx hy | compare info op x y hx hy =>
    intro s
    refine MayBranch.andThen (hx s) (by simp [targets]) (·.1) (fun _ s => ?_)
    exact MayBranch.andThen (hy s) (by simp [targets]) (·.2.1) (fun _ s => .ofAttempt _ s)
  | unary info op x hx | convert info x hx =>
    intro s
    exact MayBranch.andThen (hx s) (by simp [targets]) (·.1) (fun _ s => .ofAttempt _ s)
  | data info addr offset haddr =>
    intro s
    refine MayBranch.andThen (haddr s) (by simp [targets]) (·.1) (fun as s => ?_)
    split
    · exact .reads _ _ (.ofAttempt _ s)
    · exact .none
  | scaledOffset info ptr index size hptr hindex =>
    intro s
    refine MayBranch.andThen (hptr s) (by simp [targets]) (·.1) (fun ps s => ?_)
    refine MayBranch.andThen (hindex s) (by simp [targets]) (·.2.1) (fun is s => ?_)
    split
    · split
      · exact .normal _ s
      · exact .none
    · exact .none
  | ifElse info cond yes no hcond hyes hno =>
    intro s
    refine MayBranch.andThen (hcond s) (by simp [targets]) (·.1) (fun cs s => ?_)
    split
    · split
      · exact MayBranch.part (hyes s) (by simp [targets]) (·.2.2.1)
      · split
        · exact .normal [] s
        next hpresent =>
          refine MayBranch.part (hno s) (by simp [targets]) (fun hwf => ?_)
          rcases hwf.2.2.2.2 with ⟨habsent, _⟩ | ⟨hwf, _⟩
          · exact absurd habsent hpresent
          · exact hwf
    · exact .none
  | loop info label body hbody =>
    refine .repeating (fun s => (hbody s).mono ?_) fuel []
    refine fun l h hne => ⟨by simp [targets, h.1], fun Γ hwf => ?_⟩
    exact Surroundings.mem_targets_of_enter hne (h.2 _ hwf.1)
  | block info label children hchildren =>
    refine fun s => .endAt (evalAll_mayBranch hchildren ?_ s)
    refine fun l hl hΓ hne => ⟨hl, fun Γ hwf => ?_⟩
    exact Surroundings.mem_targets_of_enter hne (hΓ _ hwf.1)
  | branch info label => exact .branch ⟨by simp [targets], fun Γ hwf => hwf.2⟩
  | branchIf info label cond hcond =>
    intro s
    refine MayBranch.andThen (hcond s) (by simp [targets]) (·.2.2.1) (fun cs s => ?_)
    split
    · split
      · exact .branch ⟨by simp [targets], fun Γ hwf => hwf.2.1⟩ s
      · exact .normal [] s
    · exact .none
  | branchTable info index labels default hindex =>
    intro s
    refine MayBranch.andThen (hindex s) (by simp [targets]) (·.2.2.1) (fun is s => ?_)
    split
    next i =>
      have hmem := getD_mem_cons labels default i.toNat
      refine .branch ⟨?_, fun Γ hwf => hwf.2.1 _ hmem⟩ s
      rw [targets, List.mem_append, List.mem_cons]
      rcases List.mem_cons.mp hmem with hdefault | hlabel
      · exact .inr (.inl hdefault)
      · exact .inl hlabel
    · exact .none
  | ret info value hvalue =>
    intro s
    rw [eval]
    split
    · intro l values s' h
      cases h
    next hpresent =>
      refine MayBranch.andThen (hvalue s) (by simp [targets]) (fun hwf => ?_) (fun values s => ?_)
      · rcases hwf.2 with ⟨habsent, _⟩ | ⟨hwf, _⟩
        · exact absurd habsent hpresent
        · exact hwf
      · intro l values s' h
        cases h
  | drop info x hx =>
    intro s
    exact MayBranch.andThen (hx s) (by simp [targets]) (·.2) (fun _ s => .normal _ s)
  | seq info parts hparts | structLit info parts hparts | arrayLit info parts hparts =>
    exact evalAll_mayBranch hparts (fun l hl hΓ => ⟨hl, fun Γ hwf => hΓ Γ hwf.1⟩)
  | call info func name args hargs =>
    intro s
    rw [eval]
    refine (evalAll_mayBranch hargs ?_ s).andThen (fun values s => .reads _ _ (.invoke world func _ s))
    exact fun l hl hΓ => ⟨hl, fun Γ hwf => hΓ Γ hwf.1⟩
  | assign info target value _ hvalue haddr =>
    intro s
    cases target with
    | locals tinfo slots =>
      refine MayBranch.andThen (hvalue s) (by simp [targets]) (·.2.2.2.1) (fun values s => ?_)
      split
      · exact .normal [] _
      · exact .none
    | data tinfo addr offset =>
      refine MayBranch.andThen (haddr _ _ _ rfl s) (by simp [targets]) (·.2.2.1.1) (fun as s => ?_)
      refine MayBranch.andThen (hvalue s) (by simp [targets]) (·.2.2.2.1) (fun values s => ?_)
      split
      · exact .writeAt _ _ _ values s
      · exact .none
    | _ => simp only [eval]; exact .none
  | addressOf info x _ haddr =>
    intro s
    cases x with
    | data dinfo addr offset =>
      refine MayBranch.andThen (haddr _ _ _ rfl s) (by simp [targets]) (·.2.1) (fun as s => ?_)
      exact .ofAttempt _ s
    | _ => simp only [eval]; exact .none

/-- A node that has no branch to a label does not end in one. -/
theorem restartAt?_eq_none {s s' : Store} {o : Outcome} (h : ∀ l, label = some l → l ∉ n.targets)
    (hrun : n.eval world watch fuel s = some (o, s')) : o.restartAt? label = none := by
  cases o with
  | branch l values =>
    have hmem := (eval_mayBranch s l values s' hrun).2.1
    exact if_neg (fun heq => h l heq hmem)
  | _ => rfl

theorem map_endAt (h : ∀ l, label = some l → l ∉ n.targets) (world : World) (watch : Watch)
    (fuel : Nat) (s : Store) :
    (n.eval world watch fuel s).map (fun (o, s) => (o.endAt label, s)) = n.eval world watch fuel s := by
  cases hrun : n.eval world watch fuel s with
  | none => rfl
  | some result =>
    obtain ⟨o, s'⟩ := result
    simp only [Option.map_some, Outcome.endAt_of_restartAt? (restartAt?_eq_none h hrun)]

end Node

end TreeWasm
