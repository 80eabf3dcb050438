import Mathlib.Data.List.Forall2
import TreeWasm.Proofs.Meaning.Eval
import TreeWasm.Proofs.Meaning.Forms

/-! # Keeping the answers of a run

One run keeps the answers of another if it ends in every outcome and store that the other ends in.
Simplified code may go on where the original trapped, so traps need be kept only on demand. What
runs are composed of preserves the relation.
-/

namespace TreeWasm

open Wasm

namespace Wasm.Result

/-- The second result is that of the first, unless the first has none or is a trap not to be kept. -/
def Keeps (traps : Bool) (r r' : Result) : Prop :=
  ∀ o s, r = some (o, s) → (o = .trap → traps) → r' = some (o, s)

namespace Keeps

variable {traps : Bool} {r r' r'' : Result} {f g : List Value → Store → Result}

theorem refl (r : Result) : Keeps traps r r := fun _ _ h _ => h

theorem of_eq (h : r = r') : Keeps traps r r' := h ▸ refl r

theorem trans (h : Keeps traps r r') (h' : Keeps traps r' r'') : Keeps traps r r'' :=
  fun o s hr htrap => h' o s (h o s hr htrap) htrap

theorem none : Keeps traps none r := by
  intro o s hr
  cases hr

theorem trap (s : Store) : Keeps false (some (.trap, s)) r := by
  intro o s' hr htrap
  cases hr
  cases htrap rfl

theorem andThen (h : Keeps traps r r')
    (hnext : ∀ values s, r = some (.normal values, s) → Keeps traps (f values s) (g values s)) :
    Keeps traps (r.andThen f) (r'.andThen g) := by
  intro o s' hr htrap
  rcases andThen_eq_some hr with ⟨values, s, hfirst, hr⟩ | ⟨hfirst, hne⟩
  · have hsecond := h _ _ hfirst (by simp)
    rw [hsecond]
    exact hnext values s hfirst o s' hr htrap
  · rw [h o s' hfirst htrap]
    cases o with
    | normal values => exact absurd rfl (hne values)
    | _ => rfl

/-- What follows a run may be left out if it only hands on the values of the run. -/
theorem andThen_left
    (h : ∀ values s, r = some (.normal values, s) →
      Keeps traps (f values s) (some (.normal values, s))) : Keeps traps (r.andThen f) r := by
  have hkeeps := (refl r).andThen h
  rwa [andThen_normal_self] at hkeeps

theorem endAt (h : Keeps traps r r') (label : Option Nat) :
    Keeps traps (r.map (fun (o, s) => (o.endAt label, s))) (r'.map (fun (o, s) => (o.endAt label, s))) := by
  intro o s hr htrap
  obtain ⟨⟨o₁, s₁⟩, hrun, heq⟩ := Option.map_eq_some_iff.mp hr
  cases heq
  rw [h o₁ s hrun ?_]
  · rfl
  · rintro rfl
    exact htrap rfl

/-- A body that keeps the answers of another one does so however often it is repeated. -/
theorem repeating {again : Outcome → Option (List Value)}
    {body body' : List Value → Store → Result} (hagain : again .trap = Option.none)
    (h : ∀ values s, Keeps traps (body values s) (body' values s)) (fuel : Nat)
    (values : List Value) (s : Store) :
    Keeps traps (repeating again body fuel values s) (repeating again body' fuel values s) := by
  induction fuel generalizing values s with
  | zero =>
    intro o s' hr htrap
    rcases repeating_cases hr with ⟨hrun, hstop⟩ | ⟨_, _, _, _, hfuel, _⟩
    · exact repeating_stop (h values s o s' hrun htrap) hstop
    · cases hfuel
  | succ fuel ih =>
    intro o s' hr htrap
    rcases repeating_cases hr with ⟨hrun, hstop⟩ | ⟨_, o₁, s₁, next, hfuel, hrun, hnext, hr⟩
    · exact repeating_stop (h values s o s' hrun htrap) hstop
    · cases hfuel
      have hgoes : o₁ ≠ .trap := by
        rintro rfl
        rw [hagain] at hnext
        cases hnext
      simp only [Result.repeating, h values s o₁ s₁ hrun (fun heq => absurd heq hgoes), hnext,
        Option.bind_some, Option.elim_some]
      exact ih next s₁ o s' hr htrap

end Keeps

end Wasm.Result

namespace Node

open Wasm.Result

variable {world : World} {watch watch' : Watch} {traps : Bool} {fuel : Nat}

theorem evalAll_append (nodes more : List Node) (s : Store) :
    evalAll world watch fuel (nodes ++ more) s =
      (evalAll world watch fuel nodes s).andThen (fun values s =>
        (evalAll world watch fuel more s).andThen (fun rest s =>
          some (.normal (values ++ rest), s))) := by
  induction nodes generalizing s with
  | nil => simp [evalAll]
  | cons n rest ih =>
    rw [List.cons_append, evalAll, evalAll, andThen_assoc]
    apply andThen_congr
    intro values s₁ _
    rw [ih, andThen_assoc, andThen_assoc]
    apply andThen_congr
    intro more₁ s₂ _
    rw [andThen_assoc, andThen_normal]
    apply andThen_congr
    intro more₂ s₃ _
    rw [andThen_normal, List.append_assoc]

theorem evalAll_keeps {nodes nodes' : List Node}
    (h : List.Forall₂ (fun n n' => ∀ s,
      Keeps traps (n.eval world watch fuel s) (n'.eval world watch' fuel s)) nodes nodes') (s : Store) :
    Keeps traps (evalAll world watch fuel nodes s) (evalAll world watch' fuel nodes' s) := by
  induction h generalizing s with
  | nil => exact .refl _
  | cons hfirst _ ih =>
    refine (hfirst s).andThen (fun values s₁ _ => ?_)
    exact (ih s₁).andThen (fun more s₂ _ => .refl _)

/-! ## Evaluation without a watch -/

theorem reads_off {l : Layout} {r r' : Result} (h : Keeps traps r r') :
    Keeps traps (watch.reads l r) (Watch.off.reads l r') := by
  refine h.andThen (fun values s _ => ?_)
  split
  · exact .of_eq rfl
  · exact .none

theorem eval_keeps_off (n : Node) (s : Store) :
    Keeps traps (n.eval world watch fuel s) (n.eval world .off fuel s) := by
  induction n using partsInduction generalizing s with
  | absent | const32 | const64 | constFloat | branch | unreachable | nop => exact .refl _
  | binary info op x y hx hy | compare info op x y hx hy =>
    exact (hx s).andThen (fun xs s₁ _ => (hy s₁).andThen (fun ys s₂ _ => .refl _))
  | unary info op x hx | convert info x hx | drop info x hx =>
    exact (hx s).andThen (fun xs s₁ _ => .refl _)
  | data info addr offset haddr =>
    refine (haddr s).andThen (fun as s₁ _ => ?_)
    split
    · exact reads_off (.refl _)
    · exact .refl _
  | scaledOffset info ptr index size hptr hindex =>
    refine (hptr s).andThen (fun ps s₁ _ => (hindex s₁).andThen (fun is s₂ _ => ?_))
    split
    · split
      · exact .of_eq rfl
      · exact .none
    · exact .none
  | locals info slots => exact reads_off (.refl _)
  | ifElse info cond yes no hcond hyes hno =>
    refine (hcond s).andThen (fun cs s₁ _ => ?_)
    split
    · split
      · exact hyes s₁
      · split
        · exact .refl _
        · exact hno s₁
    · exact .none
  | loop info label body hbody =>
    exact .repeating rfl (fun _ s => hbody s) fuel [] s
  | block info label children ih =>
    exact (evalAll_keeps (List.forall₂_same.mpr ih) s).endAt label
  | seq info children ih | structLit info children ih | arrayLit info children ih =>
    exact evalAll_keeps (List.forall₂_same.mpr ih) s
  | branchIf info label cond hcond => exact (hcond s).andThen (fun cs s₁ _ => .refl _)
  | branchTable info index targets default hindex =>
    exact (hindex s).andThen (fun is s₁ _ => .refl _)
  | ret info value hvalue =>
    rw [eval, eval]
    split
    · exact .refl _
    · exact (hvalue s).andThen (fun values s₁ _ => .refl _)
  | call info func name args ih =>
    rw [eval, eval]
    exact (evalAll_keeps (List.forall₂_same.mpr ih) s).andThen (fun values s₁ _ => reads_off (.refl _))
  | assign info target value _ hvalue haddr =>
    cases target with
    | locals tinfo slots => exact (hvalue s).andThen (fun values s₁ _ => .refl _)
    | data tinfo addr offset =>
      exact (haddr _ _ _ rfl s).andThen (fun as s₁ _ =>
        (hvalue s₁).andThen (fun values s₂ _ => .refl _))
    | _ => simp only [eval]; exact .none
  | addressOf info x _ haddr =>
    cases x with
    | data dinfo addr offset => exact (haddr _ _ _ rfl s).andThen (fun as s₁ _ => .refl _)
    | _ => simp only [eval]; exact .none

theorem eval_off {n : Node} {s s' : Store} {o : Outcome}
    (h : n.eval world watch fuel s = some (o, s')) : n.eval world .off fuel s = some (o, s') := by
  have hkeeps : Result.Keeps true (n.eval world watch fuel s) (n.eval world .off fuel s) := eval_keeps_off n s
  exact hkeeps o s' h (fun _ => rfl)

end Node

/-! ## Code that can be left out

A pure node changes nothing: it ends with a value in the store it started from, or it traps.
-/

namespace Wasm.Result

/-- A run from a store that ends in it with values, or traps. -/
def Quiet (s : Store) (r : Result) : Prop :=
  ∀ o s', r = some (o, s') → o ≠ .trap → ∃ values, o = .normal values ∧ s' = s

namespace Quiet

variable {s : Store} {r : Result}

theorem none : Quiet s none := by
  intro o s' h
  cases h

theorem normal (values : List Value) (s : Store) : Quiet s (some (.normal values, s)) := by
  intro o s' h _
  cases h
  exact ⟨values, rfl, rfl⟩

theorem andThen {next : List Value → Store → Result} (h : r.Quiet s)
    (hnext : ∀ values, (next values s).Quiet s) : (r.andThen next).Quiet s := by
  intro o s' hr hne
  rcases andThen_eq_some hr with ⟨values, s₁, hfirst, hr⟩ | ⟨hfirst, hother⟩
  · obtain ⟨_, _, rfl⟩ := h _ s₁ hfirst (by simp)
    exact hnext values o s' hr hne
  · obtain ⟨values, rfl, _⟩ := h o s' hfirst hne
    exact absurd rfl (hother values)

theorem ofAttempt (x : Attempt (List Value)) (s : Store) : Quiet s (ofAttempt x s) := by
  cases x with
  | value values => exact normal values s
  | trap =>
    intro o s' h hne
    cases h
    exact absurd rfl hne
  | stuck => exact none

theorem reads {watch : Watch} {l : Layout} (h : r.Quiet s) : (watch.reads l r).Quiet s := by
  refine h.andThen (fun values => ?_)
  split
  · exact normal values s
  · exact none

end Quiet

end Wasm.Result

namespace Node

open Wasm.Result

variable {world : World} {watch : Watch} {fuel : Nat} {nodes : List Node}

theorem evalAll_quiet {s : Store} (h : ∀ n ∈ nodes, (n.eval world watch fuel s).Quiet s) :
    (evalAll world watch fuel nodes s).Quiet s := by
  induction nodes with
  | nil => exact .normal [] s
  | cons n rest ih =>
    refine (h n (.head _)).andThen (fun values => ?_)
    refine (ih (fun m hm => h m (.tail _ hm))).andThen (fun more => ?_)
    exact .normal _ s

theorem isPure_of_allPure (h : allPure nodes) : ∀ n ∈ nodes, n.isPure := by
  induction nodes with
  | nil => simp
  | cons n rest ih =>
    rw [allPure, Bool.and_eq_true] at h
    intro m hm
    rcases List.mem_cons.mp hm with rfl | hm
    · exact h.1
    · exact ih h.2 m hm

theorem eval_quiet {n : Node} (h : n.isPure) {s : Store} : (n.eval world watch fuel s).Quiet s := by
  induction n using partsInduction with
  | absent => exact .none
  | const32 | const64 | constFloat | nop => exact .normal _ s
  | locals info slots => exact (Quiet.normal _ s).reads
  | binary info op x y hx hy =>
    rw [isPure, Bool.and_eq_true, Bool.and_eq_true] at h
    exact (hx h.1.2).andThen (fun xs => (hy h.2).andThen (fun ys => .ofAttempt _ s))
  | compare info op x y hx hy =>
    rw [isPure, Bool.and_eq_true] at h
    exact (hx h.1).andThen (fun xs => (hy h.2).andThen (fun ys => .ofAttempt _ s))
  | unary info op x hx => exact (hx h).andThen (fun xs => .ofAttempt _ s)
  | convert info x hx =>
    rw [isPure, Bool.and_eq_true] at h
    exact (hx h.2).andThen (fun xs => .ofAttempt _ s)
  | data info addr offset haddr =>
    refine (haddr h).andThen (fun as => ?_)
    split
    · exact (Quiet.ofAttempt _ s).reads
    · exact .none
  | scaledOffset info ptr index size hptr hindex =>
    rw [isPure, Bool.and_eq_true] at h
    refine (hptr h.1).andThen (fun ps => (hindex h.2).andThen (fun is => ?_))
    split
    · split
      · exact .normal _ s
      · exact .none
    · exact .none
  | structLit info parts ih | arrayLit info parts ih =>
    exact evalAll_quiet (fun n hn => ih n hn (isPure_of_allPure h n hn))
  | addressOf info x _ haddr =>
    cases x with
    | data dinfo addr offset => exact (haddr _ _ _ rfl h).andThen (fun as => .ofAttempt _ s)
    | _ => simp only [eval]; exact .none
  | _ => cases h

end Node

end TreeWasm
