import TreeWasm.Proofs.Meaning.Branches
import TreeWasm.Proofs.Meaning.Integers

/-! # Evaluation yields canonical values

The values of a well-formed node are as many as its slots. An evaluation that reads only canonical
values computes only such.
-/

namespace TreeWasm

open Wasm

namespace Layout

variable {a : BitVec 32} {offset : Int64} {l : Layout} {leaves : List Leaf} {values vs : List Value}
  {m : Memory} {s s' : Store}

/-- Whether values are those of a layout, and canonical if that is asked for. -/
def Holds (canonical : Bool) (l : Layout) (values : List Value) : Prop :=
  values.length = l.kinds.length ∧ (canonical → Scalar.allCanonical l.kinds values)

namespace Holds

variable {canonical : Bool} {l m : Layout} {values : List Value} {kind : Scalar}

theorem of_fits (h : l.Holds canonical values) (hfit : l.Fits m) : m.Holds canonical values := by
  rw [Holds, ← hfit.kinds_eq]
  exact h

theorem of_isVoid (h : l.isVoid) : l.Holds canonical [] := by
  rw [Holds, kinds_of_isVoid h]
  exact ⟨rfl, fun _ => rfl⟩

theorem singleton {v : Value} (hkind : l.scalar? = some kind)
    (hv : canonical → kind.isCanonical v) : l.Holds canonical [v] := by
  rw [Holds, kinds_of_scalar? hkind]
  exact ⟨rfl, fun h => by simp [Scalar.allCanonical, hv h]⟩

theorem exists_of_scalar? (h : l.Holds canonical values) (hkind : l.scalar? = some kind) :
    ∃ v, values = [v] ∧ (canonical → kind.isCanonical v) := by
  rw [Holds, kinds_of_scalar? hkind] at h
  obtain ⟨v, rfl⟩ := List.length_eq_one_iff.mp h.1
  refine ⟨v, rfl, fun hcanonical => ?_⟩
  simpa [Scalar.allCanonical] using h.2 hcanonical

theorem displace {offset : Int64} {as : List Value} (h : l.Holds canonical as)
    (hslot : l.slot = .i32) (hslot' : m.slot = .i32)
    (hsize : ∀ kind, m.scalar? = some kind → canonical → kind.size = 4)
    (hvalues : Layout.displace offset as = .value values) : m.Holds canonical values := by
  obtain ⟨inner, hinner, hword⟩ := exists_scalar_of_slot hslot (by decide)
  obtain ⟨kind, hkind, hkindword⟩ := exists_scalar_of_slot hslot' (by decide)
  obtain ⟨v, rfl, hv⟩ := h.exists_of_scalar? hinner
  unfold Layout.displace at hvalues
  split at hvalues
  · cases hvalues
    refine singleton hkind (fun hc => ?_)
    obtain ⟨a, rfl⟩ := Scalar.word_of_isCanonical hword (hv hc)
    exact Scalar.isCanonical_of_size hkindword (hsize kind hkind hc)
  · split at hvalues
    next a _ =>
      cases hvalues
      exact singleton hkind (fun hc =>
        Scalar.isCanonical_of_size hkindword (hsize kind hkind hc))
    · cases hvalues

end Holds

theorem kind_size_of_size {kind : Scalar} (hkind : l.scalar? = some kind) (h : l.size = 4) :
    kind.size = 4 := by
  rw [size_of_scalar? hkind] at h
  cases kind with
  | i32 | u32 | f32 | pointer => rfl
  | _ => exact absurd h (by decide)

theorem eq_nil_of_writeLeaves (h : writeLeaves a offset leaves vs s = some (.normal values, s')) :
    values = [] := by
  induction leaves generalizing vs s with
  | nil =>
    cases vs with
    | nil =>
      cases h
      rfl
    | cons v vs => cases h
  | cons leaf rest ih =>
    cases vs with
    | nil => cases h
    | cons v vs =>
      rw [writeLeaves] at h
      split at h
      · exact ih h
      · cases h
      · cases h

theorem eq_nil_of_writeAt (h : l.writeAt a offset vs s = some (.normal values, s')) : values = [] := by
  unfold writeAt at h
  split at h
  · exact eq_nil_of_writeLeaves h
  · cases h

theorem length_readLeaves (h : readLeaves m a offset leaves = .value values) :
    values.length = leaves.length := by
  induction leaves generalizing values with
  | nil =>
    cases h
    rfl
  | cons leaf rest ih =>
    obtain ⟨v, _, h⟩ := Attempt.bind_eq_value h
    obtain ⟨more, hmore, h⟩ := Attempt.bind_eq_value h
    cases h
    rw [List.length_cons, List.length_cons, ih hmore]

theorem length_readAt (h : l.readAt m a offset = .value values) : values.length = l.kinds.length := by
  unfold readAt at h
  unfold kinds
  cases hleaves : l.leaves with
  | error defect =>
    rw [hleaves] at h
    cases h
  | ok leaves =>
    rw [hleaves] at h
    rw [length_readLeaves h, List.length_map]

end Layout

namespace Wasm.Result

/-- If a run ends with values, then with such that have a property. -/
def Yields (P : List Value → Prop) (r : Result) : Prop := ∀ values s, r = some (.normal values, s) → P values

namespace Yields

variable {P Q : List Value → Prop} {r : Result} {next : List Value → Store → Result}

theorem none : Yields P none := nofun

theorem normal {values : List Value} (h : P values) (s : Store) : Yields P (some (.normal values, s)) := by
  rintro _ _ ⟨⟩
  exact h

theorem andThen (h : r.Yields P) (hnext : ∀ values s, P values → (next values s).Yields Q) :
    (r.andThen next).Yields Q := by
  intro values s hr
  obtain ⟨vs, s₁, hrun, hr⟩ | ⟨_, hne⟩ := andThen_eq_some hr
  · exact hnext vs s₁ (h vs s₁ hrun) values s hr
  · exact absurd rfl (hne values)

theorem after (hnext : ∀ values s, (next values s).Yields Q) : (r.andThen next).Yields Q :=
  andThen (fun _ _ _ => trivial) (fun values s _ => hnext values s)

theorem ofAttempt {x : Attempt (List Value)} (h : ∀ values, x = .value values → P values)
    (s : Store) : Yields P (ofAttempt x s) :=
  fun values _ hr => h values (ofAttempt_eq_normal hr).1

theorem ofValue {x : Attempt Value} (h : ∀ v, x = .value v → P [v]) (s : Store) : Yields P (ofValue x s) := by
  intro values s' hr
  obtain ⟨v, hx, heq⟩ := Attempt.bind_eq_value (ofAttempt_eq_normal hr).1
  cases heq
  exact h v hx

theorem reads {watch : Watch} {l : Layout} (h : r.Yields (fun vs => vs.length = l.kinds.length)) :
    (watch.reads l r).Yields (l.Holds watch.canonical) := by
  refine h.andThen (fun values s hlen => ?_)
  split
  next hcanonical => exact .normal ⟨hlen, hcanonical⟩ s
  · exact .none

end Yields

end Wasm.Result

namespace Node

variable {nodes : List Node} {values : List Value} {fuel : Nat} {s s' : Store} {watch : Watch} {world : World}

section Plain

variable {kindOf : TypeKey → Option Scalar} {n : Node} {info : Info} {size : Int64}
  {index ptr x y : Node} {op : Operator} {kind : Scalar}

theorem isFloat_of_isPlain (h : n.isPlain kindOf) : n.layout.isFloat = false := (isPlain_iff.mp h).2.2

/-- A scalar that is no floating-point number is an integer of 32 or 64 bits. -/
theorem slot_of_isPlain (h : n.isPlain kindOf) (hkind : n.layout.scalar? = some kind) :
    ∃ w : Width, kind.slot = w.int := by
  have hfloat := isFloat_of_isPlain h
  rw [Layout.isFloat, hkind] at hfloat
  apply Scalar.exists_slot_of_not_float <;> rintro rfl <;> simp at hfloat

theorem isCanonical_of_isPlain {v : Int32} (h : (const32 info v).isPlain kindOf)
    (hkind : info.layout.scalar? = some kind) (hslot : kind.slot = .i32) :
    kind.isCanonical (.i32 v.toBitVec) := by
  have hproper := (isPlain_iff.mp h).2.1
  simp [isProper, Layout.wrap, hkind] at hproper
  simp [Scalar.isCanonical, hslot, hproper]

theorem unary_of_isPlain {inner : Scalar} (h : (unary info op x).isPlain kindOf)
    (hkind : info.layout.scalar? = some kind) (hinner : x.layout.scalar? = some inner) :
    (op = .not → inner = .bool) ∧ (op ≠ .not → kind ≠ .bool) := by
  refine ⟨?_, fun hop => ?_⟩
  · rintro rfl
    have hproper := (isPlain_iff.mp h).2.1
    simp [isProper, Layout.isBool, hinner] at hproper
    exact hproper.2
  · rintro rfl
    have hproper := (isPlain_iff.mp h).2.1
    simp [isProper, Layout.isBool, hkind] at hproper

/-- The operands of arithmetic are represented like its result. -/
theorem alike_of_isPlain_binary (h : (binary info op x y).isPlain kindOf)
    (hop : (info.layout.arith op).isOk) :
    x.layout.Alike info.layout ∧ y.layout.Alike info.layout := by
  obtain ⟨hx, hy⟩ := of_decide_eq_true (isPlain_iff.mp h).2.1
  obtain ⟨kind, hkind⟩ := Option.isSome_iff_exists.mp (Layout.isScalar_of_arith hop)
  exact ⟨Layout.alike_of_scalar? (hx.trans hkind) hkind, Layout.alike_of_scalar? (hy.trans hkind) hkind⟩

theorem alike_of_isPlain_compare (h : (compare info op x y).isPlain kindOf)
    (hop : (x.layout.compare op).isOk) : y.layout.Alike x.layout := by
  have hy := of_decide_eq_true (isPlain_iff.mp h).2.1
  obtain ⟨kind, hkind⟩ := Option.isSome_iff_exists.mp (Layout.isScalar_of_compare hop)
  exact Layout.alike_of_scalar? (hy.trans hkind) hkind

theorem alike_of_isPlain_scaledOffset (h : (scaledOffset info ptr index size).isPlain kindOf)
    (hslot : info.layout.slot = .i32) : ptr.layout.Alike info.layout := by
  have hptr := (of_decide_eq_true (isPlain_iff.mp h).2.1).2
  obtain ⟨kind, hkind, _⟩ := Layout.exists_scalar_of_slot hslot (by decide)
  exact Layout.alike_of_scalar? (hptr.trans hkind) hkind

theorem size_of_isPlain_scaledOffset (h : (scaledOffset info ptr index size).isPlain kindOf)
    (hkind : info.layout.scalar? = some kind) : kind.size = 4 := by
  have hproper := (isPlain_iff.mp h).2.1
  exact Layout.kind_size_of_size hkind (of_decide_eq_true hproper).1

theorem size_of_isPlain_addressOf (h : (addressOf info x).isPlain kindOf)
    (hkind : info.layout.scalar? = some kind) : kind.size = 4 := by
  have hproper := (isPlain_iff.mp h).2.1
  exact Layout.kind_size_of_size hkind (of_decide_eq_true hproper)

end Plain

/-- The values of a node are those of its slots. -/
def Yields (world : World) (watch : Watch) (fuel : Nat) (n : Node) : Prop :=
  ∀ s, (n.eval world watch fuel s).Yields (n.layout.Holds watch.canonical)

/-- The values of several nodes are those of all their slots. -/
theorem evalAll_yields (ih : ∀ n ∈ nodes, n.Yields world watch fuel) (s : Store) :
    (evalAll world watch fuel nodes s).Yields (fun values =>
      values.length = ((nodes.map layout).flatMap Layout.kinds).length ∧
      (watch.canonical → Scalar.allCanonical ((nodes.map layout).flatMap Layout.kinds) values)) := by
  induction nodes generalizing s with
  | nil => exact .normal ⟨rfl, fun _ => rfl⟩ s
  | cons n rest hrest =>
    refine (ih n (.head _) s).andThen (fun vs s₁ hfirst => ?_)
    refine (hrest (fun m hm => ih m (.tail _ hm)) s₁).andThen (fun more s₂ hsecond => ?_)
    rw [List.map_cons, List.flatMap_cons]
    refine .normal ⟨?_, fun hcanonical => ?_⟩ s₂
    · rw [List.length_append, List.length_append, hfirst.1, hsecond.1]
    · exact Scalar.allCanonical_append (hfirst.2 hcanonical) (hsecond.2 hcanonical)

theorem evalAll_holds {l : Layout} (ih : ∀ n ∈ nodes, n.Yields world watch fuel)
    (hkinds : l.kinds = (nodes.map layout).flatMap Layout.kinds) (s : Store) :
    (evalAll world watch fuel nodes s).Yields (l.Holds watch.canonical) := by
  unfold Layout.Holds
  rw [hkinds]
  exact evalAll_yields ih s

theorem eval_holds {kindOf : TypeKey → Option Scalar} {Γ : Surroundings} {n : Node}
    (hworld : world.signature = Γ.functions) (hwf : n.WellFormed Γ)
    (hplain : watch.canonical → n.every (isPlain kindOf)) : n.Yields world watch fuel := by
  induction n using partsInduction generalizing Γ with
  | absent => exact hwf.elim
  | const32 info v =>
    obtain ⟨kind, hkind, hslot⟩ := Layout.exists_scalar_of_slot hwf (by decide)
    exact .normal (.singleton hkind (fun hc =>
      isCanonical_of_isPlain (every_self rfl (hplain hc)) hkind hslot))
  | const64 info v =>
    obtain ⟨kind, hkind, hslot⟩ := Layout.exists_scalar_of_slot hwf (by decide)
    exact .normal (.singleton hkind (fun _ => Scalar.isCanonical_long hslot))
  | constFloat info v =>
    obtain ⟨kind, hkind⟩ := Option.isSome_iff_exists.mp (Layout.isScalar_of_isFloat hwf)
    refine .normal (.singleton hkind (fun hcanonical => ?_))
    have hfloat : info.layout.isFloat = false := isFloat_of_isPlain (every_self rfl (hplain hcanonical))
    rw [WellFormed, hfloat] at hwf
    cases hwf
  | binary info op x y hx hy =>
    have hparts hc := every_pair rfl (hplain hc)
    obtain ⟨hwfx, hwfy, hslotx, hsloty, hop⟩ := hwf
    obtain ⟨kind, a, instr, hkind, rfl, hinstr⟩ := Layout.exists_of_arith hop
    have hscalar := Layout.isScalar_of_arith hop
    obtain ⟨kindx, hkindx⟩ := Option.isSome_iff_exists.mp (Layout.isScalar_of_slot_eq hscalar hslotx)
    obtain ⟨kindy, hkindy⟩ := Option.isSome_iff_exists.mp (Layout.isScalar_of_slot_eq hscalar hsloty)
    refine fun s => (hx hworld hwfx (fun hc => (hparts hc).2.1) s).andThen (fun xs s₁ hxs => ?_)
    refine (hy hworld hwfy (fun hc => (hparts hc).2.2) s₁).andThen (fun ys s₂ hys => ?_)
    obtain ⟨v, rfl, hv⟩ := hxs.exists_of_scalar? hkindx
    obtain ⟨w, rfl, hw⟩ := hys.exists_of_scalar? hkindy
    refine .ofValue (fun r hr => .singleton hkind (fun hc => ?_)) s₂
    obtain ⟨halikex, halikey⟩ := alike_of_isPlain_binary (hparts hc).1 hop
    obtain rfl := Option.some.inj (hkindx.symm.trans (halikex.2.trans hkind))
    obtain rfl := Option.some.inj (hkindy.symm.trans (halikey.2.trans hkind))
    obtain ⟨_, hslot⟩ := slot_of_isPlain (hparts hc).1 hkind
    exact (Layout.binaryValue_settles hkind hslot hinstr (hv hc) (hw hc)).isCanonical hr
  | unary info op x hx =>
    have hparts hc := every_single rfl (hplain hc)
    obtain ⟨hwfx, htakes⟩ := hwf
    obtain ⟨kind, hkind⟩ := Option.isSome_iff_exists.mp htakes.isScalar
    obtain ⟨inner, hinner⟩ := Option.isSome_iff_exists.mp htakes.isScalar_source
    refine fun s => (hx hworld hwfx (fun hc => (hparts hc).2) s).andThen (fun xs s₁ hxs => ?_)
    obtain ⟨v, rfl, hv⟩ := hxs.exists_of_scalar? hinner
    refine .ofValue (fun r hr => .singleton hkind (fun hc => ?_)) s₁
    obtain ⟨hnot, hother⟩ := unary_of_isPlain (hparts hc).1 hkind hinner
    obtain ⟨_, hslot⟩ := slot_of_isPlain (hparts hc).1 hkind
    exact (Layout.unaryValue_settles hkind hinner htakes hslot hother hnot (hv hc)).isCanonical hr
  | convert info x hx =>
    have hparts hc := every_single rfl (hplain hc)
    obtain ⟨hwfx, hsource, htarget⟩ := hwf
    obtain ⟨kind, hkind⟩ := Option.isSome_iff_exists.mp htarget
    obtain ⟨inner, hinner⟩ := Option.isSome_iff_exists.mp hsource
    refine fun s => (hx hworld hwfx (fun hc => (hparts hc).2) s).andThen (fun xs s₁ hxs => ?_)
    obtain ⟨v, rfl, hv⟩ := hxs.exists_of_scalar? hinner
    refine .ofValue (fun r hr => .singleton hkind (fun hc => ?_)) s₁
    obtain ⟨_, hslot⟩ := slot_of_isPlain (hparts hc).1 hkind
    obtain ⟨_, hslotx⟩ := slot_of_isPlain (every_self hwfx.isAbsent_eq (hparts hc).2) hinner
    rw [Layout.convertValue, hinner, hkind] at hr
    exact (Scalar.convert_settles hslotx hslot (hv hc)).isCanonical hr
  | compare info op x y hx hy =>
    have hparts hc := every_pair rfl (hplain hc)
    obtain ⟨hwfx, hwfy, hsloty, hop, hslot⟩ := hwf
    obtain ⟨kind, hkind, hslot⟩ := Layout.exists_scalar_of_slot hslot (by decide)
    have hscalar := Layout.isScalar_of_compare hop
    obtain ⟨inner, hinner⟩ := Option.isSome_iff_exists.mp hscalar
    obtain ⟨kindy, hkindy⟩ := Option.isSome_iff_exists.mp (Layout.isScalar_of_slot_eq hscalar hsloty)
    refine fun s => (hx hworld hwfx (fun hc => (hparts hc).2.1) s).andThen (fun xs s₁ hxs => ?_)
    refine (hy hworld hwfy (fun hc => (hparts hc).2.2) s₁).andThen (fun ys s₂ hys => ?_)
    obtain ⟨v, rfl, hv⟩ := hxs.exists_of_scalar? hinner
    obtain ⟨w, rfl, hw⟩ := hys.exists_of_scalar? hkindy
    refine .ofValue (fun r hr => .singleton hkind (fun hc => ?_)) s₂
    have halike := alike_of_isPlain_compare (hparts hc).1 hop
    obtain rfl := Option.some.inj (hkindy.symm.trans (halike.2.trans hinner))
    obtain ⟨_, hslotx⟩ := slot_of_isPlain (every_self hwfx.isAbsent_eq (hparts hc).2.1) hinner
    exact (Layout.compareValue_settles hop hinner hslotx hslot (hv hc) (hw hc)).isCanonical hr
  | data info addr offset _ =>
    refine fun s => .after (fun as s₁ => ?_)
    split
    · exact .reads (.ofAttempt (fun values => Layout.length_readAt) s₁)
    · exact .none
  | scaledOffset info ptr index size _ _ =>
    obtain ⟨kind, hkind, hslot⟩ := Layout.exists_scalar_of_slot hwf.2.2.2.1 (by decide)
    refine fun s => .after (fun ps s₁ => .after (fun is s₂ => ?_))
    split
    · split
      · refine .normal (.singleton hkind (fun hc => ?_)) s₂
        have hsize := size_of_isPlain_scaledOffset (every_self rfl (hplain hc)) hkind
        exact Scalar.isCanonical_of_size hslot hsize
      · exact .none
    · exact .none
  | locals info slots =>
    have hlen := congrArg List.length hwf.2
    exact fun s => .reads (.normal (by simpa [Layout.slots, layout, Node.info] using hlen) s)
  | ifElse info cond yes no _ hyes hno =>
    obtain ⟨_, _, hwfyes, halike, hwfno⟩ := hwf
    refine fun s => .after (fun cs s₁ => ?_)
    split
    · split
      · have hyesplain := fun hc => every_child (hplain hc) yes_mem_children
        exact fun values s' h => (hyes hworld hwfyes hyesplain s₁ values s' h).of_fits halike.1
      · split
        next habsent =>
          rcases hwfno with ⟨_, hvoid⟩ | ⟨hwfno, _⟩
          · exact .normal (.of_isVoid hvoid) s₁
          · rw [hwfno.isAbsent_eq] at habsent
            cases habsent
        next hpresent =>
          rcases hwfno with ⟨habsent, _⟩ | ⟨hwfno, halike⟩
          · exact absurd habsent hpresent
          · have hnoplain := fun hc => every_child (hplain hc) (no_mem_children hwfno.isAbsent_eq)
            exact fun values s' h => (hno hworld hwfno hnoplain s₁ values s' h).of_fits halike.1
    · exact .none
  | loop info label body hbody =>
    intro s values s' h
    obtain ⟨_, s₁, hrun, _⟩ := Result.repeating_last h
    have hbodyplain := fun hc => (every_single rfl (hplain hc)).2
    exact (hbody (by simpa using hworld) hwf.1 hbodyplain s₁ values s' hrun).of_fits hwf.2.1
  | block info label children ih =>
    intro s values s' h
    have hall := allWellFormed_iff.mp hwf.1
    obtain ⟨⟨o, s₁⟩, hrun, heq⟩ := Option.map_eq_some_iff.mp h
    cases o with
    | normal vs =>
      cases heq
      refine evalAll_holds (fun n hn => ?_) hwf.2.kinds_eq s _ _ hrun
      exact ih n hn (by simpa using hworld) (hall n hn) (fun hc => every_child (hplain hc) hn)
    | branch l vs =>
      -- A branch to the block itself brings no values, and only a block without a value lets
      -- its children name its label.
      have hbranch := evalAll_mayBranch (fun n _ => eval_mayBranch) (fun _ _ h => h) s l vs s₁ hrun
      simp only [Outcome.endAt] at heq
      split at heq
      next hlabel =>
        cases heq
        have hmem := hbranch.2 _ hwf.1
        rw [hlabel] at hmem
        rw [hbranch.1]
        exact .of_isVoid (Surroundings.reachable_of_mem_enter hmem)
      · cases heq
    | ret vs => cases heq
    | trap => cases heq
  | seq info children ih =>
    have hall := allWellFormed_iff.mp hwf.1
    refine evalAll_holds (fun n hn => ?_) hwf.2.kinds_eq
    exact ih n hn hworld (hall n hn) (fun hc => every_child (hplain hc) hn)
  | structLit info parts ih | arrayLit info parts ih =>
    have hall := allWellFormed_iff.mp hwf.1
    have hkinds := hwf.2.kinds_eq (fun part hpart => by
      obtain ⟨n, hn, rfl⟩ := List.mem_map.mp hpart
      exact (hall n hn).isOk_leaves)
    refine evalAll_holds (fun n hn => ?_) hkinds.2
    exact ih n hn hworld (hall n hn) (fun hc => every_child (hplain hc) hn)
  | call info func name args _ =>
    intro s
    rw [eval]
    refine .after (fun vs s₁ => .reads (fun values s₂ h => ?_))
    unfold World.invoke at h
    split at h
    · cases h
    next hcall =>
      cases h
      have htypes := world.call_typed _ _ func _ _ _ _ (hworld ▸ hwf.2.2) hcall
      simpa [Layout.slots, layout, Node.info] using congrArg List.length htypes
  | assign info target value _ _ _ =>
    have hvoid : (assign info target value).layout.Holds watch.canonical [] := .of_isVoid hwf.1
    cases target with
    | locals tinfo slots =>
      refine fun s => .after (fun vs s₁ => ?_)
      split
      · exact .normal hvoid _
      · exact .none
    | data tinfo addr offset =>
      refine fun s => .after (fun as s₁ => .after (fun vs s₂ => ?_))
      split
      · exact fun values s' h => Layout.eq_nil_of_writeAt h ▸ hvoid
      · exact .none
    | _ => exact fun s => by simp only [eval]; exact .none
  | addressOf info x _ haddr =>
    obtain ⟨hslot, hin⟩ := hwf
    cases x with
    | data dinfo addr offset =>
      have hparts hc := every_single rfl (hplain hc)
      have haplain := fun hc => (every_single rfl (hparts hc).2).2
      refine fun s => (haddr dinfo addr offset rfl hworld hin.1 haplain s).andThen (fun as s₁ has => ?_)
      refine .ofAttempt (fun values => has.displace hin.2 hslot (fun kind hkind hc => ?_)) s₁
      exact size_of_isPlain_addressOf (hparts hc).1 hkind
    | _ => exact hin.elim
  | branchIf info label cond _ =>
    refine fun s => .after (fun cs s₁ => ?_)
    split
    · split
      · rintro _ _ ⟨⟩
      · exact .normal (.of_isVoid hwf.1) s₁
    · exact .none
  | branchTable info index targets default _ =>
    refine fun s => .after (fun is s₁ => ?_)
    split <;> rintro _ _ ⟨⟩
  | ret info value _ =>
    intro s
    rw [eval]
    split
    · rintro _ _ ⟨⟩
    · exact .after (fun vs s₁ => (by rintro _ _ ⟨⟩))
  | drop info x _ => exact fun s => .after (fun vs s₁ => .normal (.of_isVoid hwf.1) s₁)
  | nop info => exact .normal (.of_isVoid hwf)
  | branch | unreachable => rintro _ _ _ ⟨⟩

end Node

end TreeWasm
