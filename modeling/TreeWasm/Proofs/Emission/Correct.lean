import TreeWasm.Proofs.Emission.Values

/-! # Emitted code does what its node means

For code whose values in slots and in memory are scalars: whenever emission succeeds, the emitted
code ends as evaluation of the node ends, with the same values on the stack and the same store.
-/

namespace TreeWasm

open Wasm

variable {label : Option Nat} {cond : Node}

namespace Node.Emitted

open Emit (Ensures)

variable {world : World} {Γ : Surroundings} {site : Site} {ctx : EmitContext} {info : Info}

theorem branches (hserves : site.Serves Γ ctx) {label d : Nat} (hlabel : label ∈ Γ.targets)
    (hdepth : ctx.enclosing.findIdx? (· == some label) = some d) (tables : Tables)
    (stack below : List Value) (s : Store) :
    ((site.frame tables).arities[d]?.bind (fun arity =>
      some (Outcome.branch d (stack.take arity), s))) =
      Result.onto ctx.enclosing below (some (.branch label [], s)) := by
  have hcarried : (site.frame tables).arities[d]? = some 0 := by
    simp only [Site.frame, List.getElem?_map, hserves.reach label hlabel d hdepth]
    rfl
  have hindex := (List.findIdx?_eq_some_iff_findIdx_eq.mp hdepth).2
  rw [hcarried, Option.bind_some, List.take_zero, Result.onto_some, Outcome.onto, hindex]
  rfl

theorem branch {label : Nat} (h : (Node.branch info label).Ready world Γ site ctx) :
    (Node.branch info label).Emitted world site ctx := by
  refine .marked (.map (Ensures.depth.mono (fun d tables hdepth fuel below s => ?_)))
  rw [Instr.runAll_singleton]
  exact branches h.serves h.wellFormed.2 hdepth tables below below s

theorem branchIf {label : Nat} (h : (Node.branchIf info label cond).Ready world Γ site ctx)
    (hcond : cond.Emitted world site ctx) :
    (Node.branchIf info label cond).Emitted world site ctx := by
  obtain ⟨_, hlabel, hwf, hslot⟩ := h.wellFormed
  have hready := h.child (by simp) hwf
  have hscalar := Layout.isScalar_of_slot hslot (by decide)
  refine .marked (hcond.bind (fun code => .map (Ensures.depth.mono
    (fun d tables hdepth hcode fuel below s => hcode.followed_by (fun cs s₁ hcs => ?_)))))
  obtain ⟨v, rfl⟩ := hready.exists_value hscalar hcs
  rw [Instr.runAll_singleton]
  cases v with
  | i32 c =>
    by_cases hzero : c = 0
    · simp only [ne_eq, hzero, not_true_eq_false, if_false]
      rfl
    · simp only [ne_eq, hzero, not_false_eq_true, if_true]
      exact (if_neg hzero).trans (branches h.serves hlabel hdepth tables below below s₁)
  | _ => rfl

theorem branchTable {index : Node} {labels : List Nat} {default : Nat}
    (h : (Node.branchTable info index labels default).Ready world Γ site ctx)
    (hindex : index.Emitted world site ctx) :
    (Node.branchTable info index labels default).Emitted world site ctx := by
  obtain ⟨_, hlabels, hwf, hslot⟩ := h.wellFormed
  have hready := h.child (by simp) hwf
  have hscalar := Layout.isScalar_of_slot hslot (by decide)
  refine .marked (hindex.bind (fun code => (Ensures.mapM labels (fun _ _ => .depth)).bind
    (fun depths => .map (Ensures.depth.mono
      (fun d tables hdepth hdepths hcode fuel below s => hcode.followed_by (fun is s₁ his => ?_))))))
  obtain ⟨v, rfl⟩ := hready.exists_value hscalar his
  rw [Instr.runAll_singleton]
  cases v with
  | i32 i =>
    exact branches h.serves (hlabels _ (getD_mem_cons labels default i.toNat))
      (getD_forall₂ hdepths hdepth i.toNat) tables below below s₁
  | _ => rfl

theorem ret {value : Node} (h : (Node.ret info value).Ready world Γ site ctx)
    (hvalue : value.Ready world Γ site ctx → value.Emitted world site ctx) :
    (Node.ret info value).Emitted world site ctx := by
  refine .marked ?_
  rcases h.wellFormed.2 with ⟨habsent, hvoid⟩ | ⟨hwf, halike⟩
  · rw [if_pos habsent]
    refine .pure (fun tables fuel below s => ?_)
    have hresults : site.results = [] := by
      rw [h.serves.results, Layout.slots, Layout.kinds_of_isVoid hvoid, List.map_nil]
    simp only [eval, if_pos habsent, Instr.runAll_singleton, Instr.run, Instr.step, Site.frame, hresults]
    rfl
  · have hpresent : ¬ value.isAbsent := by simp [hwf.isAbsent_eq]
    have hready := h.child (by simp [children_ret, hpresent]) hwf
    rw [if_neg hpresent]
    refine (hvalue hready).bind (fun code => .pure (fun tables hcode fuel below s => ?_))
    simp only [eval, if_neg hpresent]
    refine hcode.followed_by (fun values s₁ hvalues => ?_)
    have hlen : values.reverse.length = (site.frame tables).results := by
      rw [List.length_reverse, hready.length_eq hvalues, halike.1.kinds_eq, Site.frame,
        h.serves.results, Layout.slots, List.length_map]
    simp only [Instr.runAll_singleton, Instr.run, Instr.step, List.take_left' hlen, List.reverse_reverse]
    rfl

theorem leave {types : List ValType} {code : Code} {tables : Tables} {f : Nat → Store → Result}
    (h : (site.enter types).Executes world (label :: ctx.enclosing) f code tables) (fuel : Nat)
    (below : List Value) (s : Store) :
    (Instr.runAll world fuel ((site.frame tables).enter types.length) code [] s).map
        (fun (o, s) => (o.leave below, s)) =
      Result.onto ctx.enclosing below ((f fuel s).map (fun (o, s) => (o.endAt label, s))) := by
  rw [← Result.map_leave_onto]
  exact congrArg _ (h fuel [] s)

theorem ifElse {yes no : Node} (h : (Node.ifElse info cond yes no).Ready world Γ site ctx)
    (hcond : cond.Emitted world site ctx)
    (hyes : yes.Emitted world (site.enter info.layout.slots) (ctx.inside none))
    (hno : no.isAbsent = false → no.Emitted world (site.enter info.layout.slots) (ctx.inside none)) :
    (Node.ifElse info cond yes no).Emitted world site ctx := by
  obtain ⟨hwf, hslot, _⟩ := h.wellFormed
  have hready := h.child cond_mem_children hwf
  have hscalar := Layout.isScalar_of_slot hslot (by decide)
  refine .marked (hcond.bind (fun test => Ensures.blockType.bind (fun type =>
    (Ensures.inside hyes).bind (fun yesCode => ?_))))
  split
  next habsent =>
    refine .pure (fun tables hyes htype htest fuel below s =>
      htest.followed_by (fun cs s₁ hcs => ?_))
    obtain ⟨v, rfl⟩ := hready.exists_value hscalar hcs
    rw [Instr.runAll_singleton]
    cases v with
    | i32 c =>
      refine (Instr.run_ifThen htype.2).trans ?_
      simp only [ne_eq, ite_not, if_pos habsent]
      split
      · rfl
      · rw [leave hyes]
        simp
    | _ => rfl
  next hpresent =>
    refine (Ensures.inside (hno (by simpa using hpresent))).bind (fun noCode => ?_)
    refine .pure (fun tables hno hyes htype htest fuel below s =>
      htest.followed_by (fun cs s₁ hcs => ?_))
    obtain ⟨v, rfl⟩ := hready.exists_value hscalar hcs
    rw [Instr.runAll_singleton]
    cases v with
    | i32 c =>
      refine (Instr.run_ifElse htype.2).trans ?_
      simp only [ne_eq, ite_not, if_neg hpresent]
      split
      · rw [leave hno]
        simp
      · rw [leave hyes]
        simp
    | _ => rfl

theorem loop {body : Node} (h : (Node.loop info label body).Ready world Γ site ctx)
    (hbody : ∀ {Γ site ctx}, body.Ready world Γ site ctx → body.Emitted world site ctx) :
    (Node.loop info label body).Emitted world site ctx := by
  have hwf := h.wellFormed.1
  refine .marked (Ensures.read.bind_of (fun c hc => ?_))
  obtain ⟨_, rfl⟩ := hc
  split
  next hunused =>
    have hready : body.Ready world (Γ.enter label true) site c :=
      h.inner (by simp) Γ.functions_enter rfl hwf (h.serves.skip true hunused)
    refine (hbody hready).mono (fun code tables hcode _ fuel below s => (hcode fuel below s).trans ?_)
    have honce : Result.repeating (Outcome.restartAt? label) (fun _ => body.eval world .off fuel)
        fuel [] s = body.eval world .off fuel s :=
      Result.repeating_once (fun o s' hrun =>
        restartAt?_eq_none (hready.not_mem_targets hunused) hrun)
    exact congrArg _ honce.symm
  next hused =>
    have hready : body.Ready world (Γ.enter label true) (site.enter []) (c.inside label) :=
      h.inner (by simp) Γ.functions_enter rfl hwf (h.serves.enter hused (fun _ => rfl))
    refine Ensures.blockType.bind (fun type => (Ensures.inside (hbody hready)).bind (fun code =>
      .pure (fun tables hcode htype _ fuel below s => ?_)))
    have hrepeat := Result.repeating_onto (hcode fuel []) (fun l values s s' hrun =>
      (eval_mayBranch s l values s' hrun).1) fuel s
    rw [Instr.runAll_singleton, Instr.run_loop htype.2]
    refine (congrArg (Option.map _) hrepeat).trans ?_
    rw [Result.map_leave_onto, Result.repeating_endAt]
    rfl

theorem block {children : List Node} (h : (Node.block info label children).Ready world Γ site ctx)
    (hchildren : ∀ n ∈ children, ∀ {Γ site ctx}, n.Ready world Γ site ctx → n.Emitted world site ctx) :
    (Node.block info label children).Emitted world site ctx := by
  have hwf := allWellFormed_iff.mp h.wellFormed.1
  refine .marked (Ensures.read.bind_of (fun c hc => ?_))
  obtain ⟨_, rfl⟩ := hc
  split
  next hunused =>
    have hready : ∀ n ∈ children, n.Ready world (Γ.enter label info.layout.isVoid) site c :=
      fun n hn => h.inner hn Γ.functions_enter rfl (hwf n hn) (h.serves.skip _ hunused)
    refine (Ensures.loadAll (fun n hn => hchildren n hn (hready n hn))).mono
      (fun code tables hcode _ fuel below s => (hcode fuel below s).trans ?_)
    have hend := map_endAt (n := .seq info children) (h.not_mem_targets hunused) world .off fuel s
    exact congrArg _ hend.symm
  next hused =>
    have hready : ∀ n ∈ children, n.Ready world (Γ.enter label info.layout.isVoid)
        (site.enter info.layout.slots) (c.inside label) := by
      refine fun n hn => h.inner hn Γ.functions_enter rfl (hwf n hn) (h.serves.enter hused (fun hvoid => ?_))
      rw [Layout.slots, Layout.kinds_of_isVoid hvoid, List.map_nil]
    refine Ensures.blockType.bind (fun type =>
      (Ensures.inside (Ensures.loadAll (fun n hn => hchildren n hn (hready n hn)))).bind (fun code =>
        .pure (fun tables hcode htype _ fuel below s => ?_)))
    rw [Instr.runAll_singleton, Instr.run_block htype.2]
    exact leave hcode fuel below s

end Node.Emitted

namespace Node

theorem emitted_of_ready {world : World} {Γ : Surroundings} {site : Site} {ctx : EmitContext}
    {n : Node} (h : n.Ready world Γ site ctx) : n.Emitted world site ctx := by
  induction n using partsInduction generalizing Γ site ctx with
  | absent => exact h.wellFormed.elim
  | const32 | const64 | nop | unreachable => exact .marked (.pure (fun _ _ _ _ => rfl))
  | constFloat info v =>
    refine .marked (.pure (fun tables fuel below s => ?_))
    simp only [eval]
    split <;> rfl
  | binary info op x y hx hy =>
    exact .binary h (hx (h.child (by simp) h.wellFormed.1)) (hy (h.child (by simp) h.wellFormed.2.1))
  | unary info op x hx => exact .unary h (hx (h.child (by simp) h.wellFormed.1))
  | convert info x hx => exact .convert h (hx (h.child (by simp) h.wellFormed.1))
  | compare info op x y hx hy =>
    exact .compare h (hx (h.child (by simp) h.wellFormed.1)) (hy (h.child (by simp) h.wellFormed.2.1))
  | data info addr offset haddr =>
    exact .data h (haddr (h.child (by simp) h.wellFormed.1))
  | scaledOffset info ptr index size hptr hindex =>
    exact .scaledOffset h (hptr (h.child (by simp) h.wellFormed.1))
      (hindex (h.child (by simp) h.wellFormed.2.1))
  | locals info slots => exact .locals
  | ifElse info cond yes no hcond hyes hno =>
    obtain ⟨hwfc, _, hwfy, _, hwfn⟩ := h.wellFormed
    have hserves := h.serves.anonymous info.layout.slots
    refine .ifElse h (hcond (h.child cond_mem_children hwfc))
      (hyes (h.inner yes_mem_children rfl rfl hwfy hserves)) (fun hpresent => ?_)
    rcases hwfn with ⟨habsent, _⟩ | ⟨hwfn, _⟩
    · rw [hpresent] at habsent
      cases habsent
    · exact hno (h.inner (no_mem_children hpresent) rfl rfl hwfn hserves)
  | loop info label body hbody => exact .loop h hbody
  | block info label children ih => exact .block h (fun n hn => ih n hn)
  | seq info children ih =>
    refine .marked (.loadAll (fun n hn => ih n hn (h.child hn ?_)))
    exact allWellFormed_iff.mp h.wellFormed.1 n hn
  | branch info label => exact .branch h
  | branchIf info label cond hcond =>
    exact .branchIf h (hcond (h.child (by simp) h.wellFormed.2.2.1))
  | branchTable info index labels default hindex =>
    exact .branchTable h (hindex (h.child (by simp) h.wellFormed.2.2.1))
  | ret info value hvalue => exact .ret h hvalue
  | drop info x hx => exact .drop h (hx (h.child (by simp) h.wellFormed.2))
  | structLit info fields | arrayLit info elems => cases every_self rfl h.scalars
  | call info func name args ih =>
    refine .call h (fun n hn => ih n hn (h.child hn ?_))
    exact allWellFormed_iff.mp h.wellFormed.1 n hn
  | assign info target value _ hvalue haddr =>
    obtain ⟨_, hplace, _, hwf, _⟩ := h.wellFormed
    have hvalue := hvalue (h.child (by simp) hwf)
    cases target with
    | locals tinfo slots => exact .assign_locals h hvalue
    | data tinfo addr offset => exact .assign_data h (haddr tinfo addr offset rfl) hvalue
    | _ => cases hplace
  | addressOf info x _ haddr =>
    exact .addressOf h (fun dinfo addr offset hx => haddr dinfo addr offset hx)

/-- The code of a whole body ends as the body ends: with its values on the stack, the first one
lowest, by a return or by a trap, in the same store and after the same calls. No branch leaves it. -/
theorem load_executes_body {world : World} {Γ : Surroundings} {labels : Labels} {signExt : Bool}
    {body : Node} {st st' : EmitState} {code : Code} {types : List FuncType}
    (hworld : world.signature = Γ.functions) (hwf : body.WellFormed Γ) (hclosed : Γ.targets = [])
    (hscalars : body.every isScalarCode)
    (huses : ∀ l, body.targets.count l ≤ labels.uses (some l))
    (hload : body.load ⟨labels, signExt, []⟩ st = (.ok code, st'))
    (htypes : st'.module.types <+: types) (fuel : Nat) (s : Store) :
    Instr.runAll world fuel ⟨[], Γ.result.slots.length, types⟩ code [] s =
        (body.eval world .off fuel s).onto [] [] ∧
      ∀ l values s', body.eval world .off fuel s ≠ some (.branch l values, s') := by
  have hserves : Site.Serves ⟨[], Γ.result.slots, Γ.functions⟩ Γ ⟨labels, signExt, []⟩ := by
    refine ⟨rfl, rfl, fun l hl => absurd hl List.not_mem_nil, fun l hl => ?_⟩
    rw [hclosed] at hl
    cases hl
  have hemitted := emitted_of_ready ⟨hworld, hwf, hscalars, huses, hserves⟩
  obtain ⟨_, hcode⟩ := hemitted st code st' hload
  refine ⟨hcode ⟨types, st'.scratch.kind?⟩ ⟨htypes, fun _ _ h => h⟩ fuel [] s, ?_⟩
  intro l values s' hrun
  have hcaught := (eval_mayBranch s l values s' hrun).2.2 Γ hwf
  rw [hclosed] at hcaught
  cases hcaught

/-- A loop that counts a byte down to zero. -/
def countdown : Node :=
  .block ⟨.unset, .unit⟩ (some 0)
    [.loop ⟨.unset, .unit⟩ (some 1)
      (.seq ⟨.unset, .unit⟩
        [.branchIf ⟨.unset, .unit⟩ 0 (.unary flag .not (.convert flag (.locals byte [0]))),
          .assign ⟨.unset, .unit⟩ (.locals byte [0])
            (.binary byte (.arith .sub) (.locals byte [0]) (.const32 byte 1)),
          .branch ⟨.unset, .unit⟩ 1])]
where
  byte : Info := ⟨.unset, .scalar ⟨.builtin .i8, "i8"⟩ .i8⟩
  flag : Info := ⟨.unset, .scalar ⟨.builtin .bool, "bool"⟩ .bool⟩

/-- Its code without sign-extension instructions, with the positions that are kept for messages. -/
def countdownCode : Code :=
  [.mark .unset, .block .empty
    [.mark .unset, .loop .empty
      [.mark .unset,
        .mark .unset, .mark .unset, .mark .unset, .mark .unset, .localGet 0,
        .numeric (.isZero .w32), .numeric (.isZero .w32), .numeric (.isZero .w32), .brIf 1,
        .mark .unset, .mark .unset, .mark .unset, .localGet 0, .mark .unset, .const32 1,
        .numeric (.int .w32 .sub), .const32 24, .numeric (.int .w32 .shl), .const32 24,
        .numeric (.int .w32 (.shr .signed)), .localSet 0,
        .mark .unset, .br 0]]]

theorem load_executes_countdown :
    countdown.load ⟨⟨[1, 1]⟩, false, []⟩ default = (.ok countdownCode, default) ∧
      Instr.runAll default 2 ⟨[], 0, []⟩ countdownCode [] ((default : Store).setLocal 0 (.i32 2)) =
        some (.normal [], (((default : Store).setLocal 0 (.i32 2)).setLocal 0 (.i32 1)).setLocal 0
          (.i32 0)) := by
  have hload : countdown.load ⟨⟨[1, 1]⟩, false, []⟩ default = (.ok countdownCode, default) := rfl
  refine ⟨hload, ?_⟩
  have hwf : countdown.WellFormed ⟨fun _ => some .i32, fun _ => none, .unit, []⟩ :=
    ⟨⟨⟨⟨⟨⟨rfl, .tail _ (.head _), ⟨⟨⟨rfl, rfl⟩, rfl, rfl⟩, rfl, .inl rfl⟩, rfl⟩,
      ⟨rfl, rfl, ⟨rfl, rfl⟩, ⟨⟨rfl, rfl⟩, rfl, rfl, rfl, rfl⟩, rfl⟩, ⟨rfl, .head _⟩, trivial⟩,
      ⟨rfl, rfl, .refl _⟩⟩, .refl _⟩, trivial⟩, .refl _⟩
  have huses : ∀ l, countdown.targets.count l ≤ Labels.uses ⟨[1, 1]⟩ (some l) := by
    intro l
    match l with
    | 0 => decide
    | 1 => decide
    | l + 2 => exact Nat.le_of_eq (List.count_eq_zero.mpr (by simp [countdown, targets, targetsAll]))
  exact (load_executes_body rfl hwf rfl (by decide) huses hload List.nil_prefix 2 _).1

end Node

end TreeWasm
