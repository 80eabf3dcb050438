import TreeWasm.Proofs.Emission.Operators
import TreeWasm.Proofs.Emission.Scope
import TreeWasm.Proofs.Meaning.Canonical

/-! # The code of values and effects

When code at a site does what evaluation of a node does, with the rules to put such code together. For
operators, accesses to slots and memory, and calls: code of the node from code of its parts. All values
in slots and in memory are scalars.
-/

namespace TreeWasm

open Wasm

namespace Wasm

/-- The values of a computation on top of those before it. -/
theorem Result.onto_append (enclosing : List (Option Nat)) (values below : List Value)
    (r : Result) :
    r.onto enclosing (values.reverse ++ below) =
      (r.andThen (fun more s => some (.normal (values ++ more), s))).onto enclosing below := by
  rcases r with _ | ⟨_ | _ | _ | _, s⟩
  case some.normal more => simp [Outcome.onto]
  all_goals rfl

namespace Instr

variable {world : World} {fuel : Nat} {frame : Frame} {slots : List Nat} {below values : List Value}
  {s : Store}

theorem runAll_drops {types : List ValType} (h : values.length = types.length) :
    runAll world fuel frame (types.map (fun _ => .drop)) (values ++ below) s = some (.normal below, s) := by
  induction types generalizing values with
  | nil =>
    rw [List.eq_nil_of_length_eq_zero h]
    rfl
  | cons type types ih =>
    cases values with
    | nil => cases h
    | cons v values => exact ih (Nat.succ.inj h)

theorem runAll_localGets (below : List Value) (s : Store) :
    runAll world fuel frame (slots.map .localGet) below s =
      some (.normal ((slots.map s.locals).reverse ++ below), s) := by
  induction slots generalizing below with
  | nil => rfl
  | cons slot slots ih =>
    rw [List.map_cons, List.map_cons, List.reverse_cons, List.append_assoc]
    exact ih (s.locals slot :: below)

/-- The last slot is set first, from the top of the stack. -/
theorem runAll_localSets (h : values.length = slots.length) :
    runAll world fuel frame (slots.reverse.map .localSet) (values.reverse ++ below) s =
      some (.normal below, s.setLocals slots values) := by
  induction slots generalizing values below with
  | nil =>
    rw [List.eq_nil_of_length_eq_zero h]
    rfl
  | cons slot slots ih =>
    cases values with
    | nil => cases h
    | cons v values =>
      rw [List.reverse_cons, List.map_append, List.reverse_cons, List.append_assoc,
        runAll_append, ih (Nat.succ.inj h)]
      rfl

end Instr

end Wasm

namespace Site

/-- What running code needs to know of its site. -/
def frame (site : Site) (tables : Tables) : Frame :=
  ⟨site.labels.map List.length, site.results.length, tables.types⟩

/-- Code executes a computation, with any fuel and from any store. -/
def Executes (site : Site) (world : World) (enclosing : List (Option Nat))
    (f : Nat → Store → Result) (code : Code) (tables : Tables) : Prop :=
  ∀ fuel below s, Instr.runAll world fuel (site.frame tables) code below s = (f fuel s).onto enclosing below

namespace Executes

variable {site : Site} {world : World} {enclosing : List (Option Nat)} {tables : Tables}
  {f : Nat → Store → Result} {code : Code}

/-- What follows takes the values of the computation off the stack. -/
theorem followed_by (h : site.Executes world enclosing f code tables) {more : Code} {fuel : Nat}
    {g : List Value → Store → Result} {base below : List Value} {s : Store}
    (hnext : ∀ values s', f fuel s = some (.normal values, s') →
      Instr.runAll world fuel (site.frame tables) more (values.reverse ++ base) s' =
        (g values s').onto enclosing below) :
    Instr.runAll world fuel (site.frame tables) (code ++ more) base s =
      ((f fuel s).andThen g).onto enclosing below := by
  rw [Instr.runAll_append, h fuel base s]
  exact Result.onto_andThen hnext

theorem mark (h : site.Executes world enclosing f code tables) (pos : Position) :
    site.Executes world enclosing f (.mark pos :: code) tables :=
  h

theorem evalAll {nodes : List Node} {codes : List Code}
    (h : List.Forall₂ (fun n code =>
      site.Executes world enclosing (fun fuel => n.eval world .off fuel) code tables) nodes codes) :
    site.Executes world enclosing (fun fuel => Node.evalAll world .off fuel nodes) codes.flatten
      tables := by
  induction h with
  | nil => exact fun fuel below s => rfl
  | cons hfirst _ ih =>
    intro fuel below s
    refine hfirst.followed_by (fun values s₁ _ => ?_)
    rw [ih fuel (values.reverse ++ below) s₁, Result.onto_append]

end Executes

end Site

variable {fuel : Nat} {s' : Store} {values : List Value} {n x addr value : Node} {op : Operator}
  {slots : List Nat} {offset : Int64} {tinfo : Info}

namespace Node

/-- A form whose values in slots or in memory are scalars. -/
def isScalarCode : Node → Bool
  | locals info _ | data info _ _ => info.layout.isScalar
  | structLit .. | arrayLit .. => false
  | _ => true

/-- The node can be emitted in a context for a site, and run in a world. -/
structure Ready (world : World) (Γ : Surroundings) (site : Site) (ctx : EmitContext)
    (n : Node) : Prop where
  signature : world.signature = Γ.functions
  wellFormed : n.WellFormed Γ
  scalars : n.every isScalarCode
  uses : ∀ l, n.targets.count l ≤ ctx.labels.uses (some l)
  serves : site.Serves Γ ctx

/-- The code of a node does what its evaluation does. -/
def Emitted (world : World) (site : Site) (ctx : EmitContext) (n : Node) : Prop :=
  Emit.Ensures ctx n.emission.load (site.Executes world ctx.enclosing (fun fuel => n.eval world .off fuel))

namespace Ready

variable {world : World} {Γ Γ' : Surroundings} {site site' : Site} {ctx context' : EmitContext} {n c : Node}

section

variable (h : n.Ready world Γ site ctx)
include h

/-- A part, possibly inside the construct that the node is. -/
theorem inner (hc : c ∈ n.children) (hfunctions : Γ'.functions = Γ.functions)
    (hlabels : context'.labels = ctx.labels) (hwf : c.WellFormed Γ')
    (hserves : site'.Serves Γ' context') :
    c.Ready world Γ' site' context' where
  signature := h.signature.trans hfunctions.symm
  wellFormed := hwf
  scalars := every_child h.scalars hc
  uses := fun l => hlabels ▸ Nat.le_trans (count_targets_child hc l) (h.uses l)
  serves := hserves

theorem child (hc : c ∈ n.children) (hwf : c.WellFormed Γ) : c.Ready world Γ site ctx :=
  h.inner hc rfl rfl hwf h.serves

theorem length_eq {s : Store} (hrun : n.eval world .off fuel s = some (.normal values, s')) :
    values.length = n.layout.kinds.length :=
  (@eval_holds fuel .off world (fun _ => none) Γ n h.signature h.wellFormed
    (fun hcanonical => by cases hcanonical) s values s' hrun).1

theorem exists_value (hscalar : n.layout.isScalar) {s : Store}
    (hrun : n.eval world .off fuel s = some (.normal values, s')) : ∃ v, values = [v] := by
  obtain ⟨kind, hkind⟩ := Option.isSome_iff_exists.mp hscalar
  have hlen := h.length_eq hrun
  rw [Layout.kinds_of_scalar? hkind] at hlen
  exact List.length_eq_one_iff.mp hlen

/-- A label that no use is counted for is named by no branch. -/
theorem not_mem_targets {label : Option Nat} (hunused : ctx.labels.uses label = 0) :
    ∀ l, label = some l → l ∉ n.targets := by
  rintro l rfl hmem
  have hcount := h.uses l
  rw [hunused] at hcount
  exact absurd (List.count_pos_iff.mpr hmem) (by omega)

end

end Ready

end Node

namespace Emit.Ensures

open Node

variable {world : World} {Γ : Surroundings} {site : Site} {ctx : EmitContext}
  {enclosing : List (Option Nat)} {f : Nat → Store → Result}

theorem marked {value : Emit Code} (h : Ensures ctx value (site.Executes world enclosing f)) :
    Ensures ctx (Emission.ofValue n value).load (site.Executes world enclosing f) :=
  .map (h.mono (fun _ _ hcode => hcode.mark n.pos))

theorem loadAll {nodes : List Node} (h : ∀ n ∈ nodes, n.Emitted world site ctx) :
    Ensures ctx (Emission.loadAll (emissions nodes))
      (site.Executes world ctx.enclosing (fun fuel => Node.evalAll world .off fuel nodes)) := by
  rw [Emission.loadAll, emissions_eq, List.mapM_map]
  exact .map ((mapM nodes h).mono (fun _ _ hcodes => .evalAll hcodes))

end Emit.Ensures

namespace Node.Emitted

open Emit (Ensures)

variable {world : World} {Γ : Surroundings} {site : Site} {ctx : EmitContext} {info : Info}

/-! ## Operators -/

theorem binary {y : Node} (h : (Node.binary info op x y).Ready world Γ site ctx)
    (hx : x.Emitted world site ctx) (hy : y.Emitted world site ctx) :
    (Node.binary info op x y).Emitted world site ctx := by
  obtain ⟨hwfx, hwfy, hslotx, hsloty, hop⟩ := h.wellFormed
  have hscalar := Layout.isScalar_of_arith hop
  have hreadyx := h.child (by simp) hwfx
  have hready := h.child (by simp) hwfy
  refine .marked (hx.bind (fun left => hy.bind (fun right => Ensures.ofLayout.bind (fun instr =>
    Ensures.read.bind (fun c => .pure (fun tables hc hinstr hright hleft fuel below s => ?_))))))
  rw [List.append_assoc]
  refine hleft.followed_by (fun xs s₁ hxs => hright.followed_by (fun ys s₂ hys => ?_))
  obtain ⟨v, rfl⟩ := hreadyx.exists_value (Layout.isScalar_of_slot_eq hscalar hslotx) hxs
  obtain ⟨w, rfl⟩ := hready.exists_value (Layout.isScalar_of_slot_eq hscalar hsloty) hys
  rw [Result.onto_ofValue, Layout.binaryValue, hinstr]
  exact Instr.runAll_numeric_clamp [v, w] (by rw [(Layout.types_arith hinstr).1]; rfl)

theorem compare {y : Node} (h : (Node.compare info op x y).Ready world Γ site ctx)
    (hx : x.Emitted world site ctx) (hy : y.Emitted world site ctx) :
    (Node.compare info op x y).Emitted world site ctx := by
  obtain ⟨hwfx, hwfy, hsloty, hop, _⟩ := h.wellFormed
  have hscalar := Layout.isScalar_of_compare hop
  have hreadyx := h.child (by simp) hwfx
  have hready := h.child (by simp) hwfy
  refine .marked (hx.bind (fun left => hy.bind (fun right => Ensures.ofLayout.bind (fun instr =>
    .pure (fun tables hinstr hright hleft fuel below s => ?_)))))
  rw [List.append_assoc]
  refine hleft.followed_by (fun xs s₁ hxs => hright.followed_by (fun ys s₂ hys => ?_))
  obtain ⟨v, rfl⟩ := hreadyx.exists_value hscalar hxs
  obtain ⟨w, rfl⟩ := hready.exists_value (Layout.isScalar_of_slot_eq hscalar hsloty) hys
  rw [Result.onto_ofValue, Layout.compareValue, hinstr, Instr.runAll_singleton]
  exact Instr.run_numeric [v, w] (by rw [(Layout.types_compare hinstr).1]; rfl)

theorem convert (h : (Node.convert info x).Ready world Γ site ctx) (hx : x.Emitted world site ctx) :
    (Node.convert info x).Emitted world site ctx := by
  obtain ⟨hwf, hsource, htarget⟩ := h.wellFormed
  obtain ⟨a, ha⟩ := Option.isSome_iff_exists.mp hsource
  obtain ⟨b, hb⟩ := Option.isSome_iff_exists.mp htarget
  have hready := h.child (by simp) hwf
  refine .marked (hx.bind (fun code => (Ensures.conversion ha hb _).bind (fun more =>
    .pure (fun tables hmore hcode fuel below s => ?_))))
  refine hcode.followed_by (fun xs s₁ hxs => ?_)
  obtain ⟨v, rfl⟩ := hready.exists_value hsource hxs
  rw [Result.onto_ofValue, Layout.convertValue, ha, hb]
  exact hmore world fuel (site.frame tables) v below s₁

/-- A negation is a subtraction from a zero that is pushed before the operand. -/
theorem runAll_negate {tables : Tables} {code : Code} {signExt : Bool}
    (hcode : site.Executes world ctx.enclosing (fun fuel => x.eval world .off fuel) code tables)
    (hvalue : ∀ fuel s values s', x.eval world .off fuel s = some (.normal values, s') → ∃ v, values = [v]) :
    site.Executes world ctx.enclosing
      (fun fuel => (Node.unary info (.arith .sub) x).eval world .off fuel)
      (match info.layout.slot with
        | .f32 => code ++ [.numeric (.floatNegate .w32)]
        | .f64 => code ++ [.numeric (.floatNegate .w64)]
        | .i64 => .const64 0 :: code ++ [.numeric (.int .w64 .sub)]
        | _ => .const32 0 :: code ++ .numeric (.int .w32 .sub) :: info.layout.clamp signExt)
      tables := by
  intro fuel below s
  cases hslot : info.layout.slot with
  | f32 | f64 =>
    refine hcode.followed_by (fun xs s₁ hxs => ?_)
    obtain ⟨v, rfl⟩ := hvalue fuel s xs s₁ hxs
    simp only [Result.onto_ofValue, Layout.unaryValue, hslot]
    exact Instr.runAll_singleton.trans (Instr.run_numeric [_] rfl)
  | i64 =>
    change Instr.runAll world fuel (site.frame tables) (code ++ _) (.i64 0 :: below) s = _
    refine hcode.followed_by (fun xs s₁ hxs => ?_)
    obtain ⟨v, rfl⟩ := hvalue fuel s xs s₁ hxs
    simp only [Result.onto_ofValue, Layout.unaryValue, hslot, Instr.runAll_singleton]
    exact Instr.run_numeric [.i64 0, v] rfl
  | i32 | invalid =>
    change Instr.runAll world fuel (site.frame tables) (code ++ _) (.i32 0 :: below) s = _
    refine hcode.followed_by (fun xs s₁ hxs => ?_)
    obtain ⟨v, rfl⟩ := hvalue fuel s xs s₁ hxs
    simp only [Result.onto_ofValue, Layout.unaryValue, hslot]
    exact Instr.runAll_numeric_clamp [.i32 0, v] rfl

theorem unary (h : (Node.unary info op x).Ready world Γ site ctx) (hx : x.Emitted world site ctx) :
    (Node.unary info op x).Emitted world site ctx := by
  obtain ⟨hwf, htakes⟩ := h.wellFormed
  have hready := h.child (by simp) hwf
  have hvalue : ∀ fuel s values s', x.eval world .off fuel s = some (.normal values, s') →
      ∃ v, values = [v] :=
    fun _ _ _ _ hxs => hready.exists_value htakes.isScalar_source hxs
  refine .marked (Ensures.read.bind (fun c => ?_))
  split
  · exact hx.bind (fun code => .pure (fun tables hcode _ => runAll_negate hcode hvalue))
  · refine hx.bind (fun code => .pure (fun tables hcode _ fuel below s => ?_))
    refine hcode.followed_by (fun xs s₁ hxs => ?_)
    obtain ⟨v, rfl⟩ := hvalue fuel s xs s₁ hxs
    simp only [Result.onto_ofValue, Layout.unaryValue]
    exact Instr.runAll_singleton.trans (Instr.run_numeric [_] rfl)
  · refine hx.bind (fun code => ?_)
    split
    next hslot =>
      refine .pure (fun tables hcode _ fuel below s => hcode.followed_by (fun xs s₁ hxs => ?_))
      obtain ⟨v, rfl⟩ := hvalue fuel s xs s₁ hxs
      simp only [Result.onto_ofValue, Layout.unaryValue, if_pos hslot]
      exact Instr.runAll_singleton.trans (Instr.run_numeric [v, .i64 (-1)] rfl)
    next hslot =>
      refine .pure (fun tables hcode _ fuel below s => hcode.followed_by (fun xs s₁ hxs => ?_))
      obtain ⟨v, rfl⟩ := hvalue fuel s xs s₁ hxs
      simp only [Result.onto_ofValue, Layout.unaryValue, if_neg hslot]
      exact Instr.runAll_numeric_clamp [v, .i32 (-1)] rfl
  · exact .fail

theorem scaledOffset {ptr index : Node} {size : Int64}
    (h : (Node.scaledOffset info ptr index size).Ready world Γ site ctx)
    (hptr : ptr.Emitted world site ctx) (hindex : index.Emitted world site ctx) :
    (Node.scaledOffset info ptr index size).Emitted world site ctx := by
  obtain ⟨hwfp, hwfi, hslotPtr, _, hslotIndex⟩ := h.wellFormed
  have hreadyp := h.child (by simp) hwfp
  have hready := h.child (by simp) hwfi
  have hptrScalar := Layout.isScalar_of_slot hslotPtr (by decide)
  have hindexScalar := Layout.isScalar_of_slot hslotIndex (by decide)
  refine .marked (hptr.bind (fun left => hindex.bind (fun right =>
    .pure (fun tables hright hleft fuel below s => ?_))))
  rw [List.append_assoc, List.append_assoc]
  refine hleft.followed_by (fun xs s₁ hxs => hright.followed_by (fun ys s₂ hys => ?_))
  obtain ⟨v, rfl⟩ := hreadyp.exists_value hptrScalar hxs
  obtain ⟨w, rfl⟩ := hready.exists_value hindexScalar hys
  have hallows : ∀ p i, Watch.off.allows p i size = true := fun _ _ => rfl
  split
  next hone =>
    subst hone
    cases v with
    | i32 p =>
      cases w with
      | i32 i =>
        have hunit : i * (Int64.toInt32 1).toBitVec = i := BitVec.mul_one i
        simp only [List.singleton_append, hallows, if_true, hunit]
        rfl
      | _ => rfl
    | _ => cases w <;> rfl
  next hscale =>
    cases v with
    | i32 p =>
      cases w with
      | i32 i =>
        simp only [List.singleton_append, hallows, if_true]
        rfl
      | _ => rfl
    | _ => cases w <;> rfl

/-! ## Values in slots and in memory -/

theorem locals : (Node.locals info slots).Emitted world site ctx :=
  .marked (.pure (fun _ _ below s => Instr.runAll_localGets below s))

theorem loadLeaves_scalar {tag : TypeTag} {kind : Scalar} {pos : Position} {address : Address} :
    Emission.loadLeaves ⟨pos, .scalar tag kind⟩ address offset = (do
      let code ← address.code
      let load ← Emit.ofLayout ((Layout.scalar tag kind).load offset)
      return code ++ [load]) := by
  rw [Emission.loadLeaves]
  have hrelease : Emit.releaseScratch [] = pure () := rfl
  have hhold : address.hold 1 = pure ([], address, []) := by simp [Address.hold]
  simp [Layout.leaves, hhold, Emit.ofLayout, Leaf.layout, hrelease]

theorem data (h : (Node.data info addr offset).Ready world Γ site ctx)
    (haddr : addr.Emitted world site ctx) :
    (Node.data info addr offset).Emitted world site ctx := by
  obtain ⟨hwf, hslot, _⟩ := h.wellFormed
  have hready := h.child (by simp) hwf
  have hscalar := Layout.isScalar_of_slot hslot (by decide)
  have hform : info.layout.isScalar := every_self rfl h.scalars
  obtain ⟨pos, _ | ⟨tag, kind⟩ | _ | _⟩ := info
  case scalar =>
    refine .marked ?_
    rw [loadLeaves_scalar, (emission_address hwf.isAbsent_eq).2]
    refine haddr.bind (fun code => Ensures.ofLayout.bind (fun instr =>
      .pure (fun tables hinstr hcode fuel below s => hcode.followed_by (fun as s₁ has => ?_))))
    obtain ⟨v, rfl⟩ := hready.exists_value hscalar has
    rw [Instr.runAll_singleton]
    cases v with
    | i32 a =>
      refine (Instr.run_load hinstr a below s₁).trans ?_
      simp only [Watch.off_reads, Result.onto_ofAttempt]
    | _ =>
      obtain ⟨immediate, _, rfl⟩ := Except.exists_of_map hinstr
      rfl
  all_goals cases hform

theorem addressOf (h : (Node.addressOf info x).Ready world Γ site ctx)
    (haddr : AddressHas (fun addr => addr.Ready world Γ site ctx → addr.Emitted world site ctx) x) :
    (Node.addressOf info x).Emitted world site ctx := by
  obtain ⟨_, hin⟩ := h.wellFormed
  cases x with
  | data dinfo addr offset =>
    obtain ⟨hwf, hslot⟩ := hin
    have hdata : (Node.data dinfo addr offset).every isScalarCode := every_child h.scalars (by simp)
    have hready : addr.Ready world Γ site ctx :=
      ⟨h.signature, hwf, every_child hdata (by simp), h.uses, h.serves⟩
    have haddr := haddr dinfo addr offset rfl hready
    have hscalar := Layout.isScalar_of_slot hslot (by decide)
    refine .marked ?_
    rw [emission_reach]
    split
    · exact .pure (fun tables fuel below s =>
        congrArg (Result.onto ctx.enclosing below) (congrArg (Result.ofAttempt · s)
          (Layout.displace_word offset _).symm))
    · rw [(emission_address hwf.isAbsent_eq).2]
      refine haddr.bind (fun code => ?_)
      split
      next hzero =>
        subst hzero
        refine .pure (fun tables hcode fuel below s => (hcode fuel below s).trans ?_)
        exact congrArg _ Result.andThen_normal_self.symm
      next hoffset =>
        refine .pure (fun tables hcode fuel below s => hcode.followed_by (fun as s₁ has => ?_))
        obtain ⟨v, rfl⟩ := hready.exists_value hscalar has
        cases v with
        | i32 a =>
          rw [Layout.displace_word]
          rfl
        | _ =>
          unfold Layout.displace
          rw [if_neg hoffset]
          rfl
  | _ => exact hin.elim

/-! ## Effects -/

theorem drop (h : (Node.drop info x).Ready world Γ site ctx) (hx : x.Emitted world site ctx) :
    (Node.drop info x).Emitted world site ctx := by
  have hready := h.child (by simp) h.wellFormed.2
  refine .marked (hx.bind (fun code => Ensures.ofLayout.bind (fun types =>
    .pure (fun tables htypes hcode fuel below s => hcode.followed_by (fun xs s₁ hxs => ?_)))))
  have hlen : xs.reverse.length = types.length := by
    rw [List.length_reverse, hready.length_eq hxs, ← (Layout.slots_of_flatten htypes).2,
      Layout.slots, List.length_map]
  exact Instr.runAll_drops hlen

theorem call {func : Nat} {name : String} {args : List Node}
    (h : (Node.call info func name args).Ready world Γ site ctx)
    (hargs : ∀ n ∈ args, n.Emitted world site ctx) :
    (Node.call info func name args).Emitted world site ctx := by
  obtain ⟨hwf, _, hfunction⟩ := h.wellFormed
  have hyields : ∀ fuel, ∀ n ∈ args, n.Yields world .off fuel := fun fuel n hn =>
    @eval_holds fuel .off world (fun _ => none) Γ n h.signature (allWellFormed_iff.mp hwf n hn)
      (fun hcanonical => by cases hcanonical)
  refine .marked ((Ensures.loadAll hargs).bind (fun code => .pure
    (fun tables hcode fuel below s => hcode.followed_by (fun values s₁ hvalues => ?_))))
  have hlen : values.reverse.length = (args.flatMap (fun arg => arg.layout.slots)).length := by
    rw [List.length_reverse, (evalAll_yields (hyields fuel) _ _ _ hvalues).1]
    simp [Layout.slots, List.length_flatMap, Function.comp_def]
  have hcall : Instr.run world fuel (site.frame tables) (.call func) (values.reverse ++ below) s₁ =
      (world.invoke func values s₁).andThen (fun results s =>
        some (.normal (results.reverse ++ below), s)) := by
    simp only [Instr.run, Instr.step, h.signature, hfunction, Option.bind_some,
      List.take_left' hlen, List.drop_left' hlen, List.reverse_reverse]
  rw [Instr.runAll_singleton, hcall, Watch.off_reads, World.invoke]
  split <;> rfl

/-- A value other than a literal is stored by way of the stack, except that whole values in slots and
in memory are copied to memory. -/
theorem store_eq (hn : n.isAbsent = false) (h : n.isScalarCode) {place : Place}
    (hplace : ∀ pinfo address offset, place = .memory pinfo address offset → pinfo.layout.isScalar) :
    n.emission.store place = Emission.storeLoaded n.emission.load place := by
  cases n with
  | structLit | arrayLit => cases h
  | locals | data =>
    cases place with
    | memory pinfo address offset => exact if_pos (hplace _ _ _ rfl)
    | _ => rfl
  | absent => cases hn
  | _ => rfl

theorem assign_locals (h : (Node.assign info (.locals tinfo slots) value).Ready world Γ site ctx)
    (hvalue : value.Emitted world site ctx) :
    (Node.assign info (.locals tinfo slots) value).Emitted world site ctx := by
  obtain ⟨_, _, ⟨_, hslots⟩, hwf, hfits⟩ := h.wellFormed
  have hready := h.child (by simp) hwf
  refine .marked ?_
  change Ensures ctx (value.emission.store (.slots tinfo slots)) _
  rw [store_eq hwf.isAbsent_eq (every_self hwf.isAbsent_eq hready.scalars) (fun _ _ _ heq => by cases heq)]
  refine hvalue.bind (fun code => .pure (fun tables hcode fuel below s =>
    hcode.followed_by (fun values s₁ hvalues => ?_)))
  have hlen : values.length = slots.length := by
    have hcount := congrArg List.length hslots
    rw [List.length_map, List.length_map, Layout.slots, List.length_map] at hcount
    rw [hready.length_eq hvalues, hfits.kinds_eq, hcount]
    rfl
  rw [if_pos hlen]
  exact Instr.runAll_localSets hlen

theorem assign_data (h : (Node.assign info (.data tinfo addr offset) value).Ready world Γ site ctx)
    (haddr : addr.Ready world Γ site ctx → addr.Emitted world site ctx)
    (hvalue : value.Emitted world site ctx) :
    (Node.assign info (.data tinfo addr offset) value).Emitted world site ctx := by
  obtain ⟨_, _, hwft, hwf, hfits⟩ := h.wellFormed
  have hready := h.child (by simp) hwf
  have htarget := h.child (by simp) hwft
  have hreadya := htarget.child (by simp) hwft.1
  have hscalar := Layout.isScalar_of_slot hwft.2.1 (by decide)
  have hform : tinfo.layout.isScalar := every_self rfl htarget.scalars
  refine .marked ?_
  change Ensures ctx (value.emission.store (.memory tinfo addr.emission.address offset)) _
  rw [store_eq hwf.isAbsent_eq (every_self hwf.isAbsent_eq hready.scalars) (by
    rintro _ _ _ ⟨⟩
    exact hform)]
  rw [Emission.storeLoaded, if_pos hform, (emission_address hwft.1.isAbsent_eq).2]
  refine (haddr hreadya).bind (fun target => hvalue.bind (fun code => Ensures.ofLayout.bind
    (fun instr => .pure (fun tables hinstr hcode htarget fuel below s => ?_))))
  rw [List.append_assoc]
  refine htarget.followed_by (fun as s₁ has => hcode.followed_by (fun values s₂ hvalues => ?_))
  obtain ⟨v, rfl⟩ := hreadya.exists_value hscalar has
  obtain ⟨pos, _ | ⟨tag, kind⟩ | _ | _⟩ := tinfo
  case scalar =>
    have hlen := hready.length_eq hvalues
    rw [hfits.kinds_eq] at hlen
    obtain ⟨w, rfl⟩ := List.length_eq_one_iff.mp hlen
    rw [Instr.runAll_singleton]
    cases v with
    | i32 a => exact Instr.run_store hinstr
    | _ =>
      obtain ⟨immediate, _, rfl⟩ := Except.exists_of_map hinstr
      rfl
  all_goals cases hform

end Node.Emitted

namespace Node

/-- A pair is written to where a pointer points, and its first part moves the pointer. -/
def movingStore : Node :=
  .assign ⟨.unset, .unit⟩ (.data pair (.locals word [0]) 0)
    (.structLit pair
      [.seq word [.assign ⟨.unset, .unit⟩ (.locals word [0]) (.locals word [1]), .const32 word 1],
        .const32 word 2])
where
  word : Info := ⟨.unset, .scalar ⟨.builtin .u32, "u32"⟩ .u32⟩
  pair : Info := ⟨.unset, .struct ⟨.builtin .void, "pair"⟩ false 8
    [⟨"a", word.layout, 0, 0⟩, ⟨"b", word.layout, 4, 1⟩]⟩

/-- The code writes the second part to where the pointer has been moved, instead of next to the
first. -/
theorem store_follows_pointer :
    let start : Store := ⟨fun slot => .i32 (16 * BitVec.ofNat 32 slot), ⟨32, fun _ => 0, by decide⟩, []⟩
    movingStore.WellFormed ⟨fun _ => some .i32, fun _ => none, .unit, []⟩ ∧
      ∃ code stored meant, (movingStore.load ⟨⟨[]⟩, true, []⟩ default).1 = .ok code ∧
        Instr.runAll default 1 ⟨[], 0, []⟩ code [] start = some (.normal [], stored) ∧
        movingStore.eval default .off 1 start = some (.normal [], meant) ∧
        (List.range 32).filter (fun i => stored.memory.bytes i ≠ 0) = [0, 20] ∧
        (List.range 32).filter (fun i => meant.memory.bytes i ≠ 0) = [0, 4] := by
  refine ⟨?_, _, _, _, rfl, rfl, rfl, ?_, ?_⟩
  · exact ⟨rfl, rfl, ⟨⟨rfl, rfl⟩, rfl, rfl⟩,
      ⟨⟨⟨⟨⟨rfl, rfl, ⟨rfl, rfl⟩, ⟨rfl, rfl⟩, rfl⟩, rfl, trivial⟩, rfl, .refl _⟩, rfl, trivial⟩,
        rfl, ⟨rfl, rfl, trivial⟩, .cons rfl (.cons rfl .nil)⟩, rfl⟩
  · decide
  · decide

end Node

end TreeWasm
