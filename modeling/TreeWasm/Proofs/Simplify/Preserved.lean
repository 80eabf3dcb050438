import TreeWasm.Proofs.Needs.Simplified
import TreeWasm.Proofs.Simplify.Addresses
import TreeWasm.Proofs.Simplify.Control

/-! # Simplification preserves behaviour

Every step of simplification puts a node in the place of another one that it may stand for, and so
does the whole pass: where the original runs to an outcome other than a trap, the simplified code
runs to the same outcome, with the same slots, memory and calls.

Expressions keep their traps as well.
-/

namespace TreeWasm

open Wasm

namespace Node

/-- What simplification relies on: plain nodes, label counts that miss no branch, and expressions
only, where traps are to be kept. -/
structure Simplifiable (S : Setting) (labels : Labels) (n : Node) : Prop where
  plain : n.every (isPlain S.kindOf)
  uses : ∀ l, n.targets.count l ≤ labels.uses (some l)
  expression : S.traps → n.every isExpression

namespace Simplifiable

variable {S : Setting} {labels : Labels} {n c : Node}

theorem child (h : n.Simplifiable S labels) (hc : c ∈ n.children) : c.Simplifiable S labels where
  plain := every_child h.plain hc
  uses := fun l => Nat.le_trans (count_targets_child hc l) (h.uses l)
  expression := fun htraps => every_child (h.expression htraps) hc

end Simplifiable

end Node

namespace Setting

open Node

variable {S : Setting} {Γ : Surroundings} {labels : Labels} {n m : Node} {parts : List Node}

theorem traps_eq_false (h : S.traps → n.isExpression) (hform : n.isExpression = false) : S.traps = false := by
  rw [← Bool.not_eq_true]
  exact fun htraps => Bool.false_ne_true (hform.symm.trans (h htraps))

/-! ## Parts -/

/-- One node does for another: as a value it may stand for it, and as a place it names the same one. -/
structure Replaces (S : Setting) (n m : Node) : Prop where
  value : ∀ {Γ : Surroundings}, S.world.signature = Γ.functions → n.WellFormed Γ → S.Refines Γ n m
  place : ∀ {Γ : Surroundings}, S.world.signature = Γ.functions →
    (n.isPlace ∧ n.WellFormed Γ ∨ n.InMemory Γ) → S.Reaches Γ n m

theorem Replaces.row {nodes : List Node} (h : List.Forall₂ S.Replaces nodes parts)
    (hworld : S.world.signature = Γ.functions) (hwf : AllWellFormed Γ nodes) :
    List.Forall₂ (S.Refines Γ) nodes parts :=
  forall₂_imp_mem h (fun n _ hn hpart => hpart.value hworld (allWellFormed_iff.mp hwf n hn))

/-- A node with other parts may stand for the node with the parts it had. -/
theorem rebuild_keeps (hn : S.Admits Γ n) (h : List.Forall₂ S.Replaces n.children parts) :
    (n.rebuild parts).WellFormed Γ ∧ (n.isProper → (n.rebuild parts).isProper) ∧
      (∀ p ∈ parts, p.every (isPlain S.kindOf)) ∧
      ∀ fuel s, (n.eval S.world S.watch fuel s).Keeps S.traps
        ((n.rebuild parts).eval S.world S.watch fuel s) := by
  obtain ⟨hworld, hwf, hplain⟩ := hn
  cases n with
  | absent => exact hwf.elim
  | const32 | const64 | constFloat | locals | nop | unreachable | branch =>
    cases h
    exact ⟨hwf, id, nofun, fun _ _ => .refl _⟩
  | binary info op x y =>
    obtain _ | ⟨hx, _ | ⟨hy, _ | _⟩⟩ := h
    obtain ⟨hwfx, hwfy, hslotx, hsloty, hop⟩ := hwf
    replace hx := hx.value hworld hwfx
    replace hy := hy.value hworld hwfy
    refine ⟨⟨hx.wellFormed, hy.wellFormed, hx.layout.slot_eq.trans hslotx,
      hy.layout.slot_eq.trans hsloty, hop⟩, ?_, by simp [hx.plain, hy.plain], fun fuel s => ?_⟩
    · simp [rebuild, isProper, hx.layout.2, hy.layout.2]
    · exact (hx.keeps fuel s).andThen (fun _ s₁ _ => (hy.keeps fuel s₁).andThen (fun _ _ _ => .refl _))
  | unary info op x =>
    obtain _ | ⟨hx, _ | _⟩ := h
    replace hx := hx.value hworld hwf.1
    refine ⟨⟨hx.wellFormed, hwf.2.of_alike hx.layout⟩, ?_, by simp [hx.plain], fun fuel s => ?_⟩
    · cases op <;> simp [rebuild, isProper, Layout.isBool, hx.layout.2]
    · refine (hx.keeps fuel s).andThen (fun _ _ _ => .of_eq ?_)
      simp only [Layout.unaryValue, hx.layout.slot_eq]
  | convert info x =>
    obtain _ | ⟨hx, _ | _⟩ := h
    replace hx := hx.value hworld hwf.1
    refine ⟨⟨hx.wellFormed, by rw [hx.layout.isScalar_eq]; exact hwf.2.1, hwf.2.2⟩, id,
      by simp [hx.plain], fun fuel s => (hx.keeps fuel s).andThen (fun _ _ _ => .of_eq ?_)⟩
    simp only [Layout.convertValue, hx.layout.2]
  | compare info op x y =>
    obtain _ | ⟨hx, _ | ⟨hy, _ | _⟩⟩ := h
    obtain ⟨hwfx, hwfy, hsloty, hop, hslot⟩ := hwf
    replace hx := hx.value hworld hwfx
    replace hy := hy.value hworld hwfy
    refine ⟨⟨hx.wellFormed, hy.wellFormed,
      hy.layout.slot_eq.trans (hsloty.trans hx.layout.slot_eq.symm),
      Layout.isOk_compare_alike hx.layout hop, hslot⟩, ?_, by simp [hx.plain, hy.plain],
      fun fuel s => (hx.keeps fuel s).andThen (fun _ s₁ _ =>
        (hy.keeps fuel s₁).andThen (fun _ _ _ => .of_eq ?_))⟩
    · simp [rebuild, isProper, hx.layout.2, hy.layout.2]
    · obtain ⟨kind, rel, hkind, rfl⟩ := Layout.exists_of_compare hop
      simp [Layout.compareValue, Layout.compare, hx.layout.2, hkind]
  | data info addr offset =>
    obtain _ | ⟨haddr, _ | _⟩ := h
    replace haddr := haddr.value hworld hwf.1
    exact ⟨⟨haddr.wellFormed, haddr.layout.slot_eq.trans hwf.2.1, hwf.2.2⟩, id, by simp [haddr.plain],
      fun fuel s => (haddr.keeps fuel s).andThen (fun _ _ _ => .refl _)⟩
  | scaledOffset info ptr index size =>
    obtain _ | ⟨hptr, _ | ⟨hindex, _ | _⟩⟩ := h
    obtain ⟨hwfp, hwfi, hslotp, hslot, hsloti⟩ := hwf
    replace hptr := hptr.value hworld hwfp
    replace hindex := hindex.value hworld hwfi
    refine ⟨⟨hptr.wellFormed, hindex.wellFormed, hptr.layout.slot_eq.trans hslotp, hslot,
      hindex.layout.slot_eq.trans hsloti⟩, ?_, by simp [hptr.plain, hindex.plain], fun fuel s => ?_⟩
    · simp [rebuild, isProper, hptr.layout.2]
    · exact (hptr.keeps fuel s).andThen (fun _ s₁ _ =>
        (hindex.keeps fuel s₁).andThen (fun _ _ _ => .refl _))
  | ifElse info cond yes no =>
    obtain ⟨hwfc, hslot, hwfy, halike, hwfn⟩ := hwf
    rw [children_ifElse] at h
    rcases hwfn with ⟨habsent, hvoid⟩ | ⟨hwfn, haliken⟩
    · rw [if_pos habsent] at h
      obtain _ | ⟨hcond, _ | ⟨hyes, _ | _⟩⟩ := h
      replace hcond := hcond.value hworld hwfc
      replace hyes := hyes.value hworld hwfy
      refine ⟨⟨hcond.wellFormed, hcond.layout.slot_eq.trans hslot, hyes.wellFormed,
        hyes.layout.trans halike, .inl ⟨rfl, hvoid⟩⟩, id, by simp [hcond.plain, hyes.plain],
        fun fuel s => (hcond.keeps fuel s).andThen (fun cs s₁ _ => ?_)⟩
      split
      · split
        · exact hyes.keeps fuel s₁
        · exact .refl _
      · exact .none
    · rw [if_neg (by simp [hwfn.isAbsent_eq])] at h
      obtain _ | ⟨hcond, _ | ⟨hyes, _ | ⟨hno, _ | _⟩⟩⟩ := h
      replace hcond := hcond.value hworld hwfc
      replace hyes := hyes.value hworld hwfy
      replace hno := hno.value hworld hwfn
      refine ⟨⟨hcond.wellFormed, hcond.layout.slot_eq.trans hslot, hyes.wellFormed,
        hyes.layout.trans halike, .inr ⟨hno.wellFormed, hno.layout.trans haliken⟩⟩, id,
        by simp [hcond.plain, hyes.plain, hno.plain],
        fun fuel s => (hcond.keeps fuel s).andThen (fun cs s₁ _ => ?_)⟩
      split
      · split
        · exact hyes.keeps fuel s₁
        · rw [if_neg (by simp [hwfn.isAbsent_eq]), if_neg (by simp [hno.isAbsent_eq])]
          exact hno.keeps fuel s₁
      · exact .none
  | loop info label body =>
    obtain _ | ⟨hbody, _ | _⟩ := h
    replace hbody := hbody.value (by simpa using hworld) hwf.1
    exact ⟨⟨hbody.wellFormed, hbody.layout.trans hwf.2⟩, id, by simp [hbody.plain],
      fun fuel s => .repeating rfl (fun _ s => hbody.keeps fuel s) fuel [] s⟩
  | block info label children =>
    have hrow := Replaces.row h (by simpa using hworld) hwf.1
    exact ⟨⟨Refines.allWellFormed hrow, hwf.2.of_alike (Refines.layouts hrow)⟩, id,
      Refines.allPlain hrow, fun fuel s => (Refines.evalAll hrow fuel s).endAt label⟩
  | seq info parts | structLit info parts | arrayLit info parts =>
    have hrow := Replaces.row h hworld hwf.1
    exact ⟨⟨Refines.allWellFormed hrow, hwf.2.of_alike (Refines.layouts hrow)⟩, id,
      Refines.allPlain hrow, Refines.evalAll hrow⟩
  | call info func name args =>
    have hrow := Replaces.row h hworld hwf.1
    refine ⟨⟨Refines.allWellFormed hrow, hwf.2.1, by rw [Refines.slots_eq hrow]; exact hwf.2.2⟩, id,
      Refines.allPlain hrow, fun fuel s => ?_⟩
    rw [rebuild, eval, eval]
    exact (Refines.evalAll hrow fuel s).andThen (fun _ _ _ => .refl _)
  | branchIf info label on | branchTable info on targets default =>
    obtain _ | ⟨hon, _ | _⟩ := h
    replace hon := hon.value hworld hwf.2.2.1
    exact ⟨⟨hwf.1, hwf.2.1, hon.wellFormed, hon.layout.slot_eq.trans hwf.2.2.2⟩, id,
      by simp [hon.plain], fun fuel s => (hon.keeps fuel s).andThen (fun _ _ _ => .refl _)⟩
  | ret info value =>
    rw [children_ret] at h
    rcases hwf.2 with ⟨habsent, hvoid⟩ | ⟨hwfv, halike⟩
    · rw [if_pos habsent] at h
      cases h
      refine ⟨⟨hwf.1, .inl ⟨rfl, hvoid⟩⟩, id, nofun, fun fuel s => .of_eq ?_⟩
      rw [rebuild, eval, eval, if_pos habsent]
      rfl
    · rw [if_neg (by simp [hwfv.isAbsent_eq])] at h
      obtain _ | ⟨hvalue, _ | _⟩ := h
      replace hvalue := hvalue.value hworld hwfv
      refine ⟨⟨hwf.1, .inr ⟨hvalue.wellFormed, hvalue.layout.trans halike⟩⟩, id,
        by simp [hvalue.plain], fun fuel s => ?_⟩
      rw [rebuild, eval, eval, if_neg (by simp [hwfv.isAbsent_eq]), if_neg (by simp [hvalue.isAbsent_eq])]
      exact (hvalue.keeps fuel s).andThen (fun _ _ _ => .refl _)
  | drop info x =>
    obtain _ | ⟨hx, _ | _⟩ := h
    replace hx := hx.value hworld hwf.2
    exact ⟨⟨hwf.1, hx.wellFormed⟩, id, by simp [hx.plain],
      fun fuel s => (hx.keeps fuel s).andThen (fun _ _ _ => .refl _)⟩
  | assign info target value =>
    obtain _ | ⟨htarget, _ | ⟨hvalue, _ | _⟩⟩ := h
    obtain ⟨hvoid, hplace, hwft, hwfv, hfits⟩ := hwf
    have hrefines := htarget.value hworld hwft
    replace hvalue := hvalue.value hworld hwfv
    replace hfits := hvalue.layout.1.trans (hfits.trans hrefines.layout.1.symm)
    cases htarget.place hworld (.inl ⟨hplace, hwft⟩) with
    | slots =>
      exact ⟨⟨hvoid, rfl, hrefines.wellFormed, hvalue.wellFormed, hfits⟩, id,
        by simp [hrefines.plain, hvalue.plain],
        fun fuel s => (hvalue.keeps fuel s).andThen (fun _ _ _ => .refl _)⟩
    | memory htraps haddr hmoves =>
      refine ⟨⟨hvoid, rfl, hrefines.wellFormed, hvalue.wellFormed, hfits⟩, id,
        by simp [hrefines.plain, hvalue.plain], fun fuel s => ?_⟩
      rw [rebuild, eval, eval]
      refine hmoves fuel s _ _ (fun a a' s₁ hanchor => ?_)
      refine (hvalue.keeps fuel s₁).andThen (fun values s₂ _ => ?_)
      rw [htraps]
      exact Layout.writeAt_keeps hanchor
  | addressOf info x =>
    obtain _ | ⟨hx, _ | _⟩ := h
    cases hx.place hworld (.inr hwf.2) with
    | slots => exact hwf.2.elim
    | memory htraps haddr hmoves =>
      have hself := every_self rfl (every_child hplain (List.mem_singleton_self _))
      refine ⟨⟨hwf.1, haddr.wellFormed, haddr.slot⟩, id, ?_, fun fuel s => ?_⟩
      · rw [List.forall_mem_singleton, every_iff rfl]
        exact ⟨hself, by simp [haddr.plain]⟩
      · rw [rebuild, eval, eval]
        refine hmoves fuel s _ _ (fun a a' s₁ hanchor => .of_eq ?_)
        rw [Layout.displace_word, Layout.displace_word, Layout.add_toInt32_eq, Layout.add_toInt32_eq, hanchor]

namespace Refines

theorem rebuild (hn : S.Admits Γ n) (hfill : n.Fill parts)
    (h : List.Forall₂ S.Replaces n.children parts) : S.Refines Γ n (n.rebuild parts) := by
  have hrebuilt := rebuilt hfill
  obtain ⟨hwf', hproper, hparts, hkeeps⟩ := rebuild_keeps hn h
  have hlayout : (n.rebuild parts).layout = n.layout := congrArg Info.layout hrebuilt.info
  obtain ⟨hfollows, hown, hfloat⟩ := isPlain_iff.mp (every_self hn.wellFormed.isAbsent_eq hn.plain)
  refine ⟨hwf', (every_iff hwf'.isAbsent_eq).mpr ⟨isPlain_iff.mpr ?_, by rwa [hrebuilt.children]⟩,
    hlayout ▸ .refl _, hkeeps⟩
  rw [hlayout]
  exact ⟨hfollows, hproper hown, hfloat⟩

/-! ## Reductions -/

section Reductions

variable {again changed : Bool} (hn : S.Admits Γ n) (hexpression : S.traps → n.isExpression)

include hn

theorem rebased : S.Refines Γ n (n.rebased again) := by
  cases n with
  | scaledOffset =>
    rw [Node.rebased]
    split
    · exact .offsetBy hn
    · exact .refl hn
  | _ => exact .refl hn

include hexpression

theorem spliced : S.Refines Γ n (n.spliced again).1 := by
  cases n with
  | data => exact .foldAddress hn (traps_eq_false hexpression rfl)
  | block => exact .block_splice hn
  | seq => exact .seq_splice hn
  | _ => exact .refl hn

theorem simpler (huses : ∀ l, n.targets.count l ≤ labels.uses (some l))
    (h : n.simpler? labels = .ok (some m)) : S.Refines Γ n m := by
  cases n with
  | binary info op x y => exact .foldBinary hn h
  | compare info op x y => exact .foldCompare hn h
  | unary info op x =>
    replace h := Except.ok.inj h
    cases hfold : Node.foldUnary info op x with
    | some k =>
      rw [hfold] at h
      cases h
      exact .foldUnary hn hfold
    | none =>
      rw [hfold] at h
      obtain ⟨rfl, h⟩ := Option.ite_none_right_eq_some.mp h
      refine .negate hn ?_ h
      cases hc : x.constant? with
      | none => rfl
      | some c => simp [Node.foldUnary, hc] at hfold
  | convert info x =>
    replace h := Except.ok.inj h
    split at h
    next hsame =>
      cases h
      exact .convert_same hn hsame
    · exact .foldConvert hn h
  | scaledOffset info ptr index size =>
    obtain ⟨i, hi, h⟩ := Option.bind_eq_some_iff.mp (Except.ok.inj h)
    split at h
    next hp =>
      cases h
      exact .scaledOffset_constants hn hp hi
    next hp =>
      obtain ⟨hzero, ⟨⟩⟩ := Option.ite_none_right_eq_some.mp h
      exact .scaledOffset_zero hn hi hzero
  | ifElse info cond yes no =>
    refine .choice hn (fun htraps => ?_) (Except.ok.inj h)
    have hself := hexpression htraps
    simp only [isExpression, Bool.and_eq_true] at hself
    cases hlayout : info.layout with
    | void tag =>
      rw [hlayout] at hself
      cases hself.1
    | _ => rfl
  | block info label children =>
    refine .block_collapse hn (fun hunused l hl => ?_) (Except.ok.inj h)
    have hcount := huses l
    rw [← hl, of_decide_eq_true hunused] at hcount
    exact List.count_eq_zero.mp (Nat.le_zero.mp hcount)
  | seq info children => exact .seq_collapse hn (Except.ok.inj h)
  | branchIf info label cond =>
    obtain ⟨c, hc, rfl⟩ := Option.map_eq_some_iff.mp (Except.ok.inj h)
    exact .branchIf_constant hn hc
  | branchTable info index targets default =>
    obtain ⟨c, hc, rfl⟩ := Option.map_eq_some_iff.mp (Except.ok.inj h)
    exact .branchTable_constant hn hc
  | drop info x =>
    obtain ⟨hpure, ⟨⟩⟩ := Option.ite_none_right_eq_some.mp (Except.ok.inj h)
    exact .drop_pure hn (traps_eq_false hexpression rfl) hpure
  | addressOf info x =>
    replace h := Except.ok.inj h
    split at h
    · obtain ⟨c, hc, rfl⟩ := Option.map_eq_some_iff.mp h
      exact .addressOf_constant hn hc
    · cases h
  | _ => cases h

theorem reduce (huses : ∀ l, n.targets.count l ≤ labels.uses (some l))
    (h : n.reduce labels again = .ok (m, changed)) : S.Refines Γ n m := by
  have hspliced : S.Refines Γ n (n.spliced again).1 := spliced hn hexpression
  have hsame : (n.spliced again).1.isExpression = n.isExpression := by
    cases n <;> rfl
  rcases reduce_eq_ok h with ⟨hsimpler, -⟩ | ⟨-, rfl, -⟩
  · refine hspliced.trans (simpler (hspliced.admits hn)
      (fun htraps => hsame ▸ hexpression htraps) (fun l => ?_) hsimpler)
    have hreduces : Reduces labels n (n.spliced again).1 := spliced_reduces
    exact Nat.le_trans (hreduces.within.targets l) (huses l)
  · exact hspliced.trans (rebased (hspliced.admits hn))

end Reductions

end Refines

theorem simplifies (S : Setting) (labels : Labels) {n m : Node} (hs : n.Simplifiable S labels)
    (h : n.Becomes labels m) : S.Replaces n m := by
  induction n using childInduction generalizing m with
  | absent =>
    obtain ⟨_, h⟩ := h
    cases h
  | step n hn ih =>
    obtain ⟨changed, h⟩ := h
    rw [simplify_eq hn] at h
    obtain ⟨results, hresults, h⟩ := Except.exists_of_bind h
    have hbecomes := becomes_of_simplifyAll hresults
    generalize results.map Prod.fst = parts at hbecomes h
    have hfill := fill_of_becomes hbecomes
    have hparts : List.Forall₂ S.Replaces n.children parts :=
      forall₂_imp_mem hbecomes (fun c p hc hp => ih c hc (hs.child hc) hp)
    have hself := fun htraps => every_self hn (hs.expression htraps)
    refine ⟨fun {Γ} hworld hwf => ?_, fun {Γ} hworld hplace => ?_⟩
    · have hn : S.Admits Γ n := ⟨hworld, hwf, hs.plain⟩
      have hmid := Refines.rebuild hn hfill hparts
      have hwithin := rebuild_within hfill (hbecomes.imp (fun _ _ h => h.within))
      refine hmid.trans (.reduce (hmid.admits hn) ?_ (fun l => ?_) h)
      · rw [(rebuilt hfill).expression]
        exact hself
      · exact Nat.le_trans (hwithin.targets l) (hs.uses l)
    · cases n with
      | locals info slots =>
        cases hbecomes
        cases h
        exact .slots
      | data info addr offset =>
        have htraps := traps_eq_false hself rfl
        have hmemory : (data info addr offset).InMemory Γ := by
          rcases hplace with ⟨-, hwf⟩ | hmemory
          · exact ⟨hwf.1, hwf.2.1⟩
          · exact hmemory
        obtain _ | ⟨haddr, _ | _⟩ := hparts
        replace haddr := haddr.value hworld hmemory.1
        obtain ⟨hfold, hmoves⟩ := foldAddress_moves hworld htraps
          ⟨haddr.wellFormed, haddr.plain, haddr.layout.slot_eq.trans hmemory.2⟩
        cases h
        exact .memory htraps hfold (.of_refines haddr hmoves)
      | _ =>
        rcases hplace with ⟨⟨⟩, -⟩ | hmemory
        exact hmemory.elim


end Setting

namespace Node

/-- A block that is left unless a flag is off, when a slot takes the sum of two constants. -/
def flagChoice : Node :=
  .block ⟨.unset, .unit⟩ (some 0)
    [.ifElse ⟨.unset, .unit⟩ (.unary flag .not (.locals flag [0]))
      (.assign ⟨.unset, .unit⟩ (.locals number [1])
        (.binary number (.arith .add) (.const32 number 2) (.const32 number 3)))
      (.branch ⟨.unset, .unit⟩ 0)]
where
  flag : Info := ⟨.unset, .scalar ⟨.builtin .bool, "bool"⟩ .bool⟩
  number : Info := ⟨.unset, .index⟩

/-- The same without a negation and with the sum computed. -/
def simplerFlagChoice : Node :=
  .block ⟨.unset, .unit⟩ (some 0)
    [.ifElse ⟨.unset, .unit⟩ (.locals flagChoice.flag [0])
      (.branch ⟨.unset, .unit⟩ 0)
      (.assign ⟨.unset, .unit⟩ (.locals flagChoice.number [1]) (.const32 flagChoice.number 5))]

end Node

end TreeWasm
