import TreeWasm.Proofs.Simplify.Operators
import TreeWasm.Proofs.Simplify.Reductions

/-! # Simpler control

Decided choices and branches, sequences without needless statements, and constructs that no branch
needs.
-/

namespace TreeWasm

open Wasm

variable {nodes children : List Node} {Γ Γ' : Surroundings} {n m cond yes no x : Node} {l : Layout}
  {label : Option Nat} {c : Constant} {labels : List Nat}

namespace Surroundings

/-- The second surroundings have all that the first have, of labels only those listed. -/
structure Offers (Γ Γ' : Surroundings) (labels : List Nat) : Prop where
  slots : Γ'.slots = Γ.slots
  functions : Γ'.functions = Γ.functions
  result : Γ'.result = Γ.result
  targets : ∀ l ∈ labels, l ∈ Γ.targets → l ∈ Γ'.targets

namespace Offers

variable {Γ Γ' : Surroundings} {labels fewer : List Nat}

theorem mono (h : Γ.Offers Γ' labels) (hfewer : fewer ⊆ labels) : Γ.Offers Γ' fewer :=
  ⟨h.slots, h.functions, h.result, fun l hl => h.targets l (hfewer hl)⟩

theorem enter (h : Γ.Offers Γ' labels) (label : Option Nat) (reachable : Bool) :
    (Γ.enter label reachable).Offers (Γ'.enter label reachable) labels := by
  refine ⟨by simp [h.slots], by simp [h.functions], by simp [h.result], fun l hl => ?_⟩
  have htargets := h.targets l hl
  cases label with
  | none => exact htargets
  | some own =>
    intro hmem
    cases reachable with
    | true =>
      rcases List.mem_cons.mp hmem with rfl | hmem
      · exact .head _
      · exact List.mem_cons_of_mem own (htargets hmem)
    | false =>
      obtain ⟨hmem, hne⟩ := List.mem_filter.mp hmem
      exact List.mem_filter.mpr ⟨htargets hmem, hne⟩

end Offers

end Surroundings

namespace Node

variable {s : Store}

theorem AllWellFormed.of_offers
    (ih : ∀ n ∈ nodes, ∀ {Γ Γ' : Surroundings}, n.WellFormed Γ → Γ.Offers Γ' n.targets → n.WellFormed Γ')
    (h : AllWellFormed Γ nodes) (hoffers : Γ.Offers Γ' (targetsAll nodes)) :
    AllWellFormed Γ' nodes := by
  rw [allWellFormed_iff] at h ⊢
  intro n hn
  exact ih n hn (h n hn) (hoffers.mono (fun _ hl => mem_targetsAll hn hl))

/-- Of the labels around a node, only those matter that its branches name. -/
theorem WellFormed.of_offers (h : n.WellFormed Γ) (hoffers : Γ.Offers Γ' n.targets) : n.WellFormed Γ' := by
  induction n using partsInduction generalizing Γ Γ' with
  | absent | const32 | const64 | constFloat | unreachable | nop => exact h
  | binary info op x y hx hy | compare info op x y hx hy | scaledOffset info x y size hx hy =>
    exact ⟨hx h.1 (hoffers.mono (by simp [targets])), hy h.2.1 (hoffers.mono (by simp [targets])), h.2.2⟩
  | unary info op x hx | convert info x hx | data info x offset hx => exact ⟨hx h.1 hoffers, h.2⟩
  | drop info x hx => exact ⟨h.1, hx h.2 hoffers⟩
  | locals info slots => exact ⟨h.1, by rw [hoffers.slots]; exact h.2⟩
  | ifElse info cond yes no hcond hyes hno =>
    obtain ⟨hwfc, hslot, hwfy, halike, hwfn⟩ := h
    refine ⟨hcond hwfc (hoffers.mono (by simp [targets])), hslot,
      hyes hwfy (hoffers.mono (by simp [targets])), halike, ?_⟩
    rcases hwfn with habsent | ⟨hwfn, halike⟩
    · exact .inl habsent
    · exact .inr ⟨hno hwfn (hoffers.mono (by simp [targets])), halike⟩
  | loop info label body hbody => exact ⟨hbody h.1 (hoffers.enter label true), h.2⟩
  | block info label children ih =>
    exact ⟨AllWellFormed.of_offers ih h.1 (hoffers.enter label _), h.2⟩
  | seq info children ih | structLit info children ih | arrayLit info children ih =>
    exact ⟨AllWellFormed.of_offers ih h.1 hoffers, h.2⟩
  | branch info label => exact ⟨h.1, hoffers.targets label (by simp [targets]) h.2⟩
  | branchIf info label cond hcond =>
    exact ⟨h.1, hoffers.targets label (by simp [targets]) h.2.1,
      hcond h.2.2.1 (hoffers.mono (by simp [targets])), h.2.2.2⟩
  | branchTable info index labels default hindex =>
    refine ⟨h.1, fun l hl => hoffers.targets l ?_ (h.2.1 l hl),
      hindex h.2.2.1 (hoffers.mono (by simp [targets])), h.2.2.2⟩
    rcases List.mem_cons.mp hl with rfl | hl
    · simp [targets]
    · simp [targets, hl]
  | ret info value hvalue =>
    refine ⟨h.1, ?_⟩
    rw [hoffers.result]
    rcases h.2 with habsent | ⟨hwf, halike⟩
    · exact .inl habsent
    · exact .inr ⟨hvalue hwf hoffers, halike⟩
  | call info func name args ih =>
    exact ⟨AllWellFormed.of_offers ih h.1 hoffers, h.2.1, by rw [hoffers.functions]; exact h.2.2⟩
  | assign info target value htarget hvalue _ =>
    exact ⟨h.1, h.2.1, htarget h.2.2.1 (hoffers.mono (by simp [targets])),
      hvalue h.2.2.2.1 (hoffers.mono (by simp [targets])), h.2.2.2.2⟩
  | addressOf info x _ haddr =>
    cases x with
    | data dinfo addr offset => exact ⟨h.1, haddr _ _ _ rfl h.2.1 hoffers, h.2.2⟩
    | _ => exact h.2.elim

/-! ## Sequences -/

variable {world : World} {watch : Watch} {fuel : Nat} {Γ : Surroundings}

theorem evalAll_singleton : evalAll world watch fuel [n] s = n.eval world watch fuel s := by
  simp [evalAll]

theorem evalAll_splice : evalAll world watch fuel n.splice s = n.eval world watch fuel s := by
  cases n with
  | nop info => rfl
  | seq info children =>
    rw [splice]
    split
    · rfl
    · exact evalAll_singleton
  | _ => exact evalAll_singleton

theorem evalAll_flatMap_splice :
    evalAll world watch fuel (nodes.flatMap splice) s = evalAll world watch fuel nodes s := by
  induction nodes generalizing s with
  | nil => rfl
  | cons n rest ih =>
    rw [List.flatMap_cons, evalAll_append, evalAll_splice, evalAll]
    apply Result.andThen_congr
    intro values s₁ _
    rw [ih]

theorem mem_splice (h : m ∈ n.splice) : m = n ∨ m ∈ n.children := by
  cases n with
  | nop info => cases h
  | seq info children =>
    rw [splice] at h
    split at h
    · exact .inr h
    · exact .inl (List.mem_singleton.mp h)
  | _ => exact .inl (List.mem_singleton.mp h)

theorem wellFormed_of_mem_splice (h : n.WellFormed Γ) (hm : m ∈ n.splice) : m.WellFormed Γ := by
  cases n with
  | nop info => cases hm
  | seq info children =>
    rw [splice] at hm
    split at hm
    · exact allWellFormed_iff.mp h.1 m hm
    · rwa [List.mem_singleton.mp hm]
  | _ => rwa [List.mem_singleton.mp hm]

/-- What stands for a statement without a value is without one, and a value stands for itself. -/
structure Splices (n : Node) : Prop where
  void : n.layout.isVoid → ∀ m ∈ n.splice, m.layout.isVoid
  value : n.layout.isVoid = false → n.splice = [n]

theorem splices_of_sequence (hnop : n.isNop → n.layout.isVoid)
    (hseq : ∀ info children, n = seq info children → info.layout.Sequence (children.map layout)) :
    n.Splices := by
  cases n with
  | nop info =>
    refine ⟨nofun, fun hvalue => absurd (hnop rfl) ?_⟩
    rw [hvalue]
    exact Bool.false_ne_true
  | seq info children =>
    constructor
    · intro hvoid m hm
      rw [splice, if_pos (show info.layout.isVoid = true from hvoid)] at hm
      exact (hseq info children rfl).isVoid_of_mem hvoid (List.mem_map_of_mem hm)
    · intro hvalue
      rw [splice, show info.layout.isVoid = false from hvalue]
      rfl
  | _ => exact ⟨fun hvoid m hm => List.mem_singleton.mp hm ▸ hvoid, fun _ => rfl⟩

theorem WellFormed.splices (h : n.WellFormed Γ) : n.Splices := by
  refine splices_of_sequence ?_ ?_
  · cases n with
    | nop info => exact fun _ => h
    | absent => exact h.elim
    | _ => nofun
  · rintro info children rfl
    exact h.2

/-- Spliced statements are a sequence of the same layout. -/
theorem sequence_flatMap_splice (hall : ∀ n ∈ nodes, n.Splices) (h : l.Sequence (nodes.map layout)) :
    l.Sequence ((nodes.flatMap splice).map layout) := by
  induction nodes with
  | nil => exact h
  | cons n rest ih =>
    have hn := hall n (.head _)
    have hvoids : n.layout.isVoid → ∀ m ∈ n.splice.map layout, m.isVoid := by
      intro hvoid m hm
      obtain ⟨k, hk, rfl⟩ := List.mem_map.mp hm
      exact hn.void hvoid k hk
    rw [List.flatMap_cons, List.map_append]
    cases rest with
    | nil =>
      have halike : n.layout.Alike l := h
      cases hvoid : n.layout.isVoid with
      | true =>
        have hl : l.isVoid := by rw [← halike.1.isVoid_eq]; exact hvoid
        have hempty : l.Sequence [] := hl
        exact hempty.append (hvoids hvoid)
      | false =>
        rw [hn.value hvoid]
        exact halike
    | cons second rest =>
      have hrest := ih (fun m hm => hall m (.tail _ hm)) h.tail.2
      exact hrest.append (hvoids h.tail.1)

end Node

namespace Setting.Refines

open Node

variable {S : Setting} {Γ : Surroundings} {info : Info}

/-- A statement that does nothing may stand for a node without a value and without effect. -/
theorem nop (hplain : n.isPlain S.kindOf) (hvoid : n.layout.isVoid)
    (hkeeps : ∀ fuel s, (n.eval S.world S.watch fuel s).Keeps S.traps (some (.normal [], s))) :
    S.Refines Γ n (.nop n.info) where
  wellFormed := hvoid
  plain := plain_leaf hplain rfl rfl rfl rfl
  layout := .refl _
  keeps := hkeeps

/-- Spliced statements are as well-formed and plain as the ones they stand for. -/
theorem splice_row (hwf : AllWellFormed Γ nodes) (hrow : l.Sequence (nodes.map Node.layout))
    (hplain : ∀ n ∈ nodes, n.every (isPlain S.kindOf)) :
    (AllWellFormed Γ (nodes.flatMap splice) ∧ l.Sequence ((nodes.flatMap splice).map Node.layout)) ∧
      ∀ m ∈ nodes.flatMap splice, m.every (isPlain S.kindOf) := by
  rw [allWellFormed_iff] at hwf ⊢
  refine ⟨⟨fun m hm => ?_, sequence_flatMap_splice (fun n hn => (hwf n hn).splices) hrow⟩, fun m hm => ?_⟩
  · obtain ⟨n, hn, hm⟩ := List.mem_flatMap.mp hm
    exact wellFormed_of_mem_splice (hwf n hn) hm
  · obtain ⟨n, hn, hm⟩ := List.mem_flatMap.mp hm
    rcases mem_splice hm with rfl | hm
    · exact hplain m hn
    · exact every_child (hplain n hn) hm

theorem seq_splice (hn : S.Admits Γ (.seq info children)) :
    S.Refines Γ (.seq info children) (.seq info (children.flatMap splice)) := by
  obtain ⟨-, hwf, hplain⟩ := hn
  obtain ⟨hrow, hparts⟩ := splice_row hwf.1 hwf.2 (fun n hn => every_child hplain hn)
  refine ⟨hrow, (every_iff rfl).mpr ⟨every_self (n := .seq info children) rfl hplain, hparts⟩,
    .refl _, fun fuel s => .of_eq evalAll_flatMap_splice.symm⟩

theorem block_splice (hn : S.Admits Γ (.block info label children)) :
    S.Refines Γ (.block info label children) (.block info label (children.flatMap splice)) := by
  obtain ⟨-, hwf, hplain⟩ := hn
  obtain ⟨hrow, hparts⟩ := splice_row hwf.1 hwf.2 (fun n hn => every_child hplain hn)
  refine ⟨hrow,
    (every_iff rfl).mpr ⟨every_self (n := .block info label children) rfl hplain, hparts⟩, .refl _,
    fun fuel s => .of_eq (by rw [eval, eval, evalAll_flatMap_splice])⟩

theorem seq_collapse (hn : S.Admits Γ (.seq info children)) (h : collapse info children true = some m) :
    S.Refines Γ (.seq info children) m := by
  obtain ⟨-, hwf, hplain⟩ := hn
  rcases collapse_eq_some h with ⟨rfl, hvoid, rfl⟩ | ⟨rfl, -⟩
  · exact .nop (every_self rfl hplain) hvoid (fun _ _ => .refl _)
  · exact ⟨hwf.1.1, every_child hplain (List.mem_singleton_self m), hwf.2,
      fun fuel s => .of_eq evalAll_singleton⟩

theorem block_collapse {alone : Bool} (hn : S.Admits Γ (.block info label children))
    (halone : alone → ∀ l, label = some l → l ∉ (Node.block info label children).targets)
    (h : collapse info children alone = some m) : S.Refines Γ (.block info label children) m := by
  obtain ⟨-, hwf, hplain⟩ := hn
  rcases collapse_eq_some h with ⟨rfl, hvoid, rfl⟩ | ⟨rfl, hunused⟩
  · exact .nop (every_self rfl hplain) hvoid (fun _ _ => .refl _)
  · have hlabel : ∀ l, label = some l → l ∉ m.targets := by
      intro l heq hmem
      exact halone hunused l heq (mem_targetsAll (List.mem_singleton_self m) hmem)
    refine ⟨?_, every_child hplain (List.mem_singleton_self m), hwf.2, fun fuel s => ?_⟩
    · refine hwf.1.1.of_offers ⟨by simp, by simp, by simp, fun l hl => ?_⟩
      exact Surroundings.mem_targets_of_enter (fun heq => hlabel l heq hl)
    · rw [eval, evalAll_singleton, map_endAt hlabel]
      exact .refl _

/-! ## Choices -/

theorem choice_constant (hn : S.Admits Γ (.ifElse info cond yes no)) (hc : cond.constant? = some c)
    (h : simplifyChoice info cond yes no = some m) :
    S.Refines Γ (.ifElse info cond yes no) m := by
  obtain ⟨-, ⟨hwfc, hslot, hwfy, halike, hwfn⟩, hplain⟩ := hn
  obtain ⟨cinfo, v, rfl, hint⟩ := word_of_constant? hwfc hslot hc
  have hzero : c.int = 0 ↔ v.toBitVec = 0 := by
    rw [hint]
    exact Width.toInt64_eq_zero (w := .w32)
  simp only [simplifyChoice, hc, ne_eq, hzero] at h
  split at h
  next hne =>
    cases h
    refine ⟨hwfy, every_child hplain yes_mem_children, halike, fun fuel s => .of_eq ?_⟩
    simp only [eval, Result.andThen_normal, ne_eq, hne, not_false_eq_true, if_true]
  next heq =>
    have heq : v.toBitVec = 0 := not_not.mp heq
    split at h
    next habsent =>
      cases h
      have hvoid : info.layout.isVoid := by
        rcases hwfn with ⟨_, hvoid⟩ | ⟨hwfn, _⟩
        · exact hvoid
        · rw [hwfn.isAbsent_eq] at habsent
          cases habsent
      refine .nop (every_self rfl hplain) hvoid (fun fuel s => .of_eq ?_)
      simp only [eval, Result.andThen_normal, ne_eq, heq, not_true_eq_false, if_false, habsent, if_true]
    next hpresent =>
      cases h
      rcases hwfn with ⟨habsent, _⟩ | ⟨hwfn, halike⟩
      · exact absurd habsent hpresent
      · refine ⟨hwfn, every_child hplain (no_mem_children hwfn.isAbsent_eq), halike, fun fuel s => .of_eq ?_⟩
        simp only [eval, Result.andThen_normal, ne_eq, heq, not_true_eq_false, if_false, hpresent,
          Bool.false_eq_true]

/-- Where traps need not be kept, a pure part may be left out before what does nothing. -/
theorem keeps_of_isPure {f : List Value → Store → Result} {fuel : Nat} {s : Store} (htraps : S.traps = false)
    (hpure : x.isPure) (hf : ∀ values, (f values s).Keeps false (some (.normal [], s))) :
    ((x.eval S.world S.watch fuel s).andThen f).Keeps S.traps (some (.normal [], s)) := by
  rw [htraps]
  intro o s' hrun htrap
  have hne : o ≠ .trap := fun heq => Bool.false_ne_true (htrap heq)
  rcases Result.andThen_eq_some hrun with ⟨values, s₁, hx, hnext⟩ | ⟨hx, hother⟩
  · obtain ⟨_, _, rfl⟩ := eval_quiet hpure _ _ hx (by simp)
    exact hf values o s' hnext htrap
  · obtain ⟨values, rfl, _⟩ := eval_quiet hpure _ _ hx hne
    exact absurd rfl (hother values)

theorem choice_nop (hn : S.Admits Γ (.ifElse info cond yes no))
    (htraps : S.traps → info.layout.isVoid = false) (hyes : yes.isNop) (hno : no.isNop)
    (hpure : cond.isPure) : S.Refines Γ (.ifElse info cond yes no) (.nop info) := by
  obtain ⟨-, hwf, hplain⟩ := hn
  have hvoid : info.layout.isVoid := by
    rw [← hwf.2.2.2.1.1.isVoid_eq]
    cases yes with
    | nop yinfo => exact hwf.2.2.1
    | absent => exact hwf.2.2.1.elim
    | _ => cases hyes
  have htraps : S.traps = false := by
    rw [← Bool.not_eq_true]
    exact fun h => Bool.false_ne_true ((htraps h).symm.trans hvoid)
  refine .nop (every_self rfl hplain) hvoid (fun fuel s => ?_)
  have heval : ∀ n : Node, n.isNop → n.isAbsent = false →
      n.eval S.world S.watch fuel s = some (.normal [], s) := by
    intro n hn hpresent
    cases n with
    | nop => rfl
    | absent => cases hpresent
    | _ => cases hn
  refine keeps_of_isPure htraps hpure (fun cs => ?_)
  split
  · split
    · exact .of_eq (heval yes hyes hwf.2.2.1.isAbsent_eq)
    · split
      · exact .refl _
      next hpresent => exact .of_eq (heval no hno (by simpa using hpresent))
  · exact .none

theorem choice_not {cinfo : Info} {inner : Node} (hn : S.Admits Γ (.ifElse info (.unary cinfo .not inner) yes no))
    (hpresent : no.isAbsent = false) :
    S.Refines Γ (.ifElse info (.unary cinfo .not inner) yes no) (.ifElse info inner no yes) := by
  obtain ⟨hworld, ⟨hwfc, hslot, hwfy, halike, hwfn⟩, hplain⟩ := hn
  have hcplain := every_child hplain cond_mem_children
  have hiplain := every_child (c := inner) hcplain (by simp)
  obtain ⟨_, hbool⟩ := bool_of_isPlain_not (every_self rfl hcplain)
  rcases hwfn with ⟨habsent, _⟩ | ⟨hwfn, halike'⟩
  · rw [hpresent] at habsent
    cases habsent
  refine ⟨⟨hwfc.1, Layout.slot_of_scalar? hbool, hwfn, halike', .inr ⟨hwfy, halike⟩⟩, ?_, .refl _,
    fun fuel s => ?_⟩
  · have hself := every_self rfl hplain
    refine (every_iff rfl).mpr ⟨hself, ?_⟩
    rw [children_ifElse, if_neg (by simp [hwfy.isAbsent_eq])]
    simp [hiplain, every_child hplain yes_mem_children, every_child hplain (no_mem_children hpresent)]
  · rw [eval, eval, eval, Result.andThen_assoc]
    refine (Result.Keeps.refl _).andThen (fun cs s₁ hrun => ?_)
    obtain ⟨v, rfl, hv⟩ := exists_canonical ⟨hworld, hwfc.1, hiplain⟩ hbool hrun
    obtain ⟨x, rfl⟩ := Scalar.word_of_isCanonical rfl hv
    rw [Layout.unaryValue_not_word hbool rfl]
    rcases Scalar.isCanonical_bool.mp hv with rfl | rfl
    · simp [Value.ofBool, hwfy.isAbsent_eq]
      exact .refl _
    · simp [Value.ofBool, hpresent]
      exact .refl _

theorem choice (hn : S.Admits Γ (.ifElse info cond yes no))
    (htraps : S.traps → info.layout.isVoid = false) (h : simplifyChoice info cond yes no = some m) :
    S.Refines Γ (.ifElse info cond yes no) m := by
  cases hc : cond.constant? with
  | some c => exact choice_constant hn hc h
  | none =>
    simp only [simplifyChoice, hc, Bool.and_eq_true] at h
    split at h
    next hidle =>
      cases h
      exact choice_nop hn htraps hidle.1.1 hidle.1.2 hidle.2
    · split at h
      · split at h
        · cases h
        next hpresent =>
          cases h
          exact choice_not hn (by simpa using hpresent)
      · cases h

/-! ## Branches and dropped values -/

/-- A branch may stand for a node that always ends in it. -/
theorem branch {label : Nat} (hplain : n.isPlain S.kindOf) (hvoid : n.layout.isVoid)
    (htarget : label ∈ Γ.targets)
    (heval : ∀ fuel s, n.eval S.world S.watch fuel s = some (.branch label [], s)) :
    S.Refines Γ n (.branch n.info label) where
  wellFormed := ⟨hvoid, htarget⟩
  plain := plain_leaf hplain rfl rfl rfl rfl
  layout := .refl _
  keeps := fun fuel s => .of_eq (heval fuel s)

theorem branchIf_constant {label : Nat} (hn : S.Admits Γ (.branchIf info label cond)) (hc : cond.constant? = some c) :
    S.Refines Γ (.branchIf info label cond) (if c.int ≠ 0 then .branch info label else .nop info) := by
  obtain ⟨-, ⟨hvoid, htarget, hwfc, hslot⟩, hplain⟩ := hn
  obtain ⟨cinfo, v, rfl, hint⟩ := word_of_constant? hwfc hslot hc
  have hself := every_self rfl hplain
  have hzero : c.int = 0 ↔ v.toBitVec = 0 := by
    rw [hint]
    exact Width.toInt64_eq_zero (w := .w32)
  simp only [ne_eq, hzero]
  split
  next hne =>
    refine .branch hself hvoid htarget (fun fuel s => ?_)
    simp only [eval, Result.andThen_normal, ne_eq, hne, not_false_eq_true, if_true]
  next heq =>
    refine .nop hself hvoid (fun fuel s => .of_eq ?_)
    simp only [eval, Result.andThen_normal, ne_eq, not_not.mp heq, not_true_eq_false, if_false]

/-- A negative index is beyond every table when taken as unsigned. -/
theorem tableTarget_word (hlen : labels.length ≤ 2 ^ 31) (default : Nat) (v : Int32) :
    tableTarget labels default v.toInt64 = (labels[v.toBitVec.toNat]?).getD default := by
  have hint : v.toInt64.toInt = v.toBitVec.toInt := by
    rw [Int32.toInt_toInt64, ← Int32.toInt_toBitVec]
  have hnat := v.toBitVec.isLt
  rw [BitVec.toInt_eq_toNat_cond] at hint
  have hzero : (0 : Int64).toInt = 0 := rfl
  unfold tableTarget
  split
  next hnegative =>
    rw [Int64.lt_iff_toInt_lt] at hnegative
    have hbeyond : labels.length ≤ v.toBitVec.toNat := by
      split at hint
      · omega
      · omega
    rw [List.getElem?_eq_none hbeyond, Option.getD_none]
  next hpositive =>
    rw [Int64.lt_iff_toInt_lt] at hpositive
    have hsame : v.toInt64.toInt.toNat = v.toBitVec.toNat := by
      split at hint
      · omega
      · omega
    rw [hsame]

theorem branchTable_constant {index : Node} {default : Nat}
    (hn : S.Admits Γ (.branchTable info index labels default)) (hc : index.constant? = some c) :
    S.Refines Γ (.branchTable info index labels default)
      (.branch info (tableTarget labels default c.int)) := by
  obtain ⟨-, ⟨hvoid, htargets, hwfi, hslot⟩, hplain⟩ := hn
  obtain ⟨cinfo, v, rfl, hint⟩ := word_of_constant? hwfi hslot hc
  have hself := every_self rfl hplain
  have hlen : labels.length ≤ 2 ^ 31 := of_decide_eq_true (isPlain_iff.mp hself).2.1
  rw [hint, tableTarget_word hlen]
  refine .branch hself hvoid (htargets _ (getD_mem_cons labels default v.toBitVec.toNat)) (fun fuel s => ?_)
  simp only [eval, Result.andThen_normal]

theorem drop_pure (hn : S.Admits Γ (.drop info x)) (htraps : S.traps = false) (hpure : x.isPure) :
    S.Refines Γ (.drop info x) (.nop info) :=
  .nop (every_self rfl hn.plain) hn.wellFormed.1 (fun _ _ => keeps_of_isPure htraps hpure (fun _ => .refl _))

end Setting.Refines

end TreeWasm
