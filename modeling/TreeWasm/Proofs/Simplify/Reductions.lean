import Mathlib.Data.List.Forall2
import TreeWasm.Code.Simplify
import TreeWasm.Proofs.Meaning.Forms
import TreeWasm.Proofs.Steps

/-! # The steps of simplification

Simplification works from the inside out: the parts of a node are simplified, the node is put together
again from the new parts, and then a few reductions are made at its top. `Node.simplify_eq` says so in
one equation for all forms. `Node.Reduction` lists the reductions, and `Node.simplify_eq_ok` says that
nothing else happens. What simplification preserves can so be shown for each reduction by itself.
-/

namespace TreeWasm

variable {op : Operator} {x : Node} {nodes : List Node} {parts : List (Node × Bool)} {failure : Failure}

namespace Node

/-- The node with other parts, as many as it has. -/
def rebuild : Node → List Node → Node
  | binary info op _ _, [x, y] => binary info op x y
  | unary info op _, [x] => unary info op x
  | convert info _, [x] => convert info x
  | compare info op _ _, [x, y] => compare info op x y
  | data info _ offset, [addr] => data info addr offset
  | scaledOffset info _ _ size, [ptr, index] => scaledOffset info ptr index size
  | ifElse info _ _ _, [cond, yes] => ifElse info cond yes absent
  | ifElse info _ _ _, [cond, yes, no] => ifElse info cond yes no
  | loop info label _, [body] => loop info label body
  | block info label _, children => block info label children
  | seq info _, children => seq info children
  | branchIf info label _, [cond] => branchIf info label cond
  | branchTable info _ targets default, [index] => branchTable info index targets default
  | ret info _, [] => ret info absent
  | ret info _, [value] => ret info value
  | drop info _, [x] => drop info x
  | structLit info _, fields => structLit info fields
  | arrayLit info _, elems => arrayLit info elems
  | call info func name _, args => call info func name args
  | assign info _ _, [target, value] => assign info target value
  | addressOf info _, [x] => addressOf info x
  | n, _ => n

/-- Whether the node is a row of statements. -/
def isSequence : Node → Bool
  | block .. | seq .. => true
  | _ => false

/-- What a pass does before it looks for a simpler form: constant parts of an address move into the
offset, and the statements of a sequence are spliced. -/
def spliced (again : Bool) : Node → Node × Bool
  | data info addr offset =>
    let (addr, offset, moved) := foldAddress addr offset
    (data info addr offset, again || moved)
  | block info label children =>
    (block info label (children.flatMap splice), again || children.any isSpliced)
  | seq info children => (seq info (children.flatMap splice), again || children.any isSpliced)
  | n => (n, again)

/-- The simpler form of a node, if a rule gives one. -/
def simpler? (labels : Labels) : Node → Except Failure (Option Node)
  | binary info op x y => foldBinary info op x y
  | compare info op x y => foldCompare info op x y
  | unary info op x => .ok (foldUnary info op x <|> if op = .not then x.negate? else none)
  | convert info x =>
    .ok ((if x.layout.same info.layout then some x else none) <|> foldConvert info x)
  | scaledOffset info ptr index size => .ok (index.constant?.bind (fun i =>
    match ptr.constant? with
    | some p => some (int32 info (p.int + i.int * size).toInt32)
    | none => if i.int * size = 0 then some ptr else none))
  | ifElse info cond yes no => .ok (simplifyChoice info cond yes no)
  | block info label children => .ok (collapse info children (labels.uses label = 0))
  | seq info children => .ok (collapse info children true)
  | branchIf info label cond =>
    .ok (cond.constant?.map (fun c => if c.int ≠ 0 then branch info label else nop info))
  | branchTable info index targets default =>
    .ok (index.constant?.map (fun c => branch info (tableTarget targets default c.int)))
  | drop info x => .ok (if x.isPure then some (nop info) else none)
  | addressOf info x => .ok (match x with
      | data _ addr offset => addr.constant?.map (fun c => int32 info (c.int + offset).toInt32)
      | _ => none)
  | _ => .ok none

/-- The node that stays if there is no simpler form: an offset with new parts is made anew. -/
def rebased (again : Bool) : Node → Node
  | scaledOffset info ptr index size =>
    if again then offsetBy info.pos ptr index size else scaledOffset info ptr index size
  | n => n

/-- What a pass does at the top of a node once its parts are simplified; the flag says whether one of
them was changed. -/
def reduce (labels : Labels) (again : Bool) (n : Node) : Except Failure (Node × Bool) := do
  let (n, changed) := n.spliced again
  return settle (← n.simpler? labels) (n.rebased again) changed

variable {labels : Labels} {n m : Node} {changed again : Bool}

theorem flattenSequence_eq :
    flattenSequence parts = ((parts.map Prod.fst).flatMap splice,
      parts.any Prod.snd || (parts.map Prod.fst).any isSpliced) := by
  rw [flattenSequence, List.flatMap_map, Prod.mk.injEq]
  refine ⟨rfl, ?_⟩
  induction parts with
  | nil => rfl
  | cons part rest ih =>
    simp only [List.any_cons, List.map_cons, ih]
    cases part.2 <;> cases part.1.isSpliced <;> simp

/-- A pass simplifies the parts of a node, puts the node together again and reduces it. -/
theorem simplify_eq (hn : n.isAbsent = false) :
    n.simplify labels = simplifyAll labels n.children >>= fun parts =>
      (n.rebuild (parts.map Prod.fst)).reduce labels (parts.any Prod.snd) := by
  have hok {α β : Type} (a : α) (f : α → Except Failure β) : (Except.ok a >>= f) = f a := rfl
  cases n with
  | absent => cases hn
  | ifElse info cond yes no =>
    rw [children_ifElse, simplify]
    split <;> simp only [simplifyAll, bind_assoc, pure_bind, hok, rebuild, reduce, spliced, simpler?,
      rebased, List.map_cons, List.map_nil, List.any_cons, List.any_nil, Bool.or_false, Bool.or_assoc]
  | ret info value =>
    rw [children_ret, simplify]
    split
    · rfl
    · simp only [simplifyAll, bind_assoc, pure_bind, hok, rebuild, List.map_cons, List.map_nil,
        List.any_cons, List.any_nil, Bool.or_false]
      rfl
  | block | seq =>
    simp only [simplify, flattenSequence_eq]
    rfl
  | structLit | arrayLit | call => rfl
  | _ =>
    simp only [simplify, children, simplifyAll, bind_assoc, pure_bind, hok, rebuild, List.map_cons,
      List.map_nil, List.any_cons, List.any_nil, Bool.or_false]
    rfl

/-- The node is a constant that may stand for an operation with this information. -/
structure Folds (info : Info) (m : Node) : Prop where
  info_eq : m.info = info
  constant : m.constant?.isSome
  integer : info.layout.isFloat = false → m.isExpression

/-- A simpler form of a node that simplification may take. -/
inductive Simpler (labels : Labels) : Node → Node → Prop
  /-- An operation on constants is a constant. -/
  | fold {n m : Node} : n.children ≠ [] → Folds n.info m → Simpler labels n m
  | left {info op x y} : info.layout.isFloat = false → y.constant?.isSome →
      Simpler labels (binary info op x y) x
  | right {info op x y} : info.layout.isFloat = false → x.constant?.isSome →
      Simpler labels (binary info op x y) y
  | negate {info x m} : x.negate? = some m → Simpler labels (unary info .not x) m
  | same {info x} : x.layout.same info.layout → Simpler labels (convert info x) x
  | still {info ptr index size} : index.constant?.isSome →
      Simpler labels (scaledOffset info ptr index size) ptr
  | yes {info cond yes no} : cond.constant?.isSome → Simpler labels (ifElse info cond yes no) yes
  | no {info cond yes no} : cond.constant?.isSome → no.isAbsent = false →
      Simpler labels (ifElse info cond yes no) no
  | skip {info cond yes no} : no.isNop → cond.isPure →
      (cond.constant?.isSome ∨ yes.isNop) → Simpler labels (ifElse info cond yes no) (nop info)
  | swap {info info' inner yes no} : no.isAbsent = false →
      ¬ (yes.isNop && no.isNop && (unary info' .not inner).isPure) →
      Simpler labels (ifElse info (unary info' .not inner) yes no) (ifElse info inner no yes)
  | emptyBlock {info label} : info.layout.isVoid → Simpler labels (block info label []) (nop info)
  | emptySeq {info} : info.layout.isVoid → Simpler labels (seq info []) (nop info)
  | aloneBlock {info label child} : labels.uses label = 0 → Simpler labels (block info label [child]) child
  | aloneSeq {info child} : Simpler labels (seq info [child]) child
  | taken {info label cond} : cond.constant?.isSome →
      Simpler labels (branchIf info label cond) (branch info label)
  | passed {info label cond} : cond.constant?.isSome → Simpler labels (branchIf info label cond) (nop info)
  | chosen {info index targets default} {i : Int64} : index.constant?.isSome →
      Simpler labels (branchTable info index targets default) (branch info (tableTarget targets default i))
  | drop {info x} : x.isPure → Simpler labels (drop info x) (nop info)

/-- A change at the top of a node that simplification may make. -/
inductive Reduction (labels : Labels) : Node → Node → Prop
  | simpler {n m : Node} : Simpler labels n m → Reduction labels n m
  | address {info info' ptr index size offset offset'} : index.constant?.isSome →
      Reduction labels (data info (scaledOffset info' ptr index size) offset) (data info ptr offset')
  | rebase {info ptr index size} :
      Reduction labels (scaledOffset info ptr index size) (offsetBy info.pos ptr index size)
  | spliceBlock {info label children} :
      Reduction labels (block info label children) (block info label (children.flatMap splice))
  | spliceSeq {info children} : Reduction labels (seq info children) (seq info (children.flatMap splice))

/-- Some reductions one after the other. -/
inductive Reduces (labels : Labels) (n : Node) : Node → Prop
  | refl : Reduces labels n n
  | step {m k} : Reduces labels n m → Reduction labels m k → Reduces labels n k

theorem Reduction.reduces {labels : Labels} {n m : Node} (h : Reduction labels n m) :
    Reduces labels n m :=
  .step .refl h

theorem targets_of_constant? (h : n.constant?.isSome) : n.targets = [] := by
  cases n <;> simp_all [constant?, targets]

theorem isPure_of_constant? (h : n.constant?.isSome) : n.isPure := by
  cases n <;> simp_all [constant?, isPure]

section Folds

variable {info : Info}

theorem folds_int32 {v : Int32} : Folds info (int32 info v) := ⟨rfl, rfl, fun _ => rfl⟩

theorem folds_float (h : info.layout.isFloat) {v : Double} : Folds info (float info v) :=
  ⟨rfl, rfl, fun hfloat => by cases h.symm.trans hfloat⟩

theorem folds_constant {c : Constant} : Folds info (constant info c) := by
  unfold constant
  split
  next hfloat => exact folds_float hfloat
  · split
    · exact ⟨rfl, rfl, fun _ => rfl⟩
    · exact folds_int32

theorem constant?_constant (info : Info) (c : Constant) : (constant info c).constant?.isSome :=
  folds_constant.constant

theorem folds_of_foldIntegers {a b : Int64} (h : foldIntegers info op a b = .ok m) :
    Folds info m := by
  unfold foldIntegers at h
  split at h
  · split at h
    · cases h
      exact folds_constant
    · cases h
  · cases h

theorem folds_of_foldUnary (h : foldUnary info op x = some m) : Folds info m := by
  obtain ⟨c, -, h⟩ := Option.bind_eq_some_iff.mp h
  split at h
  · split at h
    next hfloat =>
      cases h
      exact folds_float hfloat
    · cases h
      exact folds_constant
  · cases h
    exact folds_int32
  · cases h
    exact folds_constant
  · cases h

theorem folds_of_foldCompare {y : Node} (h : foldCompare info op x y = .ok (some m)) : Folds info m := by
  unfold foldCompare at h
  split at h
  · split at h
    · cases h
      exact folds_int32
    · split at h
      · cases h
        exact folds_int32
      · cases h
  · cases h

theorem folds_of_foldConvert (h : foldConvert info x = some m) : Folds info m := by
  obtain ⟨c, -, h⟩ := Option.bind_eq_some_iff.mp h
  dsimp only at h
  split at h
  · cases h
    exact folds_int32
  · split at h
    next hboth =>
      cases h
      exact folds_float (Bool.and_eq_true_iff.mp hboth).2
    · split at h
      next hfloat =>
        cases h
        exact folds_float hfloat
      · split at h
        · split at h
          · cases h
          · split at h
            · cases h
              exact ⟨rfl, rfl, fun _ => rfl⟩
            · cases h
              exact folds_constant
        · cases h
          exact folds_constant

end Folds

theorem simpler_of_foldBinary {info : Info} {op : Operator} {x y : Node}
    (h : foldBinary info op x y = .ok (some m)) : Simpler labels (binary info op x y) m := by
  unfold foldBinary at h
  split at h
  next hfloat =>
    split at h
    · obtain ⟨v, -, rfl⟩ := Option.map_eq_some_iff.mp (Except.ok.inj h)
      exact .fold (List.cons_ne_nil _ _) (folds_float hfloat)
    · cases h
  next hfloat =>
    rw [Bool.not_eq_true] at hfloat
    split at h
    next a b _ _ =>
      obtain ⟨v, hfold, ⟨⟩⟩ := Except.exists_of_map h
      exact .fold (List.cons_ne_nil _ _) (folds_of_foldIntegers hfold)
    next b _ hb =>
      obtain ⟨-, ⟨⟩⟩ := Option.ite_none_right_eq_some.mp (Except.ok.inj h)
      exact .left hfloat (Option.isSome_of_eq_some hb)
    next a ha _ =>
      obtain ⟨-, ⟨⟩⟩ := Option.ite_none_right_eq_some.mp (Except.ok.inj h)
      exact .right hfloat (Option.isSome_of_eq_some ha)
    · cases h

theorem simpler_of_simplifyChoice {info : Info} {cond yes no : Node}
    (h : simplifyChoice info cond yes no = some m) : Simpler labels (ifElse info cond yes no) m := by
  unfold simplifyChoice at h
  split at h
  next c hc =>
    have hconstant := Option.isSome_of_eq_some hc
    split at h
    · cases h
      exact .yes hconstant
    · split at h
      next habsent =>
        cases h
        refine .skip ?_ (isPure_of_constant? hconstant) (.inl hconstant)
        cases no <;> simp_all [isAbsent, isNop]
      next habsent =>
        cases h
        exact .no hconstant (by simpa using habsent)
  · split at h
    next hidle =>
      cases h
      simp only [Bool.and_eq_true] at hidle
      exact .skip hidle.1.2 hidle.2 (.inr hidle.1.1)
    next hbusy =>
      split at h
      · split at h
        · cases h
        next habsent =>
          cases h
          exact .swap (by simpa using habsent) hbusy
      · cases h

/-- A row of statements collapses to nothing or to its only statement. -/
theorem collapse_eq_some {info : Info} {children : List Node} {alone : Bool}
    (h : collapse info children alone = some m) :
    children = [] ∧ info.layout.isVoid ∧ m = nop info ∨ children = [m] ∧ alone := by
  unfold collapse at h
  split at h
  · obtain ⟨hvoid, ⟨⟩⟩ := Option.ite_none_right_eq_some.mp h
    exact .inl ⟨rfl, hvoid, rfl⟩
  · obtain ⟨halone, ⟨⟩⟩ := Option.ite_none_right_eq_some.mp h
    exact .inr ⟨rfl, halone⟩
  · cases h

theorem simpler_of_simpler? (h : n.simpler? labels = .ok (some m)) : Simpler labels n m := by
  cases n with
  | binary info op x y => exact simpler_of_foldBinary h
  | compare info op x y => exact .fold (List.cons_ne_nil _ _) (folds_of_foldCompare h)
  | unary info op x =>
    replace h := Except.ok.inj h
    rw [Option.orElse_eq_orElse, Option.orElse_eq_or, Option.or_eq_some_iff] at h
    rcases h with hfold | ⟨-, hnegate⟩
    · exact .fold (List.cons_ne_nil _ _) (folds_of_foldUnary hfold)
    · obtain ⟨rfl, hnegate⟩ := Option.ite_none_right_eq_some.mp hnegate
      exact .negate hnegate
  | convert info x =>
    replace h := Except.ok.inj h
    rw [Option.orElse_eq_orElse, Option.orElse_eq_or, Option.or_eq_some_iff] at h
    rcases h with hsame | ⟨-, hfold⟩
    · obtain ⟨hsame, ⟨⟩⟩ := Option.ite_none_right_eq_some.mp hsame
      exact .same hsame
    · exact .fold (List.cons_ne_nil _ _) (folds_of_foldConvert hfold)
  | scaledOffset info ptr index size =>
    obtain ⟨i, hi, h⟩ := Option.bind_eq_some_iff.mp (Except.ok.inj h)
    split at h
    · cases h
      exact .fold (List.cons_ne_nil _ _) folds_int32
    · obtain ⟨-, ⟨⟩⟩ := Option.ite_none_right_eq_some.mp h
      exact .still (Option.isSome_of_eq_some hi)
  | ifElse info cond yes no => exact simpler_of_simplifyChoice (Except.ok.inj h)
  | block info label children =>
    rcases collapse_eq_some (Except.ok.inj h) with ⟨rfl, hvoid, rfl⟩ | ⟨rfl, hunused⟩
    · exact .emptyBlock hvoid
    · exact .aloneBlock (of_decide_eq_true hunused)
  | seq info children =>
    rcases collapse_eq_some (Except.ok.inj h) with ⟨rfl, hvoid, rfl⟩ | ⟨rfl, -⟩
    · exact .emptySeq hvoid
    · exact .aloneSeq
  | branchIf info label cond =>
    obtain ⟨c, hc, rfl⟩ := Option.map_eq_some_iff.mp (Except.ok.inj h)
    split
    · exact .taken (Option.isSome_of_eq_some hc)
    · exact .passed (Option.isSome_of_eq_some hc)
  | branchTable info index targets default =>
    obtain ⟨c, hc, rfl⟩ := Option.map_eq_some_iff.mp (Except.ok.inj h)
    exact .chosen (Option.isSome_of_eq_some hc)
  | drop info x =>
    obtain ⟨hpure, ⟨⟩⟩ := Option.ite_none_right_eq_some.mp (Except.ok.inj h)
    exact .drop hpure
  | addressOf info x =>
    replace h := Except.ok.inj h
    split at h
    · obtain ⟨c, -, rfl⟩ := Option.map_eq_some_iff.mp h
      exact .fold (List.cons_ne_nil _ _) folds_int32
    · cases h
  | _ => cases h

/-- Constant parts of an address leave it one after the other. -/
theorem foldAddress_reduces {info : Info} {addr : Node} {offset : Int64} :
    Reduces labels (data info addr offset)
      (data info (foldAddress addr offset).1 (foldAddress addr offset).2.1) := by
  have htrans {n m k : Node} (h : Reduction labels n m) (hrest : Reduces labels m k) :
      Reduces labels n k := by
    induction hrest with
    | refl => exact h.reduces
    | step _ hlast ih => exact ih.step hlast
  fun_induction foldAddress addr offset with
  | case1 info' ptr index size offset c hc moved hneg => exact .refl
  | case2 info' ptr index size offset c hc moved hneg addr' offset' _ heq ih =>
    rw [heq] at ih
    exact htrans (.address (Option.isSome_of_eq_some hc)) ih
  | case3 => exact .refl
  | case4 => exact .refl

theorem spliced_reduces : Reduces labels n (n.spliced again).1 := by
  cases n with
  | data info addr offset => exact foldAddress_reduces
  | block => exact Reduction.reduces .spliceBlock
  | seq => exact Reduction.reduces .spliceSeq
  | _ => exact .refl

theorem reduces_rebased (h : Reduces labels n m) : Reduces labels n (m.rebased again) := by
  cases m with
  | scaledOffset =>
    rw [rebased]
    split
    · exact h.step .rebase
    · exact h
  | _ => exact h

/-- The last step of a pass takes a simpler form, if there is one. -/
theorem reduce_eq_ok (h : n.reduce labels again = .ok (m, changed)) :
    (n.spliced again).1.simpler? labels = .ok (some m) ∧ changed = true ∨
      (n.spliced again).1.simpler? labels = .ok none ∧ m = (n.spliced again).1.rebased again ∧
        changed = (n.spliced again).2 := by
  obtain ⟨simpler, hsimpler, h⟩ := Except.exists_of_bind h
  cases simpler with
  | some k =>
    cases h
    exact .inl ⟨hsimpler, rfl⟩
  | none =>
    cases h
    exact .inr ⟨hsimpler, rfl, rfl⟩

theorem reduces_of_reduce (h : n.reduce labels again = .ok (m, changed)) : Reduces labels n m := by
  rcases reduce_eq_ok h with ⟨hsimpler, -⟩ | ⟨-, rfl, -⟩
  · exact spliced_reduces.step (.simpler (simpler_of_simpler? hsimpler))
  · exact reduces_rebased spliced_reduces

/-! ## Parts -/

/-- One node is the simplified form of another. -/
def Becomes (labels : Labels) (n m : Node) : Prop := ∃ changed, n.simplify labels = .ok (m, changed)

theorem simplifyAll_eq_ok_iff :
    simplifyAll labels nodes = .ok parts ↔
      List.Forall₂ (fun n part => n.simplify labels = .ok part) nodes parts := by
  constructor
  · intro h
    induction nodes generalizing parts with
    | nil =>
      cases h
      exact .nil
    | cons n rest ih =>
      obtain ⟨part, hpart, h⟩ := Except.exists_of_bind h
      obtain ⟨more, hmore, h⟩ := Except.exists_of_bind h
      cases h
      exact .cons hpart (ih hmore)
  · intro h
    induction h with
    | nil => rfl
    | cons hpart _ ih =>
      rw [simplifyAll, hpart, ih]
      rfl

theorem becomes_of_simplifyAll (h : simplifyAll labels nodes = .ok parts) :
    List.Forall₂ (Becomes labels) nodes (parts.map Prod.fst) := by
  rw [List.forall₂_map_right_iff]
  exact (simplifyAll_eq_ok_iff.mp h).imp (fun _ part hpart => ⟨part.2, hpart⟩)

/-- Simplification simplifies the parts of a node and then reduces what is made of them. -/
theorem simplify_eq_ok (h : n.simplify labels = .ok (m, changed)) :
    n.isAbsent = false ∧ ∃ parts, List.Forall₂ (Becomes labels) n.children parts ∧
      Reduces labels (n.rebuild parts) m := by
  have hn : n.isAbsent = false := by
    cases n with
    | absent => cases h
    | _ => rfl
  rw [simplify_eq hn] at h
  obtain ⟨parts, hparts, h⟩ := Except.exists_of_bind h
  exact ⟨hn, parts.map Prod.fst, becomes_of_simplifyAll hparts, reduces_of_reduce h⟩

theorem simplifyAll_eq_error (h : simplifyAll labels nodes = .error failure) :
    ∃ c ∈ nodes, c.simplify labels = .error failure := by
  induction nodes with
  | nil => cases h
  | cons n rest ih =>
    rcases Except.error_of_bind h with hn | ⟨part, -, h⟩
    · exact ⟨n, (.head _), hn⟩
    · rcases Except.error_of_bind h with hrest | ⟨_, -, ⟨⟩⟩
      obtain ⟨c, hc, hfailure⟩ := ih hrest
      exact ⟨c, List.mem_cons_of_mem n hc, hfailure⟩

/-- Whether an operation on constants can be refused. -/
def isOperation : Node → Bool
  | binary .. | compare .. => true
  | _ => false

theorem isOperation_rebuild (n : Node) (parts : List Node) :
    (n.rebuild parts).isOperation = n.isOperation := by
  unfold rebuild
  split <;> rfl

/-- Simplification fails at a part, or because an operation on simplified operands is refused. -/
theorem simplify_eq_error (hn : n.isAbsent = false) (h : n.simplify labels = .error failure) :
    (∃ c ∈ n.children, c.simplify labels = .error failure) ∨
      n.isOperation ∧ ∃ parts, List.Forall₂ (Becomes labels) n.children parts ∧
        (n.rebuild parts).simpler? labels = .error failure := by
  rw [simplify_eq hn] at h
  rcases Except.error_of_bind h with hparts | ⟨parts, hparts, h⟩
  · exact .inl (simplifyAll_eq_error hparts)
  rcases Except.error_of_bind h with hrefused | ⟨_, -, ⟨⟩⟩
  have hoperation := isOperation_rebuild n (parts.map Prod.fst)
  have hbecomes := becomes_of_simplifyAll hparts
  generalize hrebuilt : n.rebuild (parts.map Prod.fst) = k at hrefused hoperation
  cases k with
  | binary | compare => exact .inr ⟨hoperation.symm, _, hbecomes, hrebuilt ▸ hrefused⟩
  | _ => cases hrefused

end Node

end TreeWasm
