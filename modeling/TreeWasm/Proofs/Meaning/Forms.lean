import TreeWasm.Code.Access
import TreeWasm.Code.Labels

/-! # Induction over code nodes

Nodes hold lists of nodes. The induction principle of this module gives, for a node with a list of
parts, the hypothesis for every member of the list. Some rules for a node look through a part that is
a value in memory to its address, so the hypothesis for that address is given too.
-/

namespace TreeWasm.Node

variable {c n : Node} {p : Node → Bool} {P : Node → Prop} {info : Info} {nodes : List Node}
  {cond no x yes : Node} {value : Node}

/-- If a node is a value in memory, its address has the property. -/
def AddressHas (P : Node → Prop) (n : Node) : Prop := ∀ info addr offset, n = data info addr offset → P addr

/-- To prove a property of all nodes, prove it of each form from the same property of its parts. -/
@[elab_as_elim]
theorem partsInduction (absent : P .absent) (const32 : ∀ info v, P (.const32 info v))
    (const64 : ∀ info v, P (.const64 info v)) (constFloat : ∀ info v, P (.constFloat info v))
    (binary : ∀ info op x y, P x → P y → P (.binary info op x y))
    (unary : ∀ info op x, P x → P (.unary info op x))
    (convert : ∀ info x, P x → P (.convert info x))
    (compare : ∀ info op x y, P x → P y → P (.compare info op x y))
    (data : ∀ info addr offset, P addr → P (.data info addr offset))
    (scaledOffset : ∀ info ptr index size, P ptr → P index → P (.scaledOffset info ptr index size))
    (locals : ∀ info slots, P (.locals info slots))
    (ifElse : ∀ info cond yes no, P cond → P yes → P no → P (.ifElse info cond yes no))
    (loop : ∀ info label body, P body → P (.loop info label body))
    (block : ∀ info label children, (∀ n ∈ children, P n) → P (.block info label children))
    (seq : ∀ info children, (∀ n ∈ children, P n) → P (.seq info children))
    (branch : ∀ info label, P (.branch info label))
    (branchIf : ∀ info label cond, P cond → P (.branchIf info label cond))
    (branchTable : ∀ info index targets default, P index → P (.branchTable info index targets default))
    (ret : ∀ info value, P value → P (.ret info value))
    (unreachable : ∀ info, P (.unreachable info)) (nop : ∀ info, P (.nop info))
    (drop : ∀ info x, P x → P (.drop info x))
    (structLit : ∀ info fields, (∀ n ∈ fields, P n) → P (.structLit info fields))
    (arrayLit : ∀ info elems, (∀ n ∈ elems, P n) → P (.arrayLit info elems))
    (call : ∀ info func name args, (∀ n ∈ args, P n) → P (.call info func name args))
    (assign : ∀ info target value, P target → P value → AddressHas P target → P (.assign info target value))
    (addressOf : ∀ info x, P x → AddressHas P x → P (.addressOf info x)) (n : Node) : P n := by
  have hleaf : ∀ n, P n → (∀ info addr offset, n ≠ .data info addr offset) → P n ∧ AddressHas P n :=
    fun n hn hne => ⟨hn, fun info addr offset h => absurd h (hne info addr offset)⟩
  have hboth : P n ∧ AddressHas P n := by
    refine @Node.rec (fun n => P n ∧ AddressHas P n) (fun nodes => ∀ n ∈ nodes, P n)
      (hleaf _ absent (by simp)) (fun _ _ => hleaf _ (const32 _ _) (by simp))
      (fun _ _ => hleaf _ (const64 _ _) (by simp)) (fun _ _ => hleaf _ (constFloat _ _) (by simp))
      (fun _ _ _ _ hx hy => hleaf _ (binary _ _ _ _ hx.1 hy.1) (by simp))
      (fun _ _ _ hx => hleaf _ (unary _ _ _ hx.1) (by simp))
      (fun _ _ hx => hleaf _ (convert _ _ hx.1) (by simp))
      (fun _ _ _ _ hx hy => hleaf _ (compare _ _ _ _ hx.1 hy.1) (by simp)) ?_
      (fun _ _ _ _ hp hi => hleaf _ (scaledOffset _ _ _ _ hp.1 hi.1) (by simp))
      (fun _ _ => hleaf _ (locals _ _) (by simp))
      (fun _ _ _ _ hc hy hn => hleaf _ (ifElse _ _ _ _ hc.1 hy.1 hn.1) (by simp))
      (fun _ _ _ hb => hleaf _ (loop _ _ _ hb.1) (by simp))
      (fun _ _ _ hc => hleaf _ (block _ _ _ hc) (by simp))
      (fun _ _ hc => hleaf _ (seq _ _ hc) (by simp)) (fun _ _ => hleaf _ (branch _ _) (by simp))
      (fun _ _ _ hc => hleaf _ (branchIf _ _ _ hc.1) (by simp))
      (fun _ _ _ _ hi => hleaf _ (branchTable _ _ _ _ hi.1) (by simp))
      (fun _ _ hv => hleaf _ (ret _ _ hv.1) (by simp)) (fun _ => hleaf _ (unreachable _) (by simp))
      (fun _ => hleaf _ (nop _) (by simp)) (fun _ _ hx => hleaf _ (drop _ _ hx.1) (by simp))
      (fun _ _ hf => hleaf _ (structLit _ _ hf) (by simp))
      (fun _ _ he => hleaf _ (arrayLit _ _ he) (by simp))
      (fun _ _ _ _ ha => hleaf _ (call _ _ _ _ ha) (by simp))
      (fun _ _ _ ht hv => hleaf _ (assign _ _ _ ht.1 hv.1 ht.2) (by simp))
      (fun _ _ hx => hleaf _ (addressOf _ _ hx.1 hx.2) (by simp))
      (fun _ hmem => absurd hmem List.not_mem_nil)
      (fun _ _ hhead htail n hmem =>
        (List.mem_cons.mp hmem).elim (fun h => h ▸ hhead.1) (htail n)) n
    intro info addr offset haddr
    refine ⟨data info addr offset haddr.1, ?_⟩
    rintro _ _ _ ⟨rfl, rfl, rfl⟩
    exact haddr.1
  exact hboth.1

/-- Whether a node and all nodes inside it satisfy a test. -/
def every (p : Node → Bool) (n : Node) : Bool := !n.any (fun m => !p m)

theorem anyOf_eq : anyOf p nodes = nodes.any (any p) := by
  induction nodes with
  | nil => rfl
  | cons n rest ih => rw [anyOf, ih, List.any_cons]

attribute [simp] children.eq_1 children.eq_2 children.eq_3 children.eq_4 children.eq_5 children.eq_6
  children.eq_7 children.eq_8 children.eq_9 children.eq_10 children.eq_11 children.eq_12 children.eq_13
  children.eq_14 children.eq_15 children.eq_16 children.eq_17 children.eq_18 children.eq_19
  children.eq_20 children.eq_21 children.eq_22

/-- A test holds throughout a node exactly if it holds of the node and throughout its parts. -/
theorem every_iff (hn : n.isAbsent = false) : n.every p ↔ p n ∧ ∀ c ∈ n.children, c.every p := by
  cases n with
  | absent => cases hn
  | ifElse info cond yes last | ret info last => cases last <;> simp [every, any, anyOf_eq, and_assoc]
  | _ => simp [every, any, anyOf_eq, and_assoc]

theorem every_self (hn : n.isAbsent = false) (h : n.every p) : p n := ((every_iff hn).mp h).1

theorem every_child (h : n.every p) (hc : c ∈ n.children) : c.every p := by
  cases hn : n.isAbsent with
  | false => exact ((every_iff hn).mp h).2 c hc
  | true => cases n <;> simp_all [isAbsent]

theorem children_ifElse :
    (ifElse info cond yes no).children = if no.isAbsent then [cond, yes] else [cond, yes, no] := by
  cases no <;> rfl

theorem children_ret : (ret info value).children = if value.isAbsent then [] else [value] := by
  cases value <;> rfl

theorem every_single (hn : n.children = [x]) (h : n.every p) : p n ∧ x.every p := by
  have hx := every_child h (hn ▸ List.mem_singleton_self x)
  cases n with
  | absent => cases hn
  | _ => exact ⟨every_self rfl h, hx⟩

theorem every_pair {y : Node} (hn : n.children = [x, y]) (h : n.every p) : p n ∧ x.every p ∧ y.every p := by
  have hx := every_child (c := x) h (by simp [hn])
  have hy := every_child (c := y) h (by simp [hn])
  cases n with
  | absent => cases hn
  | _ => exact ⟨every_self rfl h, hx, hy⟩


/-- To prove a property of all nodes, prove it of a node from the same property of its children. -/
theorem childInduction (absent : P .absent)
    (step : ∀ n, n.isAbsent = false → (∀ c ∈ n.children, P c) → P n) (n : Node) : P n := by
  induction n using partsInduction with
  | absent => exact absent
  | ifElse info cond yes no hcond hyes hno =>
    refine step _ rfl ?_
    rw [children_ifElse]
    split <;> simp [hcond, hyes, hno]
  | ret info value hvalue =>
    refine step _ rfl ?_
    rw [children_ret]
    split <;> simp [hvalue]
  | block _ _ children ih | seq _ children ih | structLit _ children ih | arrayLit _ children ih =>
    exact step _ rfl ih
  | call _ _ _ children ih => exact step _ rfl ih
  | _ => exact step _ rfl (by simp [*])

theorem every_both {q r : Node → Bool} (hboth : ∀ m, p m → q m → r m) (hp : n.every p)
    (hq : n.every q) : n.every r := by
  induction n using childInduction with
  | absent => rfl
  | step n hn ih =>
    refine (every_iff hn).mpr ⟨hboth n (every_self hn hp) (every_self hn hq), fun c hc => ?_⟩
    exact ih c hc (every_child hp hc) (every_child hq hc)

theorem cond_mem_children : cond ∈ (ifElse info cond yes no).children := by
  rw [children_ifElse]
  split <;> simp

theorem yes_mem_children : yes ∈ (ifElse info cond yes no).children := by
  rw [children_ifElse]
  split <;> simp

theorem no_mem_children (hno : no.isAbsent = false) : no ∈ (ifElse info cond yes no).children := by
  rw [children_ifElse, if_neg (by simp [hno])]
  simp

/-- The forms of expressions without effects or reads of memory. -/
def isExpression : Node → Bool
  | const32 .. | const64 .. | binary .. | unary .. | convert .. | compare .. | scaledOffset .. => true
  | locals info _ => info.layout.isScalar
  | ifElse info _ _ no => info.layout.isScalar && !no.isAbsent
  | _ => false

/-! ## Branches -/

theorem targetsAll_eq : targetsAll nodes = nodes.flatMap targets := by
  induction nodes with
  | nil => rfl
  | cons n rest ih => rw [targetsAll, ih, List.flatMap_cons]

theorem count_targetsAll_of_mem (hc : c ∈ nodes) {l : Nat} :
    c.targets.count l ≤ (targetsAll nodes).count l := by
  induction nodes with
  | nil => cases hc
  | cons n rest ih =>
    rw [targetsAll, List.count_append]
    rcases List.mem_cons.mp hc with rfl | hrest
    · omega
    · have := ih hrest
      omega

/-- A part of a node has no more branches to a label than the whole node. -/
theorem count_targets_child (hc : c ∈ n.children) (l : Nat) : c.targets.count l ≤ n.targets.count l := by
  cases n with
  | block | seq | structLit | arrayLit | call => exact count_targetsAll_of_mem hc
  | ifElse info cond yes no =>
    have hcases : c = cond ∨ c = yes ∨ c = no := by
      rw [children_ifElse] at hc
      split at hc <;> grind
    rcases hcases with rfl | rfl | rfl <;> simp [targets] <;> omega
  | ret info value =>
    rw [children_ret] at hc
    split at hc
    · cases hc
    · exact Nat.le_of_eq (by rw [List.mem_singleton.mp hc, targets])
  | binary info op x y | compare info op x y | scaledOffset info x y size | assign info x y =>
    simp only [children, List.mem_cons, List.not_mem_nil, or_false] at hc
    rcases hc with rfl | rfl <;> simp [targets]
  | branchIf info label cond =>
    simp only [children, List.mem_singleton] at hc
    simp [targets, hc, List.count_cons]
  | branchTable info index labels default =>
    simp only [children, List.mem_singleton] at hc
    simp [targets, hc, List.count_cons]
    omega
  | unary info op x | convert info x | drop info x | addressOf info x | data info x offset
  | loop info label x =>
    simp only [children, List.mem_singleton] at hc
    simp [targets, hc]
  | _ => simp at hc

end TreeWasm.Node
