import TreeWasm.Proofs.Needs.Simplified

/-! # Simplification settles a node

One pass over a node is enough: in what it gives, no rule applies any more, so that another pass leaves
it alone. The flag of the pass says exactly whether the node was changed, since every change lowers
the weight of a node.
-/

namespace TreeWasm.Node

variable {info : Info} {addr x : Node} {offset : Int64}

mutual

/-- The number of nodes in a node. Sequences count twice, so that an empty one weighs more than the
statement without effect that it becomes. -/
@[grind =] def weight : Node → Nat
  | absent => 0
  | const32 .. | const64 .. | constFloat .. | locals .. | branch .. | unreachable .. | nop .. => 1
  | binary _ _ x y | compare _ _ x y | scaledOffset _ x y _ | assign _ x y => weight x + weight y + 1
  | unary _ _ x | convert _ x | drop _ x | addressOf _ x | data _ x _ | loop _ _ x
  | branchIf _ _ x | branchTable _ x _ _ | ret _ x => weight x + 1
  | ifElse _ cond yes no => weight cond + weight yes + weight no + 1
  | block _ _ children => weightAll children + 2
  | seq _ children => weightAll children + 2
  | structLit _ parts => weightAll parts + 1
  | arrayLit _ parts => weightAll parts + 1
  | call _ _ _ parts => weightAll parts + 1

@[grind =] def weightAll : List Node → Nat
  | [] => 0
  | n :: rest => weight n + weightAll rest

end

/-- No rule of simplification applies to the node, nor to any node inside it. -/
inductive IsSettled (labels : Labels) : Node → Prop
  | intro {n : Node} : n.isAbsent = false → (∀ c ∈ n.children, IsSettled labels c) →
      n.spliced false = (n, false) → n.simpler? labels = .ok none → IsSettled labels n

variable {labels : Labels} {n m c k : Node} {changed again flag : Bool} {nodes : List Node}
  {parts : List (Node × Bool)}

/-! ## Settled nodes are left alone -/

theorem simplifyAll_unchanged (h : ∀ n ∈ nodes, n.simplify labels = .ok (n, false)) :
    simplifyAll labels nodes = .ok (nodes.map (·, false)) := by
  rw [simplifyAll_eq_ok_iff, List.forall₂_map_right_iff, List.forall₂_same]
  exact h

theorem rebuild_children : n.rebuild n.children = n := by
  cases n with
  | ifElse info cond yes no => cases no <;> rfl
  | ret info value => cases value <;> rfl
  | _ => rfl

theorem rebased_false : n.rebased false = n := by
  cases n <;> rfl

theorem IsSettled.simplify (h : n.IsSettled labels) : n.simplify labels = .ok (n, false) := by
  induction h with
  | @intro n hn _ hspliced hsimpler ih =>
    have hnodes : (n.children.map (·, false)).map Prod.fst = n.children := by simp [Function.comp_def]
    have hflags : (n.children.map (·, false)).any Prod.snd = false := by simp
    rw [simplify_eq hn, simplifyAll_unchanged ih]
    change (n.rebuild ((n.children.map (·, false)).map Prod.fst)).reduce labels
      ((n.children.map (·, false)).any Prod.snd) = _
    rw [hnodes, hflags, rebuild_children, reduce, hspliced]
    simp only [hsimpler, rebased_false]
    rfl

theorem isSettled_of_constant? (h : n.constant?.isSome) : n.IsSettled labels := by
  cases n with
  | const32 | const64 | constFloat => exact .intro rfl nofun rfl rfl
  | _ => cases h

section

variable (h : n.IsSettled labels)
include h

theorem IsSettled.not_absent : n.isAbsent = false := by
  cases h with
  | intro hn _ _ _ => exact hn

theorem IsSettled.child (hc : c ∈ n.children) : c.IsSettled labels := by
  cases h with
  | intro _ hparts _ _ => exact hparts c hc

theorem IsSettled.simpler?_eq : n.simpler? labels = .ok none := by
  cases h with
  | intro _ _ _ hsimpler => exact hsimpler

end

/-! ## Weights -/

/-- What a node adds to the weight of its parts. -/
@[grind =] def ownWeight (n : Node) : Nat := if n.isSequence then 2 else 1

theorem weight_eq (hn : n.isAbsent = false) : n.weight = n.ownWeight + weightAll n.children := by
  cases n with
  | absent => cases hn
  | ifElse info cond yes last | ret info last =>
    cases last <;> simp [weight, weightAll, ownWeight, isSequence] <;> omega
  | _ => simp [weight, weightAll, ownWeight, isSequence] <;> omega

theorem weight_pos (hn : n.isAbsent = false) : 0 < n.weight := by
  rw [weight_eq hn, ownWeight]
  split <;> omega

theorem weight_of_constant? (h : n.constant?.isSome) : n.weight = 1 := by
  cases n <;> simp_all [constant?, weight]

theorem weightAll_append {more : List Node} :
    weightAll (nodes ++ more) = weightAll nodes + weightAll more := by
  induction nodes with
  | nil => simp [weightAll]
  | cons n rest ih => simp [weightAll, ih, Nat.add_assoc]

theorem weight_le_weightAll (hc : c ∈ nodes) : c.weight ≤ weightAll nodes := by
  obtain ⟨before, after, rfl⟩ := List.append_of_mem hc
  rw [weightAll_append, weightAll]
  omega

theorem weight_child (hc : c ∈ n.children) : c.weight < n.weight := by
  have hn : n.isAbsent = false := by
    cases n with
    | absent => cases hc
    | _ => rfl
  have hle := weight_le_weightAll hc
  rw [weight_eq hn, ownWeight]
  split <;> omega

/-! ## Simpler forms are settled -/

/-- Comparisons that cannot be made now cannot be made the other way round either. -/
theorem foldCompare_eq_none {op : Operator} {y : Node} (h : foldCompare info op x y = .ok none)
    (op' : Operator) : foldCompare info op' x y = .ok none := by
  unfold foldCompare at h ⊢
  split at h
  · split at h
    · cases h
    · split at h <;> cases h
  · rfl

theorem negate?_settled (hx : x.IsSettled labels) (h : x.negate? = some m) :
    m.IsSettled labels ∧ m.weight ≤ x.weight := by
  unfold negate? at h
  split at h
  next info op a b =>
    split at h
    · cases h
    · cases h
      refine ⟨.intro rfl (fun c hc => hx.child hc) rfl ?_, Nat.le_refl _⟩
      exact foldCompare_eq_none hx.simpler?_eq _
  next info a =>
    cases h
    have hm : m ∈ (unary info .not m).children := List.mem_singleton_self m
    exact ⟨hx.child hm, Nat.le_of_lt (weight_child hm)⟩
  · split at h
    · cases h
      exact ⟨.intro rfl nofun rfl rfl, Nat.le_refl _⟩
    · cases h
  · cases h

theorem constant?_of_foldUnary_not (h : foldUnary info .not x = none) : x.constant? = none := by
  cases hx : x.constant? with
  | none => rfl
  | some c => simp [foldUnary, hx] at h

/-- Once a choice is turned round, no rule applies to it. -/
theorem simplifyChoice_swap {info' : Info} {inner yes no : Node}
    (hinner : (unary info' .not inner).IsSettled labels)
    (hidle : ¬ (yes.isNop && no.isNop && (unary info' .not inner).isPure)) :
    simplifyChoice info inner no yes = none := by
  have hnone := Except.ok.inj hinner.simpler?_eq
  rw [Option.orElse_eq_orElse, Option.orElse_eq_or, Option.or_eq_none_iff, if_pos rfl] at hnone
  have hidle' : ¬ (no.isNop && yes.isNop && inner.isPure) := by
    rwa [Bool.and_comm no.isNop]
  unfold simplifyChoice
  simp only [constant?_of_foldUnary_not hnone.1, if_neg hidle']
  split
  · cases hnone.2
  · rfl

/-- A simpler form of a node with settled parts is settled, and lighter than the node. -/
theorem Simpler.settles (h : Simpler labels n m) (hparts : ∀ c ∈ n.children, c.IsSettled labels) :
    m.IsSettled labels ∧ m.weight < n.weight := by
  have hpart (hm : m ∈ n.children) : m.IsSettled labels ∧ m.weight < n.weight :=
    ⟨hparts m hm, weight_child hm⟩
  have hleaf {c : Node} (hc : c ∈ n.children) : 1 < n.weight :=
    Nat.lt_of_le_of_lt (weight_pos (hparts c hc).not_absent) (weight_child hc)
  cases h with
  | fold hne hfolds =>
    obtain ⟨c, hc⟩ := List.exists_mem_of_ne_nil _ hne
    rw [weight_of_constant? hfolds.constant]
    exact ⟨isSettled_of_constant? hfolds.constant, hleaf hc⟩
  | negate hnegate =>
    obtain ⟨hm, hle⟩ := negate?_settled (hparts _ (.head _)) hnegate
    exact ⟨hm, Nat.lt_succ_of_le hle⟩
  | yes => exact hpart yes_mem_children
  | no _ hno => exact hpart (no_mem_children hno)
  | skip => exact ⟨.intro rfl nofun rfl rfl, hleaf cond_mem_children⟩
  | @swap info info' inner yes no hno hbusy =>
    have hcond := hparts _ cond_mem_children
    have hinner := hcond.child (List.mem_singleton_self inner)
    have hyes := hparts _ yes_mem_children
    have hother := hparts _ (no_mem_children hno)
    refine ⟨.intro rfl ?_ rfl (congrArg Except.ok (simplifyChoice_swap hcond hbusy)), ?_⟩
    · rw [children_ifElse]
      split <;> simp [hinner, hyes, hother]
    · simp only [weight]
      omega
  | emptyBlock | emptySeq => exact ⟨.intro rfl nofun rfl rfl, by simp [weight]⟩
  | taken | passed | chosen | drop => exact ⟨.intro rfl nofun rfl rfl, hleaf (.head _)⟩
  | _ => exact hpart (by simp)

/-! ## Addresses and sequences -/

/-- What is left of an address after its constant parts were moved into the offset. -/
theorem foldAddress_settled (haddr : addr.IsSettled labels) :
    (foldAddress addr offset).1.IsSettled labels ∧
      foldAddress (foldAddress addr offset).1 (foldAddress addr offset).2.1 =
        ((foldAddress addr offset).1, (foldAddress addr offset).2.1, false) := by
  fun_induction foldAddress addr offset with
  | case1 info ptr index size offset c hc moved hneg =>
    refine ⟨haddr, ?_⟩
    simp only [foldAddress, hc]
    exact if_pos hneg
  | case2 info ptr index size offset c hc moved hneg addr' offset' _ heq ih =>
    rw [heq] at ih
    exact ih (haddr.child (.head _))
  | case3 info ptr index size offset hc => exact ⟨haddr, by simp only [foldAddress, hc]⟩
  | case4 addr offset hne =>
    refine ⟨haddr, ?_⟩
    unfold foldAddress
    split
    · exact (hne _ _ _ _ (by assumption)).elim
    · rfl

/-- An address is changed exactly if a constant part of it was moved. -/
theorem foldAddress_flag :
    ((foldAddress addr offset).2.2 = false → foldAddress addr offset = (addr, offset, false)) ∧
      ((foldAddress addr offset).2.2 = true → (foldAddress addr offset).1.weight < addr.weight) ∧
      (foldAddress addr offset).1.weight ≤ addr.weight := by
  fun_induction foldAddress addr offset with
  | case2 info ptr index size offset c hc moved hneg addr' offset' _ heq ih =>
    rw [heq] at ih
    have hle : addr'.weight ≤ ptr.weight := ih.2.2
    simp only [weight]
    exact ⟨(by rintro ⟨⟩), fun _ => by omega, by omega⟩
  | _ => exact ⟨fun _ => rfl, (by rintro ⟨⟩), Nat.le_refl _⟩

theorem splice_of_not_isSpliced (h : n.isSpliced = false) : n.splice = [n] := by
  cases n with
  | nop => cases h
  | seq info children => exact if_neg (by simpa [isSpliced] using h)
  | _ => rfl

theorem flatMap_splice_unchanged (h : ∀ n ∈ nodes, n.isSpliced = false) : nodes.flatMap splice = nodes := by
  induction nodes with
  | nil => rfl
  | cons n rest ih =>
    obtain ⟨hn, hrest⟩ := List.forall_mem_cons.mp h
    rw [List.flatMap_cons, splice_of_not_isSpliced hn, ih hrest]
    rfl

theorem weightAll_splice (n : Node) :
    weightAll n.splice ≤ n.weight ∧ (n.isSpliced → weightAll n.splice < n.weight) := by
  cases n with
  | nop => simp [splice, weightAll, weight]
  | seq info children =>
    simp only [splice, isSpliced]
    split
    · simp only [weight]
      exact ⟨by omega, fun _ => by omega⟩
    next hvoid => exact ⟨Nat.le_refl _, fun h => absurd h hvoid⟩
  | _ => exact ⟨Nat.le_refl _, (by rintro ⟨⟩)⟩

/-- Splicing makes a row lighter exactly if it takes a statement apart. -/
theorem weightAll_flatMap_splice :
    weightAll (nodes.flatMap splice) ≤ weightAll nodes ∧
      (nodes.any isSpliced → weightAll (nodes.flatMap splice) < weightAll nodes) := by
  induction nodes with
  | nil => exact ⟨Nat.le_refl _, nofun⟩
  | cons n rest ih =>
    obtain ⟨hle, hlt⟩ := weightAll_splice n
    simp only [List.flatMap_cons, weightAll_append, weightAll, List.any_cons, Bool.or_eq_true]
    refine ⟨by omega, ?_⟩
    rintro (hn | hrest)
    · have := hlt hn
      omega
    · have := ih.2 hrest
      omega

theorem IsSettled.splice (h : n.IsSettled labels) :
    ∀ c ∈ n.splice, c.IsSettled labels ∧ c.isSpliced = false := by
  cases hspliced : n.isSpliced with
  | false =>
    rw [splice_of_not_isSpliced hspliced]
    simpa using ⟨h, hspliced⟩
  | true =>
    cases n with
    | nop => simp [Node.splice]
    | seq info children =>
      have hvoid : info.layout.isVoid = true := hspliced
      rw [Node.splice, if_pos hvoid]
      cases h with
      | intro _ hchildren hspliced _ =>
        have hnone : children.any isSpliced = false := (Prod.mk.inj hspliced).2
        exact fun c hc => ⟨hchildren c hc, by simpa using List.any_eq_false.mp hnone c hc⟩
    | _ => cases hspliced

/-- Nothing is left to move or to splice, and the parts are still settled. -/
theorem spliced_settled (hparts : ∀ c ∈ n.children, c.IsSettled labels)
    (h : n.spliced again = (k, flag)) :
    k.isAbsent = n.isAbsent ∧ (∀ c ∈ k.children, c.IsSettled labels) ∧ k.spliced false = (k, false) := by
  cases n with
  | data info addr offset =>
    cases h
    obtain ⟨hsettled, hfolded⟩ := foldAddress_settled (hparts addr (.head _))
    refine ⟨rfl, by simpa using hsettled, ?_⟩
    rw [spliced, hfolded]
    rfl
  | block info label children | seq info children =>
    cases h
    have hall : ∀ c ∈ children.flatMap splice, c.IsSettled labels ∧ c.isSpliced = false := by
      intro c hc
      obtain ⟨n, hn, hc⟩ := List.mem_flatMap.mp hc
      exact (hparts n hn).splice c hc
    refine ⟨rfl, fun c hc => (hall c hc).1, ?_⟩
    rw [spliced, flatMap_splice_unchanged (fun c hc => (hall c hc).2),
      List.any_eq_false.mpr (fun c hc => by simp [(hall c hc).2])]
    rfl
  | _ =>
    cases h
    exact ⟨rfl, hparts, rfl⟩

/-- The flag says whether something is moved or spliced, which makes the node lighter. -/
theorem spliced_flag (h : n.spliced again = (k, flag)) :
    (flag = false → again = false ∧ k = n) ∧ k.weight ≤ n.weight ∧
      (flag = true → again = true ∨ k.weight < n.weight) := by
  cases n with
  | data info addr offset =>
    cases h
    obtain ⟨hsame, hlighter, hle⟩ := foldAddress_flag
    refine ⟨fun hflag => ?_, Nat.succ_le_succ hle, fun hflag => ?_⟩
    · obtain ⟨hagain, hmoved⟩ := Bool.or_eq_false_iff.mp hflag
      exact ⟨hagain, by rw [hsame hmoved]⟩
    · exact (Bool.or_eq_true_iff.mp hflag).imp_right (fun hmoved => Nat.succ_lt_succ (hlighter hmoved))
  | block info label children | seq info children =>
    cases h
    obtain ⟨hle, hlt⟩ := weightAll_flatMap_splice
    refine ⟨fun hflag => ?_, Nat.add_le_add_right hle 2, fun hflag => ?_⟩
    · obtain ⟨hagain, hnone⟩ := Bool.or_eq_false_iff.mp hflag
      have hkept := flatMap_splice_unchanged
        (fun c hc => Bool.eq_false_iff.mpr (List.any_eq_false.mp hnone c hc))
      exact ⟨hagain, by rw [hkept]⟩
    · exact (Bool.or_eq_true_iff.mp hflag).imp_right (fun hany => Nat.add_lt_add_right (hlt hany) 2)
  | _ =>
    cases h
    exact ⟨fun hflag => ⟨hflag, rfl⟩, Nat.le_refl _, .inl⟩

/-! ## A pass settles a node and lowers its weight -/

/-- What a pass makes of a node, and what its flag says. -/
structure Settles (labels : Labels) (n m : Node) (changed : Bool) : Prop where
  settled : m.IsSettled labels
  same : changed = false → m = n
  lighter : changed = true → m.weight < n.weight

theorem Settles.weight_le (h : Settles labels n m changed) : m.weight ≤ n.weight := by
  cases changed with
  | false => exact Nat.le_of_eq (by rw [h.same rfl])
  | true => exact Nat.le_of_lt (h.lighter rfl)

/-- An offset that is made anew is as settled and as heavy as before. -/
theorem rebased_settled (h : k.IsSettled labels) :
    (k.rebased again).IsSettled labels ∧ (k.rebased again).weight = k.weight := by
  cases k with
  | scaledOffset info ptr index size =>
    rw [rebased]
    split
    · refine ⟨.intro rfl (fun c hc => h.child hc) rfl ?_, rfl⟩
      have hnone := Except.ok.inj h.simpler?_eq
      refine congrArg Except.ok (Option.bind_eq_none_iff.mpr (fun i hi => ?_))
      have hnone := Option.bind_eq_none_iff.mp hnone i hi
      split at hnone
      · cases hnone
      next hp => simpa [hp] using hnone
    · exact ⟨h, rfl⟩
  | _ => exact ⟨h, rfl⟩

/-- The last step of a pass over a node that was put together again from settled parts. -/
theorem settles_of_reduce (hsame : again = false → k = n) (hlighter : again = true → k.weight < n.weight)
    (hk : k.isAbsent = false) (hparts : ∀ c ∈ k.children, c.IsSettled labels)
    (h : k.reduce labels again = .ok (m, changed)) : Settles labels n m changed := by
  have hle : k.weight ≤ n.weight := by
    cases again with
    | false => exact Nat.le_of_eq (by rw [hsame rfl])
    | true => exact Nat.le_of_lt (hlighter rfl)
  have hprepared : k.spliced again = ((k.spliced again).1, (k.spliced again).2) := rfl
  obtain ⟨habsent, hparts, hspliced⟩ := spliced_settled hparts hprepared
  obtain ⟨hunchanged, hsplicedLe, hsplicedLt⟩ := spliced_flag hprepared
  rcases reduce_eq_ok h with ⟨hsimpler, rfl⟩ | ⟨hnone, rfl, rfl⟩
  · obtain ⟨hm, hlt⟩ := (simpler_of_simpler? hsimpler).settles hparts
    exact ⟨hm, nofun, fun _ => by omega⟩
  · obtain ⟨hm, hweight⟩ := rebased_settled (.intro (habsent.trans hk) hparts hspliced hnone)
    refine ⟨hm, fun hflag => ?_, fun hflag => ?_⟩
    · obtain ⟨rfl, heq⟩ := hunchanged hflag
      rw [rebased_false, heq, hsame rfl]
    · rw [hweight]
      rcases hsplicedLt hflag with hagain | hlt
      · have := hlighter hagain
        omega
      · omega

/-- What a pass makes of the parts of a node. -/
abbrev SettlesAll (labels : Labels) : List Node → List (Node × Bool) → Prop :=
  List.Forall₂ (fun n part => Settles labels n part.1 part.2)

theorem SettlesAll.same (h : SettlesAll labels nodes parts) (hflags : parts.any Prod.snd = false) :
    parts.map Prod.fst = nodes := by
  induction h with
  | nil => rfl
  | cons hpart _ ih =>
    simp only [List.any_cons, Bool.or_eq_false_iff] at hflags
    rw [List.map_cons, hpart.same hflags.1, ih hflags.2]

theorem SettlesAll.weight (h : SettlesAll labels nodes parts) :
    weightAll (parts.map Prod.fst) ≤ weightAll nodes ∧
      (parts.any Prod.snd → weightAll (parts.map Prod.fst) < weightAll nodes) := by
  induction h with
  | nil => exact ⟨Nat.le_refl _, nofun⟩
  | cons hpart _ ih =>
    have hle := hpart.weight_le
    simp only [List.map_cons, weightAll, List.any_cons, Bool.or_eq_true]
    refine ⟨by omega, ?_⟩
    rintro (hflag | hflags)
    · have := hpart.lighter hflag
      omega
    · have := ih.2 hflags
      omega

/-- A pass settles every node, and its flag says whether the node is changed. -/
theorem simplify_settles (h : n.simplify labels = .ok (m, changed)) :
    Settles labels n m changed := by
  induction n using childInduction generalizing m changed with
  | absent => cases h
  | step n hn ih =>
    rw [simplify_eq hn] at h
    obtain ⟨parts, hparts, h⟩ := Except.exists_of_bind h
    have hall : SettlesAll labels n.children parts :=
      forall₂_imp_mem (simplifyAll_eq_ok_iff.mp hparts) (fun c part hc hpart => ih c hc hpart)
    have hsettled : ∀ p ∈ parts.map Prod.fst, p.IsSettled labels := by
      intro p hp
      obtain ⟨part, hpart, rfl⟩ := List.mem_map.mp hp
      obtain ⟨c, -, hc⟩ := exists_mem_of_forall₂ hall hpart
      exact hc.settled
    have hrebuilt : Rebuilt n (parts.map Prod.fst) (n.rebuild (parts.map Prod.fst)) :=
      rebuilt ⟨by rw [List.length_map, hall.length_eq], fun p hp => (hsettled p hp).not_absent⟩
    have hpresent := hrebuilt.absent.trans hn
    refine settles_of_reduce (fun hflags => ?_) (fun hflags => ?_) hpresent ?_ h
    · rw [hall.same hflags, rebuild_children]
    · rw [weight_eq hpresent, weight_eq hn, hrebuilt.children, ownWeight, hrebuilt.sequence]
      exact Nat.add_lt_add_left (hall.weight.2 hflags) _
    · rwa [hrebuilt.children]

/-- What simplification gives, it does not change any more, and its flag is raised exactly if the node
is changed. -/
theorem simplify_idempotent (labels : Labels) (n m : Node) (changed : Bool)
    (h : n.simplify labels = .ok (m, changed)) :
    m.simplify labels = .ok (m, false) ∧ (changed = false ↔ m = n) := by
  have hsettles := simplify_settles h
  refine ⟨hsettles.settled.simplify, hsettles.same, ?_⟩
  rintro rfl
  cases changed with
  | false => rfl
  | true => exact absurd (hsettles.lighter rfl) (Nat.lt_irrefl _)

/-- Unless a flag is set, an element of a table is read; otherwise a number is thrown away. -/
def guardedRead : Node :=
  .seq ⟨.unset, .unit⟩
    [.nop ⟨.unset, .unit⟩,
      .block ⟨.unset, .unit⟩ (some 0)
        [.ifElse ⟨.unset, .unit⟩ (.unary flag .not (.locals flag [0]))
          (.assign ⟨.unset, .unit⟩ (.locals number [1])
            (.data number (.scaledOffset number (.locals number [2]) (.const32 number 2) 4) 0))
          (.drop ⟨.unset, .unit⟩ (.const32 number 1))]]
where
  flag : Info := ⟨.unset, .scalar ⟨.builtin .bool, "bool"⟩ .bool⟩
  number : Info := ⟨.unset, .index⟩

/-- What is left of it once the branches have changed places. -/
def simplerGuardedRead : Node :=
  .ifElse ⟨.unset, .unit⟩ (.locals guardedRead.flag [0]) (.nop ⟨.unset, .unit⟩)
    (.assign ⟨.unset, .unit⟩ (.locals guardedRead.number [1])
      (.data guardedRead.number (.locals guardedRead.number [2]) 8))

theorem simplify_idempotent_guardedRead :
    guardedRead.simplify ⟨[0]⟩ = .ok (simplerGuardedRead, true) ∧
      simplerGuardedRead.simplify ⟨[0]⟩ = .ok (simplerGuardedRead, false) ∧
      (true = false ↔ simplerGuardedRead = guardedRead) := by
  have h : guardedRead.simplify ⟨[0]⟩ = .ok (simplerGuardedRead, true) := by rfl
  exact ⟨h, simplify_idempotent ⟨[0]⟩ guardedRead simplerGuardedRead true h⟩

end TreeWasm.Node
