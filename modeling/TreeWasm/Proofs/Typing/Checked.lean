import TreeWasm.Proofs.Steps
import TreeWasm.Proofs.Typing.Rules
import TreeWasm.Proofs.Typing.Tidy

/-! # Checked values

A tree that the check gives back for a value is one by the typing rules, and has a type at each of its
nodes. `Check.Finds` is about the ways in which a check can end well: it follows the names in sight and
those that were looked up, and its rules follow the steps that checks are made of. Each form of value
has a lemma that takes what is known of its parts.
-/

namespace TreeWasm

namespace CheckState

/-- From one state to the other some names are used, and no aggregate is changed. -/
structure Learns (st : CheckState) (uses : List Resolution) (st' : CheckState) : Prop where
  aggregates : st'.table.aggregates = st.table.aggregates
  resolved : st'.resolved = uses.reverse ++ st.resolved

variable {st st' st'' : CheckState} {uses uses' : List Resolution}

theorem Learns.refl (st : CheckState) : st.Learns [] st := ⟨rfl, rfl⟩

theorem Learns.trans (h : st.Learns uses st') (h' : st'.Learns uses' st'') :
    st.Learns (uses ++ uses') st'' where
  aggregates := h'.aggregates.trans h.aggregates
  resolved := by rw [h'.resolved, h.resolved, List.reverse_append, List.append_assoc]

/-- The types of the names in sight are whole. -/
def Whole (names : Chain TypedName) : Prop :=
  ∀ name value, names.lookup name = some value → value.type.isWhole

theorem Whole.define {names : Chain TypedName} (h : Whole names) (name : String) {value : TypedName}
    (hvalue : value.type.isWhole) : Whole (names.define name value) := by
  intro other found hfound
  rw [Chain.lookup_define] at hfound
  split at hfound
  · cases hfound
    exact hvalue
  · exact h other found hfound

/-- The check can go on: it knows the aggregates of the table, and the types of the names in sight and
of what is returned are whole. -/
structure Knows (st : CheckState) (table : TypeTable) (ctx : CheckContext) : Prop where
  aggregates : st.table.aggregates = table.aggregates
  whole : Whole st.names
  returns : ∀ name t, ctx.function = some (name, t) → t.isWhole

theorem Knows.start {table : TypeTable} (haggregates : st.table.aggregates = table.aggregates)
    (hnames : st.names = [Level.empty]) : st.Knows table {} :=
  ⟨haggregates, hnames ▸ nofun, nofun⟩

end CheckState

namespace Check

open CheckState

variable {α β : Type} {table : TypeTable} {ctx : CheckContext} {used : List Resolution}
  {names : Chain TypedName}

/-- If the check ends well, it leaves the state as it is, and its result is as it should be. -/
def Tests (x : Check α) (ctx : CheckContext) (post : α → Prop) : Prop :=
  ∀ st a st', x ctx st = .ok (a, st') → st' = st ∧ post a

/-- Where the given names are in sight, and some were looked up before: if the check ends well, then
the names that were looked up by its end, those in sight and its result are as they should be. -/
def Finds (x : Check α) (table : TypeTable) (ctx : CheckContext) (used : List Resolution)
    (names : Chain TypedName) (post : List Resolution → Chain TypedName → α → Prop) : Prop :=
  ∀ st a st', st.names = names → st.Knows table ctx → x ctx st = .ok (a, st') →
    ∃ uses, st.Learns uses st' ∧ Whole st'.names ∧ post (used ++ uses) st'.names a

namespace Finds

variable {x : Check α} {P P' : List Resolution → Chain TypedName → α → Prop}
  {Q : List Resolution → Chain TypedName → β → Prop} {f : α → Check β} {R : α → Prop}

theorem mono (h : x.Finds table ctx used names P)
    (himp : ∀ uses names' a, P uses names' a → P' uses names' a) :
    x.Finds table ctx used names P' := by
  intro st a st' hnames hst hrun
  obtain ⟨uses, hlearns, hwhole, ha⟩ := h st a st' hnames hst hrun
  exact ⟨uses, hlearns, hwhole, himp _ _ _ ha⟩

theorem pure {a : α} (h : P used names a) : (Pure.pure a : Check α).Finds table ctx used names P := by
  rintro st _ _ rfl hst ⟨⟩
  exact ⟨[], .refl st, hst.whole, (List.append_nil used).symm ▸ h⟩

theorem fails {failure : CheckState → Failure} (h : x ctx = fun st => .error (failure st)) :
    x.Finds table ctx used names P := by
  intro st a st' _ _ hrun
  cases (congrFun h st).symm.trans hrun

theorem bind (hx : x.Finds table ctx [] names P)
    (hf : ∀ a uses names', P uses names' a → (f a).Finds table ctx (used ++ uses) names' Q) :
    (x >>= f).Finds table ctx used names Q := by
  intro st b st'' hnames hst hrun
  obtain ⟨⟨a, st'⟩, hfirst, hrest⟩ := Except.exists_of_bind hrun
  obtain ⟨uses, hlearns, hwhole, ha⟩ := hx st a st' hnames hst hfirst
  have hst' : st'.Knows table ctx := ⟨hlearns.aggregates.trans hst.aggregates, hwhole, hst.returns⟩
  obtain ⟨uses', hlearns', hwhole', hb⟩ := hf a uses _ ha st' b st'' rfl hst' hrest
  exact ⟨uses ++ uses', hlearns.trans hlearns', hwhole', List.append_assoc used uses uses' ▸ hb⟩

theorem test (hx : x.Tests ctx R) (hf : ∀ a, R a → (f a).Finds table ctx used names Q) :
    (x >>= f).Finds table ctx used names Q := by
  intro st b st'' hnames hst hrun
  obtain ⟨⟨a, st'⟩, hfirst, hrest⟩ := Except.exists_of_bind hrun
  obtain ⟨rfl, ha⟩ := hx st a st' hfirst
  exact hf a ha st' b st'' hnames hst hrest

theorem still (h : x.Finds table ctx [] names P) (hx : x.Tests ctx R) :
    x.Finds table ctx [] names (fun uses names' a => uses = [] ∧ names = names' ∧ P [] names a) := by
  rintro st a st' rfl hst hrun
  obtain ⟨uses, hlearns, hwhole, ha⟩ := h st a st' rfl hst hrun
  obtain ⟨rfl, -⟩ := hx st a st' hrun
  obtain rfl : uses = [] := by simpa using hlearns.resolved
  exact ⟨[], hlearns, hwhole, rfl, rfl, ha⟩

theorem get {f : CheckState → Check β}
    (h : ∀ st, st.names = names → st.table.aggregates = table.aggregates →
      (f st).Finds table ctx used names Q) :
    (MonadState.get >>= f).Finds table ctx used names Q :=
  fun st b st' hnames hst hrun => h st hnames hst.aggregates st b st' hnames hst hrun

theorem read {f : CheckContext → Check β}
    (h : (∀ name t, ctx.function = some (name, t) → t.isWhole) → (f ctx).Finds table ctx used names Q) :
    (MonadReader.read >>= f).Finds table ctx used names Q :=
  fun st b st' hnames hst hrun => h hst.returns st b st' hnames hst hrun

/-- A check in a level of its own leaves the names around it as they are. -/
theorem inLevel {R : List Resolution → α → Prop}
    (h : x.Finds table ctx [] (Level.empty :: names) (fun uses names' a => names = names'.tail ∧ R uses a)) :
    (Check.inLevel x).Finds table ctx [] names (fun uses names' a => names = names' ∧ R uses a) := by
  rintro st a st' rfl hst hrun
  obtain ⟨⟨a, st₁⟩, hinside, ⟨⟩⟩ := Except.exists_of_bind hrun
  obtain ⟨uses, hlearns, -, htail, ha⟩ := h { st with names := Level.empty :: st.names } a st₁ rfl
    ⟨hst.aggregates, hst.whole, hst.returns⟩ hinside
  have hnames : st.names = st₁.names.drop 1 := by rw [htail, List.drop_one]
  have hwhole := hst.whole
  rw [hnames] at hwhole
  exact ⟨uses, ⟨hlearns.aggregates, hlearns.resolved⟩, hwhole, hnames, ha⟩

/-- A check under another context, in which what is returned has a whole type too. -/
theorem withReader (g : CheckContext → CheckContext) (h : x.Finds table (g ctx) used names P)
    (hg : (∀ name t, ctx.function = some (name, t) → t.isWhole) →
      ∀ name t, (g ctx).function = some (name, t) → t.isWhole := by exact id) :
    (withTheReader CheckContext g x).Finds table ctx used names P :=
  fun st a st' hnames hst hrun => h st a st' hnames ⟨hst.aggregates, hst.whole, hg hst.returns⟩ hrun

end Finds

end Check

namespace Typing

open Check CheckState Tree

variable {table : TypeTable} {ctx : CheckContext} {names : Chain TypedName}

/-- The tree is a value with types, and the names in sight are as before. -/
def Value (table : TypeTable) (ctx : CheckContext) (names : Chain TypedName)
    (uses : List Resolution) (names' : Chain TypedName) (tree : Tree) : Prop :=
  names = names' ∧ IsValue table ctx names uses tree ∧ tree.Typed

/-- The tree is a statement with types. -/
def Statement (table : TypeTable) (ctx : CheckContext) (names : Chain TypedName)
    (uses : List Resolution) (names' : Chain TypedName) (tree : Tree) : Prop :=
  IsStatement table ctx names uses tree names' ∧ tree.Typed

/-- If the check ends well, it gives a value. -/
abbrev FindsValue (x : Check Tree) (table : TypeTable) (ctx : CheckContext)
    (names : Chain TypedName) : Prop :=
  x.Finds table ctx [] names (Value table ctx names)

/-- If the check ends well, it gives a statement. -/
abbrev FindsStatement (x : Check Tree) (table : TypeTable) (ctx : CheckContext)
    (names : Chain TypedName) : Prop :=
  x.Finds table ctx [] names (Statement table ctx names)

theorem Value.statement {uses : List Resolution} {names' : Chain TypedName} {tree : Tree}
    (h : Value table ctx names uses names' tree) : Statement table ctx names uses names' tree := by
  obtain ⟨rfl, hvalue, htyped⟩ := h
  exact ⟨.expression hvalue, htyped⟩

end Typing

open Check Typing in
/-- The check of a node gives back values and statements by the typing rules. -/
structure Checker.Fits (table : TypeTable) (c : Checker) : Prop where
  present : c.node.isMissing = false
  value : ∀ {expected ctx names}, expected.isPlain → FindsValue (c.check (.value expected)) table ctx names
  statement : ∀ {ctx names}, FindsStatement (c.check .statement) table ctx names
  literal : isLiteral c.node → ∀ {use ctx}, (c.check use).Tests ctx (fun _ => True)

namespace Typing

open Check CheckState Tree

variable {table : TypeTable} {ctx : CheckContext} {names : Chain TypedName}
  {c left right : Checker} {args values : List Checker} {op : Operator} {expected l r t type : Ty}
  {entries written : List (String × Checker)} {pos : Position} {name : String} {info : TreeInfo}
  {want : Ty}

theorem tests_expect {got : Ty} : (expect pos want got).Tests ctx (fun _ => want.takes got) := by
  unfold expect
  split
  next hsame =>
    rintro st _ _ ⟨⟩
    exact ⟨rfl, hsame⟩
  · rintro st _ _ ⟨⟩

theorem finds_fitting (h : c.Fits table) (hwant : want.isPlain) :
    (fitting want c).Finds table ctx [] names
      (fun uses names' tree => Value table ctx names uses names' tree ∧ want.takes tree.type) :=
  (h.value hwant).bind (fun _ _ _ hvalue =>
    .test tests_expect (fun _ htakes => .pure ⟨hvalue, htakes⟩))

theorem finds_condition (h : c.Fits table) :
    (condition c).Finds table ctx [] names
      (fun uses names' tree => Value table ctx names uses names' tree ∧ tree.type.isBuiltin .bool) := by
  refine (h.value rfl).bind (fun tree uses names' hvalue => ?_)
  split
  next hbool => exact .pure ⟨hvalue, hbool⟩
  · exact .fails rfl

/-! ## Expressions -/

/-- An operation gives back the type of its left operand, a truth value or a number. -/
theorem resultOf_eq_some (h : resultOf op l r = some t) : t = l ∨ t = .bool ∨ t = .i32 := by
  have hchoice {c : Bool} (h : (if c then some l else none) = some t) : t = l ∨ t = .bool ∨ t = .i32 := by
    split at h
    · exact .inl (Option.some.inj h).symm
    · cases h
  unfold resultOf at h
  split at h
  · split at h
    · cases h
    · split at h
      · exact .inr (.inl (Option.some.inj h).symm)
      · split at h
        · exact .inr (.inl (Option.some.inj h).symm)
        · cases h
  · split at h
    · exact .inl (Option.some.inj h).symm
    · split at h
      · exact .inr (.inr (Option.some.inj h).symm)
      · split at h
        · cases h
        · split at h <;> exact hchoice h
  · cases h

theorem isWhole_of_resultOf (h : resultOf op l r = some t) (hl : l.isWhole) : t.isWhole := by
  rcases resultOf_eq_some h with rfl | rfl | rfl
  · exact hl
  · rfl
  · rfl

theorem tests_requireResult : (requireResult pos op l r).Tests ctx (fun t => resultOf op l r = some t) := by
  unfold requireResult
  split
  next t ht =>
    rintro st _ _ ⟨⟩
    exact ⟨rfl, ht⟩
  · rintro st _ _ ⟨⟩

/-- Two operands, of which a literal takes its type from the other, with what comes after them. -/
theorem finds_operands {f : Tree × Tree → Check Tree}
    {Q : List Resolution → Chain TypedName → Tree → Prop} (hl : left.Fits table)
    (hr : right.Fits table) {hint : Ty} (hhint : hint.isPlain) (second : Ty → Ty)
    (hsecond : ∀ t, t.isPlain → (second t).isPlain)
    (hf : ∀ l r uses uses', IsValue table ctx names uses l → IsValue table ctx names uses' r →
      l.Typed → r.Typed → (f (l, r)).Finds table ctx (uses ++ uses') names Q) :
    Finds (if isLiteral left.node && !isLiteral right.node then do
        let r ← right.check (.value hint)
        let l ← left.check (.value r.type.unwrap)
        let p ← pure (l, r)
        f p
      else do
        let l ← left.check (.value hint)
        let r ← right.check (.value (second l.type.unwrap))
        let p ← pure (l, r)
        f p) table ctx [] names Q := by
  split
  next hliteral =>
    simp only [Bool.and_eq_true, Bool.not_eq_true'] at hliteral
    refine (hr.value hhint).bind ?_
    rintro r uses _ ⟨rfl, hvalue, htyped⟩
    -- The literal uses no names, so that the order of the two does not matter.
    refine ((hl.value htyped.isPlain).still (hl.literal hliteral.1)).bind ?_
    rintro l _ _ ⟨rfl, rfl, -, hvalue', htyped'⟩
    rw [List.append_nil]
    exact hf l r [] uses hvalue' hvalue htyped' htyped
  · refine (hl.value hhint).bind ?_
    rintro l uses _ ⟨rfl, hvalue, htyped⟩
    refine (hr.value (hsecond _ htyped.isPlain)).bind ?_
    rintro r uses' _ ⟨rfl, hvalue', htyped'⟩
    exact hf l r uses uses' hvalue hvalue' htyped htyped'

theorem finds_binary (hl : left.Fits table) (hr : right.Fits table) (hexpected : expected.isPlain) :
    FindsValue (Typing.binary info op left right expected) table ctx names := by
  unfold Typing.binary
  split
  next hop =>
    have hop : op = .both ∨ op = .either := by simpa using hop
    refine (finds_condition hl).bind ?_
    rintro l uses _ ⟨⟨rfl, hvalue, htyped⟩, hbool⟩
    refine (finds_condition hr).bind ?_
    rintro r uses' _ ⟨⟨rfl, hvalue', htyped'⟩, hbool'⟩
    exact .pure ⟨rfl, .logical hop hvalue hvalue' hbool hbool' rfl, .node rfl (.two htyped htyped') nofun⟩
  · have hhint : (if op.isComparison then Ty.absent else expected).isPlain := by
      split
      · rfl
      · exact hexpected
    refine finds_operands hl hr hhint (fun t => if t.isPointer && !op.isComparison then .i32 else t) ?_ ?_
    · intro t ht
      split
      · rfl
      · exact ht
    · intro l r uses uses' hvalue hvalue' htyped htyped'
      refine .test tests_requireResult (fun t ht => .pure ⟨rfl, .binary hvalue hvalue' ht, ?_⟩)
      exact .node (Ty.isWhole_unwrap (isWhole_of_resultOf ht htyped.type)) (.two htyped htyped') nofun

theorem finds_unary (h : c.Fits table) (hexpected : expected.isPlain) :
    FindsValue (Typing.unary info op c expected) table ctx names := by
  unfold Typing.unary
  split
  · refine (finds_condition h).bind ?_
    rintro x uses _ ⟨⟨rfl, hvalue, htyped⟩, hbool⟩
    exact .pure ⟨rfl, .not hvalue hbool rfl, .node rfl htyped.one nofun⟩
  · refine (h.value hexpected).bind ?_
    rintro x uses _ ⟨rfl, hvalue, htyped⟩
    dsimp only
    split
    next hnumeric =>
      rw [Ty.isNumeric_unwrap] at hnumeric
      exact .pure ⟨rfl, .negate hvalue hnumeric rfl, .node (Ty.isWhole_unwrap htyped.type) htyped.one nofun⟩
    · exact .fails rfl
  · refine (h.value hexpected).bind ?_
    rintro x uses _ ⟨rfl, hvalue, htyped⟩
    dsimp only
    split
    next hinteger =>
      rw [Ty.isInteger_unwrap] at hinteger
      exact .pure ⟨rfl, .complement hvalue hinteger rfl,
        .node (Ty.isWhole_unwrap htyped.type) htyped.one nofun⟩
    · exact .fails rfl
  · exact .fails rfl

theorem run_get_bind {α : Type} {st : CheckState} {f : CheckState → Check α} :
    (get >>= f) ctx st = f st ctx st := rfl

theorem finds_find :
    (find pos name).Finds table ctx [] names (fun uses names' value => names = names' ∧
      uses = [⟨pos, name, value.declared⟩] ∧ names.lookup name = some value ∧ value.type.isWhole) := by
  rintro st value st' rfl hst hrun
  rw [find, run_get_bind] at hrun
  cases hlookup : st.names.lookup name with
  | some found =>
    rw [hlookup] at hrun
    cases hrun
    exact ⟨[⟨pos, name, value.declared⟩], ⟨rfl, rfl⟩, hst.whole, rfl, rfl, rfl, hst.whole name value hlookup⟩
  | none =>
    rw [hlookup] at hrun
    cases hrun

theorem finds_ident : FindsValue (Typing.ident info name) table ctx names := by
  refine finds_find.bind ?_
  rintro value _ _ ⟨rfl, rfl, hvalue, hwhole⟩
  split
  · exact .fails rfl
  next hfunction =>
    rw [Bool.not_eq_true] at hfunction
    let info' : TreeInfo := { info with type := .location value.type }
    have htype : info'.type = .location value.type := rfl
    exact .pure ⟨rfl, .ident hvalue hfunction htype, .node (Ty.isWhole_unwrap_location hwhole) nofun nofun⟩

/-- Values of the given types, one after the other. -/
def Values (table : TypeTable) (ctx : CheckContext) (names : Chain TypedName) (types : List Ty)
    (uses : List Resolution) (names' : Chain TypedName) (trees : List Tree) : Prop :=
  names = names' ∧ AreValues table ctx names uses types trees ∧ ∀ tree ∈ trees, tree.Typed

theorem finds_values_cons {types : List Ty} {rest : Check (List Tree)} (h : c.Fits table)
    (ht : t.isWhole) (hrest : rest.Finds table ctx [] names (Values table ctx names types)) :
    Finds (do
        let tree ← fitting t c
        return tree :: (← rest)) table ctx [] names (Values table ctx names (t :: types)) := by
  refine (finds_fitting h (Ty.isPlain_of_isWhole ht)).bind ?_
  rintro tree uses _ ⟨⟨rfl, hvalue, htyped⟩, htakes⟩
  refine hrest.bind ?_
  rintro trees uses' _ ⟨rfl, hvalues, htyped'⟩
  exact .pure ⟨rfl, .cons hvalue htakes hvalues, List.forall_mem_cons.mpr ⟨htyped, htyped'⟩⟩

theorem finds_arguments (h : ∀ c ∈ args, c.Fits table) {types : List Ty}
    (htypes : ∀ t ∈ types, t.isWhole) (hlen : args.length = types.length) :
    (arguments types args).Finds table ctx [] names (Values table ctx names types) := by
  induction types generalizing args with
  | nil =>
    obtain rfl := List.length_eq_zero_iff.mp hlen
    exact .pure ⟨rfl, .nil, nofun⟩
  | cons t types ih =>
    match args, hlen with
    | c :: args, hlen =>
      rw [List.forall_mem_cons] at h htypes
      exact finds_values_cons h.1 htypes.1 (ih h.2 htypes.2 (Nat.succ.inj hlen))

theorem finds_call {callee : Tree} (h : ∀ c ∈ args, c.Fits table) :
    FindsValue (Typing.call info callee args) table ctx names := by
  unfold Typing.call
  split
  next calleeInfo name =>
    refine finds_find.bind ?_
    rintro value _ _ ⟨rfl, rfl, hvalue, hwhole⟩
    split
    · exact .fails rfl
    next hfunction =>
      split
      next occurrence params result htype =>
        split
        · exact .fails rfl
        next hlen =>
          have hparts := hwhole
          rw [htype, Ty.isWhole, Bool.and_eq_true, Ty.areWhole_iff] at hparts
          refine (finds_arguments h hparts.1 (Decidable.not_not.mp hlen)).bind ?_
          rintro trees uses _ ⟨rfl, hvalues, htyped⟩
          let calleeInfo' : TreeInfo := { calleeInfo with type := value.type }
          have hcall : IsValue table ctx names (⟨calleeInfo'.pos, name, value.declared⟩ :: uses)
              (.call { info with type := result } (.ident calleeInfo' name) trees) :=
            .call hvalue (by simpa using hfunction) htype (Ty.isLocation_of_isWhole hparts.2) hvalues
          exact .pure ⟨rfl, hcall, .node (Ty.isWhole_unwrap hparts.2)
            (List.forall_mem_cons.mpr ⟨.node (Ty.isWhole_unwrap hwhole) (by rintro _ ⟨⟩) (by rintro _ ⟨⟩), htyped⟩)
            (by rintro _ ⟨⟩)⟩
      · exact .fails rfl
  · exact .fails rfl

theorem field?_congr {table table' : TypeTable} (h : table.aggregates = table'.aggregates) :
    table.field? t name = table'.field? t name := by
  simp only [TypeTable.field?, TypeTable.aggregate?, TypeTable.get?, h]

theorem isWhole_of_field? (htable : Aggregate.AreWhole table.aggregates) {field : Ty}
    (h : table.field? t name = some field) : field.isWhole := by
  obtain ⟨aggregate, hfind, hfield⟩ := Option.bind_eq_some_iff.mp h
  have hmem : aggregate ∈ table.aggregates := by
    unfold TypeTable.aggregate? at hfind
    split at hfind
    · exact Array.mem_of_getElem? hfind
    · cases hfind
  exact htable aggregate hmem (name, field) (Level.mem_of_lookup hfield)

/-- The type of a part: that of a place, or that of a value. -/
theorem isWhole_part {elem : Ty} (helem : elem.isWhole) {place : Bool} :
    (if place then Ty.location elem else elem).unwrap.isWhole := by
  split
  · exact Ty.isWhole_unwrap_location helem
  · exact Ty.isWhole_unwrap helem

theorem finds_fieldOf {st : CheckState} {base : Tree} {uses : List Resolution} {viaPointer : Bool}
    (htable : Aggregate.AreWhole table.aggregates) (haggregates : st.table.aggregates = table.aggregates)
    (hvalue : IsValue table ctx names uses base) (htyped : base.Typed)
    (hpointer : base.type.isPointer = viaPointer) :
    Finds (if !st.table.isStruct base.type.record && !st.table.isUnion base.type.record then do
        fail info.pos (.hasNoFields (← text base.type.record))
      else
        match st.table.field? base.type.record name with
        | none => do fail info.pos (.hasNoField (← text base.type.record) name)
        | some field =>
          let t := if viaPointer || base.type.isLocation then .location field else field
          return .member { info with type := t } base name) table ctx ([] ++ uses) names
      (Value table ctx names) := by
  split
  · exact .fails rfl
  · split
    · exact .fails rfl
    next field hfield =>
      rw [field?_congr haggregates] at hfield
      have hwhole := isWhole_of_field? htable hfield
      exact .pure ⟨rfl, .member hvalue hfield (Ty.isLocation_of_isWhole hwhole) (by rw [hpointer]),
        .node (isWhole_part hwhole) htyped.one (by rintro _ ⟨⟩)⟩

theorem finds_member (htable : Aggregate.AreWhole table.aggregates) (h : c.Fits table) :
    FindsValue (Typing.member info c name) table ctx names := by
  refine (h.value rfl).bind ?_
  rintro base uses _ ⟨rfl, hvalue, htyped⟩
  refine .get (fun st _ haggregates => ?_)
  cases hunwrap : base.type.unwrap with
  | pointer occurrence elem =>
    have hpointer : base.type.isPointer = true := by simp [Ty.isPointer, hunwrap]
    have hrecord : base.type.record = elem.unwrap := by simp [Ty.record, hunwrap]
    dsimp only
    rw [← hrecord]
    exact finds_fieldOf htable haggregates hvalue htyped hpointer
  | _ =>
    have hpointer : base.type.isPointer = false := by simp [Ty.isPointer, hunwrap]
    have hrecord : base.type.record = base.type.unwrap := by simp [Ty.record, hunwrap]
    dsimp only
    rw [← hunwrap, ← hrecord]
    exact finds_fieldOf htable haggregates hvalue htyped hpointer

theorem finds_subscript (hl : left.Fits table) (hr : right.Fits table) :
    FindsValue (Typing.subscript info left right) table ctx names := by
  refine (hl.value rfl).bind ?_
  rintro base uses _ ⟨rfl, hvalue, htyped⟩
  refine (hr.value rfl).bind ?_
  rintro i uses' _ ⟨rfl, hvalue', htyped'⟩
  have hwhole := htyped.type
  split
  · exact .fails rfl
  next hinteger =>
    have hinteger : i.type.isInteger := by simpa using hinteger
    split
    next occurrence length elem harray =>
      have helem : elem.isWhole := by rwa [harray] at hwhole
      exact .pure ⟨rfl, .element hvalue hvalue' harray hinteger (Ty.isLocation_of_isWhole helem) rfl,
        .node (isWhole_part helem) (.two htyped htyped') nofun⟩
    next occurrence elem hpointer =>
      have helem : elem.isWhole := by rwa [hpointer] at hwhole
      exact .pure ⟨rfl, .pointee hvalue hvalue' hpointer hinteger rfl,
        .node (Ty.isWhole_unwrap_location helem) (.two htyped htyped') nofun⟩
    · exact .fails rfl

theorem finds_deref (h : c.Fits table) : FindsValue (Typing.deref info c) table ctx names := by
  refine (h.value rfl).bind ?_
  rintro p uses _ ⟨rfl, hvalue, htyped⟩
  have hwhole := htyped.type
  split
  next occurrence elem hpointer =>
    have helem : elem.isWhole := by rwa [hpointer] at hwhole
    exact .pure ⟨rfl, .deref hvalue hpointer rfl,
      .node (Ty.isWhole_unwrap_location helem) htyped.one (by rintro _ ⟨⟩)⟩
  · exact .fails rfl

theorem isLocation_unwrap (t : Ty) : t.unwrap.isLocation = false := by
  cases h : t.unwrap with
  | location elem => exact absurd h (Ty.unwrap_ne_location t elem)
  | _ => rfl

theorem isPlace_of_isLocation {uses : List Resolution} {tree : Tree}
    (hvalue : IsValue table ctx names uses tree) (ht : tree.type.isLocation) : tree.isPlace := by
  cases hvalue with
  | number h | float h | call _ _ _ h _ | cast _ _ h => cases h.symm.trans ht
  | bool h | logical _ _ _ _ _ h | not _ _ h | addressOf _ _ h | structLit h _ _ _ | arrayLit h _ _ =>
    rw [Tree.type, Tree.info, h] at ht
    cases ht
  | ident | deref => rfl
  | @binary _ _ _ _ _ _ left _ _ _ h =>
    rw [Tree.type, Tree.info] at ht
    rcases resultOf_eq_some h with h | h | h <;> rw [h] at ht
    · cases (isLocation_unwrap left.type).symm.trans ht
    · cases ht
    · cases ht
  | negate _ _ h | complement _ _ h | ifElse _ _ _ _ h _ | block _ _ h =>
    rw [Tree.type, Tree.info, h, isLocation_unwrap] at ht
    cases ht
  | member hbase _ hfield h =>
    rw [Tree.type, Tree.info, h] at ht
    rw [Tree.isPlace, Bool.or_eq_true]
    split at ht
    next hplace =>
      rcases Bool.or_eq_true_iff.mp hplace with hpointer | hlocation
      · exact .inr hpointer
      · exact .inl (isPlace_of_isLocation hbase hlocation)
    · cases hfield.symm.trans ht
  | element hbase _ _ _ helem h =>
    rw [Tree.type, Tree.info, h] at ht
    rw [Tree.isPlace, Bool.or_eq_true]
    split at ht
    next hlocation => exact .inl (isPlace_of_isLocation hbase hlocation)
    · cases helem.symm.trans ht
  | pointee _ _ hpointer _ _ =>
    rw [Tree.isPlace, Bool.or_eq_true]
    exact .inr (by simp [Ty.isPointer, hpointer])
termination_by tree

theorem finds_addressOf (h : c.Fits table) : FindsValue (Typing.addressOf info c) table ctx names := by
  refine (h.value rfl).bind ?_
  rintro x uses _ ⟨rfl, hvalue, htyped⟩
  split
  · exact .fails rfl
  next hlocation =>
    have hplace := isPlace_of_isLocation hvalue (by simpa using hlocation)
    rintro st tree st' rfl hst ⟨⟩
    refine ⟨[], ⟨rfl, rfl⟩, hst.whole, rfl, ?_, .node htyped.type htyped.one nofun⟩
    rw [List.append_nil]
    exact .addressOf hvalue hplace rfl

theorem finds_cast (h : c.Fits table) {target : Ty} (htarget : target.isWhole) :
    FindsValue (Typing.cast info c target) table ctx names := by
  refine (h.value rfl).bind ?_
  rintro x uses _ ⟨rfl, hvalue, htyped⟩
  dsimp only
  split
  next hfits =>
    refine .pure ⟨rfl, .cast hvalue ?_ (Ty.isLocation_of_isWhole htarget),
      .node (Ty.isWhole_unwrap htarget) htyped.one nofun⟩
    rcases Bool.or_eq_true_iff.mp hfits with hscalar | hsame
    · rw [Bool.and_eq_true, Ty.isScalar_unwrap] at hscalar
      exact .inl hscalar
    · exact .inr (by rwa [Ty.takes, Ty.unwrap_of_isWhole htarget])
  · exact .fails rfl

theorem length_eq_of_areValues {uses : List Resolution} {types : List Ty} {trees : List Tree} :
    AreValues table ctx names uses types trees → trees.length = types.length
  | .nil => rfl
  | .cons _ _ h => congrArg Nat.succ (length_eq_of_areValues h)

theorem finds_mapM_fitting (h : ∀ c ∈ values, c.Fits table) (ht : t.isWhole) :
    (values.mapM (fitting t)).Finds table ctx [] names
      (Values table ctx names (List.replicate values.length t)) := by
  induction values with
  | nil => exact .pure ⟨rfl, .nil, nofun⟩
  | cons c rest ih =>
    rw [List.forall_mem_cons] at h
    rw [List.mapM_cons]
    exact finds_values_cons h.1 ht (ih h.2)

theorem finds_arrayLit (h : ∀ c ∈ values, c.Fits table) (hexpected : expected.isPlain) :
    FindsValue (Typing.arrayLit info values expected) table ctx names := by
  unfold Typing.arrayLit
  split
  next occurrence length elem =>
    split
    · exact .fails rfl
    next hlen =>
      refine (finds_mapM_fitting (t := elem) h hexpected).bind ?_
      rintro trees uses _ ⟨rfl, hvalues, htyped⟩
      have hcount : trees.length = values.length := by simpa using length_eq_of_areValues hvalues
      rw [← hcount] at hvalues
      have hlen : length.toInt = trees.length := by
        rw [hcount]
        exact (Decidable.not_not.mp hlen).symm
      exact .pure ⟨rfl, .arrayLit rfl hlen hvalues, .node hexpected htyped nofun⟩
  · exact .fails rfl

/-- Written fields are accepted if all are fields of the type and none is written twice. -/
theorem writtenFields_eq_ok_iff {seen : List (String × Checker)} {st st' : CheckState} :
    writtenFields type entries seen ctx st = .ok (written, st') ↔
      (∀ entry ∈ entries, (st.table.field? type entry.1).isSome) ∧ (entries.map Prod.fst).Nodup ∧
        (∀ entry ∈ entries, seen.lookup entry.1 = none) ∧ written = entries.reverse ++ seen ∧ st' = st := by
  induction entries generalizing seen with
  | nil =>
    change Except.ok (seen, st) = Except.ok (written, st') ↔ _
    grind
  | cons entry rest ih =>
    obtain ⟨name, value⟩ := entry
    change (if (st.table.field? type name).isNone then _ else _ : Check _) ctx st = _ ↔ _
    rw [List.forall_mem_cons, List.forall_mem_cons]
    split
    next hunknown =>
      refine ⟨nofun, fun h => ?_⟩
      simp [Option.isNone_iff_eq_none.mp hunknown] at h
    next hknown =>
      split
      next hagain =>
        refine ⟨nofun, fun h => ?_⟩
        rw [h.2.2.1.1] at hagain
        cases hagain
      next hnew =>
        have hlookup : (∀ entry ∈ rest, ((name, value) :: seen).lookup entry.1 = none) ↔
            name ∉ rest.map Prod.fst ∧ ∀ entry ∈ rest, seen.lookup entry.1 = none := by
          clear ih
          grind
        rw [Bool.not_eq_true, Option.isNone_eq_false_iff] at hknown
        rw [Option.not_isSome_iff_eq_none] at hnew
        rw [ih, hlookup, List.map_cons, List.nodup_cons, List.reverse_cons, List.append_assoc,
          List.singleton_append]
        simp only [hknown, hnew, true_and, and_assoc, and_left_comm]

theorem finds_fieldValues (hwritten : ∀ entry ∈ written, entry.2.Fits table)
    {fields : List (String × Ty)} (hfields : ∀ field ∈ fields, field.2.isWhole) :
    (fieldValues pos type written fields).Finds table ctx [] names
      (Values table ctx names (fields.map Prod.snd)) := by
  induction fields with
  | nil => exact .pure ⟨rfl, .nil, nofun⟩
  | cons field rest ih =>
    obtain ⟨name, t⟩ := field
    rw [List.forall_mem_cons] at hfields
    rw [fieldValues]
    split
    · exact .fails rfl
    next value hvalue =>
      exact finds_values_cons (hwritten _ (Level.mem_of_lookup hvalue)) hfields.1 (ih hfields.2)

theorem finds_structLit (htable : Aggregate.AreWhole table.aggregates) {fields : List String}
    (h : ∀ c ∈ values, c.Fits table) (hexpected : expected.isPlain) :
    FindsValue (Typing.structLit info fields values expected) table ctx names := by
  refine .get (fun st _ haggregates => ?_)
  dsimp only
  split
  next aggregate haggregate =>
    split
    · exact .fails rfl
    next hunion =>
      have hentries : ∀ entry ∈ fields.zip values, entry.2.Fits table :=
        fun entry hentry => h entry.2 (List.of_mem_zip hentry).2
      have htests : (writtenFields expected (fields.zip values) []).Tests ctx
          (fun written => ∀ entry ∈ written, entry.2.Fits table) := by
        intro st written st' hrun
        obtain ⟨-, -, -, rfl, rfl⟩ := writtenFields_eq_ok_iff.mp hrun
        exact ⟨rfl, by simpa using hentries⟩
      refine .test htests (fun written hwritten => ?_)
      unfold TypeTable.aggregate? at haggregate
      rw [Ty.unwrap_of_isPlain hexpected] at haggregate
      split at haggregate
      next id =>
        rw [TypeTable.get?, haggregates] at haggregate
        have hfields := htable aggregate (Array.mem_of_getElem? haggregate)
        refine (finds_fieldValues hwritten hfields).bind ?_
        rintro trees uses _ ⟨rfl, hvalues, htyped⟩
        exact .pure ⟨rfl, .structLit rfl haggregate (by simpa using hunion) hvalues,
          .node rfl htyped (by rintro _ ⟨⟩)⟩
      · cases haggregate
  · exact .fails rfl

theorem finds_ifValue {cond yes no : Checker} (hc : cond.Fits table) (hy : yes.Fits table)
    (hn : no.node.isMissing ∨ no.Fits table) (hexpected : expected.isPlain) :
    FindsValue (Typing.ifValue info cond yes no expected) table ctx names := by
  refine (finds_condition hc).bind ?_
  rintro c uses _ ⟨⟨rfl, hvalue, htyped⟩, hbool⟩
  split
  · exact .fails rfl
  next hpresent =>
    refine (hy.value hexpected).bind ?_
    rintro y uses' _ ⟨rfl, hvalue', htyped'⟩
    refine (finds_fitting (hn.resolve_left hpresent) htyped'.isPlain).bind ?_
    rintro n uses'' _ ⟨⟨rfl, hvalue'', htyped''⟩, htakes⟩
    exact .pure ⟨rfl, .ifElse hvalue hbool hvalue' hvalue'' rfl htakes,
      .ifElse (Ty.isWhole_unwrap htyped'.type) htyped htyped' htyped''⟩

end Typing

end TreeWasm
