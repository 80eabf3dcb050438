import TreeWasm.Proofs.Typing.Spelling

/-! # Trees are read tidy

Whatever a document holds, the tree that is read from it is tidy: its written types are whole, and the
bodies of loops and cases are blocks. `Read.Gives` is about the results of reading; a node of a
document is tidy in each of its roles.
-/

namespace TreeWasm

variable {known : List UInt8 → Option Ty} {declared : Level Ty} {t : Ty} {text : String}
  {fields : Level Reading} {α β : Type} {reading : Reading} {table : TypeTable} {P : α → Prop}
  {Q : β → Prop}

/-! ## Results of reading -/

/-- The types of a level are whole. -/
def Program.IsWhole (declared : Level Ty) : Prop := ∀ binding ∈ declared.bindings, binding.2.isWhole

namespace Read

variable {α β : Type} {node : DocNode}

/-- The failure is a fault of the document, at a place in the file. -/
def Located (file : Int) (failure : Failure) : Prop :=
  ∃ pos fault, failure = .reading pos fault ∧ pos.file = file

/-- Reading ends with a result and a table that satisfy a property, or finds a fault of the document. -/
def Runs (x : Read α) (ctx : ReadContext) (table : TypeTable) (R : α → TypeTable → Prop) : Prop :=
  match x ctx table with
  | .ok (a, table') => R a table'
  | .error failure => Located ctx.file failure

/-- What is read satisfies a property if the declared types are whole, and the aggregates stay as they
are. -/
def Gives (x : Read α) (P : α → Prop) : Prop :=
  ∀ ctx table, Program.IsWhole ctx.declared →
    Runs x ctx table (fun a table' => P a ∧ table'.aggregates = table.aggregates)

/-- Whatever is read is a tidy tree. -/
abbrev GivesTidy (x : Read Tree) : Prop := Gives x (fun tree => tree.isTidy)

namespace Runs

variable {x : Read α} {ctx : ReadContext} {R : α → TypeTable → Prop} {S : β → TypeTable → Prop}

theorem read {k : ReadContext → Read α} (h : Runs (k ctx) ctx table R) :
    Runs (MonadReader.read >>= k) ctx table R := h

theorem mono {R' : α → TypeTable → Prop} (h : Runs x ctx table R)
    (himp : ∀ a table', R a table' → R' a table') : Runs x ctx table R' := by
  unfold Runs at h ⊢
  split at h
  · exact himp _ _ h
  · exact h

theorem bind {f : α → Read β} (hx : Runs x ctx table R)
    (hf : ∀ a table', R a table' → Runs (f a) ctx table' S) : Runs (x >>= f) ctx table S := by
  have hrun : (x >>= f) ctx table = (x ctx table >>= fun (a, table') => f a ctx table') := rfl
  unfold Runs at hx
  rw [Runs, hrun]
  split at hx
  next a table' heq =>
    rw [heq]
    exact hf a table' hx
  next heq =>
    rw [heq]
    exact hx

theorem fail {node : Document.DocNode} {fault : ReadingFault} : Runs (Read.fail node fault) ctx table R :=
  ⟨_, fault, rfl, rfl⟩

end Runs

namespace Gives

variable {x : Read α} {P : α → Prop} {Q : β → Prop} {f : α → Read β}

theorem mono {P' : α → Prop} (h : Gives x P) (himp : ∀ a, P a → P' a) : Gives x P' :=
  fun ctx table hctx => (h ctx table hctx).mono (fun a _ ha => ⟨himp a ha.1, ha.2⟩)

theorem pure {a : α} (h : P a) : Gives (Pure.pure a) P := fun _ _ _ => ⟨h, rfl⟩

theorem bind (hx : Gives x P) (hf : ∀ a, P a → Gives (f a) Q) : Gives (x >>= f) Q := by
  intro ctx table hctx
  refine (hx ctx table hctx).bind (fun a table' ha => ?_)
  refine (hf a ha.1 ctx table' hctx).mono (fun b table'' hb => ?_)
  exact ⟨hb.1, hb.2.trans ha.2⟩

theorem fail {node : Document.DocNode} {fault : ReadingFault} : Gives (Read.fail node fault) P :=
  fun _ _ _ => .fail

theorem mapM {as : List α} (h : ∀ a ∈ as, Gives (f a) Q) : Gives (as.mapM f) (fun bs => ∀ b ∈ bs, Q b) := by
  induction as with
  | nil => exact .pure nofun
  | cons a rest ih =>
    rw [List.forall_mem_cons] at h
    rw [List.mapM_cons]
    refine h.1.bind (fun b hb => (ih h.2).bind (fun bs hbs => .pure ?_))
    exact List.forall_mem_cons.mpr ⟨hb, hbs⟩

end Gives

open Document

/-- A node of a tree has no type yet. -/
theorem Gives.info {P : α → Prop} {k : TreeInfo → Read α}
    (h : ∀ info, info.type = .absent → Gives (k info) P) : Gives (info node >>= k) P :=
  fun ctx table => h _ rfl ctx table

/-- A type that is read is spelled, but for its occurrences, with the declared names. -/
theorem runs_type {ctx : ReadContext} (hctx : Program.IsWhole ctx.declared) :
    Runs (type node) ctx table (fun t table' => (t.isWhole ∧ Spelling.Names ctx.declared t) ∧
      table'.aggregates = table.aggregates) := by
  unfold type
  split
  · exact .fail
  · refine .read ?_
    split
    · exact .fail
    next t ht =>
      obtain ⟨hwhole, hform, haggregates⟩ := table.renumber_spec t (Spelling.isWhole_of_read hctx ht)
      exact ⟨⟨hwhole, _, t, ht, hform⟩, haggregates⟩

theorem gives_type : Gives (type node) (fun t => t.isWhole) :=
  fun _ _ hctx => (runs_type hctx).mono (fun _ _ h => ⟨h.1.1, h.2⟩)

theorem gives_integer : Gives (integer node) (fun _ => True) := by
  unfold integer
  split
  · exact .pure trivial
  · split
    · exact .pure trivial
    · exact .fail

theorem gives_operator : Gives (operator node) (fun _ => True) := by
  unfold operator
  split
  · exact .pure trivial
  · exact .fail

theorem gives_scalar : GivesTidy (scalar node) := by
  refine .info (fun info hinfo => ?_)
  have hwhole : info.type.isPlain := by rw [hinfo]; rfl
  split
  · exact gives_integer.bind (fun value _ => .pure hwhole)
  · split
    · exact .pure hwhole
    · exact .fail
  · exact .pure rfl
  · exact .pure rfl
  · exact .fail

end Read

/-! ## Roles -/

/-- A node is tidy in all its roles, and so are the parts of it. A mapping has a value for each key. -/
inductive Reading.IsTidy : Reading → Prop
  | mk {reading : Reading} :
      Read.GivesTidy reading.expr →
      Read.GivesTidy reading.stmt →
      Read.Gives reading.block (fun tree => tree.isBlock ∧ tree.isTidy) →
      Read.GivesTidy reading.value →
      (∀ part ∈ reading.content, IsTidy part) →
      (reading.node.isMapping → reading.content.length % 2 = 0) → IsTidy reading

namespace Reading

open Document Read Tree

variable {node : DocNode} {content : List Reading}

/-- What a node consists of. -/
structure Parts (node : DocNode) (content : List Reading) : Prop where
  tidy : ∀ part ∈ content, part.IsTidy
  even : node.isMapping → content.length % 2 = 0

namespace IsTidy

variable {reading : Reading}

section

variable (h : reading.IsTidy)
include h

theorem expr : GivesTidy reading.expr := by
  cases h; assumption

theorem stmt : GivesTidy reading.stmt := by
  cases h; assumption

theorem block : Gives reading.block (fun tree => tree.isBlock ∧ tree.isTidy) := by
  cases h; assumption

theorem value : GivesTidy reading.value := by
  cases h; assumption

theorem parts : Parts reading.node reading.content := by
  cases h
  constructor <;> assumption

end

end IsTidy

theorem gives_present {part? : Option Reading} {part : Reading} {defect : PipelineDefect}
    (h : part? = some part) (hpart : part.IsTidy) : Gives (Read.present part? defect) IsTidy := by
  rw [h]
  exact .pure hpart

theorem gives_item {index : Nat} (h : ∀ part ∈ content, part.IsTidy) (hindex : index < content.length) :
    Gives (item content index) IsTidy :=
  gives_present (List.getElem?_eq_getElem hindex) (h _ (List.getElem_mem hindex))

theorem forall_pairUp : {content : List Reading} → (∀ part ∈ content, part.IsTidy) →
    ∀ pair ∈ pairUp content, pair.1.IsTidy ∧ pair.2.IsTidy
  | [], _ | [_], _ => nofun
  | key :: value :: rest, h => by
    rw [List.forall_mem_cons, List.forall_mem_cons] at h
    rw [pairUp, List.forall_mem_cons]
    exact ⟨⟨h.1, h.2.1⟩, forall_pairUp h.2.2⟩

/-- The mapping starts with the key. -/
def Leads (node : DocNode) (content : List Reading) (key : String) : Prop :=
  node.isMapping ∧ ∃ first value rest, content = first :: value :: rest ∧ first.text = key

theorem gives_kindOf (h : Parts node content) : Gives (kindOf node content) (Leads node content) := by
  unfold kindOf
  split
  next first rest =>
    refine .pure ⟨rfl, ?_⟩
    cases rest with
    | nil => cases h.even rfl
    | cons value rest => exact ⟨first, value, rest, rfl, rfl⟩
  · exact .fail

theorem gives_pairsOf (h : Parts node content) :
    Gives (pairsOf node content) (fun pairs => (∀ pair ∈ pairs, pair.1.IsTidy ∧ pair.2.IsTidy) ∧
      ∀ key, Leads node content key → ∃ pair ∈ pairs, pair.1.text = key) := by
  unfold pairsOf
  split
  · refine .pure ⟨forall_pairUp h.tidy, ?_⟩
    rintro key ⟨-, first, value, rest, rfl, hkey⟩
    exact ⟨(first, value), (.head _), hkey⟩
  · refine (Gives.mapM (fun item hitem => ?_)).mono
      (fun pairs hpairs => ⟨hpairs, fun key hkey => nomatch hkey.1⟩)
    have hparts := (h.tidy item hitem).parts.tidy
    split
    next hcontent =>
      rw [hcontent] at hparts
      exact .pure ⟨hparts _ (.head _), hparts _ (.tail _ (.head _))⟩
    · exact .fail
  · exact .fail

/-- The values of a node by key are tidy, and the first key has one. -/
structure Entries (node : DocNode) (content : List Reading) (fields : Level Reading) : Prop where
  tidy : ∀ key reading, fields.find? key = some reading → reading.IsTidy
  lead : ∀ key, Leads node content key → (fields.find? key).isSome

theorem gives_fieldsOf (h : Parts node content) {allowed : List String} :
    Gives (fieldsOf node content allowed) (Entries node content) := by
  -- along the entries, the keys seen so far have values
  have hfold (pairs : List (Reading × Reading)) (hpairs : ∀ pair ∈ pairs, pair.1.IsTidy ∧ pair.2.IsTidy)
      (fields : Level Reading) (hfields : ∀ key reading, fields.find? key = some reading → reading.IsTidy) :
      Gives (pairs.foldlM (fun fields pair =>
        if allowed.contains pair.1.text then return fields.define pair.1.text pair.2
        else Read.fail pair.1.node (.unexpectedKey pair.1.text)) fields) (fun fields' =>
        (∀ key reading, fields'.find? key = some reading → reading.IsTidy) ∧
        ∀ key, (fields.find? key).isSome ∨ (∃ pair ∈ pairs, pair.1.text = key) →
          (fields'.find? key).isSome) := by
    induction pairs generalizing fields with
    | nil => exact .pure ⟨hfields, fun key hkey => by simpa using hkey⟩
    | cons pair rest ih =>
      rw [List.forall_mem_cons] at hpairs
      rw [List.foldlM_cons]
      split
      · have hdefine (key : String) := Level.find?_define fields pair.1.text key pair.2
        refine (ih hpairs.2 (fields.define pair.1.text pair.2) (fun key reading hfound => ?_)).mono
          (fun fields' hfields' => ⟨hfields'.1, fun key hkey => hfields'.2 key ?_⟩)
        · rw [hdefine] at hfound
          split at hfound
          · cases hfound
            exact hpairs.1.2
          · exact hfields key reading hfound
        · rw [hdefine]
          by_cases hhere : key = pair.1.text
          · simp [hhere]
          · simp only [List.mem_cons, exists_eq_or_imp] at hkey
            rw [if_neg hhere]
            rcases hkey with hkey | hkey | hkey
            · exact .inl hkey
            · exact absurd hkey.symm hhere
            · exact .inr hkey
      · exact .bind (P := fun _ => False) .fail (by rintro _ ⟨⟩)
  refine (gives_pairsOf h).bind (fun pairs hpairs => ?_)
  refine (hfold pairs hpairs.1 Level.empty (by rintro _ _ ⟨⟩)).mono (fun fields hfields => ⟨hfields.1, ?_⟩)
  exact fun key hkey => hfields.2 key (.inr (hpairs.2 key hkey))

section

variable (h : Entries node content fields)
include h

theorem Entries.field {key : String} (hkey : Leads node content key) :
    Gives (Reading.field fields key) IsTidy := by
  obtain ⟨reading, hfind⟩ := Option.isSome_iff_exists.mp (h.lead key hkey)
  exact gives_present hfind (h.tidy key reading hfind)

theorem gives_required (key : String) : Gives (required node fields key) IsTidy := by
  unfold required
  split
  next reading hfind => exact .pure (h.tidy key reading hfind)
  · exact .fail

/-- A part that may be left out, with what stands for it then and what comes after. -/
theorem gives_optional (key : String) {f : Reading → Read α} (a : α) {k : α → Read β}
    (hf : ∀ reading, reading.IsTidy → Gives (f reading) P) (ha : P a)
    (hk : ∀ a, P a → Gives (k a) Q) :
    Gives (match fields.find? key with
      | some reading => f reading >>= k
      | none => Pure.pure a >>= k) Q := by
  split
  next reading hfind => exact (hf reading (h.tidy key reading hfind)).bind hk
  · exact hk a ha

theorem gives_optionalPart (key : String) {f : Reading → Read Tree} {k : Tree → Read β}
    (hf : ∀ reading, reading.IsTidy → GivesTidy (f reading))
    (hk : ∀ tree, (tree.isMissing || tree.isTidy) → Gives (k tree) Q) :
    Gives (match fields.find? key with
      | some reading => f reading >>= k
      | none => Pure.pure Tree.missing >>= k) Q :=
  gives_optional (P := fun tree => isMissing tree || isTidy tree) h key _
    (fun reading hreading => (hf reading hreading).mono (fun _ htree => by rw [htree, Bool.or_true]))
    rfl hk

theorem gives_optionalType (key : String) {k : Ty → Read β} (hk : ∀ t, t.isPlain → Gives (k t) Q) :
    Gives (match fields.find? key with
      | some reading => Read.type reading.node >>= k
      | none => Pure.pure .absent >>= k) Q :=
  gives_optional h key _ (fun reading _ => gives_type.mono (fun _ => Ty.isPlain_of_isWhole)) rfl hk

end

theorem gives_operands {reading : Reading} (h : reading.IsTidy) :
    Gives reading.operands (fun pair => pair.1.isTidy ∧ pair.2.isTidy) := by
  unfold operands
  split
  next hlen =>
    have hlen : reading.content.length = 2 := by simpa using (Bool.and_eq_true_iff.mp hlen).2
    refine (gives_item h.parts.tidy (by omega)).bind (fun first hfirst => hfirst.expr.bind (fun l hl => ?_))
    refine (gives_item h.parts.tidy (by omega)).bind (fun second hsecond => ?_)
    exact hsecond.expr.bind (fun r hr => .pure ⟨hl, hr⟩)
  · exact .fail

theorem gives_listed {form : ListedForm} {count : Nat} (h : reading.IsTidy) :
    Gives (listed node form count reading)
      (fun parts => (∀ part ∈ parts, part.IsTidy) ∧ parts.length = count) := by
  unfold listed
  split
  next hlen => exact .pure ⟨h.parts.tidy, by simpa using (Bool.and_eq_true_iff.mp hlen).2⟩
  · exact .fail

theorem isTidy_ofScalar : IsTidy (ofScalar node) := by
  have hstmt : Gives (ofScalar node).stmt (fun tree => tree.isTidy) := by
    dsimp only [ofScalar]
    split
    · exact .info (fun _ _ => .pure rfl)
    · exact .info (fun _ _ => .pure rfl)
    · exact .info (fun _ _ => .pure rfl)
    · exact gives_scalar
  refine .mk gives_scalar hstmt ?_ gives_scalar (by rintro _ ⟨⟩) (fun _ => rfl)
  refine .info (fun _ _ => hstmt.bind (fun tree htree => .pure ⟨rfl, ?_⟩))
  exact areTidy_iff.mpr (by simpa using htree)

theorem isTidy_ofSequence {items : List Reading} (h : ∀ item ∈ items, item.IsTidy)
    (hnode : node.isMapping = false) : IsTidy (ofSequence node items) := by
  refine .mk .fail .fail ?_ ?_ h (fun hmapping => by cases hnode.symm.trans hmapping)
  · refine .info (fun _ _ => (Gives.mapM (fun item hitem => (h item hitem).stmt)).bind
      (fun stmts hstmts => .pure ⟨rfl, areTidy_iff.mpr hstmts⟩))
  · dsimp only [ofSequence]
    split
    · exact .fail
    next last hlast =>
      have hinit (item : Reading) (hitem : item ∈ items.dropLast) :=
        (h item ((List.dropLast_sublist items).subset hitem)).stmt
      refine (Gives.mapM hinit).bind (fun stmts hstmts => .info (fun _ _ => ?_))
      refine (h last (List.mem_of_getLast? hlast)).expr.bind (fun tree htree => .pure ?_)
      refine areTidy_iff.mpr (List.forall_mem_append.mpr ⟨hstmts, ?_⟩)
      simpa using htree

theorem gives_caseStmt (h : reading.IsTidy) :
    Gives reading.caseStmt (fun tree => tree.isCase ∧ tree.isTidy) := by
  refine (gives_fieldsOf h.parts).bind (fun fields hfields => ?_)
  split
  · exact .fail
  · refine (Gives.mapM (fun numeral _ => gives_integer)).bind (fun numbers _ => ?_)
    refine (gives_required hfields "do").bind (fun body hbody => hbody.block.bind (fun tree htree => ?_))
    refine .info (fun _ _ => .pure ⟨rfl, ?_⟩)
    simp [htree.1, htree.2]

/-! ## Mappings -/

section Mappings

variable (h : Parts node content) {expr : Read Tree}

include h

theorem gives_only {key : String} (hkey : Leads node content key) : Gives (only node content key) IsTidy :=
  (gives_fieldsOf h).bind (fun _ hfields => hfields.field hkey)

theorem gives_literal {kind : String} (hkind : Leads node content kind) :
    GivesTidy (literal node content kind) := by
  refine (gives_fieldsOf h).bind (fun fields hfields => (hfields.field hkind).bind (fun reading _ => ?_))
  refine gives_scalar.bind (fun lit hlit => ?_)
  have hrest (lit : Tree) (hlit : lit.isTidy) :
      Gives (match fields.find? "type" with
        | some reading => do return lit.withType (← Read.type reading.node)
        | none => return lit) (fun (tree : Tree) => tree.isTidy) := by
      split
      next reading _ => exact gives_type.bind (fun _ ht =>
        .pure (isTidy_withType hlit (Ty.isPlain_of_isWhole ht)))
      · exact .pure hlit
  refine hrest _ ?_
  split
  · exact hlit
  · exact hlit

theorem gives_callExpr (hkind : Leads node content "call") : GivesTidy (callExpr node content) := by
  refine (gives_fieldsOf h).bind (fun fields hfields => ?_)
  refine (gives_optional hfields "args" []
    (fun reading hreading => .mapM (fun part hpart => (hreading.parts.tidy part hpart).expr)) nofun
    (fun args hargs => ?_))
  refine (hfields.field hkind).bind (fun callee _ => .info (fun _ _ => .info (fun _ _ => .pure ?_)))
  exact areTidy_iff.mpr hargs

theorem gives_ifExpr (hkind : Leads node content "if") : GivesTidy (ifExpr node content) := by
  refine (gives_fieldsOf h).bind (fun fields hfields => ?_)
  refine (gives_optionalPart hfields "else" (fun _ hreading => hreading.value) (fun no hno => ?_))
  refine (hfields.field hkind).bind (fun reading hreading => hreading.expr.bind (fun cond hcond => ?_))
  refine (gives_required hfields "then").bind (fun reading hreading => ?_)
  refine hreading.value.bind (fun yes hyes => .info (fun _ _ => .pure ?_))
  simp [hcond, hyes, hno]

theorem gives_structExpr (hkind : Leads node content "struct") : GivesTidy (structExpr node content) := by
  refine (gives_only h hkind).bind (fun reading hreading => ?_)
  refine (gives_pairsOf hreading.parts).bind (fun entries hentries => ?_)
  refine (Gives.mapM (fun entry hentry => (hentries.1 entry hentry).2.expr)).bind (fun values hvalues => ?_)
  exact .info (fun _ _ => .pure (areTidy_iff.mpr hvalues))

theorem gives_mappingExpr : GivesTidy (mappingExpr node content) := by
  refine (gives_kindOf h).bind (fun kind hkind => ?_)
  split
  · exact gives_literal h hkind
  · exact gives_literal h hkind
  · exact (gives_only h hkind).bind (fun reading _ => gives_scalar)
  · exact (gives_only h hkind).bind (fun _ _ => .info (fun _ _ => .pure rfl))
  · refine (gives_only h hkind).bind (fun reading hreading => ?_)
    refine (gives_listed hreading).bind (fun parts hparts => ?_)
    refine (gives_item hparts.1 (by omega)).bind (fun op _ => gives_operator.bind (fun _ _ => ?_))
    refine (gives_item hparts.1 (by omega)).bind (fun left hleft => hleft.expr.bind (fun l hl => ?_))
    refine .info (fun _ _ => (gives_item hparts.1 (by omega)).bind (fun right hright => ?_))
    refine hright.expr.bind (fun r hr => .pure ?_)
    simp [hl, hr]
  · refine (gives_only h hkind).bind (fun reading hreading => ?_)
    refine (gives_listed hreading).bind (fun parts hparts => ?_)
    refine (gives_item hparts.1 (by omega)).bind (fun op _ => gives_operator.bind (fun _ _ => ?_))
    refine .info (fun _ _ => (gives_item hparts.1 (by omega)).bind (fun operand hoperand => ?_))
    exact hoperand.expr.bind (fun x hx => .pure hx)
  · exact gives_callExpr h hkind
  · refine (gives_only h hkind).bind (fun reading hreading => ?_)
    refine (gives_listed hreading).bind (fun parts hparts => ?_)
    refine (gives_item hparts.1 (by omega)).bind (fun name _ => .info (fun _ _ => ?_))
    refine (gives_item hparts.1 (by omega)).bind (fun value hvalue => ?_)
    exact hvalue.expr.bind (fun x hx => .pure hx)
  · refine (gives_only h hkind).bind (fun reading hreading => ?_)
    refine (gives_operands hreading).bind (fun pair hpair => .info (fun _ _ => .pure ?_))
    simp [hpair.1, hpair.2]
  · exact .info (fun _ _ => (gives_only h hkind).bind (fun reading hreading =>
      hreading.expr.bind (fun x hx => .pure hx)))
  · exact .info (fun _ _ => (gives_only h hkind).bind (fun reading hreading =>
      hreading.expr.bind (fun x hx => .pure hx)))
  · refine (gives_only h hkind).bind (fun reading hreading => ?_)
    refine (gives_listed hreading).bind (fun parts hparts => ?_)
    refine (gives_item hparts.1 (by omega)).bind (fun value hvalue => hvalue.expr.bind (fun x hx => ?_))
    refine .info (fun _ _ => (gives_item hparts.1 (by omega)).bind (fun type _ => ?_))
    refine gives_type.bind (fun t ht => .pure ?_)
    simp [hx, ht]
  · exact gives_structExpr h hkind
  · refine (gives_only h hkind).bind (fun reading hreading => ?_)
    refine (Gives.mapM (fun part hpart => (hreading.parts.tidy part hpart).expr)).bind
      (fun values hvalues => ?_)
    exact .info (fun _ _ => .pure (areTidy_iff.mpr hvalues))
  · exact gives_ifExpr h hkind
  · exact (gives_only h hkind).bind (fun reading hreading => hreading.value)
  · exact .fail

theorem gives_varDecl (hkind : Leads node content "var") :
    Gives (varDecl node content) (fun tree => tree.isDeclaration ∧ tree.isTidy) := by
  refine (gives_fieldsOf h).bind (fun fields hfields => ?_)
  refine (gives_optionalType hfields "type" (fun t ht => ?_))
  refine (gives_optionalPart hfields "init" (fun _ hreading => hreading.expr) (fun init hinit => ?_))
  refine (hfields.field hkind).bind (fun name _ => .info (fun _ _ => .pure ⟨rfl, ?_⟩))
  simp [ht, hinit]

theorem gives_assignStmt (hkind : Leads node content "assign") : GivesTidy (assignStmt node content) := by
  refine (gives_fieldsOf h).bind (fun fields hfields => ?_)
  refine (hfields.field hkind).bind (fun reading hreading => ?_)
  refine (gives_operands hreading).bind (fun pair hpair => ?_)
  have hrest (op : Operator) : GivesTidy (do return Tree.assign (← info node) op pair.1 pair.2) :=
    .info (fun _ _ => .pure (by simp [hpair.1, hpair.2]))
  dsimp only
  split
  · exact hrest _
  · refine (gives_operator).bind (fun op _ => ?_)
    split
    · exact hrest _
    · exact hrest _
    · exact .bind (P := fun _ => False) .fail nofun

theorem gives_switchStmt (hkind : Leads node content "switch") : GivesTidy (switchStmt node content) := by
  refine (gives_fieldsOf h).bind (fun fields hfields => ?_)
  refine (gives_optional hfields "cases" []
    (fun reading hreading => .mapM (fun part hpart => gives_caseStmt (hreading.parts.tidy part hpart)))
    nofun (fun cases hcases => ?_))
  refine (gives_optional (P := fun tree => isMissing tree || isBlock tree && isTidy tree) hfields "default" .missing
    (fun reading hreading => hreading.block.mono (fun tree htree => by
      rw [htree.1, htree.2, Bool.and_self, Bool.or_true]))
    rfl (fun fallback hfallback => ?_))
  refine .info (fun _ _ => (hfields.field hkind).bind (fun reading hreading => ?_))
  refine hreading.expr.bind (fun selector hselector => .pure ?_)
  have hall : cases.all isCase := List.all_eq_true.mpr (fun c hc => (hcases c hc).1)
  have htidy : areTidy cases := areTidy_iff.mpr (fun c hc => (hcases c hc).2)
  simp [hselector, hall, htidy, hfallback]

theorem gives_ifStmt (hkind : Leads node content "if") (hexpr : GivesTidy expr) :
    GivesTidy (ifStmt node content expr) := by
  refine (gives_fieldsOf h).bind (fun fields hfields => ?_)
  refine (gives_required hfields "then").bind (fun reading hreading => ?_)
  split
  · exact hexpr
  · refine (gives_optionalPart hfields "else" (fun _ hreading => hreading.block.mono (fun _ h => h.2))
      (fun no hno => ?_))
    refine (hfields.field hkind).bind (fun value hvalue => hvalue.expr.bind (fun cond hcond => ?_))
    refine .info (fun _ _ => hreading.block.bind (fun yes hyes => .pure ?_))
    simp [hcond, hyes.2, hno]

theorem gives_mappingStmt (hexpr : GivesTidy expr) : GivesTidy (mappingStmt node content expr) := by
  refine (gives_kindOf h).bind (fun kind hkind => ?_)
  split
  · exact (gives_varDecl h hkind).mono (fun _ htree => htree.2)
  · refine (gives_only h hkind).bind (fun reading hreading => ?_)
    split
    · exact .info (fun _ _ => .pure rfl)
    · refine .info (fun _ _ => hreading.expr.bind (fun x hx => .pure ?_))
      simp [hx]
  · exact gives_assignStmt h hkind
  · refine (gives_fieldsOf h).bind (fun fields hfields => ?_)
    refine (hfields.field hkind).bind (fun value hvalue => hvalue.expr.bind (fun cond hcond => ?_))
    refine .info (fun _ _ => (gives_required hfields "do").bind (fun body hbody =>
      hbody.block.bind (fun tree htree => .pure ?_)))
    simp [hcond, htree.1, htree.2]
  · refine .info (fun _ _ => (gives_only h hkind).bind (fun body hbody => ?_))
    refine hbody.block.bind (fun tree htree => .pure ?_)
    simp [htree.1, htree.2]
  · exact .info (fun _ _ => .pure rfl)
  · exact .info (fun _ _ => .pure rfl)
  · exact gives_switchStmt h hkind
  · exact gives_ifStmt h hkind hexpr
  · exact (gives_only h hkind).bind (fun body hbody => hbody.block.mono (fun _ h => h.2))
  · exact hexpr

theorem isTidy_ofMapping : IsTidy (ofMapping node content) := by
  have hexpr : GivesTidy (mappingExpr node content) := gives_mappingExpr h
  have hstmt : GivesTidy (mappingStmt node content (mappingExpr node content)) := gives_mappingStmt h hexpr
  refine .mk hexpr hstmt ?_ hexpr h.tidy h.even
  refine .info (fun _ _ => hstmt.bind (fun tree htree => .pure ⟨rfl, ?_⟩))
  exact areTidy_iff.mpr (by simpa using htree)

end Mappings

/-! ## Documents -/

mutual

theorem isTidy_ofNode : (node : DocNode) → IsTidy (ofNode node)
  | .absent => .mk .fail .fail .fail .fail nofun nofun
  | .scalar .. => isTidy_ofScalar
  | .sequence _ _ items => isTidy_ofSequence (forall_ofNodes items) rfl
  | .mapping _ _ entries =>
    isTidy_ofMapping ⟨(forall_ofEntries entries).1, fun _ => (forall_ofEntries entries).2⟩

theorem forall_ofNodes : (nodes : List DocNode) → ∀ part ∈ ofNodes nodes, IsTidy part
  | [] => nofun
  | node :: rest => List.forall_mem_cons.mpr ⟨isTidy_ofNode node, forall_ofNodes rest⟩

theorem forall_ofEntries : (entries : List (DocNode × DocNode)) →
    (∀ part ∈ ofEntries entries, IsTidy part) ∧ (ofEntries entries).length % 2 = 0
  | [] => ⟨nofun, rfl⟩
  | (key, value) :: rest => by
    obtain ⟨htidy, heven⟩ := forall_ofEntries rest
    rw [ofEntries, List.forall_mem_cons, List.forall_mem_cons, List.length_cons, List.length_cons]
    exact ⟨⟨isTidy_ofNode key, isTidy_ofNode value, htidy⟩, by omega⟩

end

theorem gives_parameters (h : reading.IsTidy) :
    Gives reading.parameters (fun params => ∀ param ∈ params, isParameter param) := by
  refine (gives_pairsOf h.parts).bind (fun pairs _ => .mapM (fun pair _ => .info (fun _ _ => ?_)))
  refine gives_type.bind (fun t ht => .pure ?_)
  exact Bool.and_eq_true_iff.mpr ⟨ht, rfl⟩

theorem gives_funcDecl (h : Parts node content) (hkind : Leads node content "fun") :
    Gives (funcDecl node content) (fun tree => tree.isDeclaration ∧ tree.isTidy) := by
  refine (gives_fieldsOf h).bind (fun fields hfields => (hfields.field hkind).bind (fun name _ => ?_))
  refine gives_optional hfields "params" [] (fun _ => gives_parameters) nofun (fun params hparams => ?_)
  have hparams : params.all isParameter := List.all_eq_true.mpr hparams
  refine (gives_optionalType hfields "result" (fun t ht => ?_))
  split
  next expr hexpr =>
    refine .info (fun _ _ => (hfields.tidy _ _ hexpr).expr.bind (fun body hbody => .pure ⟨rfl, ?_⟩))
    simp [hparams, hbody, ht]
  · split
    · exact .fail
    next body hbody =>
      refine .info (fun _ _ => (hfields.tidy _ _ hbody).block.bind (fun body hbody => .pure ⟨rfl, ?_⟩))
      simp [hparams, hbody.2, ht]

theorem gives_decl (h : reading.IsTidy) :
    Gives reading.decl (fun tree => tree.isDeclaration ∧ tree.isTidy) := by
  refine (gives_kindOf h.parts).bind (fun kind hkind => ?_)
  split
  · exact gives_varDecl h.parts hkind
  · exact gives_funcDecl h.parts hkind
  · exact .fail

end Reading

/-! ## Programs -/

theorem Level.forall_define {level : Level α} (h : ∀ binding ∈ level.bindings, P binding.2) (name : String)
    {value : α} (hvalue : P value) :
    ∀ binding ∈ (level.define name value).bindings, P binding.2 := by
  have hbind (bindings : List (String × α)) (h : ∀ binding ∈ bindings, P binding.2) :
      ∀ binding ∈ bind name value bindings, P binding.2 := by
    induction bindings with
    | nil => simpa [bind] using hvalue
    | cons head rest ih =>
      rw [List.forall_mem_cons] at h
      rw [bind]
      split
      · exact List.forall_mem_cons.mpr ⟨hvalue, h.2⟩
      · exact List.forall_mem_cons.mpr ⟨h.1, ih h.2⟩
  exact hbind level.bindings h

namespace Program

open Document Read Tree

variable {file : Int} {program : Program} {ctx : ReadContext}

/-- The types that are declared one after the other, each known to its own fields. -/
inductive Declared : Level Ty → Array Aggregate → Prop
  | empty : Declared .empty #[]
  | more {declared aggregates} {a : Aggregate} : Declared declared aggregates →
      declared.contains a.name = false → Builtin.ofText? a.name = none →
      (∀ field ∈ a.fields.bindings, field.2.isWhole ∧
        Spelling.Names (declared.define a.name (.aggregate aggregates.size)) field.2) →
      Declared (declared.define a.name (.aggregate aggregates.size)) (aggregates.push a)

namespace Declared

variable {aggregates : Array Aggregate}

theorem isWhole (h : Declared declared aggregates) : IsWhole declared := by
  induction h with
  | empty => exact nofun
  | more _ _ _ _ ih => exact Level.forall_define (P := fun t : Ty => t.isWhole) ih _ rfl

theorem areWhole (h : Declared declared aggregates) : Aggregate.AreWhole aggregates := by
  induction h with
  | empty => exact nofun
  | more _ _ _ hfields ih =>
    intro a ha
    rcases Array.mem_push.mp ha with ha | rfl
    · exact ih a ha
    · exact fun field hfield => (hfields field hfield).1

end Declared

theorem setFields_push {aggregates : Array Aggregate} {a : Aggregate} (fields : Level Ty)
    (h : table.aggregates = aggregates.push a) :
    (table.setFields aggregates.size fields).aggregates = aggregates.push { a with fields := fields } := by
  rw [TypeTable.setFields, h]
  apply Array.ext
  · simp
  · intro i hi hi'
    rw [Array.size_push] at hi'
    simp only [Array.getElem_modify, Array.getElem_push]
    split <;> split <;> first | rfl | omega

theorem runs_readFields (hctx : IsWhole ctx.declared) {aggregates : Array Aggregate}
    {name : String} {union : Bool} {entries : List (Reading × Reading)} (fields : Level Ty)
    (hfields : ∀ field ∈ fields.bindings, field.2.isWhole ∧ Spelling.Names ctx.declared field.2)
    (htable : table.aggregates = aggregates.push ⟨name, union, fields⟩) :
    Runs (entries.foldlM (readField aggregates.size) fields) ctx table (fun _ table' => ∃ fields',
      (∀ field ∈ fields'.bindings, field.2.isWhole ∧ Spelling.Names ctx.declared field.2) ∧
        table'.aggregates = aggregates.push ⟨name, union, fields'⟩) := by
  induction entries generalizing fields table with
  | nil => exact ⟨fields, hfields, htable⟩
  | cons entry rest ih =>
    rw [List.foldlM_cons]
    unfold readField
    dsimp only
    split
    · exact .bind (R := fun _ _ => False) .fail nofun
    · refine .bind (R := fun fields' table' => (∀ field ∈ fields'.bindings, field.2.isWhole ∧
        Spelling.Names ctx.declared field.2) ∧ table'.aggregates = aggregates.push ⟨name, union, fields'⟩)
        ((runs_type hctx).bind (fun t table' ht => ?_)) (fun fields' table' h => ih fields' h.1 h.2)
      refine ⟨Level.forall_define (P := fun t => Ty.isWhole t ∧ Spelling.Names ctx.declared t)
        hfields _ ht.1, ?_⟩
      exact setFields_push _ (ht.2.trans htable)

theorem runs_readTypeEntry (h : Declared declared table.aggregates) {entry : TypeEntry} :
    Runs (readTypeEntry declared entry) ctx table
      (fun declared' table' => Declared declared' table'.aggregates) := by
  show Runs (ite _ _ _) { ctx with declared := declared } table _
  split
  · exact .fail
  next hfresh =>
    rw [Bool.or_eq_true, not_or, Bool.not_eq_true, Bool.not_eq_true, Option.isSome_eq_false_iff,
      Option.isNone_iff_eq_none] at hfresh
    split
    · exact .fail
    · have hwhole : IsWhole (declared.define entry.name (.aggregate table.aggregates.size)) :=
        Level.forall_define (P := fun t : Ty => t.isWhole) h.isWhole _ rfl
      have hrun (node : DocNode) (union : Bool) : Runs (do
          let entries ← (Reading.ofNode node).pairs
          let _ ← entries.foldlM (readField table.aggregates.size) Level.empty
          return declared.define entry.name (.aggregate table.aggregates.size))
          ⟨ctx.file, declared.define entry.name (.aggregate table.aggregates.size)⟩
          (table.add ⟨entry.name, union, .empty⟩).1
          (fun declared' table' => Declared declared' table'.aggregates) := by
        refine (Reading.gives_pairsOf (Reading.isTidy_ofNode node).parts _ _ hwhole).bind
          (fun entries table' htable => ?_)
        refine (runs_readFields hwhole Level.empty nofun htable.2).bind ?_
        rintro _ table'' ⟨fields, hfields, haggregates⟩
        show Declared _ _
        rw [haggregates]
        exact .more (a := ⟨entry.name, union, fields⟩) h hfresh.1 hfresh.2 hfields
      exact hrun _ _

theorem gives_readImportEntry {entry : ImportEntry} :
    Gives (readImportEntry entry) (fun tree => tree.isImport ∧ tree.isTidy) := by
  unfold readImportEntry
  split
  · exact .fail
  · exact .info (fun _ _ => gives_type.bind (fun t ht => .pure ⟨rfl, ht⟩))

theorem runs_readTypes {entries : List TypeEntry} {declared : Level Ty} {table : TypeTable}
    (h : Declared declared table.aggregates) :
    Runs (entries.foldlM readTypeEntry declared) ctx table
      (fun declared' table' => Declared declared' table'.aggregates) := by
  induction entries generalizing declared table with
  | nil => exact h
  | cons entry rest ih =>
    rw [List.foldlM_cons]
    exact (runs_readTypeEntry h).bind (fun _ _ => ih)

theorem runs_readModule (outline : Outline) (file : Int) :
    Runs (readModule outline) ⟨file, .empty⟩ .empty (fun tree table =>
      (∃ info imports decls exports, tree = .module info imports decls exports) ∧ tree.isTidy ∧
        ∃ declared, Declared declared table.aggregates) := by
  refine (runs_readTypes .empty).bind (fun declared table hdeclared => ?_)
  have hmodule : Gives (do
      let imports ← outline.imports.mapM readImportEntry
      let decls ← outline.decls.mapM (fun node => (Reading.ofNode node).decl)
      let info : TreeInfo := { pos := ⟨(← read).file, 1, 1, 0, ""⟩ }
      return Tree.module info imports decls outline.exports) (fun tree =>
        (∃ info imports decls exports, tree = .module info imports decls exports) ∧ tree.isTidy) := by
    refine (Gives.mapM (fun entry _ => gives_readImportEntry)).bind (fun imports himports => ?_)
    refine (Gives.mapM (fun node _ => Reading.gives_decl (Reading.isTidy_ofNode node))).bind
      (fun decls hdecls => fun ctx table _ => ⟨⟨⟨_, _, _, _, rfl⟩, ?_⟩, rfl⟩)
    simp only [isTidy, Bool.and_eq_true, List.all_eq_true, areTidy_iff]
    exact ⟨⟨⟨fun tree htree => (himports tree htree).1, fun tree htree => (himports tree htree).2⟩,
      fun tree htree => (hdecls tree htree).1⟩, fun tree htree => (hdecls tree htree).2⟩
  have hrun := hmodule ⟨file, declared⟩ table hdeclared.isWhole
  exact hrun.mono (fun tree table' h => ⟨h.1.1, h.1.2, declared, h.2 ▸ hdeclared⟩)

/-- Reading a program never fails for a part that was taken to be there: it returns a module, or finds a
fault at a place in the file. -/
theorem ofOutline_returns (file : Int) (outline : Outline) :
    (∃ info imports decls exports table,
      ofOutline file outline = .ok ⟨.module info imports decls exports, table⟩) ∨
    ∃ pos fault, ofOutline file outline = .error (.reading pos fault) ∧ pos.file = file := by
  have hrun := runs_readModule outline file
  unfold Runs at hrun
  split at hrun
  next tree table heq =>
    obtain ⟨⟨info, imports, decls, exports, rfl⟩, -⟩ := hrun
    exact .inl ⟨info, imports, decls, exports, table, congrArg (· >>= _) heq⟩
  next failure heq =>
    obtain ⟨pos, fault, rfl, hfile⟩ := hrun
    exact .inr ⟨pos, fault, congrArg (· >>= _) heq, hfile⟩

theorem declared_of_ofOutline {outline : Outline} (h : ofOutline file outline = .ok program) :
    program.root.isTidy ∧ ∃ declared, Declared declared program.table.aggregates := by
  obtain ⟨⟨root, table⟩, hread, ⟨⟩⟩ := Except.exists_of_bind h
  have hrun := runs_readModule outline file
  unfold Runs at hrun
  rw [show readModule outline ⟨file, .empty⟩ .empty = .ok (root, table) from hread] at hrun
  exact hrun.2

/-- A program that is read is tidy, and the fields of its aggregates are whole. -/
theorem isTidy_of_ofText (h : ofText file text = .ok program) :
    program.root.isTidy ∧ Aggregate.AreWhole program.table.aggregates := by
  unfold ofText ofChars at h
  split at h
  · cases h
  next outline _ =>
    obtain ⟨htidy, declared, hdeclared⟩ := declared_of_ofOutline (Except.ok_of_mapError h)
    exact ⟨htidy, hdeclared.areWhole⟩

end Program

end TreeWasm
