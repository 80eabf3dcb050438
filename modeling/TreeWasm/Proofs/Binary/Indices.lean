import TreeWasm.Wasm.Module

/-! # The index spaces of a module

A module under construction hands out indices of types, and of functions with the imports among them.
What an index stands for does not change while the module grows. Signatures are interned under a digest,
but equal ones share an index and others do not, whatever the digest is.
-/

namespace TreeWasm.Wasm.Module

variable {digest : FuncType → UInt64} {m m' m'' : Module} {ft : FuncType} {index : Nat}
  {module name : String} {body : Body} {fault : ModuleFault}

/-! ## What the operations do -/

/-- Interning finds a signature that is there, or adds it at the end. -/
theorem internWith_cases :
    (∃ index, m.types[index]? = some ft ∧ m.internWith digest ft = (m, index)) ∨
      m.findSignature? (digest ft) ft = none ∧
        m.internWith digest ft = ({ m with
          types := m.types ++ [ft]
          interned := m.interned ++ [⟨digest ft, m.types.length⟩] }, m.types.length) := by
  unfold internWith
  split
  next index hfound =>
    obtain ⟨entry, hentry, rfl⟩ := Option.map_eq_some_iff.mp hfound
    have hhit := List.find?_some hentry
    rw [Bool.and_eq_true] at hhit
    exact .inl ⟨entry.index, eq_of_beq hhit.2, rfl⟩
  next hfresh => exact .inr ⟨hfresh, rfl⟩

/-- An interned signature is found at its index, and no other one moves. -/
theorem internWith_spec :
    m.types <+: (m.internWith digest ft).1.types ∧
      (m.internWith digest ft).1.types[(m.internWith digest ft).2]? = some ft := by
  obtain ⟨index, hindex, heq⟩ | ⟨-, heq⟩ := internWith_cases
  · rw [heq]
    exact ⟨List.prefix_refl _, hindex⟩
  · rw [heq]
    exact ⟨List.prefix_append _ _, by simp⟩

theorem internWith_frame :
    (m.internWith digest ft).1 =
      { m with
        types := (m.internWith digest ft).1.types
        interned := (m.internWith digest ft).1.interned } := by
  obtain ⟨index, -, heq⟩ | ⟨-, heq⟩ := internWith_cases <;> rw [heq]

theorem intern_spec (m : Module) (ft : FuncType) :
    m.types <+: (m.intern ft).1.types ∧ (m.intern ft).1.types[(m.intern ft).2]? = some ft :=
  internWith_spec

theorem intern_frame (m : Module) (ft : FuncType) :
    (m.intern ft).1 = { m with types := (m.intern ft).1.types, interned := (m.intern ft).1.interned } :=
  internWith_frame

/-- As long as there are no functions, an import comes after the other imports. -/
theorem addImportWith_eq_ok (h : m.addImportWith digest module name ft = .ok (m', index)) :
    m.functions = [] ∧ index = m.imports.length ∧
      m' = { (m.internWith digest ft).1 with
        imports := m.imports ++ [⟨module, name, (m.internWith digest ft).2⟩] } := by
  unfold addImportWith at h
  split at h
  next hnone =>
    cases h
    exact ⟨List.isEmpty_iff.mp hnone, rfl, rfl⟩
  · cases h

theorem addImport_eq_ok (h : m.addImport module name ft = .ok (m', index)) :
    m.functions = [] ∧ index = m.imports.length ∧
      m' = { (m.intern ft).1 with imports := m.imports ++ [⟨module, name, (m.intern ft).2⟩] } :=
  addImportWith_eq_ok h

theorem define_eq_ok (h : m.define index body = .ok m') :
    ∃ f, m.functions[index - m.imports.length]? = some f ∧ f.body = none ∧ m.imports.length ≤ index ∧
      m' = { m with
        functions := m.functions.set (index - m.imports.length) ⟨f.signature, some body⟩ } := by
  unfold define at h
  split at h
  · cases h
  next hindex =>
    split at h
    · cases h
    next f hf =>
      split at h
      · cases h
      next hbody =>
        cases h
        exact ⟨f, hf, by simpa using hbody, Nat.le_of_not_lt hindex, rfl⟩

/-! ## What an index stands for -/

/-- The import or the function with an index. -/
def callee? (m : Module) (index : Nat) : Option (Import ⊕ Function) :=
  if index < m.imports.length then m.imports[index]?.map .inl
  else m.functions[index - m.imports.length]?.map .inr

/-- The second is the first, where a function may have got its body in between. -/
inductive SameCallee : Import ⊕ Function → Import ⊕ Function → Prop
  | refl (c) : SameCallee c c
  | defined (signature : Nat) (body : Body) :
      SameCallee (.inr ⟨signature, none⟩) (.inr ⟨signature, some body⟩)

/-- Every index of the first module stands for the same in the second. -/
structure Retains (m m' : Module) : Prop where
  types : m.types <+: m'.types
  callees : ∀ index c, m.callee? index = some c → ∃ c', m'.callee? index = some c' ∧ SameCallee c c'

theorem SameCallee.trans {a b c : Import ⊕ Function} (h : SameCallee a b) (h' : SameCallee b c) :
    SameCallee a c := by
  cases h with
  | refl => exact h'
  | defined signature body =>
    cases h'
    exact .defined signature body

theorem Retains.refl (m : Module) : m.Retains m := ⟨List.prefix_refl _, fun _ c hc => ⟨c, hc, .refl c⟩⟩

theorem Retains.trans (h : m.Retains m') (h' : m'.Retains m'') : m.Retains m'' where
  types := h.types.trans h'.types
  callees := by
    intro index c hc
    obtain ⟨c', hc', hsame⟩ := h.callees index c hc
    obtain ⟨c'', hc'', hsame'⟩ := h'.callees index c' hc'
    exact ⟨c'', hc'', hsame.trans hsame'⟩

theorem retains_internWith : m.Retains (m.internWith digest ft).1 := by
  refine ⟨internWith_spec.1, fun index c hc => ⟨c, ?_, .refl c⟩⟩
  rw [internWith_frame]
  exact hc

/-- What is added at the end of the functions, or of the imports when there are no functions, moves
nothing. -/
theorem callee?_append {imports : List Import} {functions : List Function}
    (hlate : imports = [] ∨ m.functions = []) (himports : m'.imports = m.imports ++ imports)
    (hfunctions : m'.functions = m.functions ++ functions) {c : Import ⊕ Function}
    (hc : m.callee? index = some c) : m'.callee? index = some c := by
  unfold callee? at hc ⊢
  split at hc
  next hindex =>
    rw [himports, if_pos (by simp; omega), List.getElem?_append_left hindex]
    exact hc
  next hindex =>
    rcases hlate with rfl | hnone
    · obtain ⟨f, hf, rfl⟩ := Option.map_eq_some_iff.mp hc
      have hlt := (List.getElem?_eq_some_iff.mp hf).1
      rw [himports, List.append_nil, if_neg hindex, hfunctions, List.getElem?_append_left hlt, hf]
      rfl
    · simp [hnone] at hc

theorem retains_addImportWith (h : m.addImportWith digest module name ft = .ok (m', index)) :
    m.Retains m' := by
  obtain ⟨hnone, -, rfl⟩ := addImportWith_eq_ok h
  refine ⟨internWith_spec.1, fun index c hc => ⟨c, ?_, .refl c⟩⟩
  apply callee?_append (.inr hnone) rfl ?_ hc
  · exact []
  · rw [internWith_frame, List.append_nil]

theorem retains_declareWith : m.Retains (m.declareWith digest ft).1 := by
  refine ⟨internWith_spec.1, fun index c hc => ⟨c, ?_, .refl c⟩⟩
  refine callee?_append (.inl rfl) ?_ rfl hc
  change (m.internWith digest ft).1.imports = _
  rw [internWith_frame, List.append_nil]

theorem retains_define (h : m.define index body = .ok m') : m.Retains m' := by
  obtain ⟨f, hf, hbody, hindex, rfl⟩ := define_eq_ok h
  refine ⟨List.prefix_refl _, fun other c hc => ?_⟩
  unfold callee? at hc ⊢
  split at hc
  next hother => exact ⟨c, by rw [if_pos hother]; exact hc, .refl c⟩
  next hother =>
    rw [if_neg hother]
    by_cases hsame : index - m.imports.length = other - m.imports.length
    · rw [← hsame, hf] at hc
      cases hc
      obtain ⟨signature, _⟩ := f
      subst hbody
      refine ⟨_, ?_, .defined signature body⟩
      rw [← hsame, List.getElem?_set_self (List.getElem?_eq_some_iff.mp hf).1]
      rfl
    · exact ⟨c, by rw [List.getElem?_set_ne hsame]; exact hc, .refl c⟩

/-! ## Runs of operations -/

inductive Operation
  | intern (ft : FuncType)
  | addImport (module name : String) (ft : FuncType)
  | declare (ft : FuncType)
  | define (index : Nat) (body : Body)

/-- The module and the index that an operation gives, unless it fails. -/
def perform (digest : FuncType → UInt64) (m : Module) : Operation → Except ModuleFault (Module × Option Nat)
  | .intern ft => .ok ((m.internWith digest ft).1, some (m.internWith digest ft).2)
  | .addImport module name ft =>
    (m.addImportWith digest module name ft).map (fun (m, index) => (m, some index))
  | .declare ft => .ok ((m.declareWith digest ft).1, some (m.declareWith digest ft).2)
  | .define index body => (m.define index body).map (fun m => (m, none))

/-- The module after an operation. One that fails changes nothing. -/
def after (digest : FuncType → UInt64) (m : Module) (op : Operation) : Module :=
  match m.perform digest op with
  | .ok (m', _) => m'
  | .error _ => m

/-- The module after some operations. -/
def run (digest : FuncType → UInt64) (m : Module) (ops : List Operation) : Module :=
  ops.foldl (after digest) m

/-- The signatures are different from each other, and all are filed under their digests. -/
structure Filed (digest : FuncType → UInt64) (m : Module) : Prop where
  distinct : m.types.Nodup
  filed : ∀ index ft, m.types[index]? = some ft → ⟨digest ft, index⟩ ∈ m.interned

section

variable (h : m.Filed digest)
include h

theorem Filed.of_eq (htypes : m'.types = m.types) (hinterned : m'.interned = m.interned) :
    m'.Filed digest := by
  refine ⟨htypes ▸ h.distinct, ?_⟩
  rw [htypes, hinterned]
  exact h.filed

theorem Filed.findSignature? (hindex : m.types[index]? = some ft) :
    m.findSignature? (digest ft) ft = some index := by
  have hfound : (m.interned.find? (fun entry =>
      entry.digest == digest ft && m.types[entry.index]? == some ft)).isSome := by
    rw [List.find?_isSome]
    exact ⟨_, h.filed index ft hindex, by simp [hindex]⟩
  obtain ⟨entry, hentry⟩ := Option.isSome_iff_exists.mp hfound
  have hhit := List.find?_some hentry
  simp only [Bool.and_eq_true, beq_iff_eq] at hhit
  have hsame : entry.index = index := (List.getElem?_inj
    (List.getElem?_eq_some_iff.mp hhit.2).1 h.distinct).mp (hhit.2.trans hindex.symm)
  unfold Module.findSignature?
  rw [hentry]
  exact congrArg some hsame

theorem Filed.internWith (ft : FuncType) : (m.internWith digest ft).1.Filed digest := by
  obtain ⟨index, -, heq⟩ | ⟨hfresh, heq⟩ := internWith_cases
  · rw [heq]
    exact h
  · rw [heq]
    have hnew : ft ∉ m.types := by
      intro hmem
      obtain ⟨index, hindex⟩ := List.mem_iff_getElem?.mp hmem
      rw [h.findSignature? hindex] at hfresh
      cases hfresh
    have hdistinct : (m.types ++ [ft]).Nodup := by
      rw [List.nodup_append]
      exact ⟨h.distinct, List.nodup_cons.mpr ⟨nofun, List.nodup_nil⟩, by
        rintro a ha b hb rfl
        exact hnew (List.mem_singleton.mp hb ▸ ha)⟩
    refine ⟨hdistinct, fun index other hother => ?_⟩
    rw [List.mem_append]
    by_cases hold : index < m.types.length
    · rw [List.getElem?_append_left hold] at hother
      exact .inl (h.filed index other hother)
    · rw [List.getElem?_append_right (Nat.le_of_not_lt hold), List.getElem?_singleton] at hother
      split at hother
      next hlast =>
        cases hother
        have hindex : index = m.types.length := by omega
        exact .inr (by rw [hindex]; exact List.mem_singleton_self _)
      · cases hother

/-- Interning again gives the same index and adds nothing. -/
theorem Filed.internWith_again :
    (m.internWith digest ft).1.internWith digest ft = m.internWith digest ft := by
  have hfound := (h.internWith ft).findSignature? internWith_spec.2
  rw [Module.internWith, hfound]

theorem Filed.after (op : Operation) : (m.after digest op).Filed digest ∧ m.Retains (m.after digest op) := by
  cases op with
  | intern ft => exact ⟨h.internWith ft, retains_internWith⟩
  | declare ft => exact ⟨(h.internWith ft).of_eq rfl rfl, retains_declareWith⟩
  | addImport module name ft =>
    cases hadd : m.addImportWith digest module name ft with
    | error fault => simpa [Module.after, perform, hadd, Except.map] using ⟨h, Retains.refl m⟩
    | ok result =>
      simp only [Module.after, perform, hadd, Except.map]
      have hretains := retains_addImportWith hadd
      obtain ⟨m', index⟩ := result
      obtain ⟨-, -, rfl⟩ := addImportWith_eq_ok hadd
      exact ⟨(h.internWith ft).of_eq rfl rfl, hretains⟩
  | define index body =>
    cases hdefine : m.define index body with
    | error fault => simpa [Module.after, perform, hdefine, Except.map] using ⟨h, Retains.refl m⟩
    | ok result =>
      simp only [Module.after, perform, hdefine, Except.map]
      have hretains := retains_define hdefine
      obtain ⟨f, -, -, -, rfl⟩ := define_eq_ok hdefine
      exact ⟨h.of_eq rfl rfl, hretains⟩

theorem Filed.run (ops : List Operation) :
    (m.run digest ops).Filed digest ∧ m.Retains (m.run digest ops) := by
  induction ops generalizing m with
  | nil => exact ⟨h, .refl m⟩
  | cons op rest ih =>
    obtain ⟨hfiled, hretains⟩ := h.after op
    obtain ⟨hrun, hrest⟩ := ih hfiled
    exact ⟨hrun, hretains.trans hrest⟩

end

/-! ## When operations fail -/

theorem addImportWith_eq_error_iff :
    m.addImportWith digest module name ft = .error fault ↔
      m.functions ≠ [] ∧ fault = .lateImport module name := by
  unfold addImportWith
  split
  next hnone => simp [List.isEmpty_iff.mp hnone]
  next hsome =>
    rw [List.isEmpty_iff] at hsome
    simp [hsome, eq_comm]

/-- A body is refused exactly for an index that is none of a function, or of one that has a body. -/
theorem define_eq_error_iff :
    m.define index body = .error fault ↔
      (∀ f, m.callee? index ≠ some (.inr f)) ∧ fault = .undeclared index ∨
      (∃ signature body, m.callee? index = some (.inr ⟨signature, some body⟩)) ∧
        fault = .definedTwice index := by
  unfold define callee?
  split
  next hindex => simp [eq_comm (b := fault)]
  next hindex =>
    cases hf : m.functions[index - m.imports.length]? with
    | none => simp [eq_comm]
    | some f =>
      obtain ⟨signature, body⟩ := f
      cases body with
      | none => simp
      | some body => simp [eq_comm]

theorem isOk_mapM_iff {ε α β : Type} {f : α → Except ε β} (items : List α) :
    (items.mapM f).isOk ↔ ∀ item ∈ items, (f item).isOk := by
  induction items with
  | nil => simp [pure, Except.pure, Except.isOk, Except.toBool]
  | cons item rest ih =>
    rw [List.mapM_cons, List.forall_mem_cons, ← ih]
    cases f item with
    | error fault => simp [bind, Except.bind, Except.isOk, Except.toBool]
    | ok b =>
      cases rest.mapM f <;> simp [bind, Except.bind, pure, Except.pure, Except.isOk, Except.toBool]

/-- A module has a binary form exactly if every declared function is defined. -/
theorem isOk_encode_iff : m.encode.isOk ↔ ∀ f ∈ m.functions, f.body.isSome := by
  have hencode : m.encode.isOk ↔ m.bodies.isOk := by
    unfold encode
    cases m.bodies <;> rfl
  rw [hencode, bodies, isOk_mapM_iff]
  constructor
  · intro h f hf
    obtain ⟨i, hi⟩ := List.mem_iff_getElem?.mp hf
    have hok := h (f, m.imports.length + i) (by simpa [List.mem_zipIdx_iff_le_and_getElem?_sub] using hi)
    obtain ⟨signature, body⟩ := f
    cases body with
    | none => cases hok
    | some body => rfl
  · rintro h ⟨⟨signature, body⟩, i⟩ hmem
    have hbody := h _ (List.fst_mem_of_mem_zipIdx hmem)
    cases body with
    | none => cases hbody
    | some body => rfl

/-- What a module promises of its indices: signatures have one index each, under which they are found
again; later operations change the meaning of no index; an import is refused exactly after a function,
and a body exactly for what is no function without one; and the binary form waits for all bodies. -/
structure Reliable (digest : FuncType → UInt64) (m : Module) : Prop where
  distinct : m.types.Nodup
  interned : ∀ ft, (m.internWith digest ft).1.types[(m.internWith digest ft).2]? = some ft ∧
    (m.internWith digest ft).1.internWith digest ft = m.internWith digest ft
  retained : ∀ later, m.Retains (m.run digest later)
  imported : ∀ module name ft m' index, m.addImportWith digest module name ft = .ok (m', index) →
    ∃ signature, m'.callee? index = some (.inl ⟨module, name, signature⟩) ∧
      m'.types[signature]? = some ft
  declared : ∀ ft, ∃ signature,
    (m.declareWith digest ft).1.callee? (m.declareWith digest ft).2 = some (.inr ⟨signature, none⟩) ∧
      (m.declareWith digest ft).1.types[signature]? = some ft
  lateImport : ∀ module name ft fault, m.addImportWith digest module name ft = .error fault ↔
    m.functions ≠ [] ∧ fault = .lateImport module name
  defined : ∀ index body m', m.define index body = .ok m' →
    ∃ signature, m'.callee? index = some (.inr ⟨signature, some body⟩)
  refused : ∀ index body fault, m.define index body = .error fault ↔
    (∀ f, m.callee? index ≠ some (.inr f)) ∧ fault = .undeclared index ∨
    (∃ signature body, m.callee? index = some (.inr ⟨signature, some body⟩)) ∧ fault = .definedTwice index
  unchanged : ∀ op, (m.perform digest op).isOk = false → m.after digest op = m
  encoded : m.encode.isOk ↔ ∀ f ∈ m.functions, f.body.isSome

theorem callee?_declareWith :
    (m.declareWith digest ft).1.callee? (m.declareWith digest ft).2 =
      some (.inr ⟨(m.internWith digest ft).2, none⟩) := by
  have himports : (m.declareWith digest ft).1.imports = m.imports := by
    change (m.internWith digest ft).1.imports = m.imports
    rw [internWith_frame]
  unfold callee?
  rw [himports]
  simp [declareWith]

theorem callee?_define (h : m.define index body = .ok m') :
    ∃ signature, m'.callee? index = some (.inr ⟨signature, some body⟩) := by
  obtain ⟨f, hf, -, hindex, rfl⟩ := define_eq_ok h
  refine ⟨f.signature, ?_⟩
  unfold callee?
  rw [if_neg (Nat.not_lt.mpr hindex), List.getElem?_set_self (List.getElem?_eq_some_iff.mp hf).1]
  rfl

/-- The indices of a module are reliable after any operations, whatever the digest function is. -/
theorem run_reliable (digest : FuncType → UInt64) (ops : List Operation) :
    (Module.empty.run digest ops).Reliable digest := by
  have hempty : Filed digest .empty := ⟨List.nodup_nil, by simp [Module.empty]⟩
  obtain ⟨hfiled, -⟩ := hempty.run ops
  generalize Module.empty.run digest ops = m at hfiled
  refine ⟨hfiled.distinct, fun ft => ⟨internWith_spec.2, hfiled.internWith_again⟩,
    fun later => (hfiled.run later).2, ?_, ?_, fun _ _ _ _ => addImportWith_eq_error_iff,
    fun _ _ _ => callee?_define, fun _ _ _ => define_eq_error_iff, ?_, isOk_encode_iff⟩
  · intro module name ft m' index hadd
    obtain ⟨-, rfl, rfl⟩ := addImportWith_eq_ok hadd
    exact ⟨(m.internWith digest ft).2, by simp [callee?], internWith_spec.2⟩
  · exact fun ft => ⟨_, callee?_declareWith, internWith_spec.2⟩
  · intro op hfails
    unfold after
    cases hperform : m.perform digest op with
    | error fault => rfl
    | ok result =>
      rw [hperform] at hfails
      cases hfails

end TreeWasm.Wasm.Module
