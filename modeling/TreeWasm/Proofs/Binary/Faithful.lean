import TreeWasm.Proofs.Binary.Grammar
import TreeWasm.Proofs.Binary.Indices
import TreeWasm.Proofs.Steps

/-! # Encoding is faithful

A module that is put together by its operations is read back from its binary form: every list with
its entries, the locals and the code of every function. The noted offsets are where the code stands.
-/

namespace TreeWasm.Wasm

open Decoder

namespace Module

variable {e : Encoded} {bodies : List Body} {functions : List Function} {m : Module} {i : Nat}

/-- The modules that a sequence of operations makes out of the empty one. Value types, kinds of
exports and initial values of globals are those that the binary format has. -/
inductive Built : Module → Prop
  | empty : Built .empty
  | intern {m : Module} {ft : FuncType} (h : Built m) (hft : ft.Proper) : Built (m.intern ft).1
  | addImport {m m' : Module} {ft : FuncType} {module name : String} {index : Nat} (h : Built m)
      (hft : ft.Proper) (hadd : m.addImport module name ft = .ok (m', index)) : Built m'
  | declare {m : Module} {ft : FuncType} (h : Built m) (hft : ft.Proper) : Built (m.declare ft).1
  | define {m m' : Module} {index : Nat} {body : Body} (h : Built m) (hbody : body.Proper)
      (hdefine : m.define index body = .ok m') : Built m'
  | addExport {m : Module} {kind : UInt8} (h : Built m) (name : String) (hkind : kind < 4)
      (index : UInt32) : Built (m.addExport name (.ofByte kind) index.toNat)
  | addGlobal {m : Module} {g : Global} (h : Built m) (hg : g.Proper) : Built (m.addGlobal g).1
  | addData {m : Module} (h : Built m) (offset : UInt32) (data : List UInt8) : Built (m.addData offset data)
  | setMemory {m : Module} (h : Built m) (limits : Limits) : Built (m.setMemory limits)
  | setStart {m : Module} (h : Built m) (index : UInt32) : Built (m.setStart index.toNat)

/-- What the operations keep: entries have a binary form, and signatures exist. -/
structure Sound (m : Module) : Prop where
  types : ∀ ft ∈ m.types, ft.Proper
  imports : ∀ i ∈ m.imports, i.signature < m.types.length
  functions : ∀ f ∈ m.functions, f.signature < m.types.length ∧ ∀ body ∈ f.body, body.Proper
  globals : ∀ g ∈ m.globals, g.Proper
  exports : ∀ e ∈ m.exports, e.Proper
  start : ∀ index ∈ m.start, index < 2 ^ 32

namespace Sound

theorem empty : Sound .empty where
  types := by simp [Module.empty]
  imports := by simp [Module.empty]
  functions := by simp [Module.empty]
  globals := by simp [Module.empty]
  exports := by simp [Module.empty]
  start := by simp [Module.empty]

variable {m m' : Module} {ft : FuncType}

section

variable (h : m.Sound)
include h

theorem intern (hft : ft.Proper) :
    (m.intern ft).1.Sound ∧ (m.intern ft).2 < (m.intern ft).1.types.length := by
  unfold Module.intern
  obtain ⟨index, hindex, heq⟩ | ⟨-, heq⟩ := internWith_cases
  · rw [heq]
    exact ⟨h, (List.getElem?_eq_some_iff.mp hindex).1⟩
  · rw [heq]
    have hlen : m.types.length < (m.types ++ [ft]).length := by simp
    refine ⟨{ h with
      types := ?_
      imports := fun i hi => Nat.lt_trans (h.imports i hi) hlen
      functions := fun f hf =>
        ⟨Nat.lt_trans (h.functions f hf).1 hlen, (h.functions f hf).2⟩ }, hlen⟩
    intro ft' hft'
    obtain hold | hnew := List.mem_append.mp hft'
    · exact h.types ft' hold
    · exact List.mem_singleton.mp hnew ▸ hft

theorem addImport {module name : String} {index : Nat} (hft : ft.Proper)
    (hadd : m.addImport module name ft = .ok (m', index)) : m'.Sound := by
  obtain ⟨-, -, rfl⟩ := addImport_eq_ok hadd
  obtain ⟨hinterned, hsignature⟩ := h.intern hft
  refine { hinterned with imports := fun i hi => ?_ }
  obtain hold | hnew := List.mem_append.mp hi
  · exact hinterned.imports i (by rwa [intern_frame])
  · cases List.mem_singleton.mp hnew
    exact hsignature

theorem declare (hft : ft.Proper) : (m.declare ft).1.Sound := by
  obtain ⟨hinterned, hsignature⟩ := h.intern hft
  refine { hinterned with functions := fun f hf => ?_ }
  obtain hold | hnew := List.mem_append.mp hf
  · exact hinterned.functions f (by rwa [intern_frame])
  · cases List.mem_singleton.mp hnew
    exact ⟨hsignature, by simp⟩

theorem define {index : Nat} {body : Body} (hbody : body.Proper)
    (hdefine : m.define index body = .ok m') : m'.Sound := by
  obtain ⟨function, hfunction, -, -, rfl⟩ := define_eq_ok hdefine
  refine { h with functions := fun f hf => ?_ }
  obtain hold | rfl := List.mem_or_eq_of_mem_set hf
  · exact h.functions f hold
  · refine ⟨(h.functions function (List.mem_of_getElem? hfunction)).1, ?_⟩
    intro body' hbody'
    cases hbody'
    exact hbody

theorem addExport {kind : UInt8} (name : String) (hkind : kind < 4) (index : UInt32) :
    (m.addExport name (.ofByte kind) index.toNat).Sound := by
  refine { h with exports := fun e he => ?_ }
  obtain hold | hnew := List.mem_append.mp he
  · exact h.exports e hold
  · rw [List.mem_singleton.mp hnew]
    exact ⟨index.toNat_lt, kind, hkind, rfl⟩

theorem addGlobal {g : Global} (hg : g.Proper) : (m.addGlobal g).1.Sound := by
  refine { h with globals := fun g' hg' => ?_ }
  obtain hold | hnew := List.mem_append.mp hg'
  · exact h.globals g' hold
  · exact List.mem_singleton.mp hnew ▸ hg

theorem setStart (index : UInt32) : (m.setStart index.toNat).Sound := by
  refine { h with start := fun i hi => ?_ }
  cases hi
  exact index.toNat_lt

end

end Sound

theorem Built.sound (h : Built m) : m.Sound := by
  induction h with
  | empty => exact .empty
  | intern _ hft ih => exact (ih.intern hft).1
  | addImport _ hft hadd ih => exact ih.addImport hft hadd
  | declare _ hft ih => exact ih.declare hft
  | define _ hbody hdefine ih => exact ih.define hbody hdefine
  | addExport _ name hkind index ih => exact ih.addExport name hkind index
  | addGlobal _ hg ih => exact ih.addGlobal hg
  | addData _ _ _ ih => exact { ih with }
  | setMemory _ _ ih => exact { ih with }
  | setStart _ index ih => exact ih.setStart index

/-! ## Bodies -/

/-- A code entry: the body with its size in front. -/
def codeEntry (body : Body) : List UInt8 := Leb128.unsigned body.encode.length ++ body.encode

/-- The body of a function, unless it has none. -/
def bodyOf (entry : Function × Nat) : Except ModuleFault Body :=
  match entry.1.body with
  | some body => .ok body
  | none => .error (.neverDefined entry.2)

theorem mapM_bodyOf {first : Nat} (h : (functions.zipIdx first).mapM bodyOf = .ok bodies) :
    functions.map Function.body = bodies.map some := by
  induction functions generalizing first bodies with
  | nil =>
    cases h
    rfl
  | cons function rest ih =>
    obtain ⟨signature, _ | body⟩ := function
    · cases h
    rw [List.zipIdx_cons, List.mapM_cons] at h
    obtain ⟨_, ⟨⟩, h⟩ := Except.exists_of_bind h
    obtain ⟨others, hrest, ⟨⟩⟩ := Except.exists_of_bind h
    rw [List.map_cons, List.map_cons, ih hrest]

/-- A module is encoded when every function has a body: what the bytes and offsets are then. -/
theorem encode_eq_ok (h : m.encode = .ok e) :
    ∃ bodies, m.functions.map Function.body = bodies.map some ∧
      e = ⟨m.encodeHead ++ listSection 10 (bodies.map codeEntry) ++
          listSection 11 (m.segments.map Segment.encode),
        firstInstructions (m.encodeHead.length + 1 +
          (Leb128.unsigned (counted (bodies.map codeEntry)).length).length +
          (Leb128.unsigned bodies.length).length) bodies⟩ := by
  obtain ⟨bodies, hbodies, ⟨⟩⟩ := Except.exists_of_bind h
  exact ⟨bodies, mapM_bodyOf hbodies, rfl⟩

/-- Bodies written one after the other stand at the offsets that are noted for them. -/
theorem firstInstructions_spec (before after : List UInt8) {body : Body}
    (h : bodies[i]? = some body) :
    ∃ offset, (firstInstructions before.length bodies)[i]? = some offset ∧
      body.code ++ [Instr.endByte] <+: (before ++ ((bodies.map codeEntry).flatten ++ after)).drop offset := by
  induction bodies generalizing before i with
  | nil => cases h
  | cons first rest ih =>
    rw [List.map_cons, List.flatten_cons, List.append_assoc]
    cases i with
    | zero =>
      cases h
      refine ⟨_, rfl, (rest.map codeEntry).flatten ++ after, ?_⟩
      have hbytes : before ++ (codeEntry body ++ ((rest.map codeEntry).flatten ++ after)) =
          (before ++ Leb128.unsigned body.encode.length ++ encodeLocals body.locals) ++
            (body.code ++ [Instr.endByte] ++ ((rest.map codeEntry).flatten ++ after)) := by
        simp [codeEntry, Body.encode]
      rw [hbytes, List.drop_left' (by simp [Nat.add_assoc])]
    | succ i =>
      have hnext := ih (before ++ codeEntry first) h
      rw [List.append_assoc] at hnext
      rw [List.length_append, codeEntry, List.length_append, ← Nat.add_assoc] at hnext
      exact hnext

theorem length_firstInstructions (offset : Nat) :
    (firstInstructions offset bodies).length = bodies.length := by
  induction bodies generalizing offset with
  | nil => rfl
  | cons body rest ih => exact congrArg (· + 1) (ih _)

/-! ## The theorem -/

/-- What the module holds, in the terms of the binary grammar. -/
def contents (m : Module) : Contents where
  types := m.types
  imports := m.imports
  functions := m.functions.map Function.signature
  memories := m.memory.toList.map (fun l =>
    (l.min.toNat, if 0 < l.max then some l.max.toNat else none))
  globals := m.globals
  exports := m.exports
  start := m.start
  bodies := m.functions.filterMap Function.body
  segments := m.segments

/-- What the sections have between their sizes and the next section; empty lists have no section. -/
def payloads (m : Module) : List (List UInt8) :=
  [counted (m.types.map FuncType.encode),
    counted (m.imports.map Import.encode),
    counted (m.functions.map (fun f => Leb128.unsigned f.signature)),
    m.memory.elim [] (fun limits => Leb128.unsigned 1 ++ limits.encode),
    counted (m.globals.map Global.encode),
    counted (m.exports.map Export.encode),
    m.start.elim [] Leb128.unsigned,
    counted ((m.functions.filterMap Function.body).map codeEntry),
    counted (m.segments.map Segment.encode)]

/-! ### How each section is read

The size of a payload bounds what is counted in it. Signature indices are bounded by the number of
signatures.
-/

section Sections

variable {m : Module}

theorem map_unsigned_signature :
    functions.map (fun f => Leb128.unsigned f.signature) =
      (functions.map Function.signature).map Leb128.unsigned := by
  rw [List.map_map]
  rfl

theorem reads_memory (l : Limits) : Reads (vector limits) (Leb128.unsigned 1 ++ l.encode)
    [(l.min.toNat, if 0 < l.max then some l.max.toNat else none)] := by
  apply (reads_unsigned (show 1 < 2 ^ 32 by decide)).bind
  have hone := (reads_limits l).bind_pure (f := fun first => pure [first]) .pure
  exact hone

theorem Sound.reads_code (hm : m.Sound)
    (hsize : (counted ((m.functions.filterMap Function.body).map codeEntry)).length < 2 ^ 32) :
    Reads (vector (sized bodyContent))
      (counted ((m.functions.filterMap Function.body).map codeEntry))
      (m.functions.filterMap Function.body) := by
  apply reads_vector hsize (fun _ _ => by simp [codeEntry])
  intro body hbody hlen
  obtain ⟨f, hf, hfbody⟩ := List.mem_filterMap.mp hbody
  rw [codeEntry, List.length_append] at hlen
  have hencode : body.encode.length < 2 ^ 32 := by omega
  exact reads_sized hencode (bodyContent_encode hencode ((hm.functions f hf).2 body hfbody))

end Sections

/-- The sections of an encoded module are read one by one, each up to the next. -/
theorem contents_run (hm : m.Sound) (hbodies : m.functions.map Function.body = bodies.map some)
    (hsize : ∀ payload ∈ m.payloads, payload.length < 2 ^ 32) :
    Decoder.contents (m.encodeHead ++ listSection 10 (bodies.map codeEntry) ++
      listSection 11 (m.segments.map Segment.encode)) = some (m.contents, []) := by
  obtain rfl : m.functions.filterMap Function.body = bodies := by
    simpa [List.filterMap_map] using congrArg (List.filterMap id) hbodies
  have hcount : (m.functions.map Function.signature).length =
      (m.functions.filterMap Function.body).length := by
    have hlengths := congrArg List.length hbodies
    simpa using hlengths
  simp only [payloads, map_unsigned_signature, List.forall_mem_cons] at hsize
  obtain ⟨htypes, himports, hfunctions, hmemory, hglobals, hexports, hstart, hcode, hsegments, -⟩ := hsize
  have hindices : m.types.length < 2 ^ 32 := length_lt_of_counted htypes (fun _ _ => List.cons_ne_nil _ _)
  have readsTypes := reads_vector htypes (fun _ _ => List.cons_ne_nil _ _)
    (fun ft hft hlen => reads_funcType hlen (hm.types ft hft))
  have readsImports := reads_vector himports (fun _ _ => by simp [Import.encode, indexed])
    (fun i hi hlen => reads_importEntry hlen (Nat.lt_trans (hm.imports i hi) hindices))
  have hsignatures : ∀ n ∈ m.functions.map Function.signature, n < 2 ^ 32 :=
    List.forall_mem_map.mpr (fun f hf => Nat.lt_trans (hm.functions f hf).1 hindices)
  have readsFunctions := reads_vector hfunctions (fun n _ => unsigned_ne_nil)
    (fun n hn _ => reads_unsigned (hsignatures n hn))
  have readsGlobals := reads_vector hglobals (fun _ _ => List.cons_ne_nil _ _)
    (fun g hg _ => reads_global (hm.globals g hg))
  have readsExports := reads_vector hexports (fun _ _ => by simp [Export.encode, indexed])
    (fun e he hlen => reads_exportEntry hlen (hm.exports e he))
  have readsSegments := reads_vector hsegments (fun _ _ => by simp [Segment.encode])
    (fun _ _ hlen => reads_segment hlen)
  -- what follows a section opens with a later one, from the last section back first
  have above11 : OpensAbove 11 [] := by rintro _ ⟨⟩
  have above10 : OpensAbove 10 _ := above11.listSection (by decide) (m.segments.map Segment.encode)
  have above8 : OpensAbove 8 _ := above10.listSection (by decide)
    ((m.functions.filterMap Function.body).map codeEntry)
  have above7 : OpensAbove 7 _ := above8.elim (by decide) m.start Leb128.unsigned
  have above6 : OpensAbove 6 _ := above7.listSection (by decide) (m.exports.map Export.encode)
  have above5 : OpensAbove 5 _ := above6.listSection (by decide) (m.globals.map Global.encode)
  have above3 : OpensAbove 3 _ := above5.elim (by decide) m.memory
    (fun limits => Leb128.unsigned 1 ++ limits.encode)
  have above2 : OpensAbove 2 _ := above3.listSection (by decide)
    ((m.functions.map Function.signature).map Leb128.unsigned)
  have above1 : OpensAbove 1 _ := above2.listSection (by decide) (m.imports.map Import.encode)
  rw [encodeHead, map_unsigned_signature, ← List.append_nil (listSection 11 _)]
  simp only [List.append_assoc]
  rw [Decoder.contents, bind_run (Reads.literal header _),
    bind_run (itemsOf_listSection above1 htypes readsTypes),
    bind_run (itemsOf_listSection above2 himports readsImports),
    bind_run (itemsOf_listSection above3 hfunctions readsFunctions),
    bind_run (sectionOf_elim above5 hmemory (fun l _ => reads_memory l)),
    bind_run (itemsOf_listSection above6 hglobals readsGlobals),
    bind_run (itemsOf_listSection above7 hexports readsExports),
    bind_run (sectionOf_elim above8 hstart (fun i hi => reads_unsigned (hm.start i hi))),
    bind_run (itemsOf_listSection above10 hcode (hm.reads_code hcode)),
    bind_run (itemsOf_listSection above11 hsegments readsSegments),
    if_pos hcount, Option.map_id', Module.contents]
  cases m.memory <;> rfl

/-- The code stands at the noted offsets of the whole module. -/
theorem code_at_bodyOffsets (he : m.encode = .ok e) {f : Function} (hf : m.functions[i]? = some f) :
    ∃ body offset, f.body = some body ∧ e.bodyOffsets[i]? = some offset ∧
      body.code ++ [Instr.endByte] <+: e.bytes.drop offset := by
  obtain ⟨bodies, hbodies, rfl⟩ := encode_eq_ok he
  have hbody : (m.functions.map Function.body)[i]? = some f.body := by
    rw [List.getElem?_map, hf]
    rfl
  rw [hbodies, List.getElem?_map] at hbody
  obtain ⟨body, hget, hsome⟩ := Option.map_eq_some_iff.mp hbody
  have hne : (bodies.map codeEntry).isEmpty = false := by
    cases bodies with
    | nil => cases hget
    | cons first rest => rfl
  -- everything that is written before the first code entry
  have hspec := firstInstructions_spec (m.encodeHead ++ 10 ::
    (Leb128.unsigned (counted (bodies.map codeEntry)).length ++ Leb128.unsigned bodies.length))
    (listSection 11 (m.segments.map Segment.encode)) hget
  obtain ⟨offset, hoffset, hcode⟩ := hspec
  refine ⟨body, offset, hsome.symm, ?_, ?_⟩
  · have hlen : (m.encodeHead ++ 10 :: (Leb128.unsigned (counted (bodies.map codeEntry)).length ++
        Leb128.unsigned bodies.length)).length = m.encodeHead.length + 1 +
          (Leb128.unsigned (counted (bodies.map codeEntry)).length).length +
          (Leb128.unsigned bodies.length).length := by
      simp only [List.length_append, List.length_cons]
      omega
    rwa [hlen] at hoffset
  · have hbytes : m.encodeHead ++ listSection 10 (bodies.map codeEntry) =
        m.encodeHead ++ 10 :: (Leb128.unsigned (counted (bodies.map codeEntry)).length ++
          Leb128.unsigned bodies.length) ++ (bodies.map codeEntry).flatten := by
      rw [listSection, hne, if_neg Bool.false_ne_true, sectionBytes]
      simp [counted]
    rw [hbytes, List.append_assoc]
    exact hcode

/-- The binary form of a module is read back as the module, with no byte left over, and the code of
every function stands at the offset that is noted for it. -/
theorem decode_encode {m : Module} {e : Encoded} (hm : Built m) (he : m.encode = .ok e)
    (hsize : ∀ payload ∈ m.payloads, payload.length < 2 ^ 32) :
    decode e.bytes = some m.contents ∧ e.bodyOffsets.length = m.functions.length ∧
      ∀ (i : Nat) (f : Function), m.functions[i]? = some f → ∃ body offset, f.body = some body ∧
        e.bodyOffsets[i]? = some offset ∧
        body.code ++ [Instr.endByte] <+: e.bytes.drop offset := by
  refine ⟨?_, ?_, fun i f hf => code_at_bodyOffsets he hf⟩
  · obtain ⟨bodies, hbodies, rfl⟩ := encode_eq_ok he
    rw [decode, contents_run hm.sound hbodies hsize]
  · obtain ⟨bodies, hbodies, rfl⟩ := encode_eq_ok he
    have hlengths := congrArg List.length hbodies
    rw [length_firstInstructions]
    simpa using hlengths.symm

/-- A module with one import. -/
def imported : Module where
  types := [⟨[.i32], []⟩]
  interned := [⟨FuncType.digest ⟨[.i32], []⟩, 0⟩]
  imports := [⟨"env", "log", 0⟩]

/-- Two functions of another signature, which is interned once. -/
def declared : Module :=
  { imported with
    types := [⟨[.i32], []⟩, ⟨[], []⟩]
    interned := [⟨FuncType.digest ⟨[.i32], []⟩, 0⟩, ⟨FuncType.digest ⟨[], []⟩, 1⟩]
    functions := [⟨1, none⟩, ⟨1, none⟩] }

/-- Grouped locals, code of more than 127 bytes, a negative initial value and data at the last
address. -/
def assembled : Module :=
  { declared with
    functions := [⟨1, some ⟨[.i32, .i32, .f64], [0x01]⟩⟩, ⟨1, some ⟨[], List.replicate 130 0x01⟩⟩]
    exports := [⟨"main", .function, 2⟩]
    globals := [⟨.i32, true, -5⟩]
    segments := [⟨0xFFFFFFFF, [7]⟩]
    memory := some ⟨1, 0⟩
    start := some 1 }

theorem built_declared : Built declared := by
  have himport : Module.empty.addImport "env" "log" ⟨[.i32], []⟩ = .ok (imported, 0) := rfl
  have hproper : FuncType.Proper ⟨[], []⟩ := by simp [FuncType.Proper]
  have hdeclared : ((imported.declare ⟨[], []⟩).1.declare ⟨[], []⟩).1 = declared := by
    simp [imported, declared, declare, declareWith, internWith, findSignature?]
  rw [← hdeclared]
  exact ((Built.empty.addImport (by simp [FuncType.Proper]) himport).declare hproper).declare hproper

theorem built_assembled : Built assembled := by
  have hfirst : declared.define 1 ⟨[.i32, .i32, .f64], [0x01]⟩ = .ok { declared with
      functions := [⟨1, some ⟨[.i32, .i32, .f64], [0x01]⟩⟩, ⟨1, none⟩] } := rfl
  have hsecond : Module.define { declared with
      functions := [⟨1, some ⟨[.i32, .i32, .f64], [0x01]⟩⟩, ⟨1, none⟩] } 2
      ⟨[], List.replicate 130 0x01⟩ = .ok { declared with
        functions := [⟨1, some ⟨[.i32, .i32, .f64], [0x01]⟩⟩,
          ⟨1, some ⟨[], List.replicate 130 0x01⟩⟩] } := rfl
  have hdefined := (built_declared.define (by simp [Body.Proper]) hfirst).define
    (by simp [Body.Proper]) hsecond
  have hglobal : Global.Proper ⟨.i32, true, -5⟩ := .inl ⟨rfl, by decide, by decide⟩
  exact (((((hdefined.addExport "main" (show (0 : UInt8) < 4 by decide) 2).addGlobal hglobal).addData
    0xFFFFFFFF [7]).setMemory ⟨1, 0⟩).setStart 1)

theorem decode_encode_assembled :
    ∃ e, assembled.encode = .ok e ∧ (∀ payload ∈ assembled.payloads, payload.length < 2 ^ 32) ∧
      decode e.bytes = some assembled.contents ∧ e.bodyOffsets.length = 2 ∧
      ∃ offset, e.bodyOffsets[1]? = some offset ∧
        List.replicate 130 0x01 ++ [Instr.endByte] <+: e.bytes.drop offset := by
  have hsize : ∀ payload ∈ assembled.payloads, payload.length < 2 ^ 32 := by
    decide +kernel
  obtain ⟨hdecode, hlength, hcode⟩ := decode_encode built_assembled rfl hsize
  obtain ⟨body, offset, hbody, hoffset, hprefix⟩ := hcode 1 _ rfl
  cases hbody
  exact ⟨_, rfl, hsize, hdecode, hlength, offset, hoffset, hprefix⟩

end Module

end TreeWasm.Wasm
