import TreeWasm.Proofs.Binary.Decoder

/-! # The binary grammar

Decoders for the entries of each section and for a whole module. Sections come in the order of the
grammar, each at most once, and no byte may be left over. Of imports only functions are read, and of
initial values only constants: a module of this library has no others.
-/

namespace TreeWasm.Wasm

namespace Decoder

def valType : Decoder ValType := do
  let b ← byte
  match [ValType.i32, .i64, .f32, .f64].find? (fun v => v.byte == b) with
  | some v => return v
  | none => failure

def funcType : Decoder FuncType := do
  expect 0x60
  return ⟨← vector valType, ← vector valType⟩

def importEntry : Decoder Import := do
  let module ← name
  let field ← name
  expect 0x00
  return ⟨module, field, ← unsigned 32⟩

/-- The least size and the greatest, if there is one. -/
def limits : Decoder (Nat × Option Nat) := do
  let flag ← byte
  let min ← unsigned 32
  if flag = 0x00 then return (min, none)
  else if flag = 0x01 then return (min, some (← unsigned 32))
  else failure

/-- The value of a constant of the given type and the `end` after it. -/
def constantOf (type : ValType) (bits : Nat) : Decoder (ValType × Int) := do
  let value ← signed bits
  expect Instr.endByte
  return (type, value)

/-- A constant expression: its type and value. -/
def constant : Decoder (ValType × Int) := do
  let opcode ← byte
  if opcode = 0x41 then constantOf .i32 32
  else if opcode = 0x42 then constantOf .i64 64
  else failure

def global : Decoder Global := do
  let type ← valType
  let flag ← byte
  let (constantType, value) ← constant
  if constantType = type ∧ flag < 2 then return ⟨type, flag = 1, Int64.ofInt value⟩ else failure

def exportEntry : Decoder Export := do
  let field ← name
  let kind ← byte
  let index ← unsigned 32
  if kind < 4 then return ⟨field, ExternKind.ofByte kind, index⟩ else failure

def localGroup : Decoder (Nat × ValType) := do
  return (← unsigned 32, ← valType)

/-- The locals that groups of a count and a type stand for. -/
def expand (groups : List (Nat × ValType)) : List ValType :=
  groups.flatMap (fun (count, type) => List.replicate count type)

/-- The locals, then code up to a final `end`. -/
def bodyContent : Decoder Body := do
  let groups ← vector localGroup
  let code ← remaining
  if code.getLast? = some Instr.endByte then return ⟨expand groups, code.dropLast⟩ else failure

def segment : Decoder Segment := do
  expect 0x00
  let (type, offset) ← constant
  let data ← chunk
  if type = .i32 then return ⟨(Int32.ofInt offset).toUInt32, data⟩ else failure

/-! ## Entries are read back -/

theorem reads_valType {v : ValType} (h : v ≠ .invalid) : Reads valType [v.byte] v := by
  refine (Reads.byte v.byte).bind_pure ?_
  cases v with
  | invalid => exact absurd rfl h
  | _ => exact .pure

end Decoder

/-- Every value type in the signature exists. -/
def FuncType.Proper (ft : FuncType) : Prop := ∀ v ∈ ft.params ++ ft.results, v ≠ .invalid

/-- The initial value has the width of the type. -/
def Global.Proper (g : Global) : Prop :=
  g.type = .i32 ∧ -2 ^ 31 ≤ g.value.toInt ∧ g.value.toInt < 2 ^ 31 ∨ g.type = .i64

def Body.Proper (body : Body) : Prop := body.locals.length < 2 ^ 32 ∧ ∀ v ∈ body.locals, v ≠ .invalid

theorem ExternKind.byte_ofByte (b : UInt8) : (ofByte b).byte = b := by
  unfold ofByte
  cases hfound : [function, memory, global].find? (fun kind => kind.byte == b) with
  | none => rfl
  | some kind =>
    have hbyte := List.find?_some hfound
    exact eq_of_beq hbyte

def Export.Proper (e : Export) : Prop := e.index < 2 ^ 32 ∧ ∃ b : UInt8, b < 4 ∧ e.kind = ExternKind.ofByte b

namespace Decoder

variable {v : Int} {locals : List ValType} {group : Nat × ValType} {type : ValType}

theorem reads_valTypes {types : List ValType}
    (hsize : (counted (types.map (fun v => [v.byte]))).length < 2 ^ 32)
    (h : ∀ v ∈ types, v ≠ .invalid) :
    Reads (vector valType) (counted (types.map (fun v => [v.byte]))) types :=
  reads_vector hsize (fun _ _ => List.cons_ne_nil _ _) (fun v hv _ => reads_valType (h v hv))

theorem reads_funcType {ft : FuncType} (hsize : ft.encode.length < 2 ^ 32) (h : ft.Proper) :
    Reads funcType ft.encode ft := by
  simp only [FuncType.encode, List.length_cons, List.length_append] at hsize
  have hparams : Reads (vector valType) _ ft.params :=
    reads_valTypes (by omega) (fun v hv => h v (List.mem_append_left _ hv))
  have hresults : Reads (vector valType) _ ft.results :=
    reads_valTypes (by omega) (fun v hv => h v (List.mem_append_right _ hv))
  exact (Reads.expect 0x60).bind (hparams.bind (hresults.bind_pure .pure))

theorem reads_importEntry {i : Import} (hsize : i.encode.length < 2 ^ 32)
    (h : i.signature < 2 ^ 32) : Reads importEntry i.encode i := by
  simp only [Import.encode, nameBytes, List.length_append] at hsize
  have hmodule : Reads name (nameBytes i.module) i.module := reads_name (by omega)
  have hfield : Reads name (nameBytes i.name) i.name := reads_name (by omega)
  rw [Import.encode, List.append_assoc]
  exact hmodule.bind (hfield.bind ((Reads.expect 0x00).bind ((reads_unsigned h).bind_pure .pure)))

theorem reads_limits (l : Limits) :
    Reads limits l.encode (l.min.toNat, if 0 < l.max then some l.max.toNat else none) := by
  rw [Limits.encode]
  split
  · exact (Reads.byte 0x01).bind ((reads_unsigned l.min.toNat_lt).bind
      ((reads_unsigned l.max.toNat_lt).bind_pure .pure))
  · exact (Reads.byte 0x00).bind ((reads_unsigned l.min.toNat_lt).bind_pure .pure)

theorem reads_constantOf {bits : Nat} (hbits : 0 < bits)
    (hmin : -((2 ^ (bits - 1) : Nat) : Int) ≤ v) (hmax : v < (2 ^ (bits - 1) : Nat)) :
    Reads (constantOf type bits) (Leb128.signed v ++ [Instr.endByte]) (type, v) :=
  (reads_signed hbits hmin hmax).bind ((Reads.expect _).bind_pure .pure)

theorem reads_constant_i32 (hmin : -2 ^ 31 ≤ v) (hmax : v < 2 ^ 31) :
    Reads constant (0x41 :: (Leb128.signed v ++ [Instr.endByte])) (.i32, v) :=
  (Reads.byte 0x41).bind (reads_constantOf (by decide) hmin hmax)

theorem reads_global {g : Global} (h : g.Proper) : Reads global g.encode g := by
  have hconstant : Reads constant ((if g.type = .i64 then 0x42 else 0x41) ::
      (Leb128.signed g.value.toInt ++ [Instr.endByte])) (g.type, g.value.toInt) := by
    obtain ⟨htype, hmin, hmax⟩ | htype := h
    · rw [htype]
      exact reads_constant_i32 hmin hmax
    · rw [htype]
      exact (Reads.byte 0x42).bind (reads_constantOf (by decide) g.value.le_toInt g.value.toInt_lt)
  have htype : g.type ≠ .invalid := by
    obtain ⟨htype, -⟩ | htype := h <;> rw [htype] <;> decide
  refine (reads_valType htype).bind ((Reads.byte _).bind (hconstant.bind_pure ?_))
  cases hmutable : g.mutable with
  | _ =>
    simp only [Int64.ofInt_toInt]
    cases g
    cases hmutable
    exact .pure

theorem reads_exportEntry {e : Export} (hsize : e.encode.length < 2 ^ 32) (h : e.Proper) :
    Reads exportEntry e.encode e := by
  simp only [Export.encode, nameBytes, List.length_append] at hsize
  obtain ⟨hindex, b, hb, hkind⟩ := h
  have hname : Reads name (nameBytes e.name) e.name := reads_name (by omega)
  refine hname.bind ((Reads.byte e.kind.byte).bind ((reads_unsigned hindex).bind_pure ?_))
  rw [hkind, ExternKind.byte_ofByte, if_pos hb, ← hkind]
  exact .pure

theorem expand_cons {count : Nat} {groups : List (Nat × ValType)} :
    expand ((count, type) :: groups) = List.replicate count type ++ expand groups :=
  List.flatMap_cons

theorem expand_runs : expand (runs locals) = locals := by
  fun_induction runs locals with
  | case1 => rfl
  | case2 rest count w groups hruns ih =>
    rw [expand_cons, List.replicate_succ, List.cons_append, ← expand_cons, ← hruns, ih]
  | case3 v rest count w groups hruns hne ih | case4 v rest hruns ih =>
    rw [expand_cons, ← hruns, ih]
    rfl

theorem replicate_sublist_of_mem_runs {count : Nat} (h : (count, type) ∈ runs locals) :
    (List.replicate count type).Sublist locals := by
  have hmem : List.replicate count type ∈ (runs locals).map (fun (count, type) =>
      List.replicate count type) := List.mem_map_of_mem h
  have hsub := List.sublist_flatten_of_mem hmem
  rwa [← List.flatMap_def, ← expand, expand_runs] at hsub

theorem count_pos_of_mem_runs (h : group ∈ runs locals) : 0 < group.1 := by
  fun_induction runs locals with
  | case1 => cases h
  | case2 rest count w groups hruns ih =>
    obtain rfl | h := List.mem_cons.mp h
    · exact Nat.succ_pos count
    · exact ih (hruns ▸ List.mem_cons_of_mem _ h)
  | case3 v rest count w groups hruns hne ih =>
    obtain rfl | h := List.mem_cons.mp h
    · exact Nat.one_pos
    · exact ih (hruns ▸ h)
  | case4 v rest hruns ih =>
    obtain rfl | h := List.mem_cons.mp h
    · exact Nat.one_pos
    · cases h

theorem reads_localGroup (hlen : locals.length < 2 ^ 32) (h : ∀ v ∈ locals, v ≠ .invalid)
    (hgroup : group ∈ runs locals) :
    Reads localGroup (Leb128.unsigned group.1 ++ [group.2.byte]) group := by
  have hsub := replicate_sublist_of_mem_runs hgroup
  have hcount : group.1 < 2 ^ 32 := by
    have hle := hsub.length_le
    rw [List.length_replicate] at hle
    omega
  have htype : group.2 ∈ locals :=
    hsub.subset (List.mem_replicate.mpr ⟨Nat.ne_of_gt (count_pos_of_mem_runs hgroup), rfl⟩)
  exact (reads_unsigned hcount).bind ((reads_valType (h _ htype)).bind_pure .pure)

theorem bodyContent_encode {body : Body} (hsize : body.encode.length < 2 ^ 32) (h : body.Proper) :
    bodyContent body.encode = some (body, []) := by
  simp only [Body.encode, List.length_append] at hsize
  have hlocals : Reads (vector localGroup) (encodeLocals body.locals) (runs body.locals) := by
    refine reads_vector (Nat.lt_of_le_of_lt ?_ hsize) ?_ (fun group hgroup _ => ?_)
    · rw [encodeLocals]
      omega
    · simp
    · exact reads_localGroup h.1 h.2 hgroup
  rw [Body.encode, List.append_assoc, bodyContent, bind_run (hlocals _)]
  change (if (body.code ++ [Instr.endByte]).getLast? = some Instr.endByte then
    pure ⟨expand (runs body.locals), (body.code ++ [Instr.endByte]).dropLast⟩ else failure :
    Decoder Body) [] = _
  rw [List.getLast?_concat, if_pos rfl, expand_runs, List.dropLast_concat]
  rfl

theorem reads_segment {s : Segment} (hsize : s.encode.length < 2 ^ 32) : Reads segment s.encode s := by
  simp only [Segment.encode, List.length_append] at hsize
  have hoffset := reads_constant_i32 s.offset.toInt32.le_toInt s.offset.toInt32.toInt_lt
  have hdata : Reads chunk _ s.data := reads_chunk (by omega)
  have hbytes : s.encode = [0x00] ++ ((0x41 :: (Leb128.signed s.offset.toInt32.toInt ++
      [Instr.endByte])) ++ (Leb128.unsigned s.data.length ++ s.data)) := by
    simp [Segment.encode]
  rw [hbytes]
  refine (Reads.expect 0x00).bind (hoffset.bind (hdata.bind_pure ?_))
  rw [if_pos rfl, Int32.ofInt_toInt]
  exact .pure

/-! ## Whole modules -/

end Decoder

/-- What a binary module says, apart from the bytes that say it. -/
structure Contents where
  types : List FuncType
  imports : List Import
  functions : List Nat
  memories : List (Nat × Option Nat)
  globals : List Global
  exports : List Export
  start : Option Nat
  bodies : List Body
  segments : List Segment
  deriving DecidableEq, Repr

/-- The sections in their order; there is a body for each function. -/
def Decoder.contents : Decoder Contents := do
  literal header
  let types ← itemsOf 1 funcType
  let imports ← itemsOf 2 importEntry
  let functions ← itemsOf 3 (unsigned 32)
  let memories ← sectionOf 5 (vector limits)
  let globals ← itemsOf 6 global
  let exports ← itemsOf 7 exportEntry
  let start ← sectionOf 8 (unsigned 32)
  let bodies ← itemsOf 10 (sized bodyContent)
  let segments ← itemsOf 11 segment
  if functions.length = bodies.length then
    return ⟨types, imports, functions, memories.getD [], globals, exports, start, bodies, segments⟩
  else failure

/-- Reads a binary module, all of whose bytes have to belong to it. -/
def decode (bytes : List UInt8) : Option Contents :=
  match Decoder.contents bytes with
  | some (contents, []) => some contents
  | _ => none

end TreeWasm.Wasm
