import Mathlib.Data.List.Pairwise
import TreeWasm.Proofs.Lowering.Program
import TreeWasm.Proofs.Storage.Phases

/-! # Static storage does not overlap

When the variables of a module fit the addresses of 32 bits, each has a range of memory of its own,
above the addresses that stay unused and below the end of the declared memory. Data goes into the
range of one variable, and an exported variable shows the start of its range.

When they do not fit, addresses wrap: a variable may come to lie at address 0.
-/

namespace TreeWasm

open Wasm

variable {c : Cell} {start x : Int64} {vars : List Variable} {s : LowerState} {first n : Nat}

/-! ## Extents -/

/-- The range of addresses of a variable. -/
structure Extent where
  name : String
  start : Nat
  size : Nat
  deriving DecidableEq, Repr

namespace Extent

def Disjoint (a b : Extent) : Prop := a.start + a.size ≤ b.start ∨ b.start + b.size ≤ a.start

/-- The range lies among the addresses of 32 bits. -/
def InBounds (e : Extent) : Prop := e.start < 2 ^ 32 ∧ e.start + e.size ≤ 2 ^ 32

instance (e : Extent) : Decidable e.InBounds := inferInstanceAs (Decidable (_ ∧ _))

/-- A range of bytes inside of the extent. -/
def Holds (e : Extent) (offset length : Nat) : Prop := e.start ≤ offset ∧ offset + length ≤ e.start + e.size

/-- Ranges for variables that follow one another, counted without bound. -/
def place (start : Nat) : List Variable → List Extent
  | [] => []
  | v :: rest => ⟨v.name, start, v.layout.bytes⟩ :: place (start + v.layout.bytes) rest

theorem le_start_of_mem_place {start : Nat} {vars : List Variable} {e : Extent}
    (h : e ∈ place start vars) : start ≤ e.start := by
  induction vars generalizing start with
  | nil => cases h
  | cons v rest ih =>
    obtain rfl | h := List.mem_cons.mp h
    · exact Nat.le_refl _
    · have := ih h
      omega

theorem pairwise_place (start : Nat) (vars : List Variable) : (place start vars).Pairwise Disjoint := by
  induction vars generalizing start with
  | nil => exact List.Pairwise.nil
  | cons v rest ih => exact List.pairwise_cons.mpr ⟨fun e he => .inl (le_start_of_mem_place he), ih _⟩

instance : Std.Symm Disjoint := ⟨fun _ _ => Or.symm⟩

theorem eq_of_holds {extents : List Extent} (h : extents.Pairwise Disjoint) {a b : Extent}
    (ha : a ∈ extents) (hb : b ∈ extents) {offset length : Nat} (hlen : 0 < length)
    (hola : a.Holds offset length) (holb : b.Holds offset length) : a = b := by
  by_contra hne
  have hdisjoint := h.forall ha hb hne
  unfold Holds at hola holb
  unfold Disjoint at hdisjoint
  omega

end Extent

/-! ## Addresses and pages -/

theorem toNat_toBitVec_of_toInt (h : x.toInt = n) : x.toBitVec.toNat = n := by
  have hcond : x.toInt = _ := BitVec.toInt_eq_toNat_cond x.toBitVec
  have hlt := x.toBitVec.isLt
  split at hcond <;> omega

theorem toInt_of_toNat_toBitVec (h : x.toBitVec.toNat = n) (hn : n < 2 ^ 63) : x.toInt = n := by
  have hcond : x.toInt = _ := BitVec.toInt_eq_toNat_cond x.toBitVec
  rw [hcond, if_pos (by omega), h]

section

variable (h : x.toInt = n)
include h

/-- An address is cut to 32 bits where a variable is named. -/
theorem toNat_toInt32_of_toInt : x.toInt32.toUInt32.toNat = n % 2 ^ 32 := by
  have hbits := toNat_toBitVec_of_toInt h
  change x.toInt32.toBitVec.toNat = _
  rw [toBitVec_toInt32, BitVec.toNat_setWidth, hbits]

theorem toNat_toUInt32_of_toInt : x.toUInt64.toUInt32.toNat = n % 2 ^ 32 := by
  rw [UInt64.toNat_toUInt32]
  change x.toBitVec.toNat % 2 ^ 32 = _
  rw [toNat_toBitVec_of_toInt h]

theorem toInt_alignUp_pageSize (hn : n ≤ 2 ^ 32) :
    (alignUp x pageSize).toInt = ((n + 65535) / 65536 * 65536 : Nat) := by
  have hpage : (pageSize - 1).toInt = (65535 : Nat) := rfl
  have hsum : (x + pageSize - 1).toBitVec.toNat = n + 65535 := by
    rw [Int64.sub_eq_add_neg, Int64.add_assoc, ← Int64.sub_eq_add_neg]
    exact toNat_toBitVec_of_toInt (Layout.toInt_add_of_lt h hpage (by omega))
  -- the mask clears the low 16 bits, as does a shift there and back
  have hmask : (~~~(pageSize - 1)).toBitVec = BitVec.allOnes 64 <<< 16 := by decide
  unfold alignUp
  rw [if_neg (by decide)]
  apply toInt_of_toNat_toBitVec
  · rw [Int64.toBitVec_and, hmask, ← BitVec.shiftLeft_ushiftRight, BitVec.toNat_shiftLeft,
      BitVec.toNat_ushiftRight, hsum, Nat.shiftLeft_eq, Nat.shiftRight_eq_div_pow]
    omega
  · omega

theorem toNat_pagesFor (hn : n ≤ 2 ^ 32) : (Build.pagesFor x).toNat = max 1 ((n + 65535) / 65536) := by
  have hquotient : (alignUp x pageSize / pageSize).toInt = ((n + 65535) / 65536 : Nat) := by
    have hpage : pageSize.toInt = (65536 : Nat) := rfl
    rw [Int64.toInt_div, toInt_alignUp_pageSize h hn, hpage, ← Int.ofNat_tdiv,
      Nat.mul_div_cancel _ (by decide), Int.bmod_eq_of_le] <;> omega
  have hpages : (alignUp x pageSize / pageSize).toUInt64.toUInt32.toNat = (n + 65535) / 65536 := by
    rw [toNat_toUInt32_of_toInt hquotient]
    omega
  unfold Build.pagesFor
  dsimp only
  split
  next hzero =>
    rw [hzero, UInt32.toNat_zero] at hpages
    rw [← hpages]
    rfl
  next hnonzero =>
    have hpos : (n + 65535) / 65536 ≠ 0 := by
      intro h0
      apply hnonzero
      rw [← UInt32.toNat_inj, hpages, h0]
      rfl
    omega

end

/-! ## Where the variables are -/

/-- The address that a name stands for, if it names a variable in static memory. -/
def LowerState.address? (s : LowerState) (name : String) : Option Nat :=
  match s.names.lookup name with
  | some (.variable (.data _ addr offset)) =>
    addr.constant?.map (fun c => (c.int + offset).toInt32.toUInt32.toNat)
  | _ => none

theorem Stores.address? (h : Stores vars s) (hc : c ∈ Cell.place StaticMemory.base vars) :
    s.address? c.name = some c.start.toInt32.toUInt32.toNat := by
  obtain ⟨pos, hfound⟩ := h.bound c hc
  obtain ⟨addr, hstorage, hconstant⟩ := c.constant?_storage h.pointer
  rw [LowerState.address?, Chain.lookup_of_tail_eq_nil h.outer, hfound, hstorage]
  dsimp only
  rw [hconstant]
  simp

/-- The extent is the range of the variable: where its name points, as long as its value. -/
structure Variable.Occupies (s : LowerState) (v : Variable) (e : Extent) : Prop where
  name : e.name = v.name
  size : e.size = v.layout.bytes
  start : s.address? v.name = some e.start

/-- The variables lie in the extents, and the extents are storage of the module: they do not overlap,
leave the first addresses alone and end within the memory. Data goes into the extent of one variable,
and an exported variable shows where its extent starts. -/
structure SoundStorage (vars : List Variable) (extents : List Extent) (st : ModuleState) : Prop where
  occupied : List.Forall₂ (Variable.Occupies st.lower) vars extents
  disjoint : extents.Pairwise Extent.Disjoint
  above : ∀ e ∈ extents, 8 ≤ e.start
  reserved : ∀ e ∈ extents, 0 < e.size → st.module.memory ≠ none
  within : ∀ limits, st.module.memory = some limits → limits.min.toNat ≤ 65536 ∧
    ∀ e ∈ extents, e.start + e.size ≤ limits.min.toNat * 65536
  data : ∀ seg ∈ st.module.segments, ∃! e, e ∈ extents ∧ e.Holds seg.offset.toNat seg.data.length
  exported : ∀ x ∈ st.module.exports, x.kind = .global → ∃ e ∈ extents, e.name = x.name ∧
    ∃ g, st.module.globals[x.index]? = some g ∧ g.value.toInt32.toUInt32.toNat = e.start

/-- The cell lies where the extent says. -/
structure Cell.Spans (c : Cell) (e : Extent) : Prop where
  name : c.name = e.name
  start : c.start.toInt = e.start
  size : c.layout.size.toInt = e.size
  bytes : c.layout.bytes = e.size

/-- Cells are where their extents are counted to be, as long as these stay in bounds. -/
theorem Cell.place_spans (hmeasured : ∀ v ∈ vars, v.layout.Measured)
    (hcounted : ∀ v ∈ vars, v.layout.Counted) (hstart : start.toInt = first)
    (hle : first ≤ 2 ^ 32) (hfits : ∀ e ∈ Extent.place first vars, e.InBounds) :
    List.Forall₂ Cell.Spans (Cell.place start vars) (Extent.place first vars) ∧
      ∃ last, (Cell.finish start vars).toInt = (last : Nat) ∧ first ≤ last ∧ last ≤ 2 ^ 32 ∧
        ∀ e ∈ Extent.place first vars, e.start + e.size ≤ last := by
  induction vars generalizing start first with
  | nil => exact ⟨.nil, first, hstart, Nat.le_refl _, hle, by simp [Extent.place]⟩
  | cons v rest ih =>
    have hbounds := hfits _ (.head _)
    have hbytes : v.layout.bytes < 2 ^ 63 := by
      have := hbounds.2
      dsimp only at this
      omega
    have hsize := hmeasured v (.head _) (hcounted v (.head _)) hbytes
    have hnext := Layout.toInt_add_of_lt hstart hsize (by have := hbounds.2; dsimp only at this; omega)
    obtain ⟨hspans, last, hlast, hfrom, hlastle, hends⟩ := ih
      (fun w hw => hmeasured w (.tail _ hw))
      (fun w hw => hcounted w (.tail _ hw)) hnext hbounds.2
      (fun e he => hfits e (.tail _ he))
    refine ⟨.cons ⟨rfl, hstart, hsize, rfl⟩ hspans, last, hlast, by omega, hlastle, ?_⟩
    intro e he
    obtain rfl | he := List.mem_cons.mp he
    · exact hfrom
    · exact hends e he

theorem Cell.Spans.offset {e : Extent} (h : c.Spans e) (he : e.InBounds) :
    c.start.toInt32.toUInt32.toNat = e.start ∧ c.offset.toNat = e.start := by
  have hmod : e.start % 2 ^ 32 = e.start := Nat.mod_eq_of_lt he.1
  rw [Cell.offset, toNat_toInt32_of_toInt h.start, toNat_toUInt32_of_toInt h.start, hmod]
  exact ⟨rfl, rfl⟩

theorem Variable.occupies_place
    (hspans : List.Forall₂ Cell.Spans (Cell.place start vars) (Extent.place first vars))
    (hfits : ∀ e ∈ Extent.place first vars, e.InBounds)
    (haddress : ∀ c ∈ Cell.place start vars, s.address? c.name = some c.start.toInt32.toUInt32.toNat) :
    List.Forall₂ (Variable.Occupies s) vars (Extent.place first vars) := by
  induction vars generalizing start first with
  | nil => exact .nil
  | cons v rest ih =>
    obtain ⟨hspan, hrest⟩ := List.forall₂_cons.mp hspans
    refine .cons ⟨rfl, rfl, ?_⟩ (ih hrest (fun e he => hfits e (.tail _ he))
      (fun c hc => haddress c (.tail _ hc)))
    rw [haddress ⟨v, start⟩ (.head _), (hspan.offset (hfits _ (.head _))).1]

/-- Cells that occupy storage above the unused addresses and within 32 bits are where they are counted
to be. The induction goes along the variables: as long as no address has wrapped, the next one starts
where it is counted to start, or wraps to 0, which is below the unused addresses. -/
theorem Variable.inBounds_of_occupies {extents : List Extent}
    (hmeasured : ∀ v ∈ vars, v.layout.Measured) (hcounted : ∀ v ∈ vars, v.layout.Counted)
    (hstart : start.toInt = first) (hle : first ≤ 2 ^ 32)
    (haddress : ∀ c ∈ Cell.place start vars, s.address? c.name = some c.start.toInt32.toUInt32.toNat)
    (hoccupied : List.Forall₂ (Variable.Occupies s) vars extents)
    (habove : ∀ e ∈ extents, 8 ≤ e.start)
    (hends : ∀ e ∈ extents, 0 < e.size → e.start + e.size ≤ 2 ^ 32) :
    ∀ e ∈ Extent.place first vars, e.InBounds := by
  induction hoccupied generalizing start first with
  | nil => simp [Extent.place]
  | @cons v e rest extents hoccupies hrest ih =>
    have hwhere := hoccupies.start
    rw [haddress ⟨v, start⟩ (.head _), Option.some_inj, toNat_toInt32_of_toInt hstart] at hwhere
    have hlow := habove e (.head _)
    have hend := hends e (.head _)
    have hsize := hoccupies.size
    have hfirst : e.start = first ∧ first < 2 ^ 32 := by omega
    have hbytes := hmeasured v (.head _) (hcounted v (.head _)) (by omega)
    have hnext := Layout.toInt_add_of_lt hstart hbytes (by omega)
    intro e' he'
    obtain rfl | he' := List.mem_cons.mp he'
    · refine ⟨hfirst.2, ?_⟩
      dsimp only
      omega
    · exact ih (fun w hw => hmeasured w (.tail _ hw))
        (fun w hw => hcounted w (.tail _ hw)) hnext (by omega)
        (fun c hc => haddress c (.tail _ hc))
        (fun x hx => habove x (.tail _ hx))
        (fun x hx => hends x (.tail _ hx)) e' he'

namespace SoundStorage

variable {vars : List Variable} {extents : List Extent} {st : ModuleState}

theorem inBounds (h : SoundStorage vars extents st) (harranged : Build.Arranged vars st)
    (hmeasured : ∀ v ∈ vars, v.layout.Measured) (hcounted : ∀ v ∈ vars, v.layout.Counted) :
    ∀ e ∈ Extent.place 8 vars, e.InBounds := by
  have hbase : StaticMemory.base.toInt = (8 : Nat) := rfl
  refine Variable.inBounds_of_occupies hmeasured hcounted hbase (by decide)
    (fun c hc => harranged.stores.address? hc) h.occupied h.above (fun e he hsize => ?_)
  obtain ⟨limits, hmemory⟩ := Option.ne_none_iff_exists'.mp (h.reserved e he hsize)
  have hlimits := h.within limits hmemory
  have hend := hlimits.2 e he
  omega

theorem of_inBounds (harranged : Build.Arranged vars st)
    (hmeasured : ∀ v ∈ vars, v.layout.Measured) (hcounted : ∀ v ∈ vars, v.layout.Counted)
    (hfits : ∀ e ∈ Extent.place 8 vars, e.InBounds) :
    SoundStorage vars (Extent.place 8 vars) st := by
  have hbase : StaticMemory.base.toInt = (8 : Nat) := rfl
  obtain ⟨hspans, last, hlast, hfirst, hle, hends⟩ :=
    Cell.place_spans hmeasured hcounted hbase (by decide) hfits
  rw [← harranged.stores.next] at hlast
  have hdisjoint := Extent.pairwise_place 8 vars
  -- the extent of each cell
  have hextent (c : Cell) (hc : c ∈ Cell.place StaticMemory.base vars) :
      ∃ e ∈ Extent.place 8 vars, c.Spans e := by
    obtain ⟨i, hi⟩ := List.mem_iff_getElem?.mp hc
    obtain ⟨e, he, hspan⟩ := exists_of_forall₂ hspans hi
    exact ⟨e, List.mem_of_getElem? he, hspan⟩
  constructor
  case occupied =>
    exact Variable.occupies_place hspans hfits (fun c hc => harranged.stores.address? hc)
  case disjoint => exact hdisjoint
  case above => exact fun e he => Extent.le_start_of_mem_place he
  case reserved =>
    intro e he hsize hnone
    obtain ⟨hunused, -, -⟩ | ⟨limit, hmemory, -⟩ := harranged.memory
    · have hnext : ¬ st.lower.static.next > StaticMemory.base := by
        simpa [StaticMemory.isUsed] using hunused
      have hend := hends e he
      have hstart := Extent.le_start_of_mem_place he
      rw [gt_iff_lt, Int64.lt_iff_toInt_lt, hlast, hbase] at hnext
      omega
    · rw [hmemory] at hnone
      cases hnone
  case within =>
    intro limits hlimits
    obtain ⟨-, hnone, -⟩ | ⟨limit, hmemory, -⟩ := harranged.memory
    · rw [hnone] at hlimits
      cases hlimits
    · rw [hmemory, Option.some_inj] at hlimits
      have hpages := toNat_pagesFor hlast hle
      rw [← hlimits]
      rw [hpages]
      refine ⟨by omega, fun e he => ?_⟩
      have hend := hends e he
      omega
  case data =>
    intro seg hseg
    obtain ⟨-, -, hnone⟩ | ⟨limit, -, hsegments⟩ := harranged.memory
    · rw [hnone] at hseg
      cases hseg
    · rw [hsegments] at hseg
      obtain ⟨c, hc, hoffset, hdata, hlen⟩ := harranged.stores.segments seg hseg
      obtain ⟨e, he, hspan⟩ := hextent c hc
      have hholds : e.Holds seg.offset.toNat seg.data.length := by
        rw [hoffset, (hspan.offset (hfits e he)).2, hlen, hspan.size]
        exact ⟨Nat.le_refl _, Nat.le_refl _⟩
      refine ⟨e, ⟨he, hholds⟩, ?_⟩
      rintro e' ⟨he', hholds'⟩
      exact Extent.eq_of_holds hdisjoint he' he (List.length_pos_iff.mpr hdata) hholds' hholds
  case exported =>
    intro x hx hkind
    obtain ⟨c, hc, hname, hglobal⟩ := harranged.exported x hx hkind
    obtain ⟨e, he, hspan⟩ := hextent c hc
    refine ⟨e, he, hspan.name.symm.trans hname, _, hglobal, ?_⟩
    rw [Int32.toInt32_toInt64]
    exact (hspan.offset (hfits e he)).1

end SoundStorage

/-! ## Compiled programs -/

theorem measured_variablesOf {table : TypeTable} {decls : List Tree}
    (h : variablesOf table.layout decls = .ok vars) : ∀ v ∈ vars, v.layout.Measured := by
  induction decls generalizing vars with
  | nil =>
    cases h
    simp
  | cons decl rest ih =>
    cases decl with
    | varDecl info name declared init =>
      obtain ⟨l, hlayout, h⟩ := Except.exists_of_bind h
      obtain ⟨more, hmore, h⟩ := Except.exists_of_bind h
      cases h
      intro v hv
      obtain rfl | hv := List.mem_cons.mp hv
      · exact Layout.measured_ofTypeWith (fun _ _ => Layout.measured_ofAggregate) hlayout
      · exact ih hmore v hv
    | _ => exact ih h

namespace Program

/-- The variables of a program with their layouts. -/
def staticVariables (program : Program) : Except LayoutDefect (List Variable) :=
  match program.root with
  | .module _ _ decls _ => variablesOf program.table.layout decls
  | _ => .ok []

theorem arranged_of_lowered {settings : Settings} {program : Program} {state : ModuleState}
    (h : program.lowered settings = some state) :
    ∃ vars, program.staticVariables = .ok vars ∧ (∀ v ∈ vars, v.layout.Measured) ∧
      Build.Arranged vars state := by
  have hrun := lower_of_lowered h
  unfold lower at hrun
  cases hroot : program.root with
  | module info imports decls exports =>
    rw [hroot] at hrun
    obtain ⟨vars, hvars, harranged⟩ := Build.moduleOf_eq_ok hrun (.start _ rfl)
    dsimp only at hvars
    rw [program.layout_types] at hvars
    refine ⟨vars, ?_, measured_variablesOf hvars, harranged⟩
    rw [staticVariables, hroot]
    exact hvars
  | _ =>
    rw [hroot] at hrun
    cases hrun

/-- The storage of a compiled program is sound exactly if its variables, laid out one after another
from address 8 on, end within the addresses of 32 bits. -/
theorem compile_storage_sound_iff {settings : Settings} {program : Program} {compiled : Compiled}
    (h : (program.compile settings).1 = .ok compiled) :
    ∃ vars state, program.staticVariables = .ok vars ∧ program.lowered settings = some state ∧
      compiled.module = state.module ∧ ((∀ v ∈ vars, v.layout.Counted) →
        ((∃ extents, SoundStorage vars extents state) ↔ ∀ e ∈ Extent.place 8 vars, e.InBounds)) := by
  obtain ⟨state, hlowered, hmodule⟩ := lowered_of_compile h
  obtain ⟨vars, hvars, hmeasured, harranged⟩ := arranged_of_lowered hlowered
  refine ⟨vars, state, hvars, hlowered, hmodule, fun hcounted => ⟨?_, fun hfits => ?_⟩⟩
  · rintro ⟨extents, hsound⟩
    exact hsound.inBounds harranged hmeasured hcounted
  · exact ⟨_, .of_inBounds harranged hmeasured hcounted hfits⟩

/-- A table with its initial bytes, and a counter behind it that is exported. -/
def tally : Program :=
  let table : Ty := .array 0 (some 3) (.builtin .u8)
  let byte (value : Int64) : Tree := .number ⟨.unset, .builtin .u8⟩ value
  ⟨.module ⟨.unset, .void⟩ []
    [.varDecl ⟨.unset, table⟩ "weights" table (.arrayLit ⟨.unset, table⟩ [byte 4, byte 2, byte 1]),
      .varDecl ⟨.unset, .i32⟩ "count" .i32 .missing] ["count"], ⟨#[], 1⟩⟩

theorem compile_storage_sound_tally :
    ∃ compiled vars state, (tally.compile .initial).1 = .ok compiled ∧
      tally.staticVariables = .ok vars ∧ tally.lowered .initial = some state ∧
      compiled.module = state.module ∧ Extent.place 8 vars = [⟨"weights", 8, 3⟩, ⟨"count", 11, 4⟩] ∧
      ∃ extents, SoundStorage vars extents state := by
  have hok : (tally.compile .initial).1.isOk = true := by decide +kernel
  cases hcompiled : (tally.compile .initial).1 with
  | error failure =>
    rw [hcompiled] at hok
    cases hok
  | ok compiled =>
    obtain ⟨vars, state, hvars, hlowered, hmodule, hiff⟩ := compile_storage_sound_iff hcompiled
    cases hvars
    refine ⟨compiled, _, state, rfl, rfl, hlowered, hmodule, rfl, (hiff ?_).mpr ?_⟩
    · simp [Layout.Counted]
    · change ∀ e ∈ [(⟨"weights", 8, 3⟩ : Extent), ⟨"count", 11, 4⟩], e.InBounds
      decide

/-- A variable that takes every address from the first on, and one more. -/
def crowded : String :=
  "exports: [b]\ndecls:\n  - \x7bvar: a, type: '[4294967288]u8'\x7d\n  - \x7bvar: b, type: i32\x7d\n"

/-- No address is left for the second variable: it lies at address 0, and the memory has more pages
than there are addresses for. -/
theorem compile_storage_unsound_crowded :
    ∃ program compiled vars state, accepted? crowded = some program ∧
      (program.compile .initial).1 = .ok compiled ∧ program.staticVariables = .ok vars ∧
      program.lowered .initial = some state ∧ compiled.module = state.module ∧
      state.lower.address? "b" = some 0 ∧ ¬ ∃ extents, SoundStorage vars extents state := by
  have hfacts : (accepted? crowded).any (fun program =>
      (program.compile .initial).1.isOk && (program.lowered .initial).any (fun state =>
        state.lower.address? "b" == some 0 && state.module.memory == some ⟨65537, 0⟩)) = true := by
    decide +kernel
  obtain ⟨program, hprogram, hfacts⟩ := (Option.any_eq_true _ _).mp hfacts
  rw [Bool.and_eq_true] at hfacts
  obtain ⟨hok, hstate⟩ := hfacts
  cases hcompiled : (program.compile .initial).1 with
  | error failure =>
    rw [hcompiled] at hok
    cases hok
  | ok compiled =>
    obtain ⟨state, hlowered, hmodule⟩ := lowered_of_compile hcompiled
    obtain ⟨vars, hvars, -, -⟩ := arranged_of_lowered hlowered
    rw [hlowered, Option.any_some, Bool.and_eq_true, beq_iff_eq, beq_iff_eq] at hstate
    refine ⟨program, compiled, vars, state, hprogram, hcompiled, hvars, hlowered, hmodule, hstate.1, ?_⟩
    rintro ⟨extents, hsound⟩
    exact absurd (hsound.within _ hstate.2).1 (by decide)

end Program

end TreeWasm
