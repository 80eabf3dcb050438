import Mathlib.Data.List.Sort
import TreeWasm.Proofs.Lowering.Growth

/-! # Source marks

The marks of a module come from the code of its functions. Each is noted as an offset in the code of
one function while functions are emitted in an order of their own, and later counted from the start of
the encoded module. They are in order there, and each stays inside the code it was noted for.
-/

namespace TreeWasm

open Wasm

namespace Wasm

namespace Piece

variable {offset : Nat} {last : Option (Nat × Position)} {pieces : List Piece}

/-- Marks lie inside the code, and have a line. -/
theorem inside_marksFrom : ∀ mark ∈ marksFrom offset last pieces,
    offset ≤ mark.1 ∧ mark.1 ≤ offset + (pieces.flatMap code).length ∧ mark.2.line ≠ 0 := by
  fun_induction marksFrom offset last pieces <;> grind [code]

theorem pairwise_marksFrom : (marksFrom offset last pieces).Pairwise (fun a b => a.1 ≤ b.1) := by
  fun_induction marksFrom offset last pieces with
  | case1 => exact .nil
  | case2 _ _ _ _ ih | case3 _ _ _ _ _ ih => exact ih
  | case4 _ _ _ _ _ ih => exact .cons (fun mark hmark => (inside_marksFrom mark hmark).1) ih

/-- No mark repeats the one before it. -/
theorem isChain_marksFrom (offset : Nat) (last : Option (Nat × Position)) (pieces : List Piece) :
    (last.toList ++ marksFrom offset last pieces).IsChain (· ≠ ·) := by
  fun_induction marksFrom offset last pieces with
  | case1 offset last => cases last <;> simp
  | case2 _ _ _ _ ih | case3 _ _ _ _ _ ih => exact ih
  | case4 offset last pos rest hnew ih =>
    cases last with
    | none => exact ih
    | some mark => exact .cons_cons (fun hsame => hnew (.inr (congrArg some hsame))) ih

end Piece

/-- The marks of code that starts at an offset. -/
def Instr.marksAt (start : Nat) (code : List Instr) : List (Nat × Position) :=
  (marks code).map (fun (offset, pos) => (start + offset, pos))

namespace Module

/-- The marks of bodies that are written one after the other are in order. -/
theorem pairwise_marksAt {bodies : List Body} {codes : List (List Instr)} (offset : Nat)
    (h : bodies.map Body.code = codes.map Instr.encode) :
    let marks := (List.zipWith Instr.marksAt (firstInstructions offset bodies) codes).flatten
    marks.Pairwise (fun a b => a.1 ≤ b.1) ∧ ∀ mark ∈ marks, offset ≤ mark.1 := by
  induction codes generalizing bodies offset with
  | nil => simp
  | cons code codes ih =>
    obtain ⟨body, bodies, rfl, hcode, hcodes⟩ := List.map_eq_cons_iff.mp h
    obtain ⟨hrest, hafter⟩ := ih (offset + (Leb128.unsigned body.encode.length).length +
      body.encode.length) hcodes
    have hsize : body.encode.length = (encodeLocals body.locals).length + (Instr.encode code).length + 1 := by
      simp [Body.encode, hcode, Nat.add_assoc]
    have hinside (mark : Nat × Position) (hmark : mark ∈ Instr.marksAt (offset +
        (Leb128.unsigned body.encode.length).length + (encodeLocals body.locals).length) code) :
        offset ≤ mark.1 ∧ mark.1 ≤ offset + (Leb128.unsigned body.encode.length).length + body.encode.length := by
      obtain ⟨own, hown, rfl⟩ := List.mem_map.mp hmark
      obtain ⟨-, hle, -⟩ := Piece.inside_marksFrom own hown
      rw [Nat.zero_add] at hle
      change own.1 ≤ (Instr.encode code).length at hle
      dsimp only
      omega
    dsimp only [firstInstructions, List.zipWith_cons_cons, List.flatten_cons]
    rw [List.pairwise_append, List.forall_mem_append]
    refine ⟨⟨?_, hrest, ?_⟩, ?_, ?_⟩
    · exact List.pairwise_map.mpr (Piece.pairwise_marksFrom.imp (Nat.add_le_add_left · _))
    · exact fun a ha b hb => Nat.le_trans (hinside a ha).2 (hafter b hb)
    · exact fun mark hmark => (hinside mark hmark).1
    · intro mark hmark
      have hlow := hafter mark hmark
      omega

end Module

end Wasm

/-! ## The notes -/

/-- The note of a function that has code, with its marks if they are wanted. -/
def BodyMarks.note (on : Bool) (entry : Option Code × Nat) : Option BodyMarks :=
  entry.1.map (fun code => ⟨entry.2, if on then Instr.marks code else []⟩)

/-- Notes made in any order are sorted by their functions. -/
theorem BodyMarks.mergeSort_eq {bodies notes : List BodyMarks} (h : bodies.Perm notes)
    (hless : notes.Pairwise (fun a b => a.index < b.index)) :
    bodies.mergeSort (fun a b => a.index ≤ b.index) = notes := by
  have hperm := (List.mergeSort_perm bodies (fun a b => a.index ≤ b.index)).trans h
  refine hperm.eq_of_pairwise (fun a b ha hb hab hba => ?_) (List.pairwise_mergeSort ?_ ?_ bodies) ?_
  · have hnodup : (notes.map BodyMarks.index).Nodup := List.pairwise_map.mpr (hless.imp Nat.ne_of_lt)
    refine List.inj_on_of_nodup_map hnodup (hperm.subset ha) hb ?_
    exact Nat.le_antisymm (of_decide_eq_true hab) (of_decide_eq_true hba)
  · simp only [decide_eq_true_eq]
    exact fun a b c => Nat.le_trans
  · simp [Nat.le_total]
  · exact hless.imp (fun hlt => decide_eq_true (Nat.le_of_lt hlt))

theorem exists_map_some {α β : Type} {f : α → β} {given : List (Option α)} (found : List β)
    (h : given.map (Option.map f) = found.map some) :
    ∃ all : List α, given = all.map some ∧ found = all.map f := by
  induction given generalizing found with
  | nil => exact ⟨[], rfl, by simpa using h.symm⟩
  | cons first rest ih =>
    obtain ⟨b, others, rfl, hfirst, hrest⟩ := List.map_eq_cons_iff.mp h.symm
    obtain ⟨all, rfl, rfl⟩ := ih others hrest.symm
    obtain ⟨a, rfl, rfl⟩ := Option.map_eq_some_iff.mp hfirst.symm
    exact ⟨a :: all, rfl, rfl⟩

namespace ModuleState

/-- The functions that have code are noted, in the order in which they got it. -/
def Noted (on : Bool) (st : ModuleState) : Prop :=
  ∃ codes : List (Option Code),
    st.module.functions.map (fun f => f.body.map Body.code) = codes.map (Option.map Instr.encode) ∧
    st.bodies.Perm ((codes.zipIdx st.module.imports.length).filterMap (BodyMarks.note on))

variable {on : Bool} {st st' : ModuleState} {index : Nat} {body : Body} {code : Code}

theorem noted_of_none (hbodies : st.bodies = []) (h : ∀ f ∈ st.module.functions, f.body = none) : st.Noted on := by
  refine ⟨st.module.functions.map (fun _ => none), ?_, ?_⟩
  · rw [List.map_map]
    exact List.map_congr_left (fun f hf => by rw [h f hf]; rfl)
  · rw [hbodies, List.filterMap_eq_nil_iff.mpr]
    intro entry hentry
    obtain ⟨f, -, hnone⟩ := List.mem_map.mp (List.fst_mem_of_mem_zipIdx hentry)
    rw [BodyMarks.note, ← hnone]
    rfl

theorem Noted.declare (h : st.Noted on) (ft : FuncType) : Noted on { st with module := (st.module.declare ft).1 } := by
  obtain ⟨codes, hcodes, hbodies⟩ := h
  refine ⟨codes ++ [none], ?_, ?_⟩
  · rw [List.map_append, ← hcodes]
    exact List.map_append
  · dsimp only
    rw [(st.module.enlarges_declare ft).imports, List.zipIdx_append, List.filterMap_append]
    exact hbodies.trans (.of_eq (List.append_nil _).symm)

/-- A function gets its code. -/
theorem Noted.define (h : st.Noted on) (hdefine : st.module.define index body = .ok st'.module)
    (hcode : body.code = Instr.encode code)
    (hbodies : st'.bodies = st.bodies ++ [⟨index, if on then Instr.marks code else []⟩]) : st'.Noted on := by
  obtain ⟨codes, hcodes, hperm⟩ := h
  obtain ⟨f, hf, hnone, hindex, hmodule⟩ := Module.define_eq_ok hdefine
  obtain ⟨i, rfl⟩ := Nat.exists_eq_add_of_le hindex
  rw [Nat.add_sub_cancel_left] at hf hmodule
  have hopen : codes[i]? = some none := by
    have hsame := congrArg (·[i]?) hcodes.symm
    simpa [hf, hnone] using hsame
  obtain ⟨hlt, hget⟩ := List.getElem?_eq_some_iff.mp hopen
  have hsplit : codes = codes.take i ++ none :: codes.drop (i + 1) := by
    rw [← hget, List.getElem_cons_drop, List.take_append_drop]
  refine ⟨codes.set i (some code), ?_, ?_⟩
  · rw [hmodule, List.map_set, List.map_set, hcodes, Option.map_some, Option.map_some, hcode]
  · rw [hmodule, hbodies, List.set_eq_take_append_cons_drop, if_pos hlt]
    rw [hsplit] at hperm
    simp only [List.zipIdx_append, List.zipIdx_cons, List.filterMap_append, List.filterMap_cons, BodyMarks.note,
      Option.map_none, Option.map_some, List.length_take, Nat.min_eq_left (Nat.le_of_lt hlt)] at hperm ⊢
    exact (List.perm_append_singleton _ _).trans ((hperm.cons _).trans List.perm_middle.symm)

/-- When all functions have code, their marks come in the order of the functions. -/
theorem Noted.absoluteMarks {bodies : List Body} {e : Encoded} (h : st.Noted true)
    (hbodies : st.module.functions.map Function.body = bodies.map some)
    (hlen : e.bodyOffsets.length = bodies.length) :
    ∃ codes : List Code, bodies.map Body.code = codes.map Instr.encode ∧
      TreeWasm.absoluteMarks st.module e st.bodies =
        (List.zipWith Instr.marksAt e.bodyOffsets codes).flatten := by
  obtain ⟨codes, hcodes, hperm⟩ := h
  have hbytes := congrArg (List.map (Option.map Body.code)) hbodies
  rw [List.map_map, List.map_map] at hbytes
  obtain ⟨codes, rfl, hown⟩ := exists_map_some (bodies.map Body.code)
    (hcodes.symm.trans (hbytes.trans (List.map_map (g := some)).symm))
  have hnotes : ((codes.map some).zipIdx st.module.imports.length).filterMap (BodyMarks.note true) =
      (codes.zipIdx st.module.imports.length).map (fun entry => ⟨entry.2, Instr.marks entry.1⟩) := by
    rw [List.zipIdx_map, List.filterMap_map, ← List.filterMap_eq_map]
    rfl
  have hindices := List.zipIdx_map_snd st.module.imports.length codes
  refine ⟨codes, hown, ?_⟩
  rw [TreeWasm.absoluteMarks, BodyMarks.mergeSort_eq (hnotes ▸ hperm), List.flatMap_map, List.flatMap_def]
  · refine congrArg List.flatten (List.ext_getElem ?_ (fun i hi hi' => ?_))
    · have hsame := congrArg List.length hown
      simp at hsame ⊢
      omega
    · simp at hi' ⊢
      rw [List.getElem?_eq_getElem hi'.1]
      rfl
  · exact List.pairwise_map.mpr (List.pairwise_map.mp (hindices ▸ List.pairwise_lt_range'))

end ModuleState

end TreeWasm
