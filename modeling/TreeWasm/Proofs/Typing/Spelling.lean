import TreeWasm.Program.Reader
import TreeWasm.Proofs.Steps
import TreeWasm.Proofs.Typing.Kinds
import TreeWasm.Proofs.Typing.Tidy

/-! # Types that are spelled

Whatever a spelling looks like, the type that is read from it is made of types that have names. So the
type is whole if these are, and it holds no aggregate but theirs.
-/

namespace TreeWasm.Spelling

/-- The type is made of types that have names. -/
inductive MadeOf (known : List UInt8 → Option Ty) : Ty → Prop
  | name {name t} : known name = some t → MadeOf known t
  | nothing : MadeOf known .void
  | pointer {t} : MadeOf known t → MadeOf known (.pointer 0 t)
  | array {length t} : MadeOf known t → MadeOf known (.array 0 length t)
  | function {params t} : (∀ param ∈ params, MadeOf known param) → MadeOf known t →
      MadeOf known (.function 0 params t)

variable {known : List UInt8 → Option Ty} {declared : Level Ty} {t : Ty} {text : String}

mutual

theorem madeOf_of_readType (fuel : Nat) {s rest : List UInt8} {t : Ty}
    (h : readType known fuel s = .ok (t, rest)) : MadeOf known t := by
  match fuel with
  | 0 => cases h
  | fuel + 1 =>
    rw [readType] at h
    split at h
    · obtain ⟨⟨elem, rest⟩, helem, ⟨⟩⟩ := Except.exists_of_bind h
      exact .pointer (madeOf_of_readType fuel helem)
    · split at h
      · split at h
        · obtain ⟨⟨elem, rest⟩, helem, ⟨⟩⟩ := Except.exists_of_bind h
          exact .array (madeOf_of_readType fuel helem)
        · obtain ⟨length, -, h⟩ := Except.exists_of_bind h
          obtain ⟨_, -, h⟩ := Except.exists_of_bind h
          obtain ⟨⟨elem, rest⟩, helem, ⟨⟩⟩ := Except.exists_of_bind h
          exact .array (madeOf_of_readType fuel helem)
      · dsimp only at h
        split at h
        · cases h
        · split at h
          · obtain ⟨after, -, h⟩ := Except.exists_of_bind h
            have hresult (params : List Ty) (after : List UInt8) (hparams : ∀ param ∈ params, MadeOf known param)
                (h : (match accept ':' after with
                  | some rest => do
                    let (result, rest) ← readType known fuel rest
                    return (Ty.function 0 params result, rest)
                  | none => return (Ty.function 0 params Ty.void, after)) = .ok (t, rest)) :
                MadeOf known t := by
              split at h
              · obtain ⟨⟨result, rest⟩, hresult, ⟨⟩⟩ := Except.exists_of_bind h
                exact .function hparams (madeOf_of_readType fuel hresult)
              · cases h
                exact .function hparams .nothing
            split at h
            · exact hresult [] _ nofun h
            · obtain ⟨⟨params, after⟩, hparams, h⟩ := Except.exists_of_bind h
              exact hresult params after (madeOf_of_readParams fuel hparams) h
          · split at h
            next hknown =>
              cases h
              exact .name hknown
            · cases h

theorem madeOf_of_readParams (fuel : Nat) {s rest : List UInt8} {types : List Ty}
    (h : readParams known fuel s = .ok (types, rest)) : ∀ t ∈ types, MadeOf known t := by
  match fuel with
  | 0 => cases h
  | fuel + 1 =>
    rw [readParams] at h
    obtain ⟨⟨t, rest⟩, ht, h⟩ := Except.exists_of_bind h
    have ht := madeOf_of_readType fuel ht
    dsimp only at h
    split at h
    · cases h
      exact List.forall_mem_singleton.mpr ht
    · obtain ⟨_, -, h⟩ := Except.exists_of_bind h
      obtain ⟨⟨types, rest⟩, htypes, ⟨⟩⟩ := Except.exists_of_bind h
      exact List.forall_mem_cons.mpr ⟨ht, madeOf_of_readParams fuel htypes⟩

end

theorem madeOf_of_read (h : read declared text = .ok t) : MadeOf (knownType declared) t := by
  obtain ⟨⟨t', rest⟩, hread, h⟩ := Except.exists_of_bind h
  dsimp only at h
  split at h
  · cases h
    exact madeOf_of_readType _ hread
  · cases h

theorem MadeOf.isWhole (hknown : ∀ name t, known name = some t → t.isWhole) (h : MadeOf known t) :
    t.isWhole := by
  induction h with
  | name h => exact hknown _ _ h
  | nothing => rfl
  | pointer _ ih | array _ ih => exact ih
  | function _ _ ihs ih =>
    rw [Ty.isWhole, Bool.and_eq_true, Ty.areWhole_iff]
    exact ⟨ihs, ih⟩

/-- A name stands for a builtin type or is declared. -/
theorem of_knownType {name : List UInt8} (h : knownType declared name = some t) :
    (∃ b, t = .builtin b) ∨ ∃ binding ∈ declared.bindings, binding.2 = t := by
  unfold knownType at h
  split at h
  · cases h
    exact .inl ⟨_, rfl⟩
  · obtain ⟨binding, hfind, rfl⟩ := Option.map_eq_some_iff.mp h
    exact .inr ⟨binding, List.mem_of_find?_eq_some hfind, rfl⟩

/-- A type that is read is whole if the declared ones are. -/
theorem isWhole_of_read (h : ∀ binding ∈ declared.bindings, binding.2.isWhole)
    (ht : read declared text = .ok t) : t.isWhole := by
  refine (madeOf_of_read ht).isWhole (fun name t hname => ?_)
  obtain ⟨b, rfl⟩ | ⟨binding, hbinding, rfl⟩ := of_knownType hname
  · rfl
  · exact h binding hbinding

/-- The type is, but for its occurrences, one that can be read where the names are declared. -/
def Names (declared : Level Ty) (t : Ty) : Prop :=
  ∃ text u, read declared text = .ok u ∧ ∀ strip, t.form strip = u.form strip

end TreeWasm.Spelling

namespace TreeWasm.TypeTable

mutual

theorem renumber_spec (table : TypeTable) : (t : Ty) → t.isWhole →
    (table.renumber t).2.isWhole ∧ (∀ strip, (table.renumber t).2.form strip = t.form strip) ∧
      (table.renumber t).1.aggregates = table.aggregates
  | .builtin _, _ | .aggregate _, _ => ⟨rfl, fun _ => rfl, rfl⟩
  | .pointer _ elem, h => by
    obtain ⟨hwhole, hform, haggregates⟩ := table.renumber_spec elem h
    exact ⟨hwhole, fun _ => congrArg (Ty.pointer 0) (hform true), haggregates⟩
  | .array _ length elem, h => by
    obtain ⟨hwhole, hform, haggregates⟩ := table.renumber_spec elem h
    exact ⟨hwhole, fun _ => congrArg (Ty.array 0 length) (hform false), haggregates⟩
  | .function _ params result, h => by
    rw [Ty.isWhole, Bool.and_eq_true] at h
    obtain ⟨hparams, hforms, haggregates⟩ := table.renumberAll_spec params h.1
    obtain ⟨hresult, hform, haggregates'⟩ := (table.renumberAll params).1.renumber_spec result h.2
    have hwritten := Ty.isAbsent_of_isWhole hresult
    refine ⟨?_, fun _ => ?_, haggregates'.trans haggregates⟩
    · simp [renumber, functionFrom, Ty.isWhole, hwritten, hparams, hresult]
    · simp [renumber, functionFrom, Ty.form, hwritten, hforms, hform]

theorem renumberAll_spec (table : TypeTable) : (types : List Ty) → Ty.areWhole types →
    Ty.areWhole (table.renumberAll types).2 ∧ Ty.forms (table.renumberAll types).2 = Ty.forms types ∧
      (table.renumberAll types).1.aggregates = table.aggregates
  | [], _ => ⟨rfl, rfl, rfl⟩
  | t :: rest, h => by
    rw [Ty.areWhole, Bool.and_eq_true] at h
    obtain ⟨ht, hform, haggregates⟩ := table.renumber_spec t h.1
    obtain ⟨hrest, hforms, haggregates'⟩ := (table.renumber t).1.renumberAll_spec rest h.2
    refine ⟨?_, ?_, haggregates'.trans haggregates⟩
    · rw [renumberAll, Ty.areWhole, Bool.and_eq_true]
      exact ⟨ht, hrest⟩
    · rw [renumberAll, Ty.forms, Ty.forms, hform, hforms]

end

end TreeWasm.TypeTable
