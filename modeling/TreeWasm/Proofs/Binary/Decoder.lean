import Mathlib.Algebra.Group.Int.Defs
import Mathlib.Algebra.Group.Nat.Defs
import TreeWasm.Text.Utf8
import TreeWasm.Wasm.Module

/-! # Decoders

A decoder takes a value off the front of a byte string. `Decoder.Reads` says that it takes exactly the
given bytes, whatever follows them; decoders that are put together read bytes that are put together.

The integers, vectors and names here follow the binary grammar of WebAssembly: an integer has a width,
and an encoding that does not fit it is refused.
-/

namespace TreeWasm.Wasm

abbrev Decoder := StateT (List UInt8) Option

namespace Decoder

variable {α β : Type} {items : List (List UInt8)} {bytes rest : List UInt8} {bits n : Nat}
  {id id' : UInt8} {a : α} {encode : α → List UInt8}

def byte : Decoder UInt8
  | [] => none
  | b :: rest => some (b, rest)

def expect (b : UInt8) : Decoder Unit := do
  if (← byte) = b then return () else failure

/-- Bytes that have to be there as they are. -/
def literal : List UInt8 → Decoder Unit
  | [] => return ()
  | b :: rest => do
    expect b
    literal rest

def take (count : Nat) : Decoder (List UInt8) := fun bytes =>
  if count ≤ bytes.length then some (bytes.take count, bytes.drop count) else none

/-- All bytes that are left. -/
def remaining : Decoder (List UInt8) := fun bytes => some (bytes, [])

/-- An unsigned integer of the given width in groups of seven bits. -/
def unsigned (bits : Nat) : Decoder Nat
  | [] => none
  | b :: rest =>
    if b < 128 then if b.toNat < 2 ^ bits then some (b.toNat, rest) else none
    else if 7 < bits then
      match unsigned (bits - 7) rest with
      | some (high, rest) => some (128 * high + (b.toNat - 128), rest)
      | none => none
    else none

/-- A signed integer of the given width in groups of seven bits, the last one with the sign. -/
def signed (bits : Nat) : Decoder Int
  | [] => none
  | b :: rest =>
    if b < 64 then if b.toNat < 2 ^ (bits - 1) then some (b.toNat, rest) else none
    else if b < 128 then
      if 128 ≤ b.toNat + 2 ^ (bits - 1) then some ((b.toNat : Int) - 128, rest) else none
    else if 7 < bits then
      match signed (bits - 7) rest with
      | some (high, rest) => some (128 * high + (b.toNat - 128 : Nat), rest)
      | none => none
    else none

def repeated (item : Decoder α) : (count : Nat) → Decoder (List α)
  | 0 => return []
  | count + 1 => do
    let first ← item
    return first :: (← repeated item count)

/-- A number of items with their count in front. -/
def vector (item : Decoder α) : Decoder (List α) := do
  repeated item (← unsigned 32)

/-- Bytes with their number in front. -/
def chunk : Decoder (List UInt8) := do
  take (← unsigned 32)

/-- A text in UTF-8. -/
def name : Decoder String := do
  match String.fromUTF8? ⟨(← chunk).toArray⟩ with
  | some text => return text
  | none => failure

/-- Content with its size in front, which it has to fill. -/
def sized (content : Decoder α) : Decoder α := do
  match content (← chunk) with
  | some (a, []) => return a
  | _ => failure

/-- A section that may be missing. -/
def sectionOf (id : UInt8) (content : Decoder α) : Decoder (Option α)
  | [] => some (none, [])
  | b :: rest =>
    if b = id then ((sized content) rest).map (fun (a, rest) => (some a, rest))
    else some (none, b :: rest)

/-- A section with a vector; none has no items. -/
def itemsOf (id : UInt8) (item : Decoder α) : Decoder (List α) := do
  return (← sectionOf id (vector item)).getD []

/-! ## What decoders read -/

/-- The decoder takes exactly these bytes, whatever follows, and gives the value. -/
def Reads (p : Decoder α) (bytes : List UInt8) (a : α) : Prop := ∀ rest, p (bytes ++ rest) = some (a, rest)

theorem bind_run {p : Decoder α} {f : α → Decoder β} (h : p bytes = some (a, rest)) :
    (p >>= f) bytes = f a rest := by
  change (p bytes).bind (fun (a, rest) => f a rest) = f a rest
  rw [h]
  rfl

namespace Reads

variable {p : Decoder α} {bytes more : List UInt8} {a : α} {b : β}

theorem pure {a : α} : Reads (Pure.pure a) [] a := fun _ => rfl

theorem bind {f : α → Decoder β} (hp : p.Reads bytes a) (hf : (f a).Reads more b) :
    Reads (p >>= f) (bytes ++ more) b := by
  intro rest
  rw [List.append_assoc, bind_run (hp (more ++ rest))]
  exact hf rest

theorem bind_pure {f : α → Decoder β} (hp : p.Reads bytes a) (hf : (f a).Reads [] b) :
    Reads (p >>= f) bytes b := by
  have h := hp.bind hf
  rwa [List.append_nil] at h

theorem byte (c : UInt8) : Reads byte [c] c := fun _ => rfl

theorem expect (c : UInt8) : Reads (expect c) [c] () := by
  refine (byte c).bind_pure ?_
  rw [if_pos rfl]
  exact pure

theorem literal (bytes : List UInt8) : Reads (literal bytes) bytes () := by
  induction bytes with
  | nil => exact pure
  | cons c rest ih => exact (expect c).bind ih

theorem take (bytes : List UInt8) : Reads (take bytes.length) bytes bytes := by
  intro rest
  simp [Decoder.take]

theorem repeated {γ : Type} {item : Decoder γ} {encode : γ → List UInt8} (items : List γ)
    (h : ∀ x ∈ items, item.Reads (encode x) x) :
    Reads (repeated item items.length) (items.map encode).flatten items := by
  induction items with
  | nil => exact pure
  | cons x items ih =>
    rw [List.map_cons, List.flatten_cons]
    refine (h x (.head _)).bind (bind_pure (ih (fun y hy => ?_)) pure)
    exact h y (.tail _ hy)

end Reads

@[simp] theorem unsigned_ne_nil : Leb128.unsigned n ≠ [] := by
  rw [Leb128.unsigned]
  split <;> exact List.cons_ne_nil _ _

theorem toNat_toUInt8 (h : n < 256) : n.toUInt8.toNat = n := by
  simp [Nat.mod_eq_of_lt h]

theorem toUInt8_lt_iff (h : n < 256) (c : UInt8) : n.toUInt8 < c ↔ n < c.toNat := by
  rw [UInt8.lt_iff_toNat_lt, toNat_toUInt8 h]

theorem two_pow_eq_mul {k : Nat} (h : k ≤ bits) : 2 ^ bits = 2 ^ (bits - k) * 2 ^ k := by
  rw [← Nat.pow_add, Nat.sub_add_cancel h]

/-- Every number of a width is read back from its shortest encoding. -/
theorem reads_unsigned (h : n < 2 ^ bits) : Reads (unsigned bits) (Leb128.unsigned n) n := by
  intro rest
  induction n using Nat.strongRecOn generalizing bits with
  | ind n ih =>
    rw [Leb128.unsigned]
    split
    next hsmall =>
      have hlast : n.toUInt8 < 128 := (toUInt8_lt_iff (by omega) 128).mpr hsmall
      rw [List.singleton_append, unsigned, if_pos hlast, toNat_toUInt8 (by omega), if_pos h]
    next hlarge =>
      have hlow : n % 128 + 128 < 256 := by omega
      have hmore : ¬ (n % 128 + 128).toUInt8 < 128 := fun hlt =>
        absurd ((toUInt8_lt_iff hlow 128).mp hlt) (Nat.not_lt.mpr (Nat.le_add_left 128 _))
      have hbits : 7 < bits := by
        apply Nat.lt_of_not_le
        intro hle
        have hpow : 2 ^ bits ≤ 2 ^ 7 := Nat.pow_le_pow_right (by decide) hle
        omega
      have hhigh : n / 128 < 2 ^ (bits - 7) := by
        have hpow := two_pow_eq_mul (Nat.le_of_lt hbits)
        omega
      rw [List.cons_append, unsigned, if_neg hmore, if_pos hbits, ih (n / 128) (by omega) hhigh]
      simp only [toNat_toUInt8 hlow, Option.some.injEq, Prod.mk.injEq, and_true]
      omega

/-- Every integer of a width is read back from its shortest encoding. -/
theorem reads_signed {v : Int} (hbits : 0 < bits) (hmin : -((2 ^ (bits - 1) : Nat) : Int) ≤ v)
    (hmax : v < (2 ^ (bits - 1) : Nat)) : Reads (signed bits) (Leb128.signed v) v := by
  intro rest
  induction hn : v.natAbs using Nat.strongRecOn generalizing bits v with
  | ind n ih =>
    have hpos : 0 < 2 ^ (bits - 1) := Nat.two_pow_pos (bits - 1)
    rw [Leb128.signed]
    have hlow : (v % 128).toNat < 128 := by omega
    have hlast := toUInt8_lt_iff (show (v % 128).toNat < 256 by omega)
    split
    next hdone =>
      rw [List.singleton_append, signed, toNat_toUInt8 (by omega)]
      obtain ⟨hrest, hsmall⟩ | ⟨hrest, hlarge⟩ := hdone
      · rw [if_pos ((hlast 64).mpr hsmall), if_pos (by omega)]
        simp only [Option.some.injEq, Prod.mk.injEq, and_true]
        omega
      · rw [if_neg (fun hlt => absurd ((hlast 64).mp hlt) (Nat.not_lt.mpr hlarge)),
          if_pos ((hlast 128).mpr hlow), if_pos (by omega)]
        simp only [Option.some.injEq, Prod.mk.injEq, and_true]
        omega
    next hopen =>
      have hcontinued : (v % 128).toNat + 128 < 256 := by omega
      have hmore (c : UInt8) (hc : c.toNat ≤ 128) : ¬ ((v % 128).toNat + 128).toUInt8 < c := by
        rw [toUInt8_lt_iff hcontinued]
        omega
      -- in seven bits the value would have been written in one byte
      have hwide : 7 < bits := by
        apply Nat.lt_of_not_le
        intro hle
        have hpow : 2 ^ (bits - 1) ≤ 2 ^ 6 := Nat.pow_le_pow_right (by decide) (by omega)
        omega
      have hpow := two_pow_eq_mul (show 7 ≤ bits - 1 by omega)
      rw [Nat.sub_right_comm] at hpow
      rw [List.cons_append, signed, if_neg (hmore 64 (by decide)), if_neg (hmore 128 (by decide)),
        if_pos hwide, ih (v / 128).natAbs (by omega) (by omega) (by omega) (by omega) rfl]
      simp only [toNat_toUInt8 hcontinued, Option.some.injEq, Prod.mk.injEq, and_true]
      omega

theorem length_le_length_flatten (h : ∀ x ∈ items, x ≠ []) : items.length ≤ items.flatten.length := by
  induction items with
  | nil => exact Nat.le_refl 0
  | cons x items ih =>
    have hx := List.length_pos_iff.mpr (h x (.head _))
    have hrest := ih (fun y hy => h y (.tail _ hy))
    rw [List.length_cons, List.flatten_cons, List.length_append]
    omega

theorem length_le_length_counted {x : List UInt8} (h : x ∈ items) : x.length ≤ (counted items).length := by
  have hx := (List.sublist_flatten_of_mem h).length_le
  rw [counted, List.length_append]
  omega

/-- The size of a sequence bounds the number of its items. -/
theorem length_lt_of_counted {items : List α} {bound : Nat}
    (hsize : (counted (items.map encode)).length < bound) (hne : ∀ x ∈ items, encode x ≠ []) :
    items.length < bound := by
  have hle : (items.map encode).length ≤ (items.map encode).flatten.length :=
    length_le_length_flatten (by simpa using hne)
  rw [counted, List.length_append] at hsize
  rw [List.length_map] at hle
  omega

/-- A vector is read item by item. It is enough to know its size: that bounds the number of items
and the size of each. -/
theorem reads_vector {item : Decoder α} {items : List α}
    (hsize : (counted (items.map encode)).length < 2 ^ 32) (hne : ∀ x ∈ items, encode x ≠ [])
    (h : ∀ x ∈ items, (encode x).length < 2 ^ 32 → item.Reads (encode x) x) :
    Reads (vector item) (counted (items.map encode)) items := by
  rw [counted, List.length_map]
  refine (reads_unsigned (length_lt_of_counted hsize hne)).bind (.repeated items (fun x hx => h x hx ?_))
  exact Nat.lt_of_le_of_lt (length_le_length_counted (List.mem_map_of_mem hx)) hsize

theorem reads_chunk (hlen : bytes.length < 2 ^ 32) :
    Reads chunk (Leb128.unsigned bytes.length ++ bytes) bytes :=
  (reads_unsigned hlen).bind (.take bytes)

theorem reads_sized {content : Decoder α} (hlen : bytes.length < 2 ^ 32)
    (h : content bytes = some (a, [])) :
    Reads (sized content) (Leb128.unsigned bytes.length ++ bytes) a := by
  refine (reads_chunk hlen).bind_pure ?_
  rw [h]
  exact .pure

theorem toList_loop (bytes : ByteArray) (i : Nat) (taken : List UInt8) :
    ByteArray.toList.loop bytes i taken = taken.reverse ++ bytes.data.toList.drop i := by
  fun_induction ByteArray.toList.loop bytes i taken with
  | case1 i taken hlt ih =>
    have hlen : i < bytes.data.toList.length := by simpa using hlt
    have hnext : bytes.get! i = bytes.data.toList[i] := by
      simp [ByteArray.get!, getElem!_pos, hlt]
    rw [ih, List.reverse_cons, List.append_assoc, List.drop_eq_getElem_cons hlen, hnext]
    rfl
  | case2 i taken hge =>
    rw [List.drop_eq_nil_of_le (by simpa using hge), List.append_nil]

theorem bytes_eq (text : String) : Text.bytes text = text.toByteArray.data.toList := by
  rw [Text.bytes, ByteArray.toList, toList_loop]
  rfl

theorem fromUTF8?_bytes (text : String) : String.fromUTF8? ⟨(Text.bytes text).toArray⟩ = some text := by
  have hbytes : (⟨(Text.bytes text).toArray⟩ : ByteArray) = text.toUTF8 := by
    rw [bytes_eq]
    rfl
  rw [hbytes, String.fromUTF8?]
  exact dif_pos text.isValidUTF8

theorem reads_name {text : String} (hlen : (Text.bytes text).length < 2 ^ 32) :
    Reads name (nameBytes text) text := by
  refine (reads_chunk hlen).bind_pure ?_
  rw [fromUTF8?_bytes]
  exact .pure

/-! ## Optional sections -/

/-- The next section, if there is one, comes later in the order of sections. -/
def OpensAbove (id : UInt8) (bytes : List UInt8) : Prop := ∀ b ∈ bytes.head?, id < b

theorem OpensAbove.mono (h : OpensAbove id' bytes) (hle : id ≤ id') : OpensAbove id bytes :=
  fun b hb => UInt8.lt_of_le_of_lt hle (h b hb)

theorem OpensAbove.section (hlt : id < id') {content : List UInt8} :
    OpensAbove id (sectionBytes id' content ++ rest) := by
  intro b hb
  cases hb
  exact hlt

theorem sectionOf_absent {content : Decoder α} (h : OpensAbove id bytes) :
    sectionOf id content bytes = some (none, bytes) := by
  cases bytes with
  | nil => rfl
  | cons b rest => exact if_neg (UInt8.ne_of_lt (h b rfl)).symm

theorem sectionOf_present {content : Decoder α} (hlen : bytes.length < 2 ^ 32)
    (h : content bytes = some (a, [])) :
    sectionOf id content (sectionBytes id bytes ++ rest) = some (some a, rest) := by
  rw [sectionBytes, List.cons_append, sectionOf, if_pos rfl, reads_sized hlen h rest]
  rfl

theorem Reads.whole {p : Decoder α} (h : p.Reads bytes a) : p bytes = some (a, []) := by
  have h := h []
  rwa [List.append_nil] at h

/-- A section with items, which is left out when there are none. -/
theorem itemsOf_listSection {item : Decoder α} {items : List α} (hnext : OpensAbove id rest)
    (hsize : (counted (items.map encode)).length < 2 ^ 32)
    (h : Reads (vector item) (counted (items.map encode)) items) :
    itemsOf id item (listSection id (items.map encode) ++ rest) = some (items, rest) := by
  unfold listSection itemsOf
  cases items with
  | nil =>
    rw [List.map_nil, List.isEmpty_nil, if_pos rfl, List.nil_append, bind_run (sectionOf_absent hnext)]
    rfl
  | cons x items =>
    have hpresent : ((x :: items).map encode).isEmpty = false := rfl
    rw [hpresent, if_neg Bool.false_ne_true, bind_run (sectionOf_present hsize h.whole)]
    rfl

theorem sectionOf_elim {content : Decoder β} {value : α → β} {entry : Option α}
    (hnext : OpensAbove id rest) (hsize : (entry.elim [] encode).length < 2 ^ 32)
    (h : ∀ a ∈ entry, content.Reads (encode a) (value a)) :
    sectionOf id content (entry.elim [] (fun a => sectionBytes id (encode a)) ++ rest) =
      some (entry.map value, rest) := by
  cases entry with
  | none => exact sectionOf_absent hnext
  | some a => exact sectionOf_present hsize (h a rfl).whole

theorem OpensAbove.listSection (h : OpensAbove id' rest) (hlt : id < id')
    (items : List (List UInt8)) : OpensAbove id (listSection id' items ++ rest) := by
  unfold Wasm.listSection
  split
  · exact h.mono (UInt8.le_of_lt hlt)
  · exact .section hlt

theorem OpensAbove.elim (h : OpensAbove id' rest) (hlt : id < id') (entry : Option α)
    (encode : α → List UInt8) :
    OpensAbove id (entry.elim [] (fun a => sectionBytes id' (encode a)) ++ rest) := by
  cases entry with
  | none => exact h.mono (UInt8.le_of_lt hlt)
  | some a => exact .section hlt

end Decoder

end TreeWasm.Wasm
