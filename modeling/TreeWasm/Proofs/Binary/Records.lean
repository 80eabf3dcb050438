import TreeWasm.Proofs.Binary.Integers
import TreeWasm.Wasm.Sections

/-! # Records of a binary module

The sections that are read from bytes are those of a sequence of records, one after the other up to
the last byte, and other bytes are refused.
-/

namespace TreeWasm.Wasm

/-- A record as it is written: its id, the size of its content in at most five bytes, and the content. -/
structure Record where
  id : UInt8
  size : List UInt8
  content : List UInt8
  closed : Leb128.Closed size
  short : size.length ≤ 5
  value_size : Leb128.value size % 2 ^ 32 = content.length

namespace Record

def bytes (r : Record) : List UInt8 := r.id :: (r.size ++ r.content)

def sequence (records : List Record) : List UInt8 := (records.map bytes).flatten

/-- The sections of records, the first of which starts at `pos`, each other one where the one before it
ends. -/
def sections (pos : Nat) : List Record → List Section
  | [] => []
  | r :: rest =>
    ⟨r.id, pos + 1 + r.size.length, r.content.length⟩ :: sections (pos + r.bytes.length) rest

end Record

/-- The bytes that a section covers. -/
def Section.content (bytes : List UInt8) (s : Section) : List UInt8 := (bytes.drop s.offset).take s.size

/-- Each section covers the content of its record. -/
theorem Record.contents_sections (front : List UInt8) (records : List Record) :
    (sections front.length records).map (Section.content (front ++ sequence records)) = records.map content ∧
      ∀ s ∈ sections front.length records, s.offset + s.size ≤ (front ++ sequence records).length := by
  induction records generalizing front with
  | nil => exact ⟨rfl, nofun⟩
  | cons r records ih =>
    have hbytes : front ++ sequence (r :: records) = front ++ r.bytes ++ sequence records := by
      simp [sequence]
    have hrecord : front ++ r.bytes ++ sequence records =
        (front ++ r.id :: r.size) ++ (r.content ++ sequence records) := by simp [bytes]
    have hoffset : front.length + 1 + r.size.length = (front ++ r.id :: r.size).length := by
      simp only [List.length_append, List.length_cons]
      omega
    obtain ⟨hcontents, hwithin⟩ := ih (front ++ r.bytes)
    rw [List.length_append] at hcontents hwithin
    rw [hbytes, sections, List.map_cons, List.map_cons, List.forall_mem_cons]
    refine ⟨List.cons_eq_cons.mpr ⟨?_, hcontents⟩, ?_, hwithin⟩
    · rw [Section.content, hrecord, hoffset, List.drop_left, List.take_left]
    · rw [hrecord, hoffset]
      simp only [List.length_append]
      omega

namespace Section

variable {pos : Nat} {bytes : List UInt8} {sections : List Section}

theorem readFrom_sequence {records : List Record} :
    readFrom pos (Record.sequence records) = .ok (Record.sections pos records) := by
  induction records generalizing pos with
  | nil => rw [Record.sequence, List.map_nil, List.flatten_nil, readFrom, Record.sections]
  | cons r records ih =>
    have hbytes : Record.sequence (r :: records) =
        r.id :: (r.size ++ (r.content ++ Record.sequence records)) := by
      simp [Record.sequence, Record.bytes]
    have hnext : pos + 1 + r.size.length + r.content.length = pos + r.bytes.length := by
      simp only [Record.bytes, List.length_cons, List.length_append]
      omega
    rw [hbytes, readFrom, Leb128.read_append r.closed r.short]
    simp only [r.value_size, List.drop_left, List.length_append, Nat.le_add_right, if_true, hnext, ih,
      Record.sections]

theorem sequence_of_readFrom (h : readFrom pos bytes = .ok sections) :
    ∃ records, bytes = Record.sequence records ∧ sections = Record.sections pos records := by
  fun_induction readFrom pos bytes generalizing sections with
  | case1 pos =>
    cases h
    exact ⟨[], rfl, rfl⟩
  | case2 | case4 | case5 => cases h
  | case3 pos id rest size used hread content hsize start tail htail =>
    rename_i ih
    cases h
    obtain ⟨records, hrecords, rfl⟩ := ih htail
    obtain ⟨field, left, rfl, hclosed, hshort, hvalue, rfl⟩ := Leb128.closed_of_read hread
    have hcontent : content = left := List.drop_left
    have hlen : (left.take size).length = size := List.length_take_of_le (hcontent ▸ hsize)
    let r : Record := ⟨id, field, left.take size, hclosed, hshort, hvalue.trans hlen.symm⟩
    rw [hcontent] at hrecords
    refine ⟨r :: records, ?_, ?_⟩
    · rw [Record.sequence, List.map_cons, List.flatten_cons, ← Record.sequence, ← hrecords]
      simp [r, Record.bytes]
    · have hnext : start + size = pos + r.bytes.length := by
        simp only [start, r, Record.bytes, List.length_cons, List.length_append, hlen]
        omega
      rw [Record.sections, hlen, hnext]

/-- The reader of sections accepts a header and a sequence of records, and gives back the section of
each record. -/
theorem readAll_eq_ok_iff (bytes : List UInt8) (sections : List Section) :
    readAll bytes = .ok sections ↔ ∃ version records, version.length = 4 ∧
      bytes = [0x00, 0x61, 0x73, 0x6D] ++ version ++ Record.sequence records ∧
      sections = Record.sections 8 records ∧
      sections.map (content bytes) = records.map Record.content ∧
      ∀ s ∈ sections, s.offset + s.size ≤ bytes.length := by
  constructor
  · intro h
    unfold readAll at h
    split at h
    next hheader =>
      obtain ⟨records, hrecords, rfl⟩ := sequence_of_readFrom h
      have hbytes : bytes = bytes.take 8 ++ Record.sequence records := by
        rw [← hrecords, List.take_append_drop]
      have hfront : (bytes.take 8).length = 8 := List.length_take_of_le hheader.1
      have hsections := Record.contents_sections (bytes.take 8) records
      rw [hfront, ← hbytes] at hsections
      refine ⟨(bytes.drop 4).take 4, records, by simp; omega, ?_, rfl, hsections⟩
      rw [← hheader.2, ← List.take_add, ← hbytes]
    · cases h
  · rintro ⟨version, records, hversion, rfl, rfl, -⟩
    have hfront : ([0x00, 0x61, 0x73, 0x6D] ++ version).length = 8 := by simp [hversion]
    rw [readAll, if_pos ⟨by rw [List.length_append, hfront]; omega, rfl⟩, List.drop_left' hfront]
    exact readFrom_sequence

end Section

end TreeWasm.Wasm
