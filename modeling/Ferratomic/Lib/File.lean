import Ferratomic.Lib.Bytes

/-!
# Files

An open file is its bytes and the position of its cursor. Reading and writing start at the cursor
and move it, a write behind the end fills the gap with zeros, and cutting the file leaves the
cursor where it is. The rule `write_of_atEnd` says that a file whose cursor is at its end is
appended to, and `atEnd_write` that it stays there.
-/

namespace Ferratomic.Lib

/-- An open file. -/
@[ext]
structure File where
  bytes : Bytes
  cursor : Nat

namespace File

/-- The cursor is at the end of the file. -/
def AtEnd (file : File) : Prop :=
  file.cursor = file.bytes.length

/-- `seek` from the start. -/
def seekStart (file : File) (pos : Nat) : File :=
  { file with cursor := pos }

/-- `seek` to the end. -/
def seekEnd (file : File) : File :=
  { file with cursor := file.bytes.length }

/-- `read_to_end`: the bytes behind the cursor. -/
def readToEnd (file : File) : Bytes × File :=
  (file.bytes.drop file.cursor, { file with cursor := max file.cursor file.bytes.length })

/-- A read that stops after some bytes. -/
def readUpTo (file : File) (count : Nat) : File :=
  { file with cursor := file.cursor + min count (file.bytes.length - file.cursor) }

/-- `write`: the data replaces the bytes at the cursor. Writing nothing does nothing. -/
def write (file : File) (data : Bytes) : File :=
  if data.isEmpty then file
  else
    ⟨file.bytes.take file.cursor ++ List.replicate (file.cursor - file.bytes.length) 0 ++ data ++
      file.bytes.drop (file.cursor + data.length), file.cursor + data.length⟩

/-- `set_len`: cut the file, or fill it up with zeros. -/
def setLen (file : File) (length : Nat) : File :=
  { file with
    bytes := file.bytes.take length ++ List.replicate (length - file.bytes.length) 0 }

example : write ⟨[1, 2, 3], 1⟩ [7] = ⟨[1, 7, 3], 2⟩ := rfl

example : write ⟨[1], 3⟩ [7, 8] = ⟨[1, 0, 0, 7, 8], 5⟩ := rfl

/-- From the start, the whole file is read, and its end is reached. -/
theorem readToEnd_seekStart (file : File) :
    (file.seekStart 0).readToEnd = (file.bytes, file.seekEnd) := by
  simp only [readToEnd, seekStart, seekEnd, List.drop_zero, Nat.zero_max]

/-- A write at the end appends the data. -/
theorem write_of_atEnd {file : File} (h : file.AtEnd) (data : Bytes) :
    file.write data = ⟨file.bytes ++ data, file.bytes.length + data.length⟩ := by
  obtain ⟨bytes, cursor⟩ := file
  obtain rfl : cursor = bytes.length := h
  unfold write
  split
  case isTrue hnone =>
      rw [List.isEmpty_iff.mp hnone, List.append_nil]
      rfl
  case isFalse =>
      show File.mk (bytes.take bytes.length ++ List.replicate (bytes.length - bytes.length) 0 ++
        data ++ bytes.drop (bytes.length + data.length)) _ = _
      rw [List.take_length, Nat.sub_self, List.replicate_zero, List.append_nil,
        List.drop_eq_nil_of_le (Nat.le_add_right _ _), List.append_nil]

/-- A write at the end leaves the cursor at the end. -/
theorem atEnd_write {file : File} (h : file.AtEnd) (data : Bytes) : (file.write data).AtEnd := by
  rw [write_of_atEnd h, AtEnd, List.length_append]

/-- Cutting a file keeps its first bytes. -/
theorem bytes_setLen {file : File} {length : Nat} (h : length ≤ file.bytes.length) :
    (file.setLen length).bytes = file.bytes.take length := by
  show file.bytes.take length ++ List.replicate (length - file.bytes.length) 0 = _
  rw [Nat.sub_eq_zero_of_le h, List.replicate_zero, List.append_nil]

end File

end Ferratomic.Lib
