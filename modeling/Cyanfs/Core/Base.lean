/-
# Constants, status codes, checksum and file names

`core/base.h`, `core/core.h` and the first part of `core/internal.h`: the sizes
of the on-disk layout, the arithmetic between byte offsets and extent ids, the
checksum, the fixed-size file name and its normal form.

Offsets and sizes are natural numbers.  Where the C code stores a number in a
narrower field the reduction is written out: `extentFrom` returns a
`cyanfs_extent_id` (32 bits) and `fileIndex` is the assignment to the 30-bit
field `v.file`.
-/

import Cyanfs.Lib.Bytes
import Mathlib.Data.List.TakeWhile

namespace Cyanfs

open Lib

/-- `CYANFS_ERR_*`. -/
inductive Err where
  | inval | noent | exist | busy | nospace | nomem | io
deriving DecidableEq, Repr

/-- `cyanfs_map_type_t`. -/
inductive MapType where
  | nop | submit | requeue
deriving DecidableEq

/-- `CYANFS_SUPER_HEADER_SIZE`. -/
abbrev superHeaderSize : ℕ := 4096

/-- `CYANFS_SUPER_BLOCK_SIZE`: both header slots. -/
abbrev superBlockSize : ℕ := 8192

/-- `CYANFS_SUPER_MAGIC`. -/
abbrev superMagic : ℕ := 0x23032420

/-- `CYANFS_EXTENT_SIZE`. -/
abbrev extentSize : ℕ := 1048576

/-- `CYANFS_EXTENT_COUNT_MAX`. -/
abbrev extentCountMax : ℕ := 1073741824

/-- `CYANFS_EXTENT_INDEX_MAX`. -/
abbrev extentIndexMax : ℕ := 1073741823

/-- `CYANFS_FILE_MAX_SIZE`. -/
abbrev fileMaxSize : ℕ := 1125899906842624

/-- `CYANFS_FILE_ALIGN_SIZE`. -/
abbrev fileAlignSize : ℕ := 4096

/-- `CYANFS_EXTENT_CONTINUOUS`. -/
abbrev extentContinuous : ℕ := 16

/-- `CYANFS_EXTENT_MAX_INFLIGHT`. -/
abbrev extentMaxInflight : ℕ := 256

/-- `CYANFS_SUPER_MAX_FILES`. -/
abbrev superMaxFiles : ℕ := 4096

/-- `CYANFS_SUPER_MAX_INFLIGHT_JOURNAL`. -/
abbrev superMaxInflightJournal : ℕ := 10000

/-- `~(uint64_t)0`, the largest sequence number, file id and version. -/
abbrev u64Max : ℕ := 18446744073709551615

/-- `(cyanfs_extent_id)cyanfs_extent_id_invalid`. -/
abbrev extentIdInvalid : ℕ := 4294967295

/-- `cyanfs_extent_begin`. -/
def extentBegin (id : ℕ) : ℕ := id * extentSize

/-- `cyanfs_extent_from`, a 32-bit id. -/
def extentFrom (off : ℕ) : ℕ := off / extentSize % 4294967296

/-- Assignment to the 30-bit field `v.file` of `struct cyanfs_extent`. -/
def fileIndex (id : ℕ) : ℕ := id % extentCountMax

/-- `cyanfs_map_extent_offset`: where byte `fOff` of a file lies on the disk
when its extent is bound to `b`. -/
def mapExtentOffset (b fOff : ℕ) : ℕ := superBlockSize + extentBegin b + fOff % extentSize

/-- `cyanfs_map_extent_space`: how much of `[fOff, fOff + len)` lies in the
first extent. -/
def mapExtentSpace (fOff len : ℕ) : ℕ :=
  min (extentBegin (extentFrom fOff) + extentSize - fOff) len

/-- `__cyanfs_file_size_validate`. -/
def sizeValid (size : ℕ) : Prop :=
  size % fileAlignSize = 0 ∧
    size / extentSize + (if size % extentSize = 0 then 0 else 1) ≤ extentCountMax

instance (size : ℕ) : Decidable (sizeValid size) := inferInstanceAs (Decidable (_ ∧ _))

theorem sizeValid_zero : sizeValid 0 := by decide

theorem sizeValid_le {size : ℕ} (h : sizeValid size) : size ≤ fileMaxSize := by
  obtain ⟨-, h⟩ := h
  simp only [extentSize, extentCountMax, fileMaxSize] at *
  split_ifs at h <;> omega

/-- Below the largest file size no bit of an extent index is lost. -/
theorem extentFrom_of_lt {off : ℕ} (h : off < fileMaxSize) : extentFrom off = off / extentSize := by
  rw [extentFrom, Nat.mod_eq_of_lt]
  simp only [extentSize, fileMaxSize] at *
  omega

theorem fileIndex_of_lt {i : ℕ} (h : i < extentCountMax) : fileIndex i = i :=
  Nat.mod_eq_of_lt h

theorem extentFrom_lt_of_lt {off : ℕ} (h : off < fileMaxSize) : extentFrom off < extentCountMax := by
  rw [extentFrom_of_lt h]
  simp only [extentSize, fileMaxSize, extentCountMax] at *
  omega

theorem extentFrom_extentBegin {i : ℕ} (h : i < extentCountMax) : extentFrom (extentBegin i) = i := by
  simp only [extentFrom, extentBegin, extentSize, extentCountMax] at *
  omega

/-! ### The checksum -/

/-- One byte of `cyanfs_crc32_simple`. -/
def crcByte (crc : UInt32) (b : UInt8) : UInt32 :=
  (List.range 8).foldl
    (fun c _ => (c >>> 1) ^^^ (if c &&& 1 = 1 then 0xEDB88320 else 0)) (crc ^^^ b.toUInt32)

/-- `cyanfs_crc32_simple`. -/
def crc32 (seed : UInt32) (l : List UInt8) : UInt32 := l.foldl crcByte seed

/-- `cyanfs_extent_alloc_hash`. -/
def extentAllocHash (id fOff : ℕ) : ℕ := (crc32 0xFFFFFFFF (leBytes 8 id ++ leBytes 8 fOff)).toNat

/-! ### File names -/

/-- `cyanfs_file_name_t`: `data[127]` followed by `zero`. -/
structure FileName where
  bytes : List UInt8
  length_eq : bytes.length = 128
deriving DecidableEq

namespace FileName

/-- The field `data`. -/
def data (n : FileName) : List UInt8 := n.bytes.take 127

/-- The field `zero`. -/
def zero (n : FileName) : UInt8 := n.bytes.getD 127 0

/-- The C string held by `data`. -/
def cstr (n : FileName) : List UInt8 := n.data.takeWhile (· ≠ 0)

theorem length_cstr_le (n : FileName) : n.cstr.length ≤ 127 := by
  have h : n.cstr.length ≤ n.data.length := (List.takeWhile_prefix _).length_le
  have : n.data.length ≤ 127 := by simp [data]
  omega

/-- A C string padded with zero bytes to the size of the name. -/
def ofCstr (l : List UInt8) (h : l.length ≤ 128) : FileName where
  bytes := l ++ List.replicate (128 - l.length) 0
  length_eq := by simp; omega

/-- `__cyanfs_file_name_normalize`: an empty name and one with a non-zero last
byte are refused, and everything behind the C string is cleared. -/
def normalize (n : FileName) : Option FileName :=
  if n.data.getD 0 0 = 0 ∨ n.zero ≠ 0 then none
  else some (ofCstr n.cstr (Nat.le_succ_of_le n.length_cstr_le))

/-- Names as the file system stores them. -/
def Normal (n : FileName) : Prop := n.normalize = some n

theorem bytes_injective {m n : FileName} (h : m.bytes = n.bytes) : m = n := by
  cases m; cases n; simpa using h

theorem takeWhile_append_replicate_zero (l : List UInt8) (h : ∀ b ∈ l, b ≠ 0) (k : ℕ) :
    (l ++ List.replicate k (0 : UInt8)).takeWhile (fun b => decide (b ≠ 0)) = l := by
  rw [List.takeWhile_append_of_pos (by simpa using h)]
  cases k with
  | zero => simp
  | succ k => simp [List.replicate_succ]

theorem ne_zero_of_mem_cstr {n : FileName} {b : UInt8} (h : b ∈ n.cstr) : b ≠ 0 := by
  simpa using List.mem_takeWhile_imp h

theorem cstr_ofCstr {l : List UInt8} (h : l.length ≤ 127) (h0 : ∀ b ∈ l, b ≠ 0) :
    (ofCstr l (Nat.le_succ_of_le h)).cstr = l := by
  have : (ofCstr l (Nat.le_succ_of_le h)).data = l ++ List.replicate (127 - l.length) 0 := by
    simp only [data, ofCstr, List.take_append, List.take_replicate]
    rw [List.take_of_length_le h]
    congr 2
    omega
  rw [cstr, this, takeWhile_append_replicate_zero l h0]

/-- A C string that is neither empty nor too long is stored as it is. -/
theorem normal_ofCstr {l : List UInt8} (h : l.length ≤ 127) (hne : l ≠ []) (h0 : ∀ b ∈ l, b ≠ 0) :
    (ofCstr l (Nat.le_succ_of_le h)).Normal := by
  obtain ⟨b, bs, rfl⟩ := List.exists_cons_of_ne_nil hne
  have hz : (ofCstr (b :: bs) (Nat.le_succ_of_le h)).zero = 0 := by
    simp only [zero, ofCstr, List.getD_eq_getElem?_getD]
    rw [List.getElem?_append_right h, List.getElem?_replicate]
    split_ifs <;> rfl
  have hd0 : (ofCstr (b :: bs) (Nat.le_succ_of_le h)).data.getD 0 0 ≠ 0 := by
    simpa [data, ofCstr] using h0 b List.mem_cons_self
  rw [Normal, normalize, if_neg (by rintro (h | h); exacts [hd0 h, h hz])]
  congr 1
  apply bytes_injective
  simp only [ofCstr]
  have := cstr_ofCstr h h0
  simp only [ofCstr] at this
  rw [this]

/-- A normal name is the only one that its C string is normalized to. -/
theorem normalize_of_cstr {m n : FileName} (hn : n.Normal) (hz : m.zero = 0) (hc : m.cstr = n.cstr) :
    m.normalize = some n := by
  unfold Normal normalize at hn
  split_ifs at hn with h
  rw [normalize, if_neg]
  · simpa only [hc] using hn
  · rintro (hd | hd)
    · push Not at h
      have hne : n.cstr ≠ [] := by
        obtain ⟨b, bs, hb⟩ := List.exists_cons_of_ne_nil (l := n.data) (by rintro he; simp [he] at h)
        have hb0 : b ≠ 0 := by simpa [hb] using h.1
        simp [cstr, hb, hb0]
      refine hne (hc ▸ ?_)
      cases hm : m.data with
      | nil => simp [cstr, hm]
      | cons b bs =>
          have hb0 : b = 0 := by simpa [hm] using hd
          simp [cstr, hm, hb0]
    · exact hd hz

/-- **A normal form is normal**, and it holds the same C string. -/
theorem normal_of_normalize {m n : FileName} (h : m.normalize = some n) :
    n.Normal ∧ n.cstr = m.cstr := by
  unfold normalize at h
  split_ifs at h with hc
  obtain rfl := Option.some.inj h
  have h127 := m.length_cstr_le
  have h0 : ∀ b ∈ m.cstr, b ≠ 0 := fun _ hb => ne_zero_of_mem_cstr hb
  refine ⟨normal_ofCstr h127 ?_ h0, cstr_ofCstr h127 h0⟩
  push Not at hc
  intro he
  have hd : m.data ≠ [] := by
    intro hd
    simp [hd] at hc
  obtain ⟨b, bs, hb⟩ := List.exists_cons_of_ne_nil hd
  have hb0 : b ≠ 0 := by simpa [hb] using hc.1
  simp [cstr, hb, hb0] at he

end FileName

end Cyanfs
