/-
# Offsets and ids as machine words

The range arithmetic of `core/internal.h` once more, in the types of the source: offsets
are `uint64_t`, extent ids `uint32_t`, and the fields `backend` and `file` of
`struct cyanfs_extent` have 30 bits.  The model computes with natural numbers; below
`CYANFS_FILE_MAX_SIZE` both give the same (`exact_of_lt`), so that no shift, sum,
difference or assignment of the loops loses a bit.  The checks in front of the loops
are made for every 64-bit value (`rangeOk_iff`, `fileSizeValidate_iff`,
`toNat_superOpen`).
-/

import Cyanfs.Core.System

namespace Cyanfs
namespace Words

/-- `cyanfs_extent_begin`. -/
def extentBegin (id : UInt32) : UInt64 := id.toUInt64 <<< 20

/-- `cyanfs_extent_end`. -/
def extentEnd (id : UInt32) : UInt64 := extentBegin id + 1048576

/-- `cyanfs_extent_from`. -/
def extentFrom (off : UInt64) : UInt32 := (off >>> 20).toUInt32

/-- Assignment to a field of `CYANFS_EXTENT_INDEX_BITS` bits. -/
def index (id : UInt32) : UInt32 := id &&& 1073741823

/-- `__cyanfs_file_size_validate` returns 0. -/
def fileSizeValidate (size : UInt64) : Bool :=
  let extentCount := size / 1048576
  let extentCount := if size % 1048576 ≠ 0 then extentCount + 1 else extentCount
  !(size &&& 4095 ≠ 0 || extentCount > 1073741824)

/-- `cyanfs_map_extent_space`. -/
def mapExtentSpace (fOff len : UInt64) : UInt64 :=
  let extentSpace := extentEnd (extentFrom fOff) - fOff
  if extentSpace > len then len else extentSpace

/-- `cyanfs_map_extent_offset`. -/
def mapExtentOffset (b : UInt32) (fOff : UInt64) : UInt64 :=
  8192 + extentBegin b + (fOff &&& 1048575)

/-- The range check of `cyanfs_read`, `cyanfs_write` and `cyanfs_discard`. -/
def rangeOk (size fOff len : UInt64) : Bool := !(len = 0 || fOff > size || len > size - fOff)

/-- The size check of `cyanfs_super_open` and `s->meta.total_extents`. -/
def superOpen (size : UInt64) : Option UInt32 :=
  if size < 8192 + 1048576 || size - 8192 > 1125899906842624 then none
  else some (extentFrom (size - 8192))

/-! ### The words as numbers -/

theorem toNat_extentFrom {off : UInt64} (h : off.toNat ≤ fileMaxSize) :
    (extentFrom off).toNat = off.toNat / extentSize := by
  have hshift : (off >>> 20).toNat = off.toNat / extentSize := by
    rw [UInt64.toNat_shiftRight]
    exact Nat.shiftRight_eq_div_pow _ _
  rw [extentFrom, UInt64.toNat_toUInt32, hshift]
  simp only [fileMaxSize, extentSize] at *
  omega

theorem toNat_extentBegin (id : UInt32) : (extentBegin id).toNat = id.toNat * extentSize := by
  have hlt := id.toNat_lt
  have hshift : (extentBegin id).toNat = id.toNat * extentSize % 18446744073709551616 := by
    rw [extentBegin, UInt64.toNat_shiftLeft, Nat.shiftLeft_eq, UInt32.toNat_toUInt64]
    rfl
  rw [hshift]
  simp only [extentSize] at *
  omega

theorem toNat_extentEnd (id : UInt32) : (extentEnd id).toNat = id.toNat * extentSize + extentSize := by
  have hlt := id.toNat_lt
  rw [extentEnd, UInt64.toNat_add, toNat_extentBegin]
  simp only [UInt64.reduceToNat, extentSize] at *
  omega

theorem toNat_index {id : UInt32} (h : id.toNat < extentCountMax) : (index id).toNat = id.toNat := by
  have hmod : (index id).toNat = id.toNat % extentCountMax := by
    rw [index, UInt32.toNat_and]
    exact Nat.and_two_pow_sub_one_eq_mod id.toNat 30
  rw [hmod, Nat.mod_eq_of_lt h]

theorem toNat_and_extentMask (off : UInt64) : (off &&& 1048575).toNat = off.toNat % extentSize := by
  rw [UInt64.toNat_and]
  exact Nat.and_two_pow_sub_one_eq_mod off.toNat 20

theorem toNat_and_alignMask (size : UInt64) : (size &&& 4095).toNat = size.toNat % fileAlignSize := by
  rw [UInt64.toNat_and]
  exact Nat.and_two_pow_sub_one_eq_mod size.toNat 12

theorem toNat_mapExtentSpace {off len : UInt64} (h : off.toNat ≤ fileMaxSize) :
    (mapExtentSpace off len).toNat =
      min (off.toNat / extentSize * extentSize + extentSize - off.toNat) len.toNat := by
  have hend := toNat_extentEnd (extentFrom off)
  rw [toNat_extentFrom h] at hend
  have hle : off ≤ extentEnd (extentFrom off) := by
    rw [UInt64.le_iff_toNat_le, hend]
    simp only [extentSize]
    omega
  have hsub : (extentEnd (extentFrom off) - off).toNat =
      off.toNat / extentSize * extentSize + extentSize - off.toNat := by
    rw [UInt64.toNat_sub_of_le _ _ hle, hend]
  rw [mapExtentSpace]
  split_ifs with hgt
  · have := UInt64.lt_iff_toNat_lt.1 hgt
    rw [hsub] at this
    omega
  · have : ¬ len.toNat < (extentEnd (extentFrom off) - off).toNat := fun hlt =>
      hgt (UInt64.lt_iff_toNat_lt.2 hlt)
    rw [hsub] at this ⊢
    omega

theorem toNat_mapExtentOffset (b : UInt32) (off : UInt64) :
    (mapExtentOffset b off).toNat = superBlockSize + b.toNat * extentSize + off.toNat % extentSize := by
  have hb := b.toNat_lt
  rw [mapExtentOffset, UInt64.toNat_add, UInt64.toNat_add, toNat_extentBegin, toNat_and_extentMask]
  simp only [UInt64.reduceToNat, extentSize, superBlockSize] at *
  omega

/-! ### The checks -/

/-- The range check is the one of the model, for all 64-bit arguments. -/
theorem rangeOk_iff (f : File) (hf : f.size ≤ fileMaxSize) (off len : UInt64) :
    rangeOk (.ofNat f.size) off len = true ↔ Sys.rangeOk f off.toNat len.toNat := by
  have hsize : (UInt64.ofNat f.size).toNat = f.size :=
    UInt64.toNat_ofNat_of_lt' (hf.trans_lt (by decide))
  have hzero : len = 0 ↔ len.toNat = 0 := by
    rw [← UInt64.toNat_inj]
    rfl
  simp only [rangeOk, Sys.rangeOk, gt_iff_lt, Bool.not_eq_true', Bool.or_eq_false_iff,
    decide_eq_false_iff_not, UInt64.lt_iff_toNat_lt, hsize, hzero]
  constructor
  · rintro ⟨⟨h₁, h₂⟩, h₃⟩
    have hle : off ≤ UInt64.ofNat f.size := UInt64.le_iff_toNat_le.2 (by omega)
    rw [UInt64.toNat_sub_of_le _ _ hle, hsize] at h₃
    omega
  · rintro ⟨h₁, h₂, h₃⟩
    have hle : off ≤ UInt64.ofNat f.size := UInt64.le_iff_toNat_le.2 (by omega)
    rw [UInt64.toNat_sub_of_le _ _ hle, hsize]
    omega

/-- The size check of a file is the one of the model. -/
theorem fileSizeValidate_iff (size : UInt64) :
    fileSizeValidate size = true ↔ sizeValid size.toNat := by
  have hlt := size.toNat_lt
  have hmask : size &&& 4095 = 0 ↔ size.toNat % fileAlignSize = 0 := by
    rw [← UInt64.toNat_inj, toNat_and_alignMask]
    rfl
  have hmod : size % 1048576 = 0 ↔ size.toNat % extentSize = 0 := by
    rw [← UInt64.toNat_inj, UInt64.toNat_mod]
    rfl
  have hdiv : (size / 1048576).toNat = size.toNat / extentSize := by
    rw [UInt64.toNat_div]
    rfl
  have hsucc : (size / 1048576 + 1).toNat = size.toNat / extentSize + 1 := by
    rw [UInt64.toNat_add, hdiv]
    simp only [UInt64.reduceToNat, extentSize] at *
    omega
  simp only [fileSizeValidate, sizeValid, gt_iff_lt, ne_eq, Bool.not_eq_true', Bool.or_eq_false_iff,
    decide_eq_false_iff_not, not_not, hmask, hmod, UInt64.lt_iff_toNat_lt]
  by_cases hz : size.toNat % extentSize = 0
  · rw [if_neg (not_not.2 hz), if_pos hz, hdiv]
    simp only [UInt64.reduceToNat, extentCountMax]
    omega
  · rw [if_pos hz, if_neg hz, hsucc]
    simp only [UInt64.reduceToNat, extentCountMax]
    omega

/-- The size check of a device is the one of the model, and every id fits its field. -/
theorem toNat_superOpen (size : UInt64) :
    (superOpen size).map UInt32.toNat = extentsOfSize size.toNat := by
  have hmin : size < 8192 + 1048576 ↔ size.toNat < superBlockSize + extentSize :=
    UInt64.lt_iff_toNat_lt
  by_cases hlt : size.toNat < superBlockSize + extentSize
  · have hbad : (size < 8192 + 1048576 || size - 8192 > 1125899906842624) = true := by
      rw [Bool.or_eq_true, decide_eq_true_eq, decide_eq_true_eq]
      exact .inl (hmin.2 hlt)
    rw [superOpen, if_pos hbad, extentsOfSize, if_pos (.inl hlt)]
    rfl
  · have hle : (8192 : UInt64) ≤ size := by
      rw [UInt64.le_iff_toNat_le]
      simp only [UInt64.reduceToNat, superBlockSize, extentSize] at *
      omega
    have hsub : (size - 8192).toNat = size.toNat - superBlockSize := UInt64.toNat_sub_of_le _ _ hle
    have hmax : size - 8192 > 1125899906842624 ↔ fileMaxSize < size.toNat - superBlockSize := by
      rw [gt_iff_lt, UInt64.lt_iff_toNat_lt, hsub]
      rfl
    by_cases hgt : fileMaxSize < size.toNat - superBlockSize
    · have hbad : (size < 8192 + 1048576 || size - 8192 > 1125899906842624) = true := by
        rw [Bool.or_eq_true, decide_eq_true_eq, decide_eq_true_eq]
        exact .inr (hmax.2 hgt)
      rw [superOpen, if_pos hbad, extentsOfSize, if_pos (.inr hgt)]
      rfl
    · have hgood : ¬ (size < 8192 + 1048576 || size - 8192 > 1125899906842624) = true := by
        simp only [Bool.or_eq_true, decide_eq_true_eq, hmin, hmax]
        omega
      rw [superOpen, if_neg hgood, extentsOfSize, if_neg (by omega), Option.map_some,
        toNat_extentFrom (by omega), hsub]
      simp only [Cyanfs.extentFrom, extentSize, fileMaxSize] at *
      congr 1
      omega

/-! ### The loops -/

/-- With the loop variables `off` and `len` of a call on a device of `total` extents, every
word that the loop computes is the number that the model computes. -/
structure Exact (total off len : ℕ) : Prop where
  off_eq : (UInt64.ofNat off).toNat = off
  len_eq : (UInt64.ofNat len).toNat = len
  id : (extentFrom (.ofNat off)).toNat = off / extentSize ∧
    Cyanfs.extentFrom off = off / extentSize
  index : (index (extentFrom (.ofNat off))).toNat = off / extentSize ∧
    fileIndex (Cyanfs.extentFrom off) = off / extentSize
  start : (extentBegin (extentFrom (.ofNat off))).toNat = off / extentSize * extentSize
  stop : (extentEnd (extentFrom (.ofNat off))).toNat = (off / extentSize + 1) * extentSize
  space : (mapExtentSpace (.ofNat off) (.ofNat len)).toNat = Cyanfs.mapExtentSpace off len
  next : (.ofNat off + mapExtentSpace (.ofNat off) (.ofNat len) : UInt64).toNat =
    off + Cyanfs.mapExtentSpace off len
  left : (.ofNat len - mapExtentSpace (.ofNat off) (.ofNat len) : UInt64).toNat =
    len - Cyanfs.mapExtentSpace off len
  backend : ∀ b < total, (UInt32.ofNat b).toNat = b ∧ (Words.index (.ofNat b)).toNat = b ∧
    (mapExtentOffset (.ofNat b) (.ofNat off)).toNat = Cyanfs.mapExtentOffset b off

theorem exact_of_lt {total off len : ℕ} (htotal : total ≤ extentCountMax)
    (hend : off + len ≤ fileMaxSize) (hoff : off < fileMaxSize) : Exact total off len := by
  have h₁ : (UInt64.ofNat off).toNat = off :=
    UInt64.toNat_ofNat_of_lt' (hoff.trans_le (by decide))
  have h₂ : (UInt64.ofNat len).toNat = len :=
    UInt64.toNat_ofNat_of_lt' (lt_of_le_of_lt (by omega : len ≤ fileMaxSize) (by decide))
  have hid : (extentFrom (.ofNat off)).toNat = off / extentSize := by
    rw [toNat_extentFrom (by omega), h₁]
  have hid' := extentFrom_of_lt hoff
  have hlt : off / extentSize < extentCountMax := hid' ▸ extentFrom_lt_of_lt hoff
  have hspace : (mapExtentSpace (.ofNat off) (.ofNat len)).toNat = Cyanfs.mapExtentSpace off len := by
    rw [toNat_mapExtentSpace (by omega), h₁, h₂, Cyanfs.mapExtentSpace, hid', Cyanfs.extentBegin]
  have hle : Cyanfs.mapExtentSpace off len ≤ len := Nat.min_le_right _ _
  refine ⟨h₁, h₂, ⟨hid, hid'⟩, ⟨?_, ?_⟩, ?_, ?_, hspace, ?_, ?_, fun b hb => ?_⟩
  · rw [toNat_index (hid ▸ hlt), hid]
  · rw [hid', fileIndex_of_lt hlt]
  · rw [toNat_extentBegin, hid]
  · rw [toNat_extentEnd, hid]
    ring
  · rw [UInt64.toNat_add, h₁, hspace, Nat.mod_eq_of_lt]
    simp only [fileMaxSize] at *
    omega
  · rw [UInt64.toNat_sub_of_le _ _ (UInt64.le_iff_toNat_le.2 (by omega)), h₂, hspace]
  · have hb' : (UInt32.ofNat b).toNat = b :=
      UInt32.toNat_ofNat_of_lt' (hb.trans_le (htotal.trans (by decide)))
    refine ⟨hb', ?_, ?_⟩
    · rw [toNat_index (by omega), hb']
    · rw [toNat_mapExtentOffset, hb', h₁, Cyanfs.mapExtentOffset, Cyanfs.extentBegin]

end Words
end Cyanfs
