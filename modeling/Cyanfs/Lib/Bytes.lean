/-
# Byte buffers and little-endian numbers

A buffer is a total function from addresses to bytes, so that one type serves
for a memory page, for a whole disk and for the image of one write.  `slice`
cuts a list of bytes out of a buffer, `patch` overwrites a range of it, and the
two commute in the two ways that matter: inside the range (`slice_patch_same`)
and away from it (`slice_patch_disjoint`).

`leBytes` and `leVal` are the fixed-width little-endian number format; they are
inverse to each other on numbers that fit (`leVal_leBytes`) and on all byte
lists (`leBytes_leVal`).
-/

import Mathlib.Data.List.Basic
import Mathlib.Tactic.Ring
import Mathlib.Tactic.NormNum

namespace Cyanfs
namespace Lib

/-- Bytes at every address. -/
abbrev Buf := ℕ → UInt8

namespace Buf

/-- The `n` bytes of the buffer from address `p` on. -/
def slice (g : Buf) (p : ℕ) : ℕ → List UInt8
  | 0 => []
  | n + 1 => g p :: slice g (p + 1) n

/-- The buffer with `[off, off + len)` overwritten by the first `len` bytes of
`data`. -/
def patch (g : Buf) (off len : ℕ) (data : Buf) : Buf := fun a =>
  if off ≤ a ∧ a < off + len then data (a - off) else g a

/-- The buffer whose first bytes are the given list and whose other bytes are
those of `g`. -/
def overlay (g : Buf) (l : List UInt8) : Buf := fun a => l[a]?.getD (g a)

@[simp] theorem slice_zero (g : Buf) (p : ℕ) : g.slice p 0 = [] := rfl

@[simp] theorem length_slice (g : Buf) (p n : ℕ) : (g.slice p n).length = n := by
  induction n generalizing p with
  | zero => rfl
  | succ n ih => simp [slice, ih]

theorem getElem?_slice (g : Buf) (p n i : ℕ) :
    (g.slice p n)[i]? = if i < n then some (g (p + i)) else none := by
  induction n generalizing p i with
  | zero => simp
  | succ n ih =>
      cases i with
      | zero => simp [slice]
      | succ i =>
          simp only [slice, List.getElem?_cons_succ, ih, Nat.add_lt_add_iff_right]
          rw [show p + 1 + i = p + (i + 1) from by omega]

theorem slice_add (g : Buf) (p m n : ℕ) : g.slice p (m + n) = g.slice p m ++ g.slice (p + m) n := by
  induction m generalizing p with
  | zero => simp
  | succ m ih =>
      rw [Nat.add_right_comm]
      simp only [slice, List.cons_append, ih]
      rw [show p + 1 + m = p + (m + 1) from by omega]

/-- Two buffers have the same slice exactly when they agree on its addresses. -/
theorem slice_eq_iff (g h : Buf) (p q n : ℕ) :
    g.slice p n = h.slice q n ↔ ∀ i < n, g (p + i) = h (q + i) := by
  constructor
  · intro he i hi
    have h : (g.slice p n)[i]? = (h.slice q n)[i]? := by rw [he]
    rw [getElem?_slice, getElem?_slice, if_pos hi, if_pos hi] at h
    exact Option.some.inj h
  · intro ha
    refine List.ext_getElem? fun i => ?_
    rw [getElem?_slice, getElem?_slice]
    split_ifs with hi
    · rw [ha i hi]
    · rfl

/-- A slice that agrees with a list agrees with every part of it. -/
theorem slice_append_iff (g : Buf) (p : ℕ) (l m : List UInt8) :
    g.slice p (l ++ m).length = l ++ m ↔
      g.slice p l.length = l ∧ g.slice (p + l.length) m.length = m := by
  rw [List.length_append, slice_add]
  constructor
  · intro h
    exact List.append_inj h (by simp)
  · rintro ⟨h₁, h₂⟩
    rw [h₁, h₂]

theorem patch_of_lt {g : Buf} {off len : ℕ} {data : Buf} {a : ℕ} (h₁ : off ≤ a)
    (h₂ : a < off + len) : g.patch off len data a = data (a - off) := by
  rw [patch, if_pos ⟨h₁, h₂⟩]

theorem patch_of_not {g : Buf} {off len : ℕ} {data : Buf} {a : ℕ}
    (h : a < off ∨ off + len ≤ a) : g.patch off len data a = g a := by
  rw [patch, if_neg (by omega)]

/-- **What was written is read back.** -/
theorem slice_patch_same (g : Buf) (off len : ℕ) (data : Buf) {n : ℕ} (hn : n ≤ len) :
    (g.patch off len data).slice off n = data.slice 0 n := by
  rw [slice_eq_iff]
  intro i hi
  rw [patch_of_lt (by omega) (by omega), Nat.add_sub_cancel_left, Nat.zero_add]

/-- **What was not written is unchanged.** -/
theorem slice_patch_disjoint (g : Buf) (off len : ℕ) (data : Buf) {p n : ℕ}
    (h : p + n ≤ off ∨ off + len ≤ p) : (g.patch off len data).slice p n = g.slice p n := by
  rw [slice_eq_iff]
  intro i hi
  exact patch_of_not (by omega)

theorem slice_overlay (g : Buf) (l : List UInt8) : (g.overlay l).slice 0 l.length = l := by
  refine List.ext_getElem? fun i => ?_
  rw [getElem?_slice]
  split_ifs with hi
  · simp [overlay, hi]
  · rw [List.getElem?_eq_none (by omega)]

theorem overlay_of_le (g : Buf) (l : List UInt8) {a : ℕ} (h : l.length ≤ a) :
    g.overlay l a = g a := by
  simp [overlay, List.getElem?_eq_none h]

end Buf

/-- The `n` low bytes of a number, least significant first. -/
def leBytes : ℕ → ℕ → List UInt8
  | 0, _ => []
  | n + 1, v => UInt8.ofNat (v % 256) :: leBytes n (v / 256)

/-- The number whose bytes, least significant first, are the list. -/
def leVal : List UInt8 → ℕ
  | [] => 0
  | b :: bs => b.toNat + 256 * leVal bs

@[simp] theorem length_leBytes (n v : ℕ) : (leBytes n v).length = n := by
  induction n generalizing v with
  | zero => rfl
  | succ n ih => simp [leBytes, ih]

theorem leVal_lt (l : List UInt8) : leVal l < 256 ^ l.length := by
  induction l with
  | nil => simp [leVal]
  | cons b bs ih =>
      have hb := b.toNat_lt
      simp only [leVal, List.length_cons, pow_succ]
      omega

/-- **A number that fits is read back.** -/
theorem leVal_leBytes (n v : ℕ) : leVal (leBytes n v) = v % 256 ^ n := by
  induction n generalizing v with
  | zero => simp [leBytes, leVal, Nat.mod_one]
  | succ n ih =>
      have hb : (UInt8.ofNat (v % 256)).toNat = v % 256 := by
        simp
      rw [leBytes, leVal, ih, hb, pow_succ, Nat.mul_comm (256 ^ n) 256, Nat.mod_mul]

theorem leVal_leBytes_of_lt {n v : ℕ} (h : v < 256 ^ n) : leVal (leBytes n v) = v := by
  rw [leVal_leBytes, Nat.mod_eq_of_lt h]

/-- **Every byte list is the encoding of its value.** -/
theorem leBytes_leVal (l : List UInt8) : leBytes l.length (leVal l) = l := by
  induction l with
  | nil => rfl
  | cons b bs ih =>
      have hb := b.toNat_lt
      have hm : (b.toNat + 256 * leVal bs) % 256 = b.toNat := by omega
      have hd : (b.toNat + 256 * leVal bs) / 256 = leVal bs := by omega
      rw [List.length_cons, leBytes, leVal, hm, hd, ih]
      simp

end Lib
end Cyanfs
