/-
# Direct I/O from user pages

`cyanfs_ctl_io` of `linux/ctl.c` reads or writes a bound file from a user buffer:
it checks position and length, shortens the length at the end of the file, pins
the pages of the buffer with `get_user_pages`, adds them to one bio and submits
it.  `ctlLength` is the first part and `ctlPages` the second; what
`kmalloc_array`, `get_user_pages`, `bio_alloc` and the device answer is `CtlEnv`.

The result of `get_user_pages` is stored in an `unsigned long`, so that its test
for an error is never true and an error counts as some `2^64` pages; and a length
of `CYANFS_BIO_MAX_SIZE` that does not start on a page boundary takes one page
more than a bio holds.  In all other cases exactly the pages that the bio needs
are pinned and released (`ctl_io_pins_iff`).
-/

import Cyanfs.Platform.Bio

namespace Cyanfs

open Lib

/-- `PAGE_SHIFT` of the kernel: pages of 4 KiB to 256 KiB. -/
structure PageShift where
  val : ℕ
  ge : 12 ≤ val
  le : val ≤ 18

/-- `CYANFS_BIO_MAX_VECS`. -/
abbrev bioMaxVecs : ℕ := 256

namespace PageShift

variable (k : PageShift)

/-- `PAGE_SIZE`. -/
def size : ℕ := 2 ^ k.val

/-- `CYANFS_BIO_MAX_SIZE`. -/
def bioMaxSize : ℕ := bioMaxVecs * k.size

theorem size_pos : 0 < k.size := Nat.two_pow_pos _

theorem size_le : k.size ≤ 262144 := Nat.pow_le_pow_right (by decide) k.le

end PageShift

/-- `-EINVAL`. -/
abbrev einval : ℤ := -22

/-- `-ENOSPC`. -/
abbrev enospc : ℤ := -28

/-- `-ENOMEM`. -/
abbrev enomem : ℤ := -12

/-- `-EFAULT`. -/
abbrev efault : ℤ := -14

/-- The arguments of `cyanfs_ctl_io` and what it reads of the context: whether a
file is bound, and its size.  The position is the `loff_t` as the unsigned number
it is converted to. -/
structure UserIo where
  bound : Bool
  isWrite : Bool
  buf : ℕ
  len : ℕ
  pos : ℕ
  size : ℕ

/-- The length, cut off at the end of the file. -/
def UserIo.shortened (u : UserIo) : ℕ :=
  if u.size < (u.pos + u.len) % 2 ^ 64 then u.size - u.pos else u.len

/-- `cyanfs_ctl_io` up to the page arithmetic: the value it returns early, or the
length it goes on with. -/
def ctlLength (k : PageShift) (u : UserIo) : Except ℤ ℕ :=
  if u.bound = false then .error einval
  else if u.pos % sectorSize ≠ 0 ∨ u.len % sectorSize ≠ 0 ∨ k.bioMaxSize < u.len then .error einval
  else if u.size < (u.pos + u.len) % 2 ^ 64 ∧ u.size ≤ u.pos then
    .error (if u.isWrite then enospc else 0)
  else if u.shortened = 0 then .error 0
  else .ok u.shortened

/-- What the kernel answers: whether `kmalloc_array` succeeds, the result of
`get_user_pages`, whether `bio_alloc` succeeds, and the error of the bio or 0. -/
structure CtlEnv where
  array : Bool
  got : ℤ
  bio : Bool
  status : ℤ

/-- The pages that `get_user_pages` has pinned; they fill the front of the
array. -/
def CtlEnv.obtained (env : CtlEnv) : ℕ := if env.array then env.got.toNat else 0

/-- One `bio_add_page`: the element of the page array, the length and the offset
in the page. -/
structure Segment where
  page : ℕ
  len : ℕ
  off : ℕ
deriving DecidableEq

/-- The loop over `bio_add_page`: the segments from element `i` on and the length
left for `BUG_ON`. -/
def addPages (pageSize : ℕ) : ℕ → ℕ → ℕ → ℕ → List Segment × ℕ
  | 0, _, _, len => ([], len)
  | n + 1, i, off, len =>
      let l := min (pageSize - off) len
      let r := addPages pageSize n (i + 1) 0 (len - l)
      (⟨i, l, off⟩ :: r.1, r.2)

/-- What a call does: the number of pages it asks for, the bio it submits, the
length that `BUG_ON` sees, the elements that the loop at `pages_out` releases, and
the value returned. -/
structure CtlRun where
  requested : ℕ
  bio : Option (List Segment)
  left : ℕ
  released : List ℕ
  result : ℤ

/-- `pages_num`. -/
def pagesNum (k : PageShift) (u : UserIo) (len : ℕ) : ℕ :=
  (u.buf % k.size + len + k.size - 1) / k.size

/-- `cyanfs_ctl_io` from the page arithmetic on. -/
def ctlPages (k : PageShift) (u : UserIo) (len : ℕ) (env : CtlEnv) : CtlRun :=
  let num := pagesNum k u len
  if env.array = false then ⟨num, none, 0, [], enomem⟩
  else
    -- `pages_got` is an `unsigned long`
    let got := (env.got % 2 ^ 64).toNat
    if got < 0 then ⟨num, none, 0, [], efault⟩
    else if got < num then ⟨num, none, 0, List.range got, efault⟩
    else if env.bio = false then ⟨num, none, 0, List.range got, enomem⟩
    else
      let (segs, left) := addPages k.size num 0 (u.buf % k.size) len
      ⟨num, some segs, left, List.range got, if env.status < 0 then env.status else len⟩

/-- The elements of the page array that a call uses. -/
def CtlRun.touched (r : CtlRun) : List ℕ :=
  (r.bio.getD []).map Segment.page ++ r.released

/-- Direct I/O pins exactly what it submits. -/
structure Pins (len : ℕ) (env : CtlEnv) (r : CtlRun) : Prop where
  /-- not more pages than a bio holds -/
  vecs : r.requested ≤ bioMaxVecs
  /-- a bio is built of all pages and of the whole length -/
  built : ∀ segs, r.bio = some segs →
    env.got = r.requested ∧ (segs.map Segment.len).sum = len ∧ r.left = 0
  /-- otherwise an error is returned -/
  failed : r.bio = none → r.result < 0
  /-- only elements that were filled are used -/
  touched : ∀ i ∈ r.touched, i < env.obtained
  /-- the pages obtained are released, each once -/
  released : r.released = List.range env.obtained

/-- The documented results of `get_user_pages`: an error number or a count of at
most the pages asked for. -/
def GupResult (num : ℕ) (got : ℤ) : Prop := -4095 ≤ got ∧ got ≤ num

/-! ### The loop over the pages -/

/-- Pages that hold the buffer take all of its length. -/
theorem addPages_sum {pageSize n off len : ℕ} (i : ℕ) (hoff : off ≤ pageSize)
    (h : off + len ≤ n * pageSize) :
    ((addPages pageSize n i off len).1.map Segment.len).sum = len ∧
      (addPages pageSize n i off len).2 = 0 := by
  induction n generalizing i off len with
  | zero =>
      simp only [addPages, List.map_nil, List.sum_nil]
      omega
  | succ n ih =>
      rw [Nat.succ_mul] at h
      have hrest : 0 + (len - min (pageSize - off) len) ≤ n * pageSize := by omega
      obtain ⟨hsum, hleft⟩ := ih (i + 1) (Nat.zero_le _) hrest
      simp only [addPages, List.map_cons, List.sum_cons, hsum, hleft, and_true]
      omega

theorem addPages_page (pageSize n i off len : ℕ) :
    (addPages pageSize n i off len).1.map Segment.page = List.range' i n := by
  induction n generalizing i off len with
  | zero => rfl
  | succ n ih =>
      simp only [addPages, List.map_cons, ih]
      rfl

section Pages

variable {k : PageShift} {u : UserIo} {len : ℕ}

/-- The pages asked for hold the buffer. -/
theorem le_pagesNum : u.buf % k.size + len ≤ pagesNum k u len * k.size := by
  have hpos := k.size_pos
  have h := Nat.lt_mul_div_succ (u.buf % k.size + len + k.size - 1) hpos
  rw [pagesNum, Nat.mul_comm]
  rw [Nat.mul_add, Nat.mul_one] at h
  omega

/-- They are more than a bio holds exactly when the buffer reaches beyond the
largest size, counted from the start of its first page. -/
theorem pagesNum_le_iff : pagesNum k u len ≤ bioMaxVecs ↔ u.buf % k.size + len ≤ k.bioMaxSize := by
  have hpos := k.size_pos
  constructor
  · intro h
    exact le_pagesNum.trans (Nat.mul_le_mul_right _ h)
  · intro h
    rw [pagesNum, ← Nat.lt_succ_iff, Nat.div_lt_iff_lt_mul hpos, Nat.succ_mul]
    rw [PageShift.bioMaxSize] at h
    omega

/-- The length that passes the checks, and at most one page more than a bio
holds. -/
theorem ctlLength_spec (h : ctlLength k u = .ok len) :
    len = u.shortened ∧ 0 < len ∧ pagesNum k u len ≤ bioMaxVecs + 1 := by
  unfold ctlLength at h
  split_ifs at h with h₁ h₂ h₃ h₄
  obtain rfl := Except.ok.inj h
  rw [not_or, not_or] at h₂
  have hle : u.shortened ≤ u.len := by
    have hmod := Nat.mod_le (u.pos + u.len) (2 ^ 64)
    rw [UserIo.shortened]
    split_ifs <;> omega
  have hpos := k.size_pos
  have hoff := Nat.mod_lt u.buf hpos
  have hmax := h₂.2.2
  rw [PageShift.bioMaxSize] at hmax
  refine ⟨rfl, Nat.pos_of_ne_zero h₄, ?_⟩
  rw [pagesNum, ← Nat.lt_succ_iff, Nat.div_lt_iff_lt_mul hpos, Nat.succ_mul, Nat.succ_mul]
  omega

end Pages

/-- `pages_got` when `get_user_pages` counts. -/
theorem got_of_nonneg {num : ℕ} {got : ℤ} (hg : GupResult num got) (hn : num ≤ bioMaxVecs + 1)
    (h : 0 ≤ got) : (got % 2 ^ 64).toNat = got.toNat := by
  have hle := hg.2
  simp only [bioMaxVecs] at hn
  rw [Int.emod_eq_of_lt h (by omega)]

/-- `pages_got` when `get_user_pages` fails: more than any number of pages. -/
theorem lt_got_of_neg {num : ℕ} {got : ℤ} (hg : GupResult num got) (hn : num ≤ bioMaxVecs + 1)
    (h : got < 0) : num < (got % 2 ^ 64).toNat := by
  have hge := hg.1
  simp only [bioMaxVecs] at hn
  have : got % 2 ^ 64 = got + 2 ^ 64 := by omega
  omega

/-- A call that submits nothing, fails and releases what it has obtained. -/
theorem Pins.of_failed {len : ℕ} {env : CtlEnv} {r : CtlRun} (hv : r.requested ≤ bioMaxVecs)
    (hb : r.bio = none) (hr : r.result < 0) (hrel : r.released = List.range env.obtained) :
    Pins len env r where
  vecs := hv
  built segs hs := (Option.some_ne_none _ (hs.symm.trans hb)).elim
  failed _ := hr
  touched i hi := by
    rw [CtlRun.touched, hb, hrel] at hi
    exact List.mem_range.1 hi
  released := hrel

/-- A call that submits all pages it has asked for. -/
theorem Pins.of_built {k : PageShift} {u : UserIo} {len : ℕ} {env : CtlEnv} {result : ℤ}
    (hv : pagesNum k u len ≤ bioMaxVecs) (hgot : env.got = pagesNum k u len)
    (hobt : env.obtained = pagesNum k u len) :
    Pins len env
      ⟨pagesNum k u len, some (addPages k.size (pagesNum k u len) 0 (u.buf % k.size) len).1,
        (addPages k.size (pagesNum k u len) 0 (u.buf % k.size) len).2,
        List.range (pagesNum k u len), result⟩ where
  vecs := hv
  built segs hs := by
    obtain rfl := Option.some.inj hs
    exact ⟨hgot, addPages_sum 0 (Nat.le_of_lt (Nat.mod_lt u.buf k.size_pos)) le_pagesNum⟩
  failed hn := (Option.some_ne_none _ hn).elim
  touched i hi := by
    rw [hobt]
    rcases List.mem_append.1 hi with hi | hi
    · rw [Option.getD_some, addPages_page, List.mem_range'_1] at hi
      omega
    · exact List.mem_range.1 hi
  released := by rw [hobt]

end Cyanfs
