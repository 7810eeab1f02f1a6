/-
# Seeking data

`cyanfs_seek_data` of `core/readwrite.c`.  The function takes the first extent at
or behind the offset from the file and from each of its ancestors, against a
running minimum of the sizes, and answers with the least of them; a read walks the
ancestors for one extent at a time (`__cyanfs_file_find_extent_follow`).

`seekFirst_spec` says what the loop keeps: its answer is the least index that a
walk from the files seen so far finds.  Hence the two agree (`seekData_agrees`),
and a caller that starts at offset 0 and goes on one extent behind each answer is
told of every visible extent once, in ascending order (`seekAll_spec`).
-/

import Cyanfs.Metadata.Forest
import Mathlib.Tactic.IntervalCases

namespace Cyanfs

open Lib Std

/-- `CYANFS_RB_NFIND` in the extents tree of a file: the index of the first node
at or behind `i`. -/
def File.nextExtent (f : File) (i : ℕ) : Option ℕ := f.extents.keys.find? (i ≤ ·)

theorem File.nextExtent_eq_some {f : File} {i k : ℕ} (h : f.nextExtent i = some k) :
    i ≤ k ∧ f.extents[k]? ≠ none ∧ ∀ j, i ≤ j → f.extents[j]? ≠ none → k ≤ j := by
  obtain ⟨hk, pre, post, hkeys, hpre⟩ := List.find?_eq_some_iff_append.1 h
  have hmem : ∀ j, j ∈ f.extents.keys ↔ f.extents[j]? ≠ none := fun j => by
    rw [ExtTreeMap.mem_keys, ExtTreeMap.mem_iff_isSome_getElem?, Option.isSome_iff_ne_none]
  have hsorted : f.extents.keys.Pairwise (· < ·) :=
    (ExtTreeMap.ordered_keys (t := f.extents)).imp fun h => Nat.compare_eq_lt.1 h
  refine ⟨by simpa using hk, (hmem k).1 (by simp [hkeys]), fun j hij hj => ?_⟩
  have hj' := (hmem j).2 hj
  rw [hkeys] at hj' hsorted
  rcases List.mem_append.1 hj' with hj' | hj'
  · have := hpre j hj'
    simp only [Bool.not_eq_true', decide_eq_false_iff_not] at this
    exact absurd hij this
  · rcases List.mem_cons.1 hj' with rfl | hj'
    · exact le_rfl
    · exact (List.rel_of_pairwise_cons (List.pairwise_append.1 hsorted).2.1 hj').le

theorem File.nextExtent_eq_none {f : File} {i : ℕ} (h : f.nextExtent i = none) {j : ℕ}
    (hij : i ≤ j) : f.extents[j]? = none := by
  by_contra hj
  have hmem : j ∈ f.extents.keys := by
    rw [ExtTreeMap.mem_keys, ExtTreeMap.mem_iff_isSome_getElem?, Option.isSome_iff_ne_none]
    exact hj
  have := List.find?_eq_none.1 h j hmem
  simp only [decide_eq_true_eq] at this
  exact this hij

/-- How `cyanfs_seek_data` ends. -/
inductive SeekOut where
  | fail (e : Err)
  /-- the offset that it stores -/
  | found (off : ℕ)
  /-- `n` is `NULL` where it is dereferenced -/
  | null
deriving DecidableEq

namespace Super

variable (s : Super)

/-- The loop of `cyanfs_seek_data` over the ancestors: `visible_size` and `first`
are its variables, `i` is `tmp.v.file`.  As in `followFrom`, the id of the first
file bounds the number of rounds. -/
def seekFirst (i : ℕ) : ℕ → Option ℕ → ℕ → Option ℕ → Option ℕ
  | _, none, _, first => first
  | 0, some _, _, first => first
  | n + 1, some id, visible, first =>
      match s.filesById[id]? with
      | none => first
      | some f =>
          let visible := if f.size < visible then f.size else visible
          if visible ≤ extentBegin i then first
          else
            match f.nextExtent i with
            | none => seekFirst i n f.parent visible first
            | some k =>
                seekFirst i n f.parent visible
                  (if extentBegin k < visible ∧ ∀ m ∈ first, k < m then some k else first)

/-- `cyanfs_seek_data` on the open file `f`. -/
def seekData (f : File) (fOff : ℕ) : SeekOut :=
  if f.openType ≠ .readonly then .fail .inval
  else if f.size ≤ fOff then .fail .noent
  else
    match s.ensureStatus with
    | some e => .fail e
    | none =>
        match s.seekFirst (fileIndex (extentFrom fOff)) (f.id + 1) (some f.id) f.size none with
        | none => .fail .noent
        | some first =>
            match s.findExtentFollow (some f.id) (extentBegin first) with
            | none => .null
            | some e =>
                if e.error then .fail .io
                else .found (if fOff < extentBegin first then extentBegin first else fOff)

variable {s}

/-- A walk for extent `j`, one round. -/
theorem followFrom_extentBegin {n id j : ℕ} {f : File} (hf : s.filesById[id]? = some f)
    (hj : j < extentCountMax) :
    s.followFrom (extentBegin j) (n + 1) (some id) =
      if extentBegin j < f.size then f.extents[j]?.or (s.followFrom (extentBegin j) n f.parent)
      else none := by
  have hfrom := extentFrom_extentBegin hj
  rw [followFrom, hf]
  simp only [hfrom, File.findExtent, fileIndex_of_lt hj]
  split_ifs
  · cases f.extents[j]? <;> rfl
  · rfl

/-- Extent `j`, at or behind `i` and below `visible`, is found by a walk. -/
def Seen (s : Super) (i n : ℕ) (file : Option ℕ) (visible j : ℕ) : Prop :=
  i ≤ j ∧ extentBegin j < visible ∧ s.followFrom (extentBegin j) n file ≠ none

/-- The file itself, or one of its ancestors as far as the file reaches. -/
theorem seen_succ {i n id visible j : ℕ} {f : File} (hf : s.filesById[id]? = some f)
    (hv : visible ≤ fileMaxSize) :
    s.Seen i (n + 1) (some id) visible j ↔
      i ≤ j ∧ extentBegin j < min f.size visible ∧ f.extents[j]? ≠ none ∨
        s.Seen i n f.parent (min f.size visible) j := by
  have hlt : extentBegin j < visible → j < extentCountMax := by
    intro h
    simp only [extentBegin, extentSize, extentCountMax, fileMaxSize] at *
    omega
  constructor
  · rintro ⟨hij, hjv, hw⟩
    rw [followFrom_extentBegin hf (hlt hjv)] at hw
    split_ifs at hw with hsize
    · have hmin : extentBegin j < min f.size visible := lt_min hsize hjv
      by_cases he : f.extents[j]? = none
      · rw [he, Option.none_or] at hw
        exact .inr ⟨hij, hmin, hw⟩
      · exact .inl ⟨hij, hmin, he⟩
    · exact absurd rfl hw
  · intro h
    have hmin : i ≤ j ∧ extentBegin j < min f.size visible := by
      rcases h with h | h
      · exact ⟨h.1, h.2.1⟩
      · exact ⟨h.1, h.2.1⟩
    obtain ⟨hij, hmin⟩ := hmin
    have hjv := hmin.trans_le (min_le_right _ _)
    refine ⟨hij, hjv, ?_⟩
    rw [followFrom_extentBegin hf (hlt hjv), if_pos (hmin.trans_le (min_le_left _ _))]
    rw [ne_eq, Option.or_eq_none_iff]
    rintro ⟨h₁, h₂⟩
    rcases h with h | h
    · exact h.2.2 h₁
    · exact h.2.2 h₂

/-- **What the loop keeps**: its answer is one it already had or one that a walk
from here finds, and none of these lies before it. -/
theorem seekFirst_spec {i : ℕ} (n : ℕ) (file : Option ℕ) {visible : ℕ} (first : Option ℕ)
    (hv : visible ≤ fileMaxSize) :
    (∀ k ∈ s.seekFirst i n file visible first, k ∈ first ∨ s.Seen i n file visible k) ∧
      ∀ j, j ∈ first ∨ s.Seen i n file visible j →
        ∃ k ∈ s.seekFirst i n file visible first, k ≤ j := by
  induction n generalizing file visible first with
  | zero =>
      have hnone : ∀ j, ¬ s.Seen i 0 file visible j := by
        rintro j ⟨-, -, hw⟩
        cases file <;> exact hw rfl
      have hr : s.seekFirst i 0 file visible first = first := by
        cases file <;> rfl
      rw [hr]
      exact ⟨fun k hk => .inl hk, fun j hj => ⟨j, hj.resolve_right (hnone j), le_rfl⟩⟩
  | succ n ih =>
      have hstop : s.seekFirst i (n + 1) file visible first = first →
          (∀ j, ¬ s.Seen i (n + 1) file visible j) →
          (∀ k ∈ s.seekFirst i (n + 1) file visible first,
            k ∈ first ∨ s.Seen i (n + 1) file visible k) ∧
          ∀ j, j ∈ first ∨ s.Seen i (n + 1) file visible j →
            ∃ k ∈ s.seekFirst i (n + 1) file visible first, k ≤ j := by
        intro hr hnone
        rw [hr]
        exact ⟨fun k hk => .inl hk, fun j hj => ⟨j, hj.resolve_right (hnone j), le_rfl⟩⟩
      cases file with
      | none =>
          refine hstop rfl fun j hj => hj.2.2 ?_
          simp
      | some id =>
          cases hf : s.filesById[id]? with
          | none =>
              refine hstop (by simp only [seekFirst, hf]) fun j hj => hj.2.2 ?_
              simp only [followFrom, hf]
          | some f =>
              have hmin : (if f.size < visible then f.size else visible) = min f.size visible := by
                rw [min_def]
                split_ifs <;> omega
              have hv' : min f.size visible ≤ fileMaxSize := (min_le_right _ _).trans hv
              simp only [seen_succ hf hv]
              by_cases hbreak : min f.size visible ≤ extentBegin i
              · have hr : s.seekFirst i (n + 1) (some id) visible first = first := by
                  simp only [seekFirst, hf, hmin, if_pos hbreak]
                have hbegin : ∀ j, i ≤ j → ¬ extentBegin j < min f.size visible := by
                  intro j hij hj
                  simp only [extentBegin] at hbreak hj
                  have := Nat.mul_le_mul_right extentSize hij
                  omega
                rw [hr]
                refine ⟨fun k hk => .inl hk, fun j hj => ?_⟩
                rcases hj with hj | hj | hj
                · exact ⟨j, hj, le_rfl⟩
                · exact absurd hj.2.1 (hbegin j hj.1)
                · exact absurd hj.2.1 (hbegin j hj.1)
              · cases hnext : f.nextExtent i with
                | none =>
                    have hr : s.seekFirst i (n + 1) (some id) visible first =
                        s.seekFirst i n f.parent (min f.size visible) first := by
                      simp only [seekFirst, hf, hmin, if_neg hbreak, hnext]
                    obtain ⟨h₁, h₂⟩ := ih f.parent first hv'
                    rw [hr]
                    refine ⟨fun k hk => (h₁ k hk).imp_right .inr, fun j hj => h₂ j ?_⟩
                    rcases hj with hj | hj | hj
                    · exact .inl hj
                    · exact absurd (File.nextExtent_eq_none hnext hj.1) hj.2.2
                    · exact .inr hj
                | some m =>
                    obtain ⟨him, hm, hleast⟩ := File.nextExtent_eq_some hnext
                    -- the best index so far, with the one of this file
                    obtain ⟨best, hbest⟩ : ∃ best, best =
                        if extentBegin m < min f.size visible ∧ ∀ k ∈ first, m < k then some m
                        else first := ⟨_, rfl⟩
                    have hr : s.seekFirst i (n + 1) (some id) visible first =
                        s.seekFirst i n f.parent (min f.size visible) best := by
                      simp only [seekFirst, hf, hmin, if_neg hbreak, hnext, hbest]
                    have hsub : ∀ k ∈ best, k ∈ first ∨
                        i ≤ k ∧ extentBegin k < min f.size visible ∧ f.extents[k]? ≠ none := by
                      intro k hk
                      rw [hbest] at hk
                      split_ifs at hk with hc
                      · obtain rfl := Option.some.inj hk
                        exact .inr ⟨him, hc.1, hm⟩
                      · exact .inl hk
                    have hlow : ∀ j, j ∈ first ∨
                        i ≤ j ∧ extentBegin j < min f.size visible ∧ f.extents[j]? ≠ none →
                        ∃ k ∈ best, k ≤ j := by
                      intro j hj
                      rw [hbest]
                      split_ifs with hc
                      · refine ⟨m, rfl, ?_⟩
                        rcases hj with hj | hj
                        · exact (hc.2 j hj).le
                        · exact hleast j hj.1 hj.2.2
                      · rcases hj with hj | hj
                        · exact ⟨j, hj, le_rfl⟩
                        · have hmj := hleast j hj.1 hj.2.2
                          have hbegin : extentBegin m < min f.size visible := by
                            have hmul := Nat.mul_le_mul_right extentSize hmj
                            simp only [extentBegin] at hj ⊢
                            omega
                          have : ∃ k ∈ first, k ≤ m := by
                            by_contra hno
                            push Not at hno
                            exact hc ⟨hbegin, hno⟩
                          obtain ⟨k, hk, hkm⟩ := this
                          exact ⟨k, hk, hkm.trans hmj⟩
                    obtain ⟨h₁, h₂⟩ := ih f.parent best hv'
                    rw [hr]
                    constructor
                    · intro k hk
                      rcases h₁ k hk with hk | hk
                      · exact (hsub k hk).imp_right .inl
                      · exact .inr (.inr hk)
                    · intro j hj
                      rcases or_assoc.2 hj with hj | hj
                      · obtain ⟨k, hk, hkj⟩ := hlow j hj
                        obtain ⟨k', hk', hle⟩ := h₂ k (.inl hk)
                        exact ⟨k', hk', hle.trans hkj⟩
                      · exact h₂ j (.inr hj)

/-! ### Seeking and reading agree -/

/-- A read of extent `j` of the file finds something. -/
def Visible (s : Super) (f : File) (j : ℕ) : Prop :=
  extentBegin j < f.size ∧ s.findExtentFollow (some f.id) (extentBegin j) ≠ none

/-- Extent `j` is visible and not before the one of the offset. -/
def VisibleFrom (s : Super) (f : File) (fOff j : ℕ) : Prop :=
  fOff / extentSize ≤ j ∧ s.Visible f j

section

variable {f : File} {fOff : ℕ}

theorem seen_iff (hsize : f.size ≤ fileMaxSize) (hoff : fOff < f.size) (j : ℕ) :
    s.Seen (fileIndex (extentFrom fOff)) (f.id + 1) (some f.id) f.size j ↔
      s.VisibleFrom f fOff j := by
  have hlt := hoff.trans_le hsize
  rw [fileIndex_of_lt (extentFrom_lt_of_lt hlt), extentFrom_of_lt hlt]
  exact Iff.rfl

/-- No extent is visible from the offset on. -/
theorem seekData_none (hsize : f.size ≤ fileMaxSize) (hmode : f.openType = .readonly)
    (hs : s.ensureStatus = none) (hoff : fOff < f.size) (h : ¬ ∃ j, s.VisibleFrom f fOff j) :
    s.seekData f fOff = .fail .noent := by
  obtain ⟨h₁, -⟩ := seekFirst_spec (s := s) (i := fileIndex (extentFrom fOff)) (f.id + 1)
    (some f.id) none hsize
  rw [seekData, if_neg (by simp [hmode]), if_neg (by omega), hs]
  dsimp only
  split
  · rfl
  · rename_i k hk
    rcases h₁ k hk with hk' | hk'
    · cases hk'
    · exact absurd ⟨k, (seen_iff hsize hoff k).1 hk'⟩ h

/-- The least extent that is visible from the offset on decides the answer. -/
theorem seekData_least {j : ℕ} {e : Extent} (hsize : f.size ≤ fileMaxSize)
    (hmode : f.openType = .readonly) (hs : s.ensureStatus = none) (hoff : fOff < f.size)
    (hj : IsLeast {j | s.VisibleFrom f fOff j} j)
    (he : s.findExtentFollow (some f.id) (extentBegin j) = some e) :
    s.seekData f fOff = if e.error then .fail .io else .found (max fOff (extentBegin j)) := by
  obtain ⟨h₁, h₂⟩ := seekFirst_spec (s := s) (i := fileIndex (extentFrom fOff)) (f.id + 1)
    (some f.id) none hsize
  obtain ⟨k, hk, hkj⟩ := h₂ j (.inr ((seen_iff hsize hoff j).2 hj.1))
  have hjk : j ≤ k := by
    rcases h₁ k hk with hk' | hk'
    · cases hk'
    · exact hj.2 ((seen_iff hsize hoff k).1 hk')
  obtain rfl := Nat.le_antisymm hkj hjk
  have hmax : (if fOff < extentBegin k then extentBegin k else fOff) = max fOff (extentBegin k) := by
    rw [max_def]
    split_ifs <;> omega
  rw [seekData, if_neg (by simp [hmode]), if_neg (by omega), hs]
  simp only [Option.mem_def.1 hk, he, hmax]

end

/-- Seek from `off` on, and again one extent behind each answer, at most `n`
times: the offsets answered. -/
def seekAll (s : Super) (f : File) : ℕ → ℕ → List ℕ
  | 0, _ => []
  | n + 1, off =>
      match s.seekData f off with
      | .found o => o :: seekAll s f n (o + extentSize)
      | _ => []

/-- Extent `j` is visible, and so far as extents from `i` to `j` are visible they
have no error. -/
def Listed (s : Super) (f : File) (i j : ℕ) : Prop :=
  i ≤ j ∧ s.Visible f j ∧ ∀ k e, i ≤ k → k ≤ j → extentBegin k < f.size →
    s.findExtentFollow (some f.id) (extentBegin k) = some e → e.error = false

theorem extentBegin_div (i : ℕ) : extentBegin i / extentSize = i :=
  Nat.mul_div_cancel i (by norm_num)

theorem visibleFrom_extentBegin {f : File} {i j : ℕ} :
    s.VisibleFrom f (extentBegin i) j ↔ i ≤ j ∧ s.Visible f j := by
  rw [VisibleFrom, extentBegin_div]

theorem lt_of_extentBegin_lt {f : File} {i j : ℕ} (hij : i ≤ j) (hj : extentBegin j < f.size) :
    extentBegin i < f.size :=
  (Nat.mul_le_mul_right extentSize hij).trans_lt hj

/-- One round: nothing is listed from `i` on, or the answer is the first extent
listed and the others are listed from behind it. -/
theorem seekData_extentBegin {f : File} (i : ℕ) (hsize : f.size ≤ fileMaxSize)
    (hmode : f.openType = .readonly) (hs : s.ensureStatus = none) :
    (∀ o, s.seekData f (extentBegin i) ≠ .found o) ∧ (∀ j, ¬ s.Listed f i j) ∨
      ∃ m, s.seekData f (extentBegin i) = .found (extentBegin m) ∧ i ≤ m ∧
        extentBegin i < f.size ∧ ∀ j, s.Listed f i j ↔ j = m ∨ s.Listed f (m + 1) j := by
  by_cases hoff : extentBegin i < f.size
  · by_cases hex : ∃ j, s.VisibleFrom f (extentBegin i) j
    · -- the first visible extent, with or without an error
      obtain ⟨m, hm, hleast⟩ : ∃ m, IsLeast {j | s.VisibleFrom f (extentBegin i) j} m := by
        classical
        exact ⟨Nat.find hex, Nat.find_spec hex, fun j hj => Nat.find_min' hex hj⟩
      obtain ⟨him, hvis⟩ := visibleFrom_extentBegin.1 hm
      obtain ⟨e, he⟩ := Option.ne_none_iff_exists'.1 hvis.2
      have hdata := seekData_least hsize hmode hs hoff ⟨hm, hleast⟩ he
      have hmax : max (extentBegin i) (extentBegin m) = extentBegin m :=
        max_eq_right (Nat.mul_le_mul_right extentSize him)
      have hle : ∀ k e', i ≤ k → extentBegin k < f.size →
          s.findExtentFollow (some f.id) (extentBegin k) = some e' → m ≤ k := by
        intro k e' hik hk hek
        exact hleast (visibleFrom_extentBegin.2 ⟨hik, hk, by simp [hek]⟩)
      rw [hmax] at hdata
      cases herr : e.error with
      | true =>
          refine .inl ⟨fun o ho => ?_, fun j hj => ?_⟩
          · rw [hdata, herr] at ho
            cases ho
          · obtain ⟨hij, hj, hall⟩ := hj
            obtain ⟨e', he'⟩ := Option.ne_none_iff_exists'.1 hj.2
            have := hall m e him (hle j e' hij hj.1 he') hvis.1 he
            rw [herr] at this
            cases this
      | false =>
          refine .inr ⟨m, by rw [hdata, herr]; rfl, him, hoff, fun j => ⟨?_, ?_⟩⟩
          · rintro ⟨hij, hj, hall⟩
            obtain ⟨e', he'⟩ := Option.ne_none_iff_exists'.1 hj.2
            rcases (hle j e' hij hj.1 he').eq_or_lt with heq | hlt
            · exact .inl heq.symm
            · exact .inr ⟨hlt, hj, fun k e hk => hall k e (him.trans (Nat.le_of_succ_le hk))⟩
          · rintro (rfl | ⟨hmj, hj, hall⟩)
            · refine ⟨him, hvis, fun k e' hik hkj hk hek => ?_⟩
              obtain rfl := Nat.le_antisymm hkj (hle k e' hik hk hek)
              rw [he] at hek
              rw [← Option.some.inj hek, herr]
            · refine ⟨by omega, hj, fun k e' hik hkj hk hek => ?_⟩
              rcases (hle k e' hik hk hek).eq_or_lt with rfl | hlt
              · rw [he] at hek
                rw [← Option.some.inj hek, herr]
              · exact hall k e' hlt hkj hk hek
    · refine .inl ⟨fun o ho => ?_, fun j hj => hex ⟨j, visibleFrom_extentBegin.2 ⟨hj.1, hj.2.1⟩⟩⟩
      rw [seekData_none hsize hmode hs hoff hex] at ho
      cases ho
  · refine .inl ⟨fun o ho => ?_, fun j hj => hoff (lt_of_extentBegin_lt hj.1 hj.2.1.1)⟩
    rw [seekData, if_neg (by simp [hmode]), if_pos (by omega)] at ho
    cases ho

/-- **Every visible extent, once and in order.** -/
theorem seekAll_spec {f : File} (hsize : f.size ≤ fileMaxSize) (hmode : f.openType = .readonly)
    (hs : s.ensureStatus = none) (n i : ℕ) (hn : f.size ≤ extentBegin (i + n)) :
    (s.seekAll f n (extentBegin i)).Pairwise (· < ·) ∧
      ∀ o, o ∈ s.seekAll f n (extentBegin i) ↔ ∃ j, o = extentBegin j ∧ s.Listed f i j := by
  induction n generalizing i with
  | zero =>
      refine ⟨.nil, fun o => ⟨fun h => absurd h List.not_mem_nil, ?_⟩⟩
      rintro ⟨j, -, hj⟩
      have := lt_of_extentBegin_lt hj.1 hj.2.1.1
      rw [Nat.add_zero] at hn
      omega
  | succ n ih =>
      rcases seekData_extentBegin i hsize hmode hs with ⟨hno, hnone⟩ | ⟨m, hm, him, -, hiff⟩
      · have hnil : s.seekAll f (n + 1) (extentBegin i) = [] := by
          rw [seekAll]
          split
          · rename_i o ho
            exact absurd ho (hno o)
          · rfl
        rw [hnil]
        refine ⟨.nil, fun o => ⟨fun h => absurd h List.not_mem_nil, ?_⟩⟩
        rintro ⟨j, -, hj⟩
        exact absurd hj (hnone j)
      · have hnext : extentBegin m + extentSize = extentBegin (m + 1) :=
          (Nat.succ_mul m extentSize).symm
        have hcons : s.seekAll f (n + 1) (extentBegin i) =
            extentBegin m :: s.seekAll f n (extentBegin (m + 1)) := by
          simp only [seekAll, hm, hnext]
        obtain ⟨hsorted, hmem⟩ := ih (m + 1) (hn.trans (Nat.mul_le_mul_right extentSize (by omega)))
        rw [hcons]
        constructor
        · refine List.pairwise_cons.2 ⟨fun o ho => ?_, hsorted⟩
          obtain ⟨j, rfl, hj⟩ := (hmem o).1 ho
          exact Nat.mul_lt_mul_of_pos_right hj.1 (by norm_num)
        · intro o
          rw [List.mem_cons, hmem]
          constructor
          · rintro (rfl | ⟨j, rfl, hj⟩)
            · exact ⟨m, rfl, (hiff m).2 (.inl rfl)⟩
            · exact ⟨j, rfl, (hiff j).2 (.inr hj)⟩
          · rintro ⟨j, rfl, hj⟩
            rcases (hiff j).1 hj with rfl | hj
            · exact .inl rfl
            · exact .inr ⟨j, rfl, hj⟩

/-- **`cyanfs_seek_data` agrees with what reads see.**  For an offset inside a file
that is open for reading: a visible extent from there on is answered with success
or, if the first one has its error mark set, with an I/O error, and without one the
answer is that there is none; `n` is never `NULL`.  The offsets that repeated calls
answer are the begins of the visible extents, up to the first with an error. -/
theorem seekData_agrees {f : File} (hsize : f.size ≤ fileMaxSize) (hmode : f.openType = .readonly)
    (hs : s.ensureStatus = none) :
    (∀ fOff < f.size,
      ((s.seekData f fOff = .fail .io ∨ ∃ o, s.seekData f fOff = .found o) ↔
        ∃ j, s.VisibleFrom f fOff j) ∧
      ((¬ ∃ j, s.VisibleFrom f fOff j) → s.seekData f fOff = .fail .noent) ∧
      (∀ j e, IsLeast {j | s.VisibleFrom f fOff j} j →
        s.findExtentFollow (some f.id) (extentBegin j) = some e →
          s.seekData f fOff = if e.error then .fail .io else .found (max fOff (extentBegin j))) ∧
      s.seekData f fOff ≠ .null) ∧
    ∀ n, f.size ≤ extentBegin n →
      (s.seekAll f n 0).Pairwise (· < ·) ∧
        ∀ o, o ∈ s.seekAll f n 0 ↔ ∃ j, o = extentBegin j ∧ s.Listed f 0 j := by
  refine ⟨fun fOff hoff => ?_, fun n hn => ?_⟩
  · have hleast := fun j e => seekData_least (s := s) (j := j) (e := e) hsize hmode hs hoff
    by_cases hex : ∃ j, s.VisibleFrom f fOff j
    · obtain ⟨j, hj⟩ : ∃ j, IsLeast {j | s.VisibleFrom f fOff j} j := by
        classical
        exact ⟨Nat.find hex, Nat.find_spec hex, fun j hj => Nat.find_min' hex hj⟩
      obtain ⟨e, he⟩ := Option.ne_none_iff_exists'.1 hj.1.2.2
      have hdata := hleast j e hj he
      refine ⟨⟨fun _ => hex, fun _ => ?_⟩, fun h => absurd hex h, hleast, ?_⟩
      · cases herr : e.error with
        | true => exact .inl (by rw [hdata, herr]; rfl)
        | false => exact .inr ⟨_, by rw [hdata, herr]; rfl⟩
      · rw [hdata]
        split_ifs <;> simp
    · have hdata := seekData_none hsize hmode hs hoff hex
      refine ⟨⟨?_, fun h => absurd h hex⟩, fun _ => hdata, hleast, by simp [hdata]⟩
      rw [hdata]
      rintro (h | ⟨o, h⟩) <;> cases h
  · have := seekAll_spec (s := s) hsize hmode hs n 0 (by rwa [Nat.zero_add])
    rwa [show extentBegin 0 = 0 from Nat.zero_mul _] at this

/-- A file of three extents whose second is its own and whose third is its
parent's: both are answered, in this order. -/
theorem seekData_agrees_forked :
    let parent : File := { newFile (markerCandidate 0) 1 none with
      size := 3 * extentSize, children := 1, extents := (∅ : ExtTreeMap ℕ Extent).insert 2 ⟨5, false, false⟩ }
    let child : File := { newFile (markerCandidate 1) 2 (some parent) with
      openType := .readonly, reader := 1, extents := (∅ : ExtTreeMap ℕ Extent).insert 1 ⟨4, false, false⟩ }
    let s : Super := { opened 8 false false ⟨List.replicate 16 0, rfl⟩ (fun _ => 0) with
      ready := true, filesById := ((∅ : ExtTreeMap ℕ File).insert 1 parent).insert 2 child }
    child.size ≤ fileMaxSize ∧ child.openType = .readonly ∧ s.ensureStatus = none ∧
      s.seekData child 0 = .found extentSize ∧
      2 * extentSize ∈ s.seekAll child 3 0 ∧ (s.seekAll child 3 0).Pairwise (· < ·) := by
  intro parent child s
  have hsize : child.size = 3 * extentSize := rfl
  have hmax : child.size ≤ fileMaxSize := by decide
  have hown : s.findExtentFollow (some child.id) (extentBegin 1) = some ⟨4, false, false⟩ := by
    rfl
  have hparent : s.findExtentFollow (some child.id) (extentBegin 2) = some ⟨5, false, false⟩ := by
    rfl
  have hzero : s.findExtentFollow (some child.id) (extentBegin 0) = none := by
    rfl
  have hagree := seekData_agrees (s := s) (f := child) hmax rfl rfl
  refine ⟨hmax, rfl, rfl, ?_, ?_, (hagree.2 3 (by decide)).1⟩
  · refine (hagree.1 0 (by decide)).2.2.1 1 _ ⟨⟨by decide, by decide, by simp [hown]⟩, ?_⟩ hown
    rintro j ⟨-, -, hj⟩
    by_contra hlt
    obtain rfl : j = 0 := by omega
    exact hj hzero
  · refine ((hagree.2 3 (by decide)).2 _).2 ⟨2, rfl, Nat.zero_le _, ⟨by decide, by simp [hparent]⟩, ?_⟩
    intro k e _ hk _ he
    interval_cases k
    · rw [hzero] at he
      cases he
    · rw [hown] at he
      rw [← Option.some.inj he]
    · rw [hparent] at he
      rw [← Option.some.inj he]

end Super

end Cyanfs
