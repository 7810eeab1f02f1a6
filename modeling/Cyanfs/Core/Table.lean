/-
# The file table

What the functions of `core/super.c` do to the two tables, said once: the table
`filesById` after a file is stored, changed, truncated, created or deleted, the
extents of a file after some of its nodes are unmapped, and, as the relation
`Super.Replayed`, what `__cyanfs_super_journal_replay` accepts and where it leads
(`replay_eq_ok`).
-/

import Cyanfs.Core.Super

namespace Cyanfs

open Lib Std

namespace Super

/-- The node with index `i` in the extents tree of file `id`. -/
def extentAt (s : Super) (id i : ℕ) : Option Extent := (s.filesById[id]?).bind (·.extents[i]?)

/-- Every file is stored under its own id. -/
def Keyed (s : Super) : Prop := ∀ (id : ℕ) (f : File), s.filesById[id]? = some f → f.id = id

variable {s s' : Super} {f : File} {b i id : ℕ}

/-! ### The tables under the elementary updates -/

theorem extentAt_eq_some {e : Extent} : s.extentAt id i = some e ↔
    ∃ f, s.filesById[id]? = some f ∧ f.extents[i]? = some e := by
  simp [extentAt, Option.bind_eq_some_iff]

theorem extentAt_of_file (hf : s.filesById[id]? = some f) (i : ℕ) :
    s.extentAt id i = f.extents[i]? := by
  simp [extentAt, hf]

@[simp] theorem filesById_setFile (s : Super) (f : File) (id : ℕ) :
    (s.setFile f).filesById[id]? = if id = f.id then some f else s.filesById[id]? := by
  simp only [setFile]
  grind

@[simp] theorem extentAt_setFile (s : Super) (f : File) (id i : ℕ) :
    (s.setFile f).extentAt id i = if id = f.id then f.extents[i]? else s.extentAt id i := by
  simp only [extentAt, filesById_setFile]
  split_ifs <;> rfl

theorem filesById_updFile (s : Super) (id : ℕ) (g : File → File) (k : ℕ) :
    (s.updFile id g).filesById[k]? = if k = id then (s.filesById[id]?).map g else s.filesById[k]? := by
  unfold updFile
  split <;> grind

theorem setFile_keyed (h : s.Keyed) (f : File) : (s.setFile f).Keyed := by
  intro id g hg
  rw [filesById_setFile] at hg
  split_ifs at hg with he
  · rw [← Option.some.inj hg, he]
  · exact h id g hg

/-! ### Mapping -/

/-- The state of `superToFile` when the index is free, as `mapExtent` has made
sure of. -/
theorem superToFile_eq (hi : f.extents[i]? = none) : s.superToFile f b i =
    { s with
      freeExtents := s.freeExtents - 1
      free := s.free.erase b
      dataExtents := s.dataExtents + 1 }.setFile
    { f with extents := f.extents.insert i ⟨b, false, false⟩, extentCount := f.extentCount + 1 } := by
  have hc : f.extents.contains i = false := by grind
  simp [superToFile, bugOn, hc]

theorem extentAt_superToFile (hi : f.extents[i]? = none) (k j : ℕ) :
    (s.superToFile f b i).extentAt k j =
      if k = f.id then (if j = i then some ⟨b, false, false⟩ else f.extents[j]?)
      else s.extentAt k j := by
  rw [superToFile_eq hi, extentAt_setFile]
  split_ifs with hk hj
  · simp [hj]
  · grind
  · rfl

/-- `mapExtent` succeeds exactly on an unused index. -/
theorem mapExtent_eq_ok {fId : ℕ} : s.mapExtent f b fId = .ok s' ↔
    f.extents[fileIndex fId]? = none ∧ s' = s.superToFile f b (fileIndex fId) := by
  -- the field `v.file` keeps 30 bits of the 32 that the lookup uses
  have hidx : fileIndex (extentFrom (extentBegin fId)) = fileIndex fId := by
    simp only [fileIndex, extentFrom, extentBegin, extentSize, extentCountMax]
    omega
  unfold mapExtent File.findExtent
  rw [hidx]
  cases h : f.extents[fileIndex fId]? <;> simp [eq_comm]

/-! ### Unmapping -/

/-- The states that unmapping can lead to differ from the first in these fields
only. -/
def Unmapped (s s' : Super) : Prop := ∃ filesById dataExtents free freeExtents unused bug,
  s' = { s with
    filesById := filesById
    dataExtents := dataExtents
    free := free
    freeExtents := freeExtents
    unused := unused
    bug := bug }

theorem Unmapped.refl (s : Super) : s.Unmapped s := ⟨_, _, _, _, _, _, rfl⟩

theorem Unmapped.trans {s₁ s₂ s₃ : Super} (h₁ : s₁.Unmapped s₂) (h₂ : s₂.Unmapped s₃) :
    s₁.Unmapped s₃ := by
  obtain ⟨_, _, _, _, _, _, rfl⟩ := h₁
  obtain ⟨_, _, _, _, _, _, rfl⟩ := h₂
  exact ⟨_, _, _, _, _, _, rfl⟩

theorem unmapped_unmapExtent (s : Super) (id i : ℕ) : s.Unmapped (s.unmapExtent id i) := by
  unfold unmapExtent
  split
  · exact .refl s
  · split
    · exact .refl s
    · simp only [bugOn, setFile]
      split_ifs <;> exact ⟨_, _, _, _, _, _, rfl⟩

theorem unmapped_updFile (s : Super) (id : ℕ) (g : File → File) : s.Unmapped (s.updFile id g) := by
  unfold updFile
  split <;> exact ⟨_, _, _, _, _, _, rfl⟩

theorem unmapped_foldl (s : Super) (id : ℕ) (ks : List ℕ) :
    s.Unmapped (ks.foldl (fun s i => s.unmapExtent id i) s) := by
  induction ks generalizing s with
  | nil => exact .refl s
  | cons k ks ih => exact (unmapped_unmapExtent s id k).trans (ih _)

theorem unmapped_truncateFile (s : Super) (f : File) (size : ℕ) :
    s.Unmapped (s.truncateFile f size) :=
  (unmapped_foldl s f.id _).trans (unmapped_updFile _ _ _)

end Super

/-- The file without its node at index `i`. -/
def File.unmapAt (f : File) (i : ℕ) : File :=
  if f.extents.contains i then
    { f with extents := f.extents.erase i, extentCount := f.extentCount - 1 }
  else f

theorem File.extents_unmapAt (f : File) (i j : ℕ) :
    (f.unmapAt i).extents[j]? = if j = i then none else f.extents[j]? := by
  unfold unmapAt
  grind

/-- The file without its nodes at the given indexes. -/
def File.unmapAll (f : File) (ks : List ℕ) : File := ks.foldl File.unmapAt f

theorem File.unmapAll_eq (f : File) (ks : List ℕ) : ∃ extents extentCount,
    f.unmapAll ks = { f with extents := extents, extentCount := extentCount } := by
  induction ks generalizing f with
  | nil => exact ⟨_, _, rfl⟩
  | cons k ks ih =>
      obtain ⟨x, c, h⟩ := ih (f.unmapAt k)
      refine ⟨x, c, ?_⟩
      rw [File.unmapAll, List.foldl_cons, ← File.unmapAll, h, File.unmapAt]
      split_ifs <;> rfl

theorem File.extents_unmapAll (f : File) (ks : List ℕ) (j : ℕ) :
    (f.unmapAll ks).extents[j]? = if j ∈ ks then none else f.extents[j]? := by
  induction ks generalizing f with
  | nil => simp [unmapAll]
  | cons k ks ih =>
      rw [unmapAll, List.foldl_cons, ← unmapAll, ih, extents_unmapAt]
      grind

namespace Super

variable {s s' : Super} {f : File} {b i id : ℕ}

theorem filesById_unmapExtent (hk : s.Keyed) (id i k : ℕ) :
    (s.unmapExtent id i).filesById[k]? =
      if k = id then (s.filesById[id]?).map (·.unmapAt i) else s.filesById[k]? := by
  unfold unmapExtent
  split
  · rename_i hf
    split_ifs with h
    · simp [h, hf]
    · rfl
  · rename_i f hf
    have hid := hk id f hf
    split
    · rename_i he
      have hc : i ∉ f.extents := by grind
      split_ifs with h
      · simp [h, hf, File.unmapAt, hc]
      · rfl
    · rename_i e he
      have hc : i ∈ f.extents := by grind
      simp only
      split_ifs with hr h h <;>
        simp [bugOn, hf, hid, h, File.unmapAt, hc, apply_ite Super.filesById]

theorem unmapExtent_keyed (hk : s.Keyed) (id i : ℕ) : (s.unmapExtent id i).Keyed := by
  intro k g hg
  rw [filesById_unmapExtent hk] at hg
  split_ifs at hg with h
  · obtain ⟨f, hf, rfl⟩ := Option.map_eq_some_iff.1 hg
    have := hk id f hf
    unfold File.unmapAt
    split_ifs <;> simp [this, h]
  · exact hk k g hg

theorem extentAt_unmapExtent (hk : s.Keyed) (id i k j : ℕ) :
    (s.unmapExtent id i).extentAt k j = if k = id ∧ j = i then none else s.extentAt k j := by
  simp only [extentAt, filesById_unmapExtent hk]
  by_cases h : k = id
  · subst h
    cases hf : s.filesById[k]? with
    | none => simp
    | some f => simp [File.extents_unmapAt]
  · simp [h]

/-- The node that `unmapExtent` finds goes to `unused`, or to `free` during a
replay. -/
theorem unmapExtent_sets {e : Extent} (he : s.extentAt id i = some e) :
    (s.unmapExtent id i).dataExtents = s.dataExtents - 1 ∧
    (s.unmapExtent id i).unused = (if s.ready then insert e.backend s.unused else s.unused) ∧
    (s.unmapExtent id i).free = (if s.ready then s.free else insert e.backend s.free) ∧
    (s.unmapExtent id i).freeExtents = (if s.ready then s.freeExtents else s.freeExtents + 1) ∧
    (s.unmapExtent id i).bug = (if e.pending then some .unmapPending else s.bug) := by
  obtain ⟨f, hf, hi⟩ := extentAt_eq_some.1 he
  simp only [unmapExtent, hf, hi, bugOn, setFile]
  split_ifs <;> exact ⟨rfl, rfl, rfl, rfl, rfl⟩

theorem unmapExtent_of_none (hi : s.extentAt id i = none) : s.unmapExtent id i = s := by
  unfold unmapExtent
  split
  · rfl
  · rename_i f hf
    rw [extentAt_of_file hf] at hi
    simp [hi]

theorem filesById_foldl_unmapExtent (hk : s.Keyed) (id : ℕ) (ks : List ℕ) (k : ℕ) :
    (ks.foldl (fun s i => s.unmapExtent id i) s).filesById[k]? =
      if k = id then (s.filesById[id]?).map (·.unmapAll ks) else s.filesById[k]? := by
  induction ks generalizing s with
  | nil =>
      split_ifs with h
      · simp [h, File.unmapAll]
      · rfl
  | cons j ks ih =>
      rw [List.foldl_cons, ih (unmapExtent_keyed hk id j)]
      simp only [filesById_unmapExtent hk, if_true]
      split_ifs with h
      · cases s.filesById[id]? <;> simp [File.unmapAll]
      · rfl

/-- The file table after `__cyanfs_file_truncate`. -/
theorem filesById_truncateFile (hk : s.Keyed) (hf : s.filesById[f.id]? = some f) (size k : ℕ) :
    (s.truncateFile f size).filesById[k]? =
      if k = f.id then some { f.unmapAll (truncateKeys f size) with size := size }
      else s.filesById[k]? := by
  rw [truncateFile, filesById_updFile]
  simp only [filesById_foldl_unmapExtent hk, if_true, hf]
  split_ifs <;> rfl

/-- Every node is unmapped by a truncation to `0`. -/
theorem extents_unmapAll_zero (f : File) (i : ℕ) :
    (f.unmapAll (truncateKeys f 0)).extents[i]? = none := by
  rw [File.extents_unmapAll, truncateKeys, if_pos rfl]
  split_ifs with h
  · rfl
  · rw [ExtTreeMap.mem_keys] at h
    grind

/-! ### Creating -/

theorem initFile_eq_ok {name : FileName} {parent : Option File} :
    s.initFile name id parent = .ok s' ↔ s.filesById[id]? = none ∧ s.filesByName name = none ∧
      s' = { (match parent with
          | some p => (s.setFile (newFile name id parent)).setFile { p with children := p.children + 1 }
          | none => s.setFile (newFile name id parent)) with
        filesByName := Function.update s.filesByName name (some id)
        maxFileId := if s.maxFileId < id then id else s.maxFileId
        files := s.files + 1 } := by
  have hc : s.filesById.contains id = true ↔ s.filesById[id]? ≠ none := by grind
  unfold initFile
  by_cases h₁ : s.filesById[id]? = none
  · rw [if_neg (by simp [h₁, hc])]
    by_cases h₂ : s.filesByName name = none
    · rw [if_neg (by simp [h₂])]
      simp only [h₁, h₂, true_and]
      constructor
      · intro h
        cases parent <;> exact (Except.ok.inj h).symm
      · rintro rfl
        cases parent <;> rfl
    · rw [if_pos (Option.isSome_iff_ne_none.2 h₂)]
      simp [h₂]
  · rw [if_pos (hc.2 h₁)]
    simp [h₁]

/-- The file table after `__cyanfs_init_file`. -/
theorem filesById_initFile {name : FileName} {parent : Option File}
    (hi : s.initFile name id parent = .ok s') (hp : ∀ p ∈ parent, s.filesById[p.id]? = some p)
    (k : ℕ) : s'.filesById[k]? =
      if k = id then some (newFile name id parent)
      else if (∃ p ∈ parent, p.id = k) then
        (s.filesById[k]?).map fun p => { p with children := p.children + 1 }
      else s.filesById[k]? := by
  obtain ⟨hid, -, rfl⟩ := initFile_eq_ok.1 hi
  cases parent with
  | none => simp [newFile]
  | some p =>
      have hps := hp p rfl
      have hne : p.id ≠ id := by
        intro he
        simp [he, hid] at hps
      simp only [filesById_setFile, Option.mem_def, Option.some.injEq, exists_eq_left', newFile]
      by_cases hk : k = p.id
      · subst hk
        simp [hne, hps]
      · simp [hk, Ne.symm hk]

/-! ### Deleting -/

/-- The file table after `__cyanfs_delete_file`. -/
theorem filesById_deleteFile (hk : s.Keyed) (hf : s.filesById[f.id]? = some f) (k : ℕ) :
    (s.deleteFile f).filesById[k]? =
      if k = f.id then none
      else if f.parent = some k then
        (s.filesById[k]?).map fun p => { p with children := p.children - 1 }
      else s.filesById[k]? := by
  have ht := filesById_truncateFile hk hf 0
  have herase : ∀ k : ℕ, ((s.truncateFile f 0).filesById.erase f.id)[k]? =
      if k = f.id then none else s.filesById[k]? := by
    intro k
    have := ht k
    grind
  unfold deleteFile
  cases hp : f.parent with
  | none => simpa using herase k
  | some p =>
      simp only [filesById_updFile, herase, Option.some.injEq]
      by_cases h₁ : k = p
      · subst h₁
        split_ifs <;> rfl
      · simp [h₁, Ne.symm h₁]

theorem deleteFile_shape (s : Super) (f : File) : ∃ filesById, s.deleteFile f =
    { s.truncateFile f 0 with
      filesById := filesById
      filesByName := Function.update s.filesByName f.name none
      files := s.files - 1 } := by
  obtain ⟨_, _, _, _, _, _, hu⟩ := unmapped_truncateFile s f 0
  have hn : (s.truncateFile f 0).filesByName = s.filesByName := by rw [hu]
  have hc : (s.truncateFile f 0).files = s.files := by rw [hu]
  unfold deleteFile
  simp only [hn, hc]
  cases f.parent with
  | none => exact ⟨_, rfl⟩
  | some p =>
      simp only [updFile]
      split <;> exact ⟨_, rfl⟩

/-! ### Replay -/

/-- What `__cyanfs_super_journal_replay` accepts, and the state it leads to. -/
inductive Replayed (s : Super) : Entry → Super → Prop
  | create {id : ℕ} {raw name : FileName} {s' : Super} (hn : raw.normalize = some name)
      (h0 : id ≠ 0) (hlimit : s.files < superMaxFiles) (hlookup : s.lookupByName name = none)
      (hi : s.initFile name id none = .ok s') : Replayed s (.create id raw) s'
  | truncate {id size : ℕ} {f : File} (hs : sizeValid size) (hf : s.filesById[id]? = some f)
      (hc : f.children = 0) : Replayed s (.truncate id size) (s.truncateFile f size)
  | fork {id pid : ℕ} {raw name : FileName} {p : File} {s' : Super}
      (hn : raw.normalize = some name) (h0 : id ≠ 0) (hlt : pid < id)
      (hlimit : s.files < superMaxFiles) (hlookup : s.lookupByName name = none)
      (hp : s.filesById[pid]? = some p) (hi : s.initFile name id (some p) = .ok s') :
      Replayed s (.fork id pid raw) s'
  | delete {id : ℕ} {f : File} (hf : s.filesById[id]? = some f) (hc : f.children = 0) :
      Replayed s (.delete id) (s.deleteFile f)
  | bind {id i b : ℕ} {f : File} (hf : s.filesById[id]? = some f) (hi : i ≤ extentIndexMax)
      (hsize : extentBegin i < f.size) (hb : b ≤ extentIndexMax) (hfree : b ∈ s.free)
      (hnone : f.extents[i]? = none) : Replayed s (.bind id i b) (s.superToFile f b i)
  | unbind {id i : ℕ} {f : File} {e : Extent} (hf : s.filesById[id]? = some f)
      (hi : i ≤ extentIndexMax) (hsize : extentBegin i < f.size) (he : f.extents[i]? = some e) :
      Replayed s (.unbind id i) (s.unmapExtent f.id i)
  | rename {id : ℕ} {raw name : FileName} {f : File} (hn : raw.normalize = some name)
      (hf : s.filesById[id]? = some f) (hlookup : ∀ p, s.lookupByName name = some p → p.id = f.id) :
      Replayed s (.rename id raw) (s.renameFile f name)
  | next {b : ℕ} (hb : b ≤ extentIndexMax) (hfree : b ∈ s.free) :
      Replayed s (.next b) (s.takeJournal b)

theorem mem_of_findNearlyExtent {n : ℕ} (h : s.findNearlyExtent n = some b) : b ∈ s.free := by
  unfold findNearlyExtent at h
  split_ifs at h
  · cases hl : least (s.free.filter (n ≤ ·)) with
    | none =>
        rw [hl] at h
        exact mem_of_least h
    | some a =>
        rw [hl] at h
        obtain rfl : a = b := by simpa using h
        exact (Finset.mem_filter.1 (mem_of_least hl)).1
  · exact mem_of_least h

theorem findExtent_eq_some : s.findExtent i = some b ↔ b = i ∧ i ≤ extentIndexMax ∧ i ∈ s.free := by
  unfold findExtent
  split_ifs with h₁ h₂
  · simp; omega
  · simp only [Option.some.injEq]
    constructor
    · rintro rfl
      exact ⟨rfl, by omega, h₂⟩
    · exact fun h => h.1.symm
  · simp [h₂]

theorem fileIndex_extentFrom_extentBegin {i : ℕ} (hi : i ≤ extentIndexMax) :
    fileIndex (extentFrom (extentBegin i)) = i := by
  simp only [fileIndex, extentFrom, extentBegin, extentSize, extentCountMax, extentIndexMax] at *
  omega

theorem bindExtent_eq_ok : s.bindExtent f i b = .ok s' ↔
    (i ≤ extentIndexMax ∧ extentBegin i < f.size) ∧ (b ≤ extentIndexMax ∧ b ∈ s.free) ∧
      f.extents[i]? = none ∧ s' = s.superToFile f b i := by
  unfold bindExtent
  by_cases h₁ : extentIndexMax < i ∨ f.size ≤ extentBegin i
  · rw [if_pos h₁]
    simp; omega
  · rw [if_neg h₁]
    push Not at h₁
    have hi : fileIndex i = i := fileIndex_of_lt (by simp only [extentIndexMax, extentCountMax] at *; omega)
    cases hb : s.findExtent b with
    | none =>
        simp only [reduceCtorEq, false_iff]
        rintro ⟨-, h, -⟩
        simp [findExtent_eq_some.2 ⟨rfl, h⟩] at hb
    | some b' =>
        obtain ⟨rfl, hb⟩ := findExtent_eq_some.1 hb
        simp only [mapExtent_eq_ok, hi, h₁, hb, and_self, true_and]

theorem unbindExtent_eq_ok : s.unbindExtent f i = .ok s' ↔
    (i ≤ extentIndexMax ∧ extentBegin i < f.size) ∧ (∃ e, f.extents[i]? = some e) ∧
      s' = s.unmapExtent f.id i := by
  unfold unbindExtent
  by_cases h₁ : extentIndexMax < i ∨ f.size ≤ extentBegin i
  · rw [if_pos h₁]
    simp; omega
  · rw [if_neg h₁]
    push Not at h₁
    rw [File.findExtent, fileIndex_extentFrom_extentBegin h₁.1]
    cases he : f.extents[i]? <;> simp [h₁, eq_comm]

/-- **The replay of one entry, in both directions.** -/
theorem replay_eq_ok {e : Entry} : s.replay e = .ok s' ↔ s.Replayed e s' := by
  have hcontains : ∀ k : ℕ, s.filesById.contains k = true ↔ s.filesById[k]? ≠ none := by
    intro k
    grind
  constructor
  · intro h
    cases e with
    | create id raw =>
        simp only [replay, replayWith, if_true] at h
        split at h
        · cases h
        · rename_i name hn
          split_ifs at h with h₁ h₂
          push Not at h₁
          exact .create hn h₁.1 (by omega) (by simpa using h₁.2.2) h
    | truncate id size =>
        simp only [replay, replayWith] at h
        split_ifs at h with h₁
        split at h
        · cases h
        · rename_i f hf
          split_ifs at h with h₂
          obtain rfl := Except.ok.inj h
          exact .truncate h₁ hf (not_not.1 h₂)
    | fork id pid raw =>
        simp only [replay, replayWith, if_true] at h
        split at h
        · cases h
        · rename_i name hn
          split_ifs at h with h₁ h₂
          push Not at h₁
          split at h
          · cases h
          · rename_i p hp
            exact .fork hn h₁.1 h₁.2.1 (by omega) (by simpa using h₁.2.2.2) hp h
    | delete id =>
        simp only [replay, replayWith] at h
        split at h
        · cases h
        · rename_i f hf
          split_ifs at h with h₂
          obtain rfl := Except.ok.inj h
          exact .delete hf (not_not.1 h₂)
    | bind id i b =>
        simp only [replay, replayWith] at h
        split at h
        · cases h
        · rename_i f hf
          obtain ⟨⟨hi, hsize⟩, ⟨hb, hfree⟩, hnone, rfl⟩ := bindExtent_eq_ok.1 h
          exact .bind hf hi hsize hb hfree hnone
    | unbind id i =>
        simp only [replay, replayWith] at h
        split at h
        · cases h
        · rename_i f hf
          obtain ⟨⟨hi, hsize⟩, ⟨e, he⟩, rfl⟩ := unbindExtent_eq_ok.1 h
          exact .unbind hf hi hsize he
    | rename id raw =>
        simp only [replay, replayWith] at h
        split at h
        · cases h
        · rename_i name hn
          split at h
          · cases h
          · rename_i f hf
            split at h
            · rename_i p hp
              split_ifs at h with hne
              obtain rfl := Except.ok.inj h
              exact .rename hn hf fun q hq => by
                rw [hp] at hq
                exact Option.some.inj hq ▸ not_not.1 hne
            · rename_i hnone
              obtain rfl := Except.ok.inj h
              exact .rename hn hf (by simp [hnone])
    | next b =>
        simp only [replay, replayWith] at h
        split at h
        · cases h
        · rename_i b' hb
          obtain ⟨rfl, hb, hfree⟩ := findExtent_eq_some.1 hb
          obtain rfl := Except.ok.inj h
          exact .next hb hfree
  · intro h
    cases h with
    | create hn h0 hlimit hlookup hi =>
        have hnone := (initFile_eq_ok.1 hi).1
        simp only [replay, replayWith, hn, if_true]
        rw [if_neg (by simp [h0, hcontains, hnone, hlookup]), if_neg (by omega), hi]
    | truncate hs hf hc => simp [replay, replayWith, hs, hf, hc]
    | fork hn h0 hlt hlimit hlookup hp hi =>
        have hnone := (initFile_eq_ok.1 hi).1
        simp only [replay, replayWith, hn, if_true]
        rw [if_neg (by simp [h0, hcontains, hnone, hlookup, hlt]), if_neg (by omega)]
        simp [hp, hi]
    | delete hf hc => simp [replay, replayWith, hf, hc]
    | bind hf hi hsize hb hfree hnone =>
        simp only [replay, replayWith, hf]
        exact bindExtent_eq_ok.2 ⟨⟨hi, hsize⟩, ⟨hb, hfree⟩, hnone, rfl⟩
    | unbind hf hi hsize he =>
        simp only [replay, replayWith, hf]
        exact unbindExtent_eq_ok.2 ⟨⟨hi, hsize⟩, ⟨_, he⟩, rfl⟩
    | rename hn hf hlookup =>
        simp only [replay, replayWith, hn, hf]
        split
        · rename_i p hp
          simp [hlookup p hp]
        · rfl
    | next hb hfree =>
        simp [replay, replayWith, findExtent_eq_some.2 ⟨rfl, hb, hfree⟩]

/-- Running out of memory refuses an entry and changes nothing else. -/
theorem replay_of_replayWith {m : Bool} {e : Entry} (h : s.replayWith m e = .ok s') :
    s.replay e = .ok s' := by
  cases m with
  | true => exact h
  | false =>
      cases e with
      | create id raw =>
          simp only [replayWith, Bool.false_eq_true, if_false] at h
          split at h
          · cases h
          · split_ifs at h
      | fork id pid raw =>
          simp only [replayWith, Bool.false_eq_true, if_false] at h
          split at h
          · cases h
          · split_ifs at h
            split at h <;> cases h
      | _ => exact h

/-- The replay of an entry changes these fields only. -/
theorem Replayed.shape {e : Entry} (h : s.Replayed e s') :
    ∃ filesById filesByName files maxFileId free freeExtents dataExtents unused bug journal
      journalExtents, s' = { s with
        filesById := filesById
        filesByName := filesByName
        files := files
        maxFileId := maxFileId
        free := free
        freeExtents := freeExtents
        dataExtents := dataExtents
        unused := unused
        bug := bug
        journal := journal
        journalExtents := journalExtents } := by
  cases h with
  | create hn h0 hlimit hlookup hi =>
      obtain ⟨-, -, rfl⟩ := initFile_eq_ok.1 hi
      exact ⟨_, _, _, _, _, _, _, _, _, _, _, rfl⟩
  | fork hn h0 hlt hlimit hlookup hp hi =>
      obtain ⟨-, -, rfl⟩ := initFile_eq_ok.1 hi
      exact ⟨_, _, _, _, _, _, _, _, _, _, _, rfl⟩
  | rename hn hf hlookup => exact ⟨_, _, _, _, _, _, _, _, _, _, _, rfl⟩
  | @truncate _ size f hs hf hc =>
      obtain ⟨_, _, _, _, _, _, hu⟩ := unmapped_truncateFile s f size
      exact ⟨_, _, _, _, _, _, _, _, _, _, _, hu⟩
  | @delete _ f hf hc =>
      obtain ⟨_, hd⟩ := deleteFile_shape s f
      obtain ⟨_, _, _, _, _, _, hu⟩ := unmapped_truncateFile s f 0
      rw [hu] at hd
      exact ⟨_, _, _, _, _, _, _, _, _, _, _, hd⟩
  | bind hf hi hsize hb hfree hnone =>
      rw [superToFile_eq hnone]
      exact ⟨_, _, _, _, _, _, _, _, _, _, _, rfl⟩
  | @unbind _ i f e hf hi hsize he =>
      obtain ⟨_, _, _, _, _, _, hu⟩ := unmapped_unmapExtent s f.id i
      exact ⟨_, _, _, _, _, _, _, _, _, _, _, hu⟩
  | next hb hfree => exact ⟨_, _, _, _, _, _, _, _, _, _, _, rfl⟩

theorem Replayed.ready {e : Entry} (h : s.Replayed e s') : s'.ready = s.ready := by
  obtain ⟨_, _, _, _, _, _, _, _, _, _, _, hs⟩ := h.shape
  rw [hs]

theorem Replayed.totalExtents {e : Entry} (h : s.Replayed e s') :
    s'.totalExtents = s.totalExtents := by
  obtain ⟨_, _, _, _, _, _, _, _, _, _, _, hs⟩ := h.shape
  rw [hs]

/-- A NEXT entry adds its extent to `journal_extents`, and no other entry changes them. -/
theorem Replayed.mem_journal {e : Entry} (h : s.Replayed e s') (b : ℕ) :
    b ∈ s'.journal ↔ b ∈ s.journal ∨ e = .next b := by
  have hsame : s'.journal = s.journal → e ≠ .next b → (b ∈ s'.journal ↔ b ∈ s.journal ∨ e = .next b) :=
    fun hs hne => by rw [hs, or_iff_left hne]
  cases h with
  | create hn h0 hlimit hlookup hi | fork hn h0 hlt hlimit hlookup hp hi =>
      obtain ⟨-, -, rfl⟩ := initFile_eq_ok.1 hi
      exact hsame rfl (by simp)
  | rename => exact hsame rfl (by simp)
  | next hb hfree =>
      rw [takeJournal, Finset.mem_insert, Entry.next.injEq, or_comm, eq_comm]
  | @truncate _ size f =>
      obtain ⟨_, _, _, _, _, _, hu⟩ := unmapped_truncateFile s f size
      exact hsame (by rw [hu]) (by simp)
  | @delete _ f =>
      obtain ⟨_, hd⟩ := deleteFile_shape s f
      obtain ⟨_, _, _, _, _, _, hu⟩ := unmapped_truncateFile s f 0
      exact hsame (by rw [hd, hu]) (by simp)
  | bind hf hi hsize hb hfree hnone => exact hsame (by rw [superToFile_eq hnone]; rfl) (by simp)
  | @unbind _ i f =>
      obtain ⟨_, _, _, _, _, _, hu⟩ := unmapped_unmapExtent s f.id i
      exact hsame (by rw [hu]) (by simp)

end Super

end Cyanfs
