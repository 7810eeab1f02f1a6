/-
# The same disk on two platforms

The Linux driver and `cyanfs.edit` pass the size of the disk to `cyanfs_super_open`,
512 bytes for each sector.  The UEFI driver passes `Media->LastBlock << 9`, and the
last block of a disk of `n` sectors is `n - 1`: one sector less.  The number of
extents is the size without the super block, rounded down, so the two agree unless
the sectors end exactly where an extent does; there UEFI misses the last extent.

Where they agree, the mounts agree: the loader does not look at the options
(`parserHeader_options`, `parserPage_options`).
-/

import Cyanfs.Run.Boot

namespace Cyanfs

open Lib Std

/-- The size that the Linux driver and `cyanfs.edit` pass for a disk of `n` sectors. -/
def linuxSize (n : ℕ) : ℕ := n * 512

/-- The size that `CyanfsDriverStart` passes: `LastBlock << SECTOR_SHIFT`. -/
def uefiSize (n : ℕ) : ℕ := (n - 1) <<< 9

/-! ### The options of the super -/

/-- The same super with other options. -/
def Super.options (s : Super) (discard compact : Bool) : Super :=
  { s with discardEnabled := discard, compactEnabled := compact }

/-- The same outcome with other options. -/
def LoaderOut.options (discard compact : Bool) : LoaderOut → LoaderOut
  | .readPage l X => .readPage l (X.options discard compact)
  | .finish l X => .finish l (X.options discard compact)
  | .error X => .error (X.options discard compact)

section Options

variable (s : Super) (d c : Bool)

namespace Super

theorem filesById_options : (s.options d c).filesById = s.filesById := rfl

theorem setFile_options (f : File) : (s.options d c).setFile f = (s.setFile f).options d c := rfl

theorem bugOn_options (x : Bool) (b : Bug) : (s.options d c).bugOn x b = (s.bugOn x b).options d c := by
  unfold bugOn
  split <;> rfl

theorem updFile_options (id : ℕ) (g : File → File) :
    (s.options d c).updFile id g = (s.updFile id g).options d c := by
  unfold updFile
  rw [filesById_options]
  split <;> rfl

theorem superToFile_options (f : File) (b i : ℕ) :
    (s.options d c).superToFile f b i = (s.superToFile f b i).options d c := by
  unfold superToFile
  rw [← setFile_options, ← bugOn_options]
  rfl

theorem mapExtent_options (f : File) (b i : ℕ) :
    (s.options d c).mapExtent f b i = (s.mapExtent f b i).map (·.options d c) := by
  unfold mapExtent
  split
  · rfl
  · rw [superToFile_options]
    rfl

theorem unmapExtent_options (id i : ℕ) :
    (s.options d c).unmapExtent id i = (s.unmapExtent id i).options d c := by
  unfold unmapExtent
  rw [filesById_options]
  split
  · rfl
  split
  · rfl
  have hr : (s.options d c).ready = s.ready := rfl
  unfold bugOn
  simp only [hr]
  split_ifs <;> rfl

theorem truncateFile_options (f : File) (size : ℕ) :
    (s.options d c).truncateFile f size = (s.truncateFile f size).options d c := by
  have h : ∀ ks : List ℕ, ks.foldl (fun s i => s.unmapExtent f.id i) (s.options d c) =
      (ks.foldl (fun s i => s.unmapExtent f.id i) s).options d c := by
    intro ks
    induction ks generalizing s with
    | nil => rfl
    | cons k ks ih =>
        rw [List.foldl_cons, List.foldl_cons, unmapExtent_options]
        exact ih _
  unfold truncateFile
  rw [h, updFile_options]

theorem deleteFile_options (f : File) :
    (s.options d c).deleteFile f = (s.deleteFile f).options d c := by
  unfold deleteFile
  rw [truncateFile_options]
  simp only
  split
  · rw [← updFile_options]
    rfl
  · rfl

theorem initFile_options (name : FileName) (id : ℕ) (parent : Option File) :
    (s.options d c).initFile name id parent = (s.initFile name id parent).map (·.options d c) := by
  unfold initFile
  rw [filesById_options]
  have hn : (s.options d c).filesByName = s.filesByName := rfl
  rw [hn]
  split
  · rfl
  split
  · rfl
  · cases parent <;> rfl

theorem bindExtent_options (f : File) (i b : ℕ) :
    (s.options d c).bindExtent f i b = (s.bindExtent f i b).map (·.options d c) := by
  unfold bindExtent
  have hf : (s.options d c).findExtent b = s.findExtent b := rfl
  rw [hf]
  split
  · rfl
  split
  · rfl
  · exact mapExtent_options s d c f _ i

theorem unbindExtent_options (f : File) (i : ℕ) :
    (s.options d c).unbindExtent f i = (s.unbindExtent f i).map (·.options d c) := by
  unfold unbindExtent
  split
  · rfl
  split
  · rfl
  · rw [unmapExtent_options]
    rfl

/-- **The replay does not look at the options.** -/
theorem replayWith_options (m : Bool) (e : Entry) :
    (s.options d c).replayWith m e = (s.replayWith m e).map (·.options d c) := by
  have hl : ∀ name, (s.options d c).lookupByName name = s.lookupByName name := fun _ => rfl
  have hfiles : (s.options d c).files = s.files := rfl
  cases e with
  | create id name =>
      simp only [replayWith, filesById_options, hl, hfiles]
      split
      · rfl
      split
      · rfl
      split
      · rfl
      split
      · exact initFile_options s d c _ _ _
      · rfl
  | truncate id size =>
      simp only [replayWith, filesById_options]
      split
      · rfl
      split
      · rfl
      split
      · rfl
      · rw [truncateFile_options]
        rfl
  | fork id pid name =>
      simp only [replayWith, filesById_options, hl, hfiles]
      split
      · rfl
      split
      · rfl
      split
      · rfl
      split
      · rfl
      split
      · exact initFile_options s d c _ _ _
      · rfl
  | delete id =>
      simp only [replayWith, filesById_options]
      split
      · rfl
      split
      · rfl
      · rw [deleteFile_options]
        rfl
  | bind id file backend =>
      simp only [replayWith, filesById_options]
      split
      · rfl
      · exact bindExtent_options s d c _ _ _
  | unbind id file =>
      simp only [replayWith, filesById_options]
      split
      · rfl
      · exact unbindExtent_options s d c _ _
  | rename id name =>
      simp only [replayWith, filesById_options, hl]
      split
      · rfl
      split
      · rfl
      split
      · split <;> rfl
      · rfl
  | next b =>
      have hf : (s.options d c).findExtent b = s.findExtent b := rfl
      simp only [replayWith, hf]
      split <;> rfl

end Super

theorem applyEntries_options (m : Bool) (es : List Entry) : applyEntries m (s.options d c) es =
    ((applyEntries m s es).1.options d c, (applyEntries m s es).2) := by
  induction es generalizing s with
  | nil => rfl
  | cons e es ih =>
      simp only [applyEntries, Super.replayWith_options]
      cases s.replayWith m e with
      | error _ => rfl
      | ok s' => exact ih s'

namespace Loader

variable (l : Loader)

theorem end_options (m : Bool) : l.end (s.options d c) m = (l.end s m).options d c := by
  unfold Loader.end
  rw [applyEntries_options]
  cases h : applyEntries m s (l.journals.map .next) with
  | mk X ok => cases ok <;> rfl

theorem stopped_options (m follow : Bool) :
    l.stopped (s.options d c) m follow = (l.stopped s m follow).options d c := by
  unfold stopped
  split
  · rfl
  · exact end_options s d c l m

theorem parsePage_options (m : Bool) (len n off : ℕ) :
    l.parsePage m len n off (s.options d c) = (l.parsePage m len n off s).options d c := by
  induction n generalizing off s with
  | zero => exact stopped_options s d c l m false
  | succ n ih =>
      have hc : (s.options d c).cursor = s.cursor := rfl
      have hp : ∀ b, l.prepareExtent (s.options d c) m b ↔ l.prepareExtent s m b := fun _ => Iff.rfl
      simp only [parsePage, hc, hp, applyEntries_options]
      split
      · exact stopped_options s d c l m false
      split
      · exact stopped_options s d c l m false
      split
      · split
        · exact stopped_options s d c l m false
        · rfl
      split
      · exact stopped_options s d c l m false
      · rfl
      split
      · rfl
      rename_i size es next _ _
      cases h : applyEntries m s es with
      | mk X ok =>
          cases ok with
          | false => rfl
          | true =>
              simp only
              split
              · split
                · exact stopped_options { X with cursor := _ } d c l m true
                · rfl
              · split
                · rfl
                · exact ih { X with cursor := _ } _

/-- **Neither does the loader.** -/
theorem parserPage_options (m : Bool) (g : Buf) :
    l.parserPage (s.options d c) m g = (l.parserPage s m g).options d c :=
  parsePage_options { s with cursor := _ } d c l m _ _ _

theorem parserHeader_options (m : Bool) (g : Buf) :
    l.parserHeader (s.options d c) m g = (l.parserHeader s m g).options d c := by
  have hc : (s.options d c).cursor = s.cursor := rfl
  have hp : ∀ (l : Loader) (x : Cursor) (b : ℕ),
      l.prepareExtent { s.options d c with cursor := x } m b ↔
        l.prepareExtent { s with cursor := x } m b := fun _ _ _ => Iff.rfl
  simp only [parserHeader, hc, hp]
  split
  · rfl
  split
  · exact end_options { s with cursor := _ } d c _ m
  split <;> rfl

end Loader

end Options

/-! ### The mount -/

namespace Sys

variable {σ σ' : Sys} (d c : Bool)

/-- The same state with other options. -/
def options (σ : Sys) (discard compact : Bool) : Sys := { σ with sup := σ.sup.options discard compact }

theorem loaded_options (σ : Sys) (out : LoaderOut) :
    (σ.options d c).loaded (out.options d c) = (σ.loaded out).options d c := by
  cases out <;> rfl

/-- The loop of a driver while the disk is mounted: `k` tasks are taken and done,
without an error. -/
def loopLabels : ℕ → List Label
  | 0 => []
  | k + 1 => .get :: .done false true (fun _ => 0) :: loopLabels k

theorem step_get_options (σ : Sys) :
    (σ.options d c).step .get = (σ.step .get).map (·.options d c) := by
  have hb : (σ.options d c).sup.bug = σ.sup.bug := rfl
  have ha : (σ.options d c).active = σ.active := rfl
  have hq : (σ.options d c).queue = σ.queue := rfl
  simp only [step, hb, ha, hq]
  split
  · rfl
  split <;> rfl

/-- A READ of the mount completes in the same way. -/
theorem step_done_options {t : Task} (ha : σ.active = some t) (ht : t.isLoad = true) (m : Bool)
    (junk : Buf) : (σ.options d c).step (.done false m junk) =
      (σ.step (.done false m junk)).map (·.options d c) := by
  have hb : (σ.options d c).sup.bug = σ.sup.bug := rfl
  have ha' : (σ.options d c).active = σ.active := rfl
  have hl : (σ.options d c).loader = σ.loader := rfl
  simp only [step, hb, ha', ha]
  split
  · rfl
  · rw [Option.map_some]
    congr 1
    cases t with
    | loadHeader =>
        simp only [runTask, hl]
        split
        · rfl
        · simp only [Bool.false_eq_true, if_false]
          rename_i l _
          exact (congrArg _ (l.parserHeader_options σ.sup d c m _)).trans
            (loaded_options d c { σ with active := none } _)
    | loadPage =>
        simp only [runTask, hl]
        split
        · rfl
        · simp only [Bool.false_eq_true, if_false]
          rename_i l _
          exact (congrArg _ (l.parserPage_options σ.sup d c m _)).trans
            (loaded_options d c { σ with active := none } _)
    | _ => cases ht

theorem isLoad_step_get (h : ∀ t ∈ σ.tasks, t.isLoad = true) (hs : σ.step .get = some σ') :
    (∀ t ∈ σ'.tasks, t.isLoad = true) ∧ ∃ t, σ'.active = some t := by
  unfold step at hs
  split at hs
  · cases hs
  · simp only at hs
    split at hs
    · rename_i t q hnone hqueue
      obtain rfl := Option.some.inj hs
      refine ⟨?_, t, rfl⟩
      simpa [tasks, hnone, hqueue] using h
    · cases hs

theorem isLoad_step_done {t : Task} {m : Bool} {junk : Buf} (h : ∀ t ∈ σ.tasks, t.isLoad = true)
    (ha : σ.active = some t) (hs : σ.step (.done false m junk) = some σ') :
    ∀ t ∈ σ'.tasks, t.isLoad = true := by
  rw [tasks, ha] at h
  have hq : ∀ t ∈ σ.queue, t.isLoad = true := fun t ht => h t (List.mem_append_right _ ht)
  have ht : t.isLoad = true := h t (by simp)
  have hload : ∀ out, ∀ t ∈ ({ σ with active := none }.loaded out).tasks, t.isLoad = true := by
    intro out t ht
    cases out with
    | readPage l X =>
        have ht : t ∈ σ.queue ++ [.loadPage] := ht
        rcases List.mem_append.1 ht with ht | ht
        · exact hq t ht
        · rw [List.mem_singleton.1 ht]
          rfl
    | finish l X | error X => exact hq t ht
  unfold step at hs
  split at hs
  · cases hs
  simp only [ha, Option.some.injEq] at hs
  subst hs
  cases t with
  | loadHeader | loadPage =>
      simp only [runTask]
      split
      · exact hq
      · exact hload _
  | _ => cases ht

/-- **The mount does not depend on the options.** -/
theorem run_options (k : ℕ) (h : ∀ t ∈ σ.tasks, t.isLoad = true) :
    (σ.options d c).run (loopLabels k) = (σ.run (loopLabels k)).map (·.options d c) := by
  induction k generalizing σ with
  | zero => rfl
  | succ k ih =>
      rw [loopLabels, run, run, step_get_options]
      cases hs : σ.step .get with
      | none => rfl
      | some σ₁ =>
          obtain ⟨h₁, t, ha⟩ := isLoad_step_get h hs
          have ht : t.isLoad = true := h₁ t (by simp [tasks, ha])
          rw [Option.map_some, Option.bind_some, Option.bind_some, run, run,
            step_done_options d c ha ht]
          cases hs₂ : σ₁.step (.done false true fun _ => 0) with
          | none => rfl
          | some σ₂ =>
              rw [Option.map_some, Option.bind_some, Option.bind_some]
              exact ih (isLoad_step_done h₁ ha hs₂)

/-- `cyanfs_super_open` with this size and these options mounts the disk: it accepts
the size, and after some rounds of the driver's loop the super is READY. -/
def Mounts (size : ℕ) (discard compact : Bool) (uuid : Uuid) (disk : Buf) (s : Super) : Prop :=
  ∃ total k σ, extentsOfSize size = some total ∧
    (Sys.opened total discard compact uuid disk).run (loopLabels k) = some σ ∧
    σ.sup.ready = true ∧ σ.sup = s

/-- The UEFI driver agrees with the mount `s` of a disk of `n` sectors: it derives the
same number of extents and mounts the disk to the same state. -/
def UefiAgrees (n : ℕ) (uuid : Uuid) (disk : Buf) (s : Super) : Prop :=
  extentsOfSize (uefiSize n) = extentsOfSize (linuxSize n) ∧
    Mounts (uefiSize n) false false uuid disk (s.options false false)

theorem Mounts.options {size : ℕ} {discard compact : Bool} {uuid : Uuid} {disk : Buf} {s : Super}
    (h : Mounts size discard compact uuid disk s) : Mounts size d c uuid disk (s.options d c) := by
  obtain ⟨total, k, σ, hsize, hrun, hready, rfl⟩ := h
  refine ⟨total, k, σ.options d c, hsize, ?_, hready, rfl⟩
  have hload : ∀ t ∈ (Sys.opened total discard compact uuid disk).tasks, t.isLoad = true := by
    simp [tasks, Sys.opened, Task.isLoad]
  have := run_options d c k hload
  rw [hrun] at this
  exact this

end Sys

/-- The sizes of the two platforms, where the Linux driver accepts the disk. -/
theorem extentsOfSize_uefi {n total : ℕ} (h : extentsOfSize (linuxSize n) = some total) :
    extentsOfSize (uefiSize n) = extentsOfSize (linuxSize n) ↔
      (linuxSize n - superBlockSize) % extentSize ≠ 0 := by
  have hshift : uefiSize n = (n - 1) * 512 := Nat.shiftLeft_eq _ _
  rw [h, hshift]
  unfold extentsOfSize at h ⊢
  split_ifs at h with h₁
  have h := Option.some.inj h
  split_ifs with h₂
  all_goals simp only [linuxSize, extentFrom, superBlockSize, extentSize, fileMaxSize] at *
  · simp only [false_iff, not_not]
    omega
  · rw [Option.some.injEq]
    omega

namespace Sys

/-- **When the platforms agree.**  A disk of `n` sectors that the Linux driver or
`cyanfs.edit` mounts is mounted by the UEFI driver to the same state if and only if
its sectors do not end exactly at the end of an extent. -/
theorem uefiAgrees_iff {n : ℕ} {discard compact : Bool} {uuid : Uuid} {disk : Buf} {s : Super}
    (h : Mounts (linuxSize n) discard compact uuid disk s) :
    UefiAgrees n uuid disk s ↔ (linuxSize n - superBlockSize) % extentSize ≠ 0 := by
  have hm := h.options false false
  obtain ⟨total, k, σ, hsize, -⟩ := h
  constructor
  · intro hagree
    exact (extentsOfSize_uefi hsize).1 hagree.1
  · intro hne
    have heq := (extentsOfSize_uefi hsize).2 hne
    refine ⟨heq, ?_⟩
    obtain ⟨total', k', σ', hsize', hrest⟩ := hm
    exact ⟨total', k', σ', heq.trans hsize', hrest⟩

/-- A disk of 2065 sectors has one extent and a sector more: a fresh file system on it
mounts under UEFI as it does under Linux. -/
theorem uefiAgrees_2065 :
    let u : Uuid := ⟨List.replicate 16 7, rfl⟩
    let disk : Buf := Buf.overlay (fun _ => 0) (superMake u)
    ∃ s, Mounts (linuxSize 2065) true true u disk s ∧ UefiAgrees 2065 u disk s := by
  intro u disk
  obtain ⟨σ, hrun, hm, -⟩ := exists_mounted_run (freshMkfs_zero u) (by decide : 1 ≤ 1) true true u
  have h : Mounts (linuxSize 2065) true true u disk σ.sup :=
    ⟨1, 2, σ, by decide, hrun, by rw [hm.sup], rfl⟩
  exact ⟨σ.sup, h, (uefiAgrees_iff h).2 (by decide)⟩

/-- A disk of 2064 sectors is the super block and one extent, which a fresh file system
uses as its journal.  Linux mounts it; UEFI sees a disk without a whole extent and does
not open it. -/
theorem uefi_misses_last_extent :
    let u : Uuid := ⟨List.replicate 16 7, rfl⟩
    let disk : Buf := Buf.overlay (fun _ => 0) (superMake u)
    ∃ s, Mounts (linuxSize 2064) true true u disk s ∧ s.totalExtents = 1 ∧ 0 ∈ s.journal ∧
      extentsOfSize (uefiSize 2064) = none ∧ (∀ s', ¬ Mounts (uefiSize 2064) false false u disk s') ∧
      ¬ UefiAgrees 2064 u disk s := by
  intro u disk
  obtain ⟨σ, hrun, hm, -⟩ := exists_mounted_run (freshMkfs_zero u) (by decide : 1 ≤ 1) true true u
  have h : Mounts (linuxSize 2064) true true u disk σ.sup :=
    ⟨1, 2, σ, by decide, hrun, by rw [hm.sup], rfl⟩
  have hnone : extentsOfSize (uefiSize 2064) = none := by decide
  have hsup := hm.sup
  refine ⟨σ.sup, h, by rw [hsup]; rfl, ?_, hnone, fun s' hs' => ?_, fun hagree => ?_⟩
  · rw [hsup]
    exact Finset.mem_insert_self _ _
  · obtain ⟨total, -, -, hsize, -⟩ := hs'
    rw [hnone] at hsize
    cases hsize
  · have := hagree.1
    rw [hnone] at this
    exact absurd this (by decide)

end Sys

end Cyanfs
