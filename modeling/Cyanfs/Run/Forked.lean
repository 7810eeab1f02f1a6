/-
# A file and a fork of it

A disk with a file of one block and a fork of it, its mount, and a write to the
fork: the fork has no extent of its own yet, so the write allocates one and queues a
COPY (`Inherits.copy`).
-/

import Cyanfs.Run.Remount

namespace Cyanfs

open Lib Std

namespace Sys

variable {σ : Sys}

/-- The next piece of a write is inherited: the file has no extent there, and the
extent that an ancestor has can be copied. -/
def Inherits (σ : Sys) (io : IoCall) : Prop :=
  σ.sup.ensureStatus = none ∧ ∃ f p, σ.sup.filesById[io.file]? = some f ∧
    f.findExtent io.off = none ∧ σ.sup.findExtentFollow f.parent io.off = some p ∧
    p.error = false ∧ p.pending = false

/-- **A write to an inherited piece queues a COPY**, if there is room for it, and
tells its handler to requeue. -/
theorem Inherits.copy {io : IoCall} {f : File} (h : σ.Inherits io) (hc : .write io ∈ σ.calls)
    (hbug : σ.sup.bug = none) (hroom : σ.sup.reservedExtents < σ.sup.freeExtents)
    (hne : σ.sup.free ≠ ∅) (hfile : σ.sup.filesById[io.file]? = some f) : ∃ τ b src ws,
      σ.run [.call (.write io) true, .call (.writeAlloc io (some src)) true] = some τ ∧
      τ.sup = { σ.sup.copyPending f b (fileIndex (extentFrom io.off)) with writers := ws } ∧
      τ.calls = .writeHandler io .requeue (some σ.sup.writerCurrent) ::ₘ σ.calls.erase (.write io) ∧
      τ.queue = σ.queue ++ [.copy f.id (fileIndex (extentFrom io.off)) b src] ∧
      τ.active = σ.active ∧ τ.sup.bug = none := by
  obtain ⟨hst, f', p, hf, hown, hp, he, hpend⟩ := h
  obtain rfl := Option.some.inj (hfile.symm.trans hf)
  let σ₁ := σ.setCall (.write io) (.writeAlloc io (some p.backend))
  have e₁ : σ.step (.call (.write io) true) = some σ₁ := by
    rw [step, if_neg (by simp [hbug])]
    simp only [if_pos hc, callStep, hf, Option.map_some, writeLookup, hst, hown, hp]
    rw [if_neg (by simp [he]), if_neg (by simp [hpend])]
  obtain ⟨b, hb⟩ := Super.exists_allocExtent hroom hne io.off hown
  have e₂ : σ₁.step (.call (.writeAlloc io (some p.backend)) true) =
      some (σ₁.writeAlloc (.writeAlloc io (some p.backend)) io f (some p.backend) true) := by
    have hf₁ : σ₁.sup.filesById[io.file]? = some f := hf
    have hbug₁ : σ₁.sup.bug = none := hbug
    have hmem : .writeAlloc io (some p.backend) ∈ σ₁.calls := Multiset.mem_cons_self _ _
    rw [step, if_neg (by simp [hbug₁])]
    simp only [if_pos hmem, callStep, hf₁, Option.map_some]
  have hst₁ : σ₁.sup.ensureStatus = none := hst
  have hb₁ : σ₁.sup.allocExtent f io.off = _ := hb
  let σ₂ := (Sys.addTail { σ₁ with sup := σ.sup.copyPending f b (fileIndex (extentFrom io.off)) }
    (.copy f.id (fileIndex (extentFrom io.off)) b p.backend)).writeMapped
      (.writeAlloc io (some p.backend)) io ⟨b, true, false⟩
  have hres : σ₁.writeAlloc (.writeAlloc io (some p.backend)) io f (some p.backend) true = σ₂ := by
    simp only [writeAlloc, hst₁, hown, hb₁]
    rfl
  rw [hres] at e₂
  have hcopy : (σ.sup.copyPending f b (fileIndex (extentFrom io.off))).bug = none ∧
      (σ.sup.copyPending f b (fileIndex (extentFrom io.off))).writerCurrent =
        σ.sup.writerCurrent := by
    rw [Super.copyPending, Super.superToFile_eq hown]
    unfold Super.updFile
    split
    · exact ⟨hbug, rfl⟩
    · exact ⟨hbug, rfl⟩
  refine ⟨σ₂, b, p.backend, _, ?_, rfl, ?_, rfl, rfl, hcopy.1⟩
  · rw [run, e₁, Option.bind_some, run, e₂, Option.bind_some, run]
  · change Call.writeHandler io .requeue (some
      (σ.sup.copyPending f b (fileIndex (extentFrom io.off))).writerCurrent) ::ₘ
        Multiset.erase (_ ::ₘ _) _ = _
    rw [hcopy.2, Multiset.erase_cons_head]

end Sys

/-! ### A file that was forked -/

/-- A file with one extent, and a fork of it. -/
def forkedEntries : List Entry :=
  [.create 1 .letter, .truncate 1 4096, .bind 1 0 1, .fork 2 1 .other]

/-- A disk with a journal of these entries. -/
def forkedDisk (uuid : Uuid) : Buf := recordDisk uuid forkedEntries none

theorem usedSize_forked : usedSize (linked forkedEntries none) = 331 := by
  simp only [usedSize, linked, forkedEntries, Option.toList_none, List.map_nil, List.append_nil,
    List.flatMap_cons, List.flatMap_nil, List.length_append, Entry.length_encode]
  rfl

theorem recordOk_forked : RecordOk 0 forkedEntries none journalBlockSize where
  nonempty := by simp [forkedEntries]
  regular := by simp [forkedEntries, Entry.Regular, Entry.type]
  fits := by simp [forkedEntries, linked, Entry.Fits]
  block := rfl
  used := by rw [usedSize_forked]; decide
  pad := by rw [usedSize_forked]; decide
  page := by decide
  seq := by decide

/-- The record is the whole journal. -/
theorem forkedDisk_tells (uuid : Uuid) :
    Tells (forkedDisk uuid) uuid.seed ⟨0, 0, 0⟩ [0] forkedEntries ⟨0, 512, 4⟩ := by
  have hscan : scanAt (forkedDisk uuid) uuid.seed ⟨0, 0, 0⟩ = .record 512 forkedEntries none :=
    scanAt_recordDisk recordOk_forked
  have hstep := Trace.step hscan (.refl _)
  rw [List.append_nil] at hstep
  exact ⟨[], rfl, hstep⟩

theorem forkedDisk_stop (uuid : Uuid) : scanAt (forkedDisk uuid) uuid.seed ⟨0, 512, 4⟩ = .stop :=
  scanAt_of_not_hasRecord (not_hasRecord_of_size
    (size_decodeHeader_of_zero (recordDisk_zero _ _ _ (by decide))))

/-- The super that the mount of `forkedDisk` ends with. -/
def forkedSuper (uuid : Uuid) : Super :=
  (applyEntries true (Super.opened 16 false false uuid fun _ => 0) (forkedEntries ++ [.next 0])).1

theorem forkedSuper_room {uuid : Uuid} : (forkedSuper uuid).reservedExtents = 8 ∧
    (forkedSuper uuid).freeExtents = 14 ∧
    (forkedSuper uuid).free = ((Finset.range 16).erase 1).erase 0 := ⟨rfl, rfl, rfl⟩

theorem forkedSuper_fork (uuid : Uuid) : ∃ f, (forkedSuper uuid).filesById[2]? = some f ∧ f.id = 2 ∧
    f.openType = .closed ∧ f.children = 0 ∧ f.size = 4096 ∧ f.parent = some 1 ∧
    f.findExtent 0 = none := ⟨_, rfl, rfl, rfl, rfl, rfl, rfl, rfl⟩

theorem forkedSuper_parent (uuid : Uuid) : ∃ f, (forkedSuper uuid).filesById[1]? = some f ∧
    f.size = 4096 ∧ f.findExtent 0 = some ⟨1, false, false⟩ := ⟨_, rfl, rfl, rfl⟩

namespace Sys

/-- The driver mounts `forkedDisk`. -/
theorem exists_forked_run (uuid : Uuid) : ∃ n σ c,
    (Sys.opened 16 false false uuid (forkedDisk uuid)).run (work n) = some σ ∧
      σ.sup = { forkedSuper uuid with ready := true, uuid := uuid, cursor := c } ∧
      c.place = ⟨0, 512, 4⟩ ∧ c.extentIdOndisk = 0 ∧ σ.queue = [] ∧ σ.active = none ∧
      σ.calls = 0 ∧ σ.disk = ⟨forkedDisk uuid, []⟩ :=
  exists_mount (h := mkfsHeader uuid 1) (superParse_superMake (recordDisk_block uuid _ _))
    (forkedDisk_tells uuid) (forkedDisk_stop uuid) (by simp) (by simp) (by decide) rfl rfl

/-- The fork is opened, and a write of its first block is on its way to look for the
extent. -/
theorem exists_forked_write (uuid : Uuid) : ∃ n τ g,
    (Sys.opened 16 false false uuid (forkedDisk uuid)).run
      (work n ++ [.open 2 true, .write 2 0 4096]) = some τ ∧
    τ.queue = [] ∧ τ.active = none ∧ τ.calls = {.write ⟨2, 0, 4096, false⟩} ∧
    τ.sup.bug = none ∧ τ.sup.reservedExtents < τ.sup.freeExtents ∧ τ.sup.free ≠ ∅ ∧
    τ.sup.filesById[2]? = some g ∧ g.id = 2 ∧ g.openType = .readwrite ∧ g.children = 0 ∧
    τ.Inherits ⟨2, 0, 4096, false⟩ := by
  obtain ⟨n, σ, c, hrun, hsup, -, -, hq, ha, hc, -⟩ := exists_forked_run uuid
  obtain ⟨f, hf, hid, hclosed, hchild, hsize, hparent, hnone⟩ := forkedSuper_fork uuid
  let g : File := { f with openType := .readwrite }
  let s := σ.sup.setFile g
  have hfork : σ.sup.filesById[2]? = some f := by rw [hsup]; exact hf
  have hg : s.filesById[2]? = some g := by
    rw [Super.filesById_setFile, if_pos hid.symm]
  have hst : σ.sup.ensureStatus = none := by rw [hsup]; rfl
  have hb : σ.sup.bug = none := by rw [hsup]; rfl
  have e₁ : σ.step (.open 2 true) = some { σ with sup := s } := by
    have ho : σ.sup.openFile 2 true = .ok s := by
      simp only [Super.openFile, hst, hfork]
      simp [hclosed, hchild, s, g]
    rw [step, if_neg (by simp [hb])]
    simp only [ho]
  let τ := Sys.addCall { σ with sup := s } (.write ⟨2, 0, 4096, false⟩)
  have e₂ : Sys.step { σ with sup := s } (.write 2 0 4096) = some τ := by
    rw [step, if_neg (by exact fun hn => hn hb)]
    simp only [hg]
    rw [if_pos]
    exact ⟨rfl, by decide, Nat.zero_le _, by change 4096 ≤ f.size - 0; omega⟩
  refine ⟨n, τ, g, ?_, hq, ha, ?_, hb, ?_, ?_, hg, hid, rfl, hchild, ?_⟩
  · rw [run_append, hrun, Option.bind_some, run, e₁, Option.bind_some, run, e₂, Option.bind_some,
      run]
  · change _ ::ₘ σ.calls = _
    rw [hc]
    rfl
  · change σ.sup.reservedExtents < σ.sup.freeExtents
    rw [hsup]
    change (forkedSuper uuid).reservedExtents < (forkedSuper uuid).freeExtents
    rw [forkedSuper_room.1, forkedSuper_room.2.1]
    decide
  · change σ.sup.free ≠ ∅
    rw [hsup]
    change (forkedSuper uuid).free ≠ ∅
    rw [forkedSuper_room.2.2]
    decide
  · obtain ⟨p, hp, hpsize, hpx⟩ := forkedSuper_parent uuid
    refine ⟨hst, g, ⟨1, false, false⟩, hg, hnone, ?_, rfl, rfl⟩
    have hp' : s.filesById[1]? = some p := by
      rw [Super.filesById_setFile, if_neg (by rw [show g.id = 2 from hid]; decide), hsup]
      exact hp
    have hfollow : s.findExtentFollow (some 1) 0 = some ⟨1, false, false⟩ := by
      simp only [Super.findExtentFollow, Super.followFrom, hp', hpx]
      rw [if_pos (by rw [hpsize]; decide)]
    change s.findExtentFollow f.parent 0 = _
    rw [hparent]
    exact hfollow

end Sys

end Cyanfs
