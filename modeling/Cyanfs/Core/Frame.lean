/-
# What a step leaves alone

Most steps of the system do not touch the file table.  `Super.MetaEq` says that
two supers agree on the metadata, and `Sys.runTask_metaEq`, `Sys.callStep_metaEq`
list the steps that keep it: everything the executor does except a finished
copy and the mount, and every section of a call except the two that map or
unmap an extent.  A proof about the metadata looks at the other steps only.
-/

import Cyanfs.Core.System
import Cyanfs.Core.Table

namespace Cyanfs

open Lib Std

/-- The metadata of two supers is the same. -/
structure Super.MetaEq (s s' : Super) : Prop where
  filesById : s'.filesById = s.filesById
  filesByName : s'.filesByName = s.filesByName
  files : s'.files = s.files
  maxFileId : s'.maxFileId = s.maxFileId
  totalExtents : s'.totalExtents = s.totalExtents
  dataExtents : s'.dataExtents = s.dataExtents
  reservedExtents : s'.reservedExtents = s.reservedExtents
  ready : s'.ready = s.ready
  bug : s'.bug = s.bug

namespace Super.MetaEq

variable {s s' s'' : Super}

theorem refl (s : Super) : s.MetaEq s := ⟨rfl, rfl, rfl, rfl, rfl, rfl, rfl, rfl, rfl⟩

theorem trans (h : s.MetaEq s') (h' : s'.MetaEq s'') : s.MetaEq s'' :=
  ⟨h'.1.trans h.1, h'.2.trans h.2, h'.3.trans h.3, h'.4.trans h.4, h'.5.trans h.5, h'.6.trans h.6,
    h'.7.trans h.7, h'.8.trans h.8, h'.9.trans h.9⟩

theorem takeJournal (s : Super) (b : ℕ) : s.MetaEq (s.takeJournal b) :=
  ⟨rfl, rfl, rfl, rfl, rfl, rfl, rfl, rfl, rfl⟩

theorem handOver (s : Super) (X : Finset ℕ) : s.MetaEq (s.handOver X).1 := by
  unfold Super.handOver
  split_ifs <;> exact ⟨rfl, rfl, rfl, rfl, rfl, rfl, rfl, rfl, rfl⟩

end Super.MetaEq

/-- A record is written with the super of before, or with one that lost a free
extent to the journal, or that is marked. -/
theorem writerEncode_super {s : Super} {c : Cursor} {head : List JEntry} {nextId : Option ℕ}
    {err : Bool} :
    (∀ s', writerEncode s c head nextId err = .error s' → s' = s ∨ s' = s.markError) ∧
    (∀ s' c' req fl rest, writerEncode s c head nextId err = .write s' c' req fl rest →
      s' = s ∨ ∃ b ∈ s.free, s' = s.takeJournal b) := by
  constructor
  · intro s' h
    unfold writerEncode at h
    split at h
    · exact .inl (EncodeOut.error.inj h).symm
    split at h
    · cases h
    split at h
    · exact .inl (EncodeOut.error.inj h).symm
    split at h
    · cases h
    · cases h
    split at h
    · exact .inr (EncodeOut.error.inj h).symm
    · cases h
  · intro s' c' req fl rest h
    unfold writerEncode at h
    split at h
    · cases h
    split at h
    · cases h
    split at h
    · cases h
    split at h
    · exact .inl (EncodeOut.write.inj h).1.symm
    · exact .inl (EncodeOut.write.inj h).1.symm
    split at h
    · cases h
    · rename_i b hb
      exact .inr ⟨b, Super.mem_of_findNearlyExtent hb, (EncodeOut.write.inj h).1.symm⟩

/-- The super that a loader callback ends with. -/
def LoaderOut.super : LoaderOut → Super
  | .readPage _ X => X
  | .finish _ X => X
  | .error X => X

namespace Loader

/-! ### What holds of every super the loader reaches

A property that survives a replayed entry and a moved cursor holds after every
callback of the loader. -/

section Rule

variable {P : Super → Prop} (hcursor : ∀ (X : Super) (c : Cursor), P X → P { X with cursor := c })
  (hreplay : ∀ (X X' : Super) (e : Entry), X.replay e = .ok X' → P X → P X')

include hreplay in
theorem applyEntries_rule (m : Bool) {X : Super} (h : P X) (es : List Entry) :
    P (applyEntries m X es).1 := by
  induction es generalizing X with
  | nil => exact h
  | cons e es ih =>
      unfold applyEntries
      split
      · rename_i X' hr
        exact ih (hreplay X X' e (Super.replay_of_replayWith hr) h)
      · exact h

include hreplay in
theorem end_rule (l : Loader) (m : Bool) {X : Super} (h : P X) : P (l.end X m).super := by
  have := applyEntries_rule hreplay m h (l.journals.map .next)
  unfold Loader.end
  split
  · rename_i X' hr
    rw [hr] at this
    exact this
  · rename_i X' hr
    rw [hr] at this
    exact this

include hreplay in
theorem stopped_rule (l : Loader) (m followEnd : Bool) {X : Super} (h : P X) :
    P (l.stopped X m followEnd).super := by
  unfold Loader.stopped
  split
  · exact h
  · exact end_rule hreplay l m h

include hcursor hreplay in
theorem parsePage_rule (m : Bool) (len n off : ℕ) (l : Loader) {X : Super} (h : P X) :
    P (l.parsePage m len n off X).super := by
  induction n generalizing off X with
  | zero => exact stopped_rule hreplay l m false h
  | succ n ih =>
      unfold Loader.parsePage
      simp only
      split
      · exact stopped_rule hreplay l m false h
      split
      · exact stopped_rule hreplay l m false h
      split
      · split
        · exact stopped_rule hreplay l m false h
        · exact h
      split
      · exact stopped_rule hreplay l m false h
      · exact h
      · rename_i size es next hscan
        split
        · exact h
        have hes := applyEntries_rule hreplay m h es
        split
        · rename_i X' hr
          rw [hr] at hes
          exact hes
        · rename_i X' hr
          rw [hr] at hes
          split
          · split
            · exact stopped_rule hreplay l m true (hcursor _ _ hes)
            · exact hcursor _ _ (hcursor _ _ hes)
          · split
            · exact hcursor _ _ (hcursor _ _ hes)
            · exact ih _ (hcursor _ _ (hcursor _ _ hes))

include hcursor hreplay in
theorem parserPage_rule (l : Loader) (m : Bool) (d : Buf) {X : Super} (h : P X) :
    P (l.parserPage X m d).super :=
  parsePage_rule hcursor hreplay m _ _ 0 l (hcursor X _ h)

include hcursor hreplay in
theorem parserHeader_rule (l : Loader) (m : Bool) (d : Buf) {X : Super} (h : P X) :
    P (l.parserHeader X m d).super := by
  unfold Loader.parserHeader
  simp only
  split
  · exact hcursor _ _ h
  · split
    · exact end_rule hreplay _ m (hcursor _ _ (hcursor _ _ h))
    · split
      · exact hcursor _ _ (hcursor _ _ (hcursor _ _ h))
      · exact hcursor _ _ (hcursor _ _ h)

end Rule

end Loader

namespace Sys

/-- The step leaves the metadata, the appended entries, the mount and the calls
on files alone. -/
structure Quiet (σ σ' : Sys) : Prop where
  sup : σ.sup.MetaEq σ'.sup
  appended : σ'.log.appended = σ.log.appended
  loader : σ'.loader = σ.loader
  calls : ∀ c ∈ σ'.calls, c ∈ σ.calls ∨ c.file? = none

variable {σ σ' σ'' : Sys}

theorem Quiet.refl (σ : Sys) : σ.Quiet σ := ⟨.refl _, rfl, rfl, fun _ h => .inl h⟩

theorem Quiet.trans (h : σ.Quiet σ') (h' : σ'.Quiet σ'') : σ.Quiet σ'' :=
  ⟨h.sup.trans h'.sup, h'.appended.trans h.appended, h'.loader.trans h.loader,
    fun c hc => (h'.calls c hc).elim (h.calls c) .inr⟩

/-- A step that changes neither the calls nor anything else that `Quiet` looks
at except the super. -/
theorem Quiet.of_sup (hs : σ.sup.MetaEq σ'.sup) (ha : σ'.log.appended = σ.log.appended)
    (hl : σ'.loader = σ.loader) (hc : σ'.calls = σ.calls) : σ.Quiet σ' :=
  ⟨hs, ha, hl, fun _ h => .inl (hc ▸ h)⟩

theorem quiet_addCall (σ : Sys) {c : Call} (hc : c.file? = none) : σ.Quiet (σ.addCall c) := by
  refine ⟨.refl _, rfl, rfl, fun d hd => ?_⟩
  rcases Multiset.mem_cons.1 hd with rfl | hd
  · exact .inr hc
  · exact .inl hd

theorem quiet_addTail (σ : Sys) (t : Task) : σ.Quiet (σ.addTail t) := .of_sup (.refl _) rfl rfl rfl

theorem quiet_endCall (σ : Sys) (c : Call) : σ.Quiet (σ.endCall c) :=
  ⟨.refl _, rfl, rfl, fun _ h => .inl (Multiset.mem_of_mem_erase h)⟩

theorem quiet_setCall (σ : Sys) (c : Call) {c' : Call} (hc : c'.file? = none) :
    σ.Quiet (σ.setCall c c') := by
  refine ⟨.refl _, rfl, rfl, fun d hd => ?_⟩
  rcases Multiset.mem_cons.1 hd with rfl | hd
  · exact .inr hc
  · exact .inl (Multiset.mem_of_mem_erase hd)

/-- Only the super changed, and its metadata is the same. -/
theorem quiet_sup {s : Super} (h : σ.sup.MetaEq s) : σ.Quiet { σ with sup := s } :=
  .of_sup h rfl rfl rfl

theorem quiet_markError (σ : Sys) : σ.Quiet { σ with sup := σ.sup.markError } :=
  quiet_sup ⟨rfl, rfl, rfl, rfl, rfl, rfl, rfl, rfl, rfl⟩

theorem quiet_discardExtents (σ : Sys) (X : Finset ℕ) : σ.Quiet (σ.discardExtents X) := by
  unfold discardExtents
  simp only
  split_ifs <;> exact .of_sup ⟨rfl, rfl, rfl, rfl, rfl, rfl, rfl, rfl, rfl⟩ rfl rfl rfl

theorem quiet_discardBegin (σ : Sys) : σ.Quiet σ.discardBegin := by
  unfold discardBegin
  simp only
  split <;> exact .of_sup ⟨rfl, rfl, rfl, rfl, rfl, rfl, rfl, rfl, rfl⟩ rfl rfl rfl

theorem quiet_discardDone (σ : Sys) : σ.Quiet σ.discardDone := by
  unfold discardDone
  refine .trans (quiet_sup ?_) (quiet_discardBegin _)
  exact ⟨rfl, rfl, rfl, rfl, rfl, rfl, rfl, rfl, rfl⟩

theorem quiet_flusherFree (σ : Sys) (fl : ℕ) (t : Flusher) : σ.Quiet (σ.flusherFree fl t) := by
  unfold flusherFree
  simp only
  split_ifs <;> exact .of_sup ⟨rfl, rfl, rfl, rfl, rfl, rfl, rfl, rfl, rfl⟩ rfl rfl rfl

theorem quiet_flusherAfterFlush (σ : Sys) (err : Bool) : σ.Quiet (σ.flusherAfterFlush err) := by
  unfold flusherAfterFlush
  simp only
  split_ifs
  · exact quiet_markError σ
  · exact .refl σ
  · exact quiet_sup ⟨rfl, rfl, rfl, rfl, rfl, rfl, rfl, rfl, rfl⟩
  · exact quiet_sup ⟨rfl, rfl, rfl, rfl, rfl, rfl, rfl, rfl, rfl⟩
  · exact .trans (.trans (quiet_sup (s := { σ.sup with flush := ∅ })
        ⟨rfl, rfl, rfl, rfl, rfl, rfl, rfl, rfl, rfl⟩) (quiet_discardExtents _ _))
      (quiet_sup ⟨rfl, rfl, rfl, rfl, rfl, rfl, rfl, rfl, rfl⟩)

theorem quiet_flusherBeforeFlush (σ : Sys) (fl : ℕ) (t : Flusher) :
    σ.Quiet (σ.flusherBeforeFlush fl t) := by
  unfold flusherBeforeFlush
  split_ifs
  · exact .refl σ
  · exact .of_sup (.trans (.handOver σ.sup t.unused) ⟨rfl, rfl, rfl, rfl, rfl, rfl, rfl, rfl, rfl⟩)
      rfl rfl rfl

theorem quiet_cancelWrite (σ : Sys) (fl : ℕ) : σ.Quiet (σ.cancelWrite fl) :=
  .of_sup (.refl _) rfl rfl rfl

theorem quiet_flusherBeforeWriteFlushDone (σ : Sys) (fl : ℕ) (err : Bool) :
    σ.Quiet (σ.flusherBeforeWriteFlushDone fl err) := by
  unfold flusherBeforeWriteFlushDone
  simp only
  split_ifs
  · exact .trans (quiet_markError σ) (quiet_cancelWrite _ fl)
  · exact quiet_markError σ
  · exact quiet_cancelWrite σ fl
  · exact .refl σ

theorem quiet_flusherBeforeWriteFlush (σ : Sys) (fl : ℕ) (t : Flusher) :
    σ.Quiet (σ.flusherBeforeWriteFlush fl t) := by
  unfold flusherBeforeWriteFlush
  split_ifs
  · exact quiet_cancelWrite σ fl
  · exact .of_sup (.handOver σ.sup t.unused) rfl rfl rfl

theorem quiet_flusherWriteFinish (σ : Sys) (t : Flusher) : σ.Quiet (σ.flusherWriteFinish t) := by
  have h : σ.Quiet (if wantFlush σ.sup t then { σ with sup := { σ.sup with flushFlag := true } }
      else σ) := by
    split_ifs
    · exact quiet_sup ⟨rfl, rfl, rfl, rfl, rfl, rfl, rfl, rfl, rfl⟩
    · exact .refl σ
  unfold flusherWriteFinish
  simp only
  split_ifs at h ⊢ <;> first | exact h | exact h.trans (quiet_addCall _ rfl)

theorem metaEq_of_writerEncode {s s' : Super} (h : s' = s ∨ ∃ b ∈ s.free, s' = s.takeJournal b) :
    s.MetaEq s' := by
  rcases h with rfl | ⟨b, -, rfl⟩
  · exact .refl _
  · exact .takeJournal s b

theorem quiet_flusherEncode (σ : Sys) (fl : ℕ) (t : Flusher) (err : Bool) :
    σ.Quiet (σ.flusherEncode fl t err) := by
  unfold flusherEncode
  split
  · rename_i s hs
    refine .of_sup ?_ rfl rfl rfl
    rcases writerEncode_super.1 s hs with rfl | rfl <;>
      exact ⟨rfl, rfl, rfl, rfl, rfl, rfl, rfl, rfl, rfl⟩
  · exact quiet_flusherWriteFinish σ t
  · rename_i s c req flush rest hs
    have hm : σ.sup.MetaEq { s with cursor := c } :=
      .trans (metaEq_of_writerEncode (writerEncode_super.2 s c req flush rest hs))
        ⟨rfl, rfl, rfl, rfl, rfl, rfl, rfl, rfl, rfl⟩
    simp only
    split_ifs <;> exact .of_sup hm rfl rfl rfl

theorem quiet_compactError (σ : Sys) : σ.Quiet σ.compactError :=
  .of_sup ⟨rfl, rfl, rfl, rfl, rfl, rfl, rfl, rfl, rfl⟩ rfl rfl rfl

theorem quiet_compactLoaderFinish (σ : Sys) (t : Compact) (l : Loader) (X : Super) (m : Bool) :
    σ.Quiet (σ.compactLoaderFinish t l X m) := by
  unfold compactLoaderFinish
  split
  · split
    · exact quiet_compactError σ
    · simp only
      split
      · exact .of_sup (.refl _) rfl rfl rfl
      · split
        · exact quiet_compactError σ
        · exact .of_sup (.takeJournal _ _) rfl rfl rfl
  · exact quiet_compactError σ

theorem quiet_compactLoaded (σ : Sys) (t : Compact) (m : Bool) (out : LoaderOut) :
    σ.Quiet (σ.compactLoaded t m out) := by
  cases out with
  | readPage l X => exact .of_sup (.refl _) rfl rfl rfl
  | finish l X => exact quiet_compactLoaderFinish σ t l X m
  | error X => exact quiet_compactError σ

theorem quiet_compactEncode (σ : Sys) (t : Compact) (err : Bool) : σ.Quiet (σ.compactEncode t err) := by
  unfold compactEncode
  split
  · rename_i s hs
    refine .trans (quiet_sup (s := s) ?_) (quiet_compactError _)
    rcases writerEncode_super.1 s hs with rfl | rfl <;>
      exact ⟨rfl, rfl, rfl, rfl, rfl, rfl, rfl, rfl, rfl⟩
  · exact quiet_addTail σ _
  · rename_i s c req flush rest hs
    exact .of_sup (metaEq_of_writerEncode (writerEncode_super.2 s c req flush rest hs)) rfl rfl rfl

theorem quiet_compactWriteSuper (σ : Sys) (t : Compact) (err : Bool) :
    σ.Quiet (σ.compactWriteSuper t err) := by
  unfold compactWriteSuper
  split
  · exact quiet_compactError σ
  · exact .of_sup (.refl _) rfl rfl rfl

theorem quiet_compactFlushSuper (σ : Sys) (err : Bool) : σ.Quiet (σ.compactFlushSuper err) := by
  unfold compactFlushSuper
  split
  · exact quiet_compactError σ
  · exact quiet_addTail σ _

theorem quiet_compactFinish (σ : Sys) (t : Compact) (err : Bool) : σ.Quiet (σ.compactFinish t err) := by
  unfold compactFinish
  simp only
  split
  · exact quiet_compactError σ
  · split
    · refine .trans (.trans (quiet_sup ?_) (quiet_discardExtents _ _))
        (.of_sup ⟨rfl, rfl, rfl, rfl, rfl, rfl, rfl, rfl, rfl⟩ rfl rfl rfl)
      exact ⟨rfl, rfl, rfl, rfl, rfl, rfl, rfl, rfl, rfl⟩
    · refine .trans (.trans (quiet_sup ?_) (quiet_discardExtents _ _)) (quiet_compactError _)
      exact ⟨rfl, rfl, rfl, rfl, rfl, rfl, rfl, rfl, rfl⟩

theorem quiet_ioWrite (σ : Sys) (w : DiskWrite) (err : Bool) (junk : Buf) :
    σ.Quiet (σ.ioWrite w err junk) := .of_sup (.refl _) rfl rfl rfl

theorem quiet_ioFlush (σ : Sys) (err : Bool) : σ.Quiet (σ.ioFlush err) := by
  unfold ioFlush
  split_ifs <;> exact .of_sup (.refl _) rfl rfl rfl

theorem quiet_ioRecord (σ : Sys) (req : WriteReq) (err : Bool) (junk : Buf) :
    σ.Quiet (σ.ioRecord req err junk) := by
  unfold ioRecord
  simp only
  split_ifs <;> exact .of_sup (.refl _) rfl rfl rfl

/-- The tasks whose completion changes the metadata. -/
def Loud : Task → Prop
  | .copy _ _ _ _ | .loadHeader | .loadPage => True
  | _ => False

/-- **Every other task of the executor is quiet.** -/
theorem quiet_runTask (σ : Sys) {t : Task} (ht : ¬ Loud t) (err m : Bool) (junk : Buf) :
    σ.Quiet (σ.runTask t err m junk) := by
  cases t with
  | writer fl io =>
      simp only [runTask]
      split
      · exact .refl σ
      · split
        · exact .trans (quiet_ioRecord σ _ err junk) (quiet_flusherEncode _ _ _ _)
        · exact quiet_flusherEncode _ _ _ _
  | before fl flush =>
      simp only [runTask]
      split
      · exact .refl σ
      · split
        · exact .trans (quiet_ioFlush σ err) (quiet_flusherBeforeWriteFlushDone _ _ _)
        · exact quiet_flusherBeforeWriteFlush _ _ _
  | after fl flush =>
      simp only [runTask]
      split
      · exact .refl σ
      · split
        · exact .trans (quiet_ioFlush σ err) (quiet_flusherAfterFlush _ _)
        · exact quiet_flusherBeforeFlush _ _ _
  | free fl =>
      simp only [runTask]
      split
      · exact .refl σ
      · exact quiet_flusherFree _ _ _
  | copy => exact absurd trivial ht
  | discard io =>
      cases io with
      | none => exact quiet_discardBegin σ
      | some r => exact .trans (quiet_ioWrite σ _ false junk) (quiet_discardDone _)
  | loadHeader => exact absurd trivial ht
  | loadPage => exact absurd trivial ht
  | compactHeader =>
      simp only [runTask]
      split
      · exact .refl σ
      · split
        · exact quiet_compactError σ
        · exact quiet_compactLoaded _ _ _ _
  | compactPage =>
      simp only [runTask]
      split
      · exact .refl σ
      · split
        · exact quiet_compactError σ
        · exact quiet_compactLoaded _ _ _ _
  | compactWriter io =>
      simp only [runTask]
      split
      · exact .refl σ
      · split
        · exact .trans (quiet_ioWrite σ _ err junk) (quiet_compactEncode _ _ _)
        · exact quiet_compactEncode _ _ _
  | compactWriteSuper flush =>
      simp only [runTask]
      split
      · exact .refl σ
      · split
        · exact .trans (quiet_ioFlush σ err) (quiet_compactWriteSuper _ _ _)
        · exact quiet_compactWriteSuper _ _ _
  | compactFlushSuper req =>
      exact .trans (quiet_ioWrite σ _ err junk) (quiet_compactFlushSuper _ _)
  | compactFinish =>
      simp only [runTask]
      split
      · exact .refl σ
      · exact .trans (quiet_ioFlush σ err) (quiet_compactFinish _ _ _)
  | requeue file => exact .refl σ

theorem quiet_flusherReturn (σ : Sys) (c : Call) (file : Option ℕ) :
    σ.Quiet (σ.flusherReturn c file) := by
  unfold flusherReturn
  split
  · exact quiet_setCall σ c rfl
  · exact quiet_endCall σ c

theorem quiet_flusherStart (σ : Sys) (c : Call) (min : ℕ) (ondisk : Bool) (file : Option ℕ)
    (m : Bool) : σ.Quiet (σ.flusherStart c min ondisk file m) := by
  unfold flusherStart
  simp only
  split_ifs
  · exact quiet_endCall σ c
  · exact quiet_flusherReturn σ c file
  · exact quiet_setCall σ c rfl
  · exact quiet_endCall σ c

theorem quiet_queueFlusher (σ : Sys) (ondisk : Bool) : σ.Quiet (σ.queueFlusher ondisk) := by
  unfold queueFlusher
  simp only
  split
  · exact .refl σ
  · exact .of_sup ⟨rfl, rfl, rfl, rfl, rfl, rfl, rfl, rfl, rfl⟩ rfl rfl rfl

theorem quiet_flusherQueue (σ : Sys) (c : Call) (ondisk : Bool) (file : Option ℕ) :
    σ.Quiet (σ.flusherQueue c ondisk file) :=
  .trans (quiet_queueFlusher σ ondisk) (quiet_flusherReturn _ c file)

theorem quiet_compactStart (σ : Sys) (c : Call) : σ.Quiet (σ.compactStart c) := by
  unfold compactStart
  simp only
  split
  · exact quiet_endCall σ c
  · exact .trans (quiet_sup (s := { σ.sup with compactWorking := true })
      ⟨rfl, rfl, rfl, rfl, rfl, rfl, rfl, rfl, rfl⟩) (quiet_setCall _ c rfl)

theorem quiet_compactInit (σ : Sys) (c : Call) (endId : ℕ) (m : Bool) :
    σ.Quiet (σ.compactInit c endId m) := by
  unfold compactInit
  simp only
  split_ifs
  · exact .trans (quiet_endCall σ c) (.of_sup (.refl _) rfl rfl rfl)
  · exact .trans (quiet_endCall σ c)
      (.of_sup ⟨rfl, rfl, rfl, rfl, rfl, rfl, rfl, rfl, rfl⟩ rfl rfl rfl)

end Sys

end Cyanfs
