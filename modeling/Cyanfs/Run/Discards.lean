/-
# What is discarded

With discards enabled an extent that leaves `flush_extents` or `journal_extents`
goes to `wait_discard_extents`, from there to `discard_extents` when a DISCARD is
queued for it, and to `free_extents` when that DISCARD is done.  `Event` are the
three moves, `Life` the only order in which they can happen.  `Rests` is what all
callbacks but the pipeline's own do to the three sets: extents enter the first of
them, and nothing else happens.  `discards_retired` puts the runs together.
-/

import Cyanfs.Run.Moves

namespace Cyanfs

open Lib Std

/-- The byte range that a task discards. -/
def Task.request? : Task → Option (ℕ × ℕ)
  | .discard io => io
  | _ => none

/-- The byte range `r` covers backend extent `b`. -/
def Covers (r : ℕ × ℕ) (b : ℕ) : Prop :=
  r.1 ≤ mapExtentOffset b 0 ∧ mapExtentOffset b 0 + extentSize ≤ r.1 + r.2

instance (r : ℕ × ℕ) (b : ℕ) : Decidable (Covers r b) := inferInstanceAs (Decidable (_ ∧ _))

/-- The sets that the pipeline works on. -/
def Super.stock (s : Super) : Bool × Finset ℕ × Finset ℕ × Finset ℕ × Finset ℕ × Finset ℕ :=
  (s.discardEnabled, s.flush, s.journal, s.waitDiscard, s.discard, s.free)

/-- What can happen to an extent around the pipeline. -/
inductive Event where
  /-- it leaves `flush_extents` or `journal_extents` -/
  | retired
  /-- a DISCARD that covers it is queued -/
  | covered
  /-- it enters `free_extents` -/
  | freed
deriving DecidableEq

/-- Where an extent is with respect to the pipeline. -/
inductive PipeStage where
  | outside | waiting | discarding
deriving DecidableEq

/-- The only order of the events: retired, covered once, freed. -/
def PipeStage.next : PipeStage → Event → Option PipeStage
  | .outside, .retired => some .waiting
  | .waiting, .covered => some .discarding
  | .discarding, .freed => some .outside
  | _, _ => none

/-- A public call hands no extent back to `free_extents` by itself. -/
theorem Super.free_op {s s' : Super} {j : JEntry} (h : s.Op j s') : s'.free ⊆ s.free := by
  have hr := Sys.ready_of_ensureStatus h.ensureStatus
  have hunmap : ∀ (s : Super) (id i : ℕ), s.ready = true → (s.unmapExtent id i).free = s.free := by
    intro s id i hr
    cases he : s.extentAt id i with
    | none => rw [Super.unmapExtent_of_none he]
    | some e => rw [(Super.unmapExtent_sets he).2.2.1, if_pos hr]
  have hfold : ∀ (ks : List ℕ) (s : Super) (id : ℕ), s.ready = true →
      (ks.foldl (fun s i => s.unmapExtent id i) s).free = s.free := by
    intro ks
    induction ks with
    | nil => exact fun _ _ _ => rfl
    | cons k ks ih =>
        intro s id hr
        rw [List.foldl_cons, ih _ id ((Super.ready_unmapExtent s id k).trans hr), hunmap s id k hr]
  have htrunc : ∀ (f : File) (size : ℕ), (s.truncateFile f size).free = s.free := by
    intro f size
    rw [← hfold (Super.truncateKeys f size) s f.id hr]
    unfold Super.truncateFile Super.updFile
    split <;> rfl
  cases h with
  | create hn hst hlimit hmax hlookup hi | fork hn hst hlimit hmax hp hmode hlookup hi =>
      obtain ⟨-, -, rfl⟩ := Super.initFile_eq_ok.1 hi
      exact Finset.Subset.refl _
  | rename => exact Finset.Subset.refl _
  | @truncate f size => exact (htrunc f size).subset
  | @delete f =>
      obtain ⟨_, hd⟩ := Super.deleteFile_shape s f
      rw [hd]
      exact (htrunc f 0).subset
  | bind hst hf hmode hi hsize hroom hb hnone =>
      rw [Super.superToFile_eq hnone]
      exact Finset.erase_subset _ _
  | @unbind f i => exact (hunmap s f.id i hr).subset

namespace Sys

variable {σ σ' τ : Sys} {total : ℕ}

/-- The DISCARDs in the queue. -/
def queued (σ : Sys) : List (ℕ × ℕ) := σ.queue.filterMap Task.request?

/-- The extents that can be handed to `__cyanfs_super_discard_extent`. -/
def retirable (σ : Sys) : Finset ℕ := σ.sup.flush ∪ σ.sup.journal

/-- The DISCARDs that are queued or running. -/
def requests (σ : Sys) : List (ℕ × ℕ) := σ.tasks.filterMap Task.request?

/-- The DISCARDs that a step from `σ` to `σ'` queues. -/
def created (σ σ' : Sys) : List (ℕ × ℕ) := σ'.queued.diff σ.queued

/-- A READ of the mount is running: its callback replays a part of the journal. -/
def mounting (σ : Sys) : Bool := (σ.active.map Task.isLoad).getD false

/-! ### Callbacks outside the pipeline -/

/-- The pipeline may receive extents, and nothing else happens to it.  Without discards what
is retired is free at once. -/
structure Rests (σ σ' : Sys) : Prop where
  enabled : σ'.sup.discardEnabled = σ.sup.discardEnabled
  discard : σ'.sup.discard = σ.sup.discard
  wait : σ.sup.waitDiscard ⊆ σ'.sup.waitDiscard
  new : σ'.sup.waitDiscard ⊆ σ.sup.waitDiscard ∪ σ.retirable
  kept : σ.sup.discardEnabled = true → σ.retirable ⊆ σ'.retirable ∪ σ'.sup.waitDiscard
  free : σ.sup.discardEnabled = true → σ'.sup.free ⊆ σ.sup.free
  freed : σ'.sup.free ⊆ σ.sup.free ∪ σ.retirable
  queued : σ'.queued = σ.queued
  active : σ'.active = σ.active

theorem Rests.of_eq (hs : σ'.sup.stock = σ.sup.stock) (hq : σ'.queued = σ.queued)
    (ha : σ'.active = σ.active) : σ.Rests σ' := by
  simp only [Super.stock, Prod.mk.injEq] at hs
  obtain ⟨h₁, h₂, h₃, h₄, h₅, h₆⟩ := hs
  refine ⟨h₁, h₅, h₄.symm.subset, ?_, fun _ => ?_, fun _ => h₆.subset,
    h₆.subset.trans Finset.subset_union_left, hq, ha⟩
  · rw [h₄]
    exact Finset.subset_union_left
  · rw [retirable, retirable, h₂, h₃]
    exact Finset.subset_union_left

/-- What comes before or after and leaves the sets alone does not matter. -/
theorem Rests.before (h : τ.Rests σ') (hs : τ.sup.stock = σ.sup.stock) (hq : τ.queued = σ.queued)
    (ha : τ.active = σ.active) : σ.Rests σ' := by
  simp only [Super.stock, Prod.mk.injEq] at hs
  obtain ⟨h₁, h₂, h₃, h₄, h₅, h₆⟩ := hs
  have hr : σ.retirable = τ.retirable := by rw [retirable, retirable, h₂, h₃]
  exact ⟨h.enabled.trans h₁, h.discard.trans h₅, h₄ ▸ h.wait, by rw [← h₄, hr]; exact h.new,
    fun hen => hr ▸ h.kept (h₁.trans hen), fun hen => h₆ ▸ h.free (h₁.trans hen),
    by rw [← h₆, hr]; exact h.freed, h.queued.trans hq, h.active.trans ha⟩

theorem Rests.after (h : σ.Rests τ) (hs : σ'.sup.stock = τ.sup.stock) (hq : σ'.queued = τ.queued)
    (ha : σ'.active = τ.active) : σ.Rests σ' := by
  simp only [Super.stock, Prod.mk.injEq] at hs
  obtain ⟨h₁, h₂, h₃, h₄, h₅, h₆⟩ := hs
  have hr : σ'.retirable = τ.retirable := by rw [retirable, retirable, h₂, h₃]
  exact ⟨h₁.trans h.enabled, h₅.trans h.discard, h₄ ▸ h.wait, h₄ ▸ h.new, by
    rw [hr, h₄]; exact h.kept, h₆ ▸ h.free, h₆ ▸ h.freed, hq.trans h.queued, ha.trans h.active⟩

theorem queued_tail (ts : List Task) (hq : σ'.queue = σ.queue ++ ts)
    (ht : ts.filterMap Task.request? = []) : σ'.queued = σ.queued := by
  rw [queued, queued, hq, List.filterMap_append, ht, List.append_nil]

theorem queued_head (ts : List Task) (hq : σ'.queue = ts ++ σ.queue)
    (ht : ts.filterMap Task.request? = []) : σ'.queued = σ.queued := by
  rw [queued, queued, hq, List.filterMap_append, ht, List.nil_append]

theorem queued_cancelWrite (σ : Sys) (fl : ℕ) : (σ.cancelWrite fl).queued = σ.queued := by
  rw [queued, queued, cancelWrite, List.filterMap_map]
  congr 1
  funext t
  cases t <;> rfl

/-- An extent becomes a journal extent. -/
theorem rests_takeJournal {b : ℕ} (hs : σ'.sup.stock = (σ.sup.takeJournal b).stock)
    (hq : σ'.queued = σ.queued) (ha : σ'.active = σ.active) : σ.Rests σ' := by
  have h : σ.Rests { σ with sup := σ.sup.takeJournal b } := by
    refine ⟨rfl, rfl, Finset.Subset.refl _, Finset.subset_union_left, fun _ => ?_,
      fun _ => Finset.erase_subset _ _,
      (Finset.erase_subset _ _).trans Finset.subset_union_left, rfl, rfl⟩
    refine Finset.Subset.trans ?_ Finset.subset_union_left
    exact Finset.union_subset_union_right (Finset.subset_insert _ _)
  exact h.after hs hq ha

theorem rests_writerEncode {s : Super} (h : s = σ.sup ∨ ∃ b ∈ σ.sup.free, s = σ.sup.takeJournal b)
    (hs : σ'.sup.stock = s.stock) (hq : σ'.queued = σ.queued) (ha : σ'.active = σ.active) :
    σ.Rests σ' := by
  rcases h with rfl | ⟨b, -, rfl⟩
  · exact .of_eq hs hq ha
  · exact rests_takeJournal hs hq ha

/-- The extents `X` of `flush_extents` and `journal_extents` are retired. -/
theorem rests_discardExtents {s : Super} {X : Finset ℕ}
    (hs : s.discardEnabled = σ.sup.discardEnabled ∧ s.waitDiscard = σ.sup.waitDiscard ∧
      s.discard = σ.sup.discard ∧ s.free = σ.sup.free)
    (hX : X ⊆ σ.retirable) (hkept : σ.retirable ⊆ s.flush ∪ s.journal ∪ X) :
    σ.Rests ({ σ with sup := s }.discardExtents X) := by
  obtain ⟨h₁, h₂, h₃, h₄⟩ := hs
  have hgrown : ∀ w q, { σ with queue := q }.queued = σ.queued →
      σ.Rests { σ with
        sup := { s with waitDiscard := s.waitDiscard ∪ X, discardWorking := w }
        queue := q } := by
    intro w q hq
    refine ⟨h₁, h₃, ?_, ?_, fun _ => ?_, fun _ => h₄.subset,
      h₄.subset.trans Finset.subset_union_left, hq, rfl⟩
    · show _ ⊆ s.waitDiscard ∪ X
      rw [h₂]
      exact Finset.subset_union_left
    · show s.waitDiscard ∪ X ⊆ _
      rw [h₂]
      exact Finset.union_subset_union_right hX
    · show _ ⊆ s.flush ∪ s.journal ∪ (s.waitDiscard ∪ X)
      refine hkept.trans (Finset.union_subset_union_right ?_)
      exact Finset.subset_union_right
  have hwait : s.waitDiscard ⊆ σ.sup.waitDiscard ∪ σ.retirable := by
    rw [h₂]
    exact Finset.subset_union_left
  unfold discardExtents
  simp only
  split_ifs with hXe hen hw
  · subst hXe
    refine ⟨h₁, h₃, h₂.symm.subset, hwait, fun _ => ?_, fun _ => h₄.subset,
      h₄.subset.trans Finset.subset_union_left, rfl, rfl⟩
    refine hkept.trans ?_
    rw [Finset.union_empty]
    exact Finset.subset_union_left
  · exact hgrown true σ.queue rfl
  · exact hgrown true _ (queued_tail [.discard none] rfl rfl)
  · refine ⟨h₁, h₃, h₂.symm.subset, hwait, fun h => absurd (h₁.trans h) hen,
      fun h => absurd (h₁.trans h) hen, ?_, rfl, rfl⟩
    show s.free ∪ X ⊆ _
    rw [h₄]
    exact Finset.union_subset_union_right hX

theorem rests_flusherAfterFlush (σ : Sys) (err : Bool) :
    σ.Rests (σ.flusherAfterFlush err) := by
  unfold flusherAfterFlush
  simp only
  split_ifs
  · exact .of_eq rfl rfl rfl
  · exact .of_eq rfl rfl rfl
  · exact .of_eq rfl rfl rfl
  · exact .of_eq rfl rfl rfl
  · refine (rests_discardExtents (s := { σ.sup with flush := ∅ }) (X := σ.sup.flush)
      ⟨rfl, rfl, rfl, rfl⟩ Finset.subset_union_left ?_).after rfl rfl rfl
    rw [Finset.empty_union, Finset.union_comm]
    exact Finset.Subset.refl _

theorem rests_handOver {X : Finset ℕ} (hs : σ'.sup.stock = (σ.sup.handOver X).1.stock)
    (hq : σ'.queued = σ.queued) (ha : σ'.active = σ.active) : σ.Rests σ' := by
  refine Rests.after (τ := { σ with sup := (σ.sup.handOver X).1 }) ?_ hs hq ha
  unfold Super.handOver
  split_ifs with hc
  · refine ⟨rfl, rfl, Finset.Subset.refl _, Finset.subset_union_left, fun _ => ?_,
      fun _ => Finset.Subset.refl _, Finset.subset_union_left, rfl, rfl⟩
    -- only an empty set is replaced
    intro b hb
    rw [retirable, hc.1, Finset.empty_union] at hb
    exact Finset.mem_union_left _ (Finset.mem_union_right _ hb)
  · exact .of_eq rfl rfl rfl

theorem rests_flusherEncode (σ : Sys) (fl : ℕ) (t : Flusher) (err : Bool) :
    σ.Rests (σ.flusherEncode fl t err) := by
  unfold flusherEncode
  split
  · rename_i s hs
    rcases writerEncode_super.1 s hs with rfl | rfl <;> exact .of_eq rfl rfl rfl
  · unfold flusherWriteFinish
    simp only
    split_ifs <;> exact .of_eq rfl rfl rfl
  · rename_i s c req flush rest hs
    have hs' := writerEncode_super.2 s c req flush rest hs
    simp only
    split_ifs
    · exact rests_writerEncode hs' rfl
        (queued_head [.before fl false, .writer fl (some req)] rfl rfl) rfl
    · exact rests_writerEncode hs' rfl (queued_head [.writer fl (some req)] rfl rfl) rfl

theorem stock_ioFlush (σ : Sys) (err : Bool) : (σ.ioFlush err).sup = σ.sup ∧
    (σ.ioFlush err).queue = σ.queue ∧ (σ.ioFlush err).active = σ.active := by
  unfold ioFlush
  split_ifs <;> exact ⟨rfl, rfl, rfl⟩

/-- The tasks of a flusher at most retire extents. -/
theorem rests_flusher {t₀ : Task} {n : ℕ} (hn : t₀.order = some n) (err m : Bool) (junk : Buf) :
    σ.Rests (σ.runTask t₀ err m junk) := by
  obtain ⟨hsup, hqueue, hactive⟩ := stock_ioFlush σ err
  have hstock : (σ.ioFlush err).sup.stock = σ.sup.stock := by rw [hsup]
  have hqueued : (σ.ioFlush err).queued = σ.queued := by rw [queued, hqueue]; rfl
  have hnone : σ.Rests σ := .of_eq rfl rfl rfl
  cases t₀ with
  | writer fl io =>
      simp only [runTask]
      split
      · exact hnone
      split
      · rename_i req
        refine (rests_flusherEncode (σ.ioRecord req err junk) fl _ err).before ?_ ?_ ?_
        all_goals unfold ioRecord; simp only; split_ifs <;> rfl
      · exact rests_flusherEncode σ fl _ false
  | before fl flush =>
      simp only [runTask]
      split
      · exact hnone
      split_ifs
      · unfold flusherBeforeWriteFlushDone
        simp only
        split_ifs
        · exact .of_eq hstock ((queued_cancelWrite _ fl).trans hqueued) hactive
        · exact .of_eq hstock hqueued hactive
        · exact .of_eq hstock ((queued_cancelWrite _ fl).trans hqueued) hactive
        · exact .of_eq hstock hqueued hactive
      · unfold flusherBeforeWriteFlush
        split_ifs
        · exact .of_eq rfl (queued_cancelWrite _ fl) rfl
        · exact rests_handOver rfl (queued_head [.before fl true] rfl rfl) rfl
  | after fl flush =>
      simp only [runTask]
      split
      · exact hnone
      split_ifs
      · exact (rests_flusherAfterFlush (σ.ioFlush err) err).before hstock hqueued hactive
      · unfold flusherBeforeFlush
        split_ifs
        · exact hnone
        · exact rests_handOver rfl (queued_head [.after fl true] rfl rfl) rfl
  | free fl =>
      simp only [runTask]
      split
      · exact hnone
      · unfold flusherFree
        simp only
        split_ifs <;> exact .of_eq rfl rfl rfl
  | _ => cases hn

theorem rests_compactLoaded (σ : Sys) (t : Compact) (m : Bool) (out : LoaderOut) :
    σ.Rests (σ.compactLoaded t m out) := by
  cases out with
  | readPage l X => exact .of_eq rfl (queued_tail [.compactPage] rfl rfl) rfl
  | error X => exact .of_eq rfl rfl rfl
  | finish l X =>
      simp only [compactLoaded]
      unfold compactLoaderFinish
      split
      · split
        · exact .of_eq rfl rfl rfl
        simp only
        split
        · exact .of_eq rfl (queued_tail [.compactWriteSuper false] rfl rfl) rfl
        · split
          · exact .of_eq rfl rfl rfl
          · exact rests_takeJournal rfl (queued_tail [.compactWriter none] rfl rfl) rfl
      · exact .of_eq rfl rfl rfl

theorem rests_compactEncode (σ : Sys) (t : Compact) (err : Bool) :
    σ.Rests (σ.compactEncode t err) := by
  unfold compactEncode
  split
  · rename_i s hs
    rcases writerEncode_super.1 s hs with rfl | rfl <;> exact .of_eq rfl rfl rfl
  · exact .of_eq rfl (queued_tail [.compactWriteSuper true] rfl rfl) rfl
  · rename_i s c req flush rest hs
    exact rests_writerEncode (writerEncode_super.2 s c req flush rest hs) rfl
      (queued_tail [.compactWriter (some req)] rfl rfl) rfl

theorem rests_compactWriteSuper (σ : Sys) (t : Compact) (err : Bool) :
    σ.Rests (σ.compactWriteSuper t err) := by
  unfold compactWriteSuper
  split
  · exact .of_eq rfl rfl rfl
  · exact .of_eq rfl (queued_tail [.compactFlushSuper _] rfl rfl) rfl

/-- The extents of the old chain are retired. -/
theorem rests_retireJournal {X : Finset ℕ} (hX : X ⊆ σ.sup.journal) (k : ℕ) :
    σ.Rests ({ σ with sup := { σ.sup with
      journal := σ.sup.journal \ X, journalExtents := k } }.discardExtents X) := by
  refine rests_discardExtents ⟨rfl, rfl, rfl, rfl⟩ (hX.trans Finset.subset_union_right) ?_
  intro b hb
  simp only [retirable, Finset.mem_union, Finset.mem_sdiff] at hb ⊢
  tauto

theorem rests_compactFinish (σ : Sys) (t : Compact) (err : Bool) :
    σ.Rests (σ.compactFinish t err) := by
  unfold compactFinish
  simp only
  split
  · exact .of_eq rfl rfl rfl
  split
  · rename_i hleast
    have hX := Finset.sdiff_eq_empty_iff_subset.1 (least_eq_none.1 hleast)
    exact (rests_retireJournal hX _).after rfl rfl rfl
  · rename_i n hleast
    refine (rests_retireJournal ?_ _).after rfl rfl rfl
    intro b hb
    obtain ⟨hb, hlt⟩ := Finset.mem_filter.1 hb
    by_contra hn
    have := le_of_least hleast (Finset.mem_sdiff.2 ⟨hb, hn⟩)
    omega

/-- The tasks of a compaction at most retire extents. -/
theorem rests_compact {t : Task} (ht : t.isCompact = true) (err m : Bool) (junk : Buf) :
    σ.Rests (σ.runTask t err m junk) := by
  obtain ⟨hsup, hqueue, hactive⟩ := stock_ioFlush σ err
  have hstock : (σ.ioFlush err).sup.stock = σ.sup.stock := by rw [hsup]
  have hqueued : (σ.ioFlush err).queued = σ.queued := by rw [queued, hqueue]; rfl
  have hnone : σ.Rests σ := .of_eq rfl rfl rfl
  cases t with
  | compactHeader | compactPage =>
      simp only [runTask]
      split
      · exact hnone
      split_ifs
      · exact .of_eq rfl rfl rfl
      · exact rests_compactLoaded σ _ _ _
  | compactWriter io =>
      simp only [runTask]
      split
      · exact hnone
      split
      · exact (rests_compactEncode (σ.ioWrite _ err junk) _ err).before rfl rfl rfl
      · exact rests_compactEncode σ _ false
  | compactWriteSuper flush =>
      simp only [runTask]
      split
      · exact hnone
      split_ifs
      · exact (rests_compactWriteSuper (σ.ioFlush err) _ err).before hstock hqueued hactive
      · exact rests_compactWriteSuper σ _ false
  | compactFlushSuper req =>
      simp only [runTask, compactFlushSuper]
      split_ifs
      · exact .of_eq rfl rfl rfl
      · exact .of_eq rfl (queued_tail [.compactFinish] rfl rfl) rfl
  | compactFinish =>
      simp only [runTask]
      split
      · exact hnone
      · exact (rests_compactFinish (σ.ioFlush err) _ err).before hstock hqueued hactive
  | _ => cases ht

/-! ### Steps -/

/-- The step does not work on the pipeline; it may hand extents to it. -/
structure Receives (σ σ' : Sys) : Prop where
  enabled : σ'.sup.discardEnabled = σ.sup.discardEnabled
  discard : σ'.sup.discard = σ.sup.discard
  wait : σ.sup.waitDiscard ⊆ σ'.sup.waitDiscard
  new : σ'.sup.waitDiscard ⊆ σ.sup.waitDiscard ∪ σ.retirable
  kept : σ.sup.discardEnabled = true → σ.retirable ⊆ σ'.retirable ∪ σ'.sup.waitDiscard
  free : σ.mounting = false → σ.sup.discardEnabled = true → σ'.sup.free ⊆ σ.sup.free
  freed : σ.mounting = false → σ'.sup.free ⊆ σ.sup.free ∪ σ.retirable
  created : σ.created σ' = []
  requests : ∀ r ∈ σ'.requests, r ∈ σ.requests

theorem requests_eq (σ : Sys) :
    σ.requests = σ.active.toList.filterMap Task.request? ++ σ.queued := by
  rw [requests, tasks, List.filterMap_append]
  rfl

theorem created_of_sublist (h : σ'.queued.Sublist σ.queued) : σ.created σ' = [] := by
  refine List.eq_nil_iff_forall_not_mem.2 fun r hr => ?_
  have hpos := List.count_pos_iff.2 hr
  have hle := h.count_le r
  rw [created, List.count_diff] at hpos
  omega

theorem created_of_eq (h : σ'.queued = σ.queued) : σ.created σ' = [] :=
  created_of_sublist (h ▸ List.Sublist.refl _)

theorem Rests.receives (h : σ.Rests σ') : σ.Receives σ' := by
  refine ⟨h.enabled, h.discard, h.wait, h.new, h.kept, fun _ => h.free, fun _ => h.freed,
    created_of_eq h.queued, ?_⟩
  rw [requests_eq, requests_eq, h.queued, h.active]
  exact fun r hr => hr

/-- A task completes, and its callback leaves the pipeline alone. -/
theorem Rests.receives_popped (h : Rests { σ with active := none } σ') : σ.Receives σ' := by
  refine ⟨h.enabled, h.discard, h.wait, h.new, h.kept, fun _ => h.free, fun _ => h.freed,
    created_of_eq h.queued, ?_⟩
  rw [requests_eq, requests_eq, h.queued, h.active]
  exact fun r hr => List.mem_append_right _ hr

theorem stock_updFile (s : Super) (id : ℕ) (g : File → File) : (s.updFile id g).stock = s.stock := by
  unfold Super.updFile
  split <;> rfl

/-- The mount replays entries into sets that the pipeline does not use yet. -/
theorem MountOut.stock {l : Loader} {out : LoaderOut} (ho : σ.MountOut l out) :
    out.super.discardEnabled = σ.sup.discardEnabled ∧ out.super.flush = σ.sup.flush ∧
      σ.sup.journal ⊆ out.super.journal ∧ out.super.waitDiscard = σ.sup.waitDiscard ∧
      out.super.discard = σ.sup.discard := by
  refine ho.rule (P := fun X => X.discardEnabled = σ.sup.discardEnabled ∧ X.flush = σ.sup.flush ∧
    σ.sup.journal ⊆ X.journal ∧ X.waitDiscard = σ.sup.waitDiscard ∧ X.discard = σ.sup.discard)
    (fun _ _ h => h) (fun X X' e hr h => ?_) ⟨rfl, rfl, Finset.Subset.refl _, rfl, rfl⟩
  have hj : X.journal ⊆ X'.journal := fun b hb => (hr.mem_journal b).2 (.inl hb)
  obtain ⟨_, _, _, _, _, _, _, _, _, _, _, hs⟩ := hr.shape
  rw [hs] at hj ⊢
  exact ⟨h.1, h.2.1, h.2.2.1.trans hj, h.2.2.2⟩

theorem receives_change (hc : σ.Change σ') : σ.Receives σ' := by
  cases hc with
  | «open» _ _ _ _ _ _ he | close _ _ _ _ _ _ he | closeClosed he =>
      subst he
      refine Rests.receives ?_
      exact .of_eq rfl rfl rfl
  | @op j s cs ws ho he =>
      have hfree := Super.free_op ho
      obtain ⟨_, _, _, _, _, _, _, _, _, hs⟩ := ho.shape
      subst he
      rw [hs] at hfree ⊢
      exact Rests.receives ⟨rfl, rfl, Finset.Subset.refl _, Finset.subset_union_left,
        fun _ => Finset.subset_union_left, fun _ => hfree, hfree.trans Finset.subset_union_left,
        rfl, rfl⟩
  | @copyStart f i b src cs ws io _ _ _ _ hf hmode _ _ hb hnone he =>
      have hst : (σ.sup.copyPending f b i).stock = (σ.sup.superToFile f b i).stock :=
        stock_updFile _ _ _
      rw [Super.superToFile_eq hnone] at hst
      subst he
      have hr : σ.Rests { σ with sup := { σ.sup with free := σ.sup.free.erase b } } :=
        ⟨rfl, rfl, Finset.Subset.refl _, Finset.subset_union_left,
          fun _ => Finset.subset_union_left, fun _ => Finset.erase_subset _ _,
          (Finset.erase_subset _ _).trans Finset.subset_union_left, rfl, rfl⟩
      refine Rests.receives (hr.after hst ?_ rfl)
      exact queued_tail [.copy f.id i b src] rfl rfl
  | @copied k i b src err m junk ht he =>
      have hst : (σ.sup.copyEnded k i err).stock = σ.sup.stock := stock_updFile _ _ _
      subst he
      refine Rests.receives_popped (.of_eq ?_ ?_ ?_)
      all_goals cases err <;> first | exact hst | rfl
  | @mount l out hl ho he =>
      obtain ⟨h₁, h₂, h₃, h₄, h₅⟩ := ho.stock
      have hm : σ.mounting = true := by
        rcases ho.active with ht | ht <;> rw [mounting, ht] <;> rfl
      have hkept : σ.retirable ⊆ out.super.flush ∪ out.super.journal := by
        rw [h₂]
        exact Finset.union_subset_union_right h₃
      have hwait : σ.sup.waitDiscard ⊆ out.super.waitDiscard := h₄.symm.subset
      have hnew : out.super.waitDiscard ⊆ σ.sup.waitDiscard ∪ σ.retirable := by
        rw [h₄]
        exact Finset.subset_union_left
      have hqueue : ({ σ with active := none }.loaded out).queued = σ.queued := by
        cases out with
        | readPage l X => exact queued_tail [.loadPage] rfl rfl
        | finish l X | error X => rfl
      have hreq : ∀ r ∈ ({ σ with active := none }.loaded out).requests, r ∈ σ.requests := by
        rw [requests_eq, requests_eq, hqueue]
        cases out <;> exact fun r hr => List.mem_append_right _ hr
      subst he
      refine ⟨?_, ?_, ?_, ?_, fun _ => ?_, fun h => absurd hm (by simp [h]),
        fun h => absurd hm (by simp [h]), created_of_eq hqueue, hreq⟩
      · cases out <;> exact h₁
      · cases out <;> exact h₅
      · cases out <;> exact hwait
      · cases out <;> exact hnew
      · refine Finset.Subset.trans ?_ Finset.subset_union_left
        cases out <;> exact hkept

theorem receives_effect (he : σ.Effect σ') :
    σ.Receives σ' ∨ ∃ io err m junk, σ.active = some (.discard io) ∧
      σ' = { σ with active := none }.runTask (.discard io) err m junk := by
  cases he with
  | change hm => exact .inl (receives_change hm)
  | threads he | compactStart _ _ he | handlerWrite _ _ he | compactFail _ he =>
      subst he
      refine .inl (Rests.receives ?_)
      exact .of_eq rfl rfl rfl
  | @requeue file he =>
      subst he
      refine .inl (Rests.receives ?_)
      exact .of_eq rfl (queued_tail [.requeue file] rfl rfl) rfl
  | compactInit _ he =>
      subst he
      refine .inl (Rests.receives ?_)
      exact .of_eq rfl (queued_tail [.compactHeader] rfl rfl) rfl
  | @get t q ha hq he =>
      subst he
      refine .inl ⟨rfl, rfl, Finset.Subset.refl _, Finset.subset_union_left,
        fun _ => Finset.subset_union_left, fun _ _ => Finset.Subset.refl _,
        fun _ => Finset.subset_union_left, created_of_sublist ?_, ?_⟩
      · rw [queued, queued, hq]
        exact (List.sublist_cons_self t q).filterMap _
      · rw [requests, requests, tasks, tasks, ha, hq]
        exact fun r hr => hr
  | noMount _ ht he =>
      subst he
      refine .inl (Rests.receives_popped ?_)
      exact .of_eq rfl rfl rfl
  | @flusher cs ondisk he =>
      subst he
      refine .inl (Rests.receives ?_)
      unfold queueFlusher
      simp only
      split_ifs
      all_goals first
        | exact .of_eq rfl rfl rfl
        | exact .of_eq rfl (queued_tail _ rfl rfl) rfl
  | @task t err m junk ht hloud he =>
      subst he
      cases hn : t.order with
      | some n => exact .inl (Rests.receives_popped (rests_flusher hn err m junk))
      | none =>
          cases hc : t.isCompact with
          | true => exact .inl (Rests.receives_popped (rests_compact hc err m junk))
          | false =>
              cases t with
              | copy | loadHeader | loadPage => exact absurd trivial hloud
              | requeue file =>
                  refine .inl (Rests.receives_popped ?_)
                  exact .of_eq rfl rfl rfl
              | discard io => exact .inr ⟨io, err, m, junk, ht, rfl⟩
              | writer | before | after | free => cases hn
              | _ => cases hc

/-! ### The steps of the pipeline -/

theorem queued_of_discards (h : σ.queue.filterMap Task.discard? = []) : σ.queued = [] := by
  refine List.filterMap_eq_nil_iff.2 fun t ht => ?_
  have := List.filterMap_eq_nil_iff.1 h t ht
  cases t <;> first | rfl | cases this

/-- The discard task completes: what was discarded is free, and a run `X` of waiting
extents is next. -/
structure Advances (σ σ' : Sys) (X : Finset ℕ) : Prop where
  enabled : σ'.sup.discardEnabled = σ.sup.discardEnabled
  mounting : σ.mounting = false
  retirable : σ'.retirable = σ.retirable
  free : σ'.sup.free = σ.sup.free ∪ σ.sup.discard
  subset : X ⊆ σ.sup.waitDiscard
  discard : σ'.sup.discard = X
  wait : σ'.sup.waitDiscard = σ.sup.waitDiscard \ X
  requests : σ'.requests = σ.created σ'
  created : (X = ∅ ∧ σ.sup.waitDiscard = ∅ ∧ σ.created σ' = []) ∨
    ∃ n k, 0 < k ∧ X = Finset.Ico n (n + k) ∧
      σ.created σ' = [(mapExtentOffset n 0, k * extentSize)]

theorem runLen_pos {X : Finset ℕ} {n : ℕ} (h : n ∈ X) : 0 < Super.runLen X n X.card := by
  obtain ⟨c, hc⟩ := Nat.exists_eq_add_of_lt (Finset.card_pos.2 ⟨n, h⟩)
  rw [hc, Nat.zero_add, Super.runLen, if_pos h]
  exact Nat.succ_pos _

/-- **A step of the pipeline.** -/
theorem advances_discard (h : σ.Pipe) {io : Option (ℕ × ℕ)} (ht : σ.active = some (.discard io))
    (err m : Bool) (junk : Buf) :
    ∃ X, σ.Advances ({ σ with active := none }.runTask (.discard io) err m junk) X := by
  have hd : σ.discards = io :: σ.queue.filterMap Task.discard? := by
    rw [discards, tasks_of_active ht]
    rfl
  have hone : σ.queue.filterMap Task.discard? = [] := by
    cases h with
    | idle h₁ => rw [hd] at h₁; cases h₁
    | waiting h₁ | running h₁ => rw [hd] at h₁; exact (List.cons.inj h₁).2
  have hq := queued_of_discards hone
  have hm : σ.mounting = false := by rw [mounting, ht]; rfl
  -- the pipeline looks for the next run in a state `τ` in which nothing is being discarded
  have hbegin : ∀ τ : Sys, τ.queue = σ.queue → τ.active = none → τ.sup.discard = ∅ →
      τ.sup.discardEnabled = σ.sup.discardEnabled → τ.retirable = σ.retirable →
      τ.sup.free = σ.sup.free ∪ σ.sup.discard → τ.sup.waitDiscard = σ.sup.waitDiscard →
      ∃ X, σ.Advances τ.discardBegin X := by
    intro τ hqueue hactive hdis hen hret hfree hwait
    have hqτ : τ.queued = [] := by rw [queued, hqueue]; exact hq
    unfold discardBegin
    simp only
    split
    · rename_i hl
      have hempty := hwait ▸ least_eq_none.1 hl
      have hc : σ.created { τ with sup := { τ.sup with discardWorking := false } } = [] :=
        created_of_eq (hqτ.trans hq.symm)
      refine ⟨∅, hen, hm, hret, hfree, Finset.empty_subset _, hdis, ?_, ?_, .inl ⟨rfl, hempty, hc⟩⟩
      · rw [Finset.sdiff_empty]
        exact hwait
      · rw [hc, requests_eq]
        show τ.active.toList.filterMap _ ++ τ.queued = []
        rw [hactive, hqτ]
        rfl
    · rename_i n hl
      have hn := mem_of_least hl
      have hX := Super.runLen_subset τ.sup.waitDiscard n τ.sup.waitDiscard.card
      have hqueued : ∀ s r, ({ τ with sup := s }.addTail (.discard (some r))).queued = [r] := by
        intro s r
        show (τ.queue ++ [Task.discard (some r)]).filterMap _ = _
        rw [List.filterMap_append, show τ.queue.filterMap Task.request? = [] from hqτ]
        rfl
      have hc : ∀ s r, σ.created ({ τ with sup := s }.addTail (.discard (some r))) = [r] := by
        intro s r
        rw [created, hqueued, hq, List.diff_nil]
      refine ⟨_, hen, hm, hret, hfree, hwait ▸ hX, ?_, ?_, ?_, .inr ⟨n, _, runLen_pos hn, rfl, hc _ _⟩⟩
      · show τ.sup.discard ∪ _ = _
        rw [hdis, Finset.empty_union]
      · show τ.sup.waitDiscard \ _ = _
        rw [hwait]
      · rw [hc, requests_eq, hqueued]
        show τ.active.toList.filterMap _ ++ _ = _
        rw [hactive]
        rfl
  cases io with
  | none =>
      have hnone : σ.sup.discard = ∅ := by
        cases h with
        | idle h₁ => rw [hd] at h₁; cases h₁
        | waiting h₁ h₂ h₃ => exact h₃
        | running h₁ => rw [hd] at h₁; cases (List.cons.inj h₁).1
      refine hbegin { σ with active := none } rfl rfl hnone rfl rfl ?_ rfl
      rw [hnone, Finset.union_empty]
  | some r =>
      obtain ⟨off, len⟩ := r
      exact hbegin { ({ σ with active := none }.ioWrite ⟨off, len, junk⟩ false junk) with
        sup := { σ.sup with
          free := σ.sup.free ∪ σ.sup.discard
          freeExtents := σ.sup.freeExtents + σ.sup.discard.card
          discard := ∅ } } rfl rfl rfl rfl rfl rfl rfl

/-! ### The life of an extent -/

/-- The stage of extent `b`. -/
def pipeStage (σ : Sys) (b : ℕ) : PipeStage :=
  if b ∈ σ.sup.waitDiscard then .waiting
  else if b ∈ σ.sup.discard then .discarding
  else .outside

/-- What a step from `σ` to `σ'` does to extent `b`.  The extents that the mount
hands back while it replays the journal are not retired ones. -/
def events (b : ℕ) (σ σ' : Sys) : List Event :=
  (if b ∈ σ.retirable ∧ b ∉ σ'.retirable then [.retired] else []) ++
    (((σ.created σ').filter fun r => Covers r b).map fun _ => .covered) ++
    (if σ.mounting = false ∧ b ∈ σ'.sup.free ∧ b ∉ σ.sup.free then [.freed] else [])

/-- The extents that a step retires. -/
def retirements (σ σ' : Sys) : List ℕ := (σ.retirable \ σ'.retirable).sort (· ≤ ·)

/-- What the steps of a run add up to. -/
def along {α : Type} (g : Sys → Sys → List α) : Sys → List Label → List α
  | _, [] => []
  | σ, l :: ls =>
      match σ.step l with
      | none => []
      | some σ' => g σ σ' ++ along g σ' ls

theorem covers_run (n k b : ℕ) :
    Covers (mapExtentOffset n 0, k * extentSize) b ↔ b ∈ Finset.Ico n (n + k) := by
  simp only [Covers, mapExtentOffset, extentBegin, extentSize, superBlockSize, Finset.mem_Ico]
  omega

/-- An extent of the pipeline is nowhere else. -/
theorem ExtentsOk.apart (h : σ.ExtentsOk) {b : ℕ} :
    (b ∈ σ.sup.waitDiscard → b ∉ σ.sup.discard ∧ b ∉ σ.retirable ∧ b ∉ σ.sup.free) ∧
    (b ∈ σ.sup.discard → b ∉ σ.retirable ∧ b ∉ σ.sup.free ∧ b ∉ σ.sup.bound) := by
  have hp := h.sup.parts
  have hno : ∀ o o' : Owner, o ≠ o' → b ∈ σ.sup.owned σ.held o → b ∉ σ.sup.owned σ.held o' :=
    fun o o' hne ho ho' => hne (hp.mem_unique o o' ho ho')
  constructor
  · intro hb
    refine ⟨hno .waitDiscard .discard (by simp) hb, fun hr => ?_, hno .waitDiscard .free (by simp) hb⟩
    rcases Finset.mem_union.1 hr with hf | hj
    · exact hno .waitDiscard .flush (by simp) hb hf
    · exact hno .waitDiscard .journal (by simp) hb hj
  · intro hb
    refine ⟨fun hr => ?_, hno .discard .free (by simp) hb, ?_⟩
    · rcases Finset.mem_union.1 hr with hf | hj
      · exact hno .discard .flush (by simp) hb hf
      · exact hno .discard .journal (by simp) hb hj
    · rintro ⟨id, i, hi⟩
      exact hno .discard (.file id i) (by simp) hb hi

theorem life_receives (h : σ.ExtentsOk) (h' : σ'.ExtentsOk) (hen : σ.sup.discardEnabled = true)
    (hr : σ.Receives σ') (b : ℕ) :
    (events b σ σ').foldlM PipeStage.next (σ.pipeStage b) = some (σ'.pipeStage b) := by
  have hfreed : ¬ (σ.mounting = false ∧ b ∈ σ'.sup.free ∧ b ∉ σ.sup.free) :=
    fun hf => hf.2.2 (hr.free hf.1 hen hf.2.1)
  rw [events, hr.created, if_neg hfreed]
  by_cases hret : b ∈ σ.retirable ∧ b ∉ σ'.retirable
  · rw [if_pos hret]
    have hwait : b ∈ σ'.sup.waitDiscard :=
      (Finset.mem_union.1 (hr.kept hen hret.1)).resolve_left hret.2
    have h₁ : b ∉ σ.sup.waitDiscard := fun hb => (h.apart.1 hb).2.1 hret.1
    have h₂ : b ∉ σ.sup.discard := fun hb => (h.apart.2 hb).1 hret.1
    rw [pipeStage, if_neg h₁, if_neg h₂, pipeStage, if_pos hwait]
    rfl
  · rw [if_neg hret]
    have hwait : b ∈ σ'.sup.waitDiscard ↔ b ∈ σ.sup.waitDiscard := by
      refine ⟨fun hb => ?_, fun hb => hr.wait hb⟩
      refine (Finset.mem_union.1 (hr.new hb)).resolve_right fun hσ => hret ⟨hσ, ?_⟩
      exact (h'.apart.1 hb).2.1
    simp only [pipeStage, hwait, hr.discard]
    rfl

theorem life_advances {X : Finset ℕ} (h : σ.ExtentsOk) (ha : σ.Advances σ' X) (b : ℕ) :
    (events b σ σ').foldlM PipeStage.next (σ.pipeStage b) = some (σ'.pipeStage b) := by
  have hret : ¬ (b ∈ σ.retirable ∧ b ∉ σ'.retirable) := by
    rw [ha.retirable]
    exact fun h => h.2 h.1
  have hcov : ((σ.created σ').filter fun r => Covers r b).map (fun _ => Event.covered) =
      if b ∈ X then [.covered] else [] := by
    rcases ha.created with ⟨rfl, -, hc⟩ | ⟨n, k, hk, rfl, hc⟩
    · rw [hc]
      rfl
    · rw [hc, List.filter_cons]
      simp only [covers_run, decide_eq_true_eq]
      split_ifs <;> rfl
  have hfreed : (σ.mounting = false ∧ b ∈ σ'.sup.free ∧ b ∉ σ.sup.free) ↔ b ∈ σ.sup.discard := by
    rw [ha.free]
    constructor
    · rintro ⟨-, hb, hn⟩
      exact (Finset.mem_union.1 hb).resolve_left hn
    · intro hb
      exact ⟨ha.mounting, Finset.mem_union_right _ hb, (h.apart.2 hb).2.1⟩
  rw [events, hcov, if_neg hret, List.nil_append]
  simp only [hfreed, pipeStage, ha.wait, ha.discard, Finset.mem_sdiff]
  by_cases hX : b ∈ X
  · have hw := ha.subset hX
    have hd := (h.apart.1 hw).1
    simp only [hX, hw, hd, if_true, if_false, not_true, and_false]
    rfl
  · by_cases hw : b ∈ σ.sup.waitDiscard
    · have hd := (h.apart.1 hw).1
      simp only [hX, hw, hd, if_true, if_false, not_false_eq_true, and_true]
      rfl
    · by_cases hd : b ∈ σ.sup.discard
      · simp only [hX, hw, hd, if_true, if_false, false_and]
        rfl
      · simp only [hX, hw, hd, if_false, false_and]
        rfl

/-! ### Runs -/

/-- The sound states of a super that discards. -/
structure Discarding (σ : Sys) (total : ℕ) : Prop where
  sound : σ.Sound total
  pipe : σ.Pipe
  enabled : σ.sup.discardEnabled = true
  /-- a DISCARD is for `discard_extents`, and these are consecutive -/
  aimed : ∀ r ∈ σ.requests, ∃ n k, 0 < k ∧ σ.sup.discard = Finset.Ico n (n + k) ∧
    r = (mapExtentOffset n 0, k * extentSize)

/-- **A step receives extents or advances**, and keeps every DISCARD aimed. -/
theorem aimed_effect (hp : σ.Pipe) (he : σ.Effect σ')
    (h : ∀ r ∈ σ.requests, ∃ n k, 0 < k ∧ σ.sup.discard = Finset.Ico n (n + k) ∧
      r = (mapExtentOffset n 0, k * extentSize)) :
    (∀ r ∈ σ'.requests, ∃ n k, 0 < k ∧ σ'.sup.discard = Finset.Ico n (n + k) ∧
      r = (mapExtentOffset n 0, k * extentSize)) ∧ (σ.Receives σ' ∨ ∃ X, σ.Advances σ' X) := by
  rcases receives_effect he with hr | ⟨io, err, m, junk, ht, rfl⟩
  · refine ⟨fun r hm => ?_, .inl hr⟩
    rw [hr.discard]
    exact h r (hr.requests r hm)
  · obtain ⟨X, ha⟩ := advances_discard hp ht err m junk
    refine ⟨fun r hm => ?_, .inr ⟨X, ha⟩⟩
    rw [ha.requests] at hm
    rcases ha.created with ⟨-, -, hc⟩ | ⟨n, k, hk, hX, hc⟩
    · rw [hc] at hm
      cases hm
    · rw [hc, List.mem_singleton] at hm
      exact ⟨n, k, hk, ha.discard.trans hX, hm⟩

theorem Discarding.step {l : Label} (h : σ.Discarding total) (hs : σ.step l = some σ') :
    σ'.Discarding total ∧ (σ.Receives σ' ∨ ∃ X, σ.Advances σ' X) := by
  obtain ⟨hσ', he⟩ := h.sound.step hs
  obtain ⟨haimed, hr⟩ := aimed_effect h.pipe he h.aimed
  refine ⟨⟨hσ', pipe_effect h.pipe he, ?_, haimed⟩, hr⟩
  rcases hr with hr | ⟨X, ha⟩
  · exact hr.enabled.trans h.enabled
  · exact ha.enabled.trans h.enabled

/-- **The life of an extent.**  Along a run the events of an extent follow its stages. -/
theorem Discarding.life {ls : List Label} (h : σ.Discarding total) (hrun : σ.run ls = some σ')
    (b : ℕ) : σ'.Discarding total ∧
      (along (events b) σ ls).foldlM PipeStage.next (σ.pipeStage b) = some (σ'.pipeStage b) := by
  induction ls generalizing σ with
  | nil => exact Option.some.inj hrun ▸ ⟨h, rfl⟩
  | cons l ls ih =>
      obtain ⟨τ, hs, hr⟩ := Option.bind_eq_some_iff.1 hrun
      obtain ⟨hτ, hstep⟩ := h.step hs
      obtain ⟨hσ', hlife⟩ := ih hτ hr
      refine ⟨hσ', ?_⟩
      have hone : (events b σ τ).foldlM PipeStage.next (σ.pipeStage b) = some (τ.pipeStage b) := by
        rcases hstep with hrec | ⟨X, hadv⟩
        · exact life_receives h.sound.extents hτ.sound.extents h.enabled hrec b
        · exact life_advances h.sound.extents hadv b
      rw [along, hs]
      simp only [List.foldlM_append, hone]
      exact hlife

/-- A step queues a DISCARD for each extent that waits, or for fewer. -/
theorem Discarding.pays {l : Label} (h : σ.Discarding total) (hs : σ.step l = some σ') :
    (σ.created σ').length + σ'.sup.waitDiscard.card ≤
      σ.sup.waitDiscard.card + (σ.retirements σ').length := by
  rw [retirements, Finset.length_sort]
  obtain ⟨hσ', hr | ⟨X, ha⟩⟩ := h.step hs
  · rw [hr.created, List.length_nil, Nat.zero_add]
    refine (Finset.card_le_card fun b hb => ?_).trans (Finset.card_union_le _ _)
    rcases Finset.mem_union.1 (hr.new hb) with hw | hret
    · exact Finset.mem_union_left _ hw
    · refine Finset.mem_union_right _ (Finset.mem_sdiff.2 ⟨hret, ?_⟩)
      exact (hσ'.sound.extents.apart.1 hb).2.1
  · rw [ha.wait, Finset.card_sdiff_of_subset ha.subset]
    have hle := Finset.card_le_card ha.subset
    rcases ha.created with ⟨-, -, hc⟩ | ⟨n, k, hk, hX, hc⟩
    · rw [hc, List.length_nil]
      omega
    · have hcard : X.card = k := by rw [hX, Nat.card_Ico]; omega
      rw [hc, List.length_singleton]
      omega

theorem Discarding.pays_run {ls : List Label} (h : σ.Discarding total)
    (hrun : σ.run ls = some σ') :
    (along created σ ls).length + σ'.sup.waitDiscard.card ≤
      σ.sup.waitDiscard.card + (along retirements σ ls).length := by
  induction ls generalizing σ with
  | nil =>
      rw [Option.some.inj hrun]
      simp [along]
  | cons l ls ih =>
      obtain ⟨τ, hs, hr⟩ := Option.bind_eq_some_iff.1 hrun
      have hone := h.pays hs
      have hrest := ih (h.step hs).1 hr
      rw [along, along, hs]
      simp only [List.length_append]
      omega

theorem discarding_opened (total : ℕ) (compact : Bool) (uuid : Uuid) (disk : Buf) :
    (Sys.opened total true compact uuid disk).Discarding total where
  sound := sound_opened ..
  pipe := pipe_opened ..
  enabled := rfl
  aimed r hr := by cases hr

/-- The bytes of a run of extents. -/
theorem mem_run_iff (n k a : ℕ) :
    (mapExtentOffset n 0 ≤ a ∧ a < mapExtentOffset n 0 + k * extentSize) ↔
      ∃ b ∈ Finset.Ico n (n + k), mapExtentOffset b 0 ≤ a ∧ a < mapExtentOffset b 0 + extentSize := by
  have hoff : ∀ b, mapExtentOffset b 0 = superBlockSize + b * extentSize := fun b => by
    rw [mapExtentOffset, extentBegin, Nat.zero_mod, Nat.add_zero]
  have hpos : 0 < extentSize := by decide
  simp only [hoff, Finset.mem_Ico]
  generalize superBlockSize = base
  generalize extentSize = size at hpos ⊢
  constructor
  · rintro ⟨hlo, hhi⟩
    have h₁ := Nat.div_mul_le_self (a - base) size
    have h₂ := Nat.lt_div_mul_add (a := a - base) hpos
    refine ⟨(a - base) / size, ⟨?_, ?_⟩, by omega, by omega⟩
    · rw [Nat.le_div_iff_mul_le hpos]
      omega
    · rw [Nat.div_lt_iff_lt_mul hpos, Nat.add_mul]
      omega
  · rintro ⟨b, ⟨hn, hk⟩, hlo, hhi⟩
    have h₁ := Nat.mul_le_mul_right size hn
    have h₂ := Nat.mul_le_mul_right size (Nat.succ_le_of_lt hk)
    rw [Nat.succ_mul, Nat.add_mul] at h₂
    omega

theorem exists_task_of_discards {io : Option (ℕ × ℕ)} (h : io ∈ σ.discards) :
    .discard io ∈ σ.tasks := by
  obtain ⟨t, ht, hd⟩ := List.mem_filterMap.1 h
  cases t with
  | discard io' => exact Option.some.inj hd ▸ ht
  | _ => cases hd

theorem mem_requests {r : ℕ × ℕ} (h : some r ∈ σ.discards) : r ∈ σ.requests :=
  List.mem_filterMap.2 ⟨_, exists_task_of_discards h, rfl⟩

/-- **Discards hit exactly the retired extents.**  In every run of a super that
discards, whatever its DISCARDs return: a queued or running DISCARD is for exactly the
bytes of `discard_extents`, a run of consecutive extents none of which is free, bound or
a journal extent; an extent of `discard_extents` is covered by such a DISCARD; every
extent goes through the events of `PipeStage.next` only, so that between being retired
and entering `free_extents` it is covered by one DISCARD; an extent that waits is not
covered by the DISCARD that is under way, the discard task is queued for it, and when
that task completes the next DISCARD is queued; and the DISCARDs that a run can queue
while an extent waits are fewer than the extents that waited at the beginning and those
retired since. -/
theorem discards_retired {compact : Bool} {uuid : Uuid} {disk : Buf} {ls : List Label}
    (hrun : (Sys.opened total true compact uuid disk).run ls = some σ) :
    (∀ r ∈ σ.requests, ∃ n k, 0 < k ∧ σ.sup.discard = Finset.Ico n (n + k) ∧
      ∀ a, (r.1 ≤ a ∧ a < r.1 + r.2) ↔ ∃ b ∈ σ.sup.discard,
        mapExtentOffset b 0 ≤ a ∧ a < mapExtentOffset b 0 + extentSize) ∧
    (∀ b ∈ σ.sup.discard, b ∉ σ.sup.free ∧ b ∉ σ.sup.bound ∧ b ∉ σ.sup.journal ∧
      ∃ r ∈ σ.requests, Covers r b) ∧
    (∀ b, (along (events b) (Sys.opened total true compact uuid disk) ls).foldlM PipeStage.next
      .outside = some (σ.pipeStage b)) ∧
    (∀ b ∈ σ.sup.waitDiscard, (∃ io, .discard io ∈ σ.tasks) ∧ (∀ r ∈ σ.requests, ¬ Covers r b) ∧
      ∀ io err m junk σ', σ.active = some (.discard io) →
        σ.step (.done err m junk) = some σ' → ∃ r, σ.created σ' = [r]) ∧
    ∀ ls' σ', σ.run ls' = some σ' →
      (along created σ ls').length + σ'.sup.waitDiscard.card ≤
        σ.sup.waitDiscard.card + (along retirements σ ls').length := by
  have hσ := ((discarding_opened total compact uuid disk).life hrun 0).1
  have hcov : ∀ b, ∀ r ∈ σ.requests, Covers r b ↔ b ∈ σ.sup.discard := by
    intro b r hr
    obtain ⟨n, k, -, hd, rfl⟩ := hσ.aimed r hr
    rw [hd, covers_run]
  refine ⟨fun r hr => ?_, fun b hb => ?_, fun b => ?_, fun b hb => ⟨?_, ?_, ?_⟩, ?_⟩
  · obtain ⟨n, k, hk, hd, rfl⟩ := hσ.aimed r hr
    refine ⟨n, k, hk, hd, fun a => ?_⟩
    rw [hd]
    exact mem_run_iff n k a
  · obtain ⟨hret, hfree, hbound⟩ := hσ.sound.extents.apart.2 hb
    refine ⟨hfree, hbound, fun hj => hret (Finset.mem_union_right _ hj), ?_⟩
    cases hσ.pipe with
    | idle h₁ h₂ h₃ h₄ => rw [h₄] at hb; cases hb
    | waiting h₁ h₂ h₃ => rw [h₃] at hb; cases hb
    | @running r h₁ h₂ =>
        have hr : r ∈ σ.requests := mem_requests (by rw [h₁]; exact List.mem_singleton_self _)
        exact ⟨r, hr, (hcov b r hr).2 hb⟩
  · exact ((discarding_opened total compact uuid disk).life hrun b).2
  · cases hσ.pipe with
    | idle h₁ h₂ h₃ => rw [h₃] at hb; cases hb
    | waiting h₁ | running h₁ =>
        exact ⟨_, exists_task_of_discards (by rw [h₁]; exact List.mem_singleton_self _)⟩
  · intro r hr hc
    exact (hσ.sound.extents.apart.1 hb).1 ((hcov b r hr).1 hc)
  · intro io err m junk σ' ht hs
    obtain ⟨X, ha⟩ := advances_discard hσ.pipe ht err m junk
    rw [← runTask_of_step ht hs] at ha
    rcases ha.created with ⟨-, hempty, -⟩ | ⟨n, k, -, -, hc⟩
    · rw [hempty] at hb
      cases hb
    · exact ⟨_, hc⟩
  · intro ls' σ' hr
    exact hσ.pays_run hr

/-- The DISCARD of extent 1 is running while three other extents wait, and a file still has
extent 11; the next DISCARD is for the three at once, and then all are free. -/
theorem discards_retired_retiring :
    let σ₀ := Sys.opened 16 true true smallUuid smallDisk
    let ls := mountLabels ++ (retireLabels ++ work 12 ++ [.get])
    let stage := fun b => (along (events b) σ₀ ls).foldlM PipeStage.next .outside
    ∃ σ σ' σ'', σ₀.run ls = some σ ∧ σ.sup.discard = {1} ∧ σ.sup.waitDiscard = {13, 14, 15} ∧
      (∃ r ∈ σ.requests, Covers r 1) ∧ (∀ r ∈ σ.requests, ¬ Covers r 14) ∧
      stage 1 = some .discarding ∧ stage 14 = some .waiting ∧ stage 11 = some .outside ∧
      σ.step (.done false true fun _ => 0) = some σ' ∧ (∃ r, σ.created σ' = [r]) ∧
      (∃ r ∈ σ'.requests, Covers r 13) ∧ σ'.run (work 1) = some σ'' ∧
      {1, 13, 14, 15} ⊆ σ''.sup.free ∧ σ''.sup.waitDiscard = ∅ ∧
      (along created σ (.done false true (fun _ => 0) :: work 1)).length ≤
        3 + (along retirements σ (.done false true (fun _ => 0) :: work 1)).length := by
  intro σ₀ ls stage
  let next : Label := .done false true fun _ => 0
  obtain ⟨σ, h, hd, hw, ha⟩ := exists_small (retireLabels ++ work 12 ++ [.get])
    (P := fun τ => τ.sup.discard = {1} ∧ τ.sup.waitDiscard = {13, 14, 15} ∧
      (τ.active.bind Task.discard?).isSome = true) (by decide +kernel)
  obtain ⟨σ', h', hd'⟩ := exists_small (retireLabels ++ work 12 ++ [.get] ++ [next])
    (P := fun τ => τ.sup.discard = {13, 14, 15}) (by decide +kernel)
  obtain ⟨σ'', h'', hfree, hw''⟩ := exists_small
    (retireLabels ++ work 12 ++ [.get] ++ (next :: work 1))
    (P := fun τ => {1, 13, 14, 15} ⊆ τ.sup.free ∧ τ.sup.waitDiscard = ∅) (by decide +kernel)
  have hrun : σ₀.run ls = some σ := run_small h
  have hrun' : σ₀.run (ls ++ [next]) = some σ' := by
    rw [List.append_assoc]
    exact run_small h'
  have hs : σ.step next = some σ' := run_concat hrun hrun'
  have hr : σ.run (next :: work 1) = some σ'' := run_rest h h''
  have hr' : σ'.run (work 1) = some σ'' := by
    rw [run, hs] at hr
    exact hr
  have hactive : ∃ io, σ.active = some (.discard io) := by
    obtain ⟨io, hio⟩ := Option.isSome_iff_exists.1 ha
    obtain ⟨t, ht, hd⟩ := Option.bind_eq_some_iff.1 hio
    cases t with
    | discard => exact ⟨_, ht⟩
    | _ => cases hd
  obtain ⟨io, hactive⟩ := hactive
  obtain ⟨-, hcov, hlife, hwait, hpays⟩ := discards_retired hrun
  obtain ⟨-, hcov', -⟩ := discards_retired hrun'
  obtain ⟨-, -, -, r₁, hr₁, hc₁⟩ := hcov 1 (by rw [hd]; decide)
  obtain ⟨-, -, -, r₂, hr₂, hc₂⟩ := hcov' 13 (by rw [hd']; decide)
  obtain ⟨-, hapart, hnext⟩ := hwait 14 (by rw [hw]; decide)
  have hle := hpays _ σ'' hr
  rw [hw'', hw] at hle
  refine ⟨σ, σ', σ'', hrun, hd, hw, ⟨r₁, hr₁, hc₁⟩, hapart, ?_, ?_, ?_, hs,
    hnext io _ _ _ σ' hactive hs, ⟨r₂, hr₂, hc₂⟩, hr', hfree, hw'', hle⟩
  all_goals
    refine (hlife _).trans ?_
    rw [pipeStage, hd, hw]
    rfl

end Sys

end Cyanfs
