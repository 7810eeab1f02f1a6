/-
# The extent partition of a running system

`core/flusher.c` and `core/compact.c` move whole sets of extents: a flusher takes
`unused_extents` along, hands them to `flush_extents` or gives them back, a flush
retires `flush_extents`, the discard pipeline passes extents through
`wait_discard_extents` and `discard_extents`, and a finished compaction retires
extents of the journal.  Each of these is one application of `Partitions.move`.
-/

import Cyanfs.Extents.Owned
import Cyanfs.Run.First

namespace Cyanfs

open Lib Std

namespace Super

variable {s s' : Super} {held held' : ℕ → Finset ℕ} {X : Finset ℕ}

/-- The fields that the partition looks at apart from the sets. -/
structure SameTable (s s' : Super) : Prop where
  filesById : s'.filesById = s.filesById
  totalExtents : s'.totalExtents = s.totalExtents
  dataExtents : s'.dataExtents = s.dataExtents
  bug : s'.bug = s.bug

theorem SameTable.extentAt (h : s.SameTable s') (id i : ℕ) : s'.extentAt id i = s.extentAt id i := by
  simp [Super.extentAt, h.filesById]

/-- A partition of the same tables with its two counters is `ExtentsOk`. -/
theorem ExtentsOk.sets (h : s.ExtentsOk held) (ht : s.SameTable s')
    (hp : Partitions (s'.owned held') {b | b < s.totalExtents})
    (hfree : s'.freeExtents = s'.free.card) (hjournal : s'.journalExtents = s'.journal.card) :
    s'.ExtentsOk held' := by
  refine ⟨?_, ht.totalExtents ▸ hp, hfree, hjournal, ?_, ?_, ht.bug ▸ h.mapOnce⟩
  · intro id f hf
    exact h.keyed id f (ht.filesById ▸ hf)
  · have : s'.bound = s.bound := by
      ext b
      simp only [bound, ht.extentAt]
    rw [this, ht.dataExtents, h.dataCount]
  · intro id f hf
    exact h.fileCount id f (ht.filesById ▸ hf)

/-- Nothing that the partition looks at has changed. -/
theorem ExtentsOk.frame (h : s.ExtentsOk held) (ht : s.SameTable s')
    (ho : ∀ o, s'.owned held' o = s.owned held o) (hfree : s'.freeExtents = s.freeExtents)
    (hjournal : s'.journalExtents = s.journalExtents) : s'.ExtentsOk held' := by
  refine h.sets ht (h.parts.congr ho) ?_ ?_
  · have : s'.free = s.free := by simpa [owned] using ho .free
    rw [hfree, this, h.freeCount]
  · have : s'.journal = s.journal := by simpa [owned] using ho .journal
    rw [hjournal, this, h.journalCount]

theorem runLen_subset (X : Finset ℕ) (n fuel : ℕ) : Finset.Ico n (n + runLen X n fuel) ⊆ X := by
  induction fuel generalizing n with
  | zero => simp [runLen]
  | succ fuel ih =>
      unfold runLen
      split_ifs with hn
      · intro a ha
        rw [Finset.mem_Ico] at ha
        by_cases h : a = n
        · exact h ▸ hn
        · exact ih (n + 1) (Finset.mem_Ico.2 ⟨by omega, by omega⟩)
      · simp

end Super

namespace Sys

/-- The extents that the flushers hold. -/
def held (σ : Sys) (fl : ℕ) : Finset ℕ := ((σ.flushers[fl]?).map (·.unused)).getD ∅

/-- The extent partition of the whole system; the next flusher gets an unused
number. -/
structure ExtentsOk (σ : Sys) : Prop where
  sup : σ.sup.ExtentsOk σ.held
  fresh : ∀ fl, σ.nextFlusher ≤ fl → σ.flushers[fl]? = none

variable {σ σ' : Sys}

theorem held_of_flusher {fl : ℕ} {t : Flusher} (h : σ.flushers[fl]? = some t) :
    σ.held fl = t.unused := by
  simp [held, h]

/-- A step that changes neither a set nor a flusher. -/
theorem ExtentsOk.frame (h : σ.ExtentsOk) (ht : σ.sup.SameTable σ'.sup)
    (ho : ∀ o, σ'.sup.owned σ'.held o = σ.sup.owned σ.held o)
    (hfree : σ'.sup.freeExtents = σ.sup.freeExtents)
    (hjournal : σ'.sup.journalExtents = σ.sup.journalExtents)
    (hfresh : ∀ fl, σ'.nextFlusher ≤ fl → σ'.flushers[fl]? = none) : σ'.ExtentsOk :=
  ⟨h.sup.frame ht ho hfree hjournal, hfresh⟩

/-- Only tasks, calls, the disk, the history or flags changed. -/
theorem ExtentsOk.of_eq (h : σ.ExtentsOk) (hs : σ'.sup = σ.sup) (hf : σ'.flushers = σ.flushers)
    (hn : σ'.nextFlusher = σ.nextFlusher) : σ'.ExtentsOk := by
  have hheld : σ'.held = σ.held := by
    funext fl
    simp [held, hf]
  exact ⟨by rw [hs, hheld]; exact h.sup, by rw [hf, hn]; exact h.fresh⟩

/-- A flag of the super changed. -/
theorem ExtentsOk.of_sup (h : σ.ExtentsOk) {s : Super} (ht : σ.sup.SameTable s)
    (ho : ∀ held o, s.owned held o = σ.sup.owned held o)
    (hfree : s.freeExtents = σ.sup.freeExtents)
    (hjournal : s.journalExtents = σ.sup.journalExtents) : ExtentsOk { σ with sup := s } :=
  h.frame ht (ho σ.held) hfree hjournal h.fresh

theorem extentsOk_markError (h : σ.ExtentsOk) : ExtentsOk { σ with sup := σ.sup.markError } :=
  h.of_sup ⟨rfl, rfl, rfl, rfl⟩ (fun _ o => by cases o <;> rfl) rfl rfl

/-! ### The discard pipeline -/

/-- What `__cyanfs_super_discard_extent` does to the sets. -/
theorem discardExtents_shape (σ : Sys) (X : Finset ℕ) : ∃ wait free freeExtents working queue,
    σ.discardExtents X = { σ with
      sup := { σ.sup with
        waitDiscard := wait
        free := free
        freeExtents := freeExtents
        discardWorking := working }
      queue := queue } ∧
    (if σ.sup.discardEnabled then
        wait = σ.sup.waitDiscard ∪ X ∧ free = σ.sup.free ∧ freeExtents = σ.sup.freeExtents
      else wait = σ.sup.waitDiscard ∧ free = σ.sup.free ∪ X ∧
        freeExtents = σ.sup.freeExtents + X.card) := by
  unfold discardExtents
  simp only
  split_ifs with hX hd hw
  · exact ⟨_, _, _, _, _, rfl, by simp [hX]⟩
  · exact ⟨_, _, _, _, _, rfl, by simp [hX]⟩
  · exact ⟨_, _, _, _, _, rfl, by simp⟩
  · exact ⟨_, _, _, _, _, rfl, by simp⟩
  · exact ⟨_, _, _, _, _, rfl, by simp⟩

/-- Extents that a step has taken out of the set `src` are handed to
`__cyanfs_super_discard_extent`. -/
theorem extentsOk_discardExtents {X : Finset ℕ} {s : Super} (src : Owner) (h : σ.ExtentsOk)
    (hX : (X : Set ℕ) ⊆ σ.sup.owned σ.held src) (hsrc : src ≠ .free) (hsrc' : src ≠ .waitDiscard)
    (ht : σ.sup.SameTable s) (hs : s.owned σ.held src = σ.sup.owned σ.held src \ X)
    (ho : ∀ o, o ≠ src → s.owned σ.held o = σ.sup.owned σ.held o)
    (hfe : s.freeExtents = σ.sup.freeExtents) (hj : s.journalExtents = s.journal.card) :
    ExtentsOk ({ σ with sup := s }.discardExtents X) := by
  have hfree : s.free = σ.sup.free := by simpa [Super.owned] using ho .free (Ne.symm hsrc)
  have hwait : s.waitDiscard = σ.sup.waitDiscard := by
    simpa [Super.owned] using ho .waitDiscard (Ne.symm hsrc')
  obtain ⟨wait, free, freeExtents, working, queue, he, hsets⟩ :=
    discardExtents_shape { σ with sup := s } X
  rw [he]
  refine ⟨?_, h.fresh⟩
  have hsame : σ.sup.SameTable { s with
      waitDiscard := wait, free := free, freeExtents := freeExtents, discardWorking := working } :=
    ⟨ht.filesById, ht.totalExtents, ht.dataExtents, ht.bug⟩
  simp only at hsets
  split_ifs at hsets with hd
  · obtain ⟨rfl, rfl, rfl⟩ := hsets
    refine h.sup.sets hsame (h.sup.parts.move src .waitDiscard X hX hsrc' ?_ ?_ ?_) ?_ hj
    · rw [← hs]
      cases src <;> first | rfl | contradiction
    · simp [Super.owned, hwait]
    · intro o h₁ h₂
      rw [← ho o h₁]
      cases o <;> first | rfl | contradiction
    · show s.freeExtents = s.free.card
      rw [hfe, hfree, h.sup.freeCount]
  · obtain ⟨rfl, rfl, rfl⟩ := hsets
    refine h.sup.sets hsame (h.sup.parts.move src .free X hX hsrc ?_ ?_ ?_) ?_ hj
    · rw [← hs]
      cases src <;> first | rfl | contradiction
    · simp [Super.owned, hfree]
    · intro o h₁ h₂
      rw [← ho o h₁]
      cases o <;> first | rfl | contradiction
    · show s.freeExtents + X.card = (s.free ∪ X).card
      rw [Finset.card_union_of_disjoint, hfe, hfree, h.sup.freeCount]
      rw [hfree, ← Finset.disjoint_coe]
      exact (h.sup.parts.disjoint .free src (Ne.symm hsrc)).mono_right hX

theorem extentsOk_discardBegin (h : σ.ExtentsOk) : σ.discardBegin.ExtentsOk := by
  unfold discardBegin
  simp only
  split
  · exact h.of_sup ⟨rfl, rfl, rfl, rfl⟩ (fun _ o => by cases o <;> rfl) rfl rfl
  · rename_i n hn
    have hX := Super.runLen_subset σ.sup.waitDiscard n σ.sup.waitDiscard.card
    refine ⟨h.sup.sets ⟨rfl, rfl, rfl, rfl⟩ ?_ h.sup.freeCount h.sup.journalCount, h.fresh⟩
    refine h.sup.parts.move .waitDiscard .discard
      (Finset.Ico n (n + Super.runLen σ.sup.waitDiscard n σ.sup.waitDiscard.card) : Set ℕ)
      (Finset.coe_subset.2 hX) (by simp) (by simp [Super.owned, addTail]) (by simp [Super.owned, addTail]) ?_
    intro o h₁ h₂
    cases o <;> first | rfl | contradiction

theorem extentsOk_discardDone (h : σ.ExtentsOk) : σ.discardDone.ExtentsOk := by
  refine extentsOk_discardBegin ⟨h.sup.sets ⟨rfl, rfl, rfl, rfl⟩ ?_ ?_ h.sup.journalCount, h.fresh⟩
  · refine h.sup.parts.move .discard .free σ.sup.discard
      le_rfl (by simp) (by simp [Super.owned]) (by simp [Super.owned]) ?_
    intro o h₁ h₂
    cases o <;> first | rfl | contradiction
  · show σ.sup.freeExtents + σ.sup.discard.card = (σ.sup.free ∪ σ.sup.discard).card
    rw [Finset.card_union_of_disjoint, h.sup.freeCount]
    rw [← Finset.disjoint_coe]
    exact h.sup.parts.disjoint .free .discard (by simp)

/-! ### Flushers -/

/-- The flusher `fl` got a new state. -/
theorem held_insert (σ : Sys) (fl : ℕ) (t : Flusher) (k : ℕ) :
    (((σ.flushers.insert fl t)[k]?).map (·.unused)).getD ∅ = if k = fl then t.unused else σ.held k := by
  unfold held
  grind

theorem held_erase (σ : Sys) (fl k : ℕ) :
    (((σ.flushers.erase fl)[k]?).map (·.unused)).getD ∅ = if k = fl then ∅ else σ.held k := by
  unfold held
  grind

theorem fresh_insert (h : σ.ExtentsOk) {fl : ℕ} {t : Flusher} (hfl : σ.flushers[fl]? = some t)
    (t' : Flusher) : ∀ k, σ.nextFlusher ≤ k → (σ.flushers.insert fl t')[k]? = none := by
  intro k hk
  have hne : k ≠ fl := by
    rintro rfl
    simp [h.fresh k hk] at hfl
  have := h.fresh k hk
  grind

/-- A flusher changed, but not the extents it holds. -/
theorem extentsOk_insert {fl : ℕ} {t : Flusher} (t' : Flusher) (h : σ.ExtentsOk)
    (hfl : σ.flushers[fl]? = some t)
    (hu : t'.unused = t.unused) (hs : σ'.sup = σ.sup) (hn : σ'.nextFlusher = σ.nextFlusher)
    (hf : σ'.flushers = σ.flushers.insert fl t') : σ'.ExtentsOk := by
  have hheld : σ'.held = σ.held := by
    funext k
    rw [held, hf, held_insert]
    split_ifs with hk
    · rw [hk, held_of_flusher hfl, hu]
    · rfl
  refine ⟨by rw [hs, hheld]; exact h.sup, ?_⟩
  rw [hf, hn]
  exact fresh_insert h hfl t'

theorem extentsOk_flusherFree {fl : ℕ} {t : Flusher} (h : σ.ExtentsOk)
    (hfl : σ.flushers[fl]? = some t) : (σ.flusherFree fl t).ExtentsOk := by
  have hfresh : ∀ k, σ.nextFlusher ≤ k → (σ.flushers.erase fl)[k]? = none := by
    intro k hk
    have := h.fresh k hk
    grind
  unfold flusherFree
  simp only
  split_ifs with hu
  · refine h.frame ⟨rfl, rfl, rfl, rfl⟩ (fun o => ?_) rfl rfl hfresh
    cases o with
    | flusher k =>
        simp only [Super.owned, held, Finset.coe_inj]
        rw [held_erase]
        split_ifs with hk
        · rw [hk, hfl]
          simp [hu]
        · rfl
    | _ => rfl
  · refine ⟨h.sup.sets ⟨rfl, rfl, rfl, rfl⟩ ?_ h.sup.freeCount h.sup.journalCount, hfresh⟩
    refine h.sup.parts.move (.flusher fl) .unused t.unused ?_
      (by simp) ?_ (by simp [Super.owned]) ?_
    · simp [Super.owned, held_of_flusher hfl]
    · simp only [Super.owned, held, held_erase]
      simp [hfl]
    · intro o h₁ h₂
      cases o with
      | flusher k =>
          simp only [Super.owned, held, Finset.coe_inj]
          rw [held_erase, if_neg (by rintro rfl; exact h₁ rfl)]
          rfl
      | unused => contradiction
      | _ => rfl

/-- The extents of a flusher become `flush_extents`. -/
theorem extentsOk_handOver {fl : ℕ} {t : Flusher} (t' : Flusher) (h : σ.ExtentsOk)
    (hfl : σ.flushers[fl]? = some t) {s : Super} (hs : (σ.sup.handOver t.unused).1.SameTable s)
    (ho : ∀ held o, s.owned held o = (σ.sup.handOver t.unused).1.owned held o)
    (hfe : s.freeExtents = (σ.sup.handOver t.unused).1.freeExtents)
    (hje : s.journalExtents = (σ.sup.handOver t.unused).1.journalExtents)
    (hu : t'.unused = (σ.sup.handOver t.unused).2) (q : List Task) :
    ExtentsOk { σ with sup := s, flushers := σ.flushers.insert fl t', queue := q } := by
  refine ⟨?_, fresh_insert h hfl t'⟩
  have hheld : ∀ k, held { σ with sup := s, flushers := σ.flushers.insert fl t', queue := q } k =
      if k = fl then t'.unused else σ.held k := held_insert σ fl t'
  have key : (σ.sup.handOver t.unused).1.ExtentsOk
      (held { σ with sup := s, flushers := σ.flushers.insert fl t', queue := q }) := by
    unfold Super.handOver at hu ⊢
    split_ifs at hu ⊢ with hc
    · refine h.sup.sets ⟨rfl, rfl, rfl, rfl⟩ ?_ h.sup.freeCount h.sup.journalCount
      refine h.sup.parts.move (.flusher fl) .flush t.unused ?_
        (by simp) ?_ (by simp [Super.owned, hc.1]) ?_
      · simp [Super.owned, held_of_flusher hfl]
      · simp only [Super.owned, hheld, if_true, hu]
        simp [held_of_flusher hfl]
      · intro o h₁ h₂
        cases o with
        | flusher k =>
            simp only [Super.owned, hheld]
            rw [if_neg (by rintro rfl; exact h₁ rfl)]
        | flush => contradiction
        | _ => rfl
    · refine h.sup.frame ⟨rfl, rfl, rfl, rfl⟩ (fun o => ?_) rfl rfl
      cases o with
      | flusher k =>
          simp only [Super.owned, hheld]
          split_ifs with hk
          · rw [hk, hu, held_of_flusher hfl]
          · rfl
      | _ => rfl
  exact key.frame hs (ho _) hfe hje

theorem extentsOk_flusherBeforeFlush {fl : ℕ} {t : Flusher} (h : σ.ExtentsOk)
    (hfl : σ.flushers[fl]? = some t) : (σ.flusherBeforeFlush fl t).ExtentsOk := by
  unfold flusherBeforeFlush
  split_ifs
  · exact h
  · have hs : (σ.sup.handOver t.unused).1.SameTable { (σ.sup.handOver t.unused).1 with
        cursor := { (σ.sup.handOver t.unused).1.cursor with
          extentIdFlush := (σ.sup.handOver t.unused).1.cursor.extentId } } := ⟨rfl, rfl, rfl, rfl⟩
    exact extentsOk_handOver { t with unused := (σ.sup.handOver t.unused).2 } h hfl hs
      (fun _ o => by cases o <;> rfl) rfl rfl rfl _

theorem extentsOk_flusherBeforeWriteFlush {fl : ℕ} {t : Flusher} (h : σ.ExtentsOk)
    (hfl : σ.flushers[fl]? = some t) : (σ.flusherBeforeWriteFlush fl t).ExtentsOk := by
  unfold flusherBeforeWriteFlush
  split_ifs
  · exact h.of_eq rfl rfl rfl
  · exact extentsOk_handOver { t with unused := (σ.sup.handOver t.unused).2 } h hfl
      ⟨rfl, rfl, rfl, rfl⟩ (fun _ o => rfl) rfl rfl rfl _

theorem extentsOk_flusherBeforeWriteFlushDone (h : σ.ExtentsOk) (fl : ℕ) (err : Bool) :
    (σ.flusherBeforeWriteFlushDone fl err).ExtentsOk := by
  unfold flusherBeforeWriteFlushDone
  simp only
  split_ifs
  · exact (extentsOk_markError h).of_eq rfl rfl rfl
  · exact extentsOk_markError h
  · exact h.of_eq rfl rfl rfl
  · exact h

theorem extentsOk_flusherAfterFlush (h : σ.ExtentsOk) (err : Bool) :
    (σ.flusherAfterFlush err).ExtentsOk := by
  unfold flusherAfterFlush
  simp only
  split_ifs
  · exact extentsOk_markError h
  · exact h
  · exact h.of_sup ⟨rfl, rfl, rfl, rfl⟩ (fun _ o => by cases o <;> rfl) rfl rfl
  · exact h.of_sup ⟨rfl, rfl, rfl, rfl⟩ (fun _ o => by cases o <;> rfl) rfl rfl
  · have hret : ExtentsOk ({ σ with sup := { σ.sup with flush := ∅ } }.discardExtents σ.sup.flush) := by
      refine extentsOk_discardExtents .flush h le_rfl (by simp) (by simp)
        ⟨rfl, rfl, rfl, rfl⟩ (by simp [Super.owned]) (fun o ho => ?_) rfl h.sup.journalCount
      cases o <;> first | rfl | contradiction
    exact hret.of_sup ⟨rfl, rfl, rfl, rfl⟩ (fun _ o => by cases o <;> rfl) rfl rfl

theorem extentsOk_takeJournal {b : ℕ} (h : σ.ExtentsOk) (hb : b ∈ σ.sup.free) :
    ExtentsOk { σ with sup := σ.sup.takeJournal b } :=
  ⟨Super.takeJournal_ok h.sup hb, h.fresh⟩

/-- The super with which a record is written. -/
theorem extentsOk_writerEncode {s : Super} (h : σ.ExtentsOk)
    (hs : s = σ.sup ∨ ∃ b ∈ σ.sup.free, s = σ.sup.takeJournal b) :
    ExtentsOk { σ with sup := s } := by
  rcases hs with rfl | ⟨b, hb, rfl⟩
  · exact h
  · exact extentsOk_takeJournal h hb

theorem extentsOk_flusherEncode {fl : ℕ} {t : Flusher} (h : σ.ExtentsOk)
    (hfl : σ.flushers[fl]? = some t) (err : Bool) : (σ.flusherEncode fl t err).ExtentsOk := by
  unfold flusherEncode
  split
  · rename_i s hs
    refine extentsOk_insert (σ := { σ with sup := s.markError }) { t with head := [] }
      ?_ hfl rfl rfl rfl rfl
    rcases writerEncode_super.1 s hs with rfl | rfl
    · exact extentsOk_markError h
    · exact extentsOk_markError (σ := { σ with sup := σ.sup.markError }) (extentsOk_markError h)
  · unfold flusherWriteFinish
    simp only
    split_ifs
    · exact (h.of_sup (s := { σ.sup with flushFlag := true }) ⟨rfl, rfl, rfl, rfl⟩
        (fun _ o => by cases o <;> rfl) rfl rfl).of_eq rfl rfl rfl
    · exact h.of_eq rfl rfl rfl
    · exact h.of_sup ⟨rfl, rfl, rfl, rfl⟩ (fun _ o => by cases o <;> rfl) rfl rfl
    · exact h
  · rename_i s c req flush rest hs
    have hsup : ExtentsOk { σ with sup := { s with cursor := c } } :=
      (extentsOk_writerEncode h (writerEncode_super.2 s c req flush rest hs)).of_sup
        ⟨rfl, rfl, rfl, rfl⟩ (fun _ o => by cases o <;> rfl) rfl rfl
    simp only
    split_ifs
    · exact extentsOk_insert { t with head := rest, flushBeforeWrite := true }
        hsup hfl rfl rfl rfl rfl
    · exact extentsOk_insert { t with head := rest } hsup hfl rfl rfl rfl rfl

theorem extentsOk_queueFlusher (h : σ.ExtentsOk) (ondisk : Bool) : (σ.queueFlusher ondisk).ExtentsOk := by
  unfold queueFlusher
  simp only
  split
  · exact h
  have hnone := h.fresh σ.nextFlusher le_rfl
  have hheld := fun t => held_insert σ σ.nextFlusher t
  refine ⟨h.sup.sets ⟨rfl, rfl, rfl, rfl⟩ ?_ h.sup.freeCount h.sup.journalCount, ?_⟩
  · refine h.sup.parts.move .unused (.flusher σ.nextFlusher) σ.sup.unused le_rfl (by simp)
      (by simp [Super.owned]) ?_ ?_
    · simp [Super.owned, held, hnone]
    · intro o h₁ h₂
      cases o with
      | flusher k =>
          simp only [Super.owned, held, hheld]
          rw [if_neg (by rintro rfl; exact h₂ rfl)]
      | unused => contradiction
      | _ => rfl
  · intro k hk
    have hk' : σ.nextFlusher + 1 ≤ k := hk
    have := h.fresh k (by omega)
    have hne : k ≠ σ.nextFlusher := by omega
    grind

/-! ### Compactions -/

theorem extentsOk_compactError (h : σ.ExtentsOk) : σ.compactError.ExtentsOk :=
  (h.of_sup (s := { σ.sup with compactWorking := false, error := true }) ⟨rfl, rfl, rfl, rfl⟩
    (fun _ o => by cases o <;> rfl) rfl rfl).of_eq rfl rfl rfl

theorem extentsOk_compactLoaded (h : σ.ExtentsOk) (t : Compact) (m : Bool) (out : LoaderOut) :
    (σ.compactLoaded t m out).ExtentsOk := by
  cases out with
  | readPage l X => exact h.of_eq rfl rfl rfl
  | error X => exact extentsOk_compactError h
  | finish l X =>
      simp only [compactLoaded]
      unfold compactLoaderFinish
      split
      · split
        · exact extentsOk_compactError h
        · simp only
          split
          · exact h.of_eq rfl rfl rfl
          · split
            · exact extentsOk_compactError h
            · rename_i b hb
              exact (extentsOk_takeJournal h (Super.mem_of_findNearlyExtent hb)).of_eq rfl rfl rfl
      · exact extentsOk_compactError h

theorem extentsOk_compactEncode (h : σ.ExtentsOk) (t : Compact) (err : Bool) :
    (σ.compactEncode t err).ExtentsOk := by
  unfold compactEncode
  split
  · rename_i s hs
    refine extentsOk_compactError (σ := { σ with sup := s }) ?_
    rcases writerEncode_super.1 s hs with rfl | rfl
    · exact h
    · exact extentsOk_markError h
  · exact h.of_eq rfl rfl rfl
  · rename_i s c req flush rest hs
    exact (extentsOk_writerEncode h (writerEncode_super.2 s c req flush rest hs)).of_eq rfl rfl rfl

/-- Journal extents that a compaction has replaced are retired. -/
theorem extentsOk_retireJournal {X : Finset ℕ} (h : σ.ExtentsOk) (hX : X ⊆ σ.sup.journal) :
    ExtentsOk ({ σ with sup := { σ.sup with
      journal := σ.sup.journal \ X
      journalExtents := σ.sup.journalExtents - X.card } }.discardExtents X) := by
  refine extentsOk_discardExtents .journal h (Finset.coe_subset.2 hX) (by simp) (by simp)
    ⟨rfl, rfl, rfl, rfl⟩ (by simp [Super.owned]) (fun o ho => ?_) rfl ?_
  · cases o <;> first | rfl | contradiction
  · show σ.sup.journalExtents - X.card = (σ.sup.journal \ X).card
    rw [Finset.card_sdiff_of_subset hX, h.sup.journalCount]

theorem extentsOk_compactFinish (h : σ.ExtentsOk) (t : Compact) (err : Bool) :
    (σ.compactFinish t err).ExtentsOk := by
  unfold compactFinish
  simp only
  split
  · exact extentsOk_compactError h
  split
  · rename_i hnone
    have hX : t.priv.journal ⊆ σ.sup.journal := by
      rwa [least_eq_none, Finset.sdiff_eq_empty_iff_subset] at hnone
    have hret := extentsOk_retireJournal h hX
    exact (hret.of_sup (s := { (discardExtents _ _).sup with compactWorking := false })
      ⟨rfl, rfl, rfl, rfl⟩ (fun _ o => by cases o <;> rfl) rfl rfl).of_eq rfl rfl rfl
  · rename_i m hm
    -- the loop stops at the first extent that is missing, and has retired those before it
    refine extentsOk_compactError (extentsOk_retireJournal h fun a ha => ?_)
    obtain ⟨ha, hlt⟩ := Finset.mem_filter.1 ha
    by_contra hj
    have hmin : m ≤ a := le_of_least hm (Finset.mem_sdiff.2 ⟨ha, hj⟩)
    omega

/-! ### Every step -/

theorem extentsOk_ioFlush (h : σ.ExtentsOk) (err : Bool) : (σ.ioFlush err).ExtentsOk := by
  unfold ioFlush
  split_ifs
  · exact h
  · exact h.of_eq rfl rfl rfl

theorem extentsOk_ioRecord (h : σ.ExtentsOk) (req : WriteReq) (err : Bool) (junk : Buf) :
    (σ.ioRecord req err junk).ExtentsOk := by
  unfold ioRecord
  simp only
  split_ifs <;> exact h.of_eq rfl rfl rfl

theorem extentsOk_runTask (h : σ.ExtentsOk) {t : Task} (ht : ¬ Loud t) (err m : Bool) (junk : Buf) :
    (σ.runTask t err m junk).ExtentsOk := by
  have hw : ∀ w : DiskWrite, ∀ e : Bool, (σ.ioWrite w e junk).ExtentsOk := fun _ _ => h.of_eq rfl rfl rfl
  cases t with
  | writer fl io =>
      simp only [runTask]
      split
      · exact h
      rename_i t hfl
      split
      · rename_i req
        refine extentsOk_flusherEncode (extentsOk_ioRecord h req err junk) ?_ err
        unfold ioRecord
        simp only
        split_ifs <;> exact hfl
      · exact extentsOk_flusherEncode h hfl false
  | before fl flush =>
      simp only [runTask]
      split
      · exact h
      rename_i t hfl
      split
      · exact extentsOk_flusherBeforeWriteFlushDone (extentsOk_ioFlush h err) fl err
      · exact extentsOk_flusherBeforeWriteFlush h hfl
  | after fl flush =>
      simp only [runTask]
      split
      · exact h
      rename_i t hfl
      split
      · exact extentsOk_flusherAfterFlush (extentsOk_ioFlush h err) err
      · exact extentsOk_flusherBeforeFlush h hfl
  | free fl =>
      simp only [runTask]
      split
      · exact h
      · rename_i t hfl
        exact extentsOk_flusherFree h hfl
  | copy => exact absurd trivial ht
  | discard io =>
      cases io with
      | none => exact extentsOk_discardBegin h
      | some r => exact extentsOk_discardDone (hw _ _)
  | loadHeader => exact absurd trivial ht
  | loadPage => exact absurd trivial ht
  | compactHeader =>
      simp only [runTask]
      split
      · exact h
      · split
        · exact extentsOk_compactError h
        · exact extentsOk_compactLoaded h _ _ _
  | compactPage =>
      simp only [runTask]
      split
      · exact h
      · split
        · exact extentsOk_compactError h
        · exact extentsOk_compactLoaded h _ _ _
  | compactWriter io =>
      simp only [runTask]
      split
      · exact h
      · split
        · exact extentsOk_compactEncode (hw _ _) _ _
        · exact extentsOk_compactEncode h _ _
  | compactWriteSuper flush =>
      have hcw : ∀ {σ : Sys} (t : Compact) (e : Bool), σ.ExtentsOk → (σ.compactWriteSuper t e).ExtentsOk := by
        intro σ t e h
        unfold compactWriteSuper
        split
        · exact extentsOk_compactError h
        · exact h.of_eq rfl rfl rfl
      simp only [runTask]
      split
      · exact h
      · split
        · exact hcw _ _ (extentsOk_ioFlush h err)
        · exact hcw _ _ h
  | compactFlushSuper req =>
      simp only [runTask]
      unfold compactFlushSuper
      split
      · exact extentsOk_compactError (hw _ _)
      · exact (hw req.write err).of_eq rfl rfl rfl
  | compactFinish =>
      simp only [runTask]
      split
      · exact h
      · exact extentsOk_compactFinish (extentsOk_ioFlush h err) _ _
  | requeue file => exact h

theorem extentsOk_change (h : σ.ExtentsOk) (hc : σ.Change σ') : σ'.ExtentsOk := by
  have hframe : ∀ {s s' : Super}, s.ExtentsOk σ.held → s.SameTable s' →
      (∀ held o, s'.owned held o = s.owned held o) → s'.freeExtents = s.freeExtents →
      s'.journalExtents = s.journalExtents → s'.ExtentsOk σ.held :=
    fun h ht ho hfe hje => h.frame ht (ho σ.held) hfe hje
  cases hc with
  | @«open» f g hs hf hg hkeep hchild hopen he | @close f g hf hcl hopen hg hmode hkeep he =>
      subst he
      refine ⟨Super.setFile_ok (f := f) h.sup (by rw [hg]; exact hf) (by rw [hg]; exact fun _ => rfl) ?_,
        h.fresh⟩
      rw [hg]
      exact h.sup.fileCount f.id f hf
  | closeClosed he =>
      subst he
      exact ⟨⟨h.sup.keyed, h.sup.parts, h.sup.freeCount, h.sup.journalCount, h.sup.dataCount,
        h.sup.fileCount, by simp⟩, h.fresh⟩
  | op ho he =>
      subst he
      exact ⟨hframe (ho.extentsOk h.sup) ⟨rfl, rfl, rfl, rfl⟩ (fun _ o => by cases o <;> rfl) rfl rfl,
        h.fresh⟩
  | @copyStart f i b src cs ws io hc hid hidx hs hf hmode hi hsize hb hnone he =>
      have hpend : (σ.sup.copyPending f b i).ExtentsOk σ.held :=
        Super.markExtent_ok (Super.superToFile_ok h.sup hf hb hnone) f.id i fun _ => rfl
      subst he
      exact ⟨hframe hpend ⟨rfl, rfl, rfl, rfl⟩ (fun _ o => by cases o <;> rfl) rfl rfl, h.fresh⟩
  | @copied id i b src err m junk ht he =>
      subst he
      have hend : (σ.sup.copyEnded id i err).ExtentsOk σ.held :=
        Super.markExtent_ok h.sup _ _ fun _ => rfl
      cases err with
      | true => exact ⟨hend, h.fresh⟩
      | false =>
          exact ⟨hframe hend ⟨rfl, rfl, rfl, rfl⟩ (fun _ o => by cases o <;> rfl) rfl rfl, h.fresh⟩
  | @mount l out hl ho he =>
      have hcursor : ∀ (X : Super) (c : Cursor), X.ExtentsOk σ.held →
          Super.ExtentsOk { X with cursor := c } σ.held :=
        fun X c hX => hframe hX ⟨rfl, rfl, rfl, rfl⟩ (fun _ o => by cases o <;> rfl) rfl rfl
      have hreplay : ∀ (X X' : Super) (e : Entry), X.replay e = .ok X' → X.ExtentsOk σ.held →
          X'.ExtentsOk σ.held := fun X X' e hr hX => (Super.replay_eq_ok.1 hr).extentsOk hX
      have hout : out.super.ExtentsOk σ.held := by
        cases ho with
        | error => exact h.sup
        | header m ht => exact Loader.parserHeader_rule hcursor hreplay l m _ h.sup
        | page m ht => exact Loader.parserPage_rule hcursor hreplay l m _ h.sup
      subst he
      refine ⟨?_, ?_⟩
      · cases out <;>
          exact hframe hout ⟨rfl, rfl, rfl, rfl⟩ (fun _ o => by cases o <;> rfl) rfl rfl
      · cases out <;> exact h.fresh

/-- **Every step keeps the extent partition.** -/
theorem extentsOk_effect (h : σ.ExtentsOk) (he : σ.Effect σ') : σ'.ExtentsOk := by
  cases he with
  | change hc => exact extentsOk_change h hc
  | @threads cs ws rs he =>
      subst he
      exact (h.of_sup (s := { σ.sup with writers := ws }) ⟨rfl, rfl, rfl, rfl⟩
        (fun _ o => by cases o <;> rfl) rfl rfl).of_eq rfl rfl rfl
  | requeue he => exact he ▸ h.of_eq rfl rfl rfl
  | @flusher cs ondisk he => exact he ▸ (extentsOk_queueFlusher h ondisk).of_eq rfl rfl rfl
  | compactStart hs hw he =>
      subst he
      exact (h.of_sup (s := { σ.sup with compactWorking := true }) ⟨rfl, rfl, rfl, rfl⟩
        (fun _ o => by cases o <;> rfl) rfl rfl).of_eq rfl rfl rfl
  | compactInit hc he => exact he ▸ h.of_eq rfl rfl rfl
  | compactFail hc he =>
      subst he
      exact (h.of_sup (s := { σ.sup with compactWorking := false, error := true })
        ⟨rfl, rfl, rfl, rfl⟩ (fun _ o => by cases o <;> rfl) rfl rfl).of_eq rfl rfl rfl
  | handlerWrite hc hlen he => exact he ▸ h.of_eq rfl rfl rfl
  | get ha hq he => exact he ▸ h.of_eq rfl rfl rfl
  | task ht hl he =>
      subst he
      exact extentsOk_runTask (σ := { σ with active := none }) (h.of_eq rfl rfl rfl) hl _ _ _
  | noMount hl ht he => exact he ▸ h.of_eq rfl rfl rfl

theorem extentsOk_opened (total : ℕ) (discard compact : Bool) (uuid : Uuid) (disk : Buf) :
    (Sys.opened total discard compact uuid disk).ExtentsOk := by
  refine ⟨?_, fun fl _ => by simp [Sys.opened]⟩
  have hheld : (Sys.opened total discard compact uuid disk).held = fun _ => ∅ := by
    funext fl
    simp [held, Sys.opened]
  rw [hheld]
  exact Super.opened_ok total discard compact uuid _

/-- The invariants of this module with the one on calls, along a run. -/
theorem Reachable.extentsOk {total : ℕ} {discard compact : Bool} {uuid : Uuid} {disk : Buf}
    (h : (Sys.opened total discard compact uuid disk).Reachable σ) :
    σ.CallsOk ∧ σ.ExtentsOk ∧ σ.sup.totalExtents = total := by
  refine h.rule (P := fun σ => σ.CallsOk ∧ σ.ExtentsOk ∧ σ.sup.totalExtents = total)
    ⟨callsOk_opened _ _ _ _ _, extentsOk_opened _ _ _ _ _, rfl⟩ ?_
  rintro σ l σ' ⟨hc, hx, ht⟩ hs
  have he := step_effect hc hs
  exact ⟨callsOk_step hc hs, extentsOk_effect hx he, (totalExtents_effect he).trans ht⟩

/-- A mount that is over stays over. -/
theorem loader_effect (h : σ.Effect σ') (hl : σ.loader = none) : σ'.loader = none := by
  rcases h.change_or_quiet with hc | ⟨-, -, hl'⟩
  · cases hc with
    | «open» _ _ _ _ _ _ he | close _ _ _ _ _ _ he | closeClosed he | op _ he
    | copyStart _ _ _ _ _ _ _ _ _ _ he => rw [he]; exact hl
    | @copied id i b src err m junk ht he =>
        rw [he]
        cases err <;> exact hl
    | mount hl' => rw [hl] at hl'; cases hl'
  · rw [hl', hl]

/-- **The rule for runs from a fresh file system.** -/
theorem Reachable.fresh_rule {P : Sys → Prop} {total : ℕ} {discard compact : Bool} {u uuid : Uuid}
    {disk : Buf}
    (hf : FreshMkfs uuid disk) (h1 : 1 ≤ total)
    (h : (Sys.opened total discard compact u disk).Reachable σ)
    (hboot : ∀ σ, Booting (Sys.opened total discard compact u disk) uuid σ → P σ)
    (hmount : ∀ σ, Mounted (Sys.opened total discard compact u disk) uuid σ → P σ)
    (hfail : ∀ σ, MountFailed (Sys.opened total discard compact u disk) σ → P σ)
    (hstep : ∀ σ l σ', σ.CallsOk → σ.ExtentsOk → σ.sup.totalExtents = total → σ.loader = none →
      P σ → σ.step l = some σ' → σ.Effect σ' → P σ') : P σ := by
  have key : (σ.CallsOk ∧ σ.ExtentsOk ∧ σ.sup.totalExtents = total) ∧
      (Booting (Sys.opened total discard compact u disk) uuid σ ∨ σ.loader = none ∧ P σ) := by
    refine h.rule (P := fun σ => (σ.CallsOk ∧ σ.ExtentsOk ∧ σ.sup.totalExtents = total) ∧
      (Booting (Sys.opened total discard compact u disk) uuid σ ∨ σ.loader = none ∧ P σ)) ?_ ?_
    · exact ⟨⟨callsOk_opened _ _ _ _ _, extentsOk_opened _ _ _ _ _, rfl⟩,
        .inl (booting_opened _ _ _ _ _ _)⟩
    · rintro σ l σ' ⟨⟨hc, hx, ht⟩, hb⟩ hs
      have he := step_effect hc hs
      refine ⟨⟨callsOk_step hc hs, extentsOk_effect hx he, (totalExtents_effect he).trans ht⟩, ?_⟩
      rcases hb with hb | ⟨hl, hp⟩
      · rcases hb.step hf h1 hs with hb | hm | hm
        · exact .inl hb
        · exact .inr ⟨hm.loader, hmount σ' hm⟩
        · exact .inr ⟨hm.loader, hfail σ' hm⟩
      · exact .inr ⟨loader_effect he hl, hstep σ l σ' hc hx ht hl hp hs he⟩
  rcases key.2 with hb | ⟨-, hp⟩
  · exact hboot σ hb
  · exact hp

/-- The three counted kinds of extents are disjoint parts of the disk, so the
subtraction in `cyanfs_super_flusher_write_finish` does not underflow. -/
theorem ExtentsOk.counters_le (h : σ.ExtentsOk) :
    σ.sup.dataExtents + σ.sup.journalExtents + σ.sup.freeExtents ≤ σ.sup.totalExtents := by
  have hp := h.sup.parts
  have hbound := Super.bound_finite h.sup
  have hfj : Disjoint (σ.sup.free : Set ℕ) σ.sup.journal :=
    hp.disjoint .free .journal (by simp)
  have hd : Disjoint σ.sup.bound (σ.sup.journal ∪ σ.sup.free : Set ℕ) := by
    rw [Set.disjoint_left]
    rintro b ⟨id, i, hb⟩ (hj | hf)
    · exact absurd (hp.mem_unique (.file id i) .journal hb hj) (by simp)
    · exact absurd (hp.mem_unique (.file id i) .free hb hf) (by simp)
  have hsub : σ.sup.bound ∪ (σ.sup.journal ∪ σ.sup.free : Set ℕ) ⊆
      (Finset.range σ.sup.totalExtents : Set ℕ) := by
    intro b hb
    rw [Finset.coe_range]
    rcases hb with hb | hj | hf
    · exact Super.bound_subset h.sup hb
    · exact hp.1 .journal hj
    · exact hp.1 .free hf
  have hcard := Set.ncard_le_ncard hsub (Finset.finite_toSet _)
  rw [Set.ncard_union_eq hd hbound ((Finset.finite_toSet _).union (Finset.finite_toSet _)),
    Set.ncard_union_eq hfj.symm (Finset.finite_toSet _) (Finset.finite_toSet _), Set.ncard_coe_finset,
    Set.ncard_coe_finset, Set.ncard_coe_finset, Finset.card_range] at hcard
  rw [h.sup.dataCount, h.sup.journalCount, h.sup.freeCount]
  omega

/-- **Extent partition.**  In every reachable state every backend extent has
exactly one owner, the counters of `meta` and of the files are the sizes of the
sets they count, the subtraction in `cyanfs_super_flusher_write_finish` does not
underflow, and no extent is mapped over another. -/
theorem extent_partition {total : ℕ} {discard compact : Bool} {uuid : Uuid} {disk : Buf}
    (h : (Sys.opened total discard compact uuid disk).Reachable σ) :
    σ.sup.totalExtents = total ∧
    (∀ o, ∀ b ∈ σ.sup.owned σ.held o, b < total) ∧
    (∀ b < total, ∃! o, b ∈ σ.sup.owned σ.held o) ∧
    σ.sup.freeExtents = σ.sup.free.card ∧
    σ.sup.journalExtents = σ.sup.journal.card ∧
    σ.sup.dataExtents = σ.sup.bound.ncard ∧
    (∀ (id : ℕ) (f : File), σ.sup.filesById[id]? = some f → f.extentCount = f.extents.size) ∧
    σ.sup.dataExtents + σ.sup.journalExtents + σ.sup.freeExtents ≤ σ.sup.totalExtents ∧
    σ.sup.bug ≠ some .mapTwice := by
  obtain ⟨-, hx, ht⟩ := h.extentsOk
  have hp := hx.sup.parts
  rw [ht] at hp
  exact ⟨ht, hp.1, hp.2, hx.sup.freeCount, hx.sup.journalCount, hx.sup.dataCount, hx.sup.fileCount,
    hx.counters_le, hx.sup.mapOnce⟩

/-- Five of six extents of a file are being released: there is one for every kind of owner. -/
theorem extent_partition_retiring :
    ∃ σ, (Sys.opened 16 true true smallUuid smallDisk).Reachable σ ∧
      σ.sup.extentAt 1 0 = some ⟨11, false, false⟩ ∧ σ.sup.journal = {0} ∧ σ.sup.unused = {12} ∧
      σ.held 3 = {13} ∧ σ.sup.flush = {14} ∧ σ.sup.waitDiscard = {15} ∧ σ.sup.discard = {1} ∧
      σ.sup.free = {2, 3, 4, 5, 6, 7, 8, 9, 10} ∧
      (∀ b < 16, ∃! o, b ∈ σ.sup.owned σ.held o) ∧ σ.sup.freeExtents = 9 ∧
      σ.sup.dataExtents + σ.sup.journalExtents + σ.sup.freeExtents ≤ 16 := by
  obtain ⟨σ, hrun, hbound, hjournal, hunused, hheld, hflush, hwait, hdiscard, hfree⟩ :=
    exists_small retireLabels (P := fun τ =>
      τ.sup.extentAt 1 0 = some ⟨11, false, false⟩ ∧ τ.sup.journal = {0} ∧ τ.sup.unused = {12} ∧
      τ.held 3 = {13} ∧ τ.sup.flush = {14} ∧ τ.sup.waitDiscard = {15} ∧ τ.sup.discard = {1} ∧
      τ.sup.free = {2, 3, 4, 5, 6, 7, 8, 9, 10}) (by decide +kernel)
  obtain ⟨htotal, -, howner, hcount, -, -, -, hle, -⟩ := extent_partition (.small hrun)
  rw [hfree] at hcount
  rw [htotal] at hle
  exact ⟨σ, .small hrun, hbound, hjournal, hunused, hheld, hflush, hwait, hdiscard, hfree, howner,
    hcount, hle⟩

end Sys

end Cyanfs
