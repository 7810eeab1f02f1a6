/-
# Released extents on their way

An extent that a file gives up waits in `unused_extents`, is taken by a flusher
together with the journal, and is handed over to `flush_extents`; from there a
completed FLUSH retires it once the writers of the older epoch are gone.  `Drain`
lists what a step can do to the extents on this way; everything but the
flushers' own callbacks leaves them where they are (`Still`).
-/

import Cyanfs.Data.Mapping

namespace Cyanfs

open Lib Std

namespace Sys

variable {σ σ' σ'' : Sys} {total : ℕ}

/-! ### Callbacks that leave the released extents alone -/

/-- Nothing happens to the released extents. -/
structure Still (σ σ' : Sys) : Prop where
  unused : σ'.sup.unused = σ.sup.unused
  flush : σ'.sup.flush = σ.sup.flush
  current : σ'.sup.writerCurrent = σ.sup.writerCurrent
  writers : σ'.sup.writers = σ.sup.writers
  flag : σ'.sup.flushFlag = σ.sup.flushFlag
  head : σ'.sup.journalHead = σ.sup.journalHead
  count : σ'.sup.journalCount = σ.sup.journalCount
  flushers : σ'.flushers = σ.flushers

theorem Still.refl (σ : Sys) : σ.Still σ := ⟨rfl, rfl, rfl, rfl, rfl, rfl, rfl, rfl⟩

theorem Still.trans (h : σ.Still σ') (h' : σ'.Still σ'') : σ.Still σ'' :=
  ⟨h'.unused.trans h.unused, h'.flush.trans h.flush, h'.current.trans h.current,
    h'.writers.trans h.writers, h'.flag.trans h.flag, h'.head.trans h.head,
    h'.count.trans h.count, h'.flushers.trans h.flushers⟩

theorem still_discardExtents (σ : Sys) (X : Finset ℕ) : σ.Still (σ.discardExtents X) := by
  unfold discardExtents
  simp only
  split_ifs <;> exact ⟨rfl, rfl, rfl, rfl, rfl, rfl, rfl, rfl⟩

theorem still_discardBegin (σ : Sys) : σ.Still σ.discardBegin := by
  unfold discardBegin
  simp only
  split <;> exact ⟨rfl, rfl, rfl, rfl, rfl, rfl, rfl, rfl⟩

theorem still_discardDone (σ : Sys) : σ.Still σ.discardDone := by
  unfold discardDone
  refine .trans ?_ (still_discardBegin _)
  exact ⟨rfl, rfl, rfl, rfl, rfl, rfl, rfl, rfl⟩

theorem still_compactError (σ : Sys) : σ.Still σ.compactError := ⟨rfl, rfl, rfl, rfl, rfl, rfl, rfl, rfl⟩

theorem still_compactLoaderFinish (σ : Sys) (t : Compact) (l : Loader) (X : Super) (m : Bool) :
    σ.Still (σ.compactLoaderFinish t l X m) := by
  unfold compactLoaderFinish
  split
  · split
    · exact still_compactError σ
    · simp only
      split
      · exact ⟨rfl, rfl, rfl, rfl, rfl, rfl, rfl, rfl⟩
      · split <;> exact ⟨rfl, rfl, rfl, rfl, rfl, rfl, rfl, rfl⟩
  · exact still_compactError σ

theorem still_compactLoaded (σ : Sys) (t : Compact) (m : Bool) (out : LoaderOut) :
    σ.Still (σ.compactLoaded t m out) := by
  cases out with
  | readPage l X => exact ⟨rfl, rfl, rfl, rfl, rfl, rfl, rfl, rfl⟩
  | finish l X => exact still_compactLoaderFinish σ t l X m
  | error X => exact still_compactError σ

theorem still_of_writerEncode {s' : Super} {fs : ExtTreeMap ℕ Flusher} {σ' : Sys}
    (h : s' = σ.sup ∨ ∃ b ∈ σ.sup.free, s' = σ.sup.takeJournal b) (hs : σ'.sup = s')
    (hfs : σ.flushers = fs) (hfs' : σ'.flushers = fs) : σ.Still σ' := by
  rcases h with rfl | ⟨b, -, rfl⟩
  · exact ⟨by rw [hs], by rw [hs], by rw [hs], by rw [hs], by rw [hs], by rw [hs], by rw [hs],
      hfs'.trans hfs.symm⟩
  · exact ⟨by rw [hs]; rfl, by rw [hs]; rfl, by rw [hs]; rfl, by rw [hs]; rfl, by rw [hs]; rfl,
      by rw [hs]; rfl, by rw [hs]; rfl, hfs'.trans hfs.symm⟩

theorem still_compactEncode (σ : Sys) (t : Compact) (err : Bool) : σ.Still (σ.compactEncode t err) := by
  unfold compactEncode
  split
  · rename_i s hs
    rcases writerEncode_super.1 s hs with rfl | rfl <;> exact ⟨rfl, rfl, rfl, rfl, rfl, rfl, rfl, rfl⟩
  · exact ⟨rfl, rfl, rfl, rfl, rfl, rfl, rfl, rfl⟩
  · rename_i s c req flush rest hs
    exact still_of_writerEncode (writerEncode_super.2 s c req flush rest hs) rfl rfl rfl

theorem still_compactWriteSuper (σ : Sys) (t : Compact) (err : Bool) :
    σ.Still (σ.compactWriteSuper t err) := by
  unfold compactWriteSuper
  split <;> exact ⟨rfl, rfl, rfl, rfl, rfl, rfl, rfl, rfl⟩

theorem still_compactFlushSuper (σ : Sys) (err : Bool) : σ.Still (σ.compactFlushSuper err) := by
  unfold compactFlushSuper
  split <;> exact ⟨rfl, rfl, rfl, rfl, rfl, rfl, rfl, rfl⟩

theorem still_compactFinish (σ : Sys) (t : Compact) (err : Bool) :
    σ.Still (σ.compactFinish t err) := by
  unfold compactFinish
  simp only
  split
  · exact still_compactError σ
  · split
    · have h := still_discardExtents { σ with sup := { σ.sup with
        journal := σ.sup.journal \ t.priv.journal
        journalExtents := σ.sup.journalExtents - t.priv.journal.card } } t.priv.journal
      exact ⟨h.unused, h.flush, h.current, h.writers, h.flag, h.head, h.count, h.flushers⟩
    · refine .trans (.trans ?_ (still_discardExtents _ _)) (still_compactError _)
      exact ⟨rfl, rfl, rfl, rfl, rfl, rfl, rfl, rfl⟩

theorem still_ioWrite (σ : Sys) (w : DiskWrite) (err : Bool) (junk : Buf) :
    σ.Still (σ.ioWrite w err junk) := ⟨rfl, rfl, rfl, rfl, rfl, rfl, rfl, rfl⟩

theorem still_ioFlush (σ : Sys) (err : Bool) : σ.Still (σ.ioFlush err) := by
  unfold ioFlush
  split_ifs <;> exact ⟨rfl, rfl, rfl, rfl, rfl, rfl, rfl, rfl⟩

theorem still_ioRecord (σ : Sys) (req : WriteReq) (err : Bool) (junk : Buf) :
    σ.Still (σ.ioRecord req err junk) := by
  unfold ioRecord
  simp only
  split_ifs <;> exact ⟨rfl, rfl, rfl, rfl, rfl, rfl, rfl, rfl⟩

/-- The tasks outside the flushers leave the released extents alone. -/
theorem still_runTask (σ : Sys) {t : Task} (hl : ¬ Loud t) (ho : t.order = none) (err m : Bool)
    (junk : Buf) : σ.Still (σ.runTask t err m junk) := by
  cases t with
  | writer | before | after | free => cases ho
  | copy | loadHeader | loadPage => exact absurd trivial hl
  | discard io =>
      cases io with
      | none => exact still_discardBegin σ
      | some r => exact .trans (still_ioWrite σ _ false junk) (still_discardDone _)
  | compactHeader | compactPage =>
      simp only [runTask]
      split
      · exact .refl σ
      · split
        · exact still_compactError σ
        · exact still_compactLoaded _ _ _ _
  | compactWriter io =>
      simp only [runTask]
      split
      · exact .refl σ
      · split
        · exact .trans (still_ioWrite σ _ err junk) (still_compactEncode _ _ _)
        · exact still_compactEncode _ _ _
  | compactWriteSuper flush =>
      simp only [runTask]
      split
      · exact .refl σ
      · split
        · exact .trans (still_ioFlush σ err) (still_compactWriteSuper _ _ _)
        · exact still_compactWriteSuper _ _ _
  | compactFlushSuper req =>
      exact .trans (still_ioWrite σ _ err junk) (still_compactFlushSuper _ _)
  | compactFinish =>
      simp only [runTask]
      split
      · exact .refl σ
      · exact .trans (still_ioFlush σ err) (still_compactFinish _ _ _)
  | requeue file => exact .refl σ

/-! ### The way of a released extent -/

/-- The extent waits to be handed over: in `unused_extents` or with a flusher. -/
def Released (σ : Sys) (b : ℕ) : Prop := b ∈ σ.sup.unused ∨ ∃ fl, b ∈ σ.held fl

/-- What a step does to the released extents. -/
inductive Drain (σ σ' : Sys) : Prop
  | keep (hflush : σ'.sup.flush = σ.sup.flush)
      (hcurrent : σ'.sup.writerCurrent = σ.sup.writerCurrent)
      (hrel : ∀ b, σ.Released b → σ'.Released b)
  /-- a flusher's extents become `flush_extents`, and the epoch changes -/
  | handOver (hempty : σ.sup.flush = ∅) (hne : σ'.sup.flush ≠ ∅)
      (hcurrent : σ'.sup.writerCurrent = !σ.sup.writerCurrent)
      (hrel : ∀ b, σ.Released b → σ'.Released b ∨ b ∈ σ'.sup.flush)
  /-- `flush_extents` is retired: no writer of the older epoch is left -/
  | retire (hw : σ.sup.writers (!σ.sup.writerCurrent) = 0)
      (hcurrent : σ'.sup.writerCurrent = σ.sup.writerCurrent)
      (hrel : ∀ b, σ.Released b → σ'.Released b)

theorem Drain.of_eq (hu : σ'.sup.unused = σ.sup.unused) (hf : σ'.sup.flush = σ.sup.flush)
    (hc : σ'.sup.writerCurrent = σ.sup.writerCurrent) (hfs : σ'.flushers = σ.flushers) :
    σ.Drain σ' := by
  refine .keep hf hc fun b hb => ?_
  unfold Released held at *
  rwa [hu, hfs]

theorem Still.drain (h : σ.Still σ') : σ.Drain σ' := .of_eq h.unused h.flush h.current h.flushers

theorem Still.released (h : σ.Still σ') (b : ℕ) : σ'.Released b ↔ σ.Released b := by
  unfold Released held
  rw [h.unused, h.flushers]

/-- The I/O of a task comes before its callback. -/
theorem Still.drain_trans (h : σ.Still σ') (h' : σ'.Drain σ'') : σ.Drain σ'' := by
  cases h' with
  | keep hf hc hr =>
      exact .keep (hf.trans h.flush) (hc.trans h.current) fun b hb => hr b ((h.released b).2 hb)
  | handOver he hne hc hr =>
      exact .handOver (h.flush ▸ he) hne (by rw [hc, h.current]) fun b hb =>
        hr b ((h.released b).2 hb)
  | retire hw hc hr =>
      exact .retire (by rwa [h.writers, h.current] at hw) (hc.trans h.current) fun b hb =>
        hr b ((h.released b).2 hb)

theorem Drain.still (h : σ.Drain σ') (h' : σ'.Still σ'') : σ.Drain σ'' := by
  cases h with
  | keep hf hc hr =>
      exact .keep (h'.flush.trans hf) (h'.current.trans hc) fun b hb => (h'.released b).2 (hr b hb)
  | handOver he hne hc hr =>
      refine .handOver he (h'.flush ▸ hne) (h'.current.trans hc) fun b hb => ?_
      rw [h'.released, h'.flush]
      exact hr b hb
  | retire hw hc hr =>
      exact .retire hw (h'.current.trans hc) fun b hb => (h'.released b).2 (hr b hb)

/-- The hand-over of a flusher's extents. -/
theorem drain_handOver {fl : ℕ} {t : Flusher} (hfl : σ.flushers[fl]? = some t)
    (hu : σ'.sup.unused = (σ.sup.handOver t.unused).1.unused)
    (hf : σ'.sup.flush = (σ.sup.handOver t.unused).1.flush)
    (hc : σ'.sup.writerCurrent = (σ.sup.handOver t.unused).1.writerCurrent)
    (hfs : σ'.flushers = σ.flushers.insert fl { t with unused := (σ.sup.handOver t.unused).2 }) :
    σ.Drain σ' := by
  have hheld : ∀ k, σ'.held k = if k = fl then (σ.sup.handOver t.unused).2 else σ.held k := by
    intro k
    rw [held, hfs]
    exact held_insert σ fl _ k
  unfold Super.handOver at hu hf hc hheld
  split_ifs at hu hf hc hheld with hcond
  · refine .handOver hcond.1 (by rw [hf]; exact hcond.2) hc fun b hb => ?_
    rcases hb with hb | ⟨k, hb⟩
    · exact .inl (.inl (by rw [hu]; exact hb))
    · by_cases hk : k = fl
      · right
        rw [hk, held_of_flusher hfl] at hb
        rw [hf]
        exact hb
      · exact .inl (.inr ⟨k, by rw [hheld, if_neg hk]; exact hb⟩)
  · refine .keep hf hc fun b hb => ?_
    rcases hb with hb | ⟨k, hb⟩
    · exact .inl (by rw [hu]; exact hb)
    · refine .inr ⟨k, ?_⟩
      rw [hheld]
      split_ifs with hk
      · rw [hk, held_of_flusher hfl] at hb
        exact hb
      · exact hb

/-- The flusher goes on, with the extents it had. -/
theorem drain_insert {fl : ℕ} {t t' : Flusher} (hfl : σ.flushers[fl]? = some t)
    (hfs : σ'.flushers = σ.flushers.insert fl t') (ht : t'.unused = t.unused)
    (hu : σ'.sup.unused = σ.sup.unused) (hf : σ'.sup.flush = σ.sup.flush)
    (hc : σ'.sup.writerCurrent = σ.sup.writerCurrent) : σ.Drain σ' := by
  refine .keep hf hc fun b hb => ?_
  rcases hb with hb | ⟨k, hb⟩
  · exact .inl (by rw [hu]; exact hb)
  · refine .inr ⟨k, ?_⟩
    have : σ'.held k = if k = fl then t'.unused else σ.held k := by
      rw [held, hfs]
      exact held_insert σ fl _ k
    rw [this]
    split_ifs with hk
    · rw [hk, held_of_flusher hfl] at hb
      rw [ht]
      exact hb
    · exact hb

theorem drain_flusherEncode {fl : ℕ} {t : Flusher} (hfl : σ.flushers[fl]? = some t) (err : Bool) :
    σ.Drain (σ.flusherEncode fl t err) := by
  unfold flusherEncode
  split
  · rename_i s hs
    rcases writerEncode_super.1 s hs with rfl | rfl <;>
      exact drain_insert hfl rfl rfl rfl rfl rfl
  · unfold flusherWriteFinish
    simp only
    split_ifs <;> exact .of_eq rfl rfl rfl rfl
  · rename_i s c req flush rest hs
    obtain ⟨hu, hf, hc⟩ : s.unused = σ.sup.unused ∧ s.flush = σ.sup.flush ∧
        s.writerCurrent = σ.sup.writerCurrent := by
      rcases writerEncode_super.2 s c req flush rest hs with rfl | ⟨b, -, rfl⟩ <;>
        exact ⟨rfl, rfl, rfl⟩
    simp only
    split_ifs <;> exact drain_insert hfl rfl rfl hu hf hc

theorem drain_flusherAfterFlush (σ : Sys) (err : Bool) : σ.Drain (σ.flusherAfterFlush err) := by
  unfold flusherAfterFlush
  simp only
  split_ifs with h₁ h₂ h₃ h₄
  · exact .of_eq rfl rfl rfl rfl
  · exact .of_eq rfl rfl rfl rfl
  · exact .of_eq rfl rfl rfl rfl
  · exact .of_eq rfl rfl rfl rfl
  · have h := still_discardExtents { σ with sup := { σ.sup with flush := ∅ } } σ.sup.flush
    refine .retire (by simpa using h₄) h.current fun b hb => ?_
    unfold Released held at *
    rw [show (discardExtents _ _).flushers = σ.flushers from h.flushers,
      show (discardExtents _ _).sup.unused = σ.sup.unused from h.unused]
    exact hb

theorem drain_flusherFree {fl : ℕ} {t : Flusher} (hfl : σ.flushers[fl]? = some t) :
    σ.Drain (σ.flusherFree fl t) := by
  have herase : ∀ k, k ≠ fl → ((σ.flushers.erase fl)[k]?) = σ.flushers[k]? := by
    intro k hk
    rw [ExtTreeMap.getElem?_erase, if_neg (by simpa using Ne.symm hk)]
  unfold flusherFree
  simp only
  split_ifs with hu
  · refine .keep rfl rfl fun b hb => ?_
    rcases hb with hb | ⟨k, hb⟩
    · exact .inl hb
    · by_cases hk : k = fl
      · rw [hk, held_of_flusher hfl, hu] at hb
        simp at hb
      · exact .inr ⟨k, by rw [held] at hb ⊢; rw [herase k hk]; exact hb⟩
  · refine .keep rfl rfl fun b hb => ?_
    rcases hb with hb | ⟨k, hb⟩
    · exact .inl (Finset.mem_union_left _ hb)
    · by_cases hk : k = fl
      · rw [hk, held_of_flusher hfl] at hb
        exact .inl (Finset.mem_union_right _ hb)
      · exact .inr ⟨k, by rw [held] at hb ⊢; rw [herase k hk]; exact hb⟩

/-- **What a task does to the released extents.** -/
theorem drain_runTask (σ : Sys) {t : Task} (hl : ¬ Loud t) (err m : Bool) (junk : Buf) :
    σ.Drain (σ.runTask t err m junk) := by
  cases ho : t.order with
  | none => exact (still_runTask σ hl ho err m junk).drain
  | some n =>
      cases t with
      | writer fl io =>
          simp only [runTask]
          split
          · exact .of_eq rfl rfl rfl rfl
          rename_i t hfl
          split
          · rename_i req
            have hio := still_ioRecord σ req err junk
            exact hio.drain_trans (drain_flusherEncode (by rw [hio.flushers]; exact hfl) err)
          · exact drain_flusherEncode hfl false
      | before fl flush =>
          simp only [runTask]
          split
          · exact .of_eq rfl rfl rfl rfl
          rename_i t hfl
          split_ifs with hflush
          · refine (still_ioFlush σ err).drain_trans ?_
            unfold flusherBeforeWriteFlushDone
            simp only
            split_ifs <;> exact .of_eq rfl rfl rfl rfl
          · unfold flusherBeforeWriteFlush
            split_ifs
            · exact .of_eq rfl rfl rfl rfl
            · exact drain_handOver hfl rfl rfl rfl rfl
      | after fl flush =>
          simp only [runTask]
          split
          · exact .of_eq rfl rfl rfl rfl
          rename_i t hfl
          split_ifs with hflush
          · exact (still_ioFlush σ err).drain_trans (drain_flusherAfterFlush _ err)
          · unfold flusherBeforeFlush
            split_ifs
            · exact .of_eq rfl rfl rfl rfl
            · exact drain_handOver hfl rfl rfl rfl rfl
      | free fl =>
          simp only [runTask]
          split
          · exact .of_eq rfl rfl rfl rfl
          · rename_i t hfl
            exact drain_flusherFree hfl
      | _ => cases ho

/-- An operation takes no extent out of `unused_extents`. -/
theorem unused_op {j : JEntry} {s s' : Super} (hk : s.Keyed) (ho : s.Op j s') :
    s.unused ⊆ s'.unused := by
  have hr := ready_of_ensureStatus ho.ensureStatus
  have hinit : ∀ {name : FileName} {id : ℕ} {parent : Option File} {s₁ : Super},
      s.initFile name id parent = .ok s₁ → s₁.unused = s.unused := by
    intro name id parent s₁ h
    obtain ⟨-, -, rfl⟩ := Super.initFile_eq_ok.1 h
    cases parent <;> rfl
  cases ho with
  | create hn hst hlimit hmax hlookup hi => exact (hinit hi).symm.subset
  | fork hn hst hlimit hmax hp hmode hlookup hi => exact (hinit hi).symm.subset
  | rename hn hst hlookup hf => exact Finset.Subset.refl _
  | @truncate f size hv hst hf hmode hc => exact (Super.unused_truncateFile hk hr f size).1
  | @delete f hst hf hmode hc =>
      rw [Super.unused_deleteFile]
      exact (Super.unused_truncateFile hk hr f 0).1
  | bind hst hf hmode hi hsize hroom hb hnone =>
      rw [Super.superToFile_eq hnone]
      exact Finset.Subset.refl _
  | @unbind f i e hst hf hmode hi hsize he hp herr => exact Super.unused_unmapExtent s f.id i

theorem drain_queueFlusher (h : ∀ fl : ℕ, σ.nextFlusher ≤ fl → σ.flushers[fl]? = none)
    (ondisk : Bool) : σ.Drain (σ.queueFlusher ondisk) := by
  unfold queueFlusher
  simp only
  split_ifs
  all_goals first
    | exact .of_eq rfl rfl rfl rfl
    | refine .keep rfl rfl fun b hb => .inr ?_
      rcases hb with hb | ⟨k, hb⟩
      · refine ⟨σ.nextFlusher, ?_⟩
        rw [held, flushers_insert, if_pos rfl]
        exact hb
      · refine ⟨k, ?_⟩
        have hk : k ≠ σ.nextFlusher := by
          rintro rfl
          rw [held, h _ le_rfl] at hb
          simp at hb
        rw [held, flushers_insert, if_neg hk]
        exact hb

theorem still_loaded {l : Loader} {out : LoaderOut} (hr : σ.sup.ready = false)
    (ho : σ.MountOut l out) : σ.Still ({ σ with active := none }.loaded out) := by
  have h : out.super.ready = false ∧ out.super.unused = σ.sup.unused ∧
      out.super.flush = σ.sup.flush ∧ out.super.writerCurrent = σ.sup.writerCurrent ∧
      out.super.writers = σ.sup.writers ∧ out.super.flushFlag = σ.sup.flushFlag ∧
      out.super.journalHead = σ.sup.journalHead ∧
      out.super.journalCount = σ.sup.journalCount := by
    refine ho.rule (P := fun X => X.ready = false ∧ X.unused = σ.sup.unused ∧
      X.flush = σ.sup.flush ∧ X.writerCurrent = σ.sup.writerCurrent ∧
      X.writers = σ.sup.writers ∧ X.flushFlag = σ.sup.flushFlag ∧
      X.journalHead = σ.sup.journalHead ∧ X.journalCount = σ.sup.journalCount) (fun _ _ h => h)
      (fun X X' e hr h => ?_) ⟨hr, rfl, rfl, rfl, rfl, rfl, rfl, rfl⟩
    have hu := hr.unused h.1
    obtain ⟨_, _, _, _, _, _, _, _, _, _, _, hs⟩ := hr.shape
    refine ⟨?_, hu.trans h.2.1, ?_⟩
    · rw [hs]
      exact h.1
    · rw [hs]
      exact h.2.2
  obtain ⟨-, h₁, h₂, h₃, h₄, h₅, h₆, h₇⟩ := h
  cases out <;> exact ⟨h₁, h₂, h₃, h₄, h₅, h₆, h₇, rfl⟩

/-- **What a step does to the released extents.** -/
theorem drain_effect (h : σ.Sound total) (he : σ.Effect σ') : σ.Drain σ' := by
  cases he with
  | change hm =>
      cases hm with
      | «open» _ _ _ _ _ _ he | close _ _ _ _ _ _ he | closeClosed he =>
          subst he
          exact .of_eq rfl rfl rfl rfl
      | @op j s cs ws ho he =>
          obtain ⟨_, _, _, _, _, _, _, _, _, hs⟩ := ho.shape
          have hu := unused_op h.calls.keyed ho
          subst he
          refine .keep (by rw [hs]; rfl) (by rw [hs]; rfl) fun b hb => ?_
          exact hb.imp (fun hb => hu hb) id
      | @copyStart f i b src cs ws io _ _ _ _ hf hmode _ _ hb hnone he =>
          have hs : ∀ g, ((σ.sup.superToFile f b i).updFile f.id g).unused = σ.sup.unused ∧
              ((σ.sup.superToFile f b i).updFile f.id g).flush = σ.sup.flush ∧
              ((σ.sup.superToFile f b i).updFile f.id g).writerCurrent = σ.sup.writerCurrent := by
            intro g
            rw [Super.updFile, Super.superToFile_eq hnone]
            split <;> exact ⟨rfl, rfl, rfl⟩
          subst he
          exact .of_eq (hs _).1 (hs _).2.1 (hs _).2.2 rfl
      | @copied id i b src err m junk ht he =>
          have hs : ∀ g, (σ.sup.updFile id g).unused = σ.sup.unused ∧
              (σ.sup.updFile id g).flush = σ.sup.flush ∧
              (σ.sup.updFile id g).writerCurrent = σ.sup.writerCurrent := by
            intro g
            rw [Super.updFile]
            split <;> exact ⟨rfl, rfl, rfl⟩
          subst he
          cases err <;> exact .of_eq (hs _).1 (hs _).2.1 (hs _).2.2 rfl
      | mount hl ho he =>
          subst he
          exact (still_loaded (h.calls.loading (by simp [hl])) ho).drain
  | threads he | requeue he | compactStart _ _ he | compactInit _ he | compactFail _ he
  | handlerWrite _ _ he | get _ _ he | noMount _ _ he =>
      subst he
      exact .of_eq rfl rfl rfl rfl
  | @flusher cs ondisk he =>
      subst he
      refine (drain_queueFlusher h.extents.fresh ondisk).still ?_
      exact ⟨rfl, rfl, rfl, rfl, rfl, rfl, rfl, rfl⟩
  | @task t err m junk ht hloud he =>
      subst he
      refine Still.drain_trans ?_ (drain_runTask { σ with active := none } hloud err m junk)
      exact ⟨rfl, rfl, rfl, rfl, rfl, rfl, rfl, rfl⟩

end Sys

end Cyanfs
