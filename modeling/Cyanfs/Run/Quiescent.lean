/-
# When nothing is left to do

The discard pipeline is idle, has its NOP queued, or has one DISCARD queued
(`Pipe`); a compaction that is marked as working is about to queue its loader, or
has a task queued, or has marked the super (`Compacting`).  Together with `Chores`
this says what a super looks like whose queue has run empty: no extent is left in
the pipeline, and whatever waits for a flusher is seen by the next one
(`none_stranded`).
-/

import Cyanfs.Run.Chores

namespace Cyanfs

open Lib Std

/-- The request of the discard task. -/
def Task.discard? : Task → Option (Option (ℕ × ℕ))
  | .discard io => some io
  | _ => none

/-- The tasks of a compaction. -/
def Task.isCompact : Task → Bool
  | .compactHeader | .compactPage | .compactWriter _ | .compactWriteSuper _
  | .compactFlushSuper _ | .compactFinish => true
  | _ => false

namespace Sys

variable {σ σ' : Sys} {total : ℕ}

/-! ### The discard pipeline -/

/-- The queued discard tasks. -/
def discards (σ : Sys) : List (Option (ℕ × ℕ)) := σ.tasks.filterMap Task.discard?

/-- Where the discard pipeline is. -/
inductive Pipe (σ : Sys) : Prop
  | idle (hd : σ.discards = []) (hw : σ.sup.discardWorking = false)
      (hwait : σ.sup.waitDiscard = ∅) (hdiscard : σ.sup.discard = ∅)
  /-- the NOP that looks for extents to discard -/
  | waiting (hd : σ.discards = [none]) (hw : σ.sup.discardWorking = true)
      (hdiscard : σ.sup.discard = ∅)
  /-- a DISCARD -/
  | running {r : ℕ × ℕ} (hd : σ.discards = [some r]) (hw : σ.sup.discardWorking = true)

theorem Pipe.of_eq (h : σ.Pipe) (hw : σ'.sup.discardWorking = σ.sup.discardWorking)
    (hwait : σ'.sup.waitDiscard = σ.sup.waitDiscard) (hdis : σ'.sup.discard = σ.sup.discard)
    (hd : σ'.discards = σ.discards) : σ'.Pipe := by
  cases h with
  | idle h₁ h₂ h₃ h₄ =>
      exact .idle (hd.trans h₁) (hw.trans h₂) (hwait.trans h₃) (hdis.trans h₄)
  | waiting h₁ h₂ h₃ => exact .waiting (hd.trans h₁) (hw.trans h₂) (hdis.trans h₃)
  | running h₁ h₂ => exact .running (hd.trans h₁) (hw.trans h₂)

theorem discards_tail (ts : List Task) (ha : σ'.active = σ.active) (hq : σ'.queue = σ.queue ++ ts)
    (ht : ts.filterMap Task.discard? = []) : σ'.discards = σ.discards := by
  rw [discards, discards, tasks, tasks, ha, hq, ← List.append_assoc, List.filterMap_append, ht,
    List.append_nil]

theorem discards_head (ts : List Task) (ha : σ'.active = σ.active) (hq : σ'.queue = ts ++ σ.queue)
    (ht : ts.filterMap Task.discard? = []) : σ'.discards = σ.discards := by
  rw [discards, discards, tasks, tasks, ha, hq, List.filterMap_append, List.filterMap_append,
    List.filterMap_append, ht, List.nil_append]

theorem pipe_discardExtents (h : σ.Pipe) (X : Finset ℕ) : (σ.discardExtents X).Pipe := by
  unfold discardExtents
  simp only
  split_ifs with hX hen hw
  · exact h
  · cases h with
    | idle h₁ h₂ h₃ h₄ => rw [h₂] at hw; cases hw
    | waiting h₁ h₂ h₃ => exact .waiting h₁ rfl h₃
    | running h₁ h₂ => exact .running h₁ rfl
  · cases h with
    | idle h₁ h₂ h₃ h₄ =>
        refine .waiting ?_ rfl h₄
        rw [discards] at h₁ ⊢
        simp only [tasks, addTail] at h₁ ⊢
        rw [← List.append_assoc, List.filterMap_append, h₁]
        rfl
    | waiting h₁ h₂ h₃ | running h₁ h₂ => exact absurd h₂ hw
  · exact h.of_eq rfl rfl rfl rfl

theorem pipe_discardBegin (hd : σ.discards = []) (hw : σ.sup.discardWorking = true)
    (hdiscard : σ.sup.discard = ∅) : σ.discardBegin.Pipe := by
  unfold discardBegin
  simp only
  split
  · rename_i hl
    exact .idle hd rfl (least_eq_none.1 hl) hdiscard
  · rename_i n hl
    refine .running (r := (mapExtentOffset n 0,
      Super.runLen σ.sup.waitDiscard n σ.sup.waitDiscard.card * extentSize)) ?_ hw
    rw [discards] at hd ⊢
    simp only [tasks, addTail] at hd ⊢
    rw [← List.append_assoc, List.filterMap_append, hd]
    rfl

theorem pipe_discardDone (hd : σ.discards = []) (hw : σ.sup.discardWorking = true) :
    σ.discardDone.Pipe := by
  unfold discardDone
  exact pipe_discardBegin hd hw rfl

/-! ### The flushers and the pipeline -/

theorem discards_cancelWrite (σ : Sys) (fl : ℕ) : (σ.cancelWrite fl).discards = σ.discards := by
  simp only [discards, tasks, List.filterMap_append]
  exact congrArg _ (filterMap_cancelTask fl σ.queue Task.discard? fun _ _ => rfl)

theorem pipe_flusherAfterFlush (h : σ.Pipe) (err : Bool) : (σ.flusherAfterFlush err).Pipe := by
  unfold flusherAfterFlush
  simp only
  split_ifs
  · exact h.of_eq rfl rfl rfl rfl
  · exact h
  · exact h.of_eq rfl rfl rfl rfl
  · exact h.of_eq rfl rfl rfl rfl
  · have h' : Pipe { σ with sup := { σ.sup with flush := ∅ } } := h.of_eq rfl rfl rfl rfl
    exact (pipe_discardExtents h' σ.sup.flush).of_eq rfl rfl rfl rfl

theorem pipe_handOver {τ : Sys} {X : Finset ℕ} (h : σ.Pipe)
    (hw : τ.sup.discardWorking = (σ.sup.handOver X).1.discardWorking)
    (hwait : τ.sup.waitDiscard = (σ.sup.handOver X).1.waitDiscard)
    (hdis : τ.sup.discard = (σ.sup.handOver X).1.discard) (hd : τ.discards = σ.discards) :
    τ.Pipe := by
  have hs : (σ.sup.handOver X).1.discardWorking = σ.sup.discardWorking ∧
      (σ.sup.handOver X).1.waitDiscard = σ.sup.waitDiscard ∧
      (σ.sup.handOver X).1.discard = σ.sup.discard := by
    unfold Super.handOver
    split_ifs <;> exact ⟨rfl, rfl, rfl⟩
  exact h.of_eq (hw.trans hs.1) (hwait.trans hs.2.1) (hdis.trans hs.2.2) hd

theorem pipe_writerEncode {τ : Sys} {s : Super} (h : σ.Pipe)
    (hs : s = σ.sup ∨ ∃ b ∈ σ.sup.free, s = σ.sup.takeJournal b)
    (hw : τ.sup.discardWorking = s.discardWorking) (hwait : τ.sup.waitDiscard = s.waitDiscard)
    (hdis : τ.sup.discard = s.discard) (hd : τ.discards = σ.discards) : τ.Pipe := by
  rcases hs with rfl | ⟨b, -, rfl⟩
  · exact h.of_eq hw hwait hdis hd
  · exact h.of_eq hw hwait hdis hd

theorem pipe_flusherEncode {fl : ℕ} {t : Flusher} (h : σ.Pipe) (err : Bool) :
    (σ.flusherEncode fl t err).Pipe := by
  unfold flusherEncode
  split
  · rename_i s hs
    rcases writerEncode_super.1 s hs with rfl | rfl <;> exact h.of_eq rfl rfl rfl rfl
  · unfold flusherWriteFinish
    simp only
    split_ifs <;> exact h.of_eq rfl rfl rfl rfl
  · rename_i s c req flush rest hs
    have hs' := writerEncode_super.2 s c req flush rest hs
    simp only
    split_ifs
    · exact pipe_writerEncode h hs' rfl rfl rfl
        (discards_head [.before fl false, .writer fl (some req)] rfl rfl rfl)
    · exact pipe_writerEncode h hs' rfl rfl rfl (discards_head [.writer fl (some req)] rfl rfl rfl)

/-- The tasks of a flusher do not interfere with the pipeline. -/
theorem pipe_flusher {t₀ : Task} {n : ℕ} (h : σ.Pipe) (hn : t₀.order = some n) (err m : Bool)
    (junk : Buf) : (σ.runTask t₀ err m junk).Pipe := by
  have hio : (σ.ioFlush err).Pipe := by
    unfold ioFlush
    split_ifs
    · exact h
    · exact h.of_eq rfl rfl rfl rfl
  cases t₀ with
  | writer fl io =>
      simp only [runTask]
      split
      · exact h
      split
      · rename_i req
        have hrec : (σ.ioRecord req err junk).Pipe := by
          unfold ioRecord
          simp only
          split_ifs <;> exact h.of_eq rfl rfl rfl rfl
        exact pipe_flusherEncode hrec err
      · exact pipe_flusherEncode h false
  | before fl flush =>
      simp only [runTask]
      split
      · exact h
      split_ifs
      · unfold flusherBeforeWriteFlushDone
        simp only
        split_ifs
        · exact hio.of_eq rfl rfl rfl (discards_cancelWrite _ fl)
        · exact hio.of_eq rfl rfl rfl rfl
        · exact hio.of_eq rfl rfl rfl (discards_cancelWrite _ fl)
        · exact hio
      · unfold flusherBeforeWriteFlush
        split_ifs
        · exact h.of_eq rfl rfl rfl (discards_cancelWrite _ fl)
        · exact pipe_handOver h rfl rfl rfl (discards_head [.before fl true] rfl rfl rfl)
  | after fl flush =>
      simp only [runTask]
      split
      · exact h
      split_ifs
      · exact pipe_flusherAfterFlush hio err
      · unfold flusherBeforeFlush
        split_ifs
        · exact h
        · exact pipe_handOver h rfl rfl rfl (discards_head [.after fl true] rfl rfl rfl)
  | free fl =>
      simp only [runTask]
      split
      · exact h
      · unfold flusherFree
        simp only
        split_ifs <;> exact h.of_eq rfl rfl rfl rfl
  | _ => cases hn

/-! ### The compaction and the pipeline -/

theorem pipe_compactError (h : σ.Pipe) : σ.compactError.Pipe := h.of_eq rfl rfl rfl rfl

theorem pipe_compactLoaded (h : σ.Pipe) (t : Compact) (m : Bool) (out : LoaderOut) :
    (σ.compactLoaded t m out).Pipe := by
  cases out with
  | readPage l X => exact h.of_eq rfl rfl rfl (discards_tail [.compactPage] rfl rfl rfl)
  | error X => exact pipe_compactError h
  | finish l X =>
      simp only [compactLoaded]
      unfold compactLoaderFinish
      split
      · split
        · exact pipe_compactError h
        simp only
        split
        · exact h.of_eq rfl rfl rfl (discards_tail [.compactWriteSuper false] rfl rfl rfl)
        · split
          · exact pipe_compactError h
          · exact h.of_eq rfl rfl rfl (discards_tail [.compactWriter none] rfl rfl rfl)
      · exact pipe_compactError h

theorem pipe_compactEncode (h : σ.Pipe) (t : Compact) (err : Bool) : (σ.compactEncode t err).Pipe := by
  unfold compactEncode
  split
  · rename_i s hs
    rcases writerEncode_super.1 s hs with rfl | rfl <;> exact h.of_eq rfl rfl rfl rfl
  · exact h.of_eq rfl rfl rfl (discards_tail [.compactWriteSuper true] rfl rfl rfl)
  · rename_i s c req flush rest hs
    exact pipe_writerEncode h (writerEncode_super.2 s c req flush rest hs) rfl rfl rfl
      (discards_tail [.compactWriter (some req)] rfl rfl rfl)

theorem pipe_compactWriteSuper (h : σ.Pipe) (t : Compact) (err : Bool) :
    (σ.compactWriteSuper t err).Pipe := by
  unfold compactWriteSuper
  split
  · exact pipe_compactError h
  · exact h.of_eq rfl rfl rfl (discards_tail [.compactFlushSuper _] rfl rfl rfl)

theorem pipe_compactFinish (h : σ.Pipe) (t : Compact) (err : Bool) : (σ.compactFinish t err).Pipe := by
  unfold compactFinish
  simp only
  split
  · exact pipe_compactError h
  split
  · refine (pipe_discardExtents (σ := { σ with sup := { σ.sup with
      journal := σ.sup.journal \ t.priv.journal
      journalExtents := σ.sup.journalExtents - t.priv.journal.card } }) ?_ _).of_eq rfl rfl rfl rfl
    exact h.of_eq rfl rfl rfl rfl
  · refine pipe_compactError (pipe_discardExtents ?_ _)
    exact h.of_eq rfl rfl rfl rfl

/-- The tasks of a compaction keep the pipeline going. -/
theorem pipe_compact {t : Task} (h : σ.Pipe) (ht : t.isCompact = true) (err m : Bool) (junk : Buf) :
    (σ.runTask t err m junk).Pipe := by
  have hio : (σ.ioFlush err).Pipe := by
    unfold ioFlush
    split_ifs
    · exact h
    · exact h.of_eq rfl rfl rfl rfl
  have hwr : ∀ w, (σ.ioWrite w err junk).Pipe := fun w => h.of_eq rfl rfl rfl rfl
  cases t with
  | compactHeader | compactPage =>
      simp only [runTask]
      split
      · exact h
      split_ifs
      · exact pipe_compactError h
      · exact pipe_compactLoaded h _ _ _
  | compactWriter io =>
      simp only [runTask]
      split
      · exact h
      split
      · exact pipe_compactEncode (hwr _) _ _
      · exact pipe_compactEncode h _ _
  | compactWriteSuper flush =>
      simp only [runTask]
      split
      · exact h
      split_ifs
      · exact pipe_compactWriteSuper hio _ _
      · exact pipe_compactWriteSuper h _ _
  | compactFlushSuper req =>
      simp only [runTask, compactFlushSuper]
      split_ifs
      · exact pipe_compactError (hwr _)
      · exact (hwr _).of_eq rfl rfl rfl (discards_tail [.compactFinish] rfl rfl rfl)
  | compactFinish =>
      simp only [runTask]
      split
      · exact h
      · exact pipe_compactFinish hio _ _
  | _ => cases ht

/-! ### The pipeline along a run -/

theorem discards_pop {t : Task} (ht : σ.active = some t) (hd : t.discard? = none) :
    discards { σ with active := none } = σ.discards := by
  rw [discards, discards, tasks_of_active ht, List.filterMap_cons_none hd]
  rfl

theorem pipe_task {t : Task} (h : σ.Pipe) (ht : σ.active = some t) (hl : ¬ Loud t) (err m : Bool)
    (junk : Buf) : ({ σ with active := none }.runTask t err m junk).Pipe := by
  have hpop : t.discard? = none → Pipe { σ with active := none } :=
    fun hd => h.of_eq rfl rfl rfl (discards_pop ht hd)
  cases hn : t.order with
  | some n =>
      refine pipe_flusher (hpop ?_) hn err m junk
      cases t <;> first | rfl | cases hn
  | none =>
      cases hc : t.isCompact with
      | true =>
          refine pipe_compact (hpop ?_) hc err m junk
          cases t <;> first | rfl | cases hc
      | false =>
          cases t with
          | copy | loadHeader | loadPage => exact absurd trivial hl
          | requeue file => exact hpop rfl
          | discard io =>
              have hd : σ.discards = io :: discards { σ with active := none } := by
                rw [discards, tasks_of_active ht]
                rfl
              cases io with
              | none =>
                  cases h with
                  | idle h₁ => rw [hd] at h₁; cases h₁
                  | waiting h₁ h₂ h₃ =>
                      rw [hd] at h₁
                      exact pipe_discardBegin (List.cons.inj h₁).2 h₂ h₃
                  | running h₁ h₂ =>
                      rw [hd] at h₁
                      cases (List.cons.inj h₁).1
              | some r =>
                  cases h with
                  | idle h₁ => rw [hd] at h₁; cases h₁
                  | waiting h₁ h₂ h₃ =>
                      rw [hd] at h₁
                      cases (List.cons.inj h₁).1
                  | running h₁ h₂ =>
                      rw [hd] at h₁
                      exact pipe_discardDone (List.cons.inj h₁).2 h₂
          | writer | before | after | free => cases hn
          | _ => cases hc

theorem pipe_effect (h : σ.Pipe) (he : σ.Effect σ') : σ'.Pipe := by
  have hupd : ∀ (s : Super) (id : ℕ) (g : File → File),
      (s.updFile id g).discardWorking = s.discardWorking ∧
      (s.updFile id g).waitDiscard = s.waitDiscard ∧ (s.updFile id g).discard = s.discard := by
    intro s id g
    unfold Super.updFile
    split <;> exact ⟨rfl, rfl, rfl⟩
  cases he with
  | change hm =>
      cases hm with
      | «open» _ _ _ _ _ _ he | close _ _ _ _ _ _ he | closeClosed he =>
          subst he
          exact h.of_eq rfl rfl rfl rfl
      | @op j s cs ws ho he =>
          obtain ⟨_, _, _, _, _, _, _, _, _, hs⟩ := ho.shape
          subst he
          rw [hs]
          exact h.of_eq rfl rfl rfl rfl
      | @copyStart f i b src cs ws io _ _ _ _ hf hmode _ _ hb hnone he =>
          obtain ⟨h₁, h₂, h₃⟩ := hupd (σ.sup.superToFile f b i) f.id fun f =>
            f.markExtent i fun e => { e with pending := true }
          rw [Super.superToFile_eq hnone] at h₁ h₂ h₃
          subst he
          refine h.of_eq ?_ ?_ ?_ (discards_tail [.copy f.id i b src] rfl rfl rfl)
          · rw [Super.copyPending, Super.superToFile_eq hnone]
            exact h₁
          · rw [Super.copyPending, Super.superToFile_eq hnone]
            exact h₂
          · rw [Super.copyPending, Super.superToFile_eq hnone]
            exact h₃
      | @copied k i b src err m junk ht he =>
          obtain ⟨h₁, h₂, h₃⟩ := hupd σ.sup k fun f => f.markExtent i fun e =>
            { e with pending := false, error := e.error || err }
          subst he
          cases err <;> exact h.of_eq h₁ h₂ h₃ (discards_pop ht rfl)
      | @mount l out hl ho he =>
          have hs : out.super.discardWorking = σ.sup.discardWorking ∧
              out.super.waitDiscard = σ.sup.waitDiscard ∧ out.super.discard = σ.sup.discard := by
            refine ho.rule (P := fun X => X.discardWorking = σ.sup.discardWorking ∧
              X.waitDiscard = σ.sup.waitDiscard ∧ X.discard = σ.sup.discard) (fun _ _ h => h)
              (fun X X' e hr h => ?_) ⟨rfl, rfl, rfl⟩
            obtain ⟨_, _, _, _, _, _, _, _, _, _, _, hs⟩ := hr.shape
            rw [hs]
            exact h
          have hpop : discards { σ with active := none } = σ.discards := by
            rcases ho.active with ht | ht <;> exact discards_pop ht rfl
          subst he
          cases out with
          | readPage l X =>
              refine h.of_eq hs.1 hs.2.1 hs.2.2 (.trans ?_ hpop)
              exact discards_tail (σ := { σ with active := none }) [.loadPage] rfl rfl rfl
          | finish l X => exact h.of_eq hs.1 hs.2.1 hs.2.2 hpop
          | error X => exact h.of_eq hs.1 hs.2.1 hs.2.2 hpop
  | threads he | compactStart _ _ he | handlerWrite _ _ he | compactFail _ he =>
      subst he
      exact h.of_eq rfl rfl rfl rfl
  | @requeue file he =>
      subst he
      exact h.of_eq rfl rfl rfl (discards_tail [.requeue file] rfl rfl rfl)
  | compactInit _ he =>
      subst he
      exact h.of_eq rfl rfl rfl (discards_tail [.compactHeader] rfl rfl rfl)
  | get ha hq he =>
      subst he
      refine h.of_eq rfl rfl rfl ?_
      simp [discards, tasks, ha, hq]
  | noMount _ ht he =>
      subst he
      refine h.of_eq rfl rfl rfl ?_
      rcases ht with ht | ht <;> exact discards_pop ht rfl
  | @flusher cs ondisk he =>
      subst he
      unfold queueFlusher
      simp only
      split_ifs
      all_goals first
        | exact h.of_eq rfl rfl rfl rfl
        | exact h.of_eq rfl rfl rfl (discards_tail _ rfl rfl rfl)
  | @task t err m junk ht hloud he =>
      subst he
      exact pipe_task h ht hloud err m junk

/-! ### Compactions -/

/-- A compaction that is marked as working goes on, or it has marked the super. -/
def Compacting (σ : Sys) : Prop := σ.sup.compactWorking = true → σ.sup.error = true ∨
  (∃ endId, .compactInit endId ∈ σ.calls) ∨
  (σ.compact ≠ none ∧ ∃ t ∈ σ.tasks, t.isCompact = true)

/-- The step leaves compactions alone. -/
structure Keeps (σ σ' : Sys) : Prop where
  working : σ'.sup.compactWorking = σ.sup.compactWorking
  compact : σ'.compact = σ.compact
  error : σ.sup.error = true → σ'.sup.error = true
  tasks : ∀ t ∈ σ.tasks, t.isCompact = true → t ∈ σ'.tasks

theorem Keeps.refl (σ : Sys) : σ.Keeps σ := ⟨rfl, rfl, id, fun _ h _ => h⟩

theorem Keeps.trans {σ'' : Sys} (h : σ.Keeps σ') (h' : σ'.Keeps σ'') : σ.Keeps σ'' :=
  ⟨h'.working.trans h.working, h'.compact.trans h.compact, fun he => h'.error (h.error he),
    fun t ht hc => h'.tasks t (h.tasks t ht hc) hc⟩

/-- The compaction goes on: its next task is queued, or it is over. -/
def GoesOn (σ : Sys) : Prop := σ.sup.error = true ∨ σ.sup.compactWorking = false ∨
  (σ.compact ≠ none ∧ ∃ t ∈ σ.tasks, t.isCompact = true)

theorem Compacting.keeps (h : σ.Compacting) (hk : σ.Keeps σ')
    (hc : ∀ endId, .compactInit endId ∈ σ.calls → .compactInit endId ∈ σ'.calls) :
    σ'.Compacting := by
  intro hw
  rcases h (hk.working ▸ hw) with he | ⟨e, hm⟩ | ⟨hcomp, t, ht, hi⟩
  · exact .inl (hk.error he)
  · exact .inr (.inl ⟨e, hc e hm⟩)
  · exact .inr (.inr ⟨hk.compact ▸ hcomp, t, hk.tasks t ht hi, hi⟩)

theorem GoesOn.compacting (h : σ.GoesOn) : σ.Compacting := by
  intro hw
  rcases h with he | hf | h
  · exact .inl he
  · rw [hf] at hw
    cases hw
  · exact .inr (.inr h)

theorem keeps_of_queue (ts us : List Task) (hw : σ'.sup.compactWorking = σ.sup.compactWorking)
    (hc : σ'.compact = σ.compact) (he : σ.sup.error = true → σ'.sup.error = true)
    (ha : σ'.active = σ.active) (hq : σ'.queue = ts ++ σ.queue ++ us) : σ.Keeps σ' := by
  refine ⟨hw, hc, he, fun t ht _ => ?_⟩
  rw [Sys.tasks, ha, hq]
  rcases List.mem_append.1 ht with ht | ht
  · exact List.mem_append_left _ ht
  · exact List.mem_append_right _ (List.mem_append_left _ (List.mem_append_right _ ht))

theorem keeps_sup (hw : σ'.sup.compactWorking = σ.sup.compactWorking)
    (hc : σ'.compact = σ.compact) (he : σ.sup.error = true → σ'.sup.error = true)
    (ha : σ'.active = σ.active) (hq : σ'.queue = σ.queue) : σ.Keeps σ' :=
  keeps_of_queue [] [] hw hc he ha (by simp [hq])

theorem keeps_cancelWrite (σ : Sys) (fl : ℕ) : σ.Keeps (σ.cancelWrite fl) := by
  refine ⟨rfl, rfl, id, fun t ht hc => ?_⟩
  rcases List.mem_append.1 ht with ht | ht
  · exact List.mem_append_left _ ht
  · refine List.mem_append_right _ (List.mem_map.2 ⟨t, ht, ?_⟩)
    cases t <;> first | rfl | cases hc

theorem keeps_discardExtents (σ : Sys) (X : Finset ℕ) : σ.Keeps (σ.discardExtents X) := by
  unfold discardExtents
  simp only
  split_ifs
  · exact .refl σ
  · exact keeps_sup rfl rfl id rfl rfl
  · exact keeps_of_queue [] [.discard none] rfl rfl id rfl rfl
  · exact keeps_sup rfl rfl id rfl rfl

theorem keeps_discardBegin (σ : Sys) : σ.Keeps σ.discardBegin := by
  unfold discardBegin
  simp only
  split
  · exact keeps_sup rfl rfl id rfl rfl
  · exact keeps_of_queue [] [.discard _] rfl rfl id rfl rfl

theorem keeps_ioFlush (σ : Sys) (err : Bool) : σ.Keeps (σ.ioFlush err) := by
  unfold ioFlush
  split_ifs
  · exact .refl σ
  · exact keeps_sup rfl rfl id rfl rfl

theorem keeps_flusherAfterFlush (σ : Sys) (err : Bool) : σ.Keeps (σ.flusherAfterFlush err) := by
  unfold flusherAfterFlush
  simp only
  split_ifs
  · exact keeps_sup rfl rfl (fun _ => rfl) rfl rfl
  · exact .refl σ
  · exact keeps_sup rfl rfl id rfl rfl
  · exact keeps_sup rfl rfl id rfl rfl
  · have h := keeps_discardExtents { σ with sup := { σ.sup with flush := ∅ } } σ.sup.flush
    exact ⟨h.working, h.compact, h.error, h.tasks⟩

theorem handOver_keeps (s : Super) (X : Finset ℕ) :
    (s.handOver X).1.compactWorking = s.compactWorking ∧ (s.handOver X).1.error = s.error := by
  unfold Super.handOver
  split_ifs <;> exact ⟨rfl, rfl⟩

theorem keeps_flusherEncode (σ : Sys) (fl : ℕ) (t : Flusher) (err : Bool) :
    σ.Keeps (σ.flusherEncode fl t err) := by
  unfold flusherEncode
  split
  · rename_i s hs
    rcases writerEncode_super.1 s hs with rfl | rfl <;>
      exact keeps_sup rfl rfl (fun _ => rfl) rfl rfl
  · unfold flusherWriteFinish
    simp only
    split_ifs <;> exact keeps_sup rfl rfl id rfl rfl
  · rename_i s c req flush rest hs
    have hs' : s.compactWorking = σ.sup.compactWorking ∧ s.error = σ.sup.error := by
      rcases writerEncode_super.2 s c req flush rest hs with rfl | ⟨b, -, rfl⟩ <;>
        exact ⟨rfl, rfl⟩
    simp only
    split_ifs
    · exact keeps_of_queue [.before fl false, .writer fl (some req)] [] hs'.1 rfl
        (fun he => hs'.2.trans he) rfl (by simp [addHead])
    · exact keeps_of_queue [.writer fl (some req)] [] hs'.1 rfl (fun he => hs'.2.trans he) rfl
        (by simp [addHead])

theorem keeps_flusher (σ : Sys) {t₀ : Task} {n : ℕ} (hn : t₀.order = some n) (err m : Bool)
    (junk : Buf) : σ.Keeps (σ.runTask t₀ err m junk) := by
  cases t₀ with
  | writer fl io =>
      simp only [runTask]
      split
      · exact .refl σ
      split
      · rename_i req
        refine .trans ?_ (keeps_flusherEncode _ _ _ _)
        unfold ioRecord
        simp only
        split_ifs <;> exact keeps_sup rfl rfl id rfl rfl
      · exact keeps_flusherEncode _ _ _ _
  | before fl flush =>
      simp only [runTask]
      split
      · exact .refl σ
      split_ifs
      · refine (keeps_ioFlush σ err).trans ?_
        unfold flusherBeforeWriteFlushDone
        simp only
        split_ifs
        · refine .trans ?_ (keeps_cancelWrite _ fl)
          exact keeps_sup rfl rfl (fun _ => rfl) rfl rfl
        · exact keeps_sup rfl rfl (fun _ => rfl) rfl rfl
        · exact keeps_cancelWrite _ fl
        · exact .refl _
      · rename_i t _ _
        unfold flusherBeforeWriteFlush
        split_ifs
        · exact keeps_cancelWrite σ fl
        · obtain ⟨h₁, h₂⟩ := handOver_keeps σ.sup t.unused
          exact keeps_of_queue [.before fl true] [] h₁ rfl (fun he => h₂.trans he) rfl
            (by simp [addHead])
  | after fl flush =>
      simp only [runTask]
      split
      · exact .refl σ
      split_ifs
      · exact (keeps_ioFlush σ err).trans (keeps_flusherAfterFlush _ err)
      · rename_i t _ _
        unfold flusherBeforeFlush
        split_ifs
        · exact .refl σ
        · obtain ⟨h₁, h₂⟩ := handOver_keeps σ.sup t.unused
          exact keeps_of_queue [.after fl true] [] h₁ rfl (fun he => h₂.trans he) rfl
            (by simp [addHead])
  | free fl =>
      simp only [runTask]
      split
      · exact .refl σ
      · unfold flusherFree
        simp only
        split_ifs <;> exact keeps_sup rfl rfl id rfl rfl
  | _ => cases hn

theorem goesOn_tail {τ : Sys} {t : Task} (hc : τ.compact ≠ none) (ht : t.isCompact = true) :
    (τ.addTail t).GoesOn :=
  .inr (.inr ⟨hc, t, List.mem_append_right _ (List.mem_append_right _ List.mem_cons_self), ht⟩)

theorem goesOn_compactError (σ : Sys) : σ.compactError.GoesOn := .inl rfl

theorem goesOn_compactLoaded (σ : Sys) (t : Compact) (m : Bool) (out : LoaderOut) :
    (σ.compactLoaded t m out).GoesOn := by
  cases out with
  | readPage l X => exact goesOn_tail (by simp) rfl
  | error X => exact goesOn_compactError σ
  | finish l X =>
      simp only [compactLoaded]
      unfold compactLoaderFinish
      split
      · split
        · exact goesOn_compactError σ
        simp only
        split
        · exact goesOn_tail (by simp) rfl
        · split
          · exact goesOn_compactError σ
          · exact goesOn_tail (by simp) rfl
      · exact goesOn_compactError σ

theorem goesOn_compactEncode {t : Compact} (hc : σ.compact = some t) (err : Bool) :
    (σ.compactEncode t err).GoesOn := by
  unfold compactEncode
  split
  · exact goesOn_compactError _
  · exact goesOn_tail (by simp [hc]) rfl
  · exact goesOn_tail (by simp) rfl

theorem goesOn_compactWriteSuper (σ : Sys) (t : Compact) (err : Bool) :
    (σ.compactWriteSuper t err).GoesOn := by
  unfold compactWriteSuper
  split
  · exact goesOn_compactError _
  · exact goesOn_tail (by simp) rfl

theorem goesOn_compactFinish (σ : Sys) (t : Compact) (err : Bool) :
    (σ.compactFinish t err).GoesOn := by
  unfold compactFinish
  simp only
  split
  · exact goesOn_compactError _
  split
  · exact .inr (.inl rfl)
  · exact goesOn_compactError _

/-- A task of a compaction queues the next one, or the compaction is over. -/
theorem goesOn_compact {t : Task} {c : Compact} (hc : σ.compact = some c) (ht : t.isCompact = true)
    (err m : Bool) (junk : Buf) : (σ.runTask t err m junk).GoesOn := by
  cases t with
  | compactHeader | compactPage =>
      simp only [runTask, hc]
      split_ifs
      · exact goesOn_compactError σ
      · exact goesOn_compactLoaded _ _ _ _
  | compactWriter io =>
      simp only [runTask, hc]
      split
      · refine goesOn_compactEncode ?_ _
        exact hc
      · exact goesOn_compactEncode hc _
  | compactWriteSuper flush =>
      simp only [runTask, hc]
      split_ifs <;> exact goesOn_compactWriteSuper _ _ _
  | compactFlushSuper req =>
      simp only [runTask, compactFlushSuper]
      split_ifs
      · exact goesOn_compactError _
      · exact goesOn_tail (by simp [ioWrite, hc]) rfl
  | compactFinish =>
      simp only [runTask, hc]
      exact goesOn_compactFinish _ _ _
  | _ => cases ht

/-- A task that has lost its compaction does nothing. -/
theorem keeps_lost {t : Task} (hc : σ.compact = none) (ht : t.isCompact = true) (err m : Bool)
    (junk : Buf) : (σ.runTask t err m junk).sup.error = true ∨
      σ.Keeps (σ.runTask t err m junk) := by
  cases t with
  | compactHeader | compactPage | compactWriter | compactWriteSuper | compactFinish =>
      simp only [runTask, hc]
      exact .inr (.refl σ)
  | compactFlushSuper req =>
      simp only [runTask, compactFlushSuper]
      split_ifs
      · exact .inl rfl
      · exact .inr (keeps_of_queue [] [.compactFinish] rfl rfl id rfl rfl)
  | _ => cases ht

theorem keeps_pop {t : Task} (ht : σ.active = some t) (hc : t.isCompact = false) :
    σ.Keeps { σ with active := none } := by
  refine ⟨rfl, rfl, id, fun u hu hi => ?_⟩
  rw [tasks_of_active ht] at hu
  rcases List.mem_cons.1 hu with rfl | hu
  · rw [hc] at hi
    cases hi
  · exact hu

/-- **A completed task lets a compaction go on.** -/
theorem compacting_task {t : Task} (h : σ.Compacting) (ht : σ.active = some t) (hl : ¬ Loud t)
    (err m : Bool) (junk : Buf) : ({ σ with active := none }.runTask t err m junk).Compacting := by
  have hcalls : ∀ endId, .compactInit endId ∈ σ.calls →
      .compactInit endId ∈ ({ σ with active := none }.runTask t err m junk).calls :=
    fun e he => Multiset.mem_of_le (kept_done σ t err m junk) he
  cases hc : t.isCompact with
  | true =>
      by_cases hcomp : σ.compact = none
      · intro hw
        rcases keeps_lost (σ := { σ with active := none }) hcomp hc err m junk with he | hk
        · exact .inl he
        rcases h (hk.working ▸ hw) with he | ⟨e, he⟩ | ⟨hne, -⟩
        · exact .inl (hk.error he)
        · exact .inr (.inl ⟨e, hcalls e he⟩)
        · exact absurd hcomp hne
      · obtain ⟨c, hcomp⟩ := Option.ne_none_iff_exists'.1 hcomp
        exact (goesOn_compact (σ := { σ with active := none }) hcomp hc err m junk).compacting
  | false =>
      refine h.keeps ((keeps_pop ht hc).trans ?_) hcalls
      cases hn : t.order with
      | some n => exact keeps_flusher _ hn err m junk
      | none =>
          cases t with
          | copy | loadHeader | loadPage => exact absurd trivial hl
          | requeue file => exact .refl _
          | discard io =>
              cases io with
              | none => exact keeps_discardBegin _
              | some r =>
                  refine .trans ?_ (keeps_discardBegin _)
                  exact keeps_sup rfl rfl id rfl rfl
          | writer | before | after | free => cases hn
          | _ => cases hc

/-- The changes of the metadata leave compactions alone. -/
theorem keeps_change (h : σ.Change σ') : σ.Keeps σ' := by
  cases h with
  | «open» _ _ _ _ _ _ he | close _ _ _ _ _ _ he | closeClosed he =>
      subst he
      exact keeps_sup rfl rfl id rfl rfl
  | @op j s cs ws ho he =>
      obtain ⟨_, _, _, _, _, _, _, _, _, hshape⟩ := ho.shape
      subst he
      rw [hshape]
      exact keeps_sup rfl rfl id rfl rfl
  | @copyStart f i b src cs ws io _ _ _ _ hf hmode _ _ hb hnone he =>
      have hs : (σ.sup.copyPending f b i).compactWorking = σ.sup.compactWorking ∧
          (σ.sup.copyPending f b i).error = σ.sup.error := by
        rw [Super.copyPending, Super.updFile, Super.superToFile_eq hnone]
        split <;> exact ⟨rfl, rfl⟩
      subst he
      exact keeps_of_queue [] [.copy f.id i b src] hs.1 rfl (fun he => hs.2.trans he) rfl rfl
  | @copied k i b src err m junk ht he =>
      have hs : (σ.sup.copyEnded k i err).compactWorking = σ.sup.compactWorking ∧
          (σ.sup.copyEnded k i err).error = σ.sup.error := by
        rw [Super.copyEnded, Super.updFile]
        split <;> exact ⟨rfl, rfl⟩
      subst he
      refine (keeps_pop ht rfl).trans ?_
      cases err <;> exact keeps_sup hs.1 rfl (fun he => hs.2.trans he) rfl rfl
  | @mount l out hl ho he =>
      have hs : out.super.compactWorking = σ.sup.compactWorking ∧
          out.super.error = σ.sup.error := by
        refine ho.rule (P := fun X => X.compactWorking = σ.sup.compactWorking ∧
          X.error = σ.sup.error) (fun _ _ h => h) (fun X X' e hr h => ?_) ⟨rfl, rfl⟩
        obtain ⟨_, _, _, _, _, _, _, _, _, _, _, hs⟩ := hr.shape
        rw [hs]
        exact h
      subst he
      have hpop : σ.Keeps { σ with active := none } := by
        rcases ho.active with ht | ht <;> exact keeps_pop ht rfl
      refine hpop.trans ?_
      cases out with
      | readPage l X =>
          exact keeps_of_queue [] [.loadPage] hs.1 rfl (fun he => hs.2.trans he) rfl rfl
      | finish l X => exact keeps_sup hs.1 rfl (fun he => hs.2.trans he) rfl rfl
      | error X => exact keeps_sup hs.1 rfl (fun _ => rfl) rfl rfl

theorem compacting_step {l : Label} (hσ : σ.Sound total) (h : σ.Compacting)
    (hs : σ.step l = some σ') : σ'.Compacting := by
  by_cases hl : ∃ endId ok, l = .call (.compactInit endId) ok
  · obtain ⟨e, ok, rfl⟩ := hl
    have hs' : σ' = σ.compactInit (.compactInit e) e ok := by
      unfold step at hs
      split at hs
      · cases hs
      simp only at hs
      split_ifs at hs
      exact (Option.some.inj hs).symm
    rw [hs']
    unfold compactInit
    simp only
    split_ifs
    · exact (goesOn_tail (by simp) rfl).compacting
    · exact fun _ => .inl rfl
  have hcalls : ∀ endId, .compactInit endId ∈ σ.calls → .compactInit endId ∈ σ'.calls :=
    fun e he => kept_step hs he fun ok heq => hl ⟨e, ok, heq⟩
  cases (hσ.step hs).2 with
  | change hm => exact h.keeps (keeps_change hm) hcalls
  | threads he | handlerWrite _ _ he =>
      subst he
      exact h.keeps (keeps_sup rfl rfl id rfl rfl) hcalls
  | @requeue file he =>
      subst he
      exact h.keeps (keeps_of_queue [] [.requeue file] rfl rfl id rfl rfl) hcalls
  | compactStart _ _ he hnew =>
      subst he
      exact fun _ => .inr (.inl hnew)
  | compactInit _ he =>
      subst he
      refine fun _ => .inr (.inr ⟨by simp, .compactHeader, ?_, rfl⟩)
      exact List.mem_append_right _ (List.mem_append_right _ List.mem_cons_self)
  | compactFail _ he =>
      subst he
      exact fun _ => .inl rfl
  | get ha hq he =>
      subst he
      refine h.keeps ⟨rfl, rfl, id, fun t ht _ => ?_⟩ hcalls
      simpa [Sys.tasks, ha, hq] using ht
  | noMount _ ht he =>
      subst he
      refine h.keeps ?_ hcalls
      rcases ht with ht | ht <;> exact keeps_pop ht rfl
  | @flusher cs ondisk he =>
      refine h.keeps ?_ hcalls
      subst he
      unfold queueFlusher
      simp only
      split
      · exact keeps_sup rfl rfl id rfl rfl
      · exact keeps_of_queue [] _ rfl rfl id rfl rfl
  | @task t err m junk ht hloud he =>
      subst he
      exact compacting_task h ht hloud err m junk

/-! ### The empty queue -/

theorem compacting_opened (total : ℕ) (discard compact : Bool) (uuid : Uuid) (disk : Buf) :
    (Sys.opened total discard compact uuid disk).Compacting := fun h => by cases h

theorem pipe_opened (total : ℕ) (discard compact : Bool) (uuid : Uuid) (disk : Buf) :
    (Sys.opened total discard compact uuid disk).Pipe := .idle rfl rfl rfl rfl

/-- All that the flushers, the pipeline and the compaction have to do, in every
state of every run. -/
theorem Reachable.work {discard compact : Bool} {uuid : Uuid} {disk : Buf}
    (h : (Sys.opened total discard compact uuid disk).Reachable σ) :
    σ.Chores ∧ σ.Pipe ∧ σ.Compacting := by
  refine (h.rule (P := fun σ => σ.Sound total ∧ σ.Chores ∧ σ.Pipe ∧ σ.Compacting)
    ⟨sound_opened .., chores_opened .., pipe_opened .., compacting_opened _ _ _ _ _⟩ ?_).2
  rintro τ l τ' ⟨hσ, h₁, h₂, h₃⟩ hs
  have he := (hσ.step hs).2
  exact ⟨(hσ.step hs).1, chores_effect hσ h₁ he, pipe_effect h₂ he, compacting_step hσ h₃ hs⟩

/-- `cyanfs_super_flusher_start(s, 0, ondisk)` in a super that has something for
it: it takes `unused_extents` and `journal_head`, and it will flush if the flag
asks for it. -/
theorem flusher_started (hbug : σ.sup.bug = none) (hst : σ.sup.ensureStatus = none)
    (h : σ.Chores) (hwork : σ.sup.flushFlag = true ∨ σ.sup.journalHead ≠ []) (ondisk : Bool) :
    ∃ σ', σ.run [.superFlush ondisk, .call (.flusher 0 ondisk none) true,
        .call (.flusherQueue (ondisk || σ.sup.flushFlag) none) true] = some σ' ∧
      σ'.sup.unused = ∅ ∧ σ'.flushers[σ.nextFlusher]? =
        some ⟨false, ondisk || σ.sup.flushFlag, σ.sup.unused, σ.sup.journalHead⟩ ∧
      .free σ.nextFlusher ∈ σ'.queue ∧
      (σ.sup.flushFlag = true → .after σ.nextFlusher false ∈ σ'.queue) := by
  have hcount : ¬ (σ.sup.journalCount ≤ 0 ∧ (ondisk || σ.sup.flushFlag) = false) := by
    rintro ⟨h₁, h₂⟩
    rcases hwork with hf | hj
    · simp [hf] at h₂
    · rw [h.count] at h₁
      exact hj (List.length_eq_zero_iff.1 (by omega))
  have hqueue : ¬ ((ondisk || σ.sup.flushFlag) = false ∧ ¬ σ.sup.journalHead ≠ []) := by
    rintro ⟨h₁, h₂⟩
    rcases hwork with hf | hj
    · simp [hf] at h₁
    · exact h₂ hj
  have hstep : ∀ (τ : Sys) (c : Call), τ.sup.bug = none → c ∈ τ.calls →
      τ.step (.call c true) = τ.callStep c true := by
    intro τ c hb hc
    rw [step, if_neg (by simp [hb])]
    exact if_pos hc
  let c₀ : Call := .flusher 0 ondisk none
  let c₁ : Call := .flusherQueue (ondisk || σ.sup.flushFlag) none
  have h₁ : σ.step (.superFlush ondisk) = some (σ.addCall c₀) := by
    rw [step, if_neg (by simp [hbug])]
  have h₂ : (σ.addCall c₀).step (.call c₀ true) = some ((σ.addCall c₀).setCall c₀ c₁) := by
    rw [hstep (σ.addCall c₀) c₀ hbug (Multiset.mem_cons_self _ _)]
    simp only [callStep, c₀]
    unfold flusherStart
    simp only
    have hcount' : ¬ ((σ.addCall (.flusher 0 ondisk none)).sup.journalCount ≤ 0 ∧
      (ondisk || (σ.addCall (.flusher 0 ondisk none)).sup.flushFlag) = false) := hcount
    rw [if_neg (by simpa [addCall] using hst), if_neg hcount', if_true]
    rfl
  have h₃ : ((σ.addCall c₀).setCall c₀ c₁).step (.call c₁ true) =
      some ((((σ.addCall c₀).setCall c₀ c₁).queueFlusher (ondisk || σ.sup.flushFlag)).endCall c₁) := by
    rw [hstep ((σ.addCall c₀).setCall c₀ c₁) c₁ hbug (Multiset.mem_cons_self _ _)]
    rfl
  refine ⟨_, by rw [run, h₁, Option.bind_some, run, h₂, Option.bind_some, run, h₃, Option.bind_some,
    run], ?_⟩
  have hqueue' : ¬ ((ondisk || σ.sup.flushFlag) = false ∧
    ¬ ((σ.addCall c₀).setCall c₀ c₁).sup.journalHead ≠ []) := hqueue
  rw [queueFlusher, if_neg hqueue']
  refine ⟨rfl, ?_, ?_, fun hf => ?_⟩
  · exact (flushers_insert _ _ _ _).trans (if_pos rfl)
  · simp [endCall, setCall, addCall]
  · simp [endCall, setCall, addCall, hf]

/-- **No released extent is stranded.**  In every reachable state of a READY super
without ERROR in which the queue is empty, no task is active and no call is in
progress: what waits in `unused_extents` or `flush_extents` is announced by the
flag FLUSH or an entry in `journal_head`, so that the next
`cyanfs_super_flusher_start(s, 0, _)` queues a flusher that takes it and, if there
is something to flush, flushes; and the discard pipeline is empty and neither it
nor a compaction is marked as working. -/
theorem none_stranded {discard compact : Bool} {uuid : Uuid} {disk : Buf}
    (h : (Sys.opened total discard compact uuid disk).Reachable σ) (hready : σ.sup.ready = true)
    (herr : σ.sup.error = false) (hqueue : σ.queue = []) (hactive : σ.active = none)
    (hcalls : σ.calls = 0) :
    (σ.sup.unused ≠ ∅ ∨ σ.sup.flush ≠ ∅ →
      (σ.sup.flushFlag = true ∨ σ.sup.journalHead ≠ []) ∧
      ∀ ondisk, σ.sup.bug = none →
        ∃ σ', σ.run [.superFlush ondisk, .call (.flusher 0 ondisk none) true,
            .call (.flusherQueue (ondisk || σ.sup.flushFlag) none) true] = some σ' ∧
          σ'.sup.unused = ∅ ∧ σ'.flushers[σ.nextFlusher]? =
            some ⟨false, ondisk || σ.sup.flushFlag, σ.sup.unused, σ.sup.journalHead⟩ ∧
          .free σ.nextFlusher ∈ σ'.queue ∧
          (σ.sup.flush ≠ ∅ → .after σ.nextFlusher false ∈ σ'.queue)) ∧
    σ.sup.waitDiscard = ∅ ∧ σ.sup.discard = ∅ ∧
    σ.sup.discardWorking = false ∧ σ.sup.compactWorking = false := by
  obtain ⟨hch, hpipe, hcomp⟩ := h.work
  have htasks : σ.tasks = [] := by simp [tasks, hqueue, hactive]
  have hst : σ.sup.ensureStatus = none := by simp [Super.ensureStatus, herr, hready]
  have hno : ¬ σ.WillFlush := by
    have : σ.orders = [] := by rw [orders, htasks]; rfl
    rintro (⟨fl, hm⟩ | ⟨fl, t, hm, -⟩) <;> rw [this] at hm <;> cases hm
  have hflush : σ.sup.flush ≠ ∅ → σ.sup.flushFlag = true := by
    intro hne
    rcases hch.flush hne with he | hf | hw
    · rw [herr] at he
      cases he
    · exact hf
    · exact absurd hw hno
  refine ⟨fun hne => ?_, ?_⟩
  · have hwork : σ.sup.flushFlag = true ∨ σ.sup.journalHead ≠ [] :=
      hne.elim hch.unused fun hne => .inl (hflush hne)
    refine ⟨hwork, fun ondisk hbug => ?_⟩
    obtain ⟨σ', hrun, h₁, h₂, h₃, h₄⟩ := flusher_started hbug hst hch hwork ondisk
    exact ⟨σ', hrun, h₁, h₂, h₃, fun hne => h₄ (hflush hne)⟩
  · have hd : σ.discards = [] := by rw [discards, htasks]; rfl
    have hcw : σ.sup.compactWorking = false := by
      by_contra hw
      rcases hcomp (by simpa using hw) with he | ⟨e, hm⟩ | ⟨-, t, ht, -⟩
      · rw [herr] at he
        cases he
      · rw [hcalls] at hm
        cases hm
      · rw [htasks] at ht
        cases ht
    cases hpipe with
    | idle h₁ h₂ h₃ h₄ => exact ⟨h₃, h₄, h₂, hcw⟩
    | waiting h₁ => rw [hd] at h₁; cases h₁
    | running h₁ => rw [hd] at h₁; cases h₁

/-- Five extents of a file are released and the threads have returned: they wait in
`unused_extents`.  Behind a flush that is not to the disk they wait in `flush_extents`.  In both
cases the next flush takes care of them. -/
theorem none_stranded_released :
    let opened := Sys.opened 16 true true smallUuid smallDisk
    (∃ σ σ', opened.Reachable σ ∧ σ.queue = [] ∧ σ.active = none ∧ σ.calls = 0 ∧
      σ.sup.unused = {1, 12, 13, 14, 15} ∧ σ.sup.journalHead.length = 9 ∧
      σ.run [.superFlush false, .call (.flusher 0 false none) true,
        .call (.flusherQueue false none) true] = some σ' ∧
      σ'.sup.unused = ∅ ∧ .free 0 ∈ σ'.queue ∧ σ.sup.waitDiscard = ∅) ∧
    ∃ σ σ', opened.Reachable σ ∧ σ.queue = [] ∧ σ.active = none ∧ σ.calls = 0 ∧
      σ.sup.flush = {1, 12, 13, 14, 15} ∧ σ.sup.journalHead = [] ∧ σ.sup.flushFlag = true ∧
      σ.run [.superFlush false, .call (.flusher 0 false none) true,
        .call (.flusherQueue true none) true] = some σ' ∧
      .after 1 false ∈ σ'.queue ∧ .free 1 ∈ σ'.queue := by
  intro opened
  let ls := bulkLabels ++ [.truncate 1 extentSize] ++ settle 4
  refine ⟨?_, ?_⟩
  · obtain ⟨σ, hrun, ⟨hready, herr⟩, ⟨hq, ha, hc⟩, hbug, hflag, hunused, hhead, hnext⟩ := exists_small
      ls (P := fun τ => (τ.sup.ready = true ∧ τ.sup.error = false) ∧
        (τ.queue.length = 0 ∧ τ.active.isNone = true ∧ τ.calls = 0) ∧ τ.sup.bug = none ∧
        τ.sup.flushFlag = false ∧ τ.sup.unused = {1, 12, 13, 14, 15} ∧
        τ.sup.journalHead.length = 9 ∧ τ.nextFlusher = 0) (by decide +kernel)
    rw [List.length_eq_zero_iff] at hq
    rw [Option.isNone_iff_eq_none] at ha
    have hne : σ.sup.unused ≠ ∅ := hunused ▸ by decide
    obtain ⟨hwork, hwait, -⟩ := none_stranded (.small hrun) hready herr hq ha hc
    obtain ⟨σ', hrun', hempty, -, hfree, -⟩ := (hwork (.inl hne)).2 false hbug
    rw [hflag] at hrun'
    rw [hnext] at hfree
    exact ⟨σ, σ', .small hrun, hq, ha, hc, hunused, hhead, hrun', hempty, hfree, hwait⟩
  · obtain ⟨σ, hrun, ⟨hready, herr⟩, ⟨hq, ha, hc⟩, hbug, hflag, hflush, hhead, hnext⟩ := exists_small
      (ls ++ [.superFlush false, .call (.flusher 0 false none) true,
        .call (.flusherQueue false none) true] ++ work 5)
      (P := fun τ => (τ.sup.ready = true ∧ τ.sup.error = false) ∧
        (τ.queue.length = 0 ∧ τ.active.isNone = true ∧ τ.calls = 0) ∧ τ.sup.bug = none ∧
        τ.sup.flushFlag = true ∧ τ.sup.flush = {1, 12, 13, 14, 15} ∧
        τ.sup.journalHead = [] ∧ τ.nextFlusher = 1) (by decide +kernel)
    rw [List.length_eq_zero_iff] at hq
    rw [Option.isNone_iff_eq_none] at ha
    have hne : σ.sup.flush ≠ ∅ := hflush ▸ by decide
    obtain ⟨σ', hrun', -, -, hfree, hafter⟩ :=
      ((none_stranded (.small hrun) hready herr hq ha hc).1 (.inr hne)).2 false hbug
    rw [hflag] at hrun'
    rw [hnext] at hfree hafter
    exact ⟨σ, σ', .small hrun, hq, ha, hc, hflush, hhead, hflag, hrun', hafter hne, hfree⟩

end Sys

end Cyanfs
