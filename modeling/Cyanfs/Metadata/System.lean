/-
# The journal refines the live metadata

Along a run from a fresh file system the entries appended so far make sense one
after the other and describe the live metadata (`JournalOk.content`).  With the
account of `Cyanfs.Run.Account` this says what a mount of a cleanly flushed disk
would find: replaying what is written, in flight and still in `journal_head`
leads to the live metadata (`journal_refinement`).
-/

import Cyanfs.Metadata.Nodes

namespace Cyanfs

open Lib Std

namespace Sys

variable {σ σ' : Sys} {total : ℕ}

/-- The appended entries describe the live metadata. -/
structure JournalOk (σ : Sys) (total : ℕ) : Prop where
  account : σ.Accounted
  live : σ.sup.Live total
  accepts : (history total).Accepts .empty σ.log.appended
  content : (history total).afterAll .empty σ.log.appended = σ.sup.metadata
  copies : σ.sup.bug = none → σ.CopiesOk

/-- One more entry that makes sense. -/
theorem content_append {e : Entry} (h : σ.JournalOk total)
    (ha : σ.sup.metadata.Admits total e) (hfr : σ.sup.metadata.Fresh e)
    (hm : σ'.sup.metadata = σ.sup.metadata.after e)
    (hlog : σ'.log.appended = σ.log.appended ++ [e]) :
    (history total).Accepts .empty σ'.log.appended ∧
      (history total).afterAll .empty σ'.log.appended = σ'.sup.metadata := by
  rw [hlog, Machine.accepts_concat, Machine.afterAll_append, h.content, hm]
  exact ⟨⟨h.accepts, ha, hfr⟩, rfl⟩

/-- **Every step after the mount keeps the journal and the metadata together.** -/
theorem journalOk_step {l : Label} (hcalls : σ.CallsOk) (hx : σ.ExtentsOk)
    (ht : σ.sup.totalExtents = total) (hl : σ.loader = none) (h : σ.JournalOk total)
    (hs : σ.step l = some σ') (he : σ.Effect σ') : σ'.JournalOk total := by
  have hbug := bug_of_step hs
  obtain ⟨hlive', hcopies', -⟩ : σ'.LiveOk total := liveOk_effect hcalls hx ht h.account hbug
    ⟨h.live, h.copies, fun hn => absurd hl hn⟩ he
  obtain ⟨hacc, hcase⟩ := accounted_effect h.account hx.fresh he
  suffices hj : (history total).Accepts .empty σ'.log.appended ∧
      (history total).afterAll .empty σ'.log.appended = σ'.sup.metadata from
    ⟨hacc, hlive', hj.1, hj.2, hcopies'⟩
  rcases hcase with hc | ⟨hm, ha, -⟩
  swap
  · rw [ha, h.content, hm.metadata]
    exact ⟨h.accepts, rfl⟩
  cases hc with
  | @«open» f g _ hf hg _ _ _ he | @close f g hf _ _ hg _ _ he =>
      obtain ⟨-, hmeta⟩ := h.live.setFile hf hg
      subst he
      exact ⟨h.accepts, h.content.trans hmeta.symm⟩
  | closeClosed he =>
      subst he
      exact ⟨h.accepts, h.content⟩
  | @op j s cs ws ho he =>
      obtain ⟨ha, hmeta, -⟩ := ho.metadata h.live hx.sup ht
      have heq : s.MetaEq σ'.sup := he ▸ ⟨rfl, rfl, rfl, rfl, rfl, rfl, rfl, rfl, rfl⟩
      have hlog : σ'.log.appended = σ.log.appended ++ [j.entry] := by
        rw [he]
        exact appended_commit ho.journalHead j
      exact content_append h ha (Super.fresh_of_op ho) (heq.metadata.trans hmeta) hlog
  | @copyStart f i b src cs ws io _ _ _ _ hf _ hi hsize _ hnone he =>
      obtain ⟨hmeta, -⟩ := Super.metadata_copyPending (b := b) h.live hf hnone hi hsize
      have heq : (σ.sup.copyPending f b i).MetaEq σ'.sup :=
        he ▸ ⟨rfl, rfl, rfl, rfl, rfl, rfl, rfl, rfl, rfl⟩
      have hlog : σ'.log = σ.log := by rw [he]
      rw [hlog, h.content, heq.metadata, hmeta]
      exact ⟨h.accepts, rfl⟩
  | @copied id i b src err m junk hact he =>
      have hmem : (id, i, b, src) ∈ σ.copies := by
        rw [Sys.copies, tasks_of_active hact]
        exact List.mem_cons_self
      have hpend := (h.copies hbug).pending id i b src hmem
      obtain ⟨-, hcond⟩ := Super.metadata_copyEnded h.live hx.sup ht hpend err
      have heq : (σ.sup.copyEnded id i err).MetaEq σ'.sup :=
        he ▸ metaEq_runTask_copy σ id i b src err m junk
      cases err with
      | false =>
          refine content_append (e := .bind id i b) h hcond.1 trivial (heq.metadata.trans hcond.2) ?_
          rw [he]
          refine appended_commit (σ := ioWrite { σ with active := none } _ false junk) ?_ _
          unfold Super.updFile
          split <;> rfl
      | true =>
          rw [heq.metadata, hcond, ← h.content, he]
          exact ⟨h.accepts, rfl⟩
  | mount hl' => rw [hl] at hl'; cases hl'

/-! ### The state after the mount -/

theorem journalOk_untouched {discard compact : Bool} {u : Uuid} {disk : Buf}
    (h : Untouched (Sys.opened total discard compact u disk) σ)
    (hm : (Sys.opened total discard compact u disk).sup.MetaEq { σ.sup with ready := false })
    (hj : σ.sup.journalHead = []) (ht : ∀ t ∈ σ.tasks, t.Plain) : σ.JournalOk total := by
  have hlog : σ.log.appended = [] ∧ σ.log.written = [] := by
    rw [h.log]
    exact ⟨rfl, rfl⟩
  have hmeta : σ.sup.metadata = .empty := by
    have := hm.metadata
    rw [show (Sys.opened total discard compact u disk).sup.metadata = .empty from
      Super.metadata_opened ..] at this
    exact this
  have hlive : Super.Live { σ.sup with ready := false } total := hm.live (Super.live_opened ..)
  have horder := filterMap_order_of_plain ht
  have hcopies : σ.copies = [] := filterMap_copy_of_plain ht
  have hnone : ∀ id i, σ.sup.extentAt id i = none := by
    intro id i
    have : σ.sup.filesById = (Sys.opened total discard compact u disk).sup.filesById := hm.filesById
    simp [Super.extentAt, this, Sys.opened, Super.opened]
  refine ⟨⟨⟨?_, ?_, ?_⟩, fun _ => ?_, ?_⟩, ⟨hlive.rep.congr hlive.rep.keyed rfl rfl fun _ => rfl,
    hlive.wf, hlive.range⟩, ?_, ?_, fun _ => ⟨?_, ?_, ?_⟩⟩
  · rw [horder]
    exact List.Pairwise.nil
  · rw [horder]
    simp
  · intro fl req hm
    exact absurd (ht _ hm).1 (by simp [Task.order])
  · rw [hlog.1, hlog.2, hj, inFlight, flatMap_eq_nil_of_plain ht
      fun t h => entries_of_order h σ.flushers]
    rfl
  · rw [hlog.1, hlog.2, requested, flatMap_eq_nil_of_plain ht fun t => requested_of_order]
    exact List.nil_prefix
  · rw [hlog.1]
    exact trivial
  · rw [hlog.1, hmeta]
    rfl
  · rw [hcopies]
    simp
  · rw [hcopies]
    simp
  · intro f i x hx
    rw [hnone] at hx
    cases hx

/-- **The journal and the metadata stay together along every run from a fresh
file system.** -/
theorem Reachable.journalOk {discard compact : Bool} {u uuid : Uuid} {disk : Buf}
    (hf : FreshMkfs uuid disk) (h1 : 1 ≤ total)
    (h : (Sys.opened total discard compact u disk).Reachable σ) : σ.JournalOk total := by
  have requeue : ∀ {σ : Sys}, (∀ t ∈ σ.tasks, ∃ f, t = .requeue f) → ∀ t ∈ σ.tasks, t.Plain := by
    intro σ ht t hm
    obtain ⟨f, rfl⟩ := ht t hm
    exact ⟨rfl, rfl⟩
  refine Reachable.fresh_rule (P := fun σ => σ.JournalOk total) hf h1 h ?_ ?_ ?_ ?_
  · intro σ hb
    have hs := hb.sup
    refine journalOk_untouched hb.toUntouched ?_ (by rw [hs]; rfl) ?_
    · rw [hs]
      exact ⟨rfl, rfl, rfl, rfl, rfl, rfl, rfl, rfl, rfl⟩
    · intro t ht
      by_cases hload : t.isLoad = true
      · cases t <;> first | exact ⟨rfl, rfl⟩ | cases hload
      · obtain ⟨f, rfl⟩ := hb.tasks t ht (by simpa using hload)
        exact ⟨rfl, rfl⟩
  · intro σ hm
    have hs := hm.sup
    refine journalOk_untouched hm.toUntouched ?_ (by rw [hs]; rfl) (requeue hm.tasks)
    rw [hs]
    exact ⟨rfl, rfl, rfl, rfl, rfl, rfl, rfl, rfl, rfl⟩
  · intro σ hm
    have hs := hm.sup
    refine journalOk_untouched hm.toUntouched ?_ (by rw [hs]; rfl) (requeue hm.tasks)
    rw [hs]
    exact ⟨rfl, rfl, rfl, rfl, rfl, rfl, rfl, rfl, rfl⟩
  · intro σ l σ' hc hx ht hl hp hs he
    exact journalOk_step hc hx ht hl hp hs he

/-- **Journal refinement.**  As long as the super is not marked, replaying the
entries that are written, those that queued writers hold and those in
`journal_head`, in this order and from the empty state, accepts every entry and
yields the live metadata: the same files with the same name, parent, size and
number of children, the same `max_file_id`, and as the extents of a file its
settled ones. -/
theorem journal_refinement {size : ℕ} {discard compact : Bool} {u uuid : Uuid} {disk : Buf} (page : Buf)
    (hsize : extentsOfSize size = some total) (hf : FreshMkfs uuid disk)
    (h : (Sys.opened total discard compact u disk).Reachable σ) (he : σ.sup.error = false) :
    ∃ s', (Super.opened total discard compact u page).replayAll
        (σ.log.written ++ (σ.inFlight ++ σ.sup.journalHead.map (·.entry))) = .ok s' ∧
      (∀ id : ℕ, (s'.filesById[id]?).map (fun f => (f.id, f.name, f.parentId, f.size, f.children)) =
        (σ.sup.filesById[id]?).map fun f => (f.id, f.name, f.parentId, f.size, f.children)) ∧
      s'.maxFileId = σ.sup.maxFileId ∧
      ∀ id i : ℕ, (s'.extentAt id i).map (·.backend) = (σ.sup.extentAt id i).bind Extent.settled := by
  obtain ⟨h1, ht⟩ := one_le_of_extentsOfSize hsize
  have hj := h.journalOk hf h1
  have hopen := Super.replaying_opened total discard compact u page
  have hacc := Metadata.accepts_of_history hj.accepts
  rw [hj.account.all he] at hacc
  obtain ⟨s', hr, hs', hmeta⟩ := Super.replayAll_of_accepts ht hopen
    (by rw [Super.metadata_opened]; exact hacc)
  have hcontent := hj.content
  rw [hj.account.all he] at hcontent
  rw [Super.metadata_opened] at hmeta
  replace hmeta := hmeta.trans hcontent
  refine ⟨s', hr, hj.live.rep.files_eq hs'.rep hmeta, congrArg Metadata.maxFileId hmeta,
    fun id i => ?_⟩
  rw [Super.extentAt_bind_settled, hs'.settled.extentAt_eq, hmeta, Option.map_map]
  exact Option.map_id'

/-- The journal of a file system of eight extents in which one file was created. -/
theorem journal_refinement_created :
    let u : Uuid := ⟨List.replicate 16 7, rfl⟩
    let name := FileName.ofCstr [97] (by decide)
    let σ₀ := Sys.opened 8 true true u (Buf.overlay (fun _ => 0) (superMake u))
    ∃ σ s', σ₀.Reachable σ ∧
      (Super.opened 8 true true u fun _ => 0).replayAll [.create 1 name] = .ok s' ∧
      s'.maxFileId = σ.sup.maxFileId ∧ σ.sup.maxFileId = 1 := by
  intro u name σ₀
  have hfresh := freshMkfs_zero u
  obtain ⟨σ, hr, hm, ha, hq, -⟩ := exists_mounted hfresh (by decide : 1 ≤ 8) true true u
  obtain ⟨s₁, hs₁, he₁, hmax₁, hhead₁, hhead⟩ :
      ∃ s₁, σ.sup.create name = .ok s₁ ∧ s₁.error = false ∧ s₁.maxFileId = 1 ∧
        s₁.journalHead = [⟨.create 1 name, false⟩] ∧ σ.sup.journalHead = [] := by
    rw [hm.sup]
    exact ⟨_, rfl, rfl, rfl, rfl, rfl⟩
  have hbug : σ.sup.bug = none := by rw [hm.sup]; rfl
  have hnorm : name.normalize = some name := by decide
  let σ₁ := (σ.commit s₁).flushNewJournal
  have hstep : σ.step (.create name) = some σ₁ := by
    simp only [step, hbug, hnorm, metaOp, hs₁]
    rfl
  have hreach : σ₀.Reachable σ₁ := hr.trans ⟨[.create name], by rw [run, hstep]; rfl⟩
  have hlog : σ.log.written = [] := by rw [hm.log]; rfl
  have hwritten : σ₁.log.written = [] := hlog
  have hflight : σ₁.inFlight = [] := by
    have : σ₁.tasks = [] := by
      change σ.active.toList ++ σ.queue = []
      rw [ha, hq]
      rfl
    rw [inFlight, this]
    rfl
  have hhead₂ : σ₁.sup.journalHead = [⟨.create 1 name, false⟩] := hhead₁
  obtain ⟨s', hs', -, hmax, -⟩ := journal_refinement (fun _ => 0)
    (by decide : extentsOfSize 8396800 = some 8) hfresh hreach he₁
  rw [hwritten, hflight, hhead₂] at hs'
  exact ⟨σ₁, s', hreach, hs', hmax, hmax₁⟩

end Sys

end Cyanfs
