/-
# The executor of the UEFI driver

`CyanfsBackendLoop` handles NOP, READ, WRITE and FLUSH; any other task ends in
`CYANFS_BUG_ON`.  The driver opens the super without discard and compaction and
never requeues, so no DISCARD and no REQUEUE is queued, but a WriteBlocks that falls
where only an ancestor of the file has an extent queues a COPY
(`uefi_meets_copy`).

A run of the driver that writes no such piece gives the executor nothing but the
tasks of the mount and of the flushers (`Served`, `uefi_handles`).
-/

import Cyanfs.Run.Forked

namespace Cyanfs

open Lib Std

/-- The types in the switch of `CyanfsBackendLoop`. -/
def TaskType.uefiHandles : TaskType → Bool
  | .nop | .read | .write | .flush => true
  | .copy | .discard | .requeue => false

/-- The steps that the UEFI driver takes: its protocols lead to neither
`cyanfs_super_compact`, `cyanfs_discard` nor `cyanfs_requeue`. -/
def Label.uefi : Label → Bool
  | .compact | .discard _ _ _ | .requeue _ => false
  | _ => true

/-- The tasks of the mount and of the flushers. -/
def Task.isUefi : Task → Bool
  | .writer _ _ | .before _ _ | .after _ _ | .free _ | .loadHeader | .loadPage => true
  | _ => false

theorem Task.uefiHandles_type {t : Task} (h : t.isUefi = true) : t.type.uefiHandles = true := by
  cases t with
  | writer _ io =>
      simp only [Task.type]
      split_ifs <;> rfl
  | before _ flush | after _ flush => cases flush <;> rfl
  | free _ | loadHeader | loadPage => rfl
  | _ => cases h

/-- The calls of the driver, except a write on its way to queue a COPY. -/
def Call.isUefi : Call → Bool
  | .writeAlloc _ (some _) | .compactInit _ | .discard _ | .discardLocked _
  | .discardHandler _ _ => false
  | _ => true

namespace Sys

variable {σ σ' : Sys}

/-- The step does not look up an inherited piece for a write. -/
def Uninherited (σ : Sys) : Label → Prop
  | .call (.write io) _ => ¬ σ.Inherits io
  | _ => True

/-- Reached from `σ₀` by steps of the UEFI driver that all meet `C`. -/
inductive UefiRun (C : Sys → Label → Prop) (σ₀ : Sys) : Sys → Prop
  | start : UefiRun C σ₀ σ₀
  | step {σ σ' : Sys} {l : Label} (h : UefiRun C σ₀ σ) (hl : l.uefi = true) (hc : C σ l)
      (hs : σ.step l = some σ') : UefiRun C σ₀ σ'

theorem UefiRun.reachable {C : Sys → Label → Prop} {σ₀ : Sys} (h : UefiRun C σ₀ σ) :
    σ₀.Reachable σ := by
  induction h with
  | start => exact ⟨[], rfl⟩
  | @step σ σ' l h hl hc hs ih =>
      obtain ⟨ls, hrun⟩ := ih
      refine ⟨ls ++ [l], ?_⟩
      rw [run_append, hrun, Option.bind_some, run, hs]
      rfl

/-- A run of UEFI steps from a state that is reached. -/
theorem UefiRun.run {C : Sys → Label → Prop} {σ₀ : Sys} {ls : List Label} (h : UefiRun C σ₀ σ)
    (hl : ∀ l ∈ ls, l.uefi = true ∧ ∀ τ, C τ l) (hrun : σ.run ls = some σ') : UefiRun C σ₀ σ' := by
  induction ls generalizing σ with
  | nil => exact Option.some.inj hrun ▸ h
  | cons l ls ih =>
      obtain ⟨τ, hs, hrest⟩ := Option.bind_eq_some_iff.1 hrun
      obtain ⟨hu, hC⟩ := hl l List.mem_cons_self
      exact ih (h.step hu (hC σ) hs) (fun l' h' => hl l' (List.mem_cons_of_mem _ h')) hrest

/-- Nothing that the UEFI executor cannot run is queued, and no thread is about to
queue it. -/
structure Served (σ : Sys) : Prop where
  discard : σ.sup.discardEnabled = false
  compact : σ.sup.compactEnabled = false
  active : ∀ t ∈ σ.active, t.isUefi = true
  queue : ∀ t ∈ σ.queue, t.isUefi = true
  calls : ∀ c ∈ σ.calls, c.isUefi = true

namespace Served

theorem of_sup (h : σ.Served) {s : Super} (hd : s.discardEnabled = σ.sup.discardEnabled)
    (hc : s.compactEnabled = σ.sup.compactEnabled) : Served { σ with sup := s } :=
  ⟨hd.trans h.discard, hc.trans h.compact, h.active, h.queue, h.calls⟩

theorem of_flushers (h : σ.Served) (fs : ExtTreeMap ℕ Flusher) : Served { σ with flushers := fs } :=
  ⟨h.discard, h.compact, h.active, h.queue, h.calls⟩

theorem addTail (h : σ.Served) {t : Task} (ht : t.isUefi = true) : (σ.addTail t).Served := by
  refine ⟨h.discard, h.compact, h.active, fun t' hm => ?_, h.calls⟩
  rcases List.mem_append.1 hm with hm | hm
  · exact h.queue t' hm
  · rw [List.mem_singleton.1 hm]
    exact ht

theorem addHead (h : σ.Served) {t : Task} (ht : t.isUefi = true) : (σ.addHead t).Served := by
  refine ⟨h.discard, h.compact, h.active, fun t' hm => ?_, h.calls⟩
  rcases List.mem_cons.1 hm with rfl | hm
  · exact ht
  · exact h.queue t' hm

theorem addCall (h : σ.Served) {c : Call} (hc : c.isUefi = true) : (σ.addCall c).Served := by
  refine ⟨h.discard, h.compact, h.active, h.queue, fun c' hm => ?_⟩
  rcases Multiset.mem_cons.1 hm with rfl | hm
  · exact hc
  · exact h.calls c' hm

theorem endCall (h : σ.Served) (c : Call) : (σ.endCall c).Served :=
  ⟨h.discard, h.compact, h.active, h.queue, fun c' hm => h.calls c' (Multiset.mem_of_mem_erase hm)⟩

theorem setCall (h : σ.Served) (c : Call) {c' : Call} (hc : c'.isUefi = true) :
    (σ.setCall c c').Served := (h.endCall c).addCall hc

theorem returnCall (h : σ.Served) (c : Call) (st : Status) : (σ.returnCall c st).Served :=
  ⟨h.discard, h.compact, h.active, h.queue, fun c' hm => h.calls c' (Multiset.mem_of_mem_erase hm)⟩

theorem ioEnd (h : σ.Served) (c : Call) (io : IoCall) (st : Status) : (σ.ioEnd c io st).Served := by
  unfold Sys.ioEnd
  split_ifs
  · exact (h.returnCall c st).addCall rfl
  · exact h.returnCall c st

theorem writeMapped (h : σ.Served) (c : Call) (io : IoCall) (e : Extent) :
    (σ.writeMapped c io e).Served := by
  have h' : Served { σ with sup := { σ.sup with
      writers := Function.update σ.sup.writers σ.sup.writerCurrent
        (σ.sup.writers σ.sup.writerCurrent + 1) } } := h.of_sup rfl rfl
  exact h'.setCall c rfl

theorem flusherReturn (h : σ.Served) (c : Call) (file : Option ℕ) :
    (σ.flusherReturn c file).Served := by
  cases file with
  | none => exact h.endCall c
  | some f => exact h.setCall c rfl

end Served

theorem served_opened (total : ℕ) (uuid : Uuid) (disk : Buf) :
    (Sys.opened total false false uuid disk).Served := by
  refine ⟨rfl, rfl, ?_, ?_, ?_⟩
  · simp [Sys.opened]
  · simp [Sys.opened, Task.isUefi]
  · simp [Sys.opened]

/-! ### Locked sections -/

/-- A journaled operation leaves the options alone. -/
theorem Served.op (h : σ.Served) {j : JEntry} {s : Super} (ho : σ.sup.Op j s) :
    (σ.commit (s.append j)).Served := by
  obtain ⟨_, _, _, _, _, _, _, _, _, rfl⟩ := ho.shape
  exact ⟨h.discard, h.compact, h.active, h.queue, h.calls⟩

theorem served_metaOp (h : σ.Served) {r : Except Err Super}
    (ho : ∀ s', r = .ok s' → ∃ j s, σ.sup.Op j s ∧ s' = s.append j) : (σ.metaOp r).Served := by
  unfold metaOp
  cases r with
  | error e => exact h.addCall rfl
  | ok s' =>
      obtain ⟨j, s, hop, rfl⟩ := ho s' rfl
      exact (h.op hop).addCall rfl

theorem served_writeLookup (h : σ.Served) {c : Call} {io : IoCall} {f : File}
    (hf : σ.sup.filesById[io.file]? = some f) (hn : ¬ σ.Inherits io) :
    (σ.writeLookup c io f).Served := by
  unfold writeLookup
  split
  · exact h.ioEnd c io _
  rename_i hst
  split
  · exact h.writeMapped c io _
  rename_i hown
  split
  · rename_i p hp
    split_ifs with he hpend
    · exact h.ioEnd c io _
    · exact h.setCall c rfl
    · exact absurd ⟨hst, f, p, hf, hown, hp, by simpa using he, by simpa using hpend⟩ hn
  · exact h.setCall c rfl

theorem served_writeAlloc (h : σ.Served) (c : Call) (io : IoCall) (f : File) (m : Bool) :
    (σ.writeAlloc c io f none m).Served := by
  unfold writeAlloc
  split
  · exact h.ioEnd c io _
  split
  · exact h.ioEnd c io _
  split
  · exact h.writeMapped c io _
  split
  · exact h.ioEnd c io _
  · rename_i s i b ha
    obtain ⟨-, -, -, hnone, rfl⟩ := allocExtent_eq_some ha
    have hcommit : (σ.commit ((σ.sup.superToFile f b i).append ⟨.bind f.id i b, false⟩)).Served := by
      rw [Super.superToFile_eq hnone]
      exact ⟨h.discard, h.compact, h.active, h.queue, h.calls⟩
    exact hcommit.writeMapped c _ _

theorem served_writeReturn (h : σ.Served) (c : Call) (io : IoCall) (arg : HandlerArg)
    (epoch : Option Bool) (ok : Bool) : (σ.writeReturn c io arg epoch ok).Served := by
  have hend : ∀ w, Served { σ with sup := { σ.sup with writers := w } } := fun w => h.of_sup rfl rfl
  unfold writeReturn
  cases epoch with
  | none =>
      simp only
      split_ifs
      · exact h.ioEnd c io _
      · exact h.setCall c rfl
  | some w =>
      simp only
      split_ifs
      · exact (hend _).ioEnd c io _
      · exact (hend _).setCall c rfl

theorem served_queueFlusher (h : σ.Served) (ondisk : Bool) : (σ.queueFlusher ondisk).Served := by
  unfold queueFlusher
  simp only
  split
  · exact h
  · refine ⟨h.discard, h.compact, h.active, fun t hm => ?_, h.calls⟩
    rcases List.mem_append.1 hm with hm | hm
    · exact h.queue t hm
    rcases List.mem_append.1 hm with hm | hm
    · split_ifs at hm
      · rw [List.mem_singleton.1 hm]
        rfl
      · cases hm
    rcases List.mem_append.1 hm with hm | hm
    · split_ifs at hm
      · rw [List.mem_singleton.1 hm]
        rfl
      · cases hm
    · rw [List.mem_singleton.1 hm]
      rfl

/-- The sections of the calls that the driver makes. -/
theorem served_callStep (h : σ.Served) {c : Call} {ok : Bool} (hc : c ∈ σ.calls)
    (hu : σ.Uninherited (.call c ok)) (hs : σ.callStep c ok = some σ') : σ'.Served := by
  have huefi := h.calls c hc
  cases c with
  | flusher min ondisk file =>
      obtain rfl := Option.some.inj hs
      unfold flusherStart
      simp only
      split_ifs
      · exact h.endCall _
      · exact h.flusherReturn _ file
      · exact h.setCall _ rfl
      · exact h.endCall _
  | flusherQueue ondisk file =>
      obtain rfl := Option.some.inj hs
      exact (served_queueFlusher h ondisk).flusherReturn _ file
  | flushType file =>
      obtain rfl := Option.some.inj hs
      exact h.endCall _
  | compact =>
      -- without the option the call returns
      obtain rfl := Option.some.inj hs
      unfold compactStart
      simp only [h.compact, true_or, or_true, if_true]
      exact h.endCall _
  | read io =>
      obtain rfl := Option.some.inj hs
      unfold readLookup
      split
      · exact h.returnCall _ _
      · exact h.setCall _ rfl
  | readHandler io arg =>
      obtain rfl := Option.some.inj hs
      unfold readReturn
      split_ifs
      · exact h.returnCall _ _
      · exact h.setCall _ rfl
  | write io =>
      obtain ⟨f, hf, rfl⟩ := Option.map_eq_some_iff.1 hs
      exact served_writeLookup h hf hu
  | writeAlloc io parent =>
      obtain ⟨f, -, rfl⟩ := Option.map_eq_some_iff.1 hs
      cases parent with
      | some src => cases huefi
      | none => exact served_writeAlloc h _ io f ok
  | writeHandler io arg epoch =>
      obtain rfl := Option.some.inj hs
      exact served_writeReturn h _ io arg epoch ok
  | compactInit _ | discard _ | discardLocked _ | discardHandler _ _ => cases huefi

/-! ### Callbacks -/

theorem served_discardExtents (h : σ.Served) (X : Finset ℕ) : (σ.discardExtents X).Served := by
  unfold discardExtents
  simp only [h.discard, Bool.false_eq_true, if_false]
  split_ifs
  · exact h
  · exact h.of_sup h.discard.symm rfl

theorem served_ioFlush (h : σ.Served) (err : Bool) : (σ.ioFlush err).Served := by
  unfold ioFlush
  split_ifs
  · exact h
  · exact ⟨h.discard, h.compact, h.active, h.queue, h.calls⟩

theorem served_cancelWrite (h : σ.Served) (fl : ℕ) : (σ.cancelWrite fl).Served := by
  refine ⟨h.discard, h.compact, h.active, fun t hm => ?_, h.calls⟩
  obtain ⟨t', hm', rfl⟩ := List.mem_map.1 hm
  have ht' := h.queue t' hm'
  cases t' with
  | writer fl' io => rfl
  | _ => exact ht'

theorem options_handOver (s : Super) (X : Finset ℕ) :
    (s.handOver X).1.discardEnabled = s.discardEnabled ∧
      (s.handOver X).1.compactEnabled = s.compactEnabled := by
  unfold Super.handOver
  split_ifs <;> exact ⟨rfl, rfl⟩

theorem served_flusherAfterFlush (h : σ.Served) (err : Bool) : (σ.flusherAfterFlush err).Served := by
  have hcursor : ∀ {τ : Sys} (c : Cursor), τ.Served →
      Served { τ with sup := { τ.sup with cursor := c } } := fun c hτ => hτ.of_sup rfl rfl
  unfold flusherAfterFlush
  simp only
  split_ifs
  · exact h.of_sup rfl rfl
  · exact h
  · exact hcursor _ h
  · exact hcursor _ (h.of_sup (s := { σ.sup with flushFlag := true }) rfl rfl)
  · exact hcursor _ (served_discardExtents (h.of_sup (s := { σ.sup with flush := ∅ }) rfl rfl) _)

theorem served_flusherEncode (h : σ.Served) (fl : ℕ) (t : Flusher) (err : Bool) :
    (σ.flusherEncode fl t err).Served := by
  unfold flusherEncode
  split
  · rename_i s hs
    have hfields : s.discardEnabled = σ.sup.discardEnabled ∧
        s.compactEnabled = σ.sup.compactEnabled := by
      rcases writerEncode_super.1 s hs with rfl | rfl <;> exact ⟨rfl, rfl⟩
    exact ⟨hfields.1.trans h.discard, hfields.2.trans h.compact, h.active, h.queue, h.calls⟩
  · unfold flusherWriteFinish
    simp only
    split_ifs
    · exact Served.addCall (h.of_sup (s := { σ.sup with flushFlag := true }) rfl rfl) rfl
    · exact h.addCall rfl
    · exact h.of_sup rfl rfl
    · exact h
  · rename_i s c req flush rest hs
    have hfields : s.discardEnabled = σ.sup.discardEnabled ∧
        s.compactEnabled = σ.sup.compactEnabled := by
      rcases writerEncode_super.2 s c req flush rest hs with rfl | ⟨b, -, rfl⟩ <;> exact ⟨rfl, rfl⟩
    have hlog : Served { σ with
        sup := { s with cursor := c }
        log := { σ.log with records := σ.log.records ++ [req.write] } } :=
      ⟨hfields.1.trans h.discard, hfields.2.trans h.compact, h.active, h.queue, h.calls⟩
    have hw := hlog.addHead (t := .writer fl (some req)) rfl
    simp only
    split_ifs
    · exact (hw.of_flushers _).addHead (t := .before fl false) rfl
    · exact hw.of_flushers _

/-- A READ of the mount completes. -/
theorem served_loaded (h : σ.Served) {out : LoaderOut}
    (hd : out.super.discardEnabled = σ.sup.discardEnabled)
    (hc : out.super.compactEnabled = σ.sup.compactEnabled) : (σ.loaded out).Served := by
  cases out with
  | readPage l X =>
      have hX : Served { σ with sup := X, loader := some l } :=
        ⟨hd.trans h.discard, hc.trans h.compact, h.active, h.queue, h.calls⟩
      exact hX.addTail rfl
  | finish l X | error X => exact ⟨hd.trans h.discard, hc.trans h.compact, h.active, h.queue, h.calls⟩

/-- The loader leaves the options alone. -/
theorem options_loader (l : Loader) (s : Super) (m : Bool) (g : Buf) :
    ((l.parserHeader s m g).super.discardEnabled = s.discardEnabled ∧
      (l.parserHeader s m g).super.compactEnabled = s.compactEnabled) ∧
    (l.parserPage s m g).super.discardEnabled = s.discardEnabled ∧
      (l.parserPage s m g).super.compactEnabled = s.compactEnabled := by
  let P : Super → Prop := fun X => X.discardEnabled = s.discardEnabled ∧
    X.compactEnabled = s.compactEnabled
  have hcursor : ∀ (X : Super) (x : Cursor), P X → P { X with cursor := x } := fun _ _ h => h
  have hreplay : ∀ (X X' : Super) (e : Entry), X.replay e = .ok X' → P X → P X' := by
    intro X X' e hr h
    obtain ⟨_, _, _, _, _, _, _, _, _, _, _, rfl⟩ := (Super.replay_eq_ok.1 hr).shape
    exact h
  have hs : P s := ⟨rfl, rfl⟩
  exact ⟨l.parserHeader_rule hcursor hreplay m g hs, l.parserPage_rule hcursor hreplay m g hs⟩

/-- The callbacks of the tasks that the executor runs. -/
theorem served_runTask (h : σ.Served) {t : Task} (ht : t.isUefi = true) (err m : Bool) (junk : Buf) :
    (σ.runTask t err m junk).Served := by
  cases t with
  | writer fl io =>
      simp only [runTask]
      split
      · exact h
      · cases io with
        | none => exact served_flusherEncode h fl _ false
        | some req =>
            have hio : (σ.ioRecord req err junk).Served := by
              unfold ioRecord
              simp only
              split_ifs <;> exact ⟨h.discard, h.compact, h.active, h.queue, h.calls⟩
            exact served_flusherEncode hio fl _ err
  | before fl flush =>
      simp only [runTask]
      split
      · exact h
      rename_i t hfl
      split_ifs
      · have hio := served_ioFlush h err
        have herr := hio.of_sup (s := (σ.ioFlush err).sup.markError) rfl rfl
        unfold flusherBeforeWriteFlushDone
        simp only
        split_ifs
        · exact served_cancelWrite herr fl
        · exact herr
        · exact served_cancelWrite hio fl
        · exact hio
      · unfold flusherBeforeWriteFlush
        split_ifs
        · exact served_cancelWrite h fl
        · have hs : Served { σ with
              sup := (σ.sup.handOver t.unused).1
              flushers := σ.flushers.insert fl { t with unused := (σ.sup.handOver t.unused).2 } } :=
            ⟨(options_handOver σ.sup t.unused).1.trans h.discard,
              (options_handOver σ.sup t.unused).2.trans h.compact, h.active, h.queue, h.calls⟩
          exact hs.addHead rfl
  | after fl flush =>
      simp only [runTask]
      split
      · exact h
      rename_i t hfl
      split_ifs
      · exact served_flusherAfterFlush (served_ioFlush h err) err
      · unfold flusherBeforeFlush
        split_ifs
        · exact h
        · let r := σ.sup.handOver t.unused
          have hs : Served { σ with
              sup := { r.1 with cursor := { r.1.cursor with extentIdFlush := r.1.cursor.extentId } }
              flushers := σ.flushers.insert fl { t with unused := r.2 } } :=
            ⟨(options_handOver σ.sup t.unused).1.trans h.discard,
              (options_handOver σ.sup t.unused).2.trans h.compact, h.active, h.queue, h.calls⟩
          exact hs.addHead rfl
  | free fl =>
      simp only [runTask]
      split
      · exact h
      · unfold flusherFree
        simp only
        split_ifs <;> exact ⟨h.discard, h.compact, h.active, h.queue, h.calls⟩
  | loadHeader =>
      simp only [runTask]
      split
      · exact h
      rename_i l hl
      have ho := (options_loader l σ.sup m σ.disk.view).1
      split_ifs
      · exact served_loaded h rfl rfl
      · exact served_loaded h ho.1 ho.2
  | loadPage =>
      simp only [runTask]
      split
      · exact h
      rename_i l hl
      have ho := (options_loader l σ.sup m σ.disk.view).2
      split_ifs
      · exact served_loaded h rfl rfl
      · exact served_loaded h ho.1 ho.2
  | _ => cases ht

/-! ### Steps and runs -/

theorem served_openFile (h : σ.Served) {id : ℕ} {write : Bool} {s : Super}
    (ho : σ.sup.openFile id write = .ok s) : Served { σ with sup := s } := by
  unfold Super.openFile at ho
  split at ho
  · cases ho
  split at ho
  · cases ho
  split_ifs at ho
  all_goals
    cases ho
    exact h.of_sup rfl rfl

/-- **A step of the driver** that looks up no inherited piece. -/
theorem served_step (h : σ.Served) (hok : σ.CallsOk) {l : Label} (hl : l.uefi = true)
    (hu : σ.Uninherited l) (hs : σ.step l = some σ') : σ'.Served := by
  have hk := hok.keyed
  unfold step at hs
  split at hs
  · cases hs
  cases l with
  | create name =>
      obtain rfl := Option.some.inj hs
      split
      · exact h
      · rename_i n hn
        exact served_metaOp h fun s' hs' => Super.op_create (FileName.normal_of_normalize hn).1 hs'
  | fork fromId name =>
      obtain rfl := Option.some.inj hs
      split
      · exact h
      · rename_i n hn
        exact served_metaOp h fun s' hs' => Super.op_fork hk (FileName.normal_of_normalize hn).1 hs'
  | rename id name =>
      obtain rfl := Option.some.inj hs
      split
      · exact h
      · rename_i n hn
        exact served_metaOp h fun s' hs' => Super.op_rename hk (FileName.normal_of_normalize hn).1 hs'
  | truncate id size =>
      obtain rfl := Option.some.inj hs
      split_ifs with hv
      · exact served_metaOp h fun s' hs' => Super.op_truncate hk hv hs'
      · exact h
  | delete id =>
      obtain rfl := Option.some.inj hs
      exact served_metaOp h fun s' hs' => Super.op_delete hk hs'
  | «open» id write =>
      obtain rfl := Option.some.inj hs
      split
      · rename_i s ho
        exact served_openFile h ho
      · exact h
  | close id =>
      simp only at hs
      split at hs
      · cases hs
      split_ifs at hs
      obtain rfl := Option.some.inj hs
      rename_i f hf hc
      unfold Super.closeFile
      split <;> exact h.of_sup rfl rfl
  | superFlush ondisk | flush file =>
      obtain rfl := Option.some.inj hs
      exact h.addCall rfl
  | read file off len =>
      simp only at hs
      split at hs
      · cases hs
      split_ifs at hs
      · obtain rfl := Option.some.inj hs
        exact h.addCall rfl
      · obtain rfl := Option.some.inj hs
        exact h
  | write file off len =>
      simp only at hs
      split at hs
      · cases hs
      obtain rfl := Option.some.inj hs
      split_ifs
      · exact h.addCall rfl
      · exact h
  | call c ok =>
      simp only at hs
      split_ifs at hs with hc
      exact served_callStep h hc hu hs
  | handlerWrite c start len data =>
      simp only at hs
      split at hs
      · split_ifs at hs
        obtain rfl := Option.some.inj hs
        exact ⟨h.discard, h.compact, h.active, h.queue, h.calls⟩
      · cases hs
  | get =>
      simp only at hs
      split at hs
      · rename_i t q ha hq
        obtain rfl := Option.some.inj hs
        refine ⟨h.discard, h.compact, ?_, ?_, h.calls⟩
        · rintro t' ⟨⟩
          exact h.queue t (by rw [hq]; exact List.mem_cons_self)
        · intro t' ht'
          exact h.queue t' (by rw [hq]; exact List.mem_cons_of_mem _ ht')
      · cases hs
  | done err m junk =>
      simp only at hs
      split at hs
      · rename_i t ht
        obtain rfl := Option.some.inj hs
        have hpop : Served { σ with active := none } :=
          ⟨h.discard, h.compact, by simp, h.queue, h.calls⟩
        exact served_runTask hpop (h.active t ht) err m junk
      · cases hs
  | compact | discard _ _ _ | requeue _ => cases hl

/-- **What the UEFI executor is given.**  A run of the driver that looks up no
inherited piece for a write queues only tasks of the types that `CyanfsBackendLoop`
handles. -/
theorem uefi_handles {total : ℕ} {uuid : Uuid} {disk : Buf}
    (h : UefiRun Uninherited (Sys.opened total false false uuid disk) σ) :
    ∀ t ∈ σ.tasks, t.type.uefiHandles = true := by
  have key : σ.Served ∧ σ.CallsOk := by
    induction h with
    | start => exact ⟨served_opened _ _ _, callsOk_opened _ _ _ _ _⟩
    | step h hl hc hs ih => exact ⟨served_step ih.1 ih.2 hl hc hs, callsOk_step ih.2 hs⟩
  intro t ht
  refine Task.uefiHandles_type ?_
  rcases List.mem_append.1 ht with ht | ht
  · exact key.1.active t (by simpa using ht)
  · exact key.1.queue t ht

/-- `CyanfsFlushMetadata` queues the tasks of a flusher. -/
theorem exists_flushMetadata (hbug : σ.sup.bug = none) (hst : σ.sup.ensureStatus = none) : ∃ τ,
    σ.run [.superFlush true, .call (.flusher 0 true none) true,
      .call (.flusherQueue true none) true] = some τ ∧ τ.tasks ≠ [] := by
  let σ₁ := σ.addCall (.flusher 0 true none)
  let σ₂ := σ₁.setCall (.flusher 0 true none) (.flusherQueue true none)
  let σ₃ := (σ₂.queueFlusher true).endCall (.flusherQueue true none)
  have e₁ : σ.step (.superFlush true) = some σ₁ := by
    rw [step, if_neg (by simp [hbug])]
  have e₂ : σ₁.step (.call (.flusher 0 true none) true) = some σ₂ := by
    have hst₁ : σ₁.sup.ensureStatus = none := hst
    have hmem : Call.flusher 0 true none ∈ σ₁.calls := Multiset.mem_cons_self _ _
    rw [step, if_neg (fun hn => hn hbug)]
    simp [hmem, callStep, flusherStart, hst₁, σ₂]
  have e₃ : σ₂.step (.call (.flusherQueue true none) true) = some σ₃ := by
    rw [step, if_neg (fun hn => hn hbug)]
    exact if_pos (Multiset.mem_cons_self _ _ : .flusherQueue true none ∈ σ₂.calls)
  refine ⟨σ₃, ?_, ?_⟩
  · rw [run, e₁, Option.bind_some, run, e₂, Option.bind_some, run, e₃, Option.bind_some, run]
  · have hmem : Task.free σ.nextFlusher ∈ σ₃.tasks := by
      simp [σ₃, σ₂, σ₁, tasks, endCall, setCall, addCall, queueFlusher]
    exact List.ne_nil_of_mem hmem

/-- A file is made on a fresh disk, grown and mapped, its only block is written, and
the metadata is flushed. -/
theorem uefi_handles_first_write :
    let u : Uuid := ⟨List.replicate 16 7, rfl⟩
    let disk : Buf := Buf.overlay (fun _ => 0) (superMake u)
    ∃ σ, UefiRun Uninherited (Sys.opened 16 false false u disk) σ ∧ σ.tasks ≠ [] ∧
      ∀ t ∈ σ.tasks, t.type.uefiHandles = true := by
  intro u disk
  obtain ⟨σ, hrun, hm, -, -, hc⟩ :=
    exists_mounted_run (freshMkfs_zero u) (by decide : 1 ≤ 16) false false u
  have hmounted : UefiRun Uninherited (Sys.opened 16 false false u disk) σ :=
    UefiRun.start.run (by simp [mountLabels, Label.uefi, Uninherited]) hrun
  obtain ⟨τ, τ₁, hτ, hn, hτ₁, hbug, hst⟩ : ∃ τ τ₁,
      σ.run [.create .letter, .truncate 1 4096, .open 1 true, .write 1 0 4096] = some τ ∧
      ¬ τ.Inherits ⟨1, 0, 4096, false⟩ ∧
      τ.step (.call (.write ⟨1, 0, 4096, false⟩) true) = some τ₁ ∧ τ₁.sup.bug = none ∧
      τ₁.sup.ensureStatus = none := by
    have hsup := hm.sup
    obtain ⟨sup, queue, active, flushers, nextFlusher, loader, compact, calls, d, log⟩ := σ
    simp only at hsup hc
    generalize sup.cursor = c at hsup
    subst hsup hc
    refine ⟨_, _, rfl, ?_, rfl, ?_, ?_⟩
    rotate_left
    · rfl
    · rfl
    -- the file has no parent
    rintro ⟨-, f, p, hf, -, hp, -⟩
    cases hf
    cases hp
  obtain ⟨τ₂, hτ₂, htasks⟩ := exists_flushMetadata hbug hst
  have hmap := hmounted.run (by simp [Label.uefi, Uninherited]) hτ
  have hwrite := hmap.step (l := .call (.write ⟨1, 0, 4096, false⟩) true) rfl hn hτ₁
  have hflush := hwrite.run (by simp [Label.uefi, Uninherited]) hτ₂
  exact ⟨τ₂, hflush, htasks, uefi_handles hflush⟩

/-- **The executor meets a COPY**: on a disk with a file and a fork of it, Map of the
fork and a WriteBlocks to its first block. -/
theorem uefi_meets_copy :
    let u : Uuid := ⟨List.replicate 16 7, rfl⟩
    ∃ σ t, UefiRun (fun _ _ => True) (Sys.opened 16 false false u (forkedDisk u)) σ ∧
      σ.active = some t ∧ t.type = .copy ∧ t.type.uefiHandles = false := by
  intro u
  obtain ⟨n, τ, g, hrun, hqτ, haτ, hcalls, hbug, hroom, hne, hg, -, -, -, hinh⟩ :=
    exists_forked_write u
  have huefi : ∀ l ∈ work n ++ [.open 2 true, .write 2 0 4096], l.uefi = true := by
    intro l hl
    simp only [work, List.mem_append, List.mem_flatten, List.mem_replicate] at hl
    rcases hl with ⟨ls, ⟨-, rfl⟩, hl⟩ | hl <;> simp at hl <;> rcases hl with rfl | rfl <;> rfl
  have hmap : UefiRun (fun _ _ => True) (Sys.opened 16 false false u (forkedDisk u)) τ :=
    UefiRun.start.run (fun l hl => ⟨huefi l hl, fun _ => trivial⟩) hrun
  have hcall : .write ⟨2, 0, 4096, false⟩ ∈ τ.calls := by
    rw [hcalls]
    exact Multiset.mem_singleton_self _
  obtain ⟨τ', b, src, ws, hτ', -, -, hqτ', haτ', hbug'⟩ := hinh.copy hcall hbug hroom hne hg
  rw [hqτ, List.nil_append] at hqτ'
  rw [haτ] at haτ'
  refine ⟨{ τ' with active := some (.copy g.id 0 b src), queue := [] }, _, ?_, rfl, rfl, rfl⟩
  have hwrite := hmap.run (by simp [Label.uefi]) hτ'
  refine hwrite.step (l := .get) rfl trivial ?_
  rw [step, if_neg (by simp [hbug'])]
  simp only [haτ', hqτ']
  rfl

end Sys

end Cyanfs
