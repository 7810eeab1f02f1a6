/-
# Where the threads are

`Turn` says how the calls in progress change in a step, which `Effect` leaves
open: a thread counts itself as a writer and gets its extent (`mapped`), it has
returned from the handler of a write (`returned`), it moves on to a point about
which something is known (`moved`, `Enters`), or calls of other kinds come and
go.  `step_turn` is the case analysis.
-/

import Cyanfs.Core.Calls

namespace Cyanfs

open Lib Std

/-- The node index that an offset falls into. -/
def IoCall.index (io : IoCall) : ℕ := fileIndex (extentFrom io.off)

namespace Call

/-- The epoch that a call counts in. -/
def epoch? : Call → Option Bool
  | writeHandler _ _ epoch => epoch
  | _ => none

/-- A call that carries no result of a lookup. -/
def Plain : Call → Prop
  | readHandler _ _ | writeAlloc _ _ | writeHandler _ _ _ => False
  | _ => True

/-- The extent up to which `cyanfs_super_compact` is about to compact. -/
def init? : Call → Option ℕ
  | compactInit endId => some endId
  | _ => none

theorem Plain.epoch? {c : Call} (h : c.Plain) : c.epoch? = none := by
  cases c <;> first | rfl | exact h.elim

end Call

namespace Sys

variable {σ σ' σ'' : Sys}

/-! ### Calls that a callback leaves behind -/

/-- Plain calls were added, and no writer was counted. -/
structure Spawns (σ σ' : Sys) : Prop where
  calls : ∃ new : Multiset Call, (∀ c ∈ new, c.Plain ∧ c.init? = none) ∧ σ'.calls = new + σ.calls
  writers : σ'.sup.writers = σ.sup.writers

theorem Spawns.of_eq (hc : σ'.calls = σ.calls) (hw : σ'.sup.writers = σ.sup.writers) : σ.Spawns σ' :=
  ⟨⟨0, by simp, by simp [hc]⟩, hw⟩

theorem Spawns.refl (σ : Sys) : σ.Spawns σ := .of_eq rfl rfl

theorem Spawns.trans (h : σ.Spawns σ') (h' : σ'.Spawns σ'') : σ.Spawns σ'' := by
  obtain ⟨n, hn, hc⟩ := h.calls
  obtain ⟨n', hn', hc'⟩ := h'.calls
  refine ⟨⟨n' + n, fun c hm => ?_, by rw [hc', hc, add_assoc]⟩, h'.writers.trans h.writers⟩
  rcases Multiset.mem_add.1 hm with hm | hm
  · exact hn' c hm
  · exact hn c hm

theorem spawns_addCall (σ : Sys) {c : Call} (hc : c.Plain) (hi : c.init? = none) :
    σ.Spawns (σ.addCall c) :=
  ⟨⟨{c}, by simpa using ⟨hc, hi⟩, rfl⟩, rfl⟩

theorem writers_handOver (s : Super) (unused : Finset ℕ) :
    (s.handOver unused).1.writers = s.writers := by
  unfold Super.handOver
  split_ifs <;> rfl

theorem spawns_discardExtents (σ : Sys) (X : Finset ℕ) : σ.Spawns (σ.discardExtents X) := by
  unfold discardExtents
  simp only
  split_ifs <;> exact .of_eq rfl rfl

theorem spawns_discardBegin (σ : Sys) : σ.Spawns σ.discardBegin := by
  unfold discardBegin
  simp only
  split <;> exact .of_eq rfl rfl

theorem spawns_discardDone (σ : Sys) : σ.Spawns σ.discardDone := by
  unfold discardDone
  refine .trans ?_ (spawns_discardBegin _)
  exact .of_eq rfl rfl

theorem spawns_flusherFree (σ : Sys) (fl : ℕ) (t : Flusher) : σ.Spawns (σ.flusherFree fl t) := by
  unfold flusherFree
  simp only
  split_ifs <;> exact .of_eq rfl rfl

theorem spawns_flusherAfterFlush (σ : Sys) (err : Bool) : σ.Spawns (σ.flusherAfterFlush err) := by
  unfold flusherAfterFlush
  simp only
  split_ifs
  · exact .of_eq rfl rfl
  · exact .refl σ
  · exact .of_eq rfl rfl
  · exact .of_eq rfl rfl
  · have h := spawns_discardExtents { σ with sup := { σ.sup with flush := ∅ } } σ.sup.flush
    exact ⟨h.calls, h.writers⟩

theorem spawns_flusherBeforeFlush (σ : Sys) (fl : ℕ) (t : Flusher) :
    σ.Spawns (σ.flusherBeforeFlush fl t) := by
  unfold flusherBeforeFlush
  split_ifs
  · exact .refl σ
  · exact .of_eq rfl (writers_handOver _ _)

theorem spawns_flusherBeforeWriteFlushDone (σ : Sys) (fl : ℕ) (err : Bool) :
    σ.Spawns (σ.flusherBeforeWriteFlushDone fl err) := by
  unfold flusherBeforeWriteFlushDone
  simp only
  split_ifs <;> exact .of_eq rfl rfl

theorem spawns_flusherBeforeWriteFlush (σ : Sys) (fl : ℕ) (t : Flusher) :
    σ.Spawns (σ.flusherBeforeWriteFlush fl t) := by
  unfold flusherBeforeWriteFlush
  split_ifs
  · exact .of_eq rfl rfl
  · exact .of_eq rfl (writers_handOver _ _)

theorem spawns_flusherWriteFinish (σ : Sys) (t : Flusher) : σ.Spawns (σ.flusherWriteFinish t) := by
  unfold flusherWriteFinish
  simp only
  split_ifs
  · have h := spawns_addCall { σ with sup := { σ.sup with flushFlag := true } }
      (c := .compact) trivial rfl
    exact ⟨h.calls, h.writers⟩
  · exact spawns_addCall σ trivial rfl
  · exact .of_eq rfl rfl
  · exact .refl σ

theorem writers_writerEncode {s s' : Super} (h : s' = s ∨ ∃ b ∈ s.free, s' = s.takeJournal b) :
    s'.writers = s.writers := by
  rcases h with rfl | ⟨b, -, rfl⟩ <;> rfl

theorem spawns_flusherEncode (σ : Sys) (fl : ℕ) (t : Flusher) (err : Bool) :
    σ.Spawns (σ.flusherEncode fl t err) := by
  unfold flusherEncode
  split
  · rename_i s hs
    refine .of_eq rfl ?_
    rcases writerEncode_super.1 s hs with rfl | rfl <;> rfl
  · exact spawns_flusherWriteFinish σ t
  · rename_i s c req flush rest hs
    have hw := writers_writerEncode (writerEncode_super.2 s c req flush rest hs)
    simp only
    split_ifs <;> exact .of_eq rfl hw

theorem spawns_compactError (σ : Sys) : σ.Spawns σ.compactError := .of_eq rfl rfl

theorem spawns_compactLoaderFinish (σ : Sys) (t : Compact) (l : Loader) (X : Super) (m : Bool) :
    σ.Spawns (σ.compactLoaderFinish t l X m) := by
  unfold compactLoaderFinish
  split
  · split
    · exact spawns_compactError σ
    · simp only
      split
      · exact .of_eq rfl rfl
      · split <;> exact .of_eq rfl rfl
  · exact spawns_compactError σ

theorem spawns_compactLoaded (σ : Sys) (t : Compact) (m : Bool) (out : LoaderOut) :
    σ.Spawns (σ.compactLoaded t m out) := by
  cases out with
  | readPage l X => exact .of_eq rfl rfl
  | finish l X => exact spawns_compactLoaderFinish σ t l X m
  | error X => exact spawns_compactError σ

theorem spawns_compactEncode (σ : Sys) (t : Compact) (err : Bool) :
    σ.Spawns (σ.compactEncode t err) := by
  unfold compactEncode
  split
  · rename_i s hs
    refine .of_eq rfl ?_
    rcases writerEncode_super.1 s hs with rfl | rfl <;> rfl
  · exact .of_eq rfl rfl
  · rename_i s c req flush rest hs
    exact .of_eq rfl (writers_writerEncode (writerEncode_super.2 s c req flush rest hs))

theorem spawns_compactWriteSuper (σ : Sys) (t : Compact) (err : Bool) :
    σ.Spawns (σ.compactWriteSuper t err) := by
  unfold compactWriteSuper
  split <;> exact .of_eq rfl rfl

theorem spawns_compactFlushSuper (σ : Sys) (err : Bool) : σ.Spawns (σ.compactFlushSuper err) := by
  unfold compactFlushSuper
  split <;> exact .of_eq rfl rfl

theorem spawns_compactFinish (σ : Sys) (t : Compact) (err : Bool) :
    σ.Spawns (σ.compactFinish t err) := by
  unfold compactFinish
  simp only
  split
  · exact spawns_compactError σ
  · split
    · have h := spawns_discardExtents { σ with sup := { σ.sup with
        journal := σ.sup.journal \ t.priv.journal
        journalExtents := σ.sup.journalExtents - t.priv.journal.card } } t.priv.journal
      exact ⟨h.calls, h.writers⟩
    · refine .trans (.trans ?_ (spawns_discardExtents _ _)) (spawns_compactError _)
      exact .of_eq rfl rfl

theorem spawns_ioWrite (σ : Sys) (w : DiskWrite) (err : Bool) (junk : Buf) :
    σ.Spawns (σ.ioWrite w err junk) := .of_eq rfl rfl

theorem spawns_ioFlush (σ : Sys) (err : Bool) : σ.Spawns (σ.ioFlush err) := by
  unfold ioFlush
  split_ifs <;> exact .of_eq rfl rfl

theorem spawns_ioRecord (σ : Sys) (req : WriteReq) (err : Bool) (junk : Buf) :
    σ.Spawns (σ.ioRecord req err junk) := by
  unfold ioRecord
  simp only
  split_ifs <;> exact .of_eq rfl rfl

/-- **A task that completes** moves no thread that is in a call. -/
theorem spawns_runTask (σ : Sys) {t : Task} (ht : ¬ Loud t) (err m : Bool) (junk : Buf) :
    σ.Spawns (σ.runTask t err m junk) := by
  cases t with
  | writer fl io =>
      simp only [runTask]
      split
      · exact .refl σ
      · split
        · exact .trans (spawns_ioRecord σ _ err junk) (spawns_flusherEncode _ _ _ _)
        · exact spawns_flusherEncode _ _ _ _
  | before fl flush =>
      simp only [runTask]
      split
      · exact .refl σ
      · split
        · exact .trans (spawns_ioFlush σ err) (spawns_flusherBeforeWriteFlushDone _ _ _)
        · exact spawns_flusherBeforeWriteFlush _ _ _
  | after fl flush =>
      simp only [runTask]
      split
      · exact .refl σ
      · split
        · exact .trans (spawns_ioFlush σ err) (spawns_flusherAfterFlush _ _)
        · exact spawns_flusherBeforeFlush _ _ _
  | free fl =>
      simp only [runTask]
      split
      · exact .refl σ
      · exact spawns_flusherFree _ _ _
  | copy | loadHeader | loadPage => exact absurd trivial ht
  | discard io =>
      cases io with
      | none => exact spawns_discardBegin σ
      | some r => exact .trans (spawns_ioWrite σ _ false junk) (spawns_discardDone _)
  | compactHeader | compactPage =>
      simp only [runTask]
      split
      · exact .refl σ
      · split
        · exact spawns_compactError σ
        · exact spawns_compactLoaded _ _ _ _
  | compactWriter io =>
      simp only [runTask]
      split
      · exact .refl σ
      · split
        · exact .trans (spawns_ioWrite σ _ err junk) (spawns_compactEncode _ _ _)
        · exact spawns_compactEncode _ _ _
  | compactWriteSuper flush =>
      simp only [runTask]
      split
      · exact .refl σ
      · split
        · exact .trans (spawns_ioFlush σ err) (spawns_compactWriteSuper _ _ _)
        · exact spawns_compactWriteSuper _ _ _
  | compactFlushSuper req =>
      exact .trans (spawns_ioWrite σ _ err junk) (spawns_compactFlushSuper _ _)
  | compactFinish =>
      simp only [runTask]
      split
      · exact .refl σ
      · exact .trans (spawns_ioFlush σ err) (spawns_compactFinish _ _ _)
  | requeue file => exact .refl σ

/-! ### Turns -/

/-- What is known of a call when a thread gets to it without counting as a
writer. -/
inductive Enters (σ : Sys) : Call → Prop
  | plain {c : Call} (h : c.Plain) : Enters σ c
  | readHandler {io : IoCall} (hs : σ.sup.ensureStatus = none) :
      Enters σ (.readHandler io (match σ.sup.findExtentFollow (some io.file) io.off with
        | some e => .of e io.off
        | none => .nop))
  | writeAlloc {io : IoCall} {f : File} {parent : Option ℕ} (hs : σ.sup.ensureStatus = none)
      (hf : σ.sup.filesById[io.file]? = some f) (hnone : f.findExtent io.off = none)
      (hp : σ.sup.findExtentFollow f.parent io.off = parent.map fun b => ⟨b, false, false⟩) :
      Enters σ (.writeAlloc io parent)
  | requeue (io : IoCall) : Enters σ (.writeHandler io .requeue none)

/-- How the threads move in a step. -/
inductive Turn (σ σ' : Sys) : Prop
  /-- a thread moves on inside a call -/
  | moved {c c' : Call} (hc : c ∈ σ.calls) (he : σ' = σ.setCall c c') (hepoch : c.epoch? = none)
      (hio : c'.io? = c.io?) (hnew : σ.Enters c')
  /-- plain calls come, and calls that are not counted go -/
  | plain {g n : Multiset Call} (hgone : g ≤ σ.calls) (hepoch : ∀ c ∈ g, c.epoch? = none)
      (hnew : ∀ c ∈ n, c.Plain) (hcalls : σ'.calls = n + (σ.calls - g))
      (hw : σ'.sup.writers = σ.sup.writers)
  /-- the label `mapped` of `cyanfs_write` -/
  | mapped {c : Call} {io io' : IoCall} {e : Extent} (hc : c ∈ σ.calls) (hepoch : c.epoch? = none)
      (hio : c.io? = some io) (hsame : io'.file = io.file ∧ io'.off = io.off ∧ io'.len = io.len)
      (hnode : σ'.sup.extentAt io.file io.index = some e)
      (hbug : σ'.sup.bug = σ.sup.bug) (hcurrent : σ'.sup.writerCurrent = σ.sup.writerCurrent)
      (hw : σ'.sup.writers = Function.update σ.sup.writers σ.sup.writerCurrent
        (σ.sup.writers σ.sup.writerCurrent + 1))
      (hcalls : σ'.calls = .writeHandler io' (.of e io'.off) (some σ.sup.writerCurrent) ::ₘ
        σ.calls.erase c)
  /-- the handler of a write that is counted has returned -/
  | returned {io : IoCall} {arg : HandlerArg} {w : Bool} {n : Multiset Call}
      {r : List (Call × Status)} (hc : .writeHandler io arg (some w) ∈ σ.calls)
      (hnew : ∀ c ∈ n, c.Plain) (he : σ' = { σ with
        sup := { σ.sup with writers := Function.update σ.sup.writers w (σ.sup.writers w - 1) }
        calls := n + σ.calls.erase (.writeHandler io arg (some w))
        log := { σ.log with returned := r } })

theorem Spawns.turn (h : σ.Spawns σ') : σ.Turn σ' := by
  obtain ⟨new, hn, hc⟩ := h.calls
  exact .plain (g := 0) (Multiset.zero_le _) (by simp) (fun c hm => (hn c hm).1) (by simpa using hc)
    h.writers

theorem Turn.refl (σ : Sys) : σ.Turn σ := (Spawns.refl σ).turn

/-- A call ends, and plain calls come. -/
theorem turn_ended {c : Call} {n : Multiset Call} (hc : c ∈ σ.calls) (hepoch : c.epoch? = none)
    (hnew : ∀ c ∈ n, c.Plain) (hcalls : σ'.calls = n + σ.calls.erase c)
    (hw : σ'.sup.writers = σ.sup.writers) : σ.Turn σ' :=
  .plain (g := {c}) (Multiset.singleton_le.2 hc) (by simpa using hepoch) hnew
    (by rw [hcalls, Multiset.sub_singleton]) hw

theorem turn_endCall {c : Call} (hc : c ∈ σ.calls) (hepoch : c.epoch? = none) :
    σ.Turn (σ.endCall c) :=
  turn_ended (n := 0) hc hepoch (by simp) (by simp [endCall]) rfl

theorem turn_returnCall {c : Call} (hc : c ∈ σ.calls) (hepoch : c.epoch? = none) (st : Status) :
    σ.Turn (σ.returnCall c st) :=
  turn_ended (n := 0) hc hepoch (by simp) (by simp [returnCall, endCall]) rfl

theorem turn_setCall {c d : Call} (hc : c ∈ σ.calls) (hepoch : c.epoch? = none)
    (hcalls : σ'.calls = d ::ₘ σ.calls.erase c) (hd : d.Plain)
    (hw : σ'.sup.writers = σ.sup.writers) : σ.Turn σ' :=
  turn_ended (n := {d}) hc hepoch (by simpa using hd) hcalls hw

theorem turn_addCall {c : Call} (he : σ' = σ.addCall c) (hc : c.Plain) : σ.Turn σ' :=
  .plain (g := 0) (n := {c}) (Multiset.zero_le _) (by simp) (by simpa using hc)
    (by rw [he, Multiset.sub_zero]; rfl) (by rw [he]; rfl)

theorem calls_ioEnd (σ : Sys) (c : Call) (io : IoCall) (st : Status) : ∃ new : Multiset Call,
    (∀ c ∈ new, c.Plain) ∧ σ.ioEnd c io st = { σ with
      calls := new + σ.calls.erase c
      log := { σ.log with returned := σ.log.returned ++ [(c, st)] } } := by
  unfold ioEnd
  split_ifs
  · exact ⟨{.flusher superMaxInflightJournal false none}, by simp [Call.Plain], rfl⟩
  · exact ⟨0, by simp, by simp [returnCall, endCall]⟩

theorem turn_ioEnd {c : Call} (hc : c ∈ σ.calls) (hepoch : c.epoch? = none) (io : IoCall)
    (st : Status) : σ.Turn (σ.ioEnd c io st) := by
  obtain ⟨new, hn, he⟩ := calls_ioEnd σ c io st
  rw [he]
  exact turn_ended hc hepoch hn rfl rfl

theorem writers_op {j : JEntry} {s s' : Super} (h : s.Op j s') : s'.writers = s.writers := by
  obtain ⟨_, _, _, _, _, _, _, _, _, hs⟩ := h.shape
  rw [hs]

theorem turn_same (hc : σ'.calls = σ.calls) (hw : σ'.sup.writers = σ.sup.writers) : σ.Turn σ' :=
  (Spawns.of_eq hc hw).turn

theorem turn_metaOp {r : Except Err Super}
    (h : ∀ s', r = .ok s' → ∃ j s, σ.sup.Op j s ∧ s' = s.append j) : σ.Turn (σ.metaOp r) := by
  unfold metaOp
  have hp : (Call.flusher superMaxInflightJournal false none).Plain := trivial
  cases r with
  | error e => exact (spawns_addCall σ hp rfl).turn
  | ok s' =>
      obtain ⟨j, s, ho, rfl⟩ := h s' rfl
      have hw : s.writers = σ.sup.writers := writers_op ho
      have hc : σ.Spawns (σ.commit (s.append j)) := .of_eq rfl hw
      exact (hc.trans (spawns_addCall _ hp rfl)).turn

theorem turn_flusherReturn {τ : Sys} {c : Call} (hc : c ∈ σ.calls) (hepoch : c.epoch? = none)
    (hcalls : τ.calls = σ.calls) (hw : τ.sup.writers = σ.sup.writers) (file : Option ℕ) :
    σ.Turn (τ.flusherReturn c file) := by
  unfold flusherReturn
  split
  · rename_i f
    exact turn_setCall (d := .flushType f) hc hepoch (by rw [setCall, hcalls]) trivial hw
  · exact turn_ended (n := 0) hc hepoch (by simp) (by simp [endCall, hcalls]) hw

/-- The label `mapped`, after a section that has changed neither the calls nor the
writers. -/
theorem turn_writeMapped {τ : Sys} {c : Call} {io io' : IoCall} {e : Extent} (hc : c ∈ σ.calls)
    (hepoch : c.epoch? = none) (hio : c.io? = some io)
    (hsame : io'.file = io.file ∧ io'.off = io.off ∧ io'.len = io.len) (hcalls : τ.calls = σ.calls)
    (hw : τ.sup.writers = σ.sup.writers) (hcurrent : τ.sup.writerCurrent = σ.sup.writerCurrent)
    (hbug : τ.sup.bug = σ.sup.bug) (hnode : τ.sup.extentAt io.file io.index = some e) :
    σ.Turn (τ.writeMapped c io' e) := by
  refine .mapped hc hepoch hio hsame (e := e) hnode hbug hcurrent ?_ ?_
  · simp only [writeMapped, setCall, hw, hcurrent]
  · simp only [writeMapped, setCall, hcalls, hcurrent]

theorem turn_writeLookup {io : IoCall} {f : File} (hc : .write io ∈ σ.calls)
    (hf : σ.sup.filesById[io.file]? = some f) : σ.Turn (σ.writeLookup (.write io) io f) := by
  unfold writeLookup
  split
  · exact turn_ioEnd hc rfl io _
  rename_i hs
  split
  · rename_i e he
    refine turn_writeMapped hc rfl rfl ⟨rfl, rfl, rfl⟩ rfl rfl rfl rfl ?_
    rw [Super.extentAt_of_file hf]
    exact he
  rename_i hnone
  split
  · rename_i p hp
    split_ifs with herr hpend
    · exact turn_ioEnd hc rfl io _
    · exact .moved hc rfl rfl rfl (.requeue io)
    · refine .moved hc rfl rfl rfl (.writeAlloc hs hf hnone ?_)
      obtain ⟨b, pending, error⟩ := p
      simp only [Bool.not_eq_true] at herr hpend
      rw [hp, herr, hpend]
      rfl
  · rename_i hp
    exact .moved hc rfl rfl rfl (.writeAlloc hs hf hnone hp)

theorem turn_writeAlloc {io : IoCall} {f : File} {parent : Option ℕ} {m : Bool}
    (hc : .writeAlloc io parent ∈ σ.calls) (hf : σ.sup.filesById[io.file]? = some f)
    (hid : f.id = io.file) : σ.Turn (σ.writeAlloc (.writeAlloc io parent) io f parent m) := by
  have hf' : σ.sup.filesById[f.id]? = some f := hid ▸ hf
  unfold writeAlloc
  split
  · exact turn_ioEnd hc rfl io _
  split
  · exact turn_ioEnd hc rfl io _
  split
  · rename_i e he
    refine turn_writeMapped hc rfl rfl ⟨rfl, rfl, rfl⟩ rfl rfl rfl rfl ?_
    rw [Super.extentAt_of_file hf]
    exact he
  split
  · exact turn_ioEnd hc rfl io _
  rename_i s i b ha
  obtain ⟨-, -, rfl, hnone, rfl⟩ := allocExtent_eq_some ha
  have hs := Super.superToFile_eq (s := σ.sup) (b := b) hnone
  have hat := Super.extentAt_superToFile (s := σ.sup) (b := b) hnone io.file io.index
  rw [if_pos hid.symm, if_pos (by rfl)] at hat
  split
  · have hs' : (σ.sup.copyPending f b io.index).writers = σ.sup.writers ∧
        (σ.sup.copyPending f b io.index).writerCurrent = σ.sup.writerCurrent ∧
        (σ.sup.copyPending f b io.index).bug = σ.sup.bug := by
      rw [Super.copyPending, Super.updFile, IoCall.index, hs]
      split <;> exact ⟨rfl, rfl, rfl⟩
    refine turn_writeMapped hc rfl rfl ⟨rfl, rfl, rfl⟩ rfl hs'.1 hs'.2.1 hs'.2.2 ?_
    obtain ⟨g, hg, hi⟩ := Super.extentAt_eq_some.1 hat
    change (σ.sup.copyPending f b io.index).extentAt io.file io.index = some ⟨b, true, false⟩
    rw [Super.copyPending, Super.extentAt, Super.filesById_updFile, if_pos hid.symm, hid]
    simp only [IoCall.index] at hg hi ⊢
    simp [hg, hi, File.markExtent]
  · exact turn_writeMapped hc rfl rfl ⟨rfl, rfl, rfl⟩ rfl (by rw [hs]; rfl) (by rw [hs]; rfl)
      (by rw [hs]; rfl) hat

theorem turn_writeReturn {io : IoCall} {arg : HandlerArg} {epoch : Option Bool} {ok : Bool}
    (hc : .writeHandler io arg epoch ∈ σ.calls) :
    σ.Turn (σ.writeReturn (.writeHandler io arg epoch) io arg epoch ok) := by
  unfold writeReturn
  cases epoch with
  | none =>
      simp only
      split_ifs
      · exact turn_ioEnd hc rfl io _
      · exact turn_setCall hc rfl rfl trivial rfl
  | some w =>
      simp only
      split_ifs
      · obtain ⟨new, hn, he⟩ := calls_ioEnd { σ with sup := { σ.sup with
          writers := Function.update σ.sup.writers w (σ.sup.writers w - 1) } }
          (.writeHandler io arg (some w)) io (arg.status ok)
        rw [he]
        exact .returned hc hn rfl
      · exact .returned (n := {.write io.advance}) (r := σ.log.returned) hc (by simp [Call.Plain]) rfl

theorem turn_callStep {c : Call} {ok : Bool} (h : σ.CallsOk) (hc : c ∈ σ.calls)
    (hs : σ.callStep c ok = some σ') : σ.Turn σ' := by
  cases c with
  | flusher min ondisk file =>
      obtain rfl := Option.some.inj hs
      unfold flusherStart
      simp only
      split_ifs
      · exact turn_endCall hc rfl
      · exact turn_flusherReturn hc rfl rfl rfl file
      · exact turn_setCall hc rfl rfl trivial rfl
      · exact turn_endCall hc rfl
  | flusherQueue ondisk file =>
      obtain rfl := Option.some.inj hs
      refine turn_flusherReturn hc rfl ?_ ?_ file
      · unfold queueFlusher
        simp only
        split <;> rfl
      · unfold queueFlusher
        simp only
        split <;> rfl
  | flushType file =>
      obtain rfl := Option.some.inj hs
      exact turn_endCall hc rfl
  | compact =>
      obtain rfl := Option.some.inj hs
      unfold compactStart
      simp only
      split
      · exact turn_endCall hc rfl
      · exact turn_setCall hc rfl rfl trivial rfl
  | compactInit endId =>
      obtain rfl := Option.some.inj hs
      unfold compactInit
      simp only
      split_ifs
      · exact turn_ended (n := 0) hc rfl (by simp) (by simp [addTail, endCall]) rfl
      · exact turn_ended (n := 0) hc rfl (by simp) (by simp [compactFail, endCall]) rfl
  | read io =>
      obtain rfl := Option.some.inj hs
      unfold readLookup
      split
      · exact turn_returnCall hc rfl _
      · rename_i hst
        exact .moved hc rfl rfl rfl (.readHandler hst)
  | readHandler io arg =>
      obtain rfl := Option.some.inj hs
      unfold readReturn
      split_ifs
      · exact turn_returnCall hc rfl _
      · exact turn_setCall hc rfl rfl trivial rfl
  | write io =>
      obtain ⟨f, hf, rfl⟩ := Option.map_eq_some_iff.1 hs
      exact turn_writeLookup hc hf
  | writeAlloc io parent =>
      obtain ⟨f, hf, rfl⟩ := Option.map_eq_some_iff.1 hs
      exact turn_writeAlloc hc hf (h.keyed _ f hf)
  | writeHandler io arg epoch =>
      obtain rfl := Option.some.inj hs
      exact turn_writeReturn hc
  | discard io =>
      obtain ⟨f, -, rfl⟩ := Option.map_eq_some_iff.1 hs
      unfold discardLookup
      split
      · exact turn_ioEnd hc rfl io _
      · exact turn_setCall hc rfl rfl trivial rfl
      · split_ifs
        · exact turn_setCall hc rfl rfl trivial rfl
        · exact turn_ioEnd hc rfl io _
  | discardLocked io =>
      obtain ⟨f, hf, rfl⟩ := Option.map_eq_some_iff.1 hs
      unfold discardLocked
      split
      · exact turn_ioEnd hc rfl io _
      · exact turn_setCall hc rfl rfl trivial rfl
      · rename_i i hi
        refine turn_setCall hc rfl rfl trivial ?_
        obtain ⟨_, _, _, _, _, _, hu⟩ := Super.unmapped_unmapExtent σ.sup f.id i
        change (σ.sup.unmapExtent f.id i).writers = _
        rw [hu]
  | discardHandler io arg =>
      obtain rfl := Option.some.inj hs
      unfold discardReturn
      split_ifs
      · exact turn_ioEnd hc rfl io _
      · exact turn_setCall hc rfl rfl trivial rfl

theorem turn_loaded {l : Loader} {out : LoaderOut} (ho : σ.MountOut l out) :
    σ.Turn ({ σ with active := none }.loaded out) := by
  have hw : out.super.writers = σ.sup.writers := by
    refine ho.rule (P := fun X => X.writers = σ.sup.writers) (fun _ _ h => h) (fun X X' e hr h => ?_) rfl
    obtain ⟨_, _, _, _, _, _, _, _, _, _, _, hs⟩ := hr.shape
    rw [hs]
    exact h
  cases out <;> exact turn_same rfl hw

theorem turn_done {t : Task} (ht : σ.active = some t) (err m : Bool) (junk : Buf) :
    σ.Turn ({ σ with active := none }.runTask t err m junk) := by
  by_cases hloud : Loud t
  · cases t with
    | copy id i b src =>
        have hw : ∀ g, (σ.sup.updFile id g).writers = σ.sup.writers := by
          intro g
          unfold Super.updFile
          split <;> rfl
        cases err with
        | true => exact turn_same rfl (hw _)
        | false =>
            exact .plain (g := 0) (n := {.flusher superMaxInflightJournal false none})
              (Multiset.zero_le _) (by simp) (by simp [Call.Plain]) (by rw [tsub_zero]; rfl) (hw _)
    | loadHeader =>
        simp only [runTask]
        split
        · exact turn_same rfl rfl
        · rename_i l hl
          split_ifs
          · exact turn_loaded (l := l) (.error (.inl ht))
          · exact turn_loaded (.header m ht)
    | loadPage =>
        simp only [runTask]
        split
        · exact turn_same rfl rfl
        · rename_i l hl
          split_ifs
          · exact turn_loaded (l := l) (.error (.inr ht))
          · exact turn_loaded (.page m ht)
    | _ => exact hloud.elim
  · have h := spawns_runTask { σ with active := none } hloud err m junk
    exact Spawns.turn ⟨h.calls, h.writers⟩

/-- **How the threads move in a step.** -/
theorem step_turn {l : Label} (h : σ.CallsOk) (hs : σ.step l = some σ') : σ.Turn σ' := by
  unfold step at hs
  split at hs
  · cases hs
  have hk := h.keyed
  cases l with
  | create name =>
      obtain rfl := Option.some.inj hs
      split
      · exact .refl σ
      · rename_i n hn
        exact turn_metaOp fun s' hs' => Super.op_create (FileName.normal_of_normalize hn).1 hs'
  | fork fromId name =>
      obtain rfl := Option.some.inj hs
      split
      · exact .refl σ
      · rename_i n hn
        exact turn_metaOp fun s' hs' => Super.op_fork hk (FileName.normal_of_normalize hn).1 hs'
  | rename id name =>
      obtain rfl := Option.some.inj hs
      split
      · exact .refl σ
      · rename_i n hn
        exact turn_metaOp fun s' hs' => Super.op_rename hk (FileName.normal_of_normalize hn).1 hs'
  | truncate id size =>
      obtain rfl := Option.some.inj hs
      split_ifs with hv
      · exact turn_metaOp fun s' hs' => Super.op_truncate hk hv hs'
      · exact .refl σ
  | delete id =>
      obtain rfl := Option.some.inj hs
      exact turn_metaOp fun s' hs' => Super.op_delete hk hs'
  | «open» id write =>
      obtain rfl := Option.some.inj hs
      split
      · rename_i s ho
        refine turn_same rfl ?_
        unfold Super.openFile at ho
        split at ho
        · cases ho
        split at ho
        · cases ho
        split_ifs at ho <;> obtain rfl := Except.ok.inj ho <;> rfl
      · exact .refl σ
  | close id =>
      simp only at hs
      split at hs
      · cases hs
      rename_i f hf
      split_ifs at hs with hc
      obtain rfl := Option.some.inj hs
      refine turn_same rfl ?_
      unfold Super.closeFile
      split <;> rfl
  | superFlush ondisk | flush file | compact =>
      obtain rfl := Option.some.inj hs
      exact turn_addCall rfl trivial
  | read file off len =>
      simp only at hs
      split at hs
      · cases hs
      split_ifs at hs
      · obtain rfl := Option.some.inj hs
        exact turn_addCall rfl trivial
      · obtain rfl := Option.some.inj hs
        exact .refl σ
  | write file off len | discard file off len =>
      simp only at hs
      split at hs
      · cases hs
      obtain rfl := Option.some.inj hs
      split_ifs
      · exact turn_addCall rfl trivial
      · exact .refl σ
  | requeue file =>
      obtain rfl := Option.some.inj hs
      exact turn_same rfl rfl
  | call c ok =>
      simp only at hs
      split_ifs at hs with hc
      exact turn_callStep h hc hs
  | handlerWrite c start len data =>
      simp only at hs
      split at hs
      · split_ifs at hs with hc
        obtain rfl := Option.some.inj hs
        exact turn_same rfl rfl
      · cases hs
  | get =>
      simp only at hs
      split at hs
      · obtain rfl := Option.some.inj hs
        exact turn_same rfl rfl
      · cases hs
  | done err m junk =>
      simp only at hs
      split at hs
      · rename_i t ht
        obtain rfl := Option.some.inj hs
        exact turn_done ht err m junk
      · cases hs

/-! ### Threads that do not move -/

theorem callStep_of_step {c : Call} {ok : Bool} (hs : σ.step (.call c ok) = some σ') :
    σ.callStep c ok = some σ' := by
  unfold step at hs
  split at hs
  · cases hs
  · simp only at hs
    split_ifs at hs
    exact hs

/-- **What a section leaves of the calls**: its own is gone or has moved on. -/
theorem calls_callStep {c : Call} {ok : Bool} (hs : σ.callStep c ok = some σ') :
    ∃ new : Multiset Call, σ'.calls = new + σ.calls.erase c ∧
      (c ≠ .compact → ∀ d ∈ new, d.init? = none) := by
  have hset : ∀ (τ : Sys) (c' : Call), τ.calls = σ.calls → (c ≠ .compact → c'.init? = none) →
      ∃ new : Multiset Call, (τ.setCall c c').calls = new + σ.calls.erase c ∧
        (c ≠ .compact → ∀ d ∈ new, d.init? = none) :=
    fun τ c' h hi => ⟨{c'}, by rw [← h]; rfl, fun hc => by simpa using hi hc⟩
  have hend : ∀ τ : Sys, τ.calls = σ.calls → ∃ new : Multiset Call,
      (τ.endCall c).calls = new + σ.calls.erase c ∧ (c ≠ .compact → ∀ d ∈ new, d.init? = none) :=
    fun τ h => ⟨0, by rw [← h, zero_add]; rfl, by simp⟩
  have hio : ∀ (τ : Sys) (io : IoCall) {st : Status}, τ.calls = σ.calls → ∃ new : Multiset Call,
      (τ.ioEnd c io st).calls = new + σ.calls.erase c ∧
        (c ≠ .compact → ∀ d ∈ new, d.init? = none) := by
    intro τ io st h
    unfold ioEnd
    split_ifs
    · exact ⟨{.flusher superMaxInflightJournal false none}, by rw [← h]; rfl, fun _ => by simp [Call.init?]⟩
    · exact hend τ h
  have hret : ∀ (τ : Sys) (file : Option ℕ), τ.calls = σ.calls → ∃ new : Multiset Call,
      (τ.flusherReturn c file).calls = new + σ.calls.erase c ∧
        (c ≠ .compact → ∀ d ∈ new, d.init? = none) := by
    intro τ file h
    unfold flusherReturn
    split
    · exact hset τ _ h fun _ => rfl
    · exact hend τ h
  cases c with
  | flusher min ondisk file =>
      obtain rfl := Option.some.inj hs
      unfold flusherStart
      simp only
      split_ifs
      · exact hend σ rfl
      · exact hret σ file rfl
      · exact hset σ _ rfl fun _ => rfl
      · exact hend σ rfl
  | flusherQueue ondisk file =>
      obtain rfl := Option.some.inj hs
      refine hret _ file ?_
      unfold queueFlusher
      simp only
      split <;> rfl
  | flushType file =>
      obtain rfl := Option.some.inj hs
      exact hend σ rfl
  | compact =>
      obtain rfl := Option.some.inj hs
      unfold compactStart
      simp only
      split
      · exact hend σ rfl
      · exact hset _ _ rfl fun hne => absurd rfl hne
  | compactInit endId =>
      obtain rfl := Option.some.inj hs
      unfold compactInit
      simp only
      split_ifs <;> exact hend σ rfl
  | read io =>
      obtain rfl := Option.some.inj hs
      unfold readLookup
      split
      · exact hend σ rfl
      · exact hset σ _ rfl fun _ => rfl
  | readHandler io arg =>
      obtain rfl := Option.some.inj hs
      unfold readReturn
      split_ifs
      · exact hend σ rfl
      · exact hset σ _ rfl fun _ => rfl
  | write io =>
      obtain ⟨f, -, rfl⟩ := Option.map_eq_some_iff.1 hs
      unfold writeLookup
      split
      · exact hio σ io rfl
      split
      · exact hset _ _ rfl fun _ => rfl
      split
      · split_ifs
        · exact hio σ io rfl
        · exact hset σ _ rfl fun _ => rfl
        · exact hset σ _ rfl fun _ => rfl
      · exact hset σ _ rfl fun _ => rfl
  | writeAlloc io parent =>
      obtain ⟨f, -, rfl⟩ := Option.map_eq_some_iff.1 hs
      unfold writeAlloc
      split
      · exact hio σ io rfl
      split
      · exact hio σ io rfl
      split
      · exact hset _ _ rfl fun _ => rfl
      split
      · exact hio σ io rfl
      split <;> exact hset _ _ rfl fun _ => rfl
  | writeHandler io arg epoch =>
      obtain rfl := Option.some.inj hs
      unfold writeReturn
      cases epoch with
      | none =>
          simp only
          split_ifs
          · exact hio σ io rfl
          · exact hset σ _ rfl fun _ => rfl
      | some w =>
          simp only
          split_ifs
          · exact hio _ io rfl
          · exact hset _ _ rfl fun _ => rfl
  | discard io =>
      obtain ⟨f, -, rfl⟩ := Option.map_eq_some_iff.1 hs
      unfold discardLookup
      split
      · exact hio σ io rfl
      · exact hset σ _ rfl fun _ => rfl
      · split_ifs
        · exact hset σ _ rfl fun _ => rfl
        · exact hio σ io rfl
  | discardLocked io =>
      obtain ⟨f, -, rfl⟩ := Option.map_eq_some_iff.1 hs
      unfold discardLocked
      split
      · exact hio σ io rfl
      · exact hset σ _ rfl fun _ => rfl
      · exact hset _ _ rfl fun _ => rfl
  | discardHandler io arg =>
      obtain rfl := Option.some.inj hs
      unfold discardReturn
      split_ifs
      · exact hio σ io rfl
      · exact hset σ _ rfl fun _ => rfl

/-- The section of a call takes the call itself away and no other. -/
theorem kept_callStep {c : Call} {ok : Bool} (hs : σ.callStep c ok = some σ') :
    σ.calls.erase c ≤ σ'.calls := by
  obtain ⟨new, hc, -⟩ := calls_callStep hs
  rw [hc]
  exact Multiset.le_add_left _ _

/-- What a callback leaves of the calls. -/
theorem calls_done (σ : Sys) (t : Task) (err m : Bool) (junk : Buf) :
    ∃ new : Multiset Call, (∀ d ∈ new, d.init? = none) ∧
      ({ σ with active := none }.runTask t err m junk).calls = new + σ.calls := by
  have hload : ∀ out, ({ σ with active := none }.loaded out).calls = σ.calls := by
    intro out
    cases out <;> rfl
  by_cases hloud : Loud t
  · cases t with
    | copy id i b src =>
        cases err with
        | true => exact ⟨0, by simp, (zero_add _).symm⟩
        | false => exact ⟨{.flusher superMaxInflightJournal false none}, by simp [Call.init?], rfl⟩
    | loadHeader | loadPage =>
        refine ⟨0, by simp, ?_⟩
        rw [zero_add]
        simp only [runTask]
        split
        · rfl
        · split_ifs <;> exact hload _
    | _ => exact hloud.elim
  · obtain ⟨new, hn, hc⟩ := (spawns_runTask { σ with active := none } hloud err m junk).calls
    exact ⟨new, fun d hd => (hn d hd).2, hc⟩

theorem kept_done (σ : Sys) (t : Task) (err m : Bool) (junk : Buf) :
    σ.calls ≤ ({ σ with active := none }.runTask t err m junk).calls := by
  obtain ⟨new, -, hc⟩ := calls_done σ t err m junk
  rw [hc]
  exact Multiset.le_add_left _ _

/-- **What a step leaves of the calls**, if it is not a section of one. -/
theorem calls_step {l : Label} (hs : σ.step l = some σ') (hl : ∀ c ok, l ≠ .call c ok) :
    ∃ new : Multiset Call, (∀ d ∈ new, d.init? = none) ∧ σ'.calls = new + σ.calls := by
  have hsame : σ'.calls = σ.calls → ∃ new : Multiset Call, (∀ d ∈ new, d.init? = none) ∧
      σ'.calls = new + σ.calls := fun h => ⟨0, by simp, by rw [h, zero_add]⟩
  have hadd : ∀ c : Call, c.init? = none → σ'.calls = c ::ₘ σ.calls →
      ∃ new : Multiset Call, (∀ d ∈ new, d.init? = none) ∧ σ'.calls = new + σ.calls :=
    fun c hc h => ⟨{c}, by simpa using hc, by rw [h, Multiset.singleton_add]⟩
  have hop : ∀ r, σ' = σ.metaOp r → ∃ new : Multiset Call, (∀ d ∈ new, d.init? = none) ∧
      σ'.calls = new + σ.calls := by
    rintro r rfl
    refine hadd (.flusher superMaxInflightJournal false none) rfl ?_
    unfold metaOp
    split <;> rfl
  unfold step at hs
  split at hs
  · cases hs
  cases l with
  | create name | fork fromId name | rename id name | truncate id size =>
      have hs := Option.some.inj hs
      split at hs
      all_goals first | exact hop _ hs.symm | exact hsame (by rw [hs])
  | delete id => exact hop _ (Option.some.inj hs).symm
  | «open» id write =>
      obtain rfl := Option.some.inj hs
      refine hsame ?_
      split <;> rfl
  | close id =>
      simp only at hs
      split at hs
      · cases hs
      split_ifs at hs
      obtain rfl := Option.some.inj hs
      exact hsame rfl
  | superFlush ondisk | flush file | compact =>
      obtain rfl := Option.some.inj hs
      exact hadd _ rfl rfl
  | read file off len =>
      simp only at hs
      split at hs
      · cases hs
      split_ifs at hs
      · obtain rfl := Option.some.inj hs
        exact hadd _ rfl rfl
      · obtain rfl := Option.some.inj hs
        exact hsame rfl
  | write file off len | discard file off len =>
      simp only at hs
      split at hs
      · cases hs
      have hs := Option.some.inj hs
      split_ifs at hs
      · exact hadd _ rfl (by rw [← hs]; rfl)
      · exact hsame (by rw [hs])
  | requeue file =>
      obtain rfl := Option.some.inj hs
      exact hsame rfl
  | call c ok => exact absurd rfl (hl c ok)
  | handlerWrite c start len data =>
      simp only at hs
      split at hs
      · split_ifs at hs
        obtain rfl := Option.some.inj hs
        exact hsame rfl
      · cases hs
  | get =>
      simp only at hs
      split at hs
      · obtain rfl := Option.some.inj hs
        exact hsame rfl
      · cases hs
  | done err m junk =>
      simp only at hs
      split at hs
      · rename_i t ht
        obtain rfl := Option.some.inj hs
        exact calls_done σ t err m junk
      · cases hs

/-- **A step moves the thread of its label and no other.** -/
theorem kept_step {l : Label} {d : Call} (hs : σ.step l = some σ') (hd : d ∈ σ.calls)
    (hl : ∀ ok, l ≠ .call d ok) : d ∈ σ'.calls := by
  by_cases hcall : ∃ c ok, l = .call c ok
  · obtain ⟨c, ok, rfl⟩ := hcall
    have hne : d ≠ c := by
      rintro rfl
      exact hl ok rfl
    exact Multiset.mem_of_le (kept_callStep (callStep_of_step hs))
      ((Multiset.mem_erase_of_ne hne).2 hd)
  · obtain ⟨new, -, hc⟩ := calls_step hs fun c ok h => hcall ⟨c, ok, h⟩
    rw [hc]
    exact Multiset.mem_add.2 (.inr hd)

/-- The extents up to which a compaction is about to start. -/
def inits (σ : Sys) : Multiset ℕ := σ.calls.filterMap Call.init?

theorem filterMap_init_of_none {cs : Multiset Call} (h : ∀ c ∈ cs, c.init? = none) :
    cs.filterMap Call.init? = 0 := by
  rw [Multiset.eq_zero_iff_forall_notMem]
  intro e he
  obtain ⟨c, hc, hce⟩ := (Multiset.mem_filterMap _ _).1 he
  rw [h c hc] at hce
  cases hce

/-- Only `cyanfs_super_compact` itself changes what is about to start. -/
theorem inits_step {l : Label} (hs : σ.step l = some σ') (hc : ∀ ok, l ≠ .call .compact ok)
    (hi : ∀ e ok, l ≠ .call (.compactInit e) ok) : σ'.inits = σ.inits := by
  by_cases hcall : ∃ c ok, l = .call c ok
  · obtain ⟨c, ok, rfl⟩ := hcall
    have hmem : c ∈ σ.calls := by
      unfold step at hs
      split at hs
      · cases hs
      · simp only at hs
        split_ifs at hs with hmem
        exact hmem
    have hnone : c.init? = none := by
      cases c with
      | compactInit e => exact absurd rfl (hi e ok)
      | _ => rfl
    obtain ⟨new, hcalls, hnew⟩ := calls_callStep (callStep_of_step hs)
    have hne : c ≠ .compact := fun h => hc ok (by rw [h])
    rw [inits, hcalls, Multiset.filterMap_add, filterMap_init_of_none (hnew hne), zero_add, inits]
    conv_rhs => rw [← Multiset.cons_erase hmem, Multiset.filterMap_cons_none _ _ hnone]
  · obtain ⟨new, hnew, hcalls⟩ := calls_step hs fun c ok h => hcall ⟨c, ok, h⟩
    rw [inits, hcalls, Multiset.filterMap_add, filterMap_init_of_none hnew, zero_add]
    rfl

end Sys

end Cyanfs
