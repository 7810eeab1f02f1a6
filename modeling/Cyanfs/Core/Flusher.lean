/-
# Flushers and the discard pipeline

`core/flusher.c`.  A flusher takes the entries of `journal_head` and the extents
in `unused_extents`, writes the entries, and passes the extents on to
`flush_extents`, from where a completed FLUSH retires them: to `free_extents`,
or through the discard pipeline when discards are enabled.
-/

import Cyanfs.Core.Sys
import Mathlib.Order.Interval.Finset.Nat

namespace Cyanfs

open Lib

namespace Super

variable (s : Super)

/-- The hand-over common to `..._before_flush` and `..._before_write_flush`:
the flusher's extents become `flush_extents` if that set is empty. -/
def handOver (unused : Finset ℕ) : Super × Finset ℕ :=
  if s.flush = ∅ ∧ unused ≠ ∅ then
    ({ s with flush := unused, writerCurrent := !s.writerCurrent }, ∅)
  else (s, unused)

/-- The length of the run of consecutive extents that starts at `n`, looking at
no more than `fuel` of them. -/
def runLen (X : Finset ℕ) (n : ℕ) : ℕ → ℕ
  | 0 => 0
  | fuel + 1 => if n ∈ X then runLen X (n + 1) fuel + 1 else 0

end Super

namespace Sys

variable (σ : Sys)

/-- `__cyanfs_super_discard_extent` for every extent of `X`, which have left
the set they were in. -/
def discardExtents (X : Finset ℕ) : Sys :=
  let s := σ.sup
  if X = ∅ then σ
  else if s.discardEnabled then
    let σ' := { σ with sup := { s with waitDiscard := s.waitDiscard ∪ X, discardWorking := true } }
    if s.discardWorking then σ' else σ'.addTail (.discard none)
  else { σ with sup := { s with free := s.free ∪ X, freeExtents := s.freeExtents + X.card } }

/-- `cyanfs_super_discard_extents_begin`. -/
def discardBegin : Sys :=
  let s := σ.sup
  match least s.waitDiscard with
  | none => { σ with sup := { s with discardWorking := false } }
  | some n =>
      let k := Super.runLen s.waitDiscard n s.waitDiscard.card
      let X := Finset.Ico n (n + k)
      { σ with sup := { s with waitDiscard := s.waitDiscard \ X, discard := s.discard ∪ X } }.addTail
        (.discard (some (mapExtentOffset n 0, k * extentSize)))

/-- `cyanfs_super_discard_extents_done`. -/
def discardDone : Sys :=
  let s := σ.sup
  { σ with sup := { s with
      free := s.free ∪ s.discard
      freeExtents := s.freeExtents + s.discard.card
      discard := ∅ } }.discardBegin

/-- `cyanfs_super_flusher_free`. -/
def flusherFree (fl : ℕ) (t : Flusher) : Sys :=
  let σ' := { σ with flushers := σ.flushers.erase fl }
  if t.unused = ∅ then σ'
  else { σ' with sup := { σ.sup with flushFlag := true, unused := σ.sup.unused ∪ t.unused } }

/-- `cyanfs_super_flusher_after_flush`. -/
def flusherAfterFlush (err : Bool) : Sys :=
  let s := σ.sup
  if err then { σ with sup := s.markError }
  else if s.error then σ
  else
    let σ' :=
      if s.flush = ∅ then σ
      else if s.writers (!s.writerCurrent) ≠ 0 then { σ with sup := { s with flushFlag := true } }
      else { σ with sup := { s with flush := ∅ } }.discardExtents s.flush
    { σ' with sup := { σ'.sup with
        cursor := { σ'.sup.cursor with extentIdOndisk := σ'.sup.cursor.extentIdFlush } } }

/-- `cyanfs_super_flusher_before_flush`. -/
def flusherBeforeFlush (fl : ℕ) (t : Flusher) : Sys :=
  if σ.sup.error then σ
  else
    let r := σ.sup.handOver t.unused
    { σ with
      sup := { r.1 with cursor := { r.1.cursor with extentIdFlush := r.1.cursor.extentId } }
      flushers := σ.flushers.insert fl { t with unused := r.2 } }.addHead (.after fl true)

/-- The WRITE of flusher `fl` turns into a NOP (`t->writer.base.type = CYANFS_TASK_NOP`). -/
def cancelTask (fl : ℕ) : Task → Task
  | .writer fl' io => .writer fl' (if fl' = fl then none else io)
  | t => t

/-- The same for a WRITE that is queued. -/
def cancelWrite (fl : ℕ) : Sys := { σ with queue := σ.queue.map (cancelTask fl) }

theorem filterMap_cancelTask {α : Type} (fl : ℕ) (q : List Task) (f : Task → Option α)
    (hf : ∀ fl' io, f (.writer fl' io) = f (.writer fl' none)) :
    (q.map (cancelTask fl)).filterMap f = q.filterMap f := by
  rw [List.filterMap_map]
  congr 1
  funext t
  cases t with
  | writer fl' io => exact (hf fl' _).trans (hf fl' io).symm
  | _ => rfl

/-- `cyanfs_super_flusher_before_write_flush_done`. -/
def flusherBeforeWriteFlushDone (fl : ℕ) (err : Bool) : Sys :=
  let σ' := if err then { σ with sup := σ.sup.markError } else σ
  if σ'.sup.error then σ'.cancelWrite fl else σ'

/-- `cyanfs_super_flusher_before_write_flush`. -/
def flusherBeforeWriteFlush (fl : ℕ) (t : Flusher) : Sys :=
  if σ.sup.error then σ.cancelWrite fl
  else
    let r := σ.sup.handOver t.unused
    { σ with
      sup := r.1
      flushers := σ.flushers.insert fl { t with unused := r.2 } }.addHead (.before fl true)

/-- `cyanfs_super_flusher_write_error`. -/
def flusherWriteError (fl : ℕ) (t : Flusher) : Sys :=
  { σ with
    sup := σ.sup.markError
    flushers := σ.flushers.insert fl { t with head := [] } }

/-- `cyanfs_super_flusher_write_finish` asks for a flush. -/
def wantFlush (s : Super) (t : Flusher) : Prop :=
  s.cursor.extentId ≠ s.cursor.extentIdOndisk ∨
    (t.flushBeforeWrite = true ∧ t.ondisk = false) ∨
    min (s.freeExtents / 1024) extentMaxInflight <
      s.totalExtents - s.dataExtents - s.journalExtents - s.freeExtents

/-- `cyanfs_super_flusher_write_finish` starts a compaction. -/
def wantCompact (s : Super) : Prop :=
  s.reservedExtents / 2 ≤ s.journalExtents ∧ s.compactWorking = false

instance (s : Super) (t : Flusher) : Decidable (wantFlush s t) := inferInstanceAs (Decidable (_ ∨ _))

instance (s : Super) : Decidable (wantCompact s) := inferInstanceAs (Decidable (_ ∧ _))

/-- `cyanfs_super_flusher_write_finish`. -/
def flusherWriteFinish (t : Flusher) : Sys :=
  let s := σ.sup
  let σ' := if wantFlush s t then { σ with sup := { s with flushFlag := true } } else σ
  if wantCompact s then σ'.addCall .compact else σ'

/-- `cyanfs_journal_writer_encode` as the done callback of a flusher's writer.
The record's WRITE goes to the head of the queue and, in front of it, the
`before` task if this is the first record with a marked entry. -/
def flusherEncode (fl : ℕ) (t : Flusher) (err : Bool) : Sys :=
  match writerEncode σ.sup σ.sup.cursor t.head none err with
  | .error s => { σ with sup := s }.flusherWriteError fl t
  | .finish => σ.flusherWriteFinish t
  | .write s c req flush rest =>
      let σ' := { σ with
        sup := { s with cursor := c }
        log := { σ.log with records := σ.log.records ++ [req.write] } }.addHead
          (.writer fl (some req))
      if flush ∧ t.flushBeforeWrite = false then
        { σ' with flushers :=
            σ'.flushers.insert fl { t with head := rest, flushBeforeWrite := true } }.addHead
          (.before fl false)
      else { σ' with flushers := σ'.flushers.insert fl { t with head := rest } }

/-- `cyanfs_super_flusher_start` returns without an error; a `cyanfs_flush` then
looks at the queue. -/
def flusherReturn (c : Call) (file : Option ℕ) : Sys :=
  match file with
  | some f => σ.setCall c (.flushType f)
  | none => σ.endCall c

/-- The first section of `cyanfs_super_flusher_start` and the allocation behind
it; `c` is the call. -/
def flusherStart (c : Call) (min : ℕ) (ondisk : Bool) (file : Option ℕ) (malloc : Bool) : Sys :=
  let s := σ.sup
  let ondisk := ondisk || s.flushFlag
  if s.ensureStatus ≠ none then σ.endCall c
  else if s.journalCount ≤ min ∧ ondisk = false then σ.flusherReturn c file
  else if malloc then σ.setCall c (.flusherQueue ondisk file)
  else σ.endCall c

/-- The second section of `cyanfs_super_flusher_start`. -/
def queueFlusher (ondisk : Bool) : Sys :=
  let s := σ.sup
  let fl := σ.nextFlusher
  let journal := s.journalHead ≠ []
  if ondisk = false ∧ ¬ journal then σ
  else
    { σ with
      sup := { s with
        unused := ∅
        journalHead := []
        journalCount := if journal then 0 else s.journalCount
        flushFlag := if ondisk then false else s.flushFlag }
      flushers := σ.flushers.insert fl ⟨false, ondisk, s.unused, s.journalHead⟩
      nextFlusher := fl + 1
      queue := σ.queue ++ ((if journal then [.writer fl none] else []) ++
        ((if ondisk then [.after fl false] else []) ++ [.free fl])) }

/-- The second section and the return of `cyanfs_super_flusher_start`. -/
def flusherQueue (c : Call) (ondisk : Bool) (file : Option ℕ) : Sys :=
  (σ.queueFlusher ondisk).flusherReturn c file

end Sys

end Cyanfs
