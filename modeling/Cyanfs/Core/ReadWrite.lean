/-
# Reading, writing and discarding

`core/readwrite.c`: the lock sections of `cyanfs_read`, `cyanfs_write` and
`cyanfs_discard`, the copy-on-write task, `cyanfs_flush` and `cyanfs_requeue`.

Each function below is one section of a call `c` that is in progress, up to the
next point where the thread holds no lock.  A write that finds its extent (or
allocates it) counts itself in the current writer epoch until its handler has
returned.
-/

import Cyanfs.Core.Compact

namespace Cyanfs

open Lib

/-- The handler call for an extent at offset `fOff`. -/
def HandlerArg.of (e : Extent) (fOff : ℕ) : HandlerArg :=
  if e.error then .ioError
  else if e.pending then .requeue
  else .submit (mapExtentOffset e.backend fOff)

/-- The status of a handler; `ok` tells whether it returned 0. -/
def Status.ofHandler (ok : Bool) : Status := if ok then .ok else .handler

/-- The status of a piece. -/
def HandlerArg.status (arg : HandlerArg) (ok : Bool) : Status :=
  if arg = .ioError then .err .io else .ofHandler ok

theorem HandlerArg.status_eq_ok {arg : HandlerArg} {ok : Bool} :
    arg.status ok = .ok ↔ arg ≠ .ioError ∧ ok = true := by
  unfold status Status.ofHandler
  split_ifs <;> simp_all

/-- The loop variables behind the current piece. -/
def IoCall.advance (io : IoCall) : IoCall :=
  { io with off := io.off + io.space, len := io.len - io.space }

namespace Sys

variable (σ : Sys)

/-- The end of `cyanfs_write` and `cyanfs_discard`. -/
def ioEnd (c : Call) (io : IoCall) (st : Status) : Sys :=
  if io.newJournal then (σ.returnCall c st).flushNewJournal else σ.returnCall c st

/-! ### `cyanfs_read` -/

/-- The section of `cyanfs_read`. -/
def readLookup (c : Call) (io : IoCall) : Sys :=
  match σ.sup.ensureStatus with
  | some err => σ.returnCall c (.err err)
  | none =>
      σ.setCall c (.readHandler io
        (match σ.sup.findExtentFollow (some io.file) io.off with
          | some e => .of e io.off
          | none => .nop))

/-- The handler of `cyanfs_read` has returned. -/
def readReturn (c : Call) (io : IoCall) (arg : HandlerArg) (ok : Bool) : Sys :=
  if arg.status ok ≠ .ok ∨ io.advance.len = 0 then σ.returnCall c (arg.status ok)
  else σ.setCall c (.read io.advance)

/-! ### `cyanfs_write` -/

/-- The label `mapped` of `cyanfs_write`: the writer counts itself and calls its
handler. -/
def writeMapped (c : Call) (io : IoCall) (e : Extent) : Sys :=
  let s := σ.sup
  { σ with sup := { s with
      writers := Function.update s.writers s.writerCurrent (s.writers s.writerCurrent + 1) } }.setCall
    c (.writeHandler io (.of e io.off) (some s.writerCurrent))

/-- The read-locked section of `cyanfs_write`. -/
def writeLookup (c : Call) (io : IoCall) (f : File) : Sys :=
  match σ.sup.ensureStatus with
  | some err => σ.ioEnd c io (.err err)
  | none =>
      match f.findExtent io.off with
      | some e => σ.writeMapped c io e
      | none =>
          match σ.sup.findExtentFollow f.parent io.off with
          | some p =>
              if p.error then σ.ioEnd c io (.err .io)
              else if p.pending then σ.setCall c (.writeHandler io .requeue none)
              else σ.setCall c (.writeAlloc io (some p.backend))
          | none => σ.setCall c (.writeAlloc io none)

/-- The allocations of `cyanfs_write` and the write-locked section behind them. -/
def writeAlloc (c : Call) (io : IoCall) (f : File) (parent : Option ℕ) (malloc : Bool) : Sys :=
  if malloc = false then σ.ioEnd c io (.err .nomem)
  else
    match σ.sup.ensureStatus with
    | some err => σ.ioEnd c io (.err err)
    | none =>
        match f.findExtent io.off with
        | some e => σ.writeMapped c io e
        | none =>
            match σ.sup.allocExtent f io.off with
            | none => σ.ioEnd c io (.err .nospace)
            | some (s, i, b) =>
                match parent with
                | some src =>
                    let s := s.updFile f.id fun f => f.markExtent i fun e => { e with pending := true }
                    ({ σ with sup := s }.addTail (.copy f.id i b src)).writeMapped c io ⟨b, true, false⟩
                | none =>
                    (σ.commit (s.append ⟨.bind f.id i b, false⟩)).writeMapped c
                      { io with newJournal := true } ⟨b, false, false⟩

/-- The handler of `cyanfs_write` has returned. -/
def writeReturn (c : Call) (io : IoCall) (arg : HandlerArg) (epoch : Option Bool) (ok : Bool) : Sys :=
  let s := σ.sup
  let σ := match epoch with
    | some w => { σ with sup := { s with writers := Function.update s.writers w (s.writers w - 1) } }
    | none => σ
  if arg.status ok ≠ .ok ∨ io.advance.len = 0 then σ.ioEnd c io (arg.status ok)
  else σ.setCall c (.write io.advance)

/-- `cyanfs_task_copy_on_write_done`. -/
def copyDone (file i b : ℕ) (err : Bool) : Sys :=
  let s := σ.sup.updFile file fun f =>
    f.markExtent i fun e => { e with pending := false, error := e.error || err }
  if err then { σ with sup := s }
  else (σ.commit (s.append ⟨.bind file i b, true⟩)).flushNewJournal

/-! ### `cyanfs_discard` -/

/-- What a section of `cyanfs_discard` finds. -/
inductive DiscardCase where
  | fail (err : Err) | handler (arg : HandlerArg) | unmap (i : ℕ)

/-- The checks that both sections of `cyanfs_discard` make. -/
def discardCase (io : IoCall) (f : File) : DiscardCase :=
  match σ.sup.ensureStatus with
  | some err => .fail err
  | none =>
      if extentBegin (extentFrom io.off) ≠ io.off ∨ io.space < extentSize then .handler .nop
      else if (σ.sup.findExtentFollow f.parent io.off).isSome then .handler .nop
      else
        match f.findExtent io.off with
        | none => .handler .nop
        | some e =>
            if e.error then .fail .io
            else if e.pending then .handler .requeue
            else .unmap (fileIndex (extentFrom io.off))

/-- The read-locked section of `cyanfs_discard` and the allocation behind it. -/
def discardLookup (c : Call) (io : IoCall) (f : File) (malloc : Bool) : Sys :=
  match σ.discardCase io f with
  | .fail err => σ.ioEnd c io (.err err)
  | .handler arg => σ.setCall c (.discardHandler io arg)
  | .unmap _ =>
      if malloc then σ.setCall c (.discardLocked { io with newJournal := true })
      else σ.ioEnd c io (.err .nomem)

/-- The write-locked section of `cyanfs_discard`. -/
def discardLocked (c : Call) (io : IoCall) (f : File) : Sys :=
  match σ.discardCase io f with
  | .fail err => σ.ioEnd c io (.err err)
  | .handler arg => σ.setCall c (.discardHandler io arg)
  | .unmap i =>
      (σ.commit ((σ.sup.unmapExtent f.id i).append ⟨.unbind f.id (extentFrom io.off), true⟩)).setCall
        c (.discardHandler io .nop)

/-- The handler of `cyanfs_discard` has returned. -/
def discardReturn (c : Call) (io : IoCall) (ok : Bool) : Sys :=
  if ok = false ∨ io.advance.len = 0 then σ.ioEnd c io (.ofHandler ok)
  else σ.setCall c (.discard io.advance)

end Sys

end Cyanfs
