/-
# The transition system

`Sys.step` is one atomic step of a run: a public call enters, a call in progress
takes its next lock section, a handler writes to the disk or returns, the
executor takes a task off the queue, or it completes the task it runs
(`cyanfs_super_get_task`, `cyanfs_super_task_done`).

The executor is serial, as `core.h` demands: it takes a task only when none is
active.  Completing a task performs its I/O and runs its `done` callback.  A
callback's own lock sections do not read what other threads change between
them, so the callback is one step; the calls it makes to
`cyanfs_super_flusher_start` and `cyanfs_super_compact` are calls in progress
like those of any thread.

The contract of `core.h` is part of the step function: a file is closed only
when no call and no requeue callback of it is left.
-/

import Cyanfs.Core.ReadWrite

namespace Cyanfs

open Lib

/-- What can happen next. -/
inductive Label where
  | create (name : FileName)
  | fork (fromId : ℕ) (name : FileName)
  | rename (id : ℕ) (name : FileName)
  | truncate (id size : ℕ)
  | delete (id : ℕ)
  | open (id : ℕ) (write : Bool)
  | close (id : ℕ)
  | superFlush (ondisk : Bool)
  | flush (file : ℕ)
  | compact
  | read (file off len : ℕ)
  | write (file off len : ℕ)
  | discard (file off len : ℕ)
  | requeue (file : ℕ)
  /-- a call takes its next section; `ok` is the result of the allocations in
  it or of the handler -/
  | call (c : Call) (ok : Bool)
  /-- the handler of a write stores `len` bytes from `start` of its piece on -/
  | handlerWrite (c : Call) (start len : ℕ) (data : Buf)
  /-- `cyanfs_super_get_task` -/
  | get
  /-- the active task completes; `junk` is what a failed write and a discard
  leave on the disk -/
  | done (err malloc : Bool) (junk : Buf)

namespace Sys

variable (σ : Sys)

/-- A locked metadata operation and the `cyanfs_super_flush_new_journal` that
follows it in either case. -/
def metaOp (r : Except Err Super) : Sys :=
  match r with
  | .ok s => (σ.commit s).flushNewJournal
  | .error _ => σ.flushNewJournal

/-- The contract of `cyanfs_close` for a file that is open: the calls left on it
belong to other readers that have it open. -/
def closable (f : File) : Prop :=
  (∀ c ∈ σ.calls, c.file? = some f.id → f.openType = .readonly ∧ 1 < f.reader) ∧
    ∀ t ∈ σ.tasks, (match t with | .requeue id => decide (id ≠ f.id) | _ => true) = true

instance (f : File) : Decidable (σ.closable f) := inferInstanceAs (Decidable (_ ∧ _))

/-- The range check of `cyanfs_read`, `cyanfs_write` and `cyanfs_discard`. -/
def rangeOk (f : File) (off len : ℕ) : Prop := len ≠ 0 ∧ off ≤ f.size ∧ len ≤ f.size - off

instance (f : File) (off len : ℕ) : Decidable (rangeOk f off len) :=
  inferInstanceAs (Decidable (_ ∧ _))

/-- The next section of a call. -/
def callStep (c : Call) (ok : Bool) : Option Sys :=
  match c with
  | .flusher min ondisk file => some (σ.flusherStart c min ondisk file ok)
  | .flusherQueue ondisk file => some (σ.flusherQueue c ondisk file)
  | .flushType _ => some (σ.endCall c)
  | .compact => some (σ.compactStart c)
  | .compactInit endId => some (σ.compactInit c endId ok)
  | .read io => some (σ.readLookup c io)
  | .readHandler io arg => some (σ.readReturn c io arg ok)
  | .write io => (σ.sup.filesById[io.file]?).map fun f => σ.writeLookup c io f
  | .writeAlloc io parent =>
      (σ.sup.filesById[io.file]?).map fun f => σ.writeAlloc c io f parent ok
  | .writeHandler io arg epoch => some (σ.writeReturn c io arg epoch ok)
  | .discard io => (σ.sup.filesById[io.file]?).map fun f => σ.discardLookup c io f ok
  | .discardLocked io => (σ.sup.filesById[io.file]?).map fun f => σ.discardLocked c io f
  | .discardHandler io _ => some (σ.discardReturn c io ok)

/-- A WRITE reaches the disk; one that fails leaves anything in its range. -/
def ioWrite (w : DiskWrite) (err : Bool) (junk : Buf) : Sys :=
  { σ with disk := σ.disk.write (if err then { w with data := junk } else w) }

/-- A FLUSH completes. -/
def ioFlush (err : Bool) : Sys :=
  if err then σ
  else { σ with disk := σ.disk.flush, log := { σ.log with durable := σ.log.written.length } }

/-- The WRITE of a flusher's record completes. -/
def ioRecord (req : WriteReq) (err : Bool) (junk : Buf) : Sys :=
  let σ := σ.ioWrite req.write err junk
  if err then σ else { σ with log := { σ.log with written := σ.log.written ++ req.entries } }

/-- What the mount does with the end of a loader callback
(`cyanfs_super_open_finish`, `cyanfs_super_open_error`). -/
def loaded : LoaderOut → Sys
  | .readPage l X => { σ with sup := X, loader := some l }.addTail .loadPage
  | .finish l X =>
      { σ with
        sup := { X with
          ready := true
          uuid := l.header.uuid
          cursor := { X.cursor with extentIdOndisk := X.cursor.extentId } }
        loader := none }
  | .error X => { σ with sup := X.markError, loader := none }

/-- The active task `t` completes: its I/O and its `done` callback. -/
def runTask (t : Task) (err malloc : Bool) (junk : Buf) : Sys :=
  match t with
  | .writer fl io =>
      match σ.flushers[fl]? with
      | none => σ
      | some t =>
          match io with
          | some req => (σ.ioRecord req err junk).flusherEncode fl t err
          | none => σ.flusherEncode fl t false
  | .before fl flush =>
      match σ.flushers[fl]? with
      | none => σ
      | some t =>
          if flush then (σ.ioFlush err).flusherBeforeWriteFlushDone fl err
          else σ.flusherBeforeWriteFlush fl t
  | .after fl flush =>
      match σ.flushers[fl]? with
      | none => σ
      | some t =>
          if flush then (σ.ioFlush err).flusherAfterFlush err else σ.flusherBeforeFlush fl t
  | .free fl =>
      match σ.flushers[fl]? with
      | none => σ
      | some t => σ.flusherFree fl t
  | .copy file i b src =>
      (σ.ioWrite ⟨mapExtentOffset b 0, extentSize, fun a => σ.disk.view (mapExtentOffset src 0 + a)⟩
        err junk).copyDone file i b err
  | .discard none => σ.discardBegin
  | .discard (some (off, len)) => (σ.ioWrite ⟨off, len, junk⟩ false junk).discardDone
  | .loadHeader =>
      match σ.loader with
      | none => σ
      | some l =>
          if err then σ.loaded (.error σ.sup)
          else σ.loaded (l.parserHeader σ.sup malloc σ.disk.view)
  | .loadPage =>
      match σ.loader with
      | none => σ
      | some l =>
          if err then σ.loaded (.error σ.sup)
          else σ.loaded (l.parserPage σ.sup malloc σ.disk.view)
  | .compactHeader =>
      match σ.compact with
      | none => σ
      | some t =>
          if err then σ.compactError
          else σ.compactLoaded t malloc (t.loader.parserHeader t.priv malloc σ.disk.view)
  | .compactPage =>
      match σ.compact with
      | none => σ
      | some t =>
          if err then σ.compactError
          else σ.compactLoaded t malloc (t.loader.parserPage t.priv malloc σ.disk.view)
  | .compactWriter io =>
      match σ.compact with
      | none => σ
      | some t =>
          match io with
          | some req => (σ.ioWrite req.write err junk).compactEncode t err
          | none => σ.compactEncode t false
  | .compactWriteSuper flush =>
      match σ.compact with
      | none => σ
      | some t =>
          if flush then (σ.ioFlush err).compactWriteSuper t err else σ.compactWriteSuper t false
  | .compactFlushSuper req => (σ.ioWrite req.write err junk).compactFlushSuper err
  | .compactFinish =>
      match σ.compact with
      | none => σ
      | some t => (σ.ioFlush err).compactFinish t err
  | .requeue _ => σ

/-- One step. -/
def step (l : Label) : Option Sys :=
  if σ.sup.bug ≠ none then none
  else
    match l with
    | .create name => some (match name.normalize with
        | none => σ
        | some name => σ.metaOp (σ.sup.create name))
    | .fork fromId name => some (match name.normalize with
        | none => σ
        | some name => σ.metaOp (σ.sup.fork fromId name))
    | .rename id name => some (match name.normalize with
        | none => σ
        | some name => σ.metaOp (σ.sup.rename id name))
    | .truncate id size => some (if sizeValid size then σ.metaOp (σ.sup.truncate id size) else σ)
    | .delete id => some (σ.metaOp (σ.sup.delete id))
    | .open id write => some (match σ.sup.openFile id write with
        | .ok s => { σ with sup := s }
        | .error _ => σ)
    | .close id =>
        match σ.sup.filesById[id]? with
        | none => none
        | some f => if σ.closable f then some { σ with sup := σ.sup.closeFile f } else none
    | .superFlush ondisk => some (σ.addCall (.flusher 0 ondisk none))
    | .flush file => some (σ.addCall (.flusher 0 false (some file)))
    | .compact => some (σ.addCall .compact)
    | .read file off len =>
        match σ.sup.filesById[file]? with
        | none => none
        | some f =>
            if f.openType = .closed then none
            else some (if rangeOk f off len then σ.addCall (.read ⟨file, off, len, false⟩) else σ)
    | .write file off len =>
        match σ.sup.filesById[file]? with
        | none => none
        | some f => some (if f.openType = .readwrite ∧ rangeOk f off len then
            σ.addCall (.write ⟨file, off, len, false⟩) else σ)
    | .discard file off len =>
        match σ.sup.filesById[file]? with
        | none => none
        | some f => some (if f.openType = .readwrite ∧ rangeOk f off len then
            σ.addCall (.discard ⟨file, off, len, false⟩) else σ)
    | .requeue file => some (σ.addTail (.requeue file))
    | .call c ok => if c ∈ σ.calls then σ.callStep c ok else none
    | .handlerWrite c start len data =>
        match c with
        | .writeHandler io (.submit bOff) _ =>
            if c ∈ σ.calls ∧ start + len ≤ io.space then
              some { σ with disk := σ.disk.write ⟨bOff + start, len, data⟩ }
            else none
        | _ => none
    | .get =>
        match σ.active, σ.queue with
        | none, t :: q => some { σ with active := some t, queue := q }
        | _, _ => none
    | .done err malloc junk =>
        match σ.active with
        | some t => some ({ σ with active := none }.runTask t err malloc junk)
        | none => none

/-- `cyanfs_super_close`, which no step follows; the nodes of all sets are freed with the
entries that are left. -/
def superClose : Super :=
  if σ.sup.bug ≠ none then σ.sup
  else if σ.tasks.isEmpty = false then { σ.sup with bug := some .closeBusy }
  else if σ.sup.filesById.toList.any (fun x => x.2.openType ≠ .closed) then
    { σ.sup with bug := some .closeOpen }
  else
    { σ.sup.deleteFiles with
      journalHead := []
      discard := ∅
      waitDiscard := ∅
      unused := ∅
      flush := ∅
      journal := ∅
      free := ∅ }

/-- A run of the given labels. -/
def run : Sys → List Label → Option Sys
  | σ, [] => some σ
  | σ, l :: ls => (σ.step l).bind fun σ => run σ ls

/-- Reachable from `σ₀`. -/
def Reachable (σ₀ σ : Sys) : Prop := ∃ ls, σ₀.run ls = some σ

end Sys

end Cyanfs
