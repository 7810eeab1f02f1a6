/-
# The state of a running file system

One mounted super with everything that acts on it: the task queue and the task
the executor is running, the flusher and compaction objects the tasks belong
to, the calls of the public interface that are in progress, and the disk.

A call is split at its lock sections: `Call` lists the points at which a thread
can be between two sections, with the local variables that survive there.  A
task is what `struct cyanfs_task` is embedded in, together with its type; a
flusher, for example, owns the tasks `writer`, `before`, `after` and `free`.

The disk has a volatile cache: a completed write is seen by every later read
but is on stable storage only after a completed flush.  `Log` holds history
variables that no modelled function reads.
-/

import Cyanfs.Core.Journal
import Mathlib.Data.Multiset.AddSub
import Mathlib.Data.Multiset.Count
import Mathlib.Data.Finset.Sort

namespace Cyanfs

open Lib Std

/-! ### The disk -/

/-- A write of `len` bytes at `off`. -/
structure DiskWrite where
  off : ℕ
  len : ℕ
  data : Buf

/-- The disk write that a WRITE task asks for. -/
def WriteReq.write (r : WriteReq) : DiskWrite := ⟨r.off, r.len, r.data⟩

/-- Stable storage and the completed writes that are not flushed yet. -/
structure Disk where
  stable : Buf
  cache : List DiskWrite

namespace Disk

/-- What a read sees. -/
def view (d : Disk) : Buf := d.cache.foldl (fun g w => g.patch w.off w.len w.data) d.stable

/-- A completed write. -/
def write (d : Disk) (w : DiskWrite) : Disk := { d with cache := d.cache ++ [w] }

/-- A completed flush. -/
def flush (d : Disk) : Disk := ⟨d.view, []⟩

@[simp] theorem view_write (d : Disk) (w : DiskWrite) :
    (d.write w).view = d.view.patch w.off w.len w.data := by
  simp [write, view, List.foldl_append]

@[simp] theorem view_flush (d : Disk) : d.flush.view = d.view := rfl

end Disk

/-! ### Tasks -/

/-- `struct cyanfs_task_super_flusher`: `head` is `writer.head`. -/
structure Flusher where
  flushBeforeWrite : Bool
  ondisk : Bool
  unused : Finset ℕ
  head : List JEntry

/-- `struct cyanfs_task_journal_compact`: `priv` is the private super
`t->compact`, `head` and `nextId` belong to `t->writer`. -/
structure Compact where
  loader : Loader
  priv : Super
  head : List JEntry
  nextId : Option ℕ
  header : SuperHeader

/-- The tasks of the core, by the structure they are embedded in.  An optional
request tells WRITE or DISCARD from NOP, a Boolean tells FLUSH from NOP. -/
inductive Task where
  /-- `t->writer.base` of a flusher, done by `cyanfs_journal_writer_encode` -/
  | writer (fl : ℕ) (io : Option WriteReq)
  /-- `t->before`, done by `..._before_write_flush` or, as a FLUSH, by
  `..._before_write_flush_done` -/
  | before (fl : ℕ) (flush : Bool)
  /-- `t->after`, done by `..._before_flush` or, as a FLUSH, by `..._after_flush` -/
  | after (fl : ℕ) (flush : Bool)
  /-- `t->free`, done by `cyanfs_super_flusher_free` -/
  | free (fl : ℕ)
  /-- a COPY with the BIND entry it holds back -/
  | copy (file index backend src : ℕ)
  /-- `s->discard_task`: NOP, or DISCARD of a byte range -/
  | discard (io : Option (ℕ × ℕ))
  /-- the READ tasks of the mount -/
  | loadHeader
  | loadPage
  /-- the READ tasks of a compaction -/
  | compactHeader
  | compactPage
  /-- `t->writer.base` of a compaction -/
  | compactWriter (io : Option WriteReq)
  /-- done by `cyanfs_journal_compact_write_super` -/
  | compactWriteSuper (flush : Bool)
  /-- the WRITE of the super header, done by `cyanfs_journal_compact_flush_super` -/
  | compactFlushSuper (io : WriteReq)
  /-- the last FLUSH, done by `cyanfs_journal_compact_finish` -/
  | compactFinish
  /-- a requeue callback of a file -/
  | requeue (file : ℕ)

/-- `cyanfs_task_type_t`. -/
inductive TaskType where
  | nop | read | write | copy | flush | discard | requeue
deriving DecidableEq

/-- The type that an executor sees. -/
def Task.type : Task → TaskType
  | .writer _ io | .compactWriter io => if io.isSome then .write else .nop
  | .before _ flush | .after _ flush | .compactWriteSuper flush => if flush then .flush else .nop
  | .free _ => .nop
  | .copy _ _ _ _ => .copy
  | .discard io => if io.isSome then .discard else .nop
  | .loadHeader | .loadPage | .compactHeader | .compactPage => .read
  | .compactFlushSuper _ => .write
  | .compactFinish => .flush
  | .requeue _ => .requeue

/-! ### Calls in progress -/

/-- The loop variables of `cyanfs_read`, `cyanfs_write` and `cyanfs_discard`. -/
structure IoCall where
  file : ℕ
  off : ℕ
  len : ℕ
  newJournal : Bool
deriving DecidableEq

/-- The length of the current piece. -/
def IoCall.space (io : IoCall) : ℕ := mapExtentSpace io.off io.len

/-- What the handler is called with; `ioError` when it is not called because
the extent has its error mark set. -/
inductive HandlerArg where
  | nop | submit (bOff : ℕ) | requeue | ioError
deriving DecidableEq

/-- A thread inside a call, between two lock sections. -/
inductive Call where
  /-- `cyanfs_super_flusher_start` before its first section; `file` is set when
  the call comes from `cyanfs_flush` -/
  | flusher (min : ℕ) (ondisk : Bool) (file : Option ℕ)
  /-- `cyanfs_super_flusher_start` before its second section -/
  | flusherQueue (ondisk : Bool) (file : Option ℕ)
  /-- `cyanfs_flush` before it looks at the queue -/
  | flushType (file : ℕ)
  /-- `cyanfs_super_compact` before its section -/
  | compact
  /-- `cyanfs_super_compact` before it queues the loader -/
  | compactInit (endId : ℕ)
  /-- `cyanfs_read` before its section, and with its handler -/
  | read (io : IoCall)
  | readHandler (io : IoCall) (arg : HandlerArg)
  /-- `cyanfs_write` before the read-locked section -/
  | write (io : IoCall)
  /-- `cyanfs_write` before the write-locked section, with `parent_b_id` -/
  | writeAlloc (io : IoCall) (parent : Option ℕ)
  /-- `cyanfs_write` with its handler and the epoch it counts in -/
  | writeHandler (io : IoCall) (arg : HandlerArg) (epoch : Option Bool)
  /-- `cyanfs_discard` before the read-locked and the write-locked section, and
  with its handler -/
  | discard (io : IoCall)
  | discardLocked (io : IoCall)
  | discardHandler (io : IoCall) (arg : HandlerArg)
deriving DecidableEq

namespace Call

/-- The file of a call that works on its extents. -/
def file? : Call → Option ℕ
  | read io | readHandler io _ | write io | writeAlloc io _ | writeHandler io _ _
  | discard io | discardLocked io | discardHandler io _ => some io.file
  | _ => none

/-- The call is a `cyanfs_read`. -/
def isRead : Call → Bool
  | read _ | readHandler _ _ => true
  | _ => false

end Call

/-! ### The whole state -/

/-- What a thread returns from `cyanfs_read`, `cyanfs_write` or `cyanfs_discard`. -/
inductive Status where
  | ok
  /-- an error of the call itself -/
  | err (e : Err)
  /-- the error that its handler has returned -/
  | handler
deriving DecidableEq

/-- History of a run. -/
structure Log where
  /-- every entry appended to `journal_head`, in order -/
  appended : List Entry
  /-- the entries of the flusher records whose WRITE completed, in order -/
  written : List Entry
  /-- how many entries were written when the last FLUSH completed -/
  durable : ℕ
  /-- the position in `appended` of the entry that took an extent from a file -/
  released : ℕ → Option ℕ
  /-- the WRITE tasks of journal records -/
  records : List DiskWrite
  /-- the WRITE tasks of super headers -/
  headers : List DiskWrite
  /-- the returns from `cyanfs_read`, `cyanfs_write` and `cyanfs_discard`, each with
  the section behind which the thread has returned -/
  returned : List (Call × Status)

/-- A super, its executor, its callers and its disk. -/
structure Sys where
  sup : Super
  queue : List Task
  active : Option Task
  flushers : ExtTreeMap ℕ Flusher
  nextFlusher : ℕ
  loader : Option Loader
  compact : Option Compact
  calls : Multiset Call
  disk : Disk
  log : Log

namespace Sys

variable (σ : Sys)

/-- The tasks in the order in which the executor gets through them. -/
def tasks : List Task := σ.active.toList ++ σ.queue

/-- `cyanfs_super_task_add_tail`. -/
def addTail (t : Task) : Sys := { σ with queue := σ.queue ++ [t] }

/-- `cyanfs_super_task_add_head`. -/
def addHead (t : Task) : Sys := { σ with queue := t :: σ.queue }

/-- A thread enters a call. -/
def addCall (c : Call) : Sys := { σ with calls := c ::ₘ σ.calls }

/-- A thread moves on inside a call. -/
def setCall (c c' : Call) : Sys := { σ with calls := c' ::ₘ σ.calls.erase c }

/-- A thread returns. -/
def endCall (c : Call) : Sys := { σ with calls := σ.calls.erase c }

/-- A thread returns `st` from `cyanfs_read`, `cyanfs_write` or `cyanfs_discard`. -/
def returnCall (c : Call) (st : Status) : Sys :=
  { σ.endCall c with log := { σ.log with returned := σ.log.returned ++ [(c, st)] } }

/-- The result of a locked section that may append entries and unmap extents,
with the history that goes with it. -/
def commit (s : Super) : Sys :=
  { σ with
    sup := s
    log := { σ.log with
      appended := σ.log.appended ++
        (s.journalHead.drop σ.sup.journalHead.length).map (·.entry)
      released := fun b =>
        if b ∈ s.unused ∧ b ∉ σ.sup.unused then some σ.log.appended.length
        else σ.log.released b } }

/-- `cyanfs_super_flush_new_journal`, called next by the same thread. -/
def flushNewJournal : Sys := σ.addCall (.flusher superMaxInflightJournal false none)

end Sys

/-- `cyanfs_super_open`: the state in which the mount reads the super block. -/
def Sys.opened (total : ℕ) (discard compact : Bool) (uuid : Uuid) (disk : Buf) : Sys where
  sup := Super.opened total discard compact uuid fun _ => 0
  queue := [.loadHeader]
  active := none
  flushers := ∅
  nextFlusher := 0
  loader := some ⟨mkfsHeader uuid 0, none, []⟩
  compact := none
  calls := 0
  disk := ⟨disk, []⟩
  log := ⟨[], [], 0, fun _ => none, [], [], []⟩

end Cyanfs
