/-
# Journal compaction

`core/compact.c`.  A compaction replays the chain up to `end_id` into a private
super, turns that state into a list of entries (`snapshot`), writes them to
fresh journal extents that link to `end_id`, flushes, writes the super header
with the next version into the other slot, flushes again and then retires the
extents of the replaced prefix.
-/

import Cyanfs.Core.Flusher

namespace Cyanfs

open Lib Std

/-- The `i`-th name that `cyanfs_journal_compact_marker_name` tries. -/
def markerCandidate (i : ℕ) : FileName :=
  FileName.ofCstr [0xff, UInt8.ofNat (i / 255 + 1), UInt8.ofNat (i % 255 + 1)] (by simp)

namespace Super

variable (s : Super)

/-- `cyanfs_journal_compact_marker_name`. -/
def markerName : Option FileName :=
  ((List.range (superMaxFiles + 1)).map markerCandidate).find? fun n => (s.filesByName n).isNone

/-- The entries that `cyanfs_journal_compact_loader_finish` lists for a file. -/
def fileEntries (f : File) : List Entry :=
  let (first, truncate) : Entry × Bool :=
    match f.parent with
    | some p => (.fork f.id p f.name, (s.filesById[p]?.map (·.size)) ≠ some f.size)
    | none => (.create f.id f.name, decide (0 < f.size))
  first :: ((if truncate then [.truncate f.id f.size] else []) ++
    f.extents.toList.map fun x => .bind f.id x.1 x.2.backend)

/-- `max_live_id`: the id of the last file of the tree. -/
def maxLiveId : ℕ := (s.filesById.maxKey?).getD 0

/-- The pair of `cyanfs_journal_compact_preserve_max_file_id`; nothing if no
marker name is left. -/
def markerEntries : Option (List Entry) :=
  if s.maxFileId ≤ s.maxLiveId then some []
  else (s.markerName).map fun n => [.create s.maxFileId n, .delete s.maxFileId]

/-- The entry list of `cyanfs_journal_compact_loader_finish`. -/
def snapshot : Option (List Entry) :=
  (s.markerEntries).map fun m => s.filesById.toList.flatMap (fun x => s.fileEntries x.2) ++ m

end Super

/-- The compaction object that `cyanfs_super_compact` sets up.  Its headers are
read from the disk before they are used. -/
def Compact.init (s : Super) (endId : ℕ) : Compact where
  loader := ⟨mkfsHeader s.uuid 0, some endId, []⟩
  priv := Super.opened s.totalExtents false false s.uuid fun _ => 0
  head := []
  nextId := none
  header := mkfsHeader s.uuid 0

namespace Sys

variable (σ : Sys)

/-- `cyanfs_super_compact_fail`. -/
def compactFail : Sys :=
  { σ with sup := { σ.sup with compactWorking := false, error := true } }

/-- `cyanfs_journal_compact_error`. -/
def compactError : Sys := { σ with compact := none }.compactFail

/-- The section of `cyanfs_super_compact`. -/
def compactStart (c : Call) : Sys :=
  let s := σ.sup
  if s.ensureStatus ≠ none ∨ s.compactEnabled = false ∨ s.compactWorking = true then σ.endCall c
  else { σ with sup := { s with compactWorking := true } }.setCall c
    (.compactInit s.cursor.extentIdOndisk)

/-- The rest of `cyanfs_super_compact`. -/
def compactInit (c : Call) (endId : ℕ) (malloc : Bool) : Sys :=
  let σ := σ.endCall c
  if malloc then { σ with compact := some (Compact.init σ.sup endId) }.addTail .compactHeader
  else σ.compactFail

/-- `cyanfs_journal_compact_loader_finish`. -/
def compactLoaderFinish (t : Compact) (l : Loader) (X : Super) (malloc : Bool) : Sys :=
  match X.snapshot, malloc with
  | some es, true =>
      if u64Max < es.length ∨ X.cursor.seq < es.length ∨ l.header.version = u64Max then σ.compactError
      else
        let h := { l.header with
          journalSeq := X.cursor.seq - es.length
          version := l.header.version + 1 }
        if es = [] then
          { σ with compact := some { t with
              loader := l
              priv := X
              head := []
              nextId := none
              header := { h with journalId := l.endId.getD extentIdInvalid } } }.addTail
            (.compactWriteSuper false)
        else
          match σ.sup.findNearlyExtent 0 with
          | none => σ.compactError
          | some b =>
              { σ with
                sup := σ.sup.takeJournal b
                compact := some { t with
                  loader := l
                  priv := { X with cursor := { X.cursor with
                    extentId := b, extentOff := 0, seq := h.journalSeq } }
                  head := es.map (⟨·, false⟩)
                  nextId := l.endId
                  header := { h with journalId := b } } }.addTail (.compactWriter none)
  | _, _ => σ.compactError

/-- What the compaction does with the end of a loader callback. -/
def compactLoaded (t : Compact) (malloc : Bool) : LoaderOut → Sys
  | .readPage l X => { σ with compact := some { t with loader := l, priv := X } }.addTail .compactPage
  | .finish l X => σ.compactLoaderFinish t l X malloc
  | .error _ => σ.compactError

/-- `cyanfs_journal_writer_encode` as the done callback of the compaction's
writer. -/
def compactEncode (t : Compact) (err : Bool) : Sys :=
  match writerEncode σ.sup t.priv.cursor t.head t.nextId err with
  | .error s => { σ with sup := s }.compactError
  | .finish => σ.addTail (.compactWriteSuper true)
  | .write s c req _ rest =>
      { σ with
        sup := s
        compact := some { t with head := rest, priv := { t.priv with cursor := c } }
        log := { σ.log with records := σ.log.records ++ [req.write] } }.addTail
          (.compactWriter (some req))

/-- `cyanfs_journal_compact_write_super`. -/
def compactWriteSuper (t : Compact) (err : Bool) : Sys :=
  if err then σ.compactError
  else
    let page := t.priv.cursor.page.overlay (slotBytes t.header t.priv.cursor.page)
    let req : WriteReq := ⟨t.header.version % 2 * superHeaderSize, superHeaderSize, page, []⟩
    { σ with
      compact := some { t with priv := { t.priv with cursor := { t.priv.cursor with page := page } } }
      log := { σ.log with headers := σ.log.headers ++ [req.write] } }.addTail
        (.compactFlushSuper req)

/-- `cyanfs_journal_compact_flush_super`. -/
def compactFlushSuper (err : Bool) : Sys :=
  if err then σ.compactError else σ.addTail .compactFinish

/-- `cyanfs_journal_compact_finish`: the extents of the private chain leave the
journal set, up to the first that is not in it. -/
def compactFinish (t : Compact) (err : Bool) : Sys :=
  let s := σ.sup
  if err then σ.compactError
  else
    match least (t.priv.journal \ s.journal) with
    | none =>
        let σ' := { σ with sup := { s with
            journal := s.journal \ t.priv.journal
            journalExtents := s.journalExtents - t.priv.journal.card } }.discardExtents t.priv.journal
        { σ' with sup := { σ'.sup with compactWorking := false }, compact := none }
    | some m =>
        let X := t.priv.journal.filter (· < m)
        ({ σ with sup := { s with
            journal := s.journal \ X
            journalExtents := s.journalExtents - X.card } }.discardExtents X).compactError

end Sys

end Cyanfs
