/-
# The super block in memory and the replay of journal entries

`core/super.c` and the helpers of `core/internal.h`: the file table with its two
indexes, the sets of backend extents, the counters, the functions that move an
extent between a set and a file, and `__cyanfs_super_journal_replay`.

The red-black trees become `Std.ExtTreeMap`s (file table, extents of a file),
finite sets (backend extents, of which only the id matters while they are in
no file) and a function (name index, which is only searched).  Pointers to
files are file ids.  A `CYANFS_BUG_ON` that fires is noted in `bug`; no
transition leaves a state with a bug.
-/

import Cyanfs.Core.Entry
import Mathlib.Data.Finset.Max
import Mathlib.Data.Finset.Card
import Mathlib.Data.Finset.Range
import Mathlib.Logic.Function.Basic
import Std.Data.ExtTreeMap

namespace Cyanfs

open Lib Std

/-- `struct cyanfs_extent` of a node in the extents tree of a file; the key of
the tree is `v.file` and `v.map` is `1` exactly for these nodes. -/
structure Extent where
  backend : ℕ
  pending : Bool
  error : Bool
deriving DecidableEq

/-- `open_type` of `struct cyanfs_file`. -/
inductive OpenType where
  | closed | readonly | readwrite
deriving DecidableEq

/-- `struct cyanfs_file`. -/
structure File where
  id : ℕ
  parent : Option ℕ
  name : FileName
  size : ℕ
  extentCount : ℕ
  children : ℕ
  extents : ExtTreeMap ℕ Extent
  openType : OpenType
  reader : ℕ

/-- `meta.parent_id`. -/
def File.parentId (f : File) : ℕ := f.parent.getD 0

/-- An entry of `journal_head` with its `flush` mark. -/
structure JEntry where
  entry : Entry
  flush : Bool
deriving DecidableEq

/-- `struct cyanfs_journal_cursor`. -/
structure Cursor where
  page : Buf
  extentOff : ℕ
  extentId : ℕ
  extentIdFlush : ℕ
  extentIdOndisk : ℕ
  seq : ℕ

/-- The `CYANFS_BUG_ON`s of the modelled functions. -/
inductive Bug where
  | unmapPending | mapTwice | closeClosed | closeBusy | closeOpen
deriving DecidableEq

/-- `struct cyanfs_super`, with `meta` and `flags` spread out. -/
structure Super where
  filesById : ExtTreeMap ℕ File
  filesByName : FileName → Option ℕ
  uuid : Uuid
  totalExtents : ℕ
  freeExtents : ℕ
  journalExtents : ℕ
  dataExtents : ℕ
  reservedExtents : ℕ
  files : ℕ
  free : Finset ℕ
  discard : Finset ℕ
  waitDiscard : Finset ℕ
  flush : Finset ℕ
  unused : Finset ℕ
  journal : Finset ℕ
  journalHead : List JEntry
  journalCount : ℕ
  maxFileId : ℕ
  ready : Bool
  flushFlag : Bool
  error : Bool
  discardEnabled : Bool
  discardWorking : Bool
  compactEnabled : Bool
  compactWorking : Bool
  writers : Bool → ℕ
  writerCurrent : Bool
  cursor : Cursor
  bug : Option Bug

/-- The least element of a set of extents (`CYANFS_RB_MIN`). -/
def least (X : Finset ℕ) : Option ℕ := if h : X.Nonempty then some (X.min' h) else none

theorem mem_of_least {X : Finset ℕ} {b : ℕ} (h : least X = some b) : b ∈ X := by
  unfold least at h
  split_ifs at h with hn
  exact Option.some.inj h ▸ X.min'_mem hn

theorem le_of_least {X : Finset ℕ} {a b : ℕ} (h : least X = some b) (ha : a ∈ X) : b ≤ a := by
  unfold least at h
  split_ifs at h with hn
  exact Option.some.inj h ▸ X.min'_le a ha

theorem least_eq_none {X : Finset ℕ} : least X = none ↔ X = ∅ := by
  unfold least
  split_ifs with hn
  · simp [hn.ne_empty]
  · simpa using hn

namespace Super

variable (s : Super)

/-- `__cyanfs_super_ensure_status`. -/
def ensureStatus : Option Err :=
  if s.error then some .io else if s.ready then none else some .busy

/-- `__cyanfs_super_mark_error`. -/
def markError : Super := { s with error := true }

/-- A failing `CYANFS_BUG_ON`. -/
def bugOn (c : Bool) (b : Bug) : Super := if c then { s with bug := some b } else s

/-- `__cyanfs_super_find_nearly_extent`. -/
def findNearlyExtent (idFrom : ℕ) : Option ℕ :=
  if idFrom ≤ extentIndexMax then
    (least (s.free.filter (idFrom ≤ ·))).orElse fun _ => least s.free
  else least s.free

/-- `__cyanfs_super_find_extent`. -/
def findExtent (id : ℕ) : Option ℕ :=
  if extentIndexMax < id then none else if id ∈ s.free then some id else none

/-- Store a file under its id. -/
def setFile (f : File) : Super := { s with filesById := s.filesById.insert f.id f }

/-- Change the file with the given id. -/
def updFile (id : ℕ) (g : File → File) : Super :=
  match s.filesById[id]? with
  | some f => { s with filesById := s.filesById.insert id (g f) }
  | none => s

end Super

/-- `__cyanfs_file_find_extent`. -/
def File.findExtent (f : File) (fOff : ℕ) : Option Extent :=
  f.extents[fileIndex (extentFrom fOff)]?

/-- Change the node with index `i` in the extents tree, through the pointer a
writer or a task holds to it. -/
def File.markExtent (f : File) (i : ℕ) (g : Extent → Extent) : File :=
  match f.extents[i]? with
  | some e => { f with extents := f.extents.insert i (g e) }
  | none => f

namespace Super

variable (s : Super)

/-- The loop of `__cyanfs_file_find_extent_follow`.  Ids fall along the parent
links, so the id of the first file bounds the number of rounds. -/
def followFrom (fOff : ℕ) : ℕ → Option ℕ → Option Extent
  | _, none => none
  | 0, some _ => none
  | n + 1, some id =>
      match s.filesById[id]? with
      | none => none
      | some f =>
          if extentBegin (extentFrom fOff) < f.size then
            match f.findExtent fOff with
            | some e => some e
            | none => followFrom fOff n f.parent
          else none

/-- `__cyanfs_file_find_extent_follow`. -/
def findExtentFollow (file : Option ℕ) (fOff : ℕ) : Option Extent :=
  s.followFrom fOff (file.getD 0 + 1) file

/-- `__cyanfs_extent_super_to_super` from the free to the journal set. -/
def takeJournal (b : ℕ) : Super :=
  { s with
    freeExtents := s.freeExtents - 1
    free := s.free.erase b
    journal := insert b s.journal
    journalExtents := s.journalExtents + 1 }

/-- `__cyanfs_extent_super_to_file` from the free set. -/
def superToFile (f : File) (b i : ℕ) : Super :=
  ({ s with
     freeExtents := s.freeExtents - 1
     free := s.free.erase b
     dataExtents := s.dataExtents + 1 }.bugOn (f.extents.contains i) .mapTwice).setFile
    { f with extents := f.extents.insert i ⟨b, false, false⟩, extentCount := f.extentCount + 1 }

/-- `__cyanfs_file_map_extent`. -/
def mapExtent (f : File) (b fId : ℕ) : Except Err Super :=
  if (f.findExtent (extentBegin fId)).isSome then .error .inval
  else .ok (s.superToFile f b (fileIndex fId))

/-- `__cyanfs_file_unmap_extent` on the node of file `id` with index `i`. -/
def unmapExtent (id i : ℕ) : Super :=
  match s.filesById[id]? with
  | none => s
  | some f =>
      match f.extents[i]? with
      | none => s
      | some e =>
          let s' := ({ s with dataExtents := s.dataExtents - 1 }.bugOn e.pending .unmapPending).setFile
            { f with extents := f.extents.erase i, extentCount := f.extentCount - 1 }
          if s.ready then { s' with unused := insert e.backend s'.unused }
          else { s' with free := insert e.backend s'.free, freeExtents := s'.freeExtents + 1 }

/-- Where `__cyanfs_file_alloc_extent` starts to look for a free extent: near
the extents around it, else at a hash of the file and the offset. -/
def allocFrom (f : File) (fOff : ℕ) : ℕ :=
  let id := extentFrom fOff
  let hash := extentAllocHash f.id fOff % s.totalExtents
  match f.extents.getEntryGE? (if id < extentContinuous then 0 else id - extentContinuous) with
  | some (k, n) =>
      if k ≤ id + extentContinuous then (n.backend + id + 4294967296 - k) % 4294967296 else hash
  | none => hash

/-- `__cyanfs_file_alloc_extent`: the new state, the index and the backend. -/
def allocExtent (f : File) (fOff : ℕ) : Option (Super × ℕ × ℕ) :=
  if s.freeExtents ≤ s.reservedExtents then none
  else
    match s.findNearlyExtent (s.allocFrom f fOff) with
    | none => none
    | some b =>
        match s.mapExtent f b (extentFrom fOff) with
        | .error _ => none
        | .ok s' => some (s', fileIndex (extentFrom fOff), b)

/-- `__cyanfs_file_bind_extent`. -/
def bindExtent (f : File) (fId bId : ℕ) : Except Err Super :=
  if extentIndexMax < fId ∨ f.size ≤ extentBegin fId then .error .inval
  else
    match s.findExtent bId with
    | none => .error .inval
    | some b => s.mapExtent f b fId

/-- `__cyanfs_file_unbind_extent`. -/
def unbindExtent (f : File) (fId : ℕ) : Except Err Super :=
  if extentIndexMax < fId ∨ f.size ≤ extentBegin fId then .error .inval
  else if (f.findExtent (extentBegin fId)).isNone then .error .inval
  else .ok (s.unmapExtent f.id (fileIndex (extentFrom (extentBegin fId))))

/-- The indexes that `__cyanfs_file_truncate` unmaps, in tree order. -/
def truncateKeys (f : File) (size : ℕ) : List ℕ :=
  if size = 0 then f.extents.keys
  else f.extents.keys.filter (fileIndex (extentFrom (size - 1)) < ·)

/-- `__cyanfs_file_truncate`. -/
def truncateFile (f : File) (size : ℕ) : Super :=
  ((truncateKeys f size).foldl (fun s i => s.unmapExtent f.id i) s).updFile f.id
    fun f => { f with size := size }

/-- `__cyanfs_lookup_file_by_name`. -/
def lookupByName (name : FileName) : Option File :=
  match s.filesByName name with
  | some id => s.filesById[id]?
  | none => none

/-- The file that `__cyanfs_init_file` sets up. -/
def newFile (name : FileName) (id : ℕ) (parent : Option File) : File where
  id := id
  parent := parent.map (·.id)
  name := name
  size := (parent.map (·.size)).getD 0
  extentCount := 0
  children := 0
  extents := ∅
  openType := .closed
  reader := 0

/-- `__cyanfs_init_file`. -/
def initFile (name : FileName) (id : ℕ) (parent : Option File) : Except Err Super :=
  if s.filesById.contains id then .error .inval
  else if (s.filesByName name).isSome then .error .inval
  else
    let s' := s.setFile (newFile name id parent)
    let s' := match parent with
      | some p => s'.setFile { p with children := p.children + 1 }
      | none => s'
    .ok { s' with
      filesByName := Function.update s.filesByName name (some id)
      maxFileId := if s.maxFileId < id then id else s.maxFileId
      files := s.files + 1 }

/-- `__cyanfs_rename_file`. -/
def renameFile (f : File) (name : FileName) : Super :=
  let byName := Function.update s.filesByName f.name none
  { s.setFile { f with name := name } with
    filesByName := if (byName name).isSome then byName else Function.update byName name (some f.id) }

/-- `__cyanfs_delete_file`. -/
def deleteFile (f : File) : Super :=
  let s' := s.truncateFile f 0
  let s' := { s' with
    filesById := s'.filesById.erase f.id
    filesByName := Function.update s'.filesByName f.name none
    files := s'.files - 1 }
  match f.parent with
  | some p => s'.updFile p fun p => { p with children := p.children - 1 }
  | none => s'

/-- A round of the loop of `cyanfs_super_close`: the file loses its parent, and is deleted. -/
def deleteOrphan (id : ℕ) : Super :=
  match s.filesById[id]? with
  | some f =>
      let f := { f with parent := none }
      (s.setFile f).deleteFile f
  | none => s

/-- The loop of `cyanfs_super_close` that deletes the files. -/
def deleteFiles : Super := s.filesById.keys.foldl deleteOrphan s

/-- `__cyanfs_super_journal_append`. -/
def append (j : JEntry) : Super :=
  { s with journalHead := s.journalHead ++ [j], journalCount := s.journalCount + 1 }

/-- `__cyanfs_super_journal_replay`; `malloc` tells whether an allocation
succeeds. -/
def replayWith (malloc : Bool) : Entry → Except Err Super
  | .create id name =>
      match name.normalize with
      | none => .error .inval
      | some name =>
          if id = 0 ∨ s.filesById.contains id ∨ (s.lookupByName name).isSome then .error .inval
          else if superMaxFiles ≤ s.files then .error .nospace
          else if malloc then s.initFile name id none else .error .nomem
  | .truncate id size =>
      if ¬ sizeValid size then .error .inval
      else
        match s.filesById[id]? with
        | none => .error .inval
        | some f => if f.children ≠ 0 then .error .inval else .ok (s.truncateFile f size)
  | .fork id pid name =>
      match name.normalize with
      | none => .error .inval
      | some name =>
          if id = 0 ∨ id ≤ pid ∨ s.filesById.contains id ∨ (s.lookupByName name).isSome then
            .error .inval
          else if superMaxFiles ≤ s.files then .error .nospace
          else
            match s.filesById[pid]? with
            | none => .error .inval
            | some p => if malloc then s.initFile name id (some p) else .error .nomem
  | .delete id =>
      match s.filesById[id]? with
      | none => .error .inval
      | some f => if f.children ≠ 0 then .error .inval else .ok (s.deleteFile f)
  | .bind id file backend =>
      match s.filesById[id]? with
      | none => .error .inval
      | some f => s.bindExtent f file backend
  | .unbind id file =>
      match s.filesById[id]? with
      | none => .error .inval
      | some f => s.unbindExtent f file
  | .rename id name =>
      match name.normalize with
      | none => .error .inval
      | some name =>
          match s.filesById[id]? with
          | none => .error .inval
          | some f =>
              match s.lookupByName name with
              | some p => if p.id ≠ f.id then .error .inval else .ok (s.renameFile f name)
              | none => .ok (s.renameFile f name)
  | .next b =>
      match s.findExtent b with
      | none => .error .inval
      | some b => .ok (s.takeJournal b)

/-- `__cyanfs_super_journal_replay` when memory is available. -/
def replay (e : Entry) : Except Err Super := s.replayWith true e

/-- Replay a list of entries, stopping at the first that is refused. -/
def replayAll : Super → List Entry → Except Err Super
  | s, [] => .ok s
  | s, e :: es =>
      match s.replay e with
      | .ok s' => replayAll s' es
      | .error err => .error err

end Super

/-- `meta.reserved_extents` as `cyanfs_super_open` computes it. -/
def reservedFor (total : ℕ) : ℕ :=
  ((entrySize 3 * superMaxFiles + entrySize 5 * total) / extentSize + 1) * 8

/-- The state that `cyanfs_super_open` sets up: every extent is free. -/
def Super.opened (total : ℕ) (discard compact : Bool) (uuid : Uuid) (page : Buf) : Super where
  filesById := ∅
  filesByName := fun _ => none
  uuid := uuid
  totalExtents := total
  freeExtents := total
  journalExtents := 0
  dataExtents := 0
  reservedExtents := reservedFor total
  files := 0
  free := Finset.range total
  discard := ∅
  waitDiscard := ∅
  flush := ∅
  unused := ∅
  journal := ∅
  journalHead := []
  journalCount := 0
  maxFileId := 0
  ready := false
  flushFlag := false
  error := false
  discardEnabled := discard
  discardWorking := false
  compactEnabled := compact
  compactWorking := false
  writers := fun _ => 0
  writerCurrent := false
  cursor := ⟨page, 0, 0, 0, 0, 0⟩
  bug := none

/-- The number of extents that `cyanfs_super_open` derives from a disk size, if
it accepts it. -/
def extentsOfSize (size : ℕ) : Option ℕ :=
  if size < superBlockSize + extentSize ∨ fileMaxSize < size - superBlockSize then none
  else some (extentFrom (size - superBlockSize))

/-! ### The public metadata operations -/

namespace Super

variable (s : Super)

/-- The locked part of `cyanfs_create`; the name is already normalized. -/
def create (name : FileName) : Except Err Super :=
  match s.ensureStatus with
  | some e => .error e
  | none =>
      if superMaxFiles ≤ s.files ∨ s.maxFileId = u64Max then .error .nospace
      else if (s.lookupByName name).isSome then .error .exist
      else
        match s.initFile name (s.maxFileId + 1) none with
        | .error e => .error e
        | .ok s' => .ok (s'.append ⟨.create (s.maxFileId + 1) name, false⟩)

/-- The locked part of `cyanfs_fork`. -/
def fork (fromId : ℕ) (name : FileName) : Except Err Super :=
  match s.ensureStatus with
  | some e => .error e
  | none =>
      if superMaxFiles ≤ s.files ∨ s.maxFileId = u64Max then .error .nospace
      else
        match s.filesById[fromId]? with
        | none => .error .noent
        | some p =>
            if p.openType = .readwrite then .error .busy
            else if (s.lookupByName name).isSome then .error .exist
            else
              match s.initFile name (s.maxFileId + 1) (some p) with
              | .error e => .error e
              | .ok s' => .ok (s'.append ⟨.fork (s.maxFileId + 1) p.id name, false⟩)

/-- The locked part of `cyanfs_rename`. -/
def rename (id : ℕ) (name : FileName) : Except Err Super :=
  match s.ensureStatus with
  | some e => .error e
  | none =>
      if (s.lookupByName name).isSome then .error .exist
      else
        match s.filesById[id]? with
        | none => .error .noent
        | some f => .ok ((s.renameFile f name).append ⟨.rename f.id name, false⟩)

/-- The locked part of `cyanfs_truncate`. -/
def truncate (id size : ℕ) : Except Err Super :=
  match s.ensureStatus with
  | some e => .error e
  | none =>
      match s.filesById[id]? with
      | none => .error .noent
      | some f =>
          if f.openType ≠ .closed ∨ f.children ≠ 0 then .error .busy
          else .ok ((s.truncateFile f size).append ⟨.truncate f.id size, true⟩)

/-- The locked part of `cyanfs_delete`. -/
def delete (id : ℕ) : Except Err Super :=
  match s.ensureStatus with
  | some e => .error e
  | none =>
      match s.filesById[id]? with
      | none => .error .noent
      | some f =>
          if f.openType ≠ .closed ∨ f.children ≠ 0 then .error .busy
          else .ok ((s.deleteFile f).append ⟨.delete f.id, false⟩)

/-- `cyanfs_lookup`. -/
def lookup (raw : FileName) : Except Err File :=
  match raw.normalize with
  | none => .error .inval
  | some name =>
      match s.ensureStatus with
      | some e => .error e
      | none =>
          match s.lookupByName name with
          | some f => .ok f
          | none => .error .noent

/-- `cyanfs_open`. -/
def openFile (id : ℕ) (write : Bool) : Except Err Super :=
  match s.ensureStatus with
  | some e => .error e
  | none =>
      match s.filesById[id]? with
      | none => .error .noent
      | some f =>
          if write then
            if f.openType ≠ .closed ∨ f.children ≠ 0 then .error .busy
            else .ok (s.setFile { f with openType := .readwrite })
          else if f.openType = .readwrite then .error .busy
          else .ok (s.setFile { f with openType := .readonly, reader := f.reader + 1 })

/-- `cyanfs_close`. -/
def closeFile (f : File) : Super :=
  match f.openType with
  | .closed => s.bugOn true .closeClosed
  | .readwrite => s.setFile { f with openType := .closed }
  | .readonly =>
      s.setFile { f with
        reader := f.reader - 1
        openType := if f.reader - 1 = 0 then .closed else .readonly }

end Super

end Cyanfs
