/-
# The journal loader and the journal writer

`core/journal.c`.  The loader (`cyanfs_journal_loader_*`) walks the chain of
journal extents from the super header on, a page of at most 64 KiB at a time,
and hands the entries of every accepted record to the replay.  The writer
(`cyanfs_journal_writer_encode`) packs entries into one record, ends an extent
with a NEXT entry and moves the cursor.

Both work on a `Super` whose `cursor` is the C code's `t->cursor`: the mounted
super itself, or the private `t->compact` of a compaction.  `scanRecord` is the
part of `cyanfs_journal_loader_parser_page` that looks at one record;
`Loader.parsePage` is its loop.
-/

import Cyanfs.Core.Super

namespace Cyanfs

open Lib

/-! ### The loader -/

/-- `struct cyanfs_task_journal_loader`.  `journals` lists the extents already
committed; the tree `visited_extents` holds the same ids. -/
structure Loader where
  header : SuperHeader
  endId : Option ℕ
  journals : List ℕ

/-- Decode `count` entries from `p` on. -/
def decodeEntries (g : Buf) (p stop : ℕ) : ℕ → Option (List Entry × ℕ)
  | 0 => some ([], p)
  | n + 1 =>
      match decodeEntry g p stop with
      | none => none
      | some (e, q) => (decodeEntries g q stop n).map fun r => (e :: r.1, r.2)

/-- The NEXT entry that ends a list, if there is one. -/
def nextOf (es : List Entry) : Option ℕ :=
  match es.getLast? with
  | some (.next b) => some b
  | _ => none

/-- `cyanfs_journal_validate_record`: the regular entries of the record and the
extent its NEXT entry links to. -/
def validateRecord (g : Buf) (p stop count : ℕ) : Option (List Entry × Option ℕ) :=
  if count = 0 then none
  else
    match decodeEntries g p stop count with
    | none => none
    | some (es, q) =>
        if ∃ e ∈ es.dropLast, ¬ e.Regular then none
        else if journalBlockSize ≤ stop - q then none
        else some (es.filter (·.Regular), nextOf es)

/-- What the loader sees at a position. -/
inductive Scan where
  /-- nothing that continues the chain -/
  | stop
  /-- a record with the right checksum and sequence number that is malformed -/
  | bad
  /-- a record: its size, its regular entries and the next extent -/
  | record (size : ℕ) (entries : List Entry) (next : Option ℕ)
deriving DecidableEq

/-- The size that the header at `p` announces is one a record may have. -/
def sizeOk (g : Buf) (p extentOff : ℕ) : Prop :=
  journalHeaderSize ≤ (decodeHeader g p).size ∧ (decodeHeader g p).size ≤ journalPageSize ∧
    extentOff + (decodeHeader g p).size ≤ extentSize

instance (g : Buf) (p extentOff : ℕ) : Decidable (sizeOk g p extentOff) :=
  inferInstanceAs (Decidable (_ ∧ _))

/-- The checksum of the record at `p` is right. -/
def crcOk (g : Buf) (p : ℕ) (seed : UInt32) : Prop :=
  (crc32 seed (g.slice (p + 4) ((decodeHeader g p).size - 4))).toNat = (decodeHeader g p).crc

instance (g : Buf) (p : ℕ) (seed : UInt32) : Decidable (crcOk g p seed) :=
  inferInstanceAs (Decidable (_ = _))

/-- The checks of `cyanfs_journal_loader_parser_page` on the record at `p`, at
offset `extentOff` of its extent, when sequence number `seq` is due. -/
def scanRecord (g : Buf) (p : ℕ) (seed : UInt32) (extentOff seq : ℕ) : Scan :=
  let h := decodeHeader g p
  if ¬ sizeOk g p extentOff then .stop
  else if ¬ crcOk g p seed then .stop
  else if h.seq ≠ seq then .stop
  else
    match validateRecord g (p + journalHeaderSize) (p + h.size) h.count with
    | none => .bad
    | some (es, next) =>
        if next = none ∧ h.size = extentSize - extentOff then .bad
        else if u64Max - seq < es.length then .bad
        else .record h.size es next

/-- `cyanfs_journal_loader_prepare_extent` accepts the extent. -/
def Loader.prepareExtent (l : Loader) (X : Super) (malloc : Bool) (b : ℕ) : Prop :=
  b ≠ extentIdInvalid ∧ b < X.totalExtents ∧ b ∉ l.journals ∧ malloc = true

instance (l : Loader) (X : Super) (malloc : Bool) (b : ℕ) :
    Decidable (l.prepareExtent X malloc b) := inferInstanceAs (Decidable (_ ∧ _))

/-- Hand entries to the parser: the state reached and whether all of them were
accepted. -/
def applyEntries (malloc : Bool) : Super → List Entry → Super × Bool
  | X, [] => (X, true)
  | X, e :: es =>
      match X.replayWith malloc e with
      | .ok X' => applyEntries malloc X' es
      | .error _ => (X, false)

/-- How a callback of the loader ends. -/
inductive LoaderOut where
  /-- the next page is read at the cursor -/
  | readPage (l : Loader) (X : Super)
  /-- `operations.finish` -/
  | finish (l : Loader) (X : Super)
  /-- `operations.error` -/
  | error (X : Super)

/-- `cyanfs_journal_loader_commit_extent`. -/
def Loader.commitExtent (l : Loader) (X : Super) (b : ℕ) : LoaderOut :=
  .readPage { l with journals := l.journals ++ [b] }
    { X with cursor := { X.cursor with extentOff := 0, extentId := b } }

/-- `cyanfs_journal_loader_end(t, 0)`: feed the extents of the chain as NEXT
entries. -/
def Loader.end (l : Loader) (X : Super) (malloc : Bool) : LoaderOut :=
  match applyEntries malloc X (l.journals.map .next) with
  | (X', true) => .finish l X'
  | (X', false) => .error X'

/-- The label `done` of `cyanfs_journal_loader_parser_page`. -/
def Loader.stopped (l : Loader) (X : Super) (malloc followEnd : Bool) : LoaderOut :=
  if l.endId ≠ none ∧ followEnd = false then .error X else l.end X malloc

/-- The loop of `cyanfs_journal_loader_parser_page` over a page of `len` bytes,
from offset `off` in the page.  Every round consumes at least a block, so a
page's number of blocks bounds the rounds. -/
def Loader.parsePage (malloc : Bool) (len : ℕ) : ℕ → ℕ → Loader → Super → LoaderOut
  | 0, _, l, X => l.stopped X malloc false
  | n + 1, off, l, X =>
      let c := X.cursor
      let h := decodeHeader c.page off
      if len ≤ off ∨ len - off < journalHeaderSize then l.stopped X malloc false
      else if ¬ sizeOk c.page off c.extentOff then l.stopped X malloc false
      else if len - off < h.size then
        if off = 0 then l.stopped X malloc false else .readPage l X
      else
        match scanRecord c.page off l.header.uuid.seed c.extentOff c.seq with
        | .stop => l.stopped X malloc false
        | .bad => .error X
        | .record size es next =>
            let followEnd := next ≠ none ∧ next = l.endId
            if (∃ b ∈ next, ¬ followEnd ∧ ¬ l.prepareExtent X malloc b) then .error X
            else
              match applyEntries malloc X es with
              | (X, false) => .error X
              | (X, true) =>
                  let X := { X with cursor := { X.cursor with seq := X.cursor.seq + es.length } }
                  match next with
                  | some b => if followEnd then l.stopped X malloc true else l.commitExtent X b
                  | none =>
                      let X := { X with
                        cursor := { X.cursor with extentOff := X.cursor.extentOff + size } }
                      if off + size = journalPageSize then .readPage l X
                      else parsePage malloc len n (off + size) l X

/-- The number of bytes that `cyanfs_journal_loader_read_page` reads. -/
def pageLen (extentOff : ℕ) : ℕ := min (extentSize - extentOff) journalPageSize

/-- The page buffer after a READ of `len` bytes at `off`. -/
def Cursor.read (c : Cursor) (d : Buf) (off len : ℕ) : Cursor :=
  { c with page := c.page.patch 0 len fun i => d (off + i) }

/-- `cyanfs_journal_loader_parser_page` after a successful READ from `d`. -/
def Loader.parserPage (l : Loader) (X : Super) (malloc : Bool) (d : Buf) : LoaderOut :=
  let c := X.cursor
  let len := pageLen c.extentOff
  l.parsePage malloc len (len / journalBlockSize + 1) 0
    { X with cursor := c.read d (mapExtentOffset c.extentId c.extentOff) len }

/-- `cyanfs_journal_loader_parser_header` after a successful READ from `d`. -/
def Loader.parserHeader (l : Loader) (X : Super) (malloc : Bool) (d : Buf) : LoaderOut :=
  let X := { X with cursor := X.cursor.read d 0 superBlockSize }
  match superParse X.cursor.page with
  | none => .error X
  | some h =>
      let l := { l with header := h }
      let X := { X with cursor := { X.cursor with seq := h.journalSeq } }
      if l.endId = some h.journalId then l.end X malloc
      else if l.prepareExtent X malloc h.journalId then l.commitExtent X h.journalId
      else .error X

/-! ### The writer -/

/-- A WRITE task of the journal writer; `entries` are the regular entries that
the record carries. -/
structure WriteReq where
  off : ℕ
  len : ℕ
  data : Buf
  entries : List Entry

/-- The selection loop of `cyanfs_journal_writer_encode`: the entries taken, the
bytes used and the entries left; nothing if a NEXT entry is met. -/
def selectEntries (limit : ℕ) : ℕ → List JEntry → Option (List JEntry × ℕ × List JEntry)
  | used, [] => some ([], used, [])
  | used, j :: js =>
      if ¬ j.entry.Regular then none
      else if limit < used ∨ limit - used < j.entry.size then some ([], used, j :: js)
      else (selectEntries limit (used + j.entry.size) js).map fun r => (j :: r.1, r.2.1, r.2.2)

/-- Padding to the next block boundary. -/
def padding (used : ℕ) : ℕ := (journalBlockSize - used % journalBlockSize) % journalBlockSize

/-- The bytes of a record over the old content of the page. -/
def recordBytes (seed : UInt32) (seq : ℕ) (es : List Entry) (size : ℕ) (page : Buf) : List UInt8 :=
  let payload := es.flatMap Entry.encode
  let used := journalHeaderSize + payload.length
  let tail := RecordHeader.encodeTail seq es.length size ++ (payload ++ page.slice used (size - used))
  leBytes 4 (crc32 seed tail).toNat ++ tail

/-- How `cyanfs_journal_writer_encode` ends. -/
inductive EncodeOut where
  /-- `operations.error` -/
  | error (s : Super)
  /-- `operations.finish` -/
  | finish
  /-- a WRITE is queued: the super, the cursor behind the record, the request,
  whether a marked entry was taken, and the entries left -/
  | write (s : Super) (c : Cursor) (req : WriteReq) (flush : Bool) (rest : List JEntry)

/-- The record that ends `cyanfs_journal_writer_encode`, once its entries, its
size and the extent it links to are settled. -/
def emitRecord (s : Super) (c : Cursor) (taken rest : List JEntry) (size : ℕ) (next : Option ℕ) :
    EncodeOut :=
  let es := taken.map (·.entry)
  let bytes := recordBytes s.uuid.seed c.seq (es ++ next.toList.map .next) size c.page
  let page := c.page.overlay bytes
  let c' := { c with page := page, seq := c.seq + es.length }
  .write s
    (match next with
      | some b => { c' with extentId := b, extentOff := 0 }
      | none => { c' with extentOff := c.extentOff + size })
    ⟨mapExtentOffset c.extentId c.extentOff, size, page, es⟩ (taken.any (·.flush)) rest

/-- The link that a record ends with. -/
inductive Link where
  /-- none: the record is followed by another in its extent -/
  | none
  /-- to `t->next_id` -/
  | final (id : ℕ)
  /-- to an extent that is still to be taken from the free set -/
  | fresh
deriving DecidableEq

/-- A record that `cyanfs_journal_writer_encode` has laid out: the entries it
takes, those it leaves, its size and its link. -/
structure Plan where
  taken : List JEntry
  rest : List JEntry
  size : ℕ
  link : Link

/-- The bytes left in the extent. -/
def Cursor.remaining (c : Cursor) : ℕ := extentSize - c.extentOff

/-- `record_capacity`. -/
def Cursor.capacity (c : Cursor) : ℕ := min c.remaining journalPageSize

/-- The part of `cyanfs_journal_writer_encode` that lays out the next record of
`head`, up to the point where it takes an extent; nothing if one of its checks
fails. -/
def layoutRecord (c : Cursor) (head : List JEntry) (nextId : Option ℕ) : Option Plan :=
  if extentSize ≤ c.extentOff ∨ c.extentOff % journalBlockSize ≠ 0 then none
  else if c.capacity < journalBlockSize ∨ c.capacity < journalTailSize then none
  else
    match selectEntries (c.capacity - journalTailSize) journalHeaderSize head with
    | none => none
    | some (taken, used, rest) =>
        if taken = [] then none
        else if u64Max - c.seq < taken.length then none
        else if c.capacity < used ∨ c.capacity - used < padding used then none
        else
          let atExtentEnd := used + padding used = c.remaining
          let finalLink := rest = [] ∧ nextId ≠ none
          let needNext := atExtentEnd ∨ finalLink
          if needNext ∧ c.capacity - used < journalTailSize then none
          else
            let finalUsed := if needNext then used + journalTailSize else used
            if c.capacity - finalUsed < padding finalUsed then none
            else some ⟨taken, rest, finalUsed + padding finalUsed,
              match nextId with
              | some b => if rest = [] then .final b else if atExtentEnd then .fresh else .none
              | none => if atExtentEnd then .fresh else .none⟩

/-- `cyanfs_journal_writer_encode` with the cursor `c`, the entries `head` and
the final link `nextId`, when the WRITE before it succeeded (`err = false`) or
failed. -/
def writerEncode (s : Super) (c : Cursor) (head : List JEntry) (nextId : Option ℕ) (err : Bool) :
    EncodeOut :=
  if err ∨ s.error then .error s
  else if head = [] then .finish
  else
    match layoutRecord c head nextId with
    | none => .error s
    | some p =>
        match p.link with
        | .none => emitRecord s c p.taken p.rest p.size none
        | .final b => emitRecord s c p.taken p.rest p.size (some b)
        | .fresh =>
            match s.findNearlyExtent 0 with
            | none => .error s.markError
            | some b => emitRecord (s.takeJournal b) c p.taken p.rest p.size (some b)

end Cyanfs
