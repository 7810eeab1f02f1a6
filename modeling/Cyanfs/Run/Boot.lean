/-
# The first mount of a fresh file system

`FreshMkfs` is a disk on which `cyanfs_super_make` has written the super block
and whose first extent does not look like a record of it.  A run that starts
there is first `Booting`: only the loader works, threads come and are turned
away.  The mount then fails, or it ends in the one state `Mounted` describes: no
file, extent `0` as the journal, the cursor at its beginning.
-/

import Cyanfs.Core.Calls
import Cyanfs.Journal.Chain

namespace Cyanfs

open Lib Std

/-- A disk that was just formatted. -/
structure FreshMkfs (uuid : Uuid) (disk : Buf) : Prop where
  block : disk.slice 0 superBlockSize = superMake uuid
  empty : scanRecord disk (mapExtentOffset 0 0) uuid.seed 0 0 = .stop

/-- A disk of zeros that was just formatted. -/
theorem freshMkfs_zero (uuid : Uuid) : FreshMkfs uuid (Buf.overlay (fun _ => 0) (superMake uuid)) := by
  have hlen : (superMake uuid).length = superBlockSize := length_superMake uuid
  refine ⟨?_, ?_⟩
  · rw [← hlen]
    exact Buf.slice_overlay _ _
  · -- no size fits a header of zeros
    have hsize : (decodeHeader (Buf.overlay (fun _ => 0) (superMake uuid)) (mapExtentOffset 0 0)).size =
        0 := by
      have h : ∀ i, Buf.overlay (fun _ => 0) (superMake uuid) (superBlockSize + i) = 0 := by
        intro i
        rw [Buf.overlay_of_le _ _ (by omega)]
      have h14 := h 14
      simp only [decodeHeader, getLe, Buf.slice, mapExtentOffset, extentBegin, Nat.zero_mul,
        Nat.zero_mod, Nat.add_zero, leVal, h14]
      rfl
    rw [scanRecord, if_pos]
    rintro ⟨h, -⟩
    rw [hsize] at h
    exact absurd h (by decide)

theorem one_le_of_extentsOfSize {size total : ℕ} (h : extentsOfSize size = some total) :
    1 ≤ total ∧ total ≤ extentCountMax := by
  unfold extentsOfSize at h
  split_ifs at h with hc
  obtain rfl := Option.some.inj h
  simp only [superBlockSize, extentSize, fileMaxSize, extentCountMax, extentFrom] at *
  omega

/-- Calls that find the super not ready and return. -/
def Call.Waits : Call → Prop
  | .flusher _ _ _ | .flushType _ | .compact => True
  | _ => False

/-- The tasks of the mount. -/
def Task.isLoad : Task → Bool
  | .loadHeader | .loadPage => true
  | _ => false

/-- The two READs of the first mount: what the loader and the cursor are when
the task is queued. -/
def LoadState (σ₀ : Sys) (uuid : Uuid) (s : Super) (l : Loader) : Task → Prop
  | .loadHeader => s = σ₀.sup ∧ l.endId = none ∧ l.journals = []
  | .loadPage => (s.cursor.extentId = 0 ∧ s.cursor.extentOff = 0 ∧ s.cursor.seq = 0) ∧
      l.endId = none ∧ l.journals = [0] ∧ l.header.uuid = uuid
  | _ => False

namespace Sys

variable {σ₀ σ σ' : Sys} {uuid : Uuid} {disk : Buf} {total : ℕ}

/-- What the mount and the threads that wait for it leave alone. -/
structure Untouched (σ₀ σ : Sys) : Prop where
  disk : σ.disk = σ₀.disk
  flushers : σ.flushers = σ₀.flushers
  nextFlusher : σ.nextFlusher = σ₀.nextFlusher
  compact : σ.compact = σ₀.compact
  log : σ.log = σ₀.log
  calls : ∀ c ∈ σ.calls, c.Waits

/-- A run whose mount is not over. -/
structure Booting (σ₀ : Sys) (uuid : Uuid) (σ : Sys) : Prop extends Untouched σ₀ σ where
  sup : σ.sup = { σ₀.sup with cursor := σ.sup.cursor }
  flush : σ.sup.cursor.extentIdFlush = 0
  tasks : ∀ t ∈ σ.tasks, t.isLoad = false → ∃ f, t = .requeue f
  load : ∃ l t, σ.loader = some l ∧ σ.tasks.filter Task.isLoad = [t] ∧ LoadState σ₀ uuid σ.sup l t

/-- The mount has just succeeded. -/
structure Mounted (σ₀ : Sys) (uuid : Uuid) (σ : Sys) : Prop extends Untouched σ₀ σ where
  sup : σ.sup = { σ₀.sup.takeJournal 0 with ready := true, uuid := uuid, cursor := σ.sup.cursor }
  cursor : σ.sup.cursor = ⟨σ.sup.cursor.page, 0, 0, 0, 0, 0⟩
  tasks : ∀ t ∈ σ.tasks, ∃ f, t = .requeue f
  loader : σ.loader = none

/-- The mount has just failed. -/
structure MountFailed (σ₀ : Sys) (σ : Sys) : Prop extends Untouched σ₀ σ where
  sup : σ.sup = { σ₀.sup with cursor := σ.sup.cursor, error := true }
  tasks : ∀ t ∈ σ.tasks, ∃ f, t = .requeue f
  loader : σ.loader = none

theorem Untouched.addCall (h : Untouched σ₀ σ) {c : Call} (hc : c.Waits) :
    Untouched σ₀ (σ.addCall c) := by
  refine ⟨h.disk, h.flushers, h.nextFlusher, h.compact, h.log, fun d hd => ?_⟩
  rcases Multiset.mem_cons.1 hd with rfl | hd
  · exact hc
  · exact h.calls d hd

theorem Untouched.endCall (h : Untouched σ₀ σ) (c : Call) : Untouched σ₀ (σ.endCall c) :=
  ⟨h.disk, h.flushers, h.nextFlusher, h.compact, h.log,
    fun d hd => h.calls d (Multiset.mem_of_mem_erase hd)⟩

theorem Booting.of_calls (h : Booting σ₀ uuid σ) {cs : Multiset Call} (hc : ∀ c ∈ cs, c.Waits) :
    Booting σ₀ uuid { σ with calls := cs } :=
  ⟨⟨h.disk, h.flushers, h.nextFlusher, h.compact, h.log, hc⟩, h.sup, h.flush, h.tasks, h.load⟩

theorem Booting.addCall (h : Booting σ₀ uuid σ) {c : Call} (hc : c.Waits) :
    Booting σ₀ uuid (σ.addCall c) := h.of_calls (h.toUntouched.addCall hc).calls

theorem Booting.endCall (h : Booting σ₀ uuid σ) (c : Call) : Booting σ₀ uuid (σ.endCall c) :=
  h.of_calls (h.toUntouched.endCall c).calls

/-- A thread that comes too early is turned away. -/
theorem Booting.call (h : Booting σ₀ uuid σ) (hs : σ.sup.ensureStatus = some .busy) {c : Call}
    {ok : Bool} (hc : c ∈ σ.calls) (hstep : σ.callStep c ok = some σ') : Booting σ₀ uuid σ' := by
  have hw := h.calls c hc
  cases c with
  | flusher min ondisk file =>
      obtain rfl := Option.some.inj hstep
      simp only [flusherStart, hs, ne_eq, reduceCtorEq, not_false_eq_true, if_true]
      exact h.endCall _
  | flushType file =>
      obtain rfl := Option.some.inj hstep
      exact h.endCall _
  | compact =>
      obtain rfl := Option.some.inj hstep
      simp only [compactStart, hs, ne_eq, reduceCtorEq, not_false_eq_true, true_or, if_true]
      exact h.endCall _
  | _ => exact hw.elim

section Load

variable {l : Loader} {m : Bool}

/-- The READ of the super block finds the header of `cyanfs_super_make`. -/
theorem loadHeader_fresh (hf : disk.slice 0 superBlockSize = superMake uuid) (h1 : 1 ≤ total)
    (hl : l.endId = none ∧ l.journals = []) {s : Super} (ht : s.totalExtents = total) :
    (m = false ∧ ∃ c, l.parserHeader s m disk = .error { s with cursor := c }) ∨
    ∃ l' c, l.parserHeader s m disk = .readPage l' { s with cursor := c } ∧
      (c.extentId = 0 ∧ c.extentOff = 0 ∧ c.seq = 0 ∧ c.extentIdFlush = s.cursor.extentIdFlush ∧
        c.page = (s.cursor.read disk 0 superBlockSize).page) ∧
      l'.endId = none ∧ l'.journals = [0] ∧ l'.header.uuid = uuid := by
  have hparse : superParse (s.cursor.read disk 0 superBlockSize).page =
      some (mkfsHeader uuid 1) := by
    refine superParse_superMake ?_
    rw [Cursor.read, Buf.slice_patch_same _ _ _ _ le_rfl, ← hf, Buf.slice_eq_iff]
    intro i _
    simp
  unfold Loader.parserHeader
  simp only [hparse, hl.1]
  rw [if_neg (by simp)]
  split_ifs with hp
  · refine .inr ⟨_, _, rfl, ⟨rfl, rfl, rfl, rfl, rfl⟩, rfl, ?_, rfl⟩
    simp [hl.2, mkfsHeader]
  · refine .inl ⟨?_, _, rfl⟩
    by_contra hm
    exact hp ⟨by simp [mkfsHeader], by simp only [ht, mkfsHeader]; omega, by simp [hl.2],
      by simpa using hm⟩

/-- The READ of the first page finds no record, and the mount is over. -/
theorem loadPage_fresh (hf : FreshMkfs uuid disk) (h1 : 1 ≤ total)
    (hl : l.endId = none ∧ l.journals = [0] ∧ l.header.uuid = uuid) {s : Super}
    (hfree : s.free = Finset.range total)
    (hc : s.cursor.extentId = 0 ∧ s.cursor.extentOff = 0 ∧ s.cursor.seq = 0) :
    l.parserPage s m disk =
      .finish l ({ s with cursor := s.cursor.read disk (mapExtentOffset 0 0) 65536 }.takeJournal 0) := by
  obtain ⟨hid, hoff, hseq⟩ := hc
  obtain ⟨hend, hjournals, huuid⟩ := hl
  -- the page holds what the disk has there
  have hscan : scanRecord (s.cursor.read disk (mapExtentOffset 0 0) (pageLen 0)).page 0 uuid.seed 0 0 =
      .stop := by
    rw [← hf.empty]
    refine scanRecord_congr (n := journalPageSize) ?_ (by decide) (fun hs => hs.2.1) _ _
    intro a ha
    have hlen : pageLen 0 = journalPageSize := rfl
    simp only [Cursor.read, hlen]
    rw [Buf.patch_of_lt (by omega) (by omega)]
    simp
  have hstop : ∀ X : Super, X.free = Finset.range total →
      l.stopped X m false = .finish l (X.takeJournal 0) := by
    intro X hX
    have hfind : X.findExtent 0 = some 0 :=
      Super.findExtent_eq_some.2 ⟨rfl, by omega, by rw [hX]; simp; omega⟩
    simp [Loader.stopped, Loader.end, hend, hjournals, applyEntries, Super.replayWith, hfind]
  have hlen : pageLen 0 = 65536 := rfl
  simp only [Loader.parserPage, hid, hoff]
  rw [hlen, Loader.parsePage]
  simp only [Cursor.read_extentOff, Cursor.read_seq, hoff, hseq, huuid, journalHeaderSize]
  rw [if_neg (by omega)]
  rw [hlen] at hscan
  by_cases hsz : sizeOk (s.cursor.read disk (mapExtentOffset 0 0) 65536).page 0 0
  · rw [if_neg (not_not.2 hsz), if_neg, hscan]
    · exact hstop { s with cursor := s.cursor.read disk (mapExtentOffset 0 0) 65536 } hfree
    · have := hsz.2.1
      simp only [journalPageSize] at this
      omega
  · rw [if_pos hsz]
    exact hstop { s with cursor := s.cursor.read disk (mapExtentOffset 0 0) 65536 } hfree

end Load

/-- Where a step from a booting state can lead. -/
theorem Booting.step (hf : FreshMkfs uuid disk) (h1 : 1 ≤ total) {discard compact : Bool} {u : Uuid}
    (h : Booting (Sys.opened total discard compact u disk) uuid σ) {lab : Label}
    (hs : σ.step lab = some σ') :
    Booting (Sys.opened total discard compact u disk) uuid σ' ∨
    Mounted (Sys.opened total discard compact u disk) uuid σ' ∨
    MountFailed (Sys.opened total discard compact u disk) σ' := by
  have hbusy : σ.sup.ensureStatus = some .busy := by
    rw [h.sup]
    rfl
  have hfiles : ∀ id : ℕ, σ.sup.filesById[id]? = none := by
    intro id
    rw [h.sup]
    simp [Sys.opened, Super.opened]
  have hjournal : Booting (Sys.opened total discard compact u disk) uuid σ.flushNewJournal :=
    h.addCall trivial
  unfold Sys.step at hs
  split at hs
  · cases hs
  cases lab with
  | create name =>
      obtain rfl := Option.some.inj hs
      left
      split
      · exact h
      · simpa only [metaOp, Super.create, hbusy] using hjournal
  | fork fromId name =>
      obtain rfl := Option.some.inj hs
      left
      split
      · exact h
      · simpa only [metaOp, Super.fork, hbusy] using hjournal
  | rename id name =>
      obtain rfl := Option.some.inj hs
      left
      split
      · exact h
      · simpa only [metaOp, Super.rename, hbusy] using hjournal
  | truncate id size =>
      obtain rfl := Option.some.inj hs
      left
      split_ifs
      · simpa only [metaOp, Super.truncate, hbusy] using hjournal
      · exact h
  | delete id =>
      obtain rfl := Option.some.inj hs
      left
      simpa only [metaOp, Super.delete, hbusy] using hjournal
  | «open» id write =>
      obtain rfl := Option.some.inj hs
      left
      simpa only [Super.openFile, hbusy] using h
  | close id | read id off len | write id off len | discard id off len =>
      simp only [hfiles] at hs
      cases hs
  | superFlush ondisk | flush file | compact =>
      obtain rfl := Option.some.inj hs
      exact .inl (h.addCall trivial)
  | requeue file =>
      obtain rfl := Option.some.inj hs
      left
      refine ⟨⟨h.disk, h.flushers, h.nextFlusher, h.compact, h.log, h.calls⟩, h.sup, h.flush, ?_, ?_⟩
      · intro t ht hload
        rw [Sys.tasks, addTail, ← List.append_assoc] at ht
        rcases List.mem_append.1 ht with ht | ht
        · exact h.tasks t ht hload
        · exact ⟨file, List.mem_singleton.1 ht⟩
      · obtain ⟨l, t, hl, ht, hst⟩ := h.load
        refine ⟨l, t, hl, ?_, hst⟩
        rw [Sys.tasks, addTail, ← List.append_assoc, List.filter_append]
        change (σ.tasks).filter Task.isLoad ++ _ = _
        rw [ht]
        rfl
  | call c ok =>
      simp only at hs
      split_ifs at hs with hc
      exact .inl (h.call hbusy hc hs)
  | handlerWrite c start len data =>
      simp only at hs
      split at hs
      · split_ifs at hs with hc
        exact (h.calls _ hc.1).elim
      · cases hs
  | get =>
      simp only at hs
      split at hs
      · rename_i t q ha hq
        obtain rfl := Option.some.inj hs
        have htasks : Sys.tasks { σ with active := some t, queue := q } = σ.tasks := by
          simp [Sys.tasks, ha, hq]
        left
        refine ⟨⟨h.disk, h.flushers, h.nextFlusher, h.compact, h.log, h.calls⟩, h.sup, h.flush, ?_, ?_⟩
        · rw [htasks]
          exact h.tasks
        · rw [htasks]
          exact h.load
      · cases hs
  | done err m junk =>
      simp only at hs
      split at hs
      swap
      · cases hs
      rename_i t ha
      obtain rfl := Option.some.inj hs
      have htasks : σ.tasks = t :: σ.queue := by simp [Sys.tasks, ha]
      have hmem : ∀ t' ∈ σ.queue, t' ∈ σ.tasks := by
        intro t' ht'
        rw [htasks]
        exact List.mem_cons_of_mem _ ht'
      obtain ⟨l, t', hl, hfilter, hst⟩ := h.load
      rw [htasks] at hfilter
      by_cases hload : t.isLoad = true
      · -- the READ of the mount: it is the only one
        rw [List.filter_cons_of_pos hload] at hfilter
        obtain ⟨rfl, hrest⟩ := List.cons.inj hfilter
        have hqueue : ∀ t' ∈ σ.queue, ∃ f, t' = .requeue f := by
          intro t' ht'
          refine h.tasks t' (hmem t' ht') ?_
          by_contra hc
          have : t' ∈ σ.queue.filter Task.isLoad := List.mem_filter.2 ⟨ht', by simpa using hc⟩
          rw [hrest] at this
          exact absurd this (by simp)
        have hunt : ∀ s l q, Untouched (Sys.opened total discard compact u disk)
            { σ with active := none, sup := s, loader := l, queue := q } := fun s l q =>
          ⟨h.disk, h.flushers, h.nextFlusher, h.compact, h.log, h.calls⟩
        have hview : σ.disk.view = disk := by rw [h.disk]; rfl
        have hsup : ∀ c, { σ.sup with cursor := c } =
            { (Sys.opened total discard compact u disk).sup with cursor := c } := by
          intro c
          rw [h.sup]
        have hfail : ∀ c, MountFailed (Sys.opened total discard compact u disk)
            ({ σ with active := none }.loaded (.error { σ.sup with cursor := c })) := fun c =>
          ⟨hunt _ _ _, by rw [hsup]; rfl, fun t' ht' => hqueue t' (by simpa [Sys.tasks, loaded] using ht'), rfl⟩
        have herr : MountFailed (Sys.opened total discard compact u disk)
            ({ σ with active := none }.loaded (.error σ.sup)) := hfail σ.sup.cursor
        cases t with
        | loadHeader =>
            obtain ⟨hs₀, hend, hj⟩ := hst
            simp only [runTask, hl]
            split_ifs with he
            · exact .inr (.inr herr)
            · rw [hview]
              have ht₀ : σ.sup.totalExtents = total := by rw [hs₀]; rfl
              rcases loadHeader_fresh (m := m) hf.block h1 ⟨hend, hj⟩ ht₀ with
                ⟨-, c, hc⟩ | ⟨l', c, hc, ⟨hid, hoff, hseq, hfl, -⟩, hl'⟩
              · rw [hc]
                exact .inr (.inr (hfail c))
              · rw [hc]
                left
                refine ⟨hunt _ _ _, hsup c, hfl.trans h.flush, ?_, l', .loadPage, rfl, ?_,
                  ⟨hid, hoff, hseq⟩, hl'⟩
                · intro t' ht' hn
                  simp only [Sys.tasks, loaded, addTail, Option.toList_none, List.nil_append] at ht'
                  rcases List.mem_append.1 ht' with ht' | ht'
                  · exact hqueue t' ht'
                  · rw [List.mem_singleton.1 ht'] at hn
                    exact absurd hn (by simp [Task.isLoad])
                · simp only [Sys.tasks, loaded, addTail, Option.toList_none, List.nil_append,
                    List.filter_append, hrest]
                  rfl
        | loadPage =>
            obtain ⟨hcur, hend, hj, hu⟩ := hst
            simp only [runTask, hl]
            split_ifs with he
            · exact .inr (.inr herr)
            · rw [hview]
              have hfree : σ.sup.free = Finset.range total := by rw [h.sup]; rfl
              rw [loadPage_fresh (m := m) hf h1 ⟨hend, hj, hu⟩ hfree hcur]
              right; left
              refine ⟨hunt _ _ _, ?_, ?_, fun t' ht' => hqueue t' (by simpa [Sys.tasks, loaded] using ht'), rfl⟩
              · simp only [loaded, hu, hsup]
                rfl
              · simp only [loaded, Super.takeJournal, Cursor.read, hcur.1, hcur.2.1, hcur.2.2, h.flush]
        | _ => exact absurd hload (by simp [Task.isLoad])
      · -- a requeue callback
        obtain ⟨f, rfl⟩ := h.tasks t (by rw [htasks]; exact List.mem_cons_self) (by simpa using hload)
        left
        refine ⟨⟨h.disk, h.flushers, h.nextFlusher, h.compact, h.log, h.calls⟩, h.sup, h.flush, ?_, ?_⟩
        · intro t' ht'
          exact h.tasks t' (hmem t' (by simpa [Sys.tasks, runTask] using ht'))
        · refine ⟨l, t', hl, ?_, hst⟩
          rw [List.filter_cons_of_neg (by simp [Task.isLoad])] at hfilter
          simpa [Sys.tasks, runTask] using hfilter

theorem booting_opened (total : ℕ) (discard compact : Bool) (u uuid : Uuid) (disk : Buf) :
    Booting (Sys.opened total discard compact u disk) uuid
      (Sys.opened total discard compact u disk) := by
  refine ⟨⟨rfl, rfl, rfl, rfl, rfl, by simp [Sys.opened]⟩, rfl, rfl, ?_, ?_⟩
  · intro t ht hn
    simp only [tasks, Sys.opened, Option.toList_none, List.nil_append, List.mem_singleton] at ht
    rw [ht] at hn
    exact absurd hn (by simp [Task.isLoad])
  · exact ⟨_, .loadHeader, rfl, rfl, rfl, rfl, rfl⟩

/-- The labels of a mount that reads the super block and one page. -/
def mountLabels : List Label :=
  [.get, .done false true fun _ => 0, .get, .done false true fun _ => 0]

/-- The page buffer of the cursor behind a mount that reads the super block and one page. -/
def mountPage (disk : Buf) : Buf :=
  (Buf.patch (fun _ => 0) 0 superBlockSize fun i => disk (0 + i)).patch 0 65536 fun i =>
    disk (mapExtentOffset 0 0 + i)

/-- The state that the mount of a fresh file system leads to. -/
def mounted (total : ℕ) (discard compact : Bool) (uuid : Uuid) (disk : Buf) : Sys where
  sup := { (Super.opened total discard compact uuid fun _ => 0).takeJournal 0 with
    ready := true
    cursor := ⟨mountPage disk, 0, 0, 0, 0, 0⟩ }
  queue := []
  active := none
  flushers := ∅
  nextFlusher := 0
  loader := none
  compact := none
  calls := 0
  disk := ⟨disk, []⟩
  log := ⟨[], [], 0, fun _ => none, [], [], []⟩

theorem mounted_mounted (total : ℕ) (discard compact : Bool) (u uuid : Uuid) (disk : Buf) :
    Mounted (Sys.opened total discard compact u disk) uuid
      (mounted total discard compact uuid disk) where
  disk := rfl
  flushers := rfl
  nextFlusher := rfl
  compact := rfl
  log := rfl
  calls := by simp [mounted]
  sup := rfl
  cursor := rfl
  tasks := by simp [mounted, tasks]
  loader := rfl

theorem run_mountLabels (hf : FreshMkfs uuid disk) (h1 : 1 ≤ total) (discard compact : Bool)
    (u : Uuid) : (Sys.opened total discard compact u disk).run mountLabels =
      some (mounted total discard compact uuid disk) := by
  let σ₀ := Sys.opened total discard compact u disk
  let σ₁ : Sys := { σ₀ with active := some .loadHeader, queue := [] }
  have h₁ : σ₀.step .get = some σ₁ := rfl
  obtain ⟨l', c, hc, ⟨hid, hoff, hseq, hflush, hpage⟩, hl'⟩ :=
    (loadHeader_fresh (l := ⟨mkfsHeader u 0, none, []⟩) (m := true) hf.block h1 ⟨rfl, rfl⟩
      (show σ₀.sup.totalExtents = total from rfl)).resolve_left (by simp)
  let σ₂ : Sys := { σ₀ with sup := { σ₀.sup with cursor := c }, loader := some l', queue := [.loadPage] }
  have h₂ : σ₁.step (.done false true fun _ => 0) = some σ₂ := by
    have : σ₁.step (.done false true fun _ => 0) =
        some (Sys.loaded { σ₁ with active := none }
          (Loader.parserHeader ⟨mkfsHeader u 0, none, []⟩ σ₀.sup true disk)) := rfl
    rw [this, hc]
    rfl
  let σ₃ : Sys := { σ₂ with active := some .loadPage, queue := [] }
  have h₃ : σ₂.step .get = some σ₃ := rfl
  have h₄ : σ₃.step (.done false true fun _ => 0) = some (mounted total discard compact uuid disk) := by
    have : σ₃.step (.done false true fun _ => 0) =
        some (Sys.loaded { σ₃ with active := none }
          (l'.parserPage { σ₀.sup with cursor := c } true disk)) := rfl
    rw [this, loadPage_fresh hf h1 hl' (s := { σ₀.sup with cursor := c }) rfl ⟨hid, hoff, hseq⟩]
    obtain ⟨page, off, id, flush, ondisk, seq⟩ := c
    simp only at hid hoff hseq hflush hpage
    subst hid hoff hseq hflush hpage
    simp only [loaded, hl'.2.2]
    rfl
  change σ₀.run _ = _
  rw [mountLabels, run, h₁, Option.bind_some, run, h₂, Option.bind_some, run, h₃, Option.bind_some,
    run, h₄, Option.bind_some, run]

theorem exists_mounted_run (hf : FreshMkfs uuid disk) (h1 : 1 ≤ total) (discard compact : Bool)
    (u : Uuid) : ∃ σ, (Sys.opened total discard compact u disk).run mountLabels = some σ ∧
      Mounted (Sys.opened total discard compact u disk) uuid σ ∧ σ.active = none ∧ σ.queue = [] ∧
      σ.calls = 0 :=
  ⟨_, run_mountLabels hf h1 discard compact u, mounted_mounted .., rfl, rfl, rfl⟩

/-- **A fresh file system mounts.** -/
theorem exists_mounted (hf : FreshMkfs uuid disk) (h1 : 1 ≤ total) (discard compact : Bool)
    (u : Uuid) : ∃ σ, (Sys.opened total discard compact u disk).Reachable σ ∧
      Mounted (Sys.opened total discard compact u disk) uuid σ ∧ σ.active = none ∧ σ.queue = [] ∧
      σ.calls = 0 := by
  obtain ⟨σ, hrun, h⟩ := exists_mounted_run hf h1 discard compact u
  exact ⟨σ, ⟨_, hrun⟩, h⟩

end Sys

end Cyanfs
