/-
# A compaction on its way

The tasks of a compaction one behind the other (`OnTask`), and what each takes from the free
extents (`Comes`).  On a fresh file system nothing is to be written; on a journal whose first extent
links to a second one, the entry that is left goes to an extent of its own.
-/

import Cyanfs.Run.Ledger
import Cyanfs.Run.Remount
import Cyanfs.Journal.Writing

namespace Cyanfs

open Lib Std

namespace Sys

variable {σ τ υ : Sys} {s : Super} {t : Compact} {k : Task} {ls ls' : List Label} {X Y : Finset ℕ}
  {uuid u : Uuid} {disk : Buf} {total : ℕ}

theorem ledger_append (h : σ.run ls = some τ) (K : Ledger) :
    σ.ledger (ls ++ ls') K = τ.ledger ls' (σ.ledger ls K) := by
  induction ls generalizing σ K with
  | nil =>
      obtain rfl := Option.some.inj h
      rfl
  | cons l ls ih =>
      obtain ⟨ρ, hρ, hrest⟩ := Option.bind_eq_some_iff.1 h
      rw [List.cons_append, ledger, ledger, hρ]
      exact ih hrest _

/-- The run `ls` leads from `σ` to `τ`, and a compaction takes the extents `X` on the way. -/
def Comes (σ : Sys) (ls : List Label) (τ : Sys) (X : Finset ℕ) : Prop :=
  σ.run ls = some τ ∧ ∀ K : Ledger, σ.ledger ls K = { K with taken := K.taken ∪ X }

theorem Comes.append (h : σ.Comes ls τ X) (h' : τ.Comes ls' υ Y) :
    σ.Comes (ls ++ ls') υ (X ∪ Y) := by
  refine ⟨by rw [run_append, h.1]; exact h'.1, fun K => ?_⟩
  rw [ledger_append h.1, h.2, h'.2, Finset.union_assoc]

/-- The compaction `t` comes to its task `k`, and nothing else goes on. -/
structure OnTask (τ : Sys) (s : Super) (k : Task) (t : Compact) : Prop where
  sup : τ.sup = s
  bug : s.bug = none
  active : τ.active = none
  queue : τ.queue = [k]
  compact : τ.compact = some t

section Stages

variable {l : Loader} {Z : Super}

/-- The executor completes a task of the compaction. -/
theorem OnTask.comes (h : τ.OnTask s k t) (hk : k.isCompact = true) (hne : k ≠ .compactFinish)
    (hυ : { τ with active := none, queue := [] }.runTask k false true (fun _ => 0) = υ) :
    τ.Comes (work 1) υ (υ.sup.journal \ s.journal) := by
  have hb : τ.sup.bug = none := by rw [h.sup]; exact h.bug
  constructor
  · change τ.run [.get, .done false true fun _ => 0] = _
    rw [run_get_done hb h.active h.queue, hυ, run]
  · intro K
    have hdone : { τ with active := some k, queue := [] }.step (.done false true fun _ => 0) =
        some υ := by
      rw [step, if_neg (by simp [hb]), ← hυ]
    change τ.ledger [.get, .done false true fun _ => 0] K = _
    rw [ledger, step_get_eq hb h.active h.queue, Option.map_some, Option.getD_some, ledger, hdone,
      Option.map_some, Option.getD_some, ledger, ← h.sup]
    cases k with
    | compactFinish => exact absurd rfl hne
    | compactHeader | compactPage | compactWriter | compactWriteSuper | compactFlushSuper => rfl
    | _ => cases hk

/-- A task that takes no extent. -/
theorem OnTask.keeps (h : τ.OnTask s k t) (hk : k.isCompact = true)
    (hne : k ≠ .compactFinish)
    (hυ : { τ with active := none, queue := [] }.runTask k false true (fun _ => 0) = υ)
    (hs : υ.sup = τ.sup) : τ.Comes (work 1) υ ∅ := by
  have := h.comes hk hne hυ
  rwa [hs, h.sup, Finset.sdiff_self] at this

/-- The section of `cyanfs_super_compact`, and what follows it. -/
def compactLabels (endId : ℕ) : List Label :=
  [.compact, .call .compact true, .call (.compactInit endId) true]

theorem compacting_start (hbug : σ.sup.bug = none) (hst : σ.sup.ensureStatus = none)
    (hen : σ.sup.compactEnabled = true) (hw : σ.sup.compactWorking = false) (hq : σ.queue = [])
    (ha : σ.active = none) (hc : σ.calls = 0) :
    ∃ τ, σ.Comes (compactLabels σ.sup.cursor.extentIdOndisk) τ ∅ ∧
      τ.OnTask { σ.sup with compactWorking := true } .compactHeader
        (Compact.init σ.sup σ.sup.cursor.extentIdOndisk) ∧ τ.disk = σ.disk := by
  let s : Super := { σ.sup with compactWorking := true }
  let endId := σ.sup.cursor.extentIdOndisk
  let σ₂ : Sys := { σ with sup := s, calls := .compactInit endId ::ₘ 0 }
  let τ : Sys := { σ with
    sup := s, compact := some (Compact.init σ.sup endId), queue := [.compactHeader], calls := 0 }
  have hcond : ¬ (σ.sup.ensureStatus ≠ none ∨ σ.sup.compactEnabled = false ∨
      σ.sup.compactWorking = true) := by simp [hst, hen, hw]
  have e₁ : σ.step .compact = some (σ.addCall .compact) := by
    rw [step, if_neg (by simp [hbug])]
  have e₂ : (σ.addCall .compact).step (.call .compact true) = some σ₂ := by
    rw [step_call_eq (τ := σ.addCall .compact) hbug (Multiset.mem_cons_self _ _)]
    simp only [callStep, compactStart, addCall, if_neg hcond, setCall, hc, Multiset.erase_cons_head,
      σ₂, s, endId]
  have e₃ : σ₂.step (.call (.compactInit endId) true) = some τ := by
    have hmem : .compactInit endId ∈ σ₂.calls := by simp [σ₂]
    rw [step_call_eq (τ := σ₂) hbug hmem]
    simp only [callStep, compactInit, if_true, addTail, endCall, σ₂, hq, List.nil_append,
      Multiset.erase_cons_head, τ]
    rfl
  refine ⟨τ, ⟨?_, fun K => ?_⟩, ⟨rfl, hbug, ha, rfl, rfl⟩, rfl⟩
  · rw [compactLabels, run, e₁, Option.bind_some, run, e₂, Option.bind_some, run, e₃,
      Option.bind_some, run]
  · rw [compactLabels, ledger, e₁, Option.map_some, Option.getD_some, ledger, e₂, Option.map_some,
      Option.getD_some, ledger, e₃, Option.map_some, Option.getD_some, ledger, Finset.union_empty]
    rfl

theorem OnTask.header (h : τ.OnTask s .compactHeader t)
    (hload : t.loader.parserHeader t.priv true τ.disk.view = .readPage l Z) :
    ∃ υ, τ.Comes (work 1) υ ∅ ∧ υ.OnTask s .compactPage { t with loader := l, priv := Z } ∧
      υ.disk = τ.disk := by
  have hυ : { τ with active := none, queue := [] }.runTask .compactHeader false true (fun _ => 0) =
      { τ with
        active := none
        queue := [.compactPage]
        compact := some { t with loader := l, priv := Z } } := by
    simp only [runTask, h.compact, Bool.false_eq_true, if_false, hload, compactLoaded, addTail,
      List.nil_append]
  exact ⟨_, h.keeps rfl (by simp) hυ rfl, ⟨h.sup, h.bug, rfl, rfl, rfl⟩, rfl⟩

/-- The journal ends where the header says, and there is nothing to write. -/
theorem OnTask.header_empty (h : τ.OnTask s .compactHeader t)
    (hload : t.loader.parserHeader t.priv true τ.disk.view = .finish l Z)
    (hS : Z.snapshot = some []) (hv : l.header.version < u64Max) :
    ∃ υ t', τ.Comes (work 1) υ ∅ ∧ υ.OnTask s (.compactWriteSuper false) t' := by
  have hυ : ∃ t', { τ with active := none, queue := [] }.runTask .compactHeader false true
      (fun _ => 0) = { τ with
        active := none, queue := [.compactWriteSuper false], compact := some t' } := by
    simp only [runTask, h.compact, Bool.false_eq_true, if_false, hload, compactLoaded,
      compactLoaderFinish, hS]
    rw [if_neg (by simp [hv.ne]), if_pos trivial]
    exact ⟨_, rfl⟩
  obtain ⟨t', hυ⟩ := hυ
  exact ⟨_, t', h.keeps rfl (by simp) hυ rfl, ⟨h.sup, h.bug, rfl, rfl, rfl⟩⟩

/-- The journal has been read: the entries that are left go to the extent `b`. -/
theorem OnTask.page {S : List Entry} {b : ℕ} (h : τ.OnTask s .compactPage t)
    (hload : t.loader.parserPage t.priv true τ.disk.view = .finish l Z) (hS : Z.snapshot = some S)
    (hne : S ≠ []) (hseq : S.length ≤ Z.cursor.seq) (hlen : S.length ≤ u64Max)
    (hv : l.header.version < u64Max) (hb : s.findNearlyExtent 0 = some b) (hj : b ∉ s.journal) :
    ∃ υ t', τ.Comes (work 1) υ {b} ∧ υ.OnTask (s.takeJournal b) (.compactWriter none) t' ∧
      t'.loader = l ∧ t'.priv.journal = Z.journal ∧ t'.head = S.map (⟨·, false⟩) ∧
      t'.nextId = l.endId ∧ t'.priv.cursor.place = ⟨b, 0, Z.cursor.seq - S.length⟩ := by
  let t' : Compact :=
    { t with
      loader := l
      priv := { Z with cursor := { Z.cursor with
        extentId := b, extentOff := 0, seq := Z.cursor.seq - S.length } }
      head := S.map (⟨·, false⟩)
      nextId := l.endId
      header := { l.header with
        journalSeq := Z.cursor.seq - S.length, version := l.header.version + 1, journalId := b } }
  have hυ : { τ with active := none, queue := [] }.runTask .compactPage false true (fun _ => 0) =
      { τ with
        active := none
        queue := [.compactWriter none]
        sup := s.takeJournal b
        compact := some t' } := by
    have hb' : τ.sup.findNearlyExtent 0 = some b := by rw [h.sup]; exact hb
    simp only [runTask, h.compact, Bool.false_eq_true, if_false, hload, compactLoaded,
      compactLoaderFinish, hS, hb']
    rw [if_neg (by push Not; exact ⟨hlen, hseq, hv.ne⟩), if_neg hne, h.sup]
    rfl
  have hcomes := h.comes rfl (by simp) hυ
  have htaken : (s.takeJournal b).journal \ s.journal = {b} := by
    ext x
    by_cases hx : x = b
    · simp [Super.takeJournal, hx, hj]
    · simp [Super.takeJournal, hx]
  rw [show Sys.sup { τ with
        active := none
        queue := [.compactWriter none]
        sup := s.takeJournal b
        compact := some t' } = s.takeJournal b from rfl, htaken] at hcomes
  exact ⟨_, t', hcomes, ⟨rfl, h.bug, rfl, rfl, rfl⟩, rfl, rfl, rfl, rfl, rfl⟩

/-- The entries go to a record. -/
theorem OnTask.writer {c : Cursor} {req : WriteReq} {fl : Bool} {rest : List JEntry}
    (h : τ.OnTask s (.compactWriter none) t)
    (hw : writerEncode s t.priv.cursor t.head t.nextId false = .write s c req fl rest) :
    ∃ υ, τ.Comes (work 1) υ ∅ ∧ υ.OnTask s (.compactWriter (some req))
      { t with head := rest, priv := { t.priv with cursor := c } } := by
  have hυ : { τ with active := none, queue := [] }.runTask (.compactWriter none) false true
      (fun _ => 0) = { τ with
        active := none
        queue := [.compactWriter (some req)]
        compact := some { t with head := rest, priv := { t.priv with cursor := c } }
        log := { τ.log with records := τ.log.records ++ [req.write] } } := by
    simp only [runTask, h.compact, compactEncode, h.sup, hw, addTail, List.nil_append]
  exact ⟨_, h.keeps rfl (by simp) hυ rfl, ⟨h.sup, h.bug, rfl, rfl, rfl⟩⟩

/-- Behind the last record the header follows. -/
theorem OnTask.written {req : WriteReq} (h : τ.OnTask s (.compactWriter (some req)) t)
    (hhead : t.head = []) (herr : s.error = false) :
    ∃ υ, τ.Comes (work 1) υ ∅ ∧ υ.OnTask s (.compactWriteSuper true) t := by
  have hw : writerEncode s t.priv.cursor t.head t.nextId false = .finish := by
    rw [hhead, writerEncode, if_neg (by simp [herr]), if_pos rfl]
  have hυ : ∃ υ, { τ with active := none, queue := [] }.runTask (.compactWriter (some req)) false
      true (fun _ => 0) = υ ∧ υ.sup = τ.sup ∧ υ.active = none ∧
      υ.queue = [.compactWriteSuper true] ∧ υ.compact = some t := by
    refine ⟨_, rfl, ?_⟩
    simp only [runTask, h.compact, compactEncode, ioWrite, h.sup, hw, addTail, List.nil_append]
    exact ⟨trivial, trivial, trivial, trivial⟩
  obtain ⟨υ, hυ, hs, ha, hq, hc⟩ := hυ
  exact ⟨υ, h.keeps rfl (by simp) hυ hs, ⟨hs.trans h.sup, h.bug, ha, hq, hc⟩⟩

theorem OnTask.writeSuper {flush : Bool} (h : τ.OnTask s (.compactWriteSuper flush) t) :
    ∃ υ req t', τ.Comes (work 1) υ ∅ ∧ υ.OnTask s (.compactFlushSuper req) t' ∧
      t'.loader = t.loader ∧ t'.priv.journal = t.priv.journal := by
  have key : ∀ ρ : Sys, ∃ req t',
      (ρ.compactWriteSuper t false).queue = ρ.queue ++ [.compactFlushSuper req] ∧
      (ρ.compactWriteSuper t false).compact = some t' ∧ t'.loader = t.loader ∧
      t'.priv.journal = t.priv.journal ∧ (ρ.compactWriteSuper t false).sup = ρ.sup ∧
      (ρ.compactWriteSuper t false).active = ρ.active :=
    fun ρ => ⟨_, _, rfl, rfl, rfl, rfl, rfl, rfl⟩
  cases flush with
  | true =>
      obtain ⟨req, t', hq, hc, hl, hj, hs, ha⟩ :=
        key (ioFlush { τ with active := none, queue := [] } false)
      refine ⟨_, req, t', h.keeps rfl (by simp) ?_ hs, ⟨hs.trans h.sup, h.bug, ha, hq, hc⟩, hl, hj⟩
      simp only [runTask, h.compact, if_true]
  | false =>
      obtain ⟨req, t', hq, hc, hl, hj, hs, ha⟩ := key { τ with active := none, queue := [] }
      refine ⟨_, req, t', h.keeps rfl (by simp) ?_ hs, ⟨hs.trans h.sup, h.bug, ha, hq, hc⟩, hl, hj⟩
      simp only [runTask, h.compact, Bool.false_eq_true, if_false]

theorem OnTask.flushSuper {req : WriteReq} (h : τ.OnTask s (.compactFlushSuper req) t) :
    ∃ υ, τ.Comes (work 1) υ ∅ ∧ υ.OnTask s .compactFinish t :=
  ⟨_, h.keeps rfl (by simp) rfl rfl, ⟨h.sup, h.bug, rfl, rfl, h.compact⟩⟩

end Stages

/-- **The header of a first compaction** of a fresh file system. -/
theorem exists_header_write {discard : Bool}
    (hm : Mounted (Sys.opened total discard true u disk) uuid σ) (ha : σ.active = none)
    (hq : σ.queue = []) (hc : σ.calls = 0)
    (hp : superParse σ.disk.view = some (mkfsHeader uuid 1)) :
    ∃ τ req t, σ.run (compactLabels 0 ++ work 2) = some τ ∧
      τ.OnTask { σ.sup with compactWorking := true } (.compactFlushSuper req) t := by
  have hon : σ.sup.cursor.extentIdOndisk = 0 := by rw [hm.cursor]
  obtain ⟨τ₁, h₁, ht₁, hd₁⟩ := compacting_start (by rw [hm.sup]; rfl) (by rw [hm.sup]; rfl)
    (by rw [hm.sup]; rfl) (by rw [hm.sup]; rfl) hq ha hc
  rw [hon] at h₁ ht₁
  obtain ⟨c, -, hload⟩ := Loader.parserHeader_arrived (l := (Compact.init σ.sup 0).loader)
    (X := (Compact.init σ.sup 0).priv) (h := mkfsHeader uuid 1) (d := τ₁.disk.view)
    (by rw [hd₁]; exact hp) rfl rfl
  obtain ⟨τ₂, t₂, h₂, ht₂⟩ := ht₁.header_empty hload rfl (show 1 < u64Max by decide)
  obtain ⟨τ₃, req, t₃, h₃, ht₃, -⟩ := ht₂.writeSuper
  exact ⟨τ₃, req, t₃, (h₁.append (h₂.append h₃)).1, ht₃⟩

/-! ### A journal of two extents -/

/-- A record with the entry of a file, that links to the second extent of the journal. -/
def linkedDisk : Buf := recordDisk smallUuid [.create 1 .letter] (some 1)

theorem recordOk_linked : RecordOk 0 [.create 1 .letter] (some 1) journalBlockSize := by
  have hused : usedSize (linked [.create 1 .letter] (some 1)) = 157 := by
    simp only [usedSize, linked, Option.toList_some, List.map_cons, List.map_nil, List.cons_append,
      List.nil_append, List.flatMap_cons, List.flatMap_nil, List.length_append, Entry.length_encode]
    rfl
  refine ⟨by simp, by simp [Entry.Regular, Entry.type], by simp [linked, Entry.Fits], rfl, ?_, ?_,
    by decide, by decide⟩
  · rw [hused]; decide
  · rw [hused]; decide

theorem linkedDisk_tells :
    Tells linkedDisk smallUuid.seed ⟨0, 0, 0⟩ [0, 1] [.create 1 .letter] ⟨1, 0, 1⟩ := by
  have hscan : scanAt linkedDisk smallUuid.seed ⟨0, 0, 0⟩ =
      .record 512 [.create 1 .letter] (some 1) := scanAt_recordDisk recordOk_linked
  have hstep := Trace.step hscan (.refl _)
  rw [List.append_nil] at hstep
  exact ⟨[1], rfl, hstep⟩

theorem linkedDisk_stop : scanAt linkedDisk smallUuid.seed ⟨1, 0, 1⟩ = .stop :=
  scanAt_of_not_hasRecord (not_hasRecord_of_size
    (size_decodeHeader_of_zero (recordDisk_zero _ _ _ (by decide))))

/-- The super that the mount of `linkedDisk` ends with. -/
def linkedSuper : Super :=
  (applyEntries true (Super.opened 16 true true smallUuid fun _ => 0)
    [.create 1 .letter, .next 0, .next 1]).1

theorem exists_linked_run : ∃ n σ c,
    (Sys.opened 16 true true smallUuid linkedDisk).run (work n) = some σ ∧
      σ.sup = { linkedSuper with ready := true, uuid := smallUuid, cursor := c } ∧
      c.place = ⟨1, 0, 1⟩ ∧ c.extentIdOndisk = 1 ∧ σ.queue = [] ∧ σ.active = none ∧
      σ.calls = 0 ∧ σ.disk = ⟨linkedDisk, []⟩ :=
  exists_mount (h := mkfsHeader smallUuid 1) (superParse_superMake (recordDisk_block _ _ _))
    linkedDisk_tells linkedDisk_stop (by simp) (by simp) (by decide) rfl rfl

theorem linkedSuper_snapshot : ∃ Y Z : Super,
    applyEntries true (Super.opened 16 false false smallUuid fun _ => 0) [.create 1 .letter] =
      (Y, true) ∧
    applyEntries true Y [.next 0] = (Z, true) ∧ Z.snapshot = some [.create 1 .letter] ∧
    Z.journal = {0} := by
  obtain ⟨Y, Z, happ, hnext, hfile, hmax, hfiles, hjournal⟩ : ∃ Y Z : Super,
      applyEntries true (Super.opened 16 false false smallUuid fun _ => 0) [.create 1 .letter] =
        (Y, true) ∧
      applyEntries true Y [.next 0] = (Z, true) ∧ Z.filesById[1]?.isSome = true ∧
      Z.maxFileId = 1 ∧
      (Z.filesById.toList.flatMap fun x => Z.fileEntries x.2) = [.create 1 .letter] ∧
      Z.journal = {0} :=
    ⟨_, _, rfl, rfl, rfl, rfl, rfl, rfl⟩
  refine ⟨Y, Z, happ, hnext, ?_, hjournal⟩
  obtain ⟨f, hf⟩ := Option.isSome_iff_exists.1 hfile
  have hmark : Z.markerEntries = some [] := if_pos (hmax.symm ▸ Super.le_maxLiveId_of_file hf)
  rw [Super.snapshot, hmark, hfiles]
  rfl

/-- **A compaction of the first extent**, up to its record and up to its last task. -/
theorem exists_linked_compaction : ∃ n σ τ υ s t t' req,
    (Sys.opened 16 true true smallUuid linkedDisk).run (work n) = some σ ∧
    σ.sup.ready = true ∧ σ.sup.error = false ∧ σ.sup.compactWorking = false ∧
    σ.sup.journal = {0, 1} ∧ superParse σ.disk.view = some (mkfsHeader smallUuid 1) ∧
    σ.Comes (compactLabels 1 ++ work 3) τ {2} ∧ τ.OnTask s (.compactWriter (some req)) t ∧
    τ.Comes (work 3) υ ∅ ∧ υ.OnTask s .compactFinish t' ∧
    s.journal = {0, 1, 2} ∧ s.ready = true ∧ s.error = false ∧
    t'.loader.endId = some 1 ∧ t'.priv.journal = {0} := by
  obtain ⟨n, σ, c, hrun, hsup, -, hon, hq, ha, hc, hd⟩ := exists_linked_run
  obtain ⟨Y, Z, happ, hnext, hS, hjZ⟩ := linkedSuper_snapshot
  have hpriv : (Compact.init σ.sup 1).priv = Super.opened 16 false false smallUuid fun _ => 0 := by
    rw [hsup]
    rfl
  have hview : σ.disk.view = linkedDisk := by rw [hd]; rfl
  have hidle : σ.sup.bug = none ∧ σ.sup.ensureStatus = none ∧ σ.sup.compactEnabled = true ∧
      σ.sup.compactWorking = false ∧ σ.sup.totalExtents = 16 ∧ σ.sup.journal = {0, 1} ∧
      σ.sup.findNearlyExtent 0 = some 2 ∧ σ.sup.ready = true ∧ σ.sup.error = false := by
    rw [hsup]
    exact ⟨rfl, rfl, rfl, rfl, rfl, show linkedSuper.journal = _ by decide, rfl, rfl, rfl⟩
  obtain ⟨hbug, hst, hen, hw, htot, hjournal, hfree, hready, herr⟩ := hidle
  obtain ⟨τ₁, h₁, ht₁, hd₁⟩ := compacting_start hbug hst hen hw hq ha hc
  rw [show σ.sup.cursor.extentIdOndisk = 1 by rw [hsup]; exact hon] at h₁ ht₁
  -- the record in front of the second extent is read
  obtain ⟨c₁, c₂, hseq, hhead, hpage⟩ := compaction_loads smallUuid (s := σ.sup) recordOk_linked
    (by decide) (by omega) (by rw [htot]; decide) (by rw [hpriv]; exact happ) hnext
  obtain ⟨τ₂, h₂, ht₂, hd₂⟩ := ht₁.header (by rw [hd₁, hview]; exact hhead)
  have hout : 2 ∉ Super.journal { σ.sup with compactWorking := true } := by
    rw [show Super.journal { σ.sup with compactWorking := true } = {0, 1} from hjournal]
    decide
  obtain ⟨τ₃, t₃, h₃, ht₃, hl₃, hj₃, hhead₃, hnext₃, hplace₃⟩ :=
    ht₂.page (Z := { Z with cursor := c₂ }) (by rw [hd₂, hd₁, hview]; exact hpage) hS (by simp)
      hseq.ge (by decide) (show 1 < u64Max by decide) hfree hout
  -- its entry goes to the extent that is taken
  have hw₃ := writerEncode_block (s := Super.takeJournal { σ.sup with compactWorking := true } 2)
    (c := t₃.priv.cursor) t₃.nextId herr
    (by rw [hplace₃]; exact Place.valid_zero _ _)
    (by rw [show t₃.priv.cursor.extentOff = 0 from congrArg Place.extentOff hplace₃]; decide)
    (show t₃.head ≠ [] by rw [hhead₃]; simp) (by rw [hhead₃]; simp [Entry.Regular, Entry.type])
    (by rw [hhead₃]; decide)
    (by rw [hhead₃, show t₃.priv.cursor.seq = 0 by
      rw [show t₃.priv.cursor.seq = _ from congrArg Place.seq hplace₃, hseq]; rfl]; decide)
  obtain ⟨τ₄, h₄, ht₄⟩ := ht₃.writer hw₃
  -- and then the header is written
  obtain ⟨τ₅, h₅, ht₅⟩ := ht₄.written rfl herr
  obtain ⟨τ₆, req, t₆, h₆, ht₆, hl₆, hj₆⟩ := ht₅.writeSuper
  obtain ⟨τ₇, h₇, ht₇⟩ := ht₆.flushSuper
  refine ⟨n, σ, τ₄, τ₇, _, _, t₆, _, hrun, hready, herr, hw, hjournal, ?_, ?_, ht₄, ?_, ht₇, ?_,
    hready, herr, ?_, ?_⟩
  · rw [hview]
    exact superParse_superMake (recordDisk_block _ _ _)
  · exact h₁.append (h₂.append (h₃.append h₄))
  · exact h₅.append (h₆.append h₇)
  · rw [show Super.journal (Super.takeJournal { σ.sup with compactWorking := true } 2) =
      insert 2 σ.sup.journal from rfl, hjournal]
    decide
  · rw [hl₆, show _ = t₃.loader from rfl, hl₃]
  · rw [hj₆]
    exact hj₃.trans hjZ

end Sys

end Cyanfs
