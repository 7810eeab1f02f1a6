/-
# The books of a run

Every run of a device that is big enough keeps the journal set equal to a chain on the disk
(`Reachable.booked`): while the mount is under way the set is empty (`Mounting`), behind it
`Held` says where the chain is, and an error mark on the super ends the bookkeeping.
-/

import Cyanfs.Run.Rewrite
import Cyanfs.Run.Compacting
import Cyanfs.Journal.Packing

namespace Cyanfs

open Lib Std

/-- How far the mount has walked when a READ is queued, and the entries that it has taken into
`Z` on the way. -/
def Walks (d : Buf) (Z s : Super) (l : Loader) (k : Ledger) : Task → Prop
  | .loadHeader => l.journals = [] ∧ (s.bug = none → Fed Z [] s)
  | .loadPage => k = ⟨some l.header, ∅⟩ ∧ superParse d = some l.header ∧ l.journals.Nodup ∧
      ∃ es, Tells d l.header.uuid.seed l.header.place l.journals es s.cursor.place ∧
        (s.bug = none → Fed Z es s)
  | _ => False

theorem Walks.bug {d : Buf} {Z s : Super} {l : Loader} {k : Ledger} {t : Task} {bug : Option Bug}
    (h : Walks d Z s l k t) (hb : bug = none → bug = s.bug) : Walks d Z { s with bug := bug } l k t := by
  have hfed : ∀ {es : List Entry}, (s.bug = none → Fed Z es s) → bug = none →
      Fed Z es { s with bug := bug } := fun hfed hn => by
    obtain rfl := hb hn
    exact hfed hn
  cases t with
  | loadHeader => exact ⟨h.1, hfed h.2⟩
  | loadPage =>
      obtain ⟨hk, hp, hn, es, ht, hf⟩ := h
      exact ⟨hk, hp, hn, es, ht, hfed hf⟩
  | _ => exact h

/-- The journal WRITE of a task. -/
def Task.journalWrite? : Task → Option WriteReq
  | .writer _ io | .compactWriter io => io
  | _ => none

namespace Sys

variable {σ σ' : Sys} {total : ℕ} {h : SuperHeader} {C bs : List ℕ} {w : Place} {disk : Buf}
  {k : Ledger} {Z : Super}

/-! ### The mount -/

/-- The mount of `disk` into `Z` is not over. -/
structure Mounting (σ : Sys) (Z : Super) (disk : Buf) (k : Ledger) : Prop where
  ready : σ.sup.ready = false
  journal : σ.sup.journal = ∅
  working : σ.sup.compactWorking = false
  fresh : σ.disk = ⟨disk, []⟩ ∧ σ.log.written = [] ∧ σ.log.durable = 0
  calls : ∀ c ∈ σ.calls, c.Waits
  tasks : ∀ t ∈ σ.tasks, t.isLoad = false → ∃ f, t = .requeue f
  load : ∃ l t, σ.loader = some l ∧ l.endId = none ∧ σ.tasks.filter Task.isLoad = [t] ∧
    Walks σ.disk.view Z σ.sup l k t

theorem mounting_opened (total : ℕ) (discard compact : Bool) (uuid : Uuid) (disk : Buf) (k : Ledger) :
    (Sys.opened total discard compact uuid disk).Mounting
      (Sys.opened total discard compact uuid disk).sup disk k where
  ready := rfl
  journal := rfl
  working := rfl
  fresh := ⟨rfl, rfl, rfl⟩
  calls := by simp [Sys.opened]
  tasks t ht hn := by
    rw [List.mem_singleton.1 (show t ∈ [Task.loadHeader] from ht)] at hn
    cases hn
  load := ⟨_, .loadHeader, rfl, rfl, rfl, rfl, fun _ => .nil _ _⟩

/-- A thread that comes too early changes nothing of the mount. -/
theorem Mounting.keep {cs : Multiset Call} {bug : Option Bug} (hm : σ.Mounting Z disk k)
    (hc : ∀ c ∈ cs, c.Waits) (hb : bug = none → bug = σ.sup.bug) :
    { σ with calls := cs, sup := { σ.sup with bug := bug } }.Mounting Z disk k := by
  obtain ⟨l, t, hl, hend, ht, hw⟩ := hm.load
  exact ⟨hm.ready, hm.journal, hm.working, hm.fresh, hc, hm.tasks, l, t, hl, hend, ht, hw.bug hb⟩

theorem Mounting.addCall {c : Call} (hm : σ.Mounting Z disk k) (hc : c.Waits) :
    (σ.addCall c).Mounting Z disk k :=
  hm.keep (fun d hd => (Multiset.mem_cons.1 hd).elim (fun h => h ▸ hc) (hm.calls d)) fun _ => rfl

theorem Mounting.endCall (hm : σ.Mounting Z disk k) (c : Call) : (σ.endCall c).Mounting Z disk k :=
  hm.keep (fun d hd => hm.calls d (Multiset.mem_of_mem_erase hd)) fun _ => rfl

theorem Mounting.requeue (hm : σ.Mounting Z disk k) (file : ℕ) :
    (σ.addTail (.requeue file)).Mounting Z disk k := by
  refine ⟨hm.ready, hm.journal, hm.working, hm.fresh, hm.calls, fun t ht hn => ?_, ?_⟩
  · rw [tasks_addTail] at ht
    rcases List.mem_append.1 ht with ht | ht
    · exact hm.tasks t ht hn
    · exact ⟨file, List.mem_singleton.1 ht⟩
  · obtain ⟨l, t, hl, hend, ht, hw⟩ := hm.load
    refine ⟨l, t, hl, hend, ?_, hw⟩
    rw [tasks_addTail, List.filter_append, ht]
    rfl

/-- **A thread that comes too early** is turned away. -/
theorem Mounting.call {c : Call} {ok : Bool} (hm : σ.Mounting Z disk k) (hc : c ∈ σ.calls)
    (hs : σ.sup.ensureStatus ≠ none) (hstep : σ.callStep c ok = some σ') : σ'.Mounting Z disk k := by
  have hw := hm.calls c hc
  cases c with
  | flusher min ondisk file =>
      obtain rfl := Option.some.inj hstep
      simp only [flusherStart, if_pos hs]
      exact hm.endCall _
  | flushType file =>
      obtain rfl := Option.some.inj hstep
      exact hm.endCall _
  | compact =>
      obtain rfl := Option.some.inj hstep
      simp only [compactStart, ne_eq, hs, not_false_eq_true, true_or, if_true]
      exact hm.endCall _
  | _ => exact hw.elim

theorem Mounting.status (hm : σ.Mounting Z disk k) : ∃ err, σ.sup.ensureStatus = some err := by
  simp only [Super.ensureStatus, hm.ready, Bool.false_eq_true, if_false]
  split_ifs
  · exact ⟨_, rfl⟩
  · exact ⟨_, rfl⟩

/-- Nothing but the READs of the mount goes on. -/
theorem Mounting.thread {l : Label} (hm : σ.Mounting Z disk k) (hσ : σ.Orderly total)
    (hs : σ.step l = some σ') (hd : ∀ err m junk, l ≠ .done err m junk) : σ'.Mounting Z disk k := by
  obtain ⟨err, hst⟩ := hm.status
  have hclosed : ∀ {id : ℕ} {f : File}, σ.sup.filesById[id]? = some f → f.openType = .closed :=
    fun hf => hσ.sound.calls.closed hm.ready _ _ hf
  have hjournal : σ.flushNewJournal.Mounting Z disk k := hm.addCall trivial
  unfold Sys.step at hs
  split at hs
  · cases hs
  cases l with
  | create name =>
      obtain rfl := Option.some.inj hs
      split
      · exact hm
      · simpa only [metaOp, Super.create, hst] using hjournal
  | fork fromId name =>
      obtain rfl := Option.some.inj hs
      split
      · exact hm
      · simpa only [metaOp, Super.fork, hst] using hjournal
  | rename id name =>
      obtain rfl := Option.some.inj hs
      split
      · exact hm
      · simpa only [metaOp, Super.rename, hst] using hjournal
  | truncate id size =>
      obtain rfl := Option.some.inj hs
      split_ifs
      · simpa only [metaOp, Super.truncate, hst] using hjournal
      · exact hm
  | delete id =>
      obtain rfl := Option.some.inj hs
      simpa only [metaOp, Super.delete, hst] using hjournal
  | «open» id write =>
      obtain rfl := Option.some.inj hs
      simpa only [Super.openFile, hst] using hm
  | close id =>
      simp only at hs
      split at hs
      · cases hs
      rename_i f hf
      split_ifs at hs
      obtain rfl := Option.some.inj hs
      simp only [Super.closeFile, hclosed hf]
      exact hm.keep hm.calls fun h => by cases h
  | read id off len =>
      simp only at hs
      split at hs
      · cases hs
      rename_i f hf
      rw [if_pos (hclosed hf)] at hs
      cases hs
  | write id off len | discard id off len =>
      simp only at hs
      split at hs
      · cases hs
      rename_i f hf
      rw [if_neg (by simp [hclosed hf])] at hs
      obtain rfl := Option.some.inj hs
      exact hm
  | superFlush ondisk | flush file | compact =>
      obtain rfl := Option.some.inj hs
      exact hm.addCall trivial
  | requeue file =>
      obtain rfl := Option.some.inj hs
      exact hm.requeue file
  | call c ok =>
      simp only at hs
      split_ifs at hs with hc
      exact hm.call hc (by simp [hst]) hs
  | handlerWrite c start len data =>
      simp only at hs
      split at hs
      · split_ifs at hs with hc
        exact (hm.calls _ hc.1).elim
      · cases hs
  | get =>
      simp only at hs
      split at hs
      · rename_i t q ha hq
        obtain rfl := Option.some.inj hs
        have htasks : Sys.tasks { σ with active := some t, queue := q } = σ.tasks := by
          simp [Sys.tasks, ha, hq]
        refine ⟨hm.ready, hm.journal, hm.working, hm.fresh, hm.calls, ?_, ?_⟩
        · rw [htasks]
          exact hm.tasks
        · rw [htasks]
          exact hm.load
      · cases hs
  | done err m junk => exact absurd rfl (hd err m junk)

theorem Mounting.requeues {t : Task} (hm : σ.Mounting Z disk k) (ha : σ.active = some t)
    (ht : t.isLoad = true) : σ.tasks.filter Task.isLoad = [t] ∧ ∀ u ∈ σ.queue, ∃ f, u = .requeue f := by
  obtain ⟨l, t', -, -, hf, -⟩ := hm.load
  rw [tasks_of_active ha, List.filter_cons_of_pos ht] at hf
  obtain ⟨rfl, hrest⟩ := List.cons.inj hf
  refine ⟨by rw [tasks_of_active ha, List.filter_cons_of_pos ht, hrest], fun u hu => ?_⟩
  refine hm.tasks u (by rw [tasks_of_active ha]; exact List.mem_cons_of_mem _ hu) ?_
  by_contra hn
  have hmem : u ∈ σ.queue.filter Task.isLoad := List.mem_filter.2 ⟨hu, by simpa using hn⟩
  rw [hrest] at hmem
  cases hmem

/-- **The mount is over**: the journal is the chain that it has walked. -/
theorem held_of_loaded {l : Loader} {Y : Super} (hq : ∀ u ∈ σ.queue, ∃ f, u = .requeue f)
    (hc : ∀ c ∈ σ.calls, c.Waits) (hw : Y.compactWorking = false)
    (hp : superParse σ.disk.view = some l.header) (hn : l.journals.Nodup)
    (hr : Reaches σ.disk.view l.header.uuid.seed l.header.place l.journals Y.cursor.place)
    (hj : Y.journal = l.journals.toFinset) :
    ({ σ with active := none }.loaded (.finish l Y)).Held total l.header [] l.journals
      Y.cursor.place := by
  have hnone : ∀ u ∈ ({ σ with active := none }.loaded (.finish l Y)).tasks, ∃ f, u = .requeue f := hq
  have hrec : ({ σ with active := none }.loaded (.finish l Y)).records = [] := by
    refine List.filterMap_eq_nil_iff.2 fun u hu => ?_
    obtain ⟨f, rfl⟩ := hnone u hu
    rfl
  refine ⟨rfl, rfl, [], ⟨rfl, hr, .rest hrec rfl, ?_, ?_, ?_, ?_⟩,
    .idle hw ?_ ?_ rfl hp⟩
  · simpa using hn
  · rw [List.append_nil, List.append_nil]
    exact hj
  · exact hr.mem_last
  · intro fl hm
    obtain ⟨f, hf⟩ := hnone _ hm
    cases hf
  · refine filterMap_init_of_none fun c hm => ?_
    have := hc c hm
    cases c with
    | flusher | flushType | compact => rfl
    | _ => exact this.elim
  · refine List.filter_eq_nil_iff.2 fun u hu => ?_
    obtain ⟨f, rfl⟩ := hnone u hu
    simp [Task.isCompact]

theorem MountOut.flags {l : Loader} {out : LoaderOut} (ho : σ.MountOut l out) :
    out.super.ready = σ.sup.ready ∧ out.super.compactWorking = σ.sup.compactWorking := by
  refine ho.rule (P := fun X => X.ready = σ.sup.ready ∧ X.compactWorking = σ.sup.compactWorking)
    (fun _ _ h => h) (fun X X' e hr h => ?_) ⟨rfl, rfl⟩
  obtain ⟨_, _, _, _, _, _, _, _, _, _, _, rfl⟩ := hr.shape
  exact h

/-- The mount goes on with another READ. -/
theorem Mounting.readPage {t : Task} {l : Loader} {Y : Super} {k' : Ledger} (hm : σ.Mounting Z disk k)
    (ha : σ.active = some t) (ht : t.isLoad = true) (hr : Y.ready = false) (hj : Y.journal = ∅)
    (hw : Y.compactWorking = false) (hend : l.endId = none)
    (hwalk : Walks σ.disk.view Z Y l k' .loadPage) :
    ({ σ with active := none }.loaded (.readPage l Y)).Mounting Z disk k' := by
  obtain ⟨hf, hq⟩ := hm.requeues ha ht
  have hnone : σ.queue.filter Task.isLoad = [] := by
    refine List.filter_eq_nil_iff.2 fun u hu => ?_
    obtain ⟨f, rfl⟩ := hq u hu
    simp [Task.isLoad]
  refine ⟨hr, hj, hw, hm.fresh, hm.calls, fun u hu hn => ?_, l, .loadPage, rfl, hend, ?_, hwalk⟩
  · rcases List.mem_append.1 (show u ∈ σ.queue ++ [.loadPage] from hu) with hu | hu
    · exact hq u hu
    · rw [List.mem_singleton.1 hu] at hn
      cases hn
  · show (σ.queue ++ [Task.loadPage]).filter Task.isLoad = _
    rw [List.filter_append, hnone]
    rfl

/-- The mount is over: it has taken the entries of the chain from `h` into `Z`. -/
structure Fetched (σ : Sys) (Z : Super) (disk : Buf) (h : SuperHeader) (bs : List ℕ) (w : Place)
    (es : List Entry) : Prop where
  fresh : σ.disk = ⟨disk, []⟩ ∧ σ.log.written = [] ∧ σ.log.durable = 0
  working : σ.sup.compactWorking = false
  parse : superParse disk = some h
  tells : Tells disk h.uuid.seed h.place bs es w
  stops : Stops disk h.uuid.seed w
  fed : ∃ Y, Fed Z (es ++ bs.map .next) Y ∧ σ.sup = { Y with
    ready := true
    uuid := h.uuid
    cursor := { Y.cursor with extentIdOndisk := Y.cursor.extentId } }

/-- The mount goes on, or it is over and the chain from the header `h` is there. -/
def Arrives (σ : Sys) (total : ℕ) (Z : Super) (disk : Buf) (k : Ledger) : Prop :=
  σ.Mounting Z disk k ∨
    ∃ h bs w es, k = ⟨some h, ∅⟩ ∧ σ.Held total h [] bs w ∧ σ.Fetched Z disk h bs w es

/-- **The super block has been read.** -/
theorem Mounting.loadHeader {err m : Bool} {junk : Buf} (hm : σ.Mounting Z disk k)
    (hb : σ.sup.bug = none) (ha : σ.active = some .loadHeader)
    (he : ({ σ with active := none }.runTask .loadHeader err m junk).sup.error = false) :
    ({ σ with active := none }.runTask .loadHeader err m junk).Mounting Z disk
      ⟨superParse σ.disk.view, ∅⟩ := by
  obtain ⟨l, t, hl, hend, hf, hwalk⟩ := hm.load
  obtain rfl : t = .loadHeader := by
    rw [(hm.requeues ha rfl).1] at hf
    exact (List.cons.inj hf).1.symm
  simp only [runTask, hl] at he ⊢
  cases err with
  | true => cases he
  | false =>
      simp only [Bool.false_eq_true, if_false] at he ⊢
      have hout := Loader.parserHeader_out (d := σ.disk.view) m l σ.sup
      have hflags := (MountOut.header (l := l) m ha).flags
      have hhead : ∀ l' Y, l.parserHeader σ.sup m σ.disk.view = .readPage l' Y ∨
          l.parserHeader σ.sup m σ.disk.view = .finish l' Y →
            superParse σ.disk.view = some l'.header :=
        fun l' Y => Loader.header_of_parserHeader
      revert hout hhead hflags he
      generalize l.parserHeader σ.sup m σ.disk.view = out
      intro he hout hflags hhead
      cases hout with
      | error Y => cases he
      | @next h Y hmax hplace hfed hbound hnew hne =>
          have hp := hhead _ _ (.inl rfl)
          have hfed' : Fed σ.sup ([] ++ [].map .next) Y := hfed
          rw [hp]
          refine hm.readPage ha rfl (hflags.1.trans hm.ready)
            (journal_of_fed hfed' (by simp) hm.journal) (hflags.2.trans hm.working) hend ?_
          obtain ⟨hj, hz⟩ := hwalk
          refine ⟨rfl, hp, ?_, [], ?_, fun _ => (hz hb).trans hfed⟩
          · rw [hj]
            exact List.nodup_singleton _
          · rw [hj, hplace]
            exact .refl _
      | finish _ _ _ hend' => rw [hend] at hend'; cases hend'

/-- **A page of the chain has been read.** -/
theorem Mounting.loadPage {err m : Bool} {junk : Buf} (hm : σ.Mounting Z disk k)
    (hb : σ.sup.bug = none) (ha : σ.active = some .loadPage)
    (he : ({ σ with active := none }.runTask .loadPage err m junk).sup.error = false) :
    ({ σ with active := none }.runTask .loadPage err m junk).Arrives total Z disk k := by
  obtain ⟨l, t, hl, hend, hf, hwalk⟩ := hm.load
  obtain rfl : t = .loadPage := by
    rw [(hm.requeues ha rfl).1] at hf
    exact (List.cons.inj hf).1.symm
  obtain ⟨hk, hp, hn, fs, ht, hz⟩ := hwalk
  have hr := ht.reaches
  simp only [runTask, hl] at he ⊢
  cases err with
  | true => cases he
  | false =>
      simp only [Bool.false_eq_true, if_false] at he ⊢
      have hout := Loader.parserPage_out (d := σ.disk.view) m l (hr.valid l.header.valid_place)
      have hflags := (MountOut.page (l := l) m ha).flags
      have hstops : ∀ l' Y, l.parserPage σ.sup m σ.disk.view = .finish l' Y →
          Stops σ.disk.view l.header.uuid.seed Y.cursor.place :=
        fun l' Y => Loader.stops_of_parserPage (hr.valid l.header.valid_place) hend
      revert hout hflags hstops he
      generalize l.parserPage σ.sup m σ.disk.view = out
      intro he hout hflags hstops
      cases hout with
      | error Y => cases he
      | @again es Y ht' hfed hlt =>
          have hfed' : Fed σ.sup (es ++ [].map .next) Y := by simpa using hfed
          have htells := ht.append ht'
          rw [List.append_nil] at htells
          exact .inl (hm.readPage ha rfl (hflags.1.trans hm.ready)
            (journal_of_fed hfed' ht'.regular hm.journal) (hflags.2.trans hm.working) hend
            ⟨hk, hp, hn, _, htells, fun _ => (hz hb).trans hfed⟩)
      | @next es Y b ht' hfed hid hoff hbound hnew hne =>
          have hfed' : Fed σ.sup (es ++ [].map .next) Y := by simpa using hfed
          refine .inl (hm.readPage ha rfl (hflags.1.trans hm.ready)
            (journal_of_fed hfed' ht'.regular hm.journal) (hflags.2.trans hm.working) hend
            ⟨hk, hp, ?_, _, ht.append ht', fun _ => (hz hb).trans hfed⟩)
          refine List.nodup_append.2 ⟨hn, List.nodup_singleton b, fun a ha c hc => ?_⟩
          rintro rfl
          exact hnew (List.mem_singleton.1 hc ▸ ha)
      | @finish es Y q ht' hfed hseq hplace hzero =>
          rw [hend, Option.toList_none] at ht'
          have htells := ht.append ht'
          rw [List.append_nil, ← hplace hend] at htells
          have hheld : ({ σ with active := none }.loaded (.finish l Y)).Held total l.header []
              l.journals Y.cursor.place :=
            held_of_loaded (hm.requeues ha rfl).2 hm.calls (hflags.2.trans hm.working) hp hn
              htells.reaches (journal_of_fed hfed ht'.regular hm.journal)
          have hview : σ.disk.view = disk := by
            rw [hm.fresh.1]
            rfl
          have hstop := hstops l Y rfl
          rw [hview] at hp htells hstop
          refine .inr ⟨l.header, _, _, _, hk, hheld, hm.fresh, hflags.2.trans hm.working, hp, htells,
            hstop, Y, ?_, rfl⟩
          rw [List.append_assoc]
          exact (hz hb).trans hfed

theorem Mounting.pop {f : ℕ} (hm : σ.Mounting Z disk k) (ha : σ.active = some (.requeue f)) :
    { σ with active := none }.Mounting Z disk k := by
  obtain ⟨l, t, hl, hend, hf, hwalk⟩ := hm.load
  rw [tasks_of_active ha] at hf
  refine ⟨hm.ready, hm.journal, hm.working, hm.fresh, hm.calls, fun u hu => hm.tasks u ?_,
    l, t, hl, hend, hf, hwalk⟩
  rw [tasks_of_active ha]
  exact List.mem_cons_of_mem _ hu

/-! ### The invariant -/

/-- The super has failed, or the mount is under way, or the journal set is what the ledger
says. -/
def Booked (σ : Sys) (total : ℕ) (Z : Super) (disk : Buf) (k : Ledger) : Prop :=
  σ.sup.error = true ∨ σ.Mounting Z disk k ∨
    ∃ h C bs w, k = ⟨some h, C.toFinset⟩ ∧ σ.Held total h C bs w

theorem Arrives.booked (h : σ.Arrives total Z disk k) : σ.Booked total Z disk k := by
  rcases h with h | ⟨h, bs, w, es, hk, hh, -⟩
  · exact .inr (.inl h)
  · exact .inr (.inr ⟨h, [], bs, w, hk, hh⟩)

/-- A task completes while the mount is under way. -/
theorem Mounting.done {t : Task} {err m : Bool} {junk : Buf} (hm : σ.Mounting Z disk k)
    (hb : σ.sup.bug = none) (ha : σ.active = some t)
    (he : ({ σ with active := none }.runTask t err m junk).sup.error = false) :
    ({ σ with active := none }.runTask t err m junk).Arrives total Z disk
      (k.done σ ({ σ with active := none }.runTask t err m junk) t) := by
  cases ht : t.isLoad with
  | true =>
      cases t with
      | loadHeader =>
          have hdone : k.done σ ({ σ with active := none }.runTask .loadHeader err m junk) .loadHeader =
              ⟨superParse σ.disk.view, ∅⟩ := by
            obtain ⟨l, -, hl, -⟩ := hm.load
            rw [Ledger.done, hl]
            rfl
          rw [hdone]
          exact .inl (hm.loadHeader hb ha he)
      | loadPage => exact hm.loadPage hb ha he
      | _ => cases ht
  | false =>
      obtain ⟨f, rfl⟩ := hm.tasks t (by rw [tasks_of_active ha]; exact List.mem_cons_self) ht
      exact .inl (hm.pop ha)

theorem mem_calls_of_step {c : Call} {ok : Bool} (hs : σ.step (.call c ok) = some σ') : c ∈ σ.calls := by
  unfold Sys.step at hs
  split at hs
  · cases hs
  · simp only at hs
    split_ifs at hs with hc
    exact hc

theorem done_of_step {err m : Bool} {junk : Buf} (hs : σ.step (.done err m junk) = some σ') :
    ∃ t, σ.active = some t ∧ σ' = { σ with active := none }.runTask t err m junk := by
  rcases active_step hs with ⟨h, -⟩ | ⟨err', m', junk', t, hl, ha, he⟩ | ⟨h, -⟩
  · cases h
  · cases hl
    exact ⟨t, ha, he⟩
  · exact absurd rfl (h err m junk)

/-- **A step of the mount.** -/
theorem Mounting.step {l : Label} (hm : σ.Mounting Z disk k) (hσ : σ.Orderly total)
    (hs : σ.step l = some σ') (he : σ'.sup.error = false) :
    σ'.Arrives total Z disk (k.next σ σ' l) := by
  by_cases hdone : ∃ err m junk, l = .done err m junk
  · obtain ⟨err, m, junk, rfl⟩ := hdone
    obtain ⟨t, ha, rfl⟩ := done_of_step hs
    simp only [Ledger.next, ha, Option.map_some, Option.getD_some]
    exact hm.done (bug_of_step hs) ha he
  · have hnext : k.next σ σ' l = k := by
      cases l with
      | done err m junk => exact absurd ⟨err, m, junk, rfl⟩ hdone
      | _ => rfl
    rw [hnext]
    exact .inl (hm.thread hσ hs fun err m junk hl => hdone ⟨err, m, junk, hl⟩)

/-- A task completes on the mounted super. -/
theorem Held.done {t : Task} {err m : Bool} {junk : Buf} (hh : σ.Held total h C bs w)
    (hσ : σ.Orderly total) (htotal : total ≤ extentCountMax) (ha : σ.active = some t)
    (hs : σ.step (.done err m junk) = some ({ σ with active := none }.runTask t err m junk))
    (he : ({ σ with active := none }.runTask t err m junk).sup.error = false) :
    ({ σ with active := none }.runTask t err m junk).Booked total Z disk
      (Ledger.done ⟨some h, C.toFinset⟩ σ ({ σ with active := none }.runTask t err m junk) t) := by
  have hinits := inits_step hs (by simp) (by simp)
  cases hk : t.isCompact with
  | true =>
      by_cases hfin : t = .compactFinish
      · subst hfin
        obtain ⟨c, bs', hc, hh'⟩ := hh.compactFinish ha he
        refine .inr (.inr ⟨c.header, [], bs', w, ?_, hh'⟩)
        simp only [Ledger.done, hc]
        rfl
      · obtain ⟨D, u, hpass⟩ := hh.compact hσ htotal ha hk hfin he
        refine .inr (.inr ⟨h, C ++ D, bs, w, ?_, hpass.held⟩)
        rw [List.toFinset_append, hpass.taken]
        cases t with
        | compactFinish => exact absurd rfl hfin
        | compactHeader | compactPage | compactWriter | compactWriteSuper | compactFlushSuper => rfl
        | _ => cases hk
  | false =>
      have hdone : Ledger.done ⟨some h, C.toFinset⟩ σ
          ({ σ with active := none }.runTask t err m junk) t = ⟨some h, C.toFinset⟩ := by
        cases t with
        | loadHeader =>
            rw [Ledger.done, hh.loader]
            rfl
        | compactHeader | compactPage | compactWriter | compactWriteSuper | compactFlushSuper
        | compactFinish => cases hk
        | _ => rfl
      rw [hdone]
      refine .inr (.inr ?_)
      by_cases haside : t.isAside = true
      · obtain ⟨hsp, hv⟩ := hσ.aside_done ha hh.loader (bug_of_step hs) haside err m junk he
        exact ⟨h, C, bs, w, rfl, hh.spares hsp hinits hv⟩
      · cases t with
        | writer fl io =>
            obtain ⟨bs', w', -, hh', -⟩ := hh.writer hσ htotal ha he
            exact ⟨h, C, bs', w', rfl, hh'⟩
        | after fl flush => exact ⟨h, C, bs, w, rfl, hh.after hσ ha he⟩
        | before | free | copy | discard | loadHeader | loadPage | requeue => exact absurd rfl haside
        | _ => cases hk

theorem Held.idle (hh : σ.Held total h C bs w) (hw : σ.sup.compactWorking = false) : σ.inits = 0 := by
  obtain ⟨X, -, hst⟩ := hh.chain
  exact (hst.idle_of_working hw).1

/-- **A step on the mounted super.** -/
theorem Held.step {l : Label} (hh : σ.Held total h C bs w) (hσ : σ.Orderly total)
    (htotal : total ≤ extentCountMax) (hs : σ.step l = some σ') (he : σ'.sup.error = false) :
    σ'.Booked total Z disk (Ledger.next ⟨some h, C.toFinset⟩ σ σ' l) := by
  by_cases hdone : ∃ err m junk, l = .done err m junk
  · obtain ⟨err, m, junk, rfl⟩ := hdone
    obtain ⟨t, ha, rfl⟩ := done_of_step hs
    simp only [Ledger.next, ha, Option.map_some, Option.getD_some]
    exact hh.done hσ htotal ha hs he
  · have hnext : Ledger.next ⟨some h, C.toFinset⟩ σ σ' l = ⟨some h, C.toFinset⟩ := by
      cases l with
      | done err m junk => exact absurd ⟨err, m, junk, rfl⟩ hdone
      | _ => rfl
    rw [hnext]
    refine .inr (.inr ⟨h, C, bs, w, rfl, ?_⟩)
    by_cases hcompact : ∃ ok, l = .call .compact ok
    · obtain ⟨ok, rfl⟩ := hcompact
      obtain rfl := Option.some.inj (callStep_of_step hs)
      exact hh.compactStart (mem_calls_of_step hs)
    by_cases hinit : ∃ e ok, l = .call (.compactInit e) ok
    · obtain ⟨e, ok, rfl⟩ := hinit
      obtain rfl := Option.some.inj (callStep_of_step hs)
      exact hh.compactInit hσ.sound.totalExtents (mem_calls_of_step hs) he
    have hd : ∀ err m junk, l ≠ .done err m junk := fun err m junk hl => hdone ⟨err, m, junk, hl⟩
    have hc : ∀ ok, l ≠ .call .compact ok := fun ok hl => hcompact ⟨ok, hl⟩
    have hi : ∀ e ok, l ≠ .call (.compactInit e) ok := fun e ok hl => hinit ⟨e, ok, hl⟩
    obtain ⟨hsp, hv⟩ := hσ.aside_thread hs hh.loader hd hc hi hh.idle he
    exact hh.spares hsp (inits_step hs hc hi) hv

/-- **Every step keeps the books.** -/
theorem Booked.step {l : Label} (hk : σ.Booked total Z disk k) (hσ : σ.Orderly total)
    (htotal : total ≤ extentCountMax) (hs : σ.step l = some σ') :
    σ'.Booked total Z disk (k.next σ σ' l) := by
  cases he : σ'.sup.error with
  | true => exact .inl he
  | false =>
      have hgood := error_moves (moves_effect (hσ.step hs).2) he
      rcases hk with hbad | hm | ⟨h, C, bs, w, rfl, hh⟩
      · rw [hgood] at hbad
        cases hbad
      · exact (hm.step hσ hs he).booked
      · exact hh.step hσ htotal hs he

/-- **Every run keeps the books.** -/
theorem Booked.run {ls : List Label} (hk : σ.Booked total Z disk k) (hσ : σ.Orderly total)
    (htotal : total ≤ extentCountMax) (hs : σ.run ls = some σ') :
    σ'.Booked total Z disk (σ.ledger ls k) := by
  induction ls generalizing σ k with
  | nil =>
      obtain rfl := Option.some.inj hs
      exact hk
  | cons l ls ih =>
      obtain ⟨τ, hτ, hrest⟩ := Option.bind_eq_some_iff.1 hs
      rw [ledger, hτ]
      exact ih (hk.step hσ htotal hτ) (hσ.step hτ).1 hrest

/-! ### What the books say -/

/-- A file is made and its entry goes to a record. -/
def recordLabels : List Label :=
  [.create .letter, .superFlush false, .call (.flusher 0 false none) true,
    .call (.flusherQueue false none) true] ++ work 1

/-- The disk as it is once the record on its way is written. -/
def settled (σ : Sys) : Buf := σ.records.foldl (fun g r => g.patch r.off r.len r.data) σ.disk.view

/-- Once its record is written the chain leads to the cursor. -/
theorem Live.settled {bs X : List ℕ} {w : Place} (hl : σ.Live h C bs X w) :
    Reaches σ.settled h.uuid.seed h.place (bs ++ X) σ.sup.cursor.place := by
  have hbs := (List.nodup_append.1 (List.nodup_append.1 hl.nodup).1).1
  cases hl.tip with
  | rest hr hp =>
      rw [Sys.settled, hr, hp, List.append_nil]
      exact hl.reaches
  | record hr hem _ hp =>
      rw [Sys.settled, hr, hp]
      exact hl.reaches.emit h.valid_place hbs hem

theorem Booked.held (hk : σ.Booked total Z disk k) (hready : σ.sup.ready = true)
    (herr : σ.sup.error = false) :
    ∃ h C bs w, k = ⟨some h, C.toFinset⟩ ∧ σ.Held total h C bs w := by
  rcases hk with hbad | hm | hh
  · rw [herr] at hbad
    cases hbad
  · have := hm.ready
    rw [hready] at this
    cases this
  · exact hh

/-- The WRITE `req` brings the chain from `p` with the extents `bs` from `w` to `q`. -/
structure Prolongs (σ : Sys) (seed : UInt32) (req : WriteReq) (p : Place) (bs : List ℕ) (w q : Place) :
    Prop where
  reaches : Reaches σ.disk.view seed p bs w
  off : req.off = w.addr
  record : ∃ es next, scanAt (σ.disk.view.patch req.off req.len req.data) seed w =
    .record req.len es next ∧ q = w.behind req.len es.length next
  fresh : ∀ a, req.off ≤ a → a < req.off + req.len → InExtent w.extentId a ∧ ¬ Footprint bs w a

theorem prolongs_of_emitted {seed : UInt32} {req : WriteReq} {p w q : Place} {bs : List ℕ} {size : ℕ}
    {es : List Entry} {next : Option ℕ} (hem : Emitted seed w req size es next) (hp : p.Valid)
    (hr : Reaches σ.disk.view seed p bs w) (hn : bs.Nodup) (hq : q = w.behind size es.length next) :
    σ.Prolongs seed req p bs w q := by
  have haddr := (hr.valid hp).addr_eq
  have hlen := hem.len
  subst hlen
  refine ⟨hr, hem.off, ⟨es, next, hem.scan_patch _, hq⟩, fun a h₁ h₂ => ?_⟩
  have hin : InExtent w.extentId a := by
    have hext := hem.extent
    rw [hem.off] at h₁ h₂
    constructor <;> omega
  refine ⟨hin, fun ha => ?_⟩
  rcases ha with ⟨e, he, hea⟩ | ⟨-, hlt⟩
  · obtain rfl := hea.unique hin
    rw [← List.dropLast_append_getLast? _ hr.getLast?] at hn
    exact (List.nodup_append.1 hn).2.2 _ he _ (List.mem_singleton_self _) rfl
  · rw [hem.off] at h₁
    exact absurd hlt (Nat.not_lt.2 h₁)

section Run

variable {size : ℕ} {discard compact : Bool} {uuid : Uuid} {ls : List Label}

/-- **The invariant of every run.** -/
theorem booked_of_run (hsize : extentsOfSize size = some total)
    (hrun : (Sys.opened total discard compact uuid disk).run ls = some σ) (k : Ledger) :
    σ.Booked total (Sys.opened total discard compact uuid disk).sup disk
      ((Sys.opened total discard compact uuid disk).ledger ls k) :=
  Booked.run (.inr (.inl (mounting_opened ..))) (orderly_opened ..)
    (one_le_of_extentsOfSize hsize).2 hrun

/-- **The journal set is exact.**  In every run over any disk, as long as the super is mounted
and no error has marked it, `journal_extents` is the chain from the header that the mount has
selected, or that the last compaction has written, to the cursor of the writer, and what the
compaction in progress has taken; without a compaction it is the chain from the header that a
mount would select now. -/
theorem journal_extents_exact (hsize : extentsOfSize size = some total)
    (hrun : (Sys.opened total discard compact uuid disk).run ls = some σ)
    (hready : σ.sup.ready = true) (herr : σ.sup.error = false) :
    ∃ h chain taken,
      (Sys.opened total discard compact uuid disk).ledger ls ⟨none, ∅⟩ = ⟨some h, taken⟩ ∧
      Reaches σ.settled h.uuid.seed h.place chain σ.sup.cursor.place ∧ chain.Nodup ∧
      Disjoint chain.toFinset taken ∧ σ.sup.journal = chain.toFinset ∪ taken ∧
      (σ.sup.compactWorking = false → taken = ∅ ∧ superParse σ.disk.view = some h) := by
  obtain ⟨h, C, bs, w, hk, hh⟩ := (booked_of_run hsize hrun ⟨none, ∅⟩).held hready herr
  obtain ⟨X, hl, hst⟩ := hh.chain
  obtain ⟨hn, -, hdisj⟩ := List.nodup_append.1 hl.nodup
  refine ⟨h, bs ++ X, C.toFinset, hk, hl.settled, hn, ?_, ?_, fun hw => ?_⟩
  · refine Finset.disjoint_left.2 fun b hb hb' => ?_
    exact hdisj b (List.mem_toFinset.1 hb) b (List.mem_toFinset.1 hb') rfl
  · rw [hl.journal, List.toFinset_append]
  · obtain ⟨-, -, rfl, hp⟩ := hst.idle_of_working hw
    exact ⟨rfl, hp⟩

/-- The ledger of a run that ends with a compaction under way. -/
theorem ledger_comes {σ₀ τ : Sys} {ls ls' : List Label} {X : Finset ℕ} {K : Ledger} {Z : Super}
    {disk : Buf} (hk : σ.Booked total Z disk (σ₀.ledger ls K)) (hrun : σ₀.run ls = some σ)
    (hready : σ.sup.ready = true) (herr : σ.sup.error = false) (hw : σ.sup.compactWorking = false)
    (h : σ.Comes ls' τ X) :
    σ₀.run (ls ++ ls') = some τ ∧
      σ₀.ledger (ls ++ ls') K = ⟨superParse σ.disk.view, X⟩ := by
  obtain ⟨h₀, C, bs, w, hk', hh⟩ := hk.held hready herr
  obtain ⟨-, -, hst⟩ := hh.chain
  obtain ⟨-, -, rfl, hp⟩ := hst.idle_of_working hw
  refine ⟨by rw [run_append, hrun]; exact h.1, ?_⟩
  rw [ledger_append hrun, hk', h.2, hp]
  simp

/-- A compaction of a journal of two extents that has taken a third one. -/
theorem journal_extents_exact_linked : ∃ n σ chain,
    let σ₀ := Sys.opened 16 true true smallUuid linkedDisk
    let ls := work n ++ (compactLabels 1 ++ work 3)
    σ₀.run ls = some σ ∧ σ₀.ledger ls ⟨none, ∅⟩ = ⟨some (mkfsHeader smallUuid 1), {2}⟩ ∧
      Reaches σ.settled smallUuid.seed ⟨0, 0, 0⟩ chain σ.sup.cursor.place ∧
      chain.toFinset = {0, 1} ∧ σ.sup.journal = {0, 1, 2} := by
  obtain ⟨n, σ, τ, υ, s, t, t', req, hrun, hready, herr, hw, -, hp, hcomes, hτ, -, -, hj, hr, he, -⟩ :=
    exists_linked_compaction
  have hsize : extentsOfSize 16785408 = some 16 := by decide
  obtain ⟨hrunτ, hledger⟩ :=
    ledger_comes (booked_of_run hsize hrun ⟨none, ∅⟩) hrun hready herr hw hcomes
  rw [hp] at hledger
  obtain ⟨h, chain, taken, hk, hreach, -, hdisj, hjournal, -⟩ :=
    journal_extents_exact hsize hrunτ (by rw [hτ.sup, hr]) (by rw [hτ.sup, he])
  obtain ⟨hh, rfl⟩ := Ledger.mk.inj (hledger.symm.trans hk)
  obtain rfl := Option.some.inj hh
  rw [hτ.sup, hj] at hjournal
  refine ⟨n, τ, chain, hrunτ, hledger, hreach, ?_, by rw [hτ.sup, hj]⟩
  calc chain.toFinset = (chain.toFinset ∪ {2}) \ {2} := (Finset.union_sdiff_cancel_right hdisj).symm
    _ = {0, 1, 2} \ {2} := by rw [← hjournal]
    _ = {0, 1} := by decide

/-- **A compaction frees exactly what lies before `end_id`.**  When its last task completes,
every extent that it has walked is in the journal set, so the error path for a missing one is
never taken; these extents leave the set, the cursor of the writer is not among them, and the
rest of the chain hangs behind the extents of the compaction on its header, which a mount
selects from now on. -/
theorem compactFinish_frees_prefix (hsize : extentsOfSize size = some total)
    (hrun : (Sys.opened total discard compact uuid disk).run ls = some σ)
    (herr : σ.sup.error = false) (hready : σ.sup.ready = true)
    (ha : σ.active = some .compactFinish) (m : Bool) (junk : Buf) :
    let σ' := { σ with active := none }.runTask .compactFinish false m junk
    ∃ h own pre rest t,
      (Sys.opened total discard compact uuid disk).ledger ls ⟨none, ∅⟩ = ⟨some h, own.toFinset⟩ ∧
      σ.compact = some t ∧ t.loader.endId = rest.head? ∧ t.priv.journal = pre.toFinset ∧
      Reaches σ.settled h.uuid.seed h.place (pre ++ rest) σ.sup.cursor.place ∧
      σ.sup.journal = (pre ++ rest ++ own).toFinset ∧ (pre ++ rest ++ own).Nodup ∧
      σ.sup.cursor.extentId ∈ rest ∧ σ'.sup.error = false ∧ σ'.sup.compactWorking = false ∧
      σ'.sup.journal = (own ++ rest).toFinset ∧ superParse σ'.disk.view = some t.header ∧
      Reaches σ'.settled h.uuid.seed t.header.place (own ++ rest) σ'.sup.cursor.place := by
  intro σ'
  obtain ⟨h, C, bs, w, hk, hh⟩ := (booked_of_run hsize hrun ⟨none, ∅⟩).held hready herr
  obtain ⟨t, pre, post, e, X, hc, hend, hfol, hpre, rfl, hl, hch⟩ := hh.finish ha m junk
  have hr := hl.settled
  rw [List.append_assoc] at hr
  refine ⟨h, C, pre, e :: post ++ X, t, hk, hc, hend, hpre, hr, ?_, ?_, ?_, hch.error.trans herr,
    hch.working, ?_, hch.parse, ?_⟩
  · simpa using hl.journal
  · simpa using hl.nodup
  · have hlast := hr.getLast?
    rw [List.getLast?_append_of_ne_nil _ (by simp)] at hlast
    exact List.mem_of_getLast? hlast
  · simpa using hch.live.journal
  · have hr' := hch.live.settled
    rw [hfol.uuid, List.append_assoc] at hr'
    exact hr'

/-- The compaction of a journal of two extents frees the first one. -/
theorem compactFinish_frees_prefix_linked : ∃ n σ,
    (Sys.opened 16 true true smallUuid linkedDisk).run
      (work n ++ (compactLabels 1 ++ work 3 ++ work 3 ++ [.get])) = some σ ∧
    σ.active = some .compactFinish ∧ σ.sup.journal = {0, 1, 2} ∧
    ({ σ with active := none }.runTask .compactFinish false true fun _ => 0).sup.journal = {1, 2} := by
  obtain ⟨n, σ, τ, υ, s, t, t', req, hrun, -, -, -, -, -, hτ, -, hυ, hfin, hj, hr, he, -, hpre⟩ :=
    exists_linked_compaction
  let ρ : Sys := { υ with active := some .compactFinish, queue := [] }
  have hget : υ.step .get = some ρ :=
    step_get_eq (by rw [hfin.sup]; exact hfin.bug) hfin.active hfin.queue
  have hrunρ : (Sys.opened 16 true true smallUuid linkedDisk).run
      (work n ++ (compactLabels 1 ++ work 3 ++ work 3 ++ [.get])) = some ρ := by
    rw [run_append, hrun, Option.bind_some, run_append, (hτ.append hυ).1, Option.bind_some, run, hget,
      Option.bind_some, run]
  have hjρ : ρ.sup.journal = {0, 1, 2} := (congrArg Super.journal hfin.sup).trans hj
  obtain ⟨h, own, pre, rest, t'', -, hc, -, hpre', -, hjournal, hnodup, -, -, -, hjournal', -⟩ :=
    compactFinish_frees_prefix (by decide : extentsOfSize 16785408 = some 16) hrunρ
      ((congrArg Super.error hfin.sup).trans he) ((congrArg Super.ready hfin.sup).trans hr) rfl true
      fun _ => 0
  obtain rfl := Option.some.inj (hc.symm.trans hfin.compact)
  have hdisj : Disjoint pre.toFinset (rest ++ own).toFinset := by
    rw [List.append_assoc] at hnodup
    exact List.disjoint_toFinset_iff_disjoint.2 (List.disjoint_of_nodup_append hnodup)
  refine ⟨n, ρ, hrunρ, rfl, hjρ, ?_⟩
  calc _ = (rest ++ own).toFinset := by rw [hjournal', List.toFinset_append, List.toFinset_append,
        Finset.union_comm]
    _ = (pre.toFinset ∪ (rest ++ own).toFinset) \ pre.toFinset :=
      (Finset.union_sdiff_cancel_left hdisj).symm
    _ = ρ.sup.journal \ t''.priv.journal := by
      rw [hjournal, hpre', List.append_assoc, List.toFinset_append (l := pre)]
    _ = {1, 2} := by rw [hjρ, hpre]; decide

/-- **A journal WRITE never lands on a record.**  Every WRITE of the flushers that is queued or
active brings the chain to the cursor of the writer, one of the compaction brings its own chain
to its cursor; it lies in one journal extent, behind all that the chain has on the disk, and
those of the compaction lie in the extents that it has taken. -/
theorem journal_write_prolongs (hsize : extentsOfSize size = some total)
    (hrun : (Sys.opened total discard compact uuid disk).run ls = some σ)
    (hready : σ.sup.ready = true) (herr : σ.sup.error = false) {t : Task} {req : WriteReq}
    (ht : t ∈ σ.tasks) (hreq : t.journalWrite? = some req) :
    ∃ h taken bs w,
      (Sys.opened total discard compact uuid disk).ledger ls ⟨none, ∅⟩ = ⟨some h, taken⟩ ∧
      bs.toFinset ⊆ σ.sup.journal ∧
      (Disjoint bs.toFinset taken ∧
          σ.Prolongs h.uuid.seed req h.place bs w σ.sup.cursor.place ∨
        bs.toFinset ⊆ taken ∧ ∃ c, σ.compact = some c ∧
          σ.Prolongs h.uuid.seed req c.header.place bs w c.priv.cursor.place) := by
  obtain ⟨h, C, bs, w, hk, hh⟩ := (booked_of_run hsize hrun ⟨none, ∅⟩).held hready herr
  obtain ⟨X, hl, hst⟩ := hh.chain
  obtain ⟨hbX, hC, hdisj⟩ := List.nodup_append.1 hl.nodup
  have hsub : ∀ b ∈ bs ++ X ++ C, b ∈ σ.sup.journal := fun b hb => by
    rw [hl.journal]
    exact List.mem_toFinset.2 hb
  cases t with
  | writer fl io =>
      obtain rfl : io = some req := hreq
      have hmem : req ∈ σ.records := List.mem_filterMap.2 ⟨_, ht, rfl⟩
      cases hl.tip with
      | rest hr hp => rw [hr] at hmem; cases hmem
      | record hr hem _ hp =>
          rw [hr, List.mem_singleton] at hmem
          subst hmem
          refine ⟨h, C.toFinset, bs, w, hk, fun b hb => hsub b ?_, .inl ⟨?_, ?_⟩⟩
          · simp [List.mem_toFinset.1 hb]
          · refine Finset.disjoint_left.2 fun b hb hb' => ?_
            exact hdisj b (List.mem_append_left _ (List.mem_toFinset.1 hb)) b
              (List.mem_toFinset.1 hb') rfl
          · exact prolongs_of_emitted hem h.valid_place hl.reaches (List.nodup_append.1 hbX).1 hp
  | compactWriter io =>
      obtain rfl : io = some req := hreq
      have hmem : .compactWriter (some req) ∈ σ.compacts := List.mem_filter.2 ⟨ht, rfl⟩
      have key : ∀ {c : Compact} {cs : List ℕ} {q : Place} {size : ℕ} {es : List Entry}
          {next : Option ℕ}, σ.compact = some c → (∀ b ∈ cs, b ∈ C) → cs.Nodup →
          Reaches σ.disk.view h.uuid.seed c.header.place cs q →
          Emitted h.uuid.seed q req size es next →
          c.priv.cursor.place = q.behind size es.length next →
          ∃ h' taken bs w, (Sys.opened total discard compact uuid disk).ledger ls ⟨none, ∅⟩ =
              ⟨some h', taken⟩ ∧ bs.toFinset ⊆ σ.sup.journal ∧
            (Disjoint bs.toFinset taken ∧
                σ.Prolongs h'.uuid.seed req h'.place bs w σ.sup.cursor.place ∨
              bs.toFinset ⊆ taken ∧ ∃ c, σ.compact = some c ∧
                σ.Prolongs h'.uuid.seed req c.header.place bs w c.priv.cursor.place) := by
        intro c cs q size es next hc hcs hn hr hem hp
        refine ⟨h, C.toFinset, cs, q, hk, fun b hb => hsub b ?_, .inr ⟨fun b hb => ?_, c, hc, ?_⟩⟩
        · simp [hcs b (List.mem_toFinset.1 hb)]
        · exact List.mem_toFinset.2 (hcs b (List.mem_toFinset.1 hb))
        · exact prolongs_of_emitted hem c.header.valid_place hr hn hp
      cases hst with
      | idle _ _ ht => rw [ht] at hmem; cases hmem
      | init _ _ ht => rw [ht] at hmem; cases hmem
      | header hb | page hb | super hb | flushSuper hb | finish hb =>
          rw [hb.task] at hmem
          cases List.mem_singleton.1 hmem
      | writing hb hcut hid hseq hown hp =>
          rw [hb.task] at hmem
          cases List.mem_singleton.1 hmem
          cases hown with
          | more _ hr hem hp hcs =>
              exact key hb.compact (fun b hb => hcs ▸ List.mem_append_left _ hb)
                (List.nodup_append.1 (hcs ▸ hC)).1 hr.reaches hem hp
          | last _ hr hem hp => exact key hb.compact (fun b hb => hb) hC hr.reaches hem hp
  | _ => cases hreq

/-- The record of the first file of a fresh file system. -/
theorem journal_write_prolongs_first : ∃ σ fl req bs,
    (Sys.opened 16 true true smallUuid smallDisk).run (mountLabels ++ recordLabels) = some σ ∧
    .writer fl (some req) ∈ σ.tasks ∧ bs.toFinset ⊆ σ.sup.journal ∧
    ∃ seed p w q, σ.Prolongs seed req p bs w q := by
  obtain ⟨τ, hrun, hq, hready, herr⟩ := exists_small recordLabels
    (P := fun τ => τ.records.length = 1 ∧ τ.sup.ready = true ∧ τ.sup.error = false)
    (by decide +kernel)
  obtain ⟨req, hreq⟩ := List.exists_mem_of_length_eq_add_one hq
  obtain ⟨t, ht, hrecord⟩ := List.mem_filterMap.1 hreq
  cases t with
  | writer fl io =>
      obtain rfl : io = some req := hrecord
      obtain ⟨h, taken, bs, w, -, hsub, hpro⟩ := journal_write_prolongs
        (by decide : extentsOfSize 16785408 = some 16) (run_small hrun) hready herr ht rfl
      refine ⟨τ, fl, req, bs, run_small hrun, ht, hsub, ?_⟩
      rcases hpro with ⟨-, hpro⟩ | ⟨-, c, -, hpro⟩
      · exact ⟨_, _, _, _, hpro⟩
      · exact ⟨_, _, _, _, hpro⟩
  | _ => cases hrecord

end Run

end Sys

end Cyanfs
