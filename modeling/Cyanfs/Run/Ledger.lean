/-
# The chain of the mounted super

`journal_extents` holds the extents of one chain: it begins at the super header that the
mount has selected, or that the last compaction has written, and leads through the NEXT
entries to the cursor of the writer.  While a compaction is under way its own extents are
there too.  `Ledger` follows a run and keeps that header and those extents, and `Booked` is
the invariant.

The chain is on the disk up to a place `w`; behind it stands at most one record, whose WRITE
is queued (`Tip`).  A compaction walks the part of the chain before `end_id`, which nobody
changes, and writes a chain of its own that ends at the beginning of `end_id` with the same
sequence number (`Stage`); so when it frees the extents that it has walked, the rest of the
chain hangs on its header.
-/

import Cyanfs.Run.Urgent
import Cyanfs.Journal.Reach

namespace Cyanfs

open Lib Std

/-- What the journal hangs on. -/
structure Ledger where
  /-- the header that the mount has selected, or that the last compaction has written -/
  header : Option SuperHeader
  /-- the extents that the compaction in progress has taken -/
  taken : Finset ℕ

/-- A task completes. -/
def Ledger.done (k : Ledger) (σ σ' : Sys) : Task → Ledger
  | .loadHeader => (σ.loader.map fun _ => ⟨superParse σ.disk.view, ∅⟩).getD k
  | .compactFinish => ⟨σ.compact.map (·.header), ∅⟩
  | t => if t.isCompact then { k with taken := k.taken ∪ (σ'.sup.journal \ σ.sup.journal) } else k

/-- The ledger behind a step from `σ` to `σ'`. -/
def Ledger.next (k : Ledger) (σ σ' : Sys) : Label → Ledger
  | .done _ _ _ => (σ.active.map (k.done σ σ')).getD k
  | _ => k

namespace Sys

/-- The ledger behind a run. -/
def ledger : Sys → List Label → Ledger → Ledger
  | _, [], k => k
  | σ, l :: ls, k => ((σ.step l).map fun σ' => ledger σ' ls (k.next σ σ' l)).getD k

/-- The tasks of the compaction. -/
def compacts (σ : Sys) : List Task := σ.tasks.filter Task.isCompact

variable {σ σ' : Sys} {total : ℕ} {h : SuperHeader} {bs bs' C X : List ℕ} {w w' : Place}

theorem tasks_addTail (σ : Sys) (t : Task) : (σ.addTail t).tasks = σ.tasks ++ [t] :=
  (List.append_assoc ..).symm

/-! ### The end of the chain -/

/-- The record behind the end `w` of the chain on the disk, and the extent that it links to. -/
inductive Tip (σ : Sys) (seed : UInt32) (w : Place) : List ℕ → Prop
  | rest (hr : σ.records = []) (hp : σ.sup.cursor.place = w) : Tip σ seed w []
  | record {req : WriteReq} {size : ℕ} {es : List Entry} {next : Option ℕ} (hr : σ.records = [req])
      (hem : Emitted seed w req size es next) (hes : es = req.entries.map Entry.stored)
      (hp : σ.sup.cursor.place = w.behind size es.length next) : Tip σ seed w next.toList

theorem Tip.of_nil {seed : UInt32} (ht : σ.Tip seed w X) (hr : σ.records = []) :
    X = [] ∧ σ.sup.cursor.place = w := by
  cases ht with
  | rest _ hp => exact ⟨rfl, hp⟩
  | record hr' => rw [hr] at hr'; cases hr'

/-- The chain from the header `h`: the extents `bs` are reached on the disk, `X` by the record
on its way; `C` belongs to a compaction. -/
structure Live (σ : Sys) (h : SuperHeader) (C bs X : List ℕ) (w : Place) : Prop where
  uuid : σ.sup.uuid = h.uuid
  reaches : Reaches σ.disk.view h.uuid.seed h.place bs w
  tip : σ.Tip h.uuid.seed w X
  nodup : (bs ++ X ++ C).Nodup
  journal : σ.sup.journal = (bs ++ X ++ C).toFinset
  ondisk : σ.sup.cursor.extentIdOndisk ∈ bs
  flush : ∀ fl, .after fl true ∈ σ.tasks →
    Upto bs σ.sup.cursor.extentIdOndisk σ.sup.cursor.extentIdFlush

/-! ### The compaction -/

/-- `S` is the snapshot that a compaction writes for the entries `P`, whatever extents its loader
takes out at the end. -/
def Snap (total : ℕ) (P S : List Entry) : Prop :=
  ∃ (u : Uuid) (js : List ℕ) (X : Super) (S₀ : List Entry),
    Fed (.opened total false false u fun _ => 0) (P ++ js.map .next) X ∧ X.snapshot = some S₀ ∧
      S = S₀.map Entry.stored

/-- The chain passes the beginning of `end_id` with the number `s`, the private super holds
the extents before it, and `S` is the snapshot of the entries there. -/
structure Cut (total : ℕ) (t : Compact) (d : Buf) (h : SuperHeader) (bs : List ℕ) (w : Place) (e s : ℕ)
    (S : List Entry) : Prop where
  endId : t.loader.endId = some e
  follows : t.header.Follows h
  via : ∃ pre post, bs = pre ++ e :: post ∧
    Via d h.uuid.seed h.place ⟨e, 0, s⟩ w (pre ++ [e]) post ∧ t.priv.journal = pre.toFinset ∧
    ∃ P, Tells d h.uuid.seed h.place (pre ++ [e]) P ⟨e, 0, s⟩ ∧ Snap total P S

/-- The chain of a compaction that still writes the entries `S` to its extents `C`; `io` is the
record on its way.  With the last entry it comes to the beginning of `end_id`. -/
inductive Open (t : Compact) (d : Buf) (seed : UInt32) (C : List ℕ) (e : ℕ) (S : List Entry) :
    Option WriteReq → Prop
  | start {Q : List Entry} (hh : t.head ≠ []) (hr : Tells d seed t.header.place C Q t.priv.cursor.place)
      (hS : Q ++ t.head.map (·.entry.stored) = S) : Open t d seed C e S none
  | more {req : WriteReq} {size : ℕ} {Q es : List Entry} {next : Option ℕ} {cs : List ℕ} {q : Place}
      (hh : t.head ≠ []) (hr : Tells d seed t.header.place cs Q q)
      (hem : Emitted seed q req size es next)
      (hp : t.priv.cursor.place = q.behind size es.length next) (hC : cs ++ next.toList = C)
      (hS : Q ++ es ++ t.head.map (·.entry.stored) = S) : Open t d seed C e S (some req)
  | last {req : WriteReq} {size : ℕ} {Q es : List Entry} {q : Place} (hh : t.head = [])
      (hr : Tells d seed t.header.place C Q q) (hem : Emitted seed q req size es (some e))
      (hp : t.priv.cursor.place = q.behind size es.length (some e)) (hS : Q ++ es = S) :
      Open t d seed C e S (some req)

/-- What holds while a task of a compaction to `end_id = e` is queued. -/
structure Busy (σ : Sys) (bs : List ℕ) (e : ℕ) (t : Compact) (task : Task) : Prop where
  working : σ.sup.compactWorking = true
  inits : σ.inits = 0
  task : σ.compacts = [task]
  compact : σ.compact = some t
  ahead : Upto bs e σ.sup.cursor.extentIdOndisk

/-- Where the compaction is. -/
inductive Stage (σ : Sys) (total : ℕ) (h : SuperHeader) (C bs : List ℕ) (w : Place) : Prop
  | idle (hw : σ.sup.compactWorking = false) (hi : σ.inits = 0) (ht : σ.compacts = []) (hC : C = [])
      (hp : superParse σ.disk.view = some h)
  /-- in `cyanfs_super_compact` -/
  | init {e : ℕ} (hw : σ.sup.compactWorking = true) (hi : σ.inits = {e}) (ht : σ.compacts = [])
      (hu : Upto bs e σ.sup.cursor.extentIdOndisk) (hC : C = [])
      (hp : superParse σ.disk.view = some h)
  | header {e : ℕ} {t : Compact} {u : Uuid} (hb : σ.Busy bs e t .compactHeader)
      (hend : t.loader.endId = some e) (hl : t.loader.journals = [])
      (hX : t.priv = .opened total false false u fun _ => 0) (hC : C = [])
      (hp : superParse σ.disk.view = some h)
  | page {e : ℕ} {t : Compact} {u : Uuid} {P : List Entry} (hb : σ.Busy bs e t .compactPage)
      (hend : t.loader.endId = some e) (hh : t.loader.header = h)
      (hfed : Fed (.opened total false false u fun _ => 0) P t.priv)
      (hr : Tells σ.disk.view h.uuid.seed h.place t.loader.journals P t.priv.cursor.place)
      (hnew : e ∉ t.loader.journals) (hC : C = []) (hp : superParse σ.disk.view = some h)
  | writing {e s : ℕ} {t : Compact} {io : Option WriteReq} {S : List Entry}
      (hb : σ.Busy bs e t (.compactWriter io))
      (hcut : Cut total t σ.disk.view h bs w e s S) (hid : t.nextId = some e)
      (hseq : t.priv.cursor.seq + t.head.length = s)
      (hown : Open t σ.disk.view h.uuid.seed C e S io) (hp : superParse σ.disk.view = some h)
  | super {e s : ℕ} {t : Compact} {b : Bool} {S : List Entry} (hb : σ.Busy bs e t (.compactWriteSuper b))
      (hcut : Cut total t σ.disk.view h bs w e s S)
      (hown : Tells σ.disk.view h.uuid.seed t.header.place (C ++ [e]) S ⟨e, 0, s⟩)
      (hC : b = false → C = []) (hp : superParse σ.disk.view = some h)
  | flushSuper {e s : ℕ} {t : Compact} {req : WriteReq} {page : Buf} {S : List Entry}
      (hb : σ.Busy bs e t (.compactFlushSuper req))
      (hcut : Cut total t σ.disk.view h bs w e s S)
      (hown : Tells σ.disk.view h.uuid.seed t.header.place (C ++ [e]) S ⟨e, 0, s⟩)
      (hoff : req.off = t.header.version % 2 * superHeaderSize) (hlen : req.len = superHeaderSize)
      (hdata : req.data.slice 0 superHeaderSize = slotBytes t.header page)
      (hp : superParse σ.disk.view = some h)
  | finish {e s : ℕ} {t : Compact} {S : List Entry} (hb : σ.Busy bs e t .compactFinish)
      (hcut : Cut total t σ.disk.view h bs w e s S)
      (hown : Tells σ.disk.view h.uuid.seed t.header.place (C ++ [e]) S ⟨e, 0, s⟩)
      (hp : superParse σ.disk.view = some t.header)

section Disk

variable {t : Compact} {d d' : Buf} {seed : UInt32} {e s : ℕ} {io : Option WriteReq} {S : List Entry}

theorem Cut.congr (hc : Cut total t d h bs w e s S) (hd : ∀ a, Footprint bs w a → d' a = d a) :
    Cut total t d' h bs w e s S := by
  obtain ⟨pre, post, rfl, hv, hj, P, hP, hsnap⟩ := hc.via
  have hd' : ∀ a, Footprint (pre ++ [e] ++ post) w a → d' a = d a := fun a ha => hd a (by
    rwa [List.append_assoc] at ha)
  exact ⟨hc.endId, hc.follows, pre, post, rfl, hv.congr h.valid_place hd', hj, P,
    hP.congr h.valid_place fun a ha => hd' a (hv.footprint_front h.valid_place ha), hsnap⟩

/-- The chain goes on behind `end_id`. -/
theorem Cut.emit {req : WriteReq} {size : ℕ} {es : List Entry} {next : Option ℕ}
    (hc : Cut total t d h bs w e s S) (hnodup : bs.Nodup)
    (hem : Emitted h.uuid.seed w req size es next) :
    Cut total t (d.patch req.off req.len req.data) h (bs ++ next.toList)
      (w.behind size es.length next) e s S := by
  obtain ⟨pre, post, rfl, hv, hj, P, hP, hsnap⟩ := hc.via
  rw [List.append_cons] at hnodup
  refine ⟨hc.endId, hc.follows, pre, post ++ next.toList, by simp, hv.emit h.valid_place hnodup hem, hj,
    P, hP.congr h.valid_place fun a ha => ?_, hsnap⟩
  exact hem.patch_of_footprint (hv.whole.valid h.valid_place) hnodup hv.whole.getLast?
    (hv.footprint_front h.valid_place ha)

/-- A chain depends on bytes of its extents only. -/
theorem inExtent_of_footprint {p q : Place} {cs : List ℕ} {a : ℕ} (hr : Reaches d seed p cs q)
    (ha : Footprint cs q a) : ∃ b ∈ cs, InExtent b a := by
  rcases ha with ⟨b, hb, hin⟩ | ⟨hin, -⟩
  · exact ⟨b, List.mem_of_mem_dropLast hb, hin⟩
  · exact ⟨_, hr.mem_last, hin⟩

theorem Open.congr (ho : Open t d seed C e S io)
    (hd : ∀ b ∈ C, ∀ a, InExtent b a → d' a = d a) : Open t d' seed C e S io := by
  have key : ∀ {cs Q q}, (∀ b ∈ cs, b ∈ C) → Tells d seed t.header.place cs Q q →
      Tells d' seed t.header.place cs Q q := fun hsub hr =>
    hr.congr (SuperHeader.valid_place _) fun a ha => by
      obtain ⟨b, hb, hin⟩ := inExtent_of_footprint hr.reaches ha
      exact hd b (hsub b hb) a hin
  cases ho with
  | start hh hr hS => exact .start hh (key (fun _ hb => hb) hr) hS
  | more hh hr hem hp hC hS =>
      exact .more hh (key (fun b hb => hC ▸ List.mem_append_left _ hb) hr) hem hp hC hS
  | last hh hr hem hp hS => exact .last hh (key (fun _ hb => hb) hr) hem hp hS

/-- The finished chain of a compaction ends where `end_id` begins. -/
theorem closed_congr {p : Place} (hr : Tells d seed p (C ++ [e]) S ⟨e, 0, s⟩) (hp : p.Valid)
    (hd : ∀ b ∈ C, ∀ a, InExtent b a → d' a = d a) : Tells d' seed p (C ++ [e]) S ⟨e, 0, s⟩ := by
  refine hr.congr hp fun a ha => ?_
  rcases ha with ⟨b, hb, hin⟩ | ⟨hin, hlt⟩
  · rw [List.dropLast_concat] at hb
    exact hd b hb a hin
  · have haddr : Place.addr ⟨e, 0, s⟩ = superBlockSize + e * extentSize + 0 :=
      (Place.valid_zero e s).addr_eq
    have hge : superBlockSize + e * extentSize ≤ a := hin.1
    omega

/-- What a compaction has walked lies on the chain. -/
theorem walked_congr {ds : List ℕ} {q : Place} (hr : Tells d seed h.place ds S q)
    (hw : Reaches d seed h.place bs w) (hmem : e ∈ bs) (hnew : e ∉ ds)
    (hd : ∀ a, Footprint bs w a → d' a = d a) : Tells d' seed h.place ds S q := by
  rcases hr.reaches.via hw with ⟨ks, rfl, hv⟩ | ⟨ks, rfl, -⟩
  · exact hr.congr h.valid_place fun a ha => hd a (hv.footprint_front h.valid_place ha)
  · exact absurd (List.mem_append_left _ hmem) hnew

end Disk

theorem Busy.congr {e : ℕ} {t : Compact} {task : Task} (hb : σ.Busy bs e t task)
    (hw : σ'.sup.compactWorking = σ.sup.compactWorking) (hi : σ'.inits = σ.inits)
    (ht : σ'.compacts = σ.compacts) (hc : σ'.compact = σ.compact)
    (hu : Upto bs e σ.sup.cursor.extentIdOndisk → Upto bs' e σ'.sup.cursor.extentIdOndisk) :
    σ'.Busy bs' e t task :=
  ⟨hw.trans hb.working, hi.trans hb.inits, ht.trans hb.task, hc.trans hb.compact, hu hb.ahead⟩

/-- **The compaction goes on from where it is**, as long as the chain goes on behind `end_id`
and nobody else writes to its extents. -/
theorem Stage.congr (hst : σ.Stage total h C bs w) (hr : Reaches σ.disk.view h.uuid.seed h.place bs w)
    (hw : σ'.sup.compactWorking = σ.sup.compactWorking) (hi : σ'.inits = σ.inits)
    (ht : σ'.compacts = σ.compacts) (hc : σ'.compact = σ.compact)
    (hu : ∀ e, Upto bs e σ.sup.cursor.extentIdOndisk → Upto bs' e σ'.sup.cursor.extentIdOndisk)
    (hcut : ∀ t e s S, Cut total t σ.disk.view h bs w e s S → Cut total t σ'.disk.view h bs' w' e s S)
    (hblock : ∀ a < superBlockSize, σ'.disk.view a = σ.disk.view a)
    (hfoot : ∀ a, Footprint bs w a → σ'.disk.view a = σ.disk.view a)
    (hown : ∀ b ∈ C, ∀ a, InExtent b a → σ'.disk.view a = σ.disk.view a) :
    σ'.Stage total h C bs' w' := by
  have hparse := superParse_congr hblock
  cases hst with
  | idle hw' hi' ht' hC hp =>
      exact .idle (hw.trans hw') (hi.trans hi') (ht.trans ht') hC (hparse.trans hp)
  | init hw' hi' ht' hu' hC hp =>
      exact .init (hw.trans hw') (hi.trans hi') (ht.trans ht') (hu _ hu') hC (hparse.trans hp)
  | header hb hend hl hX hC hp =>
      exact .header (hb.congr hw hi ht hc (hu _)) hend hl hX hC (hparse.trans hp)
  | page hb hend hh hfed hr' hnew hC hp =>
      exact .page (hb.congr hw hi ht hc (hu _)) hend hh hfed
        (walked_congr hr' hr hb.ahead.mem_left hnew hfoot) hnew hC (hparse.trans hp)
  | writing hb hcut' hid hseq hown' hp =>
      exact .writing (hb.congr hw hi ht hc (hu _)) (hcut _ _ _ _ hcut') hid hseq (hown'.congr hown)
        (hparse.trans hp)
  | super hb hcut' hown' hC hp =>
      exact .super (hb.congr hw hi ht hc (hu _)) (hcut _ _ _ _ hcut')
        (closed_congr hown' (SuperHeader.valid_place _) hown) hC (hparse.trans hp)
  | flushSuper hb hcut' hown' hoff hlen hdata hp =>
      exact .flushSuper (hb.congr hw hi ht hc (hu _)) (hcut _ _ _ _ hcut')
        (closed_congr hown' (SuperHeader.valid_place _) hown) hoff hlen hdata (hparse.trans hp)
  | finish hb hcut' hown' hp =>
      exact .finish (hb.congr hw hi ht hc (hu _)) (hcut _ _ _ _ hcut')
        (closed_congr hown' (SuperHeader.valid_place _) hown) (hparse.trans hp)

/-! ### Steps away from the journal -/

theorem filter_errands {p : Task → Bool} (hp : ∀ t, p t = true → t.isErrand = true) (σ : Sys) :
    σ.tasks.filter p = σ.errands.filter p := by
  rw [errands, List.filter_filter]
  refine List.filter_congr fun t _ => ?_
  cases hpt : p t with
  | false => rfl
  | true => rw [hp t hpt]; rfl

theorem compacts_eq (σ : Sys) : σ.compacts = σ.errands.filter Task.isCompact := by
  refine filter_errands (fun t ht => ?_) σ
  cases t with
  | writer | after => cases ht
  | _ => exact ht

theorem Spares.compacts (hs : σ.Spares σ') : σ'.compacts = σ.compacts := by
  rw [compacts_eq, compacts_eq, hs.errands]

theorem mem_errands {t : Task} (ht : t.isErrand = true) : t ∈ σ.errands ↔ t ∈ σ.tasks := by
  rw [errands, List.mem_filter]
  exact and_iff_left ht

theorem records_eq (σ : Sys) : σ.records = σ.errands.filterMap Task.record? := by
  rw [records, errands, List.filterMap_filter]
  congr 1
  funext t
  cases t with
  | writer fl io => cases io <;> rfl
  | _ => simp [Task.record?]

theorem Spares.records (hs : σ.Spares σ') : σ'.records = σ.records := by
  rw [records_eq, records_eq, hs.errands]

/-- The whole chain lies in the journal. -/
theorem Live.inJournal (hl : σ.Live h C bs X w) {b a : ℕ} (hb : b ∈ bs ++ X ++ C)
    (ha : InExtent b a) : σ.InJournal a :=
  .inr ⟨b, by rw [hl.journal]; exact List.mem_toFinset.2 hb, ha⟩

theorem Live.inJournal_footprint (hl : σ.Live h C bs X w) {a : ℕ} (ha : Footprint bs w a) :
    σ.InJournal a := by
  obtain ⟨b, hb, hin⟩ := inExtent_of_footprint hl.reaches ha
  exact hl.inJournal (List.mem_append_left _ (List.mem_append_left _ hb)) hin

theorem Live.inJournal_own (hl : σ.Live h C bs X w) {a b : ℕ} (hb : b ∈ C) (ha : InExtent b a) :
    σ.InJournal a := hl.inJournal (List.mem_append_right _ hb) ha

/-- The chain stays where it is; the extents beside it become `C'`. -/
theorem Live.keep {C' : List ℕ} (hl : σ.Live h C bs X w) (hu : σ'.sup.uuid = σ.sup.uuid)
    (hc : σ'.sup.cursor = σ.sup.cursor) (hr : σ'.records = σ.records)
    (ha : ∀ fl, .after fl true ∈ σ'.tasks → .after fl true ∈ σ.tasks)
    (hv : ∀ a, Footprint bs w a → σ'.disk.view a = σ.disk.view a) (hn : (bs ++ X ++ C').Nodup)
    (hj : σ'.sup.journal = (bs ++ X ++ C').toFinset) : σ'.Live h C' bs X w := by
  refine ⟨hu.trans hl.uuid, hl.reaches.congr h.valid_place hv, ?_, hn, hj, hc ▸ hl.ondisk, ?_⟩
  · cases hl.tip with
    | rest hr' hp => exact .rest (hr.trans hr') (hc ▸ hp)
    | record hr' hem hes hp => exact .record (hr.trans hr') hem hes (hc ▸ hp)
  · intro fl hm
    rw [hc]
    exact hl.flush fl (ha fl hm)

theorem Live.spares (hl : σ.Live h C bs X w) (hs : σ.Spares σ')
    (hv : ∀ a, σ.InJournal a → σ'.disk.view a = σ.disk.view a) : σ'.Live h C bs X w := by
  have hbook := hs.book
  simp only [Super.book, Prod.mk.injEq] at hbook
  obtain ⟨hjournal, huuid, hcursor, -, -⟩ := hbook
  refine hl.keep huuid hcursor hs.records (fun fl hm => ?_)
    (fun a ha => hv a (hl.inJournal_footprint ha)) hl.nodup (hjournal.trans hl.journal)
  exact (mem_errands rfl).1 (hs.errands ▸ (mem_errands rfl).2 hm)

/-- **A step away from the journal** changes nothing of the chain and of the compaction. -/
theorem Stage.spares (hst : σ.Stage total h C bs w) (hl : σ.Live h C bs X w) (hs : σ.Spares σ')
    (hi : σ'.inits = σ.inits) (hv : ∀ a, σ.InJournal a → σ'.disk.view a = σ.disk.view a) :
    σ'.Stage total h C bs w := by
  have hbook := hs.book
  simp only [Super.book, Prod.mk.injEq] at hbook
  obtain ⟨-, -, hcursor, hworking, -⟩ := hbook
  have hfoot : ∀ a, Footprint bs w a → σ'.disk.view a = σ.disk.view a :=
    fun a ha => hv a (hl.inJournal_footprint ha)
  exact hst.congr hl.reaches hworking hi hs.compacts hs.compact (fun e hu => hcursor ▸ hu)
    (fun t e s S hc => hc.congr hfoot) (fun a ha => hv a (.inl ha)) hfoot
    (fun b hb a ha => hv a (hl.inJournal_own hb ha))

/-! ### The writer of the flushers -/

/-- The chain from `h` goes on from `w` to `w'` with the entries `es`. -/
structure Onward (d : Buf) (h : SuperHeader) (bs : List ℕ) (w : Place) (es : List Entry) (bs' : List ℕ)
    (w' : Place) : Prop where
  front : Reaches d h.uuid.seed h.place bs w
  back : ∃ post, bs' = bs ++ post ∧ Trace d h.uuid.seed w es post w'

/-- The bytes that the chain up to `w`, the super block and the extents `C` consist of stay. -/
structure Leaves (d d' : Buf) (C bs : List ℕ) (w : Place) : Prop where
  foot : ∀ a, Footprint bs w a → d' a = d a
  block : ∀ a < superBlockSize, d' a = d a
  own : ∀ b ∈ C, ∀ a, InExtent b a → d' a = d a

theorem Leaves.refl (d : Buf) (C bs : List ℕ) (w : Place) : Leaves d d C bs w :=
  ⟨fun _ _ => rfl, fun _ _ => rfl, fun _ _ _ _ => rfl⟩

/-- **A record lands**: the chain on the disk goes on to the cursor. -/
theorem Live.land {req : WriteReq} (hl : σ.Live h C bs X w) (hst : σ.Stage total h C bs w)
    (hr : σ.records = [req]) (hr' : σ'.records = []) (hsup : σ'.sup = σ.sup)
    (hv : σ'.disk.view = σ.disk.view.patch req.off req.len req.data)
    (ha : ∀ fl, .after fl true ∈ σ'.tasks → .after fl true ∈ σ.tasks)
    (ht : σ'.compacts = σ.compacts) (hc : σ'.compact = σ.compact) (hi : σ'.inits = σ.inits) :
    σ'.Live h C (bs ++ X) [] σ.sup.cursor.place ∧ σ'.Stage total h C (bs ++ X) σ.sup.cursor.place ∧
      Onward σ'.disk.view h bs w (req.entries.map Entry.stored) (bs ++ X) σ.sup.cursor.place ∧
      Leaves σ.disk.view σ'.disk.view C bs w := by
  cases hl.tip with
  | rest hr₂ => rw [hr] at hr₂; cases hr₂
  | @record req' size es next hr₂ hem hes hp =>
      obtain rfl : req' = req := by rw [hr] at hr₂; exact (List.cons.inj hr₂).1.symm
      have hw := hl.reaches.valid h.valid_place
      obtain ⟨hbX, -, hdisj⟩ := List.nodup_append.1 hl.nodup
      have hbs := (List.nodup_append.1 hbX).1
      have hfoot : ∀ a, Footprint bs w a → σ'.disk.view a = σ.disk.view a := fun a ha => by
        rw [hv]
        exact hem.patch_of_footprint hw hbs hl.reaches.getLast? ha
      have hother : ∀ a, ¬ InExtent w.extentId a → σ'.disk.view a = σ.disk.view a := fun a ha => by
        rw [hv]
        exact hem.patch_of_not_inExtent hw ha
      have hleaves : Leaves σ.disk.view σ'.disk.view C bs w := by
        refine ⟨hfoot, fun a ha => hother a fun hin => ?_, fun b hb a hin => hother a fun hin' => ?_⟩
        · have := hin.1
          omega
        · refine hdisj _ (List.mem_append_left _ hl.reaches.mem_last) b hb ?_
          exact hin'.unique hin
      have hreach := hl.reaches.emit h.valid_place hbs hem
      rw [← hv, ← hp] at hreach
      refine ⟨?_, ?_, ?_, hleaves⟩
      · refine ⟨hsup ▸ hl.uuid, hreach, .rest hr' (by rw [hsup]), ?_, ?_, ?_, fun fl hm => ?_⟩
        · rw [List.append_nil]
          exact hl.nodup
        · rw [List.append_nil, hsup]
          exact hl.journal
        · rw [hsup]
          exact List.mem_append_left _ hl.ondisk
        · rw [hsup]
          exact (hl.flush fl (ha fl hm)).append _
      · refine hst.congr hl.reaches (by rw [hsup]) hi ht hc (fun e hu => ?_) (fun t e s S hcut => ?_)
          hleaves.block hfoot hleaves.own
        · rw [hsup]
          exact hu.append _
        · rw [hv, hp]
          exact hcut.emit hbs hem
      · have hstep := Trace.step (hem.scan_patch σ.disk.view) (.refl (w.behind size es.length next))
        rw [List.append_nil, List.append_nil, ← hv, ← hp, hes] at hstep
        exact ⟨hl.reaches.congr h.valid_place hfoot, _, rfl, hstep⟩

theorem spares_flusherWriteFinish (σ : Sys) (t : Flusher) :
    σ.Spares (σ.flusherWriteFinish t) ∧ (σ.flusherWriteFinish t).disk = σ.disk ∧
      (σ.flusherWriteFinish t).inits = σ.inits := by
  unfold flusherWriteFinish
  simp only
  have hcall : ∀ τ : Sys, (τ.addCall .compact).inits = τ.inits := fun τ =>
    Multiset.filterMap_cons_none _ _ rfl
  split_ifs
  · exact ⟨⟨rfl, rfl, rfl, rfl⟩, rfl, hcall _⟩
  · exact ⟨⟨rfl, rfl, rfl, rfl⟩, rfl, hcall _⟩
  · exact ⟨⟨rfl, rfl, rfl, rfl⟩, rfl, rfl⟩
  · exact ⟨⟨rfl, rfl, rfl, rfl⟩, rfl, rfl⟩

/-- What is queued when a record is emitted. -/
theorem flusherEncode_write (fl : ℕ) {t : Flusher} {s : Super} {c : Cursor} {req : WriteReq}
    {flush : Bool} {rest : List JEntry} (ha : σ.active = none)
    (hw : writerEncode σ.sup σ.sup.cursor t.head none false = .write s c req flush rest) :
    let σ' := σ.flusherEncode fl t false
    σ'.sup = { s with cursor := c } ∧ σ'.errands = .writer fl (some req) :: σ.errands ∧
      σ'.disk = σ.disk ∧ σ'.compact = σ.compact ∧ σ'.loader = σ.loader ∧ σ'.inits = σ.inits := by
  simp only [flusherEncode, hw]
  split_ifs
  all_goals
    refine ⟨rfl, ?_, rfl, rfl, rfl, rfl⟩
    simp only [errands, tasks, addHead, ha, Option.toList_none, List.nil_append]
    rfl

/-- The record that a call of the flushers' writer emits goes to the end of the chain. -/
theorem Live.emit {fl : ℕ} {s : Super} {c : Cursor} {req : WriteReq} {head rest taken : List JEntry}
    {size : ℕ} {next : Option ℕ} (hl : σ.Live h C bs [] w) (hr : σ.records = [])
    (hfree : ∀ b ∈ σ.sup.free, b ∉ σ.sup.journal)
    (hwr : Written σ.sup σ.sup.cursor head none s c req rest taken size next)
    (hsup : σ'.sup = { s with cursor := c }) (herr : σ'.errands = .writer fl (some req) :: σ.errands)
    (hd : σ'.disk = σ.disk) : σ'.Live h C bs next.toList w := by
  have hplace := (hl.tip.of_nil hr).2
  have hrec : σ'.records = [req] := by
    rw [records_eq] at hr ⊢
    rw [herr]
    exact congrArg (req :: ·) hr
  have htip : σ'.Tip h.uuid.seed w next.toList := by
    have hem := hwr.emitted
    rw [hplace, hl.uuid] at hem
    refine .record hrec hem ?_ ?_
    · rw [hwr.entries, List.map_map]
      rfl
    · rw [hsup, List.length_map, ← hplace]
      exact hwr.place
  have hafter : ∀ fl', .after fl' true ∈ σ'.tasks → .after fl' true ∈ σ.tasks := fun fl' hm => by
    have := (mem_errands rfl).2 hm
    rw [herr] at this
    exact (mem_errands rfl).1 ((List.mem_cons.1 this).resolve_left (by simp))
  have hnodup := hl.nodup
  have hjournal := hl.journal
  rw [List.append_nil] at hnodup hjournal
  have hset : s.uuid = σ.sup.uuid ∧ (bs ++ next.toList ++ C).Nodup ∧
      s.journal = (bs ++ next.toList ++ C).toFinset := by
    rcases hwr.super with ⟨rfl, rfl⟩ | ⟨b, -, hb, -⟩ | ⟨b, rfl, hb, rfl⟩
    · rw [Option.toList_none, List.append_nil]
      exact ⟨rfl, hnodup, hjournal⟩
    · cases hb
    · have hb' := hfree b hb
      rw [hjournal, List.mem_toFinset] at hb'
      refine ⟨rfl, ?_, ?_⟩
      · rw [Option.toList_some, List.append_assoc]
        exact (List.nodup_middle).2 (List.nodup_cons.2 ⟨hb', hnodup⟩)
      · show insert b σ.sup.journal = _
        rw [hjournal]
        ext a
        simp only [Option.toList_some, Finset.mem_insert, List.mem_toFinset, List.mem_append,
          List.mem_singleton]
        tauto
  refine ⟨?_, hd ▸ hl.reaches, htip, hset.2.1, ?_, ?_, fun fl' hm => ?_⟩
  · rw [hsup]
    exact hset.1.trans hl.uuid
  · rw [hsup]
    exact hset.2.2
  · rw [hsup]
    exact hwr.ondiskId ▸ hl.ondisk
  · rw [hsup]
    show Upto bs c.extentIdOndisk c.extentIdFlush
    rw [hwr.ondiskId, hwr.flushId]
    exact hl.flush fl' (hafter fl' hm)

/-- The mounted super with its chain from `h`, which is on the disk up to `w`, and the extents
`C` of a compaction. -/
structure Held (σ : Sys) (total : ℕ) (h : SuperHeader) (C bs : List ℕ) (w : Place) : Prop where
  loader : σ.loader = none
  ready : σ.sup.ready = true
  chain : ∃ X, σ.Live h C bs X w ∧ σ.Stage total h C bs w

theorem Held.spares (hh : σ.Held total h C bs w) (hs : σ.Spares σ') (hi : σ'.inits = σ.inits)
    (hv : ∀ a, σ.InJournal a → σ'.disk.view a = σ.disk.view a) : σ'.Held total h C bs w := by
  obtain ⟨X, hl, hst⟩ := hh.chain
  have hbook := hs.book
  simp only [Super.book, Prod.mk.injEq] at hbook
  exact ⟨hs.loader.trans hh.loader, hbook.2.2.2.2.trans hh.ready, X, hl.spares hs hv,
    hst.spares hl hs hi hv⟩

/-- What the writer takes from. -/
theorem Orderly.free_outside (hσ : σ.Orderly total) (htotal : total ≤ extentCountMax) {b : ℕ}
    (hb : b ∈ σ.sup.free) : b < 256 ^ 4 ∧ b ∉ σ.sup.journal := by
  have hlt := hσ.sound.extents.sup.parts.1 .free hb
  rw [Set.mem_ofPred_eq, hσ.sound.totalExtents] at hlt
  refine ⟨hlt.trans_le (htotal.trans (by decide)), fun hj => ?_⟩
  have := hσ.sound.extents.sup.parts.mem_unique .free .journal hb hj
  cases this

/-- The compaction and the extent that is flushed stay. -/
structure Abides (σ σ' : Sys) : Prop where
  compacts : σ'.compacts = σ.compacts
  compact : σ'.compact = σ.compact
  ondisk : σ'.sup.cursor.extentIdOndisk = σ.sup.cursor.extentIdOndisk

theorem Spares.abides (hs : σ.Spares σ') : σ.Abides σ' := by
  have hbook := hs.book
  simp only [Super.book, Prod.mk.injEq] at hbook
  exact ⟨hs.compacts, hs.compact, by rw [hbook.2.2.1]⟩

theorem Abides.trans {τ : Sys} (h₁ : σ.Abides τ) (h₂ : τ.Abides σ') : σ.Abides σ' :=
  ⟨h₂.compacts.trans h₁.compacts, h₂.compact.trans h₁.compact, h₂.ondisk.trans h₁.ondisk⟩

/-- The writer goes on when no record is on its way. -/
theorem Held.encode {fl : ℕ} {t : Flusher} (hh : σ.Held total h C bs w) (ha : σ.active = none)
    (hr : σ.records = []) (hfree : ∀ b ∈ σ.sup.free, b < 256 ^ 4 ∧ b ∉ σ.sup.journal)
    (he : (σ.flusherEncode fl t false).sup.error = false) :
    (σ.flusherEncode fl t false).Held total h C bs w ∧ σ.Abides (σ.flusherEncode fl t false) := by
  obtain ⟨X, hl, hst⟩ := hh.chain
  cases hw : writerEncode σ.sup σ.sup.cursor t.head none false with
  | error s =>
      simp only [flusherEncode, hw] at he
      cases he
  | finish =>
      simp only [flusherEncode, hw]
      obtain ⟨hs, hd, hi⟩ := spares_flusherWriteFinish σ t
      exact ⟨hh.spares hs hi fun a _ => by rw [hd], hs.abides⟩
  | write s c req flush rest =>
      obtain ⟨taken, size, next, hwr⟩ :=
        written_of_writerEncode (fun b hb => (hfree b hb).1) (by simp) hw
      obtain ⟨hsup, herr, hd, hc, hlo, hi⟩ := flusherEncode_write fl ha hw
      obtain ⟨rfl, -⟩ := hl.tip.of_nil hr
      have hlive := hl.emit hr (fun b hb => (hfree b hb).2) hwr hsup herr hd
      have hkeep : s.ready = σ.sup.ready ∧ s.compactWorking = σ.sup.compactWorking := by
        rcases hwr.super with ⟨-, rfl⟩ | ⟨b, -, hb, -⟩ | ⟨b, -, -, rfl⟩
        · exact ⟨rfl, rfl⟩
        · cases hb
        · exact ⟨rfl, rfl⟩
      have hcompacts : (σ.flusherEncode fl t false).compacts = σ.compacts := by
        rw [compacts_eq, compacts_eq, herr]
        rfl
      refine ⟨⟨hlo.trans hh.loader, ?_, _, hlive, ?_⟩, hcompacts, hc, ?_⟩
      · rw [hsup]
        exact hkeep.1.trans hh.ready
      · refine hst.congr hl.reaches (by rw [hsup]; exact hkeep.2) hi hcompacts hc (fun e hu => ?_)
          (fun t e s S hcut => hd ▸ hcut) (fun a _ => by rw [hd]) (fun a _ => by rw [hd])
          (fun b _ a _ => by rw [hd])
        rw [hsup]
        exact hwr.ondiskId ▸ hu
      · rw [hsup]
        exact hwr.ondiskId

theorem flusherEncode_error (σ : Sys) (fl : ℕ) (t : Flusher) :
    (σ.flusherEncode fl t true).sup.error = true := by
  simp only [flusherEncode, writerEncode, true_or, if_true]
  rfl

theorem flusherEncode_keeps (σ : Sys) (fl : ℕ) (t : Flusher) (err : Bool) :
    (σ.flusherEncode fl t err).disk = σ.disk ∧
      (σ.flusherEncode fl t err).log.written = σ.log.written ∧
      (σ.flusherEncode fl t err).log.durable = σ.log.durable := by
  unfold flusherEncode
  split
  · exact ⟨rfl, rfl, rfl⟩
  · unfold flusherWriteFinish
    simp only
    split_ifs <;> exact ⟨rfl, rfl, rfl⟩
  · simp only
    split_ifs <;> exact ⟨rfl, rfl, rfl⟩

theorem Onward.refl {d : Buf} (hr : Reaches d h.uuid.seed h.place bs w) : Onward d h bs w [] bs w :=
  ⟨hr, [], (List.append_nil _).symm, .refl _⟩

theorem Held.reaches (hh : σ.Held total h C bs w) : Reaches σ.disk.view h.uuid.seed h.place bs w := by
  obtain ⟨X, hl, -⟩ := hh.chain
  exact hl.reaches

/-- **The writer of a flusher completes a record and goes on.** -/
theorem Held.writer {fl : ℕ} {io : Option WriteReq} {err m : Bool} {junk : Buf}
    (hσ : σ.Orderly total) (htotal : total ≤ extentCountMax) (hh : σ.Held total h C bs w)
    (ht : σ.active = some (.writer fl io))
    (he : ({ σ with active := none }.runTask (.writer fl io) err m junk).sup.error = false) :
    let σ' := { σ with active := none }.runTask (.writer fl io) err m junk
    ∃ bs' w' es, σ'.Held total h C bs' w' ∧ σ'.log.written = σ.log.written ++ es ∧
      Onward σ'.disk.view h bs w (es.map Entry.stored) bs' w' ∧
      Leaves σ.disk.view σ'.disk.view C bs w ∧ σ.Abides σ' := by
  obtain ⟨f, hf⟩ := flusher_of_active hσ.sound ht rfl
  rw [show (4 * fl + 1) / 4 = fl by omega] at hf
  have hurgent := hσ.urgent
  rw [tasks_of_active ht] at hurgent
  have hq : σ.queue.filterMap Task.record? = [] := hurgent.tail (by simp)
  cases io with
  | none =>
      simp only [runTask, hf] at he ⊢
      have hpop : σ.Spares { σ with active := none } := by
        refine ⟨rfl, ?_, rfl, rfl⟩
        rw [errands, errands, tasks_of_active ht]
        rfl
      obtain ⟨hd, hlog, -⟩ := flusherEncode_keeps { σ with active := none } fl f false
      obtain ⟨hh', habides⟩ := (hh.spares hpop rfl fun a _ => rfl).encode rfl hq
        (fun b hb => hσ.free_outside htotal hb) he
      refine ⟨bs, w, [], hh', ?_, ?_⟩
      · rw [hlog, List.append_nil]
      · rw [hd]
        exact ⟨.refl hh.reaches, .refl .., hpop.abides.trans habides⟩
  | some req =>
      simp only [runTask, hf] at he ⊢
      cases err with
      | true => rw [flusherEncode_error] at he; cases he
      | false =>
          obtain ⟨X, hl, hst⟩ := hh.chain
          have hrec : σ.records = [req] := by
            rw [records, tasks_of_active ht]
            exact congrArg (req :: ·) hq
          have hafter : ∀ fl', .after fl' true ∈ ({ σ with active := none }.ioRecord req false
              junk).tasks → .after fl' true ∈ σ.tasks := fun fl' hm => by
            rw [tasks_of_active ht]
            exact List.mem_cons_of_mem _ hm
          have hcompacts : ({ σ with active := none }.ioRecord req false junk).compacts =
              σ.compacts := by
            rw [compacts, compacts, tasks_of_active ht]
            rfl
          have hq' : ({ σ with active := none }.ioRecord req false junk).records = [] := hq
          obtain ⟨hl', hst', hon, hleaves⟩ :=
            hl.land hst hrec hq' rfl (Disk.view_write _ _) hafter hcompacts rfl rfl
          have hheld : ({ σ with active := none }.ioRecord req false junk).Held total h C (bs ++ X)
              σ.sup.cursor.place := ⟨hh.loader, hh.ready, [], hl', hst'⟩
          obtain ⟨hd, hlog, -⟩ :=
            flusherEncode_keeps ({ σ with active := none }.ioRecord req false junk) fl f false
          obtain ⟨hh', habides⟩ := hheld.encode rfl hq (fun b hb => hσ.free_outside htotal hb) he
          refine ⟨bs ++ X, σ.sup.cursor.place, req.entries, hh', hlog, ?_⟩
          rw [hd]
          exact ⟨hon, hleaves, habides.compacts.trans hcompacts, habides.compact, habides.ondisk⟩

/-! ### The FLUSH behind records -/

theorem Live.marks (hl : σ.Live h C bs X w) (hj : σ'.sup.journal = σ.sup.journal)
    (hu : σ'.sup.uuid = σ.sup.uuid) (hp : σ'.sup.cursor.place = σ.sup.cursor.place)
    (hr : σ'.records = σ.records) (hv : σ'.disk.view = σ.disk.view)
    (hon : σ'.sup.cursor.extentIdOndisk ∈ bs) (hfl : ∀ fl, .after fl true ∈ σ'.tasks →
      Upto bs σ'.sup.cursor.extentIdOndisk σ'.sup.cursor.extentIdFlush) :
    σ'.Live h C bs X w := by
  refine ⟨hu.trans hl.uuid, hv ▸ hl.reaches, ?_, hl.nodup, hj.trans hl.journal, hon, hfl⟩
  cases hl.tip with
  | rest hr' hp' => exact .rest (hr.trans hr') (hp.trans hp')
  | record hr' hem hes hp' => exact .record (hr.trans hr') hem hes (hp.trans hp')

theorem Held.marks (hh : σ.Held total h C bs w) (hb : ∃ a b, σ'.sup.book = { σ.sup with cursor :=
      { σ.sup.cursor with extentIdFlush := a, extentIdOndisk := b } }.book)
    (hr : σ'.records = σ.records) (ht : σ'.compacts = σ.compacts) (hc : σ'.compact = σ.compact)
    (hlo : σ'.loader = σ.loader) (hi : σ'.inits = σ.inits) (hv : σ'.disk.view = σ.disk.view)
    (hon : ∀ X, σ.Live h C bs X w → Upto bs σ.sup.cursor.extentIdOndisk
      σ'.sup.cursor.extentIdOndisk ∧ ∀ fl, .after fl true ∈ σ'.tasks →
        Upto bs σ'.sup.cursor.extentIdOndisk σ'.sup.cursor.extentIdFlush) : σ'.Held total h C bs w := by
  obtain ⟨X, hl, hst⟩ := hh.chain
  obtain ⟨a, b, hbook⟩ := hb
  simp only [Super.book, Prod.mk.injEq] at hbook
  obtain ⟨hj, hu, hcur, hw, hre⟩ := hbook
  obtain ⟨hup, hfl⟩ := hon X hl
  have hbs := (List.nodup_append.1 (List.nodup_append.1 hl.nodup).1).1
  refine ⟨hlo.trans hh.loader, hre.trans hh.ready, X, ?_, ?_⟩
  · exact hl.marks hj hu (by rw [hcur]; rfl) hr hv hup.mem_right hfl
  · exact hst.congr hl.reaches hw hi ht hc (fun e hu => hu.trans hbs hup) (fun t e s S hcut => hv ▸ hcut)
      (fun a _ => by rw [hv]) (fun a _ => by rw [hv]) (fun b _ a _ => by rw [hv])

theorem spares_pop {t : Task} (ht : σ.active = some t) (hk : t.isErrand = false) :
    σ.Spares { σ with active := none } := by
  refine ⟨rfl, ?_, rfl, rfl⟩
  rw [errands, errands, tasks_of_active ht]
  exact (List.filter_cons_of_neg (by rw [hk]; simp)).symm

theorem discardExtents_keeps (σ : Sys) (X : Finset ℕ) :
    (σ.discardExtents X).disk = σ.disk ∧ (σ.discardExtents X).inits = σ.inits := by
  unfold discardExtents
  simp only
  split_ifs <;> exact ⟨rfl, rfl⟩

/-- What `cyanfs_super_flusher_after_flush` does to the journal. -/
theorem flusherAfterFlush_false (he : σ.sup.error = false) : ∃ τ : Sys, σ.Spares τ ∧
    τ.disk = σ.disk ∧ τ.inits = σ.inits ∧
    σ.flusherAfterFlush false = { τ with sup := { τ.sup with
      cursor := { τ.sup.cursor with extentIdOndisk := τ.sup.cursor.extentIdFlush } } } := by
  have hne : ¬ σ.sup.error = true := by simp [he]
  simp only [flusherAfterFlush, Bool.false_eq_true, if_false, if_neg hne]
  split_ifs
  · exact ⟨σ, ⟨rfl, rfl, rfl, rfl⟩, rfl, rfl, rfl⟩
  · exact ⟨{ σ with sup := { σ.sup with flushFlag := true } }, .of_sup rfl, rfl, rfl, rfl⟩
  · have hs := spares_discardExtents { σ with sup := { σ.sup with flush := ∅ } } σ.sup.flush
    obtain ⟨hd, hi⟩ := discardExtents_keeps { σ with sup := { σ.sup with flush := ∅ } } σ.sup.flush
    have hflush : σ.Spares { σ with sup := { σ.sup with flush := ∅ } } := .of_sup rfl
    exact ⟨_, hflush.trans hs, hd, hi, rfl⟩

/-- **The FLUSH of a flusher**: what the cursor had left when it was queued is on disk. -/
theorem Held.after {fl : ℕ} {flush err m : Bool} {junk : Buf} (hσ : σ.Orderly total)
    (hh : σ.Held total h C bs w) (ht : σ.active = some (.after fl flush))
    (he : ({ σ with active := none }.runTask (.after fl flush) err m junk).sup.error = false) :
    ({ σ with active := none }.runTask (.after fl flush) err m junk).Held total h C bs w := by
  obtain ⟨f, hf⟩ := flusher_of_active hσ.sound ht rfl
  rw [show (4 * fl + 2) / 4 = fl by omega] at hf
  have hrec : σ.records = [] := records_of_active hσ.urgent ht rfl (by simp)
  cases flush with
  | false =>
      have hpop := hh.spares (spares_pop ht rfl) rfl fun a _ => rfl
      have hq := (spares_pop ht rfl).records.trans hrec
      simp only [runTask, hf, Bool.false_eq_true, if_false, flusherBeforeFlush] at he ⊢
      split_ifs with herr
      · exact hpop
      have hbook := book_handOver σ.sup f.unused
      simp only [Super.book, Prod.mk.injEq] at hbook
      obtain ⟨hj, hu, hcur, hw, hre⟩ := hbook
      refine hpop.marks ⟨σ.sup.cursor.extentId, σ.sup.cursor.extentIdOndisk, ?_⟩ rfl rfl rfl rfl rfl
        rfl fun X hl => ?_
      · simp only [Super.book, addHead, hj, hu, hcur, hw, hre]
      · obtain ⟨-, hp⟩ := hl.tip.of_nil hq
        have hlast : bs.getLast? = some σ.sup.cursor.extentId := by
          rw [hl.reaches.getLast?, ← hp]
          rfl
        simp only [addHead, hcur]
        exact ⟨.refl hl.ondisk, fun _ _ => .last hl.ondisk hlast⟩
  | true =>
      cases err with
      | true =>
          simp only [runTask, hf, if_true, ioFlush, flusherAfterFlush] at he
          cases he
      | false =>
          have hne : σ.sup.error = false := by
            by_contra hne
            simp only [Bool.not_eq_false] at hne
            simp only [runTask, hf, if_true, ioFlush, flusherAfterFlush, hne, Bool.false_eq_true,
              if_false] at he
            cases he
          have hv := (spares_ioFlush { σ with active := none } false).2
          obtain ⟨τ, hs, hd, hi, heq⟩ :=
            flusherAfterFlush_false (σ := { σ with active := none }.ioFlush false) hne
          simp only [runTask, hf, if_true, heq]
          have hbook := hs.book
          simp only [Super.book, Prod.mk.injEq] at hbook
          obtain ⟨hj, hu, hcur, hw, hre⟩ := hbook
          refine hh.marks ⟨σ.sup.cursor.extentIdFlush, σ.sup.cursor.extentIdFlush, ?_⟩ ?_ ?_ hs.compact
            hs.loader hi (hd ▸ hv) fun X hl => ?_
          · simp only [Super.book, hj, hu, hcur, hw, hre]
            rfl
          · refine hs.records.trans ?_
            rw [hrec]
            rw [records, tasks_of_active ht, List.filterMap_cons_none rfl] at hrec
            exact hrec
          · refine hs.compacts.trans ?_
            rw [compacts, compacts, tasks_of_active ht]
            rfl
          · simp only [hcur]
            have hup := hl.flush fl (by rw [tasks_of_active ht]; exact List.mem_cons_self)
            exact ⟨hup, fun _ _ => .refl hup.mem_right⟩

/-! ### The beginning of a compaction -/

theorem inits_erase {c : Call} (hm : c ∈ σ.calls) : σ.inits = c.init?.elim 0 ({·}) +
    (σ.endCall c).inits := by
  rw [inits, ← Multiset.cons_erase hm]
  cases hc : c.init? with
  | none => rw [Multiset.filterMap_cons_none _ _ hc, Option.elim_none, zero_add]; rfl
  | some e => rw [Multiset.filterMap_cons_some _ _ _ hc]; rfl

/-- The compaction is not working, so it has not begun. -/
theorem Stage.idle_of_working (hst : σ.Stage total h C bs w) (hw : σ.sup.compactWorking = false) :
    σ.inits = 0 ∧ σ.compacts = [] ∧ C = [] ∧ superParse σ.disk.view = some h := by
  cases hst with
  | idle _ hi ht hC hp => exact ⟨hi, ht, hC, hp⟩
  | init hw' => rw [hw] at hw'; cases hw'
  | header hb | page hb | writing hb | super hb | flushSuper hb | finish hb =>
      exact absurd hb.working (by simp [hw])

/-- **`cyanfs_super_compact`** fixes `end_id`. -/
theorem Held.compactStart (hh : σ.Held total h C bs w) (hm : .compact ∈ σ.calls) :
    (σ.compactStart .compact).Held total h C bs w := by
  have hends : (σ.endCall .compact).inits = σ.inits := by
    rw [inits_erase hm]
    exact (zero_add _).symm
  unfold Sys.compactStart
  simp only
  split_ifs with hc
  · exact hh.spares ⟨rfl, rfl, rfl, rfl⟩ hends fun a _ => rfl
  · obtain ⟨X, hl, hst⟩ := hh.chain
    have hw : σ.sup.compactWorking = false := by
      simp only [not_or] at hc
      simpa using hc.2.2
    obtain ⟨hi, ht, hC, hp⟩ := hst.idle_of_working hw
    refine ⟨hh.loader, hh.ready, X, ?_, .init rfl ?_ ht (.refl hl.ondisk) hC hp⟩
    · exact hl.keep rfl rfl rfl (fun _ hm => hm) (fun _ _ => rfl) hl.nodup hl.journal
    · refine (Multiset.filterMap_cons_some Call.init? _ _ rfl).trans ?_
      exact congrArg (σ.sup.cursor.extentIdOndisk ::ₘ ·) (hends.trans hi)

/-- The section of `cyanfs_super_compact` is over. -/
theorem Stage.init_of_mem {e : ℕ} (hst : σ.Stage total h C bs w) (hm : .compactInit e ∈ σ.calls) :
    σ.sup.compactWorking = true ∧ (σ.endCall (.compactInit e)).inits = 0 ∧ σ.compacts = [] ∧
      Upto bs e σ.sup.cursor.extentIdOndisk ∧ C = [] ∧ superParse σ.disk.view = some h := by
  have hsum : σ.inits = e ::ₘ (σ.endCall (.compactInit e)).inits := inits_erase hm
  cases hst with
  | idle _ hi =>
      rw [hi] at hsum
      exact absurd hsum.symm Multiset.cons_ne_zero
  | @init e' hw hi ht hu hC hp =>
      rw [hi, ← Multiset.cons_zero e'] at hsum
      obtain ⟨rfl, hz⟩ | ⟨-, _, hz, -⟩ := Multiset.cons_eq_cons.1 hsum
      · exact ⟨hw, hz.symm, ht, hu, hC, hp⟩
      · exact absurd hz.symm Multiset.cons_ne_zero
  | header hb | page hb | writing hb | super hb | flushSuper hb | finish hb =>
      rw [hb.inits] at hsum
      exact absurd hsum.symm Multiset.cons_ne_zero

/-- The compaction reads the super block. -/
theorem Held.compactInit {e : ℕ} {ok : Bool} (hh : σ.Held total h C bs w)
    (htotal : σ.sup.totalExtents = total) (hm : .compactInit e ∈ σ.calls)
    (he : (σ.compactInit (.compactInit e) e ok).sup.error = false) :
    (σ.compactInit (.compactInit e) e ok).Held total h C bs w := by
  unfold Sys.compactInit at he ⊢
  simp only at he ⊢
  cases ok with
  | false => simp only [Bool.false_eq_true, if_false, compactFail] at he; cases he
  | true =>
      rw [if_pos rfl]
      obtain ⟨X, hl, hst⟩ := hh.chain
      obtain ⟨hw, hi, ht, hu, hC, hp⟩ := hst.init_of_mem hm
      refine ⟨hh.loader, hh.ready, X, ?_, .header (u := σ.sup.uuid) ⟨hw, hi, ?_, rfl, hu⟩ rfl
        rfl ?_ hC hp⟩
      · refine hl.keep rfl rfl ?_ (fun fl hm => ?_) (fun _ _ => rfl) hl.nodup hl.journal
        · rw [records, tasks_addTail, List.filterMap_append]
          exact List.append_nil _
        · rw [tasks_addTail] at hm
          exact (List.mem_append.1 hm).resolve_right (by simp)
      · rw [compacts, tasks_addTail, List.filter_append]
        exact congrArg (· ++ [Task.compactHeader]) ht
      · rw [← htotal]
        rfl

end Sys

end Cyanfs
