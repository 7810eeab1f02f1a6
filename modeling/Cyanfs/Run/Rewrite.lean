/-
# The compaction rewrites the chain

The tasks of a compaction under `Held`: it walks the chain up to `end_id`
(`cyanfs_journal_compact_loader_finish`), writes the snapshot to extents of its own, puts its
header into the other slot of the super block and frees what it has walked.  Each task keeps
the chain from the old header, and the last one changes over to the chain from the new header
(`Held.compact`, `Held.compactFinish`).
-/

import Cyanfs.Run.Ledger

namespace Cyanfs

open Lib Std

/-- The header of the compaction is on its way to the disk. -/
def Task.isLate : Task → Bool
  | .compactFlushSuper _ | .compactFinish => true
  | _ => false

/-- The order of a compaction's tasks. -/
def Task.leads : Task → Task → Bool
  | .compactWriteSuper _, .compactFlushSuper _ => true
  | .compactFlushSuper _, .compactFinish => true
  | .compactHeader, u | .compactPage, u | .compactWriter _, u => !u.isLate
  | _, _ => false

theorem Task.record_of_isCompact {u : Task} (hu : u.isCompact = true) : u.record? = none := by
  cases u with
  | writer | after => cases hu
  | _ => rfl

namespace Sys

variable {σ σ' : Sys} {total e s : ℕ} {h : SuperHeader} {bs C X : List ℕ} {w : Place}
  {t t' : Compact} {task u : Task} {S : List Entry}

/-! ### From task to task -/

/-- A task of the compaction is over and `ts` follow. -/
structure Relay (σ σ' : Sys) (ts : List Task) : Prop where
  active : σ'.active = none
  queue : σ'.queue = σ.queue ++ ts
  inits : σ'.inits = σ.inits
  loader : σ'.loader = σ.loader
  uuid : σ'.sup.uuid = σ.sup.uuid
  cursor : σ'.sup.cursor = σ.sup.cursor
  ready : σ'.sup.ready = σ.sup.ready

theorem Relay.tasks {ts : List Task} (hrel : σ.Relay σ' ts) : σ'.tasks = σ.queue ++ ts := by
  rw [Sys.tasks, hrel.active, hrel.queue]
  rfl

theorem Relay.records {ts : List Task} (hrel : σ.Relay σ' ts) (ha : σ.active = some task)
    (hk : task.isCompact = true) (hts : ∀ u ∈ ts, u.isCompact = true) :
    σ'.records = σ.records := by
  have hnone : ts.filterMap Task.record? = [] :=
    List.filterMap_eq_nil_iff.2 fun u hu => Task.record_of_isCompact (hts u hu)
  rw [Sys.records, Sys.records, hrel.tasks, tasks_of_active ha, List.filterMap_append, hnone,
    List.append_nil, List.filterMap_cons_none (Task.record_of_isCompact hk)]

/-- The chain under a task of the compaction. -/
theorem Live.relay {C' : List ℕ} {ts : List Task} (hl : σ.Live h C bs X w)
    (hrel : σ.Relay σ' ts) (ha : σ.active = some task) (hk : task.isCompact = true)
    (hts : ∀ u ∈ ts, u.isCompact = true)
    (hv : ∀ a, Footprint bs w a → σ'.disk.view a = σ.disk.view a) (hn : (bs ++ X ++ C').Nodup)
    (hj : σ'.sup.journal = (bs ++ X ++ C').toFinset) : σ'.Live h C' bs X w := by
  refine hl.keep hrel.uuid hrel.cursor (hrel.records ha hk hts) (fun fl hm => ?_) hv hn hj
  rw [hrel.tasks] at hm
  rw [tasks_of_active ha]
  refine List.mem_cons_of_mem _ ((List.mem_append.1 hm).resolve_right fun hm => ?_)
  exact absurd (hts _ hm) (by simp [Task.isCompact])

/-- The task of the compaction is not queued twice. -/
theorem Busy.compacts {ts : List Task} (hb : σ.Busy bs e t task) (ha : σ.active = some task)
    (hrel : σ.Relay σ' ts) (hts : ∀ u ∈ ts, u.isCompact = true) : σ'.compacts = ts := by
  have hq : σ.queue.filter Task.isCompact = [] := by
    have htask := hb.task
    have hk : task.isCompact = true := by
      refine (List.mem_filter.1 (?_ : task ∈ σ.tasks.filter Task.isCompact)).2
      rw [← Sys.compacts, htask]
      exact List.mem_singleton_self task
    rw [Sys.compacts, tasks_of_active ha, List.filter_cons_of_pos hk] at htask
    exact (List.cons.inj htask).2
  rw [Sys.compacts, hrel.tasks, List.filter_append, hq, List.nil_append]
  exact List.filter_eq_self.2 hts

theorem Busy.relay (hb : σ.Busy bs e t task) (ha : σ.active = some task)
    (hrel : σ.Relay σ' [u]) (hk : u.isCompact = true)
    (hw : σ'.sup.compactWorking = σ.sup.compactWorking) (hc : σ'.compact = some t') :
    σ'.Busy bs e t' u where
  working := hw.trans hb.working
  inits := hrel.inits.trans hb.inits
  task := hb.compacts ha hrel (by simpa using hk)
  compact := hc
  ahead := hrel.cursor ▸ hb.ahead

/-- The compaction goes on from `task` to `u` and takes `D`; the chain stays. -/
structure Passes (σ σ' : Sys) (total : ℕ) (h : SuperHeader) (C D bs : List ℕ) (w : Place)
    (task u : Task) : Prop where
  held : σ'.Held total h (C ++ D) bs w
  taken : D.toFinset = σ'.sup.journal \ σ.sup.journal
  foot : ∀ a, Footprint bs w a → σ'.disk.view a = σ.disk.view a
  block : u ≠ .compactFinish → ∀ a < superBlockSize, σ'.disk.view a = σ.disk.view a
  compacts : σ'.compacts = [u]
  cursor : σ'.sup.cursor = σ.sup.cursor
  leads : task.leads u = true
  late : u.isLate = true → D = []

/-- The chain stays, and the compaction takes what the journal has more of. -/
def Grows (σ σ' : Sys) (total : ℕ) (h : SuperHeader) (C bs : List ℕ) (w : Place) (task : Task) : Prop :=
  ∃ D u, σ.Passes σ' total h C D bs w task u

theorem Live.grows {D : List ℕ} (hl : σ.Live h C bs X w) (hl' : σ'.Live h (C ++ D) bs X w) :
    D.toFinset = σ'.sup.journal \ σ.sup.journal := by
  have hn := hl'.nodup
  rw [← List.append_assoc] at hn
  have hdisj := (List.nodup_append.1 hn).2.2
  rw [hl'.journal, hl.journal, ← List.append_assoc, List.toFinset_append, Finset.union_sdiff_left]
  refine (Finset.sdiff_eq_self_of_disjoint (Finset.disjoint_left.2 fun b hb hb' => ?_)).symm
  exact hdisj b (List.mem_toFinset.1 hb') b (List.mem_toFinset.1 hb) rfl

/-- A task of the compaction keeps the chain and takes `D`. -/
theorem Live.relay_grows {D : List ℕ} (hl : σ.Live h C bs X w) (hrel : σ.Relay σ' [u])
    (hlo : σ.loader = none) (hre : σ.sup.ready = true) (ha : σ.active = some task)
    (hb : σ.Busy bs e t task) (hlead : task.leads u = true) (hk : task.isCompact = true)
    (hk' : u.isCompact = true) (hlate : u.isLate = true → D = [])
    (hv : ∀ a, Footprint bs w a → σ'.disk.view a = σ.disk.view a)
    (hblock : u ≠ .compactFinish → ∀ a < superBlockSize, σ'.disk.view a = σ.disk.view a)
    (hn : (bs ++ X ++ (C ++ D)).Nodup) (hj : σ'.sup.journal = (bs ++ X ++ (C ++ D)).toFinset)
    (hst : σ'.Stage total h (C ++ D) bs w) : σ.Grows σ' total h C bs w task := by
  have hlive := hl.relay hrel ha hk (by simpa using hk') hv hn hj
  exact ⟨D, u, ⟨hrel.loader.trans hlo, hrel.ready.trans hre, X, hlive, hst⟩, hl.grows hlive, hv, hblock,
    hb.compacts ha hrel (by simpa using hk'), hrel.cursor, hlead, hlate⟩

/-- A task of the compaction keeps the chain and takes nothing. -/
theorem Live.relay_stays (hl : σ.Live h C bs X w) (hrel : σ.Relay σ' [u])
    (hlo : σ.loader = none) (hre : σ.sup.ready = true) (ha : σ.active = some task)
    (hb : σ.Busy bs e t task) (hlead : task.leads u = true) (hk : task.isCompact = true)
    (hk' : u.isCompact = true)
    (hv : ∀ a, Footprint bs w a → σ'.disk.view a = σ.disk.view a)
    (hblock : u ≠ .compactFinish → ∀ a < superBlockSize, σ'.disk.view a = σ.disk.view a)
    (hj : σ'.sup.journal = σ.sup.journal) (hst : σ'.Stage total h C bs w) :
    σ.Grows σ' total h C bs w task := by
  rw [← List.append_nil C] at hst
  refine hl.relay_grows hrel hlo hre ha hb hlead hk hk' (fun _ => rfl) hv hblock ?_ ?_ hst
  · rw [List.append_nil]
    exact hl.nodup
  · rw [List.append_nil, hj]
    exact hl.journal

theorem Live.extended {b : ℕ} (hl : σ.Live h C bs X w) (hb : b ∉ σ.sup.journal) :
    (bs ++ X ++ (C ++ [b])).Nodup ∧
      insert b σ.sup.journal = (bs ++ X ++ (C ++ [b])).toFinset := by
  rw [hl.journal, List.mem_toFinset] at hb
  rw [← List.append_assoc]
  constructor
  · refine List.nodup_append.2 ⟨hl.nodup, List.nodup_singleton b, fun a ha c hc => ?_⟩
    rintro rfl
    exact hb (List.mem_singleton.1 hc ▸ ha)
  · rw [List.toFinset_append, ← hl.journal, Finset.union_comm]
    rfl

theorem Orderly.extent_lt (hσ : σ.Orderly total) (htotal : total ≤ extentCountMax) {b : ℕ}
    (hb : b ∈ σ.sup.journal ∨ b ∈ σ.sup.free) : b < extentIdInvalid := by
  have hlt : b < σ.sup.totalExtents := by
    rcases hb with hb | hb
    · exact hσ.sound.extents.sup.parts.1 .journal hb
    · exact hσ.sound.extents.sup.parts.1 .free hb
  rw [hσ.sound.totalExtents] at hlt
  exact hlt.trans_le (htotal.trans (by decide))

/-! ### The end of the walk -/

section Walk

variable {l : Loader} {Y : Super} {pre post : List ℕ} {m : Bool}

theorem journal_of_fed {Z : Super} {es : List Entry} (hfed : Fed Y (es ++ pre.map .next) Z)
    (hreg : ∀ e ∈ es, e.Regular) (hY : Y.journal = ∅) : Z.journal = pre.toFinset := by
  ext b
  rw [hfed.mem_journal, hY, List.mem_toFinset]
  simp only [Finset.notMem_empty, false_or, List.mem_append, next_notMem_of_regular hreg,
    List.mem_map, Entry.next.injEq, exists_eq_right]

/-- What the compaction has at hand when it comes to `end_id`. -/
structure Arrived (σ : Sys) (total : ℕ) (h : SuperHeader) (bs pre post : List ℕ) (w : Place) (e : ℕ)
    (l : Loader) (Y : Super) : Prop where
  endId : l.endId = some e
  header : l.header = h
  chain : bs = pre ++ e :: post
  via : Via σ.disk.view h.uuid.seed h.place ⟨e, 0, Y.cursor.seq⟩ w (pre ++ [e]) post
  fed : ∃ u P, Tells σ.disk.view h.uuid.seed h.place (pre ++ [e]) P ⟨e, 0, Y.cursor.seq⟩ ∧
    Fed (.opened total false false u fun _ => 0) (P ++ pre.map .next) Y

theorem Arrived.seq_le (har : σ.Arrived total h bs pre post w e l Y)
    (hp : superParse σ.disk.view = some h) : Y.cursor.seq ≤ u64Max := by
  obtain ⟨es, js, -, ht⟩ := har.via.front
  exact ht.seq_le (journalSeq_le hp)

/-- The private super of the compaction. -/
theorem Arrived.cut {es : List Entry} (har : σ.Arrived total h bs pre post w e l Y) (hl : t.loader = l)
    (hf : t.header.Follows h) (hj : t.priv.journal = Y.journal) (hsnap : Y.snapshot = some es) :
    Cut total t σ.disk.view h bs w e Y.cursor.seq (es.map Entry.stored) := by
  obtain ⟨u, P, hP, hfed⟩ := har.fed
  obtain ⟨js, -, ht⟩ := id hP
  exact ⟨hl ▸ har.endId, hf, pre, post, har.chain, har.via,
    hj.trans (journal_of_fed hfed ht.regular rfl), P, hP, u, pre, Y, es, hfed, hsnap, rfl⟩

/-- **The end of the walk**: the compaction goes on with its snapshot, or with its header. -/
theorem Arrived.finish (har : σ.Arrived total h bs pre post w e l Y) (hσ : σ.Orderly total)
    (htotal : total ≤ extentCountMax) (hlo : σ.loader = none) (hre : σ.sup.ready = true)
    (hl : σ.Live h [] bs X w) (hb : σ.Busy bs e t task) (ha : σ.active = some task)
    (hk : task.isCompact = true) (hlead : ∀ u : Task, u.isLate = false → task.leads u = true)
    (hp : superParse σ.disk.view = some h)
    (he : ({ σ with active := none }.compactLoaderFinish t l Y m).sup.error = false) :
    σ.Grows ({ σ with active := none }.compactLoaderFinish t l Y m) total h [] bs w task := by
  have hmem : e ∈ σ.sup.journal := by
    rw [hl.journal, har.chain]
    simp
  have hlt := hσ.extent_lt htotal (.inl hmem)
  have hseq := har.seq_le hp
  have hversion := version_le hp
  obtain rfl := har.header
  have hend := har.endId
  cases hsnap : Y.snapshot with
  | none =>
      simp only [compactLoaderFinish, hsnap] at he
      cases he
  | some es =>
      cases m with
      | false =>
          simp only [compactLoaderFinish, hsnap] at he
          cases he
      | true =>
          simp only [compactLoaderFinish, hsnap] at he ⊢
          by_cases hbad : u64Max < es.length ∨ Y.cursor.seq < es.length ∨ l.header.version = u64Max
          · rw [if_pos hbad] at he
            cases he
          rw [if_neg hbad] at he ⊢
          simp only [not_or, Nat.not_lt] at hbad
          obtain ⟨-, hlen, hver⟩ := hbad
          by_cases hnil : es = []
          · rw [if_pos hnil]
            subst hnil
            simp only [hend, Option.getD_some]
            refine hl.relay_stays (u := .compactWriteSuper false)
              ⟨rfl, rfl, rfl, rfl, rfl, rfl, rfl⟩ hlo hre ha hb (hlead _ rfl) hk rfl
              (fun _ _ => rfl) (fun _ _ _ => rfl) rfl
              (.super (hb.relay ha ⟨rfl, rfl, rfl, rfl, rfl, rfl, rfl⟩ rfl rfl rfl)
                (har.cut rfl ?_ rfl hsnap) ?_ (fun _ => rfl) hp)
            · exact ⟨rfl, rfl, rfl, by show l.header.version + 1 ≤ u64Max; omega, hlt, hseq⟩
            · exact ⟨[], rfl, .refl _⟩
          · rw [if_neg hnil] at he ⊢
            cases hnear : σ.sup.findNearlyExtent 0 with
            | none =>
                simp only [hnear] at he
                cases he
            | some b =>
                simp only
                have hfree := Super.mem_of_findNearlyExtent hnear
                obtain ⟨hn, hj⟩ := hl.extended (hσ.free_outside htotal hfree).2
                refine hl.relay_grows (D := [b]) (u := .compactWriter none)
                  ⟨rfl, rfl, rfl, rfl, rfl, rfl, rfl⟩ hlo hre ha hb (hlead _ rfl) hk rfl (by simp [Task.isLate])
                  (fun _ _ => rfl) (fun _ _ _ => rfl) hn hj
                  (.writing (hb.relay ha ⟨rfl, rfl, rfl, rfl, rfl, rfl, rfl⟩ rfl rfl rfl)
                    (har.cut rfl ?_ rfl hsnap) har.endId ?_ (.start ?_ (.refl _) ?_) hp)
                · exact ⟨rfl, rfl, rfl, by show l.header.version + 1 ≤ u64Max; omega,
                    hσ.extent_lt htotal (.inr hfree), (Nat.sub_le _ _).trans hseq⟩
                · show Y.cursor.seq - es.length + (es.map _).length = Y.cursor.seq
                  rw [List.length_map]
                  omega
                · simpa using hnil
                · simp

/-- **The super block has been read.** -/
theorem Live.header {err : Bool} {junk : Buf} (hl : σ.Live h [] bs X w) (hσ : σ.Orderly total)
    (htotal : total ≤ extentCountMax) (hlo : σ.loader = none) (hre : σ.sup.ready = true)
    (ha : σ.active = some .compactHeader) (hb : σ.Busy bs e t .compactHeader)
    (hend : t.loader.endId = some e) (hw : t.loader.journals = []) {u : Uuid}
    (hX : t.priv = .opened total false false u fun _ => 0)
    (hp : superParse σ.disk.view = some h)
    (he : ({ σ with active := none }.runTask .compactHeader err m junk).sup.error = false) :
    σ.Grows ({ σ with active := none }.runTask .compactHeader err m junk) total h [] bs w
      .compactHeader := by
  simp only [runTask, hb.compact] at he ⊢
  cases err with
  | true => cases he
  | false =>
      simp only [Bool.false_eq_true, if_false] at he ⊢
      have hout := Loader.parserHeader_out (d := σ.disk.view) m t.loader t.priv
      have hhead : ∀ l' Y, t.loader.parserHeader t.priv m σ.disk.view = .readPage l' Y ∨
          t.loader.parserHeader t.priv m σ.disk.view = .finish l' Y → h = l'.header :=
        fun l' Y hor => Option.some.inj (hp.symm.trans (Loader.header_of_parserHeader hor))
      revert hout hhead he
      generalize t.loader.parserHeader t.priv m σ.disk.view = out
      intro he hout hhead
      cases hout with
      | error Y => cases he
      | @next h' Y hmax hplace hfed hbound hnew hne =>
          obtain rfl : h = h' := hhead _ _ (.inl rfl)
          refine hl.relay_stays (u := .compactPage)
            ⟨rfl, rfl, rfl, rfl, rfl, rfl, rfl⟩ hlo hre ha hb rfl rfl rfl
            (fun _ _ => rfl) (fun _ _ _ => rfl) rfl
            (.page (hb.relay ha ⟨rfl, rfl, rfl, rfl, rfl, rfl, rfl⟩ rfl rfl rfl) hend rfl
              (hX ▸ hfed) ?_ ?_ rfl hp)
          · rw [hw]
            show Tells _ _ _ _ _ Y.cursor.place
            rw [hplace]
            exact .refl _
          · rw [hw, List.nil_append, List.mem_singleton]
            rintro rfl
            exact hne hend
      | @finish h' Y hmax hfed hseq hend' =>
          obtain rfl : h = h' := hhead _ _ (.inr rfl)
          obtain rfl : e = h.journalId := Option.some.inj (hend.symm.trans hend')
          have htells : Tells σ.disk.view h.uuid.seed h.place ([] ++ [h.journalId]) [] h.place := .refl _
          obtain ⟨post, hpost, hvia⟩ :=
            htells.reaches.via_of_mem hl.reaches hb.ahead.mem_left (by simp)
          rw [hw, hX] at hfed
          have har : σ.Arrived total h bs [] post w h.journalId { t.loader with header := h } Y :=
            ⟨hend', rfl, hpost, by rw [hseq]; exact hvia, u, [], by rw [hseq]; exact htells, hfed⟩
          exact har.finish hσ htotal hlo hre hl hb ha rfl (fun u hu => by simp [Task.leads, hu]) hp he

/-- **A page has been read.** -/
theorem Live.page {err : Bool} {junk : Buf} (hl : σ.Live h [] bs X w) (hσ : σ.Orderly total)
    (htotal : total ≤ extentCountMax) (hlo : σ.loader = none) (hre : σ.sup.ready = true)
    (ha : σ.active = some .compactPage) (hb : σ.Busy bs e t .compactPage)
    (hend : t.loader.endId = some e) (hh : t.loader.header = h) {u : Uuid} {P : List Entry}
    (hX : Fed (.opened total false false u fun _ => 0) P t.priv)
    (hr : Tells σ.disk.view h.uuid.seed h.place t.loader.journals P t.priv.cursor.place)
    (hnew : e ∉ t.loader.journals) (hp : superParse σ.disk.view = some h)
    (he : ({ σ with active := none }.runTask .compactPage err m junk).sup.error = false) :
    σ.Grows ({ σ with active := none }.runTask .compactPage err m junk) total h [] bs w
      .compactPage := by
  simp only [runTask, hb.compact] at he ⊢
  cases err with
  | true => cases he
  | false =>
      simp only [Bool.false_eq_true, if_false] at he ⊢
      have hout := Loader.parserPage_out (d := σ.disk.view) m t.loader
        (hr.reaches.valid h.valid_place)
      revert hout he
      generalize t.loader.parserPage t.priv m σ.disk.view = out
      intro he hout
      cases hout with
      | error Y => cases he
      | @again es Y ht hfed hlt =>
          rw [hh] at ht
          have hr' := hr.append ht
          rw [List.append_nil] at hr'
          exact hl.relay_stays (u := .compactPage)
            ⟨rfl, rfl, rfl, rfl, rfl, rfl, rfl⟩ hlo hre ha hb rfl rfl rfl
            (fun _ _ => rfl) (fun _ _ _ => rfl) rfl
            (.page (hb.relay ha ⟨rfl, rfl, rfl, rfl, rfl, rfl, rfl⟩ rfl rfl rfl) hend hh
              (hX.trans hfed) hr' hnew rfl hp)
      | @next es Y b ht hfed hid hoff hbound hb' hne =>
          rw [hh] at ht
          refine hl.relay_stays (u := .compactPage)
            ⟨rfl, rfl, rfl, rfl, rfl, rfl, rfl⟩ hlo hre ha hb rfl rfl rfl
            (fun _ _ => rfl) (fun _ _ _ => rfl) rfl
            (.page (hb.relay ha ⟨rfl, rfl, rfl, rfl, rfl, rfl, rfl⟩ rfl rfl rfl) hend hh
              (hX.trans hfed) (hr.append ht) ?_ rfl hp)
          rw [List.mem_append, List.mem_singleton]
          rintro (hm | rfl)
          · exact hnew hm
          · exact hne hend
      | @finish es Y q ht hfed hseq hplace hzero =>
          rw [hh, hend, Option.toList_some] at ht
          have htells := hr.append ht
          have hq : q = ⟨e, 0, Y.cursor.seq⟩ := by
            have hlast := htells.reaches.getLast?
            rw [List.getLast?_concat] at hlast
            exact Place.ext (Option.some.inj hlast).symm (hzero (by simp [hend])) hseq.symm
          rw [hq] at htells
          obtain ⟨post, hpost, hvia⟩ :=
            htells.reaches.via_of_mem hl.reaches hb.ahead.mem_left hnew
          have hfed' := hX.trans hfed
          rw [← List.append_assoc] at hfed'
          have har : σ.Arrived total h bs t.loader.journals post w e t.loader Y :=
            ⟨hend, hh, hpost, hvia, u, _, htells, hfed'⟩
          exact har.finish hσ htotal hlo hre hl hb ha rfl (fun u hu => by simp [Task.leads, hu]) hp he

end Walk

/-! ### The writer of the compaction -/

theorem Cut.of_eq {d : Buf} (hc : Cut total t d h bs w e s S) (hl : t'.loader = t.loader)
    (hh : t'.header = t.header) (hj : t'.priv.journal = t.priv.journal) :
    Cut total t' d h bs w e s S := by
  obtain ⟨pre, post, hbs, hvia, hpre, hP⟩ := hc.via
  exact ⟨hl ▸ hc.endId, hh ▸ hc.follows, pre, post, hbs, hvia, hj.trans hpre, hP⟩

/-- **The next record of the compaction** goes behind what it has written, to a fresh extent if
need be; the last one links to `end_id`. -/
theorem Live.encode {d : Disk} (hl : σ.Live h C bs X w) (hσ : σ.Orderly total)
    (htotal : total ≤ extentCountMax) (hlo : σ.loader = none) (hre : σ.sup.ready = true)
    (ha : σ.active = some task) (hk : task.isCompact = true) (hb : σ.Busy bs e t task)
    (hcut : Cut total t d.view h bs w e s S) (hid : t.nextId = some e)
    (hseq : t.priv.cursor.seq + t.head.length = s) (hne : t.head ≠ []) {Q : List Entry}
    (hr : Tells d.view h.uuid.seed t.header.place C Q t.priv.cursor.place)
    (hS : Q ++ t.head.map (·.entry.stored) = S)
    (hlead : ∀ u : Task, u.isLate = false → task.leads u = true)
    (hp : superParse d.view = some h) (hv : ∀ a, Footprint bs w a → d.view a = σ.disk.view a)
    (hblock : ∀ a < superBlockSize, d.view a = σ.disk.view a)
    (he : ({ σ with active := none, compact := some t, disk := d }.compactEncode t false).sup.error =
      false) :
    σ.Grows ({ σ with active := none, compact := some t, disk := d }.compactEncode t false) total h C
      bs w task := by
  have hmem : e ∈ σ.sup.journal := by
    rw [hl.journal]
    simp [hb.ahead.mem_left]
  have hlt : e < 256 ^ 4 := (hσ.extent_lt htotal (.inl hmem)).trans (by decide)
  cases hw : writerEncode σ.sup t.priv.cursor t.head t.nextId false with
  | error x =>
      simp only [compactEncode, hw] at he
      cases he
  | finish => exact absurd (head_of_finish hw) hne
  | write x c req flush rest =>
      obtain ⟨taken, size, next, hwr⟩ := written_of_writerEncode
        (fun b hb => (hσ.free_outside htotal hb).1) (by simpa [hid] using hlt) hw
      have hem := hwr.emitted
      rw [hl.uuid] at hem
      have hplace : c.place = t.priv.cursor.place.behind size
          (taken.map (·.entry.stored)).length next := by
        rw [List.length_map]
        exact hwr.place
      have hseq' : c.seq + rest.length = s := by
        have hs : c.seq = t.priv.cursor.seq + taken.length := by
          have := congrArg Place.seq hwr.place
          cases next <;> exact this
        rw [← hseq, hs, hwr.head, List.length_append, Nat.add_assoc]
      have hS' : Q ++ taken.map (·.entry.stored) ++ rest.map (·.entry.stored) = S := by
        rw [← hS, hwr.head, List.map_append, List.append_assoc]
      simp only [compactEncode, hw]
      rcases hwr.super with ⟨rfl, rfl⟩ | ⟨b, rfl, hb', rfl, rfl⟩ | ⟨b, rfl, hfree, rfl⟩
      · -- the record stays in its extent
        have hrest : rest ≠ [] := fun hnil => by cases hwr.final e hid hnil
        exact hl.relay_stays (u := .compactWriter (some req))
          ⟨rfl, rfl, rfl, rfl, rfl, rfl, rfl⟩ hlo hre ha hb (hlead _ rfl) hk rfl hv
          (fun _ => hblock) rfl
          (.writing (hb.relay ha ⟨rfl, rfl, rfl, rfl, rfl, rfl, rfl⟩ rfl rfl rfl)
            (hcut.of_eq rfl rfl rfl) hid hseq' (.more hrest hr hem hplace (List.append_nil C) hS') hp)
      · -- the last record
        obtain rfl : b = e := Option.some.inj (hb'.symm.trans hid)
        exact hl.relay_stays (u := .compactWriter (some req))
          ⟨rfl, rfl, rfl, rfl, rfl, rfl, rfl⟩ hlo hre ha hb (hlead _ rfl) hk rfl hv
          (fun _ => hblock) rfl
          (.writing (hb.relay ha ⟨rfl, rfl, rfl, rfl, rfl, rfl, rfl⟩ rfl rfl rfl)
            (hcut.of_eq rfl rfl rfl) hid hseq'
            (.last rfl hr hem hplace (by simpa using hS')) hp)
      · -- the record fills its extent and another one is taken
        have hout := (hσ.free_outside htotal hfree).2
        have hrest : rest ≠ [] := fun hnil => by
          obtain rfl := Option.some.inj (hwr.final e hid hnil)
          exact hout hmem
        obtain ⟨hn, hj⟩ := hl.extended hout
        exact hl.relay_grows (D := [b]) (u := .compactWriter (some req))
          ⟨rfl, rfl, rfl, rfl, rfl, rfl, rfl⟩ hlo hre ha hb (hlead _ rfl) hk rfl (by simp [Task.isLate]) hv
          (fun _ => hblock) hn hj
          (.writing (hb.relay ha ⟨rfl, rfl, rfl, rfl, rfl, rfl, rfl⟩ rfl rfl rfl)
            (hcut.of_eq rfl rfl rfl) hid hseq' (.more hrest hr hem hplace rfl hS') hp)

/-- A record of the compaction lands beside the chain. -/
theorem Live.beside {q : Place} {req : WriteReq} {size : ℕ} {es : List Entry} {next : Option ℕ}
    (hl : σ.Live h C bs X w) (hq : q.Valid) (hC : q.extentId ∈ C)
    (hem : Emitted h.uuid.seed q req size es next) :
    (∀ a, Footprint bs w a → (σ.disk.write req.write).view a = σ.disk.view a) ∧
      ∀ a < superBlockSize, (σ.disk.write req.write).view a = σ.disk.view a := by
  have hother : ∀ a, ¬ InExtent q.extentId a → (σ.disk.write req.write).view a = σ.disk.view a :=
    fun a ha => by
      rw [Disk.view_write]
      exact hem.patch_of_not_inExtent hq ha
  refine ⟨fun a ha => hother a fun hin => ?_, fun a ha => hother a fun hin => ?_⟩
  · obtain ⟨b, hb, hin'⟩ := inExtent_of_footprint hl.reaches ha
    refine (List.nodup_append.1 hl.nodup).2.2 b (List.mem_append_left _ hb) _ hC ?_
    exact hin'.unique hin
  · have := hin.1
    omega

/-- **The writer of the compaction.** -/
theorem Live.writer {io : Option WriteReq} {err m : Bool} {junk : Buf} (hl : σ.Live h C bs X w)
    (hσ : σ.Orderly total) (htotal : total ≤ extentCountMax) (hlo : σ.loader = none)
    (hre : σ.sup.ready = true) (ha : σ.active = some (.compactWriter io))
    (hb : σ.Busy bs e t (.compactWriter io)) (hcut : Cut total t σ.disk.view h bs w e s S)
    (hid : t.nextId = some e) (hseq : t.priv.cursor.seq + t.head.length = s)
    (hown : Open t σ.disk.view h.uuid.seed C e S io) (hp : superParse σ.disk.view = some h)
    (he : ({ σ with active := none }.runTask (.compactWriter io) err m junk).sup.error = false) :
    σ.Grows ({ σ with active := none }.runTask (.compactWriter io) err m junk) total h C bs w
      (.compactWriter io) := by
  have hC := (List.nodup_append.1 hl.nodup).2.1
  cases hown with
  | start hh hr hS =>
      simp only [runTask, hb.compact] at he ⊢
      exact hl.encode (d := σ.disk) hσ htotal hlo hre ha rfl hb hcut hid hseq hh hr hS
        (fun u hu => by simp [Task.leads, hu]) hp (fun _ _ => rfl) (fun _ _ => rfl) he
  | @more req size Q es next cs q hh hr hem hplace hcs hS =>
      simp only [runTask, hb.compact] at he ⊢
      cases err with
      | true =>
          simp only [compactEncode, writerEncode, true_or, if_true] at he
          cases he
      | false =>
          have hq := hr.reaches.valid t.header.valid_place
          obtain ⟨hfoot, hblock⟩ :=
            hl.beside hq (hcs ▸ List.mem_append_left _ hr.reaches.mem_last) hem
          have hr' := hr.emit t.header.valid_place (List.nodup_append.1 (hcs ▸ hC)).1 hem
          rw [← hplace, hcs] at hr'
          exact hl.encode (d := σ.disk.write req.write) hσ htotal hlo hre ha rfl hb
            (hcut.congr hfoot) hid hseq hh (by rw [Disk.view_write]; exact hr') hS
            (fun u hu => by simp [Task.leads, hu]) ((superParse_congr hblock).trans hp) hfoot hblock he
  | @last req size Q es q hh hr hem hplace hS =>
      simp only [runTask, hb.compact] at he ⊢
      cases err with
      | true =>
          simp only [compactEncode, writerEncode, true_or, if_true] at he
          cases he
      | false =>
          have hq := hr.reaches.valid t.header.valid_place
          obtain ⟨hfoot, hblock⟩ := hl.beside hq hr.reaches.mem_last hem
          have hr' := hr.emit t.header.valid_place hC hem
          have hend : q.behind size es.length (some e) = ⟨e, 0, s⟩ := by
            have hs : t.priv.cursor.seq = q.seq + es.length := congrArg Place.seq hplace
            rw [hh, List.length_nil, Nat.add_zero, hs] at hseq
            rw [← hseq]
            rfl
          have hview : (σ.disk.write req.write).view = σ.disk.view.patch req.off req.len req.data :=
            Disk.view_write _ _
          rw [hend, Option.toList_some, ← hview, hS] at hr'
          cases herr : σ.sup.error with
          | true =>
              simp only [compactEncode, writerEncode, ioWrite, herr, or_true, if_true] at he
              cases he
          | false =>
              have hw : writerEncode σ.sup t.priv.cursor t.head t.nextId false = .finish := by
                simp only [writerEncode, herr, hh, Bool.false_eq_true, or_self, if_false, if_true]
              simp only [compactEncode, ioWrite, hw]
              refine hl.relay_stays (u := .compactWriteSuper true)
                ⟨rfl, rfl, rfl, rfl, rfl, rfl, rfl⟩ hlo hre ha hb rfl rfl rfl hfoot
                (fun _ => hblock) rfl
                (.super (hb.relay ha ⟨rfl, rfl, rfl, rfl, rfl, rfl, rfl⟩ rfl rfl rfl)
                  (hcut.congr hfoot) ?_ (by simp) ((superParse_congr hblock).trans hp))
              exact hr'

/-! ### The header of the compaction -/

/-- **The compaction prepares its header** for the other slot. -/
theorem Live.writeSuper {flush err m : Bool} {junk : Buf} (hl : σ.Live h C bs X w)
    (hlo : σ.loader = none) (hre : σ.sup.ready = true)
    (ha : σ.active = some (.compactWriteSuper flush)) (hb : σ.Busy bs e t (.compactWriteSuper flush))
    (hcut : Cut total t σ.disk.view h bs w e s S)
    (hown : Tells σ.disk.view h.uuid.seed t.header.place (C ++ [e]) S ⟨e, 0, s⟩)
    (hp : superParse σ.disk.view = some h)
    (he : ({ σ with active := none }.runTask (.compactWriteSuper flush) err m junk).sup.error =
      false) :
    σ.Grows ({ σ with active := none }.runTask (.compactWriteSuper flush) err m junk) total h C
      bs w (.compactWriteSuper flush) := by
  have key : ∀ (d : Disk) (o : Log), d.view = σ.disk.view →
      σ.Grows ({ σ with active := none, compact := some t, disk := d, log := o }.compactWriteSuper t
        false) total h C bs w (.compactWriteSuper flush) := fun d o hd => by
    simp only [compactWriteSuper, Bool.false_eq_true, if_false]
    have hslice := Buf.slice_overlay t.priv.cursor.page (slotBytes t.header t.priv.cursor.page)
    rw [length_slotBytes] at hslice
    refine hl.relay_stays (u := .compactFlushSuper _)
      ⟨rfl, rfl, rfl, rfl, rfl, rfl, rfl⟩ hlo hre ha hb rfl rfl rfl
      (fun a _ => congrFun hd a) (fun _ a _ => congrFun hd a) rfl
      (.flushSuper (s := s) (S := S) (hb.relay ha ⟨rfl, rfl, rfl, rfl, rfl, rfl, rfl⟩ rfl rfl rfl) ?_ ?_
        rfl rfl hslice (hd ▸ hp))
    · exact (hd ▸ hcut : Cut total t d.view h bs w e s S).of_eq rfl rfl rfl
    · exact hd ▸ hown
  simp only [runTask, hb.compact] at he ⊢
  cases flush with
  | false => exact key _ _ rfl
  | true =>
      cases err with
      | true =>
          simp only [compactWriteSuper, if_true] at he
          cases he
      | false => exact key _ _ rfl

/-- **The header lands**, and the next mount finds it. -/
theorem Live.flushSuper {req : WriteReq} {page : Buf} {err m : Bool} {junk : Buf}
    (hl : σ.Live h C bs X w) (hlo : σ.loader = none) (hre : σ.sup.ready = true)
    (ha : σ.active = some (.compactFlushSuper req)) (hb : σ.Busy bs e t (.compactFlushSuper req))
    (hcut : Cut total t σ.disk.view h bs w e s S)
    (hown : Tells σ.disk.view h.uuid.seed t.header.place (C ++ [e]) S ⟨e, 0, s⟩)
    (hoff : req.off = t.header.version % 2 * superHeaderSize) (hlen : req.len = superHeaderSize)
    (hdata : req.data.slice 0 superHeaderSize = slotBytes t.header page)
    (hp : superParse σ.disk.view = some h)
    (he : ({ σ with active := none }.runTask (.compactFlushSuper req) err m junk).sup.error =
      false) :
    σ.Grows ({ σ with active := none }.runTask (.compactFlushSuper req) err m junk) total h C
      bs w (.compactFlushSuper req) := by
  cases err with
  | true =>
      simp only [runTask, compactFlushSuper, if_true] at he
      cases he
  | false =>
      simp only [runTask, compactFlushSuper, Bool.false_eq_true, if_false, ioWrite]
      have hview : (σ.disk.write req.write).view = σ.disk.view.patch req.off req.len req.data :=
        Disk.view_write _ _
      have hother : ∀ a, (a < req.off ∨ req.off + req.len ≤ a) →
          (σ.disk.write req.write).view a = σ.disk.view a := fun a ha => by
        rw [hview]
        exact Buf.patch_of_not (by omega)
      have hblock : req.off + req.len ≤ superBlockSize := by
        rw [hoff, hlen]
        have := Nat.mod_lt t.header.version (show 0 < 2 by decide)
        simp only [superHeaderSize, superBlockSize]
        omega
      have hin : ∀ b a, InExtent b a → (σ.disk.write req.write).view a = σ.disk.view a :=
        fun b a hin => hother a (.inr (by have := hin.1; omega))
      have hfoot : ∀ a, Footprint bs w a → (σ.disk.write req.write).view a = σ.disk.view a :=
        fun a ha => by
          obtain ⟨b, -, hb⟩ := inExtent_of_footprint hl.reaches ha
          exact hin b a hb
      have hparse : superParse (σ.disk.write req.write).view = some t.header := by
        have hslot : (σ.disk.write req.write).view.slice (t.header.version % 2 * superHeaderSize)
            superHeaderSize = slotBytes t.header page := by
          rw [hview, ← hoff, Buf.slice_patch_same _ _ _ _ hlen.ge]
          exact hdata
        refine superParse_next hp hcut.follows hslot fun a _ ha => hother a ?_
        rw [hoff, hlen]
        exact ha
      refine hl.relay_stays (u := .compactFinish)
        ⟨rfl, rfl, rfl, rfl, rfl, rfl, rfl⟩ hlo hre ha hb rfl rfl rfl hfoot
        (fun hne => absurd rfl hne) rfl
        (.finish (hb.relay ha ⟨rfl, rfl, rfl, rfl, rfl, rfl, rfl⟩ rfl rfl hb.compact)
          (hcut.congr hfoot) ?_ hparse)
      exact closed_congr hown t.header.valid_place fun b _ a ha => hin b a ha

/-! ### The change-over -/

/-- What the compaction has walked is in the journal still. -/
theorem Live.walked {d : Buf} (hl : σ.Live h C bs X w) (hcut : Cut total t d h bs w e s S) :
    t.priv.journal ⊆ σ.sup.journal := by
  obtain ⟨pre, post, rfl, -, hj, -⟩ := hcut.via
  intro b hb
  rw [hj, List.mem_toFinset] at hb
  rw [hl.journal]
  simp [hb]

/-- The chain from the new header: the extents of the compaction, and the old chain from
`end_id` on. -/
theorem Live.changeOver (hl : σ.Live h C bs X w) (hb : σ.Busy bs e t task)
    (hcut : Cut total t σ.disk.view h bs w e s S)
    (hown : Tells σ.disk.view h.uuid.seed t.header.place (C ++ [e]) S ⟨e, 0, s⟩)
    (hu : σ'.sup.uuid = σ.sup.uuid) (hc : σ'.sup.cursor = σ.sup.cursor)
    (hr : σ'.records = σ.records)
    (ha : ∀ fl, .after fl true ∈ σ'.tasks → .after fl true ∈ σ.tasks)
    (hv : σ'.disk.view = σ.disk.view)
    (hj : σ'.sup.journal = σ.sup.journal \ t.priv.journal) :
    ∃ pre post, bs = pre ++ e :: post ∧ t.priv.journal = pre.toFinset ∧
      σ'.Live t.header [] (C ++ e :: post) X w := by
  obtain ⟨pre, post, rfl, hvia, hpre, -⟩ := hcut.via
  obtain ⟨es, hback⟩ := hvia.back
  have huuid := hcut.follows.uuid
  have hn := hl.nodup
  have hbs := (List.nodup_append.1 (List.nodup_append.1 hn).1).1
  rw [List.append_assoc, List.append_assoc] at hn
  obtain ⟨-, hrest, hdisj⟩ := List.nodup_append.1 hn
  rw [← List.append_assoc] at hrest
  have hon : σ.sup.cursor.extentIdOndisk ∈ e :: post := hb.ahead.mem_tail hbs
  refine ⟨pre, post, rfl, hpre, ⟨hu.trans (hl.uuid.trans huuid.symm), ?_, ?_, ?_, ?_, ?_, fun fl hm => ?_⟩⟩
  · rw [hv, huuid]
    simpa using hown.reaches.append hback
  · rw [huuid]
    cases hl.tip with
    | rest hr' hp => exact .rest (hr.trans hr') (hc ▸ hp)
    | record hr' hem hes hp => exact .record (hr.trans hr') hem hes (hc ▸ hp)
  · rw [List.append_nil, List.append_assoc]
    exact List.perm_append_comm.nodup_iff.1 hrest
  · rw [hj, hl.journal, hpre]
    ext b
    simp only [List.append_assoc, List.append_nil, Finset.mem_sdiff, List.mem_toFinset,
      List.mem_append]
    constructor
    · tauto
    · intro hm
      have hm' : b ∈ e :: post ∨ b ∈ X ∨ b ∈ C := by tauto
      refine ⟨.inr hm', fun hb => hdisj b hb b ?_ rfl⟩
      simpa only [List.mem_append] using hm'
  · rw [hc]
    exact List.mem_append_right _ hon
  · rw [hc]
    exact (hl.flush fl (ha fl hm)).replace hbs hon C

/-- The state behind the change-over: the chain `bs` hangs on the header of the compaction. -/
structure Changed (σ σ' : Sys) (t : Compact) (bs X : List ℕ) (w : Place) : Prop where
  loader : σ'.loader = none
  ready : σ'.sup.ready = true
  error : σ'.sup.error = σ.sup.error
  working : σ'.sup.compactWorking = false
  inits : σ'.inits = 0
  compacts : σ'.compacts = []
  parse : superParse σ'.disk.view = some t.header
  live : σ'.Live t.header [] bs X w
  journal : σ'.sup.journal = σ.sup.journal \ t.priv.journal

theorem Changed.held (hc : Changed σ σ' t bs X w) : σ'.Held total t.header [] bs w :=
  ⟨hc.loader, hc.ready, X, hc.live, .idle hc.working hc.inits hc.compacts rfl hc.parse⟩

theorem error_discardExtents (σ : Sys) (Y : Finset ℕ) :
    (σ.discardExtents Y).sup.error = σ.sup.error := by
  unfold discardExtents
  simp only
  split_ifs <;> rfl

/-- **The compaction frees what it has walked**, and the rest of the chain hangs on its header. -/
theorem Live.finish (m : Bool) (junk : Buf) (hl : σ.Live h C bs X w)
    (hlo : σ.loader = none) (hre : σ.sup.ready = true)
    (ha : σ.active = some .compactFinish) (hb : σ.Busy bs e t .compactFinish)
    (hcut : Cut total t σ.disk.view h bs w e s S)
    (hown : Tells σ.disk.view h.uuid.seed t.header.place (C ++ [e]) S ⟨e, 0, s⟩)
    (hp : superParse σ.disk.view = some t.header) :
    ∃ pre post, bs = pre ++ e :: post ∧ t.priv.journal = pre.toFinset ∧
      Changed σ ({ σ with active := none }.runTask .compactFinish false m junk) t
        (C ++ e :: post) X w := by
  have hleast : least (t.priv.journal \ σ.sup.journal) = none := by
    rw [least_eq_none]
    exact Finset.sdiff_eq_empty_iff_subset.2 (hl.walked hcut)
  simp only [runTask, hb.compact, compactFinish, ioFlush, Bool.false_eq_true, if_false, hleast]
  set τ : Sys := { { σ with active := none, compact := some t, disk := σ.disk.flush, log :=
    { σ.log with durable := σ.log.written.length } } with sup := { σ.sup with
      journal := σ.sup.journal \ t.priv.journal
      journalExtents := σ.sup.journalExtents - t.priv.journal.card } } with hτ
  have hs := spares_discardExtents τ t.priv.journal
  obtain ⟨hd, hi⟩ := discardExtents_keeps τ t.priv.journal
  have hbook := hs.book
  simp only [Super.book, Prod.mk.injEq] at hbook
  obtain ⟨hj, hu, hc, -, hr⟩ := hbook
  have hrel : σ.Relay τ [] := ⟨rfl, (List.append_nil _).symm, rfl, rfl, rfl, rfl, rfl⟩
  have hafter : ∀ fl, .after fl true ∈ (τ.discardExtents t.priv.journal).tasks →
      .after fl true ∈ σ.tasks := fun fl hm => by
    have hm' := (mem_errands rfl).1 (hs.errands ▸ (mem_errands rfl).2 hm)
    rw [tasks_of_active ha]
    exact List.mem_cons_of_mem _ hm'
  have hview : (τ.discardExtents t.priv.journal).disk.view = σ.disk.view := by rw [hd]; rfl
  obtain ⟨pre, post, hbs, hpre, hlive⟩ := hl.changeOver hb hcut hown hu hc
    (hs.records.trans (hrel.records ha rfl (by simp))) hafter hview hj
  refine ⟨pre, post, hbs, hpre, ⟨hs.loader.trans hlo, hr.trans hre, ?_, rfl, ?_, ?_, ?_, ?_, hj⟩⟩
  · exact error_discardExtents τ t.priv.journal
  · exact hi.trans hb.inits
  · exact hs.compacts.trans (hb.compacts ha hrel (by simp))
  · exact (congrArg superParse hview).trans hp
  · exact hlive.keep rfl rfl rfl (fun _ hm => hm) (fun _ _ => rfl) hlive.nodup hlive.journal

theorem mem_compacts (ha : σ.active = some task) (hk : task.isCompact = true) : task ∈ σ.compacts := by
  rw [compacts, tasks_of_active ha]
  exact List.mem_filter.2 ⟨List.mem_cons_self, hk⟩

theorem Busy.task_eq (hb : σ.Busy bs e t u) (ha : σ.active = some task)
    (hk : task.isCompact = true) : task = u := by
  have hm := mem_compacts ha hk
  rw [hb.task] at hm
  exact List.mem_singleton.1 hm

/-- **Every task of the compaction but the last** keeps the chain. -/
theorem Held.compact {err m : Bool} {junk : Buf} (hh : σ.Held total h C bs w) (hσ : σ.Orderly total)
    (htotal : total ≤ extentCountMax) (ha : σ.active = some task) (hk : task.isCompact = true)
    (hne : task ≠ .compactFinish)
    (he : ({ σ with active := none }.runTask task err m junk).sup.error = false) :
    σ.Grows ({ σ with active := none }.runTask task err m junk) total h C bs w task := by
  obtain ⟨X, hl, hst⟩ := hh.chain
  have hlo := hh.loader
  have hre := hh.ready
  have hm := mem_compacts ha hk
  cases hst with
  | idle _ _ ht => rw [ht] at hm; cases hm
  | init _ _ ht => rw [ht] at hm; cases hm
  | header hb hend hw hX hC hp =>
      obtain rfl := hb.task_eq ha hk
      subst hC
      exact hl.header hσ htotal hlo hre ha hb hend hw hX hp he
  | page hb hend hh' hfed hr hnew hC hp =>
      obtain rfl := hb.task_eq ha hk
      subst hC
      exact hl.page hσ htotal hlo hre ha hb hend hh' hfed hr hnew hp he
  | writing hb hcut hid hseq hown hp =>
      obtain rfl := hb.task_eq ha hk
      exact hl.writer hσ htotal hlo hre ha hb hcut hid hseq hown hp he
  | super hb hcut hown _ hp =>
      obtain rfl := hb.task_eq ha hk
      exact hl.writeSuper hlo hre ha hb hcut hown hp he
  | flushSuper hb hcut hown hoff hlen hdata hp =>
      obtain rfl := hb.task_eq ha hk
      exact hl.flushSuper hlo hre ha hb hcut hown hoff hlen hdata hp he
  | finish hb => exact absurd (hb.task_eq ha hk) hne

/-- The last task of the compaction completes. -/
theorem Held.finish (hh : σ.Held total h C bs w) (ha : σ.active = some .compactFinish) (m : Bool)
    (junk : Buf) :
    ∃ t pre post e X, σ.compact = some t ∧ t.loader.endId = some e ∧ t.header.Follows h ∧
      t.priv.journal = pre.toFinset ∧ bs = pre ++ e :: post ∧ σ.Live h C bs X w ∧
      Changed σ ({ σ with active := none }.runTask .compactFinish false m junk) t
        (C ++ e :: post) X w := by
  obtain ⟨X, hl, hst⟩ := hh.chain
  have hm := mem_compacts ha rfl
  cases hst with
  | idle _ _ ht => rw [ht] at hm; cases hm
  | init _ _ ht => rw [ht] at hm; cases hm
  | header hb | page hb | writing hb | super hb | flushSuper hb => cases hb.task_eq ha rfl
  | finish hb hcut hown hp =>
      obtain ⟨pre, post, hbs, hpre, hch⟩ := hl.finish m junk hh.loader hh.ready ha hb hcut hown hp
      exact ⟨_, pre, post, _, X, hb.compact, hcut.endId, hcut.follows, hpre, hbs, hl, hch⟩

/-- **The last task of the compaction** changes over to the new header. -/
theorem Held.compactFinish {err m : Bool} {junk : Buf} (hh : σ.Held total h C bs w)
    (ha : σ.active = some .compactFinish)
    (he : ({ σ with active := none }.runTask .compactFinish err m junk).sup.error = false) :
    ∃ t bs', σ.compact = some t ∧
      ({ σ with active := none }.runTask .compactFinish err m junk).Held total t.header [] bs' w := by
  obtain ⟨t, pre, post, e, X, hc, -, -, -, -, -, hch⟩ := hh.finish ha m junk
  cases err with
  | true =>
      simp only [runTask, hc] at he
      cases he
  | false => exact ⟨t, _, hc, hch.held⟩

end Sys

end Cyanfs
