/-
# What runs while a record is on its way

`cyanfs_journal_writer_encode` puts the WRITE of a flusher's record at the head of the task
queue, and only the FLUSH in front of that record may come before it.  So no task of the
mount, of a copy, of the discard pipeline or of a compaction completes while such a WRITE is
queued (`Urgent`); in particular a compaction reads the chain when every record of it is on
the disk.

Everything else that is written at such a time stays out of the journal: the handler of a
write stores into the extent that it was given (`Handled`), a copy into an extent that is
bound, and a DISCARD hits `discard_extents` only (`Orderly.aside_done`).
-/

import Cyanfs.Run.Barrier
import Cyanfs.Run.Discards
import Cyanfs.Data.Epochs
import Cyanfs.Journal.Chain

namespace Cyanfs

open Lib Std

/-- The request of a flusher's record. -/
def Task.record? : Task → Option WriteReq
  | .writer _ io => io
  | _ => none

/-- The WRITE of a record is at the head of the queue, or behind the FLUSH of its flusher. -/
inductive Urgent : List Task → Prop
  | none {ts : List Task} (h : ts.filterMap Task.record? = []) : Urgent ts
  | first {fl : ℕ} {req : WriteReq} {ts : List Task} (h : ts.filterMap Task.record? = []) :
      Urgent (.writer fl (some req) :: ts)
  | before {fl : ℕ} {b : Bool} {req : WriteReq} {ts : List Task}
      (h : ts.filterMap Task.record? = []) : Urgent (.before fl b :: .writer fl (some req) :: ts)

theorem record_of_order {t : Task} (h : t.order = none) : t.record? = none := by
  cases t with
  | writer fl io => cases h
  | _ => rfl

theorem records_of_order {ts : List Task} (h : ∀ t ∈ ts, t.order = none) :
    ts.filterMap Task.record? = [] :=
  List.filterMap_eq_nil_iff.2 fun t ht => record_of_order (h t ht)

/-- The task belongs to the journal: the WRITE of a record, the FLUSH behind records, or a task
of a compaction. -/
def Task.isErrand : Task → Bool
  | .writer _ io => io.isSome
  | .after _ flush => flush
  | t => t.isCompact

/-- A task that neither reads nor writes the journal. -/
def Task.isAside : Task → Bool
  | .before _ _ | .free _ | .copy _ _ _ _ | .discard _ | .loadHeader | .loadPage | .requeue _ => true
  | _ => false

theorem Task.isErrand_of_isAside {t : Task} (h : t.isAside = true) : t.isErrand = false := by
  cases t with
  | writer | after | compactHeader | compactPage | compactWriter | compactWriteSuper
  | compactFlushSuper | compactFinish => cases h
  | _ => rfl

/-- What a super keeps about its journal. -/
def Super.book (s : Super) : Finset ℕ × Uuid × Cursor × Bool × Bool :=
  (s.journal, s.uuid, s.cursor, s.compactWorking, s.ready)

namespace Urgent

variable {t : Task} {ts us : List Task}

theorem append (h : Urgent ts) (hu : us.filterMap Task.record? = []) : Urgent (ts ++ us) := by
  have happ : ∀ vs : List Task, vs.filterMap Task.record? = [] →
      (vs ++ us).filterMap Task.record? = [] := fun vs hv => by
    rw [List.filterMap_append, hv, hu, List.append_nil]
  cases h with
  | none h => exact .none (happ _ h)
  | first h => exact .first (happ _ h)
  | before h => exact .before (happ _ h)

/-- Behind anything but the FLUSH in front of it no record is on its way. -/
theorem tail (h : Urgent (t :: ts)) (ht : ∀ fl b, t ≠ .before fl b) :
    ts.filterMap Task.record? = [] := by
  cases h with
  | none h => exact (List.append_eq_nil_iff.1 ((List.filterMap_append (l := [t])).symm.trans h)).2
  | first h => exact h
  | before h => exact absurd rfl (ht _ _)

end Urgent

namespace Sys

variable {σ σ' : Sys} {total : ℕ}

/-- The records that are on their way. -/
def records (σ : Sys) : List WriteReq := σ.tasks.filterMap Task.record?

/-- A task that is not a flusher's completes only when no record is on its way. -/
theorem records_of_active {t : Task} (h : Urgent σ.tasks) (ht : σ.active = some t)
    (hn : t.record? = none) (hb : ∀ fl b, t ≠ .before fl b) : σ.records = [] := by
  rw [records, tasks_of_active ht] at *
  rw [List.filterMap_cons_none hn]
  exact h.tail hb

theorem urgent_moves (hσ : σ.Sound total) (hm : σ.Moves σ') (h : Urgent σ.tasks) :
    Urgent σ'.tasks := by
  cases hm with
  | tail ha ho hactive hts =>
      rw [hts]
      exact h.append (records_of_order ho)
  | @popped t q ht hn ha ho hnone hts =>
      rw [tasks_of_active ht] at h
      rw [hts]
      refine Urgent.append (.none (h.tail fun fl b he => ?_)) (records_of_order ho)
      rw [he] at hn
      cases hn
  | @queued ondisk hq =>
      rw [hq.tasks]
      refine h.append ?_
      split_ifs <;> rfl
  | @callback t n err m junk ht hn hc he =>
      rw [tasks_of_active ht] at h
      have htasks : σ'.tasks = σ'.queue := by rw [tasks, hc.active]; rfl
      obtain ⟨f, hf⟩ := flusher_of_active hσ ht hn
      rw [htasks]
      subst he
      -- what the later tasks of a flusher queue
      have late : ∀ fl, (∀ k b, t ≠ .before k b) →
          LateOut σ fl ({ σ with active := none }.runTask t err m junk) →
          Urgent ({ σ with active := none }.runTask t err m junk).queue := by
        intro fl hb hl
        obtain ⟨us, vs, hqueue, hus, hvs⟩ := hl.queue
        rw [hqueue]
        refine .none ?_
        have hus' : us.filterMap Task.record? = [] :=
          List.filterMap_eq_nil_iff.2 fun u hu => by rw [hus u hu]; rfl
        rw [List.filterMap_append, List.filterMap_append, hus', h.tail hb,
          records_of_order fun v hv => (hvs v hv).1]
        rfl
      cases t with
      | writer fl io =>
          have hq := h.tail (by simp)
          obtain rfl : 4 * fl + 1 = n := Option.some.inj hn
          rw [show (4 * fl + 1) / 4 = fl by omega] at hf
          cases writerOut_runTask io hf err m junk with
          | error _ hqueue _ | finish _ _ hqueue _ _ =>
              rw [hqueue]
              exact .none hq
          | @record u r k f' _ _ _ _ hus hqueue _ _ _ _ _ =>
              rw [hqueue]
              rcases hus with rfl | rfl
              · exact .first hq
              · exact .before hq
      | before fl b =>
          obtain rfl : 4 * fl = n := Option.some.inj hn
          rw [show 4 * fl / 4 = fl by omega] at hf
          cases (beforeOut_runTask (b := b) hf err m junk).1 with
          | cancel _ hqueue =>
              rw [hqueue]
              refine .none (List.filterMap_eq_nil_iff.2 fun u hu => ?_)
              cases u with
              | writer fl' io =>
                  cases io with
                  | none => rfl
                  | some req => exact absurd hu (none_cancelled hσ ht fl' req)
              | _ => rfl
          | flush _ hqueue _ _ _ _ =>
              rw [hqueue]
              revert h
              generalize σ.queue = q
              intro h
              cases h with
              | none h => exact .none h
              | before h => exact .before h
          | flushed _ _ _ hqueue _ =>
              rw [hqueue]
              revert h
              generalize σ.queue = q
              intro h
              cases h with
              | none h => exact .none h
              | before h => exact .first h
      | after fl b => exact late fl (by simp) (lateOut_runTask (.inl ⟨b, rfl⟩) err m junk)
      | free fl => exact late fl (by simp) (lateOut_runTask (.inr rfl) err m junk)
      | _ => cases hn

/-! ### The handlers of writes -/

/-- The handler of a write has an extent that is protected in its epoch. -/
def Handled (σ : Sys) : Prop := ∀ io bOff epoch, .writeHandler io (.submit bOff) epoch ∈ σ.calls →
  ∃ b w, epoch = some w ∧ bOff = mapExtentOffset b io.off ∧ σ.Protected io.file io.index b w

theorem handled_step {l : Label} (hσ : σ.Sound total) (he : σ.EpochsOk) (h : σ.Handled)
    (hs : σ.step l = some σ') : σ'.Handled := by
  intro io bOff epoch hc
  by_cases hold : .writeHandler io (.submit bOff) epoch ∈ σ.calls
  · obtain ⟨b, w, rfl, hoff, hp⟩ := h io bOff epoch hold
    exact ⟨b, w, rfl, hoff, protected_step hσ he (hσ.loader_of_call hold rfl) hs hold rfl hp⟩
  cases step_turn hσ.calls hs with
  | @moved c c' hmem he' hepoch hio hnew =>
      subst he'
      rcases Multiset.mem_cons.1 hc with rfl | hc
      · cases hnew with
        | plain hplain => exact hplain.elim
      · exact absurd (Multiset.mem_of_mem_erase hc) hold
  | plain hgone hepoch hnew hcalls hw =>
      rw [hcalls] at hc
      rcases Multiset.mem_add.1 hc with hc | hc
      · exact (hnew _ hc).elim
      · exact absurd (Multiset.mem_of_le (Multiset.sub_le_self _ _) hc) hold
  | @mapped c io₀ io' e hmem hepoch hio hsame hnode hbug hcurrent hw hcalls =>
      rw [hcalls] at hc
      rcases Multiset.mem_cons.1 hc with heq | hc
      · obtain ⟨rfl, harg, rfl⟩ := Call.writeHandler.inj heq
        unfold HandlerArg.of at harg
        split_ifs at harg
        obtain rfl := HandlerArg.submit.inj harg
        obtain ⟨hfile, hoff, hlen⟩ := hsame
        refine ⟨e.backend, _, rfl, rfl, .bound (x := e) ?_ rfl⟩
        rw [hfile, IoCall.index, hoff]
        exact hnode
      · exact absurd (Multiset.mem_of_mem_erase hc) hold
  | @returned io₀ arg w n rs hmem hnew he' =>
      subst he'
      rcases Multiset.mem_add.1 hc with hc | hc
      · exact (hnew _ hc).elim
      · exact absurd (Multiset.mem_of_mem_erase hc) hold

theorem Protected.not_journal {id i b : ℕ} {w : Bool} (hσ : σ.Sound total)
    (hp : σ.Protected id i b w) : b ∉ σ.sup.journal := by
  intro hj
  have hno : ∀ o, o ≠ .journal → b ∉ σ.sup.owned σ.held o := fun o hne hb =>
    hne (hσ.extents.sup.parts.mem_unique o .journal hb hj)
  cases hp with
  | @bound x hx hb =>
      refine hno (.file id i) (by simp) ?_
      show (σ.sup.extentAt id i).map _ = _
      rw [hx, Option.map_some, hb]
  | released h =>
      rcases h with h | ⟨fl, h⟩
      · exact hno .unused (by simp) h
      · exact hno (.flusher fl) (by simp) h
  | flush h hw => exact hno .flush (by simp) h

/-! ### What a step may write -/

/-- What holds of every state of a run and keeps data out of the journal. -/
structure Orderly (σ : Sys) (total : ℕ) : Prop where
  sound : σ.Sound total
  epochs : σ.EpochsOk
  handled : σ.Handled
  urgent : Urgent σ.tasks
  pipe : σ.Pipe
  aimed : ∀ r ∈ σ.requests, ∃ n k, 0 < k ∧ σ.sup.discard = Finset.Ico n (n + k) ∧
    r = (mapExtentOffset n 0, k * extentSize)

theorem Orderly.step {l : Label} (h : σ.Orderly total) (hs : σ.step l = some σ') :
    σ'.Orderly total ∧ σ.Effect σ' := by
  obtain ⟨hσ', he⟩ := h.sound.step hs
  exact ⟨⟨hσ', epochsOk_step h.sound h.epochs hs, handled_step h.sound h.epochs h.handled hs,
    urgent_moves h.sound (moves_effect he) h.urgent, pipe_effect h.pipe he,
    (aimed_effect h.pipe he h.aimed).1⟩, he⟩

theorem orderly_opened (total : ℕ) (discard compact : Bool) (uuid : Uuid) (disk : Buf) :
    (Sys.opened total discard compact uuid disk).Orderly total where
  sound := sound_opened ..
  epochs := epochsOk_opened ..
  handled := fun io bOff epoch hc => absurd hc (Multiset.notMem_zero _)
  urgent := .none rfl
  pipe := pipe_opened ..
  aimed := fun r hr => absurd hr (by simp [requests, tasks, Sys.opened, Task.request?])

theorem Reachable.orderly {discard compact : Bool} {uuid : Uuid} {disk : Buf}
    (h : (Sys.opened total discard compact uuid disk).Reachable σ) : σ.Orderly total :=
  h.rule (P := fun σ => σ.Orderly total) (orderly_opened ..) fun _ _ _ h hs => (Orderly.step h hs).1

/-- The address belongs to the super block or to a journal extent. -/
def InJournal (σ : Sys) (a : ℕ) : Prop := a < superBlockSize ∨ ∃ b ∈ σ.sup.journal, InExtent b a

theorem inExtent_of_range {b off start len n a : ℕ} (hlen : start + len ≤ mapExtentSpace off n)
    (h₁ : mapExtentOffset b off + start ≤ a) (h₂ : a < mapExtentOffset b off + start + len) :
    InExtent b a := by
  have hspace : mapExtentSpace off n ≤ extentBegin (extentFrom off) + extentSize - off :=
    min_le_left _ _
  have hbegin : extentBegin (extentFrom off) ≤ off / extentSize * extentSize :=
    Nat.mul_le_mul_right _ (Nat.mod_le _ _)
  have hdiv := Nat.div_add_mod' off extentSize
  rw [extentBegin] at hbegin hspace
  rw [mapExtentOffset, extentBegin] at h₁ h₂
  constructor <;> omega

/-- A disk write outside the journal. -/
theorem view_write_of_not {d : Disk} {w : DiskWrite} {a : ℕ}
    (h : ¬ (w.off ≤ a ∧ a < w.off + w.len)) : (d.write w).view a = d.view a := by
  rw [Disk.view_write]
  exact Buf.patch_of_not (by omega)

theorem InJournal.not_inExtent {a b : ℕ} (h : σ.InJournal a) (hb : b ∉ σ.sup.journal) :
    ¬ InExtent b a := by
  rintro hin
  rcases h with h | ⟨b', hb', hin'⟩
  · have := hin.1
    omega
  · exact hb (hin.unique hin' ▸ hb')

/-! ### Steps away from the journal -/

/-- The tasks of the journal. -/
def errands (σ : Sys) : List Task := σ.tasks.filter Task.isErrand

/-- The journal and everything that works on it is as before. -/
structure Spares (σ σ' : Sys) : Prop where
  book : σ'.sup.book = σ.sup.book
  errands : σ'.errands = σ.errands
  compact : σ'.compact = σ.compact
  loader : σ'.loader = σ.loader

variable {τ : Sys}

theorem Spares.trans (h : σ.Spares τ) (h' : τ.Spares σ') : σ.Spares σ' :=
  ⟨h'.book.trans h.book, h'.errands.trans h.errands, h'.compact.trans h.compact,
    h'.loader.trans h.loader⟩

theorem Spares.of_sup {s : Super} (h : s.book = σ.sup.book) : σ.Spares { σ with sup := s } :=
  ⟨h, rfl, rfl, rfl⟩

theorem Spares.tail (ts : List Task) (hb : σ'.sup.book = σ.sup.book) (hq : σ'.queue = σ.queue ++ ts)
    (hts : ts.filter Task.isErrand = []) (ha : σ'.active = σ.active) (hc : σ'.compact = σ.compact)
    (hl : σ'.loader = σ.loader) : σ.Spares σ' := by
  refine ⟨hb, ?_, hc, hl⟩
  simp only [Sys.errands, Sys.tasks, hq, ha]
  rw [← List.append_assoc, List.filter_append, hts, List.append_nil]

theorem spares_discardExtents (σ : Sys) (X : Finset ℕ) : σ.Spares (σ.discardExtents X) := by
  unfold discardExtents
  simp only
  split_ifs
  · exact ⟨rfl, rfl, rfl, rfl⟩
  · exact .of_sup rfl
  · exact .tail [.discard none] rfl rfl rfl rfl rfl rfl
  · exact .of_sup rfl

theorem spares_discardBegin (σ : Sys) : σ.Spares σ.discardBegin := by
  unfold discardBegin
  simp only
  split
  · exact .of_sup rfl
  · exact .tail [.discard _] rfl rfl rfl rfl rfl rfl

theorem spares_queueFlusher (σ : Sys) (ondisk : Bool) : σ.Spares (σ.queueFlusher ondisk) := by
  unfold queueFlusher
  simp only
  split_ifs
  all_goals
    refine ⟨rfl, ?_, rfl, rfl⟩
    simp [errands, tasks, Task.isErrand, Task.isCompact]

theorem book_updFile (s : Super) (id : ℕ) (g : File → File) : (s.updFile id g).book = s.book := by
  unfold Super.updFile
  split <;> rfl

theorem book_handOver (s : Super) (X : Finset ℕ) : (s.handOver X).1.book = s.book := by
  unfold Super.handOver
  split_ifs <;> rfl

theorem book_op {j : JEntry} {s s' : Super} (h : s.Op j s') : s'.book = s.book := by
  obtain ⟨_, _, _, _, _, _, _, _, _, rfl⟩ := h.shape
  rfl

theorem book_copyPending (s : Super) (f : File) (b i : ℕ) : (s.copyPending f b i).book = s.book := by
  refine (book_updFile _ _ _).trans ?_
  simp only [Super.superToFile, Super.bugOn]
  split <;> rfl

/-- A call takes a section that has nothing to do with the journal. -/
theorem spares_change (hc : σ.Change σ') (ha : σ.active ≠ none → σ'.active ≠ none)
    (hl : σ.loader = none) : σ.Spares σ' ∧ σ'.disk = σ.disk := by
  cases hc with
  | «open» _ _ _ _ _ _ he | close _ _ _ _ _ _ he => exact he ▸ ⟨.of_sup rfl, rfl⟩
  | closeClosed he => exact he ▸ ⟨.of_sup rfl, rfl⟩
  | @op j s cs ws ho he =>
      have hbook : σ'.sup.book = s.book := by rw [he]; rfl
      exact ⟨⟨hbook.trans (book_op ho), by rw [he]; rfl, by rw [he]; rfl, by rw [he]; rfl⟩,
        by rw [he]; rfl⟩
  | @copyStart f i b src cs ws io _ _ _ _ _ _ _ _ _ _ he =>
      subst he
      exact ⟨.tail [.copy f.id i b src] (book_copyPending σ.sup f b i) rfl rfl rfl rfl rfl, rfl⟩
  | copied ht he =>
      refine absurd ?_ (ha (by simp [ht]))
      rw [he]
      exact active_runTask σ _ _ _ _
  | mount hl' => rw [hl] at hl'; cases hl'

/-! ### Writes away from the journal -/

/-- A disk write outside the journal. -/
theorem view_ioWrite {w : DiskWrite} {a : ℕ} (err : Bool) (junk : Buf)
    (h : ¬ (w.off ≤ a ∧ a < w.off + w.len)) : (σ.ioWrite w err junk).disk.view a = σ.disk.view a := by
  unfold ioWrite
  cases err <;> exact view_write_of_not h

/-- The extents of a DISCARD are not journal extents. -/
theorem Orderly.not_discard (h : σ.Orderly total) {b : ℕ} (hb : b ∈ σ.sup.discard) :
    b ∉ σ.sup.journal := fun hj => by
  have := h.sound.extents.sup.parts.mem_unique .discard .journal hb hj
  cases this

theorem Orderly.not_bound (h : σ.Orderly total) {id i : ℕ} {x : Extent}
    (hx : σ.sup.extentAt id i = some x) : x.backend ∉ σ.sup.journal := fun hj => by
  have hb : x.backend ∈ σ.sup.owned σ.held (.file id i) := by
    show (σ.sup.extentAt id i).map _ = _
    rw [hx]
    rfl
  have := h.sound.extents.sup.parts.mem_unique (.file id i) .journal hb hj
  cases this

theorem inExtent_iff (b a : ℕ) :
    InExtent b a ↔ mapExtentOffset b 0 ≤ a ∧ a < mapExtentOffset b 0 + extentSize := by
  rw [mapExtentOffset, Nat.zero_mod, Nat.add_zero]
  exact Iff.rfl

/-- A handler stores outside the journal. -/
theorem Orderly.view_handlerWrite {io : IoCall} {bOff start len a : ℕ} {epoch : Option Bool}
    {data : Buf} (h : σ.Orderly total) (hc : .writeHandler io (.submit bOff) epoch ∈ σ.calls)
    (hlen : start + len ≤ io.space) (ha : σ.InJournal a) :
    (σ.disk.write ⟨bOff + start, len, data⟩).view a = σ.disk.view a := by
  obtain ⟨b, w, -, rfl, hp⟩ := h.handled io bOff epoch hc
  refine view_write_of_not fun hin => ?_
  exact ha.not_inExtent (hp.not_journal h.sound) (inExtent_of_range hlen hin.1 hin.2)

theorem spares_ioFlush (σ : Sys) (err : Bool) :
    σ.Spares (σ.ioFlush err) ∧ (σ.ioFlush err).disk.view = σ.disk.view := by
  unfold ioFlush
  split_ifs
  · exact ⟨⟨rfl, rfl, rfl, rfl⟩, rfl⟩
  · exact ⟨⟨rfl, rfl, rfl, rfl⟩, rfl⟩

theorem spares_beforeDone {fl : ℕ} {err : Bool}
    (he : (σ.flusherBeforeWriteFlushDone fl err).sup.error = false) :
    σ.Spares (σ.flusherBeforeWriteFlushDone fl err) ∧
      (σ.flusherBeforeWriteFlushDone fl err).disk = σ.disk := by
  unfold flusherBeforeWriteFlushDone at he ⊢
  simp only at he ⊢
  cases err with
  | true => exact absurd he (by simp [Super.markError, cancelWrite])
  | false =>
      simp only [Bool.false_eq_true, if_false] at he ⊢
      split_ifs at he ⊢ with h
      · rw [show (σ.cancelWrite fl).sup.error = σ.sup.error from rfl, h] at he
        cases he
      · exact ⟨⟨rfl, rfl, rfl, rfl⟩, rfl⟩

theorem spares_before {fl : ℕ} {t : Flusher} (ha : σ.active = none)
    (he : (σ.flusherBeforeWriteFlush fl t).sup.error = false) :
    σ.Spares (σ.flusherBeforeWriteFlush fl t) ∧
      (σ.flusherBeforeWriteFlush fl t).disk = σ.disk := by
  unfold flusherBeforeWriteFlush at he ⊢
  split_ifs at he ⊢ with h
  · rw [show (σ.cancelWrite fl).sup.error = σ.sup.error from rfl, h] at he
    cases he
  · refine ⟨⟨book_handOver σ.sup t.unused, ?_, rfl, rfl⟩, rfl⟩
    simp [errands, tasks, addHead, ha, Task.isErrand, Task.isCompact]

theorem spares_copyDone (σ : Sys) (id i b : ℕ) (err : Bool) :
    σ.Spares (σ.copyDone id i b err) ∧ (σ.copyDone id i b err).disk = σ.disk := by
  unfold copyDone
  simp only
  split_ifs
  · exact ⟨.of_sup (book_updFile _ _ _), rfl⟩
  · exact ⟨⟨book_updFile σ.sup id _, rfl, rfl, rfl⟩, rfl⟩

theorem disk_discardBegin (σ : Sys) : σ.discardBegin.disk = σ.disk := by
  unfold discardBegin
  simp only
  split <;> rfl

theorem spares_discardDone (σ : Sys) : σ.Spares σ.discardDone :=
  Spares.trans (τ := { σ with sup := { σ.sup with
    free := σ.sup.free ∪ σ.sup.discard
    freeExtents := σ.sup.freeExtents + σ.sup.discard.card
    discard := ∅ } }) (.of_sup rfl) (spares_discardBegin _)

theorem disk_discardDone (σ : Sys) : σ.discardDone.disk = σ.disk := disk_discardBegin _

/-- **A task that is not of the journal leaves it alone.** -/
theorem Orderly.aside_done {t : Task} (h : σ.Orderly total) (ht : σ.active = some t)
    (hl : σ.loader = none) (hbug : σ.sup.bug = none) (hk : t.isAside = true) (err m : Bool)
    (junk : Buf) (he : ({ σ with active := none }.runTask t err m junk).sup.error = false) :
    σ.Spares ({ σ with active := none }.runTask t err m junk) ∧ ∀ a, σ.InJournal a →
      ({ σ with active := none }.runTask t err m junk).disk.view a = σ.disk.view a := by
  have hpop : σ.Spares { σ with active := none } := by
    refine ⟨rfl, ?_, rfl, rfl⟩
    rw [errands, errands, tasks_of_active ht, List.filter_cons_of_neg (by
      rw [Task.isErrand_of_isAside hk]; exact Bool.false_ne_true)]
    rfl
  cases t with
  | before fl b =>
      simp only [runTask] at he ⊢
      split at he
      · exact ⟨hpop, fun _ _ => rfl⟩
      · split_ifs at he ⊢
        · obtain ⟨hs, hd⟩ := spares_beforeDone he
          obtain ⟨hs₀, hd₀⟩ := spares_ioFlush { σ with active := none } err
          exact ⟨hpop.trans (hs₀.trans hs), fun a _ => by rw [hd, hd₀]⟩
        · obtain ⟨hs, hd⟩ := spares_before rfl he
          exact ⟨hpop.trans hs, fun a _ => by rw [hd]⟩
  | free fl =>
      simp only [runTask]
      split
      · exact ⟨hpop, fun _ _ => rfl⟩
      · unfold flusherFree
        simp only
        split_ifs
        · exact ⟨⟨rfl, hpop.errands, rfl, rfl⟩, fun _ _ => rfl⟩
        · exact ⟨⟨rfl, hpop.errands, rfl, rfl⟩, fun _ _ => rfl⟩
  | copy id i b src =>
      have hx := (h.sound.live.copies hbug).pending id i b src (by
        rw [copies, tasks_of_active ht]
        exact List.mem_cons_self)
      have hview : ∀ a, σ.InJournal a → (σ.ioWrite ⟨mapExtentOffset b 0, extentSize,
          fun a => σ.disk.view (mapExtentOffset src 0 + a)⟩ err junk).disk.view a =
            σ.disk.view a := fun a ha => view_ioWrite err junk fun hin =>
        ha.not_inExtent (h.not_bound hx) ((inExtent_iff b a).2 hin)
      have hcopy := spares_copyDone ({ σ with active := none }.ioWrite ⟨mapExtentOffset b 0,
        extentSize, fun a => σ.disk.view (mapExtentOffset src 0 + a)⟩ err junk) id i b err
      refine ⟨hpop.trans (Spares.trans ?_ hcopy.1), fun a ha => ?_⟩
      · exact ⟨rfl, rfl, rfl, rfl⟩
      · refine Eq.trans ?_ (hview a ha)
        exact congrArg (fun d : Disk => d.view a) hcopy.2
  | discard io =>
      cases io with
      | none =>
          have hd : (Sys.discardBegin { σ with active := none }).disk = σ.disk :=
            disk_discardBegin _
          exact ⟨hpop.trans (spares_discardBegin _), fun a _ => by
            show (Sys.discardBegin _).disk.view a = _
            rw [hd]⟩
      | some r =>
          obtain ⟨off, len⟩ := r
          obtain ⟨n, k, hpos, hdis, hr⟩ := h.aimed (off, len) (by
            rw [requests, tasks_of_active ht]
            exact List.mem_cons_self)
          obtain ⟨rfl, rfl⟩ := Prod.mk.inj hr
          refine ⟨hpop.trans (Spares.trans (τ := { σ with active := none }.ioWrite
            ⟨mapExtentOffset n 0, k * extentSize, junk⟩ false junk) ⟨rfl, rfl, rfl, rfl⟩
            (spares_discardDone _)), fun a ha => ?_⟩
          have hd := disk_discardDone ({ σ with active := none }.ioWrite
            ⟨mapExtentOffset n 0, k * extentSize, junk⟩ false junk)
          show (Sys.discardDone _).disk.view a = _
          rw [hd]
          refine view_ioWrite (σ := { σ with active := none }) false junk fun hin => ?_
          obtain ⟨b, hb, hin⟩ := (mem_run_iff n k a).1 hin
          rw [← hdis] at hb
          exact ha.not_inExtent (h.not_discard hb) ((inExtent_iff b a).2 hin)
  | requeue file => exact ⟨hpop, fun _ _ => rfl⟩
  | loadHeader | loadPage =>
      simp only [runTask]
      split
      · exact ⟨hpop, fun _ _ => rfl⟩
      · rename_i l hl'
        rw [hl] at hl'
        cases hl'
  | _ => cases hk

/-! ### The steps of threads -/

theorem errands_ioEnd (σ : Sys) (c : Call) (io : IoCall) (st : Status) :
    (σ.ioEnd c io st).errands = σ.errands := by
  unfold ioEnd
  split_ifs <;> rfl

theorem errands_flusherReturn (σ : Sys) (c : Call) (file : Option ℕ) :
    (σ.flusherReturn c file).errands = σ.errands := by
  unfold flusherReturn
  split <;> rfl

/-- Only the last section of `cyanfs_super_compact` queues a task of the journal. -/
theorem errands_callStep {c : Call} {ok : Bool} (hs : σ.callStep c ok = some σ')
    (hc : ∀ e, c ≠ .compactInit e) : σ'.errands = σ.errands := by
  cases c with
  | flusher min ondisk file =>
      obtain rfl := Option.some.inj hs
      unfold flusherStart
      simp only
      split_ifs
      · rfl
      · exact errands_flusherReturn _ _ _
      · rfl
      · rfl
  | flusherQueue ondisk file =>
      obtain rfl := Option.some.inj hs
      exact (errands_flusherReturn _ _ _).trans (spares_queueFlusher σ ondisk).errands
  | flushType file =>
      obtain rfl := Option.some.inj hs
      rfl
  | compact =>
      obtain rfl := Option.some.inj hs
      unfold compactStart
      simp only
      split_ifs <;> rfl
  | compactInit e => exact absurd rfl (hc e)
  | read io =>
      obtain rfl := Option.some.inj hs
      unfold readLookup
      split <;> rfl
  | readHandler io arg =>
      obtain rfl := Option.some.inj hs
      unfold readReturn
      split_ifs <;> rfl
  | write io =>
      obtain ⟨f, -, rfl⟩ := Option.map_eq_some_iff.1 hs
      unfold writeLookup
      split
      · exact errands_ioEnd _ _ _ _
      split
      · rfl
      split
      · split_ifs
        · exact errands_ioEnd _ _ _ _
        · rfl
        · rfl
      · rfl
  | writeAlloc io parent =>
      obtain ⟨f, -, rfl⟩ := Option.map_eq_some_iff.1 hs
      unfold writeAlloc
      split
      · exact errands_ioEnd _ _ _ _
      split
      · exact errands_ioEnd _ _ _ _
      split
      · rfl
      split
      · exact errands_ioEnd _ _ _ _
      rename_i s i b _
      split
      · rename_i src
        simp only [errands, tasks, writeMapped, setCall, addTail]
        rw [← List.append_assoc, List.filter_append]
        exact List.append_nil _
      · rfl
  | writeHandler io arg epoch =>
      obtain rfl := Option.some.inj hs
      unfold writeReturn
      cases epoch <;> simp only <;> split_ifs
      all_goals first | exact errands_ioEnd _ _ _ _ | rfl
  | discard io =>
      obtain ⟨f, -, rfl⟩ := Option.map_eq_some_iff.1 hs
      unfold discardLookup
      split
      · exact errands_ioEnd _ _ _ _
      · rfl
      · split_ifs
        · rfl
        · exact errands_ioEnd _ _ _ _
  | discardLocked io =>
      obtain ⟨f, -, rfl⟩ := Option.map_eq_some_iff.1 hs
      unfold discardLocked
      split
      · exact errands_ioEnd _ _ _ _
      · rfl
      · rfl
  | discardHandler io arg =>
      obtain rfl := Option.some.inj hs
      unfold discardReturn
      split_ifs
      · exact errands_ioEnd _ _ _ _
      · rfl

/-- The tasks of the journal change when one completes or a compaction begins. -/
theorem errands_step {l : Label} (hs : σ.step l = some σ') (hd : ∀ err m junk, l ≠ .done err m junk)
    (hi : ∀ e ok, l ≠ .call (.compactInit e) ok) : σ'.errands = σ.errands := by
  have hop : ∀ r, (σ.metaOp r).errands = σ.errands := by
    intro r
    unfold metaOp
    split <;> rfl
  unfold step at hs
  split at hs
  · cases hs
  cases l with
  | create name | fork fromId name | rename id name | truncate id size =>
      obtain rfl := Option.some.inj hs
      split
      all_goals first | exact hop _ | rfl
  | delete id =>
      obtain rfl := Option.some.inj hs
      exact hop _
  | «open» id write =>
      obtain rfl := Option.some.inj hs
      split <;> rfl
  | close id =>
      simp only at hs
      split at hs
      · cases hs
      split_ifs at hs
      obtain rfl := Option.some.inj hs
      rfl
  | superFlush ondisk | flush file | compact =>
      obtain rfl := Option.some.inj hs
      rfl
  | requeue file =>
      obtain rfl := Option.some.inj hs
      have hsp : σ.Spares (σ.addTail (.requeue file)) :=
        .tail [.requeue file] rfl rfl rfl rfl rfl rfl
      exact hsp.errands
  | read file off len =>
      simp only at hs
      split at hs
      · cases hs
      split_ifs at hs
      all_goals
        obtain rfl := Option.some.inj hs
        rfl
  | write file off len | discard file off len =>
      simp only at hs
      split at hs
      · cases hs
      obtain rfl := Option.some.inj hs
      split_ifs <;> rfl
  | call c ok =>
      simp only at hs
      split_ifs at hs
      exact errands_callStep hs fun e he => hi e ok (he ▸ rfl)
  | handlerWrite c start len data =>
      simp only at hs
      split at hs
      · split_ifs at hs
        obtain rfl := Option.some.inj hs
        rfl
      · cases hs
  | get =>
      simp only at hs
      split at hs
      · rename_i t q ha hq
        obtain rfl := Option.some.inj hs
        simp [errands, tasks, ha, hq]
      · cases hs
  | done err m junk => exact absurd rfl (hd err m junk)

/-- **A thread leaves the journal alone**, unless it is one of `cyanfs_super_compact`. -/
theorem Orderly.aside_thread {l : Label} (h : σ.Orderly total) (hs : σ.step l = some σ')
    (hl : σ.loader = none) (hd : ∀ err m junk, l ≠ .done err m junk)
    (hc : ∀ ok, l ≠ .call .compact ok) (hi : ∀ e ok, l ≠ .call (.compactInit e) ok)
    (hidle : σ.sup.compactWorking = false → σ.inits = 0) (he : σ'.sup.error = false) :
    σ.Spares σ' ∧ ∀ a, σ.InJournal a → σ'.disk.view a = σ.disk.view a := by
  have hinits := inits_step hs hc hi
  have hkeep : σ.Spares σ' ∧ σ'.disk = σ.disk →
      σ.Spares σ' ∧ ∀ a, σ.InJournal a → σ'.disk.view a = σ.disk.view a :=
    fun h => ⟨h.1, fun a _ => by rw [h.2]⟩
  -- no task completes
  have hact : σ.active ≠ none → σ'.active ≠ none := by
    intro hn
    rcases active_step hs with ⟨-, ha⟩ | ⟨err, m, junk, t, rfl, -⟩ | ⟨-, ha⟩
    · exact absurd ha hn
    · exact absurd rfl (hd _ _ _)
    · rwa [ha]
  have hnot : ∀ {t : Task}, σ.active = some t → σ'.active = none → False :=
    fun ht hn => hact (by simp [ht]) hn
  cases (h.step hs).2 with
  | change hch => exact hkeep (spares_change hch hact hl)
  | threads he => exact hkeep (he ▸ ⟨⟨rfl, rfl, rfl, rfl⟩, rfl⟩)
  | @requeue file he => exact hkeep (he ▸ ⟨.tail [.requeue file] rfl rfl rfl rfl rfl rfl, rfl⟩)
  | @flusher cs ondisk he =>
      refine hkeep (he ▸ ⟨Spares.trans (spares_queueFlusher σ ondisk) ⟨rfl, rfl, rfl, rfl⟩, ?_⟩)
      unfold queueFlusher
      simp only
      split_ifs <;> rfl
  | @compactStart cs _ hw he' hnew =>
      -- a compaction that was not started by this step
      obtain ⟨e, hmem⟩ := hnew
      have hin : e ∈ σ'.inits := by
        rw [he']
        exact (Multiset.mem_filterMap _ _).2 ⟨_, hmem, rfl⟩
      rw [hinits, hidle hw] at hin
      exact absurd hin (Multiset.notMem_zero _)
  | @compactInit cs endId _ he' =>
      have herr : σ'.errands = σ.errands ++ [.compactHeader] := by
        rw [he', errands, errands, tasks, tasks, ← List.append_assoc, List.filter_append]
        rfl
      exact absurd ((errands_step hs hd hi).symm.trans herr) (by simp)
  | compactFail _ he' => rw [he'] at he; cases he
  | handlerWrite hmem hlen he' =>
      subst he'
      exact ⟨⟨rfl, rfl, rfl, rfl⟩, fun a ha => h.view_handlerWrite hmem hlen ha⟩
  | get _ _ he' =>
      have herr := errands_step hs hd hi
      subst he'
      exact hkeep ⟨⟨rfl, herr, rfl, rfl⟩, rfl⟩
  | @task t err m junk ht _ he' => exact (hnot ht (he' ▸ active_runTask σ t err m junk)).elim
  | noMount _ ht he' =>
      rcases ht with ht | ht <;> exact (hnot ht (by rw [he'])).elim

end Sys

end Cyanfs
