/-
# The flush before a record

A COPY that has succeeded appends the BIND of its extent with a mark.  A flusher that
meets a marked entry queues, in front of the record, its `before` task: a FLUSH that
has to succeed before the record is written.  One such FLUSH covers the whole batch,
since all the entries of a flusher were appended before the flusher was queued.

`Awaits` says where a marked entry is on its way to the disk, and `Guarded` that a
flusher which has met a mark has its `before` task in front of the writer, or the
FLUSH has succeeded, or no record of the flusher is left to be written.
-/

import Cyanfs.Run.Contract

namespace Cyanfs

open Lib Std

/-- The entries that the record of a writer takes. -/
theorem writerEncode_taken {s s' : Super} {c c' : Cursor} {head rest : List JEntry}
    {nextId : Option ℕ} {err flush : Bool} {req : WriteReq}
    (h : writerEncode s c head nextId err = .write s' c' req flush rest) :
    ∃ taken, head = taken ++ rest ∧ req.entries = taken.map (·.entry) ∧
      flush = taken.any (·.flush) := by
  unfold writerEncode at h
  split at h
  · cases h
  split at h
  · cases h
  split at h
  · cases h
  rename_i p hp
  have key : ∀ s₀ size next, emitRecord s₀ c p.taken p.rest size next = .write s' c' req flush rest →
      ∃ taken, head = taken ++ rest ∧ req.entries = taken.map (·.entry) ∧
        flush = taken.any (·.flush) := by
    intro s₀ size next he
    simp only [emitRecord, EncodeOut.write.injEq] at he
    obtain ⟨-, -, rfl, rfl, rfl⟩ := he
    exact ⟨p.taken, layoutRecord_append hp, rfl, rfl⟩
  split at h
  · exact key _ _ _ h
  · exact key _ _ _ h
  · split at h
    · cases h
    · exact key _ _ _ h

/-- The order around a writer. -/
theorem Sched.around {us vs : List Task} {u : Task} {n : ℕ} {fs : ExtTreeMap ℕ Flusher}
    (h : Sched (us ++ u :: vs) fs) (hu : u.order = some n) :
    (∀ k ∈ us.filterMap Task.order, k < n) ∧ ∀ k ∈ vs.filterMap Task.order, n < k := by
  have hs := h.sorted
  rw [List.filterMap_append, List.filterMap_cons_some hu, List.pairwise_append] at hs
  exact ⟨fun k hk => hs.2.2 k hk n List.mem_cons_self, (List.pairwise_cons.1 hs.2.1).1⟩

/-- A writer holds the entries of its record among others. -/
theorem length_requested_le (fs : ExtTreeMap ℕ Flusher) (ts : List Task) :
    (ts.flatMap Task.requested).length ≤ (ts.flatMap (Task.entries fs)).length := by
  induction ts with
  | nil => exact le_rfl
  | cons u ts ih =>
      have hu : u.requested.length ≤ (u.entries fs).length := by
        cases u with
        | writer fl io =>
            rw [Task.entries, List.length_append]
            exact Nat.le_add_right _ _
        | _ => exact le_rfl
      rw [List.flatMap_cons, List.flatMap_cons, List.length_append, List.length_append]
      omega

namespace Sys

variable {σ τ σ' : Sys} {total fl p N : ℕ} {t : Flusher}

/-! ### What the callbacks of a flusher do to it -/

/-- How the callback of a writer can end. -/
inductive WriterOut (σ : Sys) (fl : ℕ) (io : Option WriteReq) (t : Flusher) (σ' : Sys) : Prop
  | error (he : σ'.sup.error = true) (hq : σ'.queue = σ.queue)
      (hw : σ'.log.written.length ≤
        σ.log.written.length + (Task.writer fl io).requested.length)
  | finish (he : σ.sup.error = false) (hh : t.head = []) (hq : σ'.queue = σ.queue)
      (hfs : σ'.flushers = σ.flushers)
      (hw : σ'.log.written = σ.log.written ++ (Task.writer fl io).requested)
  | record {u : List Task} {r : WriteReq} {k : List JEntry} {f : Flusher}
      (he : σ.sup.error = false) (he' : σ'.sup.error = false) (hh : t.head = k ++ f.head)
      (hreq : r.entries = k.map (·.entry)) (hus : u = [] ∨ u = [.before fl false])
      (hq : σ'.queue = u ++ .writer fl (some r) :: σ.queue)
      (hfs : σ'.flushers = σ.flushers.insert fl f)
      (hmark : k.any (·.flush) = true → f.flushBeforeWrite = true)
      (hkeep : t.flushBeforeWrite = true → f.flushBeforeWrite = true)
      (hnew : f.flushBeforeWrite = true → t.flushBeforeWrite = true ∨ u = [.before fl false])
      (hw : σ'.log.written = σ.log.written ++ (Task.writer fl io).requested)

theorem writerOut_encode {io : Option WriteReq} {err : Bool} (hsup : τ.sup = σ.sup)
    (hq : τ.queue = σ.queue) (hfs : τ.flushers = σ.flushers)
    (hle : τ.log.written.length ≤ σ.log.written.length + (Task.writer fl io).requested.length)
    (hw : err = false → τ.log.written = σ.log.written ++ (Task.writer fl io).requested) :
    WriterOut σ fl io t (τ.flusherEncode fl t err) := by
  have hcases := writerEncode_cases τ.sup τ.sup.cursor t.head none err
  unfold flusherEncode
  split
  · exact .error rfl hq hle
  · rename_i hs
    obtain ⟨he, herr, hh⟩ := hcases.1 hs
    obtain ⟨h₁, h₂, h₃⟩ : (τ.flusherWriteFinish t).queue = τ.queue ∧
        (τ.flusherWriteFinish t).flushers = τ.flushers ∧
        (τ.flusherWriteFinish t).log = τ.log := by
      unfold flusherWriteFinish
      simp only
      split_ifs <;> exact ⟨rfl, rfl, rfl⟩
    exact .finish (hsup ▸ herr) hh (h₁.trans hq) (h₂.trans hfs) (by rw [h₃]; exact hw he)
  · rename_i s c req flush rest hs
    obtain ⟨he, herr, -⟩ := hcases.2 s c req flush rest hs
    obtain ⟨taken, hh, hreq, hfl⟩ := writerEncode_taken hs
    have herr' : s.error = false := (writerEncode_frame.2 s c req flush rest hs).2.trans herr
    simp only
    split_ifs with hb
    · refine .record (u := [.before fl false]) (r := req) (k := taken)
        (f := { t with head := rest, flushBeforeWrite := true })
        (hsup ▸ herr) herr' hh hreq (.inr rfl) (by simp [addHead, hq]) ?_ (fun _ => rfl)
        (fun _ => rfl) (fun _ => .inr rfl) (hw he)
      exact congrArg (fun fs => ExtTreeMap.insert fs fl _) hfs
    · refine .record (u := []) (r := req) (k := taken) (f := { t with head := rest })
        (hsup ▸ herr) herr' hh hreq (.inl rfl) (by simp [addHead, hq]) ?_ (fun hm => ?_) id .inl (hw he)
      · exact congrArg (fun fs => ExtTreeMap.insert fs fl _) hfs
      · by_contra hne
        exact hb ⟨hfl.trans hm, by simpa using hne⟩

/-- **The callback of a writer.** -/
theorem writerOut_runTask (io : Option WriteReq) (hfl : σ.flushers[fl]? = some t) (err m : Bool)
    (junk : Buf) :
    WriterOut σ fl io t ({ σ with active := none }.runTask (.writer fl io) err m junk) := by
  simp only [runTask, hfl]
  cases io with
  | none =>
      refine writerOut_encode (τ := { σ with active := none }) rfl rfl rfl ?_ fun _ => ?_
      · simp [Task.requested]
      · simp [Task.requested]
  | some req =>
      cases err with
      | true =>
          refine writerOut_encode (τ := ioRecord { σ with active := none } req true junk) rfl rfl rfl ?_
            (by simp)
          simp [ioRecord, ioWrite]
      | false =>
          refine writerOut_encode (τ := ioRecord { σ with active := none } req false junk) rfl rfl rfl ?_
            fun _ => ?_
          · simp [ioRecord, ioWrite, Task.requested]
          · simp [ioRecord, ioWrite, Task.requested]

/-- How the callback of a `before` task can end. -/
inductive BeforeOut (σ : Sys) (fl : ℕ) (b err : Bool) (t : Flusher) (σ' : Sys) : Prop
  | cancel (he : σ'.sup.error = true) (hq : σ'.queue = (σ.cancelWrite fl).queue)
  | flush {t' : Flusher} (he : σ.sup.error = false) (hq : σ'.queue = .before fl true :: σ.queue)
      (hfs : σ'.flushers = σ.flushers.insert fl t') (hh : t'.head = t.head)
      (hmark : t'.flushBeforeWrite = t.flushBeforeWrite) (hb : b = false)
  | flushed (he : σ.sup.error = false) (hb : b = true) (herr : err = false)
      (hq : σ'.queue = σ.queue) (hfs : σ'.flushers = σ.flushers)

/-- **The callback of a `before` task.** -/
theorem beforeOut_runTask {b : Bool} (hfl : σ.flushers[fl]? = some t) (err m : Bool) (junk : Buf) :
    BeforeOut σ fl b err t ({ σ with active := none }.runTask (.before fl b) err m junk) ∧
    ({ σ with active := none }.runTask (.before fl b) err m junk).log.written = σ.log.written := by
  simp only [runTask, hfl]
  cases b with
  | false =>
      simp only [Bool.false_eq_true, if_false]
      unfold flusherBeforeWriteFlush
      split_ifs with he
      · exact ⟨.cancel he rfl, rfl⟩
      · exact ⟨.flush (by simpa using he) rfl rfl rfl rfl rfl, rfl⟩
  | true =>
      simp only [if_true]
      unfold flusherBeforeWriteFlushDone ioFlush
      cases err with
      | true => exact ⟨.cancel rfl rfl, rfl⟩
      | false =>
          simp only [Bool.false_eq_true, if_false]
          split_ifs with he
          · exact ⟨.cancel he rfl, rfl⟩
          · exact ⟨.flushed (by simpa using he) rfl rfl rfl rfl, rfl⟩

/-- What the callbacks of the tasks behind the writer do. -/
structure LateOut (σ : Sys) (fl : ℕ) (σ' : Sys) : Prop where
  queue : ∃ us vs : List Task, σ'.queue = us ++ (σ.queue ++ vs) ∧
    (∀ u ∈ us, u = .after fl true) ∧ ∀ v ∈ vs, v.Plain
  written : σ'.log.written = σ.log.written
  mark : ∀ t', σ'.flushers[fl]? = some t' → ∃ t, σ.flushers[fl]? = some t ∧
    t'.flushBeforeWrite = t.flushBeforeWrite

theorem LateOut.of_tail (h : Tail { σ with active := none } σ') : LateOut σ fl σ' := by
  obtain ⟨ts, hq, hp⟩ := h.queue
  refine ⟨⟨[], ts, hq, by simp, hp⟩, h.written, fun t' ht' => ⟨t', ?_, rfl⟩⟩
  rw [h.flushers] at ht'
  exact ht'

/-- **The callbacks of `after` and `free`.** -/
theorem lateOut_runTask {u : Task} (hu : (∃ b, u = .after fl b) ∨ u = .free fl) (err m : Bool)
    (junk : Buf) : LateOut σ fl ({ σ with active := none }.runTask u err m junk) := by
  rcases hu with ⟨b, rfl⟩ | rfl
  · simp only [runTask]
    split
    · exact .of_tail (.refl _)
    · rename_i t hfl
      split_ifs
      · exact .of_tail ((tail_ioFlush _ _).trans (tail_flusherAfterFlush _ _))
      · unfold flusherBeforeFlush
        split_ifs
        · exact .of_tail (.refl _)
        · refine ⟨⟨[.after fl true], [], by simp [addHead], by simp, by simp⟩, rfl, fun t' ht' => ?_⟩
          have ht' : (σ.flushers.insert fl { t with
              unused := (σ.sup.handOver t.unused).2 })[fl]? = some t' := ht'
          rw [flushers_insert, if_pos rfl] at ht'
          obtain rfl := Option.some.inj ht'
          exact ⟨t, hfl, rfl⟩
  · simp only [runTask]
    split
    · exact .of_tail (.refl _)
    · unfold flusherFree
      simp only
      have hgone : ∀ t', (σ.flushers.erase fl)[fl]? = some t' → ∃ t, σ.flushers[fl]? = some t ∧
          t'.flushBeforeWrite = t.flushBeforeWrite := by
        intro t' ht'
        rw [flushers_erase, if_pos rfl] at ht'
        cases ht'
      split_ifs
      · exact ⟨⟨[], [], by simp, by simp, by simp⟩, rfl, hgone⟩
      · exact ⟨⟨[], [], by simp, by simp, by simp⟩, rfl, hgone⟩

/-! ### The record that is on its way -/

theorem requested_eq_nil {ts : List Task} (h : ∀ fl req, .writer fl (some req) ∉ ts) :
    ts.flatMap Task.requested = [] := by
  rw [List.flatMap_eq_nil_iff]
  intro u hu
  cases u with
  | writer fl io =>
      cases io with
      | none => rfl
      | some req => exact absurd hu (h fl req)
  | _ => rfl

/-- No record is on its way once the WRITE behind a `before` task is cancelled. -/
theorem none_cancelled {b : Bool} (hσ : σ.Sound total) (ht : σ.active = some (.before fl b))
    (fl' : ℕ) (req : WriteReq) : .writer fl' (some req) ∉ (σ.cancelWrite fl).queue := by
  have hsched := hσ.account.sched
  rw [tasks_of_active ht] at hsched
  intro hm
  obtain ⟨u, hu, hgu⟩ := List.mem_map.1 hm
  cases u with
  | writer k io =>
      simp only [cancelTask, Task.writer.injEq] at hgu
      obtain ⟨rfl, hio⟩ := hgu
      split_ifs at hio with hk
      subst hio
      have := hsched.behind_first (t := .before fl b) rfl hu
      omega
  | _ => simp [cancelTask] at hgu

/-- The flusher of the active task. -/
theorem flusher_of_active {u : Task} {n : ℕ} (hσ : σ.Sound total) (ht : σ.active = some u)
    (hn : u.order = some n) : ∃ t, σ.flushers[n / 4]? = some t := by
  refine hσ.account.sched.alive n ?_
  rw [tasks_of_active ht, List.filterMap_cons_some hn]
  exact List.mem_cons_self

theorem requested_of_active {u : Task} (ht : σ.active = some u) :
    σ.requested = u.requested ++ σ.queue.flatMap Task.requested := by
  rw [requested, tasks_of_active ht, List.flatMap_cons]

theorem requested_of_queue (hc : σ.active = none) : σ.requested = σ.queue.flatMap Task.requested := by
  rw [requested, tasks, hc]
  rfl

theorem LateOut.requested (h : LateOut σ fl σ') :
    σ'.queue.flatMap Task.requested = σ.queue.flatMap Task.requested := by
  obtain ⟨us, vs, hq, hus, hvs⟩ := h.queue
  have h₁ : us.flatMap Task.requested = [] :=
    List.flatMap_eq_nil_iff.2 fun u hu => by rw [hus u hu]; rfl
  rw [hq, List.flatMap_append, List.flatMap_append, h₁,
    flatMap_eq_nil_of_plain hvs fun t => requested_of_order, List.nil_append, List.append_nil]

theorem LateOut.mem_queue {k : ℕ} {req : WriteReq} (h : LateOut σ fl σ')
    (hm : .writer k (some req) ∈ σ'.queue) : .writer k (some req) ∈ σ.queue := by
  obtain ⟨us, vs, hq, hus, hvs⟩ := h.queue
  rw [hq] at hm
  rcases List.mem_append.1 hm with hm | hm
  · cases hus _ hm
  · rcases List.mem_append.1 hm with hm | hm
    · exact hm
    · cases (hvs _ hm).1

/-- No record is queued when the super is marked: the end of what is requested does
not grow. -/
theorem reach_moves (hσ : σ.Sound total) (hm : σ.Moves σ') (he : σ'.sup.error = true) :
    σ'.log.written.length + σ'.requested.length ≤ σ.log.written.length + σ.requested.length := by
  have hnil : ∀ ts : List Task, (∀ t ∈ ts, t.order = none) → ts.flatMap Task.requested = [] :=
    fun ts hts => List.flatMap_eq_nil_iff.2 fun t ht => requested_of_order (hts t ht)
  cases hm with
  | tail ha ho hactive hts =>
      rw [requested, hts, List.flatMap_append, hnil _ ho, List.append_nil, ha.written]
      exact le_rfl
  | popped ht hn ha ho hnone hts =>
      rw [requested_of_active ht, requested_of_order hn, requested, hts, List.flatMap_append,
        hnil _ ho, List.append_nil, ha.written]
      exact le_rfl
  | @queued ondisk hq =>
      have hnew : ((if σ.sup.journalHead ≠ [] then [Task.writer σ.nextFlusher none] else []) ++
          ((if ondisk then [Task.after σ.nextFlusher false] else []) ++
            [Task.free σ.nextFlusher])).flatMap Task.requested = [] := by
        split_ifs <;> rfl
      rw [requested, hq.tasks, List.flatMap_append, hnew, List.append_nil, hq.log]
      exact le_rfl
  | @callback u n err m junk ht hn hc hrun =>
      obtain ⟨t, hfl⟩ := flusher_of_active hσ ht hn
      rw [requested_of_queue hc.active, requested_of_active ht, List.length_append]
      subst hrun
      cases u with
      | writer fl io =>
          obtain rfl := Option.some.inj hn
          rw [show (4 * fl + 1) / 4 = fl by omega] at hfl
          cases writerOut_runTask io hfl err m junk with
          | error _ hq hw =>
              rw [hq]
              omega
          | finish _ _ hq _ hw =>
              rw [hq, hw, List.length_append]
              omega
          | record _ he' =>
              rw [he] at he'
              cases he'
      | before fl b =>
          obtain rfl := Option.some.inj hn
          rw [show 4 * fl / 4 = fl by omega] at hfl
          obtain ⟨hout, hw⟩ := beforeOut_runTask hfl err m junk (b := b)
          rw [hw]
          cases hout with
          | cancel _ hq =>
              rw [hq, requested_eq_nil (none_cancelled hσ ht)]
              exact Nat.add_le_add_left (Nat.zero_le _) _
          | flush _ hq =>
              rw [hq, List.flatMap_cons, List.length_append]
              exact Nat.le_refl _
          | flushed _ _ _ hq =>
              rw [hq]
              exact Nat.add_le_add_left (Nat.le_add_left _ _) _
      | after fl b =>
          have hout : LateOut σ fl _ := lateOut_runTask (.inl ⟨b, rfl⟩) err m junk
          rw [hout.requested, hout.written]
          exact Nat.add_le_add_left (Nat.le_add_left _ _) _
      | free fl =>
          have hout : LateOut σ fl _ := lateOut_runTask (.inr rfl) err m junk
          rw [hout.requested, hout.written]
          exact Nat.add_le_add_left (Nat.le_add_left _ _) _
      | _ => cases hn

theorem order_before {u : Task} (h : u.order = some (4 * fl)) : ∃ b, u = .before fl b := by
  cases u with
  | after k b | writer k io | free k =>
      simp only [Task.order, Option.some.injEq] at h
      omega
  | before k b =>
      simp only [Task.order, Option.some.injEq] at h
      obtain rfl : k = fl := by omega
      exact ⟨b, rfl⟩
  | _ => cases h

theorem order_writer {u : Task} (h : u.order = some (4 * fl + 1)) : ∃ io, u = .writer fl io := by
  cases u with
  | after k b | before k b | free k =>
      simp only [Task.order, Option.some.injEq] at h
      omega
  | writer k io =>
      simp only [Task.order, Option.some.injEq] at h
      obtain rfl : k = fl := by omega
      exact ⟨io, rfl⟩
  | _ => cases h

/-! ### Where a marked entry is -/

/-- Where the entry `j` is, the one at place `p` of the journal; `N` is the first
flusher that can get it.  Its place is counted from the end. -/
inductive Awaits (p N : ℕ) (j : JEntry) (σ : Sys) : Prop
  | written (h : p < σ.log.written.length)
  /-- in `journal_head` -/
  | head {a c : List JEntry} (he : σ.sup.error = false) (hj : σ.sup.journalHead = a ++ j :: c)
      (hp : p + 1 + c.length = σ.log.appended.length)
  /-- in the list of a writer -/
  | held {u v : List Task} {fl : ℕ} {w : Option WriteReq} {t : Flusher} {a c : List JEntry}
      (he : σ.sup.error = false) (hN : N ≤ fl) (ht : σ.tasks = u ++ .writer fl w :: v)
      (hfl : σ.flushers[fl]? = some t) (hj : t.head = a ++ j :: c)
      (hp : p + 1 + c.length + (v.flatMap (Task.entries σ.flushers)).length +
        σ.sup.journalHead.length = σ.log.appended.length)
  /-- in a record that is on its way -/
  | record {fl : ℕ} {r : WriteReq} {t : Flusher} (hN : N ≤ fl)
      (ht : .writer fl (some r) ∈ σ.tasks) (hfl : σ.flushers[fl]? = some t)
      (hmark : t.flushBeforeWrite = true) (hp : p < σ.log.written.length + r.entries.length)
  /-- it will never be written -/
  | lost (he : σ.sup.error = true) (hp : σ.log.written.length + σ.requested.length ≤ p)

variable {j : JEntry}

/-- An entry in `journal_head` is behind all the records. -/
theorem reach_head {a c : List JEntry} (hσ : σ.Sound total) (he : σ.sup.error = false)
    (hj : σ.sup.journalHead = a ++ j :: c) (hp : p + 1 + c.length = σ.log.appended.length) :
    σ.log.written.length + σ.requested.length ≤ p := by
  have hall := congrArg List.length (hσ.account.all he)
  have := length_requested_le σ.flushers σ.tasks
  simp only [List.length_append, List.length_map, List.length_cons, inFlight, hj] at hall
  simp only [requested]
  omega

/-- What is behind a writer holds no record. -/
theorem requested_behind {us vs : List Task} {io : Option WriteReq} (hσ : σ.Sound total)
    (ht : σ.tasks = us ++ .writer fl io :: vs) : vs.flatMap Task.requested = [] := by
  have hsched := hσ.account.sched
  rw [ht] at hsched
  refine requested_eq_nil fun fl' req hm => ?_
  have h₁ := (hsched.around (u := .writer fl io) rfl).2 _ (List.mem_filterMap.2 ⟨_, hm, rfl⟩)
  have h₂ := hsched.first fl' req (List.mem_append_right _ (List.mem_cons_of_mem _ hm)) (4 * fl + 1)
    (List.mem_filterMap.2 ⟨.writer fl io, by simp, rfl⟩)
  omega

/-- An entry in the list of a writer is behind the records of the writer and of those
in front of it. -/
theorem reach_held {us vs : List Task} {io : Option WriteReq} {a c : List JEntry}
    (hσ : σ.Sound total) (he : σ.sup.error = false) (ht : σ.tasks = us ++ .writer fl io :: vs)
    (hfl : σ.flushers[fl]? = some t) (hj : t.head = a ++ j :: c)
    (hp : p + 1 + c.length + (vs.flatMap (Task.entries σ.flushers)).length +
      σ.sup.journalHead.length = σ.log.appended.length) :
    σ.log.written.length + σ.requested.length ≤ p := by
  have hall := congrArg List.length (hσ.account.all he)
  have hus := length_requested_le σ.flushers us
  have hreq : σ.requested.length = (us.flatMap Task.requested).length +
      (Task.writer fl io).requested.length := by
    rw [requested, ht, List.flatMap_append, List.flatMap_cons, requested_behind hσ ht,
      List.append_nil, List.length_append]
  have hent : (Task.writer fl io).entries σ.flushers =
      (Task.writer fl io).requested ++ (a ++ j :: c).map (·.entry) := by
    rw [Task.entries, hfl, Option.map_some, Option.getD_some, hj]
  rw [inFlight, ht, List.flatMap_append, List.flatMap_cons, hent] at hall
  simp only [List.length_append, List.length_map, List.length_cons] at hall
  omega

theorem written_moves (hm : σ.Moves σ') : σ.log.written.length ≤ σ'.log.written.length := by
  cases hm with
  | tail ha ho hactive hts => exact ha.written ▸ le_rfl
  | popped ht hn ha ho hnone hts => exact ha.written ▸ le_rfl
  | queued hq => exact hq.log ▸ le_rfl
  | callback ht hn hc he => exact hc.written.length_le

/-- The entries of the tasks behind a writer, when a flusher in front of it or its own
has changed. -/
theorem entries_behind {us vs : List Task} {io : Option WriteReq} {f : ExtTreeMap ℕ Flusher}
    (hσ : σ.Sound total) (ht : σ.tasks = us ++ .writer fl io :: vs)
    (hfs : ∀ k, fl < k → f[k]? = σ.flushers[k]?) :
    vs.flatMap (Task.entries f) = vs.flatMap (Task.entries σ.flushers) := by
  have hsched := hσ.account.sched
  rw [ht] at hsched
  refine List.flatMap_congr fun u hu => ?_
  cases u with
  | writer k io =>
      have := (hsched.around (u := .writer fl _) rfl).2 _ (List.mem_filterMap.2 ⟨_, hu, rfl⟩)
      simp only [Task.entries]
      rw [hfs k (by omega)]
  | _ => rfl

/-- The record of an entry stays on its way until it is written or cancelled. -/
theorem Awaits.step_record {req : WriteReq} (hσ : σ.Sound total) (hm : σ.Moves σ') (hN : N ≤ fl)
    (ht : .writer fl (some req) ∈ σ.tasks) (hfl : σ.flushers[fl]? = some t)
    (hmark : t.flushBeforeWrite = true) (hp : p < σ.log.written.length + req.entries.length) :
    σ'.Awaits p N j := by
  by_cases hw : p < σ'.log.written.length
  · exact .written hw
  have gone : σ'.sup.error = true → (∀ fl req, .writer fl (some req) ∉ σ'.tasks) →
      σ'.Awaits p N j := by
    intro he hno
    refine .lost he ?_
    rw [requested, requested_eq_nil hno, List.length_nil]
    omega
  cases hm with
  | tail ha ho hactive hts =>
      refine .record hN (by rw [hts]; exact List.mem_append_left _ ht) (ha.flushers ▸ hfl) hmark ?_
      rw [ha.written]
      exact hp
  | popped hact hn ha ho hnone hts =>
      refine .record hN ?_ (ha.flushers ▸ hfl) hmark (by rw [ha.written]; exact hp)
      rw [tasks_of_active hact] at ht
      rw [hts]
      refine List.mem_append_left _ ((List.mem_cons.1 ht).resolve_left fun h => ?_)
      rw [← h] at hn
      cases hn
  | queued hq =>
      have hne : fl ≠ σ.nextFlusher := by
        rintro rfl
        rw [hσ.extents.fresh _ le_rfl] at hfl
        cases hfl
      refine .record hN (by rw [hq.tasks]; exact List.mem_append_left _ ht) (t := t) ?_ hmark
        (by rw [hq.log]; exact hp)
      rw [hq.flushers, flushers_insert, if_neg hne]
      exact hfl
  | @callback u n err m junk hact hn hc hrun =>
      have hsched := hσ.account.sched
      rw [tasks_of_active hact] at ht hsched
      have htasks' : σ'.tasks = σ'.queue := by rw [tasks, hc.active]; rfl
      rcases List.mem_cons.1 ht with hu | hu
      · -- the WRITE completes
        subst hu
        obtain rfl := Option.some.inj hn
        have hnone : ∀ fl' req', .writer fl' (some req') ∉ σ.queue := by
          intro fl' req' hm
          have := hsched.behind_first (t := .writer fl (some req)) rfl hm
          omega
        have hout := writerOut_runTask (some req) hfl err m junk
        rw [← hrun] at hout
        cases hout with
        | error he hq _ =>
            refine gone he fun fl' req' => ?_
            rw [htasks', hq]
            exact hnone fl' req'
        | finish _ _ _ _ hw' =>
            refine absurd ?_ hw
            rw [hw', List.length_append]
            exact hp
        | record _ _ _ _ _ _ _ _ _ _ hw' =>
            refine absurd ?_ hw
            rw [hw', List.length_append]
            exact hp
      · -- the task in front of it is the `before` task of the same flusher
        have hfirst := hsched.behind_first hn hu
        obtain ⟨b, rfl⟩ := order_before (hfirst ▸ hn)
        obtain ⟨hout, hwr⟩ := beforeOut_runTask hfl err m junk (b := b)
        rw [← hrun] at hout hwr
        cases hout with
        | cancel he hq =>
            refine gone he fun fl' req' => ?_
            rw [htasks', hq]
            exact none_cancelled hσ hact fl' req'
        | @flush t' _ hq hfs _ hmark' _ =>
            refine .record hN ?_ (t := t') ?_ (hmark'.trans hmark) (by rw [hwr]; exact hp)
            · rw [htasks', hq]
              exact List.mem_cons_of_mem _ hu
            · rw [hfs, flushers_insert, if_pos rfl]
        | flushed _ _ _ hq hfs =>
            refine .record hN ?_ (hfs ▸ hfl) hmark (by rw [hwr]; exact hp)
            rw [htasks', hq]
            exact hu

/-- The writer that holds a marked entry encodes its next record. -/
theorem Awaits.encode {vs us : List Task} {req : WriteReq} {t' : Flusher}
    {a c taken : List JEntry} (hσ' : σ'.Sound total) (hmark : j.flush = true) (hN : N ≤ fl)
    (he : σ'.sup.error = false) (ht : σ'.tasks = us ++ .writer fl (some req) :: vs)
    (hus : us.flatMap (Task.entries σ'.flushers) = []) (hfl : σ'.flushers[fl]? = some t')
    (hj : a ++ j :: c = taken ++ t'.head) (hreq : req.entries = taken.map (·.entry))
    (hflush : taken.any (·.flush) = true → t'.flushBeforeWrite = true)
    (hp : p + 1 + c.length + (vs.flatMap (Task.entries σ'.flushers)).length +
      σ'.sup.journalHead.length = σ'.log.appended.length) : σ'.Awaits p N j := by
  rcases List.append_eq_append_iff.1 hj with ⟨k, htaken, hk⟩ | ⟨k, ha, hk⟩
  · cases k with
    | nil => exact .held he hN ht hfl (a := []) (by simpa using hk.symm) hp
    | cons j' k =>
        rw [List.cons_append, List.cons.injEq] at hk
        obtain ⟨rfl, hc⟩ := hk
        refine .record (r := req) hN (by rw [ht]; simp) hfl (hflush ?_) ?_
        · rw [htaken]
          simp [hmark]
        · -- counted from the front: the records before, and the entries taken before it
          have hall := congrArg List.length (hσ'.account.all he)
          have hent : (Task.writer fl (some req)).entries σ'.flushers =
              req.entries ++ t'.head.map (·.entry) := by
            rw [Task.entries, hfl]
            rfl
          rw [inFlight, ht, List.flatMap_append, List.flatMap_cons, hent, hus] at hall
          simp only [List.length_append, List.length_map, List.nil_append] at hall
          rw [hc] at hp
          rw [hreq, htaken]
          simp only [hreq, htaken, List.length_append, List.length_map, List.length_cons] at hall hp ⊢
          omega
  · exact .held he hN ht hfl (a := k) hk hp

/-- The list of a writer stays as it is until the writer runs. -/
theorem Awaits.step_held {us vs : List Task} {io : Option WriteReq} {a c : List JEntry}
    (hσ : σ.Sound total) (hσ' : σ'.Sound total) (hm : σ.Moves σ') (hmark : j.flush = true)
    (he' : σ'.sup.error = false) (hN : N ≤ fl) (ht : σ.tasks = us ++ .writer fl io :: vs)
    (hfl : σ.flushers[fl]? = some t) (hj : t.head = a ++ j :: c)
    (hp : p + 1 + c.length + (vs.flatMap (Task.entries σ.flushers)).length +
      σ.sup.journalHead.length = σ.log.appended.length) : σ'.Awaits p N j := by
  have hnil : ∀ ts : List Task, (∀ t ∈ ts, t.order = none) →
      ts.flatMap (Task.entries σ.flushers) = [] :=
    fun ts hts => List.flatMap_eq_nil_iff.2 fun t ht => entries_of_order (hts t ht) _
  have apart : ∀ us' ts : List Task, σ.Apart σ' → (∀ t ∈ ts, t.order = none) →
      σ'.tasks = us' ++ .writer fl io :: (vs ++ ts) → σ'.Awaits p N j := by
    intro us' ts ha ho hts
    obtain ⟨js, hhead, hap⟩ := ha.head
    refine .held he' hN hts (ha.flushers ▸ hfl) hj ?_
    rw [ha.flushers, List.flatMap_append, hnil ts ho, hhead, hap]
    simp only [List.length_append, List.length_map, List.append_nil]
    omega
  cases hm with
  | tail ha ho hactive hts => exact apart us _ ha ho (by rw [hts, ht]; simp)
  | popped hact hn ha ho hnone hts =>
      rw [tasks_of_active hact] at ht
      cases us with
      | nil =>
          rw [List.nil_append, List.cons.injEq] at ht
          rw [ht.1] at hn
          cases hn
      | cons u us =>
          rw [List.cons_append, List.cons.injEq] at ht
          exact apart us _ ha ho (by rw [hts, ht.2]; simp)
  | @queued ondisk hq =>
      have hlt := orders_lt_next hσ (List.mem_filterMap.2
        ⟨.writer fl io, by rw [ht]; simp, rfl⟩ : 4 * fl + 1 ∈ σ.orders)
      have hkeep : ∀ u ∈ vs, u.entries σ'.flushers = u.entries σ.flushers :=
        fun u hu => hq.entries_eq hσ (by rw [ht]; simp [hu])
      have hts := hq.tasks
      rw [ht, List.append_assoc, List.cons_append] at hts
      refine .held he' hN hts (t := t) ?_ hj ?_
      · rw [hq.flushers, flushers_insert, if_neg (by omega)]
        exact hfl
      · rw [List.flatMap_append, List.length_append, hq.entries_new, List.flatMap_congr hkeep,
          hq.journalHead, hq.log, List.length_nil, List.length_map]
        omega
  | @callback u n err m junk hact hn hc hrun =>
      have hsched := hσ.account.sched
      rw [ht] at hsched
      obtain ⟨hbefore, hafter⟩ := hsched.around (u := .writer fl io) rfl
      have hvs := entries_behind (f := σ'.flushers) hσ ht
      have htasks' : σ'.tasks = σ'.queue := by rw [tasks, hc.active]; rfl
      rw [tasks_of_active hact] at ht
      cases us with
      | nil =>
          -- the writer itself
          rw [List.nil_append, List.cons.injEq] at ht
          obtain ⟨rfl, rfl⟩ := ht
          obtain rfl := Option.some.inj hn
          have hvs' := hvs fun k hk => hc.flushers k (by omega)
          have hout := writerOut_runTask io hfl err m junk
          rw [← hrun] at hout
          cases hout with
          | error he _ _ =>
              rw [he'] at he
              cases he
          | finish _ hh _ _ _ =>
              rw [hj] at hh
              simp at hh
          | @record us' req taken t' _ _ hh hreq hus hq hfs hflush _ _ _ =>
              have hts : σ'.tasks = us' ++ .writer fl (some req) :: σ.queue := by rw [htasks', hq]
              have hown : σ'.flushers[fl]? = some t' := by rw [hfs, flushers_insert, if_pos rfl]
              refine .encode hσ' hmark hN he' hts ?_ hown (hj.symm.trans hh) hreq hflush ?_
              · rcases hus with rfl | rfl <;> rfl
              · rw [hvs', hc.journalHead, hc.appended]
                exact hp
      | cons u' us =>
          rw [List.cons_append, List.cons.injEq] at ht
          obtain ⟨rfl, hqueue⟩ := ht
          have hlt := hbefore n (by rw [List.filterMap_cons_some hn]; exact List.mem_cons_self)
          have hvs' := hvs fun k hk => hc.flushers k (by omega)
          by_cases hk : n / 4 = fl
          · -- the `before` task of the writer
            obtain ⟨b, rfl⟩ := order_before (show u.order = some (4 * fl) by rw [hn]; congr 1; omega)
            obtain ⟨hout, -⟩ := beforeOut_runTask hfl err m junk (b := b)
            rw [← hrun] at hout
            cases hout with
            | cancel he _ =>
                rw [he'] at he
                cases he
            | @flush t' _ hq hfs hh _ _ =>
                have hts : σ'.tasks = (.before fl true :: us) ++ .writer fl io :: vs := by
                  rw [htasks', hq, hqueue, List.cons_append]
                refine .held he' hN hts (t := t') ?_ (hh.trans hj) ?_
                · rw [hfs, flushers_insert, if_pos rfl]
                · rw [hvs', hc.journalHead, hc.appended]
                  exact hp
            | flushed _ _ _ hq hfs =>
                have hts : σ'.tasks = us ++ .writer fl io :: vs := by rw [htasks', hq, hqueue]
                refine .held he' hN hts (hfs ▸ hfl) hj ?_
                rw [hvs', hc.journalHead, hc.appended]
                exact hp
          · -- a flusher in front of it
            obtain ⟨us', vs', g, hq, hus, hvs'', hg⟩ := hc.queue
            have hgw : g (.writer fl io) = .writer fl io := by
              refine (hg _).2 fun h => ?_
              simp only [Task.order, Option.some.injEq] at h
              omega
            have hgvs : vs.map g = vs := by
              refine (List.map_congr_left fun v hv => (hg v).2 fun h => ?_).trans (List.map_id vs)
              have := hafter _ (List.mem_filterMap.2 ⟨v, hv, h⟩)
              omega
            have hts : σ'.tasks = (us' ++ us.map g) ++ .writer fl io :: (vs ++ vs') := by
              rw [htasks', hq, hqueue]
              simp [hgw, hgvs]
            refine .held he' hN hts (t := t) ?_ hj ?_
            · rw [hc.flushers fl (Ne.symm hk)]
              exact hfl
            · have hplain : vs'.flatMap (Task.entries σ'.flushers) = [] :=
                flatMap_eq_nil_of_plain hvs'' fun t h => entries_of_order h _
              rw [List.flatMap_append, hplain, List.append_nil, hvs', hc.journalHead, hc.appended]
              exact hp

/-- **A marked entry on its way.** -/
theorem Awaits.step (h : σ.Awaits p N j) (hσ : σ.Sound total) (hσ' : σ'.Sound total)
    (hm : σ.Moves σ') (hmark : j.flush = true) (hN : N ≤ σ.nextFlusher) : σ'.Awaits p N j := by
  have lost : σ.log.written.length + σ.requested.length ≤ p → σ'.sup.error = true →
      σ'.Awaits p N j := fun hp he => .lost he ((reach_moves hσ hm he).trans hp)
  cases h with
  | written hp => exact .written (hp.trans_le (written_moves hm))
  | record hN ht hfl hb hp => exact step_record hσ hm hN ht hfl hb hp
  | lost he hp =>
      refine lost hp ?_
      by_contra hne
      rw [error_moves hm (by simpa using hne)] at he
      cases he
  | @held us vs fl io t a c he hfl ht hft hj hp =>
      by_cases he' : σ'.sup.error = true
      · exact lost (reach_held hσ he ht hft hj hp) he'
      · exact step_held hσ hσ' hm hmark (by simpa using he') hfl ht hft hj hp
  | @head a c he hj hp =>
      by_cases he' : σ'.sup.error = true
      · exact lost (reach_head hσ he hj hp) he'
      have he' : σ'.sup.error = false := by simpa using he'
      have apart : σ.Apart σ' → σ'.Awaits p N j := by
        intro ha
        obtain ⟨js, hhead, hap⟩ := ha.head
        refine .head he' (a := a) (c := c ++ js) (by rw [hhead, hj]; simp) ?_
        rw [hap]
        simp only [List.length_append, List.length_map]
        omega
      cases hm with
      | tail ha ho hactive hts => exact apart ha
      | popped ht hn ha ho hnone hts => exact apart ha
      | callback ht hn hc hrun =>
          exact .head he' (by rw [hc.journalHead]; exact hj) (by rw [hc.appended]; exact hp)
      | @queued ondisk hq =>
          -- the flusher that is queued now gets it
          have hne : σ.sup.journalHead ≠ [] := by simp [hj]
          have hts := hq.tasks
          rw [if_pos hne, List.singleton_append] at hts
          refine .held he' hN hts (t := ⟨false, ondisk, σ.sup.unused, σ.sup.journalHead⟩) ?_ hj ?_
          · rw [hq.flushers, flushers_insert, if_pos rfl]
          · have hnil : (((if ondisk then [Task.after σ.nextFlusher false] else []) ++
                [Task.free σ.nextFlusher]).flatMap (Task.entries σ'.flushers)) = [] := by
              split_ifs <;> rfl
            rw [hnil, hq.journalHead, hq.log]
            exact hp

/-! ### The FLUSH in front of the records -/

/-- Task `t` has been issued in a run from `σ` and is not completed yet. -/
inductive Running (σ : Sys) (t : Task) : List Label → Sys → Prop
  | issued {ls : List Label} {τ τ' : Sys} (hr : σ.run ls = some τ) (hs : τ.step .get = some τ')
      (ht : τ'.active = some t) : Running σ t (ls ++ [.get]) τ'
  | still {ls : List Label} {l : Label} {τ τ' : Sys} (h : Running σ t ls τ)
      (hs : τ.step l = some τ') (hl : ∀ err m junk, l ≠ .done err m junk) :
      Running σ t (ls ++ [l]) τ'

/-- Task `t` has been issued in a run from `σ`, and then it has completed without an
error. -/
inductive Succeeded (σ : Sys) (t : Task) : List Label → Sys → Prop
  | done {ls : List Label} {m : Bool} {junk : Buf} {τ τ' : Sys} (h : Running σ t ls τ)
      (hs : τ.step (.done false m junk) = some τ') : Succeeded σ t (ls ++ [.done false m junk]) τ'
  | later {ls : List Label} {l : Label} {τ τ' : Sys} (h : Succeeded σ t ls τ)
      (hs : τ.step l = some τ') : Succeeded σ t (ls ++ [l]) τ'

/-- The super is marked, and flusher `fl` has no record on its way. -/
def Silent (fl : ℕ) (σ : Sys) : Prop :=
  σ.sup.error = true ∧ ∀ req, .writer fl (some req) ∉ σ.tasks

/-- The active task stands in front of the other tasks of the flushers. -/
theorem active_le_orders {u : Task} {n k : ℕ} (hσ : σ.Sound total) (ht : σ.active = some u)
    (hn : u.order = some n) (hk : k ∈ σ.orders) : n ≤ k := by
  obtain ⟨ho, hlt⟩ := orders_of_active hσ.account ht hn
  rw [ho] at hk
  rcases List.mem_cons.1 hk with rfl | hk
  · exact le_rfl
  · exact (hlt k hk).le

/-- **A flusher that has fallen silent** writes no record any more. -/
theorem Silent.step (h : σ.Silent fl) (hσ : σ.Sound total) (hm : σ.Moves σ') : σ'.Silent fl := by
  obtain ⟨he, hno⟩ := h
  have herr : (σ'.sup.error = false → σ.sup.error = false) → σ'.sup.error = true := by
    intro h
    by_contra hne
    rw [h (by simpa using hne)] at he
    cases he
  have hplain : ∀ (ts : List Task) (req : WriteReq), (∀ t ∈ ts, t.order = none) →
      .writer fl (some req) ∉ ts := fun ts req hts hm => by cases hts _ hm
  cases hm with
  | tail ha ho hactive hts =>
      refine ⟨herr ha.error, fun req hm => ?_⟩
      rw [hts] at hm
      exact (List.mem_append.1 hm).elim (hno req) (hplain _ req ho)
  | popped ht hn ha ho hnone hts =>
      refine ⟨herr ha.error, fun req hm => ?_⟩
      rw [hts] at hm
      refine (List.mem_append.1 hm).elim (fun hm => hno req ?_) (hplain _ req ho)
      rw [tasks_of_active ht]
      exact List.mem_cons_of_mem _ hm
  | @queued ondisk hq =>
      refine ⟨hq.error.trans he, fun req hm => ?_⟩
      rw [hq.tasks] at hm
      rcases List.mem_append.1 hm with hm | hm
      · exact hno req hm
      · cases ondisk <;> split_ifs at hm <;> simp at hm
  | @callback u n err m junk ht hn hc hrun =>
      have htasks' : σ'.tasks = σ'.queue := by rw [tasks, hc.active]; rfl
      have hqueue : ∀ req, .writer fl (some req) ∉ σ.queue := fun req hm =>
        hno req (by rw [tasks_of_active ht]; exact List.mem_cons_of_mem _ hm)
      obtain ⟨t, hfl⟩ := flusher_of_active hσ ht hn
      refine ⟨herr hc.error, fun req hm => ?_⟩
      rw [htasks'] at hm
      cases u with
      | writer k io =>
          obtain rfl := Option.some.inj hn
          rw [show (4 * k + 1) / 4 = k by omega] at hfl
          have hout := writerOut_runTask io hfl err m junk
          rw [← hrun] at hout
          cases hout with
          | error _ hq _ => exact hqueue req (hq ▸ hm)
          | finish he' | record he' =>
              rw [he] at he'
              cases he'
      | before k b =>
          obtain rfl := Option.some.inj hn
          rw [show 4 * k / 4 = k by omega] at hfl
          obtain ⟨hout, -⟩ := beforeOut_runTask hfl err m junk (b := b)
          rw [← hrun] at hout
          cases hout with
          | cancel _ hq => exact none_cancelled hσ ht fl req (hq ▸ hm)
          | flush he' | flushed he' =>
              rw [he] at he'
              cases he'
      | after k b =>
          have hout : LateOut σ k σ' := hrun ▸ lateOut_runTask (.inl ⟨b, rfl⟩) err m junk
          exact hqueue req (hout.mem_queue hm)
      | free k =>
          have hout : LateOut σ k σ' := hrun ▸ lateOut_runTask (.inr rfl) err m junk
          exact hqueue req (hout.mem_queue hm)
      | _ => cases hn

/-- The flushers from `N` on, in a run from `σ₀`: one that has met a mark still has its
`before` task in front of the writer, or the FLUSH has succeeded, or it is silent. -/
structure Guarded (σ₀ : Sys) (N : ℕ) (ls : List Label) (σ : Sys) : Prop where
  mark : ∀ fl t, N ≤ fl → σ.flushers[fl]? = some t → t.flushBeforeWrite = true →
    4 * fl ∈ σ.orders ∨ Succeeded σ₀ (.before fl true) ls σ ∨ σ.Silent fl
  running : ∀ fl, N ≤ fl → σ.active = some (.before fl true) → Running σ₀ (.before fl true) ls σ

section Guarded

variable {σ₀ : Sys} {ls : List Label} {l : Label}

theorem Guarded.step_running (h : Guarded σ₀ N ls σ) (hr : σ₀.run ls = some σ)
    (hs : σ.step l = some σ') (hN : N ≤ fl) (ha : σ'.active = some (.before fl true)) :
    Running σ₀ (.before fl true) (ls ++ [l]) σ' := by
  rcases active_step hs with ⟨rfl, -⟩ | ⟨err, m, junk, t, -, -, rfl⟩ | ⟨hl, hsame⟩
  · exact .issued hr hs ha
  · rw [active_runTask] at ha
    cases ha
  · exact .still (h.running fl hN (hsame ▸ ha)) hs hl

/-- The step that completes the active task. -/
theorem done_of_popped {u : Task} (hs : σ.step l = some σ') (ha : σ.active = some u)
    (hnone : σ'.active = none) : ∃ err m junk, l = .done err m junk ∧
      σ' = { σ with active := none }.runTask u err m junk := by
  rcases active_step hs with ⟨-, hn⟩ | ⟨err, m, junk, t, hl, ht, he⟩ | ⟨-, hsame⟩
  · rw [ha] at hn
    cases hn
  · rw [ha] at ht
    obtain rfl := Option.some.inj ht
    exact ⟨err, m, junk, hl, he⟩
  · rw [hsame, ha] at hnone
    cases hnone

/-- The callback of a task of flusher `fl` itself. -/
theorem Guarded.step_own {u : Task} {n : ℕ} {t' : Flusher} (h : Guarded σ₀ N ls σ)
    (hσ : σ.Sound total) (hm : σ.Moves σ') (hs : σ.step l = some σ') (ht : σ.active = some u)
    (hn : u.order = some n) (hc : σ.Callback σ' (n / 4)) (hN : N ≤ n / 4)
    (hfl' : σ'.flushers[n / 4]? = some t') (hmark : t'.flushBeforeWrite = true) :
    4 * (n / 4) ∈ σ'.orders ∨ Succeeded σ₀ (.before (n / 4) true) (ls ++ [l]) σ' ∨
      σ'.Silent (n / 4) := by
  obtain ⟨t, hfl⟩ := flusher_of_active hσ ht hn
  obtain ⟨err, m, junk, hl, hrun⟩ := done_of_popped hs ht hc.active
  have htasks' : σ'.tasks = σ'.queue := by rw [tasks, hc.active]; rfl
  -- behind the `before` task, what was said of a mark is settled
  have old : n % 4 ≠ 0 → t.flushBeforeWrite = true →
      Succeeded σ₀ (.before (n / 4) true) (ls ++ [l]) σ' ∨ σ'.Silent (n / 4) := by
    intro h4 hb
    rcases h.mark (n / 4) t hN hfl hb with ho | hf | hsil
    · have := active_le_orders hσ ht hn ho
      omega
    · exact .inl (hf.later hs)
    · exact .inr (hsil.step hσ hm)
  have late : LateOut σ (n / 4) σ' → n % 4 ≠ 0 →
      Succeeded σ₀ (.before (n / 4) true) (ls ++ [l]) σ' ∨ σ'.Silent (n / 4) := by
    intro hout h4
    obtain ⟨t₀, hfl₀, hb⟩ := hout.mark t' hfl'
    rw [hfl] at hfl₀
    obtain rfl := Option.some.inj hfl₀
    exact old h4 (hb ▸ hmark)
  cases u with
  | writer fl io =>
      obtain rfl := Option.some.inj hn
      rw [show (4 * fl + 1) / 4 = fl by omega] at *
      have hout := writerOut_runTask io hfl err m junk
      rw [← hrun] at hout
      cases hout with
      | error he hq _ =>
          refine .inr (.inr ⟨he, fun req hm => ?_⟩)
          rw [htasks', hq] at hm
          have hsched := hσ.account.sched
          rw [tasks_of_active ht] at hsched
          have := hsched.behind_first (t := .writer fl io) rfl hm
          omega
      | finish _ _ _ hfs _ =>
          rw [hfs, hfl] at hfl'
          obtain rfl := Option.some.inj hfl'
          exact .inr (old (by omega) hmark)
      | @record us req taken f _ _ _ _ _ hq hfs _ _ hnew _ =>
          rw [hfs, flushers_insert, if_pos rfl] at hfl'
          obtain rfl := Option.some.inj hfl'
          rcases hnew hmark with hb | rfl
          · exact .inr (old (by omega) hb)
          · refine .inl ?_
            rw [orders, htasks', hq]
            exact List.mem_cons_self
  | before fl b =>
      obtain rfl := Option.some.inj hn
      rw [show 4 * fl / 4 = fl by omega] at *
      obtain ⟨hout, -⟩ := beforeOut_runTask hfl err m junk (b := b)
      rw [← hrun] at hout
      cases hout with
      | cancel he hq =>
          refine .inr (.inr ⟨he, fun req hm => ?_⟩)
          rw [htasks', hq] at hm
          exact none_cancelled hσ ht fl req hm
      | flush _ hq =>
          refine .inl ?_
          rw [orders, htasks', hq]
          exact List.mem_cons_self
      | flushed _ hb herr =>
          subst hb herr hl
          exact .inr (.inl (.done (h.running fl hN ht) hs))
  | after fl b =>
      obtain rfl := Option.some.inj hn
      refine .inr (late ?_ (by omega))
      rw [show (4 * fl + 2) / 4 = fl by omega]
      exact hrun ▸ lateOut_runTask (.inl ⟨b, rfl⟩) err m junk
  | free fl =>
      obtain rfl := Option.some.inj hn
      refine .inr (late ?_ (by omega))
      rw [show (4 * fl + 3) / 4 = fl by omega]
      exact hrun ▸ lateOut_runTask (.inr rfl) err m junk
  | _ => cases hn

/-- **The FLUSH comes first.** -/
theorem Guarded.step (h : Guarded σ₀ N ls σ) (hσ : σ.Sound total) (hm : σ.Moves σ')
    (hr : σ₀.run ls = some σ) (hs : σ.step l = some σ') : Guarded σ₀ N (ls ++ [l]) σ' := by
  refine ⟨fun fl t' hN hfl' hmark => ?_, fun fl hN ha => h.step_running hr hs hN ha⟩
  have keep : σ.flushers[fl]? = some t' → (4 * fl ∈ σ.orders → 4 * fl ∈ σ'.orders) →
      4 * fl ∈ σ'.orders ∨ Succeeded σ₀ (.before fl true) (ls ++ [l]) σ' ∨ σ'.Silent fl := by
    intro hfl ho
    rcases h.mark fl t' hN hfl hmark with hk | hf | hsil
    · exact .inl (ho hk)
    · exact .inr (.inl (hf.later hs))
    · exact .inr (.inr (hsil.step hσ hm))
  cases hm with
  | tail ha ho hactive hts =>
      refine keep (ha.flushers ▸ hfl') fun hk => ?_
      rw [orders, hts, List.filterMap_append]
      exact List.mem_append_left _ hk
  | popped ht hn ha ho hnone hts =>
      refine keep (ha.flushers ▸ hfl') fun hk => ?_
      rw [orders, tasks_of_active ht, List.filterMap_cons_none hn] at hk
      rw [orders, hts, List.filterMap_append]
      exact List.mem_append_left _ hk
  | queued hq =>
      rw [hq.flushers, flushers_insert] at hfl'
      split_ifs at hfl' with hnew
      · obtain rfl := Option.some.inj hfl'
        cases hmark
      · refine keep hfl' fun hk => ?_
        rw [orders, hq.tasks, List.filterMap_append]
        exact List.mem_append_left _ hk
  | @callback u n err m junk ht hn hc hrun =>
      by_cases hk : fl = n / 4
      · subst hk
        exact h.step_own hσ (.callback ht hn hc hrun) hs ht hn hc hN hfl' hmark
      · refine keep ((hc.flushers fl hk).symm.trans hfl') fun hmem => ?_
        exact hc.mem_orders ht hn hmem (by omega)

/-- The empty run. -/
theorem guarded_start (hσ : σ.Sound total) (ha : σ.active = none) :
    Guarded σ σ.nextFlusher [] σ := by
  refine ⟨fun fl t hN hfl => ?_, fun fl _ h => ?_⟩
  · rw [hσ.extents.fresh fl hN] at hfl
    cases hfl
  · rw [ha] at h
    cases h

theorem run_snoc : σ.run (ls ++ [l]) = some σ' ↔ ∃ τ, σ.run ls = some τ ∧ τ.step l = some σ' := by
  rw [run_append, Option.bind_eq_some_iff]
  refine exists_congr fun τ => and_congr_right fun _ => ?_
  simp [run]

/-- **A run after a mark has been set.** -/
theorem awaits_run (hσ₀ : σ₀.Sound total) (ha : σ₀.active = none) (hmark : j.flush = true)
    (h₀ : σ₀.Awaits p σ₀.nextFlusher j) (hrun : σ₀.run ls = some σ) :
    σ.Sound total ∧ σ.Awaits p σ₀.nextFlusher j ∧ Guarded σ₀ σ₀.nextFlusher ls σ ∧
      σ₀.nextFlusher ≤ σ.nextFlusher ∧ σ₀.log.appended <+: σ.log.appended := by
  induction ls using List.reverseRecOn generalizing σ with
  | nil =>
      obtain rfl := Option.some.inj hrun
      exact ⟨hσ₀, h₀, guarded_start hσ₀ ha, le_rfl, List.prefix_rfl⟩
  | append_singleton ls l ih =>
      obtain ⟨τ, hr, hs⟩ := run_snoc.1 hrun
      obtain ⟨hτ, haw, hg, hN, hap⟩ := ih hr
      obtain ⟨hσ, he⟩ := hτ.step hs
      have hm := moves_effect he
      exact ⟨hσ, haw.step hτ hσ hm hmark hN, hg.step hτ hm hr hs,
        hN.trans (nextFlusher_moves hm), hap.trans (appended_moves hm)⟩

end Guarded

/-! ### Copied data before its mapping -/

/-- A COPY that succeeds appends the BIND of its extent, with a mark. -/
theorem copied_appends (σ : Sys) (id i b src : ℕ) (m : Bool) (junk : Buf) :
    let σ' := { σ with active := none }.runTask (.copy id i b src) false m junk
    σ'.sup.journalHead = σ.sup.journalHead ++ [⟨.bind id i b, true⟩] ∧
      σ'.log.appended = σ.log.appended ++ [.bind id i b] := by
  have hj : (σ.sup.copyEnded id i false).journalHead = σ.sup.journalHead := by
    unfold Super.copyEnded Super.updFile
    split <;> rfl
  refine ⟨congrArg (· ++ [(⟨.bind id i b, true⟩ : JEntry)]) hj, ?_⟩
  exact appended_commit (σ := ioWrite { σ with active := none } _ false junk) hj ⟨.bind id i b, true⟩

/-- Where the BIND is when the COPY has just succeeded. -/
theorem awaits_copied {id i b src : ℕ} {m : Bool} {junk : Buf} (hσ : σ.Sound total)
    (ht : σ.active = some (.copy id i b src)) (hs : σ.step (.done false m junk) = some σ') :
    σ'.Sound total ∧ σ'.active = none ∧
      σ'.Awaits σ.log.appended.length σ'.nextFlusher ⟨.bind id i b, true⟩ ∧
      σ'.log.appended = σ.log.appended ++ [.bind id i b] := by
  obtain ⟨hσ', he⟩ := hσ.step hs
  have hrun := runTask_of_step ht hs
  obtain ⟨hhead, happ⟩ := copied_appends σ id i b src m junk
  rw [← hrun] at hhead happ
  refine ⟨hσ', by rw [hrun, active_runTask], ?_, happ⟩
  by_cases herr : σ'.sup.error = true
  · refine .lost herr ((reach_moves hσ (moves_effect he) herr).trans ?_)
    have := hσ.account.written.length_le
    rwa [List.length_append] at this
  · refine .head (by simpa using herr) hhead ?_
    rw [happ]
    simp

/-- **Copied data is flushed before it is mapped.**  Let a COPY complete without an
error, so that the BIND of its extent gets the place `σ₁.log.appended.length` in the
journal, and let the executor issue, some steps later, the WRITE of a flusher's record
that holds this place.  Then the entry there is the BIND, and in between the `before`
task of the flusher, a FLUSH, was issued and completed without an error.  If instead
that FLUSH fails, or the super is marked when its callback runs, the WRITE behind it
has turned into a NOP and no record of the flusher is ever queued again. -/
theorem copy_flushed_before_bind {discard compact : Bool} {uuid : Uuid} {disk : Buf} :
    (∀ σ₁ id i b src m junk σ₂ ls σ₃ σ₄ fl req,
      (Sys.opened total discard compact uuid disk).Reachable σ₁ →
      σ₁.active = some (.copy id i b src) → σ₁.step (.done false m junk) = some σ₂ →
      σ₂.run ls = some σ₃ → σ₃.step .get = some σ₄ → σ₄.active = some (.writer fl (some req)) →
      σ₄.log.written.length ≤ σ₁.log.appended.length →
      σ₁.log.appended.length < σ₄.log.written.length + req.entries.length →
      (σ₄.log.written ++ req.entries)[σ₁.log.appended.length]? = some (.bind id i b) ∧
        (Task.before fl true).type = .flush ∧ Succeeded σ₂ (.before fl true) ls σ₃) ∧
    ∀ σ fl err m junk σ', (Sys.opened total discard compact uuid disk).Reachable σ →
      σ.active = some (.before fl true) → σ.step (.done err m junk) = some σ' →
      err = true ∨ σ.sup.error = true →
      .writer fl none ∈ σ'.tasks ∧ (Task.writer fl none).type = .nop ∧
        ∀ ls σ'', σ'.run ls = some σ'' → ∀ req, .writer fl (some req) ∉ σ''.tasks := by
  refine ⟨?_, ?_⟩
  · intro σ₁ id i b src m junk σ₂ ls σ₃ σ₄ fl req hr ht hs hrun hget hact hle hlt
    obtain ⟨hσ₂, ha₂, haw₂, happ⟩ := awaits_copied hr.sound ht hs
    obtain ⟨hσ₃, haw, hg, hN, hap⟩ := awaits_run hσ₂ ha₂ rfl haw₂ hrun
    obtain ⟨hσ₄, he⟩ := hσ₃.step hget
    -- the executor takes the task: nothing else changes
    obtain ⟨q, hq₃, hσ₄eq⟩ : ∃ q, σ₃.queue = .writer fl (some req) :: q ∧
        σ₃.active = none ∧ σ₄ = { σ₃ with active := some (.writer fl (some req)), queue := q } := by
      unfold step at hget
      split at hget
      · cases hget
      · simp only at hget
        split at hget
        · rename_i t q hnone hqueue
          obtain rfl := Option.some.inj hget
          obtain rfl := Option.some.inj hact
          exact ⟨q, hqueue, hnone, rfl⟩
        · cases hget
    obtain ⟨hnone, rfl⟩ := hσ₄eq
    have hmem : .writer fl (some req) ∈ σ₃.tasks := by simp [tasks, hnone, hq₃]
    have hreq : σ₃.requested = req.entries ++ q.flatMap Task.requested := by
      rw [requested_of_queue hnone, hq₃, List.flatMap_cons]
      rfl
    have hmapped : (σ₃.log.written ++ req.entries)[σ₁.log.appended.length]? =
        some (.bind id i b) := by
      have h₁ : σ₃.log.written ++ req.entries <+: σ₃.log.appended := by
        refine List.IsPrefix.trans ?_ hσ₃.account.written
        rw [hreq, ← List.append_assoc]
        exact List.prefix_append _ _
      have h₂ : σ₃.log.appended[σ₁.log.appended.length]? = some (.bind id i b) := by
        obtain ⟨es, hes⟩ := hap
        rw [← hes, happ, List.append_assoc, List.getElem?_append_right le_rfl]
        simp
      obtain ⟨es, hes⟩ := h₁
      rw [← hes, List.getElem?_append_left (by rw [List.length_append]; exact hlt)] at h₂
      exact h₂
    refine ⟨hmapped, rfl, ?_⟩
    have hreach : ¬ σ₃.log.written.length + σ₃.requested.length ≤ σ₁.log.appended.length := by
      rw [hreq, List.length_append]
      have : σ₁.log.appended.length < σ₃.log.written.length + req.entries.length := hlt
      omega
    cases haw with
    | written hp => exact absurd hp (Nat.not_lt.2 hle)
    | head he hj hp => exact absurd (reach_head hσ₃ he hj hp) hreach
    | held he _ hts hft hj hp => exact absurd (reach_held hσ₃ he hts hft hj hp) hreach
    | lost he hp => exact absurd hp hreach
    | @record fl' req' t hNfl hmem' hft hmark _ =>
        -- only one record is on its way
        have hsched := hσ₃.account.sched
        have h₁ := hsched.first fl req hmem _ (List.mem_filterMap.2 ⟨_, hmem', rfl⟩)
        have h₂ := hsched.first fl' req' hmem' _ (List.mem_filterMap.2 ⟨_, hmem, rfl⟩)
        obtain rfl : fl' = fl := by omega
        rcases hg.mark fl' t hNfl hft hmark with ho | hf | hsil
        · have hle := active_le_orders hσ₄ rfl (show (Task.writer fl' (some req)).order = some
            (4 * fl' + 1) from rfl) (k := 4 * fl') (by
              have : orders { σ₃ with active := some (.writer fl' (some req)), queue := q } =
                  σ₃.orders := by simp [orders, tasks, hnone, hq₃]
              rw [this]
              exact ho)
          omega
        · exact hf
        · exact absurd hmem (hsil.2 req)
  · intro σ fl err m junk σ' hr ht hs hbad
    have hσ := hr.sound
    have hch := hr.work.1
    have hn : (Task.before fl true).order = some (4 * fl) := rfl
    obtain ⟨t, hfl⟩ := flusher_of_active hσ ht hn
    rw [show 4 * fl / 4 = fl by omega] at hfl
    have hrun := runTask_of_step ht hs
    have htasks' : σ'.tasks = σ'.queue := by
      rw [tasks, hrun, active_runTask]
      rfl
    obtain ⟨hout, -⟩ := beforeOut_runTask hfl err m junk (b := true)
    rw [← hrun] at hout
    cases hout with
    | flush _ _ _ _ _ hb => cases hb
    | flushed he' _ herr =>
        rcases hbad with hb | hb
        · rw [herr] at hb
          cases hb
        · rw [he'] at hb
          cases hb
    | cancel he' hq =>
        have hsil : σ'.Silent fl := ⟨he', fun req hm => none_cancelled hσ ht fl req (by
          rw [htasks', hq] at hm
          exact hm)⟩
        refine ⟨?_, rfl, fun ls σ'' hrun' => ?_⟩
        · -- the writer is still queued
          have hw : 4 * fl + 1 ∈ σ.orders := (hch.before fl (by
            rw [orders, tasks_of_active ht]
            exact List.mem_cons_self)).1
          obtain ⟨u, hu, huo⟩ := List.mem_filterMap.1 hw
          obtain ⟨io, rfl⟩ := order_writer huo
          rw [tasks_of_active ht] at hu
          have hu := (List.mem_cons.1 hu).resolve_left (by simp)
          rw [htasks', hq]
          refine List.mem_map.2 ⟨_, hu, ?_⟩
          simp only [cancelTask, if_true]
        · exact ((hr.steady.step hs).1.run_rule (P := fun τ => τ.Silent fl) hsil hrun'
            fun _ _ hτ _ hm h => h.step hτ.sound hm).2.2

/-- A file is written and forked, and a write to the fork starts a COPY.  The record with its BIND
is written behind a FLUSH; when the FLUSH fails it is not written. -/
theorem copy_flushed_before_bind_forked :
    let ls := forkLabels ++ copyLabels ++
      [.call (.writeHandler forkIo .requeue (some false)) true, .get]
    let ms := .done false true (fun _ => 0) :: settle 4 ++ syncLabels
    let next : Label := .done false true fun _ => 0
    (∃ σ₁ σ₂ σ₃ σ₄ req, small.run ls = some σ₁ ∧ σ₁.active = some (.copy 2 0 9 11) ∧
      σ₁.step next = some σ₂ ∧ σ₂.run (settle 4 ++ syncLabels ++ work 3) = some σ₃ ∧
      σ₃.step .get = some σ₄ ∧ σ₄.active = some (.writer 0 (some req)) ∧
      (σ₄.log.written ++ req.entries)[4]? = some (.bind 2 0 9) ∧
      Succeeded σ₂ (.before 0 true) (settle 4 ++ syncLabels ++ work 3) σ₃) ∧
    ∃ σ σ', small.run (ls ++ ms ++ work 2 ++ [.get]) = some σ ∧ σ.active = some (.before 0 true) ∧
      σ.step (.done true true fun _ => 0) = some σ' ∧ .writer 0 none ∈ σ'.tasks ∧
      ∀ ls' σ'', σ'.run ls' = some σ'' → ∀ req, .writer 0 (some req) ∉ σ''.tasks := by
  intro ls ms next
  constructor
  · obtain ⟨σ₁, h₁, ha₁, happ⟩ := exists_small ls
      (P := fun τ => τ.active.any (·.same (.copy 2 0 9 11)) = true ∧
        τ.log.appended.length = 4) (by decide +kernel)
    obtain ⟨σ₂, h₂, -⟩ := exists_small (ls ++ [next]) (P := fun _ => True) (by decide +kernel)
    obtain ⟨σ₃, h₃, -⟩ := exists_small (ls ++ [next] ++ (settle 4 ++ syncLabels ++ work 3))
      (P := fun _ => True) (by decide +kernel)
    obtain ⟨σ₄, h₄, ha₄, hwritten⟩ := exists_small
      (ls ++ [next] ++ (settle 4 ++ syncLabels ++ work 3) ++ [.get])
      (P := fun τ => (τ.active.bind (Task.writeOf 0)).any (·.entries.length = 5) = true ∧
        τ.log.written.length = 0) (by decide +kernel)
    have hcopy : σ₁.active = some (.copy 2 0 9 11) := active_of_same ha₁
    obtain ⟨req, hreq, hlen⟩ : ∃ req, σ₄.active = some (.writer 0 (some req)) ∧
        req.entries.length = 5 := by
      obtain ⟨req, hreq, hlen⟩ := (Option.any_eq_true _ _).1 ha₄
      obtain ⟨t, ht, hwrite⟩ := Option.bind_eq_some_iff.1 hreq
      exact ⟨req, ht.trans (congrArg some (Task.eq_writer hwrite)), of_decide_eq_true hlen⟩
    have hrun : σ₂.run (settle 4 ++ syncLabels ++ work 3) = some σ₃ := run_rest h₂ h₃
    have hs := run_concat h₁ h₂
    have hget := run_concat h₃ h₄
    obtain ⟨hbind, -, hflush⟩ := copy_flushed_before_bind.1 σ₁ 2 0 9 11 true _ σ₂ _ σ₃ σ₄ 0 req
      (.small h₁) hcopy hs hrun hget hreq (by omega) (by omega)
    rw [happ] at hbind
    exact ⟨σ₁, σ₂, σ₃, σ₄, req, h₁, hcopy, hs, hrun, hget, hreq, hbind, hflush⟩
  · obtain ⟨σ, h, ha⟩ := exists_small (ls ++ ms ++ work 2 ++ [.get])
      (P := fun τ => τ.active.any (·.same (.before 0 true)) = true)
      (by decide +kernel)
    obtain ⟨σ', h', -⟩ := exists_small
      (ls ++ ms ++ work 2 ++ [.get] ++ [.done true true fun _ => 0])
      (P := fun _ => True) (by decide +kernel)
    have hbefore : σ.active = some (.before 0 true) := active_of_same ha
    have hs := run_concat h h'
    obtain ⟨hnop, -, hnone⟩ := copy_flushed_before_bind.2 σ 0 true true _ σ' (.small h) hbefore hs
      (.inl rfl)
    exact ⟨σ, σ', h, hbefore, hs, hnop, hnone⟩

end Sys

end Cyanfs
