/-
# The account of the journal along a run

The callbacks of a flusher keep `Accounted`: a record that is queued takes its
entries from the head of the flusher, a completed one moves them to what is
written, and the section of `cyanfs_super_flusher_start` that takes `journal_head`
gives it to a writer.  `accounted_effect` is the step lemma.
-/

import Cyanfs.Run.Sched

namespace Cyanfs

open Lib Std

namespace Sys

variable {σ σ' : Sys}

/-! ### The callbacks of a flusher -/

section Callback

variable {fl : ℕ} {t : Flusher}

/-- A callback that keeps the heads of the flushers, with the tasks it queues. -/
theorem accounted_head {t₀ : Task} {n : ℕ} (us : List Task) (h : σ.Accounted)
    (ht : σ.active = some t₀) (hn : t₀.order = some n)
    (hreq : t₀.requested = []) (hent : t₀.entries σ.flushers = [])
    (hσ : σ'.active = none) (hq : σ'.queue = us ++ σ.queue)
    (hus : (us.filterMap Task.order).Pairwise (· < ·))
    (hle : ∀ k ∈ us.filterMap Task.order, k ≤ n ∧ k / 4 = n / 4)
    (hreq' : us.flatMap Task.requested = []) (hent' : ∀ fs, us.flatMap (Task.entries fs) = [])
    (hcopy : us.filterMap Task.copy? = [])
    (hfs : ∀ k : ℕ, (σ'.flushers[k]?).map Flusher.head = (σ.flushers[k]?).map Flusher.head)
    (happ : σ'.log.appended = σ.log.appended) (hwr : σ'.log.written = σ.log.written)
    (hjh : σ'.sup.journalHead = σ.sup.journalHead)
    (herr : σ'.sup.error = false → σ.sup.error = false) : σ'.Accounted ∧ σ'.copies = σ.copies := by
  have htasks := tasks_of_active ht
  have hsched := h.sched
  rw [htasks] at hsched
  have htasks' : σ'.tasks = us ++ σ.queue := by simp [tasks, hσ, hq]
  have hc₀ : t₀.copy? = none := by
    cases t₀ <;> first | rfl | cases hn
  refine ⟨⟨?_, fun he => ?_, ?_⟩, ?_⟩
  · rw [htasks']
    refine hsched.head _ hn hus hle fun k _ hk => ?_
    obtain ⟨f, hf⟩ := hk
    have := hfs (k / 4)
    rw [hf] at this
    obtain ⟨f', hf', -⟩ := Option.map_eq_some_iff.1 this
    exact ⟨f', hf'⟩
  · have hall := h.all (herr he)
    rw [inFlight, htasks, List.flatMap_cons, hent, List.nil_append] at hall
    rw [happ, hwr, hjh, hall, inFlight, htasks', List.flatMap_append, hent', List.nil_append,
      flatMap_entries_of_head hfs]
  · have hw := h.written
    rw [requested, htasks, List.flatMap_cons, hreq, List.nil_append] at hw
    rw [happ, hwr, requested, htasks', List.flatMap_append, hreq', List.nil_append]
    exact hw
  · rw [copies, copies, htasks, htasks', List.filterMap_append, hcopy, List.filterMap_cons_none hc₀,
      List.nil_append]

/-- The heads of the flushers when one of them changes something else. -/
theorem head_insert (hfl : σ.flushers[fl]? = some t) {t' : Flusher} (hh : t'.head = t.head) (k : ℕ) :
    ((σ.flushers.insert fl t')[k]?).map Flusher.head = (σ.flushers[k]?).map Flusher.head := by
  rw [flushers_insert]
  split_ifs with hk
  · rw [hk, hfl, Option.map_some, Option.map_some, hh]
  · rfl

/-- A task without entries is off the list. -/
theorem accounted_pop {t₀ : Task} {n : ℕ} (h : σ.Accounted) (ht : σ.active = some t₀)
    (hn : t₀.order = some n) (hreq : t₀.requested = []) (hent : t₀.entries σ.flushers = []) :
    Accounted { σ with active := none } ∧ Sys.copies { σ with active := none } = σ.copies :=
  accounted_head [] h ht hn hreq hent rfl rfl (by simp) (by simp) rfl (fun _ => rfl) rfl
    (fun _ => rfl) rfl rfl rfl id

/-- The WRITE behind a cancelled flush turns into a NOP; the super is marked. -/
theorem accounted_cancelWrite {b : Bool} (h : σ.Accounted) (ht : σ.active = some (.before fl b))
    (hσ : σ'.active = none) (hq : σ'.queue = σ.queue) (hfs : σ'.flushers = σ.flushers)
    (happ : σ'.log.appended = σ.log.appended) (hwr : σ'.log.written = σ.log.written)
    (herr : σ'.sup.error = true) :
    (σ'.cancelWrite fl).Accounted ∧ (σ'.cancelWrite fl).copies = σ.copies := by
  have htasks := tasks_of_active ht
  have hsched := h.sched
  rw [htasks] at hsched
  have hn : (Task.before fl b).order = some (4 * fl) := rfl
  let g := cancelTask fl
  have hg : (σ'.cancelWrite fl).queue = σ.queue.map g := by
    rw [← hq]
    rfl
  have htasks' : (σ'.cancelWrite fl).tasks = σ.queue.map g := by
    have : (σ'.cancelWrite fl).active = none := hσ
    simp [tasks, this, hg]
  have horder : (σ.queue.map g).filterMap Task.order = σ.queue.filterMap Task.order :=
    filterMap_cancelTask fl σ.queue Task.order fun _ _ => rfl
  have hcopy : (σ.queue.map g).filterMap Task.copy? = σ.queue.filterMap Task.copy? :=
    filterMap_cancelTask fl σ.queue Task.copy? fun _ _ => rfl
  -- the only record on its way is that of the flusher itself
  have hnone : ∀ fl' req, .writer fl' (some req) ∉ σ.queue.map g := by
    intro fl' req hm
    obtain ⟨t, ht', hgt⟩ := List.mem_map.1 hm
    cases t with
    | writer k io =>
        simp only [g, cancelTask, Task.writer.injEq] at hgt
        obtain ⟨rfl, hio⟩ := hgt
        split_ifs at hio with hk
        subst hio
        have := hsched.behind_first hn ht'
        omega
    | _ => simp [g, cancelTask] at hgt
  have hreq : (σ.queue.map g).flatMap Task.requested = [] := by
    rw [List.flatMap_eq_nil_iff]
    intro t ht'
    cases t with
    | writer k io =>
        cases io with
        | none => rfl
        | some req => exact absurd ht' (hnone k req)
    | _ => rfl
  obtain ⟨-, hsort, halive, -⟩ := hsched.behind hn
  refine ⟨⟨?_, fun he => ?_, ?_⟩, ?_⟩
  · rw [htasks']
    have : (σ'.cancelWrite fl).flushers = σ.flushers := hfs
    refine ⟨horder ▸ hsort, ?_, fun fl' req hm => absurd hm (hnone fl' req)⟩
    rw [horder, this]
    exact halive
  · have : σ'.sup.error = false := he
    rw [herr] at this
    cases this
  · rw [requested, htasks', hreq, List.append_nil]
    have hw := h.written
    have : (σ'.cancelWrite fl).log = σ'.log := rfl
    rw [this, happ, hwr]
    exact (List.prefix_append _ _).trans hw
  · rw [copies, copies, htasks, htasks', hcopy]
    rfl

theorem accounted_before {flush err m : Bool} {junk : Buf} (h : σ.Accounted)
    (ht : σ.active = some (.before fl flush)) :
    ({ σ with active := none }.runTask (.before fl flush) err m junk).Accounted ∧
    ({ σ with active := none }.runTask (.before fl flush) err m junk).copies = σ.copies := by
  have hpop := accounted_pop h ht rfl rfl rfl
  simp only [runTask]
  split
  · exact hpop
  rename_i t hfl
  cases flush with
  | true =>
      simp only [if_true]
      have hflush := tail_ioFlush { σ with active := none } err
      have hpop' : (ioFlush { σ with active := none } err).Accounted ∧
          (ioFlush { σ with active := none } err).copies = σ.copies :=
        ⟨hpop.1.tail hflush, hflush.copies.trans hpop.2⟩
      unfold flusherBeforeWriteFlushDone
      simp only
      split_ifs with he hc hc
      · refine accounted_cancelWrite h ht ?_ ?_ ?_ ?_ ?_ rfl
        · exact hflush.active
        · obtain ⟨ts, hq, -⟩ := hflush.queue
          simp only [ioFlush, he, if_true]
        · exact hflush.flushers
        · exact hflush.appended
        · exact hflush.written
      · exact absurd rfl hc
      · refine accounted_cancelWrite h ht hflush.active ?_ hflush.flushers hflush.appended
          hflush.written hc
        simp [ioFlush, he]
      · exact hpop'
  | false =>
      simp only [Bool.false_eq_true, if_false]
      unfold flusherBeforeWriteFlush
      split_ifs with hc
      · exact accounted_cancelWrite h ht rfl rfl rfl rfl rfl hc
      · refine accounted_head [.before fl true] h ht rfl rfl rfl rfl rfl (by simp [Task.order])
          (by simp [Task.order]) rfl (fun _ => rfl) rfl ?_ rfl rfl ?_ ?_
        · exact head_insert (σ := { σ with active := none }) hfl rfl
        · exact congrArg id (show (σ.sup.handOver t.unused).1.journalHead = _ by
            unfold Super.handOver; split_ifs <;> rfl)
        · intro he
          have : (σ.sup.handOver t.unused).1.error = σ.sup.error := by
            unfold Super.handOver
            split_ifs <;> rfl
          exact this ▸ he

theorem accounted_after {flush err m : Bool} {junk : Buf} (h : σ.Accounted)
    (ht : σ.active = some (.after fl flush)) :
    ({ σ with active := none }.runTask (.after fl flush) err m junk).Accounted ∧
    ({ σ with active := none }.runTask (.after fl flush) err m junk).copies = σ.copies := by
  have hpop := accounted_pop h ht rfl rfl rfl
  simp only [runTask]
  split
  · exact hpop
  rename_i t hfl
  cases flush with
  | true =>
      simp only [if_true]
      have htail := (tail_ioFlush { σ with active := none } err).trans
        (tail_flusherAfterFlush (ioFlush { σ with active := none } err) err)
      exact ⟨hpop.1.tail htail, htail.copies.trans hpop.2⟩
  | false =>
      simp only [Bool.false_eq_true, if_false]
      unfold flusherBeforeFlush
      split_ifs with hc
      · exact hpop
      · have hsup : (σ.sup.handOver t.unused).1.journalHead = σ.sup.journalHead ∧
            (σ.sup.handOver t.unused).1.error = σ.sup.error := by
          unfold Super.handOver
          split_ifs <;> exact ⟨rfl, rfl⟩
        refine accounted_head [.after fl true] h ht rfl rfl rfl rfl rfl (by simp [Task.order])
          (by simp [Task.order]) rfl (fun _ => rfl) rfl ?_ rfl rfl hsup.1 fun he => hsup.2 ▸ he
        exact head_insert (σ := { σ with active := none }) hfl rfl

theorem accounted_free {err m : Bool} {junk : Buf} (h : σ.Accounted)
    (ht : σ.active = some (.free fl)) :
    ({ σ with active := none }.runTask (.free fl) err m junk).Accounted ∧
    ({ σ with active := none }.runTask (.free fl) err m junk).copies = σ.copies := by
  have hpop := accounted_pop h ht rfl rfl rfl
  simp only [runTask]
  split
  · exact hpop
  rename_i t hfl
  have htasks := tasks_of_active ht
  have hsched := h.sched
  rw [htasks] at hsched
  have hn : (Task.free fl).order = some (4 * fl + 3) := rfl
  obtain ⟨hlt, -, -, -⟩ := hsched.behind hn
  -- no task of the flusher is left
  have hne : ∀ k ∈ σ.queue.filterMap Task.order, k / 4 ≠ fl := by
    intro k hk
    have := hlt k hk
    omega
  have key : ∀ s : Super, s.journalHead = σ.sup.journalHead → s.error = σ.sup.error →
      Accounted { σ with active := none, flushers := σ.flushers.erase fl, sup := s } ∧
      Sys.copies { σ with active := none, flushers := σ.flushers.erase fl, sup := s } = σ.copies := by
    intro s hj he
    refine ⟨⟨?_, fun herr => ?_, ?_⟩, hpop.2⟩
    · refine hsched.head [] hn (by simp) (by simp) fun k hk hex => ?_
      rw [flushers_erase, if_neg (hne k hk)]
      exact hex
    · have hall := hpop.1.all (he ▸ herr)
      rw [inFlight] at hall ⊢
      have hcongr := flatMap_entries_congr σ.flushers (σ.flushers.erase fl) hlt (by omega)
        fun k hk => by rw [flushers_erase, if_neg (by omega)]
      change _ = _ ++ (σ.queue.flatMap (Task.entries (σ.flushers.erase fl)) ++ _)
      rw [hcongr, hj]
      exact hall
    · exact hpop.1.written
  unfold flusherFree
  simp only
  split_ifs
  · exact key σ.sup rfl rfl
  · exact key _ rfl rfl

/-- The writer callback of flusher `fl`, once the WRITE before it is settled:
`τ` is the state with the WRITE's effect. -/
theorem accounted_encode {τ : Sys} {io : Option WriteReq} {err : Bool} (h : σ.Accounted)
    (ht : σ.active = some (.writer fl io)) (hactive : τ.active = none) (hqueue : τ.queue = σ.queue)
    (hfs : τ.flushers = σ.flushers)
    (hpre : τ.log.written <+: τ.log.appended)
    (hall : err = false → τ.sup.error = false → τ.log.appended = τ.log.written ++
      (t.head.map (·.entry) ++ σ.queue.flatMap (Task.entries σ.flushers) ++
        τ.sup.journalHead.map (·.entry))) :
    (τ.flusherEncode fl t err).Accounted ∧ (τ.flusherEncode fl t err).copies = σ.copies := by
  have htasks := tasks_of_active ht
  have hsched := h.sched
  rw [htasks] at hsched
  have hn : (Task.writer fl io).order = some (4 * fl + 1) := rfl
  obtain ⟨hlt, -, -, -⟩ := hsched.behind hn
  have hreq := hsched.requested_nil hn (by omega)
  have hcopy : σ.copies = σ.queue.filterMap Task.copy? := by
    rw [copies, htasks]
    rfl
  have hcongr : ∀ t' : Flusher, σ.queue.flatMap (Task.entries (τ.flushers.insert fl t')) =
      σ.queue.flatMap (Task.entries σ.flushers) := by
    intro t'
    refine flatMap_entries_congr _ _ hlt (by omega) fun k hk => ?_
    rw [flushers_insert, if_neg (by omega), hfs]
  have halive : ∀ (t' : Flusher) (k : ℕ), (∃ f, σ.flushers[k / 4]? = some f) →
      ∃ f, (τ.flushers.insert fl t')[k / 4]? = some f := by
    intro t' k hk
    rw [flushers_insert, hfs]
    split_ifs
    · exact ⟨t', rfl⟩
    · exact hk
  have hcases := writerEncode_cases τ.sup τ.sup.cursor t.head none err
  unfold flusherEncode
  split
  · -- the writer gives up: the super is marked
    rename_i s hs
    refine ⟨⟨?_, fun he => ?_, ?_⟩, ?_⟩
    · have : Sys.tasks (flusherWriteError { τ with sup := s } fl t) = [] ++ σ.queue := by
        simp [flusherWriteError, tasks, hactive, hqueue]
      rw [this]
      exact hsched.head _ hn (by simp) (by simp) fun k _ => halive _ k
    · simp [flusherWriteError, Super.markError] at he
    · have : Sys.tasks (flusherWriteError { τ with sup := s } fl t) = σ.queue := by
        simp [flusherWriteError, tasks, hactive, hqueue]
      rw [requested, this, hreq, List.append_nil]
      exact hpre
    · have : Sys.tasks (flusherWriteError { τ with sup := s } fl t) = σ.queue := by
        simp [flusherWriteError, tasks, hactive, hqueue]
      rw [hcopy, copies, this]
  · -- the head is written
    rename_i hs
    obtain ⟨he, -, hh⟩ := hcases.1 hs
    have htau : τ.tasks = σ.queue := by simp [tasks, hactive, hqueue]
    have hacc : τ.Accounted := by
      refine ⟨?_, fun hne => ?_, ?_⟩
      · rw [htau, hfs]
        exact hsched.head [] hn (by simp) (by simp) fun k _ hk => hk
      · rw [hall he hne, inFlight, htau, hfs, hh]
        simp
      · rw [requested, htau, hreq, List.append_nil]
        exact hpre
    have htail := tail_flusherWriteFinish τ t
    refine ⟨hacc.tail htail, ?_⟩
    rw [htail.copies, hcopy, copies, htau]
  · -- a record is queued
    rename_i s c req flush rest hs
    obtain ⟨he, hne, hh⟩ := hcases.2 s c req flush rest hs
    have hframe := writerEncode_frame.2 s c req flush rest hs
    have hall' := hall he hne
    rw [hh] at hall'
    have key : ∀ (us : List Task) (t' : Flusher) (τ' : Sys), t'.head = rest →
        (us = [] ∨ us = [.before fl false]) → τ'.active = none →
        τ'.queue = us ++ (.writer fl (some req) :: σ.queue) →
        τ'.flushers = τ.flushers.insert fl t' → τ'.log.appended = τ.log.appended →
        τ'.log.written = τ.log.written → τ'.sup.journalHead = τ.sup.journalHead →
        τ'.Accounted ∧ τ'.copies = σ.copies := by
      intro us t' τ' ht' hus ha hq hf hap hwr hj
      have htau : τ'.tasks = (us ++ [.writer fl (some req)]) ++ σ.queue := by
        simp [tasks, ha, hq]
      have horder : us.filterMap Task.order = [] ∨ us.filterMap Task.order = [4 * fl] := by
        rcases hus with rfl | rfl
        · exact .inl rfl
        · exact .inr rfl
      have hnil : us.flatMap Task.requested = [] ∧ us.filterMap Task.copy? = [] ∧
          us.flatMap (Task.entries (τ.flushers.insert fl t')) = [] := by
        rcases hus with rfl | rfl <;> exact ⟨rfl, rfl, rfl⟩
      refine ⟨⟨?_, fun _ => ?_, ?_⟩, ?_⟩
      · rw [htau, hf]
        refine hsched.head _ hn ?_ ?_ fun k _ => halive t' k
        · rw [List.filterMap_append]
          rcases horder with ho | ho <;> simp [ho, Task.order]
        · intro k hk
          rw [List.filterMap_append] at hk
          rcases horder with ho | ho <;> simp [ho, Task.order] at hk <;> omega
      · rw [hap, hwr, hj, hall', inFlight, htau, hf, List.flatMap_append, List.flatMap_append,
          hnil.2.2, hcongr]
        simp [Task.entries, Task.requested, ht']
      · rw [hap, hwr, requested, htau, List.flatMap_append, List.flatMap_append, hnil.1, hreq, hall']
        simp [Task.requested, List.append_assoc]
      · rw [hcopy, copies, htau, List.filterMap_append, List.filterMap_append, hnil.2.1]
        rfl
    simp only
    split_ifs with hb
    · exact key [.before fl false] _ _ rfl (.inr rfl) hactive (by simp [addHead, hqueue]) rfl rfl rfl
        hframe.1
    · exact key [] _ _ rfl (.inl rfl) hactive (by simp [addHead, hqueue]) rfl rfl rfl hframe.1

theorem accounted_writer {io : Option WriteReq} {err m : Bool} {junk : Buf} (h : σ.Accounted)
    (ht : σ.active = some (.writer fl io)) :
    ({ σ with active := none }.runTask (.writer fl io) err m junk).Accounted ∧
    ({ σ with active := none }.runTask (.writer fl io) err m junk).copies = σ.copies := by
  have htasks := tasks_of_active ht
  have halive := h.sched.alive (4 * fl + 1) (by rw [htasks]; exact List.mem_cons_self)
  rw [show (4 * fl + 1) / 4 = fl from by omega] at halive
  obtain ⟨t, hfl⟩ := halive
  have hall := h.all
  have hwr := h.written
  rw [inFlight, htasks, List.flatMap_cons, Task.entries, hfl] at hall
  rw [requested, htasks, List.flatMap_cons] at hwr
  simp only [runTask, hfl]
  cases io with
  | none =>
      refine accounted_encode (τ := { σ with active := none }) h ht rfl rfl rfl ?_ ?_
      · exact (List.prefix_append _ _).trans hwr
      · intro _ he
        rw [hall he]
        simp [Task.requested]
  | some req =>
      cases err with
      | true =>
          refine accounted_encode (τ := ioRecord { σ with active := none } req true junk) h ht rfl rfl
            rfl ?_ (by simp)
          exact (List.prefix_append _ _).trans hwr
      | false =>
          refine accounted_encode (τ := ioRecord { σ with active := none } req false junk) h ht rfl rfl
            rfl ?_ ?_
          · refine List.IsPrefix.trans ?_ hwr
            simp [ioRecord, ioWrite, Task.requested, ← List.append_assoc]
          · intro _ he
            have : ({ σ with active := none }.ioRecord req false junk).log.appended =
                σ.log.appended := rfl
            rw [this, hall he]
            simp [ioRecord, ioWrite, Task.requested]

end Callback

/-- Everything but the flushers' tasks works at the tail. -/
theorem tail_runTask (σ : Sys) {t : Task} (hl : ¬ Loud t) (ho : t.order = none) (err m : Bool)
    (junk : Buf) : σ.Tail (σ.runTask t err m junk) := by
  cases t with
  | writer | before | after | free => cases ho
  | copy | loadHeader | loadPage => exact absurd trivial hl
  | discard io =>
      cases io with
      | none => exact tail_discardBegin _
      | some r => exact (tail_ioWrite _ _ _ _).trans (tail_discardDone _)
  | compactHeader | compactPage =>
      simp only [runTask]
      split
      · exact .refl _
      · split_ifs
        · exact tail_compactError _
        · exact tail_compactLoaded _ _ _ _
  | compactWriter io =>
      simp only [runTask]
      split
      · exact .refl _
      · cases io with
        | none => exact tail_compactEncode _ _ _
        | some req => exact (tail_ioWrite _ _ _ _).trans (tail_compactEncode _ _ _)
  | compactWriteSuper flush =>
      simp only [runTask]
      split
      · exact .refl _
      · split_ifs
        · exact (tail_ioFlush _ _).trans (tail_compactWriteSuper _ _ _)
        · exact tail_compactWriteSuper _ _ _
  | compactFlushSuper req => exact (tail_ioWrite _ _ _ _).trans (tail_compactFlushSuper _ _)
  | compactFinish =>
      simp only [runTask]
      split
      · exact .refl _
      · exact (tail_ioFlush _ _).trans (tail_compactFinish _ _ _)
  | requeue file => exact .refl _

/-- **A completed task of the executor keeps the account**, and the COPY tasks. -/
theorem accounted_task {t : Task} (err m : Bool) (junk : Buf) (h : σ.Accounted)
    (ht : σ.active = some t) (hl : ¬ Loud t) :
    ({ σ with active := none }.runTask t err m junk).Accounted ∧
    ({ σ with active := none }.runTask t err m junk).copies = σ.copies := by
  cases ho : t.order with
  | none =>
      have htail := tail_runTask { σ with active := none } hl ho err m junk
      refine ⟨(h.drop ht ho).tail htail, htail.copies.trans ?_⟩
      have hc : t.copy? = none := by
        cases t <;> first | rfl | exact (hl trivial).elim
      rw [copies, copies, tasks_of_active ht, List.filterMap_cons_none hc]
      rfl
  | some n =>
      cases t with
      | writer fl io => exact accounted_writer h ht
      | before fl flush => exact accounted_before h ht
      | after fl flush => exact accounted_after h ht
      | free fl => exact accounted_free h ht
      | _ => cases ho

/-! ### The other steps -/

/-- A callback of the mount works at the tail. -/
theorem tail_loaded {l : Loader} {out : LoaderOut} (ho : σ.MountOut l out) :
    Tail { σ with active := none } ({ σ with active := none }.loaded out) := by
  obtain ⟨hj, he⟩ : out.super.journalHead = σ.sup.journalHead ∧ out.super.error = σ.sup.error := by
    refine ho.rule (P := fun X => X.journalHead = σ.sup.journalHead ∧ X.error = σ.sup.error)
      (fun _ _ h => h) (fun X X' e hr h => ?_) ⟨rfl, rfl⟩
    obtain ⟨_, _, _, _, _, _, _, _, _, _, _, hs⟩ := hr.shape
    rw [hs]
    exact h
  cases out with
  | readPage l X =>
      exact ⟨rfl, rfl, rfl, ⟨[.loadPage], rfl, by simp [Task.Plain, Task.order, Task.copy?]⟩, rfl, rfl,
        hj, fun h => he ▸ h⟩
  | finish l X =>
      exact ⟨rfl, rfl, rfl, ⟨[], (List.append_nil _).symm, by simp⟩, rfl, rfl, hj, fun h => he ▸ h⟩
  | error X =>
      exact ⟨rfl, rfl, rfl, ⟨[], (List.append_nil _).symm, by simp⟩, rfl, rfl, hj, fun h => by cases h⟩

theorem appended_commit {s : Super} (hs : s.journalHead = σ.sup.journalHead) (j : JEntry) :
    (σ.commit (s.append j)).log.appended = σ.log.appended ++ [j.entry] := by
  simp [commit, Super.append, hs]

/-- An entry is appended; tasks, flushers and what was written are as before. -/
theorem Accounted.append {j : JEntry} (h : σ.Accounted) (ht : σ'.tasks = σ.tasks)
    (hf : σ'.flushers = σ.flushers) (ha : σ'.log.appended = σ.log.appended ++ [j.entry])
    (hw : σ'.log.written = σ.log.written)
    (hj : σ'.sup.journalHead = σ.sup.journalHead ++ [j])
    (he : σ'.sup.error = σ.sup.error) : σ'.Accounted := by
  refine ⟨by rw [ht, hf]; exact h.sched, fun herr => ?_, ?_⟩
  · rw [ha, hw, inFlight, ht, hf, hj, h.all (he ▸ herr), inFlight]
    simp
  · rw [ha, hw, requested, ht]
    exact h.written.trans (List.prefix_append _ _)

/-- The second section of `cyanfs_super_flusher_start` hands the head of the
journal to a writer. -/
theorem accounted_queueFlusher (h : σ.Accounted)
    (hfresh : ∀ fl, σ.nextFlusher ≤ fl → σ.flushers[fl]? = none) (ondisk : Bool) :
    (σ.queueFlusher ondisk).Accounted ∧ (σ.queueFlusher ondisk).copies = σ.copies := by
  unfold queueFlusher
  simp only
  split
  · exact ⟨h, rfl⟩
  -- the tasks there are belong to earlier flushers
  have hlt : ∀ k ∈ σ.tasks.filterMap Task.order, k / 4 < σ.nextFlusher := by
    intro k hk
    obtain ⟨t, ht⟩ := h.sched.alive k hk
    by_contra hn
    rw [hfresh _ (by omega)] at ht
    cases ht
  set new : List Task := (if σ.sup.journalHead ≠ [] then [.writer σ.nextFlusher none] else []) ++
    ((if ondisk then [.after σ.nextFlusher false] else []) ++ [.free σ.nextFlusher]) with hnew
  set fs := σ.flushers.insert σ.nextFlusher ⟨false, ondisk, σ.sup.unused, σ.sup.journalHead⟩ with hfs
  have horder : (new.filterMap Task.order).Pairwise (· < ·) ∧
      ∀ k ∈ new.filterMap Task.order, k / 4 = σ.nextFlusher := by
    rw [hnew]
    split_ifs <;> simp [Task.order] <;> omega
  have hnone : new.flatMap Task.requested = [] ∧ new.filterMap Task.copy? = [] := by
    rw [hnew]
    split_ifs <;> exact ⟨rfl, rfl⟩
  have hentries : new.flatMap (Task.entries fs) = σ.sup.journalHead.map (·.entry) := by
    rw [hnew, hfs]
    by_cases hj : σ.sup.journalHead = []
    · cases ondisk <;> simp [hj, Task.entries]
    · cases ondisk <;> simp [hj, Task.entries, Task.requested]
  have hold : σ.tasks.flatMap (Task.entries fs) = σ.inFlight := by
    rw [inFlight, List.flatMap_congr]
    intro t ht
    cases t with
    | writer fl io =>
        have := hlt (4 * fl + 1) (List.mem_filterMap.2 ⟨_, ht, rfl⟩)
        simp only [Task.entries, hfs]
        rw [flushers_insert, if_neg (by omega)]
    | _ => rfl
  have htasks : ∀ sup, Sys.tasks { σ with
      sup := sup
      flushers := fs
      nextFlusher := σ.nextFlusher + 1
      queue := σ.queue ++ new } = σ.tasks ++ new := by
    intro sup
    simp [tasks]
  refine ⟨⟨?_, fun he => ?_, ?_⟩, ?_⟩
  · rw [htasks]
    have ho : (σ.tasks ++ new).filterMap Task.order =
        σ.tasks.filterMap Task.order ++ new.filterMap Task.order := List.filterMap_append
    refine ⟨?_, ?_, ?_⟩
    · rw [ho, List.pairwise_append]
      refine ⟨h.sched.sorted, horder.1, fun a ha b hb => ?_⟩
      have := hlt a ha
      have := horder.2 b hb
      omega
    · intro k hk
      rw [ho] at hk
      change ∃ t, fs[k / 4]? = some t
      rw [hfs, flushers_insert]
      rcases List.mem_append.1 hk with hk | hk
      · have := hlt k hk
        rw [if_neg (by omega)]
        exact h.sched.alive k hk
      · rw [if_pos (horder.2 k hk)]
        exact ⟨_, rfl⟩
    · intro fl req hm k hk
      rw [ho] at hk
      have hfl : .writer fl (some req) ∈ σ.tasks := by
        rcases List.mem_append.1 hm with hm | hm
        · exact hm
        · rw [hnew] at hm
          split_ifs at hm <;> simp at hm
      rcases List.mem_append.1 hk with hk | hk
      · exact h.sched.first fl req hfl k hk
      · have := hlt (4 * fl + 1) (List.mem_filterMap.2 ⟨_, hfl, rfl⟩)
        have := horder.2 k hk
        omega
  · rw [inFlight, htasks, List.flatMap_append]
    change _ = σ.log.written ++ (σ.tasks.flatMap (Task.entries fs) ++ new.flatMap (Task.entries fs) ++ _)
    rw [hold, hentries]
    simpa using h.all he
  · rw [requested, htasks, List.flatMap_append, hnone.1, List.append_nil]
    exact h.written
  · rw [copies, htasks, List.filterMap_append, hnone.2, List.append_nil]
    rfl

/-- **Every step keeps the account**, and it changes the metadata
or neither the metadata nor the COPY tasks. -/
theorem accounted_effect (h : σ.Accounted)
    (hfresh : ∀ fl, σ.nextFlusher ≤ fl → σ.flushers[fl]? = none) (he : σ.Effect σ') :
    σ'.Accounted ∧ (σ.Change σ' ∨
      σ.sup.MetaEq σ'.sup ∧ σ'.log.appended = σ.log.appended ∧ σ'.copies = σ.copies) := by
  have hquiet := he.change_or_quiet
  have still : σ'.copies = σ.copies → (σ.Change σ' ∨
      σ.sup.MetaEq σ'.sup ∧ σ'.log.appended = σ.log.appended ∧ σ'.copies = σ.copies) :=
    fun hc => hquiet.imp_right fun hq => ⟨hq.1, hq.2.1, hc⟩
  have tail : σ.Tail σ' → σ'.Accounted ∧ (σ.Change σ' ∨
      σ.sup.MetaEq σ'.sup ∧ σ'.log.appended = σ.log.appended ∧ σ'.copies = σ.copies) :=
    fun ht => ⟨h.tail ht, still ht.copies⟩
  cases he with
  | change hc =>
      refine ⟨?_, .inl hc⟩
      cases hc with
      | «open» hs hf hg hkeep hchild hopen he => exact h.tail (he ▸ tail_sup rfl id)
      | close hf hcl hopen hg hmode hkeep he => exact h.tail (he ▸ tail_sup rfl id)
      | closeClosed he => exact h.tail (he ▸ tail_sup rfl id)
      | @op j s cs ws ho he =>
          subst he
          have hj := ho.journalHead
          obtain ⟨_, _, _, _, _, _, _, _, _, hshape⟩ := ho.shape
          refine h.append (j := j) rfl rfl (appended_commit hj j) rfl ?_ ?_
          · simp [Super.append, hj]
          · simp [Super.append, hshape]
      | @copyStart f i b src cs ws io hc hid hidx hs hf hmode hi hsize hb hnone he =>
          subst he
          have hsup : (σ.sup.copyPending f b i).journalHead = σ.sup.journalHead ∧
              (σ.sup.copyPending f b i).error = σ.sup.error := by
            rw [Super.copyPending, Super.superToFile_eq hnone, Super.updFile]
            split <;> exact ⟨rfl, rfl⟩
          have htasks : Sys.tasks { σ with
              sup := { σ.sup.copyPending f b i with writers := ws }
              queue := σ.queue ++ [.copy f.id i b src]
              calls := cs } = σ.tasks ++ [.copy f.id i b src] := by simp [tasks]
          have ho : (σ.tasks ++ [Task.copy f.id i b src]).filterMap Task.order =
              σ.tasks.filterMap Task.order := by
            rw [List.filterMap_append]
            exact List.append_nil _
          refine ⟨?_, fun herr => ?_, ?_⟩
          · rw [htasks]
            refine ⟨ho ▸ h.sched.sorted, ho ▸ h.sched.alive, fun fl req hm => ?_⟩
            have hm' : .writer fl (some req) ∈ σ.tasks := by simpa using hm
            exact ho ▸ h.sched.first fl req hm'
          · rw [inFlight, htasks, List.flatMap_append]
            simpa [Task.entries, hsup.1, inFlight] using h.all (hsup.2 ▸ herr)
          · rw [requested, htasks, List.flatMap_append]
            simpa [Task.requested, requested] using h.written
      | @copied id i b src err m junk ht he =>
          subst he
          have hdrop := h.drop ht rfl
          have hsup : (σ.sup.copyEnded id i err).journalHead = σ.sup.journalHead ∧
              (σ.sup.copyEnded id i err).error = σ.sup.error := by
            unfold Super.copyEnded Super.updFile
            split <;> exact ⟨rfl, rfl⟩
          cases err with
          | true => exact hdrop.tail ((tail_ioWrite _ _ _ _).trans (tail_sup hsup.1 fun e => hsup.2 ▸ e))
          | false =>
              refine hdrop.append (j := ⟨.bind id i b, true⟩) rfl rfl ?_ rfl ?_ hsup.2
              · exact appended_commit (σ := ioWrite { σ with active := none } _ false junk) hsup.1 _
              · exact congrArg (· ++ [⟨.bind id i b, true⟩]) hsup.1
      | @mount l out hl ho he =>
          subst he
          have hdrop : Accounted { σ with active := none } := by
            rcases ho.active with ht | ht
            · exact h.drop ht rfl
            · exact h.drop ht rfl
          exact hdrop.tail (tail_loaded ho)
  | threads he => exact tail (he ▸ ⟨rfl, rfl, rfl, ⟨[], by simp, by simp⟩, rfl, rfl, rfl, id⟩)
  | requeue he => exact tail (he ▸ tail_addTail σ ⟨rfl, rfl⟩)
  | @flusher cs ondisk he =>
      have hq := accounted_queueFlusher h hfresh ondisk
      refine ⟨?_, still (by rw [he]; exact hq.2)⟩
      rw [he]
      exact ⟨hq.1.sched, hq.1.all, hq.1.written⟩
  | compactStart hs hw he =>
      exact tail (he ▸ ⟨rfl, rfl, rfl, ⟨[], by simp, by simp⟩, rfl, rfl, rfl, id⟩)
  | compactInit hc he =>
      exact tail (he ▸ ⟨rfl, rfl, rfl,
        ⟨[.compactHeader], rfl, by simp [Task.Plain, Task.order, Task.copy?]⟩, rfl, rfl, rfl, id⟩)
  | compactFail hc he =>
      exact tail (he ▸ ⟨rfl, rfl, rfl, ⟨[], by simp [compactFail], by simp⟩, rfl, rfl, rfl,
        by simp [compactFail]⟩)
  | handlerWrite hc hlen he =>
      exact tail (he ▸ ⟨rfl, rfl, rfl, ⟨[], by simp, by simp⟩, rfl, rfl, rfl, id⟩)
  | @get t q ha hq he =>
      have htasks : σ'.tasks = σ.tasks := by simp [he, tasks, ha, hq]
      refine ⟨⟨by rw [htasks, he]; exact h.sched, fun herr => ?_, ?_⟩, still ?_⟩
      · rw [inFlight, htasks]
        rw [he] at herr ⊢
        exact h.all herr
      · rw [requested, htasks, he]
        exact h.written
      · rw [copies, htasks, copies]
  | @task t err m junk ht hloud he =>
      have hrun := accounted_task err m junk h ht hloud
      rw [← he] at hrun
      exact ⟨hrun.1, still hrun.2⟩
  | noMount hl' ht he =>
      have hrest : Sys.copies { σ with active := none } = σ.copies := by
        rcases ht with ht | ht
        · rw [copies, copies, tasks_of_active ht]
          rfl
        · rw [copies, copies, tasks_of_active ht]
          rfl
      refine ⟨?_, still (by rw [he]; exact hrest)⟩
      rw [he]
      rcases ht with ht | ht
      · exact h.drop ht rfl
      · exact h.drop ht rfl

end Sys

end Cyanfs
