/-
# The flush contract

What `cyanfs_flush` and `cyanfs_super_flush` promise about the entries that were
in the journal when they were called.  A flush first sees to it that these entries
have left `journal_head` (`Past`): it finds the list empty or takes it over.  From
then on they are written, or held by writers of flushers that are queued already
(`Behind`).

So a flush that finds no task at all may submit its I/O at once.  If it queues a
requeue callback instead, the callback runs when the tasks in front of it are gone
(`InLine`), and the writers that came later hold none of the entries.  And a flusher
with an `after` task flushes the disk behind all of them.
-/

import Cyanfs.Run.Moves

namespace Cyanfs

open Lib Std

/-- A requeue callback. -/
def Task.isRequeue : Task → Bool
  | .requeue _ => true
  | _ => false

/-- A task of flusher `N` or of a later one. -/
def Task.since (N : ℕ) (t : Task) : Bool := t.order.any fun n => decide (4 * N ≤ n)

/-- The flusher that a task belongs to. -/
def Task.flusher? (t : Task) : Option ℕ := t.order.map (· / 4)

namespace Sys

variable {σ τ σ' : Sys} {total n N : ℕ}

/-- The type that `cyanfs_flush` returns. -/
def flushMap (σ : Sys) : MapType :=
  if σ.queue = [] ∧ σ.active.isNone then .submit else .requeue

/-- A thread that is at `c` in the first state is at `d` in the second: it takes
sections of its call, and anything else may happen in between.  Another thread may
be at the same point. -/
inductive Thread : Sys → Call → Sys → Call → Prop
  | here {σ : Sys} {c : Call} (hc : c ∈ σ.calls) : Thread σ c σ c
  | other {σ τ τ' : Sys} {c d : Call} {l : Label} (h : Thread σ c τ d) (hs : τ.step l = some τ')
      (hl : ∀ ok, l = .call d ok → 2 ≤ τ.calls.count d) : Thread σ c τ' d
  | own {σ τ τ' : Sys} {c d e : Call} {ok : Bool} (h : Thread σ c τ d)
      (hs : τ.step (.call d ok) = some τ') (he : τ'.calls = e ::ₘ τ.calls.erase d) : Thread σ c τ' e

/-- The executor completes a requeue callback. -/
def Serves (σ σ' : Sys) : Prop := σ.active.any Task.isRequeue = true ∧ σ'.active.isNone = true

instance (σ σ' : Sys) : Decidable (σ.Serves σ') := inferInstanceAs (Decidable (_ ∧ _))

/-- How many requeue callbacks complete in a run. -/
def served (σ : Sys) : List Label → ℕ
  | [] => 0
  | l :: ls =>
      match σ.step l with
      | none => 0
      | some σ' => (if σ.Serves σ' then 1 else 0) + served σ' ls

/-- The requeue callbacks that are queued or running. -/
def requeues (σ : Sys) : ℕ := σ.tasks.countP Task.isRequeue

/-- The entries that the writers of flusher `N` and of later ones hold. -/
def heldSince (σ : Sys) (N : ℕ) : List Entry :=
  (σ.tasks.filter (Task.since N)).flatMap (Task.entries σ.flushers)

/-- The first `n` entries have left `journal_head`. -/
def Past (n : ℕ) (σ : Sys) : Prop :=
  σ.sup.error = true ∨ n + σ.sup.journalHead.length ≤ σ.log.appended.length

/-- The first `n` entries are written, or flushers before `N` hold them. -/
def Behind (n N : ℕ) (σ : Sys) : Prop := σ.sup.error = true ∨
  n + (σ.heldSince N).length + σ.sup.journalHead.length ≤ σ.log.appended.length

/-! ### Where the entries are -/

theorem since_of_order {t : Task} {k : ℕ} (h : t.order = some k) :
    t.since N = true ↔ 4 * N ≤ k := by
  simp [Task.since, h]

theorem since_of_none {t : Task} (h : t.order = none) : t.since N = false := by
  simp [Task.since, h]

theorem filter_since_of_none {ts : List Task} (h : ∀ t ∈ ts, t.order = none) :
    ts.filter (Task.since N) = [] := by
  rw [List.filter_eq_nil_iff]
  intro t ht
  simp [since_of_none (h t ht)]

theorem orders_lt_next (hσ : σ.Sound total) {k : ℕ} (hk : k ∈ σ.orders) : k < 4 * σ.nextFlusher := by
  obtain ⟨t, ht⟩ := hσ.account.sched.alive k hk
  by_contra hle
  rw [hσ.extents.fresh (k / 4) (by omega)] at ht
  cases ht

/-- Nothing is held by flushers that are not queued yet. -/
theorem heldSince_next (hσ : σ.Sound total) : σ.heldSince σ.nextFlusher = [] := by
  have : σ.tasks.filter (Task.since σ.nextFlusher) = [] := by
    rw [List.filter_eq_nil_iff]
    intro t ht hs
    cases ho : t.order with
    | none => simp [since_of_none ho] at hs
    | some k =>
        have hk := orders_lt_next hσ (List.mem_filterMap.2 ⟨t, ht, ho⟩)
        have := (since_of_order ho).1 hs
        omega
  rw [heldSince, this, List.flatMap_nil]

theorem Past.behind (h : σ.Past n) (hσ : σ.Sound total) : σ.Behind n σ.nextFlusher := by
  refine h.imp id fun h => ?_
  rw [heldSince_next hσ]
  exact h

/-- The writers of the earlier flushers are done. -/
theorem heldSince_eq {ts : List Task} {fs : ExtTreeMap ℕ Flusher}
    (h : ∀ fl io, .writer fl io ∈ ts → N ≤ fl) :
    (ts.filter (Task.since N)).flatMap (Task.entries fs) = ts.flatMap (Task.entries fs) := by
  induction ts with
  | nil => rfl
  | cons t ts ih =>
      rw [List.flatMap_cons, ← ih fun fl io hm => h fl io (List.mem_cons_of_mem _ hm)]
      by_cases hs : t.since N = true
      · rw [List.filter_cons_of_pos hs, List.flatMap_cons]
      · rw [List.filter_cons_of_neg hs]
        cases t with
        | writer fl io =>
            refine absurd ((since_of_order rfl).2 ?_) hs
            have := h fl io List.mem_cons_self
            omega
        | _ => rfl

/-- **Once no earlier writer is left**, the entries are written. -/
theorem Behind.written (h : σ.Behind n N) (hσ : σ.Sound total)
    (hw : ∀ fl io, .writer fl io ∈ σ.tasks → N ≤ fl) :
    σ.sup.error = true ∨ n ≤ σ.log.written.length := by
  by_cases herr : σ.sup.error = true
  · exact .inl herr
  · refine .inr ?_
    have hall := congrArg List.length (hσ.account.all (by simpa using herr))
    have h := h.resolve_left herr
    rw [heldSince, heldSince_eq hw] at h
    simp only [List.length_append, List.length_map, inFlight] at hall
    omega

theorem Past.step (h : σ.Past n) (hm : σ.Moves σ') : σ'.Past n := by
  have apart : σ.Apart σ' → σ'.Past n := by
    intro ha
    obtain ⟨js, hj, hap⟩ := ha.head
    by_cases herr : σ'.sup.error = true
    · exact .inl herr
    · rcases h with h | h
      · exact absurd (ha.error (by simpa using herr)) (by simp [h])
      · refine .inr ?_
        rw [hj, hap]
        simp only [List.length_append, List.length_map]
        omega
  cases hm with
  | tail ha ho hactive hts => exact apart ha
  | popped ht hn ha ho hnone hts => exact apart ha
  | queued hq =>
      refine h.imp (fun h => hq.error.trans h) fun h => ?_
      rw [hq.journalHead, hq.log, List.length_nil]
      omega
  | callback ht hn hc he =>
      by_cases herr : σ'.sup.error = true
      · exact .inl herr
      · rcases h with h | h
        · exact absurd (hc.error (by simpa using herr)) (by simp [h])
        · exact .inr (by rw [hc.journalHead, hc.appended]; exact h)

/-- A callback of an earlier flusher leaves alone what the later ones hold. -/
theorem heldSince_callback {t : Task} {k : ℕ} (hc : σ.Callback σ' k) (ht : σ.active = some t)
    (hk : k < N) (ho : ∃ m, t.order = some m ∧ m / 4 = k) : σ'.heldSince N = σ.heldSince N := by
  obtain ⟨us, vs, g, hq, hus, hvs, hg⟩ := hc.queue
  have early : ∀ u : Task, (∃ m, u.order = some m ∧ m / 4 = k) → ¬ u.since N = true := by
    rintro u ⟨m, hm, hmk⟩ hs
    have := (since_of_order hm).1 hs
    omega
  have hkeep : ∀ q : List Task, (q.map g).filter (Task.since N) = q.filter (Task.since N) := by
    intro q
    induction q with
    | nil => rfl
    | cons u q ih =>
        have hsince : (g u).since N = u.since N := by rw [Task.since, (hg u).1, Task.since]
        by_cases hs : u.since N = true
        · have hgu : g u = u := by
            refine (hg u).2 fun hu => ?_
            have := (since_of_order hu).1 hs
            omega
          rw [List.map_cons, List.filter_cons_of_pos (hsince.trans hs), List.filter_cons_of_pos hs,
            ih, hgu]
        · rw [List.map_cons, List.filter_cons_of_neg (by rw [hsince]; exact hs),
            List.filter_cons_of_neg hs, ih]
  have htasks : σ'.tasks.filter (Task.since N) = σ.tasks.filter (Task.since N) := by
    have hus' : us.filter (Task.since N) = [] :=
      List.filter_eq_nil_iff.2 fun u hu => early u (hus u hu)
    rw [tasks_of_active ht, List.filter_cons_of_neg (early t ho), tasks, hc.active, hq]
    simp [List.filter_append, hus', hkeep, filter_since_of_none fun u hu => (hvs u hu).1]
  rw [heldSince, htasks, heldSince]
  refine List.flatMap_congr fun u hu => ?_
  cases u with
  | writer fl io =>
      have := (since_of_order rfl).1 (List.mem_filter.1 hu).2
      simp only [Task.entries]
      rw [hc.flushers fl (by omega)]
  | _ => rfl

/-- A flusher that is queued leaves the entries of the earlier ones alone. -/
theorem Queued.entries_eq {ondisk : Bool} {u : Task} (hq : σ.Queued σ' ondisk) (hσ : σ.Sound total)
    (hu : u ∈ σ.tasks) : u.entries σ'.flushers = u.entries σ.flushers := by
  cases u with
  | writer fl io =>
      have hlt := orders_lt_next hσ (List.mem_filterMap.2 ⟨_, hu, rfl⟩)
      simp only [Task.entries]
      rw [hq.flushers, flushers_insert, if_neg (by omega)]
  | _ => rfl

/-- Its own tasks hold what `journal_head` held. -/
theorem Queued.entries_new {ondisk : Bool} (hq : σ.Queued σ' ondisk) :
    ((if σ.sup.journalHead ≠ [] then [Task.writer σ.nextFlusher none] else []) ++
      ((if ondisk then [Task.after σ.nextFlusher false] else []) ++
        [Task.free σ.nextFlusher])).flatMap (Task.entries σ'.flushers) =
      σ.sup.journalHead.map (·.entry) := by
  have hw : (Task.writer σ.nextFlusher none).entries σ'.flushers =
      σ.sup.journalHead.map (·.entry) := by
    simp [Task.entries, Task.requested, hq.flushers]
  have ha : (Task.after σ.nextFlusher false).entries σ'.flushers = [] := rfl
  have hf : (Task.free σ.nextFlusher).entries σ'.flushers = [] := rfl
  by_cases hj : σ.sup.journalHead = []
  · cases ondisk <;> simp [hj, ha, hf]
  · cases ondisk <;> simp [hj, hw, ha, hf]

/-- The flusher that is queued now takes what `journal_head` holds. -/
theorem heldSince_queued {ondisk : Bool} (hσ : σ.Sound total) (hq : σ.Queued σ' ondisk)
    (hN : N ≤ σ.nextFlusher) : (σ'.heldSince N).length =
      (σ.heldSince N).length + σ.sup.journalHead.length := by
  have hold : (σ.tasks.filter (Task.since N)).flatMap (Task.entries σ'.flushers) = σ.heldSince N :=
    List.flatMap_congr fun u hu => hq.entries_eq hσ (List.mem_filter.1 hu).1
  have hsince : ∀ u ∈ (if σ.sup.journalHead ≠ [] then [Task.writer σ.nextFlusher none] else []) ++
      ((if ondisk then [Task.after σ.nextFlusher false] else []) ++ [Task.free σ.nextFlusher]),
      u.since N = true := by
    intro u hu
    have hcases : u = .writer σ.nextFlusher none ∨ u = .after σ.nextFlusher false ∨
        u = .free σ.nextFlusher := by
      split_ifs at hu <;> simp at hu <;> tauto
    rcases hcases with rfl | rfl | rfl <;> exact (since_of_order rfl).2 (by omega)
  rw [heldSince, hq.tasks, List.filter_append, List.flatMap_append, hold,
    List.filter_eq_self.2 hsince, hq.entries_new, List.length_append, List.length_map]

theorem length_heldSince_le (σ : Sys) (N : ℕ) : (σ.heldSince N).length ≤ σ.inFlight.length := by
  have h : ∀ ts : List Task, ((ts.filter (Task.since N)).flatMap (Task.entries σ.flushers)).length ≤
      (ts.flatMap (Task.entries σ.flushers)).length := by
    intro ts
    induction ts with
    | nil => exact le_rfl
    | cons t ts ih =>
        by_cases hs : t.since N = true
        · rw [List.filter_cons_of_pos hs, List.flatMap_cons, List.flatMap_cons, List.length_append,
            List.length_append]
          omega
        · rw [List.filter_cons_of_neg hs, List.flatMap_cons, List.length_append]
          omega
  exact h σ.tasks

/-- **Entries that the earlier flushers hold stay there until they are written.** -/
theorem Behind.step (h : σ.Behind n N) (hσ : σ.Sound total) (hσ' : σ'.Sound total)
    (hN : N ≤ σ.nextFlusher) (hm : σ.Moves σ') : σ'.Behind n N ∧ N ≤ σ'.nextFlusher := by
  refine ⟨?_, hN.trans (nextFlusher_moves hm)⟩
  by_cases herr : σ'.sup.error = true
  · exact .inl herr
  have herr : σ'.sup.error = false := by simpa using herr
  have hold : σ.sup.error = false →
      n + (σ.heldSince N).length + σ.sup.journalHead.length ≤ σ.log.appended.length :=
    fun he => h.resolve_left (by simp [he])
  -- the later writers hold what they held, and the entries that come go to `journal_head`
  have apart : σ.Apart σ' → σ'.tasks.filter (Task.since N) = σ.tasks.filter (Task.since N) →
      σ'.Behind n N := by
    intro ha hf
    obtain ⟨js, hj, hap⟩ := ha.head
    have h := hold (ha.error herr)
    refine .inr ?_
    rw [heldSince, hf, ha.flushers, hj, hap]
    simp only [List.length_append, List.length_map]
    simp only [heldSince] at h
    omega
  cases hm with
  | tail ha ho hactive hts =>
      refine apart ha ?_
      rw [hts, List.filter_append, filter_since_of_none ho, List.append_nil]
  | popped ht hn ha ho hnone hts =>
      refine apart ha ?_
      rw [hts, List.filter_append, filter_since_of_none ho, List.append_nil, tasks_of_active ht,
        List.filter_cons_of_neg (by simp [since_of_none hn])]
  | queued hq =>
      have h := hold (hq.error ▸ herr)
      refine .inr ?_
      rw [heldSince_queued hσ hq hN, hq.journalHead, hq.log, List.length_nil]
      omega
  | @callback t k err m junk ht hk hc he =>
      have h := hold (hc.error herr)
      refine .inr ?_
      by_cases hlt : k / 4 < N
      · rw [heldSince_callback hc ht hlt ⟨k, hk, rfl⟩, hc.journalHead, hc.appended]
        exact h
      · -- every flusher that is left comes later, so the entries are written already
        have hsched := hσ.account.sched
        rw [tasks_of_active ht] at hsched
        have hlater : ∀ fl io, .writer fl io ∈ σ.tasks → N ≤ fl := by
          intro fl io hm
          have hmem : 4 * fl + 1 ∈ σ.tasks.filterMap Task.order :=
            List.mem_filterMap.2 ⟨_, hm, rfl⟩
          rw [tasks_of_active ht, List.filterMap_cons_some hk] at hmem
          rcases List.mem_cons.1 hmem with heq | hmem
          · omega
          · have := (hsched.behind hk).1 _ hmem
            omega
        have hwr := (Behind.written (.inr h) hσ hlater).resolve_left (by simp [hc.error herr])
        have hall := congrArg List.length (hσ'.account.all herr)
        have hle := length_heldSince_le σ' N
        have hpre := hc.written.length_le
        simp only [List.length_append, List.length_map] at hall
        omega

/-! ### The place of a requeue callback -/

/-- A requeue callback with `r` others in front of it; the tasks behind it are those
of flusher `N` and later ones. -/
def InLine (r N : ℕ) (σ : Sys) : Prop := ∃ (us vs : List Task) (file : ℕ),
  σ.tasks = us ++ .requeue file :: vs ∧ us.countP Task.isRequeue = r ∧
    ∀ t ∈ vs, ∀ k, t.order = some k → 4 * N ≤ k

/-- The callback runs. -/
theorem InLine.front (h : σ.InLine 0 N) {file : ℕ} (ha : σ.active = some (.requeue file)) :
    ∀ k ∈ σ.orders, 4 * N ≤ k := by
  obtain ⟨us, vs, file', htasks, hcount, hvs⟩ := h
  have hus : us = [] := by
    cases us with
    | nil => rfl
    | cons u us =>
        rw [tasks_of_active ha, List.cons_append, List.cons.injEq] at htasks
        rw [← htasks.1] at hcount
        simp [Task.isRequeue] at hcount
  intro k hk
  rw [orders, htasks, hus, List.nil_append] at hk
  obtain ⟨t, ht, hord⟩ := List.mem_filterMap.1 hk
  rcases List.mem_cons.1 ht with rfl | ht
  · cases hord
  · exact hvs t ht k hord

theorem isRequeue_of_order {t : Task} {k : ℕ} (h : t.order = some k) : t.isRequeue = false := by
  cases t <;> first | rfl | cases h

/-- The callback moves up when one in front of it completes, and stays otherwise. -/
theorem InLine.step {r : ℕ} (hm : σ.Moves σ') (hN : N ≤ σ.nextFlusher)
    (h : σ.InLine ((if σ.Serves σ' then 1 else 0) + r) N) : σ'.InLine r N := by
  obtain ⟨us, vs, file, htasks, hcount, hvs⟩ := h
  cases hm with
  | @tail ts ha ho hactive hts =>
      have hserve : ¬ σ.Serves σ' := by
        rintro ⟨h₁, h₂⟩
        have hnone : σ.active = none := by
          rcases hactive with hactive | hactive
          · exact hactive
          · rw [← hactive]
            simpa using h₂
        rw [hnone] at h₁
        cases h₁
      rw [if_neg hserve, zero_add] at hcount
      refine ⟨us, vs ++ ts, file, by rw [hts, htasks]; simp, hcount, fun t ht k hk => ?_⟩
      rcases List.mem_append.1 ht with ht | ht
      · exact hvs t ht k hk
      · rw [ho t ht] at hk
        cases hk
  | @popped t ts ht hn ha ho hnone hts =>
      have hserve : σ.Serves σ' ↔ t.isRequeue = true := by
        simp [Serves, ht, hnone]
      rw [tasks_of_active ht] at htasks
      cases us with
      | nil =>
          -- the callback itself completes, which nothing is claimed about
          rw [List.nil_append, List.cons.injEq] at htasks
          rw [if_pos (hserve.2 (by rw [htasks.1]; rfl)), List.countP_nil] at hcount
          omega
      | cons u us =>
          rw [List.cons_append, List.cons.injEq] at htasks
          obtain ⟨rfl, htasks⟩ := htasks
          refine ⟨us, vs ++ ts, file, by rw [hts, htasks]; simp, ?_, fun t ht k hk => ?_⟩
          · rw [List.countP_cons] at hcount
            simp only [hserve] at hcount
            omega
          · rcases List.mem_append.1 ht with ht | ht
            · exact hvs t ht k hk
            · rw [ho t ht] at hk
              cases hk
  | @queued ondisk hq =>
      have hserve : ¬ σ.Serves σ' := by
        rintro ⟨h₁, h₂⟩
        rw [hq.active] at h₂
        rw [Option.isNone_iff_eq_none.1 h₂] at h₁
        cases h₁
      rw [if_neg hserve, zero_add] at hcount
      have hnew : ∀ t ∈ (if σ.sup.journalHead ≠ [] then [Task.writer σ.nextFlusher none] else []) ++
          ((if ondisk then [Task.after σ.nextFlusher false] else []) ++ [Task.free σ.nextFlusher]),
          ∀ k, t.order = some k → 4 * N ≤ k := by
        intro t ht k hk
        have : t.order = some (4 * σ.nextFlusher + 1) ∨ t.order = some (4 * σ.nextFlusher + 2) ∨
            t.order = some (4 * σ.nextFlusher + 3) := by
          rcases List.mem_append.1 ht with ht | ht
          · split_ifs at ht
            · exact .inl (List.mem_singleton.1 ht ▸ rfl)
            · cases ht
          · rcases List.mem_append.1 ht with ht | ht
            · split_ifs at ht
              · exact .inr (.inl (List.mem_singleton.1 ht ▸ rfl))
              · cases ht
            · exact .inr (.inr (List.mem_singleton.1 ht ▸ rfl))
        simp only [hk, Option.some.injEq] at this
        omega
      refine ⟨us, vs ++ _, file, by rw [hq.tasks, htasks, List.append_assoc, List.cons_append],
        hcount, fun t ht k hk => ?_⟩
      rcases List.mem_append.1 ht with ht | ht
      · exact hvs t ht k hk
      · exact hnew t ht k hk
  | @callback t k err m junk ht hk hc he =>
      have hserve : ¬ σ.Serves σ' := by
        rintro ⟨h₁, -⟩
        rw [ht] at h₁
        simp [isRequeue_of_order hk] at h₁
      rw [if_neg hserve, zero_add] at hcount
      obtain ⟨us', vs', g, hq, hus, hvs', hg⟩ := hc.queue
      rw [tasks_of_active ht] at htasks
      cases us with
      | nil =>
          rw [List.nil_append, List.cons.injEq] at htasks
          rw [htasks.1] at hk
          cases hk
      | cons u us =>
          rw [List.cons_append, List.cons.injEq] at htasks
          obtain ⟨rfl, htasks⟩ := htasks
          have hrequeue : g (.requeue file) = .requeue file := (hg _).2 (by simp [Task.order])
          have hsame : ∀ u, (g u).isRequeue = u.isRequeue := by
            intro u
            cases hu : u.order with
            | none => rw [(hg u).2 (by simp [hu])]
            | some j =>
                rw [isRequeue_of_order hu, isRequeue_of_order ((hg u).1.trans hu)]
          refine ⟨us' ++ us.map g, vs.map g ++ vs', file, ?_, ?_, fun u hu j hj => ?_⟩
          · rw [tasks, hc.active, hq, htasks]
            simp [hrequeue]
          · rw [List.countP_cons, isRequeue_of_order hk] at hcount
            have hzero : us'.countP Task.isRequeue = 0 := by
              rw [List.countP_eq_zero]
              intro u hu
              obtain ⟨j, hj, -⟩ := hus u hu
              simp [isRequeue_of_order hj]
            rw [List.countP_append, hzero, List.countP_map]
            have : (Task.isRequeue ∘ g) = Task.isRequeue := funext hsame
            rw [this]
            simpa using hcount
          · rcases List.mem_append.1 hu with hu | hu
            · obtain ⟨u', hu', rfl⟩ := List.mem_map.1 hu
              exact hvs u' hu' j ((hg u').1.symm.trans hj)
            · rw [(hvs' u hu).1] at hj
              cases hj

/-! ### What was appended and what is durable -/

theorem appended_moves (hm : σ.Moves σ') : σ.log.appended <+: σ'.log.appended := by
  have apart : σ.Apart σ' → σ.log.appended <+: σ'.log.appended := by
    intro ha
    obtain ⟨js, -, hap⟩ := ha.head
    rw [hap]
    exact List.prefix_append _ _
  cases hm with
  | tail ha ho hactive hts => exact apart ha
  | popped ht hn ha ho hnone hts => exact apart ha
  | queued hq => rw [hq.log]
  | callback ht hn hc he => rw [hc.appended]

theorem durable_moves (hm : σ.Moves σ') (h : σ.log.durable ≤ σ.log.written.length) :
    σ'.log.durable ≤ σ'.log.written.length ∧ σ.log.durable ≤ σ'.log.durable := by
  have key : σ.log.written.length ≤ σ'.log.written.length →
      (σ'.log.durable = σ.log.durable ∨ σ'.log.durable = σ.log.written.length) →
      σ'.log.durable ≤ σ'.log.written.length ∧ σ.log.durable ≤ σ'.log.durable := by
    intro hw hd
    omega
  cases hm with
  | tail ha ho hactive hts => exact key (ha.written ▸ le_rfl) ha.durable
  | popped ht hn ha ho hnone hts => exact key (ha.written ▸ le_rfl) ha.durable
  | queued hq =>
      rw [hq.log]
      exact ⟨h, le_rfl⟩
  | callback ht hn hc he => exact key hc.written.length_le hc.durable

/-- A state of a run in which the pieces of the argument are at hand. -/
structure Steady (σ : Sys) (total : ℕ) : Prop where
  sound : σ.Sound total
  chores : σ.Chores
  durable : σ.log.durable ≤ σ.log.written.length

theorem Steady.step {l : Label} (h : σ.Steady total) (hs : σ.step l = some σ') :
    σ'.Steady total ∧ σ.Moves σ' := by
  obtain ⟨hσ', he⟩ := h.sound.step hs
  have hm := moves_effect he
  exact ⟨⟨hσ', chores_effect h.sound h.chores he, (durable_moves hm h.durable).1⟩, hm⟩

theorem Reachable.steady {discard compact : Bool} {uuid : Uuid} {disk : Buf}
    (h : (Sys.opened total discard compact uuid disk).Reachable σ) : σ.Steady total :=
  h.rule (P := fun σ => σ.Steady total) ⟨sound_opened .., chores_opened .., le_rfl⟩
    fun _ _ _ hp hs => (hp.step hs).1

/-- The rule for a run from a state of another run. -/
theorem Steady.run_rule {P : Sys → Prop} {ls : List Label} (h : σ.Steady total) (h₀ : P σ)
    (hrun : σ.run ls = some σ')
    (hstep : ∀ τ τ', τ.Steady total → τ'.Steady total → τ.Moves τ' → P τ → P τ') :
    σ'.Steady total ∧ P σ' := by
  induction ls generalizing σ with
  | nil => exact Option.some.inj hrun ▸ ⟨h, h₀⟩
  | cons l ls ih =>
      obtain ⟨τ, hs, hr⟩ := Option.bind_eq_some_iff.1 hrun
      obtain ⟨hτ, hm⟩ := h.step hs
      exact ih hτ (hstep σ τ h hτ hm h₀) hr

/-! ### The thread of a flush -/

/-- A thread goes on inside a call only if the call does not end. -/
theorem cons_ne_self {e : Call} {cs : Multiset Call} (h : cs = e ::ₘ cs) : False := by
  have := congrArg Multiset.card h
  rw [Multiset.card_cons] at this
  omega

/-- Where a thread gets to from the first section of `cyanfs_super_flusher_start`. -/
theorem flusherStart_goes {c e : Call} {ondisk m : Bool} {file : Option ℕ}
    (he : (σ.flusherStart c 0 ondisk file m).calls = e ::ₘ σ.calls.erase c) :
    ((∃ f, file = some f ∧ e = .flushType f) ∧ σ.sup.journalCount = 0 ∨
      e = .flusherQueue (ondisk || σ.sup.flushFlag) file) ∧
    (σ.flusherStart c 0 ondisk file m).sup = σ.sup ∧
    (σ.flusherStart c 0 ondisk file m).log = σ.log := by
  unfold flusherStart flusherReturn at he ⊢
  simp only at he ⊢
  split_ifs at he ⊢ with h₁ h₂ h₃
  · exact (cons_ne_self he).elim
  · cases file with
    | none => exact (cons_ne_self he).elim
    | some f =>
        exact ⟨.inl ⟨⟨f, rfl, ((Multiset.cons_inj_left _).1 he).symm⟩, by omega⟩, rfl, rfl⟩
  · exact ⟨.inr ((Multiset.cons_inj_left _).1 he).symm, rfl, rfl⟩
  · exact (cons_ne_self he).elim

/-- The second section leaves `journal_head` empty. -/
theorem journalHead_queueFlusher (σ : Sys) (ondisk : Bool) :
    (σ.queueFlusher ondisk).sup.journalHead = [] ∧ (σ.queueFlusher ondisk).log = σ.log := by
  rcases queued_queueFlusher σ ondisk with ⟨h, -, hj⟩ | hq
  · exact ⟨by rw [h, hj], by rw [h]⟩
  · exact ⟨hq.journalHead, hq.log⟩

theorem calls_queueFlusher (σ : Sys) (ondisk : Bool) : (σ.queueFlusher ondisk).calls = σ.calls := by
  unfold queueFlusher
  simp only
  split_ifs <;> rfl

/-- **The way of a `cyanfs_flush`**: when it looks at the queue, the entries of
before have left `journal_head`. -/
theorem Thread.flush {c d : Call} {file : ℕ} (h : Thread σ c τ d) (hσ : σ.Steady total)
    (hc : c = .flusher 0 false (some file)) (hn : n ≤ σ.log.appended.length) :
    τ.Steady total ∧ n ≤ τ.log.appended.length ∧ (d = .flusher 0 false (some file) ∨
      (∃ ondisk, d = .flusherQueue ondisk (some file)) ∨ (d = .flushType file ∧ τ.Past n)) := by
  induction h with
  | here hm => exact ⟨hσ, hn, .inl hc⟩
  | other h hs hl ih =>
      obtain ⟨hτ, hle, hd⟩ := ih hc
      obtain ⟨hτ', hm⟩ := hτ.step hs
      refine ⟨hτ', hle.trans (appended_moves hm).length_le, ?_⟩
      exact hd.imp_right fun hd => hd.imp_right fun hd => ⟨hd.1, hd.2.step hm⟩
  | @own τ τ' c d e ok h hs he ih =>
      obtain ⟨hτ, hle, hd⟩ := ih hc
      obtain ⟨hτ', hm⟩ := hτ.step hs
      have hle' := hle.trans (appended_moves hm).length_le
      refine ⟨hτ', hle', ?_⟩
      have hcall := callStep_of_step hs
      rcases hd with rfl | ⟨ondisk, rfl⟩ | ⟨rfl, -⟩
      · obtain rfl := Option.some.inj hcall
        obtain ⟨hgo, hsup, hlog⟩ := flusherStart_goes he
        rcases hgo with ⟨⟨f, hf, rfl⟩, hcount⟩ | rfl
        · obtain rfl := Option.some.inj hf
          refine .inr (.inr ⟨rfl, .inr ?_⟩)
          rw [hsup, hlog, ← hτ.chores.count, hcount]
          exact hle
        · exact .inr (.inl ⟨_, rfl⟩)
      · obtain rfl := Option.some.inj hcall
        have hcalls : (τ.queueFlusher ondisk).calls = τ.calls := calls_queueFlusher τ ondisk
        have he' : Call.flushType file ::ₘ τ.calls.erase (.flusherQueue ondisk (some file)) =
            e ::ₘ τ.calls.erase (.flusherQueue ondisk (some file)) := by
          rw [← he]
          change _ = Call.flushType file ::ₘ (τ.queueFlusher ondisk).calls.erase _
          rw [hcalls]
        refine .inr (.inr ⟨((Multiset.cons_inj_left _).1 he').symm, .inr ?_⟩)
        have hj : (τ.flusherQueue (.flusherQueue ondisk (some file)) ondisk
            (some file)).sup.journalHead = [] := (journalHead_queueFlusher τ ondisk).1
        rw [hj, List.length_nil]
        exact hle'
      · obtain rfl := Option.some.inj hcall
        exact (cons_ne_self he).elim

theorem Thread.appended {c d : Call} (h : Thread σ c τ d) (hσ : σ.Steady total) :
    τ.Steady total ∧ σ.log.appended <+: τ.log.appended := by
  induction h with
  | here hm => exact ⟨hσ, List.prefix_rfl⟩
  | other h hs hl ih | own h hs he ih =>
      obtain ⟨hτ, hle⟩ := ih
      obtain ⟨hτ', hm⟩ := hτ.step hs
      exact ⟨hτ', hle.trans (appended_moves hm)⟩

/-! ### The flush behind the writers -/

/-- The `after` task of flusher `fl` is still to come, or the first `n` entries are
on stable storage. -/
def Ahead (n fl : ℕ) (σ : Sys) : Prop :=
  σ.sup.error = true ∨ n ≤ σ.log.durable ∨ 4 * fl + 2 ∈ σ.orders

theorem order_after {t : Task} {fl : ℕ} (h : t.order = some (4 * fl + 2)) :
    ∃ flush, t = .after fl flush := by
  cases t with
  | before fl' b | writer fl' io | free fl' =>
      simp only [Task.order, Option.some.injEq] at h
      omega
  | after fl' b =>
      simp only [Task.order, Option.some.injEq] at h
      obtain rfl : fl' = fl := by omega
      exact ⟨b, rfl⟩
  | _ => cases h

/-- The `after` task of flusher `fl` runs: it goes on as a FLUSH, and the FLUSH makes
durable what the flushers up to `fl` have written. -/
theorem ahead_after {fl : ℕ} {flush err m : Bool} {junk : Buf} (hσ : σ.Sound total)
    (hb : σ.Behind n (fl + 1)) (ht : σ.active = some (.after fl flush)) :
    Ahead n fl ({ σ with active := none }.runTask (.after fl flush) err m junk) := by
  have hsched := hσ.account.sched
  rw [tasks_of_active ht] at hsched
  obtain ⟨hlt, -, -, t, hfl⟩ := hsched.behind (t := .after fl flush) rfl
  rw [show (4 * fl + 2) / 4 = fl by omega] at hfl
  have hwr : σ.sup.error = true ∨ n ≤ σ.log.written.length := by
    refine hb.written hσ fun fl' io hm => ?_
    rw [tasks_of_active ht] at hm
    rcases List.mem_cons.1 hm with hm | hm
    · cases hm
    · have := hlt (4 * fl' + 1) (List.mem_filterMap.2 ⟨_, hm, rfl⟩)
      omega
  simp only [runTask, hfl]
  cases flush with
  | false =>
      simp only [Bool.false_eq_true, if_false]
      unfold flusherBeforeFlush
      split_ifs with he
      · exact .inl he
      · exact .inr (.inr (by simp [orders, tasks, addHead, Task.order]))
  | true =>
      simp only [if_true]
      cases err with
      | true => exact .inl rfl
      | false =>
          unfold Ahead
          rw [durable_flusherAfterFlush]
          rcases hwr with he | hle
          · refine .inl ?_
            by_contra hne
            have := (tail_flusherAfterFlush (ioFlush { σ with active := none } false) false).error
              (by simpa using hne)
            exact absurd he (by simpa [ioFlush] using this)
          · exact .inr (.inl hle)

theorem Ahead.step {fl : ℕ} (h : σ.Ahead n fl) (hb : σ.Behind n (fl + 1)) (hσ : σ.Steady total)
    (hm : σ.Moves σ') : σ'.Ahead n fl := by
  by_cases herr : σ'.sup.error = true
  · exact .inl herr
  have herr : σ'.sup.error = false := by simpa using herr
  have hd := (durable_moves hm hσ.durable).2
  have key : σ.sup.error = false → (4 * fl + 2 ∈ σ.orders → 4 * fl + 2 ∈ σ'.orders) →
      σ'.Ahead n fl := by
    intro he hk
    rcases h with h | h | h
    · rw [he] at h
      cases h
    · exact .inr (.inl (h.trans hd))
    · exact .inr (.inr (hk h))
  cases hm with
  | tail ha ho hactive hts =>
      refine key (ha.error herr) fun hk => ?_
      rw [orders, hts, List.filterMap_append]
      exact List.mem_append_left _ hk
  | popped ht hn ha ho hnone hts =>
      refine key (ha.error herr) fun hk => ?_
      rw [orders, hts, List.filterMap_append]
      rw [orders, tasks_of_active ht, List.filterMap_cons_none hn] at hk
      exact List.mem_append_left _ hk
  | queued hq =>
      refine key (hq.error ▸ herr) fun hk => ?_
      rw [orders, hq.tasks, List.filterMap_append]
      exact List.mem_append_left _ hk
  | @callback t k err m junk ht hk hc he =>
      by_cases hown : k = 4 * fl + 2
      · rw [hown] at hk
        obtain ⟨flush, rfl⟩ := order_after hk
        rw [he]
        exact ahead_after hσ.sound hb ht
      · exact key (hc.error herr) fun hmem => hc.mem_orders ht hk hmem fun h => hown h.symm

/-! ### The contract -/

/-- The first entries are written, unless the super is marked. -/
theorem Sound.prefix_written {es : List Entry} (hσ : σ.Sound total) (hes : es <+: σ.log.appended)
    (h : σ.sup.error = true ∨ es.length ≤ σ.log.written.length) :
    σ.sup.error = true ∨ es <+: σ.log.written := by
  refine h.imp id fun hle => ?_
  have hwr : σ.log.written <+: σ.log.appended := (List.prefix_append _ _).trans hσ.account.written
  exact List.prefix_of_prefix_length_le hes hwr hle

/-- A requeue callback that is queued now runs behind the writers of now. -/
theorem requeue_written {ls : List Label} {file f : ℕ} {σ₁ σ₂ : Sys} (hσ : σ.Steady total)
    (h : σ.Past n) (hs : σ.step (.requeue file) = some σ₁) (hrun : σ₁.run ls = some σ₂)
    (hserved : σ₁.served ls + 1 = σ₁.requeues) (ha : σ₂.active = some (.requeue f)) :
    σ₂.sup.error = true ∨ n ≤ σ₂.log.written.length := by
  obtain ⟨hσ₁, hm⟩ := hσ.step hs
  have h₁ : σ₁ = σ.addTail (.requeue file) := by
    unfold step at hs
    split at hs
    · cases hs
    · exact (Option.some.inj hs).symm
  have hnext : σ₁.nextFlusher = σ.nextFlusher := by rw [h₁]; rfl
  have htasks : σ₁.tasks = σ.tasks ++ [.requeue file] := by
    rw [h₁]
    simp [tasks, addTail]
  have hline : σ₁.InLine (σ₁.served ls) σ₁.nextFlusher := by
    refine ⟨σ.tasks, [], file, htasks, ?_, by simp⟩
    rw [requeues, htasks, List.countP_append] at hserved
    simp only [List.countP_singleton, Task.isRequeue, if_true] at hserved
    omega
  have hbehind := (h.step hm).behind hσ₁.sound
  -- along the run: the callback moves up, and the entries stay behind the flushers of now
  generalize hN : σ₁.nextFlusher = N at hline hbehind
  have hle : N ≤ σ₁.nextFlusher := hN.symm.le
  clear hserved htasks hnext h₁ hs hm hN
  induction ls generalizing σ₁ with
  | nil =>
      obtain rfl := Option.some.inj hrun
      refine hbehind.written hσ₁.sound fun fl io hm => ?_
      have := hline.front ha _ (List.mem_filterMap.2 ⟨_, hm, rfl⟩)
      omega
  | cons l ls ih =>
      obtain ⟨τ, hs, hr⟩ := Option.bind_eq_some_iff.1 hrun
      obtain ⟨hτ, hm⟩ := hσ₁.step hs
      rw [served, hs] at hline
      obtain ⟨hb, hN⟩ := hbehind.step hσ₁.sound hτ.sound hle hm
      exact ih hr hτ (InLine.step hm hle hline) hb hN

/-- Behind the FLUSH of a flusher that was queued with `ondisk`, the entries are on
stable storage. -/
theorem superFlush_durable {ls : List Label} {ok : Bool} {σ₁ σ₂ : Sys} (hσ : σ.Steady total)
    (hn : n ≤ σ.log.appended.length) (hs : σ.step (.call (.flusherQueue true none) ok) = some σ₁)
    (hrun : σ₁.run ls = some σ₂) (hdone : ∀ t ∈ σ₂.tasks, t.flusher? ≠ some σ.nextFlusher) :
    σ₂.Steady total ∧ (σ₂.sup.error = true ∨ n ≤ σ₂.log.durable) := by
  obtain ⟨hσ₁, hm⟩ := hσ.step hs
  have h₁ : σ₁ = (σ.queueFlusher true).endCall (.flusherQueue true none) :=
    (Option.some.inj (callStep_of_step hs)).symm
  have hq : σ.Queued (σ.queueFlusher true) true :=
    (queued_queueFlusher σ true).resolve_left fun h => Bool.noConfusion h.2.1
  have hnext : σ₁.nextFlusher = σ.nextFlusher + 1 := by rw [h₁]; exact hq.nextFlusher
  have hpast : σ₁.Past n := by
    refine .inr ?_
    have hj : σ₁.sup.journalHead = [] := by rw [h₁]; exact hq.journalHead
    have hl : σ₁.log = σ.log := by rw [h₁]; exact hq.log
    rw [hj, hl]
    exact hn
  have hahead : σ₁.Ahead n σ.nextFlusher := by
    refine .inr (.inr ?_)
    have ht : σ₁.tasks = (σ.queueFlusher true).tasks := by rw [h₁]; rfl
    rw [orders, ht, hq.tasks]
    simp only [List.filterMap_append, List.mem_append, if_true]
    exact .inr (.inr (.inl List.mem_cons_self))
  have hbehind : σ₁.Behind n (σ.nextFlusher + 1) := hnext ▸ hpast.behind hσ₁.sound
  obtain ⟨hσ₂, -, -, hend⟩ := hσ₁.run_rule
    (P := fun τ => τ.Behind n (σ.nextFlusher + 1) ∧ σ.nextFlusher + 1 ≤ τ.nextFlusher ∧
      τ.Ahead n σ.nextFlusher) ⟨hbehind, hnext.symm.le, hahead⟩ hrun
    fun τ τ' hτ hτ' hm h => by
      obtain ⟨hb, hN⟩ := h.1.step hτ.sound hτ'.sound h.2.1 hm
      exact ⟨hb, hN, h.2.2.step h.1 hτ hm⟩
  refine ⟨hσ₂, ?_⟩
  rcases hend with he | hd | hk
  · exact .inl he
  · exact .inr hd
  · obtain ⟨t, ht, ho⟩ := List.mem_filterMap.1 hk
    refine absurd ?_ (hdone t ht)
    rw [Task.flusher?, ho, Option.map_some]
    congr 1
    omega

/-- **The flush contract.**  Take any reachable state `σ₀` and a thread that calls
`cyanfs_flush` there; it gets to look at the queue in `σ₂`, which is where the call
returns 0.  If the type is SUBMIT, every entry appended before the call has been in a
record whose WRITE completed, or the super is marked.  If the caller queues a requeue
callback afterwards, the same holds when this callback runs: when as many callbacks
have completed as were queued in front of it.  And if a thread calls
`cyanfs_super_flush` with `ondisk`, then once the tasks of the flusher that it queues
are gone, the entries are written and a FLUSH has completed behind them, or the super
is marked. -/
theorem flush_contract {discard compact : Bool} {uuid : Uuid} {disk : Buf} {σ₀ : Sys}
    (h : (Sys.opened total discard compact uuid disk).Reachable σ₀) :
    (∀ file σ₁ σ₂, σ₀.step (.flush file) = some σ₁ →
      Thread σ₁ (.flusher 0 false (some file)) σ₂ (.flushType file) →
      (σ₂.flushMap = .submit → σ₂.sup.error = true ∨ σ₀.log.appended <+: σ₂.log.written) ∧
      ∀ ok σ₃ ls σ₄ σ₅ ms σ₆ f, σ₂.step (.call (.flushType file) ok) = some σ₃ →
        σ₃.run ls = some σ₄ → σ₄.step (.requeue file) = some σ₅ → σ₅.run ms = some σ₆ →
        σ₅.served ms + 1 = σ₅.requeues → σ₆.active = some (.requeue f) →
        σ₆.sup.error = true ∨ σ₀.log.appended <+: σ₆.log.written) ∧
    ∀ σ₁ σ₂ ok σ₃ ls σ₄, σ₀.step (.superFlush true) = some σ₁ →
      Thread σ₁ (.flusher 0 true none) σ₂ (.flusherQueue true none) →
      σ₂.step (.call (.flusherQueue true none) ok) = some σ₃ → σ₃.run ls = some σ₄ →
      (∀ t ∈ σ₄.tasks, t.flusher? ≠ some σ₂.nextFlusher) →
      σ₄.sup.error = true ∨
        (σ₀.log.appended <+: σ₄.log.written ∧ σ₀.log.appended.length ≤ σ₄.log.durable) := by
  have hσ₀ := h.steady
  refine ⟨fun file σ₁ σ₂ hs hth => ?_, fun σ₁ σ₂ ok σ₃ ls σ₄ hs hth hq hrun hdone => ?_⟩
  · obtain ⟨hσ₁, hm⟩ := hσ₀.step hs
    have hap := appended_moves hm
    obtain ⟨hσ₂, hap₂⟩ := hth.appended hσ₁
    obtain ⟨-, -, hd⟩ := hth.flush hσ₁ rfl hap.length_le
    have hpast : σ₂.Past σ₀.log.appended.length := by
      rcases hd with hd | ⟨_, hd⟩ | hd
      · cases hd
      · cases hd
      · exact hd.2
    refine ⟨fun hmap => ?_, fun ok σ₃ ls σ₄ σ₅ ms σ₆ f hret hrun hreq hrun' hserved ha => ?_⟩
    · refine hσ₂.sound.prefix_written (hap.trans hap₂) ?_
      have hidle : σ₂.queue = [] ∧ σ₂.active.isNone = true := by
        by_contra hne
        rw [flushMap, if_neg hne] at hmap
        cases hmap
      refine (hpast.behind hσ₂.sound).written hσ₂.sound fun fl io hm => ?_
      rw [tasks, hidle.1, Option.isNone_iff_eq_none.1 hidle.2] at hm
      cases hm
    · obtain ⟨hσ₃, hm₃⟩ := hσ₂.step hret
      obtain ⟨hσ₄, hap₄, hpast₄⟩ := hσ₃.run_rule
        (P := fun τ => σ₀.log.appended <+: τ.log.appended ∧ τ.Past σ₀.log.appended.length)
        ⟨(hap.trans hap₂).trans (appended_moves hm₃), hpast.step hm₃⟩ hrun
        fun _ _ _ _ hm h => ⟨h.1.trans (appended_moves hm), h.2.step hm⟩
      obtain ⟨hσ₅, hm₅⟩ := hσ₄.step hreq
      obtain ⟨hσ₆, hap₆⟩ := hσ₅.run_rule (P := fun τ => σ₀.log.appended <+: τ.log.appended)
        (hap₄.trans (appended_moves hm₅)) hrun' fun _ _ _ _ hm h => h.trans (appended_moves hm)
      exact hσ₆.sound.prefix_written hap₆
        (requeue_written hσ₄ hpast₄ hreq hrun' hserved ha)
  · obtain ⟨hσ₁, hm⟩ := hσ₀.step hs
    obtain ⟨hσ₂, hap₂⟩ := hth.appended hσ₁
    have hap := (appended_moves hm).trans hap₂
    obtain ⟨hσ₄, hend⟩ := superFlush_durable hσ₂ hap.length_le hq hrun hdone
    obtain ⟨hσ₃, hm₃⟩ := hσ₂.step hq
    have hap₄ := (hσ₃.run_rule (P := fun τ => σ₀.log.appended <+: τ.log.appended)
      (hap.trans (appended_moves hm₃)) hrun fun _ _ _ _ hm h => h.trans (appended_moves hm)).2
    rcases hend with he | hd
    · exact .inl he
    · have hw := hσ₄.sound.prefix_written hap₄ (.inr (hd.trans hσ₄.durable))
      exact hw.imp id fun hw => ⟨hw, hd⟩

/-- The thread of `cyanfs_flush` has come to `flushType`, by two sections. -/
theorem thread_flush {σ₁ τ σ₂ : Sys} {file : ℕ} {cs : Multiset Call}
    (h₁ : σ₁.calls = .flusher 0 false (some file) ::ₘ cs)
    (hs : σ₁.step (.call (.flusher 0 false (some file)) true) = some τ)
    (h : τ.calls = .flusherQueue false (some file) ::ₘ cs)
    (hs' : τ.step (.call (.flusherQueue false (some file)) true) = some σ₂)
    (h₂ : σ₂.calls = .flushType file ::ₘ cs) :
    Thread σ₁ (.flusher 0 false (some file)) σ₂ (.flushType file) := by
  have hmem : .flusher 0 false (some file) ∈ σ₁.calls := h₁ ▸ Multiset.mem_cons_self _ _
  refine .own (.own (.here hmem) hs ?_) hs' ?_
  · rw [h, h₁, Multiset.erase_cons_head]
  · rw [h₂, h, Multiset.erase_cons_head]

/-- The flush that `cyanfs_create` has left to its thread. -/
def leftFlush : Multiset Call := {.flusher superMaxInflightJournal false none}

/-- A file is made.  A flush of it has to be queued again, and when the callback runs, the
entry is written.  A flush behind a `cyanfs_super_flush` that is over may submit its I/O at
once; and when the tasks of that are gone, the entry is durable. -/
theorem flush_contract_created :
    let opened := Sys.opened 16 true true smallUuid smallDisk
    (∃ σ₀ σ₁ σ₂ σ₃ σ₅ ms σ₆, opened.Reachable σ₀ ∧ σ₀.log.appended = [.create 1 .letter] ∧
      σ₀.step (.flush 1) = some σ₁ ∧
      Thread σ₁ (.flusher 0 false (some 1)) σ₂ (.flushType 1) ∧ σ₂.flushMap = .requeue ∧
      σ₂.step (.call (.flushType 1) true) = some σ₃ ∧ σ₃.step (.requeue 1) = some σ₅ ∧
      σ₅.run ms = some σ₆ ∧ σ₆.active = some (.requeue 1) ∧
      σ₀.log.appended <+: σ₆.log.written) ∧
    (∃ σ₀ σ₁ σ₂ σ₃ n σ₄, opened.Reachable σ₀ ∧ σ₀.log.appended = [.create 1 .letter] ∧
      σ₀.step (.superFlush true) = some σ₁ ∧
      Thread σ₁ (.flusher 0 true none) σ₂ (.flusherQueue true none) ∧
      σ₂.step (.call (.flusherQueue true none) true) = some σ₃ ∧ σ₃.run (work n) = some σ₄ ∧
      1 ≤ σ₄.log.durable) ∧
    ∃ σ₀ σ₁ σ₂, opened.Reachable σ₀ ∧ σ₀.log.appended = [.create 1 .letter] ∧
      σ₀.step (.flush 1) = some σ₁ ∧
      Thread σ₁ (.flusher 0 false (some 1)) σ₂ (.flushType 1) ∧ σ₂.flushMap = .submit ∧
      σ₀.log.appended <+: σ₂.log.written := by
  intro opened
  let c : Call := .flusher 0 false (some 1)
  refine ⟨?_, ?_, ?_⟩
  · let ls : List Label := [.create .letter, .open 1 true]
    obtain ⟨σ₀, h₀, ha₀⟩ := exists_small ls
      (P := fun τ => τ.log.appended = [.create 1 .letter]) (by decide +kernel)
    obtain ⟨σ₁, h₁, hc₁⟩ := exists_small (ls ++ [.flush 1])
      (P := fun τ => τ.calls = c ::ₘ leftFlush) (by decide +kernel)
    obtain ⟨τ, h, hc⟩ := exists_small (ls ++ [.flush 1] ++ [.call c true])
      (P := fun τ => τ.calls = .flusherQueue false (some 1) ::ₘ leftFlush) (by decide +kernel)
    obtain ⟨σ₂, h₂, hc₂, hmap⟩ := exists_small
      (ls ++ [.flush 1] ++ [.call c true] ++ [.call (.flusherQueue false (some 1)) true])
      (P := fun τ => τ.calls = .flushType 1 ::ₘ leftFlush ∧ τ.flushMap = .requeue)
      (by decide +kernel)
    let ms : List Label := ls ++ [.flush 1] ++ [.call c true] ++
      [.call (.flusherQueue false (some 1)) true] ++ [.call (.flushType 1) true]
    obtain ⟨σ₃, h₃, -⟩ := exists_small ms (P := fun _ => True) (by decide +kernel)
    obtain ⟨σ₅, h₅, hserved⟩ := exists_small (ms ++ [.requeue 1])
      (P := fun τ => τ.served (work 3 ++ [.get]) + 1 = τ.requeues) (by decide +kernel)
    obtain ⟨σ₆, h₆, ha₆, herr⟩ := exists_small (ms ++ [.requeue 1] ++ (work 3 ++ [.get]))
      (P := fun τ => τ.active.any (·.same (.requeue 1)) = true ∧
        τ.sup.error = false) (by decide +kernel)
    have hactive : σ₆.active = some (.requeue 1) := active_of_same ha₆
    have hth := thread_flush hc₁ (run_concat h₁ h) hc (run_concat h h₂) hc₂
    have hrun : σ₅.run (work 3 ++ [.get]) = some σ₆ := run_rest h₅ h₆
    have hwritten := ((flush_contract (.small h₀)).1 1 σ₁ σ₂ (run_concat h₀ h₁) hth).2 true σ₃ []
      σ₃ σ₅ _ σ₆ 1 (run_concat h₂ h₃) rfl (run_concat h₃ h₅) hrun hserved hactive
    exact ⟨σ₀, σ₁, σ₂, σ₃, σ₅, _, σ₆, .small h₀, ha₀, run_concat h₀ h₁, hth, hmap,
      run_concat h₂ h₃, run_concat h₃ h₅, hrun, hactive, hwritten.resolve_left (by simp [herr])⟩
  · let ls : List Label := [.create .letter]
    obtain ⟨σ₀, h₀, ha₀⟩ := exists_small ls
      (P := fun τ => τ.log.appended = [.create 1 .letter]) (by decide +kernel)
    obtain ⟨σ₁, h₁, hc₁⟩ := exists_small (ls ++ [.superFlush true])
      (P := fun τ => τ.calls = .flusher 0 true none ::ₘ leftFlush) (by decide +kernel)
    obtain ⟨σ₂, h₂, hc₂, hnext⟩ := exists_small
      (ls ++ [.superFlush true] ++ [.call (.flusher 0 true none) true])
      (P := fun τ => τ.calls = .flusherQueue true none ::ₘ leftFlush ∧ τ.nextFlusher = 0)
      (by decide +kernel)
    let ms : List Label := ls ++ [.superFlush true] ++ [.call (.flusher 0 true none) true] ++
      [.call (.flusherQueue true none) true]
    obtain ⟨σ₃, h₃, -⟩ := exists_small ms (P := fun _ => True) (by decide +kernel)
    obtain ⟨σ₄, h₄, htasks, herr⟩ := exists_small (ms ++ work 5)
      (P := fun τ => τ.tasks.length = 0 ∧ τ.sup.error = false) (by decide +kernel)
    have hth : Thread σ₁ (.flusher 0 true none) σ₂ (.flusherQueue true none) := by
      refine .own (.here (hc₁ ▸ Multiset.mem_cons_self _ _)) (run_concat h₁ h₂) ?_
      rw [hc₂, hc₁, Multiset.erase_cons_head]
    have hrun : σ₃.run (work 5) = some σ₄ := run_rest h₃ h₄
    have hend := (flush_contract (.small h₀)).2 σ₁ σ₂ true σ₃ _ σ₄ (run_concat h₀ h₁) hth
      (run_concat h₂ h₃) hrun (by simp [List.length_eq_zero_iff.1 htasks])
    refine ⟨σ₀, σ₁, σ₂, σ₃, 5, σ₄, .small h₀, ha₀, run_concat h₀ h₁, hth, run_concat h₂ h₃, hrun, ?_⟩
    have := (hend.resolve_left (by simp [herr])).2
    rwa [ha₀] at this
  · let ls : List Label := [.create .letter] ++ syncLabels ++ work 5
    obtain ⟨σ₀, h₀, ha₀⟩ := exists_small ls
      (P := fun τ => τ.log.appended = [.create 1 .letter]) (by decide +kernel)
    obtain ⟨σ₁, h₁, hc₁⟩ := exists_small (ls ++ [.flush 1])
      (P := fun τ => τ.calls = c ::ₘ leftFlush) (by decide +kernel)
    obtain ⟨σ₂, h₂, hc₂, hmap, herr⟩ := exists_small (ls ++ [.flush 1] ++ [.call c true])
      (P := fun τ => τ.calls = .flushType 1 ::ₘ leftFlush ∧ τ.flushMap = .submit ∧
        τ.sup.error = false) (by decide +kernel)
    have hth : Thread σ₁ c σ₂ (.flushType 1) := by
      refine .own (.here (hc₁ ▸ Multiset.mem_cons_self _ _)) (run_concat h₁ h₂) ?_
      rw [hc₂, hc₁, Multiset.erase_cons_head]
    have hwritten := ((flush_contract (.small h₀)).1 1 σ₁ σ₂ (run_concat h₀ h₁) hth).1 hmap
    exact ⟨σ₀, σ₁, σ₂, .small h₀, ha₀, run_concat h₀ h₁, hth, hmap,
      hwritten.resolve_left (by simp [herr])⟩

end Sys

end Cyanfs
