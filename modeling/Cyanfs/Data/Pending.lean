/-
# Pending extents

A node is pending from the write that allocates it until its COPY is done, and
`__cyanfs_file_unmap_extent` must not meet it (`CYANFS_BUG_ON`).  A discard looks at
the mark; `cyanfs_truncate` and `cyanfs_delete` only see that the file is closed, and
the contract of `cyanfs_close` only speaks of handlers and requeue callbacks.  That is
enough if the handler which is told to requeue does so: the callback then stands behind
the COPY in the queue (`Answered`), and the file stays open until both have run
(`Waited`).  A handler that returns an error instead leaves the COPY behind with
nothing to wait for (`unmaps_pending`).
-/

import Cyanfs.Run.Moves

namespace Cyanfs

open Lib Std

/-- Behind every COPY of file `id` a requeue callback of the file is queued. -/
def Answered (id : ℕ) : List Task → Prop
  | [] => True
  | t :: ts => ((∃ i b src, t = .copy id i b src) → .requeue id ∈ ts) ∧ Answered id ts

namespace Answered

variable {id : ℕ} {ts us : List Task}

theorem requeue {i b src : ℕ} (h : Answered id ts) (hc : .copy id i b src ∈ ts) :
    .requeue id ∈ ts := by
  induction ts with
  | nil => cases hc
  | cons t ts ih =>
      rcases List.mem_cons.1 hc with rfl | hc
      · exact List.mem_cons_of_mem _ (h.1 ⟨i, b, src, rfl⟩)
      · exact List.mem_cons_of_mem _ (ih h.2 hc)

theorem of_none (h : ∀ t ∈ ts, ∀ i b src, t ≠ .copy id i b src) : Answered id ts := by
  induction ts with
  | nil => trivial
  | cons t ts ih =>
      refine ⟨?_, ih fun u hu => h u (List.mem_cons_of_mem _ hu)⟩
      rintro ⟨i, b, src, rfl⟩
      exact absurd rfl (h _ List.mem_cons_self i b src)

theorem append (h : Answered id ts) (hu : Answered id us) : Answered id (ts ++ us) := by
  induction ts with
  | nil => exact hu
  | cons t ts ih => exact ⟨fun hc => List.mem_append_left _ (h.1 hc), ih h.2⟩

theorem map {g : Task → Task} (hg : ∀ t, (t.order = none → g t = t) ∧ (g t).order = t.order)
    (h : Answered id ts) : Answered id (ts.map g) := by
  induction ts with
  | nil => trivial
  | cons t ts ih =>
      refine ⟨?_, ih h.2⟩
      rintro ⟨i, b, src, he⟩
      have ht : t = .copy id i b src := by
        rw [← (hg t).1 (by rw [← (hg t).2, he]; rfl), he]
      exact List.mem_map.2 ⟨_, h.1 ⟨i, b, src, ht⟩, (hg _).1 rfl⟩

end Answered

theorem copy_ne_of_none {t : Task} (h : t.copy? = none) (id i b src : ℕ) : t ≠ .copy id i b src := by
  rintro rfl
  cases h

namespace Super

variable {s s' : Super} {id i : ℕ}

/-! ### Unmapping nodes -/

/-- An operation meets no pending node if no closed file has one. -/
theorem Op.bug_eq {j : JEntry} (hk : s.Keyed) (ho : s.Op j s')
    (h : ∀ f : File, s.filesById[f.id]? = some f → f.openType = .closed →
      ∀ i e, s.extentAt f.id i = some e → e.pending = false) : s'.bug = s.bug := by
  cases ho with
  | create hn hst hlimit hmax hlookup hi | fork hn hst hlimit hmax hp hmode hlookup hi =>
      obtain ⟨-, -, rfl⟩ := initFile_eq_ok.1 hi
      rfl
  | rename => rfl
  | @truncate f size hv hst hf hmode hc => exact bug_truncateFile_settled hk (h f hf hmode) size
  | @delete f hst hf hmode hc =>
      obtain ⟨_, hd⟩ := deleteFile_shape s f
      rw [hd]
      exact bug_truncateFile_settled hk (h f hf hmode) 0
  | bind hst hf hmode hi hsize hroom hb hnone =>
      rw [superToFile_eq hnone]
      rfl
  | @unbind f i e hst hf hmode hi hsize he hp herr =>
      refine bug_unmapExtent_settled fun x hx => ?_
      rw [extentAt_of_file hf, he] at hx
      exact Option.some.inj hx ▸ hp

/-- The files that `cyanfs_super_close` deletes have no pending node. -/
theorem bug_deleteFiles (hk : s.Keyed)
    (h : ∀ id i e, s.extentAt id i = some e → e.pending = false) : s.deleteFiles.bug = s.bug := by
  have hfold : ∀ (ids : List ℕ) (s : Super), s.Keyed →
      (∀ id i e, s.extentAt id i = some e → e.pending = false) →
      (ids.foldl deleteOrphan s).bug = s.bug := by
    intro ids
    induction ids with
    | nil => exact fun _ _ _ => rfl
    | cons id ids ih =>
        intro s hk h
        rw [List.foldl_cons, deleteOrphan]
        cases hf : s.filesById[id]? with
        | none => exact ih s hk h
        | some f =>
            let g : File := { f with parent := none }
            have hid : g.id = id := hk id f hf
            have hg : (s.setFile g).filesById[g.id]? = some g := by
              rw [filesById_setFile, if_pos rfl]
            have hkg : (s.setFile g).Keyed := setFile_keyed hk g
            have hset : ∀ k i, (s.setFile g).extentAt k i = s.extentAt k i := by
              intro k i
              by_cases hki : k = id
              · rw [hki, extentAt_of_file hf, ← hid, extentAt_of_file hg]
              · simp only [extentAt, filesById_setFile, hid, if_neg hki]
            have hbug : ((s.setFile g).deleteFile g).bug = s.bug := by
              obtain ⟨_, hd⟩ := deleteFile_shape (s.setFile g) g
              rw [hd]
              exact bug_truncateFile_settled hkg (fun i e he => h _ i e (hset _ i ▸ he)) 0
            refine (ih _ ((derives_deleteFile hkg hg).keyed hkg) fun k i e he => ?_).trans hbug
            rw [extentAt_deleteFile hkg hg] at he
            split_ifs at he
            exact h k i e (hset k i ▸ he)
  exact hfold _ s hk h

end Super

namespace Sys

variable {σ σ' : Sys} {total : ℕ}

/-! ### The queue -/

/-- The tasks of `ts` are still there in their order, those of the flushers changed,
and no COPY is new. -/
def Shifts (ts ts' : List Task) : Prop := ∃ (us vs : List Task) (g : Task → Task),
  ts' = us ++ (ts.map g ++ vs) ∧ (∀ t ∈ us, t.copy? = none) ∧ (∀ t ∈ vs, t.copy? = none) ∧
    ∀ t, (t.order = none → g t = t) ∧ (g t).order = t.order

theorem shifts_tail (ts vs : List Task) (hv : ∀ t ∈ vs, t.copy? = none) :
    Shifts ts (ts ++ vs) :=
  ⟨[], vs, id, by simp, by simp, hv, fun _ => ⟨fun _ => rfl, rfl⟩⟩

theorem Shifts.answered {ts ts' : List Task} {id : ℕ} (h : Shifts ts ts') (ha : Answered id ts) :
    Answered id ts' := by
  obtain ⟨us, vs, g, rfl, hu, hv, hg⟩ := h
  refine .append (.of_none fun t ht => ?_) (.append (ha.map hg) (.of_none fun t ht => ?_))
  · exact copy_ne_of_none (hu t ht) id
  · exact copy_ne_of_none (hv t ht) id

theorem Shifts.mem {ts ts' : List Task} {id i b src : ℕ} (h : Shifts ts ts')
    (hc : .copy id i b src ∈ ts') : .copy id i b src ∈ ts := by
  obtain ⟨us, vs, g, rfl, hu, hv, hg⟩ := h
  rcases List.mem_append.1 hc with hc | hc
  · cases hu _ hc
  rcases List.mem_append.1 hc with hc | hc
  · obtain ⟨t, ht, he⟩ := List.mem_map.1 hc
    have : t = .copy id i b src := by rw [← (hg t).1 (by rw [← (hg t).2, he]; rfl), he]
    exact this ▸ ht
  · cases hv _ hc

/-- What a step does to the queue: the first task may go, tasks that are no COPYs come,
or a write queues its COPY and calls its handler. -/
theorem tasks_effect (he : σ.Effect σ') :
    (∃ rest, (rest = σ.tasks ∨ ∃ t, σ.tasks = t :: rest) ∧ Shifts rest σ'.tasks) ∨
    ∃ (f : File) (i b src : ℕ) (io : IoCall) (w : Option Bool),
      σ'.tasks = σ.tasks ++ [.copy f.id i b src] ∧ σ.sup.filesById[f.id]? = some f ∧
      f.openType = .readwrite ∧ io.file = f.id ∧ .writeHandler io .requeue w ∈ σ'.calls := by
  have hsame : σ'.tasks = σ.tasks → ∃ rest, (rest = σ.tasks ∨ ∃ t, σ.tasks = t :: rest) ∧
      Shifts rest σ'.tasks := by
    intro h
    refine ⟨σ.tasks, .inl rfl, ?_⟩
    rw [h]
    simpa using shifts_tail σ.tasks [] (by simp)
  have hadd : ∀ vs, (∀ t ∈ vs, t.copy? = none) → σ'.tasks = σ.tasks ++ vs →
      ∃ rest, (rest = σ.tasks ∨ ∃ t, σ.tasks = t :: rest) ∧ Shifts rest σ'.tasks := by
    intro vs hv h
    exact ⟨σ.tasks, .inl rfl, h ▸ shifts_tail _ vs hv⟩
  have hpop : ∀ t vs, σ.active = some t → (∀ t ∈ vs, t.copy? = none) → σ'.active = none →
      σ'.queue = σ.queue ++ vs →
      ∃ rest, (rest = σ.tasks ∨ ∃ t, σ.tasks = t :: rest) ∧ Shifts rest σ'.tasks := by
    intro t vs ht hv ha hq
    refine ⟨σ.queue, .inr ⟨t, tasks_of_active ht⟩, ?_⟩
    rw [tasks, ha, hq]
    exact shifts_tail _ vs hv
  have htail : ∀ t, σ.active = some t → Tail { σ with active := none } σ' →
      ∃ rest, (rest = σ.tasks ∨ ∃ t, σ.tasks = t :: rest) ∧ Shifts rest σ'.tasks := by
    intro t ht h
    obtain ⟨vs, hq, hv⟩ := h.queue
    exact hpop t vs ht (fun u hu => (hv u hu).2) h.active hq
  cases he with
  | change hm =>
      cases hm with
      | «open» _ _ _ _ _ _ he | close _ _ _ _ _ _ he | closeClosed he | op _ he =>
          subst he
          exact .inl (hsame rfl)
      | @copyStart f i b src cs ws io hc hid _ _ hf hmode _ _ hb hnone he hnew =>
          obtain ⟨w, hw⟩ := hnew
          subst he
          exact .inr ⟨f, i, b, src, io, some w, (List.append_assoc _ _ _).symm, hf, hmode, hid, hw⟩
      | @copied k i b src err m junk ht he =>
          subst he
          refine .inl (hpop _ [] ht (by simp) ?_ ?_)
          all_goals cases err <;> first | rfl | exact (List.append_nil _).symm
      | @mount l out hl ho he =>
          subst he
          rcases ho.active with ht | ht <;> exact .inl (htail _ ht (tail_loaded ho))
  | threads he | compactStart _ _ he | handlerWrite _ _ he | compactFail _ he =>
      subst he
      exact .inl (hsame rfl)
  | @requeue file he =>
      subst he
      exact .inl (hadd [.requeue file] (by simp [Task.copy?]) (List.append_assoc _ _ _).symm)
  | compactInit _ he =>
      subst he
      exact .inl (hadd [.compactHeader] (by simp [Task.copy?]) (List.append_assoc _ _ _).symm)
  | get ha hq he =>
      subst he
      exact .inl (hsame (by simp [tasks, ha, hq]))
  | noMount _ ht he =>
      subst he
      rcases ht with ht | ht <;> exact .inl (htail _ ht (.refl _))
  | @flusher cs ondisk he =>
      subst he
      rcases queued_queueFlusher σ ondisk with ⟨hs, -⟩ | hq
      · have htasks : (σ.queueFlusher ondisk).tasks = σ.tasks := by rw [hs]
        exact .inl (hsame htasks)
      · refine .inl (hadd _ (fun t ht => ?_) hq.tasks)
        simp only [List.mem_append, List.mem_singleton, List.mem_ite_nil_right] at ht
        rcases ht with ⟨-, rfl⟩ | ⟨-, rfl⟩ | rfl <;> rfl
  | @task t err m junk ht hloud he =>
      subst he
      cases ho : t.order with
      | none => exact .inl (htail t ht (tail_runTask _ hloud ho err m junk))
      | some n =>
          have hc := callback_runTask (σ := σ) ho err m junk
          obtain ⟨us, vs, g, hq, hu, hv, hg⟩ := hc.queue
          refine .inl ⟨σ.queue, .inr ⟨t, tasks_of_active ht⟩, us, vs, g, ?_, ?_, ?_, ?_⟩
          · rw [tasks, hc.active, hq]
            rfl
          · intro u hu'
            obtain ⟨k, hk, -⟩ := hu u hu'
            cases u <;> first | rfl | cases hk
          · exact fun u hu' => (hv u hu').2
          · exact fun u => ⟨fun hn => (hg u).2 (by rw [hn]; simp), (hg u).1⟩

/-! ### Files with a COPY stay open -/

/-- A file with a COPY is open for writing, and as long as no handler of its writes is
told to requeue, a requeue callback is queued behind the COPY. -/
structure Waited (σ : Sys) : Prop where
  writable : ∀ id i b src, .copy id i b src ∈ σ.tasks →
    ∃ f, σ.sup.filesById[id]? = some f ∧ f.openType = .readwrite
  answered : ∀ id, (∃ io w, .writeHandler io .requeue w ∈ σ.calls ∧ io.file = id) ∨
    Answered id σ.tasks

theorem answered_effect {id : ℕ} (he : σ.Effect σ') (h : Answered id σ.tasks) :
    (∃ io w, .writeHandler io .requeue w ∈ σ'.calls ∧ io.file = id) ∨ Answered id σ'.tasks := by
  rcases tasks_effect he with ⟨rest, hrest, hsh⟩ | ⟨f, i, b, src, io, w, hts, -, -, hio, hc⟩
  · refine .inr (hsh.answered ?_)
    rcases hrest with rfl | ⟨t, ht⟩
    · exact h
    · rw [ht] at h
      exact h.2
  · by_cases hid : id = f.id
    · exact .inl ⟨io, w, hc, hio.trans hid.symm⟩
    · refine .inr ?_
      rw [hts]
      refine h.append (.of_none fun t ht j c s hcopy => hid ?_)
      rw [List.mem_singleton.1 ht] at hcopy
      exact (Task.copy.inj hcopy).1.symm

/-- A file whose extents are being copied cannot be closed. -/
theorem Waited.not_closable {f : File} {i b src : ℕ} (h : σ.Waited)
    (hf : σ.sup.filesById[f.id]? = some f) (hc : σ.closable f) :
    .copy f.id i b src ∉ σ.tasks := by
  intro hm
  obtain ⟨f', hf', hmode⟩ := h.writable f.id i b src hm
  obtain rfl := Option.some.inj (hf.symm.trans hf')
  rcases h.answered f.id with ⟨io, w, hcall, hio⟩ | ha
  · have := (hc.1 _ hcall (by rw [← hio]; rfl)).1
    rw [hmode] at this
    cases this
  · have := hc.2 _ (ha.requeue hm)
    simp at this

theorem Waited.pending {f : File} {i : ℕ} {e : Extent} (h : σ.Waited) (hσ : σ.Sound total)
    (hbug : σ.sup.bug = none) (hf : σ.sup.filesById[f.id]? = some f) (hmode : f.openType = .closed)
    (he : σ.sup.extentAt f.id i = some e) : e.pending = false := by
  by_contra hp
  obtain ⟨src, hm⟩ := (hσ.live.copies hbug).task f.id i e he (by simpa using hp)
  obtain ⟨t, ht, hcopy⟩ := List.mem_filterMap.1 hm
  have htask : t = .copy f.id i e.backend src := by
    cases t with
    | copy => simp only [Task.copy?, Option.some.injEq, Prod.mk.injEq] at hcopy; simp [hcopy]
    | _ => cases hcopy
  obtain ⟨f', hf', hrw⟩ := h.writable _ _ _ _ (htask ▸ ht)
  rw [← Option.some.inj (hf.symm.trans hf'), hmode] at hrw
  cases hrw

/-- The files that are open for writing stay so, but for one that is closed. -/
theorem readwrite_effect (hσ : σ.Sound total) (he : σ.Effect σ') {id : ℕ} {f : File}
    (hf : σ.sup.filesById[id]? = some f) (hmode : f.openType = .readwrite)
    (hclose : ∀ g : File, σ.sup.filesById[g.id]? = some g → σ.closable g → σ'.tasks = σ.tasks →
      g.id ≠ id) : ∃ f', σ'.sup.filesById[id]? = some f' ∧ f'.openType = .readwrite := by
  have hkeep : σ.sup.KeepsOpen σ'.sup →
      ∃ f', σ'.sup.filesById[id]? = some f' ∧ f'.openType = .readwrite := by
    intro hk
    obtain ⟨f', hf', ho, -⟩ := hk id f hf (by simp [hmode])
    exact ⟨f', hf', ho.trans hmode⟩
  rcases he.change_or_quiet with hm | ⟨hm, -⟩
  swap
  · exact hkeep hm.keepsOpen
  cases hm with
  | @«open» e g hst hg hdef hopen hchild hne he =>
      subst he
      refine hkeep (Super.keepsOpen_setFile (f := e) (by rw [hdef]; exact hg) fun ho => ⟨hopen ho, ?_⟩)
      rw [hdef]
  | @close e g hg hcl hopen hdef hmd hk he =>
      subst he
      refine ⟨f, ?_, hmode⟩
      rw [Super.filesById_setFile, if_neg, hf]
      rw [hdef]
      exact fun h => hclose e hg hcl rfl h.symm
  | closeClosed he => exact hkeep (he ▸ .refl _)
  | @op j s cs ws ho he =>
      have hsup : s.MetaEq σ'.sup := he ▸ ⟨rfl, rfl, rfl, rfl, rfl, rfl, rfl, rfl, rfl⟩
      exact hkeep ((ho.keepsOpen hσ.calls.keyed).trans hsup.keepsOpen)
  | @copyStart e i b src cs ws io hc hid hidx hst he hmd hi hsize hb hnone hdef =>
      have hsup : (σ.sup.copyPending e b i).MetaEq σ'.sup :=
        hdef ▸ ⟨rfl, rfl, rfl, rfl, rfl, rfl, rfl, rfl, rfl⟩
      refine hkeep (.trans ?_ hsup.keepsOpen)
      exact (Super.keepsOpen_superToFile he hnone).trans (Super.keepsOpen_markExtent _ _ _ _)
  | @copied k i b src err m junk ht hdef =>
      have hsup : (σ.sup.copyEnded k i err).MetaEq σ'.sup :=
        hdef ▸ metaEq_runTask_copy σ k i b src err m junk
      exact hkeep (.trans (Super.keepsOpen_markExtent _ _ _ _) hsup.keepsOpen)
  | mount hl =>
      -- no file is open before the mount is over
      have := hσ.calls.closed (hσ.calls.loading (by simp [hl])) id f hf
      rw [hmode] at this
      cases this

/-- A step unmaps no pending node, unless a closed file has one. -/
theorem bug_effect (hσ : σ.Sound total) (he : σ.Effect σ') (hbug : σ.sup.bug = none)
    (h : ∀ f : File, σ.sup.filesById[f.id]? = some f → f.openType = .closed →
      ∀ i e, σ.sup.extentAt f.id i = some e → e.pending = false) :
    σ'.sup.bug ≠ some .unmapPending := by
  have hnone : σ'.sup.bug = none → σ'.sup.bug ≠ some .unmapPending := fun h => by simp [h]
  have hupd : ∀ (s : Super) id g, (s.updFile id g).bug = s.bug := by
    intro s id g
    unfold Super.updFile
    split <;> rfl
  rcases he.change_or_quiet with hm | ⟨hm, -⟩
  swap
  · exact hnone (hm.bug.trans hbug)
  cases hm with
  | «open» _ _ _ _ _ _ he | close _ _ _ _ _ _ he => exact hnone (by rw [he]; exact hbug)
  | closeClosed he => rw [he]; simp
  | @op j s cs ws ho he =>
      refine hnone ?_
      rw [he]
      exact (ho.bug_eq hσ.calls.keyed h).trans hbug
  | @copyStart e i b src cs ws io hc hid hidx hst hf hmd hi hsize hb hempty he =>
      refine hnone ?_
      rw [he]
      change (σ.sup.copyPending e b i).bug = none
      rw [Super.copyPending, hupd, Super.superToFile_eq hempty]
      exact hbug
  | @copied k i b src err m junk ht he =>
      have hsup : (σ.sup.copyEnded k i err).MetaEq σ'.sup :=
        he ▸ metaEq_runTask_copy σ k i b src err m junk
      exact hnone (hsup.bug.trans ((hupd _ _ _).trans hbug))
  | @mount l out hl ho he =>
      have hout := ho.bug hσ.calls hσ.live (by simp [hl]) hbug
      refine hnone ?_
      subst he
      cases out <;> exact hout

/-- The last handler of the writes to a file that was told to requeue returns only when a
requeue callback of the file is queued behind every COPY of the file. -/
def Patient (σ : Sys) : Label → Prop
  | .call (.writeHandler io .requeue w) _ => Answered io.file σ.tasks ∨
      ∃ io' w', .writeHandler io' .requeue w' ∈ σ.calls.erase (.writeHandler io .requeue w) ∧
        io'.file = io.file
  | _ => True

theorem Waited.step {l : Label} (h : σ.Waited) (hσ : σ.Sound total) (hl : σ.Patient l)
    (hs : σ.step l = some σ') : σ'.Waited ∧ σ'.sup.bug ≠ some .unmapPending := by
  have he := (hσ.step hs).2
  have hbug := bug_of_step hs
  have hclosed : ∀ f : File, σ.sup.filesById[f.id]? = some f → f.openType = .closed →
      ∀ i e, σ.sup.extentAt f.id i = some e → e.pending = false :=
    fun f hf hmode i e hx => h.pending hσ hbug hf hmode hx
  refine ⟨⟨fun id i b src hm => ?_, fun id => ?_⟩, bug_effect hσ he hbug hclosed⟩
  · rcases tasks_effect he with ⟨rest, hrest, hsh⟩ | ⟨f, j, c, s, io, w, hts, hf, hmode, -⟩
    · have hold : .copy id i b src ∈ σ.tasks := by
        rcases hrest with rfl | ⟨t, ht⟩
        · exact hsh.mem hm
        · rw [ht]
          exact List.mem_cons_of_mem _ (hsh.mem hm)
      obtain ⟨f, hf, hmode⟩ := h.writable id i b src hold
      refine readwrite_effect hσ he hf hmode fun g hg hcl _ hid => ?_
      exact h.not_closable hg hcl (hid ▸ hold)
    · rw [hts] at hm
      have hgrows : σ'.tasks ≠ σ.tasks := by
        rw [hts]
        simp
      rcases List.mem_append.1 hm with hold | hnew
      · obtain ⟨f, hf, hmode⟩ := h.writable id i b src hold
        exact readwrite_effect hσ he hf hmode fun g hg hcl ht => absurd ht hgrows
      · obtain ⟨rfl, -⟩ := Task.copy.inj (List.mem_singleton.1 hnew)
        exact readwrite_effect hσ he hf hmode fun g hg hcl ht => absurd ht hgrows
  · rcases h.answered id with ⟨io, w, hcall, hio⟩ | ha
    · by_cases hret : ∃ ok, l = .call (.writeHandler io .requeue w) ok
      · obtain ⟨ok, rfl⟩ := hret
        rcases hl with ha | ⟨io', w', hmem, hio'⟩
        · exact answered_effect he (hio ▸ ha)
        · exact .inl ⟨io', w', Multiset.mem_of_le (kept_callStep (callStep_of_step hs)) hmem,
            hio'.trans hio⟩
      · exact .inl ⟨io, w, kept_step hs hcall fun ok hok => hret ⟨ok, hok⟩, hio⟩
    · exact answered_effect he ha

/-- Reached from `σ₀` by steps that all meet `C`. -/
inductive RunUnder (C : Sys → Label → Prop) (σ₀ : Sys) : Sys → Prop
  | start : RunUnder C σ₀ σ₀
  | step {σ σ' : Sys} {l : Label} (h : RunUnder C σ₀ σ) (hl : C σ l) (hs : σ.step l = some σ') :
      RunUnder C σ₀ σ'

/-- A super without tasks is closed without meeting a pending node. -/
theorem bug_superClose (hσ : σ.Sound total) (h : σ.sup.bug ≠ some .unmapPending) :
    σ.superClose.bug ≠ some .unmapPending := by
  unfold superClose
  split_ifs with hbug hq ho
  · exact h
  · simp
  · simp
  · push Not at hbug
    have htasks : σ.tasks = [] := by simpa using hq
    change σ.sup.deleteFiles.bug ≠ _
    rw [Super.bug_deleteFiles hσ.calls.keyed, hbug]
    · simp
    · intro id i e he
      by_contra hp
      obtain ⟨src, hm⟩ := (hσ.live.copies hbug).task id i e he (by simpa using hp)
      rw [copies, htasks] at hm
      cases hm

/-- **No pending extent is unmapped** in a run whose writers are patient, nor by the
`cyanfs_super_close` behind it: as long as a handler that is told to requeue is out, or a
requeue callback is queued behind the COPYs of the file, the file stays open. -/
theorem patient_never_unmaps_pending {discard compact : Bool} {uuid : Uuid} {disk : Buf}
    (h : RunUnder Patient (Sys.opened total discard compact uuid disk) σ) :
    σ.sup.bug ≠ some .unmapPending ∧ σ.superClose.bug ≠ some .unmapPending := by
  suffices h : σ.Sound total ∧ σ.Waited ∧ σ.sup.bug ≠ some .unmapPending from
    ⟨h.2.2, bug_superClose h.1 h.2.2⟩
  induction h with
  | start =>
      refine ⟨sound_opened .., ⟨fun id i b src hm => ?_, fun id => .inr ?_⟩,
        by simp [Sys.opened, Super.opened]⟩
      · cases hm with
        | tail _ hm => cases hm
      · exact .of_none fun t ht => by
          rw [List.mem_singleton.1 ht]
          simp
  | step h hl hs ih =>
      obtain ⟨hσ, hw, -⟩ := ih
      exact ⟨(hσ.step hs).1, hw.step hσ hl hs⟩

theorem RunUnder.run {C : Sys → Label → Prop} {σ₀ : Sys} {ls : List Label} (h : RunUnder C σ₀ σ)
    (hl : ∀ l ∈ ls, ∀ τ, C τ l) (hrun : σ.run ls = some σ') : RunUnder C σ₀ σ' := by
  induction ls generalizing σ with
  | nil => exact Option.some.inj hrun ▸ h
  | cons l ls ih =>
      obtain ⟨τ, hs, hrest⟩ := Option.bind_eq_some_iff.1 hrun
      exact ih (h.step (hl l List.mem_cons_self σ) hs)
        (fun l' h' => hl l' (List.mem_cons_of_mem _ h')) hrest

/-- A fork is written where only its parent has an extent; the handler queues a requeue
callback before it returns, the COPY and the callback are done, and the super is closed with
two files that have data. -/
theorem patient_never_unmaps_pending_requeued :
    ∃ σ, RunUnder Patient (Sys.opened 16 true true smallUuid smallDisk) σ ∧
      σ.tasks.length = 0 ∧ σ.sup.bound ≠ ∅ ∧ σ.sup.bug ≠ some .unmapPending ∧
      σ.superClose.filesById.size = 0 ∧ σ.superClose.bug ≠ some .unmapPending := by
  let back : Label := .call (.writeHandler forkIo .requeue (some false)) true
  let before := forkLabels ++ copyLabels ++ [.requeue 2]
  obtain ⟨σ, hσ, hq⟩ := exists_small before
    (P := fun τ => τ.tasks.isEqv [.copy 2 0 9 11, .requeue 2] Task.same = true) (by decide +kernel)
  obtain ⟨σ₁, hσ₁, -⟩ := exists_small (before ++ [back]) (P := fun τ => τ.queue.length = 2)
    (by decide +kernel)
  obtain ⟨σ₂, hσ₂, hnone, hx, hclosed⟩ := exists_small
    (before ++ [back] ++ (work 2 ++ [.close 2]))
    (P := fun τ => τ.tasks.length = 0 ∧ τ.sup.extentAt 2 0 = some ⟨9, false, false⟩ ∧
      τ.superClose.filesById.size = 0) (by decide +kernel)
  have htasks : σ.tasks = [.copy 2 0 9 11, .requeue 2] := Task.eq_of_isEqv hq
  have hpatient : σ.Patient back := by
    refine .inl ?_
    rw [htasks]
    exact ⟨fun _ => List.mem_singleton_self _, .of_none (by simp)⟩
  have h₁ : RunUnder Patient (Sys.opened 16 true true smallUuid smallDisk) σ :=
    RunUnder.start.run (by simp [before, mountLabels, forkLabels, writeLabels, copyLabels, Patient])
      (run_small hσ)
  have h₂ := h₁.step hpatient (run_concat hσ hσ₁)
  have h₃ : RunUnder Patient (Sys.opened 16 true true smallUuid smallDisk) σ₂ :=
    h₂.run (by simp [work, Patient]) (run_rest hσ₁ hσ₂)
  obtain ⟨hbug, hclose⟩ := patient_never_unmaps_pending h₃
  exact ⟨σ₂, h₃, hnone, Set.nonempty_iff_ne_empty.1 ⟨9, mem_bound_of_extentAt hx⟩, hbug, hclosed,
    hclose⟩

/-- **A pending extent is unmapped.**  A fork is written where only its parent has an
extent; the handler that is told to requeue returns an error; the fork is closed with
no call and no requeue callback of it left, and truncated before the executor gets to
the COPY. -/
theorem unmaps_pending :
    ∃ σ σ', (Sys.opened 16 true true smallUuid smallDisk).run (mountLabels ++ (forkLabels ++
        copyLabels ++ [.call (.writeHandler forkIo .requeue (some false)) false, .close 2])) = some σ ∧
      (∀ c ∈ σ.calls, c.file? = none) ∧ σ.tasks = [.copy 2 0 9 11] ∧
      σ.step (.truncate 2 0) = some σ' ∧ σ'.sup.bug = some .unmapPending := by
  let ls : List Label := forkLabels ++ copyLabels ++
    [.call (.writeHandler forkIo .requeue (some false)) false, .close 2]
  obtain ⟨σ, hσ, hcalls, hq⟩ := exists_small ls (P := fun τ => (∀ c ∈ τ.calls, c.file? = none) ∧
    τ.tasks.isEqv [.copy 2 0 9 11] Task.same = true) (by decide +kernel)
  obtain ⟨σ', hσ', hbug⟩ := exists_small (ls ++ [.truncate 2 0])
    (P := fun τ => τ.sup.bug = some .unmapPending) (by decide +kernel)
  exact ⟨σ, σ', run_small hσ, hcalls, Task.eq_of_isEqv hq, run_concat hσ hσ', hbug⟩

end Sys

end Cyanfs
