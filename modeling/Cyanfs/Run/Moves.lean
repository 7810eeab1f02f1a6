/-
# How the queue moves

The shape of a step, as far as the journal is concerned.  Either no flusher moves:
tasks that are not a flusher's come at the tail or complete, and entries are
appended (`Apart`).  Or a flusher is queued, with all its tasks at the tail.  Or the
callback of a flusher runs: it may queue tasks of the same flusher at the head and
turn that flusher's WRITE into a NOP, and it leaves the other flushers alone
(`Callback`).  `moves_effect` is the case analysis behind that list.
-/

import Cyanfs.Run.Quiescent

namespace Cyanfs

open Lib Std

namespace Sys

variable {σ τ σ' : Sys} {k : ℕ}

/-- No flusher moves. -/
structure Apart (σ σ' : Sys) : Prop where
  flushers : σ'.flushers = σ.flushers
  nextFlusher : σ'.nextFlusher = σ.nextFlusher
  head : ∃ js : List JEntry, σ'.sup.journalHead = σ.sup.journalHead ++ js ∧
    σ'.log.appended = σ.log.appended ++ js.map (·.entry)
  written : σ'.log.written = σ.log.written
  durable : σ'.log.durable = σ.log.durable ∨ σ'.log.durable = σ.log.written.length
  error : σ'.sup.error = false → σ.sup.error = false

/-- The callback of a task of flusher `k`. -/
structure Callback (σ σ' : Sys) (k : ℕ) : Prop where
  active : σ'.active = none
  queue : ∃ (us vs : List Task) (g : Task → Task), σ'.queue = us ++ (σ.queue.map g ++ vs) ∧
    (∀ t ∈ us, ∃ n, t.order = some n ∧ n / 4 = k) ∧ (∀ t ∈ vs, t.Plain) ∧
    ∀ t, (g t).order = t.order ∧ (t.order ≠ some (4 * k + 1) → g t = t)
  flushers : ∀ j, j ≠ k → σ'.flushers[j]? = σ.flushers[j]?
  nextFlusher : σ'.nextFlusher = σ.nextFlusher
  journalHead : σ'.sup.journalHead = σ.sup.journalHead
  appended : σ'.log.appended = σ.log.appended
  written : σ.log.written <+: σ'.log.written
  durable : σ'.log.durable = σ.log.durable ∨ σ'.log.durable = σ.log.written.length
  error : σ'.sup.error = false → σ.sup.error = false

/-- A flusher is queued: it takes over `journal_head`. -/
structure Queued (σ σ' : Sys) (ondisk : Bool) : Prop where
  tasks : σ'.tasks = σ.tasks ++
    ((if σ.sup.journalHead ≠ [] then [.writer σ.nextFlusher none] else []) ++
      ((if ondisk then [.after σ.nextFlusher false] else []) ++ [.free σ.nextFlusher]))
  flushers : σ'.flushers = σ.flushers.insert σ.nextFlusher
    ⟨false, ondisk, σ.sup.unused, σ.sup.journalHead⟩
  nextFlusher : σ'.nextFlusher = σ.nextFlusher + 1
  journalHead : σ'.sup.journalHead = []
  log : σ'.log = σ.log
  error : σ'.sup.error = σ.sup.error
  active : σ'.active = σ.active

/-- What a step does to the queue and the journal. -/
inductive Moves (σ σ' : Sys) : Prop
  /-- tasks that are not a flusher's come at the tail -/
  | tail {q : List Task} (ha : σ.Apart σ') (ho : ∀ t ∈ q, t.order = none)
      (hactive : σ.active = none ∨ σ'.active = σ.active) (hts : σ'.tasks = σ.tasks ++ q)
  /-- a task that is not a flusher's completes -/
  | popped {t : Task} {q : List Task} (ht : σ.active = some t) (hn : t.order = none)
      (ha : σ.Apart σ') (ho : ∀ t ∈ q, t.order = none) (hnone : σ'.active = none)
      (hts : σ'.tasks = σ.queue ++ q)
  /-- a flusher is queued -/
  | queued {ondisk : Bool} (hq : σ.Queued σ' ondisk)
  /-- a task of a flusher completes -/
  | callback {t : Task} {n : ℕ} {err m : Bool} {junk : Buf} (ht : σ.active = some t)
      (hn : t.order = some n) (hc : σ.Callback σ' (n / 4))
      (he : σ' = { σ with active := none }.runTask t err m junk)

/-! ### Callbacks of a flusher -/

theorem callback_popped (σ : Sys) (k : ℕ) : σ.Callback { σ with active := none } k where
  active := rfl
  queue := ⟨[], [], id, by simp, by simp, by simp, fun t => ⟨rfl, fun _ => rfl⟩⟩
  flushers _ _ := rfl
  nextFlusher := rfl
  journalHead := rfl
  appended := rfl
  written := List.prefix_rfl
  durable := .inl rfl
  error := id

/-- More happens at the tail. -/
theorem Callback.tail (h : σ.Callback τ k) (ht : τ.Tail σ')
    (hd : σ'.log.durable = τ.log.durable) : σ.Callback σ' k := by
  obtain ⟨us, vs, g, hq, hus, hvs, hg⟩ := h.queue
  obtain ⟨ts, hq', hts⟩ := ht.queue
  refine ⟨ht.active.trans h.active, ⟨us, vs ++ ts, g, ?_, hus, ?_, hg⟩, ?_,
    ht.nextFlusher.trans h.nextFlusher, ht.journalHead.trans h.journalHead,
    ht.appended.trans h.appended, ?_, ?_, fun he => h.error (ht.error he)⟩
  · rw [hq', hq]
    simp [List.append_assoc]
  · intro t hm
    rcases List.mem_append.1 hm with hm | hm
    · exact hvs t hm
    · exact hts t hm
  · rw [ht.flushers]
    exact h.flushers
  · rw [ht.written]
    exact h.written
  · rw [hd]
    exact h.durable

/-- The flusher itself changes. -/
theorem Callback.insert (h : σ.Callback τ k) (t : Flusher) :
    σ.Callback { τ with flushers := τ.flushers.insert k t } k := by
  refine ⟨h.active, h.queue, fun j hj => ?_, h.nextFlusher, h.journalHead, h.appended, h.written,
    h.durable, h.error⟩
  rw [← h.flushers j hj]
  exact (flushers_insert _ _ _ _).trans (if_neg hj)

theorem Callback.erase (h : σ.Callback τ k) :
    σ.Callback { τ with flushers := τ.flushers.erase k } k := by
  refine ⟨h.active, h.queue, fun j hj => ?_, h.nextFlusher, h.journalHead, h.appended, h.written,
    h.durable, h.error⟩
  rw [← h.flushers j hj]
  exact (flushers_erase _ _ _).trans (if_neg hj)

/-- The flusher queues a task of its own. -/
theorem Callback.addHead (h : σ.Callback τ k) {t : Task} {n : ℕ} (ht : t.order = some n)
    (hn : n / 4 = k) : σ.Callback (τ.addHead t) k := by
  obtain ⟨us, vs, g, hq, hus, hvs, hg⟩ := h.queue
  refine ⟨h.active, ⟨t :: us, vs, g, ?_, ?_, hvs, hg⟩, h.flushers, h.nextFlusher, h.journalHead,
    h.appended, h.written, h.durable, h.error⟩
  · rw [Sys.addHead, hq, List.cons_append]
  · intro t' hm
    rcases List.mem_cons.1 hm with rfl | hm
    · exact ⟨n, ht, hn⟩
    · exact hus t' hm

/-- The WRITE of the flusher turns into a NOP. -/
theorem Callback.cancelWrite (h : σ.Callback τ k) : σ.Callback (τ.cancelWrite k) k := by
  obtain ⟨us, vs, g, hq, hus, hvs, hg⟩ := h.queue
  let c := cancelTask k
  have hc : ∀ t, (c t).order = t.order ∧ (t.order ≠ some (4 * k + 1) → c t = t) := by
    intro t
    cases t with
    | writer fl io =>
        refine ⟨rfl, fun hne => ?_⟩
        have hk : fl ≠ k := fun hk => hne (by rw [hk]; rfl)
        exact congrArg (Task.writer fl) (if_neg hk)
    | _ => exact ⟨rfl, fun _ => rfl⟩
  refine ⟨h.active, ⟨us.map c, vs.map c, fun t => c (g t), ?_, ?_, ?_, ?_⟩, h.flushers,
    h.nextFlusher, h.journalHead, h.appended, h.written, h.durable, h.error⟩
  · have : (τ.cancelWrite k).queue = τ.queue.map c := rfl
    rw [this, hq]
    simp
  · intro t hm
    obtain ⟨t', hm', rfl⟩ := List.mem_map.1 hm
    rw [(hc t').1]
    exact hus t' hm'
  · intro t hm
    obtain ⟨t', hm', rfl⟩ := List.mem_map.1 hm
    rw [(hc t').2 (by rw [(hvs t' hm').1]; simp)]
    exact hvs t' hm'
  · intro t
    refine ⟨(hc _).1.trans (hg t).1, fun hne => ?_⟩
    change c (g t) = t
    rw [(hg t).2 hne]
    exact (hc t).2 hne

theorem callback_ioFlush (h : σ.Callback τ k) (hw : τ.log.written = σ.log.written) (err : Bool) :
    σ.Callback (τ.ioFlush err) k := by
  unfold ioFlush
  split_ifs
  · exact h
  · exact ⟨h.active, h.queue, h.flushers, h.nextFlusher, h.journalHead, h.appended, h.written,
      .inr (congrArg List.length hw), h.error⟩

theorem callback_ioRecord (h : σ.Callback τ k) (req : WriteReq) (err : Bool) (junk : Buf) :
    σ.Callback (τ.ioRecord req err junk) k := by
  unfold ioRecord
  simp only
  split_ifs
  · exact h.tail (tail_ioWrite _ _ _ _) rfl
  · exact ⟨h.active, h.queue, h.flushers, h.nextFlusher, h.journalHead, h.appended,
      h.written.trans (List.prefix_append _ _), h.durable, h.error⟩

theorem durable_discardExtents (σ : Sys) (X : Finset ℕ) :
    (σ.discardExtents X).log.durable = σ.log.durable := by
  unfold discardExtents
  simp only
  split_ifs <;> rfl

theorem durable_flusherAfterFlush (σ : Sys) (err : Bool) :
    (σ.flusherAfterFlush err).log.durable = σ.log.durable := by
  unfold flusherAfterFlush
  simp only
  split_ifs
  · rfl
  · rfl
  · rfl
  · rfl
  · exact durable_discardExtents _ _

theorem callback_handOver (h : σ.Callback τ k) (X : Finset ℕ) :
    σ.Callback { τ with sup := (τ.sup.handOver X).1 } k := by
  have hsup : (τ.sup.handOver X).1.journalHead = τ.sup.journalHead ∧
      (τ.sup.handOver X).1.error = τ.sup.error := by
    unfold Super.handOver
    split_ifs <;> exact ⟨rfl, rfl⟩
  exact h.tail (tail_sup hsup.1 fun he => hsup.2 ▸ he) rfl

theorem callback_encode (h : σ.Callback τ k) (t : Flusher) (err : Bool) :
    σ.Callback (τ.flusherEncode k t err) k := by
  unfold flusherEncode
  split
  · rename_i s hs
    have hf := writerEncode_frame.1 s hs
    have h₁ : σ.Callback { τ with sup := s } k := h.tail (tail_sup hf.1 hf.2) rfl
    have h₂ := h₁.tail (tail_sup (s := s.markError) rfl (by simp [Super.markError])) rfl
    exact h₂.insert _
  · refine h.tail (tail_flusherWriteFinish τ t) ?_
    unfold flusherWriteFinish
    simp only
    split_ifs <;> rfl
  · rename_i s c req flush rest hs
    have hf := writerEncode_frame.2 s c req flush rest hs
    have h₁ : σ.Callback { τ with
        sup := { s with cursor := c }
        log := { τ.log with records := τ.log.records ++ [req.write] } } k :=
      h.tail ⟨rfl, rfl, rfl, ⟨[], by simp, by simp⟩, rfl, rfl, hf.1, fun he => hf.2 ▸ he⟩ rfl
    have h₂ := h₁.addHead (t := .writer k (some req)) rfl (by omega)
    simp only
    split_ifs
    · exact (h₂.insert _).addHead (t := .before k false) rfl (by omega)
    · exact h₂.insert _

/-- **The callback of a flusher** keeps to its own tasks. -/
theorem callback_runTask {t : Task} {n : ℕ} (hn : t.order = some n) (err m : Bool) (junk : Buf) :
    σ.Callback ({ σ with active := none }.runTask t err m junk) (n / 4) := by
  have hpop := callback_popped σ (n / 4)
  cases t with
  | writer fl io =>
      obtain rfl := Option.some.inj hn
      rw [show (4 * fl + 1) / 4 = fl by omega] at hpop ⊢
      simp only [runTask]
      split
      · exact hpop
      · cases io with
        | none => exact callback_encode hpop _ _
        | some req => exact callback_encode (callback_ioRecord hpop req err junk) _ _
  | before fl flush =>
      obtain rfl := Option.some.inj hn
      rw [show 4 * fl / 4 = fl by omega] at hpop ⊢
      simp only [runTask]
      split
      · exact hpop
      · rename_i t hfl
        split_ifs
        · have h₁ := callback_ioFlush hpop rfl err
          have h₂ : σ.Callback (if err then
              { ioFlush { σ with active := none } err with
                sup := (ioFlush { σ with active := none } err).sup.markError }
              else ioFlush { σ with active := none } err) fl := by
            split_ifs
            · exact h₁.tail (tail_sup rfl (by simp [Super.markError])) rfl
            · exact h₁
          unfold flusherBeforeWriteFlushDone
          simp only
          split_ifs at h₂ ⊢
          all_goals first | exact h₂.cancelWrite | exact h₂
        · unfold flusherBeforeWriteFlush
          split_ifs
          · exact hpop.cancelWrite
          · exact ((callback_handOver hpop _).insert _).addHead (t := .before fl true) rfl (by omega)
  | after fl flush =>
      obtain rfl := Option.some.inj hn
      rw [show (4 * fl + 2) / 4 = fl by omega] at hpop ⊢
      simp only [runTask]
      split
      · exact hpop
      · rename_i t hfl
        split_ifs
        · exact (callback_ioFlush hpop rfl err).tail (tail_flusherAfterFlush _ _)
            (durable_flusherAfterFlush _ _)
        · unfold flusherBeforeFlush
          split_ifs
          · exact hpop
          · let r := σ.sup.handOver t.unused
            have h₁ := (callback_handOver hpop t.unused).insert { t with unused := r.2 }
            have h₂ := h₁.tail (tail_sup (s := { r.1 with cursor := { r.1.cursor with
              extentIdFlush := r.1.cursor.extentId } }) rfl id) rfl
            exact h₂.addHead (t := .after fl true) rfl (by omega)
  | free fl =>
      obtain rfl := Option.some.inj hn
      rw [show (4 * fl + 3) / 4 = fl by omega] at hpop ⊢
      simp only [runTask]
      split
      · exact hpop
      · unfold flusherFree
        simp only
        split_ifs
        · exact hpop.erase
        · exact hpop.erase.tail (tail_sup rfl id) rfl
  | _ => cases hn

/-! ### The other steps -/

theorem durable_discardBegin (σ : Sys) : σ.discardBegin.log.durable = σ.log.durable := by
  unfold discardBegin
  simp only
  split <;> rfl

theorem durable_compactLoaded (σ : Sys) (t : Compact) (m : Bool) (out : LoaderOut) :
    (σ.compactLoaded t m out).log.durable = σ.log.durable := by
  cases out with
  | readPage l X => rfl
  | error X => rfl
  | finish l X =>
      simp only [compactLoaded]
      unfold compactLoaderFinish
      split
      · split_ifs
        · rfl
        · rfl
        · split <;> rfl
      · rfl

theorem durable_compactEncode (σ : Sys) (t : Compact) (err : Bool) :
    (σ.compactEncode t err).log.durable = σ.log.durable := by
  unfold compactEncode
  split <;> rfl

theorem durable_compactWriteSuper (σ : Sys) (t : Compact) (err : Bool) :
    (σ.compactWriteSuper t err).log.durable = σ.log.durable := by
  unfold compactWriteSuper
  split_ifs <;> rfl

theorem durable_compactFinish (σ : Sys) (t : Compact) (err : Bool) :
    (σ.compactFinish t err).log.durable = σ.log.durable := by
  unfold compactFinish
  simp only
  split_ifs
  · rfl
  · split
    · exact durable_discardExtents _ _
    · exact durable_discardExtents _ _

theorem durable_ioFlush (σ : Sys) (err : Bool) : (σ.ioFlush err).log.durable = σ.log.durable ∨
    (σ.ioFlush err).log.durable = σ.log.written.length := by
  unfold ioFlush
  split_ifs
  · exact .inl rfl
  · exact .inr rfl

/-- A FLUSH makes durable what is written, and nothing else touches the count. -/
theorem durable_runTask (σ : Sys) {t : Task} (hl : ¬ Loud t) (ho : t.order = none) (err m : Bool)
    (junk : Buf) : (σ.runTask t err m junk).log.durable = σ.log.durable ∨
      (σ.runTask t err m junk).log.durable = σ.log.written.length := by
  cases t with
  | writer | before | after | free => cases ho
  | copy | loadHeader | loadPage => exact absurd trivial hl
  | discard io =>
      cases io with
      | none => exact .inl (durable_discardBegin σ)
      | some r => exact .inl (durable_discardBegin _)
  | compactHeader | compactPage =>
      refine .inl ?_
      simp only [runTask]
      split
      · rfl
      · split_ifs
        · rfl
        · exact durable_compactLoaded _ _ _ _
  | compactWriter io =>
      refine .inl ?_
      simp only [runTask]
      split
      · rfl
      · cases io with
        | none => exact durable_compactEncode _ _ _
        | some req => exact durable_compactEncode _ _ _
  | compactWriteSuper flush =>
      simp only [runTask]
      split
      · exact .inl rfl
      · split_ifs
        · rw [durable_compactWriteSuper]
          exact durable_ioFlush σ err
        · exact .inl (durable_compactWriteSuper _ _ _)
  | compactFlushSuper req =>
      refine .inl ?_
      simp only [runTask]
      unfold compactFlushSuper
      split_ifs <;> rfl
  | compactFinish =>
      simp only [runTask]
      split
      · exact .inl rfl
      · rw [durable_compactFinish]
        exact durable_ioFlush σ err
  | requeue file => exact .inl rfl

theorem Tail.apart (h : σ.Tail σ') (hd : σ'.log.durable = σ.log.durable ∨
    σ'.log.durable = σ.log.written.length) : σ.Apart σ' :=
  ⟨h.flushers, h.nextFlusher, ⟨[], by simpa using h.journalHead, by simpa using h.appended⟩,
    h.written, hd, h.error⟩

theorem Tail.moves (h : σ.Tail σ') (hd : σ'.log.durable = σ.log.durable) : σ.Moves σ' := by
  obtain ⟨ts, hts, hp⟩ := h.tasks
  exact .tail (h.apart (.inl hd)) (fun t ht => (hp t ht).1) (.inr h.active) hts

/-- A task completes, and the rest happens at the tail. -/
theorem Tail.moves_popped {t : Task} (h : Tail { σ with active := none } σ')
    (ht : σ.active = some t) (hn : t.order = none)
    (hd : σ'.log.durable = σ.log.durable ∨ σ'.log.durable = σ.log.written.length) : σ.Moves σ' := by
  obtain ⟨ts, hts, hp⟩ := h.tasks
  have ha := h.apart hd
  exact .popped ht hn ⟨ha.flushers, ha.nextFlusher, ha.head, ha.written, ha.durable, ha.error⟩
    (fun t ht => (hp t ht).1) h.active hts

/-- The second section of `cyanfs_super_flusher_start` finds nothing to do, or it
queues a flusher. -/
theorem queued_queueFlusher (σ : Sys) (ondisk : Bool) :
    (σ.queueFlusher ondisk = σ ∧ ondisk = false ∧ σ.sup.journalHead = []) ∨
      σ.Queued (σ.queueFlusher ondisk) ondisk := by
  by_cases hc : ondisk = false ∧ ¬ σ.sup.journalHead ≠ []
  · exact .inl ⟨by rw [queueFlusher, if_pos hc], hc.1, not_not.1 hc.2⟩
  · refine .inr ?_
    rw [queueFlusher, if_neg hc]
    exact ⟨by simp [tasks, List.append_assoc], rfl, rfl, rfl, rfl, rfl, rfl⟩

/-- **The shape of a step.** -/
theorem moves_effect (he : σ.Effect σ') : σ.Moves σ' := by
  cases he with
  | change hm =>
      cases hm with
      | «open» _ _ _ _ _ _ he | close _ _ _ _ _ _ he | closeClosed he =>
          subst he
          exact Tail.moves (tail_sup rfl id) rfl
      | @op j s cs ws ho he =>
          have hj := ho.journalHead
          obtain ⟨_, _, _, _, _, _, _, _, _, hs⟩ := ho.shape
          subst he
          refine .tail (q := []) ⟨rfl, rfl, ⟨[j], ?_, appended_commit hj j⟩, rfl, .inl rfl, ?_⟩
            (by simp) (.inr rfl) (List.append_nil _).symm
          · simp [Super.append, hj]
          · simp [Super.append, hs]
      | @copyStart f i b src cs ws io _ _ _ _ hf hmode _ _ hb hnone he =>
          have hsup : (σ.sup.copyPending f b i).journalHead = σ.sup.journalHead ∧
              (σ.sup.copyPending f b i).error = σ.sup.error := by
            rw [Super.copyPending, Super.superToFile_eq hnone, Super.updFile]
            split <;> exact ⟨rfl, rfl⟩
          subst he
          refine .tail (q := [.copy f.id i b src]) ⟨rfl, rfl, ⟨[], ?_, ?_⟩, rfl, .inl rfl, ?_⟩
            (by simp [Task.order]) (.inr rfl) ?_
          · simpa using hsup.1
          · simp
          · exact fun he => hsup.2.symm.trans he
          · simp [tasks]
      | @copied k i b src err m junk ht he =>
          have hsup : (σ.sup.copyEnded k i err).journalHead = σ.sup.journalHead ∧
              (σ.sup.copyEnded k i err).error = σ.sup.error := by
            unfold Super.copyEnded Super.updFile
            split <;> exact ⟨rfl, rfl⟩
          subst he
          cases err with
          | true =>
              refine Tail.moves_popped ?_ ht rfl (.inl rfl)
              exact (tail_ioWrite _ _ _ _).trans (tail_sup hsup.1 fun e => hsup.2.symm.trans e)
          | false =>
              refine .popped (q := []) ht rfl ⟨rfl, rfl, ⟨[⟨.bind k i b, true⟩], ?_, ?_⟩, rfl,
                .inl rfl, fun e => hsup.2.symm.trans e⟩ (by simp) rfl (List.append_nil _).symm
              · exact congrArg (· ++ [(⟨.bind k i b, true⟩ : JEntry)]) hsup.1
              · exact appended_commit (σ := ioWrite { σ with active := none } _ false junk) hsup.1 _
      | @mount l out hl ho he =>
          subst he
          have hd : ({ σ with active := none }.loaded out).log.durable = σ.log.durable := by
            cases out <;> rfl
          rcases ho.active with ht | ht
          · exact (tail_loaded ho).moves_popped ht rfl (.inl hd)
          · exact (tail_loaded ho).moves_popped ht rfl (.inl hd)
  | threads he | compactStart _ _ he | handlerWrite _ _ he =>
      subst he
      exact Tail.moves ⟨rfl, rfl, rfl, ⟨[], by simp, by simp⟩, rfl, rfl, rfl, id⟩ rfl
  | compactFail _ he =>
      subst he
      exact Tail.moves ⟨rfl, rfl, rfl, ⟨[], by simp [compactFail], by simp⟩, rfl, rfl, rfl,
        by simp [compactFail]⟩ rfl
  | requeue he =>
      subst he
      exact Tail.moves (tail_addTail σ ⟨rfl, rfl⟩) rfl
  | compactInit _ he =>
      subst he
      exact Tail.moves ⟨rfl, rfl, rfl, ⟨[.compactHeader], rfl,
        by simp [Task.Plain, Task.order, Task.copy?]⟩, rfl, rfl, rfl, id⟩ rfl
  | get ha hq he =>
      subst he
      refine .tail (q := []) ⟨rfl, rfl, ⟨[], by simp, by simp⟩, rfl, .inl rfl, id⟩ (by simp)
        (.inl ha) ?_
      simp [tasks, ha, hq]
  | noMount _ ht he =>
      subst he
      rcases ht with ht | ht
      · exact Tail.moves_popped (.refl _) ht rfl (.inl rfl)
      · exact Tail.moves_popped (.refl _) ht rfl (.inl rfl)
  | @flusher cs ondisk he =>
      rcases queued_queueFlusher σ ondisk with ⟨hsame, -⟩ | hq
      · rw [hsame] at he
        subst he
        exact Tail.moves ⟨rfl, rfl, rfl, ⟨[], by simp, by simp⟩, rfl, rfl, rfl, id⟩ rfl
      · subst he
        exact .queued ⟨hq.tasks, hq.flushers, hq.nextFlusher, hq.journalHead, hq.log, hq.error,
          hq.active⟩
  | @task t err m junk ht hloud he =>
      cases ho : t.order with
      | none =>
          subst he
          exact (tail_runTask { σ with active := none } hloud ho err m junk).moves_popped ht ho
            (durable_runTask _ hloud ho err m junk)
      | some n => exact .callback ht ho (he ▸ callback_runTask ho err m junk) he

theorem nextFlusher_moves (hm : σ.Moves σ') : σ.nextFlusher ≤ σ'.nextFlusher := by
  cases hm with
  | tail ha ho hactive hts => exact ha.nextFlusher.symm.le
  | popped ht hn ha ho hnone hts => exact ha.nextFlusher.symm.le
  | queued hq => exact hq.nextFlusher ▸ Nat.le_succ _
  | callback ht hn hc he => exact hc.nextFlusher.symm.le

/-- The mark of the super stays. -/
theorem error_moves (hm : σ.Moves σ') (he : σ'.sup.error = false) : σ.sup.error = false := by
  cases hm with
  | tail ha ho hactive hts => exact ha.error he
  | popped ht hn ha ho hnone hts => exact ha.error he
  | queued hq => exact hq.error.symm.trans he
  | callback ht hn hc hrun => exact hc.error he

/-- A callback removes no task of a flusher but its own. -/
theorem Callback.mem_orders {t : Task} {n i : ℕ} (hc : σ.Callback σ' k) (ht : σ.active = some t)
    (hn : t.order = some n) (hi : i ∈ σ.orders) (hne : i ≠ n) : i ∈ σ'.orders := by
  obtain ⟨us, vs, g, hq, -, -, hg⟩ := hc.queue
  rw [orders, tasks_of_active ht, List.filterMap_cons_some hn] at hi
  obtain ⟨u, hu, huo⟩ := List.mem_filterMap.1 ((List.mem_cons.1 hi).resolve_left hne)
  refine List.mem_filterMap.2 ⟨g u, ?_, (hg u).1.trans huo⟩
  rw [tasks, hc.active, hq]
  simp only [Option.toList_none, List.nil_append, List.mem_append]
  exact .inr (.inl (List.mem_map_of_mem hu))

/-! ### The active task -/

theorem active_ioEnd (σ : Sys) (c : Call) (io : IoCall) (st : Status) :
    (σ.ioEnd c io st).active = σ.active := by
  unfold ioEnd
  split_ifs <;> rfl

theorem active_queueFlusher (σ : Sys) (ondisk : Bool) :
    (σ.queueFlusher ondisk).active = σ.active := by
  rcases queued_queueFlusher σ ondisk with ⟨h, -⟩ | hq
  · rw [h]
  · exact hq.active

theorem active_flusherReturn (σ : Sys) (c : Call) (file : Option ℕ) :
    (σ.flusherReturn c file).active = σ.active := by
  unfold flusherReturn
  split <;> rfl

/-- A section of a call leaves the active task alone. -/
theorem active_callStep {c : Call} {ok : Bool} (hs : σ.callStep c ok = some σ') :
    σ'.active = σ.active := by
  cases c with
  | flusher min ondisk file =>
      obtain rfl := Option.some.inj hs
      unfold flusherStart
      simp only
      split_ifs
      · rfl
      · exact active_flusherReturn _ _ _
      · rfl
      · rfl
  | flusherQueue ondisk file =>
      obtain rfl := Option.some.inj hs
      exact (active_flusherReturn _ _ _).trans (active_queueFlusher _ _)
  | flushType file =>
      obtain rfl := Option.some.inj hs
      rfl
  | compact =>
      obtain rfl := Option.some.inj hs
      unfold compactStart
      simp only
      split_ifs <;> rfl
  | compactInit endId =>
      obtain rfl := Option.some.inj hs
      unfold compactInit
      simp only
      split_ifs <;> rfl
  | read io =>
      obtain rfl := Option.some.inj hs
      unfold readLookup
      split <;> rfl
  | readHandler io arg =>
      obtain rfl := Option.some.inj hs
      unfold readReturn
      split_ifs <;> rfl
  | write io =>
      obtain ⟨f, -, rfl⟩ := Option.map_eq_some_iff.1 hs
      unfold writeLookup
      split
      · exact active_ioEnd _ _ _ _
      split
      · rfl
      split
      · split_ifs
        · exact active_ioEnd _ _ _ _
        · rfl
        · rfl
      · rfl
  | writeAlloc io parent =>
      obtain ⟨f, -, rfl⟩ := Option.map_eq_some_iff.1 hs
      unfold writeAlloc
      split
      · exact active_ioEnd _ _ _ _
      split
      · exact active_ioEnd _ _ _ _
      split
      · rfl
      split
      · exact active_ioEnd _ _ _ _
      split <;> rfl
  | writeHandler io arg epoch =>
      obtain rfl := Option.some.inj hs
      unfold writeReturn
      cases epoch with
      | none =>
          simp only
          split_ifs
          · exact active_ioEnd _ _ _ _
          · rfl
      | some w =>
          simp only
          split_ifs
          · exact active_ioEnd _ _ _ _
          · rfl
  | discard io =>
      obtain ⟨f, -, rfl⟩ := Option.map_eq_some_iff.1 hs
      unfold discardLookup
      split
      · exact active_ioEnd _ _ _ _
      · rfl
      · split_ifs
        · rfl
        · exact active_ioEnd _ _ _ _
  | discardLocked io =>
      obtain ⟨f, -, rfl⟩ := Option.map_eq_some_iff.1 hs
      unfold discardLocked
      split
      · exact active_ioEnd _ _ _ _
      · rfl
      · rfl
  | discardHandler io arg =>
      obtain rfl := Option.some.inj hs
      unfold discardReturn
      split_ifs
      · exact active_ioEnd _ _ _ _
      · rfl

/-- A callback takes no task. -/
theorem active_runTask (σ : Sys) (t : Task) (err m : Bool) (junk : Buf) :
    ({ σ with active := none }.runTask t err m junk).active = none := by
  have hload : ∀ out, ({ σ with active := none }.loaded out).active = none := by
    intro out
    cases out <;> rfl
  by_cases hl : Loud t
  · cases t with
    | copy id i b src => cases err <;> rfl
    | loadHeader | loadPage =>
        simp only [runTask]
        split
        · rfl
        · split_ifs <;> exact hload _
    | _ => exact hl.elim
  · cases ho : t.order with
    | none => exact (tail_runTask { σ with active := none } hl ho err m junk).active
    | some n => exact (callback_runTask ho err m junk).active

/-- **Only the executor** takes a task and completes it. -/
theorem active_step {l : Label} (hs : σ.step l = some σ') :
    (l = .get ∧ σ.active = none) ∨
    (∃ err m junk t, l = .done err m junk ∧ σ.active = some t ∧
      σ' = { σ with active := none }.runTask t err m junk) ∨
    ((∀ err m junk, l ≠ .done err m junk) ∧ σ'.active = σ.active) := by
  have hop : ∀ r, (σ.metaOp r).active = σ.active := by
    intro r
    unfold metaOp
    split <;> rfl
  unfold step at hs
  split at hs
  · cases hs
  cases l with
  | create name | fork fromId name | rename id name | truncate id size =>
      refine .inr (.inr ⟨by simp, ?_⟩)
      obtain rfl := Option.some.inj hs
      split
      all_goals first | exact hop _ | rfl
  | delete id =>
      refine .inr (.inr ⟨by simp, ?_⟩)
      obtain rfl := Option.some.inj hs
      exact hop _
  | «open» id write =>
      refine .inr (.inr ⟨by simp, ?_⟩)
      obtain rfl := Option.some.inj hs
      split <;> rfl
  | close id =>
      refine .inr (.inr ⟨by simp, ?_⟩)
      simp only at hs
      split at hs
      · cases hs
      split_ifs at hs
      obtain rfl := Option.some.inj hs
      rfl
  | superFlush ondisk | flush file | compact | requeue file =>
      refine .inr (.inr ⟨by simp, ?_⟩)
      obtain rfl := Option.some.inj hs
      rfl
  | read file off len =>
      refine .inr (.inr ⟨by simp, ?_⟩)
      simp only at hs
      split at hs
      · cases hs
      split_ifs at hs
      · obtain rfl := Option.some.inj hs
        rfl
      · obtain rfl := Option.some.inj hs
        rfl
  | write file off len | discard file off len =>
      refine .inr (.inr ⟨by simp, ?_⟩)
      simp only at hs
      split at hs
      · cases hs
      obtain rfl := Option.some.inj hs
      split_ifs <;> rfl
  | call c ok =>
      refine .inr (.inr ⟨by simp, ?_⟩)
      simp only at hs
      split_ifs at hs
      exact active_callStep hs
  | handlerWrite c start len data =>
      refine .inr (.inr ⟨by simp, ?_⟩)
      simp only at hs
      split at hs
      · split_ifs at hs
        obtain rfl := Option.some.inj hs
        rfl
      · cases hs
  | get =>
      simp only at hs
      split at hs
      · rename_i ha _
        exact .inl ⟨rfl, ha⟩
      · cases hs
  | done err m junk =>
      simp only at hs
      split at hs
      · rename_i t ht
        exact .inr (.inl ⟨err, m, junk, t, rfl, ht, (Option.some.inj hs).symm⟩)
      · cases hs

theorem runTask_of_step {t : Task} {err m : Bool} {junk : Buf} (ht : σ.active = some t)
    (hs : σ.step (.done err m junk) = some σ') :
    σ' = { σ with active := none }.runTask t err m junk := by
  unfold step at hs
  split at hs
  · cases hs
  · simp only [ht] at hs
    exact (Option.some.inj hs).symm

end Sys

end Cyanfs
