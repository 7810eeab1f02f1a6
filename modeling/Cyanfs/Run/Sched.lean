/-
# The order of the task queue

A flusher queues its tasks at the tail, in the order writer, after, free; a
callback that goes on queues the next task of the same flusher at the head.  So
the tasks of the flushers stay sorted, by the number of the flusher and then by
their place in it (`Sched.sorted`), and at most one record of a flusher is on its
way to the disk, in front of everything else that the flushers have to do
(`Sched.first`).

From this follows the account of the journal (`Accounted`): as long as the super
is not marked, every entry that was appended has been written, or a queued writer
holds it, or it is still in `journal_head`, in this order.  Marked or not, what was
written is a prefix of what was appended.
-/

import Cyanfs.Core.Calls

namespace Cyanfs

open Lib Std

/-- The place of a flusher's task among all of them. -/
def Task.order : Task → Option ℕ
  | .before fl _ => some (4 * fl)
  | .writer fl _ => some (4 * fl + 1)
  | .after fl _ => some (4 * fl + 2)
  | .free fl => some (4 * fl + 3)
  | _ => none

/-- The fields of a COPY task. -/
def Task.copy? : Task → Option (ℕ × ℕ × ℕ × ℕ)
  | .copy file i b src => some (file, i, b, src)
  | _ => none

/-- The entries of the record that a task is about to write. -/
def Task.requested : Task → List Entry
  | .writer _ (some req) => req.entries
  | _ => []

/-- The entries that a queued writer holds. -/
def Task.entries (fs : ExtTreeMap ℕ Flusher) : Task → List Entry
  | .writer fl io => (Task.writer fl io).requested ++
      ((fs[fl]?).map fun t => t.head.map (·.entry)).getD []
  | _ => []

/-- A task that is neither a flusher's nor a COPY. -/
def Task.Plain (t : Task) : Prop := t.order = none ∧ t.copy? = none

/-- The tasks of the flushers are in order, and their flushers exist. -/
structure Sched (ts : List Task) (fs : ExtTreeMap ℕ Flusher) : Prop where
  sorted : (ts.filterMap Task.order).Pairwise (· < ·)
  alive : ∀ n ∈ ts.filterMap Task.order, ∃ t, fs[n / 4]? = some t
  first : ∀ fl req, .writer fl (some req) ∈ ts → ∀ n ∈ ts.filterMap Task.order, fl ≤ n / 4

/-! ### Lists of tasks -/

theorem filterMap_order_of_plain {ts : List Task} (h : ∀ t ∈ ts, t.Plain) :
    ts.filterMap Task.order = [] := by
  rw [List.filterMap_eq_nil_iff]
  exact fun t ht => (h t ht).1

theorem filterMap_copy_of_plain {ts : List Task} (h : ∀ t ∈ ts, t.Plain) :
    ts.filterMap Task.copy? = [] := by
  rw [List.filterMap_eq_nil_iff]
  exact fun t ht => (h t ht).2

theorem requested_of_order {t : Task} (h : t.order = none) : t.requested = [] := by
  cases t <;> first | rfl | cases h

theorem entries_of_order {t : Task} (h : t.order = none) (fs : ExtTreeMap ℕ Flusher) :
    t.entries fs = [] := by
  cases t <;> first | rfl | cases h

theorem flatMap_eq_nil_of_plain {ts : List Task} {g : Task → List Entry} (h : ∀ t ∈ ts, t.Plain)
    (hg : ∀ t : Task, t.order = none → g t = []) : ts.flatMap g = [] := by
  rw [List.flatMap_eq_nil_iff]
  exact fun t ht => hg t (h t ht).1

/-- Plain tasks at the tail do not disturb the order. -/
theorem Sched.append {ts us : List Task} {fs : ExtTreeMap ℕ Flusher} (h : Sched ts fs)
    (hp : ∀ t ∈ us, t.Plain) : Sched (ts ++ us) fs := by
  have ho : (ts ++ us).filterMap Task.order = ts.filterMap Task.order := by
    rw [List.filterMap_append, filterMap_order_of_plain hp, List.append_nil]
  refine ⟨ho ▸ h.sorted, ho ▸ h.alive, fun fl req hm => ?_⟩
  rw [ho]
  rcases List.mem_append.1 hm with hm | hm
  · exact h.first fl req hm
  · exact absurd (hp _ hm).1 (by simp [Task.order])

/-- What the order says about the queue behind an active task of flusher `fl`. -/
theorem Sched.behind {t : Task} {ts : List Task} {fs : ExtTreeMap ℕ Flusher} {n : ℕ}
    (h : Sched (t :: ts) fs) (hn : t.order = some n) :
    (∀ k ∈ ts.filterMap Task.order, n < k) ∧ (ts.filterMap Task.order).Pairwise (· < ·) ∧
      (∀ k ∈ ts.filterMap Task.order, ∃ f, fs[k / 4]? = some f) ∧ ∃ f, fs[n / 4]? = some f := by
  have hs := h.sorted
  have ha := h.alive
  rw [List.filterMap_cons_some hn] at hs ha
  rw [List.pairwise_cons] at hs
  exact ⟨hs.1, hs.2, fun k hk => ha k (List.mem_cons_of_mem _ hk), ha n List.mem_cons_self⟩

/-- No record is on its way behind an active task of a flusher, except that of
the flusher itself. -/
theorem Sched.behind_first {t : Task} {ts : List Task} {fs : ExtTreeMap ℕ Flusher} {n fl : ℕ}
    {req : WriteReq} (h : Sched (t :: ts) fs) (hn : t.order = some n)
    (hm : .writer fl (some req) ∈ ts) : n = 4 * fl := by
  have hle := h.first fl req (List.mem_cons_of_mem _ hm) n
    (by rw [List.filterMap_cons_some hn]; exact List.mem_cons_self)
  have hlt := (h.behind hn).1 (4 * fl + 1) (List.mem_filterMap.2 ⟨_, hm, rfl⟩)
  omega

theorem Sched.requested_nil {t : Task} {ts : List Task} {fs : ExtTreeMap ℕ Flusher} {n : ℕ}
    (h : Sched (t :: ts) fs) (hn : t.order = some n) (h4 : n % 4 ≠ 0) :
    ts.flatMap Task.requested = [] := by
  rw [List.flatMap_eq_nil_iff]
  intro t' ht'
  cases t' with
  | writer fl io =>
      cases io with
      | none => rfl
      | some req =>
          have := h.behind_first hn ht'
          omega
  | _ => rfl

/-- The flusher of the active task changes, and it queues tasks of its own at the
head, at its place or the one before. -/
theorem Sched.head {t : Task} {ts : List Task} {fs fs' : ExtTreeMap ℕ Flusher} {n : ℕ}
    (h : Sched (t :: ts) fs) (us : List Task) (hn : t.order = some n)
    (hus : (us.filterMap Task.order).Pairwise (· < ·))
    (hle : ∀ k ∈ us.filterMap Task.order, k ≤ n ∧ k / 4 = n / 4)
    (hfs : ∀ k, k ∈ (us ++ ts).filterMap Task.order → (∃ f, fs[k / 4]? = some f) →
      ∃ f, fs'[k / 4]? = some f) : Sched (us ++ ts) fs' := by
  obtain ⟨hlt, hsort, halive, hown⟩ := h.behind hn
  have ho : (us ++ ts).filterMap Task.order = us.filterMap Task.order ++ ts.filterMap Task.order :=
    List.filterMap_append
  refine ⟨?_, ?_, ?_⟩
  · rw [ho, List.pairwise_append]
    refine ⟨hus, hsort, fun a ha b hb => ?_⟩
    have := (hle a ha).1
    have := hlt b hb
    omega
  · intro k hk
    refine hfs k hk ?_
    rw [ho] at hk
    rcases List.mem_append.1 hk with hk | hk
    · rw [(hle k hk).2]
      exact hown
    · exact halive k hk
  · intro fl req hm k hk
    -- the record is the flusher's own, and every task left is of it or of a later one
    have hfl : fl = n / 4 := by
      rcases List.mem_append.1 hm with hm | hm
      · have := (hle (4 * fl + 1) (List.mem_filterMap.2 ⟨_, hm, rfl⟩)).2
        omega
      · have := h.behind_first hn hm
        omega
    rw [ho] at hk
    rcases List.mem_append.1 hk with hk | hk
    · have := (hle k hk).2
      omega
    · have := hlt k hk
      omega

/-- Tasks of other flushers do not see that flusher `fl` has changed. -/
theorem flatMap_entries_congr {ts : List Task} (fs fs' : ExtTreeMap ℕ Flusher) {n : ℕ}
    (hlt : ∀ k ∈ ts.filterMap Task.order, n < k) (h4 : n % 4 ≠ 0)
    (hfs : ∀ k, k ≠ n / 4 → fs'[k]? = fs[k]?) :
    ts.flatMap (Task.entries fs') = ts.flatMap (Task.entries fs) := by
  induction ts with
  | nil => rfl
  | cons t ts ih =>
      have hrest : ∀ k ∈ ts.filterMap Task.order, n < k := by
        intro k hk
        apply hlt k
        rw [List.filterMap_cons]
        split
        · exact hk
        · exact List.mem_cons_of_mem _ hk
      rw [List.flatMap_cons, List.flatMap_cons, ih hrest]
      congr 1
      cases t with
      | writer fl io =>
          have := hlt (4 * fl + 1) (by rw [List.filterMap_cons]; exact List.mem_cons_self)
          simp only [Task.entries]
          rw [hfs fl (by omega)]
      | _ => rfl

/-- The flusher changes something other than its head. -/
theorem flatMap_entries_of_head {fs fs' : ExtTreeMap ℕ Flusher}
    (hfs : ∀ k : ℕ, (fs'[k]?).map Flusher.head = (fs[k]?).map Flusher.head) (ts : List Task) :
    ts.flatMap (Task.entries fs') = ts.flatMap (Task.entries fs) := by
  have : Task.entries fs' = Task.entries fs := by
    funext t
    cases t with
    | writer fl io =>
        simp only [Task.entries]
        have := hfs fl
        cases h₁ : fs[fl]? <;> cases h₂ : fs'[fl]? <;> simp_all
    | _ => rfl
  rw [this]

theorem flushers_insert (fs : ExtTreeMap ℕ Flusher) (fl : ℕ) (t : Flusher) (k : ℕ) :
    (fs.insert fl t)[k]? = if k = fl then some t else fs[k]? := by
  grind

theorem flushers_erase (fs : ExtTreeMap ℕ Flusher) (fl k : ℕ) :
    (fs.erase fl)[k]? = if k = fl then none else fs[k]? := by
  grind

/-! ### What a writer takes from its head -/

theorem selectEntries_append {limit used : ℕ} {head taken rest : List JEntry} {u : ℕ}
    (h : selectEntries limit used head = some (taken, u, rest)) : head = taken ++ rest := by
  induction head generalizing used taken with
  | nil =>
      simp only [selectEntries, Option.some.injEq, Prod.mk.injEq] at h
      obtain ⟨rfl, -, rfl⟩ := h
      rfl
  | cons j js ih =>
      unfold selectEntries at h
      split_ifs at h with h₁ h₂
      · simp only [Option.some.injEq, Prod.mk.injEq] at h
        obtain ⟨rfl, -, rfl⟩ := h
        rfl
      · obtain ⟨⟨taken', u', rest'⟩, hs, he⟩ := Option.map_eq_some_iff.1 h
        simp only [Prod.mk.injEq] at he
        obtain ⟨rfl, rfl, rfl⟩ := he
        rw [ih hs, List.cons_append]

theorem layoutRecord_append {c : Cursor} {head : List JEntry} {nextId : Option ℕ} {p : Plan}
    (h : layoutRecord c head nextId = some p) : head = p.taken ++ p.rest := by
  unfold layoutRecord at h
  simp only [Option.ite_none_left_eq_some] at h
  obtain ⟨-, -, h⟩ := h
  split at h
  · cases h
  rename_i taken used rest hs
  simp only [Option.ite_none_left_eq_some] at h
  obtain ⟨-, -, -, -, -, h⟩ := h
  obtain rfl := Option.some.inj h
  exact selectEntries_append hs

/-- When a writer callback ends, and what the record it queues takes. -/
theorem writerEncode_cases (s : Super) (c : Cursor) (head : List JEntry) (nextId : Option ℕ)
    (err : Bool) :
    (writerEncode s c head nextId err = .finish → err = false ∧ s.error = false ∧ head = []) ∧
    ∀ s' c' req fl rest, writerEncode s c head nextId err = .write s' c' req fl rest →
      err = false ∧ s.error = false ∧ head.map (·.entry) = req.entries ++ rest.map (·.entry) := by
  unfold writerEncode
  split
  · simp
  rename_i hok
  push Not at hok
  have hok : err = false ∧ s.error = false := by simpa using hok
  split
  · rename_i hh
    exact ⟨fun _ => ⟨hok.1, hok.2, hh⟩, by simp⟩
  split
  · simp
  rename_i p hp
  have happ := layoutRecord_append hp
  have key : ∀ s₀ size next s' c' req fl rest,
      emitRecord s₀ c p.taken p.rest size next = .write s' c' req fl rest →
        head.map (·.entry) = req.entries ++ rest.map (·.entry) := by
    intro s₀ size next s' c' req fl rest he
    simp only [emitRecord, EncodeOut.write.injEq] at he
    obtain ⟨-, -, rfl, -, rfl⟩ := he
    rw [happ, List.map_append]
  split
  · exact ⟨by simp [emitRecord], fun s' c' req fl rest he => ⟨hok.1, hok.2, key _ _ _ _ _ _ _ _ he⟩⟩
  · exact ⟨by simp [emitRecord], fun s' c' req fl rest he => ⟨hok.1, hok.2, key _ _ _ _ _ _ _ _ he⟩⟩
  · split
    · simp
    · exact ⟨by simp [emitRecord], fun s' c' req fl rest he => ⟨hok.1, hok.2, key _ _ _ _ _ _ _ _ he⟩⟩

namespace Sys

/-- The entries that queued journal writers hold. -/
def inFlight (σ : Sys) : List Entry := σ.tasks.flatMap (Task.entries σ.flushers)

/-- The entries of the record that is on its way to the disk. -/
def requested (σ : Sys) : List Entry := σ.tasks.flatMap Task.requested

/-- The COPY tasks. -/
def copies (σ : Sys) : List (ℕ × ℕ × ℕ × ℕ) := σ.tasks.filterMap Task.copy?

/-- The journal is accounted for. -/
structure Accounted (σ : Sys) : Prop where
  sched : Sched σ.tasks σ.flushers
  all : σ.sup.error = false →
    σ.log.appended = σ.log.written ++ (σ.inFlight ++ σ.sup.journalHead.map (·.entry))
  written : σ.log.written ++ σ.requested <+: σ.log.appended

/-- A step that touches no flusher and queues only plain tasks, at the tail. -/
structure Tail (σ σ' : Sys) : Prop where
  flushers : σ'.flushers = σ.flushers
  nextFlusher : σ'.nextFlusher = σ.nextFlusher
  active : σ'.active = σ.active
  queue : ∃ ts, σ'.queue = σ.queue ++ ts ∧ ∀ t ∈ ts, t.Plain
  appended : σ'.log.appended = σ.log.appended
  written : σ'.log.written = σ.log.written
  journalHead : σ'.sup.journalHead = σ.sup.journalHead
  error : σ'.sup.error = false → σ.sup.error = false

variable {σ σ' σ'' : Sys}

/-! ### Steps at the tail -/

theorem Tail.refl (σ : Sys) : σ.Tail σ := ⟨rfl, rfl, rfl, ⟨[], by simp, by simp⟩, rfl, rfl, rfl, id⟩

theorem Tail.trans (h : σ.Tail σ') (h' : σ'.Tail σ'') : σ.Tail σ'' := by
  obtain ⟨ts, hq, hp⟩ := h.queue
  obtain ⟨ts', hq', hp'⟩ := h'.queue
  refine ⟨h'.flushers.trans h.flushers, h'.nextFlusher.trans h.nextFlusher,
    h'.active.trans h.active, ⟨ts ++ ts', ?_, ?_⟩, h'.appended.trans h.appended,
    h'.written.trans h.written, h'.journalHead.trans h.journalHead, fun he => h.error (h'.error he)⟩
  · rw [hq', hq, List.append_assoc]
  · intro t ht
    rcases List.mem_append.1 ht with ht | ht
    · exact hp t ht
    · exact hp' t ht

/-- Nothing is queued, and the super keeps its head and its mark. -/
theorem tail_sup {s : Super} (hj : s.journalHead = σ.sup.journalHead)
    (he : s.error = false → σ.sup.error = false) : σ.Tail { σ with sup := s } :=
  ⟨rfl, rfl, rfl, ⟨[], by simp, by simp⟩, rfl, rfl, hj, he⟩

theorem tail_addTail (σ : Sys) {t : Task} (ht : t.Plain) : σ.Tail (σ.addTail t) :=
  ⟨rfl, rfl, rfl, ⟨[t], rfl, by simpa using ht⟩, rfl, rfl, rfl, id⟩

theorem tail_ioWrite (σ : Sys) (w : DiskWrite) (err : Bool) (junk : Buf) :
    σ.Tail (σ.ioWrite w err junk) := ⟨rfl, rfl, rfl, ⟨[], by simp [ioWrite], by simp⟩, rfl, rfl, rfl, id⟩

theorem tail_ioFlush (σ : Sys) (err : Bool) : σ.Tail (σ.ioFlush err) := by
  unfold ioFlush
  split_ifs
  · exact .refl σ
  · exact ⟨rfl, rfl, rfl, ⟨[], by simp, by simp⟩, rfl, rfl, rfl, id⟩

theorem plain_discard (io : Option (ℕ × ℕ)) : (Task.discard io).Plain := ⟨rfl, rfl⟩

theorem tail_discardExtents (σ : Sys) (X : Finset ℕ) : σ.Tail (σ.discardExtents X) := by
  unfold discardExtents
  simp only
  split_ifs
  · exact .refl σ
  · exact tail_sup rfl id
  · exact ⟨rfl, rfl, rfl, ⟨[.discard none], rfl, by simp [plain_discard]⟩, rfl, rfl, rfl, id⟩
  · exact tail_sup rfl id

theorem tail_discardBegin (σ : Sys) : σ.Tail σ.discardBegin := by
  unfold discardBegin
  simp only
  split
  · exact tail_sup rfl id
  · exact ⟨rfl, rfl, rfl, ⟨[.discard _], rfl, by simp [plain_discard]⟩, rfl, rfl, rfl, id⟩

theorem tail_discardDone (σ : Sys) : σ.Tail σ.discardDone := by
  unfold discardDone
  refine .trans ?_ (tail_discardBegin _)
  exact tail_sup rfl id

theorem tail_flusherAfterFlush (σ : Sys) (err : Bool) : σ.Tail (σ.flusherAfterFlush err) := by
  unfold flusherAfterFlush
  simp only
  split_ifs
  · exact tail_sup rfl (by simp [Super.markError])
  · exact .refl σ
  · exact tail_sup rfl id
  · exact .trans (tail_sup (s := { σ.sup with flushFlag := true }) rfl id) (tail_sup rfl id)
  · exact .trans (.trans (tail_sup (s := { σ.sup with flush := ∅ }) rfl id) (tail_discardExtents _ _))
      (tail_sup rfl id)

theorem tail_flusherWriteFinish (σ : Sys) (t : Flusher) : σ.Tail (σ.flusherWriteFinish t) := by
  have h : σ.Tail (if wantFlush σ.sup t then { σ with sup := { σ.sup with flushFlag := true } }
      else σ) := by
    split_ifs
    · exact tail_sup rfl id
    · exact .refl σ
  unfold flusherWriteFinish
  simp only
  split_ifs at h ⊢ <;> first | exact h | exact ⟨rfl, rfl, rfl, h.queue, rfl, rfl, rfl, id⟩

theorem tail_compactError (σ : Sys) : σ.Tail σ.compactError :=
  ⟨rfl, rfl, rfl, ⟨[], by simp [compactError, compactFail], by simp⟩, rfl, rfl, rfl,
    by simp [compactError, compactFail]⟩

theorem tail_compactLoaded (σ : Sys) (t : Compact) (m : Bool) (out : LoaderOut) :
    σ.Tail (σ.compactLoaded t m out) := by
  unfold compactLoaded
  split
  · exact ⟨rfl, rfl, rfl, ⟨[.compactPage], rfl, by simp [Task.Plain, Task.order, Task.copy?]⟩, rfl,
      rfl, rfl, id⟩
  · unfold compactLoaderFinish
    split
    · split
      · exact tail_compactError σ
      · simp only
        split
        · exact ⟨rfl, rfl, rfl, ⟨[.compactWriteSuper false], rfl,
            by simp [Task.Plain, Task.order, Task.copy?]⟩, rfl, rfl, rfl, id⟩
        · split
          · exact tail_compactError σ
          · exact ⟨rfl, rfl, rfl, ⟨[.compactWriter none], rfl,
              by simp [Task.Plain, Task.order, Task.copy?]⟩, rfl, rfl, rfl, id⟩
    · exact tail_compactError σ
  · exact tail_compactError σ

/-- What a writer callback does to the head and the mark of the super. -/
theorem writerEncode_frame {s : Super} {c : Cursor} {head : List JEntry} {nextId : Option ℕ}
    {err : Bool} :
    (∀ s', writerEncode s c head nextId err = .error s' → s'.journalHead = s.journalHead ∧
      (s'.error = false → s.error = false)) ∧
    (∀ s' c' req fl rest, writerEncode s c head nextId err = .write s' c' req fl rest →
      s'.journalHead = s.journalHead ∧ s'.error = s.error) := by
  constructor
  · intro s' h
    rcases writerEncode_super.1 s' h with rfl | rfl
    · exact ⟨rfl, id⟩
    · exact ⟨rfl, by simp [Super.markError]⟩
  · intro s' c' req fl rest h
    rcases writerEncode_super.2 s' c' req fl rest h with rfl | ⟨b, -, rfl⟩
    · exact ⟨rfl, rfl⟩
    · exact ⟨rfl, rfl⟩

theorem tail_compactEncode (σ : Sys) (t : Compact) (err : Bool) : σ.Tail (σ.compactEncode t err) := by
  unfold compactEncode
  split
  · rename_i s hs
    have hw := writerEncode_frame.1 s hs
    exact .trans (tail_sup hw.1 hw.2) (tail_compactError _)
  · exact tail_addTail σ ⟨rfl, rfl⟩
  · rename_i s c req fl rest hs
    have hw := writerEncode_frame.2 s c req fl rest hs
    exact ⟨rfl, rfl, rfl, ⟨[.compactWriter (some req)], rfl,
      by simp [Task.Plain, Task.order, Task.copy?]⟩, rfl, rfl, hw.1, fun he => hw.2 ▸ he⟩

theorem tail_compactWriteSuper (σ : Sys) (t : Compact) (err : Bool) :
    σ.Tail (σ.compactWriteSuper t err) := by
  unfold compactWriteSuper
  simp only
  split_ifs
  · exact tail_compactError σ
  · exact ⟨rfl, rfl, rfl, ⟨[_], rfl, by simp [Task.Plain, Task.order, Task.copy?]⟩, rfl, rfl, rfl, id⟩

theorem tail_compactFlushSuper (σ : Sys) (err : Bool) : σ.Tail (σ.compactFlushSuper err) := by
  unfold compactFlushSuper
  split_ifs
  · exact tail_compactError σ
  · exact tail_addTail σ ⟨rfl, rfl⟩

theorem tail_compactFinish (σ : Sys) (t : Compact) (err : Bool) : σ.Tail (σ.compactFinish t err) := by
  unfold compactFinish
  simp only
  split_ifs
  · exact tail_compactError σ
  · split
    · refine .trans (.trans ?_ (tail_discardExtents _ t.priv.journal))
        ⟨rfl, rfl, rfl, ⟨[], by simp, by simp⟩, rfl, rfl, rfl, id⟩
      exact tail_sup rfl id
    · refine .trans (.trans ?_ (tail_discardExtents _ _)) (tail_compactError _)
      exact tail_sup rfl id

/-! ### Steps at the tail keep the account -/

theorem Tail.tasks (h : σ.Tail σ') : ∃ ts, σ'.tasks = σ.tasks ++ ts ∧ ∀ t ∈ ts, t.Plain := by
  obtain ⟨ts, hq, hp⟩ := h.queue
  refine ⟨ts, ?_, hp⟩
  rw [Sys.tasks, Sys.tasks, h.active, hq, List.append_assoc]

theorem Tail.copies (h : σ.Tail σ') : σ'.copies = σ.copies := by
  obtain ⟨ts, ht, hp⟩ := h.tasks
  rw [Sys.copies, ht, List.filterMap_append, filterMap_copy_of_plain hp, List.append_nil]
  rfl

/-- **A step at the tail keeps the account.** -/
theorem Accounted.tail (h : σ.Accounted) (ht : σ.Tail σ') : σ'.Accounted := by
  obtain ⟨ts, htasks, hp⟩ := ht.tasks
  have hin : σ'.inFlight = σ.inFlight := by
    rw [inFlight, htasks, ht.flushers, List.flatMap_append,
      flatMap_eq_nil_of_plain hp fun t h => entries_of_order h σ.flushers,
      List.append_nil]
    rfl
  have hreq : σ'.requested = σ.requested := by
    rw [requested, htasks, List.flatMap_append,
      flatMap_eq_nil_of_plain hp fun t => requested_of_order, List.append_nil]
    rfl
  refine ⟨?_, fun he => ?_, ?_⟩
  · rw [htasks, ht.flushers]
    exact h.sched.append hp
  · rw [ht.appended, ht.written, hin, ht.journalHead]
    exact h.all (ht.error he)
  · rw [ht.appended, ht.written, hreq]
    exact h.written

/-! ### The active task -/

theorem tasks_of_active {t : Task} (ht : σ.active = some t) : σ.tasks = t :: σ.queue := by
  simp [tasks, ht]

/-- A task whose callback has nothing to do with the journal is off the list. -/
theorem Accounted.drop {t : Task} (h : σ.Accounted) (ht : σ.active = some t) (hp : t.order = none) :
    Accounted { σ with active := none } := by
  have htasks := tasks_of_active ht
  have hrest : Sys.tasks { σ with active := none } = σ.queue := rfl
  have ho : σ.tasks.filterMap Task.order = σ.queue.filterMap Task.order := by
    rw [htasks, List.filterMap_cons_none hp]
  refine ⟨?_, fun he => ?_, ?_⟩
  · rw [hrest]
    refine ⟨ho ▸ h.sched.sorted, ho ▸ h.sched.alive, fun fl req hm => ?_⟩
    rw [← ho]
    exact h.sched.first fl req (by rw [htasks]; exact List.mem_cons_of_mem _ hm)
  · have := h.all he
    rw [inFlight, htasks, List.flatMap_cons, entries_of_order hp] at this
    exact this
  · have := h.written
    rw [requested, htasks, List.flatMap_cons, requested_of_order hp] at this
    exact this

end Sys

end Cyanfs
