/-
# The worker of the Linux driver

`cyanfs_backend_loop`, `cyanfs_backend_work`, `cyanfs_backend_wait_tasks`, `cyanfs_backend_sync`
and `cyanfs_new_task` of `linux/main.c` around the core.  A thread that finds the task list empty
when it adds to it calls `cyanfs_super_new_task` afterwards, outside the lock, and that queues the
work item; all others rely on it.  A callback adds to the list without a call, since it runs in
the loop itself.  `cyanfs_backend_wait_tasks` puts a waiter into a list that the work function
takes over before it starts the loop, and completes the waiters that it has taken behind it.
The caller of `cyanfs_backend_wait_tasks` is not the worker; the source warns about that and
returns `EDEADLK`.

The kernel is a parameter: `Workqueue` is what it keeps of a work item, with what its documentation
promises.  An item that was queued is pending, the function of a pending item is called when it
does not run, and it does not run twice at a time.

So a task or a waiter is always somebody's business (`Alert`), and nothing is left when everybody
rests (`worker_rests_empty`); `cyanfs_backend_wait_tasks` returns only behind a moment at which the
list was empty and no task was running (`wait_tasks_drains`); and a `cyanfs_backend_sync` that
returns 0 has brought the journal to stable storage (`backend_sync_durable`), where it survives a
power loss (`synced_survives_power_loss`).
-/

import Cyanfs.Run.Recovery

namespace Cyanfs

open Lib Std

/-- Where `cyanfs_backend_work` is: not running, called, in `cyanfs_backend_loop`, or behind it. -/
inductive WorkPhase where
  | idle | entered | loop | leaving
  deriving DecidableEq

/-- The kernel as far as a work item goes. -/
structure Workqueue where
  /-- `struct work_struct` -/
  Item : Type
  /-- `INIT_WORK` -/
  fresh : Item
  /-- `queue_work` -/
  queue : Item → Item
  pending : Item → Bool
  /-- the call of the function, which is running or not -/
  call : Item → Bool → Option Item
  queued : ∀ i, pending (queue i) = true
  served : ∀ i, pending i = true → (call i false).isSome = true
  once : ∀ i, call i true = none

/-- A kernel that keeps the mark only. -/
def Workqueue.marked : Workqueue where
  Item := Bool
  fresh := false
  queue _ := true
  pending i := i
  call i running := if i = true ∧ running = false then some false else none
  queued _ := rfl
  served _ h := by simp [h]
  once _ := by simp

/-- A backend with its work item. -/
structure Worker (k : Workqueue) where
  sys : Sys
  /-- threads that have added to an empty list and have not called `cyanfs_new_task` yet -/
  owing : ℕ
  /-- `sync_waiters` of the backend -/
  waiters : List ℕ
  /-- waiters whose thread has not called `queue_work` yet -/
  asking : List ℕ
  /-- `work` of the backend -/
  item : k.Item
  phase : WorkPhase
  /-- the local list `sync_waiters` of the work function -/
  held : List ℕ
  /-- waiters that are completed -/
  woken : List ℕ

/-- What can happen next. -/
inductive WorkerLabel where
  /-- another thread is in the core -/
  | thread (l : Label)
  | newTask
  /-- `cyanfs_backend_wait_tasks` adds its waiter -/
  | wait (w : ℕ)
  /-- and calls `queue_work` -/
  | ask (w : ℕ)
  /-- the kernel calls the work function -/
  | start
  /-- `list_splice_init` -/
  | splice
  | get
  | done (err malloc : Bool) (junk : Buf)
  /-- `cyanfs_super_get_task` returns `NULL` -/
  | leave
  /-- `complete`, or the end of the function -/
  | complete

/-- Steps of the core that only the loop takes. -/
def Label.isLoop : Label → Bool
  | .get | .done .. => true
  | _ => false

/-- What the worker does, and the calls that threads owe it. -/
def WorkerLabel.isDue : WorkerLabel → Bool
  | .thread _ | .wait _ => false
  | _ => true

namespace Worker

variable {k : Workqueue}

/-- A backend behind `cyanfs_backend_open`, which has run the loop of the mount itself. -/
def init (k : Workqueue) (σ : Sys) : Worker k := ⟨σ, 0, [], [], k.fresh, .idle, [], []⟩

/-- One step. -/
def step (s : Worker k) : WorkerLabel → Option (Worker k)
  | .thread l =>
      if l.isLoop then none
      else (s.sys.step l).map fun sys => { s with
        sys := sys
        owing := if s.sys.queue = [] ∧ sys.queue ≠ [] then s.owing + 1 else s.owing }
  | .newTask =>
      if s.owing = 0 then none else some { s with owing := s.owing - 1, item := k.queue s.item }
  | .wait w =>
      if w ∈ s.waiters ∨ w ∈ s.asking ∨ w ∈ s.held ∨ w ∈ s.woken then none
      else some { s with waiters := s.waiters ++ [w], asking := w :: s.asking }
  | .ask w =>
      if w ∈ s.asking then some { s with asking := s.asking.erase w, item := k.queue s.item }
      else none
  | .start =>
      (k.call s.item (s.phase ≠ .idle)).map fun i => { s with item := i, phase := .entered }
  | .splice =>
      if s.phase = .entered then some { s with waiters := [], held := s.waiters, phase := .loop }
      else none
  | .get => if s.phase = .loop then (s.sys.step .get).map fun sys => { s with sys := sys } else none
  | .done err m junk =>
      if s.phase = .loop then (s.sys.step (.done err m junk)).map fun sys => { s with sys := sys }
      else none
  | .leave =>
      if s.phase = .loop ∧ s.sys.active = none ∧ s.sys.queue = [] then
        some { s with phase := .leaving }
      else none
  | .complete =>
      if s.phase = .leaving then
        match s.held with
        | w :: ws => some { s with held := ws, woken := w :: s.woken }
        | [] => some { s with phase := .idle }
      else none

/-- A run of the given labels. -/
def run : Worker k → List WorkerLabel → Option (Worker k)
  | s, [] => some s
  | s, l :: ls => (s.step l).bind fun s => s.run ls

variable {s s' : Worker k} {σ : Sys}

theorem run_append (s : Worker k) (as bs : List WorkerLabel) :
    s.run (as ++ bs) = (s.run as).bind fun t => t.run bs := by
  induction as generalizing s with
  | nil => rfl
  | cons l as ih =>
      rw [List.cons_append, Worker.run, Worker.run, Option.bind_assoc]
      exact congrArg _ (funext ih)

theorem exists_run_append {t : Worker k} (as bs : List WorkerLabel)
    (h : s.run (as ++ bs) = some t) : ∃ m, s.run as = some m ∧ m.run bs = some t := by
  rw [run_append] at h
  exact Option.bind_eq_some_iff.1 h

/-- What one step does. -/
inductive Acts (s : Worker k) : WorkerLabel → Worker k → Prop where
  | thread {l : Label} {τ : Sys} (hl : l.isLoop = false) (hs : s.sys.step l = some τ) :
      s.Acts (.thread l) { s with
        sys := τ
        owing := if s.sys.queue = [] ∧ τ.queue ≠ [] then s.owing + 1 else s.owing }
  | newTask : s.Acts .newTask { s with owing := s.owing - 1, item := k.queue s.item }
  | wait {w : ℕ} (hheld : w ∉ s.held) (hwoken : w ∉ s.woken) :
      s.Acts (.wait w) { s with waiters := s.waiters ++ [w], asking := w :: s.asking }
  | ask {w : ℕ} : s.Acts (.ask w) { s with asking := s.asking.erase w, item := k.queue s.item }
  | start {i : k.Item} (hp : s.phase = .idle) : s.Acts .start { s with item := i, phase := .entered }
  | splice (hp : s.phase = .entered) :
      s.Acts .splice { s with waiters := [], held := s.waiters, phase := .loop }
  | get {τ : Sys} (hp : s.phase = .loop) (hs : s.sys.step .get = some τ) :
      s.Acts .get { s with sys := τ }
  | done {err m : Bool} {junk : Buf} {τ : Sys} (hp : s.phase = .loop)
      (hs : s.sys.step (.done err m junk) = some τ) :
      s.Acts (.done err m junk) { s with sys := τ }
  | leave (hp : s.phase = .loop) (ha : s.sys.active = none) (hq : s.sys.queue = []) :
      s.Acts .leave { s with phase := .leaving }
  | complete {w : ℕ} {ws : List ℕ} (hp : s.phase = .leaving) (hh : s.held = w :: ws) :
      s.Acts .complete { s with held := ws, woken := w :: s.woken }
  | finish (hp : s.phase = .leaving) (hh : s.held = []) : s.Acts .complete { s with phase := .idle }

theorem acts_of_step {l : WorkerLabel} (hs : s.step l = some s') : s.Acts l s' := by
  cases l with
  | thread l =>
      simp only [Worker.step] at hs
      split_ifs at hs with hl
      obtain ⟨τ, hτ, rfl⟩ := Option.map_eq_some_iff.1 hs
      exact .thread (by simpa using hl) hτ
  | newTask =>
      simp only [Worker.step] at hs
      split_ifs at hs
      exact Option.some.inj hs ▸ .newTask
  | wait w =>
      simp only [Worker.step] at hs
      split_ifs at hs with hc
      push Not at hc
      exact Option.some.inj hs ▸ .wait hc.2.2.1 hc.2.2.2
  | ask w =>
      simp only [Worker.step] at hs
      split_ifs at hs
      exact Option.some.inj hs ▸ .ask
  | start =>
      simp only [Worker.step] at hs
      obtain ⟨i, hi, rfl⟩ := Option.map_eq_some_iff.1 hs
      refine .start ?_
      by_contra hp
      rw [decide_eq_true hp, k.once] at hi
      cases hi
  | splice =>
      simp only [Worker.step] at hs
      split_ifs at hs with hp
      exact Option.some.inj hs ▸ .splice hp
  | get =>
      simp only [Worker.step] at hs
      split_ifs at hs with hp
      obtain ⟨τ, hτ, rfl⟩ := Option.map_eq_some_iff.1 hs
      exact .get hp hτ
  | done err m junk =>
      simp only [Worker.step] at hs
      split_ifs at hs with hp
      obtain ⟨τ, hτ, rfl⟩ := Option.map_eq_some_iff.1 hs
      exact .done hp hτ
  | leave =>
      simp only [Worker.step] at hs
      split_ifs at hs with hc
      exact Option.some.inj hs ▸ .leave hc.1 hc.2.1 hc.2.2
  | complete =>
      simp only [Worker.step] at hs
      split_ifs at hs with hp
      split at hs
      · rename_i w ws hh
        exact Option.some.inj hs ▸ .complete hp hh
      · rename_i hh
        exact Option.some.inj hs ▸ .finish hp hh

/-! ### Somebody sees to it -/

/-- A queued task is in the loop's way or the work item is, and so is a waiter. -/
structure Alert (s : Worker k) : Prop where
  tasks : s.sys.queue ≠ [] →
    0 < s.owing ∨ k.pending s.item = true ∨ s.phase = .entered ∨ s.phase = .loop
  waiters : ∀ w ∈ s.waiters, w ∈ s.asking ∨ k.pending s.item = true ∨ s.phase = .entered
  active : s.sys.active ≠ none → s.phase = .loop
  held : s.held ≠ [] → s.phase = .loop ∨ s.phase = .leaving

theorem alert_init (hq : σ.queue = []) (ha : σ.active = none) : (init k σ).Alert where
  tasks h := absurd hq h
  waiters _ hw := absurd hw List.not_mem_nil
  active h := absurd ha h
  held h := absurd rfl h

/-- The core changes the active task in the loop only. -/
theorem active_of_thread {l : Label} {τ : Sys} (hl : l.isLoop = false) (hs : σ.step l = some τ) :
    τ.active = σ.active := by
  rcases Sys.active_step hs with ⟨rfl, -⟩ | ⟨err, m, junk, t, rfl, -⟩ | ⟨-, ha⟩
  · cases hl
  · cases hl
  · exact ha

theorem Alert.leaving (h : s.Alert) (hp : s.phase = .leaving) :
    (s.sys.queue ≠ [] → 0 < s.owing ∨ k.pending s.item = true) ∧
      (∀ w ∈ s.waiters, w ∈ s.asking ∨ k.pending s.item = true) ∧ s.sys.active = none := by
  refine ⟨fun hq => ?_, fun w hw => ?_, ?_⟩
  · simpa [hp] using h.tasks hq
  · simpa [hp] using h.waiters w hw
  · by_contra ha
    have := h.active ha
    rw [hp] at this
    cases this

/-- **Every step keeps it so.** -/
theorem Alert.step {l : WorkerLabel} (h : s.Alert) (hs : s.step l = some s') : s'.Alert := by
  cases acts_of_step hs with
  | thread hl hτ =>
      refine ⟨fun hq => ?_, h.waiters, fun ha => h.active ?_, h.held⟩
      · simp only
        by_cases he : s.sys.queue = []
        · rw [if_pos ⟨he, hq⟩]
          exact .inl (Nat.succ_pos _)
        · rw [if_neg fun hc => he hc.1]
          exact h.tasks he
      · rwa [← active_of_thread hl hτ]
  | newTask | ask =>
      have hpending := k.queued s.item
      exact ⟨fun _ => .inr (.inl hpending), fun _ _ => .inr (.inl hpending), h.active, h.held⟩
  | wait =>
      refine ⟨h.tasks, fun v hv => ?_, h.active, h.held⟩
      rcases List.mem_append.1 hv with hv | hv
      · exact (h.waiters v hv).imp_left (List.mem_cons_of_mem _)
      · rw [List.mem_singleton.1 hv]
        exact .inl List.mem_cons_self
  | start hp =>
      refine ⟨fun _ => .inr (.inr (.inl rfl)), fun _ _ => .inr (.inr rfl), fun ha => ?_,
        fun hh => ?_⟩
      · have := h.active ha
        rw [hp] at this
        cases this
      · have := h.held hh
        simp [hp] at this
  | splice =>
      exact ⟨fun _ => .inr (.inr (.inr rfl)), fun w hw => absurd hw List.not_mem_nil, fun _ => rfl,
        fun _ => .inl rfl⟩
  | get hp | done hp =>
      exact ⟨fun _ => .inr (.inr (.inr hp)), h.waiters, fun _ => hp, h.held⟩
  | leave hp ha hq =>
      refine ⟨fun hne => absurd hq hne, fun w hw => ?_, fun hne => absurd ha hne, fun _ => .inr rfl⟩
      have := h.waiters w hw
      simp only [hp, reduceCtorEq, or_false] at this
      exact this.imp_right .inl
  | complete hp hh =>
      obtain ⟨htasks, hwaiters, hactive⟩ := h.leaving hp
      exact ⟨fun hq => (htasks hq).imp_right .inl, fun w hw => (hwaiters w hw).imp_right .inl,
        fun ha => absurd hactive ha, fun _ => .inr hp⟩
  | finish hp hh =>
      obtain ⟨htasks, hwaiters, hactive⟩ := h.leaving hp
      exact ⟨fun hq => (htasks hq).imp_right .inl, fun w hw => (hwaiters w hw).imp_right .inl,
        fun ha => absurd hactive ha, fun hne => absurd hh hne⟩

/-- **Every run keeps it so.** -/
theorem Alert.run {ls : List WorkerLabel} (h : s.Alert) (hs : s.run ls = some s') : s'.Alert := by
  induction ls generalizing s with
  | nil => exact Option.some.inj hs ▸ h
  | cons l ls ih =>
      obtain ⟨t, ht, hrest⟩ := Option.bind_eq_some_iff.1 hs
      exact ih (h.step ht) hrest

/-- Everybody rests: no thread owes a call and the worker has nothing to do. -/
def Rests (s : Worker k) : Prop := ∀ l : WorkerLabel, l.isDue = true → s.step l = none

theorem Rests.phase (hr : s.Rests) (hbug : s.sys.sup.bug = none) : s.phase = .idle := by
  cases hp : s.phase with
  | idle => rfl
  | entered =>
      have := hr .splice rfl
      simp [Worker.step, hp] at this
  | leaving =>
      have := hr .complete rfl
      simp only [Worker.step, hp, if_true] at this
      split at this <;> cases this
  | loop =>
      cases ha : s.sys.active with
      | some t =>
          have := hr (.done false true fun _ => 0) rfl
          simp [Worker.step, hp, Sys.step, hbug, ha] at this
      | none =>
          cases hq : s.sys.queue with
          | nil =>
              have := hr .leave rfl
              simp [Worker.step, hp, ha, hq] at this
          | cons t q =>
              have := hr .get rfl
              simp [Worker.step, hp, Sys.step, hbug, ha, hq] at this

theorem Alert.rests (h : s.Alert) (hbug : s.sys.sup.bug = none) (hr : s.Rests) :
    s.sys.queue = [] ∧ s.sys.active = none ∧ s.waiters = [] ∧ s.held = [] := by
  have hphase := hr.phase hbug
  have howing : s.owing = 0 := by
    have := hr .newTask rfl
    simp only [Worker.step] at this
    split_ifs at this with h0
    exact h0
  have hpending : k.pending s.item = false := by
    by_contra hp
    have hcall := k.served s.item (by simpa using hp)
    have := hr .start rfl
    simp only [Worker.step, hphase, Option.map_eq_none_iff] at this
    rw [show decide (WorkPhase.idle ≠ .idle) = false from rfl] at this
    simp [this] at hcall
  have hasking : s.asking = [] := by
    refine List.eq_nil_iff_forall_not_mem.2 fun w hw => ?_
    have := hr (.ask w) rfl
    simp [Worker.step, hw] at this
  refine ⟨?_, ?_, ?_, ?_⟩
  · by_contra hq
    have := h.tasks hq
    simp [howing, hpending, hphase] at this
  · by_contra ha
    have := h.active ha
    rw [hphase] at this
    cases this
  · refine List.eq_nil_iff_forall_not_mem.2 fun w hw => ?_
    have := h.waiters w hw
    simp [hasking, hpending, hphase] at this
  · by_contra hh
    have := h.held hh
    simp [hphase] at this

/-- **No wakeup is lost.**  In every run of a mounted backend, in whatever order its threads, the
kernel and the worker take their steps: when no thread owes a call and the worker can do nothing
more, no task is queued or running and no waiter is left. -/
theorem worker_rests_empty {ls : List WorkerLabel} (hq : σ.queue = []) (ha : σ.active = none)
    (hrun : (init k σ).run ls = some s) (hbug : s.sys.sup.bug = none) (hrest : s.Rests) :
    s.sys.queue = [] ∧ s.sys.active = none ∧ s.waiters = [] ∧ s.held = [] :=
  ((alert_init hq ha).run hrun).rests hbug hrest

/-! A backend of a small file system, in runs that are evaluated. -/

theorem exists_small (ls : List WorkerLabel) {P : Worker .marked → Prop} [DecidablePred P]
    (h : ((init .marked Sys.small).run ls).any (fun s => decide (P s)) = true) :
    ∃ s, (init .marked Sys.small).run ls = some s ∧ P s := by
  cases hrun : (init .marked Sys.small).run ls with
  | none => simp [hrun] at h
  | some s => exact ⟨s, rfl, of_decide_eq_true (by simpa [hrun] using h)⟩

/-- The first file is made. -/
def createLabels : List WorkerLabel := (.create .letter :: Sys.settle 1).map .thread

/-- `cyanfs_super_flush` queues its flusher, and its thread calls `cyanfs_new_task`. -/
def flushLabels : List WorkerLabel := Sys.syncLabels.map .thread ++ [.newTask]

/-- The loop takes `n` tasks. -/
def loopLabels (n : ℕ) : List WorkerLabel :=
  (List.replicate n [.get, .done false true fun _ => 0]).flatten

/-- What `cyanfs_backend_wait_tasks` and the worker do behind the waiter. -/
def waitLabels : List WorkerLabel :=
  [.ask 0, .start, .splice] ++ loopLabels 5 ++ [.leave, .complete, .complete]

/-- Another file is made, and its record is written. -/
def otherLabels : List WorkerLabel :=
  (.create .other :: Sys.settle 1).map .thread ++ flushLabels ++ [.start, .splice] ++ loopLabels 2

theorem rests_of_idle {s : Worker .marked} (hp : s.phase = .idle) (ho : s.owing = 0)
    (hi : Workqueue.marked.pending s.item = false) (ha : s.asking = []) : s.Rests := by
  intro l hl
  have hcall : Workqueue.marked.call s.item false = none :=
    if_neg fun h => Bool.false_ne_true (hi.symm.trans h.1)
  cases l with
  | thread | wait => cases hl
  | get | done | newTask | ask | start | splice | leave | complete =>
      simp [Worker.step, hp, ho, ha, hcall]

/-- A file is made and synced. -/
theorem worker_rests_empty_synced : ∃ s,
    (init .marked Sys.small).run (createLabels ++ flushLabels ++ .wait 0 :: waitLabels) = some s ∧
    s.woken = [0] ∧ s.sys.log.written = [.create 1 .letter] ∧
    s.sys.queue = [] ∧ s.sys.active = none ∧ s.waiters = [] ∧ s.held = [] := by
  obtain ⟨s, hrun, ⟨hp, ho, hi, ha⟩, hbug, hwoken, hwritten⟩ := exists_small
    (createLabels ++ flushLabels ++ .wait 0 :: waitLabels)
    (P := fun t => (t.phase = .idle ∧ t.owing = 0 ∧ Workqueue.marked.pending t.item = false ∧
      t.asking = []) ∧ t.sys.sup.bug = none ∧ t.woken = [0] ∧
      t.sys.log.written = [.create 1 .letter]) (by decide +kernel)
  exact ⟨s, hrun, hwoken, hwritten,
    worker_rests_empty rfl rfl hrun hbug (rests_of_idle hp ho hi ha)⟩

/-! ### A moment without tasks -/

/-- The waiter is not completed, nor is the loop that it waits for over. -/
def Waiting (s : Worker k) (w : ℕ) : Prop := w ∉ s.woken ∧ (w ∈ s.held → s.phase = .loop)

/-- No task is queued or running. -/
def Drained (s : Worker k) : Prop := s.sys.queue = [] ∧ s.sys.active = none

theorem Waiting.step {w : ℕ} {l : WorkerLabel} (h : s.Waiting w) (hs : s.step l = some s') :
    s.Drained ∨ s'.Waiting w := by
  cases acts_of_step hs with
  | thread | newTask | wait | ask | get | done => exact .inr h
  | start hp =>
      refine .inr ⟨h.1, fun hw => ?_⟩
      have := h.2 hw
      rw [hp] at this
      cases this
  | splice => exact .inr ⟨h.1, fun _ => rfl⟩
  | leave _ ha hq => exact .inl ⟨hq, ha⟩
  | complete hp hh =>
      have hheld : w ∉ s.held := fun hw => by
        have := h.2 hw
        rw [hp] at this
        cases this
      rw [hh, List.mem_cons, not_or] at hheld
      refine .inr ⟨fun hw => ?_, fun hw => absurd hw hheld.2⟩
      rcases List.mem_cons.1 hw with hw | hw
      · exact hheld.1 hw
      · exact h.1 hw
  | finish _ hh => exact .inr ⟨h.1, fun hw => by simp [hh] at hw⟩

theorem waiting_of_wait {w : ℕ} (hs : s.step (.wait w) = some s') : s'.Waiting w := by
  cases acts_of_step hs with
  | wait hheld hwoken => exact ⟨hwoken, fun hw => absurd hw hheld⟩

/-- A waiter that is woken has seen the list empty. -/
theorem Waiting.run {w : ℕ} {t : Worker k} {ls : List WorkerLabel} (h : s.Waiting w)
    (hrun : s.run ls = some t) (hwoken : w ∈ t.woken) :
    ∃ as bs m, ls = as ++ bs ∧ s.run as = some m ∧ m.run bs = some t ∧ m.Drained := by
  induction ls generalizing s with
  | nil =>
      obtain rfl := Option.some.inj hrun
      exact absurd hwoken h.1
  | cons l ls ih =>
      obtain ⟨m, hm, hrest⟩ := Option.bind_eq_some_iff.1 hrun
      rcases h.step hm with hd | hw
      · exact ⟨[], l :: ls, s, rfl, rfl, hrun, hd⟩
      · obtain ⟨as, bs, m', rfl, has, hbs, hd⟩ := ih hw hrest
        exact ⟨l :: as, bs, m', rfl, by rw [Worker.run, hm]; exact has, hbs, hd⟩

/-- **`cyanfs_backend_wait_tasks` waits for all tasks.**  In every run in which it has added its
waiter and is woken later, there is a moment in between at which no task is queued or running: what
was queued before the call has been done. -/
theorem wait_tasks_drains {w : ℕ} {t : Worker k} {ls : List WorkerLabel}
    (hwait : s.step (.wait w) = some s') (hrun : s'.run ls = some t) (hwoken : w ∈ t.woken) :
    ∃ as bs m, ls = as ++ bs ∧ s'.run as = some m ∧ m.run bs = some t ∧ m.Drained :=
  (waiting_of_wait hwait).run hrun hwoken

/-- The call that waits for the record of a file. -/
theorem wait_tasks_drains_synced : ∃ s s' t ls m,
    (init .marked Sys.small).run (createLabels ++ flushLabels) = some s ∧ s.sys.queue.length = 3 ∧
    s.step (.wait 0) = some s' ∧ s'.run waitLabels = some t ∧ 0 ∈ t.woken ∧
    s'.run ls = some m ∧ m.Drained := by
  obtain ⟨t, hrun, hwoken⟩ := exists_small (createLabels ++ flushLabels ++ .wait 0 :: waitLabels)
    (P := fun t => 0 ∈ t.woken) (by decide +kernel)
  obtain ⟨r, hr, hqueue⟩ := exists_small (createLabels ++ flushLabels)
    (P := fun t => t.sys.queue.length = 3) (by decide +kernel)
  obtain ⟨s, hs, hrest⟩ := exists_run_append _ _ hrun
  obtain rfl := Option.some.inj (hr.symm.trans hs)
  obtain ⟨s', hwait, hcs⟩ := Option.bind_eq_some_iff.1 hrest
  obtain ⟨as, -, m, -, has, -, hd⟩ := wait_tasks_drains hwait hcs hwoken
  exact ⟨r, s', t, as, m, hr, hqueue, hwait, hcs, hwoken, has, hd⟩

/-! ### `cyanfs_backend_sync` -/

/-- The core sees at most one step. -/
theorem sys_step {l : WorkerLabel} (hs : s.step l = some s') :
    s'.sys = s.sys ∨ ∃ k, s.sys.step k = some s'.sys := by
  cases acts_of_step hs with
  | thread _ hτ | get _ hτ | done _ hτ => exact .inr ⟨_, hτ⟩
  | _ => exact .inl rfl

/-- A run of the worker is a run of the core. -/
theorem sys_run {ls : List WorkerLabel} (hs : s.run ls = some s') :
    ∃ ks, s.sys.run ks = some s'.sys := by
  induction ls generalizing s with
  | nil =>
      obtain rfl := Option.some.inj hs
      exact ⟨[], rfl⟩
  | cons l ls ih =>
      obtain ⟨t, ht, hrest⟩ := Option.bind_eq_some_iff.1 hs
      obtain ⟨ks, hks⟩ := ih hrest
      rcases sys_step ht with he | ⟨k, hk⟩
      · exact ⟨ks, he ▸ hks⟩
      · exact ⟨k :: ks, by rw [Sys.run, hk]; exact hks⟩

/-- **What is on stable storage stays there.** -/
theorem durable_run {total n : ℕ} {τ : Sys} {ks : List Label} (hσ : σ.Steady total)
    (h : σ.sup.error = true ∨ n ≤ σ.log.durable) (hrun : σ.run ks = some τ) :
    τ.Steady total ∧ (τ.sup.error = true ∨ n ≤ τ.log.durable) := by
  refine hσ.run_rule (P := fun τ => τ.sup.error = true ∨ n ≤ τ.log.durable) h hrun
    fun τ τ' hτ _ hm h => ?_
  rcases h with he | hd
  · refine .inl ?_
    by_contra hne
    rw [Sys.error_moves hm (by simpa using hne)] at he
    cases he
  · exact .inr (hd.trans (Sys.durable_moves hm hτ.durable).2)

/-- A thread that calls `cyanfs_backend_sync` in `s₀` gets 0 when it looks in `t`: its
`cyanfs_super_flush` has queued the flusher, it has added a waiter later, the waiter is completed,
and `cyanfs_super_status` finds no error. -/
inductive Synced (s₀ t : Worker k) : Prop where
  | intro {as bs cs : List WorkerLabel} {s₁ s₂ s₃ s₄ : Worker k} {ok : Bool} {w : ℕ}
      (start : s₀.run as = some s₁)
      (queue : s₁.step (.thread (.call (.flusherQueue true none) ok)) = some s₂)
      (between : s₂.run bs = some s₃) (wait : s₃.step (.wait w) = some s₄)
      (rest : s₄.run cs = some t) (woken : w ∈ t.woken)
      (status : t.sys.sup.ensureStatus = none) : Synced s₀ t

section Sync

variable {total : ℕ} {discard compact : Bool} {u uuid : Uuid} {disk : Buf} {s₀ t : Worker k}

theorem status_ok {s : Super} (h : s.ensureStatus = none) : s.error = false ∧ s.ready = true := by
  unfold Super.ensureStatus at h
  split_ifs at h with he hr
  exact ⟨by simpa using he, hr⟩

theorem Synced.status_ok (h : Synced s₀ t) :
    t.sys.sup.error = false ∧ t.sys.sup.ready = true := by
  obtain ⟨-, -, -, -, -, -, hstatus⟩ := h
  exact Worker.status_ok hstatus

/-- The run of a call is a run from the state in which it was made. -/
theorem Synced.exists_run (h : Synced s₀ t) : ∃ ls, s₀.run ls = some t := by
  obtain @⟨as, bs, cs, s₁, s₂, s₃, s₄, ok, w, has, hqueue, hbs, hwait, hcs, -, -⟩ := h
  refine ⟨as ++ .thread (.call (.flusherQueue true none) ok) :: (bs ++ .wait w :: cs), ?_⟩
  rw [run_append, has, Option.bind_some, Worker.run, hqueue, Option.bind_some, run_append, hbs,
    Option.bind_some, Worker.run, hwait, Option.bind_some, hcs]

theorem Synced.reachable (h : Synced s₀ t)
    (hreach : (Sys.opened total discard compact u disk).Reachable s₀.sys) :
    (Sys.opened total discard compact u disk).Reachable t.sys := by
  obtain ⟨ls, hls⟩ := hreach
  obtain ⟨ws, hws⟩ := h.exists_run
  obtain ⟨ks, hks⟩ := sys_run hws
  exact ⟨ls ++ ks, by rw [Sys.run_append, hls]; exact hks⟩

theorem Synced.durable (h : Synced s₀ t)
    (hreach : (Sys.opened total discard compact u disk).Reachable s₀.sys) :
    s₀.sys.log.appended <+: t.sys.log.written ∧
      s₀.sys.log.appended.length ≤ t.sys.log.durable := by
  have herr := h.status_ok.1
  obtain @⟨as, bs, cs, s₁, s₂, s₃, s₄, ok, w, has, hqueue, hbs, hwait, hcs, hwoken, -⟩ := h
  obtain ⟨xs, ys, m, -, hxs, hys, hdrained⟩ := (waiting_of_wait hwait).run hcs hwoken
  -- the steps of the core before the flusher, up to the moment without tasks, and behind it
  obtain ⟨ks₁, hks₁⟩ := sys_run has
  have hdrain : s₂.run (bs ++ .wait w :: xs) = some m := by
    rw [run_append, hbs, Option.bind_some, Worker.run, hwait]
    exact hxs
  obtain ⟨ks₂, hks₂⟩ := sys_run hdrain
  obtain ⟨ks₃, hks₃⟩ := sys_run hys
  have hstep : s₁.sys.step (.call (.flusherQueue true none) ok) = some s₂.sys := by
    cases acts_of_step hqueue with
    | thread _ hτ => exact hτ
  have grows : ∀ {σ τ : Sys} {ks}, σ.Steady total → s₀.sys.log.appended <+: σ.log.appended →
      σ.run ks = some τ → τ.Steady total ∧ s₀.sys.log.appended <+: τ.log.appended :=
    fun hσ h hrun => hσ.run_rule (P := fun τ => s₀.sys.log.appended <+: τ.log.appended) h hrun
      fun _ _ _ _ hm h => h.trans (Sys.appended_moves hm)
  obtain ⟨hσ₁, hap₁⟩ := grows hreach.steady List.prefix_rfl hks₁
  obtain ⟨hσ₂, hm₂⟩ := hσ₁.step hstep
  obtain ⟨hσm, hdur⟩ := Sys.superFlush_durable hσ₁ hap₁.length_le hstep hks₂ fun u hu => by
    rw [Sys.tasks, hdrained.1, hdrained.2] at hu
    cases hu
  have hapm := (grows hσ₂ (hap₁.trans (Sys.appended_moves hm₂)) hks₂).2
  have hapt := (grows hσm hapm hks₃).2
  obtain ⟨hσt, hend⟩ := durable_run hσm hdur hks₃
  have hd := hend.resolve_left (by simp [herr])
  have hw := hσt.sound.prefix_written hapt (.inr (hd.trans hσt.durable))
  exact ⟨hw.resolve_left (by simp [herr]), hd⟩

/-- **`cyanfs_backend_sync` makes durable what was appended before it.**  Whatever the other threads
and the worker do between its steps: if it returns 0, every entry that was appended before the call
has been written and a FLUSH has completed behind it. -/
theorem backend_sync_durable (hreach : (Sys.opened total discard compact u disk).Reachable s₀.sys)
    (hsync : Synced s₀ t) :
    s₀.sys.log.appended <+: t.sys.log.written ∧
      s₀.sys.log.appended.length ≤ t.sys.log.durable :=
  hsync.durable hreach

theorem reachable_small {ls : List WorkerLabel} {s : Worker .marked}
    (h : (init .marked Sys.small).run ls = some s) :
    (Sys.opened 16 true true smallUuid smallDisk).Reachable s.sys := by
  obtain ⟨ks, hks⟩ := sys_run h
  exact .small hks

/-- A call whose waiter has number 0. -/
theorem synced_of_run {ls : List WorkerLabel} (h : s₀.run (flushLabels ++ .wait 0 :: ls) = some t)
    (hwoken : 0 ∈ t.woken) (hstatus : t.sys.sup.ensureStatus = none) : Synced s₀ t := by
  obtain ⟨s₃, hflush, hrest⟩ := exists_run_append _ _ h
  rw [show flushLabels = [.thread (.superFlush true), .thread (.call (.flusher 0 true none) true)] ++
    [.thread (.call (.flusherQueue true none) true), .newTask] from rfl] at hflush
  obtain ⟨s₁, hstart, hq⟩ := exists_run_append _ _ hflush
  obtain ⟨s₂, hqueue, hbetween⟩ := Option.bind_eq_some_iff.1 hq
  obtain ⟨s₄, hwait, hls⟩ := Option.bind_eq_some_iff.1 hrest
  exact .intro hstart hqueue hbetween hwait hls hwoken hstatus

/-- The first file is on stable storage when `cyanfs_backend_sync` returns. -/
theorem backend_sync_durable_first : ∃ s₀ t : Worker .marked,
    (init .marked Sys.small).run createLabels = some s₀ ∧
    s₀.sys.log.appended = [.create 1 .letter] ∧ s₀.sys.log.written = [] ∧ Synced s₀ t ∧
    [.create 1 .letter] <+: t.sys.log.written ∧ 1 ≤ t.sys.log.durable := by
  obtain ⟨s₀, h₀, happ, hw⟩ := exists_small createLabels
    (P := fun t => t.sys.log.appended = [.create 1 .letter] ∧ t.sys.log.written = [])
    (by decide +kernel)
  obtain ⟨t, hrun, hwoken, hstatus⟩ := exists_small
    (createLabels ++ (flushLabels ++ .wait 0 :: waitLabels))
    (P := fun t => 0 ∈ t.woken ∧ t.sys.sup.ensureStatus = none) (by decide +kernel)
  rw [run_append, h₀, Option.bind_some] at hrun
  have hsync := synced_of_run hrun hwoken hstatus
  obtain ⟨hwritten, hdurable⟩ := backend_sync_durable (reachable_small h₀) hsync
  rw [happ] at hwritten hdurable
  exact ⟨s₀, t, h₀, happ, hw, hsync, hwritten, hdurable⟩

/-- **What is synced survives a power loss.**  Let the power go in `t`, some time after a
`cyanfs_backend_sync` that was called in `s₀` and returned 0, with the super still without an error.
Whatever is left then of the WRITEs since the last FLUSH, a mount of it holds what the replay of all
the entries leads to that were appended before the call, and of further ones behind them. -/
theorem synced_survives_power_loss {size : ℕ} {d c : Bool} {v : Uuid} {g : Buf} {ms : List Label}
    {l : Label} {τ τ' : Sys} (page : Buf) (hsize : extentsOfSize size = some total)
    (hf : FreshMkfs uuid disk)
    (hreach : (Sys.opened total discard compact u disk).Reachable s₀.sys) (hsync : Synced s₀ t)
    (hg : t.sys.disk.Torn g) (hslots : Sys.SlotsWhole t.sys.disk g)
    (hmount : (Sys.opened total d c v g).run ms = some τ) (hbefore : τ.sup.ready = false)
    (hstep : τ.step l = some τ') (hafter : τ'.sup.ready = true) (hgood : τ'.sup.error = false) :
    ∃ es s, s₀.sys.log.appended <+: es ∧
      (Super.opened total d c v page).replayAll es = .ok s ∧
      s.Same { τ'.sup with free := τ'.sup.free ∪ τ'.sup.journal } := by
  obtain ⟨herr, hready⟩ := hsync.status_ok
  obtain ⟨-, -, T, s, -, -, hs, hsame⟩ := (hsync.reachable hreach).recovered page hsize hf hready
    herr hg hslots hmount hbefore hstep hafter hgood
  have hpre : s₀.sys.log.appended <+: t.sys.log.written.take t.sys.log.durable :=
    List.prefix_take_iff.2 (hsync.durable hreach)
  exact ⟨_, s, hpre.trans (List.prefix_append _ T), hs, hsame⟩

/-- A file is made and synced, and the power goes when the record of another one is written. -/
theorem synced_survives_power_loss_created : ∃ (s₀ t : Worker .marked) (τ' : Sys),
    (init .marked Sys.small).run createLabels = some s₀ ∧
    s₀.sys.log.appended = [.create 1 .letter] ∧ Synced s₀ t ∧
    t.sys.log.written = [.create 1 .letter, .create 2 .other] ∧ t.sys.log.durable = 1 ∧
    (Sys.opened 16 true true smallUuid t.sys.disk.view).Reachable τ' ∧ τ'.sup.ready = true ∧
    ∃ es s, [.create 1 .letter] <+: es ∧
      (Super.opened 16 true true smallUuid fun _ => 0).replayAll es = .ok s ∧
      s.Same { τ'.sup with free := τ'.sup.free ∪ τ'.sup.journal } := by
  let ls : List WorkerLabel := waitLabels ++ otherLabels
  obtain ⟨s₀, h₀, happ⟩ := exists_small createLabels
    (P := fun t => t.sys.log.appended = [.create 1 .letter]) (by decide +kernel)
  obtain ⟨t, hrun, hwoken, hstatus, hwritten, hdurable, ⟨hrec, hcomp, hflight, hhead⟩, hstop⟩ :=
    exists_small (createLabels ++ (flushLabels ++ .wait 0 :: ls))
      (P := fun t => 0 ∈ t.woken ∧ t.sys.sup.ensureStatus = none ∧
        t.sys.log.written = [.create 1 .letter, .create 2 .other] ∧ t.sys.log.durable = 1 ∧
        (t.sys.records = [] ∧ t.sys.compacts = [] ∧ t.sys.inFlight = [] ∧
          t.sys.sup.journalHead = []) ∧
        (decodeHeader t.sys.disk.view t.sys.sup.cursor.place.addr).size = 0) (by decide +kernel)
  rw [run_append, h₀, Option.bind_some] at hrun
  have hsync := synced_of_run hrun hwoken hstatus
  have hreach := reachable_small h₀
  obtain ⟨herr, hready⟩ := hsync.status_ok
  have hsize : extentsOfSize 16785408 = some 16 := by decide
  obtain ⟨ms, l, τ, τ', hmount, hbefore, hstep, hafter, hgood⟩ :=
    (hsync.reachable hreach).exists_mounting_step (d := true) (c := true) (v := smallUuid) hsize
      (freshMkfs_zero smallUuid) hready herr hrec hcomp hflight hhead hstop
  obtain ⟨es, s, hes, hs, hsame⟩ := synced_survives_power_loss (fun _ => 0) hsize
    (freshMkfs_zero smallUuid) hreach hsync t.sys.disk.torn_view
    (fun _ _ => .inr (.inl fun _ _ => rfl)) hmount hbefore hstep hafter hgood
  rw [happ] at hes
  exact ⟨s₀, t, τ', h₀, happ, hsync, hwritten, hdurable,
    ⟨ms ++ [l], by rw [Sys.run_append, hmount]; simp [Sys.run, hstep]⟩, hafter, es, s, hes, hs,
    hsame⟩

end Sync

end Worker

end Cyanfs
