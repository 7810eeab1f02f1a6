/-
# What a step can do

`Effect` lists it: threads move, a flusher or a compaction is queued, a handler
writes, the executor takes a task or completes one, a file changes its mode, one
of the journaled operations runs, a copy starts or ends, or the mount goes on;
`step_effect` is the case analysis of the step function behind that list, made
once.  The list forgets where the threads are; `Cyanfs.Core.Calls` looks at that.

It rests on `CallsOk`: a call of `cyanfs_read`, `cyanfs_write` or
`cyanfs_discard` keeps its file open, so the range that was checked when the call
entered stays inside the file.  It is shown to be an invariant in
`Cyanfs.Core.Calls`.
-/

import Cyanfs.Core.Op

namespace Cyanfs

open Lib Std

/-- The loop variables of a call on a file. -/
def Call.io? : Call → Option IoCall
  | read io | readHandler io _ | write io | writeAlloc io _ | writeHandler io _ _
  | discard io | discardLocked io | discardHandler io _ => some io
  | _ => none

theorem Call.file?_eq (c : Call) : c.file? = c.io?.map (·.file) := by
  cases c <;> rfl

/-- The file of a call is open as the call needs it, and the range left to do is
inside it. -/
def Super.CallOk (s : Super) (c : Call) : Prop := ∀ io ∈ c.io?, ∃ f, s.filesById[io.file]? = some f ∧
  f.openType ≠ .closed ∧ (c.isRead = false → f.openType = .readwrite) ∧
  0 < io.len ∧ io.off + io.len ≤ f.size

namespace Sys

/-- No call is in the way of the mount, and every call on a file holds it open. -/
structure CallsOk (σ : Sys) : Prop where
  keyed : σ.sup.Keyed
  sizes : ∀ (id : ℕ) (f : File), σ.sup.filesById[id]? = some f → sizeValid f.size
  loading : σ.loader ≠ none → σ.sup.ready = false
  closed : σ.sup.ready = false → ∀ (id : ℕ) (f : File), σ.sup.filesById[id]? = some f →
    f.openType = .closed
  calls : ∀ c ∈ σ.calls, σ.sup.CallOk c

variable {σ σ' : Sys}

theorem callOk_of_file_none {s : Super} {c : Call} (h : c.file? = none) : s.CallOk c := by
  intro io hio
  rw [Call.file?_eq, Option.mem_def.1 hio] at h
  simp at h

theorem CallOk.keepsOpen {s s' : Super} {c : Call} (h : s.CallOk c) (hk : s.KeepsOpen s') :
    s'.CallOk c := by
  intro io hio
  obtain ⟨f, hf, ho, hm, hlen, hsize⟩ := h io hio
  obtain ⟨f', hf', ho', hs'⟩ := hk _ f hf ho
  exact ⟨f', hf', ho' ▸ ho, fun hr => ho'.trans (hm hr), hlen, hs' ▸ hsize⟩

/-- How the mount goes on after a READ. -/
inductive MountOut (σ : Sys) (l : Loader) : LoaderOut → Prop
  | error (ht : σ.active = some .loadHeader ∨ σ.active = some .loadPage) :
      MountOut σ l (.error σ.sup)
  | header (m : Bool) (ht : σ.active = some .loadHeader) :
      MountOut σ l (l.parserHeader σ.sup m σ.disk.view)
  | page (m : Bool) (ht : σ.active = some .loadPage) :
      MountOut σ l (l.parserPage σ.sup m σ.disk.view)

/-- The READ whose callback the mount goes on with. -/
theorem MountOut.active {l : Loader} {out : LoaderOut} (h : σ.MountOut l out) :
    σ.active = some .loadHeader ∨ σ.active = some .loadPage := by
  cases h with
  | error ht => exact ht
  | header m ht => exact .inl ht
  | page m ht => exact .inr ht

/-- The steps that change the metadata. -/
inductive Change (σ σ' : Sys) : Prop
  | open {f g : File} (hs : σ.sup.ensureStatus = none) (hf : σ.sup.filesById[f.id]? = some f)
      (hg : g = { f with openType := g.openType, reader := g.reader })
      (hkeep : f.openType ≠ .closed → g.openType = f.openType)
      (hchild : g.openType = .readwrite → f.children = 0) (hopen : g.openType ≠ .closed)
      (he : σ' = { σ with sup := σ.sup.setFile g })
  | close {f g : File} (hf : σ.sup.filesById[f.id]? = some f) (hc : σ.closable f)
      (hopen : f.openType ≠ .closed)
      (hg : g = { f with openType := g.openType, reader := g.reader })
      (hmode : g.openType = .closed ∨ g.openType = f.openType)
      (hkeep : 1 < f.reader → f.openType = .readonly → g.openType = .readonly)
      (he : σ' = { σ with sup := σ.sup.setFile g })
  | closeClosed (he : σ' = { σ with sup := { σ.sup with bug := some .closeClosed } })
  /-- a journaled operation -/
  | op {j : JEntry} {s : Super} {cs : Multiset Call} {ws : Bool → ℕ} (ho : σ.sup.Op j s)
      (he : σ' = { σ.commit (s.append j) with
        calls := cs
        sup := { s.append j with writers := ws } })
  /-- a write maps an extent that is copied first -/
  | copyStart {f : File} {i b src : ℕ} {cs : Multiset Call} {ws : Bool → ℕ} {io : IoCall}
      (hc : .writeAlloc io (some src) ∈ σ.calls) (hio : io.file = f.id)
      (hidx : i = fileIndex (extentFrom io.off)) (hs : σ.sup.ensureStatus = none)
      (hf : σ.sup.filesById[f.id]? = some f) (hmode : f.openType = .readwrite)
      (hi : i ≤ extentIndexMax) (hsize : extentBegin i < f.size) (hb : b ∈ σ.sup.free)
      (hnone : f.extents[i]? = none)
      (he : σ' = { σ with
        sup := { σ.sup.copyPending f b i with writers := ws }
        queue := σ.queue ++ [.copy f.id i b src]
        calls := cs })
      (hnew : ∃ w, .writeHandler io .requeue (some w) ∈ cs)
  /-- a copy ends -/
  | copied {id i b src : ℕ} {err m : Bool} {junk : Buf} (ht : σ.active = some (.copy id i b src))
      (he : σ' = { σ with active := none }.runTask (.copy id i b src) err m junk)
  /-- a READ of the mount completes -/
  | mount {l : Loader} {out : LoaderOut} (hl : σ.loader = some l) (ho : σ.MountOut l out)
      (he : σ' = { σ with active := none }.loaded out)

/-- What a step can do. -/
inductive Effect (σ σ' : Sys) : Prop
  /-- the metadata changes -/
  | change (hm : σ.Change σ')
  /-- threads move and count writers -/
  | threads {c : Multiset Call} {w : Bool → ℕ} {r : List (Call × Status)}
      (he : σ' = { σ with
        calls := c
        sup := { σ.sup with writers := w }
        log := { σ.log with returned := r } })
  /-- `cyanfs_requeue` -/
  | requeue {file : ℕ} (he : σ' = σ.addTail (.requeue file))
  /-- the second section of `cyanfs_super_flusher_start` -/
  | flusher {cs : Multiset Call} {ondisk : Bool}
      (he : σ' = { σ.queueFlusher ondisk with calls := cs })
  /-- the section of `cyanfs_super_compact` -/
  | compactStart {cs : Multiset Call} (hs : σ.sup.ensureStatus = none)
      (hw : σ.sup.compactWorking = false)
      (he : σ' = { σ with sup := { σ.sup with compactWorking := true }, calls := cs })
      (hnew : ∃ endId, .compactInit endId ∈ cs)
  /-- the rest of `cyanfs_super_compact` -/
  | compactInit {cs : Multiset Call} {endId : ℕ} (hc : .compactInit endId ∈ σ.calls)
      (he : σ' = { σ with
        calls := cs
        compact := some (Compact.init σ.sup endId)
        queue := σ.queue ++ [.compactHeader] })
  | compactFail {cs : Multiset Call} {endId : ℕ} (hc : .compactInit endId ∈ σ.calls)
      (he : σ' = { σ.compactFail with calls := cs })
  /-- the handler of a write stores data -/
  | handlerWrite {io : IoCall} {bOff : ℕ} {epoch : Option Bool} {start len : ℕ} {data : Buf}
      (hc : .writeHandler io (.submit bOff) epoch ∈ σ.calls) (hlen : start + len ≤ io.space)
      (he : σ' = { σ with disk := σ.disk.write ⟨bOff + start, len, data⟩ })
  /-- `cyanfs_super_get_task` -/
  | get {t : Task} {q : List Task} (ha : σ.active = none) (hq : σ.queue = t :: q)
      (he : σ' = { σ with active := some t, queue := q })
  /-- a task that does not change the metadata completes -/
  | task {t : Task} {err m : Bool} {junk : Buf} (ht : σ.active = some t) (hl : ¬ Loud t)
      (he : σ' = { σ with active := none }.runTask t err m junk)
  /-- a READ of a mount that is over -/
  | noMount (hl : σ.loader = none) (ht : σ.active = some .loadHeader ∨ σ.active = some .loadPage)
      (he : σ' = { σ with active := none })

/-- The metadata after a copy has ended. -/
theorem metaEq_runTask_copy (σ : Sys) (id i b src : ℕ) (err m : Bool) (junk : Buf) :
    (σ.sup.copyEnded id i err).MetaEq
      ({ σ with active := none }.runTask (.copy id i b src) err m junk).sup := by
  cases err <;> exact ⟨rfl, rfl, rfl, rfl, rfl, rfl, rfl, rfl, rfl⟩

/-- **A step changes the metadata or leaves it alone.** -/
theorem Effect.change_or_quiet (h : σ.Effect σ') : σ.Change σ' ∨
    (σ.sup.MetaEq σ'.sup ∧ σ'.log.appended = σ.log.appended ∧ σ'.loader = σ.loader) := by
  cases h with
  | change hm => exact .inl hm
  | threads he => exact .inr (he ▸ ⟨⟨rfl, rfl, rfl, rfl, rfl, rfl, rfl, rfl, rfl⟩, rfl, rfl⟩)
  | requeue he => exact .inr (he ▸ ⟨.refl _, rfl, rfl⟩)
  | @flusher cs ondisk he =>
      have hq := quiet_queueFlusher σ ondisk
      exact .inr (he ▸ ⟨hq.sup, hq.appended, hq.loader⟩)
  | compactStart hs hw he =>
      exact .inr (he ▸ ⟨⟨rfl, rfl, rfl, rfl, rfl, rfl, rfl, rfl, rfl⟩, rfl, rfl⟩)
  | compactInit hc he => exact .inr (he ▸ ⟨.refl _, rfl, rfl⟩)
  | compactFail hc he =>
      exact .inr (he ▸ ⟨⟨rfl, rfl, rfl, rfl, rfl, rfl, rfl, rfl, rfl⟩, rfl, rfl⟩)
  | handlerWrite hc hlen he => exact .inr (he ▸ ⟨.refl _, rfl, rfl⟩)
  | get ha hq he => exact .inr (he ▸ ⟨.refl _, rfl, rfl⟩)
  | @task t err m junk ht hl he =>
      have hq := quiet_runTask { σ with active := none } hl err m junk
      exact .inr (he ▸ ⟨hq.sup, hq.appended, hq.loader⟩)
  | noMount hl ht he => exact .inr (he ▸ ⟨.refl _, rfl, rfl⟩)

/-- The step only changes the calls. -/
theorem Effect.of_calls {cs : Multiset Call} (he : σ' = { σ with calls := cs }) : σ.Effect σ' :=
  @Effect.threads σ σ' cs σ.sup.writers σ.log.returned he

theorem Effect.of_op {j : JEntry} {s : Super} {cs : Multiset Call} (ho : σ.sup.Op j s)
    (he : σ' = { σ.commit (s.append j) with calls := cs }) : σ.Effect σ' :=
  .change (@Change.op σ σ' j s cs (s.append j).writers ho he)

theorem effect_metaOp {r : Except Err Super}
    (h : ∀ s', r = .ok s' → ∃ j s, σ.sup.Op j s ∧ s' = s.append j) : σ.Effect (σ.metaOp r) := by
  unfold metaOp
  cases r with
  | error e => exact .of_calls rfl
  | ok s' =>
      obtain ⟨j, s, ho, rfl⟩ := h s' rfl
      exact .of_op ho rfl

theorem effect_openFile {id : ℕ} {write : Bool} {s : Super} (hk : σ.sup.Keyed)
    (h : σ.sup.openFile id write = .ok s) : σ.Effect { σ with sup := s } := by
  unfold Super.openFile at h
  split at h
  · cases h
  rename_i hs
  split at h
  · cases h
  rename_i f hf
  have hf' : σ.sup.filesById[f.id]? = some f := by rw [hk _ f hf]; exact hf
  split_ifs at h with h₁ h₂ h₃
  · push Not at h₂
    obtain rfl := Except.ok.inj h
    exact .change (.open hs hf' (g := { f with openType := .readwrite }) rfl
      (fun hc => absurd h₂.1 hc) (fun _ => h₂.2) (by simp) rfl)
  · obtain rfl := Except.ok.inj h
    refine .change (.open hs hf' (g := { f with openType := .readonly, reader := f.reader + 1 })
      rfl ?_ (by simp) (by simp) rfl)
    intro hc
    cases ho : f.openType <;> simp_all

theorem effect_closeFile {f : File} (hf : σ.sup.filesById[f.id]? = some f) (hc : σ.closable f) :
    σ.Effect { σ with sup := σ.sup.closeFile f } := by
  unfold Super.closeFile
  split
  · exact .change (.closeClosed rfl)
  · rename_i ho
    exact .change (.close hf hc (by simp [ho]) (g := { f with openType := .closed }) rfl (.inl rfl)
      (by simp [ho]) rfl)
  · rename_i ho
    refine .change (.close hf hc (by simp [ho]) (g := { f with
      reader := f.reader - 1
      openType := if f.reader - 1 = 0 then .closed else .readonly }) rfl ?_ ?_ rfl)
    · simp only [ho]
      split_ifs <;> simp
    · intro hr _
      simp only
      rw [if_neg (by omega)]

/-- The node index that the offset of a call falls into lies inside the file. -/
theorem extentBegin_fileIndex_le (off : ℕ) : extentBegin (fileIndex (extentFrom off)) ≤ off := by
  simp only [extentBegin, fileIndex, extentFrom, extentSize, extentCountMax]
  omega

theorem fileIndex_le (i : ℕ) : fileIndex i ≤ extentIndexMax := by
  simp only [fileIndex, extentIndexMax, extentCountMax]
  omega

theorem allocExtent_eq_some {s s' : Super} {f : File} {off i b : ℕ}
    (h : s.allocExtent f off = some (s', i, b)) : s.reservedExtents < s.freeExtents ∧ b ∈ s.free ∧
      i = fileIndex (extentFrom off) ∧ f.extents[i]? = none ∧ s' = s.superToFile f b i := by
  unfold Super.allocExtent at h
  split_ifs at h with h₁
  split at h
  · cases h
  rename_i b' hb
  split at h
  · cases h
  rename_i s₁ hm
  obtain ⟨hn, rfl⟩ := Super.mapExtent_eq_ok.1 hm
  simp only [Option.some.injEq, Prod.mk.injEq] at h
  obtain ⟨rfl, rfl, rfl⟩ := h
  exact ⟨by omega, Super.mem_of_findNearlyExtent hb, rfl, hn, rfl⟩

theorem effect_returnCall (σ : Sys) (c : Call) (st : Status) : σ.Effect (σ.returnCall c st) :=
  .threads (w := σ.sup.writers) rfl

theorem effect_ioEnd (σ : Sys) (c : Call) (io : IoCall) (st : Status) :
    σ.Effect (σ.ioEnd c io st) := by
  unfold ioEnd
  split_ifs <;> exact .threads (w := σ.sup.writers) rfl

theorem effect_writeLookup (σ : Sys) (c : Call) (io : IoCall) (f : File) :
    σ.Effect (σ.writeLookup c io f) := by
  unfold writeLookup
  split
  · exact effect_ioEnd σ c io _
  split
  · exact .threads (r := σ.log.returned) rfl
  split
  · split_ifs
    · exact effect_ioEnd σ c io _
    · exact .of_calls rfl
    · exact .of_calls rfl
  · exact .of_calls rfl

theorem effect_writeAlloc {io : IoCall} {f : File} {parent : Option ℕ} {m : Bool}
    (hc : .writeAlloc io parent ∈ σ.calls) (hid : io.file = f.id)
    (hf : σ.sup.filesById[f.id]? = some f) (hmode : f.openType = .readwrite)
    (hoff : io.off < f.size) : σ.Effect (σ.writeAlloc (.writeAlloc io parent) io f parent m) := by
  unfold writeAlloc
  split
  · exact effect_ioEnd σ _ io _
  split
  · exact effect_ioEnd σ _ io _
  rename_i hs
  split
  · exact .threads (r := σ.log.returned) rfl
  split
  · exact effect_ioEnd σ _ io _
  rename_i s i b ha
  obtain ⟨hroom, hb, rfl, hnone, rfl⟩ := allocExtent_eq_some ha
  have hi := fileIndex_le (extentFrom io.off)
  have hsize := (extentBegin_fileIndex_le io.off).trans_lt hoff
  split
  · exact .change (.copyStart hc hid rfl hs hf hmode hi hsize hb hnone rfl
      ⟨_, Multiset.mem_cons_self _ _⟩)
  · exact .change (.op (.bind hs hf hmode hi hsize hroom hb hnone) rfl)

theorem effect_writeReturn (σ : Sys) (c : Call) (io : IoCall) (arg : HandlerArg)
    (epoch : Option Bool) (ok : Bool) : σ.Effect (σ.writeReturn c io arg epoch ok) := by
  unfold writeReturn
  cases epoch with
  | none =>
      simp only
      split_ifs
      · exact effect_ioEnd σ _ io _
      · exact .of_calls rfl
  | some w =>
      simp only [ioEnd]
      split_ifs
      · exact .threads rfl
      · exact .threads rfl
      · exact .threads (r := σ.log.returned) rfl

/-- What the write-locked section of a discard unmaps. -/
theorem discardCase_unmap {io : IoCall} {f : File} {i : ℕ} (h : σ.discardCase io f = .unmap i) :
    σ.sup.ensureStatus = none ∧ extentBegin (extentFrom io.off) = io.off ∧
      i = fileIndex (extentFrom io.off) ∧
      ∃ e, f.extents[i]? = some e ∧ e.error = false ∧ e.pending = false := by
  unfold discardCase at h
  split at h
  · cases h
  rename_i hs
  split at h
  · cases h
  rename_i ha
  split at h
  · cases h
  split at h
  · cases h
  rename_i e he
  split at h
  · cases h
  rename_i herr
  split at h
  · cases h
  rename_i hp
  push Not at ha
  obtain rfl := DiscardCase.unmap.inj h
  exact ⟨hs, ha.1, rfl, e, he, by simpa using herr, by simpa using hp⟩

theorem effect_discardLocked {c : Call} {io : IoCall} {f : File}
    (hf : σ.sup.filesById[f.id]? = some f) (hmode : f.openType = .readwrite)
    (hv : sizeValid f.size) (hoff : io.off < f.size) : σ.Effect (σ.discardLocked c io f) := by
  unfold discardLocked
  split
  · exact effect_ioEnd σ c io _
  · exact .of_calls rfl
  · rename_i i hi
    obtain ⟨hs, -, rfl, e, he, herr, hp⟩ := discardCase_unmap hi
    -- no bit of the index is lost below the largest file size
    have hidx : fileIndex (extentFrom io.off) = extentFrom io.off :=
      fileIndex_of_lt (extentFrom_lt_of_lt (hoff.trans_le (sizeValid_le hv)))
    rw [hidx] at he ⊢
    have hle := extentBegin_fileIndex_le io.off
    rw [hidx] at hle
    exact .of_op (.unbind hs hf hmode (hidx ▸ fileIndex_le (extentFrom io.off))
      (hle.trans_lt hoff) he hp herr) rfl

theorem effect_flusherReturn {σ₀ : Sys} {c : Call} {file : Option ℕ}
    (h : ∀ cs, σ₀.Effect { σ with calls := cs }) : σ₀.Effect (σ.flusherReturn c file) := by
  unfold flusherReturn
  split <;> exact h _

theorem effect_callStep {c : Call} {ok : Bool} (h : σ.CallsOk) (hc : c ∈ σ.calls)
    (hs : σ.callStep c ok = some σ') : σ.Effect σ' := by
  have hok := h.calls c hc
  cases c with
  | flusher min ondisk file =>
      obtain rfl := Option.some.inj hs
      unfold flusherStart
      simp only
      split_ifs
      · exact .of_calls rfl
      · exact effect_flusherReturn fun cs => .of_calls rfl
      · exact .of_calls rfl
      · exact .of_calls rfl
  | flusherQueue ondisk file =>
      obtain rfl := Option.some.inj hs
      exact effect_flusherReturn fun cs => .flusher rfl
  | flushType file =>
      obtain rfl := Option.some.inj hs
      exact .of_calls rfl
  | compact =>
      obtain rfl := Option.some.inj hs
      unfold compactStart
      simp only
      split
      · exact .of_calls rfl
      · rename_i hn
        push Not at hn
        exact .compactStart hn.1 (by simpa using hn.2.2) rfl
          ⟨_, Multiset.mem_cons_self _ _⟩
  | compactInit endId =>
      obtain rfl := Option.some.inj hs
      unfold compactInit
      simp only
      split_ifs
      · exact .compactInit hc rfl
      · exact .compactFail hc rfl
  | read io =>
      obtain rfl := Option.some.inj hs
      unfold readLookup
      split
      · exact effect_returnCall _ _ _
      · exact .of_calls rfl
  | readHandler io arg =>
      obtain rfl := Option.some.inj hs
      unfold readReturn
      split_ifs
      · exact effect_returnCall _ _ _
      · exact .of_calls rfl
  | write io =>
      obtain ⟨f, -, rfl⟩ := Option.map_eq_some_iff.1 hs
      exact effect_writeLookup _ _ _ _
  | writeAlloc io parent =>
      obtain ⟨f, hf, rfl⟩ := Option.map_eq_some_iff.1 hs
      obtain ⟨f', hf', -, hm, hlen, hsize⟩ := hok io rfl
      obtain rfl := Option.some.inj (hf.symm.trans hf')
      have hid := h.keyed _ f hf
      exact effect_writeAlloc hc hid.symm (by rw [hid]; exact hf) (hm rfl) (by omega)
  | writeHandler io arg epoch =>
      obtain rfl := Option.some.inj hs
      exact effect_writeReturn _ _ _ _ _ _
  | discard io =>
      obtain ⟨f, -, rfl⟩ := Option.map_eq_some_iff.1 hs
      unfold discardLookup
      split
      · exact effect_ioEnd _ _ _ _
      · exact .of_calls rfl
      · split_ifs
        · exact .of_calls rfl
        · exact effect_ioEnd _ _ _ _
  | discardLocked io =>
      obtain ⟨f, hf, rfl⟩ := Option.map_eq_some_iff.1 hs
      obtain ⟨f', hf', -, hm, hlen, hsize⟩ := hok io rfl
      obtain rfl := Option.some.inj (hf.symm.trans hf')
      exact effect_discardLocked (by rw [h.keyed _ f hf]; exact hf) (hm rfl) (h.sizes _ f hf)
        (by omega)
  | discardHandler io arg =>
      obtain rfl := Option.some.inj hs
      unfold discardReturn
      split_ifs
      · exact effect_ioEnd _ _ _ _
      · exact .of_calls rfl

theorem effect_done {t : Task} (ht : σ.active = some t) (err m : Bool) (junk : Buf) :
    σ.Effect ({ σ with active := none }.runTask t err m junk) := by
  by_cases hloud : Loud t
  · cases t with
    | copy id i b src => exact .change (.copied ht rfl)
    | loadHeader =>
        simp only [runTask]
        split
        · rename_i hl
          exact .noMount hl (.inl ht) rfl
        · rename_i l hl
          split_ifs
          · exact .change (.mount hl (.error (.inl ht)) rfl)
          · exact .change (.mount hl (.header m ht) rfl)
    | loadPage =>
        simp only [runTask]
        split
        · rename_i hl
          exact .noMount hl (.inr ht) rfl
        · rename_i l hl
          split_ifs
          · exact .change (.mount hl (.error (.inr ht)) rfl)
          · exact .change (.mount hl (.page m ht) rfl)
    | _ => exact hloud.elim
  · exact .task ht hloud rfl

/-- **What a step does.** -/
theorem step_effect {l : Label} (h : σ.CallsOk) (hs : σ.step l = some σ') : σ.Effect σ' := by
  unfold step at hs
  split at hs
  · cases hs
  have hk := h.keyed
  have hid : σ.Effect σ := .of_calls rfl
  cases l with
  | create name =>
      obtain rfl := Option.some.inj hs
      split
      · exact hid
      · rename_i n hn
        exact effect_metaOp fun s' hs' => Super.op_create (FileName.normal_of_normalize hn).1 hs'
  | fork fromId name =>
      obtain rfl := Option.some.inj hs
      split
      · exact hid
      · rename_i n hn
        exact effect_metaOp fun s' hs' => Super.op_fork hk (FileName.normal_of_normalize hn).1 hs'
  | rename id name =>
      obtain rfl := Option.some.inj hs
      split
      · exact hid
      · rename_i n hn
        exact effect_metaOp fun s' hs' => Super.op_rename hk (FileName.normal_of_normalize hn).1 hs'
  | truncate id size =>
      obtain rfl := Option.some.inj hs
      split_ifs with hv
      · exact effect_metaOp fun s' hs' => Super.op_truncate hk hv hs'
      · exact hid
  | delete id =>
      obtain rfl := Option.some.inj hs
      exact effect_metaOp fun s' hs' => Super.op_delete hk hs'
  | «open» id write =>
      obtain rfl := Option.some.inj hs
      split
      · rename_i s ho
        exact effect_openFile hk ho
      · exact hid
  | close id =>
      simp only at hs
      split at hs
      · cases hs
      rename_i f hf
      split_ifs at hs with hc
      obtain rfl := Option.some.inj hs
      exact effect_closeFile (by rw [hk _ f hf]; exact hf) hc
  | superFlush ondisk | flush file | compact =>
      obtain rfl := Option.some.inj hs
      exact .of_calls rfl
  | read file off len =>
      simp only at hs
      split at hs
      · cases hs
      split_ifs at hs
      · obtain rfl := Option.some.inj hs
        exact .of_calls rfl
      · obtain rfl := Option.some.inj hs
        exact hid
  | write file off len | discard file off len =>
      simp only at hs
      split at hs
      · cases hs
      obtain rfl := Option.some.inj hs
      split_ifs
      · exact .of_calls rfl
      · exact hid
  | requeue file =>
      obtain rfl := Option.some.inj hs
      exact .requeue rfl
  | call c ok =>
      simp only at hs
      split_ifs at hs with hc
      exact effect_callStep h hc hs
  | handlerWrite c start len data =>
      simp only at hs
      split at hs
      · split_ifs at hs with hc
        obtain rfl := Option.some.inj hs
        exact .handlerWrite hc.1 hc.2 rfl
      · cases hs
  | get =>
      simp only at hs
      split at hs
      · rename_i t q ha hq
        obtain rfl := Option.some.inj hs
        exact .get ha hq rfl
      · cases hs
  | done err m junk =>
      simp only at hs
      split at hs
      · rename_i t ht
        obtain rfl := Option.some.inj hs
        exact effect_done ht err m junk
      · cases hs

end Sys

end Cyanfs
