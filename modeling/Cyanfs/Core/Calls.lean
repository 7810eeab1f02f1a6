/-
# Calls in progress

The invariant `CallsOk` of `Cyanfs.Core.Effect`: the calls of a step are those of
the step before, calls that go on with a later part of their range, and calls
that have just checked theirs (`callsFrom_step`); and an open file is neither
truncated nor deleted, nor closed while a call is on it.
-/

import Cyanfs.Core.Effect

namespace Cyanfs

open Lib Std

namespace Sys

variable {σ σ' : Sys}

/-! ### New calls -/

/-- A call goes on with the same range or a later part of it. -/
theorem callOk_next {s : Super} {c c' : Call} (io io' : IoCall) (h : s.CallOk c)
    (hio : c.io? = some io) (hio' : c'.io? = some io') (hfile : io'.file = io.file)
    (hread : c'.isRead = c.isRead) (hlen : 0 < io'.len) (hend : io'.off + io'.len ≤ io.off + io.len) :
    s.CallOk c' := by
  intro io₂ h₂
  obtain rfl : io' = io₂ := by simpa [hio'] using h₂
  obtain ⟨f, hf, ho, hm, -, hsize⟩ := h io hio
  exact ⟨f, hfile ▸ hf, ho, fun hr => hm (hread ▸ hr), hlen, by omega⟩

theorem callOk_same {s : Super} {c c' : Call} (io : IoCall) (h : s.CallOk c)
    (hio : c.io? = some io) (hio' : c'.io? = some io) (hread : c'.isRead = c.isRead) : s.CallOk c' := by
  obtain ⟨_, _, _, _, hlen, _⟩ := h io hio
  exact callOk_next io io h hio hio' rfl hread hlen le_rfl

theorem callOk_journal {s : Super} {c c' : Call} (io : IoCall) (h : s.CallOk c)
    (hio : c.io? = some io) (hio' : c'.io? = some { io with newJournal := true })
    (hread : c'.isRead = c.isRead) : s.CallOk c' := by
  obtain ⟨_, _, _, _, hlen, _⟩ := h io hio
  exact callOk_next io _ h hio hio' rfl hread hlen le_rfl

theorem file_advance (io : IoCall) : io.advance.file = io.file := by
  obtain ⟨file, off, len, newJournal⟩ := io
  rfl

theorem advance_end (io : IoCall) : io.advance.off + io.advance.len = io.off + io.len := by
  have : io.space ≤ io.len := by
    unfold IoCall.space mapExtentSpace
    omega
  simp only [IoCall.advance]
  omega

theorem callOk_advance {s : Super} {c c' : Call} (io : IoCall) (h : s.CallOk c)
    (hio : c.io? = some io) (hio' : c'.io? = some io.advance) (hread : c'.isRead = c.isRead)
    (hlen : io.advance.len ≠ 0) : s.CallOk c' :=
  callOk_next io io.advance h hio hio' (file_advance io) hread (Nat.pos_of_ne_zero hlen) (advance_end io).le

/-- The calls of `σ'` are those of `σ` and calls that hold their file open. -/
def CallsFrom (σ σ' : Sys) : Prop := ∀ c ∈ σ'.calls, c ∈ σ.calls ∨ σ.sup.CallOk c

theorem Quiet.callsFrom (h : σ.Quiet σ') : σ.CallsFrom σ' :=
  fun c hc => (h.calls c hc).imp id callOk_of_file_none

theorem callsFrom_addCall {c : Call} (hs : σ'.calls = c ::ₘ σ.calls) (hc : σ.sup.CallOk c) :
    σ.CallsFrom σ' := by
  intro d hd
  rw [hs] at hd
  rcases Multiset.mem_cons.1 hd with rfl | hd
  · exact .inr hc
  · exact .inl hd

theorem callsFrom_setCall {c c' : Call} (hs : σ'.calls = c' ::ₘ σ.calls.erase c)
    (hc : σ.sup.CallOk c') : σ.CallsFrom σ' := by
  intro d hd
  rw [hs] at hd
  rcases Multiset.mem_cons.1 hd with rfl | hd
  · exact .inr hc
  · exact .inl (Multiset.mem_of_mem_erase hd)

theorem callsFrom_of_le (hs : σ'.calls ≤ σ.calls) : σ.CallsFrom σ' :=
  fun _ hc => .inl (Multiset.mem_of_le hs hc)

theorem callsFrom_ioEnd (σ : Sys) (c : Call) (io : IoCall) (st : Status) :
    σ.CallsFrom (σ.ioEnd c io st) := by
  unfold ioEnd
  split_ifs
  · exact callsFrom_setCall rfl (callOk_of_file_none rfl)
  · exact callsFrom_of_le (Multiset.erase_le _ _)

theorem callsFrom_metaOp (σ : Sys) (r : Except Err Super) : σ.CallsFrom (σ.metaOp r) := by
  unfold metaOp
  split <;> exact callsFrom_addCall rfl (callOk_of_file_none rfl)

theorem callsFrom_callStep {c : Call} {ok : Bool} (h : σ.CallsOk) (hc : c ∈ σ.calls)
    (hs : σ.callStep c ok = some σ') : σ.CallsFrom σ' := by
  have hok := h.calls c hc
  cases c with
  | flusher min ondisk file =>
      obtain rfl := Option.some.inj hs
      exact (quiet_flusherStart _ _ _ _ _ _).callsFrom
  | flusherQueue ondisk file =>
      obtain rfl := Option.some.inj hs
      exact (quiet_flusherQueue _ _ _ _).callsFrom
  | flushType file =>
      obtain rfl := Option.some.inj hs
      exact (quiet_endCall _ _).callsFrom
  | compact =>
      obtain rfl := Option.some.inj hs
      exact (quiet_compactStart _ _).callsFrom
  | compactInit endId =>
      obtain rfl := Option.some.inj hs
      exact (quiet_compactInit _ _ _ _).callsFrom
  | read io =>
      obtain rfl := Option.some.inj hs
      unfold readLookup
      split
      · exact callsFrom_of_le (Multiset.erase_le _ _)
      · exact callsFrom_setCall rfl (callOk_same io hok rfl rfl rfl)
  | readHandler io arg =>
      obtain rfl := Option.some.inj hs
      unfold readReturn
      split_ifs with hend
      · exact callsFrom_of_le (Multiset.erase_le _ _)
      · push Not at hend
        exact callsFrom_setCall rfl (callOk_advance io hok rfl rfl rfl hend.2)
  | write io =>
      obtain ⟨f, -, rfl⟩ := Option.map_eq_some_iff.1 hs
      unfold writeLookup
      split
      · exact callsFrom_ioEnd _ _ _ _
      split
      · exact callsFrom_setCall rfl (callOk_same io hok rfl rfl rfl)
      split
      · split_ifs
        · exact callsFrom_ioEnd _ _ _ _
        · exact callsFrom_setCall rfl (callOk_same io hok rfl rfl rfl)
        · exact callsFrom_setCall rfl (callOk_same io hok rfl rfl rfl)
      · exact callsFrom_setCall rfl (callOk_same io hok rfl rfl rfl)
  | writeAlloc io parent =>
      obtain ⟨f, hf, rfl⟩ := Option.map_eq_some_iff.1 hs
      unfold writeAlloc
      split
      · exact callsFrom_ioEnd _ _ _ _
      split
      · exact callsFrom_ioEnd _ _ _ _
      split
      · exact callsFrom_setCall rfl (callOk_same io hok rfl rfl rfl)
      split
      · exact callsFrom_ioEnd _ _ _ _
      split
      · exact callsFrom_setCall rfl (callOk_same io hok rfl rfl rfl)
      · exact callsFrom_setCall rfl (callOk_journal io hok rfl rfl rfl)
  | writeHandler io arg epoch =>
      obtain rfl := Option.some.inj hs
      unfold writeReturn
      cases epoch <;> simp only <;> split_ifs with hend
      · exact callsFrom_ioEnd _ _ _ _
      · push Not at hend
        exact callsFrom_setCall rfl (callOk_advance io hok rfl rfl rfl hend.2)
      · exact callsFrom_ioEnd { σ with sup := _ } _ _ _
      · push Not at hend
        exact callsFrom_setCall rfl (callOk_advance io hok rfl rfl rfl hend.2)
  | discard io =>
      obtain ⟨f, -, rfl⟩ := Option.map_eq_some_iff.1 hs
      unfold discardLookup
      split
      · exact callsFrom_ioEnd _ _ _ _
      · exact callsFrom_setCall rfl (callOk_same io hok rfl rfl rfl)
      · split_ifs
        · exact callsFrom_setCall rfl (callOk_journal io hok rfl rfl rfl)
        · exact callsFrom_ioEnd _ _ _ _
  | discardLocked io =>
      obtain ⟨f, hf, rfl⟩ := Option.map_eq_some_iff.1 hs
      unfold discardLocked
      split
      · exact callsFrom_ioEnd _ _ _ _
      · exact callsFrom_setCall rfl (callOk_same io hok rfl rfl rfl)
      · exact callsFrom_setCall rfl (callOk_same io hok rfl rfl rfl)
  | discardHandler io arg =>
      obtain rfl := Option.some.inj hs
      unfold discardReturn
      split_ifs with hend
      · exact callsFrom_ioEnd _ _ _ _
      · push Not at hend
        exact callsFrom_setCall rfl (callOk_advance io hok rfl rfl rfl hend.2)

theorem callsFrom_loaded (σ : Sys) (out : LoaderOut) : σ.CallsFrom (σ.loaded out) := by
  cases out <;> exact callsFrom_of_le le_rfl

theorem callsFrom_done (σ : Sys) (t : Task) (err m : Bool) (junk : Buf) :
    σ.CallsFrom ({ σ with active := none }.runTask t err m junk) := by
  by_cases hloud : Loud t
  · cases t with
    | copy id i b src =>
        cases err with
        | true => exact callsFrom_of_le le_rfl
        | false => exact callsFrom_addCall rfl (callOk_of_file_none rfl)
    | loadHeader =>
        simp only [runTask]
        split
        · exact callsFrom_of_le le_rfl
        · split_ifs <;> exact callsFrom_loaded { σ with active := none } _
    | loadPage =>
        simp only [runTask]
        split
        · exact callsFrom_of_le le_rfl
        · split_ifs <;> exact callsFrom_loaded { σ with active := none } _
    | _ => exact hloud.elim
  · exact (quiet_runTask { σ with active := none } hloud err m junk).callsFrom

/-- A call that enters has checked its range and the mode of its file. -/
theorem callOk_enter {s : Super} {c : Call} {file off len : ℕ} {f : File}
    (hio : c.io? = some ⟨file, off, len, false⟩) (hf : s.filesById[file]? = some f)
    (ho : f.openType ≠ .closed) (hm : c.isRead = false → f.openType = .readwrite)
    (hr : rangeOk f off len) : s.CallOk c := by
  intro io h
  obtain rfl : (⟨file, off, len, false⟩ : IoCall) = io := by simpa [hio] using h
  obtain ⟨h₁, h₂, h₃⟩ := hr
  exact ⟨f, hf, ho, hm, by simp only; omega, by simp only; omega⟩

theorem callsFrom_step {l : Label} (h : σ.CallsOk) (hs : σ.step l = some σ') : σ.CallsFrom σ' := by
  unfold step at hs
  split at hs
  · cases hs
  cases l with
  | create name | fork fromId name | rename id name | truncate id size =>
      obtain rfl := Option.some.inj hs
      split
      all_goals first | exact callsFrom_metaOp σ _ | exact callsFrom_of_le le_rfl
  | delete id =>
      obtain rfl := Option.some.inj hs
      exact callsFrom_metaOp σ _
  | «open» id write =>
      obtain rfl := Option.some.inj hs
      split <;> exact callsFrom_of_le le_rfl
  | close id =>
      simp only at hs
      split at hs
      · cases hs
      split_ifs at hs with hc
      obtain rfl := Option.some.inj hs
      exact callsFrom_of_le le_rfl
  | superFlush ondisk | flush file | compact =>
      obtain rfl := Option.some.inj hs
      exact callsFrom_addCall rfl (callOk_of_file_none rfl)
  | read file off len =>
      simp only at hs
      split at hs
      · cases hs
      rename_i f hf
      split_ifs at hs with ho hr
      · obtain rfl := Option.some.inj hs
        exact callsFrom_addCall rfl (callOk_enter rfl hf ho (by simp [Call.isRead]) hr)
      · obtain rfl := Option.some.inj hs
        exact callsFrom_of_le le_rfl
  | write file off len | discard file off len =>
      simp only at hs
      split at hs
      · cases hs
      rename_i f hf
      obtain rfl := Option.some.inj hs
      split_ifs with hr
      · exact callsFrom_addCall rfl (callOk_enter rfl hf (by simp [hr.1]) (fun _ => hr.1) hr.2)
      · exact callsFrom_of_le le_rfl
  | requeue file =>
      obtain rfl := Option.some.inj hs
      exact callsFrom_of_le le_rfl
  | call c ok =>
      simp only at hs
      split_ifs at hs with hc
      exact callsFrom_callStep h hc hs
  | handlerWrite c start len data =>
      simp only at hs
      split at hs
      · split_ifs at hs
        obtain rfl := Option.some.inj hs
        exact callsFrom_of_le le_rfl
      · cases hs
  | get =>
      simp only at hs
      split at hs
      · obtain rfl := Option.some.inj hs
        exact callsFrom_of_le le_rfl
      · cases hs
  | done err m junk =>
      simp only at hs
      split at hs
      · rename_i t ht
        obtain rfl := Option.some.inj hs
        exact callsFrom_done σ t err m junk
      · cases hs

/-! ### The invariant -/

/-- What the mount keeps: ids, sizes, and that no file is open. -/
def Idle (s : Super) : Prop := s.Keyed ∧ ∀ (id : ℕ) (f : File), s.filesById[id]? = some f →
  sizeValid f.size ∧ f.openType = .closed

theorem Idle.derives {X X' : Super} (hd : X.Derives X') (h : Idle X) : Idle X' := by
  refine ⟨hd.keyed h.1, fun k g hg => ⟨hd.sizes (fun id f hf => (h.2 id f hf).1) k g hg, ?_⟩⟩
  rcases hd k g hg with ⟨name, parent, rfl, -⟩ | ⟨f, hf, -, ho, -⟩
  · rfl
  · rw [ho, (h.2 k f hf).2]

/-- **The rule for the mount**: what survives the replay of an entry and does not
look at the cursor survives a callback. -/
theorem MountOut.rule {P : Super → Prop} (hcursor : ∀ X c, P X → P { X with cursor := c })
    (hreplay : ∀ X X' e, Super.Replayed X e X' → P X → P X') {l : Loader} {out : LoaderOut}
    (ho : σ.MountOut l out) (h : P σ.sup) : P out.super := by
  have hreplay' : ∀ (X X' : Super) (e : Entry), X.replay e = .ok X' → P X → P X' :=
    fun X X' e hr => hreplay X X' e (Super.replay_eq_ok.1 hr)
  cases ho with
  | error ht => exact h
  | header m ht => exact Loader.parserHeader_rule hcursor hreplay' l m _ h
  | page m ht => exact Loader.parserPage_rule hcursor hreplay' l m _ h

theorem Idle.mountOut {l : Loader} {out : LoaderOut} (ho : σ.MountOut l out) (h : Idle σ.sup) :
    Idle out.super :=
  ho.rule (fun _ _ h => h) (fun _ _ _ hr h => h.derives (hr.derives h.1)) h

/-- The callbacks of the mount do not touch the flags. -/
theorem ready_mountOut {l : Loader} {out : LoaderOut} (ho : σ.MountOut l out) :
    out.super.ready = σ.sup.ready :=
  ho.rule (P := fun X => X.ready = σ.sup.ready) (fun _ _ h => h)
    (fun _ _ _ hr h => hr.ready.trans h) rfl

theorem callsOk_keepsOpen (h : σ.CallsOk) (hd : σ.sup.Derives σ'.sup) (hk : σ.sup.KeepsOpen σ'.sup)
    (hready : σ'.sup.ready = σ.sup.ready) (hl : σ'.loader = σ.loader) (hc : σ.CallsFrom σ') :
    σ'.CallsOk := by
  refine ⟨hd.keyed h.keyed, hd.sizes h.sizes, fun hn => hready ▸ h.loading (hl ▸ hn), ?_, ?_⟩
  · intro hr k g hg
    have hidle : Idle σ.sup := ⟨h.keyed, fun id f hf => ⟨h.sizes id f hf, h.closed (hready ▸ hr) id f hf⟩⟩
    exact ((hidle.derives hd).2 k g hg).2
  · intro c hc'
    rcases hc c hc' with hold | hnew
    · exact CallOk.keepsOpen (h.calls c hold) hk
    · exact CallOk.keepsOpen hnew hk

/-- Opening or closing a file changes its mode only. -/
theorem callsOk_setFile {f g : File} (h : σ.CallsOk) (hf : σ.sup.filesById[f.id]? = some f)
    (hg : g = { f with openType := g.openType, reader := g.reader }) (hready : σ.sup.ready = true)
    (hc : ∀ c ∈ σ.calls, (σ.sup.setFile g).CallOk c) :
    CallsOk { σ with sup := σ.sup.setFile g } := by
  have hid : g.id = f.id := by rw [hg]
  have hsize : g.size = f.size := by rw [hg]
  refine ⟨Super.setFile_keyed h.keyed g, ?_, h.loading, ?_, hc⟩
  · intro k e he
    rw [Super.filesById_setFile] at he
    split_ifs at he with hk
    · obtain rfl := Option.some.inj he
      exact hsize ▸ h.sizes f.id f hf
    · exact h.sizes k e he
  · intro hr
    exact absurd (hready.symm.trans hr) (by simp)

theorem ready_of_ensureStatus {s : Super} (h : s.ensureStatus = none) : s.ready = true := by
  unfold Super.ensureStatus at h
  split_ifs at h with h₁ h₂
  exact h₂

/-- **Calls in progress hold their files open**, in every state of a run. -/
theorem callsOk_step {l : Label} (h : σ.CallsOk) (hs : σ.step l = some σ') : σ'.CallsOk := by
  have hc := callsFrom_step h hs
  rcases (step_effect h hs).change_or_quiet with hm | ⟨hm, -, hl⟩
  swap
  · exact callsOk_keepsOpen h hm.derives hm.keepsOpen hm.ready hl hc
  cases hm with
  | @«open» f g hst hf hg hkeep hchild hopen he =>
      subst he
      have hf' : σ.sup.filesById[g.id]? = some f := by rw [hg]; exact hf
      refine callsOk_setFile h hf hg (ready_of_ensureStatus hst) fun c hc' =>
        CallOk.keepsOpen (h.calls c hc') (Super.keepsOpen_setFile hf' fun ho => ⟨hkeep ho, ?_⟩)
      rw [hg]
  | @close f g hf hcl hopen hg hmode hkeep he =>
      subst he
      have hf' : σ.sup.filesById[g.id]? = some f := by rw [hg]; exact hf
      have hready : σ.sup.ready = true := by
        by_contra hr
        exact hopen (h.closed (by simpa using hr) f.id f hf)
      refine callsOk_setFile h hf hg hready fun c hc' => ?_
      -- the contract of `cyanfs_close`: only reads of other openers are left
      intro io hio
      obtain ⟨e, he, ho, hm, hlen, hsize⟩ := h.calls c hc' io hio
      by_cases hfile : io.file = f.id
      · obtain ⟨hro, hreader⟩ := hcl.1 c hc'
          (by rw [Call.file?_eq, Option.mem_def.1 hio, Option.map_some, hfile])
        rw [hfile, hf] at he
        obtain rfl := Option.some.inj he
        have hg' := hkeep hreader hro
        refine ⟨g, by rw [Super.filesById_setFile, if_pos (by rw [hfile, hg])], by rw [hg']; simp,
          fun hr => ?_, hlen, ?_⟩
        · rw [hro] at hm
          exact absurd (hm hr) (by simp)
        · rw [hg]
          exact hsize
      · refine ⟨e, ?_, ho, hm, hlen, hsize⟩
        rw [Super.filesById_setFile, if_neg (by rw [hg]; exact hfile), he]
  | closeClosed he =>
      subst he
      exact ⟨h.keyed, h.sizes, h.loading, h.closed, h.calls⟩
  | @op j s cs ws ho he =>
      have hsup : s.MetaEq σ'.sup := he ▸ ⟨rfl, rfl, rfl, rfl, rfl, rfl, rfl, rfl, rfl⟩
      refine callsOk_keepsOpen h ((ho.derives h.keyed).of_metaEq hsup)
        ((ho.keepsOpen h.keyed).trans hsup.keepsOpen) ?_ (by rw [he]; rfl) hc
      rw [hsup.ready, ho.ready]
  | @copyStart f i b src cs ws io hio hid hidx hst hf hmode hi hsize hb hnone he =>
      have hsup : (σ.sup.copyPending f b i).MetaEq σ'.sup :=
        he ▸ ⟨rfl, rfl, rfl, rfl, rfl, rfl, rfl, rfl, rfl⟩
      refine callsOk_keepsOpen h ((Super.derives_copyPending hf hnone).of_metaEq hsup)
        (.trans ?_ hsup.keepsOpen) ?_ (by rw [he]) hc
      · exact (Super.keepsOpen_superToFile hf hnone).trans (Super.keepsOpen_markExtent _ _ _ _)
      · rw [hsup.ready, Super.copyPending, Super.ready_updFile, Super.superToFile_eq hnone]
        rfl
  | @copied id i b src err m junk ht he =>
      have hsup : (σ.sup.copyEnded id i err).MetaEq σ'.sup := he ▸ metaEq_runTask_copy σ id i b src err m junk
      refine callsOk_keepsOpen h ((Super.derives_markExtent _ _ _ _).of_metaEq hsup)
        (.trans (Super.keepsOpen_markExtent _ _ _ _) hsup.keepsOpen) ?_ ?_ hc
      · rw [hsup.ready, Super.copyEnded, Super.ready_updFile]
      · rw [he]
        cases err <;> rfl
  | @mount ld out hl ho he =>
      have hready : σ.sup.ready = false := h.loading (by simp [hl])
      have hidle : Idle σ.sup := ⟨h.keyed, fun id f hf => ⟨h.sizes id f hf, h.closed hready id f hf⟩⟩
      have hout := hidle.mountOut ho
      have hro := (ready_mountOut ho).trans hready
      -- no file was open, so no call was on a file
      have hnone : ∀ c ∈ σ'.calls, c.file? = none := by
        intro c hc'
        have hok : σ.sup.CallOk c := (hc c hc').elim (h.calls c) id
        rw [Call.file?_eq]
        cases hio : c.io? with
        | none => rfl
        | some io =>
            obtain ⟨f, hf, hopen, -⟩ := hok io hio
            exact absurd (h.closed hready _ f hf) hopen
      subst he
      cases out with
      | readPage l X =>
          exact ⟨hout.1, fun id f hf => (hout.2 id f hf).1, fun _ => hro,
            fun _ id f hf => (hout.2 id f hf).2, fun c hc' => callOk_of_file_none (hnone c hc')⟩
      | finish l X =>
          exact ⟨hout.1, fun id f hf => (hout.2 id f hf).1, fun hn => absurd rfl hn,
            fun _ id f hf => (hout.2 id f hf).2, fun c hc' => callOk_of_file_none (hnone c hc')⟩
      | error X =>
          exact ⟨hout.1, fun id f hf => (hout.2 id f hf).1, fun hn => absurd rfl hn,
            fun _ id f hf => (hout.2 id f hf).2, fun c hc' => callOk_of_file_none (hnone c hc')⟩

theorem callsOk_opened (total : ℕ) (discard compact : Bool) (uuid : Uuid) (disk : Buf) :
    (Sys.opened total discard compact uuid disk).CallsOk := by
  refine ⟨?_, ?_, fun _ => rfl, ?_, ?_⟩
  · intro id f hf
    simp [Sys.opened, Super.opened] at hf
  · intro id f hf
    simp [Sys.opened, Super.opened] at hf
  · intro _ id f hf
    simp [Sys.opened, Super.opened] at hf
  · simp [Sys.opened]

/-- The number of extents is settled when the disk is opened. -/
theorem totalExtents_effect (he : σ.Effect σ') : σ'.sup.totalExtents = σ.sup.totalExtents := by
  rcases he.change_or_quiet with hm | ⟨hm, -, -⟩
  swap
  · exact hm.totalExtents
  cases hm with
  | «open» _ _ _ _ _ _ he | close _ _ _ _ _ _ he | closeClosed he => exact he ▸ rfl
  | @op j s cs ws ho he =>
      have : σ'.sup.totalExtents = s.totalExtents := he ▸ rfl
      rw [this, ho.totalExtents]
  | @copyStart f i b src cs ws io hio hid hidx hst hf hmode hi hsize hb hnone he =>
      have : σ'.sup.totalExtents = (σ.sup.copyPending f b i).totalExtents := he ▸ rfl
      rw [this, Super.copyPending, Super.totalExtents_updFile, Super.superToFile_eq hnone]
      rfl
  | @copied id i b src err m junk ht he =>
      rw [he, (metaEq_runTask_copy σ id i b src err m junk).totalExtents, Super.copyEnded,
        Super.totalExtents_updFile]
  | @mount l out hl ho he =>
      have hout : out.super.totalExtents = σ.sup.totalExtents :=
        ho.rule (P := fun X => X.totalExtents = σ.sup.totalExtents) (fun _ _ h => h)
          (fun _ _ _ hr h => hr.totalExtents.trans h) rfl
      subst he
      cases out <;> exact hout

/-- **The rule for whole runs**: what holds at the start and survives every step
holds in every state reached. -/
theorem Reachable.rule {P : Sys → Prop} {σ₀ : Sys} (h : σ₀.Reachable σ) (h₀ : P σ₀)
    (hstep : ∀ σ l σ', P σ → σ.step l = some σ' → P σ') : P σ := by
  obtain ⟨ls, hrun⟩ := h
  induction ls generalizing σ₀ with
  | nil => exact Option.some.inj hrun ▸ h₀
  | cons l ls ih =>
      obtain ⟨σ₁, hs, hr⟩ := Option.bind_eq_some_iff.1 hrun
      exact ih (hstep _ l _ h₀ hs) hr

theorem run_append (σ : Sys) (ls ms : List Label) :
    σ.run (ls ++ ms) = (σ.run ls).bind fun σ' => σ'.run ms := by
  induction ls generalizing σ with
  | nil => rfl
  | cons l ls ih =>
      rw [List.cons_append, run, run]
      cases σ.step l with
      | none => rfl
      | some σ' => exact ih σ'

theorem Reachable.trans {σ₀ : Sys} (h : σ₀.Reachable σ) (h' : σ.Reachable σ') :
    σ₀.Reachable σ' := by
  obtain ⟨ls, hls⟩ := h
  obtain ⟨ms, hms⟩ := h'
  exact ⟨ls ++ ms, by rw [run_append, hls]; exact hms⟩

end Sys

end Cyanfs
