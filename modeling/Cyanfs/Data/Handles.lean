/-
# Open modes and frozen ancestors

A file with children is never open for writing, and while it has children its
size and the extents in its tree stay as they are: `cyanfs_open` and
`cyanfs_fork` keep writers and children apart, and everything that changes a
file asks for one of the two.  So the ancestor extent that `cyanfs_write` looks
up before it drops the lock is the one it would find after it has taken the lock
again.

`Handles` counts the handles that are out; `HandledRun` is a run in which every
close takes back one of them.
-/

import Cyanfs.Data.Mapping
import Cyanfs.Run.First

namespace Cyanfs

open Lib Std

namespace Super

variable {s s' : Super} {f : File} {id i b : ℕ}

/-! ### Modes -/

/-- The mode of a file and its number of readers; a file that does not exist is
closed. -/
def modes (s : Super) (id : ℕ) : OpenType × ℕ :=
  ((s.filesById[id]?).map fun f => (f.openType, f.reader)).getD (.closed, 0)

theorem modes_of_file (hf : s.filesById[id]? = some f) : s.modes id = (f.openType, f.reader) := by
  simp [modes, hf]

/-- Closed files have no readers. -/
def Unread (s : Super) : Prop := ∀ (id : ℕ) (f : File), s.filesById[id]? = some f →
  f.openType = .closed → f.reader = 0

/-- Files that are open for writing have no children. -/
def Leaf (s : Super) : Prop := ∀ (id : ℕ) (f : File), s.filesById[id]? = some f →
  f.openType = .readwrite → f.children = 0

/-- What holds of the files when no file changes its mode. -/
structure Steady (s s' : Super) : Prop where
  modes : ∀ k, s'.modes k = s.modes k
  leaf : s.Leaf → s'.Leaf
  /-- a file that is open or has children keeps its size and its parent -/
  keep : ∀ (k : ℕ) (f : File), s.filesById[k]? = some f → f.openType ≠ .closed ∨ f.children ≠ 0 →
    ∃ g, s'.filesById[k]? = some g ∧ g.size = f.size ∧ g.parent = f.parent

theorem Steady.of_files (h : s'.filesById = s.filesById) : s.Steady s' := by
  refine ⟨fun k => by simp [Super.modes, h], fun hl => ?_, fun k f hf _ => ⟨f, h ▸ hf, rfl, rfl⟩⟩
  unfold Leaf
  rwa [h]

theorem Steady.trans {s'' : Super} (h : s.Steady s') (h' : s'.filesById = s''.filesById) :
    s.Steady s'' := by
  refine ⟨fun k => ?_, fun hl => ?_, fun k f hf ho => ?_⟩
  · rw [← h.modes k]
    simp [Super.modes, h']
  · unfold Leaf
    rw [← h']
    exact h.leaf hl
  · rw [← h']
    exact h.keep k f hf ho

/-- One file changed, but not its mode. -/
theorem steady_update {g : File} (hf : s.filesById[id]? = some f)
    (hs : ∀ k : ℕ, s'.filesById[k]? = if k = id then some g else s.filesById[k]?)
    (ho : g.openType = f.openType) (hr : g.reader = f.reader)
    (hc : f.openType = .readwrite → f.children = 0 → g.children = 0)
    (hkeep : f.openType ≠ .closed ∨ f.children ≠ 0 → g.size = f.size ∧ g.parent = f.parent) :
    s.Steady s' := by
  refine ⟨fun k => ?_, fun hl k e he hm => ?_, fun k e he hopen => ?_⟩
  · simp only [Super.modes, hs]
    split_ifs with hk
    · simp [hk, hf, ho, hr]
    · rfl
  · rw [hs] at he
    split_ifs at he with hk
    · obtain rfl := Option.some.inj he
      exact hc (ho ▸ hm) (hl id f hf (ho ▸ hm))
    · exact hl k e he hm
  · rw [hs]
    split_ifs with hk
    · rw [hk, hf] at he
      obtain rfl := Option.some.inj he
      exact ⟨g, rfl, hkeep hopen⟩
    · exact ⟨e, he, rfl, rfl⟩

theorem steady_initFile {name : FileName} {parent : Option File}
    (hi : s.initFile name id parent = .ok s') (hp : ∀ p ∈ parent, s.filesById[p.id]? = some p)
    (hmode : ∀ p ∈ parent, p.openType ≠ .readwrite) : s.Steady s' := by
  have hnone := (initFile_eq_ok.1 hi).1
  have hfiles := filesById_initFile hi hp
  refine ⟨fun k => ?_, fun hl k e he hm => ?_, fun k e he hopen => ?_⟩
  · simp only [Super.modes, hfiles]
    split_ifs with h₁ h₂
    · simp [h₁, hnone, newFile]
    · cases s.filesById[k]? <;> rfl
    · rfl
  · rw [hfiles] at he
    split_ifs at he with h₁ h₂
    · obtain rfl := Option.some.inj he
      cases hm
    · obtain ⟨f, hf, rfl⟩ := Option.map_eq_some_iff.1 he
      obtain ⟨p, hq, rfl⟩ := h₂
      rw [hp p hq] at hf
      exact absurd hm (Option.some.inj hf ▸ hmode p hq)
    · exact hl k e he hm
  · have hk : k ≠ id := by
      rintro rfl
      rw [hnone] at he
      cases he
    rw [hfiles, if_neg hk]
    split_ifs
    · exact ⟨{ e with children := e.children + 1 }, by rw [he]; rfl, rfl, rfl⟩
    · exact ⟨e, he, rfl, rfl⟩

theorem steady_deleteFile (hk : s.Keyed) (hu : s.Unread) (hf : s.filesById[f.id]? = some f)
    (hmode : f.openType = .closed) (hc : f.children = 0) : s.Steady (s.deleteFile f) := by
  have hfiles := filesById_deleteFile hk hf
  refine ⟨fun k => ?_, fun hl k e he hm => ?_, fun k e he hopen => ?_⟩
  · simp only [Super.modes, hfiles]
    split_ifs with h₁ h₂
    · simp [h₁, hf, hmode, hu f.id f hf hmode]
    · cases s.filesById[k]? <;> rfl
    · rfl
  · rw [hfiles] at he
    split_ifs at he with h₁ h₂
    · obtain ⟨g, hg, rfl⟩ := Option.map_eq_some_iff.1 he
      simp only at hm ⊢
      rw [hl k g hg hm]
    · exact hl k e he hm
  · have hne : k ≠ f.id := by
      rintro rfl
      rw [hf] at he
      obtain rfl := Option.some.inj he
      rcases hopen with h | h
      · exact h hmode
      · exact h hc
    rw [hfiles, if_neg hne]
    split_ifs
    · exact ⟨{ e with children := e.children - 1 }, by rw [he]; rfl, rfl, rfl⟩
    · exact ⟨e, he, rfl, rfl⟩

theorem steady_superToFile (hf : s.filesById[f.id]? = some f) (hi : f.extents[i]? = none) :
    s.Steady (s.superToFile f b i) := by
  rw [superToFile_eq hi]
  exact steady_update hf (fun k => filesById_setFile _ _ k) rfl rfl (fun _ h => h) fun _ => ⟨rfl, rfl⟩

theorem steady_unmapExtent (hk : s.Keyed) (hf : s.filesById[id]? = some f) (i : ℕ) :
    s.Steady (s.unmapExtent id i) := by
  have hu : (f.unmapAt i).openType = f.openType ∧ (f.unmapAt i).reader = f.reader ∧
      (f.unmapAt i).children = f.children ∧ (f.unmapAt i).size = f.size ∧
      (f.unmapAt i).parent = f.parent := by
    unfold File.unmapAt
    split_ifs <;> exact ⟨rfl, rfl, rfl, rfl, rfl⟩
  refine steady_update (g := f.unmapAt i) hf (fun k => ?_) hu.1 hu.2.1
    (fun _ h => hu.2.2.1.trans h) fun _ => hu.2.2.2
  rw [filesById_unmapExtent hk, hf]
  rfl

theorem steady_truncateFile (hk : s.Keyed) (hf : s.filesById[f.id]? = some f)
    (hmode : f.openType = .closed) (hc : f.children = 0) (size : ℕ) :
    s.Steady (s.truncateFile f size) := by
  obtain ⟨x, c, hu⟩ := f.unmapAll_eq (truncateKeys f size)
  refine steady_update hf (filesById_truncateFile hk hf size) (by rw [hu]) (by rw [hu])
    (fun h => absurd h (by simp [hmode])) fun hopen => ?_
  rcases hopen with h | h
  · exact absurd hmode h
  · exact absurd hc h

theorem steady_markExtent (s : Super) (id i : ℕ) (u : Extent → Extent) :
    s.Steady (s.updFile id fun f => f.markExtent i u) := by
  cases hf : s.filesById[id]? with
  | none =>
      refine .of_files ?_
      simp [updFile, hf]
  | some f =>
      have hu : (f.markExtent i u).openType = f.openType ∧ (f.markExtent i u).reader = f.reader ∧
          (f.markExtent i u).children = f.children ∧ (f.markExtent i u).size = f.size ∧
          (f.markExtent i u).parent = f.parent := by
        unfold File.markExtent
        split <;> exact ⟨rfl, rfl, rfl, rfl, rfl⟩
      refine steady_update (g := f.markExtent i u) hf (fun k => ?_) hu.1 hu.2.1
        (fun _ h => hu.2.2.1.trans h) fun _ => hu.2.2.2
      rw [filesById_updFile, hf]
      rfl

theorem steady_copyPending (hf : s.filesById[f.id]? = some f) (hi : f.extents[i]? = none) :
    s.Steady (s.copyPending f b i) := by
  have h₁ := steady_superToFile (b := b) hf hi
  have h₂ := steady_markExtent (s.superToFile f b i) f.id i fun e => { e with pending := true }
  refine ⟨fun k => (h₂.modes k).trans (h₁.modes k), fun hl => h₂.leaf (h₁.leaf hl), ?_⟩
  intro k e he hopen
  obtain ⟨g, hg, hs, hp⟩ := h₁.keep k e he hopen
  have hopen' : g.openType ≠ .closed ∨ g.children ≠ 0 := by
    rw [superToFile_eq hi, filesById_setFile] at hg
    split_ifs at hg with hk
    · obtain rfl := Option.some.inj hg
      rw [hk, hf] at he
      exact Option.some.inj he ▸ hopen
    · have he' : some g = some e := hg.symm.trans he
      exact Option.some.inj he' ▸ hopen
  obtain ⟨g', hg', hs', hp'⟩ := h₂.keep k g hg hopen'
  exact ⟨g', hg', hs'.trans hs, hp'.trans hp⟩

theorem Op.steady {j : JEntry} (hk : s.Keyed) (hu : s.Unread) (ho : s.Op j s') : s.Steady s' := by
  cases ho with
  | create hn hs hlimit hmax hlookup hi => exact steady_initFile hi (by simp) (by simp)
  | fork hn hs hlimit hmax hp hmode hlookup hi =>
      exact steady_initFile hi (by rintro _ ⟨⟩; exact hp) (by rintro _ ⟨⟩; exact hmode)
  | @rename name f hn hs hlookup hf =>
      exact steady_update hf (fun k => filesById_setFile s { f with name := name } k) rfl rfl
        (fun _ h => h) fun _ => ⟨rfl, rfl⟩
  | truncate hv hs hf hmode hc => exact steady_truncateFile hk hf hmode hc _
  | delete hs hf hmode hc => exact steady_deleteFile hk hu hf hmode hc
  | bind hs hf hmode hi hsize hroom hb hnone => exact steady_superToFile hf hnone
  | unbind hs hf hmode hi hsize he hp herr => exact steady_unmapExtent hk hf _

end Super

namespace Sys

variable {σ σ' : Sys} {total : ℕ}

/-! ### Steps that leave the modes alone -/

theorem steady_refl (s : Super) : s.Steady s := .of_files rfl

theorem Quiet.steady (h : σ.Quiet σ') : σ.sup.Steady σ'.sup := .of_files h.sup.filesById

theorem steady_metaOp {r : Except Err Super} (hk : σ.sup.Keyed) (hu : σ.sup.Unread)
    (h : ∀ s', r = .ok s' → ∃ j s, σ.sup.Op j s ∧ s' = s.append j) :
    σ.sup.Steady (σ.metaOp r).sup := by
  unfold metaOp
  cases r with
  | error e => exact steady_refl _
  | ok s' =>
      obtain ⟨j, s, ho, rfl⟩ := h s' rfl
      exact (ho.steady hk hu).trans rfl

theorem sup_ioEnd (σ : Sys) (c : Call) (io : IoCall) (st : Status) :
    (σ.ioEnd c io st).sup = σ.sup := by
  unfold ioEnd
  split_ifs <;> rfl

theorem steady_callStep {c : Call} {ok : Bool} (h : σ.CallsOk) (hs : σ.callStep c ok = some σ') :
    σ.sup.Steady σ'.sup := by
  have hsame : ∀ {s : Super}, s = σ.sup → σ.sup.Steady s := fun he => he ▸ steady_refl _
  cases c with
  | flusher min ondisk file =>
      obtain rfl := Option.some.inj hs
      exact (quiet_flusherStart _ _ _ _ _ _).steady
  | flusherQueue ondisk file =>
      obtain rfl := Option.some.inj hs
      exact (quiet_flusherQueue _ _ _ _).steady
  | flushType file =>
      obtain rfl := Option.some.inj hs
      exact steady_refl _
  | compact =>
      obtain rfl := Option.some.inj hs
      exact (quiet_compactStart _ _).steady
  | compactInit endId =>
      obtain rfl := Option.some.inj hs
      exact (quiet_compactInit _ _ _ _).steady
  | read io =>
      obtain rfl := Option.some.inj hs
      unfold readLookup
      split <;> exact steady_refl _
  | readHandler io arg =>
      obtain rfl := Option.some.inj hs
      unfold readReturn
      split_ifs <;> exact steady_refl _
  | write io =>
      obtain ⟨f, -, rfl⟩ := Option.map_eq_some_iff.1 hs
      unfold writeLookup
      split
      · exact hsame (sup_ioEnd _ _ _ _)
      split
      · exact .of_files rfl
      split
      · split_ifs
        · exact hsame (sup_ioEnd _ _ _ _)
        · exact steady_refl _
        · exact steady_refl _
      · exact steady_refl _
  | writeAlloc io parent =>
      obtain ⟨f, hf, rfl⟩ := Option.map_eq_some_iff.1 hs
      have hf' : σ.sup.filesById[f.id]? = some f := by rw [h.keyed _ f hf]; exact hf
      unfold writeAlloc
      split
      · exact hsame (sup_ioEnd _ _ _ _)
      split
      · exact hsame (sup_ioEnd _ _ _ _)
      split
      · exact .of_files rfl
      split
      · exact hsame (sup_ioEnd _ _ _ _)
      rename_i s i b ha
      obtain ⟨-, -, rfl, hnone, rfl⟩ := allocExtent_eq_some ha
      split
      · exact (Super.steady_copyPending hf' hnone).trans rfl
      · exact (Super.steady_superToFile hf' hnone).trans rfl
  | writeHandler io arg epoch =>
      obtain rfl := Option.some.inj hs
      unfold writeReturn ioEnd
      cases epoch <;> simp only <;> split_ifs <;> exact .of_files rfl
  | discard io =>
      obtain ⟨f, -, rfl⟩ := Option.map_eq_some_iff.1 hs
      unfold discardLookup
      split
      · exact hsame (sup_ioEnd _ _ _ _)
      · exact steady_refl _
      · split_ifs
        · exact steady_refl _
        · exact hsame (sup_ioEnd _ _ _ _)
  | discardLocked io =>
      obtain ⟨f, hf, rfl⟩ := Option.map_eq_some_iff.1 hs
      have hf' : σ.sup.filesById[f.id]? = some f := by rw [h.keyed _ f hf]; exact hf
      unfold discardLocked
      split
      · exact hsame (sup_ioEnd _ _ _ _)
      · exact steady_refl _
      · exact (Super.steady_unmapExtent h.keyed hf' _).trans rfl
  | discardHandler io arg =>
      obtain rfl := Option.some.inj hs
      unfold discardReturn
      split_ifs
      · exact hsame (sup_ioEnd _ _ _ _)
      · exact steady_refl _

theorem steady_done (hl : σ.loader = none) (t : Task) (err m : Bool) (junk : Buf) :
    σ.sup.Steady ({ σ with active := none }.runTask t err m junk).sup := by
  by_cases hloud : Loud t
  · cases t with
    | copy id i b src =>
        cases err <;> exact (Super.steady_markExtent σ.sup id i _).trans rfl
    | loadHeader | loadPage =>
        simp only [runTask, hl]
        exact steady_refl _
    | _ => exact hloud.elim
  · exact .of_files (quiet_runTask { σ with active := none } hloud err m junk).sup.filesById

/-- **After the mount** only `cyanfs_open` and `cyanfs_close` change a mode. -/
theorem step_steady {l : Label} (h : σ.Sound total) (hu : σ.sup.Unread) (hl : σ.loader = none)
    (hs : σ.step l = some σ') : σ.sup.Steady σ'.sup ∨
      (∃ id w s, l = .open id w ∧ σ.sup.openFile id w = .ok s ∧ σ' = { σ with sup := s }) ∨
      ∃ id f, l = .close id ∧ σ.sup.filesById[id]? = some f ∧
        σ' = { σ with sup := σ.sup.closeFile f } := by
  have hk := h.calls.keyed
  unfold step at hs
  split at hs
  · cases hs
  cases l with
  | create name =>
      obtain rfl := Option.some.inj hs
      split
      · exact .inl (steady_refl _)
      · rename_i n hn
        exact .inl (steady_metaOp hk hu fun s' hs' =>
          Super.op_create (FileName.normal_of_normalize hn).1 hs')
  | fork fromId name =>
      obtain rfl := Option.some.inj hs
      split
      · exact .inl (steady_refl _)
      · rename_i n hn
        exact .inl (steady_metaOp hk hu fun s' hs' =>
          Super.op_fork hk (FileName.normal_of_normalize hn).1 hs')
  | rename id name =>
      obtain rfl := Option.some.inj hs
      split
      · exact .inl (steady_refl _)
      · rename_i n hn
        exact .inl (steady_metaOp hk hu fun s' hs' =>
          Super.op_rename hk (FileName.normal_of_normalize hn).1 hs')
  | truncate id size =>
      obtain rfl := Option.some.inj hs
      split_ifs with hv
      · exact .inl (steady_metaOp hk hu fun s' hs' => Super.op_truncate hk hv hs')
      · exact .inl (steady_refl _)
  | delete id =>
      obtain rfl := Option.some.inj hs
      exact .inl (steady_metaOp hk hu fun s' hs' => Super.op_delete hk hs')
  | «open» id write =>
      obtain rfl := Option.some.inj hs
      split
      · rename_i s ho
        exact .inr (.inl ⟨id, write, s, rfl, ho, rfl⟩)
      · exact .inl (steady_refl _)
  | close id =>
      simp only at hs
      split at hs
      · cases hs
      rename_i f hf
      split_ifs at hs
      obtain rfl := Option.some.inj hs
      exact .inr (.inr ⟨id, f, rfl, hf, rfl⟩)
  | superFlush ondisk | flush file | compact | requeue file =>
      obtain rfl := Option.some.inj hs
      exact .inl (steady_refl _)
  | read file off len =>
      simp only at hs
      split at hs
      · cases hs
      split_ifs at hs <;> obtain rfl := Option.some.inj hs <;> exact .inl (steady_refl _)
  | write file off len | discard file off len =>
      simp only at hs
      split at hs
      · cases hs
      obtain rfl := Option.some.inj hs
      split_ifs <;> exact .inl (steady_refl _)
  | call c ok =>
      simp only at hs
      split_ifs at hs
      exact .inl (steady_callStep h.calls hs)
  | handlerWrite c start len data =>
      simp only at hs
      split at hs
      · split_ifs at hs
        obtain rfl := Option.some.inj hs
        exact .inl (steady_refl _)
      · cases hs
  | get =>
      simp only at hs
      split at hs
      · obtain rfl := Option.some.inj hs
        exact .inl (steady_refl _)
      · cases hs
  | done err m junk =>
      simp only at hs
      split at hs
      · rename_i t ht
        obtain rfl := Option.some.inj hs
        exact .inl (steady_done hl t err m junk)
      · cases hs

/-! ### Handles -/

end Sys

/-- The handles that are out, for every file. -/
structure Handles where
  read : ℕ → ℕ
  write : ℕ → ℕ

namespace Handles

variable (h : Handles)

def none : Handles := ⟨fun _ => 0, fun _ => 0⟩

/-- The handles of one kind on a file. -/
def count (id : ℕ) (write : Bool) : ℕ := if write then h.write id else h.read id

/-- A handle is handed out. -/
def add (id : ℕ) (write : Bool) : Handles :=
  if write then { h with write := Function.update h.write id (h.write id + 1) }
  else { h with read := Function.update h.read id (h.read id + 1) }

/-- A handle is taken back. -/
def remove (id : ℕ) (write : Bool) : Handles :=
  if write then { h with write := Function.update h.write id (h.write id - 1) }
  else { h with read := Function.update h.read id (h.read id - 1) }

/-- The handles on a file agree with its mode and its number of readers. -/
def Fits (id : ℕ) : OpenType × ℕ → Prop
  | (.closed, r) => r = 0 ∧ h.read id = 0 ∧ h.write id = 0
  | (.readonly, r) => 0 < r ∧ h.read id = r ∧ h.write id = 0
  | (.readwrite, r) => r = 0 ∧ h.read id = 0 ∧ h.write id = 1

theorem fits_of_ne {k : ℕ} {m : OpenType × ℕ} {h' : Handles} (hr : h'.read k = h.read k)
    (hw : h'.write k = h.write k) (hf : h.Fits k m) : h'.Fits k m := by
  obtain ⟨o, r⟩ := m
  cases o <;> simpa only [Fits, hr, hw] using hf

theorem read_add_of_ne {id k : ℕ} (hk : k ≠ id) (w : Bool) :
    (h.add id w).read k = h.read k ∧ (h.add id w).write k = h.write k := by
  unfold add
  split_ifs <;> simp [hk]

theorem read_remove_of_ne {id k : ℕ} (hk : k ≠ id) (w : Bool) :
    (h.remove id w).read k = h.read k ∧ (h.remove id w).write k = h.write k := by
  unfold remove
  split_ifs <;> simp [hk]

end Handles

namespace Sys

variable {σ σ' : Sys} {h h' : Handles} {total : ℕ}

/-- A step with the handles before and after it.  A close takes back a handle
that is out. -/
inductive HandledStep : Sys × Handles → Sys × Handles → Prop
  | opened {σ σ' : Sys} {h : Handles} {id : ℕ} {w : Bool} {s : Super}
      (hs : σ.step (.open id w) = some σ') (hok : σ.sup.openFile id w = .ok s) :
      HandledStep (σ, h) (σ', h.add id w)
  | refused {σ σ' : Sys} {h : Handles} {id : ℕ} {w : Bool} {e : Err}
      (hs : σ.step (.open id w) = some σ') (hno : σ.sup.openFile id w = .error e) :
      HandledStep (σ, h) (σ', h)
  | closed {σ σ' : Sys} {h : Handles} {id : ℕ} {w : Bool} (hs : σ.step (.close id) = some σ')
      (hout : 0 < h.count id w) : HandledStep (σ, h) (σ', h.remove id w)
  | other {σ σ' : Sys} {h : Handles} {l : Label} (hs : σ.step l = some σ')
      (hopen : ∀ id w, l ≠ .open id w) (hclose : ∀ id, l ≠ .close id) : HandledStep (σ, h) (σ', h)

/-- A run with the handles handed out in it. -/
def HandledRun : Sys × Handles → Sys × Handles → Prop := Relation.ReflTransGen HandledStep

theorem HandledStep.step (hs : HandledStep (σ, h) (σ', h')) : ∃ l, σ.step l = some σ' := by
  cases hs with
  | opened hs | refused hs | closed hs | other hs => exact ⟨_, hs⟩

/-- The handles agree with the modes, and a file that is open for writing has no
children. -/
structure HandlesOk (σ : Sys) (h : Handles) : Prop where
  fits : ∀ id, h.Fits id (σ.sup.modes id)
  leaf : σ.sup.Leaf

theorem HandlesOk.unread (hh : σ.HandlesOk h) : σ.sup.Unread := by
  intro id f hf hc
  have hfit := hh.fits id
  rw [Super.modes_of_file hf, hc] at hfit
  exact hfit.1

theorem HandlesOk.steady (hh : σ.HandlesOk h) (hs : σ.sup.Steady σ'.sup) : σ'.HandlesOk h :=
  ⟨fun id => hs.modes id ▸ hh.fits id, hs.leaf hh.leaf⟩

/-- One file changes its mode. -/
theorem HandlesOk.setFile {f g : File} (hh : σ.HandlesOk h) (hid : g.id = f.id)
    (hsup : σ'.sup = σ.sup.setFile g)
    (hother : ∀ k, k ≠ f.id → h'.read k = h.read k ∧ h'.write k = h.write k)
    (hfit : h'.Fits f.id (g.openType, g.reader))
    (hleaf : g.openType = .readwrite → g.children = 0) : σ'.HandlesOk h' := by
  refine ⟨fun k => ?_, fun k e he hm => ?_⟩
  · rw [hsup]
    by_cases hk : k = f.id
    · subst hk
      have : (σ.sup.setFile g).filesById[f.id]? = some g := by
        rw [Super.filesById_setFile, if_pos hid.symm]
      rw [Super.modes_of_file this]
      exact hfit
    · have : (σ.sup.setFile g).modes k = σ.sup.modes k := by
        simp only [Super.modes, Super.filesById_setFile, hid, if_neg hk]
      rw [this]
      obtain ⟨hr, hw⟩ := hother k hk
      exact h.fits_of_ne hr hw (hh.fits k)
  · rw [hsup, Super.filesById_setFile] at he
    split_ifs at he
    · obtain rfl := Option.some.inj he
      exact hleaf hm
    · exact hh.leaf k e he hm

theorem handlesOk_open {id : ℕ} {w : Bool} {s : Super} (hk : σ.sup.Keyed) (hh : σ.HandlesOk h)
    (ho : σ.sup.openFile id w = .ok s) : HandlesOk { σ with sup := s } (h.add id w) := by
  unfold Super.openFile at ho
  split at ho
  · cases ho
  split at ho
  · cases ho
  rename_i f hf
  obtain rfl := hk id f hf
  have hfit := hh.fits f.id
  rw [Super.modes_of_file hf] at hfit
  split_ifs at ho with h₁ h₂ h₃
  · push Not at h₂
    obtain rfl := Except.ok.inj ho
    rw [h₂.1] at hfit
    refine hh.setFile (g := { f with openType := .readwrite }) rfl rfl
      (fun k hk => h.read_add_of_ne hk w) ?_ fun _ => h₂.2
    obtain ⟨h0, h1, h2⟩ := hfit
    simp [Handles.Fits, Handles.add, h₁, h0, h1, h2]
  · obtain rfl := Except.ok.inj ho
    refine hh.setFile (g := { f with openType := .readonly, reader := f.reader + 1 }) rfl rfl
      (fun k hk => h.read_add_of_ne hk w) ?_ (by simp)
    have hw : w = false := by simpa using h₁
    have hread : h.read f.id = f.reader ∧ h.write f.id = 0 := by
      cases hm : f.openType with
      | closed =>
          rw [hm] at hfit
          exact ⟨by rw [hfit.1, hfit.2.1], hfit.2.2⟩
      | readonly =>
          rw [hm] at hfit
          exact hfit.2
      | readwrite => exact absurd hm h₃
    simp [Handles.Fits, Handles.add, hw, hread.1, hread.2]

theorem handlesOk_close {f : File} {w : Bool} (hf : σ.sup.filesById[f.id]? = some f)
    (hh : σ.HandlesOk h) (hout : 0 < h.count f.id w) :
    f.openType ≠ .closed ∧ HandlesOk { σ with sup := σ.sup.closeFile f } (h.remove f.id w) := by
  have hfit := hh.fits f.id
  rw [Super.modes_of_file hf] at hfit
  unfold Super.closeFile
  cases hm : f.openType with
  | closed =>
      rw [hm] at hfit
      exfalso
      cases w <;> simp [Handles.count, hfit.2.1, hfit.2.2] at hout
  | readwrite =>
      rw [hm] at hfit
      obtain ⟨h0, h1, h2⟩ := hfit
      have hw : w = true := by
        cases w
        · simp [Handles.count, h1] at hout
        · rfl
      refine ⟨by simp, hh.setFile (g := { f with openType := .closed }) rfl rfl
        (fun k hk => h.read_remove_of_ne hk w) ?_ (by simp)⟩
      simp [Handles.Fits, Handles.remove, hw, h0, h1, h2]
  | readonly =>
      rw [hm] at hfit
      obtain ⟨h0, h1, h2⟩ := hfit
      have hw : w = false := by
        cases w
        · rfl
        · simp [Handles.count, h2] at hout
      refine ⟨by simp, hh.setFile (g := { f with
        reader := f.reader - 1
        openType := if f.reader - 1 = 0 then .closed else .readonly }) rfl rfl
        (fun k hk => h.read_remove_of_ne hk w) ?_ ?_⟩
      · subst hw
        have hr : (h.remove f.id false).read f.id = f.reader - 1 ∧
            (h.remove f.id false).write f.id = 0 := by simp [Handles.remove, h1, h2]
        change (h.remove f.id false).Fits f.id
          (if f.reader - 1 = 0 then .closed else .readonly, f.reader - 1)
        split_ifs with hz
        · exact ⟨hz, hr.1.trans hz, hr.2⟩
        · exact ⟨Nat.pos_of_ne_zero hz, hr⟩
      · simp only
        split_ifs <;> simp

/-- While the mount is under way no file is open. -/
theorem modes_mounting (hσ : σ.Sound total) (hh : σ.HandlesOk h) (hl : σ.loader ≠ none) (k : ℕ) :
    σ.sup.modes k = (.closed, 0) := by
  cases hf : σ.sup.filesById[k]? with
  | none => simp [Super.modes, hf]
  | some f =>
      have hc := hσ.calls.closed (hσ.calls.loading hl) k f hf
      rw [Super.modes_of_file hf, hc, hh.unread k f hf hc]

theorem steady_replayed {s s' : Super} {e : Entry} (hk : s.Keyed)
    (hm : ∀ k, s.modes k = (.closed, 0)) (hr : s.Replayed e s') : s.Steady s' := by
  have hmode : ∀ {id : ℕ} {f : File}, s.filesById[id]? = some f → f.openType = .closed ∧ f.reader = 0 := by
    intro id f hf
    have := hm id
    rw [Super.modes_of_file hf] at this
    exact Prod.mk.inj this
  have key : ∀ {id : ℕ} {f : File}, s.filesById[id]? = some f → s.filesById[f.id]? = some f :=
    fun hf => by rw [hk _ _ hf]; exact hf
  cases hr with
  | create hn h0 hlimit hlookup hi => exact Super.steady_initFile hi (by simp) (by simp)
  | fork hn h0 hlt hlimit hlookup hp hi =>
      exact Super.steady_initFile hi (by rintro _ ⟨⟩; exact key hp)
        (by rintro _ ⟨⟩; rw [(hmode hp).1]; simp)
  | truncate hv hf hc => exact Super.steady_truncateFile hk (key hf) (hmode hf).1 hc _
  | delete hf hc =>
      exact Super.steady_deleteFile hk (fun id f hf _ => (hmode hf).2) (key hf) (hmode hf).1 hc
  | bind hf hi hsize hb hfree hnone => exact Super.steady_superToFile (key hf) hnone
  | unbind hf hi hsize hx => exact Super.steady_unmapExtent hk (key hf) _
  | @rename id raw name f hn hf hlookup =>
      exact Super.steady_update (key hf)
        (fun k => Super.filesById_setFile s { f with name := name } k) rfl rfl (fun _ h => h)
        fun _ => ⟨rfl, rfl⟩
  | next hb hfree => exact .of_files rfl

/-- A step while the mount is under way opens no file. -/
theorem handlesOk_mounting {l : Label} (hσ : σ.Sound total) (hh : σ.HandlesOk h)
    (hl : σ.loader ≠ none) (hs : σ.step l = some σ') : σ'.HandlesOk h := by
  have hk := hσ.calls.keyed
  have hm := modes_mounting hσ hh hl
  have hready := hσ.calls.loading hl
  have hstatus : σ.sup.ensureStatus ≠ none := fun h => by
    have := ready_of_ensureStatus h
    rw [hready] at this
    cases this
  have hfits : ∀ {s : Super}, (∀ k, s.modes k = (.closed, 0)) →
      (∀ id, h.Fits id (s.modes id)) ∧ s.Leaf := by
    intro s hs
    refine ⟨fun id => ?_, fun id f hf ho => ?_⟩
    · have := hh.fits id
      rwa [hm, ← hs id] at this
    · have := hs id
      rw [Super.modes_of_file hf, ho] at this
      cases this
  suffices hσ' : ∀ k, σ'.sup.modes k = (.closed, 0) from ⟨(hfits hσ').1, (hfits hσ').2⟩
  rcases (hσ.step hs).2.change_or_quiet with hc | ⟨hq, -, -⟩
  swap
  · intro k
    rw [← hm k, Super.modes, Super.modes, hq.filesById]
  cases hc with
  | «open» hst => exact absurd hst hstatus
  | close hf _ hopen => exact absurd (hσ.calls.closed hready _ _ hf) hopen
  | closeClosed he => exact he ▸ hm
  | op ho => exact absurd ho.ensureStatus hstatus
  | copyStart _ _ _ hst => exact absurd hst hstatus
  | @copied id i b src err m junk ht he =>
      intro k
      have heq := he ▸ metaEq_runTask_copy σ id i b src err m junk
      rw [← hm k, ← (Super.steady_markExtent σ.sup id i _).modes k, Super.modes, Super.modes,
        heq.filesById]
      rfl
  | @mount ld out hld ho he =>
      have hout : out.super.Keyed ∧ ∀ k, out.super.modes k = (.closed, 0) :=
        ho.rule (P := fun X => X.Keyed ∧ ∀ k, X.modes k = (.closed, 0)) (fun _ _ h => h)
          (fun X X' e hr h => ⟨(hr.derives h.1).keyed h.1,
            fun k => ((steady_replayed h.1 h.2 hr).modes k).trans (h.2 k)⟩) ⟨hk, hm⟩
      subst he
      cases out <;> exact hout.2

/-- **The handles stay in step with the modes.** -/
theorem handlesOk_step (hσ : σ.Sound total) (hh : σ.HandlesOk h)
    (hs : HandledStep (σ, h) (σ', h')) : σ'.HandlesOk h' := by
  have hk := hσ.calls.keyed
  by_cases hl : σ.loader = none
  · cases hs with
    | @opened _ _ _ id w s hs hok =>
        have hbug := bug_of_step hs
        rw [step, if_neg (by simp [hbug]), hok] at hs
        exact Option.some.inj hs ▸ handlesOk_open hk hh hok
    | @refused _ _ _ id w e hs hno =>
        have hbug := bug_of_step hs
        rw [step, if_neg (by simp [hbug]), hno] at hs
        exact Option.some.inj hs ▸ hh
    | @closed _ _ _ id w hs hout =>
        have hbug := bug_of_step hs
        rw [step, if_neg (by simp [hbug])] at hs
        split at hs
        · cases hs
        rename_i f hf
        split_ifs at hs
        obtain rfl := Option.some.inj hs
        obtain rfl := hk id f hf
        exact (handlesOk_close hf hh hout).2
    | other hs hopen hclose =>
        rcases step_steady hσ hh.unread hl hs with hst | ⟨_, _, _, heq, -⟩ | ⟨_, _, heq, -⟩
        · exact hh.steady hst
        · exact absurd heq (hopen _ _)
        · exact absurd heq (hclose _)
  · have hready := hσ.calls.loading hl
    cases hs with
    | opened hs hok =>
        have hst : σ.sup.ensureStatus ≠ none := fun hst => by
          rw [ready_of_ensureStatus hst] at hready
          cases hready
        unfold Super.openFile at hok
        split at hok
        · cases hok
        · contradiction
    | refused hs hno => exact handlesOk_mounting hσ hh hl hs
    | @closed _ _ _ id w hs hout =>
        have hfit := hh.fits id
        rw [modes_mounting hσ hh hl id] at hfit
        exfalso
        cases w <;> simp [Handles.count, hfit.2.1, hfit.2.2] at hout
    | other hs => exact handlesOk_mounting hσ hh hl hs

/-! ### Frozen ancestors -/

/-- A change of its mode leaves a file its size and its parent. -/
theorem keep_setFile {s : Super} {k : ℕ} {f g e : File} (hf : s.filesById[f.id]? = some f)
    (hg : g = { f with openType := g.openType, reader := g.reader })
    (he : s.filesById[k]? = some e) : ∃ e' : File, (s.setFile g).filesById[k]? = some e' ∧
      e'.size = e.size ∧ e'.parent = e.parent := by
  have hid : g.id = f.id := by rw [hg]
  rw [Super.filesById_setFile]
  split_ifs with hk
  · rw [hk, hid, hf] at he
    obtain rfl := Option.some.inj he
    exact ⟨g, rfl, by rw [hg], by rw [hg]⟩
  · exact ⟨e, he, rfl, rfl⟩

/-- A file that is open or has children keeps its size and its parent. -/
theorem keep_step {id : ℕ} {f : File} (hσ : σ.Sound total) (hh : σ.HandlesOk h)
    (hl : σ.loader = none) (he : σ.Effect σ') (hf : σ.sup.filesById[id]? = some f)
    (hc : f.openType ≠ .closed ∨ f.children ≠ 0) : ∃ g : File, σ'.sup.filesById[id]? = some g ∧
      g.size = f.size ∧ g.parent = f.parent := by
  have hk := hσ.calls.keyed
  rcases he.change_or_quiet with hch | ⟨hq, -, -⟩
  swap
  · exact ⟨f, hq.filesById ▸ hf, rfl, rfl⟩
  cases hch with
  | «open» _ hf' hg _ _ _ he | close hf' _ _ hg _ _ he =>
      subst he
      exact keep_setFile hf' hg hf
  | closeClosed he =>
      subst he
      exact ⟨f, hf, rfl, rfl⟩
  | op ho he =>
      subst he
      exact (ho.steady hk hh.unread).keep id f hf hc
  | copyStart _ _ _ _ hf' _ _ _ _ hnone he =>
      subst he
      exact (Super.steady_copyPending hf' hnone).keep id f hf hc
  | @copied k i b src err m junk _ he =>
      have heq := he ▸ metaEq_runTask_copy σ k i b src err m junk
      rw [heq.filesById]
      exact (Super.steady_markExtent σ.sup k i _).keep id f hf hc
  | mount hl' => rw [hl] at hl'; cases hl'

/-- **A file with children is frozen**: a step after the mount leaves it its size,
its parent and the extents of its tree. -/
theorem frozen_step {l : Label} {id : ℕ} {f : File} (hσ : σ.Sound total) (hh : σ.HandlesOk h)
    (hl : σ.loader = none) (hs : σ.step l = some σ') (hf : σ.sup.filesById[id]? = some f)
    (hc : f.children ≠ 0) : ∃ g, σ'.sup.filesById[id]? = some g ∧ g.size = f.size ∧
      g.parent = f.parent ∧ ∀ i : ℕ, (g.extents[i]?).map (·.backend) = (f.extents[i]?).map (·.backend) ∧
        (f.extents[i]? = none → g.extents[i]? = none) ∧
        ∀ x, f.extents[i]? = some x → x.pending = false → g.extents[i]? = some x := by
  obtain ⟨g, hg, hsize, hparent⟩ := keep_step hσ hh hl (hσ.step hs).2 hf (.inr hc)
  refine ⟨g, hg, hsize, hparent, fun i => ?_⟩
  have hat : σ.sup.extentAt id i = f.extents[i]? := Super.extentAt_of_file hf i
  have hat' : σ'.sup.extentAt id i = g.extents[i]? := Super.extentAt_of_file hg i
  cases node_effect hσ (bug_of_step hs) hl (hσ.step hs).2 id i with
  | same he =>
      rw [hat, hat'] at he
      rw [he]
      exact ⟨rfl, fun hn => hn, fun x hx _ => hx⟩
  | mapped hf' hmode =>
      rw [hf] at hf'
      exact absurd (hh.leaf id f hf (Option.some.inj hf' ▸ hmode)) hc
  | copied he he' =>
      rw [hat] at he
      rw [hat'] at he'
      rw [he, he']
      refine ⟨rfl, fun hn => absurd hn (by simp), fun x hx hp => ?_⟩
      obtain rfl := Option.some.inj hx
      cases hp
  | unmapped hf' hmode =>
      rw [hf] at hf'
      obtain rfl := Option.some.inj hf'
      rcases hmode with hmode | ⟨-, hmode⟩
      · exact absurd (hh.leaf id f hf hmode) hc
      · exact absurd hmode hc

/-- The parent of a file is there and has children. -/
theorem Sound.parent_children {id p : ℕ} {f : File} (hσ : σ.Sound total)
    (hf : σ.sup.filesById[id]? = some f) (hp : f.parent = some p) :
    ∃ g, σ.sup.filesById[p]? = some g ∧ g.children ≠ 0 := by
  have hlive := hσ.live.live
  obtain ⟨-, hmem⟩ := hlive.wf.parent id f.info p (Super.metadata_files_of hf) hp
  obtain ⟨g, hg⟩ := Super.mem_metadata_ids.1 hmem
  refine ⟨g, hg, fun h0 => ?_⟩
  have hempty := (hlive.rep.children_eq_zero hlive.wf hg).1 h0
  have hchild : id ∈ σ.sup.metadata.children p := Super.mem_children.2 ⟨f, hf, hp⟩
  rw [hempty] at hchild
  exact hchild

/-- What the walk through the ancestors of a file finds stays as it is, unless it
is pending. -/
theorem follow_step {l : Label} {off n k : ℕ} {parent : Option ℕ} {f : File} (hσ : σ.Sound total)
    (hh : σ.HandlesOk h) (hl : σ.loader = none) (hs : σ.step l = some σ')
    (hf : σ.sup.filesById[k]? = some f) (hc : f.children ≠ 0)
    (hr : σ.sup.followFrom off n (some k) = parent.map fun b => ⟨b, false, false⟩) :
    σ'.sup.followFrom off n (some k) = parent.map fun b => ⟨b, false, false⟩ := by
  induction n generalizing k f with
  | zero => exact hr
  | succ n ih =>
      obtain ⟨g, hg, hsize, hparent, hext⟩ := frozen_step hσ hh hl hs hf hc
      obtain ⟨-, hnone, hsome⟩ := hext (fileIndex (extentFrom off))
      rw [Super.followFrom, hf] at hr
      rw [Super.followFrom, hg]
      simp only [hsize, hparent, File.findExtent] at hr ⊢
      split_ifs at hr ⊢ with hin
      · cases hx : f.extents[fileIndex (extentFrom off)]? with
        | none =>
            rw [hx] at hr
            rw [hnone hx]
            cases hp : f.parent with
            | none =>
                rw [hp] at hr
                simp only at hr ⊢
                rw [← hr]
                cases n <;> rfl
            | some q =>
                rw [hp] at hr
                obtain ⟨e, he, hce⟩ := hσ.parent_children hf hp
                exact ih he hce hr
        | some x =>
            rw [hx] at hr
            have hpend : x.pending = false := by
              cases parent with
              | none => cases hr
              | some b => rw [Option.some.inj hr]
            rw [hsome x hx hpend]
            exact hr
      · exact hr

/-- The ancestor extent that a writer holds is the one it would find now. -/
def ParentsOk (σ : Sys) : Prop := ∀ io parent, .writeAlloc io parent ∈ σ.calls →
  ∃ f, σ.sup.filesById[io.file]? = some f ∧
    σ.sup.findExtentFollow f.parent io.off = parent.map fun b => ⟨b, false, false⟩

theorem parentsOk_step {l : Label} (hσ : σ.Sound total) (hh : σ.HandlesOk h) (hp : σ.ParentsOk)
    (hs : σ.step l = some σ') : σ'.ParentsOk := by
  -- a call that was there keeps its file open, and the ancestors of the file are frozen
  have old : ∀ io parent, .writeAlloc io parent ∈ σ.calls →
      ∃ f, σ'.sup.filesById[io.file]? = some f ∧
        σ'.sup.findExtentFollow f.parent io.off = parent.map fun b => ⟨b, false, false⟩ := by
    intro io parent hc
    have hl := hσ.loader_of_call hc rfl
    obtain ⟨f, hf, hfind⟩ := hp io parent hc
    obtain ⟨f', hf', hopen, -⟩ := hσ.calls.calls _ hc io rfl
    obtain rfl := Option.some.inj (hf.symm.trans hf')
    obtain ⟨g, hg, -, hparent⟩ := keep_step hσ hh hl (hσ.step hs).2 hf (.inl hopen)
    refine ⟨g, hg, ?_⟩
    rw [hparent]
    cases hq : f.parent with
    | none =>
        rw [hq] at hfind
        exact hfind
    | some q =>
        obtain ⟨e, he, hce⟩ := hσ.parent_children hf hq
        rw [hq] at hfind
        exact follow_step hσ hh hl hs he hce hfind
  intro io parent hc
  cases step_turn hσ.calls hs with
  | @moved c c' hd he hepoch hio hent =>
      have hc' : .writeAlloc io parent ∈ c' ::ₘ σ.calls.erase c := by rw [he] at hc; exact hc
      rcases Multiset.mem_cons.1 hc' with rfl | hc'
      · subst he
        cases hent with
        | plain hpl => exact hpl.elim
        | writeAlloc hst hf hnone hfind => exact ⟨_, hf, hfind⟩
      · exact old io parent (Multiset.mem_of_mem_erase hc')
  | plain hgone hepoch hn hcalls hw =>
      rw [hcalls] at hc
      rcases Multiset.mem_add.1 hc with hc | hc
      · exact (hn _ hc).elim
      · exact old io parent (Multiset.mem_of_le (Multiset.sub_le_self _ _) hc)
  | mapped hd hepoch hio hsame hnode hb hcur hw hcalls =>
      rw [hcalls] at hc
      rcases Multiset.mem_cons.1 hc with hc | hc
      · cases hc
      · exact old io parent (Multiset.mem_of_mem_erase hc)
  | returned hd hn he =>
      rw [he] at hc
      rcases Multiset.mem_add.1 hc with hc | hc
      · exact (hn _ hc).elim
      · exact old io parent (Multiset.mem_of_mem_erase hc)

/-- **The rule for runs with handles.** -/
theorem HandledRun.ok {discard compact : Bool} {uuid : Uuid} {disk : Buf}
    (hr : HandledRun (Sys.opened total discard compact uuid disk, .none) (σ, h)) :
    σ.Sound total ∧ σ.HandlesOk h ∧ σ.ParentsOk := by
  have key : ∀ p q, HandledRun p q → p.1.Sound total ∧ p.1.HandlesOk p.2 ∧ p.1.ParentsOk →
      q.1.Sound total ∧ q.1.HandlesOk q.2 ∧ q.1.ParentsOk := by
    intro p q hpq hp
    induction hpq with
    | refl => exact hp
    | tail _ hs ih =>
        obtain ⟨l, hl⟩ := HandledStep.step hs
        exact ⟨(ih.1.step hl).1, handlesOk_step ih.1 ih.2.1 hs, parentsOk_step ih.1 ih.2.1 ih.2.2 hl⟩
  refine key _ _ hr ⟨sound_opened .., ⟨fun id => ?_, ?_⟩, ?_⟩
  · simp [Sys.opened, Super.opened, Super.modes, Handles.Fits, Handles.none]
  · intro id f hf
    simp [Sys.opened, Super.opened] at hf
  · intro io parent hc
    simp [Sys.opened] at hc

/-- **Ancestors are frozen and access modes are exclusive**, in every state of
every run in which each successful open is closed at most once, and closed only
when no call of its handle is left. -/
theorem frozen_exclusive {discard compact : Bool} {uuid : Uuid} {disk : Buf}
    (hr : HandledRun (Sys.opened total discard compact uuid disk, .none) (σ, h)) :
    (∀ (id : ℕ) (f : File), σ.sup.filesById[id]? = some f →
      (0 < f.children → f.openType ≠ .readwrite) ∧
      (f.openType = .readwrite → h.read id + h.write id = 1) ∧
      (f.openType = .readonly ↔ 0 < f.reader) ∧ f.reader = h.read id ∧
      (f.openType = .closed → h.read id = 0 ∧ h.write id = 0)) ∧
    (∀ (l : Label) (σ' : Sys) (id : ℕ) (f : File), σ.sup.ready = true → σ.step l = some σ' →
      σ.sup.filesById[id]? = some f → 0 < f.children →
      ∃ g, σ'.sup.filesById[id]? = some g ∧ g.size = f.size ∧
        ∀ i : ℕ, (g.extents[i]?).map (·.backend) = (f.extents[i]?).map (·.backend)) ∧
    ∀ io parent, .writeAlloc io parent ∈ σ.calls → ∃ f, σ.sup.filesById[io.file]? = some f ∧
      (σ.sup.findExtentFollow f.parent io.off).map (·.backend) = parent := by
  obtain ⟨hσ, hh, hp⟩ := hr.ok
  refine ⟨fun id f hf => ?_, fun l σ' id f hready hs hf hc => ?_, fun io parent hc => ?_⟩
  · have hfit := hh.fits id
    rw [Super.modes_of_file hf] at hfit
    refine ⟨fun hc hm => ?_, ?_⟩
    · rw [hh.leaf id f hf hm] at hc
      cases hc
    · cases hm : f.openType with
      | closed =>
          rw [hm] at hfit
          obtain ⟨h0, h1, h2⟩ := hfit
          simp [h0, h1, h2]
      | readonly =>
          rw [hm] at hfit
          obtain ⟨h0, h1, h2⟩ := hfit
          simp [h0, h1]
      | readwrite =>
          rw [hm] at hfit
          obtain ⟨h0, h1, h2⟩ := hfit
          simp [h0, h1, h2]
  · have hl : σ.loader = none := by
      by_contra hl
      rw [hσ.calls.loading hl] at hready
      cases hready
    obtain ⟨g, hg, hsize, -, hext⟩ := frozen_step hσ hh hl hs hf (Nat.pos_iff_ne_zero.1 hc)
    exact ⟨g, hg, hsize, fun i => (hext i).1⟩
  · obtain ⟨f, hf, hfind⟩ := hp io parent hc
    refine ⟨f, hf, ?_⟩
    rw [hfind, Option.map_map]
    exact Option.map_id'

/-- A run without a close is one of handles. -/
theorem exists_handledRun {ls : List Label} (hrun : σ.run ls = some σ')
    (hclose : ∀ id, .close id ∉ ls) (h : Handles) : ∃ h', HandledRun (σ, h) (σ', h') := by
  induction ls generalizing σ h with
  | nil => exact ⟨h, Option.some.inj hrun ▸ .refl⟩
  | cons l ls ih =>
      obtain ⟨τ, hs, hr⟩ := Option.bind_eq_some_iff.1 hrun
      obtain ⟨h₁, hstep⟩ : ∃ h₁, HandledStep (σ, h) (τ, h₁) := by
        cases l with
        | «open» id w =>
            cases ho : σ.sup.openFile id w with
            | ok s => exact ⟨_, .opened hs ho⟩
            | error e => exact ⟨_, .refused hs ho⟩
        | close id => exact absurd List.mem_cons_self (hclose id)
        | _ => exact ⟨h, .other hs (by simp) (by simp)⟩
      obtain ⟨h₂, hrest⟩ := ih hr (fun id hm => hclose id (List.mem_cons_of_mem _ hm)) h₁
      exact ⟨h₂, .head hstep hrest⟩

/-- A file is written, closed and forked, and the fork is written. -/
theorem frozen_exclusive_forked :
    let l : Label := .call (.writeAlloc forkIo (some 11)) true
    ∃ σ h σ' f g f₂ g₂, HandledRun (Sys.opened 16 true true smallUuid smallDisk, .none) (σ, h) ∧
      σ.step l = some σ' ∧ σ.sup.filesById[1]? = some f ∧ f.children = 1 ∧
      f.openType ≠ .readwrite ∧ σ'.sup.filesById[1]? = some g ∧ g.size = f.size ∧
      (∀ i : ℕ, (g.extents[i]?).map (·.backend) = (f.extents[i]?).map (·.backend)) ∧
      σ.sup.filesById[2]? = some f₂ ∧ f₂.openType = .readwrite ∧ h.read 2 + h.write 2 = 1 ∧
      .writeAlloc forkIo (some 11) ∈ σ.calls ∧ σ.sup.filesById[forkIo.file]? = some g₂ ∧
      (σ.sup.findExtentFollow g₂.parent forkIo.off).map (·.backend) = some 11 := by
  intro l
  let ls := writeLabels .letter ++ [.call (.writeAlloc firstIo none) true,
    .call (.writeHandler { firstIo with newJournal := true } (.submit (mapExtentOffset 11 0))
      (some false)) true]
  let ms : List Label := [.fork 1 .other, .open 2 true, .write 2 0 4096, .call (.write forkIo) true]
  obtain ⟨σ₁, h₁, hmode⟩ := exists_small ls (P := fun τ => τ.sup.modes 1 = (.readwrite, 0))
    (by decide +kernel)
  obtain ⟨σ₂, h₂, -⟩ := exists_small (ls ++ [.close 1]) (P := fun _ => True) (by decide +kernel)
  obtain ⟨σ, h₃, hready, hcall, hfile, hfork⟩ := exists_small (ls ++ [.close 1] ++ ms)
    (P := fun τ => τ.sup.ready = true ∧ .writeAlloc forkIo (some 11) ∈ τ.calls ∧
      (τ.sup.filesById[1]?.any fun f => f.children = 1) = true ∧
      (τ.sup.filesById[2]?.any fun f => f.openType = .readwrite) = true) (by decide +kernel)
  obtain ⟨σ', h₄, -⟩ := exists_small (ls ++ [.close 1] ++ ms ++ [l]) (P := fun _ => True)
    (by decide +kernel)
  have hms : σ₂.run ms = some σ := run_rest h₂ h₃
  -- the close takes back the handle of the first open
  obtain ⟨k₁, hr₁⟩ := exists_handledRun (run_small h₁)
    (by simp [ls, mountLabels, writeLabels]) .none
  have hfit := hr₁.ok.2.1.fits 1
  rw [hmode] at hfit
  have hclose : HandledStep (σ₁, k₁) (σ₂, k₁.remove 1 true) :=
    .closed (run_concat h₁ h₂) (by rw [Handles.count, if_pos rfl, hfit.2.2]; exact Nat.one_pos)
  obtain ⟨k, hr₂⟩ := exists_handledRun hms (by simp [ms]) (k₁.remove 1 true)
  have hr := (hr₁.tail hclose).trans hr₂
  obtain ⟨f, hf, hchild⟩ := (Option.any_eq_true _ _).1 hfile
  obtain ⟨f₂, hf₂, hwrite⟩ := (Option.any_eq_true _ _).1 hfork
  have hone : f.children = 1 := by simpa using hchild
  have hmode₂ : f₂.openType = .readwrite := by simpa using hwrite
  obtain ⟨hmodes, hfrozen, hparent⟩ := frozen_exclusive hr
  have hpos : 0 < f.children := by rw [hone]; exact Nat.one_pos
  obtain ⟨g, hg, hsize, hext⟩ := hfrozen l σ' 1 f hready (run_concat h₃ h₄) hf hpos
  obtain ⟨g₂, hg₂, hsource⟩ := hparent forkIo (some 11) hcall
  exact ⟨σ, k, σ', f, g, f₂, g₂, hr, run_concat h₃ h₄, hf, hone, (hmodes 1 f hf).1 hpos, hg, hsize,
    hext, hf₂, hmode₂, (hmodes 2 f₂ hf₂).2.1 hmode₂, hcall, hg₂, hsource⟩

end Sys

end Cyanfs
