/-
# The journaled operations

`Super.Op` lists the changes of the metadata that the public calls make and
append an entry for: what each of them has checked, and the state it leads to.
The locked sections of `cyanfs_create`, `cyanfs_fork`, `cyanfs_rename`,
`cyanfs_truncate` and `cyanfs_delete` are such operations (`op_create` …
`op_delete`); the sections of `cyanfs_write` and `cyanfs_discard` that map and
unmap an extent are the other two.

Open files keep their mode and their size under all of them
(`Op.keepsOpen`).
-/

import Cyanfs.Core.Frame

namespace Cyanfs

open Lib Std

namespace Super

/-- Files that are open keep their mode and their size. -/
def KeepsOpen (s s' : Super) : Prop := ∀ (id : ℕ) (f : File), s.filesById[id]? = some f →
  f.openType ≠ .closed →
    ∃ f', s'.filesById[id]? = some f' ∧ f'.openType = f.openType ∧ f'.size = f.size

variable {s s' s'' : Super} {f : File} {b i id : ℕ}

theorem KeepsOpen.refl (s : Super) : s.KeepsOpen s := fun _ f h _ => ⟨f, h, rfl, rfl⟩

theorem KeepsOpen.trans (h : s.KeepsOpen s') (h' : s'.KeepsOpen s'') : s.KeepsOpen s'' := by
  intro id f hf ho
  obtain ⟨f', hf', ho', hs'⟩ := h id f hf ho
  obtain ⟨f'', hf'', ho'', hs''⟩ := h' id f' hf' (ho' ▸ ho)
  exact ⟨f'', hf'', ho''.trans ho', hs''.trans hs'⟩

theorem MetaEq.keepsOpen (h : s.MetaEq s') : s.KeepsOpen s' := by
  intro id f hf _
  exact ⟨f, h.filesById ▸ hf, rfl, rfl⟩

theorem keepsOpen_setFile {g : File} (hg : s.filesById[g.id]? = some f)
    (ho : f.openType ≠ .closed → g.openType = f.openType ∧ g.size = f.size) :
    s.KeepsOpen (s.setFile g) := by
  intro id e he hopen
  rw [filesById_setFile]
  split_ifs with hid
  · rw [hid, hg] at he
    obtain rfl := Option.some.inj he
    exact ⟨g, rfl, ho hopen⟩
  · exact ⟨e, he, rfl, rfl⟩

theorem keepsOpen_updFile {g : File → File}
    (ho : ∀ f, f.openType ≠ .closed → (g f).openType = f.openType ∧ (g f).size = f.size) :
    s.KeepsOpen (s.updFile id g) := by
  intro k e he hopen
  rw [filesById_updFile]
  split_ifs with hk
  · subst hk
    exact ⟨g e, by simp [he], ho e hopen⟩
  · exact ⟨e, he, rfl, rfl⟩

theorem keepsOpen_initFile {name : FileName} {parent : Option File}
    (hi : s.initFile name id parent = .ok s') (hp : ∀ p ∈ parent, s.filesById[p.id]? = some p) :
    s.KeepsOpen s' := by
  have hid := (initFile_eq_ok.1 hi).1
  intro k e he _
  rw [filesById_initFile hi hp]
  have hk : k ≠ id := by
    rintro rfl
    simp [hid] at he
  rw [if_neg hk]
  split_ifs
  · exact ⟨{ e with children := e.children + 1 }, by simp [he], rfl, rfl⟩
  · exact ⟨e, he, rfl, rfl⟩

theorem keepsOpen_truncateFile (hk : s.Keyed) (hf : s.filesById[f.id]? = some f)
    (hc : f.openType = .closed) (size : ℕ) : s.KeepsOpen (s.truncateFile f size) := by
  intro k e he hopen
  rw [filesById_truncateFile hk hf]
  have : k ≠ f.id := by
    rintro rfl
    rw [hf] at he
    exact hopen (Option.some.inj he ▸ hc)
  rw [if_neg this]
  exact ⟨e, he, rfl, rfl⟩

theorem keepsOpen_deleteFile (hk : s.Keyed) (hf : s.filesById[f.id]? = some f)
    (hc : f.openType = .closed) : s.KeepsOpen (s.deleteFile f) := by
  intro k e he hopen
  rw [filesById_deleteFile hk hf]
  have : k ≠ f.id := by
    rintro rfl
    rw [hf] at he
    exact hopen (Option.some.inj he ▸ hc)
  rw [if_neg this]
  split_ifs
  · exact ⟨{ e with children := e.children - 1 }, by simp [he], rfl, rfl⟩
  · exact ⟨e, he, rfl, rfl⟩

theorem keepsOpen_superToFile (hf : s.filesById[f.id]? = some f) (hi : f.extents[i]? = none) :
    s.KeepsOpen (s.superToFile f b i) := by
  rw [superToFile_eq hi]
  exact keepsOpen_setFile (s := { s with
    freeExtents := s.freeExtents - 1, free := s.free.erase b, dataExtents := s.dataExtents + 1 })
    hf fun _ => ⟨rfl, rfl⟩

theorem keepsOpen_unmapExtent (hk : s.Keyed) (id i : ℕ) : s.KeepsOpen (s.unmapExtent id i) := by
  intro k e he _
  rw [filesById_unmapExtent hk]
  split_ifs with h
  · subst h
    refine ⟨e.unmapAt i, by simp [he], ?_⟩
    unfold File.unmapAt
    split_ifs <;> exact ⟨rfl, rfl⟩
  · exact ⟨e, he, rfl, rfl⟩

/-- The journaled changes of the metadata that the public calls make: the entry
they append and the state before it is appended. -/
inductive Op (s : Super) : JEntry → Super → Prop
  | create {name : FileName} {s' : Super} (hn : name.Normal) (hs : s.ensureStatus = none)
      (hlimit : s.files < superMaxFiles) (hmax : s.maxFileId ≠ u64Max)
      (hlookup : s.lookupByName name = none)
      (hi : s.initFile name (s.maxFileId + 1) none = .ok s') :
      Op s ⟨.create (s.maxFileId + 1) name, false⟩ s'
  | fork {name : FileName} {p : File} {s' : Super} (hn : name.Normal)
      (hs : s.ensureStatus = none) (hlimit : s.files < superMaxFiles) (hmax : s.maxFileId ≠ u64Max)
      (hp : s.filesById[p.id]? = some p) (hmode : p.openType ≠ .readwrite)
      (hlookup : s.lookupByName name = none)
      (hi : s.initFile name (s.maxFileId + 1) (some p) = .ok s') :
      Op s ⟨.fork (s.maxFileId + 1) p.id name, false⟩ s'
  | rename {name : FileName} {f : File} (hn : name.Normal) (hs : s.ensureStatus = none)
      (hlookup : s.lookupByName name = none) (hf : s.filesById[f.id]? = some f) :
      Op s ⟨.rename f.id name, false⟩ (s.renameFile f name)
  | truncate {f : File} {size : ℕ} (hv : sizeValid size) (hs : s.ensureStatus = none)
      (hf : s.filesById[f.id]? = some f) (hmode : f.openType = .closed) (hc : f.children = 0) :
      Op s ⟨.truncate f.id size, true⟩ (s.truncateFile f size)
  | delete {f : File} (hs : s.ensureStatus = none) (hf : s.filesById[f.id]? = some f)
      (hmode : f.openType = .closed) (hc : f.children = 0) :
      Op s ⟨.delete f.id, false⟩ (s.deleteFile f)
  | bind {f : File} {i b : ℕ} (hs : s.ensureStatus = none) (hf : s.filesById[f.id]? = some f)
      (hmode : f.openType = .readwrite) (hi : i ≤ extentIndexMax) (hsize : extentBegin i < f.size)
      (hroom : s.reservedExtents < s.freeExtents) (hb : b ∈ s.free) (hnone : f.extents[i]? = none) :
      Op s ⟨.bind f.id i b, false⟩ (s.superToFile f b i)
  | unbind {f : File} {i : ℕ} {e : Extent} (hs : s.ensureStatus = none)
      (hf : s.filesById[f.id]? = some f) (hmode : f.openType = .readwrite) (hi : i ≤ extentIndexMax)
      (hsize : extentBegin i < f.size) (he : f.extents[i]? = some e) (hp : e.pending = false)
      (herr : e.error = false) : Op s ⟨.unbind f.id i, true⟩ (s.unmapExtent f.id i)

/-- The super in which a copy to extent `b` for index `i` of `f` is pending. -/
def copyPending (s : Super) (f : File) (b i : ℕ) : Super :=
  (s.superToFile f b i).updFile f.id fun f => f.markExtent i fun e => { e with pending := true }

/-- The super after a copy for index `i` of file `id` has ended. -/
def copyEnded (s : Super) (id i : ℕ) (err : Bool) : Super :=
  s.updFile id fun f => f.markExtent i fun e => { e with pending := false, error := e.error || err }

theorem keepsOpen_markExtent (s : Super) (id i : ℕ) (g : Extent → Extent) :
    s.KeepsOpen (s.updFile id fun f => f.markExtent i g) := by
  refine keepsOpen_updFile fun f _ => ?_
  unfold File.markExtent
  split <;> exact ⟨rfl, rfl⟩

/-- An operation changes these fields only. -/
theorem Op.shape {j : JEntry} (h : s.Op j s') :
    ∃ filesById filesByName files maxFileId free freeExtents dataExtents unused bug, s' = { s with
      filesById := filesById
      filesByName := filesByName
      files := files
      maxFileId := maxFileId
      free := free
      freeExtents := freeExtents
      dataExtents := dataExtents
      unused := unused
      bug := bug } := by
  cases h with
  | create hn hs hlimit hmax hlookup hi =>
      obtain ⟨-, -, rfl⟩ := initFile_eq_ok.1 hi
      exact ⟨_, _, _, _, _, _, _, _, _, rfl⟩
  | fork hn hs hlimit hmax hp hmode hlookup hi =>
      obtain ⟨-, -, rfl⟩ := initFile_eq_ok.1 hi
      exact ⟨_, _, _, _, _, _, _, _, _, rfl⟩
  | rename hn hs hlookup hf => exact ⟨_, _, _, _, _, _, _, _, _, rfl⟩
  | @truncate f size hv hs hf hmode hc =>
      obtain ⟨_, _, _, _, _, _, hu⟩ := unmapped_truncateFile s f size
      exact ⟨_, _, _, _, _, _, _, _, _, hu⟩
  | @delete f hs hf hmode hc =>
      obtain ⟨_, hd⟩ := deleteFile_shape s f
      obtain ⟨_, _, _, _, _, _, hu⟩ := unmapped_truncateFile s f 0
      rw [hu] at hd
      exact ⟨_, _, _, _, _, _, _, _, _, hd⟩
  | bind hs hf hmode hi hsize hroom hb hnone =>
      rw [superToFile_eq hnone]
      exact ⟨_, _, _, _, _, _, _, _, _, rfl⟩
  | @unbind f i e hs hf hmode hi hsize he hp herr =>
      obtain ⟨_, _, _, _, _, _, hu⟩ := unmapped_unmapExtent s f.id i
      exact ⟨_, _, _, _, _, _, _, _, _, hu⟩

theorem Op.journalHead {j : JEntry} (h : s.Op j s') : s'.journalHead = s.journalHead := by
  obtain ⟨_, _, _, _, _, _, _, _, _, hs⟩ := h.shape
  rw [hs]

theorem Op.ensureStatus {j : JEntry} (h : s.Op j s') : s.ensureStatus = none := by
  cases h <;> assumption

theorem Op.ready {j : JEntry} (h : s.Op j s') : s'.ready = s.ready := by
  obtain ⟨_, _, _, _, _, _, _, _, _, hs⟩ := h.shape
  rw [hs]

theorem Op.totalExtents {j : JEntry} (h : s.Op j s') : s'.totalExtents = s.totalExtents := by
  obtain ⟨_, _, _, _, _, _, _, _, _, hs⟩ := h.shape
  rw [hs]

/-! ### The public operations are operations of this list -/

theorem op_create {name : FileName} (hn : name.Normal) (h : s.create name = .ok s') :
    ∃ j s₁, s.Op j s₁ ∧ s' = s₁.append j := by
  unfold create at h
  split at h
  · cases h
  rename_i hs
  split_ifs at h with h₁ h₂
  split at h
  · cases h
  rename_i s₁ hi
  push Not at h₁
  exact ⟨_, s₁, .create hn hs h₁.1 h₁.2 (by simpa using h₂) hi, (Except.ok.inj h).symm⟩

theorem op_fork {name : FileName} {fromId : ℕ} (hk : s.Keyed) (hn : name.Normal)
    (h : s.fork fromId name = .ok s') : ∃ j s₁, s.Op j s₁ ∧ s' = s₁.append j := by
  unfold fork at h
  split at h
  · cases h
  rename_i hs
  split at h
  · cases h
  rename_i h₁
  split at h
  · cases h
  rename_i p hp
  split at h
  · cases h
  rename_i h₂
  split at h
  · cases h
  rename_i h₃
  split at h
  · cases h
  rename_i s₁ hi
  push Not at h₁
  exact ⟨_, s₁, .fork hn hs h₁.1 h₁.2 (by rw [hk _ p hp]; exact hp) h₂ (by simpa using h₃) hi,
    (Except.ok.inj h).symm⟩

theorem op_rename {name : FileName} (hk : s.Keyed) (hn : name.Normal)
    (h : s.rename id name = .ok s') : ∃ j s₁, s.Op j s₁ ∧ s' = s₁.append j := by
  unfold rename at h
  split at h
  · cases h
  rename_i hs
  split_ifs at h with h₁
  split at h
  · cases h
  rename_i f hf
  exact ⟨_, _, .rename hn hs (by simpa using h₁) (by rw [hk _ f hf]; exact hf),
    (Except.ok.inj h).symm⟩

theorem op_truncate {size : ℕ} (hk : s.Keyed) (hv : sizeValid size)
    (h : s.truncate id size = .ok s') : ∃ j s₁, s.Op j s₁ ∧ s' = s₁.append j := by
  unfold truncate at h
  split at h
  · cases h
  rename_i hs
  split at h
  · cases h
  rename_i f hf
  split_ifs at h with h₁
  push Not at h₁
  exact ⟨_, _, .truncate hv hs (by rw [hk _ f hf]; exact hf) h₁.1 h₁.2, (Except.ok.inj h).symm⟩

theorem op_delete (hk : s.Keyed) (h : s.delete id = .ok s') :
    ∃ j s₁, s.Op j s₁ ∧ s' = s₁.append j := by
  unfold delete at h
  split at h
  · cases h
  rename_i hs
  split at h
  · cases h
  rename_i f hf
  split_ifs at h with h₁
  push Not at h₁
  exact ⟨_, _, .delete hs (by rw [hk _ f hf]; exact hf) h₁.1 h₁.2, (Except.ok.inj h).symm⟩

theorem Op.keepsOpen {j : JEntry} (hk : s.Keyed) (h : s.Op j s') : s.KeepsOpen s' := by
  cases h with
  | create hn hs hlimit hmax hlookup hi => exact keepsOpen_initFile hi (by simp)
  | fork hn hs hlimit hmax hp hmode hlookup hi =>
      exact keepsOpen_initFile hi (by rintro _ ⟨⟩; exact hp)
  | @rename name f hn hs hlookup hf =>
      exact keepsOpen_setFile (g := { f with name := name }) hf fun _ => ⟨rfl, rfl⟩
  | truncate hv hs hf hmode hc => exact keepsOpen_truncateFile hk hf hmode _
  | delete hs hf hmode hc => exact keepsOpen_deleteFile hk hf hmode
  | bind hs hf hmode hi hsize hroom hb hnone => exact keepsOpen_superToFile hf hnone
  | unbind hs hf hmode hi hsize he hp herr => exact keepsOpen_unmapExtent hk _ _

/-! ### Where the files of a later state come from -/

/-- Every file is new, or was there under its id with the same mode; its size is
as it was or has been validated. -/
def Derives (s s' : Super) : Prop := ∀ (k : ℕ) (g : File), s'.filesById[k]? = some g →
  (∃ name parent, g = newFile name k parent ∧ ∀ p ∈ parent, s.filesById[p.id]? = some p) ∨
  ∃ f, s.filesById[k]? = some f ∧ g.id = f.id ∧ g.openType = f.openType ∧
    (g.size = f.size ∨ sizeValid g.size)

theorem Derives.of_metaEq (h : s.Derives s') (hm : s'.MetaEq s'') : s.Derives s'' := by
  intro k g hg
  rw [hm.filesById] at hg
  exact h k g hg

theorem MetaEq.derives (h : s.MetaEq s') : s.Derives s' := by
  intro k g hg
  rw [h.filesById] at hg
  exact .inr ⟨g, hg, rfl, rfl, .inl rfl⟩

theorem derives_initFile {name : FileName} {parent : Option File}
    (hi : s.initFile name id parent = .ok s') (hp : ∀ p ∈ parent, s.filesById[p.id]? = some p) :
    s.Derives s' := by
  intro k g hg
  rw [filesById_initFile hi hp] at hg
  split_ifs at hg with hk hpk
  · subst hk
    exact .inl ⟨name, parent, (Option.some.inj hg).symm, hp⟩
  · obtain ⟨f, hf, rfl⟩ := Option.map_eq_some_iff.1 hg
    exact .inr ⟨f, hf, rfl, rfl, .inl rfl⟩
  · exact .inr ⟨g, hg, rfl, rfl, .inl rfl⟩

theorem derives_renameFile (hf : s.filesById[f.id]? = some f) (name : FileName) :
    s.Derives (s.renameFile f name) := by
  intro k g hg
  have : (s.setFile { f with name := name }).filesById[k]? = some g := hg
  rw [filesById_setFile] at this
  split_ifs at this with hk
  · obtain rfl := Option.some.inj this
    exact .inr ⟨f, hk ▸ hf, rfl, rfl, .inl rfl⟩
  · exact .inr ⟨g, this, rfl, rfl, .inl rfl⟩

theorem derives_truncateFile (hk : s.Keyed) (hf : s.filesById[f.id]? = some f) {size : ℕ}
    (hv : sizeValid size) : s.Derives (s.truncateFile f size) := by
  intro k g hg
  rw [filesById_truncateFile hk hf] at hg
  split_ifs at hg with hk
  · obtain rfl := Option.some.inj hg
    obtain ⟨x, c, hu⟩ := f.unmapAll_eq (truncateKeys f size)
    exact .inr ⟨f, hk ▸ hf, by rw [hu], by rw [hu], .inr hv⟩
  · exact .inr ⟨g, hg, rfl, rfl, .inl rfl⟩

theorem derives_deleteFile (hk : s.Keyed) (hf : s.filesById[f.id]? = some f) :
    s.Derives (s.deleteFile f) := by
  intro k g hg
  rw [filesById_deleteFile hk hf] at hg
  split_ifs at hg with h₁ h₂
  · obtain ⟨e, he, rfl⟩ := Option.map_eq_some_iff.1 hg
    exact .inr ⟨e, he, rfl, rfl, .inl rfl⟩
  · exact .inr ⟨g, hg, rfl, rfl, .inl rfl⟩

theorem derives_superToFile (hf : s.filesById[f.id]? = some f) (hi : f.extents[i]? = none) :
    s.Derives (s.superToFile f b i) := by
  intro k g hg
  rw [superToFile_eq hi, filesById_setFile] at hg
  split_ifs at hg with hk
  · obtain rfl := Option.some.inj hg
    exact .inr ⟨f, hk ▸ hf, rfl, rfl, .inl rfl⟩
  · exact .inr ⟨g, hg, rfl, rfl, .inl rfl⟩

theorem derives_unmapExtent (hk : s.Keyed) (id i : ℕ) : s.Derives (s.unmapExtent id i) := by
  intro k g hg
  rw [filesById_unmapExtent hk] at hg
  split_ifs at hg with h
  · obtain ⟨e, he, rfl⟩ := Option.map_eq_some_iff.1 hg
    refine .inr ⟨e, h ▸ he, ?_⟩
    unfold File.unmapAt
    split_ifs <;> exact ⟨rfl, rfl, .inl rfl⟩
  · exact .inr ⟨g, hg, rfl, rfl, .inl rfl⟩

theorem derives_markExtent (s : Super) (id i : ℕ) (m : Extent → Extent) :
    s.Derives (s.updFile id fun f => f.markExtent i m) := by
  intro k g hg
  rw [filesById_updFile] at hg
  split_ifs at hg with h
  · obtain ⟨e, he, rfl⟩ := Option.map_eq_some_iff.1 hg
    refine .inr ⟨e, h ▸ he, ?_⟩
    unfold File.markExtent
    split <;> exact ⟨rfl, rfl, .inl rfl⟩
  · exact .inr ⟨g, hg, rfl, rfl, .inl rfl⟩

theorem derives_copyPending (hf : s.filesById[f.id]? = some f) (hi : f.extents[i]? = none) :
    s.Derives (s.copyPending f b i) := by
  intro k g hg
  rw [copyPending, filesById_updFile] at hg
  split_ifs at hg with h
  · obtain ⟨e, he, rfl⟩ := Option.map_eq_some_iff.1 hg
    rw [superToFile_eq hi, filesById_setFile, if_pos rfl] at he
    obtain rfl := Option.some.inj he
    refine .inr ⟨f, h ▸ hf, ?_⟩
    unfold File.markExtent
    split <;> exact ⟨rfl, rfl, .inl rfl⟩
  · exact derives_superToFile hf hi k g hg

theorem totalExtents_updFile (s : Super) (id : ℕ) (g : File → File) :
    (s.updFile id g).totalExtents = s.totalExtents := by
  unfold updFile
  split <;> rfl

theorem ready_updFile (s : Super) (id : ℕ) (g : File → File) : (s.updFile id g).ready = s.ready := by
  unfold updFile
  split <;> rfl

theorem Op.derives {j : JEntry} (hk : s.Keyed) (h : s.Op j s') : s.Derives s' := by
  cases h with
  | create hn hs hlimit hmax hlookup hi => exact derives_initFile hi (by simp)
  | fork hn hs hlimit hmax hp hmode hlookup hi =>
      exact derives_initFile hi (by rintro _ ⟨⟩; exact hp)
  | rename hn hs hlookup hf => exact derives_renameFile hf _
  | truncate hv hs hf hmode hc => exact derives_truncateFile hk hf hv
  | delete hs hf hmode hc => exact derives_deleteFile hk hf
  | bind hs hf hmode hi hsize hroom hb hnone => exact derives_superToFile hf hnone
  | unbind hs hf hmode hi hsize he hp herr => exact derives_unmapExtent hk _ _

theorem Replayed.derives {e : Entry} (hk : s.Keyed) (h : s.Replayed e s') : s.Derives s' := by
  cases h with
  | create hn h0 hlimit hlookup hi => exact derives_initFile hi (by simp)
  | fork hn h0 hlt hlimit hlookup hp hi =>
      exact derives_initFile hi (by rintro _ ⟨⟩; rw [hk _ _ hp]; exact hp)
  | rename hn hf hlookup => exact derives_renameFile (by rw [hk _ _ hf]; exact hf) _
  | truncate hv hf hc => exact derives_truncateFile hk (by rw [hk _ _ hf]; exact hf) hv
  | delete hf hc => exact derives_deleteFile hk (by rw [hk _ _ hf]; exact hf)
  | bind hf hi hsize hb hfree hnone => exact derives_superToFile (by rw [hk _ _ hf]; exact hf) hnone
  | unbind hf hi hsize he => exact derives_unmapExtent hk _ _
  | next hb hfree => exact (MetaEq.takeJournal s _).derives

theorem Derives.keyed (h : s.Derives s') (hk : s.Keyed) : s'.Keyed := by
  intro k g hg
  rcases h k g hg with ⟨name, parent, rfl, -⟩ | ⟨f, hf, hid, -⟩
  · rfl
  · rw [hid, hk k f hf]

theorem Derives.sizes (h : s.Derives s')
    (hs : ∀ (id : ℕ) (f : File), s.filesById[id]? = some f → sizeValid f.size) (k : ℕ) (g : File)
    (hg : s'.filesById[k]? = some g) : sizeValid g.size := by
  rcases h k g hg with ⟨name, parent, rfl, hp⟩ | ⟨f, hf, -, -, hsize | hsize⟩
  · cases parent with
    | none => exact sizeValid_zero
    | some p => exact hs p.id p (hp p rfl)
  · exact hsize ▸ hs k f hf
  · exact hsize

end Super

end Cyanfs
