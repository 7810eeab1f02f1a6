/-
# The file table represents metadata

`Super.metadata` reads the abstract metadata off a super: of the extents of a
file it keeps the settled ones, whose data is in place (`pending = 0` and
`error = 0`).  `Super.Rep` says that what the abstract model leaves out is
redundant: the name index finds the file with a name, `meta.children` counts the
children, `meta.files` the files.

For each function of `core/super.c` that changes the table there is one lemma on
`metadata` and one on `Rep`; the replay and the live operations share them.
-/

import Cyanfs.Metadata.Model
import Cyanfs.Core.Op

namespace Cyanfs

open Lib Std

/-- The backend of a node whose data is in place. -/
def Extent.settled (e : Extent) : Option ℕ :=
  if e.pending = false ∧ e.error = false then some e.backend else none

/-- What the journal says about a file. -/
def File.info (f : File) : FileInfo where
  parent := f.parent
  name := f.name
  size := f.size
  map := fun i => (f.extents[i]?).bind Extent.settled

namespace Super

/-- The metadata that a super stands for. -/
def metadata (s : Super) : Metadata where
  files := fun id => (s.filesById[id]?).map File.info
  maxFileId := s.maxFileId

/-- The redundant parts of the tables are right. -/
structure Rep (s : Super) : Prop where
  keyed : s.Keyed
  byName : ∀ n id, s.filesByName n = some id ↔ id ∈ s.metadata.named n
  children : ∀ (id : ℕ) (f : File), s.filesById[id]? = some f →
    f.children = (s.metadata.children id).ncard
  files : s.files = s.metadata.ids.ncard

variable {s s' : Super} {f : File} {b i id total : ℕ}

theorem metadata_files_eq_some {g : FileInfo} : s.metadata.files id = some g ↔
    ∃ f, s.filesById[id]? = some f ∧ f.info = g := by
  simp [metadata]

theorem metadata_files_of (hf : s.filesById[id]? = some f) :
    s.metadata.files id = some f.info := metadata_files_eq_some.2 ⟨f, hf, rfl⟩

theorem metadata_files_eq_none : s.metadata.files id = none ↔ s.filesById[id]? = none := by
  simp [metadata]

theorem mem_metadata_ids : id ∈ s.metadata.ids ↔ ∃ f, s.filesById[id]? = some f := by
  simp [Metadata.mem_ids, metadata]

theorem mem_children {k : ℕ} : k ∈ s.metadata.children id ↔
    ∃ f, s.filesById[k]? = some f ∧ f.parent = some id := by
  simp only [Metadata.children, metadata_files_eq_some, Set.mem_ofPred_eq]
  constructor
  · rintro ⟨_, ⟨f, hf, rfl⟩, hp⟩
    exact ⟨f, hf, hp⟩
  · rintro ⟨f, hf, hp⟩
    exact ⟨f.info, ⟨f, hf, rfl⟩, hp⟩

theorem mem_named {n : FileName} {k : ℕ} : k ∈ s.metadata.named n ↔
    ∃ f, s.filesById[k]? = some f ∧ f.name = n := by
  simp only [Metadata.named, metadata_files_eq_some, Set.mem_ofPred_eq]
  constructor
  · rintro ⟨_, ⟨f, hf, rfl⟩, hn⟩
    exact ⟨f, hf, hn⟩
  · rintro ⟨f, hf, hn⟩
    exact ⟨f.info, ⟨f, hf, rfl⟩, hn⟩

/-- A name is looked up as the abstract model does it. -/
theorem Rep.lookupByName_eq_none (h : s.Rep) {n : FileName} :
    s.lookupByName n = none ↔ s.metadata.named n = ∅ := by
  unfold lookupByName
  constructor
  · intro hl
    ext k
    simp only [Set.mem_empty_iff_false, iff_false]
    intro hk
    obtain ⟨f, hf, -⟩ := mem_named.1 hk
    rw [(h.byName n k).2 hk] at hl
    simp [hf] at hl
  · intro he
    cases hn : s.filesByName n with
    | none => rfl
    | some k =>
        have := (h.byName n k).1 hn
        rw [he] at this
        exact this.elim

theorem Rep.filesByName_eq_none (h : s.Rep) {n : FileName} (hn : s.metadata.named n = ∅) :
    s.filesByName n = none := by
  cases hk : s.filesByName n with
  | none => rfl
  | some k =>
      have := (h.byName n k).1 hk
      rw [hn] at this
      exact this.elim

theorem Rep.children_eq_zero (h : s.Rep) (hw : s.metadata.WF total) (hf : s.filesById[id]? = some f) :
    f.children = 0 ↔ s.metadata.children id = ∅ := by
  rw [h.children id f hf, Set.ncard_eq_zero (hw.finite_children id)]

/-! ### The metadata behind each function -/

theorem extentAt_bind_settled (s : Super) (id i : ℕ) : (s.extentAt id i).bind Extent.settled =
    (s.metadata.files id).bind fun f => f.map i := by
  cases hf : s.filesById[id]? with
  | none => simp [extentAt, hf, metadata_files_eq_none.2 hf]
  | some f =>
      rw [extentAt_of_file hf, metadata_files_of hf]
      rfl

/-- The counters of a file are determined by the metadata. -/
theorem Rep.files_eq (h : s.Rep) (h' : s'.Rep) (hm : s'.metadata = s.metadata) (id : ℕ) :
    (s'.filesById[id]?).map (fun f => (f.id, f.name, f.parentId, f.size, f.children)) =
      (s.filesById[id]?).map fun f => (f.id, f.name, f.parentId, f.size, f.children) := by
  cases hg : s'.filesById[id]? with
  | none =>
      rw [metadata_files_eq_none.1 (hm ▸ metadata_files_eq_none.2 hg)]
  | some g =>
      have hinfo := metadata_files_of hg
      rw [hm] at hinfo
      obtain ⟨f, hf, he⟩ := metadata_files_eq_some.1 hinfo
      have hname := congrArg FileInfo.name he
      have hpar := congrArg FileInfo.parent he
      have hsz := congrArg FileInfo.size he
      simp only [File.info] at hname hpar hsz
      have hch : g.children = f.children := by
        rw [h'.children id g hg, h.children id f hf, hm]
      rw [hf]
      simp [File.parentId, h'.keyed id g hg, h.keyed id f hf, hch, hname, hpar, hsz]

theorem MetaEq.metadata (h : s.MetaEq s') : s'.metadata = s.metadata := by
  simp [Super.metadata, h.filesById, h.maxFileId]

theorem metadata_initFile {name : FileName} {parent : Option File}
    (hi : s.initFile name id parent = .ok s') (hp : ∀ p ∈ parent, s.filesById[p.id]? = some p) :
    s'.metadata = s.metadata.add id
      ⟨parent.map (·.id), name, (parent.map (·.size)).getD 0, fun _ => none⟩ := by
  have hmax : s'.maxFileId = max s.maxFileId id := by
    obtain ⟨-, -, rfl⟩ := initFile_eq_ok.1 hi
    simp only [max_def]
    split_ifs <;> omega
  apply Metadata.ext
  · funext k
    rw [Metadata.add_files]
    simp only [metadata, filesById_initFile hi hp]
    split_ifs with hk hpk
    · simp [newFile, File.info]
    · cases s.filesById[k]? <;> rfl
    · rfl
  · exact hmax

theorem metadata_renameFile (hf : s.filesById[f.id]? = some f) (name : FileName) :
    (s.renameFile f name).metadata = s.metadata.modify f.id fun g => { g with name := name } := by
  apply Metadata.ext
  · funext k
    rw [Metadata.modify_files]
    have : (s.renameFile f name).filesById[k]? =
        if k = f.id then some { f with name := name } else s.filesById[k]? :=
      filesById_setFile s { f with name := name } k
    simp only [metadata, this]
    split_ifs with hk
    · simp [hf, File.info]
    · rfl
  · rfl

/-- Which nodes a truncation keeps. -/
theorem mem_truncateKeys {size : ℕ} (hv : sizeValid size)
    (hk : f.extents[i]? ≠ none) : i ∈ truncateKeys f size ↔ size ≤ extentBegin i := by
  have hmem : i ∈ f.extents.keys := by
    rw [ExtTreeMap.mem_keys]
    grind
  unfold truncateKeys
  split_ifs with h0
  · simp [hmem, h0]
  · have hle := sizeValid_le hv
    have hlt : size - 1 < fileMaxSize := by omega
    rw [List.mem_filter, fileIndex_of_lt (extentFrom_lt_of_lt hlt), extentFrom_of_lt hlt]
    simp only [hmem, true_and, decide_eq_true_eq, extentBegin, extentSize]
    omega

theorem metadata_truncateFile (hk : s.Keyed) (hf : s.filesById[f.id]? = some f) {size : ℕ}
    (hv : sizeValid size) :
    (s.truncateFile f size).metadata = s.metadata.modify f.id (·.resize size) := by
  apply Metadata.ext
  · funext k
    rw [Metadata.modify_files]
    simp only [metadata, filesById_truncateFile hk hf, hf, Option.map_some]
    split_ifs with hk
    · obtain ⟨x, c, hu⟩ := f.unmapAll_eq (truncateKeys f size)
      have hx : ∀ j : ℕ, x[j]? = (f.unmapAll (truncateKeys f size)).extents[j]? := by
        intro j
        rw [hu]
      rw [hu]
      simp only [Option.map_some, File.info, FileInfo.resize, Option.some.injEq, FileInfo.mk.injEq,
        true_and]
      funext j
      rw [hx, File.extents_unmapAll]
      cases hj : f.extents[j]? with
      | none => simp
      | some e =>
          have hne : f.extents[j]? ≠ none := by simp [hj]
          have hm := mem_truncateKeys hv hne
          by_cases hb : extentBegin j < size
          · rw [if_neg (by rw [hm]; omega), if_pos hb]
          · rw [if_pos (by rw [hm]; omega), if_neg hb]
            rfl
    · rfl
  · obtain ⟨_, _, _, _, _, _, hu⟩ := unmapped_truncateFile s f size
    rw [hu]
    rfl

theorem metadata_deleteFile (hk : s.Keyed) (hf : s.filesById[f.id]? = some f) :
    (s.deleteFile f).metadata =
      { s.metadata with files := Function.update s.metadata.files f.id none } := by
  apply Metadata.ext
  · funext k
    simp only [metadata, filesById_deleteFile hk hf, Function.update_apply]
    split_ifs with h₁ h₂
    · rfl
    · cases s.filesById[k]? <;> rfl
    · rfl
  · obtain ⟨_, hd⟩ := deleteFile_shape s f
    obtain ⟨_, _, _, _, _, _, hu⟩ := unmapped_truncateFile s f 0
    rw [hd, hu]
    rfl

theorem metadata_superToFile (hf : s.filesById[f.id]? = some f) (hi : f.extents[i]? = none) :
    (s.superToFile f b i).metadata =
      s.metadata.modify f.id fun g => { g with map := Function.update g.map i (some b) } := by
  rw [superToFile_eq hi]
  apply Metadata.ext
  · funext k
    rw [Metadata.modify_files]
    simp only [metadata, filesById_setFile, hf, Option.map_some]
    split_ifs with hk
    · simp only [Option.map_some, File.info, Option.some.injEq, FileInfo.mk.injEq, true_and]
      funext j
      rw [Function.update_apply]
      split_ifs with hj
      · subst hj
        simp [Extent.settled]
      · congr 1
        grind
    · rfl
  · rfl

theorem metadata_unmapExtent (hk : s.Keyed) (id i : ℕ) : (s.unmapExtent id i).metadata =
    s.metadata.modify id fun g => { g with map := Function.update g.map i none } := by
  apply Metadata.ext
  · funext k
    rw [Metadata.modify_files]
    simp only [metadata, filesById_unmapExtent hk]
    split_ifs with h
    · cases hf : s.filesById[id]? with
      | none => rfl
      | some f =>
          have hu : f.unmapAt i = { f with
              extents := (f.unmapAt i).extents, extentCount := (f.unmapAt i).extentCount } := by
            unfold File.unmapAt
            split_ifs <;> rfl
          simp only [Option.map_some, Option.some.injEq]
          rw [hu]
          simp only [File.info, FileInfo.mk.injEq, true_and]
          funext j
          rw [File.extents_unmapAt, Function.update_apply]
          split_ifs <;> rfl
    · rfl
  · obtain ⟨_, _, _, _, _, _, hu⟩ := unmapped_unmapExtent s id i
    rw [hu]
    rfl

/-! ### The redundant parts behind each function -/

/-- Parents, names and counters are as before. -/
theorem Rep.congr (h : s.Rep) (hk : s'.Keyed) (hn : s'.filesByName = s.filesByName)
    (hc : s'.files = s.files)
    (hf : ∀ id : ℕ, (s'.filesById[id]?).map (fun f => (f.parent, f.name, f.children)) =
      (s.filesById[id]?).map fun f => (f.parent, f.name, f.children)) : s'.Rep := by
  have hback : ∀ (id : ℕ) (f : File), s'.filesById[id]? = some f → ∃ g, s.filesById[id]? = some g ∧
      g.parent = f.parent ∧ g.name = f.name ∧ g.children = f.children := by
    intro id f hf'
    have := hf id
    rw [hf'] at this
    obtain ⟨g, hg, he⟩ := Option.map_eq_some_iff.1 this.symm
    simp only [Prod.mk.injEq] at he
    exact ⟨g, hg, he⟩
  have hforth : ∀ (id : ℕ) (f : File), s.filesById[id]? = some f → ∃ g, s'.filesById[id]? = some g ∧
      g.parent = f.parent ∧ g.name = f.name ∧ g.children = f.children := by
    intro id f hf'
    have := hf id
    rw [hf'] at this
    obtain ⟨g, hg, he⟩ := Option.map_eq_some_iff.1 this
    simp only [Prod.mk.injEq] at he
    exact ⟨g, hg, he⟩
  have hnamed : ∀ n, s'.metadata.named n = s.metadata.named n := by
    intro n
    ext k
    rw [mem_named, mem_named]
    constructor
    · rintro ⟨f, hf', rfl⟩
      obtain ⟨g, hg, -, he, -⟩ := hback k f hf'
      exact ⟨g, hg, he⟩
    · rintro ⟨f, hf', rfl⟩
      obtain ⟨g, hg, -, he, -⟩ := hforth k f hf'
      exact ⟨g, hg, he⟩
  have hchildren : ∀ id, s'.metadata.children id = s.metadata.children id := by
    intro id
    ext k
    rw [mem_children, mem_children]
    constructor
    · rintro ⟨f, hf', he⟩
      obtain ⟨g, hg, hp, -, -⟩ := hback k f hf'
      exact ⟨g, hg, hp.trans he⟩
    · rintro ⟨f, hf', he⟩
      obtain ⟨g, hg, hp, -, -⟩ := hforth k f hf'
      exact ⟨g, hg, hp.trans he⟩
  have hids : s'.metadata.ids = s.metadata.ids := by
    ext k
    rw [mem_metadata_ids, mem_metadata_ids]
    constructor
    · rintro ⟨f, hf'⟩
      obtain ⟨g, hg, -⟩ := hback k f hf'
      exact ⟨g, hg⟩
    · rintro ⟨f, hf'⟩
      obtain ⟨g, hg, -⟩ := hforth k f hf'
      exact ⟨g, hg⟩
  refine ⟨hk, ?_, ?_, ?_⟩
  · intro n id
    rw [hn, hnamed, h.byName]
  · intro id f hf'
    obtain ⟨g, hg, -, -, he⟩ := hback id f hf'
    rw [hchildren, ← he, h.children id g hg]
  · rw [hc, hids, h.files]

theorem MetaEq.rep (h : s.MetaEq s') (hr : s.Rep) : s'.Rep :=
  hr.congr (fun id f hf => hr.keyed id f (h.filesById ▸ hf)) h.filesByName h.files
    fun id => by rw [h.filesById]

theorem Rep.setFile (h : s.Rep) {g : File} (hf : s.filesById[g.id]? = some f)
    (hp : g.parent = f.parent) (hn : g.name = f.name) (hc : g.children = f.children) :
    (s.setFile g).Rep := by
  refine h.congr (setFile_keyed h.keyed g) rfl rfl fun k => ?_
  rw [filesById_setFile]
  split_ifs with hk
  · rw [hk, hf]
    simp [hp, hn, hc]
  · rfl

theorem Rep.markExtent (h : s.Rep) (id i : ℕ) (u : Extent → Extent) :
    (s.updFile id fun f => f.markExtent i u).Rep := by
  have hu : s.updFile id (fun f => f.markExtent i u) = { s with
      filesById := (s.updFile id fun f => f.markExtent i u).filesById } := by
    simp only [updFile]
    split <;> rfl
  have hmark : ∀ f : File, f.markExtent i u = { f with extents := (f.markExtent i u).extents } := by
    intro f
    simp only [File.markExtent]
    split <;> rfl
  refine h.congr ?_ (by rw [hu]) (by rw [hu]) fun k => ?_
  · intro k g hg
    rw [filesById_updFile] at hg
    split_ifs at hg with hk
    · obtain ⟨f, hf, rfl⟩ := Option.map_eq_some_iff.1 hg
      rw [hmark, h.keyed id f hf, hk]
    · exact h.keyed k g hg
  · rw [filesById_updFile]
    split_ifs with hk
    · rw [hk]
      cases s.filesById[id]? with
      | none => rfl
      | some f =>
          simp only [Option.map_some]
          rw [hmark]
    · rfl

theorem Rep.superToFile (h : s.Rep) (hf : s.filesById[f.id]? = some f) (hi : f.extents[i]? = none) :
    (s.superToFile f b i).Rep := by
  rw [superToFile_eq hi]
  have h' : Rep { s with
      freeExtents := s.freeExtents - 1, free := s.free.erase b, dataExtents := s.dataExtents + 1 } :=
    h.congr h.keyed rfl rfl fun _ => rfl
  exact h'.setFile (f := f) hf rfl rfl rfl

theorem Rep.unmapExtent (h : s.Rep) (id i : ℕ) : (s.unmapExtent id i).Rep := by
  obtain ⟨_, _, _, _, _, _, hu⟩ := unmapped_unmapExtent s id i
  refine h.congr (unmapExtent_keyed h.keyed id i) (by rw [hu]) (by rw [hu]) fun k => ?_
  rw [filesById_unmapExtent h.keyed]
  split_ifs with hk
  · rw [hk]
    cases s.filesById[id]? with
    | none => rfl
    | some f =>
        simp only [Option.map_some, File.unmapAt]
        split_ifs <;> rfl
  · rfl

theorem Rep.truncateFile (h : s.Rep) (hf : s.filesById[f.id]? = some f) (size : ℕ) :
    (s.truncateFile f size).Rep := by
  obtain ⟨_, _, _, _, _, _, hu⟩ := unmapped_truncateFile s f size
  have hfiles := filesById_truncateFile h.keyed hf size
  obtain ⟨x, c, hx⟩ := f.unmapAll_eq (truncateKeys f size)
  refine h.congr ?_ (by rw [hu]) (by rw [hu]) fun k => ?_
  · intro k g hg
    rw [hfiles] at hg
    split_ifs at hg with hk
    · obtain rfl := Option.some.inj hg
      rw [hx, hk]
    · exact h.keyed k g hg
  · rw [hfiles]
    split_ifs with hk
    · rw [hx, hk, hf]
      rfl
    · rfl

/-- The file with the parent `p` joins the children of `p`. -/
theorem children_add {m : Metadata} (hid : id ∉ m.ids) (g : FileInfo) (k : ℕ) :
    (m.add id g).children k = if g.parent = some k then insert id (m.children k) else m.children k := by
  have hnot : ∀ k, id ∉ m.children k := by
    rintro k ⟨f, hf, -⟩
    exact hid (Metadata.mem_ids.2 ⟨f, hf⟩)
  ext l
  simp only [Metadata.children, Set.mem_ofPred_eq, Metadata.add_files]
  by_cases hl : l = id
  · subst hl
    have := hnot k
    simp only [Metadata.children, Set.mem_ofPred_eq] at this
    by_cases hp : g.parent = some k
    · simp [hp]
    · simp [hp, this]
  · by_cases hp : g.parent = some k <;> simp [hl, hp]

theorem Rep.initFile {name : FileName} {parent : Option File} (h : s.Rep) (hw : s.metadata.WF total)
    (hi : s.initFile name id parent = .ok s') (hp : ∀ p ∈ parent, s.filesById[p.id]? = some p)
    (hn : s.metadata.named name = ∅) : s'.Rep := by
  have hmeta := metadata_initFile hi hp
  have hfiles := filesById_initFile hi hp
  obtain ⟨hid, -, hs'⟩ := initFile_eq_ok.1 hi
  have hnid : id ∉ s.metadata.ids := by
    rw [mem_metadata_ids]
    simp [hid]
  have hnames : s'.filesByName = Function.update s.filesByName name (some id) := by rw [hs']
  have hcount : s'.files = s.files + 1 := by rw [hs']
  -- nobody is a child of an id that is not in use
  have hnone : s.metadata.children id = ∅ := by
    ext k
    simp only [Set.mem_empty_iff_false, iff_false]
    rintro ⟨f, hf, hpar⟩
    exact hnid (hw.parent k f id hf hpar).2
  refine ⟨?_, ?_, ?_, ?_⟩
  · intro k g hg
    rw [hfiles] at hg
    split_ifs at hg with hk hpk
    · rw [← Option.some.inj hg, hk]
      rfl
    · obtain ⟨f, hf, rfl⟩ := Option.map_eq_some_iff.1 hg
      exact h.keyed k f hf
    · exact h.keyed k g hg
  · intro n k
    rw [hnames, hmeta, Function.update_apply]
    simp only [Metadata.named, Set.mem_ofPred_eq, Metadata.add_files]
    by_cases hk : k = id
    · subst hk
      by_cases hnn : n = name
      · simp [hnn]
      · have : s.filesByName n ≠ some k := by
          intro hb
          exact hnid (by
            obtain ⟨f, hf, -⟩ := mem_named.1 ((h.byName n k).1 hb)
            exact mem_metadata_ids.2 ⟨f, hf⟩)
        simp [hnn, this, Ne.symm hnn]
    · have hb := h.byName n k
      simp only [Metadata.named, Set.mem_ofPred_eq] at hb
      by_cases hnn : n = name
      · subst hnn
        have hempty : ¬ ∃ f, s.metadata.files k = some f ∧ f.name = n := by
          intro he
          have : k ∈ s.metadata.named n := he
          rw [hn] at this
          exact this
        simp [hk, hempty, Ne.symm hk]
      · simp [hk, hnn, hb]
  · intro k g hg
    rw [hmeta, children_add hnid]
    rw [hfiles] at hg
    split_ifs at hg with hk hpk
    · obtain rfl := Option.some.inj hg
      rw [hk, hnone]
      split_ifs with hpar
      · obtain ⟨p, hpp, hpid⟩ := Option.map_eq_some_iff.1 hpar
        have := hp p hpp
        rw [hpid, hid] at this
        exact absurd this (by simp)
      · simp [newFile]
    · obtain ⟨p, hpp, rfl⟩ := hpk
      obtain ⟨f, hf, rfl⟩ := Option.map_eq_some_iff.1 hg
      obtain rfl := Option.mem_def.1 hpp
      have hnot : id ∉ s.metadata.children p.id := by
        rintro ⟨q, hq, -⟩
        exact hnid (Metadata.mem_ids.2 ⟨q, hq⟩)
      rw [if_pos (by simp), Set.ncard_insert_of_notMem hnot (hw.finite_children _),
        ← h.children _ f hf]
    · rw [if_neg, ← h.children k g hg]
      intro hpar
      obtain ⟨p, hpp, hpid⟩ := Option.map_eq_some_iff.1 hpar
      exact hpk ⟨p, hpp, hpid⟩
  · rw [hmeta, Metadata.ids_add, Set.ncard_insert_of_notMem hnid hw.finite, hcount, h.files]

theorem Rep.renameFile (h : s.Rep) (hf : s.filesById[f.id]? = some f) {name : FileName}
    (hn : s.metadata.named name ⊆ {f.id}) : (s.renameFile f name).Rep := by
  have hmeta := metadata_renameFile hf name
  have hfiles : ∀ k : ℕ, (s.renameFile f name).filesById[k]? =
      if k = f.id then some { f with name := name } else s.filesById[k]? :=
    filesById_setFile s { f with name := name }
  -- the new name is free once the old one is gone
  have hfree : Function.update s.filesByName f.name none name = none := by
    rw [Function.update_apply]
    split_ifs with he
    · rfl
    · cases hk : s.filesByName name with
      | none => rfl
      | some k =>
          have hm := (h.byName name k).1 hk
          obtain rfl : k = f.id := hn hm
          obtain ⟨g, hg, hgn⟩ := mem_named.1 hm
          rw [hf] at hg
          exact absurd (Option.some.inj hg ▸ hgn.symm) he
  have hnames : (s.renameFile f name).filesByName =
      Function.update (Function.update s.filesByName f.name none) name (some f.id) := by
    simp [Super.renameFile, hfree]
  have hchildren : ∀ k, (s.renameFile f name).metadata.children k = s.metadata.children k := by
    intro k
    ext l
    rw [mem_children, mem_children]
    simp only [hfiles]
    by_cases hl : l = f.id
    · subst hl
      simp [hf]
    · simp [hl]
  have hnamed : ∀ n k, k ∈ (s.renameFile f name).metadata.named n ↔
      if k = f.id then n = name else k ∈ s.metadata.named n := by
    intro n k
    rw [mem_named, mem_named]
    simp only [hfiles]
    split_ifs <;> simp [eq_comm]
  have hown : ∀ k ∈ s.metadata.named f.name, k = f.id := by
    intro k hk
    have h₁ := (h.byName f.name k).2 hk
    have h₂ := (h.byName f.name f.id).2 (mem_named.2 ⟨f, hf, rfl⟩)
    rw [h₁] at h₂
    exact Option.some.inj h₂
  refine ⟨setFile_keyed h.keyed _, ?_, ?_, ?_⟩
  · intro n k
    rw [hnames, hnamed, Function.update_apply, Function.update_apply]
    split_ifs with hnn hk hno hk hk
    · simp [hk, hnn]
    · rw [Option.some.injEq, eq_comm, iff_false_left hk]
      exact fun hm => hk (hn (hnn ▸ hm))
    · simp [hnn]
    · simp only [false_iff]
      exact fun hm => hk (hown k (hno ▸ hm))
    · simp only [hnn, iff_false, h.byName]
      intro hm
      obtain ⟨g, hg, hgn⟩ := mem_named.1 hm
      rw [hk, hf] at hg
      exact hno (Option.some.inj hg ▸ hgn.symm)
    · exact h.byName n k
  · intro k g hg
    rw [hchildren]
    rw [hfiles] at hg
    split_ifs at hg with hk
    · obtain rfl := Option.some.inj hg
      rw [hk, ← h.children f.id f hf]
    · exact h.children k g hg
  · rw [hmeta, Metadata.ids_modify]
    exact h.files

theorem Rep.deleteFile (h : s.Rep) (hw : s.metadata.WF total) (hf : s.filesById[f.id]? = some f) :
    (s.deleteFile f).Rep := by
  have hmeta := metadata_deleteFile h.keyed hf
  have hfiles := filesById_deleteFile h.keyed hf
  obtain ⟨_, hd⟩ := deleteFile_shape s f
  have hnames : (s.deleteFile f).filesByName = Function.update s.filesByName f.name none := by
    rw [hd]
  have hcount : (s.deleteFile f).files = s.files - 1 := by rw [hd]
  have hlive : f.id ∈ s.metadata.ids := mem_metadata_ids.2 ⟨f, hf⟩
  have hmem : ∀ k, k ∈ (s.deleteFile f).metadata.ids ↔ k ∈ s.metadata.ids ∧ k ≠ f.id := by
    intro k
    rw [hmeta]
    simp only [Metadata.ids, Set.mem_ofPred_eq, Function.update_apply]
    split_ifs with hk <;> simp [hk]
  have hchildren : ∀ k, (s.deleteFile f).metadata.children k = s.metadata.children k \ {f.id} := by
    intro k
    ext l
    rw [hmeta]
    simp only [Metadata.children, Set.mem_ofPred_eq, Function.update_apply, Set.mem_sdiff,
      Set.mem_singleton_iff]
    by_cases hl : l = f.id <;> simp [hl]
  refine ⟨?_, ?_, ?_, ?_⟩
  · intro k g hg
    rw [hfiles] at hg
    split_ifs at hg with hk hp
    · obtain ⟨p, hp, rfl⟩ := Option.map_eq_some_iff.1 hg
      exact h.keyed k p hp
    · exact h.keyed k g hg
  · intro n k
    rw [hnames, Function.update_apply, hmeta]
    simp only [Metadata.named, Set.mem_ofPred_eq, Function.update_apply]
    have hb := h.byName n k
    by_cases hk : k = f.id
    · subst hk
      by_cases hn : n = f.name
      · simp [hn]
      · have : s.filesByName n ≠ some f.id := by
          intro he
          obtain ⟨g, hg, hgn⟩ := mem_named.1 (hb.1 he)
          rw [hf] at hg
          exact hn (Option.some.inj hg ▸ hgn.symm)
        simp [hn, this]
    · by_cases hn : n = f.name
      · have : ¬ ∃ g, s.metadata.files k = some g ∧ g.name = n := by
          rintro ⟨g, hg, hgn⟩
          exact hk (hw.named k g f.id f.info hg (metadata_files_of hf) (hgn.trans hn))
        simp [hn, hk, hn ▸ this]
      · simp only [hn, hk, if_false]
        exact hb
  · intro k g hg
    rw [hchildren]
    rw [hfiles] at hg
    split_ifs at hg with hk hp
    · obtain ⟨p, hpf, rfl⟩ := Option.map_eq_some_iff.1 hg
      rw [Set.ncard_sdiff_singleton_of_mem (mem_children.2 ⟨f, hf, hp⟩), ← h.children k p hpf]
    · rw [Set.sdiff_singleton_eq_self, ← h.children k g hg]
      intro hm
      obtain ⟨f', hf', hp'⟩ := mem_children.1 hm
      rw [hf] at hf'
      exact hp (Option.some.inj hf' ▸ hp')
  · have : (s.deleteFile f).metadata.ids = s.metadata.ids \ {f.id} := by
      ext k
      simp [hmem]
    rw [this, Set.ncard_sdiff_singleton_of_mem hlive, hcount, h.files]

theorem rep_opened (total : ℕ) (discard compact : Bool) (uuid : Uuid) (page : Buf) :
    (Super.opened total discard compact uuid page).Rep := by
  have hempty : ∀ id : ℕ, (Super.opened total discard compact uuid page).filesById[id]? = none := by
    intro id
    simp [opened]
  refine ⟨?_, ?_, ?_, ?_⟩
  · intro id f hf
    simp [hempty] at hf
  · intro n id
    rw [mem_named]
    simp [opened]
  · intro id f hf
    simp [hempty] at hf
  · have : (Super.opened total discard compact uuid page).metadata.ids = ∅ := by
      ext k
      rw [mem_metadata_ids]
      simp [hempty]
    rw [this]
    simp [opened]

theorem metadata_opened (total : ℕ) (discard compact : Bool) (uuid : Uuid) (page : Buf) :
    (Super.opened total discard compact uuid page).metadata = .empty := by
  apply Metadata.ext
  · funext k
    simp [metadata, opened, Metadata.empty]
  · rfl

end Super

end Cyanfs
