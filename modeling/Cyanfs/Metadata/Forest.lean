/-
# Names and the fork forest

What the metadata of a mounted image looks like from outside, whatever the image
holds: the two indexes agree, names are told apart by their C strings, parents
are live and older than their children, and the counters count what they say
(`namespace_forest`).  Ids fall along the parent links, so the walk of
`__cyanfs_file_find_extent_follow` ends (`followFrom_eq`).
-/

import Cyanfs.Metadata.Nodes

namespace Cyanfs

open Lib Std

namespace Super

variable {s : Super} {id n m off total : ℕ}

@[simp] theorem followFrom_none (s : Super) (off n : ℕ) : s.followFrom off n none = none := by
  cases n <;> rfl

/-- The walk through the ancestors of a file has at most as many rounds as the id
of the file says. -/
theorem followFrom_eq (hp : ∀ (id : ℕ) (f : File) (p : ℕ), s.filesById[id]? = some f →
    f.parent = some p → p < id) (hn : id < n) (hm : id < m) :
    s.followFrom off n (some id) = s.followFrom off m (some id) := by
  induction n generalizing id m with
  | zero => omega
  | succ n ih =>
      obtain ⟨m, rfl⟩ := Nat.exists_eq_add_of_lt (Nat.zero_lt_of_lt hm)
      rw [Nat.zero_add, followFrom, followFrom]
      cases hf : s.filesById[id]? with
      | none => rfl
      | some f =>
          simp only
          split_ifs with hsize
          · cases he : f.findExtent off with
            | some e => rfl
            | none =>
                cases hq : f.parent with
                | none => simp
                | some p =>
                    have hlt := hp id f p hf hq
                    exact ih (by omega) (by omega)
          · rfl

/-- The namespace and the forest of files. -/
structure Forest (s : Super) : Prop where
  /-- `files_by_id` and `files_by_name` hold the same files -/
  byName : ∀ (id : ℕ) (f : File), s.filesById[id]? = some f → s.filesByName f.name = some id
  byId : ∀ (name : FileName) (id : ℕ), s.filesByName name = some id →
    ∃ f, s.filesById[id]? = some f ∧ f.name = name
  /-- a file is found under its own id, which is not zero -/
  ids : ∀ (id : ℕ) (f : File), s.filesById[id]? = some f → f.id = id ∧ id ≠ 0 ∧ id ≤ s.maxFileId
  normal : ∀ (id : ℕ) (f : File), s.filesById[id]? = some f → f.name.Normal
  /-- names are distinct as C strings -/
  distinct : ∀ (id k : ℕ) (f g : File), s.filesById[id]? = some f → s.filesById[k]? = some g →
    f.name.cstr = g.name.cstr → id = k
  /-- a terminated buffer with the C string of a file finds that file -/
  found : ∀ (id : ℕ) (f : File) (raw : FileName), s.filesById[id]? = some f → raw.zero = 0 →
    raw.cstr = f.name.cstr → s.ensureStatus = none → s.lookup raw = .ok f
  /-- a parent is live and has a smaller id -/
  parent : ∀ (id : ℕ) (f : File) (p : ℕ), s.filesById[id]? = some f → f.parent = some p →
    ∃ g, s.filesById[p]? = some g ∧ g.id = f.parentId ∧ g.id < id
  /-- the walk through the ancestors ends by itself: more rounds change nothing -/
  walk : ∀ (id off n : ℕ), id < n → s.followFrom off n (some id) = s.findExtentFollow (some id) off
  children : ∀ (id : ℕ) (f : File), s.filesById[id]? = some f →
    f.children = {k : ℕ | ∃ g : File, s.filesById[k]? = some g ∧ g.parent = some id}.ncard
  extents : ∀ (id : ℕ) (f : File) (i : ℕ), s.filesById[id]? = some f → f.extents[i]? ≠ none →
    i * extentSize < f.size
  sizes : ∀ (id : ℕ) (f : File), s.filesById[id]? = some f → f.size % 4096 = 0 ∧ f.size ≤ 2 ^ 50
  files : s.files = s.filesById.size
  limit : s.files ≤ superMaxFiles

theorem size_filesById (s : Super) : s.filesById.size = s.metadata.ids.ncard := by
  have hids : s.metadata.ids = (s.filesById.keys.toFinset : Set ℕ) := by
    ext id
    rw [mem_metadata_ids]
    simp only [List.coe_toFinset, Set.mem_ofPred_eq, ExtTreeMap.mem_keys]
    rw [ExtTreeMap.mem_iff_isSome_getElem?, Option.isSome_iff_exists]
  have hnodup : s.filesById.keys.Nodup := by
    refine (ExtTreeMap.distinct_keys (t := s.filesById)).imp fun h he => ?_
    simp [he] at h
  rw [hids, Set.ncard_coe_finset, List.toFinset_card_of_nodup hnodup, ExtTreeMap.length_keys]

theorem Live.forest (h : s.Live total) : s.Forest := by
  have hname : ∀ (id : ℕ) (f : File), s.filesById[id]? = some f → s.filesByName f.name = some id :=
    fun id f hf => (h.rep.byName f.name id).2 (mem_named.2 ⟨f, hf, rfl⟩)
  have hnormal : ∀ (id : ℕ) (f : File), s.filesById[id]? = some f → f.name.Normal :=
    fun id f hf => h.wf.normal id f.info (metadata_files_of hf)
  have hparent : ∀ (id : ℕ) (f : File) (p : ℕ), s.filesById[id]? = some f → f.parent = some p →
      p < id ∧ p ∈ s.metadata.ids :=
    fun id f p hf hp => h.wf.parent id f.info p (metadata_files_of hf) hp
  refine ⟨hname, ?_, ?_, hnormal, ?_, ?_, ?_, ?_, ?_, ?_, ?_, ?_, ?_⟩
  · intro name id hid
    exact mem_named.1 ((h.rep.byName name id).1 hid)
  · intro id f hf
    obtain ⟨hpos, hmax⟩ := h.wf.ids id (mem_metadata_ids.2 ⟨f, hf⟩)
    exact ⟨h.rep.keyed id f hf, hpos.ne', hmax⟩
  · intro id k f g hf hg hc
    have hz : f.name.zero = 0 := by
      have hn := hnormal id f hf
      unfold FileName.Normal FileName.normalize at hn
      split_ifs at hn with hcond
      push Not at hcond
      exact hcond.2
    have heq : f.name = g.name := by
      have := FileName.normalize_of_cstr (hnormal k g hg) hz hc
      exact Option.some.inj ((hnormal id f hf).symm.trans this)
    exact h.wf.named id f.info k g.info (metadata_files_of hf) (metadata_files_of hg) heq
  · intro id f raw hf hz hc hs
    have hl : s.lookupByName f.name = some f := by
      rw [lookupByName, hname id f hf]
      exact hf
    simp only [lookup, FileName.normalize_of_cstr (hnormal id f hf) hz hc, hs, hl]
  · intro id f p hf hp
    obtain ⟨hlt, hmem⟩ := hparent id f p hf hp
    obtain ⟨g, hg⟩ := mem_metadata_ids.1 hmem
    have hid := h.rep.keyed p g hg
    exact ⟨g, hg, by rw [hid, File.parentId, hp]; rfl, hid ▸ hlt⟩
  · intro id off n hn
    exact followFrom_eq (fun id f p hf hp => (hparent id f p hf hp).1) hn (Nat.lt_succ_self id)
  · intro id f hf
    rw [h.rep.children id f hf]
    congr 1
    ext k
    exact mem_children
  · intro id f i hf hi
    exact (h.range id f i hf hi).2
  · intro id f hf
    have hv : sizeValid f.size := h.wf.size id f.info (metadata_files_of hf)
    exact ⟨hv.1, sizeValid_le hv⟩
  · rw [size_filesById, h.rep.files]
  · rw [h.rep.files]
    exact h.wf.count

end Super

namespace Sys

/-- **Namespace and fork forest.**  Whatever the disk holds, in every state of
every run from `cyanfs_super_open` on: while the loader replays what it accepts,
after the mount and after any operations on what was mounted. -/
theorem namespace_forest {σ : Sys} {total : ℕ} {discard compact : Bool} {uuid : Uuid} {disk : Buf}
    (h : (Sys.opened total discard compact uuid disk).Reachable σ) : σ.sup.Forest :=
  h.sound.live.live.forest

/-- A file with an extent, a fork of it, and a fork of the fork that has been renamed. -/
theorem namespace_forest_forked :
    let third : FileName := .ofCstr [99] (by decide)
    ∃ σ, (Sys.opened 16 true true smallUuid smallDisk).Reachable σ ∧
      (∀ name id, σ.sup.filesByName name = some id ↔
        (name, id) ∈ [(FileName.letter, 1), (.other, 2), (third, 3)]) ∧
      σ.sup.filesById.toList.map (fun x => (x.2.id, x.2.parent, x.2.children, x.2.extents.size)) =
        [(1, none, 1, 1), (2, some 1, 1, 0), (3, some 2, 0, 0)] ∧
      σ.sup.Forest := by
  intro third
  let draft : FileName := .ofCstr [100] (by decide)
  obtain ⟨σ, hrun, hfiles, hnames⟩ := exists_small
    (forkLabels ++ [.fork 2 draft, .rename 3 third])
    (P := fun τ => τ.sup.filesById.toList.map
        (fun x => (x.2.id, x.2.parent, x.2.children, x.2.extents.size)) =
      [(1, none, 1, 1), (2, some 1, 1, 0), (3, some 2, 0, 0)] ∧
      τ.sup.filesById.toList.map (fun x => (x.2.name, x.1)) =
        [(FileName.letter, 1), (.other, 2), (third, 3)]) (by decide +kernel)
  have hforest := namespace_forest (.small hrun)
  refine ⟨σ, .small hrun, fun name id => ?_, hfiles, hforest⟩
  rw [← hnames, List.mem_map]
  constructor
  · intro h
    obtain ⟨f, hf, rfl⟩ := hforest.byId name id h
    exact ⟨(id, f), ExtTreeMap.mem_toList_iff_getElem?_eq_some.2 hf, rfl⟩
  · rintro ⟨⟨k, f⟩, hm, he⟩
    obtain ⟨rfl, rfl⟩ := Prod.mk.inj he
    exact hforest.byName _ f (ExtTreeMap.mem_toList_iff_getElem?_eq_some.1 hm)

end Sys

end Cyanfs
