/-
# Who owns a backend extent

Every backend extent is in one of the sets of the super, in the set of a
flusher, or in the extents tree of a file.  `Super.owned` lists these owners as
one family of sets, and `ExtentsOk` says that the family partitions the extents
of the disk and that the counters of `meta` are the sizes of the sets.

A flusher's set lies outside the super, so the family takes it as the parameter
`held`; a super that is only replayed into has `held = fun _ => ∅`.  The
functions of `core/super.c` that move an extent are shown to keep `ExtentsOk`
here; those of the executor are in `Cyanfs.Extents.System`.
-/

import Cyanfs.Core.Op
import Cyanfs.Lib.Partition

namespace Cyanfs

open Lib Std

/-- The places where a backend extent can be. -/
inductive Owner where
  | free | unused | flush | waitDiscard | discard | journal
  | flusher (fl : ℕ)
  | file (id i : ℕ)
deriving DecidableEq

namespace Super

/-- The extents of an owner. -/
def owned (s : Super) (held : ℕ → Finset ℕ) : Owner → Set ℕ
  | .free => s.free
  | .unused => s.unused
  | .flush => s.flush
  | .waitDiscard => s.waitDiscard
  | .discard => s.discard
  | .journal => s.journal
  | .flusher fl => held fl
  | .file id i => {b | (s.extentAt id i).map (·.backend) = some b}

/-- The extents that are in the tree of some file. -/
def bound (s : Super) : Set ℕ := {b | ∃ id i, (s.extentAt id i).map (·.backend) = some b}

/-- The extent partition with its counters. -/
structure ExtentsOk (s : Super) (held : ℕ → Finset ℕ) : Prop where
  keyed : s.Keyed
  parts : Partitions (s.owned held) {b | b < s.totalExtents}
  freeCount : s.freeExtents = s.free.card
  journalCount : s.journalExtents = s.journal.card
  dataCount : s.dataExtents = s.bound.ncard
  fileCount : ∀ (id : ℕ) (f : File), s.filesById[id]? = some f → f.extentCount = f.extents.size
  mapOnce : s.bug ≠ some .mapTwice

variable {s s' : Super} {held : ℕ → Finset ℕ} {f : File} {b i id : ℕ}

theorem mem_bound_iff_owned (held : ℕ → Finset ℕ) :
    b ∈ s.bound ↔ ∃ id i, b ∈ s.owned held (.file id i) := Iff.rfl

theorem bound_subset (h : s.ExtentsOk held) : s.bound ⊆ {b | b < s.totalExtents} := by
  rintro b ⟨id, i, hb⟩
  exact h.parts.1 (.file id i) hb

theorem bound_finite (h : s.ExtentsOk held) : s.bound.Finite :=
  (Set.finite_lt_nat s.totalExtents).subset (bound_subset h)

/-- Only the tables of the files changed, and no extent moved. -/
theorem ExtentsOk.congr (h : s.ExtentsOk held) (hk : s'.Keyed)
    (ho : ∀ o, s'.owned held o = s.owned held o) (ht : s'.totalExtents = s.totalExtents)
    (hfree : s'.freeExtents = s.freeExtents) (hjournal : s'.journalExtents = s.journalExtents)
    (hdata : s'.dataExtents = s.dataExtents)
    (hc : ∀ (id : ℕ) (f : File), s'.filesById[id]? = some f → f.extentCount = f.extents.size)
    (hb : s'.bug ≠ some .mapTwice) : s'.ExtentsOk held := by
  have hbound : s'.bound = s.bound := by
    ext b
    simp only [mem_bound_iff_owned held, ho]
  have hf : s'.free = s.free := by simpa [owned] using ho .free
  have hj : s'.journal = s.journal := by simpa [owned] using ho .journal
  exact ⟨hk, ht ▸ h.parts.congr ho, by rw [hfree, hf, h.freeCount],
    by rw [hjournal, hj, h.journalCount], by rw [hdata, hbound, h.dataCount], hc, hb⟩

/-! ### Moving one extent -/

theorem mem_free_lt (h : s.ExtentsOk held) (hb : b ∈ s.free) : b < s.totalExtents :=
  h.parts.1 .free hb

/-- A free extent is in no file. -/
theorem not_mem_bound_of_free (h : s.ExtentsOk held) (hb : b ∈ s.free) : b ∉ s.bound := by
  rintro ⟨id, i, hi⟩
  exact absurd (h.parts.mem_unique .free (.file id i) hb hi) (by simp)

theorem takeJournal_ok (h : s.ExtentsOk held) (hb : b ∈ s.free) :
    (s.takeJournal b).ExtentsOk held := by
  have hj : b ∉ s.journal := fun hj =>
    absurd (h.parts.mem_unique .free .journal hb hj) (by simp)
  refine ⟨h.keyed, ?_, ?_, ?_, h.dataCount, h.fileCount, h.mapOnce⟩
  · refine h.parts.move .free .journal {b} (by simpa [owned] using hb)
      (by simp) ?_ ?_ ?_
    · ext a; simp [owned, takeJournal, and_comm]
    · ext a; simp [owned, takeJournal]
    · intro o h₁ h₂
      cases o <;> first | rfl | contradiction
  · simp [takeJournal, Finset.card_erase_of_mem hb, h.freeCount]
  · simp [takeJournal, Finset.card_insert_of_notMem hj, h.journalCount]

theorem bound_superToFile (hf : s.filesById[f.id]? = some f) (hi : f.extents[i]? = none) :
    (s.superToFile f b i).bound = insert b s.bound := by
  have hat : s.extentAt f.id i = none := by rw [extentAt_of_file hf, hi]
  ext a
  simp only [bound, Set.mem_ofPred_eq, Set.mem_insert_iff, extentAt_superToFile hi]
  constructor
  · rintro ⟨k, j, hkj⟩
    split_ifs at hkj with hk hj
    · exact .inl (by simpa using hkj.symm)
    · exact .inr ⟨k, j, by rw [hk, extentAt_of_file hf, hkj]⟩
    · exact .inr ⟨k, j, hkj⟩
  · rintro (rfl | ⟨k, j, hkj⟩)
    · exact ⟨f.id, i, by simp⟩
    · refine ⟨k, j, ?_⟩
      split_ifs with hk hj
      · rw [hk, hj, hat] at hkj
        simp at hkj
      · rwa [hk, extentAt_of_file hf] at hkj
      · exact hkj

/-- Mapping a free extent to an unused index of a file. -/
theorem superToFile_ok (h : s.ExtentsOk held) (hf : s.filesById[f.id]? = some f) (hb : b ∈ s.free)
    (hi : f.extents[i]? = none) : (s.superToFile f b i).ExtentsOk held := by
  have hat : s.extentAt f.id i = none := by rw [extentAt_of_file hf, hi]
  have hbound := bound_superToFile (b := b) hf hi
  have hsuper := superToFile_eq (s := s) (b := b) hi
  refine ⟨?_, ?_, ?_, ?_, ?_, ?_, ?_⟩
  · rw [hsuper]
    exact setFile_keyed h.keyed _
  · have ht : (s.superToFile f b i).totalExtents = s.totalExtents := by simp [hsuper, setFile]
    rw [ht]
    refine h.parts.move .free (.file f.id i) {b}
      (by simpa [owned] using hb) (by simp) ?_ ?_ ?_
    · ext a; simp [owned, hsuper, setFile, and_comm]
    · ext a; simp [owned, extentAt_superToFile hi, hat, eq_comm]
    · intro o h₁ h₂
      cases o with
      | file k j =>
          ext a
          simp only [owned, Set.mem_ofPred_eq, extentAt_superToFile hi]
          split_ifs with hk hj
          · simp [hk, hj] at h₂
          · rw [hk, extentAt_of_file hf]
          · rfl
      | free => contradiction
      | _ => simp [owned, hsuper, setFile]
  · simp [hsuper, setFile, Finset.card_erase_of_mem hb, h.freeCount]
  · simp [hsuper, setFile, h.journalCount]
  · rw [hbound, Set.ncard_insert_of_notMem (not_mem_bound_of_free h hb) (bound_finite h),
      ← h.dataCount]
    simp [hsuper, setFile]
  · intro id g hg
    rw [hsuper, filesById_setFile] at hg
    split_ifs at hg with hid
    · obtain rfl := Option.some.inj hg
      have := h.fileCount f.id f hf
      grind
    · exact h.fileCount id g hg
  · simpa [hsuper, setFile] using h.mapOnce

theorem bound_unmapExtent (h : s.ExtentsOk held) {e : Extent} (he : s.extentAt id i = some e) :
    (s.unmapExtent id i).bound = s.bound \ {e.backend} := by
  ext a
  simp only [bound, Set.mem_ofPred_eq, Set.mem_sdiff, Set.mem_singleton_iff,
    extentAt_unmapExtent h.keyed]
  constructor
  · rintro ⟨k, j, hkj⟩
    split_ifs at hkj with hc
    · simp at hkj
    · refine ⟨⟨k, j, hkj⟩, ?_⟩
      rintro rfl
      -- the extent would be bound twice
      have := h.parts.mem_unique (.file k j) (.file id i) hkj (by simp [owned, he])
      simp_all
  · rintro ⟨⟨k, j, hkj⟩, hne⟩
    refine ⟨k, j, ?_⟩
    rw [if_neg]
    · exact hkj
    · rintro ⟨rfl, rfl⟩
      simp [he] at hkj
      exact hne hkj.symm

theorem size_unmapAt (f : File) (hc : f.extentCount = f.extents.size) (i : ℕ) :
    (f.unmapAt i).extentCount = (f.unmapAt i).extents.size := by
  unfold File.unmapAt
  grind

/-- Unmapping a node keeps the partition; the extent is retired to `unused`, or
freed during a replay. -/
theorem unmapExtent_ok (h : s.ExtentsOk held) (id i : ℕ) : (s.unmapExtent id i).ExtentsOk held := by
  cases he : s.extentAt id i with
  | none => rwa [unmapExtent_of_none he]
  | some e =>
      have hmem : e.backend ∈ s.owned held (.file id i) := by simp [owned, he]
      have hb : e.backend ∈ s.bound := ⟨id, i, hmem⟩
      have hnf : e.backend ∉ s.free := fun hf => not_mem_bound_of_free h hf hb
      obtain ⟨hd, hu, hf, hfe, hbug⟩ := unmapExtent_sets he
      obtain ⟨_, _, _, _, _, _, hun⟩ := unmapped_unmapExtent s id i
      have hfile : ∀ k j, (s.unmapExtent id i).owned held (.file k j) =
          if k = id ∧ j = i then ∅ else s.owned held (.file k j) := by
        intro k j
        ext a
        simp only [owned, Set.mem_ofPred_eq, extentAt_unmapExtent h.keyed]
        split_ifs <;> simp
      refine ⟨unmapExtent_keyed h.keyed id i, ?_, ?_, ?_, ?_, ?_, ?_⟩
      · have ht : (s.unmapExtent id i).totalExtents = s.totalExtents := by rw [hun]
        rw [ht]
        refine h.parts.move (.file id i) (if s.ready then .unused else .free) {e.backend}
          (by simpa using hmem) (by split_ifs <;> simp) ?_ ?_ ?_
        · rw [hfile, if_pos ⟨rfl, rfl⟩]
          ext a
          simp [owned, he, eq_comm]
        · split_ifs with hr
          · ext a; simp [owned, hu, hr]
          · ext a; simp [owned, hf, hr]
        · intro o h₁ h₂
          cases o with
          | file k j =>
              rw [hfile, if_neg]
              rintro ⟨rfl, rfl⟩
              exact h₁ rfl
          | free =>
              split_ifs at h₂ with hr
              · simp [owned, hf, hr]
              · contradiction
          | unused =>
              split_ifs at h₂ with hr
              · contradiction
              · simp [owned, hu, hr]
          | _ => simp [owned, hun]
      · rw [hf, hfe]
        split_ifs
        · exact h.freeCount
        · rw [Finset.card_insert_of_notMem hnf, h.freeCount]
      · rw [hun]
        exact h.journalCount
      · rw [bound_unmapExtent h he, Set.ncard_sdiff_singleton_of_mem hb, hd, h.dataCount]
      · intro k g hg
        rw [filesById_unmapExtent h.keyed] at hg
        split_ifs at hg with hk
        · obtain ⟨f, hf, rfl⟩ := Option.map_eq_some_iff.1 hg
          exact size_unmapAt f (h.fileCount id f hf) i
        · exact h.fileCount k g hg
      · rw [hbug]
        split_ifs
        · simp
        · exact h.mapOnce

/-- A change of a file that leaves its extents where they are. -/
theorem updFile_ok (h : s.ExtentsOk held) (id : ℕ) {g : File → File} (hid : ∀ f, (g f).id = f.id)
    (hx : ∀ (f : File) (i : ℕ), ((g f).extents[i]?).map (·.backend) = (f.extents[i]?).map (·.backend))
    (hc : ∀ f : File, f.extentCount = f.extents.size → (g f).extentCount = (g f).extents.size) :
    (s.updFile id g).ExtentsOk held := by
  cases hf : s.filesById[id]? with
  | none => simpa [updFile, hf] using h
  | some f =>
      have hu := filesById_updFile s id g
      have hat : ∀ k j, ((s.updFile id g).extentAt k j).map (·.backend) =
          (s.extentAt k j).map (·.backend) := by
        intro k j
        simp only [extentAt, hu]
        split_ifs with hk
        · simp [hk, hf, hx]
        · rfl
      have hs : s.updFile id g = { s with filesById := s.filesById.insert id (g f) } := by
        simp [updFile, hf]
      refine h.congr ?_ ?_ (by rw [hs]) (by rw [hs]) (by rw [hs]) (by rw [hs]) ?_
        (by rw [hs]; exact h.mapOnce)
      · intro k e he
        rw [hu] at he
        split_ifs at he with hk
        · obtain ⟨f', hf', rfl⟩ := Option.map_eq_some_iff.1 he
          rw [hid, h.keyed id f' hf', hk]
        · exact h.keyed k e he
      · intro o
        cases o with
        | file k j => simp only [owned, hat]
        | _ => simp [owned, hs]
      · intro k e he
        rw [hu] at he
        split_ifs at he with hk
        · obtain ⟨f', hf', rfl⟩ := Option.map_eq_some_iff.1 he
          exact hc f' (h.fileCount id f' hf')
        · exact h.fileCount k e he

theorem setFile_ok (h : s.ExtentsOk held) {g : File} (hf : s.filesById[g.id]? = some f)
    (hx : ∀ i : ℕ, (g.extents[i]?).map (·.backend) = (f.extents[i]?).map (·.backend))
    (hc : g.extentCount = g.extents.size) : (s.setFile g).ExtentsOk held := by
  refine h.congr (setFile_keyed h.keyed g) ?_ rfl rfl rfl rfl ?_ h.mapOnce
  · intro o
    cases o with
    | file k j =>
        simp only [owned, extentAt_setFile]
        split_ifs with hk
        · rw [hk, extentAt_of_file hf, hx]
        · rfl
    | _ => rfl
  · intro k e he
    rw [filesById_setFile] at he
    split_ifs at he with hk
    · obtain rfl := Option.some.inj he
      exact hc
    · exact h.fileCount k e he

theorem foldl_unmapExtent_ok (h : s.ExtentsOk held) (id : ℕ) (ks : List ℕ) :
    (ks.foldl (fun s i => s.unmapExtent id i) s).ExtentsOk held := by
  induction ks generalizing s with
  | nil => exact h
  | cons k ks ih => exact ih (unmapExtent_ok h id k)

theorem truncateFile_ok (h : s.ExtentsOk held) (f : File) (size : ℕ) :
    (s.truncateFile f size).ExtentsOk held :=
  updFile_ok (foldl_unmapExtent_ok h f.id _) f.id (fun _ => rfl) (fun _ _ => rfl) fun _ h => h

/-! ### The functions on files -/

theorem initFile_ok {name : FileName} {parent : Option File} (h : s.ExtentsOk held)
    (hp : ∀ p ∈ parent, s.filesById[p.id]? = some p) (hi : s.initFile name id parent = .ok s') :
    s'.ExtentsOk held := by
  obtain ⟨hid, -, rfl⟩ := initFile_eq_ok.1 hi
  -- the new file has no extents
  have hnew : (s.setFile (newFile name id parent)).ExtentsOk held := by
    refine h.congr (setFile_keyed h.keyed _) ?_ rfl rfl rfl rfl ?_ h.mapOnce
    · intro o
      cases o with
      | file k j =>
          ext a
          simp only [owned, extentAt_setFile, Set.mem_ofPred_eq]
          split_ifs with hk
          · have : s.extentAt k j = none := by simp [extentAt, hk, newFile, hid]
            simp [this, newFile]
          · rfl
      | _ => rfl
    · intro k e he
      rw [filesById_setFile] at he
      split_ifs at he with hk
      · obtain rfl := Option.some.inj he
        simp [newFile]
      · exact h.fileCount k e he
  cases parent with
  | none => exact ⟨hnew.keyed, hnew.parts, hnew.freeCount, hnew.journalCount, hnew.dataCount,
      hnew.fileCount, hnew.mapOnce⟩
  | some p =>
      have hps := hp p rfl
      have hne : p.id ≠ id := by
        intro he
        simp [he, hid] at hps
      have hchild := setFile_ok (g := { p with children := p.children + 1 }) (f := p) hnew
        (by simpa [newFile, hne] using hps) (fun _ => rfl) (h.fileCount p.id p hps)
      exact ⟨hchild.keyed, hchild.parts, hchild.freeCount, hchild.journalCount, hchild.dataCount,
        hchild.fileCount, hchild.mapOnce⟩

theorem renameFile_ok (h : s.ExtentsOk held) (hf : s.filesById[f.id]? = some f) (name : FileName) :
    (s.renameFile f name).ExtentsOk held := by
  have := setFile_ok (g := { f with name := name }) h hf (fun _ => rfl) (h.fileCount f.id f hf)
  exact ⟨this.keyed, this.parts, this.freeCount, this.journalCount, this.dataCount,
    this.fileCount, this.mapOnce⟩

theorem deleteFile_ok (h : s.ExtentsOk held) (hf : s.filesById[f.id]? = some f) :
    (s.deleteFile f).ExtentsOk held := by
  have ht := truncateFile_ok h f 0
  have hfiles := filesById_truncateFile h.keyed hf 0
  have herase : ∀ k : ℕ, ((s.truncateFile f 0).filesById.erase f.id)[k]? =
      if k = f.id then none else (s.truncateFile f 0).filesById[k]? := by
    intro k
    grind
  have hdel : ∀ byName n, { s.truncateFile f 0 with
      filesById := (s.truncateFile f 0).filesById.erase f.id
      filesByName := byName
      files := n }.ExtentsOk held := by
    intro byName n
    refine ht.congr ?_ ?_ rfl rfl rfl rfl ?_ ht.mapOnce
    · intro k g hg
      rw [herase] at hg
      split_ifs at hg with hk
      exact ht.keyed k g hg
    · intro o
      cases o with
      | file k j =>
          ext a
          simp only [owned, extentAt, herase, Set.mem_ofPred_eq]
          split_ifs with hk
          · simp [hfiles, hk, extents_unmapAll_zero]
          · rfl
      | _ => rfl
    · intro k g hg
      rw [herase] at hg
      split_ifs at hg with hk
      exact ht.fileCount k g hg
  unfold deleteFile
  cases f.parent with
  | none => exact hdel _ _
  | some p => exact updFile_ok (hdel _ _) p (fun _ => rfl) (fun _ _ => rfl) fun _ h => h

/-- **Replay keeps the partition.** -/
theorem Replayed.extentsOk {e : Entry} (h : s.ExtentsOk held) (hr : s.Replayed e s') :
    s'.ExtentsOk held := by
  have hid : ∀ {id : ℕ} {f : File}, s.filesById[id]? = some f → s.filesById[f.id]? = some f :=
    fun hf => by rw [h.keyed _ _ hf]; exact hf
  cases hr with
  | create hn h0 hlimit hlookup hi => exact initFile_ok h (by simp) hi
  | fork hn h0 hlt hlimit hlookup hp hi => exact initFile_ok h (by rintro _ ⟨⟩; exact hid hp) hi
  | truncate hs hf hc => exact truncateFile_ok h _ _
  | delete hf hc => exact deleteFile_ok h (hid hf)
  | bind hf hi hsize hb hfree hnone => exact superToFile_ok h (hid hf) hfree hnone
  | unbind hf hi hsize he => exact unmapExtent_ok h _ _
  | rename hn hf hlookup => exact renameFile_ok h (hid hf) _
  | next hb hfree => exact takeJournal_ok h hfree

/-- **The operations keep the partition.** -/
theorem Op.extentsOk {j : JEntry} (h : s.ExtentsOk held) (ho : s.Op j s') : s'.ExtentsOk held := by
  cases ho with
  | create hn hs hlimit hmax hlookup hi => exact initFile_ok h (by simp) hi
  | fork hn hs hlimit hmax hp hmode hlookup hi => exact initFile_ok h (by rintro _ ⟨⟩; exact hp) hi
  | rename hn hs hlookup hf => exact renameFile_ok h hf _
  | truncate hv hs hf hmode hc => exact truncateFile_ok h _ _
  | delete hs hf hmode hc => exact deleteFile_ok h hf
  | bind hs hf hmode hi hsize hroom hb hnone => exact superToFile_ok h hf hb hnone
  | unbind hs hf hmode hi hsize he hp herr => exact unmapExtent_ok h _ _

/-- Marking a node leaves its extent where it is. -/
theorem markExtent_ok (h : s.ExtentsOk held) (id i : ℕ) {m : Extent → Extent}
    (hm : ∀ e, (m e).backend = e.backend) :
    (s.updFile id fun f => f.markExtent i m).ExtentsOk held := by
  refine updFile_ok h id (fun f => ?_) (fun f j => ?_) fun f hc => ?_
  · unfold File.markExtent
    split <;> rfl
  · unfold File.markExtent
    split
    · rename_i e he
      by_cases hj : j = i
      · subst hj
        simp [he, hm]
      · grind
    · rfl
  · unfold File.markExtent
    split
    · simp only
      grind
    · exact hc

theorem opened_ok (total : ℕ) (discard compact : Bool) (uuid : Uuid) (page : Buf) :
    (Super.opened total discard compact uuid page).ExtentsOk fun _ => ∅ := by
  have hbound : (Super.opened total discard compact uuid page).bound = ∅ := by
    ext a
    simp [bound, extentAt, opened]
  refine ⟨?_, .of_owner (fun _ => .free) ?_, by simp [opened], by simp [opened], ?_, ?_, by simp [opened]⟩
  · intro id f hf
    simp [opened] at hf
  · intro o a
    cases o <;> simp [owned, opened, extentAt]
  · rw [hbound]
    simp [opened]
  · intro id f hf
    simp [opened] at hf

end Super

end Cyanfs
