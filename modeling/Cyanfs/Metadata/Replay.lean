/-
# Replay computes the abstract metadata

A super that entries are replayed into, before the extents of the chain are
taken out as NEXT entries, has no extent outside `free_extents` and the files
(`Clean`).  There `__cyanfs_super_journal_replay` accepts exactly the entries
that the abstract model admits, and leads to the metadata that the model computes
(`Replaying.replay`); `replayAll_of_accepts` is the same for lists.
-/

import Cyanfs.Metadata.Table
import Cyanfs.Extents.Owned

namespace Cyanfs

open Lib Std

namespace Super

variable {s s' : Super} {f : File} {b i id total : ℕ} {e : Entry}

/-- Nothing but files and free extents, and no copy under way. -/
structure Clean (s : Super) : Prop where
  ready : s.ready = false
  bug : s.bug = none
  unused : s.unused = ∅
  flush : s.flush = ∅
  waitDiscard : s.waitDiscard = ∅
  discard : s.discard = ∅
  journal : s.journal = ∅
  settled : ∀ id i x, s.extentAt id i = some x → x.pending = false ∧ x.error = false

/-- A super that entries are replayed into. -/
structure Replaying (s : Super) (total : ℕ) : Prop where
  rep : s.Rep
  wf : s.metadata.WF total
  extents : s.ExtentsOk fun _ => ∅
  total : s.totalExtents = total
  clean : s.Clean

/-- No copy is under way and none has failed. -/
def Settled (s : Super) : Prop := ∀ id i x, s.extentAt id i = some x →
  x.pending = false ∧ x.error = false

/-- A super in the middle of a mount, also while the extents of the chain are
taken out. -/
structure Loading (s : Super) (held : ℕ → Finset ℕ) (total : ℕ) : Prop where
  rep : s.Rep
  wf : s.metadata.WF total
  extents : s.ExtentsOk held
  total : s.totalExtents = total
  settled : s.Settled

theorem Replaying.loading (h : s.Replaying total) : s.Loading (fun _ => ∅) total :=
  ⟨h.rep, h.wf, h.extents, h.total, h.clean.settled⟩

/-! ### Clean supers -/

theorem Clean.unmapExtent (h : s.Clean) (hk : s.Keyed) (id i : ℕ) : (s.unmapExtent id i).Clean := by
  cases he : s.extentAt id i with
  | none => rwa [unmapExtent_of_none he]
  | some x =>
      obtain ⟨-, hu, -, -, hb⟩ := unmapExtent_sets he
      obtain ⟨_, _, _, _, _, _, hs⟩ := unmapped_unmapExtent s id i
      have hx := (h.settled id i x he).1
      refine ⟨by rw [hs]; exact h.ready, ?_, ?_, by rw [hs]; exact h.flush,
        by rw [hs]; exact h.waitDiscard, by rw [hs]; exact h.discard, by rw [hs]; exact h.journal, ?_⟩
      · rw [hb, hx]
        exact h.bug
      · rw [hu, h.ready]
        exact h.unused
      · intro k j y hy
        rw [extentAt_unmapExtent hk] at hy
        split_ifs at hy
        exact h.settled k j y hy

theorem Clean.foldl_unmapExtent (h : s.Clean) (hk : s.Keyed) (id : ℕ) (ks : List ℕ) :
    (ks.foldl (fun s i => s.unmapExtent id i) s).Clean := by
  induction ks generalizing s with
  | nil => exact h
  | cons k ks ih => exact ih (h.unmapExtent hk id k) (unmapExtent_keyed hk id k)

/-- Only files changed, and no node was added or marked. -/
theorem Clean.of_files (h : s.Clean) {filesById : ExtTreeMap ℕ File}
    {filesByName : FileName → Option ℕ} {files maxFileId : ℕ}
    (hx : ∀ (id i : ℕ) (x : Extent), ((filesById[id]?).bind fun f : File => f.extents[i]?) = some x →
      ∃ k, s.extentAt k i = some x) :
    Clean { s with
      filesById := filesById
      filesByName := filesByName
      files := files
      maxFileId := maxFileId } := by
  refine ⟨h.ready, h.bug, h.unused, h.flush, h.waitDiscard, h.discard, h.journal, ?_⟩
  intro id i x hi
  obtain ⟨k, hk⟩ := hx id i x hi
  exact h.settled k i x hk

theorem Clean.truncateFile (h : s.Clean) (hk : s.Keyed) (f : File) (size : ℕ) :
    (s.truncateFile f size).Clean := by
  have hf := h.foldl_unmapExtent hk f.id (truncateKeys f size)
  unfold Super.truncateFile updFile
  split
  · rename_i g hg
    refine hf.of_files fun id i x hi => ?_
    refine ⟨id, ?_⟩
    rw [ExtTreeMap.getElem?_insert] at hi
    unfold extentAt
    split_ifs at hi with hid
    · have : id = f.id := by
        have := Nat.compare_eq_eq.1 hid
        omega
      rw [this, hg]
      exact hi
    · exact hi
  · exact hf

theorem Clean.deleteFile (h : s.Clean) (hk : s.Keyed) (hf : s.filesById[f.id]? = some f) :
    (s.deleteFile f).Clean := by
  have ht := h.truncateFile hk f 0
  have hfiles := filesById_deleteFile hk hf
  obtain ⟨t, hd⟩ := deleteFile_shape s f
  rw [hd] at hfiles ⊢
  refine ht.of_files fun id i x hi => ?_
  have hid := hfiles id
  simp only at hid
  rw [hid] at hi
  -- the nodes of the other files are those of before, which are clean
  have hback : ∀ k, k ≠ f.id → (s.truncateFile f 0).extentAt k i = s.extentAt k i := by
    intro k hk'
    simp only [extentAt, filesById_truncateFile hk hf, if_neg hk']
  split_ifs at hi with h₁ h₂
  · simp at hi
  · refine ⟨id, ?_⟩
    rw [hback id h₁, extentAt]
    cases hg : s.filesById[id]? with
    | none =>
        rw [hg] at hi
        simp at hi
    | some g =>
        rw [hg] at hi
        exact hi
  · exact ⟨id, by rw [hback id h₁]; exact hi⟩

theorem Clean.superToFile (h : s.Clean) (hf : s.filesById[f.id]? = some f)
    (hi : f.extents[i]? = none) : (s.superToFile f b i).Clean := by
  have hs := superToFile_eq (s := s) (b := b) hi
  refine ⟨by rw [hs]; exact h.ready, by rw [hs]; exact h.bug, by rw [hs]; exact h.unused,
    by rw [hs]; exact h.flush, by rw [hs]; exact h.waitDiscard, by rw [hs]; exact h.discard,
    by rw [hs]; exact h.journal, ?_⟩
  intro k j x hx
  rw [extentAt_superToFile hi] at hx
  split_ifs at hx with hk hj
  · obtain rfl := Option.some.inj hx
    exact ⟨rfl, rfl⟩
  · exact h.settled f.id j x (by rw [extentAt_of_file hf]; exact hx)
  · exact h.settled k j x hx

theorem Clean.initFile {name : FileName} {parent : Option File} (h : s.Clean)
    (hi : s.initFile name id parent = .ok s') (hp : ∀ p ∈ parent, s.filesById[p.id]? = some p) :
    s'.Clean := by
  have hfiles := filesById_initFile hi hp
  obtain ⟨-, -, hs⟩ := initFile_eq_ok.1 hi
  have hback : ∀ k j x, s'.extentAt k j = some x → s.extentAt k j = some x := by
    intro k j x hx
    rw [extentAt, hfiles] at hx
    split_ifs at hx with h₁ h₂
    · simp [newFile] at hx
    · rw [extentAt]
      cases hg : s.filesById[k]? with
      | none =>
          rw [hg] at hx
          simp at hx
      | some g =>
          rw [hg] at hx
          exact hx
    · exact hx
  have hset : ∀ k j x, s'.extentAt k j = some x → x.pending = false ∧ x.error = false :=
    fun k j x hx => h.settled k j x (hback k j x hx)
  rw [hs] at hset ⊢
  cases parent <;>
    exact ⟨h.ready, h.bug, h.unused, h.flush, h.waitDiscard, h.discard, h.journal, hset⟩

theorem Clean.renameFile (h : s.Clean) (hf : s.filesById[f.id]? = some f) (name : FileName) :
    (s.renameFile f name).Clean := by
  refine ⟨h.ready, h.bug, h.unused, h.flush, h.waitDiscard, h.discard, h.journal, ?_⟩
  intro k j x hx
  have : (s.setFile { f with name := name }).extentAt k j = some x := hx
  rw [extentAt_setFile] at this
  split_ifs at this with hk
  · exact h.settled f.id j x (by rw [extentAt_of_file hf]; exact this)
  · exact h.settled k j x this

/-! ### Settled nodes -/

/-- The nodes left by a truncation. -/
theorem extentAt_truncateFile (hk : s.Keyed) (hf : s.filesById[f.id]? = some f) (size k j : ℕ) :
    (s.truncateFile f size).extentAt k j =
      if k = f.id ∧ j ∈ truncateKeys f size then none else s.extentAt k j := by
  simp only [extentAt, filesById_truncateFile hk hf]
  by_cases hkf : k = f.id
  · subst hkf
    obtain ⟨x, c, hu⟩ := f.unmapAll_eq (truncateKeys f size)
    have hx : x[j]? = (f.unmapAll (truncateKeys f size)).extents[j]? := by rw [hu]
    simp only [if_true, true_and, hf, Option.bind_some]
    rw [hu]
    simp only
    rw [hx, File.extents_unmapAll]
  · simp [hkf]

/-- Creating and forking a file leaves the nodes alone. -/
theorem extentAt_initFile {name : FileName} {parent : Option File}
    (hi : s.initFile name id parent = .ok s') (hp : ∀ p ∈ parent, s.filesById[p.id]? = some p)
    (k j : ℕ) : s'.extentAt k j = s.extentAt k j := by
  have hnone := (initFile_eq_ok.1 hi).1
  simp only [extentAt, filesById_initFile hi hp]
  split_ifs with h₁ h₂
  · simp [h₁, hnone, newFile]
  · cases s.filesById[k]? <;> rfl
  · rfl

theorem extentAt_renameFile (hf : s.filesById[f.id]? = some f) (name : FileName) (k j : ℕ) :
    (s.renameFile f name).extentAt k j = s.extentAt k j := by
  have : (s.setFile { f with name := name }).extentAt k j = s.extentAt k j := by
    rw [extentAt_setFile]
    split_ifs with hkf
    · rw [hkf, extentAt_of_file hf]
    · rfl
  exact this

/-- The nodes left by a deletion. -/
theorem extentAt_deleteFile (hk : s.Keyed) (hf : s.filesById[f.id]? = some f) (k j : ℕ) :
    (s.deleteFile f).extentAt k j = if k = f.id then none else s.extentAt k j := by
  simp only [extentAt, filesById_deleteFile hk hf]
  split_ifs with h₁ h₂
  · rfl
  · cases s.filesById[k]? <;> rfl
  · rfl

/-- A node of a super that an entry was replayed into was there before, or it is
the one that a BIND adds. -/
theorem Replayed.settled (hk : s.Keyed) (hr : s.Replayed e s') (h : s.Settled) : s'.Settled := by
  have key : ∀ {id : ℕ} {f : File}, s.filesById[id]? = some f → s.filesById[f.id]? = some f :=
    fun hf => by rw [hk _ _ hf]; exact hf
  intro k j x hx
  cases hr with
  | create hn h0 hlimit hlookup hi =>
      rw [extentAt_initFile hi (by simp)] at hx
      exact h k j x hx
  | fork hn h0 hlt hlimit hlookup hp hi =>
      rw [extentAt_initFile hi (by rintro _ ⟨⟩; exact key hp)] at hx
      exact h k j x hx
  | truncate hs hf hc =>
      rw [extentAt_truncateFile hk (key hf)] at hx
      split_ifs at hx
      exact h k j x hx
  | delete hf hc =>
      rw [extentAt_deleteFile hk (key hf)] at hx
      split_ifs at hx
      exact h k j x hx
  | @bind id i b f hf hi hsize hb hfree hnone =>
      rw [extentAt_superToFile hnone] at hx
      split_ifs at hx with hkf hji
      · obtain rfl := Option.some.inj hx
        exact ⟨rfl, rfl⟩
      · exact h f.id j x (by rw [extentAt_of_file (key hf)]; exact hx)
      · exact h k j x hx
  | unbind hf hi hsize hx' =>
      rw [extentAt_unmapExtent hk] at hx
      split_ifs at hx
      exact h k j x hx
  | rename hn hf hlookup =>
      rw [extentAt_renameFile (key hf)] at hx
      exact h k j x hx
  | next hb hfree => exact h k j x hx

/-! ### One entry -/

theorem Settled.map_eq (h : s.Settled) (hf : s.filesById[id]? = some f) (i : ℕ) :
    f.info.map i = (f.extents[i]?).map (·.backend) := by
  simp only [File.info]
  cases hx : f.extents[i]? with
  | none => rfl
  | some x =>
      have := h id i x (by rw [extentAt_of_file hf, hx])
      simp [Extent.settled, this]

/-- The node of a file is determined by the metadata. -/
theorem Settled.extentAt_eq (h : s.Settled) (id i : ℕ) : s.extentAt id i =
    ((s.metadata.files id).bind fun f => f.map i).map fun b => ⟨b, false, false⟩ := by
  rw [← extentAt_bind_settled]
  cases hx : s.extentAt id i with
  | none => rfl
  | some x =>
      obtain ⟨hp, he⟩ := h id i x hx
      obtain ⟨b, p, e⟩ := x
      simp only at hp he
      subst hp he
      rfl

theorem Settled.mem_bound (h : s.Settled) : b ∈ s.metadata.bound ↔ b ∈ s.bound := by
  constructor
  · rintro ⟨id, g, i, hg, hb⟩
    obtain ⟨f, hf, rfl⟩ := metadata_files_eq_some.1 hg
    rw [h.map_eq hf] at hb
    exact ⟨id, i, by rw [extentAt_of_file hf]; exact hb⟩
  · rintro ⟨id, i, hb⟩
    obtain ⟨x, hx, rfl⟩ := Option.map_eq_some_iff.1 hb
    obtain ⟨f, hf, hi⟩ := extentAt_eq_some.1 hx
    refine ⟨id, f.info, i, metadata_files_of hf, ?_⟩
    rw [h.map_eq hf, hi]
    rfl

theorem Replaying.settled (h : s.Replaying total) : s.Settled := h.clean.settled

theorem Clean.replayed (h : s.Clean) (hk : s.Keyed) (he : e.Regular) (hr : s.Replayed e s') :
    s'.Clean := by
  have key : ∀ {id : ℕ} {f : File}, s.filesById[id]? = some f → s.filesById[f.id]? = some f :=
    fun hf => by rw [hk _ _ hf]; exact hf
  cases hr with
  | create hn h0 hlimit hlookup hi => exact h.initFile hi (by simp)
  | fork hn h0 hlt hlimit hlookup hp hi =>
      exact h.initFile hi (by rintro _ ⟨⟩; exact key hp)
  | truncate hs hf hc => exact h.truncateFile hk _ _
  | delete hf hc => exact h.deleteFile hk (key hf)
  | bind hf hi hsize hb hfree hnone => exact h.superToFile (key hf) hnone
  | unbind hf hi hsize hx => exact h.unmapExtent hk _ _
  | rename hn hf hlookup => exact h.renameFile (key hf) _
  | next hb hfree => exact absurd rfl he

namespace Loading

variable {held : ℕ → Finset ℕ}

theorem index_le (h : s.Loading held total) (hf : s.filesById[id]? = some f) (i : ℕ)
    (hi : f.extents[i]? ≠ none) : i ≤ extentIndexMax := by
  obtain ⟨x, hx⟩ := Option.ne_none_iff_exists'.1 hi
  have hm : f.info.map i = some x.backend := by
    rw [h.settled.map_eq hf, hx]
    rfl
  exact (h.wf.range id f.info i x.backend (metadata_files_of hf) hm).1

theorem keyed_file (h : s.Loading held total) (hf : s.filesById[id]? = some f) :
    s.filesById[f.id]? = some f := by
  rw [h.rep.keyed id f hf]
  exact hf

/-- What the replay accepts makes sense, and it does what the model says. -/
theorem replayed (h : s.Loading held total) (hr : s.Replayed e s') :
    (e.Regular → s.metadata.Admits total e) ∧ s'.metadata = s.metadata.after e ∧ s'.Rep := by
  cases hr with
  | @create id raw name _ hn h0 hlimit hlookup hi =>
      have hstored : raw.stored = name := by simp [FileName.stored, hn]
      have hid : id ∉ s.metadata.ids := by
        rw [mem_metadata_ids, (initFile_eq_ok.1 hi).1]
        simp
      have hfree := h.rep.lookupByName_eq_none.1 hlookup
      refine ⟨fun _ => ⟨by simp [hn], h0, hid, hstored ▸ hfree, h.rep.files ▸ hlimit⟩, ?_,
        h.rep.initFile h.wf hi (by simp) hfree⟩
      rw [metadata_initFile hi (by simp), ← hstored]
      rfl
  | @fork id pid raw name p _ hn h0 hlt hlimit hlookup hp hi =>
      have hstored : raw.stored = name := by simp [FileName.stored, hn]
      have hid : id ∉ s.metadata.ids := by
        rw [mem_metadata_ids, (initFile_eq_ok.1 hi).1]
        simp
      have hfree := h.rep.lookupByName_eq_none.1 hlookup
      have hpid := h.rep.keyed pid p hp
      have hkeyed : ∀ q ∈ some p, s.filesById[q.id]? = some q := by
        rintro _ ⟨⟩
        exact h.keyed_file hp
      refine ⟨fun _ => ⟨⟨by simp [hn], h0, hid, hstored ▸ hfree, h.rep.files ▸ hlimit⟩, hlt,
        mem_metadata_ids.2 ⟨p, hp⟩⟩, ?_, h.rep.initFile h.wf hi hkeyed hfree⟩
      rw [metadata_initFile hi hkeyed, ← hstored]
      simp [Metadata.after, Metadata.forked, metadata_files_of hp, hpid, File.info]
  | @truncate id size f hs hf hc =>
      have hid := h.rep.keyed id f hf
      have hf' := h.keyed_file hf
      refine ⟨fun _ => ⟨hs, mem_metadata_ids.2 ⟨f, hf⟩, (h.rep.children_eq_zero h.wf hf).1 hc⟩, ?_,
        h.rep.truncateFile hf' size⟩
      rw [metadata_truncateFile h.rep.keyed hf' hs, hid]
      rfl
  | @delete id f hf hc =>
      have hid := h.rep.keyed id f hf
      have hf' := h.keyed_file hf
      refine ⟨fun _ => ⟨mem_metadata_ids.2 ⟨f, hf⟩, (h.rep.children_eq_zero h.wf hf).1 hc⟩, ?_,
        h.rep.deleteFile h.wf hf'⟩
      rw [metadata_deleteFile h.rep.keyed hf', hid]
      rfl
  | @bind id i b f hf hi hsize hb hfree hnone =>
      have hid := h.rep.keyed id f hf
      have hf' := h.keyed_file hf
      have hlt := h.total ▸ mem_free_lt h.extents hfree
      have hbound : b ∉ s.metadata.bound := fun hm =>
        not_mem_bound_of_free h.extents hfree (h.settled.mem_bound.1 hm)
      refine ⟨fun _ => ⟨hi, hlt, hbound, f.info, metadata_files_of hf, hsize, ?_⟩, ?_,
        h.rep.superToFile hf' hnone⟩
      · rw [h.settled.map_eq hf, hnone]
        rfl
      · rw [metadata_superToFile hf' hnone, hid]
        rfl
  | @unbind id i f x hf hi hsize hx =>
      have hid := h.rep.keyed id f hf
      refine ⟨fun _ => ⟨hi, f.info, metadata_files_of hf, hsize, ?_⟩, ?_, h.rep.unmapExtent _ _⟩
      · rw [h.settled.map_eq hf, hx]
        simp
      · rw [metadata_unmapExtent h.rep.keyed, hid]
        rfl
  | @rename id raw name f hn hf hlookup =>
      have hid := h.rep.keyed id f hf
      have hf' := h.keyed_file hf
      have hstored : raw.stored = name := by simp [FileName.stored, hn]
      have hsub : s.metadata.named name ⊆ {id} := by
        intro k hk
        obtain ⟨g, hg, -⟩ := mem_named.1 hk
        have hl : s.lookupByName name = some g := by
          rw [lookupByName, (h.rep.byName name k).2 hk]
          exact hg
        rw [Set.mem_singleton_iff, ← h.rep.keyed k g hg, hlookup g hl, hid]
      refine ⟨fun _ => ⟨by simp [hn], mem_metadata_ids.2 ⟨f, hf⟩, hstored ▸ hsub⟩, ?_,
        h.rep.renameFile hf' (hid ▸ hsub)⟩
      rw [metadata_renameFile hf', hid, ← hstored]
      rfl
  | @next b hb hfree =>
      have hm : s.MetaEq (s.takeJournal b) := .takeJournal s b
      exact ⟨fun he => absurd rfl he, hm.metadata, hm.rep h.rep⟩

/-- **A mount that goes on stays sound**, whatever entry it reads. -/
theorem replay (h : s.Loading held total) (hr : s.replay e = .ok s') : s'.Loading held total := by
  have hr := replay_eq_ok.1 hr
  obtain ⟨ha, hm, hrep⟩ := h.replayed hr
  refine ⟨hrep, ?_, hr.extentsOk h.extents, hr.totalExtents.trans h.total,
    hr.settled h.rep.keyed h.settled⟩
  rw [hm]
  by_cases he : e.Regular
  · exact h.wf.after (ha he)
  · cases e with
    | next b => exact h.wf
    | _ => exact absurd (by simp [Entry.Regular, Entry.type]) he

theorem cursor (h : s.Loading held total) (c : Cursor) :
    Loading { s with cursor := c } held total :=
  ⟨h.rep.congr h.rep.keyed rfl rfl fun _ => rfl, h.wf, ⟨h.extents.1, h.extents.2, h.extents.3,
    h.extents.4, h.extents.5, h.extents.6, h.extents.7⟩, h.total, h.settled⟩

end Loading

namespace Replaying


theorem mem_free (h : s.Replaying total) : b ∈ s.free ↔ b < total ∧ b ∉ s.metadata.bound := by
  have hp := h.extents.parts
  rw [h.total] at hp
  rw [h.settled.mem_bound]
  constructor
  · intro hb
    exact ⟨hp.1 .free hb, not_mem_bound_of_free h.extents hb⟩
  · rintro ⟨hb, hnot⟩
    obtain ⟨o, ho, -⟩ := hp.2 b hb
    cases o with
    | free => exact ho
    | file id i => exact absurd ⟨id, i, ho⟩ hnot
    | unused | flush | waitDiscard | discard | journal | flusher fl =>
        simp [owned, h.clean.unused, h.clean.flush, h.clean.waitDiscard, h.clean.discard,
          h.clean.journal] at ho

/-- What the replay accepts makes sense, and it does what the model says. -/
theorem replayed (h : s.Replaying total) (he : e.Regular) (hr : s.Replayed e s') :
    s.metadata.Admits total e ∧ s'.metadata = s.metadata.after e ∧ s'.Rep ∧ s'.Clean := by
  obtain ⟨ha, hm, hrep⟩ := h.loading.replayed hr
  exact ⟨ha he, hm, hrep, h.clean.replayed h.rep.keyed he hr⟩

/-- What makes sense is accepted. -/
theorem exists_replayed (h : s.Replaying total) (ht : total ≤ extentCountMax)
    (ha : s.metadata.Admits total e) : ∃ s', s.Replayed e s' := by
  have hadd : ∀ {id : ℕ} {raw : FileName}, s.metadata.CanAdd id raw →
      ∃ name, raw.normalize = some name ∧ s.files < superMaxFiles ∧ s.lookupByName name = none ∧
        ∀ parent, ∃ s', s.initFile name id parent = .ok s' := by
    rintro id raw ⟨hraw, -, hid, hfree, hcount⟩
    obtain ⟨name, hn⟩ := Option.ne_none_iff_exists'.1 hraw
    have hstored : raw.stored = name := by simp [FileName.stored, hn]
    rw [hstored] at hfree
    refine ⟨name, hn, h.rep.files ▸ hcount, h.rep.lookupByName_eq_none.2 hfree, fun parent =>
      ⟨_, initFile_eq_ok.2 ⟨?_, h.rep.filesByName_eq_none hfree, rfl⟩⟩⟩
    rw [mem_metadata_ids] at hid
    simpa [Option.eq_none_iff_forall_ne_some] using hid
  cases e with
  | create id raw =>
      obtain ⟨name, hn, hcount, hl, hi⟩ := hadd ha
      obtain ⟨s', hs'⟩ := hi none
      exact ⟨s', .create hn ha.2.1 hcount hl hs'⟩
  | fork id pid raw =>
      obtain ⟨hc, hlt, hpid⟩ := ha
      obtain ⟨name, hn, hcount, hl, hi⟩ := hadd hc
      obtain ⟨p, hp⟩ := mem_metadata_ids.1 hpid
      obtain ⟨s', hs'⟩ := hi (some p)
      exact ⟨s', .fork hn hc.2.1 hlt hcount hl hp hs'⟩
  | truncate id size =>
      obtain ⟨hv, hid, hc⟩ := ha
      obtain ⟨f, hf⟩ := mem_metadata_ids.1 hid
      exact ⟨_, .truncate hv hf ((h.rep.children_eq_zero h.wf hf).2 hc)⟩
  | delete id =>
      obtain ⟨hid, hc⟩ := ha
      obtain ⟨f, hf⟩ := mem_metadata_ids.1 hid
      exact ⟨_, .delete hf ((h.rep.children_eq_zero h.wf hf).2 hc)⟩
  | bind id i b =>
      obtain ⟨hi, hb, hbound, g, hg, hsize, hnone⟩ := ha
      obtain ⟨f, hf, rfl⟩ := metadata_files_eq_some.1 hg
      rw [h.settled.map_eq hf, Option.map_eq_none_iff] at hnone
      refine ⟨_, .bind hf hi hsize ?_ (h.mem_free.2 ⟨hb, hbound⟩) hnone⟩
      simp only [extentIndexMax, extentCountMax] at *
      omega
  | unbind id i =>
      obtain ⟨hi, g, hg, hsize, hsome⟩ := ha
      obtain ⟨f, hf, rfl⟩ := metadata_files_eq_some.1 hg
      rw [h.settled.map_eq hf, ne_eq, Option.map_eq_none_iff, ← ne_eq,
        Option.ne_none_iff_exists'] at hsome
      obtain ⟨x, hx⟩ := hsome
      exact ⟨_, .unbind hf hi hsize hx⟩
  | rename id raw =>
      obtain ⟨hraw, hid, hsub⟩ := ha
      obtain ⟨name, hn⟩ := Option.ne_none_iff_exists'.1 hraw
      have hstored : raw.stored = name := by simp [FileName.stored, hn]
      rw [hstored] at hsub
      obtain ⟨f, hf⟩ := mem_metadata_ids.1 hid
      refine ⟨_, .rename hn hf fun p hp => ?_⟩
      unfold lookupByName at hp
      split at hp
      · rename_i k hk
        obtain rfl : k = id := hsub ((h.rep.byName name k).1 hk)
        rw [hf] at hp
        exact (Option.some.inj hp ▸ rfl)
      · cases hp
  | next b => exact ha.elim

/-- **One entry**: the replay accepts it exactly when it makes sense, and then
computes what the model says. -/
theorem replay_iff (h : s.Replaying total) (ht : total ≤ extentCountMax) (he : e.Regular) :
    (∃ s', s.replay e = .ok s') ↔ s.metadata.Admits total e := by
  constructor
  · rintro ⟨s', hr⟩
    exact (h.replayed he (replay_eq_ok.1 hr)).1
  · intro ha
    obtain ⟨s', hr⟩ := h.exists_replayed ht ha
    exact ⟨s', replay_eq_ok.2 hr⟩

theorem replay (h : s.Replaying total) (he : e.Regular) (hr : s.replay e = .ok s') :
    s'.Replaying total ∧ s'.metadata = s.metadata.after e := by
  have hr := replay_eq_ok.1 hr
  obtain ⟨ha, hm, hrep, hclean⟩ := h.replayed he hr
  exact ⟨⟨hrep, hm ▸ h.wf.after ha, hr.extentsOk h.extents, hr.totalExtents.trans h.total, hclean⟩, hm⟩

end Replaying

theorem replaying_opened (total : ℕ) (discard compact : Bool) (uuid : Uuid) (page : Buf) :
    (Super.opened total discard compact uuid page).Replaying total := by
  refine ⟨rep_opened .., ?_, opened_ok .., rfl, rfl, rfl, rfl, rfl, rfl, rfl, rfl, ?_⟩
  · rw [metadata_opened]
    exact Metadata.wf_empty total
  · intro id i x hx
    simp [extentAt, opened] at hx

/-! ### Lists of entries -/

theorem admits_regular {m : Metadata} (h : m.Admits total e) : e.Regular := by
  cases e <;> first | exact h.elim | simp [Entry.Regular, Entry.type]

/-- **A journal that makes sense is replayed**, to the metadata it describes. -/
theorem replayAll_of_accepts {es : List Entry} (ht : total ≤ extentCountMax) (h : s.Replaying total)
    (ha : (Cyanfs.metadata total).Accepts s.metadata es) :
    ∃ s', s.replayAll es = .ok s' ∧ s'.Replaying total ∧
      s'.metadata = (Cyanfs.metadata total).afterAll s.metadata es := by
  induction es generalizing s with
  | nil => exact ⟨s, rfl, h, rfl⟩
  | cons e es ih =>
      obtain ⟨s₁, hs₁⟩ := (h.replay_iff ht (admits_regular ha.1)).2 ha.1
      obtain ⟨h₁, hm₁⟩ := h.replay (admits_regular ha.1) hs₁
      have ha₁ : (Cyanfs.metadata total).Accepts s₁.metadata es := hm₁ ▸ ha.2
      obtain ⟨s₂, hs₂, h₂, hm₂⟩ := ih h₁ ha₁
      refine ⟨s₂, ?_, h₂, ?_⟩
      · rw [replayAll, hs₁]
        exact hs₂
      · rw [hm₂, hm₁]
        rfl

/-- A journal that the replay accepts makes sense. -/
theorem accepts_of_replayAll {es : List Entry} (h : s.Replaying total) (he : ∀ e ∈ es, e.Regular)
    (hr : s.replayAll es = .ok s') : (Cyanfs.metadata total).Accepts s.metadata es ∧
      s'.Replaying total ∧ s'.metadata = (Cyanfs.metadata total).afterAll s.metadata es := by
  induction es generalizing s with
  | nil => exact ⟨trivial, Except.ok.inj hr ▸ h, Except.ok.inj hr ▸ rfl⟩
  | cons e es ih =>
      rw [replayAll] at hr
      split at hr
      · rename_i s₁ hs₁
        have hreg := he e List.mem_cons_self
        obtain ⟨h₁, hm₁⟩ := h.replay hreg hs₁
        obtain ⟨ha, h', hm'⟩ := ih h₁ (fun x hx => he x (List.mem_cons_of_mem _ hx)) hr
        have ha₁ := (h.replayed hreg (replay_eq_ok.1 hs₁)).1
        rw [hm₁] at ha
        refine ⟨⟨ha₁, ha⟩, h', ?_⟩
        rw [hm', hm₁]
        rfl
      · cases hr

end Super

end Cyanfs
