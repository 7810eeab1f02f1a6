/-
# The live operations append what they do

Every journaled operation of a running super appends an entry that makes sense
for the metadata of before and describes the change it has made
(`Op.metadata`).  An extent that is being copied is not part of the metadata yet:
it comes in with the BIND entry that the end of the copy appends
(`metadata_copyPending`, `metadata_copyEnded`).
-/

import Cyanfs.Metadata.Table
import Cyanfs.Extents.Owned

namespace Cyanfs

open Lib Std

namespace Super

variable {s s' : Super} {f : File} {b i id total : ℕ} {held : ℕ → Finset ℕ}

/-- A super whose tables represent well-formed metadata, with every node inside
its file. -/
structure Live (s : Super) (total : ℕ) : Prop where
  rep : s.Rep
  wf : s.metadata.WF total
  range : ∀ (id : ℕ) (f : File) (i : ℕ), s.filesById[id]? = some f → f.extents[i]? ≠ none →
    i ≤ extentIndexMax ∧ extentBegin i < f.size

/-- Every file has the nodes it had, or fewer, and the size it had. -/
theorem Live.range_of (h : s.Live total)
    (hf : ∀ (id : ℕ) (g : File), s'.filesById[id]? = some g → ∀ i : ℕ, g.extents[i]? ≠ none →
      ∃ f, s.filesById[id]? = some f ∧ f.extents[i]? ≠ none ∧ g.size = f.size) :
    ∀ (id : ℕ) (f : File) (i : ℕ), s'.filesById[id]? = some f → f.extents[i]? ≠ none →
      i ≤ extentIndexMax ∧ extentBegin i < f.size := by
  intro id g i hg hi
  obtain ⟨f, hf', hx, hsize⟩ := hf id g hg i hi
  exact hsize ▸ h.range id f i hf' hx

theorem MetaEq.live (h : s.MetaEq s') (hl : s.Live total) : s'.Live total :=
  ⟨h.rep hl.rep, h.metadata ▸ hl.wf, h.filesById ▸ hl.range⟩

/-- The mode of a file changed. -/
theorem Live.setFile (h : s.Live total) {g : File} (hf : s.filesById[f.id]? = some f)
    (hg : g = { f with openType := g.openType, reader := g.reader }) :
    (s.setFile g).Live total ∧ (s.setFile g).metadata = s.metadata := by
  have hid : g.id = f.id := by rw [hg]
  have hrep : (s.setFile g).Rep :=
    h.rep.setFile (f := f) (by rw [hid]; exact hf) (by rw [hg]) (by rw [hg]) (by rw [hg])
  have hmeta : (s.setFile g).metadata = s.metadata := by
    apply Metadata.ext
    · funext k
      simp only [Super.metadata, filesById_setFile]
      split_ifs with hk
      · rw [hk, hid, hf, hg]
        rfl
      · rfl
    · rfl
  refine ⟨⟨hrep, hmeta ▸ h.wf, h.range_of ?_⟩, hmeta⟩
  intro k e he j hj
  rw [filesById_setFile] at he
  split_ifs at he with hk
  · obtain rfl := Option.some.inj he
    refine ⟨f, by rw [hk, hid]; exact hf, ?_, by rw [hg]⟩
    rw [hg] at hj
    exact hj
  · exact ⟨e, he, hj, rfl⟩

theorem live_opened (total : ℕ) (discard compact : Bool) (uuid : Uuid) (page : Buf) :
    (Super.opened total discard compact uuid page).Live total := by
  refine ⟨rep_opened .., ?_, ?_⟩
  · rw [metadata_opened]
    exact Metadata.wf_empty total
  · intro id f i hf
    simp [opened] at hf

/-- An extent that a file is mapped to in the metadata is in its tree. -/
theorem bound_of_metadata (hb : b ∈ s.metadata.bound) : b ∈ s.bound := by
  obtain ⟨id, g, i, hg, hm⟩ := hb
  obtain ⟨f, hf, rfl⟩ := metadata_files_eq_some.1 hg
  simp only [File.info] at hm
  obtain ⟨x, hx, hs⟩ := Option.bind_eq_some_iff.1 hm
  refine ⟨id, i, ?_⟩
  rw [extentAt_of_file hf, hx]
  unfold Extent.settled at hs
  split_ifs at hs
  exact hs

theorem range_superToFile (h : s.Live total) (hf : s.filesById[f.id]? = some f)
    (hnone : f.extents[i]? = none) (hi : i ≤ extentIndexMax) (hsize : extentBegin i < f.size) :
    ∀ (id : ℕ) (g : File) (j : ℕ), (s.superToFile f b i).filesById[id]? = some g →
      g.extents[j]? ≠ none → j ≤ extentIndexMax ∧ extentBegin j < g.size := by
  intro k g j hg hj
  rw [superToFile_eq hnone, filesById_setFile] at hg
  split_ifs at hg with hk
  · obtain rfl := Option.some.inj hg
    by_cases hji : j = i
    · rw [hji]
      exact ⟨hi, hsize⟩
    · have hjf : f.extents[j]? ≠ none := by
        intro hn
        apply hj
        grind
      exact h.range f.id f j hf hjf
  · exact h.range k g j hg hj

/-- **What an operation appends is what it does.** -/
theorem Op.metadata {j : JEntry} (h : s.Live total) (hx : s.ExtentsOk held)
    (ht : s.totalExtents = total) (ho : s.Op j s') :
    s.metadata.Admits total j.entry ∧ s'.metadata = s.metadata.after j.entry ∧ s'.Live total := by
  have hstored : ∀ {name : FileName}, name.Normal → name.stored = name := by
    intro name hn
    simp [FileName.stored, FileName.Normal] at hn ⊢
    simp [hn]
  -- `Live` follows from the other two and the range of the nodes
  suffices hs : s.metadata.Admits total j.entry ∧ s'.metadata = s.metadata.after j.entry ∧ s'.Rep ∧
      ∀ (id : ℕ) (f : File) (i : ℕ), s'.filesById[id]? = some f → f.extents[i]? ≠ none →
        i ≤ extentIndexMax ∧ extentBegin i < f.size by
    obtain ⟨ha, hm, hr, hrange⟩ := hs
    exact ⟨ha, hm, hr, hm ▸ h.wf.after ha, hrange⟩
  cases ho with
  | @create name _ hn hs hlimit hmax hlookup hi =>
      have hid : s.maxFileId + 1 ∉ s.metadata.ids := by
        intro hm
        have := (h.wf.ids _ hm).2
        simp [Super.metadata] at this
      have hfree := h.rep.lookupByName_eq_none.1 hlookup
      refine ⟨⟨?_, by omega, hid, by rw [hstored hn]; exact hfree, h.rep.files ▸ hlimit⟩, ?_,
        h.rep.initFile h.wf hi (by simp) hfree, h.range_of ?_⟩
      · rw [show name.normalize = some name from hn]
        simp
      · rw [metadata_initFile hi (by simp)]
        simp only [Metadata.after, hstored hn]
        rfl
      · intro k g hg j hj
        rw [filesById_initFile hi (by simp)] at hg
        split_ifs at hg with hk hp
        · obtain rfl := Option.some.inj hg
          simp [newFile] at hj
        · simp at hp
        · exact ⟨g, hg, hj, rfl⟩
  | @fork name p _ hn hs hlimit hmax hp hmode hlookup hi =>
      have hid : s.maxFileId + 1 ∉ s.metadata.ids := by
        intro hm
        have := (h.wf.ids _ hm).2
        simp [Super.metadata] at this
      have hpid : p.id ∈ s.metadata.ids := mem_metadata_ids.2 ⟨p, hp⟩
      have hlt : p.id < s.maxFileId + 1 := by
        have := (h.wf.ids _ hpid).2
        simp only [Super.metadata] at this
        omega
      have hfree := h.rep.lookupByName_eq_none.1 hlookup
      have hps : ∀ q ∈ some p, s.filesById[q.id]? = some q := by
        rintro _ ⟨⟩
        exact hp
      refine ⟨⟨⟨?_, by omega, hid, by rw [hstored hn]; exact hfree, h.rep.files ▸ hlimit⟩, hlt, hpid⟩,
        ?_, h.rep.initFile h.wf hi hps hfree, h.range_of ?_⟩
      · rw [show name.normalize = some name from hn]
        simp
      · rw [metadata_initFile hi hps]
        simp [Metadata.after, Metadata.forked, hstored hn, metadata_files_of hp, File.info]
      · intro k g hg j hj
        rw [filesById_initFile hi hps] at hg
        split_ifs at hg with hk hpk
        · obtain rfl := Option.some.inj hg
          simp [newFile] at hj
        · obtain ⟨f, hf, rfl⟩ := Option.map_eq_some_iff.1 hg
          exact ⟨f, hf, hj, rfl⟩
        · exact ⟨g, hg, hj, rfl⟩
  | @rename name f hn hs hlookup hf =>
      have hfree := h.rep.lookupByName_eq_none.1 hlookup
      have hsub : s.metadata.named name ⊆ {f.id} := by simp [hfree]
      refine ⟨⟨?_, mem_metadata_ids.2 ⟨f, hf⟩, by rw [hstored hn]; exact hsub⟩, ?_,
        h.rep.renameFile hf hsub, h.range_of ?_⟩
      · rw [show name.normalize = some name from hn]
        simp
      · rw [metadata_renameFile hf]
        simp only [Metadata.after, hstored hn]
      · intro k g hg j hj
        have hg' : (s.setFile { f with name := name }).filesById[k]? = some g := hg
        rw [filesById_setFile] at hg'
        split_ifs at hg' with hk
        · obtain rfl := Option.some.inj hg'
          exact ⟨f, hk ▸ hf, hj, rfl⟩
        · exact ⟨g, hg', hj, rfl⟩
  | @truncate f size hv hs hf hmode hc =>
      refine ⟨⟨hv, mem_metadata_ids.2 ⟨f, hf⟩, (h.rep.children_eq_zero h.wf hf).1 hc⟩, ?_,
        h.rep.truncateFile hf size, ?_⟩
      · rw [metadata_truncateFile h.rep.keyed hf hv]
        rfl
      · intro k g i hg hi
        rw [filesById_truncateFile h.rep.keyed hf] at hg
        split_ifs at hg with hk
        · obtain rfl := Option.some.inj hg
          have hi' : (f.unmapAll (truncateKeys f size)).extents[i]? ≠ none := hi
          rw [File.extents_unmapAll] at hi'
          split_ifs at hi' with hmem
          · exact absurd rfl hi'
          · have hmax := (h.range f.id f i hf hi').1
            rw [mem_truncateKeys hv hi'] at hmem
            exact ⟨hmax, by simpa using hmem⟩
        · exact h.range k g i hg hi
  | @delete f hs hf hmode hc =>
      refine ⟨⟨mem_metadata_ids.2 ⟨f, hf⟩, (h.rep.children_eq_zero h.wf hf).1 hc⟩, ?_,
        h.rep.deleteFile h.wf hf, h.range_of ?_⟩
      · rw [metadata_deleteFile h.rep.keyed hf]
        rfl
      · intro k g hg j hj
        rw [filesById_deleteFile h.rep.keyed hf] at hg
        split_ifs at hg with hk hp
        · obtain ⟨p, hp, rfl⟩ := Option.map_eq_some_iff.1 hg
          exact ⟨p, hp, hj, rfl⟩
        · exact ⟨g, hg, hj, rfl⟩
  | @bind f i b hs hf hmode hi hsize hroom hb hnone =>
      have hlt := mem_free_lt hx hb
      have hbound : b ∉ s.metadata.bound := fun hm =>
        not_mem_bound_of_free hx hb (bound_of_metadata hm)
      refine ⟨⟨hi, ht ▸ hlt, hbound, f.info, metadata_files_of hf, hsize, ?_⟩, ?_,
        h.rep.superToFile hf hnone, range_superToFile h hf hnone hi hsize⟩
      · simp [File.info, hnone]
      · rw [metadata_superToFile hf hnone]
        rfl
  | @unbind f i x hs hf hmode hi hsize hx hp herr =>
      refine ⟨⟨hi, f.info, metadata_files_of hf, hsize, ?_⟩, ?_, h.rep.unmapExtent _ _, h.range_of ?_⟩
      · simp [File.info, hx, Extent.settled, hp, herr]
      · rw [metadata_unmapExtent h.rep.keyed]
        rfl
      · intro k g hg j hj
        rw [filesById_unmapExtent h.rep.keyed] at hg
        split_ifs at hg with hk
        · obtain ⟨e, he, rfl⟩ := Option.map_eq_some_iff.1 hg
          rw [File.extents_unmapAt] at hj
          split_ifs at hj with hji
          · exact absurd rfl hj
          · refine ⟨e, hk ▸ he, hj, ?_⟩
            unfold File.unmapAt
            split_ifs <;> rfl
        · exact ⟨g, hg, hj, rfl⟩

/-! ### Copies -/

/-- The operations hand out ids in order. -/
theorem fresh_of_op {j : JEntry} (h : s.Op j s') : s.metadata.Fresh j.entry := by
  cases h with
  | create => exact Nat.lt_succ_self _
  | fork => exact Nat.lt_succ_self _
  | _ => trivial

theorem metadata_markExtent {x : Extent} (he : s.extentAt id i = some x) (u : Extent → Extent) :
    (s.updFile id fun f => f.markExtent i u).metadata =
      s.metadata.modify id fun g => { g with map := Function.update g.map i (u x).settled } := by
  obtain ⟨f, hf, hi⟩ := extentAt_eq_some.1 he
  apply Metadata.ext
  · funext k
    rw [Metadata.modify_files]
    simp only [metadata, filesById_updFile, hf, Option.map_some]
    split_ifs with hk
    · simp only [Option.map_some, File.markExtent, hi, File.info, Option.some.injEq,
        FileInfo.mk.injEq, true_and]
      funext j
      rw [Function.update_apply]
      split_ifs with hj
      · subst hj
        simp
      · congr 1
        grind
    · rfl
  · simp only [updFile]
    split <;> rfl

theorem live_markExtent (h : s.Live total) {x : Extent} (he : s.extentAt id i = some x)
    (u : Extent → Extent)
    (hw : (s.updFile id fun f => f.markExtent i u).metadata.WF total) :
    (s.updFile id fun f => f.markExtent i u).Live total := by
  refine ⟨h.rep.markExtent id i u, hw, h.range_of ?_⟩
  intro k g hg j hj
  rw [filesById_updFile] at hg
  split_ifs at hg with hk
  · obtain ⟨f, hf, rfl⟩ := Option.map_eq_some_iff.1 hg
    rw [extentAt_of_file hf] at he
    refine ⟨f, hk ▸ hf, ?_, ?_⟩
    · by_cases hji : j = i
      · rw [hji, he]
        simp
      · simp only [File.markExtent, he] at hj
        grind
    · simp only [File.markExtent]
      split <;> rfl
  · exact ⟨g, hg, hj, rfl⟩

/-- Mapping an extent that is still to be copied does not change the metadata. -/
theorem metadata_copyPending (h : s.Live total) (hf : s.filesById[f.id]? = some f)
    (hnone : f.extents[i]? = none) (hi : i ≤ extentIndexMax) (hsize : extentBegin i < f.size) :
    (s.copyPending f b i).metadata = s.metadata ∧ (s.copyPending f b i).Live total := by
  have hat : (s.superToFile f b i).extentAt f.id i = some ⟨b, false, false⟩ := by
    rw [extentAt_superToFile hnone]
    simp
  have hmeta : (s.copyPending f b i).metadata = s.metadata := by
    rw [copyPending, metadata_markExtent hat, metadata_superToFile hf hnone]
    apply Metadata.ext
    · funext k
      simp only [Metadata.modify_files, if_true]
      split_ifs with hk
      · subst hk
        simp only [metadata_files_of hf, Option.map_some, Function.update_idem,
          Extent.settled, Bool.true_eq_false, false_and, if_false]
        congr 1
        ext1 <;> try rfl
        rw [Function.update_eq_self_iff]
        simp [File.info, hnone]
      · rfl
    · rfl
  refine ⟨hmeta, h.rep.superToFile hf hnone |>.markExtent f.id i _, hmeta ▸ h.wf, ?_⟩
  intro k g j hg hj
  rw [copyPending, filesById_updFile] at hg
  have hrange := range_superToFile (b := b) h hf hnone hi hsize
  split_ifs at hg with hk
  · obtain ⟨e, he, rfl⟩ := Option.map_eq_some_iff.1 hg
    have hei : e.extents[i]? = some ⟨b, false, false⟩ := by rwa [extentAt_of_file he] at hat
    have hsz : (e.markExtent i fun e => { e with pending := true }).size = e.size := by
      simp only [File.markExtent]
      split <;> rfl
    rw [hsz]
    refine hrange f.id e j he ?_
    by_cases hji : j = i
    · rw [hji, hei]
      simp
    · simp only [File.markExtent, hei] at hj
      grind
  · exact hrange k g j hg hj

/-- The end of a copy: the extent comes in with its BIND entry, or not at all. -/
theorem metadata_copyEnded (h : s.Live total) (hx : s.ExtentsOk held) (ht : s.totalExtents = total)
    (he : s.extentAt id i = some ⟨b, true, false⟩) (err : Bool) :
    (s.copyEnded id i err).Live total ∧
    (if err then (s.copyEnded id i err).metadata = s.metadata
      else s.metadata.Admits total (.bind id i b) ∧
        (s.copyEnded id i err).metadata = s.metadata.after (.bind id i b)) := by
  obtain ⟨f, hf, hfi⟩ := extentAt_eq_some.1 he
  have hrange := h.range id f i hf (by simp [hfi])
  have hnone : f.info.map i = none := by simp [File.info, hfi, Extent.settled]
  have hmark := metadata_markExtent he fun e => { e with pending := false, error := e.error || err }
  cases err with
  | true =>
      have hmeta : (s.copyEnded id i true).metadata = s.metadata := by
        rw [copyEnded, hmark]
        apply Metadata.ext
        · funext k
          rw [Metadata.modify_files]
          split_ifs with hk
          · subst hk
            simp only [metadata_files_of hf, Option.map_some, Extent.settled]
            congr 1
            ext1 <;> try rfl
            rw [Function.update_eq_self_iff]
            simp [hnone]
          · rfl
        · rfl
      exact ⟨live_markExtent h he _ (hmeta ▸ h.wf), hmeta⟩
  | false =>
      have hmeta : (s.copyEnded id i false).metadata = s.metadata.after (.bind id i b) := by
        rw [copyEnded, hmark]
        rfl
      have hadm : s.metadata.Admits total (.bind id i b) := by
        refine ⟨hrange.1, ?_, ?_, f.info, metadata_files_of hf, hrange.2, hnone⟩
        · rw [← ht]
          exact bound_subset hx ⟨id, i, by rw [he]; rfl⟩
        · rintro ⟨k, g, j, hg, hm⟩
          obtain ⟨f', hf', rfl⟩ := metadata_files_eq_some.1 hg
          simp only [File.info] at hm
          obtain ⟨y, hy, hs⟩ := Option.bind_eq_some_iff.1 hm
          -- the settled node would hold the same extent as the pending one
          have hyb : y.backend = b ∧ y.pending = false := by
            unfold Extent.settled at hs
            split_ifs at hs with hp
            exact ⟨Option.some.inj hs, hp.1⟩
          have hown := hx.parts.mem_unique (.file k j) (.file id i) (a := b)
            (by simp [owned, extentAt_of_file hf', hy, hyb.1]) (by simp [owned, he])
          obtain ⟨rfl, rfl⟩ : k = id ∧ j = i := by simpa using hown
          rw [extentAt_of_file hf', hy] at he
          rw [Option.some.inj he] at hyb
          exact absurd hyb.2 (by simp)
      refine ⟨live_markExtent h he _ ?_, hadm, hmeta⟩
      have : (s.copyEnded id i false).metadata.WF total := hmeta ▸ h.wf.after hadm
      exact this

end Super

end Cyanfs
