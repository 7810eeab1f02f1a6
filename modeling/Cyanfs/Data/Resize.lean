/-
# Shrinking a file and growing it again

`__cyanfs_file_truncate` unmaps the file's own extents behind the new size and sets the
size, nothing else.  `__cyanfs_file_find_extent_follow` walks from the file through its
ancestors and stops at the first that is too short.  So a file that was shrunk to `a`
and grown to `b` shows between the two exactly what its parent shows there
(`findExtentFollow_resized`): nothing, if it was not forked, but the extents of its
ancestors otherwise, although the shrink had cut them off (`resized_shows_parent`).
-/

import Cyanfs.Data.Seek
import Cyanfs.Metadata.Compaction

namespace Cyanfs

open Lib Std

namespace Super

variable {s s' : Super} {f : File} {id n off i a b total : ℕ}

/-! ### Walks through the ancestors -/

/-- A walk looks at nothing but the files with an id up to that of its first file. -/
theorem followFrom_congr {m : ℕ} (hp : ∀ (id : ℕ) (f : File) (p : ℕ), s.filesById[id]? = some f →
    f.parent = some p → p < id) (h : ∀ k < m, s'.filesById[k]? = s.filesById[k]?) (hid : id < m) :
    s'.followFrom off n (some id) = s.followFrom off n (some id) := by
  induction n generalizing id with
  | zero => rfl
  | succ n ih =>
      rw [followFrom, followFrom, h id hid]
      cases hf : s.filesById[id]? with
      | none => rfl
      | some f =>
          simp only
          split_ifs with hsize
          · cases hq : f.parent with
            | none => simp
            | some p => rw [ih ((hp id f p hf hq).trans hid)]
          · rfl

theorem followFrom_filesById (h : s'.filesById = s.filesById) (file : Option ℕ) :
    s'.followFrom off n file = s.followFrom off n file := by
  induction n generalizing file with
  | zero => cases file <;> rfl
  | succ n ih =>
      cases file with
      | none => rfl
      | some id =>
          rw [followFrom, followFrom, h]
          cases s.filesById[id]? with
          | none => rfl
          | some f => simp only [ih]

/-- All offsets of an extent are looked up alike. -/
theorem followFrom_extentFrom {off' : ℕ} (h : extentFrom off = extentFrom off') (file : Option ℕ) :
    s.followFrom off n file = s.followFrom off' n file := by
  induction n generalizing file with
  | zero => cases file <;> rfl
  | succ n ih =>
      cases file with
      | none => rfl
      | some id =>
          rw [followFrom, followFrom, h]
          cases s.filesById[id]? with
          | none => rfl
          | some f => simp only [File.findExtent, h, ih]

/-- What the file has itself, and what its parent shows. -/
theorem findExtentFollow_eq (hp : ∀ (id : ℕ) (f : File) (p : ℕ), s.filesById[id]? = some f →
    f.parent = some p → p < id) (hf : s.filesById[id]? = some f) (hi : i < extentCountMax) :
    s.findExtentFollow (some id) (extentBegin i) =
      if extentBegin i < f.size then
        f.extents[i]?.or (s.findExtentFollow f.parent (extentBegin i))
      else none := by
  have hparent : s.followFrom (extentBegin i) id f.parent =
      s.findExtentFollow f.parent (extentBegin i) := by
    cases hq : f.parent with
    | none => simp [findExtentFollow]
    | some p => exact followFrom_eq hp (hp id f p hf hq) (Nat.lt_succ_self p)
  rw [← hparent]
  exact followFrom_extentBegin hf hi

/-! ### Two truncations -/

theorem Live.parent_lt (h : s.Live total) (id : ℕ) (f : File) (p : ℕ)
    (hf : s.filesById[id]? = some f) (hq : f.parent = some p) : p < id :=
  (h.wf.parent id f.info p (metadata_files_of hf) hq).1

/-- A truncation leaves the other files alone, so a walk from the parent finds what it
found. -/
theorem findExtentFollow_parent (h : s.Live total) (hf : s.filesById[f.id]? = some f)
    (hs : ∀ k ≠ f.id, s'.filesById[k]? = s.filesById[k]?) :
    s'.findExtentFollow f.parent off = s.findExtentFollow f.parent off := by
  cases hq : f.parent with
  | none => simp [findExtentFollow]
  | some p =>
      have hlt := h.parent_lt f.id f p hf hq
      exact followFrom_congr h.parent_lt (fun k hk => hs k (by omega)) hlt

/-- **A file that was shrunk and grown again** shows in between what its parent
shows. -/
theorem findExtentFollow_resized {f' : File} (h : s.Live total) (hf : s.filesById[f.id]? = some f)
    (ha : sizeValid a) (hi : a ≤ extentBegin i) (hib : extentBegin i < b)
    (hf' : f' = { f.unmapAll (truncateKeys f a) with size := a })
    (hb : sizeValid b)
    (hs : ∀ k, s'.filesById[k]? =
      if k = f.id then some { f'.unmapAll (truncateKeys f' b) with size := b }
      else s.filesById[k]?) :
    s'.findExtentFollow (some f.id) (extentBegin i) =
      s.findExtentFollow f.parent (extentBegin i) := by
  have hlt : i < extentCountMax := by
    have := sizeValid_le hb
    simp only [extentBegin, extentSize, extentCountMax, fileMaxSize] at *
    omega
  obtain ⟨x, c, hu⟩ := f.unmapAll_eq (truncateKeys f a)
  obtain ⟨x', c', hu'⟩ := f'.unmapAll_eq (truncateKeys f' b)
  have hparent : f'.parent = f.parent := by rw [hf', hu]
  -- the shrink took the file's own extent
  have hown : f'.extents[i]? = none := by
    have hx : f'.extents[i]? = (f.unmapAll (truncateKeys f a)).extents[i]? := by rw [hf']
    rw [hx, File.extents_unmapAll]
    split_ifs with hm
    · rfl
    · by_contra hne
      exact hm ((mem_truncateKeys ha hne).2 hi)
  have hown' : x'[i]? = none := by
    have hx : x'[i]? = (f'.unmapAll (truncateKeys f' b)).extents[i]? := by rw [hu']
    rw [hx, File.extents_unmapAll, hown]
    split_ifs <;> rfl
  have hfile : s'.filesById[f.id]? = some { f' with extents := x', extentCount := c', size := b } := by
    rw [hs, if_pos rfl, hu']
  have hlt' : ∀ (id : ℕ) (g : File) (p : ℕ), s'.filesById[id]? = some g → g.parent = some p → p < id := by
    intro k g p hg hq
    rw [hs] at hg
    split_ifs at hg with hk
    · rw [hu'] at hg
      obtain rfl := Option.some.inj hg
      rw [hk]
      exact h.parent_lt f.id f p hf (hparent ▸ hq)
    · exact h.parent_lt k g p hg hq
  rw [findExtentFollow_eq hlt' hfile hlt, if_pos hib, hown', Option.none_or]
  change s'.findExtentFollow f'.parent _ = _
  rw [hparent]
  exact findExtentFollow_parent h hf fun k hk => by rw [hs, if_neg hk]

/-! ### What a read sees -/

/-- No walk from `file` finds an extent that begins in `[a, b)`. -/
def Hides (s : Super) (file : Option ℕ) (a b : ℕ) : Prop :=
  ∀ i, a ≤ extentBegin i → extentBegin i < b → s.findExtentFollow file (extentBegin i) = none

/-- The extents of the file that begin in `[a, b)` are not found, and `cyanfs_read` maps
every piece of them to NOP. -/
def ReadsZeros (s : Super) (id a b : ℕ) : Prop :=
  ∀ i, a ≤ extentBegin i → extentBegin i < b →
    s.findExtentFollow (some id) (extentBegin i) = none ∧
    ∀ (τ : Sys) (c : Call) (io : IoCall), τ.sup.filesById = s.filesById →
      τ.sup.ensureStatus = none → io.file = id → extentBegin i ≤ io.off →
      io.off < extentBegin (i + 1) → τ.readLookup c io = τ.setCall c (.readHandler io .nop)

theorem readsZeros_iff : s.ReadsZeros id a b ↔ s.Hides (some id) a b := by
  refine ⟨fun h i hi hib => (h i hi hib).1, fun h i hi hib => ⟨h i hi hib, ?_⟩⟩
  rintro τ c io hfiles hst rfl hlo hhi
  have hfrom : extentFrom io.off = extentFrom (extentBegin i) := by
    simp only [extentFrom, extentBegin, extentSize] at *
    omega
  have hnone : τ.sup.findExtentFollow (some io.file) io.off = none := by
    rw [findExtentFollow, followFrom_filesById hfiles, followFrom_extentFrom hfrom]
    exact h i hi hib
  simp only [Sys.readLookup, hst, hnone]

/-- A state that was replayed to the same metadata shows no more than the live one. -/
theorem Settled.followFrom_eq_none (hs : s'.Settled) (hm : s'.metadata = s.metadata)
    (file : Option ℕ) (h : s.followFrom off n file = none) : s'.followFrom off n file = none := by
  induction n generalizing file with
  | zero => cases file <;> rfl
  | succ n ih =>
      cases file with
      | none => rfl
      | some id =>
          cases hf' : s'.filesById[id]? with
          | none => rw [followFrom, hf']
          | some f' =>
              have hinfo := metadata_files_of hf'
              rw [hm] at hinfo
              obtain ⟨f, hf, heq⟩ := metadata_files_eq_some.1 hinfo
              replace heq := heq.symm
              have hsize : f'.size = f.size := congrArg FileInfo.size heq
              have hparent : f'.parent = f.parent := congrArg FileInfo.parent heq
              rw [followFrom, hf] at h
              rw [followFrom, hf']
              simp only [hsize, hparent] at h ⊢
              split_ifs at h ⊢ with hlt
              · -- a node of the replayed state is a settled node of the live one
                cases hx : f.findExtent off with
                | some e => simp [hx] at h
                | none =>
                    simp only [hx] at h
                    have hnone : f'.findExtent off = none := by
                      have hmap := congrFun (congrArg FileInfo.map heq) (fileIndex (extentFrom off))
                      rw [hs.map_eq hf'] at hmap
                      simp only [File.info] at hmap
                      rw [show f.extents[fileIndex (extentFrom off)]? = none from hx] at hmap
                      simpa [File.findExtent] using hmap
                    rw [hnone]
                    exact ih _ h
              · rfl

theorem Settled.hides {file : Option ℕ} (hs : s'.Settled) (hm : s'.metadata = s.metadata)
    (h : s.Hides file a b) : s'.Hides file a b :=
  fun i hi hib => hs.followFrom_eq_none hm file (h i hi hib)

end Super

namespace Sys

variable {σ σ₁ σ₂ : Sys} {s₀ : Super} {f : File} {id a b total : ℕ}

/-- What compactions make of a journal: any prefix `P` of it is replaced by a snapshot of
the state that `P` and the NEXT entries of its extents lead to, any number of times. -/
inductive Compacted (s₀ : Super) (es : List Entry) : List Entry → Prop
  | refl : Compacted s₀ es es
  | compact {P T S : List Entry} {js : List ℕ} {X : Super} (h : Compacted s₀ es (P ++ T))
      (hX : s₀.replayAll (P ++ js.map .next) = .ok X) (hS : X.snapshot = some S) :
      Compacted s₀ es (S ++ T)

/-- Compactions keep the meaning of a history. -/
theorem Compacted.history {es fs : List Entry} (h : Compacted s₀ es fs) (ht : total ≤ extentCountMax)
    (hs₀ : s₀.Replaying total) (he : s₀.metadata = .empty)
    (hacc : (history total).Accepts .empty es) :
    (history total).Accepts .empty fs ∧
      (history total).afterAll .empty fs = (history total).afterAll .empty es := by
  induction h with
  | refl => exact ⟨hacc, rfl⟩
  | @compact P T S js X _ hX hS ih =>
      obtain ⟨X₀, S₀, hX₀, hS₀, haccS, hafter⟩ := exists_snapshot ht hs₀ he ih.1
      rw [Super.replayAll_append, hX₀] at hX
      rw [Super.snapshot_next hX, hS₀] at hS
      obtain rfl := Option.some.inj hS
      exact ⟨haccS, hafter.trans ih.2⟩

/-- A mount finds the live metadata, however often the journal was compacted. -/
theorem JournalOk.remount {fs : List Entry} (h : σ.JournalOk total) (ht : total ≤ extentCountMax)
    (hs₀ : s₀.Replaying total) (he : s₀.metadata = .empty) (hc : Compacted s₀ σ.log.appended fs) :
    ∃ Y, s₀.replayAll fs = .ok Y ∧ Y.Settled ∧ Y.metadata = σ.sup.metadata := by
  obtain ⟨hacc, hafter⟩ := hc.history ht hs₀ he h.accepts
  obtain ⟨Y, hY, hrY, hmY⟩ := Super.replayAll_of_accepts ht hs₀
    (he ▸ Metadata.accepts_of_history hacc)
  refine ⟨Y, hY, hrY.settled, ?_⟩
  rw [hmY, he]
  exact hafter.trans h.content

/-- `cyanfs_truncate` on a file that is closed and has no children. -/
theorem step_truncate (hst : σ.sup.ensureStatus = none) (hf : σ.sup.filesById[f.id]? = some f)
    (hclosed : f.openType = .closed) (hc : f.children = 0) (hv : sizeValid a)
    (hs : σ.step (.truncate f.id a) = some σ₁) :
    σ₁.sup = (σ.sup.truncateFile f a).append ⟨.truncate f.id a, true⟩ := by
  have hr : σ.sup.truncate f.id a =
      .ok ((σ.sup.truncateFile f a).append ⟨.truncate f.id a, true⟩) := by
    simp only [Super.truncate, hst, hf]
    rw [if_neg (by simp [hclosed, hc])]
  have hbug := bug_of_step hs
  rw [step, if_neg (by simp [hbug])] at hs
  simp only [if_pos hv, metaOp, hr] at hs
  exact (Option.some.inj hs) ▸ rfl

/-- The file table after both truncations. -/
theorem filesById_resized (hlive : σ.sup.Live total) (hlive₁ : σ₁.sup.Live total)
    (hst : σ.sup.ensureStatus = none) (hf : σ.sup.filesById[f.id]? = some f)
    (hclosed : f.openType = .closed) (hc : f.children = 0) (ha : sizeValid a) (hb : sizeValid b)
    (hs₁ : σ.step (.truncate f.id a) = some σ₁) (hs₂ : σ₁.step (.truncate f.id b) = some σ₂)
    {f' : File} (hf' : f' = { f.unmapAll (Super.truncateKeys f a) with size := a }) (k : ℕ) :
    σ₂.sup.filesById[k]? =
      if k = f.id then some { f'.unmapAll (Super.truncateKeys f' b) with size := b }
      else σ.sup.filesById[k]? := by
  have hk := hlive.rep.keyed
  have hsup₁ := step_truncate hst hf hclosed hc ha hs₁
  have hfiles₁ : ∀ k : ℕ, σ₁.sup.filesById[k]? = if k = f.id then some f' else σ.sup.filesById[k]? := by
    intro k
    rw [hsup₁, hf']
    exact Super.filesById_truncateFile hk hf a k
  obtain ⟨x, c, hu⟩ := f.unmapAll_eq (Super.truncateKeys f a)
  have hid : f'.id = f.id := by rw [hf', hu]
  have hst₁ : σ₁.sup.ensureStatus = none := by
    obtain ⟨_, _, _, _, _, _, hu⟩ := Super.unmapped_truncateFile σ.sup f a
    rw [hsup₁, hu]
    exact hst
  have hsup₂ := step_truncate (f := f') hst₁ (by rw [hfiles₁, if_pos hid]) (by rw [hf', hu]; exact hclosed)
    (by rw [hf', hu]; exact hc) hb (by rw [hid]; exact hs₂)
  rw [hsup₂]
  have htrunc := Super.filesById_truncateFile hlive₁.rep.keyed (f := f')
    (by rw [hfiles₁, if_pos hid]) b k
  rw [hid, hfiles₁] at htrunc
  refine htrunc.trans ?_
  split_ifs <;> rfl

/-- **Shrinking and growing.**  In every state that a fresh file system reaches, after
`cyanfs_truncate` of a closed file without children to `a` and then to `b`, the file shows
nothing between the two, before and after a mount of the journal as it is or compacted, if
and only if its parent shows nothing there. -/
theorem truncate_hides_iff {size : ℕ} {discard compact d c : Bool} {u uuid v : Uuid} {disk page : Buf}
    (hsize : extentsOfSize size = some total) (hf : FreshMkfs uuid disk)
    (h : (Sys.opened total discard compact u disk).Reachable σ) (hst : σ.sup.ensureStatus = none)
    (hfile : σ.sup.filesById[id]? = some f) (hclosed : f.openType = .closed) (hc : f.children = 0)
    (ha : sizeValid a) (hb : sizeValid b)
    (hrun : σ.run [.truncate id a, .truncate id b] = some σ₂) :
    (σ₂.sup.ReadsZeros id a b ∧
      ∀ es, Compacted (Super.opened total d c v page) σ₂.log.appended es →
        ∃ Y, (Super.opened total d c v page).replayAll es = .ok Y ∧ Y.ReadsZeros id a b) ↔
      σ.sup.Hides f.parent a b := by
  obtain ⟨h1, ht⟩ := one_le_of_extentsOfSize hsize
  obtain ⟨σ₁, hs₁, hs₂⟩ : ∃ σ₁, σ.step (.truncate id a) = some σ₁ ∧
      σ₁.step (.truncate id b) = some σ₂ := by
    rw [run, Option.bind_eq_some_iff] at hrun
    obtain ⟨σ₁, hs₁, hrun⟩ := hrun
    rw [run, Option.bind_eq_some_iff] at hrun
    obtain ⟨σ₂', hs₂, hrun⟩ := hrun
    exact ⟨σ₁, hs₁, hs₂.trans hrun⟩
  have hj := h.journalOk hf h1
  have hj₁ := Reachable.journalOk hf h1 (h.trans ⟨[.truncate id a], by rw [run, hs₁]; rfl⟩)
  have hj₂ := Reachable.journalOk hf h1 (h.trans ⟨_, hrun⟩)
  obtain rfl : f.id = id := hj.live.rep.keyed id f hfile
  -- in between, the file shows what its parent shows
  have hshow : σ₂.sup.Hides (some f.id) a b ↔ σ.sup.Hides f.parent a b := by
    have hfiles := filesById_resized hj.live hj₁.live hst hfile hclosed hc ha hb hs₁ hs₂ rfl
    have heq : ∀ i, a ≤ extentBegin i → extentBegin i < b →
        σ₂.sup.findExtentFollow (some f.id) (extentBegin i) =
          σ.sup.findExtentFollow f.parent (extentBegin i) := fun i hi hib =>
      Super.findExtentFollow_resized hj.live hfile ha hi hib rfl hb hfiles
    constructor
    · exact fun hh i hi hib => (heq i hi hib) ▸ hh i hi hib
    · exact fun hh i hi hib => (heq i hi hib).trans (hh i hi hib)
  rw [Super.readsZeros_iff, hshow]
  refine ⟨fun hh => hh.1, fun hh => ⟨hh, fun es hes => ?_⟩⟩
  obtain ⟨Y, hY, hsettled, hmeta⟩ := hj₂.remount ht (Super.replaying_opened total d c v page)
    (Super.metadata_opened total d c v page) hes
  exact ⟨Y, hY, Super.readsZeros_iff.2 (hsettled.hides hmeta (hshow.2 hh))⟩

/-- The loop variables of a write to the second extent of the fork. -/
abbrev tailIo : IoCall := ⟨2, extentSize, 4096, false⟩

/-- A file of three extents has data in the first one, and a fork of it in the second one. -/
def tailLabels : List Label :=
  [.create .letter, .truncate 1 (3 * extentSize), .open 1 true, .write 1 0 4096,
    .call (.write firstIo) true, .call (.writeAlloc firstIo none) true,
    .call (.writeHandler { firstIo with newJournal := true } (.submit (mapExtentOffset 11 0))
      (some false)) true, .close 1, .fork 1 .other, .open 2 true, .write 2 extentSize 4096,
    .call (.write tailIo) true, .call (.writeAlloc tailIo none) true,
    .call (.writeHandler { tailIo with newJournal := true }
      (.submit (mapExtentOffset 2 extentSize)) (some false)) true, .close 2]

/-- The fork is shrunk to its first extent and grown to three: its own data is gone, and its parent
has none there. -/
theorem truncate_hides_iff_forked :
    ∃ σ σ₂ f, (Sys.opened 16 true true smallUuid smallDisk).Reachable σ ∧
      σ.sup.filesById[2]? = some f ∧ f.parent = some 1 ∧
      σ.sup.findExtentFollow (some 1) (extentBegin 0) = some ⟨11, false, false⟩ ∧
      σ.sup.findExtentFollow (some 2) (extentBegin 1) = some ⟨2, false, false⟩ ∧
      σ.run [.truncate 2 extentSize, .truncate 2 (3 * extentSize)] = some σ₂ ∧
      (σ₂.sup.ReadsZeros 2 extentSize (3 * extentSize) ∧
        ∀ es, Compacted (Super.opened 16 true true smallUuid fun _ => 0) σ₂.log.appended es →
          ∃ Y, (Super.opened 16 true true smallUuid fun _ => 0).replayAll es = .ok Y ∧
            Y.ReadsZeros 2 extentSize (3 * extentSize)) := by
  obtain ⟨σ, hσ, hst, hfile, hzero, hone, htwo, hown⟩ := exists_small tailLabels
    (P := fun τ => τ.sup.ensureStatus = none ∧
      (τ.sup.filesById[2]?.any fun f => f.openType = .closed ∧ f.children = 0 ∧ f.parent = some 1) ∧
      τ.sup.findExtentFollow (some 1) (extentBegin 0) = some ⟨11, false, false⟩ ∧
      τ.sup.findExtentFollow (some 1) (extentBegin 1) = none ∧
      τ.sup.findExtentFollow (some 1) (extentBegin 2) = none ∧
      τ.sup.findExtentFollow (some 2) (extentBegin 1) = some ⟨2, false, false⟩) (by decide +kernel)
  obtain ⟨σ₂, hσ₂, -⟩ := exists_small
    (tailLabels ++ [.truncate 2 extentSize, .truncate 2 (3 * extentSize)])
    (P := fun τ => τ.sup.ensureStatus = none) (by decide +kernel)
  replace hσ₂ := run_rest hσ hσ₂
  obtain ⟨f, hf, hmode⟩ := (Option.any_eq_true _ _).1 hfile
  obtain ⟨hclosed, hc, hparent⟩ := of_decide_eq_true hmode
  have hreach := Reachable.small hσ
  refine ⟨σ, σ₂, f, hreach, hf, hparent, hzero, hown, hσ₂, ?_⟩
  refine (truncate_hides_iff (d := true) (c := true) (v := smallUuid)
    (by decide : extentsOfSize 16785408 = some 16) (freshMkfs_zero smallUuid) hreach hst hf hclosed
    hc (by decide) (by decide) hσ₂).2 fun i hi hib => ?_
  rw [hparent]
  have hi' : i = 1 ∨ i = 2 := by
    simp only [extentBegin, extentSize] at hi hib
    omega
  rcases hi' with rfl | rfl
  · exact hone
  · exact htwo

/-- **A fork shows its parent again.**  File 2 is a fork of file 1, which has an extent;
after file 2 was shrunk to nothing and grown to one block, a read of it is mapped to that
extent. -/
theorem resized_shows_parent :
    ∃ σ σ₂ f, (Sys.opened 16 true true smallUuid smallDisk).Reachable σ ∧
      σ.sup.ensureStatus = none ∧ σ.sup.filesById[2]? = some f ∧ f.openType = .closed ∧
      f.children = 0 ∧ sizeValid 0 ∧ sizeValid 4096 ∧
      σ.run [.truncate 2 0, .truncate 2 4096] = some σ₂ ∧
      σ₂.sup.findExtentFollow (some 2) (extentBegin 0) = some ⟨11, false, false⟩ ∧
      ¬ σ₂.sup.ReadsZeros 2 0 4096 := by
  obtain ⟨σ, hσ, hst, hfile⟩ := exists_small forkLabels (P := fun τ => τ.sup.ensureStatus = none ∧
    τ.sup.filesById[2]?.any fun f => f.openType = .closed ∧ f.children = 0) (by decide +kernel)
  obtain ⟨σ₂, hσ₂, hshow⟩ := exists_small (forkLabels ++ [.truncate 2 0, .truncate 2 4096])
    (P := fun τ => τ.sup.findExtentFollow (some 2) (extentBegin 0) = some ⟨11, false, false⟩)
    (by decide +kernel)
  replace hσ₂ := run_rest hσ hσ₂
  obtain ⟨f, hf, hmode⟩ := (Option.any_eq_true _ _).1 hfile
  obtain ⟨hclosed, hc⟩ := of_decide_eq_true hmode
  refine ⟨σ, σ₂, f, .small hσ, hst, hf, hclosed, hc, by decide, by decide, hσ₂, hshow, fun hz => ?_⟩
  have hnone := (hz 0 (Nat.zero_le _) (by decide)).1
  rw [hshow] at hnone
  cases hnone

end Sys

end Cyanfs
