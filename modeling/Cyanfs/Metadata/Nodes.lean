/-
# The metadata of any mounted image

Whatever the disk holds, the loader replays only entries that keep the tables
right, and every public operation keeps them right after that: in every state of
every run the super represents well-formed metadata (`Reachable.liveOk`).

The one change of the metadata that is not made by the thread that appends its
entry is the end of a copy.  `CopiesOk` ties the COPY tasks to the pending nodes
of the files, so that the BIND entry of a finished copy makes sense when it is
appended, whatever came in between.
-/

import Cyanfs.Extents.System
import Cyanfs.Metadata.Live
import Cyanfs.Metadata.Replay
import Cyanfs.Run.Account

namespace Cyanfs

open Lib Std

namespace Super

variable {s s' : Super} {f : File} {b i id : ℕ}

/-! ### Pending nodes -/

/-- The two supers have the same pending nodes. -/
def SamePending (s s' : Super) : Prop := ∀ id i x, x.pending = true →
  (s'.extentAt id i = some x ↔ s.extentAt id i = some x)

theorem samePending_of_extentAt (h : ∀ id i, s'.extentAt id i = s.extentAt id i) :
    s.SamePending s' := fun id i x _ => by rw [h]

theorem bug_unmapExtent (h : (s.unmapExtent id i).bug = none) :
    s.bug = none ∧ ∀ e, s.extentAt id i = some e → e.pending = false := by
  cases he : s.extentAt id i with
  | none =>
      rw [unmapExtent_of_none he] at h
      exact ⟨h, by simp⟩
  | some e =>
      rw [(unmapExtent_sets he).2.2.2.2] at h
      split_ifs at h with hp
      refine ⟨h, fun e' he' => ?_⟩
      obtain rfl := Option.some.inj he'
      simpa using hp

/-- A truncation that runs into a pending node is a bug. -/
theorem bug_foldl_unmapExtent (hk : s.Keyed) {ks : List ℕ}
    (h : (ks.foldl (fun s i => s.unmapExtent id i) s).bug = none) :
    s.bug = none ∧ ∀ i ∈ ks, ∀ e, s.extentAt id i = some e → e.pending = false := by
  induction ks generalizing s with
  | nil => exact ⟨h, by simp⟩
  | cons k ks ih =>
      obtain ⟨h₁, h₂⟩ := ih (unmapExtent_keyed hk id k) h
      obtain ⟨h₃, h₄⟩ := bug_unmapExtent h₁
      refine ⟨h₃, fun i hi e he => ?_⟩
      rcases List.mem_cons.1 hi with rfl | hi
      · exact h₄ e he
      · by_cases hik : i = k
        · exact h₄ e (hik ▸ he)
        · refine h₂ i hi e ?_
          rw [extentAt_unmapExtent hk, if_neg (by simp [hik])]
          exact he

theorem bug_truncateFile (hk : s.Keyed) {size : ℕ} (h : (s.truncateFile f size).bug = none) :
    ∀ i ∈ truncateKeys f size, ∀ e, s.extentAt f.id i = some e → e.pending = false := by
  have : (s.truncateFile f size).bug =
      ((truncateKeys f size).foldl (fun s i => s.unmapExtent f.id i) s).bug := by
    unfold truncateFile updFile
    split <;> rfl
  rw [this] at h
  exact (bug_foldl_unmapExtent hk h).2

/-- Nodes that are not pending are unmapped without a bug. -/
theorem bug_unmapExtent_settled (h : ∀ e, s.extentAt id i = some e → e.pending = false) :
    (s.unmapExtent id i).bug = s.bug := by
  cases he : s.extentAt id i with
  | none => rw [unmapExtent_of_none he]
  | some e => rw [(unmapExtent_sets he).2.2.2.2, if_neg (by simp [h e he])]

theorem bug_truncateFile_settled (hk : s.Keyed) {f : File}
    (h : ∀ i e, s.extentAt f.id i = some e → e.pending = false) (size : ℕ) :
    (s.truncateFile f size).bug = s.bug := by
  have hfold : ∀ (ks : List ℕ) (s : Super), s.Keyed →
      (∀ i e, s.extentAt f.id i = some e → e.pending = false) →
      (ks.foldl (fun s i => s.unmapExtent f.id i) s).bug = s.bug := by
    intro ks
    induction ks with
    | nil => exact fun _ _ _ => rfl
    | cons k ks ih =>
        intro s hk h
        rw [List.foldl_cons, ih _ (unmapExtent_keyed hk f.id k), bug_unmapExtent_settled (h k)]
        intro j e he
        rw [extentAt_unmapExtent hk] at he
        split_ifs at he
        exact h j e he
  rw [← hfold (truncateKeys f size) s hk h]
  unfold truncateFile updFile
  split <;> rfl

/-- No entry that is replayed meets a pending node. -/
theorem Replayed.bug_eq {e : Entry} (hk : s.Keyed) (hs : s.Settled) (hr : s.Replayed e s') :
    s'.bug = s.bug := by
  have h : ∀ id i x, s.extentAt id i = some x → x.pending = false := fun id i x hx => (hs id i x hx).1
  cases hr with
  | create hn h0 hlimit hlookup hi | fork hn h0 hlt hlimit hlookup hp hi =>
      obtain ⟨-, -, rfl⟩ := initFile_eq_ok.1 hi
      rfl
  | rename | next => rfl
  | @truncate _ size f hs hf hc => exact bug_truncateFile_settled hk (h f.id) size
  | @delete _ f hf hc =>
      obtain ⟨_, hd⟩ := deleteFile_shape s f
      rw [hd]
      exact bug_truncateFile_settled hk (h f.id) 0
  | bind hf hi hsize hb hfree hnone =>
      rw [superToFile_eq hnone]
      rfl
  | @unbind _ i f e hf hi hsize he => exact bug_unmapExtent_settled (h f.id i)

/-- No operation touches a pending node, or it is a bug. -/
theorem Op.samePending {j : JEntry} (hk : s.Keyed) (ho : s.Op j s') (hb : s'.bug = none) :
    s.SamePending s' := by
  cases ho with
  | create hn hs hlimit hmax hlookup hi =>
      exact samePending_of_extentAt (extentAt_initFile hi (by simp))
  | fork hn hs hlimit hmax hp hmode hlookup hi =>
      exact samePending_of_extentAt (extentAt_initFile hi (by rintro _ ⟨⟩; exact hp))
  | rename hn hs hlookup hf => exact samePending_of_extentAt (extentAt_renameFile hf _)
  | @truncate f size hv hs hf hmode hc =>
      intro k j x hx
      rw [extentAt_truncateFile hk hf]
      split_ifs with hkj
      · obtain ⟨rfl, hj⟩ := hkj
        constructor
        · rintro ⟨⟩
        · intro he
          rw [bug_truncateFile hk hb j hj x he] at hx
          cases hx
      · rfl
  | @delete f hs hf hmode hc =>
      obtain ⟨t, hd⟩ := deleteFile_shape s f
      have hb' : (s.truncateFile f 0).bug = none := by rw [hd] at hb; exact hb
      intro k j x hx
      rw [extentAt_deleteFile hk hf]
      split_ifs with hkf
      · constructor
        · rintro ⟨⟩
        · intro he
          rw [hkf] at he
          have hj : j ∈ truncateKeys f 0 := by
            have he' : f.extents[j]? = some x := by rwa [extentAt_of_file hf] at he
            simp only [truncateKeys, if_true, ExtTreeMap.mem_keys]
            grind
          rw [bug_truncateFile hk hb' j hj x he] at hx
          cases hx
      · rfl
  | @bind f i b hs hf hmode hi hsize hroom hfree hnone =>
      intro k j x hx
      rw [extentAt_superToFile hnone]
      split_ifs with hkf hji
      · subst hkf hji
        rw [extentAt_of_file hf, hnone]
        constructor
        · rintro ⟨⟩
          cases hx
        · rintro ⟨⟩
      · rw [hkf, extentAt_of_file hf]
      · rfl
  | @unbind f i e hs hf hmode hi hsize he hp herr =>
      intro k j x hx
      rw [extentAt_unmapExtent hk]
      split_ifs with hkj
      · obtain ⟨rfl, rfl⟩ := hkj
        rw [extentAt_of_file hf, he]
        constructor
        · rintro ⟨⟩
        · rintro ⟨⟩
          rw [hp] at hx
          cases hx
      · rfl

theorem extentAt_markExtent {x : Extent} (he : s.extentAt id i = some x) (u : Extent → Extent)
    (k j : ℕ) : (s.updFile id fun f => f.markExtent i u).extentAt k j =
      if k = id ∧ j = i then some (u x) else s.extentAt k j := by
  obtain ⟨f, hf, hi⟩ := extentAt_eq_some.1 he
  simp only [extentAt, filesById_updFile]
  by_cases hk : k = id
  · subst hk
    simp only [if_true, true_and, hf, Option.map_some, Option.bind_some, File.markExtent, hi]
    split_ifs with hj
    · simp [hj]
    · grind
  · simp [hk]

theorem extentAt_copyPending (hnone : f.extents[i]? = none)
    (hf : s.filesById[f.id]? = some f) (k j : ℕ) : (s.copyPending f b i).extentAt k j =
      if k = f.id ∧ j = i then some ⟨b, true, false⟩ else s.extentAt k j := by
  have hat : (s.superToFile f b i).extentAt f.id i = some ⟨b, false, false⟩ := by
    rw [extentAt_superToFile hnone]
    simp
  rw [copyPending, extentAt_markExtent hat, extentAt_superToFile hnone]
  by_cases hk : k = f.id
  · subst hk
    by_cases hj : j = i
    · simp [hj]
    · simp [hj, extentAt_of_file hf]
  · simp [hk]

end Super

namespace Sys

variable {σ σ' : Sys} {total : ℕ}

/-- The COPY tasks are the pending nodes. -/
structure CopiesOk (σ : Sys) : Prop where
  nodup : (σ.copies.map fun c => (c.1, c.2.1)).Nodup
  pending : ∀ f i b src, (f, i, b, src) ∈ σ.copies → σ.sup.extentAt f i = some ⟨b, true, false⟩
  task : ∀ f i x, σ.sup.extentAt f i = some x → x.pending = true →
    ∃ src, (f, i, x.backend, src) ∈ σ.copies

theorem CopiesOk.same (h : σ.CopiesOk) (hs : σ.sup.SamePending σ'.sup)
    (hc : σ'.copies = σ.copies) : σ'.CopiesOk := by
  refine ⟨hc ▸ h.nodup, fun f i b src hm => ?_, fun f i x hx hp => ?_⟩
  · rw [hs f i _ rfl]
    exact h.pending f i b src (hc ▸ hm)
  · rw [hc]
    exact h.task f i x ((hs f i x hp).1 hx) hp

theorem samePending_of_metaEq {s s' : Super} (h : s.MetaEq s') : s.SamePending s' :=
  Super.samePending_of_extentAt fun id i => by simp [Super.extentAt, h.filesById]

theorem copiesOk_start {f : File} {i b : ℕ} (src : ℕ) (h : σ.CopiesOk)
    (hf : σ.sup.filesById[f.id]? = some f) (hnone : f.extents[i]? = none)
    (hs : σ'.sup.filesById = (σ.sup.copyPending f b i).filesById)
    (hc : σ'.copies = σ.copies ++ [(f.id, i, b, src)]) : σ'.CopiesOk := by
  have hat : ∀ k j, σ'.sup.extentAt k j =
      if k = f.id ∧ j = i then some ⟨b, true, false⟩ else σ.sup.extentAt k j := by
    intro k j
    rw [← Super.extentAt_copyPending hnone hf k j, Super.extentAt, hs]
    rfl
  have hempty : σ.sup.extentAt f.id i = none := by rw [Super.extentAt_of_file hf, hnone]
  refine ⟨?_, fun k j c s hm => ?_, fun k j x hx hp => ?_⟩
  · rw [hc, List.map_append, List.nodup_append]
    refine ⟨h.nodup, by simp, ?_⟩
    rintro a ha _ hb rfl
    obtain ⟨⟨k, j, c, s⟩, hm, rfl⟩ := List.mem_map.1 ha
    have hp := h.pending k j c s hm
    simp only [List.map_cons, List.map_nil, List.mem_singleton, Prod.mk.injEq] at hb
    rw [hb.1, hb.2, hempty] at hp
    cases hp
  · rw [hat]
    rw [hc] at hm
    rcases List.mem_append.1 hm with hm | hm
    · have hp := h.pending k j c s hm
      rw [if_neg, hp]
      rintro ⟨rfl, rfl⟩
      rw [hempty] at hp
      cases hp
    · simp only [List.mem_singleton, Prod.mk.injEq] at hm
      obtain ⟨rfl, rfl, rfl, -⟩ := hm
      rw [if_pos ⟨rfl, rfl⟩]
  · rw [hat] at hx
    rw [hc]
    split_ifs at hx with hkj
    · obtain rfl := Option.some.inj hx
      exact ⟨src, List.mem_append_right _ (by rw [hkj.1, hkj.2]; exact List.mem_singleton_self _)⟩
    · obtain ⟨s, hm⟩ := h.task k j x hx hp
      exact ⟨s, List.mem_append_left _ hm⟩

theorem copiesOk_ended {id i b src : ℕ} {err : Bool} (h : σ.CopiesOk)
    (hc : σ.copies = (id, i, b, src) :: σ'.copies)
    (hs : σ'.sup.filesById = (σ.sup.copyEnded id i err).filesById) : σ'.CopiesOk := by
  have hnd := h.nodup
  rw [hc, List.map_cons, List.nodup_cons] at hnd
  have hp₀ := h.pending id i b src (by rw [hc]; exact List.mem_cons_self)
  have hat : ∀ k j, σ'.sup.extentAt k j =
      if k = id ∧ j = i then some ⟨b, false, err⟩ else σ.sup.extentAt k j := by
    intro k j
    have := Super.extentAt_markExtent hp₀
      (fun e => { e with pending := false, error := e.error || err }) k j
    rw [show (⟨b, false, err⟩ : Extent) = ⟨b, false, false || err⟩ by simp]
    rw [← this, Super.extentAt, hs]
    rfl
  refine ⟨hnd.2, fun k j c s hm => ?_, fun k j x hx hp => ?_⟩
  · rw [hat, if_neg]
    · exact h.pending k j c s (by rw [hc]; exact List.mem_cons_of_mem _ hm)
    · rintro ⟨rfl, rfl⟩
      exact hnd.1 (List.mem_map.2 ⟨_, hm, rfl⟩)
  · rw [hat] at hx
    split_ifs at hx with hkj
    · obtain rfl := Option.some.inj hx
      cases hp
    · obtain ⟨s, hm⟩ := h.task k j x hx hp
      rw [hc] at hm
      rcases List.mem_cons.1 hm with hm | hm
      · simp only [Prod.mk.injEq] at hm
        exact absurd ⟨hm.1, hm.2.1⟩ hkj
      · exact ⟨s, hm⟩

theorem bug_of_step {l : Label} (h : σ.step l = some σ') : σ.sup.bug = none := by
  unfold step at h
  split_ifs at h with hb
  exact not_not.1 hb

/-! ### Live metadata along a run -/

/-- The tables are right, the COPY tasks are the pending nodes, and there is no
such node while the mount is under way. -/
structure LiveOk (σ : Sys) (total : ℕ) : Prop where
  live : σ.sup.Live total
  copies : σ.sup.bug = none → σ.CopiesOk
  settled : σ.loader ≠ none → σ.sup.Settled

theorem live_of_loading {s : Super} {held : ℕ → Finset ℕ} (h : s.Loading held total) :
    s.Live total := by
  refine ⟨h.rep, h.wf, fun id f i hf hi => ⟨h.index_le hf i hi, ?_⟩⟩
  obtain ⟨x, hx⟩ := Option.ne_none_iff_exists'.1 hi
  have hm : f.info.map i = some x.backend := by
    rw [h.settled.map_eq hf, hx]
    rfl
  exact (h.wf.range id f.info i x.backend (Super.metadata_files_of hf) hm).2.1

theorem LiveOk.loading (h : σ.LiveOk total) (hx : σ.ExtentsOk) (ht : σ.sup.totalExtents = total)
    (hl : σ.loader ≠ none) : σ.sup.Loading σ.held total :=
  ⟨h.live.rep, h.live.wf, hx.sup, ht, h.settled hl⟩

/-- No node is pending, so there is no COPY task. -/
theorem CopiesOk.eq_nil (h : σ.CopiesOk) (hs : σ.sup.Settled) : σ.copies = [] := by
  refine List.eq_nil_iff_forall_not_mem.2 fun ⟨f, i, b, src⟩ hm => ?_
  have := (hs f i _ (h.pending f i b src hm)).1
  cases this

theorem copiesOk_of_settled (hc : σ.copies = []) (hs : σ.sup.Settled) : σ.CopiesOk := by
  refine ⟨by simp [hc], by simp [hc], fun f i x hx hp => ?_⟩
  rw [(hs f i x hx).1] at hp
  cases hp

theorem Settled.of_metaEq {s s' : Super} (h : s.Settled) (hm : s.MetaEq s') : s'.Settled := by
  intro id i x hx
  refine h id i x ?_
  rwa [Super.extentAt, hm.filesById] at hx

/-- The nodes are those of before, so they are settled if they were. -/
theorem LiveOk.of_same (h : σ.LiveOk total) (hlive : σ'.sup.Live total) (hbug : σ.sup.bug = none)
    (hs : ∀ id i, σ'.sup.extentAt id i = σ.sup.extentAt id i) (hc : σ'.copies = σ.copies)
    (hl : σ'.loader = σ.loader) : σ'.LiveOk total := by
  refine ⟨hlive, fun _ => (h.copies hbug).same (Super.samePending_of_extentAt hs) hc, ?_⟩
  intro hn id i x hx
  rw [hs] at hx
  exact h.settled (hl ▸ hn) id i x hx

theorem liveOk_mount {l : Loader} {out : LoaderOut} (hx : σ.ExtentsOk)
    (ht : σ.sup.totalExtents = total) (h : σ.LiveOk total) (hbug : σ.sup.bug = none)
    (hl : σ.loader = some l) (ho : σ.MountOut l out) :
    LiveOk ({ σ with active := none }.loaded out) total := by
  have hload := h.loading hx ht (by simp [hl])
  have hout : out.super.Loading σ.held total :=
    ho.rule (P := fun X => X.Loading σ.held total) (fun _ c h => h.cursor c)
      (fun _ _ _ hr h => h.replay (Super.replay_eq_ok.2 hr)) hload
  have hnil := (h.copies hbug).eq_nil (h.settled (by simp [hl]))
  have hcopies : ({ σ with active := none }.loaded out).copies = [] := by
    have hrest : Sys.copies { σ with active := none } = [] := by
      rcases ho.active with ht | ht <;> rw [copies, tasks_of_active ht] at hnil <;> exact hnil
    rw [(tail_loaded ho).copies, hrest]
  have hsettled := hout.settled
  have hlive := live_of_loading hout
  cases out with
  | readPage l X => exact ⟨hlive, fun _ => copiesOk_of_settled hcopies hsettled, fun _ => hsettled⟩
  | finish l X =>
      exact ⟨⟨hlive.rep.congr hlive.rep.keyed rfl rfl fun _ => rfl, hlive.wf, hlive.range⟩,
        fun _ => copiesOk_of_settled hcopies hsettled, fun hn => absurd rfl hn⟩
  | error X =>
      exact ⟨⟨hlive.rep.congr hlive.rep.keyed rfl rfl fun _ => rfl, hlive.wf, hlive.range⟩,
        fun _ => copiesOk_of_settled hcopies hsettled, fun hn => absurd rfl hn⟩

/-- **Every step keeps the metadata well formed**, those of the mount included. -/
theorem liveOk_effect (hcalls : σ.CallsOk) (hx : σ.ExtentsOk) (ht : σ.sup.totalExtents = total)
    (hacc : σ.Accounted) (hbug : σ.sup.bug = none) (h : σ.LiveOk total) (he : σ.Effect σ') :
    σ'.LiveOk total := by
  have hcopies := h.copies hbug
  -- while the mount is under way no operation gets past its status check
  have hnot : ∀ {P : Prop}, σ.sup.ensureStatus = none → σ'.loader = σ.loader → σ'.loader ≠ none → P := by
    intro P hs hl hn
    exact absurd (ready_of_ensureStatus hs) (by simp [hcalls.loading (hl ▸ hn)])
  rcases (accounted_effect hacc hx.fresh he).2 with hc | ⟨hm, -, hcp⟩
  swap
  · refine ⟨hm.live h.live, fun _ => hcopies.same (samePending_of_metaEq hm) hcp, fun hn => ?_⟩
    have hl : σ.loader ≠ none := fun hl => hn (loader_effect he hl)
    exact Settled.of_metaEq (h.settled hl) hm
  cases hc with
  | @«open» f g _ hf hg _ _ _ he | @close f g hf _ _ hg _ _ he =>
      obtain ⟨hlive, -⟩ := h.live.setFile hf hg
      subst he
      refine h.of_same hlive hbug (fun k j => ?_) rfl rfl
      rw [Super.extentAt_setFile]
      split_ifs with hk
      · rw [hk, hg, Super.extentAt_of_file hf]
      · rfl
  | closeClosed he =>
      subst he
      exact ⟨⟨h.live.rep.congr h.live.rep.keyed rfl rfl fun _ => rfl, h.live.wf, h.live.range⟩,
        fun hb => absurd hb (by simp), h.settled⟩
  | @op j s cs ws ho he =>
      obtain ⟨-, -, hlive⟩ := ho.metadata h.live hx.sup ht
      have heq : s.MetaEq σ'.sup := he ▸ ⟨rfl, rfl, rfl, rfl, rfl, rfl, rfl, rfl, rfl⟩
      refine ⟨heq.live hlive, fun hb => hcopies.same ?_ (by rw [he]; rfl),
        hnot ho.ensureStatus (by rw [he]; rfl)⟩
      have hsp := ho.samePending h.live.rep.keyed (heq.bug ▸ hb)
      intro k i x hp
      rw [samePending_of_metaEq heq k i x hp, hsp k i x hp]
  | @copyStart f i b src cs ws io _ _ _ hs hf _ hi hsize _ hnone he =>
      obtain ⟨-, hlive⟩ := Super.metadata_copyPending (b := b) h.live hf hnone hi hsize
      have heq : (σ.sup.copyPending f b i).MetaEq σ'.sup :=
        he ▸ ⟨rfl, rfl, rfl, rfl, rfl, rfl, rfl, rfl, rfl⟩
      refine ⟨heq.live hlive, fun _ => ?_, hnot hs (by rw [he])⟩
      refine copiesOk_start src hcopies hf hnone (by rw [he]) ?_
      rw [he, Sys.copies, Sys.tasks, ← List.append_assoc, List.filterMap_append]
      rfl
  | @copied id i b src err m junk hact he =>
      have hmem : (id, i, b, src) ∈ σ.copies := by
        rw [Sys.copies, tasks_of_active hact]
        exact List.mem_cons_self
      have hpend := hcopies.pending id i b src hmem
      obtain ⟨hlive, -⟩ := Super.metadata_copyEnded h.live hx.sup ht hpend err
      have heq : (σ.sup.copyEnded id i err).MetaEq σ'.sup :=
        he ▸ metaEq_runTask_copy σ id i b src err m junk
      have hcp : σ.copies = (id, i, b, src) :: σ'.copies := by
        rw [Sys.copies, tasks_of_active hact, he]
        cases err <;> rfl
      refine ⟨heq.live hlive, fun _ => copiesOk_ended hcopies hcp heq.filesById, fun hn => ?_⟩
      have hl : σ.loader ≠ none := by
        rw [he] at hn
        cases err <;> exact hn
      rw [hcopies.eq_nil (h.settled hl)] at hmem
      cases hmem
  | mount hl ho he =>
      subst he
      exact liveOk_mount hx ht h hbug hl ho

theorem accounted_opened (total : ℕ) (discard compact : Bool) (uuid : Uuid) (disk : Buf) :
    (Sys.opened total discard compact uuid disk).Accounted := by
  refine ⟨⟨List.Pairwise.nil, ?_, ?_⟩, fun _ => rfl, List.nil_prefix⟩
  · intro n hn
    cases hn
  · intro fl req hm
    simp [Sys.opened, tasks] at hm

/-- The callbacks of the mount run into no bug. -/
theorem MountOut.bug {l : Loader} {out : LoaderOut} (ho : σ.MountOut l out) (hσ : σ.CallsOk)
    (h : σ.LiveOk total) (hl : σ.loader ≠ none) (hbug : σ.sup.bug = none) : out.super.bug = none := by
  refine (ho.rule (P := fun X => X.bug = none ∧ X.Keyed ∧ X.Settled) (fun _ _ h => h)
    (fun X X' e hr h => ?_) ⟨hbug, hσ.keyed, h.settled hl⟩).1
  exact ⟨(hr.bug_eq h.2.1 h.2.2).trans h.1, (hr.derives h.2.1).keyed h.2.1, hr.settled h.2.1 h.2.2⟩

theorem liveOk_opened (total : ℕ) (discard compact : Bool) (uuid : Uuid) (disk : Buf) :
    (Sys.opened total discard compact uuid disk).LiveOk total := by
  have hs : (Sys.opened total discard compact uuid disk).sup.Settled := by
    intro id i x hx
    simp [Super.extentAt, Sys.opened, Super.opened] at hx
  exact ⟨Super.live_opened .., fun _ => copiesOk_of_settled rfl hs, fun _ => hs⟩

/-- What holds in every state of every run, whatever the disk holds. -/
structure Sound (σ : Sys) (total : ℕ) : Prop where
  calls : σ.CallsOk
  extents : σ.ExtentsOk
  totalExtents : σ.sup.totalExtents = total
  account : σ.Accounted
  live : σ.LiveOk total

theorem Sound.step {l : Label} (h : σ.Sound total) (hs : σ.step l = some σ') :
    σ'.Sound total ∧ σ.Effect σ' := by
  have he := step_effect h.calls hs
  exact ⟨⟨callsOk_step h.calls hs, extentsOk_effect h.extents he,
    (totalExtents_effect he).trans h.totalExtents, (accounted_effect h.account h.extents.fresh he).1,
    liveOk_effect h.calls h.extents h.totalExtents h.account (bug_of_step hs) h.live he⟩, he⟩

theorem Sound.run {ls : List Label} (h : σ.Sound total) (hrun : σ.run ls = some σ') :
    σ'.Sound total := by
  induction ls generalizing σ with
  | nil => exact Option.some.inj hrun ▸ h
  | cons l ls ih =>
      obtain ⟨τ, hs, hr⟩ := Option.bind_eq_some_iff.1 hrun
      exact ih (h.step hs).1 hr

/-- A call on a file is made after the mount. -/
theorem Sound.loader_of_call {c : Call} {io : IoCall} (h : σ.Sound total) (hc : c ∈ σ.calls)
    (hio : c.io? = some io) : σ.loader = none := by
  by_contra hl
  obtain ⟨f, hf, hopen, -⟩ := h.calls.calls c hc io hio
  exact hopen (h.calls.closed (h.calls.loading hl) _ f hf)

theorem sound_opened (total : ℕ) (discard compact : Bool) (uuid : Uuid) (disk : Buf) :
    (Sys.opened total discard compact uuid disk).Sound total :=
  ⟨callsOk_opened .., extentsOk_opened .., rfl, accounted_opened .., liveOk_opened ..⟩

/-- **Every state of every run is sound.** -/
theorem Reachable.sound {discard compact : Bool} {uuid : Uuid} {disk : Buf}
    (h : (Sys.opened total discard compact uuid disk).Reachable σ) : σ.Sound total :=
  h.rule (P := fun σ => σ.Sound total) (sound_opened ..) fun _ _ _ hp hs => (hp.step hs).1

end Sys

end Cyanfs
