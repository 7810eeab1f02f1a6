/-
# What happens to a mapping

After the mount a node of a file tree comes with an extent from `free_extents`,
loses its pending mark when its copy ends, and goes to `unused_extents`; nothing
else happens to it (`NodeStep`, `node_effect`).  The same for the COPY tasks:
one is added for a node that was not there, or the active one is done
(`copies_effect`).
-/

import Cyanfs.Metadata.Nodes
import Cyanfs.Core.Threads

namespace Cyanfs

open Lib Std

/-- The entries that take extents from a file. -/
def Entry.unmaps : Entry → Bool
  | .truncate _ _ | .delete _ | .unbind _ _ => true
  | _ => false

/-- The labels that can take extents from a file. -/
def Label.unmaps : Label → Bool
  | .truncate _ _ | .delete _ | .call (.discardLocked _) _ => true
  | _ => false

namespace Super

variable {s s' : Super} {f : File} {id i : ℕ}

/-! ### Where unmapped extents go -/

theorem ready_unmapExtent (s : Super) (id i : ℕ) : (s.unmapExtent id i).ready = s.ready := by
  obtain ⟨_, _, _, _, _, _, hs⟩ := unmapped_unmapExtent s id i
  rw [hs]

theorem unused_unmapExtent (s : Super) (id i : ℕ) : s.unused ⊆ (s.unmapExtent id i).unused := by
  cases he : s.extentAt id i with
  | none => rw [unmapExtent_of_none he]
  | some e =>
      rw [(unmapExtent_sets he).2.1]
      split_ifs
      · exact Finset.subset_insert _ _
      · exact Finset.Subset.refl _

theorem unused_foldl_unmapExtent (hk : s.Keyed) (hr : s.ready = true) (id : ℕ) (ks : List ℕ) :
    s.unused ⊆ (ks.foldl (fun s i => s.unmapExtent id i) s).unused ∧
    ∀ i ∈ ks, ∀ e, s.extentAt id i = some e →
      e.backend ∈ (ks.foldl (fun s i => s.unmapExtent id i) s).unused := by
  induction ks generalizing s with
  | nil => exact ⟨Finset.Subset.refl _, by simp⟩
  | cons k ks ih =>
      obtain ⟨h₁, h₂⟩ := ih (unmapExtent_keyed hk id k) ((ready_unmapExtent s id k).trans hr)
      refine ⟨(unused_unmapExtent s id k).trans h₁, fun i hi e he => ?_⟩
      by_cases hik : i = k
      · subst hik
        refine h₁ ?_
        rw [(unmapExtent_sets he).2.1, if_pos hr]
        exact Finset.mem_insert_self _ _
      · refine h₂ i (List.mem_of_ne_of_mem hik hi) e ?_
        rw [extentAt_unmapExtent hk, if_neg (by simp [hik])]
        exact he

theorem unused_truncateFile (hk : s.Keyed) (hr : s.ready = true) (f : File) (size : ℕ) :
    s.unused ⊆ (s.truncateFile f size).unused ∧
    ∀ i ∈ truncateKeys f size, ∀ e, s.extentAt f.id i = some e →
      e.backend ∈ (s.truncateFile f size).unused := by
  have h := unused_foldl_unmapExtent hk hr f.id (truncateKeys f size)
  have hu : (s.truncateFile f size).unused =
      ((truncateKeys f size).foldl (fun s i => s.unmapExtent f.id i) s).unused := by
    unfold truncateFile updFile
    split <;> rfl
  rwa [hu]

theorem unused_deleteFile (s : Super) (f : File) :
    (s.deleteFile f).unused = (s.truncateFile f 0).unused := by
  obtain ⟨_, hd⟩ := deleteFile_shape s f
  rw [hd]

/-- The mount frees the extents that an entry takes from a file. -/
theorem Replayed.unused {e : Entry} (h : s.Replayed e s') (hr : s.ready = false) :
    s'.unused = s.unused := by
  have hunmap : ∀ (s : Super) (id i : ℕ), s.ready = false →
      (s.unmapExtent id i).unused = s.unused := by
    intro s id i hr
    cases he : s.extentAt id i with
    | none => rw [unmapExtent_of_none he]
    | some e => rw [(unmapExtent_sets he).2.1, if_neg (by simp [hr])]
  have hfold : ∀ (ks : List ℕ) (s : Super) (id : ℕ), s.ready = false →
      (ks.foldl (fun s i => s.unmapExtent id i) s).unused = s.unused := by
    intro ks
    induction ks with
    | nil => exact fun _ _ _ => rfl
    | cons k ks ih =>
        intro s id hr
        rw [List.foldl_cons, ih _ id ((ready_unmapExtent s id k).trans hr), hunmap s id k hr]
  have htrunc : ∀ (f : File) (size : ℕ), (s.truncateFile f size).unused = s.unused := by
    intro f size
    rw [← hfold (truncateKeys f size) s f.id hr]
    unfold truncateFile updFile
    split <;> rfl
  cases h with
  | create hn h0 hlimit hlookup hi | fork hn h0 hlt hlimit hlookup hp hi =>
      obtain ⟨-, -, rfl⟩ := initFile_eq_ok.1 hi
      rfl
  | rename | next => rfl
  | @truncate _ size f hs hf hc => exact htrunc f size
  | @delete _ f hf hc => rw [unused_deleteFile, htrunc f 0]
  | bind hf hi hsize hb hfree hnone => rw [superToFile_eq hnone]; rfl
  | @unbind _ i f e hf hi hsize he => exact hunmap s f.id i hr

end Super

namespace Sys

variable {σ σ' : Sys} {id i total : ℕ}

/-! ### One node -/

/-- What a step after the mount does to the node with index `i` of file `id`. -/
inductive NodeStep (σ σ' : Sys) (id i : ℕ) : Prop
  | same (h : σ'.sup.extentAt id i = σ.sup.extentAt id i)
  /-- an extent is mapped -/
  | mapped {f : File} {e : Extent} (hf : σ.sup.filesById[id]? = some f)
      (hmode : f.openType = .readwrite) (hnone : σ.sup.extentAt id i = none)
      (he : σ'.sup.extentAt id i = some e) (hb : e.backend ∈ σ.sup.free)
  /-- the copy of the extent ends -/
  | copied {b : ℕ} {err : Bool} (h : σ.sup.extentAt id i = some ⟨b, true, false⟩)
      (h' : σ'.sup.extentAt id i = some ⟨b, false, err⟩)
  /-- the extent is unmapped -/
  | unmapped {f : File} {e : Extent} (hf : σ.sup.filesById[id]? = some f)
      (hmode : f.openType = .readwrite ∨ f.openType = .closed ∧ f.children = 0)
      (he : σ.sup.extentAt id i = some e) (hnone : σ'.sup.extentAt id i = none)
      (hu : e.backend ∈ σ'.sup.unused)
      (hlog : ∃ j, j.unmaps = true ∧ σ'.log.appended = σ.log.appended ++ [j])

theorem NodeStep.of_eq {s : Super} (h : s.extentAt id i = σ.sup.extentAt id i)
    (hs : σ'.sup.filesById = s.filesById) : σ.NodeStep σ' id i := by
  refine .same ?_
  rw [← h, Super.extentAt, hs]
  rfl

theorem nodeStep_op {j : JEntry} {s : Super} (hk : σ.sup.Keyed) (ho : σ.sup.Op j s)
    (hs : σ'.sup.filesById = s.filesById) (hu : σ'.sup.unused = s.unused)
    (hlog : σ'.log.appended = σ.log.appended ++ [j.entry]) : σ.NodeStep σ' id i := by
  have hat : σ'.sup.extentAt id i = s.extentAt id i := by rw [Super.extentAt, hs]; rfl
  have hr := ready_of_ensureStatus ho.ensureStatus
  cases ho with
  | create hn hst hlimit hmax hlookup hi =>
      exact .of_eq (Super.extentAt_initFile hi (by simp) id i) hs
  | fork hn hst hlimit hmax hp hmode hlookup hi =>
      exact .of_eq (Super.extentAt_initFile hi (by rintro _ ⟨⟩; exact hp) id i) hs
  | rename hn hst hlookup hf => exact .of_eq (Super.extentAt_renameFile hf _ id i) hs
  | @truncate f size hv hst hf hmode hc =>
      rw [Super.extentAt_truncateFile hk hf] at hat
      split_ifs at hat with h
      · obtain ⟨rfl, hi⟩ := h
        cases he : σ.sup.extentAt f.id i with
        | none => exact .same (hat.trans he.symm)
        | some e =>
            refine .unmapped hf (.inr ⟨hmode, hc⟩) he hat ?_ ⟨_, rfl, hlog⟩
            rw [hu]
            exact (Super.unused_truncateFile hk hr f size).2 i hi e he
      · exact .same hat
  | @delete f hst hf hmode hc =>
      rw [Super.extentAt_deleteFile hk hf] at hat
      split_ifs at hat with h
      · subst h
        cases he : σ.sup.extentAt f.id i with
        | none => exact .same (hat.trans he.symm)
        | some e =>
            have hi : i ∈ Super.truncateKeys f 0 := by
              have he' : f.extents[i]? = some e := by rwa [Super.extentAt_of_file hf] at he
              simp only [Super.truncateKeys, if_true, ExtTreeMap.mem_keys]
              grind
            refine .unmapped hf (.inr ⟨hmode, hc⟩) he hat ?_ ⟨_, rfl, hlog⟩
            rw [hu, Super.unused_deleteFile]
            exact (Super.unused_truncateFile hk hr f 0).2 i hi e he
      · exact .same hat
  | @bind f k b hst hf hmode hi hsize hroom hb hnone =>
      rw [Super.extentAt_superToFile hnone] at hat
      split_ifs at hat with h₁ h₂
      · subst h₁ h₂
        exact .mapped hf hmode (by rw [Super.extentAt_of_file hf, hnone]) hat hb
      · exact .same (by rw [hat, h₁, Super.extentAt_of_file hf])
      · exact .same hat
  | @unbind f k e hst hf hmode hi hsize he hp herr =>
      rw [Super.extentAt_unmapExtent hk] at hat
      split_ifs at hat with h
      · obtain ⟨rfl, rfl⟩ := h
        have hx : σ.sup.extentAt f.id i = some e := by rw [Super.extentAt_of_file hf, he]
        refine .unmapped hf (.inl hmode) hx hat ?_ ⟨_, rfl, hlog⟩
        rw [hu, (Super.unmapExtent_sets hx).2.1, if_pos hr]
        exact Finset.mem_insert_self _ _
      · exact .same hat

/-- **What a step after the mount does to a node.** -/
theorem node_effect (h : σ.Sound total) (hbug : σ.sup.bug = none) (hl : σ.loader = none)
    (he : σ.Effect σ') (id i : ℕ) : σ.NodeStep σ' id i := by
  have hk := h.calls.keyed
  rcases he.change_or_quiet with hc | ⟨hm, -, -⟩
  swap
  · exact .of_eq rfl hm.filesById
  cases hc with
  | @«open» f g _ hf hg _ _ _ he | @close f g hf _ _ hg _ _ he =>
      refine .of_eq (s := σ.sup.setFile g) ?_ (by rw [he])
      rw [Super.extentAt_setFile]
      split_ifs with hk
      · rw [hk, hg, Super.extentAt_of_file hf]
      · rfl
  | closeClosed he => exact .of_eq rfl (by rw [he])
  | @op j s cs ws ho he =>
      refine nodeStep_op hk ho (by rw [he]; rfl) (by rw [he]; rfl) ?_
      rw [he]
      exact appended_commit ho.journalHead j
  | @copyStart f k b src cs ws io _ _ _ _ hf hmode _ _ hb hnone he =>
      have hat : σ'.sup.extentAt id i = (σ.sup.copyPending f b k).extentAt id i := by rw [he]; rfl
      rw [Super.extentAt_copyPending hnone hf] at hat
      split_ifs at hat with h
      · obtain ⟨rfl, rfl⟩ := h
        exact .mapped hf hmode (by rw [Super.extentAt_of_file hf, hnone]) hat hb
      · exact .same hat
  | @copied k j b src err m junk hact he =>
      have hmem : (k, j, b, src) ∈ σ.copies := by
        rw [Sys.copies, tasks_of_active hact]
        exact List.mem_cons_self
      have hpend := (h.live.copies hbug).pending k j b src hmem
      have heq : (σ.sup.copyEnded k j err).MetaEq σ'.sup :=
        he ▸ metaEq_runTask_copy σ k j b src err m junk
      have hat : σ'.sup.extentAt id i = (σ.sup.copyEnded k j err).extentAt id i := by
        rw [Super.extentAt, heq.filesById]
        rfl
      rw [Super.copyEnded, Super.extentAt_markExtent hpend] at hat
      split_ifs at hat with h
      · obtain ⟨rfl, rfl⟩ := h
        exact .copied hpend (by rw [hat, Bool.false_or])
      · exact .same hat
  | mount hl' => rw [hl] at hl'; cases hl'

/-! ### What takes an extent from a file -/

/-- Nothing is appended, or an entry that takes no extent from a file. -/
def AppendsNoUnmap (σ σ' : Sys) : Prop := σ'.log.appended = σ.log.appended ∨
  ∃ j, j.unmaps = false ∧ σ'.log.appended = σ.log.appended ++ [j]

theorem appends_metaOp {r : Except Err Super} (h : ∀ s', r = .ok s' → ∃ j : JEntry,
    s'.journalHead = σ.sup.journalHead ++ [j] ∧ j.entry.unmaps = false) :
    σ.AppendsNoUnmap (σ.metaOp r) := by
  unfold metaOp
  cases r with
  | error e => exact .inl rfl
  | ok s' =>
      obtain ⟨j, hj, hu⟩ := h s' rfl
      refine .inr ⟨j.entry, hu, ?_⟩
      simp [flushNewJournal, addCall, commit, hj]

theorem journalHead_initFile {s s' : Super} {name : FileName} {parent : Option File}
    (h : s.initFile name id parent = .ok s') : s'.journalHead = s.journalHead := by
  obtain ⟨-, -, rfl⟩ := Super.initFile_eq_ok.1 h
  cases parent <;> rfl

theorem appends_create {name : FileName} {s' : Super} (h : σ.sup.create name = .ok s') :
    ∃ j : JEntry, s'.journalHead = σ.sup.journalHead ++ [j] ∧ j.entry.unmaps = false := by
  unfold Super.create at h
  split at h
  · cases h
  split_ifs at h
  split at h
  · cases h
  rename_i s₁ hi
  obtain rfl := Except.ok.inj h
  exact ⟨_, by rw [Super.append, journalHead_initFile hi], rfl⟩

theorem appends_fork {name : FileName} {s' : Super} (h : σ.sup.fork id name = .ok s') :
    ∃ j : JEntry, s'.journalHead = σ.sup.journalHead ++ [j] ∧ j.entry.unmaps = false := by
  unfold Super.fork at h
  split at h
  · cases h
  split at h
  · cases h
  split at h
  · cases h
  split at h
  · cases h
  split at h
  · cases h
  split at h
  · cases h
  rename_i s₁ hi
  obtain rfl := Except.ok.inj h
  exact ⟨_, by rw [Super.append, journalHead_initFile hi], rfl⟩

theorem appends_rename {name : FileName} {s' : Super} (h : σ.sup.rename id name = .ok s') :
    ∃ j : JEntry, s'.journalHead = σ.sup.journalHead ++ [j] ∧ j.entry.unmaps = false := by
  unfold Super.rename at h
  split at h
  · cases h
  split_ifs at h
  split at h
  · cases h
  obtain rfl := Except.ok.inj h
  exact ⟨_, rfl, rfl⟩

theorem appends_callStep {c : Call} {ok : Bool} (hc : (Label.call c ok).unmaps = false)
    (hs : σ.callStep c ok = some σ') : σ.AppendsNoUnmap σ' := by
  have hend : ∀ (c : Call) (io : IoCall) (st : Status),
      (σ.ioEnd c io st).log.appended = σ.log.appended := by
    intro c io st
    unfold ioEnd
    split_ifs <;> rfl
  cases c with
  | flusher min ondisk file =>
      obtain rfl := Option.some.inj hs
      exact .inl (quiet_flusherStart _ _ _ _ _ _).appended
  | flusherQueue ondisk file =>
      obtain rfl := Option.some.inj hs
      exact .inl (quiet_flusherQueue _ _ _ _).appended
  | flushType file =>
      obtain rfl := Option.some.inj hs
      exact .inl rfl
  | compact =>
      obtain rfl := Option.some.inj hs
      exact .inl (quiet_compactStart _ _).appended
  | compactInit endId =>
      obtain rfl := Option.some.inj hs
      exact .inl (quiet_compactInit _ _ _ _).appended
  | read io =>
      obtain rfl := Option.some.inj hs
      unfold readLookup
      split <;> exact .inl rfl
  | readHandler io arg =>
      obtain rfl := Option.some.inj hs
      unfold readReturn
      split_ifs <;> exact .inl rfl
  | write io =>
      obtain ⟨f, -, rfl⟩ := Option.map_eq_some_iff.1 hs
      unfold writeLookup
      split
      · exact .inl (hend _ _ _)
      split
      · exact .inl rfl
      split
      · split_ifs
        · exact .inl (hend _ _ _)
        · exact .inl rfl
        · exact .inl rfl
      · exact .inl rfl
  | writeAlloc io parent =>
      obtain ⟨f, -, rfl⟩ := Option.map_eq_some_iff.1 hs
      unfold writeAlloc
      split
      · exact .inl (hend _ _ _)
      split
      · exact .inl (hend _ _ _)
      split
      · exact .inl rfl
      split
      · exact .inl (hend _ _ _)
      rename_i s i b ha
      obtain ⟨-, -, rfl, hnone, rfl⟩ := allocExtent_eq_some ha
      split
      · exact .inl rfl
      · refine .inr ⟨.bind f.id (fileIndex (extentFrom io.off)) b, rfl, ?_⟩
        exact appended_commit (by rw [Super.superToFile_eq hnone]; rfl) _
  | writeHandler io arg epoch =>
      obtain rfl := Option.some.inj hs
      unfold writeReturn ioEnd
      cases epoch <;> simp only <;> split_ifs <;> exact .inl rfl
  | discard io =>
      obtain ⟨f, -, rfl⟩ := Option.map_eq_some_iff.1 hs
      unfold discardLookup
      split
      · exact .inl (hend _ _ _)
      · exact .inl rfl
      · split_ifs
        · exact .inl rfl
        · exact .inl (hend _ _ _)
  | discardLocked io => cases hc
  | discardHandler io arg =>
      obtain rfl := Option.some.inj hs
      unfold discardReturn
      split_ifs
      · exact .inl (hend _ _ _)
      · exact .inl rfl

theorem appends_done (σ : Sys) (t : Task) (err m : Bool) (junk : Buf) :
    σ.AppendsNoUnmap ({ σ with active := none }.runTask t err m junk) := by
  have hload : ∀ out, ({ σ with active := none }.loaded out).log.appended = σ.log.appended := by
    intro out
    cases out <;> rfl
  by_cases hloud : Loud t
  · cases t with
    | copy id i b src =>
        cases err with
        | true => exact .inl rfl
        | false =>
            refine .inr ⟨.bind id i b, rfl, ?_⟩
            refine appended_commit (σ := ioWrite { σ with active := none } _ false junk) ?_ _
            unfold Super.updFile
            split <;> rfl
    | loadHeader =>
        simp only [runTask]
        split
        · exact .inl rfl
        · split_ifs <;> exact .inl (hload _)
    | loadPage =>
        simp only [runTask]
        split
        · exact .inl rfl
        · split_ifs <;> exact .inl (hload _)
    | _ => exact hloud.elim
  · exact .inl (quiet_runTask { σ with active := none } hloud err m junk).appended

theorem appends_step {l : Label} (hl : l.unmaps = false) (hs : σ.step l = some σ') :
    σ.AppendsNoUnmap σ' := by
  unfold step at hs
  split at hs
  · cases hs
  cases l with
  | create name =>
      obtain rfl := Option.some.inj hs
      split
      · exact .inl rfl
      · exact appends_metaOp fun s' => appends_create
  | fork fromId name =>
      obtain rfl := Option.some.inj hs
      split
      · exact .inl rfl
      · exact appends_metaOp fun s' => appends_fork
  | rename id name =>
      obtain rfl := Option.some.inj hs
      split
      · exact .inl rfl
      · exact appends_metaOp fun s' => appends_rename
  | truncate id size | delete id => cases hl
  | «open» id write =>
      obtain rfl := Option.some.inj hs
      split <;> exact .inl rfl
  | close id =>
      simp only at hs
      split at hs
      · cases hs
      split_ifs at hs
      obtain rfl := Option.some.inj hs
      exact .inl rfl
  | superFlush ondisk | flush file | compact | requeue file =>
      obtain rfl := Option.some.inj hs
      exact .inl rfl
  | read file off len =>
      simp only at hs
      split at hs
      · cases hs
      split_ifs at hs <;> obtain rfl := Option.some.inj hs <;> exact .inl rfl
  | write file off len | discard file off len =>
      simp only at hs
      split at hs
      · cases hs
      obtain rfl := Option.some.inj hs
      split_ifs <;> exact .inl rfl
  | call c ok =>
      simp only at hs
      split_ifs at hs with hc
      exact appends_callStep hl hs
  | handlerWrite c start len data =>
      simp only at hs
      split at hs
      · split_ifs at hs
        obtain rfl := Option.some.inj hs
        exact .inl rfl
      · cases hs
  | get =>
      simp only at hs
      split at hs
      · obtain rfl := Option.some.inj hs
        exact .inl rfl
      · cases hs
  | done err m junk =>
      simp only at hs
      split at hs
      · rename_i t ht
        obtain rfl := Option.some.inj hs
        exact appends_done σ t err m junk
      · cases hs

/-- A node stays, with its extent, in a step that takes no extent from a file. -/
theorem node_stays {l : Label} {x : Extent} (h : σ.Sound total) (hl : σ.loader = none)
    (hkeep : l.unmaps = false) (hs : σ.step l = some σ') (hx : σ.sup.extentAt id i = some x) :
    ∃ y, σ'.sup.extentAt id i = some y ∧ y.backend = x.backend := by
  cases node_effect h (bug_of_step hs) hl (h.step hs).2 id i with
  | same he => exact ⟨x, he.trans hx, rfl⟩
  | mapped hf hmode hnone => rw [hx] at hnone; cases hnone
  | @copied b err hb hb' =>
      rw [hx] at hb
      exact ⟨_, hb', by rw [Option.some.inj hb]⟩
  | unmapped hf hmode he hnone hu hlog =>
      obtain ⟨j, hj, hlog⟩ := hlog
      rcases appends_step hkeep hs with hsame | ⟨k, hk, hk'⟩
      · rw [hlog] at hsame
        simp at hsame
      · rw [hlog] at hk'
        obtain rfl : j = k := by simpa using hk'
        rw [hj] at hk
        cases hk

/-- The same along a run. -/
theorem node_stays_run {ls : List Label} {x : Extent} (h : σ.Sound total) (hl : σ.loader = none)
    (hkeep : ∀ l ∈ ls, l.unmaps = false) (hrun : σ.run ls = some σ')
    (hx : σ.sup.extentAt id i = some x) :
    ∃ y, σ'.sup.extentAt id i = some y ∧ y.backend = x.backend := by
  induction ls generalizing σ x with
  | nil => exact ⟨x, Option.some.inj hrun ▸ hx, rfl⟩
  | cons l ls ih =>
      obtain ⟨τ, hs, hr⟩ := Option.bind_eq_some_iff.1 hrun
      obtain ⟨hτ, he⟩ := h.step hs
      obtain ⟨y, hy, hxy⟩ := node_stays h hl (hkeep l List.mem_cons_self) hs hx
      obtain ⟨z, hz, hyz⟩ := ih hτ (loader_effect he hl)
        (fun m hm => hkeep m (List.mem_cons_of_mem _ hm)) hr hy
      exact ⟨z, hz, hyz.trans hxy⟩

/-! ### The COPY tasks -/

/-- **What a step does to the COPY tasks.** -/
theorem copies_effect (h : σ.Sound total) (he : σ.Effect σ') : σ'.copies = σ.copies ∨
    (∃ f i b src, b ∈ σ.sup.free ∧ σ.sup.extentAt f i = none ∧
      σ'.sup.extentAt f i = some ⟨b, true, false⟩ ∧ σ'.copies = σ.copies ++ [(f, i, b, src)]) ∨
    ∃ x, σ.copies = x :: σ'.copies := by
  rcases (accounted_effect h.account h.extents.fresh he).2 with hc | ⟨-, -, hcp⟩
  swap
  · exact .inl hcp
  cases hc with
  | «open» _ _ _ _ _ _ he | close _ _ _ _ _ _ he | closeClosed he | op _ he =>
      exact .inl (by rw [he]; rfl)
  | @copyStart f i b src cs ws io _ _ _ _ hf hmode _ _ hb hnone he =>
      refine .inr (.inl ⟨f.id, i, b, src, hb, by rw [Super.extentAt_of_file hf, hnone], ?_, ?_⟩)
      · have : σ'.sup.extentAt f.id i = (σ.sup.copyPending f b i).extentAt f.id i := by rw [he]; rfl
        rw [this, Super.extentAt_copyPending hnone hf, if_pos ⟨rfl, rfl⟩]
      · rw [he, Sys.copies, Sys.tasks, ← List.append_assoc, List.filterMap_append]
        rfl
  | @copied id i b src err m junk hact he =>
      refine .inr (.inr ⟨(id, i, b, src), ?_⟩)
      rw [Sys.copies, tasks_of_active hact, he]
      cases err <;> rfl
  | @mount l out hl ho he =>
      refine .inl ?_
      have hrest : Sys.copies { σ with active := none } = σ.copies := by
        rcases ho.active with ht | ht <;> rw [copies, copies, tasks_of_active ht] <;> rfl
      rw [he, (tail_loaded ho).copies, hrest]

/-- An extent is bound to one node at most. -/
theorem Sound.bound_once (h : σ.Sound total) {x y : Extent} {k j : ℕ}
    (hx : σ.sup.extentAt id i = some x) (hy : σ.sup.extentAt k j = some y)
    (hb : x.backend = y.backend) : id = k ∧ i = j := by
  have hxo : x.backend ∈ σ.sup.owned σ.held (.file id i) := by simp [Super.owned, hx]
  have hyo : x.backend ∈ σ.sup.owned σ.held (.file k j) := by simp [Super.owned, hy, hb]
  have := h.extents.sup.parts.mem_unique _ _ hxo hyo
  simpa using this

theorem mem_bound_of_extentAt {s : Super} {x : Extent} (hx : s.extentAt id i = some x) :
    x.backend ∈ s.bound := ⟨id, i, by rw [hx]; rfl⟩

end Sys

end Cyanfs
