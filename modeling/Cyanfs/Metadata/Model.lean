/-
# The metadata as the journal describes it

An abstract model of what the journal is for.  `Metadata` is a finite family of
files, each with a parent, a name, a size and a partial map from extent indexes
to backend extents, and the largest file id ever handed out.  The machine
`metadata total` says which entries make sense for it (`Metadata.Admits`) and
what they change (`Metadata.after`) on a disk with `total` extents.

There are no counters and no name index here: the number of files, the children
of a file and the owner of a name are read off the family.  That the C structures
represent such a family is the subject of `Cyanfs.Metadata.Table`.
-/

import Cyanfs.Core.Table
import Cyanfs.Lib.Guarded
import Mathlib.Data.Set.Card
import Mathlib.Data.Set.Finite.Lattice

namespace Cyanfs

open Lib

/-- What the journal says about a file. -/
@[ext] structure FileInfo where
  parent : Option ℕ
  name : FileName
  size : ℕ
  map : ℕ → Option ℕ

/-- The files by id and the largest id handed out. -/
@[ext] structure Metadata where
  files : ℕ → Option FileInfo
  maxFileId : ℕ

namespace Metadata

/-- No file, no id handed out. -/
def empty : Metadata := ⟨fun _ => none, 0⟩

variable (m : Metadata)

/-- The ids of the files. -/
def ids : Set ℕ := {id | m.files id ≠ none}

/-- The ids of the files that were forked from `id`. -/
def children (id : ℕ) : Set ℕ := {k | ∃ f, m.files k = some f ∧ f.parent = some id}

/-- The ids of the files with the given name. -/
def named (name : FileName) : Set ℕ := {k | ∃ f, m.files k = some f ∧ f.name = name}

/-- The extents that some file is mapped to. -/
def bound : Set ℕ := {b | ∃ id f i, m.files id = some f ∧ f.map i = some b}

/-- Change the file with the given id. -/
def modify (id : ℕ) (g : FileInfo → FileInfo) : Metadata :=
  { m with files := Function.update m.files id ((m.files id).map g) }

/-- Add a file under an id. -/
def add (id : ℕ) (f : FileInfo) : Metadata :=
  ⟨Function.update m.files id (some f), max m.maxFileId id⟩

end Metadata

/-- The file cut or extended to `size`. -/
def FileInfo.resize (f : FileInfo) (size : ℕ) : FileInfo :=
  { f with size := size, map := fun i => if extentBegin i < size then f.map i else none }

/-- The name that the file system stores for `raw`. -/
def FileName.stored (raw : FileName) : FileName := raw.normalize.getD raw

namespace Metadata

variable (m : Metadata)

/-- The file that a FORK entry adds. -/
def forked (pid : ℕ) (name : FileName) : FileInfo :=
  ⟨some pid, name, ((m.files pid).map (·.size)).getD 0, fun _ => none⟩

/-- A file with this id and name may be added. -/
def CanAdd (id : ℕ) (raw : FileName) : Prop :=
  raw.normalize ≠ none ∧ id ≠ 0 ∧ id ∉ m.ids ∧ m.named raw.stored = ∅ ∧
    m.ids.ncard < superMaxFiles

/-- The entry makes sense. -/
def Admits (total : ℕ) : Entry → Prop
  | .create id raw => m.CanAdd id raw
  | .fork id pid raw => m.CanAdd id raw ∧ pid < id ∧ pid ∈ m.ids
  | .truncate id size => sizeValid size ∧ id ∈ m.ids ∧ m.children id = ∅
  | .delete id => id ∈ m.ids ∧ m.children id = ∅
  | .bind id i b => i ≤ extentIndexMax ∧ b < total ∧ b ∉ m.bound ∧
      ∃ f, m.files id = some f ∧ extentBegin i < f.size ∧ f.map i = none
  | .unbind id i => i ≤ extentIndexMax ∧
      ∃ f, m.files id = some f ∧ extentBegin i < f.size ∧ f.map i ≠ none
  | .rename id raw => raw.normalize ≠ none ∧ id ∈ m.ids ∧ m.named raw.stored ⊆ {id}
  | .next _ => False

/-- What the entry changes. -/
def after : Entry → Metadata
  | .create id raw => m.add id ⟨none, raw.stored, 0, fun _ => none⟩
  | .fork id pid raw => m.add id (m.forked pid raw.stored)
  | .truncate id size => m.modify id (·.resize size)
  | .delete id => { m with files := Function.update m.files id none }
  | .bind id i b => m.modify id fun f => { f with map := Function.update f.map i (some b) }
  | .unbind id i => m.modify id fun f => { f with map := Function.update f.map i none }
  | .rename id raw => m.modify id fun f => { f with name := raw.stored }
  | .next _ => m

/-- A new file gets an id above all that were handed out. -/
def Fresh : Entry → Prop
  | .create id _ | .fork id _ _ => m.maxFileId < id
  | _ => True

end Metadata

/-- The machine that reads a journal on a disk with `total` extents. -/
def metadata (total : ℕ) : Machine Metadata Entry where
  Admits := fun m e => m.Admits total e
  after := fun m e => m.after e

/-- The machine that takes the entries as the public operations produce them. -/
def history (total : ℕ) : Machine Metadata Entry where
  Admits := fun m e => m.Admits total e ∧ m.Fresh e
  after := fun m e => m.after e

namespace Metadata

variable {m : Metadata} {total id k i b : ℕ} {f g : FileInfo}

theorem mem_ids : id ∈ m.ids ↔ ∃ f, m.files id = some f := by
  simp [ids, Option.ne_none_iff_exists']

@[simp] theorem modify_maxFileId (m : Metadata) (id : ℕ) (u : FileInfo → FileInfo) :
    (m.modify id u).maxFileId = m.maxFileId := rfl

@[simp] theorem modify_files (m : Metadata) (id : ℕ) (u : FileInfo → FileInfo) (k : ℕ) :
    (m.modify id u).files k = if k = id then (m.files id).map u else m.files k := by
  simp [modify, Function.update_apply]

theorem modify_eq_some {u : FileInfo → FileInfo} : (m.modify id u).files k = some g ↔
    ∃ f, m.files k = some f ∧ g = if k = id then u f else f := by
  rw [modify_files]
  split_ifs with hk
  · subst hk
    simp [eq_comm]
  · simp

@[simp] theorem add_files (m : Metadata) (id : ℕ) (f : FileInfo) (k : ℕ) :
    (m.add id f).files k = if k = id then some f else m.files k := by
  simp [add, Function.update_apply]

@[simp] theorem ids_modify (m : Metadata) (id : ℕ) (u : FileInfo → FileInfo) :
    (m.modify id u).ids = m.ids := by
  ext k
  simp only [ids, Set.mem_ofPred_eq, modify_files]
  split_ifs with hk
  · simp [hk]
  · rfl

theorem ids_add (m : Metadata) (id : ℕ) (f : FileInfo) : (m.add id f).ids = insert id m.ids := by
  ext k
  simp only [ids, Set.mem_ofPred_eq, add_files, Set.mem_insert_iff]
  split_ifs with hk <;> simp [hk]

theorem ids_delete (m : Metadata) (id : ℕ) :
    ({ m with files := Function.update m.files id none } : Metadata).ids = m.ids \ {id} := by
  ext k
  simp only [ids, Set.mem_ofPred_eq, Function.update_apply, Set.mem_sdiff, Set.mem_singleton_iff]
  split_ifs with hk <;> simp [hk]

@[simp] theorem ids_empty : empty.ids = ∅ := by
  ext k
  simp [ids, empty]

/-! ### Well-formed metadata -/

/-- What holds of every metadata that the journal can describe. -/
structure WF (m : Metadata) (total : ℕ) : Prop where
  ids : ∀ id ∈ m.ids, 0 < id ∧ id ≤ m.maxFileId
  count : m.ids.ncard ≤ superMaxFiles
  normal : ∀ id f, m.files id = some f → f.name.Normal
  named : ∀ id f k g, m.files id = some f → m.files k = some g → f.name = g.name → id = k
  parent : ∀ id f p, m.files id = some f → f.parent = some p → p < id ∧ p ∈ m.ids
  size : ∀ id f, m.files id = some f → sizeValid f.size
  range : ∀ id f i b, m.files id = some f → f.map i = some b →
    i ≤ extentIndexMax ∧ extentBegin i < f.size ∧ b < total
  once : ∀ id f i k g j b, m.files id = some f → f.map i = some b → m.files k = some g →
    g.map j = some b → id = k ∧ i = j

theorem wf_empty (total : ℕ) : empty.WF total := by
  constructor
  case count => simp
  case ids => simp
  all_goals
    intros
    simp_all [empty]

namespace WF

variable (h : m.WF total)

include h

theorem finite : m.ids.Finite :=
  (Set.finite_le_nat m.maxFileId).subset fun id hid => (h.ids id hid).2

theorem finite_children (id : ℕ) : (m.children id).Finite := by
  refine h.finite.subset ?_
  rintro k ⟨f, hf, -⟩
  exact mem_ids.2 ⟨f, hf⟩

/-- A change of one file that keeps its parent, with a name nobody else has. -/
theorem modify {u : FileInfo → FileInfo} (hparent : ∀ f, (u f).parent = f.parent)
    (hnormal : ∀ f, m.files id = some f → (u f).name.Normal)
    (hnamed : ∀ f k g, m.files id = some f → m.files k = some g → (u f).name = g.name → k = id)
    (hsize : ∀ f, m.files id = some f → sizeValid (u f).size)
    (hrange : ∀ f i b, m.files id = some f → (u f).map i = some b →
      i ≤ extentIndexMax ∧ extentBegin i < (u f).size ∧ b < total)
    (honce : ∀ f i b, m.files id = some f → (u f).map i = some b → f.map i = some b ∨
      (b ∉ m.bound ∧ ∀ j, (u f).map j = some b → j = i)) :
    (m.modify id u).WF total := by
  have hback : ∀ k g, (m.modify id u).files k = some g →
      ∃ f, m.files k = some f ∧ g = if k = id then u f else f := fun k g hg => modify_eq_some.1 hg
  constructor
  case ids =>
    intro k hk
    rw [ids_modify] at hk
    exact h.ids k hk
  case count =>
    rw [ids_modify]
    exact h.count
  case normal =>
    intro k g hg
    obtain ⟨f, hf, rfl⟩ := hback k g hg
    split_ifs with hk
    · exact hnormal f (hk ▸ hf)
    · exact h.normal k f hf
  case named =>
    intro k g l g' hg hg' hn
    obtain ⟨f, hf, rfl⟩ := hback k g hg
    obtain ⟨f', hf', rfl⟩ := hback l g' hg'
    split_ifs at hn with hk hl hl
    · rw [hk, hl]
    · rw [hk, hnamed f l f' (hk ▸ hf) hf' hn]
    · rw [hl, hnamed f' k f (hl ▸ hf') hf hn.symm]
    · exact h.named k f l f' hf hf' hn
  case parent =>
    intro k g p hg hp
    obtain ⟨f, hf, rfl⟩ := hback k g hg
    rw [ids_modify]
    refine h.parent k f p hf ?_
    split_ifs at hp with hk
    · rw [← hparent f, hp]
    · exact hp
  case size =>
    intro k g hg
    obtain ⟨f, hf, rfl⟩ := hback k g hg
    split_ifs with hk
    · exact hsize f (hk ▸ hf)
    · exact h.size k f hf
  case range =>
    intro k g i b hg hb
    obtain ⟨f, hf, rfl⟩ := hback k g hg
    split_ifs at hb ⊢ with hk
    · exact hrange f i b (hk ▸ hf) hb
    · exact h.range k f i b hf hb
  case once =>
    intro k g i l g' j b hg hb hg' hb'
    obtain ⟨f, hf, rfl⟩ := hback k g hg
    obtain ⟨f', hf', rfl⟩ := hback l g' hg'
    -- either extent was there before, or it is the new one of the changed file
    split_ifs at hb hb' with hk hl hl
    · rw [hk] at hf
      rw [hl] at hf'
      obtain rfl := Option.some.inj (hf.symm.trans hf')
      refine ⟨hk.trans hl.symm, ?_⟩
      rcases honce f i b hf hb with ho | ⟨-, ho⟩
      · rcases honce f j b hf hb' with ho' | ⟨-, ho'⟩
        · exact (h.once id f i id f j b hf ho hf ho').2
        · exact ho' i hb
      · exact (ho j hb').symm
    · rcases honce f i b (hk ▸ hf) hb with ho | ⟨ho, -⟩
      · exact h.once k f i l f' j b hf ho hf' hb'
      · exact absurd ⟨l, f', j, hf', hb'⟩ ho
    · rcases honce f' j b (hl ▸ hf') hb' with ho | ⟨ho, -⟩
      · exact h.once k f i l f' j b hf hb hf' ho
      · exact absurd ⟨k, f, i, hf, hb⟩ ho
    · exact h.once k f i l f' j b hf hb hf' hb'

/-- A new file without extents. -/
theorem add {raw : FileName} (hc : m.CanAdd id raw) (hname : f.name = raw.stored)
    (hparent : ∀ p, f.parent = some p → p < id ∧ p ∈ m.ids) (hsize : sizeValid f.size)
    (hmap : ∀ i, f.map i = none) : (m.add id f).WF total := by
  obtain ⟨hraw, h0, hid, hfree, hcount⟩ := hc
  have hback : ∀ k g, (m.add id f).files k = some g → k = id ∧ g = f ∨ k ≠ id ∧ m.files k = some g := by
    intro k g hg
    rw [add_files] at hg
    split_ifs at hg with hk
    · exact .inl ⟨hk, (Option.some.inj hg).symm⟩
    · exact .inr ⟨hk, hg⟩
  have hfresh : ∀ k g, m.files k = some g → g.name ≠ f.name := by
    intro k g hg hn
    have : k ∈ m.named raw.stored := ⟨g, hg, hn.trans hname⟩
    rw [hfree] at this
    exact this
  constructor
  case ids =>
    intro k hk
    rw [ids_add] at hk
    simp only [Metadata.add]
    rcases hk with rfl | hk
    · omega
    · have := h.ids k hk
      omega
  case count =>
    rw [ids_add, Set.ncard_insert_of_notMem hid h.finite]
    omega
  case normal =>
    intro k g hg
    rcases hback k g hg with ⟨-, rfl⟩ | ⟨-, hg⟩
    · obtain ⟨n, hn⟩ := Option.ne_none_iff_exists'.1 hraw
      rw [hname, FileName.stored, hn]
      exact (FileName.normal_of_normalize hn).1
    · exact h.normal k g hg
  case named =>
    intro k g l g' hg hg' hn
    rcases hback k g hg with ⟨hk, rfl⟩ | ⟨-, hk⟩ <;>
      rcases hback l g' hg' with ⟨hl, rfl⟩ | ⟨-, hl⟩
    · exact hk.trans hl.symm
    · exact absurd hn.symm (hfresh l g' hl)
    · exact absurd hn (hfresh k g hk)
    · exact h.named k g l g' hk hl hn
  case parent =>
    intro k g p hg hp
    rw [ids_add]
    rcases hback k g hg with ⟨rfl, rfl⟩ | ⟨-, hg⟩
    · exact ⟨(hparent p hp).1, .inr (hparent p hp).2⟩
    · have := h.parent k g p hg hp
      exact ⟨this.1, .inr this.2⟩
  case size =>
    intro k g hg
    rcases hback k g hg with ⟨rfl, rfl⟩ | ⟨-, hg⟩
    · exact hsize
    · exact h.size k g hg
  case range =>
    intro k g i b hg hb
    rcases hback k g hg with ⟨rfl, rfl⟩ | ⟨-, hg⟩
    · simp [hmap] at hb
    · exact h.range k g i b hg hb
  case once =>
    intro k g i l g' j b hg hb hg' hb'
    rcases hback k g hg with ⟨rfl, rfl⟩ | ⟨-, hg⟩
    · simp [hmap] at hb
    · rcases hback l g' hg' with ⟨rfl, rfl⟩ | ⟨-, hg'⟩
      · simp [hmap] at hb'
      · exact h.once k g i l g' j b hg hb hg' hb'

/-- A file without children goes. -/
theorem delete (hc : m.children id = ∅) :
    ({ m with files := Function.update m.files id none } : Metadata).WF total := by
  have hback : ∀ k g, Function.update m.files id none k = some g → k ≠ id ∧ m.files k = some g := by
    intro k g hg
    rw [Function.update_apply] at hg
    split_ifs at hg with hk
    exact ⟨hk, hg⟩
  have hids := ids_delete m id
  constructor
  case ids =>
    intro k hk
    rw [hids] at hk
    exact h.ids k hk.1
  case count =>
    rw [hids]
    exact (Set.ncard_le_ncard Set.sdiff_subset h.finite).trans h.count
  case normal => exact fun k g hg => h.normal k g (hback k g hg).2
  case named =>
    exact fun k g l g' hg hg' => h.named k g l g' (hback k g hg).2 (hback l g' hg').2
  case parent =>
    intro k g p hg hp
    have hg' := (hback k g hg).2
    rw [hids]
    refine ⟨(h.parent k g p hg' hp).1, (h.parent k g p hg' hp).2, ?_⟩
    rintro rfl
    have : k ∈ m.children p := ⟨g, hg', hp⟩
    rw [hc] at this
    exact this
  case size => exact fun k g hg => h.size k g (hback k g hg).2
  case range => exact fun k g i b hg => h.range k g i b (hback k g hg).2
  case once =>
    exact fun k g i l g' j b hg hb hg' => h.once k g i l g' j b (hback k g hg).2 hb (hback l g' hg').2

end WF

/-- **Well-formedness survives every admitted entry.** -/
theorem WF.after {e : Entry} (h : m.WF total) (ha : m.Admits total e) : (m.after e).WF total := by
  cases e with
  | create id raw =>
      exact h.add ha rfl (by simp) sizeValid_zero fun _ => rfl
  | fork id pid raw =>
      obtain ⟨hc, hlt, hpid⟩ := ha
      obtain ⟨p, hp⟩ := mem_ids.1 hpid
      refine h.add hc rfl ?_ ?_ fun _ => rfl
      · intro q hq
        obtain rfl : pid = q := by simpa [forked] using hq
        exact ⟨hlt, hpid⟩
      · simpa [forked, hp] using h.size pid p hp
  | truncate id size =>
      obtain ⟨hv, -, -⟩ := ha
      have hsub : ∀ (f : FileInfo) i b, (f.resize size).map i = some b →
          extentBegin i < size ∧ f.map i = some b := by
        intro f i b hb
        simp only [FileInfo.resize] at hb
        split_ifs at hb with hi
        exact ⟨hi, hb⟩
      refine h.modify (fun _ => rfl) (fun f hf => h.normal id f hf)
        (fun f k g hf hg hn => (h.named id f k g hf hg hn).symm) (fun _ _ => hv) ?_ ?_
      · intro f i b hf hb
        obtain ⟨hi, hb⟩ := hsub f i b hb
        obtain ⟨h₁, -, h₃⟩ := h.range id f i b hf hb
        exact ⟨h₁, hi, h₃⟩
      · exact fun f i b hf hb => .inl (hsub f i b hb).2
  | delete id => exact h.delete ha.2
  | bind id i b =>
      obtain ⟨hi, hb, hbound, f, hf, hsize, hnone⟩ := ha
      refine h.modify (fun _ => rfl) (fun f hf => h.normal id f hf)
        (fun f k g hf hg hn => (h.named id f k g hf hg hn).symm) (fun f hf => h.size id f hf) ?_ ?_
      · intro f' j c hf' hc
        obtain rfl := Option.some.inj (hf.symm.trans hf')
        simp only [Function.update_apply] at hc
        split_ifs at hc with hj
        · obtain rfl := Option.some.inj hc
          rw [hj]
          exact ⟨hi, hsize, hb⟩
        · exact h.range id f j c hf hc
      · intro f' j c hf' hc
        obtain rfl := Option.some.inj (hf.symm.trans hf')
        simp only [Function.update_apply] at hc ⊢
        split_ifs at hc with hj
        · obtain rfl := Option.some.inj hc
          refine .inr ⟨hbound, fun l hl => ?_⟩
          split_ifs at hl with hli
          · rw [hli, hj]
          · exact absurd ⟨id, f, l, hf, hl⟩ hbound
        · exact .inl hc
  | unbind id i =>
      have hsub : ∀ (f : FileInfo) j b, Function.update f.map i none j = some b → f.map j = some b := by
        intro f j b hb
        rw [Function.update_apply] at hb
        split_ifs at hb
        exact hb
      refine h.modify (fun _ => rfl) (fun f hf => h.normal id f hf)
        (fun f k g hf hg hn => (h.named id f k g hf hg hn).symm) (fun f hf => h.size id f hf) ?_ ?_
      · exact fun f j b hf hb => h.range id f j b hf (hsub f j b hb)
      · exact fun f j b hf hb => .inl (hsub f j b hb)
  | rename id raw =>
      obtain ⟨hraw, -, hfree⟩ := ha
      refine h.modify (fun _ => rfl) ?_ ?_ (fun f hf => h.size id f hf)
        (fun f i b hf hb => h.range id f i b hf hb) fun f i b _ hb => .inl hb
      · intro f _
        obtain ⟨n, hn⟩ := Option.ne_none_iff_exists'.1 hraw
        rw [FileName.stored, hn]
        exact (FileName.normal_of_normalize hn).1
      · exact fun f k g _ hg hn => hfree ⟨g, hg, hn.symm⟩
  | next b => exact ha.elim

theorem accepts_of_history {es : List Entry} (h : (history total).Accepts m es) :
    (metadata total).Accepts m es :=
  Machine.Accepts.mono (M := history total) rfl (fun _ _ ha => ha.1) h

end Metadata

end Cyanfs
