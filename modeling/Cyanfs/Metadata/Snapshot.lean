/-
# A snapshot describes the metadata it was taken from

`cyanfs_journal_compact_loader_finish` lists the files of a state as entries.
Replaying that list builds the state up file by file, in the order of the ids:
behind the entries of the file `n` the metadata is the part up to `n`
(`Metadata.upTo`).  Parents come first because ids grow along forks, and a file
has its final size before it gets its extents and its children.

The list ends with a file that is created and deleted again when the largest id
was handed out to a file that is gone.  There is room for it
(`Metadata.Room`): a full table of files contains the newest one.
-/

import Cyanfs.Core.Compact
import Cyanfs.Metadata.Replay

namespace Cyanfs

open Lib Std

namespace Metadata

variable {m r : Metadata} {total k n : ℕ} {f : FileInfo}

/-! ### Room for one more file -/

/-- The newest file is alive, or there is room for a file. -/
def Room (m : Metadata) : Prop := m.maxFileId ∈ m.ids ∨ m.ids.ncard < superMaxFiles

/-- New files get the largest id, so an entry that takes the last room for a
file leaves the newest file alive. -/
theorem Room.after {e : Entry} (hr : m.Room) (hw : m.WF total) (ha : m.Admits total e)
    (hf : m.Fresh e) : (m.after e).Room := by
  have hadd : ∀ id g, m.maxFileId < id → (m.add id g).Room := by
    intro id g hid
    left
    rw [ids_add]
    simp only [add]
    rw [max_eq_right hid.le]
    exact Set.mem_insert _ _
  have hmodify : ∀ id u, (m.modify id u).Room := by
    intro id u
    rw [Room, ids_modify]
    exact hr
  cases e with
  | create id raw => exact hadd _ _ hf
  | fork id pid raw => exact hadd _ _ hf
  | truncate | bind | unbind | rename => exact hmodify _ _
  | delete id =>
      have hsub : (m.ids \ {id}).ncard < m.ids.ncard :=
        Set.ncard_sdiff_singleton_lt_of_mem ha.1 hw.finite
      have hcount := hw.count
      rw [Room]
      right
      simp only [Metadata.after, ids_delete]
      omega
  | next => exact hr

theorem room_of_history {es : List Entry} (h : (history total).Accepts empty es) :
    ((history total).afterAll empty es).WF total ∧ ((history total).afterAll empty es).Room := by
  have hempty : empty.Room := .inr (by simp)
  refine h.rule (P := fun m => m.WF total ∧ m.Room) ⟨wf_empty total, hempty⟩ ?_
  · rintro m e ⟨hw, hr⟩ ⟨ha, hf⟩
    exact ⟨hw.after ha, hr.after hw ha hf⟩

/-! ### One file -/

/-- The files up to an id. -/
def upTo (m : Metadata) (n : ℕ) : Metadata := ⟨fun id => if id ≤ n then m.files id else none, n⟩

theorem upTo_files_eq_some : (m.upTo n).files k = some f ↔ k ≤ n ∧ m.files k = some f := by
  simp [upTo]

theorem mem_ids_upTo : k ∈ (m.upTo n).ids ↔ k ≤ n ∧ k ∈ m.ids := by
  simp only [mem_ids, upTo_files_eq_some, exists_and_left]

theorem modify_add (m : Metadata) (id : ℕ) (f : FileInfo) (u : FileInfo → FileInfo) :
    (m.add id f).modify id u = m.add id (u f) := by
  simp only [modify, add, Function.update_self, Option.map_some, Function.update_idem]

theorem bound_add (hk : r.files k = none) : (r.add k f).bound = r.bound ∪ {b | ∃ i, f.map i = some b} := by
  ext b
  constructor
  · rintro ⟨id, g, i, hg, hb⟩
    rw [add_files] at hg
    split_ifs at hg with hid
    · obtain rfl := Option.some.inj hg
      exact .inr ⟨i, hb⟩
    · exact .inl ⟨id, g, i, hg, hb⟩
  · rintro (⟨id, g, i, hg, hb⟩ | ⟨i, hb⟩)
    · refine ⟨id, g, i, ?_, hb⟩
      rw [add_files, if_neg]
      · exact hg
      · rintro rfl
        rw [hk] at hg
        cases hg
    · exact ⟨k, f, i, by simp, hb⟩

/-- The extents of a file whose indexes are listed in `l` come back one by one. -/
theorem accepts_binds (hk : r.files k = none)
    (hrange : ∀ i b, f.map i = some b → i ≤ extentIndexMax ∧ extentBegin i < f.size ∧ b < total ∧
      b ∉ r.bound)
    (honce : ∀ i j b, f.map i = some b → f.map j = some b → i = j) (l : List (ℕ × ℕ))
    {g : ℕ → Option ℕ} (hg : ∀ i b, g i = some b → f.map i = some b)
    (hnodup : (l.map Prod.fst).Nodup) (hl : ∀ x ∈ l, f.map x.1 = some x.2 ∧ g x.1 = none) :
    (history total).Accepts (r.add k { f with map := g }) (l.map fun x => .bind k x.1 x.2) ∧
      (history total).afterAll (r.add k { f with map := g }) (l.map fun x => .bind k x.1 x.2) =
        r.add k { f with map := fun i => if i ∈ l.map Prod.fst then f.map i else g i } := by
  induction l generalizing g with
  | nil => simp
  | cons x l ih =>
      obtain ⟨i, b⟩ := x
      obtain ⟨hi, hnone⟩ := hl (i, b) List.mem_cons_self
      obtain ⟨hmem, hnodup⟩ := List.nodup_cons.1 hnodup
      have hafter : (r.add k { f with map := g }).after (.bind k i b) =
          r.add k { f with map := Function.update g i (some b) } := by
        rw [after, modify_add]
      -- the index and the extent are still free
      have hadmits : (r.add k { f with map := g }).Admits total (.bind k i b) := by
        obtain ⟨h₁, h₂, h₃, h₄⟩ := hrange i b hi
        refine ⟨h₁, h₃, ?_, { f with map := g }, by simp, h₂, hnone⟩
        rw [bound_add hk]
        rintro (hb | ⟨j, hj⟩)
        · exact h₄ hb
        · obtain rfl := honce i j b hi (hg j b hj)
          exact absurd (hj.symm.trans hnone) (by simp)
      obtain ⟨hacc, hall⟩ := ih (g := Function.update g i (some b)) (by
        intro j c hj
        rw [Function.update_apply] at hj
        split_ifs at hj with hji
        · rw [hji, hi, hj]
        · exact hg j c hj) hnodup (by
        intro y hy
        refine ⟨(hl y (List.mem_cons_of_mem _ hy)).1, ?_⟩
        rw [Function.update_apply, if_neg]
        · exact (hl y (List.mem_cons_of_mem _ hy)).2
        · rintro rfl
          exact hmem (List.mem_map.2 ⟨y, hy, rfl⟩))
      rw [← hafter] at hacc hall
      refine ⟨⟨⟨hadmits, trivial⟩, hacc⟩, hall.trans ?_⟩
      congr 2
      funext j
      by_cases hj : j = i
      · simp [hj, hi]
      · simp only [List.map_cons, List.mem_cons, hj, false_or, ne_eq, not_false_eq_true,
          Function.update_of_ne]

/-- The first entry of a file adds it, without extents. -/
theorem upTo_canAdd (hw : m.WF total) (hf : m.files k = some f) (hn : n < k) :
    (m.upTo n).CanAdd k f.name := by
  have hk : k ∈ m.ids := mem_ids.2 ⟨f, hf⟩
  have hnormal : f.name.normalize = some f.name := hw.normal k f hf
  have hstored : f.name.stored = f.name := by simp [FileName.stored, hnormal]
  refine ⟨by simp [hnormal], ?_, ?_, ?_, ?_⟩
  · have := (hw.ids k hk).1
    omega
  · rw [mem_ids_upTo]
    omega
  · rw [hstored, Set.eq_empty_iff_forall_notMem]
    rintro j ⟨g, hg, hname⟩
    obtain ⟨hj, hg⟩ := upTo_files_eq_some.1 hg
    have := hw.named j g k f hg hf hname
    omega
  · have hlt : (m.upTo n).ids.ncard < m.ids.ncard := by
      refine Set.ncard_lt_ncard ⟨fun j hj => (mem_ids_upTo.1 hj).2, fun hsub => ?_⟩ hw.finite
      have := (mem_ids_upTo.1 (hsub hk)).1
      omega
    have := hw.count
    omega

theorem upTo_add (hf : m.files k = some f) (hn : n < k) (hgap : ∀ id ∈ m.ids, id < k → id ≤ n) :
    (m.upTo n).add k f = m.upTo k := by
  ext id : 2
  · rw [add_files]
    simp only [upTo]
    split_ifs with h₁ h₂ h₃ h₄ h₅
    · rw [h₁, hf]
    · omega
    · rfl
    · omega
    · by_contra hne
      have := hgap id (by simpa [ids] using Ne.symm hne) (by omega)
      omega
    · rfl
  · simp only [add, upTo]
    omega

/-- The entries that add a file and give it its size. -/
theorem accepts_start (hw : m.WF total) (hf : m.files k = some f) (hn : n < k) {e : Entry} {z : ℕ}
    (ha : (history total).Admits (m.upTo n) e)
    (he : (m.upTo n).after e = (m.upTo n).add k ⟨f.parent, f.name, z, fun _ => none⟩) {t : Bool}
    (ht : t = false → z = f.size) :
    (history total).Accepts (m.upTo n) (e :: if t then [.truncate k f.size] else []) ∧
      (history total).afterAll (m.upTo n) (e :: if t then [.truncate k f.size] else []) =
        (m.upTo n).add k { f with map := fun _ => none } := by
  rw [Machine.accepts_cons, Machine.afterAll_cons]
  have he' : (history total).after (m.upTo n) e =
      (m.upTo n).add k ⟨f.parent, f.name, z, fun _ => none⟩ := he
  rw [he']
  cases t with
  | false =>
      rw [ht rfl]
      exact ⟨⟨ha, trivial⟩, rfl⟩
  | true =>
      have hchildren : ((m.upTo n).add k ⟨f.parent, f.name, z, fun _ => none⟩).children k = ∅ := by
        rw [Set.eq_empty_iff_forall_notMem]
        rintro j ⟨g, hg, hp⟩
        rw [add_files] at hg
        split_ifs at hg with hj
        · obtain rfl := Option.some.inj hg
          exact absurd (hw.parent k f k hf hp).1 (lt_irrefl _)
        · obtain ⟨hj, hg⟩ := upTo_files_eq_some.1 hg
          have := (hw.parent j g k hg hp).1
          omega
      refine ⟨⟨ha, ⟨⟨hw.size k f hf, ?_, hchildren⟩, trivial⟩, trivial⟩, ?_⟩
      · rw [ids_add]
        exact Set.mem_insert _ _
      · change ((m.upTo n).add k _).modify k _ = _
        rw [modify_add]
        simp [FileInfo.resize]

end Metadata

namespace Super

variable {X : Super} {total k n : ℕ} {f : File}

/-- **The entries of one file** take the metadata from the files before it to
the files up to it. -/
theorem Replaying.accepts_fileEntries (h : X.Replaying total) (hf : X.filesById[k]? = some f)
    (hn : n < k) (hgap : ∀ id ∈ X.metadata.ids, id < k → id ≤ n) :
    (history total).Accepts (X.metadata.upTo n) (X.fileEntries f) ∧
      (history total).afterAll (X.metadata.upTo n) (X.fileEntries f) = X.metadata.upTo k := by
  have hm := metadata_files_of hf
  have hid : f.id = k := h.rep.keyed k f hf
  have hcan := Metadata.upTo_canAdd h.wf hm hn
  have hstored : f.name.stored = f.name := by
    simp [FileName.stored, show f.name.normalize = some f.name from h.wf.normal k _ hm]
  -- the file itself
  obtain ⟨e, t, hstart, hacc, hall⟩ : ∃ (e : Entry) (t : Bool),
      X.fileEntries f = (e :: if t then [.truncate k f.size] else []) ++
        f.extents.toList.map (fun x => .bind k x.1 x.2.backend) ∧
      (history total).Accepts (X.metadata.upTo n) (e :: if t then [.truncate k f.size] else []) ∧
      (history total).afterAll (X.metadata.upTo n) (e :: if t then [.truncate k f.size] else []) =
        (X.metadata.upTo n).add k { f.info with map := fun _ => none } := by
    unfold fileEntries
    cases hp : f.parent with
    | none =>
        refine ⟨.create k f.name, decide (0 < f.size), by rw [hid]; rfl, ?_⟩
        refine Metadata.accepts_start (e := .create k f.name) (z := 0) h.wf hm hn ⟨hcan, hn⟩ ?_
          fun ht => ?_
        · simp only [Metadata.after, hstored]
          rw [show f.info.parent = none from hp]
          rfl
        · have : ¬ 0 < f.size := by simpa using ht
          exact (Nat.eq_zero_of_not_pos this).symm
    | some p =>
        obtain ⟨hlt, hpm⟩ := h.wf.parent k f.info p hm hp
        have hle := hgap p hpm hlt
        obtain ⟨q, hq⟩ := mem_metadata_ids.1 hpm
        refine ⟨.fork k p f.name, decide ((X.filesById[p]?.map (·.size)) ≠ some f.size),
          by rw [hid]; simp, ?_⟩
        refine Metadata.accepts_start (e := .fork k p f.name) (z := q.size) h.wf hm hn
          ⟨⟨hcan, hlt, Metadata.mem_ids_upTo.2 ⟨hle, hpm⟩⟩, hn⟩ ?_ fun ht => ?_
        · simp only [Metadata.after, Metadata.forked, hstored]
          rw [Metadata.upTo_files_eq_some.2 ⟨hle, metadata_files_of hq⟩,
            show f.info.parent = some p from hp]
          rfl
        · simpa [hq, File.info] using ht
  -- and its extents
  have hlist : f.extents.toList.map (fun x => Entry.bind k x.1 x.2.backend) =
      (f.extents.toList.map fun x => (x.1, x.2.backend)).map fun x => .bind k x.1 x.2 := by
    rw [List.map_map]
    rfl
  have hkeys : (f.extents.toList.map fun x => (x.1, x.2.backend)).map Prod.fst = f.extents.keys := by
    rw [List.map_map, ← ExtTreeMap.map_fst_toList_eq_keys]
    rfl
  have hnone : (X.metadata.upTo n).files k = none := by
    simp only [Metadata.upTo]
    rw [if_neg (by omega)]
  obtain ⟨hbind, hafter⟩ := Metadata.accepts_binds (f := f.info) (g := fun _ => none) hnone
    (fun i b hb => by
      obtain ⟨h₁, h₂, h₃⟩ := h.wf.range k f.info i b hm hb
      refine ⟨h₁, h₂, h₃, ?_⟩
      rintro ⟨j, g, l, hg, hl⟩
      obtain ⟨hj, hg⟩ := Metadata.upTo_files_eq_some.1 hg
      have := (h.wf.once j g l k f.info i b hg hl hm hb).1
      omega)
    (fun i j b hi hj => (h.wf.once k f.info i k f.info j b hm hi hm hj).2)
    (f.extents.toList.map fun x => (x.1, x.2.backend)) (by simp)
    (by
      rw [hkeys]
      exact ExtTreeMap.nodup_keys)
    (by
      intro x hx
      obtain ⟨y, hy, rfl⟩ := List.mem_map.1 hx
      refine ⟨?_, rfl⟩
      rw [h.settled.map_eq hf, ExtTreeMap.mem_toList_iff_getElem?_eq_some.1 hy]
      rfl)
  rw [hstart, hlist, Machine.accepts_append, Machine.afterAll_append, hall, hafter]
  refine ⟨⟨hacc, hbind⟩, ?_⟩
  rw [← Metadata.upTo_add hm hn hgap]
  congr 1
  ext1
  · rfl
  · rfl
  · rfl
  · funext i
    simp only
    rw [hkeys]
    split_ifs with hi
    · rfl
    · rw [ExtTreeMap.mem_keys] at hi
      rw [h.settled.map_eq hf, ExtTreeMap.getElem?_eq_none hi]
      rfl

/-- The entries of the files behind `n`, in the order of their ids. -/
theorem Replaying.accepts_files (h : X.Replaying total) {l : List (ℕ × File)}
    (hl : ∀ x ∈ l, X.filesById[x.1]? = some x.2) (hsorted : (l.map Prod.fst).Pairwise (· < ·))
    (hn : ∀ x ∈ l, n < x.1) (hall : ∀ id ∈ X.metadata.ids, id ≤ n ∨ id ∈ l.map Prod.fst) :
    (history total).Accepts (X.metadata.upTo n) (l.flatMap fun x => X.fileEntries x.2) ∧
      (history total).afterAll (X.metadata.upTo n) (l.flatMap fun x => X.fileEntries x.2) =
        X.metadata.upTo (((l.map Prod.fst).getLast?).getD n) := by
  induction l generalizing n with
  | nil => exact ⟨trivial, rfl⟩
  | cons x l ih =>
      rw [List.map_cons, List.pairwise_cons] at hsorted
      obtain ⟨hlt, hsorted⟩ := hsorted
      obtain ⟨hacc, hafter⟩ := h.accepts_fileEntries (hl x List.mem_cons_self)
        (hn x List.mem_cons_self) (fun id hid hlx => by
          rcases hall id hid with hid | hid
          · exact hid
          · rw [List.map_cons, List.mem_cons] at hid
            rcases hid with hid | hid
            · omega
            · exact absurd (hlt id hid) (by omega))
      obtain ⟨hacc', hafter'⟩ := ih (n := x.1) (fun y hy => hl y (List.mem_cons_of_mem _ hy)) hsorted
        (fun y hy => hlt y.1 (List.mem_map.2 ⟨y, hy, rfl⟩)) (fun id hid => by
          rcases hall id hid with hid | hid
          · have := hn x List.mem_cons_self
            left
            omega
          · rw [List.map_cons, List.mem_cons] at hid
            exact hid.imp_left fun h => h.le)
      rw [List.flatMap_cons, Machine.accepts_append, Machine.afterAll_append, hafter, hafter',
        List.map_cons]
      refine ⟨⟨hacc, hacc'⟩, ?_⟩
      rw [List.getLast?_cons]
      rfl

/-! ### The marker -/

theorem toNat_ofNat_succ {i : ℕ} (hi : i < 255) : (UInt8.ofNat (i + 1)).toNat = i + 1 := by
  rw [UInt8.toNat_ofNat']
  omega

theorem normal_markerCandidate {i : ℕ} (hi : i ≤ superMaxFiles) : (markerCandidate i).Normal := by
  simp only [superMaxFiles] at hi
  refine FileName.normal_ofCstr (by simp) (by simp) ?_
  have hne : ∀ n : ℕ, n < 255 → UInt8.ofNat (n + 1) ≠ 0 := by
    intro n hn h0
    have := toNat_ofNat_succ hn
    rw [h0] at this
    simp at this
  intro b hb
  simp only [List.mem_cons, List.not_mem_nil, or_false] at hb
  rcases hb with rfl | rfl | rfl
  · decide
  · exact hne _ (by omega)
  · exact hne _ (by omega)

theorem markerCandidate_injOn {i j : ℕ} (hi : i ≤ superMaxFiles) (hj : j ≤ superMaxFiles)
    (h : markerCandidate i = markerCandidate j) : i = j := by
  have hb := congrArg FileName.bytes h
  simp only [markerCandidate, FileName.ofCstr, List.cons_append, List.cons.injEq, true_and,
    superMaxFiles] at hb hi hj
  have h₁ := congrArg UInt8.toNat hb.1
  have h₂ := congrArg UInt8.toNat hb.2.1
  rw [toNat_ofNat_succ (by omega), toNat_ofNat_succ (by omega)] at h₁ h₂
  omega

/-- Some marker name is free: there is one more of them than there are files. -/
theorem Rep.exists_markerName (h : X.Rep) (hw : X.metadata.WF total) :
    ∃ i ≤ superMaxFiles, X.markerName = some (markerCandidate i) ∧
      X.metadata.named (markerCandidate i) = ∅ := by
  cases hname : X.markerName with
  | some name =>
      have hmem := List.mem_of_find?_eq_some hname
      have hnone := List.find?_some hname
      obtain ⟨i, hi, rfl⟩ := List.mem_map.1 hmem
      have hlt := List.mem_range.1 hi
      refine ⟨i, by omega, rfl, Set.eq_empty_iff_forall_notMem.2 fun id hid => ?_⟩
      rw [(h.byName _ id).2 hid] at hnone
      cases hnone
  | none =>
      exfalso
      have hused : ∀ i ∈ Finset.range (superMaxFiles + 1),
          ∃ id, id ∈ X.metadata.named (markerCandidate i) := by
        intro i hi
        have := List.find?_eq_none.1 hname (markerCandidate i)
          (List.mem_map.2 ⟨i, List.mem_range.2 (Finset.mem_range.1 hi), rfl⟩)
        obtain ⟨id, hid⟩ := Option.ne_none_iff_exists'.1 (by simpa using this)
        exact ⟨id, (h.byName _ id).1 hid⟩
      choose! owner howner using hused
      have hle : ((Finset.range (superMaxFiles + 1) : Finset ℕ) : Set ℕ).ncard ≤ X.metadata.ids.ncard := by
        refine Set.ncard_le_ncard_of_injOn owner ?_ ?_ hw.finite
        · intro i hi
          obtain ⟨f, hf, -⟩ := howner i hi
          exact Metadata.mem_ids.2 ⟨f, hf⟩
        · intro i hi j hj hij
          obtain ⟨f, hf, hfn⟩ := howner i hi
          obtain ⟨g, hg, hgn⟩ := howner j hj
          rw [hij] at hf
          obtain rfl := Option.some.inj (hf.symm.trans hg)
          have hi' := Finset.mem_range.1 hi
          have hj' := Finset.mem_range.1 hj
          exact markerCandidate_injOn (by omega) (by omega) (hfn.symm.trans hgn)
      rw [Set.ncard_coe_finset, Finset.card_range] at hle
      have := hw.count
      omega

theorem le_maxLiveId_of_file {id : ℕ} {f : File} (hf : X.filesById[id]? = some f) :
    id ≤ X.maxLiveId := by
  have hmem : id ∈ X.filesById := by
    rw [← ExtTreeMap.isSome_getElem?_iff_mem, hf]
    rfl
  cases hk : X.filesById.maxKey? with
  | none =>
      rw [ExtTreeMap.maxKey?_eq_none_iff] at hk
      simp [hk] at hmem
  | some k =>
      have hmax := (ExtTreeMap.maxKey?_eq_some_iff_mem_and_forall.1 hk).2 id hmem
      simpa [maxLiveId, hk, Nat.isLE_compare] using hmax

theorem le_maxLiveId (hw : X.metadata.WF total) :
    (∀ id ∈ X.metadata.ids, id ≤ X.maxLiveId) ∧ X.maxLiveId ≤ X.metadata.maxFileId := by
  refine ⟨fun id hid => ?_, ?_⟩
  · obtain ⟨f, hf⟩ := mem_metadata_ids.1 hid
    exact le_maxLiveId_of_file hf
  · cases hk : X.filesById.maxKey? with
    | none => simp [maxLiveId, hk]
    | some k =>
        have hmem := (ExtTreeMap.maxKey?_eq_some_iff_mem_and_forall.1 hk).1
        have hid : k ∈ X.metadata.ids := by
          rwa [mem_metadata_ids, ← Option.isSome_iff_exists, ExtTreeMap.isSome_getElem?_iff_mem]
        rw [show X.maxLiveId = k by simp [maxLiveId, hk]]
        exact (hw.ids k hid).2

/-- **The snapshot describes the metadata it was taken from.** -/
theorem Replaying.snapshot (h : X.Replaying total) (hroom : X.metadata.Room) :
    ∃ es, X.snapshot = some es ∧ (history total).Accepts .empty es ∧
      (history total).afterAll .empty es = X.metadata := by
  obtain ⟨hle, hmax⟩ := le_maxLiveId h.wf
  -- the files
  have hzero : X.metadata.upTo 0 = .empty := by
    ext id : 2
    · simp only [Metadata.upTo, Metadata.empty]
      split_ifs with hid
      · by_contra hne
        have := (h.wf.ids id (by simpa [Metadata.ids] using hne)).1
        omega
      · rfl
    · rfl
  have hsorted : (X.filesById.toList.map Prod.fst).Pairwise (· < ·) := by
    rw [List.pairwise_map]
    exact ExtTreeMap.ordered_keys_toList.imp fun hab => Nat.compare_eq_lt.1 hab
  have hlast : ((X.filesById.toList.map Prod.fst).getLast?).getD 0 = X.maxLiveId := by
    rw [ExtTreeMap.map_fst_toList_eq_keys, ← ExtTreeMap.maxKey?_eq_getLast?_keys]
    rfl
  obtain ⟨hacc, hafter⟩ := h.accepts_files (n := 0) (l := X.filesById.toList)
    (fun x hx => ExtTreeMap.mem_toList_iff_getElem?_eq_some.1 hx) hsorted
    (fun x hx => (h.wf.ids x.1 (mem_metadata_ids.2
      ⟨x.2, ExtTreeMap.mem_toList_iff_getElem?_eq_some.1 hx⟩)).1)
    (fun id hid => by
      obtain ⟨f, hf⟩ := mem_metadata_ids.1 hid
      exact .inr (List.mem_map.2 ⟨(id, f), ExtTreeMap.mem_toList_iff_getElem?_eq_some.2 hf, rfl⟩))
  rw [hzero, hlast] at hafter
  rw [hzero] at hacc
  have hfiles : (X.metadata.upTo X.maxLiveId).files = X.metadata.files := by
    funext id
    simp only [Metadata.upTo]
    split_ifs with hid
    · rfl
    · by_contra hne
      exact hid (hle id (by simpa [Metadata.ids] using Ne.symm hne))
  by_cases hlive : X.maxFileId ≤ X.maxLiveId
  · refine ⟨_, by rw [Super.snapshot, markerEntries, if_pos hlive]; rfl, ?_⟩
    simp only [List.append_nil]
    refine ⟨hacc, hafter.trans ?_⟩
    ext id : 2
    · rw [hfiles]
    · exact Nat.le_antisymm hmax hlive
  · -- the newest file is gone: its id is kept by the marker
    obtain ⟨i, hi, hname, hfree⟩ := h.rep.exists_markerName h.wf
    have hnot : X.maxFileId ∉ X.metadata.ids := fun hid => hlive (hle _ hid)
    have hnormal := normal_markerCandidate hi
    have hstored : (markerCandidate i).stored = markerCandidate i := by
      simp [FileName.stored, show (markerCandidate i).normalize = _ from hnormal]
    have hids : (X.metadata.upTo X.maxLiveId).ids = X.metadata.ids := by
      simp only [Metadata.ids, hfiles]
    have hnamed : (X.metadata.upTo X.maxLiveId).named (markerCandidate i) = ∅ := by
      rw [← hfree]
      simp only [Metadata.named, hfiles]
    refine ⟨_, by rw [Super.snapshot, markerEntries, if_neg hlive, hname]; rfl, ?_⟩
    rw [Machine.accepts_append, Machine.afterAll_append, hafter]
    have hcan : (X.metadata.upTo X.maxLiveId).CanAdd X.maxFileId (markerCandidate i) := by
      refine ⟨by simp [show (markerCandidate i).normalize = _ from hnormal], by omega, hids ▸ hnot,
        by rw [hstored, hnamed], ?_⟩
      rw [hids]
      exact hroom.resolve_left hnot
    have hchildren : ((X.metadata.upTo X.maxLiveId).after
        (.create X.maxFileId (markerCandidate i))).children X.maxFileId = ∅ := by
      rw [Set.eq_empty_iff_forall_notMem]
      rintro j ⟨g, hg, hp⟩
      simp only [Metadata.after, Metadata.add_files] at hg
      split_ifs at hg with hj
      · obtain rfl := Option.some.inj hg
        cases hp
      · rw [hfiles] at hg
        exact hnot (h.wf.parent j g _ hg hp).2
    refine ⟨⟨hacc, ⟨hcan, Nat.not_le.1 hlive⟩, ⟨⟨?_, hchildren⟩, trivial⟩, trivial⟩, ?_⟩
    · change _ ∈ (Metadata.add _ _ _).ids
      rw [Metadata.ids_add]
      exact Set.mem_insert _ _
    · change Metadata.mk _ _ = _
      ext id : 2
      · simp only [Function.update_apply]
        change (if id = X.maxFileId then none else (Metadata.add _ _ _).files id) = _
        rw [Metadata.add_files, hfiles]
        split_ifs with hid
        · by_contra hne
          exact hnot (hid ▸ (by simpa [Metadata.ids] using Ne.symm hne))
        · rfl
      · change max X.maxLiveId X.maxFileId = X.maxFileId
        omega

end Super

end Cyanfs
