/-
# A snapshot is no longer than the journal it replaces

`cyanfs_journal_compact_loader_finish` gives the compacted journal the sequence numbers
in front of `end_id`, so there must be at least as many of them as it has entries.  Each
entry of a snapshot is charged to an entry of the journal: the CREATE or FORK of a file
to the entry that made it, its TRUNCATE to one that truncated it, a BIND to itself, and
the marker to the CREATE and the DELETE of the newest file.

`Metadata.items` are the entries that the snapshot lists for the files, `Metadata.cost`
adds the marker.  No entry raises the cost by more than one (`cost_after`).  A file is
not truncated while it has children, so a truncation changes for no other file whether it
still has the size of its parent.
-/

import Cyanfs.Metadata.Snapshot
import Mathlib.Data.Finite.Prod

namespace Cyanfs

open Lib Std

namespace Metadata

variable {m : Metadata} {total id k : ℕ} {f g : FileInfo} {e : Entry}

/-- The file does not have the size that its first entry gives it. -/
def Resized (m : Metadata) (f : FileInfo) : Prop :=
  match f.parent with
  | none => 0 < f.size
  | some p => (m.files p).map (·.size) ≠ some f.size

/-- The entries of the files in a snapshot: `(id, 0)` is the first entry of a file,
`(id, 1)` its truncation and `(id, i + 2)` the BIND of its extent `i`. -/
def items (m : Metadata) : Set (ℕ × ℕ) := {x | ∃ f, m.files x.1 = some f ∧
  (x.2 = 0 ∨ (x.2 = 1 ∧ m.Resized f) ∨ ∃ i, x.2 = i + 2 ∧ f.map i ≠ none)}

open Classical in
/-- The entries of the marker. -/
noncomputable def mark (m : Metadata) : ℕ := if m.maxFileId ∈ m.ids ∨ m.maxFileId = 0 then 0 else 2

/-- How many entries a snapshot has. -/
noncomputable def cost (m : Metadata) : ℕ := m.items.ncard + m.mark

theorem mark_le (m : Metadata) : m.mark ≤ 2 := by
  unfold mark
  split_ifs <;> omega

theorem mark_eq_zero (h : m.maxFileId ∈ m.ids) : m.mark = 0 := if_pos (.inl h)

theorem mark_mono {m' : Metadata} (hmax : m'.maxFileId = m.maxFileId) (hids : m.ids ⊆ m'.ids) :
    m'.mark ≤ m.mark := by
  unfold mark
  rw [hmax]
  split_ifs with h₁ h₂ h₂
  · omega
  · omega
  · exact absurd (h₂.imp_left fun h => hids h) h₁
  · omega

theorem WF.finite_items (h : m.WF total) : m.items.Finite := by
  refine (h.finite.prod (Set.finite_le_nat (extentIndexMax + 2))).subset ?_
  rintro ⟨id, n⟩ ⟨f, hf, hn⟩
  refine ⟨mem_ids.2 ⟨f, hf⟩, ?_⟩
  rcases hn with hn | ⟨hn, -⟩ | ⟨i, hn, hi⟩
  · exact hn ▸ Nat.zero_le _
  · exact hn ▸ (by decide : 1 ≤ extentIndexMax + 2)
  · obtain ⟨b, hb⟩ := Option.ne_none_iff_exists'.1 hi
    have := (h.range id f i b hf hb).1
    simp only at hn
    exact hn ▸ Nat.add_le_add_right this 2

/-- A file is resized or not as its parent says. -/
theorem resized_congr {m' : Metadata}
    (h : ∀ p, f.parent = some p → (m'.files p).map (·.size) = (m.files p).map (·.size)) :
    m'.Resized f ↔ m.Resized f := by
  unfold Resized
  cases hp : f.parent with
  | none => exact Iff.rfl
  | some p =>
      simp only
      rw [h p hp]

/-- At most one item is new. -/
theorem cost_insert {m' : Metadata} {x : ℕ × ℕ} (h : m.WF total) (hi : m'.items ⊆ insert x m.items)
    (hm : m'.mark ≤ m.mark) : m'.cost ≤ m.cost + 1 := by
  have h₁ : m'.items.ncard ≤ (insert x m.items).ncard :=
    Set.ncard_le_ncard hi (h.finite_items.insert x)
  have h₂ := Set.ncard_insert_le x m.items
  unfold cost
  omega

/-! ### One entry -/

/-- A new file adds its first entry. -/
theorem cost_add (h : m.WF total) (hid : id ∉ m.ids) (hsize : ¬ (m.add id f).Resized f)
    (hmap : ∀ i, f.map i = none) : (m.add id f).cost ≤ m.cost + 1 := by
  refine cost_insert (x := (id, 0)) h ?_ ?_
  · rintro ⟨k, n⟩ ⟨g, hg, hn⟩
    simp only [add_files] at hg hn
    split_ifs at hg with hk
    · obtain rfl := Option.some.inj hg
      rcases hn with hn | ⟨-, hr⟩ | ⟨i, -, hi⟩
      · exact .inl (by rw [hk, hn])
      · exact absurd hr hsize
      · exact absurd (hmap i) hi
    · refine .inr ⟨g, hg, ?_⟩
      -- the parent of another file is not the new one
      rwa [resized_congr (m := m)] at hn
      intro p hp
      have hpm := (h.parent k g p hg hp).2
      rw [add_files, if_neg]
      rintro rfl
      exact hid hpm
  · rcases Nat.le_total m.maxFileId id with hle | hle
    · rw [mark_eq_zero]
      · exact Nat.zero_le _
      · rw [ids_add]
        simp only [add, max_eq_right hle]
        exact Set.mem_insert _ _
    · refine mark_mono ?_ ?_
      · simp only [add, max_eq_left hle]
      · rw [ids_add]
        exact Set.subset_insert _ _

/-- A change of one file adds the items that it gets. -/
theorem cost_modify {u : FileInfo → FileInfo} {x : ℕ × ℕ} (h : m.WF total)
    (hparent : ∀ f, (u f).parent = f.parent)
    (hsize : (∀ f, (u f).size = f.size) ∨ m.children id = ∅)
    (hitems : ∀ f, m.files id = some f →
      (m.Resized (u f) → m.Resized f ∨ x = (id, 1)) ∧
      ∀ i, (u f).map i ≠ none → f.map i ≠ none ∨ x = (id, i + 2)) :
    (m.modify id u).cost ≤ m.cost + 1 := by
  -- no file has a parent whose size changes
  have hcongr : ∀ k g, m.files k = some g → ∀ p, (if k = id then u g else g).parent = some p →
      ((m.modify id u).files p).map (·.size) = (m.files p).map (·.size) := by
    intro k g hg p hp
    have hp : g.parent = some p := by
      split_ifs at hp with hk
      · rw [← hparent g, hp]
      · exact hp
    rw [modify_files]
    split_ifs with hpid
    · rcases hsize with hsize | hc
      · rw [hpid, Option.map_map]
        congr 1
        funext f
        exact hsize f
      · exact absurd (show k ∈ m.children id from ⟨g, hg, hpid ▸ hp⟩) (by rw [hc]; exact not_false)
    · rfl
  refine cost_insert (x := x) h ?_ (mark_mono rfl (by rw [ids_modify]))
  rintro ⟨k, n⟩ ⟨g, hg, hn⟩
  obtain ⟨f, hf, rfl⟩ := modify_eq_some.1 hg
  rw [resized_congr (hcongr k f hf)] at hn
  simp only at hf hn
  split_ifs at hn with hk
  · subst hk
    obtain ⟨hr, hi⟩ := hitems f hf
    rcases hn with hn | ⟨hn, hres⟩ | ⟨i, hn, hmap⟩
    · exact .inr ⟨f, hf, .inl hn⟩
    · rcases hr hres with hres | hx
      · exact .inr ⟨f, hf, .inr (.inl ⟨hn, hres⟩)⟩
      · exact .inl (by rw [hx, hn])
    · rcases hi i hmap with hmap | hx
      · exact .inr ⟨f, hf, .inr (.inr ⟨i, hn, hmap⟩)⟩
      · exact .inl (by rw [hx, hn])
  · exact .inr ⟨f, hf, hn⟩

/-- A file that goes takes its first entry along, which pays for one of the two entries
of the marker. -/
theorem cost_delete (h : m.WF total) (hid : id ∈ m.ids) (hc : m.children id = ∅) :
    (Metadata.cost { m with files := Function.update m.files id none }) ≤ m.cost + 1 := by
  have hsub : (Metadata.items { m with files := Function.update m.files id none }) ⊆
      m.items \ {(id, 0)} := by
    rintro ⟨k, n⟩ ⟨g, hg, hn⟩
    simp only [Function.update_apply] at hg
    split_ifs at hg with hk
    rw [resized_congr (m := m)] at hn
    · refine ⟨⟨g, hg, hn⟩, fun heq => hk (congrArg Prod.fst heq)⟩
    · intro p hp
      simp only [Function.update_apply]
      rw [if_neg]
      rintro rfl
      exact absurd (show k ∈ m.children p from ⟨g, hg, hp⟩) (by rw [hc]; exact not_false)
  obtain ⟨f, hf⟩ := mem_ids.1 hid
  have hmem : (id, 0) ∈ m.items := ⟨f, hf, .inl rfl⟩
  have h₁ := Set.ncard_le_ncard hsub (h.finite_items.subset Set.sdiff_subset)
  have h₂ := Set.ncard_sdiff_singleton_lt_of_mem hmem h.finite_items
  have h₃ := mark_le { m with files := Function.update m.files id none }
  unfold cost
  omega

/-- **No entry adds more than one entry to the snapshot.** -/
theorem cost_after (h : m.WF total) (ha : m.Admits total e) : (m.after e).cost ≤ m.cost + 1 := by
  cases e with
  | create id raw => exact cost_add h ha.2.2.1 (by simp [Resized]) fun _ => rfl
  | fork id pid raw =>
      obtain ⟨hc, hlt, hpid⟩ := ha
      obtain ⟨p, hp⟩ := mem_ids.1 hpid
      refine cost_add h hc.2.2.1 ?_ fun _ => rfl
      simp only [Resized, forked, add_files, if_neg hlt.ne, hp]
      simp
  | truncate id size =>
      refine cost_modify (x := (id, 1)) h (fun _ => rfl) (.inr ha.2.2) fun f hf => ⟨fun _ => .inr rfl, ?_⟩
      intro i hi
      simp only [FileInfo.resize] at hi
      split_ifs at hi
      · exact .inl hi
      · exact absurd rfl hi
  | delete id => exact cost_delete h ha.1 ha.2
  | bind id i b =>
      refine cost_modify (x := (id, i + 2)) h (fun _ => rfl) (.inl fun _ => rfl)
        fun f hf => ⟨fun hr => .inl hr, ?_⟩
      intro j hj
      simp only [Function.update_apply] at hj
      split_ifs at hj with hji
      · exact .inr (by rw [hji])
      · exact .inl hj
  | unbind id i =>
      refine cost_modify (x := (id, 0)) h (fun _ => rfl) (.inl fun _ => rfl)
        fun f hf => ⟨fun hr => .inl hr, ?_⟩
      intro j hj
      simp only [Function.update_apply] at hj
      split_ifs at hj
      · exact absurd rfl hj
      · exact .inl hj
  | rename id raw =>
      exact cost_modify (x := (id, 0)) h (fun _ => rfl) (.inl fun _ => rfl)
        fun f hf => ⟨fun hr => .inl hr, fun j hj => .inl hj⟩
  | next b => exact ha.elim

theorem cost_empty : empty.cost = 0 := by
  have : empty.items = ∅ := by
    rw [Set.eq_empty_iff_forall_notMem]
    rintro x ⟨f, hf, -⟩
    cases hf
  rw [cost, this, mark, if_pos (.inr rfl)]
  simp

end Metadata

/-- The item that an entry of a snapshot is for. -/
def Entry.item : Entry → ℕ × ℕ
  | .create id _ | .fork id _ _ => (id, 0)
  | .truncate id _ => (id, 1)
  | .bind id i _ => (id, i + 2)
  | .next b => (b, 0)
  | .delete id | .unbind id _ | .rename id _ => (id, 0)

namespace Super

variable {s X : Super} {total id : ℕ} {f : File} {held : ℕ → Finset ℕ}

/-- The entries of a file are for different items of it. -/
theorem fileEntries_items (h : X.Loading held total) (hf : X.filesById[id]? = some f) :
    ((X.fileEntries f).map Entry.item).Nodup ∧
      ∀ x ∈ (X.fileEntries f).map Entry.item, x.1 = id ∧ x ∈ X.metadata.items := by
  have hid := h.rep.keyed id f hf
  have hm := metadata_files_of hf
  -- whichever entry comes first
  obtain ⟨e, t, heq, he, ht⟩ : ∃ (e : Entry) (t : Bool),
      X.fileEntries f = e :: ((if t then [.truncate f.id f.size] else []) ++
        f.extents.toList.map fun x => .bind f.id x.1 x.2.backend) ∧
      e.item = (f.id, 0) ∧ (t = true → X.metadata.Resized f.info) := by
    unfold fileEntries
    cases hp : f.parent with
    | none =>
        refine ⟨_, _, rfl, rfl, fun ht => ?_⟩
        have hp' : f.info.parent = none := hp
        have hlt : 0 < f.info.size := of_decide_eq_true ht
        simpa only [Metadata.Resized, hp'] using hlt
    | some p =>
        refine ⟨_, _, rfl, rfl, fun ht => ?_⟩
        have hp' : f.info.parent = some p := hp
        have hsize : (X.metadata.files p).map (·.size) = (X.filesById[p]?).map (·.size) := by
          simp only [metadata, Option.map_map]
          rfl
        simp only [Metadata.Resized, hp', hsize]
        exact of_decide_eq_true ht
  have hmap : (X.fileEntries f).map Entry.item = (id, 0) :: ((if t then [(id, 1)] else []) ++
      f.extents.toList.map fun x => (id, x.1 + 2)) := by
    rw [heq, List.map_cons, List.map_append, List.map_map, he, hid]
    congr 2
    cases t <;> rfl
  have hkeys : (f.extents.toList.map fun x => (id, x.1 + 2)).Nodup := by
    have hk : (f.extents.toList.map fun x => (id, x.1 + 2)) =
        f.extents.keys.map fun i => (id, i + 2) := by
      rw [← ExtTreeMap.map_fst_toList_eq_keys, List.map_map]
      rfl
    rw [hk]
    refine List.Nodup.map (fun i j hij => ?_) ExtTreeMap.nodup_keys
    simpa using hij
  rw [hmap]
  constructor
  · refine List.nodup_cons.2 ⟨?_, List.nodup_append.2 ⟨?_, hkeys, ?_⟩⟩
    · cases t <;> simp
    · cases t <;> simp
    · rintro x hx _ hy rfl
      obtain ⟨y, -, rfl⟩ := List.mem_map.1 hy
      cases t <;> simp at hx
  · intro x hx
    rcases List.mem_cons.1 hx with rfl | hx
    · exact ⟨rfl, f.info, hm, .inl rfl⟩
    rcases List.mem_append.1 hx with hx | hx
    · split_ifs at hx with htrue
      · obtain rfl := List.mem_singleton.1 hx
        exact ⟨rfl, f.info, hm, .inr (.inl ⟨rfl, ht htrue⟩)⟩
      · cases hx
    · obtain ⟨y, hy, rfl⟩ := List.mem_map.1 hx
      refine ⟨rfl, f.info, hm, .inr (.inr ⟨y.1, rfl, ?_⟩)⟩
      rw [h.settled.map_eq hf, ExtTreeMap.mem_toList_iff_getElem?_eq_some.1 hy]
      simp

/-- A snapshot has no more entries than the metadata has items, and the marker. -/
theorem length_snapshot_le {S : List Entry} (h : X.Loading held total) (hS : X.snapshot = some S) :
    S.length ≤ X.metadata.cost := by
  obtain ⟨ms, hms, rfl⟩ := Option.map_eq_some_iff.1 hS
  have hitem : ∀ y ∈ X.filesById.toList, X.filesById[y.1]? = some y.2 :=
    fun y hy => ExtTreeMap.mem_toList_iff_getElem?_eq_some.1 hy
  let l := (X.filesById.toList.flatMap fun x => X.fileEntries x.2).map Entry.item
  have hl : l = X.filesById.toList.flatMap fun x => (X.fileEntries x.2).map Entry.item :=
    List.map_flatMap ..
  have hnodup : l.Nodup := by
    rw [hl, List.nodup_flatMap]
    refine ⟨fun y hy => (fileEntries_items h (hitem y hy)).1, ?_⟩
    refine ExtTreeMap.distinct_keys_toList.imp_of_mem fun {y z} hy hz hyz => ?_
    rw [Function.onFun, List.disjoint_left]
    intro x hx hx'
    have h₁ := ((fileEntries_items h (hitem y hy)).2 x hx).1
    have h₂ := ((fileEntries_items h (hitem z hz)).2 x hx').1
    exact hyz (by rw [← h₁, ← h₂]; exact ReflCmp.compare_self)
  have hsub : (l.toFinset : Set (ℕ × ℕ)) ⊆ X.metadata.items := by
    intro x hx
    rw [Finset.mem_coe, List.mem_toFinset, hl, List.mem_flatMap] at hx
    obtain ⟨y, hy, hx⟩ := hx
    exact ((fileEntries_items h (hitem y hy)).2 x hx).2
  have hcard : l.length ≤ X.metadata.items.ncard := by
    rw [← List.toFinset_card_of_nodup hnodup, ← Set.ncard_coe_finset]
    exact Set.ncard_le_ncard hsub h.wf.finite_items
  have hmark : ms.length ≤ X.metadata.mark := by
    unfold markerEntries at hms
    split_ifs at hms with hlive
    · exact Option.some.inj hms ▸ Nat.zero_le _
    · obtain ⟨n, -, rfl⟩ := Option.map_eq_some_iff.1 hms
      have hle := le_maxLiveId h.wf
      rw [Metadata.mark, if_neg]
      · rfl
      · rintro (hm | h0)
        · exact hlive (hle.1 _ hm)
        · exact hlive (le_of_eq_of_le h0 (Nat.zero_le _))
  have hlen : (X.filesById.toList.flatMap fun x => X.fileEntries x.2).length = l.length :=
    (List.length_map _).symm
  rw [List.length_append, hlen, Metadata.cost]
  omega

/-- What a replay leads to costs no more than it was longer. -/
theorem cost_replayAll {es : List Entry} {s' : Super} (h : s.Loading held total)
    (hr : s.replayAll es = .ok s') : s'.Loading held total ∧
      s'.metadata.cost ≤ s.metadata.cost + (es.filter (·.Regular)).length := by
  induction es generalizing s with
  | nil =>
      obtain rfl := Except.ok.inj hr
      exact ⟨h, le_rfl⟩
  | cons e es ih =>
      rw [replayAll] at hr
      split at hr
      · rename_i s₁ hs₁
        obtain ⟨h', hle⟩ := ih (h.replay hs₁) hr
        obtain ⟨ha, hm, -⟩ := h.replayed (replay_eq_ok.1 hs₁)
        refine ⟨h', ?_⟩
        rw [hm] at hle
        by_cases he : e.Regular
        · have := Metadata.cost_after h.wf (ha he)
          rw [List.filter_cons_of_pos (by simpa using he), List.length_cons]
          omega
        · rw [List.filter_cons_of_neg (by simpa using he)]
          cases e with
          | next b => exact hle
          | _ => exact absurd (by simp [Entry.Regular, Entry.type]) he
      · cases hr

/-- **The snapshot of a replayed journal exists and is no longer than the journal.** -/
theorem snapshot_of_replayAll {es : List Entry} {d c : Bool} {u : Uuid} {page : Buf}
    (hr : (Super.opened total d c u page).replayAll es = .ok X) :
    ∃ S, X.snapshot = some S ∧ S.length ≤ (es.filter (·.Regular)).length := by
  obtain ⟨h, hcost⟩ := cost_replayAll (replaying_opened total d c u page).loading hr
  rw [metadata_opened, Metadata.cost_empty, Nat.zero_add] at hcost
  obtain ⟨S, hS⟩ : ∃ S, X.snapshot = some S := by
    obtain ⟨i, -, hname, -⟩ := h.rep.exists_markerName h.wf
    unfold snapshot markerEntries
    split_ifs
    · exact ⟨_, rfl⟩
    · rw [hname]
      exact ⟨_, rfl⟩
  exact ⟨S, hS, (length_snapshot_le h hS).trans hcost⟩

end Super

end Cyanfs
