/-
# A compaction fits in the reserve

`cyanfs_super_open` keeps extents back for journals: eight times what the FORK entries of
all files and the BIND entries of all extents need.  The writer of a compaction needs room
for more than that: for truncations, the marker, record headers, padding, the bytes at the
end of a record that no entry fits into, and NEXT entries.

It packs greedily.  A record that leaves entries over stops because the next entry does
not fit, so it is as large as a page and wastes less than 164 bytes (`Laid.full`).  An
extent that the writer leaves has sixteen such records, so it holds at least `1045952`
bytes of entries (`Writes.fresh_le`), which is more than enough (`compaction_fits`).
-/

import Cyanfs.Journal.Packing
import Cyanfs.Journal.Writing

namespace Cyanfs

open Lib Std

/-! ### Records that are full -/

/-- The selection stops in front of an entry that does not fit. -/
theorem selectEntries_full {limit used u : ℕ} {head taken rest : List JEntry}
    (h : selectEntries limit used head = some (taken, u, rest)) (hrest : rest ≠ []) :
    limit < u + 145 := by
  induction head generalizing used taken with
  | nil =>
      simp only [selectEntries, Option.some.injEq, Prod.mk.injEq] at h
      exact absurd h.2.2.symm hrest
  | cons j js ih =>
      unfold selectEntries at h
      split_ifs at h with h₁ h₂
      · simp only [Option.some.injEq, Prod.mk.injEq] at h
        obtain ⟨-, rfl, -⟩ := h
        have := j.entry.size_le
        omega
      · obtain ⟨⟨taken', u', rest'⟩, hs, he⟩ := Option.map_eq_some_iff.1 h
        simp only [Prod.mk.injEq] at he
        obtain ⟨-, rfl, rfl⟩ := he
        exact ih hs

/-- A record that leaves entries over is full, and it links to a fresh extent only at the
end of its own. -/
theorem layoutRecord_full {c : Cursor} {head : List JEntry} {nextId : Option ℕ} {p : Plan}
    (h : layoutRecord c head nextId = some p) :
    (p.rest ≠ [] → c.capacity ≤ entriesSize p.taken + 164) ∧
      (p.link = .fresh → c.remaining ≤ c.capacity) := by
  unfold layoutRecord at h
  simp only [Option.ite_none_left_eq_some] at h
  obtain ⟨-, hcap, h⟩ := h
  split at h
  · cases h
  rename_i taken used rest hs
  simp only [Option.ite_none_left_eq_some] at h
  obtain ⟨-, -, hused, -, -, h⟩ := h
  obtain rfl := Option.some.inj h
  constructor
  · intro hrest
    have hlt := selectEntries_full hs hrest
    have hu := (selectEntries_spec hs).1
    simp only [journalTailSize, journalHeaderSize] at *
    omega
  · intro hfresh
    simp only at hfresh
    have hend : used + padding used = c.remaining := by
      cases nextId with
      | none =>
          simp only at hfresh
          split_ifs at hfresh with he
          exact he
      | some b =>
          simp only at hfresh
          split_ifs at hfresh with hr he
          exact he
    omega

/-- **A record that leaves entries over fills its page.** -/
theorem Laid.full {c : Cursor} {head : List JEntry} {nextId : Option ℕ} {p : Plan}
    (h : Laid c head nextId p) (hfull : c.capacity ≤ entriesSize p.taken + 164)
    (hpage : c.extentOff % journalPageSize = 0) :
    p.size = journalPageSize ∧ 65372 ≤ entriesSize p.taken := by
  have h₁ := h.valid.1
  have h₂ := h.block
  have h₃ := h.page
  have h₄ := h.extent
  have h₅ := h.used
  simp only [Cursor.place, Cursor.capacity, Cursor.remaining, extentSize, journalPageSize,
    journalBlockSize, journalHeaderSize] at *
  omega

/-! ### Extents that are full -/

/-- The extents that a writer uses: the one it starts in, and those that its records link
to and it takes from the free set. -/
def extentsUsed (c : Cursor) (ps : List WriterStep) : List ℕ :=
  c.extentId :: (ps.filter fun x => x.plan.link = .fresh).map fun x => x.behind.extentId

theorem entriesSize_append (js ks : List JEntry) :
    entriesSize (js ++ ks) = entriesSize js + entriesSize ks := by
  simp [entriesSize]

theorem Writes.of_nil {nextId : Option ℕ} {c c' : Cursor} {ps : List WriterStep} {left : List JEntry}
    (h : Writes nextId c [] ps c' left) : ps = [] := by
  cases h with
  | nil => rfl
  | cons hp _ _ =>
      have := (laid_of_layoutRecord hp).head
      exact absurd (List.append_eq_nil_iff.1 this.symm).1 (laid_of_layoutRecord hp).nonempty

/-- Sixteen full records. -/
theorem full_extent {n rest taken : ℕ} (h : n ≤ rest) (ht : 65372 ≤ taken) :
    n + 1045952 ≤ taken + rest + 15 * 65372 := by omega

/-- **An extent that the writer leaves holds `1045952` bytes of entries.**  The pages in
front of the cursor have contributed their share already. -/
theorem Writes.fresh_le {endId : ℕ} {c c' : Cursor} {head left : List JEntry} {ps : List WriterStep}
    (h : Writes (some endId) c head ps c' left) (hpage : c.extentOff % journalPageSize = 0) :
    (ps.filter fun x => x.plan.link = .fresh).length * 1045952 ≤
      entriesSize head + c.extentOff / journalPageSize * 65372 := by
  induction h with
  | nil c head => simp
  | @cons s s' c c' c'' head rest req fl p ps left hp hw ht ih =>
      obtain ⟨p', hp', rfl, hwrote⟩ := wrote_of_writerEncode hw
      obtain rfl := Option.some.inj (hp.symm.trans hp')
      have hlaid := hwrote.laid
      have hhead : entriesSize head = entriesSize p.taken + entriesSize p.rest := by
        rw [hlaid.head, entriesSize_append]
      by_cases hrest : p.rest = []
      · -- the last record links to `endId`
        have hfinal : p.link = .final endId := (hlaid.final endId).2 ⟨rfl, hrest⟩
        rw [hrest] at ht
        rw [ht.of_nil]
        simp [hfinal]
      obtain ⟨hfull, hend⟩ := layoutRecord_full hp
      obtain ⟨hsize, hbytes⟩ := hlaid.full (hfull hrest) hpage
      have hoff := hlaid.valid.1
      have hext := hlaid.extent
      cases hlink : p.link with
      | final b => exact absurd ((hlaid.final b).1 hlink).2 hrest
      | none =>
          have hsame := (hwrote.same hlink).2
          rw [List.filter_cons_of_neg (by simp [hlink])]
          have := ih (by rw [hsame, hsize]; simp only [journalPageSize] at *; omega)
          rw [hsame, hsize] at this
          simp only [journalPageSize] at *
          omega
      | fresh =>
          have hzero : c'.extentOff = 0 := hwrote.linked (by simp [hlink])
          rw [List.filter_cons_of_pos (by simp [hlink]), List.length_cons]
          have hsum := ih (by rw [hzero, Nat.zero_mod])
          rw [hzero, Nat.zero_div, Nat.zero_mul] at hsum
          -- the record was the sixteenth of its extent
          have hlast : c.extentOff / journalPageSize = 15 := by
            have := hend hlink
            simp only [Cursor.capacity, Cursor.remaining, Cursor.place, extentSize,
              journalPageSize] at this hoff hpage ⊢
            omega
          rw [hlast, hhead, Nat.add_mul, Nat.one_mul]
          exact full_extent hsum hbytes

/-- **The extents that are used hold what is written.** -/
theorem Writes.le_extentsUsed {endId : ℕ} {c c' : Cursor} {head left : List JEntry}
    {ps : List WriterStep} (h : Writes (some endId) c head ps c' left)
    (hoff : c.extentOff ≤ extentSize) :
    entriesSize head + c.extentOff ≤
      entriesSize left + (extentsUsed c ps).length * extentSize := by
  simp only [extentsUsed, List.length_cons, List.length_map]
  induction h with
  | nil c head => simp only [List.filter_nil, List.length_nil]; omega
  | @cons s s' c c' c'' head rest req fl p ps left hp hw ht ih =>
      obtain ⟨p', hp', rfl, hwrote⟩ := wrote_of_writerEncode hw
      obtain rfl := Option.some.inj (hp.symm.trans hp')
      have hlaid := hwrote.laid
      have hext := hlaid.extent
      have hused := hlaid.used
      rw [hlaid.head, entriesSize_append]
      cases hlink : p.link with
      | none =>
          have hsame := (hwrote.same hlink).2
          rw [List.filter_cons_of_neg (by simp [hlink])]
          have := ih (by omega)
          omega
      | final b =>
          have hzero : c'.extentOff = 0 := hwrote.linked (by simp [hlink])
          rw [((hlaid.final b).1 hlink).2] at ht ⊢
          rw [ht.of_nil, List.filter_cons_of_neg (by simp [hlink]), List.filter_nil,
            List.length_nil, show entriesSize [] = 0 from rfl]
          omega
      | fresh =>
          have hzero : c'.extentOff = 0 := hwrote.linked (by simp [hlink])
          rw [List.filter_cons_of_pos (by simp [hlink]), List.length_cons, Nat.succ_mul]
          have := ih (by omega)
          omega

/-- Every record lies in an extent that the writer uses. -/
theorem Writes.mem_extentsUsed {endId : ℕ} {c c' : Cursor} {head left : List JEntry}
    {ps : List WriterStep} (h : Writes (some endId) c head ps c' left) :
    ∀ x ∈ ps, x.before.extentId ∈ extentsUsed c ps := by
  induction h with
  | nil c head => simp
  | @cons s s' c c' c'' head rest req fl p ps left hp hw ht ih =>
      obtain ⟨p', hp', rfl, hwrote⟩ := wrote_of_writerEncode hw
      obtain rfl := Option.some.inj (hp.symm.trans hp')
      intro x hx
      rcases List.mem_cons.1 hx with rfl | hx
      · exact List.mem_cons_self
      have hmem := ih x hx
      cases hlink : p.link with
      | final b =>
          rw [((hwrote.laid.final b).1 hlink).2] at ht
          rw [ht.of_nil] at hx
          cases hx
      | none =>
          rw [extentsUsed, List.filter_cons_of_neg (by simp [hlink]), ← (hwrote.same hlink).1]
          exact hmem
      | fresh =>
          rw [extentsUsed, List.filter_cons_of_pos (by simp [hlink])]
          exact List.mem_cons_of_mem _ hmem

/-! ### The size of a snapshot -/

/-- The bytes of the entries. -/
def bytesOf (es : List Entry) : ℕ := (es.map Entry.size).sum

theorem bytesOf_append (es fs : List Entry) : bytesOf (es ++ fs) = bytesOf es + bytesOf fs := by
  simp [bytesOf]

theorem bytesOf_binds (id : ℕ) (l : List (ℕ × Extent)) :
    bytesOf (l.map fun x => .bind id x.1 x.2.backend) = 17 * l.length := by
  induction l with
  | nil => rfl
  | cons x l ih =>
      simp only [bytesOf, List.map_cons, List.sum_cons, List.length_cons] at ih ⊢
      rw [ih, Entry.size, Entry.type, entrySize]
      omega

theorem bytesOf_fileEntries (X : Super) (f : File) :
    bytesOf (X.fileEntries f) ≤ 162 + 17 * f.extents.size := by
  have hlen : f.extents.toList.length = f.extents.size := ExtTreeMap.length_toList
  obtain ⟨e, t, heq⟩ : ∃ (e : Entry) (t : Bool),
      X.fileEntries f = e :: ((if t then [.truncate f.id f.size] else []) ++
        f.extents.toList.map fun x => .bind f.id x.1 x.2.backend) := by
    unfold Super.fileEntries
    cases f.parent <;> exact ⟨_, _, rfl⟩
  have he := e.size_le
  have ht : bytesOf (if t then [.truncate f.id f.size] else []) ≤ 17 := by
    cases t <;> simp [bytesOf, Entry.size, Entry.type, entrySize]
  have hcons : ∀ es, bytesOf (e :: es) = e.size + bytesOf es := fun es => rfl
  rw [heq, hcons, bytesOf_append, bytesOf_binds, hlen]
  omega

/-- The bytes of a snapshot: FORK and TRUNCATE for every file, BIND for every extent, and
the marker. -/
theorem bytesOf_snapshot {X : Super} {S : List Entry} (hS : X.snapshot = some S) :
    bytesOf S ≤ 162 * X.filesById.size +
      17 * (X.filesById.toList.map fun x => x.2.extents.size).sum + 146 := by
  obtain ⟨ms, hms, rfl⟩ := Option.map_eq_some_iff.1 hS
  have hfiles : ∀ l : List (ℕ × File), bytesOf (l.flatMap fun x => X.fileEntries x.2) ≤
      162 * l.length + 17 * (l.map fun x => x.2.extents.size).sum := by
    intro l
    induction l with
    | nil => simp [bytesOf]
    | cons x l ih =>
        have := bytesOf_fileEntries X x.2
        rw [List.flatMap_cons, bytesOf_append, List.length_cons, List.map_cons, List.sum_cons]
        omega
  have hmark : bytesOf ms ≤ 146 := by
    unfold Super.markerEntries at hms
    split_ifs at hms
    · exact Option.some.inj hms ▸ by decide
    · obtain ⟨n, -, rfl⟩ := Option.map_eq_some_iff.1 hms
      exact Nat.le_of_eq rfl
  have := hfiles X.filesById.toList
  rw [ExtTreeMap.length_toList] at this
  rw [bytesOf_append]
  omega

/-- **A compaction fits in the reserve.**  Of a state with at most 4096 files and at most
`total` bound extents, the snapshot is written to at most half of the extents that
`cyanfs_super_open` reserves on a device of `total` extents, whatever happens to the super
in between. -/
theorem compaction_fits {total endId : ℕ} {X : Super} {S : List Entry} {c c' : Cursor}
    {ps : List WriterStep} {left : List JEntry} (hS : X.snapshot = some S)
    (hfiles : X.filesById.size ≤ superMaxFiles)
    (hbound : (X.filesById.toList.map fun x => x.2.extents.size).sum ≤ total)
    (hoff : c.extentOff = 0) (hw : Writes (some endId) c (S.map (⟨·, false⟩)) ps c' left) :
    (extentsUsed c ps).length ≤ reservedFor total / 2 ∧
      ∀ x ∈ ps, x.before.extentId ∈ extentsUsed c ps := by
  refine ⟨?_, hw.mem_extentsUsed⟩
  have hbytes : entriesSize (S.map fun e => (⟨e, false⟩ : JEntry)) = bytesOf S := by
    simp [entriesSize, bytesOf, Function.comp_def]
  have hfresh := hw.fresh_le (by rw [hoff, Nat.zero_mod])
  rw [hoff, Nat.zero_div, Nat.zero_mul, hbytes] at hfresh
  have hsnap := bytesOf_snapshot hS
  rw [extentsUsed, List.length_cons, List.length_map]
  simp only [reservedFor, entrySize, superMaxFiles, extentSize] at *
  omega

/-! ### A snapshot of more than one extent -/

/-- A writer that has sequence numbers and an extent comes to the end of its list. -/
theorem exists_writes {s : Super} (endId : ℕ) (hs : s.error = false)
    (hfree : s.findNearlyExtent 0 ≠ none) {c : Cursor} {head : List JEntry} (hv : c.place.Valid)
    (hreg : ∀ j ∈ head, j.entry.Regular) (hseq : c.seq + head.length ≤ u64Max) :
    ∃ ps c', Writes (some endId) c head ps c' [] := by
  induction hn : head.length using Nat.strong_induction_on generalizing c head with
  | _ n ih =>
      by_cases hne : head = []
      · subst hne
        exact ⟨[], c, .nil _ _⟩
      obtain ⟨s', c₁, req, fl, rest, hw⟩ :=
        exists_write (some endId) hv hne hreg hs (by omega) hfree
      obtain ⟨p, hp, rfl, hwrote⟩ := wrote_of_writerEncode hw
      have hlaid := hwrote.laid
      have hlen := congrArg List.length hlaid.head
      have htaken := List.length_pos_iff.2 hlaid.nonempty
      have hseq₁ := hwrote.seq
      rw [List.length_append] at hlen
      have hv₁ : c₁.place.Valid := by
        by_cases hlink : p.link = .none
        · have hoff := (hwrote.same hlink).2
          have h₁ := hlaid.inside hlink
          have h₂ := hlaid.block
          have h₃ := hv.2
          simp only [Cursor.place] at h₃
          constructor <;> simp only [Cursor.place, journalBlockSize] at * <;> omega
        · have hoff := hwrote.linked hlink
          constructor <;> simp [Cursor.place, hoff, extentSize]
      obtain ⟨ps, c', h⟩ := ih p.rest.length (by omega) hv₁
        (fun j hj => hreg j (by rw [hlaid.head]; exact List.mem_append_right _ hj)) (by omega) rfl
      exact ⟨⟨c, p, c₁⟩ :: ps, c', .cons hp hw h⟩

/-- A file with `n` extents. -/
def bulkFile (n : ℕ) : File :=
  { Super.newFile (markerCandidate 0) 1 none with
    size := n * extentSize
    extents := (List.range n).foldl (fun m i => m.insert i ⟨i, false, false⟩) ∅ }

theorem size_bulkFile (n : ℕ) : (bulkFile n).extents.size = n := by
  have key : (∀ i, i ∈ (bulkFile n).extents ↔ i < n) ∧ (bulkFile n).extents.size = n := by
    induction n with
    | zero => simp [bulkFile]
    | succ n ih =>
        obtain ⟨hmem, hsize⟩ := ih
        have hins : (bulkFile (n + 1)).extents =
            (bulkFile n).extents.insert n ⟨n, false, false⟩ := by
          simp [bulkFile, List.range_succ]
        rw [hins]
        constructor
        · intro i
          rw [ExtTreeMap.mem_insert, Nat.compare_eq_eq, hmem]
          omega
        · rw [ExtTreeMap.size_insert, if_neg (by simp [hmem]), hsize]
  exact key.2

/-- A file with `n` extents and a fork of it. -/
def bulkSuper (uuid : Uuid) (total n : ℕ) : Super :=
  ((Super.opened total false false uuid fun _ => 0).setFile
    (bulkFile n)).setFile (Super.newFile (markerCandidate 1) 2 (some (bulkFile n)))

theorem bulkSuper_files (uuid : Uuid) (total n : ℕ) : (bulkSuper uuid total n).filesById.toList =
    [(1, bulkFile n), (2, Super.newFile (markerCandidate 1) 2 (some (bulkFile n)))] := by
  rfl

/-- The snapshot of such a state. -/
theorem bulkSuper_snapshot (uuid : Uuid) (total n : ℕ) : ∃ S, (bulkSuper uuid total n).snapshot = some S ∧
    (∀ e ∈ S, e.Regular) ∧ S.length ≤ n + 3 ∧ 17 * n ≤ bytesOf S := by
  let X := bulkSuper uuid total n
  have hmark : X.markerEntries = some [] := if_pos (Nat.zero_le _)
  have hfork : X.fileEntries (Super.newFile (markerCandidate 1) 2 (some (bulkFile n))) =
      [.fork 2 1 (markerCandidate 1)] := by
    have hp : X.filesById[1]? = some (bulkFile n) := rfl
    simp [Super.fileEntries, Super.newFile, bulkFile, hp]
  have hfile : ∃ b : Bool, X.fileEntries (bulkFile n) = .create 1 (markerCandidate 0) ::
      ((if b then [.truncate 1 (n * extentSize)] else []) ++
        (bulkFile n).extents.toList.map fun x => .bind 1 x.1 x.2.backend) := ⟨_, rfl⟩
  obtain ⟨b, hfile⟩ := hfile
  have hS : X.snapshot = some (X.fileEntries (bulkFile n) ++ [.fork 2 1 (markerCandidate 1)]) := by
    rw [Super.snapshot, hmark, bulkSuper_files]
    simp [hfork]
  have hlen : (bulkFile n).extents.toList.length = n := by
    rw [ExtTreeMap.length_toList, size_bulkFile]
  rw [hfile] at hS
  refine ⟨_, hS, ?_, ?_, ?_⟩
  · intro e he
    simp only [List.cons_append, List.append_assoc, List.mem_cons, List.mem_append, List.mem_map,
      List.not_mem_nil, or_false] at he
    obtain rfl | h | ⟨x, -, rfl⟩ | rfl := he
    · simp [Entry.Regular, Entry.type]
    · cases b with
      | true => simp_all [Entry.Regular, Entry.type]
      | false => cases h
    · simp [Entry.Regular, Entry.type]
    · simp [Entry.Regular, Entry.type]
  · have htrunc : (if b then [Entry.truncate 1 (n * extentSize)] else []).length ≤ 1 := by
      cases b <;> simp
    rw [List.length_append, List.length_cons, List.length_append, List.length_map, hlen,
      List.length_singleton]
    omega
  · have hbinds := bytesOf_binds 1 (bulkFile n).extents.toList
    rw [hlen] at hbinds
    rw [← List.singleton_append, bytesOf_append, bytesOf_append, bytesOf_append]
    omega

/-- More than an extent of entries goes to two extents. -/
theorem compaction_fits_packed :
    let X := bulkSuper ⟨List.replicate 16 7, rfl⟩ 131072 70000
    let c : Cursor := ⟨fun _ => 0, 0, 3, 0, 0, 7⟩
    ∃ S ps c', X.snapshot = some S ∧ Writes (some 5) c (S.map (⟨·, false⟩)) ps c' [] ∧
      2 ≤ (extentsUsed c ps).length ∧ (extentsUsed c ps).length ≤ reservedFor 131072 / 2 := by
  intro X c
  obtain ⟨S, hS, hreg, hlen, hbytes⟩ := bulkSuper_snapshot ⟨List.replicate 16 7, rfl⟩ 131072 70000
  have hsize : entriesSize (S.map fun e => (⟨e, false⟩ : JEntry)) = bytesOf S := by
    simp [entriesSize, bytesOf, Function.comp_def]
  have hregular : ∀ j ∈ S.map fun e => (⟨e, false⟩ : JEntry), j.entry.Regular := by simpa using hreg
  obtain ⟨ps, c', hw⟩ := exists_writes (s := Super.opened 16 false false ⟨List.replicate 16 7, rfl⟩
    fun _ => 0) (c := c) 5 rfl (by decide) ⟨by decide, rfl⟩ hregular (by simp [c, u64Max]; omega)
  have htwo := hw.le_extentsUsed (Nat.zero_le _)
  rw [hsize] at htwo
  refine ⟨S, ps, c', hS, hw, ?_, (compaction_fits hS ?_ ?_ rfl hw).1⟩
  · rw [show entriesSize [] = 0 from rfl] at htwo
    simp only [extentSize] at htwo
    omega
  · exact show 2 ≤ 4096 by decide
  · rw [bulkSuper_files]
    simp only [List.map_cons, List.map_nil, List.sum_cons, List.sum_nil, size_bulkFile]
    decide

end Cyanfs
