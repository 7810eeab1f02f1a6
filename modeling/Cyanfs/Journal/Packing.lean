/-
# The record packer never fails for a structural reason

`cyanfs_journal_writer_encode` checks its own arithmetic as it lays out a record:
the cursor, the capacity, that an entry fits, that the record, the NEXT entry and
the padding stay inside the capacity.  `layoutRecordChecked` is that function with
the check that failed, and `layoutRecord` forgets which one it was
(`layoutRecord_eq`).

The capacity is a positive number of blocks and five bytes of it are kept for
NEXT, so every rounding up to a block stays inside (`padding_le`), also the
second one, after NEXT has pushed the record over a block boundary.  What is
left is the sequence number, which may run out (`layoutRecordChecked_cases`).
`record_packs` is the whole step.
-/

import Cyanfs.Journal.Format

namespace Cyanfs

open Lib

/-- The checks of `cyanfs_journal_writer_encode`, by their messages. -/
inductive PackErr where
  /-- "invalid journal cursor." -/
  | cursor
  /-- "invalid journal record capacity." -/
  | capacity
  /-- "invalid journal entry." -/
  | entry
  /-- "journal record cannot fit an entry." -/
  | fit
  /-- "journal sequence overflow." -/
  | sequence
  /-- "journal record exceeds capacity." -/
  | record
  /-- "journal NEXT exceeds capacity." -/
  | next
  /-- "journal padding exceeds capacity." -/
  | padding
deriving DecidableEq

/-- The layout part of `cyanfs_journal_writer_encode`, with the check that
fails. -/
def layoutRecordChecked (c : Cursor) (head : List JEntry) (nextId : Option ℕ) :
    Except PackErr Plan :=
  if extentSize ≤ c.extentOff ∨ c.extentOff % journalBlockSize ≠ 0 then .error .cursor
  else if c.capacity < journalBlockSize ∨ c.capacity < journalTailSize then .error .capacity
  else
    match selectEntries (c.capacity - journalTailSize) journalHeaderSize head with
    | none => .error .entry
    | some (taken, used, rest) =>
        if taken = [] then .error .fit
        else if u64Max - c.seq < taken.length then .error .sequence
        else if c.capacity < used ∨ c.capacity - used < padding used then .error .record
        else
          let atExtentEnd := used + padding used = c.remaining
          let finalLink := rest = [] ∧ nextId ≠ none
          let needNext := atExtentEnd ∨ finalLink
          if needNext ∧ c.capacity - used < journalTailSize then .error .next
          else
            let finalUsed := if needNext then used + journalTailSize else used
            if c.capacity - finalUsed < padding finalUsed then .error .padding
            else .ok ⟨taken, rest, finalUsed + padding finalUsed,
              match nextId with
              | some b => if rest = [] then .final b else if atExtentEnd then .fresh else .none
              | none => if atExtentEnd then .fresh else .none⟩

theorem toOption_ite {ε α : Type} (p : Prop) [Decidable p] (e : ε) (x : Except ε α) :
    (if p then .error e else x).toOption = if p then none else x.toOption := by
  split_ifs <;> rfl

/-- The layout of the writer is this one, without the reason. -/
theorem layoutRecord_eq (c : Cursor) (head : List JEntry) (nextId : Option ℕ) :
    layoutRecord c head nextId = (layoutRecordChecked c head nextId).toOption := by
  unfold layoutRecord layoutRecordChecked
  simp only [toOption_ite]
  cases selectEntries (c.capacity - journalTailSize) journalHeaderSize head with
  | none => rfl
  | some r =>
      simp only [toOption_ite]
      rfl

/-! ### The arithmetic of blocks -/

/-- A block boundary is not rounded over. -/
theorem padding_le {n cap : ℕ} (hc : cap % journalBlockSize = 0) (hn : n ≤ cap) :
    padding n ≤ cap - n := by
  simp only [padding, journalBlockSize] at *
  omega

theorem Cursor.capacity_spec {c : Cursor} (h : c.place.Valid) :
    c.capacity % journalBlockSize = 0 ∧ journalBlockSize ≤ c.capacity := by
  obtain ⟨hlt, hmod⟩ := h
  simp only [Cursor.place, extentSize, journalBlockSize] at hlt hmod
  simp only [Cursor.capacity, Cursor.remaining, extentSize, journalPageSize, journalBlockSize]
  omega

/-! ### The selection loop -/

theorem exists_selectEntries (limit used : ℕ) {head : List JEntry}
    (h : ∀ j ∈ head, j.entry.Regular) : ∃ r, selectEntries limit used head = some r := by
  induction head generalizing used with
  | nil => exact ⟨_, rfl⟩
  | cons j js ih =>
      obtain ⟨r, hr⟩ := ih (used + j.entry.size) fun k hk => h k (List.mem_cons_of_mem _ hk)
      have hj : ¬ ¬ j.entry.Regular := not_not.2 (h j List.mem_cons_self)
      rw [selectEntries, if_neg hj]
      split_ifs
      · exact ⟨_, rfl⟩
      · exact ⟨_, by rw [hr, Option.map_some]⟩

/-- The first entry is taken if the largest one fits. -/
theorem taken_ne_nil {limit used u : ℕ} {head taken rest : List JEntry} (hne : head ≠ [])
    (hroom : used + 145 ≤ limit) (h : selectEntries limit used head = some (taken, u, rest)) :
    taken ≠ [] := by
  obtain ⟨j, js, rfl⟩ := List.exists_cons_of_ne_nil hne
  have hsize := j.entry.size_le
  unfold selectEntries at h
  split_ifs at h with h₁ h₂
  · omega
  · obtain ⟨r, -, he⟩ := Option.map_eq_some_iff.1 h
    obtain rfl := congrArg Prod.fst he
    simp

/-! ### The step -/

/-- **No structural check fails.**  With a valid cursor and regular entries the
layout succeeds, unless the sequence numbers run out. -/
theorem layoutRecordChecked_cases {c : Cursor} {head : List JEntry} (nextId : Option ℕ)
    (hv : c.place.Valid) (hne : head ≠ []) (hreg : ∀ j ∈ head, j.entry.Regular) :
    (∃ p, layoutRecordChecked c head nextId = .ok p) ∨
      layoutRecordChecked c head nextId = .error .sequence ∧ u64Max - c.seq < head.length := by
  obtain ⟨hmod, hblock⟩ := Cursor.capacity_spec hv
  obtain ⟨hlt, hoff⟩ := hv
  obtain ⟨⟨taken, used, rest⟩, hs⟩ :=
    exists_selectEntries (c.capacity - journalTailSize) journalHeaderSize hreg
  have htaken : taken ≠ [] := by
    refine taken_ne_nil hne ?_ hs
    simp only [journalBlockSize, journalTailSize, journalHeaderSize] at *
    omega
  have hused := (selectEntries_spec hs).2.2 htaken
  have htail : journalTailSize ≤ c.capacity :=
    Nat.le_trans (by simp only [journalTailSize, journalBlockSize]; omega) hblock
  -- room for NEXT was kept back
  have hroom : used + journalTailSize ≤ c.capacity := by omega
  unfold layoutRecordChecked
  simp only
  rw [if_neg (fun h => h.elim (fun h => absurd hlt (Nat.not_lt.2 h)) fun h => h hoff),
    if_neg (by omega)]
  simp only [hs]
  rw [if_neg htaken]
  by_cases hseq : u64Max - c.seq < taken.length
  · refine .inr ⟨by rw [if_pos hseq], ?_⟩
    have := congrArg List.length (selectEntries_append hs)
    rw [List.length_append] at this
    omega
  have hpad := padding_le hmod (show used ≤ c.capacity by omega)
  rw [if_neg hseq, if_neg (by omega), if_neg (fun h => by omega),
    if_neg (Nat.not_lt.2 (padding_le hmod (by split_ifs <;> omega)))]
  exact .inl ⟨_, rfl⟩

/-- The number of entries that the header of a plan's record announces. -/
def Plan.count (p : Plan) : ℕ := p.taken.length + if p.link = .none then 0 else 1

/-- The bytes in use, header, entries and link. -/
def Plan.used (p : Plan) : ℕ :=
  journalHeaderSize + entriesSize p.taken + if p.link = .none then 0 else journalTailSize

theorem length_le_entriesSize (js : List JEntry) : js.length ≤ entriesSize js := by
  have h := length_le_flatMap_encode (js.map (·.entry))
  rwa [List.length_map, length_flatMap_encode] at h

/-- The count of a record of at most a page fits 16 bits. -/
theorem Laid.count_lt {c : Cursor} {head : List JEntry} {nextId : Option ℕ} {p : Plan}
    (h : Laid c head nextId p) : p.count < 65536 := by
  have hlen := length_le_entriesSize p.taken
  have hused := h.used
  have hpage := h.page
  simp only [Plan.count, journalPageSize, journalHeaderSize] at *
  split_ifs <;> omega

/-- The header on the page and the cursor behind the record. -/
theorem emitRecord_header (s : Super) {c : Cursor} {head : List JEntry} {nextId next : Option ℕ}
    {p : Plan} (h : Laid c head nextId p) (hseq : c.seq ≤ u64Max)
    (hlink : next = none ↔ p.link = .none) :
    ∃ c' req fl, emitRecord s c p.taken p.rest p.size next = .write s c' req fl p.rest ∧
      req.len = p.size ∧ (decodeHeader req.data 0).size = p.size ∧
      (decodeHeader req.data 0).count = p.count ∧ c'.place.Valid := by
  let es := p.taken.map (·.entry)
  have hused : usedSize (linked es next) ≤ p.size := by
    rw [usedSize_linked]
    simpa only [hlink] using h.used
  have hcount : (linked es next).length = p.count := by
    rw [linked, List.length_append, List.length_map, List.length_map, Plan.count]
    cases next with
    | none => simp [hlink.1 rfl]
    | some b => simp [show p.link ≠ .none from fun hl => by cases hlink.2 hl]
  have hover := Buf.slice_overlay c.page
    (recordBytes s.uuid.seed c.seq (linked es next) p.size c.page)
  rw [length_recordBytes _ _ _ _ hused] at hover
  obtain ⟨-, hc, hz, -⟩ := decodeHeader_of_slice hover hused
    (by simp only [u64Max] at hseq; omega) (by rw [hcount]; exact h.count_lt) h.block h.page
  refine ⟨_, _, _, rfl, rfl, hz, hc.trans hcount, ?_⟩
  cases next with
  | none =>
      have hmod := h.valid.2
      have hblock := h.block
      refine ⟨h.inside (hlink.1 rfl), ?_⟩
      simp only [Cursor.place, journalBlockSize] at *
      omega
  | some b => exact ⟨show 0 < extentSize by decide, Nat.zero_mod _⟩

/-- A record is laid out only while a sequence number is left. -/
theorem seq_lt_of_layoutRecord {c : Cursor} {head : List JEntry} {nextId : Option ℕ} {p : Plan}
    (h : layoutRecord c head nextId = some p) : c.seq < u64Max := by
  unfold layoutRecord at h
  simp only [Option.ite_none_left_eq_some] at h
  obtain ⟨-, -, h⟩ := h
  split at h
  · cases h
  simp only [Option.ite_none_left_eq_some] at h
  obtain ⟨hne, hseq, -⟩ := h
  have hpos := List.length_pos_iff.2 hne
  omega

/-- A step that queues a record has laid it out. -/
theorem writerEncode_write {s s' : Super} {c c' : Cursor} {head rest : List JEntry}
    {nextId : Option ℕ} {req : WriteReq} {fl : Bool}
    (h : writerEncode s c head nextId false = .write s' c' req fl rest) :
    ∃ p next, layoutRecord c head nextId = some p ∧ (next = none ↔ p.link = .none) ∧
      emitRecord s' c p.taken p.rest p.size next = .write s' c' req fl rest := by
  unfold writerEncode at h
  simp only [Bool.false_eq_true, false_or] at h
  split_ifs at h with h₁ h₂
  split at h
  · cases h
  rename_i p hp
  split at h
  · rename_i hl
    obtain rfl : s = s' := (EncodeOut.write.inj h).1
    exact ⟨p, none, hp, by simp [hl], h⟩
  · rename_i b hl
    obtain rfl : s = s' := (EncodeOut.write.inj h).1
    exact ⟨p, some b, hp, by simp [hl], h⟩
  · rename_i hl
    split at h
    · cases h
    · rename_i b hb
      obtain rfl : s.takeJournal b = s' := (EncodeOut.write.inj h).1
      exact ⟨p, some b, hp, by simp [hl], h⟩

/-- A step fails without a word about the record only when an error came before
it, the sequence numbers run out or no extent is free for NEXT. -/
theorem writerEncode_error {s s' : Super} {c : Cursor} {head : List JEntry} {nextId : Option ℕ}
    (h : writerEncode s c head nextId false = .error s') :
    s.error = true ∨ layoutRecord c head nextId = none ∨
      ∃ p, layoutRecord c head nextId = some p ∧ p.link = .fresh ∧ s.findNearlyExtent 0 = none := by
  unfold writerEncode at h
  simp only [Bool.false_eq_true, false_or] at h
  split_ifs at h with h₁ h₂
  · exact .inl h₁
  split at h
  · rename_i hp
    exact .inr (.inl hp)
  rename_i p hp
  refine .inr (.inr ⟨p, hp, ?_⟩)
  split at h
  · cases h
  · cases h
  · rename_i hl
    split at h
    · rename_i hf
      exact ⟨hl, hf⟩
    · cases h

/-- A step with entries left does not finish. -/
theorem head_of_finish {s : Super} {c : Cursor} {head : List JEntry} {nextId : Option ℕ} {err : Bool}
    (hw : writerEncode s c head nextId err = .finish) : head = [] := by
  unfold writerEncode emitRecord at hw
  by_contra hne
  rw [if_neg hne] at hw
  split_ifs at hw
  repeat' split at hw
  all_goals cases hw

/-- The writer fails for want of sequence numbers or of a free extent. -/
theorem writerEncode_fails {s s' : Super} {c : Cursor} {head : List JEntry} {nextId : Option ℕ}
    (hv : c.place.Valid) (hne : head ≠ []) (hreg : ∀ j ∈ head, j.entry.Regular)
    (hs : s.error = false) (h : writerEncode s c head nextId false = .error s') :
    u64Max - c.seq < head.length ∨ s.findNearlyExtent 0 = none := by
  obtain h | h | ⟨-, -, -, h⟩ := writerEncode_error h
  · rw [hs] at h
    cases h
  · rw [layoutRecord_eq] at h
    obtain ⟨p, hp⟩ | ⟨-, hseq⟩ := layoutRecordChecked_cases nextId hv hne hreg
    · rw [hp] at h
      cases h
    · exact .inl hseq
  · exact .inr h

/-- Where neither is missing it writes a record. -/
theorem exists_write {s : Super} {c : Cursor} {head : List JEntry} (nextId : Option ℕ)
    (hv : c.place.Valid) (hne : head ≠ []) (hreg : ∀ j ∈ head, j.entry.Regular)
    (hs : s.error = false) (hseq : head.length ≤ u64Max - c.seq)
    (hfree : s.findNearlyExtent 0 ≠ none) :
    ∃ s' c' req fl rest, writerEncode s c head nextId false = .write s' c' req fl rest := by
  cases h : writerEncode s c head nextId false with
  | write s' c' req fl rest => exact ⟨s', c', req, fl, rest, rfl⟩
  | finish => exact absurd (head_of_finish h) hne
  | error s' =>
      rcases writerEncode_fails hv hne hreg hs h with h | h
      · omega
      · exact absurd h hfree

/-- **The record packer never fails for a structural reason.**  From a cursor at
a block boundary inside its extent, with regular entries and any final link: the
only check that can fail is the one of the sequence numbers, and the only other
failure of the step is that no extent is free for NEXT; a plan takes an entry,
and its size, its count and its padding are inside their limits; and a step that
does not fail writes a record, and leaves the header it meant on the page and a
cursor of the same kind. -/
theorem record_packs (s : Super) (c : Cursor) (head : List JEntry) (nextId : Option ℕ)
    (hlt : c.extentOff < extentSize) (hblock : c.extentOff % journalBlockSize = 0)
    (hne : head ≠ []) (hreg : ∀ j ∈ head, j.entry.Regular) :
    (∀ e, layoutRecordChecked c head nextId = .error e →
      e = .sequence ∧ u64Max - c.seq < head.length) ∧
    (∀ p, layoutRecordChecked c head nextId = .ok p →
      p.taken ≠ [] ∧ head = p.taken ++ p.rest ∧
      p.size % journalBlockSize = 0 ∧ p.size ≤ journalPageSize ∧ p.size ≤ c.remaining ∧
      p.size / journalBlockSize < 256 ∧ p.count < 65536 ∧
      p.used ≤ p.size ∧ p.size - p.used < journalBlockSize ∧
      (p.link = .none → c.extentOff + p.size < extentSize)) ∧
    (∀ s', s.error = false → writerEncode s c head nextId false = .error s' →
      u64Max - c.seq < head.length ∨ s.findNearlyExtent 0 = none) ∧
    writerEncode s c head nextId false ≠ .finish ∧
    (s.error = false → head.length ≤ u64Max - c.seq → s.findNearlyExtent 0 ≠ none →
      ∃ s' c' req fl rest, writerEncode s c head nextId false = .write s' c' req fl rest) ∧
    ∀ s' c' req fl rest, writerEncode s c head nextId false = .write s' c' req fl rest →
      ∃ p, layoutRecordChecked c head nextId = .ok p ∧ rest = p.rest ∧ req.len = p.size ∧
        (decodeHeader req.data 0).size = p.size ∧ (decodeHeader req.data 0).count = p.count ∧
        c'.extentOff < extentSize ∧ c'.extentOff % journalBlockSize = 0 := by
  have hok : ∀ p, layoutRecordChecked c head nextId = .ok p →
      layoutRecord c head nextId = some p := fun p hp => by rw [layoutRecord_eq, hp]; rfl
  have hv : c.place.Valid := ⟨hlt, hblock⟩
  have hcases := layoutRecordChecked_cases nextId hv hne hreg
  refine ⟨fun e he => ?_, fun p hp => ?_, fun s' hs => writerEncode_fails hv hne hreg hs,
    fun he => hne (head_of_finish he), exists_write nextId hv hne hreg,
    fun s' c' req fl rest he => ?_⟩
  · obtain ⟨p, hp⟩ | ⟨hp, hseq⟩ := hcases
    · rw [hp] at he
      cases he
    · rw [hp] at he
      exact ⟨(Except.error.inj he).symm, hseq⟩
  · have h := laid_of_layoutRecord (hok p hp)
    have hused := h.used
    have hpad := h.pad
    have hpage := h.page
    have hextent := h.extent
    refine ⟨h.nonempty, h.head, h.block, hpage, ?_, ?_, h.count_lt, hused, ?_, h.inside⟩
    · rw [Cursor.remaining]
      omega
    · simp only [journalPageSize, journalBlockSize] at *
      omega
    · simp only [Plan.used]
      omega
  · obtain ⟨p, next, hp, hlink, he⟩ := writerEncode_write he
    obtain ⟨q, hq⟩ | ⟨hq, -⟩ := hcases
    · obtain rfl := Option.some.inj ((hok q hq).symm.trans hp)
      obtain ⟨_, _, _, he', hlen, hsize, hcount, hvalid⟩ := emitRecord_header s'
        (laid_of_layoutRecord hp) (Nat.le_of_lt (seq_lt_of_layoutRecord hp)) hlink
      rw [he'] at he
      obtain ⟨-, rfl, rfl, -, rfl⟩ := EncodeOut.write.inj he
      exact ⟨q, hq, rfl, hlen, hsize, hcount, hvalid⟩
    · rw [layoutRecord_eq, hq] at hp
      cases hp

/-- The last block of an extent holds one record of exactly that block, which
carries NEXT to an extent that is free, and takes the one entry there is. -/
theorem record_packs_last_block :
    let c : Cursor := ⟨fun _ => 0, 1048064, 0, 0, 0, 7⟩
    let s : Super := Super.opened 16 false false ⟨List.replicate 16 7, rfl⟩ fun _ => 0
    ∃ p s' c' req fl, layoutRecordChecked c [⟨.delete 3, false⟩] none = .ok p ∧ p.size = 512 ∧
      p.link ≠ .none ∧ writerEncode s c [⟨.delete 3, false⟩] none false = .write s' c' req fl [] ∧
      req.len = 512 := by
  intro c s
  obtain ⟨herror, hplan, -, -, hwrite, hlaid⟩ :=
    record_packs s c [⟨.delete 3, false⟩] none (by decide) (by decide) (by decide) (by decide)
  obtain ⟨s', c', req, fl, rest, hw⟩ := hwrite rfl (by decide) (by decide)
  obtain ⟨p, hp, rfl, hlen, -⟩ := hlaid s' c' req fl rest hw
  obtain ⟨hne, hhead, hmod, -, hrem, -, -, hused, -, hinside⟩ := hplan p hp
  have hsize : p.size = 512 := by
    simp only [c, Cursor.remaining, extentSize, journalBlockSize, Plan.used,
      journalHeaderSize] at hmod hrem hused
    omega
  have hrest : p.rest = [] := by
    have hlength := congrArg List.length hhead
    have htaken := List.length_pos_iff.2 hne
    rw [List.length_append, List.length_singleton] at hlength
    exact List.length_eq_zero_iff.1 (by omega)
  rw [hrest] at hw
  refine ⟨p, s', c', req, fl, hp, hsize, fun hl => ?_, hw, hlen.trans hsize⟩
  have := hinside hl
  rw [hsize] at this
  exact absurd this (by decide)

end Cyanfs
