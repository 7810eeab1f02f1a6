/-
# The records that the writer lays out

What `layoutRecord` settles: the entries taken are a first part of the list, the
record fills blocks, fits the page and the extent, and one without a link leaves
room behind it (`laid_of_layoutRecord`).  Hence the loader accepts the record that
`cyanfs_journal_writer_encode` emits, wherever its bytes come to lie on the disk
(`Emitted`, `emitted_of_layout`).

The C code cuts numbers to the width of their fields, so the loader reads the
entries as they are `stored`.
-/

import Cyanfs.Journal.Chain
import Cyanfs.Run.Sched

namespace Cyanfs

open Lib

/-! ### Entries as they are stored -/

theorem leBytes_mod (n v : ℕ) : leBytes n (v % 256 ^ n) = leBytes n v := by
  have h := leBytes_leVal (leBytes n v)
  rwa [length_leBytes, leVal_leBytes] at h

namespace Entry

/-- The entry with its fields cut to their width. -/
def stored : Entry → Entry
  | next b => next (b % 256 ^ 4)
  | create i n => create (i % 256 ^ 8) n
  | truncate i s => truncate (i % 256 ^ 8) (s % 256 ^ 8)
  | fork i p n => fork (i % 256 ^ 8) (p % 256 ^ 8) n
  | delete i => delete (i % 256 ^ 8)
  | bind i f b => bind (i % 256 ^ 8) (f % 256 ^ 4) (b % 256 ^ 4)
  | unbind i f => unbind (i % 256 ^ 8) (f % 256 ^ 4)
  | rename i n => rename (i % 256 ^ 8) n

theorem encode_stored (e : Entry) : e.stored.encode = e.encode := by
  cases e <;> simp only [stored, encode, type, body, leBytes_mod]

theorem fits_stored (e : Entry) : e.stored.Fits := by
  have h₄ : ∀ v, v % 256 ^ 4 < 256 ^ 4 := fun v => Nat.mod_lt _ (by norm_num)
  have h₈ : ∀ v, v % 256 ^ 8 < 256 ^ 8 := fun v => Nat.mod_lt _ (by norm_num)
  cases e <;> simp only [stored, Fits, h₄, h₈, and_self]

theorem regular_stored {e : Entry} : e.stored.Regular ↔ e.Regular := by
  cases e <;> simp only [stored, Regular, type]

end Entry

theorem flatMap_encode_stored (es : List Entry) :
    (es.map Entry.stored).flatMap Entry.encode = es.flatMap Entry.encode := by
  rw [List.flatMap_map]
  congr 1
  funext e
  exact e.encode_stored

theorem recordBytes_stored (seed : UInt32) (seq : ℕ) (es : List Entry) (size : ℕ) (page : Buf) :
    recordBytes seed seq (es.map Entry.stored) size page = recordBytes seed seq es size page := by
  simp only [recordBytes, flatMap_encode_stored, List.length_map]

/-! ### The layout -/

/-- The bytes of the entries of a list. -/
def entriesSize (js : List JEntry) : ℕ := (js.map (·.entry.size)).sum

theorem length_flatMap_encode (js : List JEntry) :
    ((js.map (·.entry)).flatMap Entry.encode).length = entriesSize js := by
  induction js with
  | nil => rfl
  | cons j js ih =>
      simp only [List.map_cons, List.flatMap_cons, List.length_append, Entry.length_encode, ih,
        entriesSize, List.sum_cons]

theorem selectEntries_spec {limit used u : ℕ} {head taken rest : List JEntry}
    (h : selectEntries limit used head = some (taken, u, rest)) :
    u = used + entriesSize taken ∧ (∀ j ∈ taken, j.entry.Regular) ∧ (taken ≠ [] → u ≤ limit) := by
  induction head generalizing used taken with
  | nil =>
      simp only [selectEntries, Option.some.injEq, Prod.mk.injEq] at h
      obtain ⟨rfl, rfl, -⟩ := h
      simp [entriesSize]
  | cons j js ih =>
      unfold selectEntries at h
      split_ifs at h with h₁ h₂
      · simp only [Option.some.injEq, Prod.mk.injEq] at h
        obtain ⟨rfl, rfl, -⟩ := h
        simp [entriesSize]
      · obtain ⟨⟨taken', u', rest'⟩, hs, he⟩ := Option.map_eq_some_iff.1 h
        simp only [Prod.mk.injEq] at he
        obtain ⟨rfl, rfl, rfl⟩ := he
        obtain ⟨hu, hreg, hle⟩ := ih hs
        push Not at h₂
        refine ⟨?_, ?_, fun _ => ?_⟩
        · rw [hu]
          simp only [entriesSize, List.map_cons, List.sum_cons]
          omega
        · intro k hk
          rcases List.mem_cons.1 hk with rfl | hk
          · exact h₁
          · exact hreg k hk
        · by_cases ht : taken' = []
          · subst ht
            simp only [entriesSize, List.map_nil, List.sum_nil] at hu
            omega
          · exact hle ht

/-- What a plan for the cursor `c` guarantees. -/
structure Laid (c : Cursor) (head : List JEntry) (nextId : Option ℕ) (p : Plan) : Prop where
  valid : c.place.Valid
  head : head = p.taken ++ p.rest
  nonempty : p.taken ≠ []
  regular : ∀ j ∈ p.taken, j.entry.Regular
  seq : c.seq ≤ u64Max → c.seq + p.taken.length ≤ u64Max
  block : p.size % journalBlockSize = 0
  page : p.size ≤ journalPageSize
  extent : c.extentOff + p.size ≤ extentSize
  inside : p.link = .none → c.extentOff + p.size < extentSize
  used : journalHeaderSize + entriesSize p.taken +
    (if p.link = .none then 0 else journalTailSize) ≤ p.size
  pad : p.size < journalHeaderSize + entriesSize p.taken +
    (if p.link = .none then 0 else journalTailSize) + journalBlockSize
  final : ∀ b, p.link = .final b ↔ nextId = some b ∧ p.rest = []

theorem add_padding_mod (n : ℕ) : (n + padding n) % journalBlockSize = 0 ∧
    padding n < journalBlockSize := by
  simp only [padding, journalBlockSize]
  omega

/-- A record carries a link when the list or the extent ends with it. -/
theorem link_spec (nextId : Option ℕ) (rest : List JEntry) (full : Prop) [Decidable full] (k : Link)
    (hk : k = match nextId with
      | some b => if rest = [] then .final b else if full then .fresh else .none
      | none => if full then .fresh else .none) :
    (k = .none ↔ ¬ (full ∨ rest = [] ∧ nextId ≠ none)) ∧
      ∀ b, k = .final b ↔ nextId = some b ∧ rest = [] := by
  subst hk
  cases nextId with
  | none => by_cases he : full <;> simp [he]
  | some b =>
      by_cases hr : rest = []
      · simp [hr]
      · by_cases he : full <;> simp [he, hr]

theorem laid_of_layoutRecord {c : Cursor} {head : List JEntry} {nextId : Option ℕ} {p : Plan}
    (h : layoutRecord c head nextId = some p) : Laid c head nextId p := by
  have happ := layoutRecord_append h
  unfold layoutRecord at h
  simp only [Option.ite_none_left_eq_some] at h
  obtain ⟨hvalid, hcap, h⟩ := h
  split at h
  · cases h
  rename_i taken used rest hs
  simp only [Option.ite_none_left_eq_some] at h
  obtain ⟨hne, hseq, hused, hnext, hpad, h⟩ := h
  have hp := Option.some.inj h
  have htaken : taken = p.taken := congrArg Plan.taken hp
  have hrest : rest = p.rest := congrArg Plan.rest hp
  have hsize := congrArg Plan.size hp
  have hlink := link_spec nextId rest (used + padding used = c.remaining) p.link
    (congrArg Plan.link hp).symm
  obtain ⟨hu, hreg, hle⟩ := selectEntries_spec hs
  have hle := hle hne
  subst htaken hrest
  have hfull : c.extentOff + c.remaining = extentSize := by
    rw [Cursor.remaining]
    omega
  have hmin : c.capacity ≤ c.remaining ∧ c.capacity ≤ journalPageSize := by
    rw [Cursor.capacity]
    omega
  -- the bytes in use, with the link if there is one
  obtain ⟨v, hv, hvsize, hvcap, hroom⟩ : ∃ v, v = journalHeaderSize + entriesSize p.taken +
      (if p.link = .none then 0 else journalTailSize) ∧ p.size = v + padding v ∧
      v + padding v ≤ c.capacity ∧ (p.link = .none → p.size ≠ c.remaining) := by
    by_cases hn : used + padding used = c.remaining ∨ p.rest = [] ∧ nextId ≠ none
    · have hnone : p.link ≠ .none := fun h => hlink.1.1 h hn
      rw [if_pos hn] at hsize hpad
      refine ⟨used + journalTailSize, ?_, hsize.symm, ?_, fun h => absurd h hnone⟩
      · rw [if_neg hnone, hu]
      · have : ¬ c.capacity - used < journalTailSize := fun h => hnext ⟨hn, h⟩
        omega
    · have hnone : p.link = .none := hlink.1.2 hn
      rw [if_neg hn] at hsize hpad
      refine ⟨used, ?_, hsize.symm, ?_, fun _ => ?_⟩
      · rw [if_pos hnone, hu, Nat.add_zero]
      · omega
      · rw [← hsize]
        exact fun h => hn (.inl h)
  have hblock := add_padding_mod v
  refine ⟨⟨?_, ?_⟩, happ, hne, hreg, fun hle => by omega, ?_, ?_, ?_, fun hl => ?_, ?_, ?_, hlink.2⟩
  · exact Nat.lt_of_not_le fun h => hvalid (.inl h)
  · by_contra h
    exact hvalid (.inr h)
  · rw [hvsize]
    exact hblock.1
  · omega
  · omega
  · have := hroom hl
    omega
  · omega
  · omega

/-- The selection takes all that fits. -/
theorem selectEntries_of_le {l u : ℕ} {head : List JEntry} (hreg : ∀ j ∈ head, j.entry.Regular)
    (hfit : u + entriesSize head ≤ l) :
    selectEntries l u head = some (head, u + entriesSize head, []) := by
  induction head generalizing u with
  | nil => rfl
  | cons j js ih =>
      simp only [entriesSize, List.map_cons, List.sum_cons] at hfit ⊢
      have hjs := ih (u := u + j.entry.size) (fun k hk => hreg k (List.mem_cons_of_mem _ hk))
        (by simp only [entriesSize]; omega)
      rw [selectEntries, if_neg (not_not.2 (hreg j List.mem_cons_self)), if_neg (by omega), hjs]
      simp only [Option.map_some, entriesSize, Nat.add_assoc]

/-- A list that fits into a block is a record of one block. -/
theorem layoutRecord_block {c : Cursor} {head : List JEntry} (nextId : Option ℕ)
    (hv : c.place.Valid) (hroom : c.extentOff + journalBlockSize < extentSize) (hne : head ≠ [])
    (hreg : ∀ j ∈ head, j.entry.Regular)
    (hsize : journalHeaderSize + entriesSize head + journalTailSize ≤ journalBlockSize)
    (hseq : c.seq + head.length ≤ u64Max) : layoutRecord c head nextId =
      some ⟨head, [], journalBlockSize, match nextId with
        | some b => .final b
        | none => .none⟩ := by
  obtain ⟨hlt, hoff⟩ := hv
  have hpos : 0 < entriesSize head := by
    cases head with
    | nil => exact absurd rfl hne
    | cons j js =>
        have := j.entry.size_pos
        simp only [entriesSize, List.map_cons, List.sum_cons]
        omega
  have hblock : ∀ u, 0 < u → u ≤ journalBlockSize → u + padding u = journalBlockSize := by
    intro u h₁ h₂
    simp only [padding, journalBlockSize] at *
    omega
  -- two blocks at least are left in the extent
  have hcap : 2 * journalBlockSize ≤ c.capacity ∧ 2 * journalBlockSize ≤ c.remaining := by
    simp only [Cursor.capacity, Cursor.remaining, Cursor.place, journalPageSize, journalBlockSize,
      extentSize] at *
    omega
  have hs := selectEntries_of_le (l := c.capacity - journalTailSize) (u := journalHeaderSize) hreg
    (by simp only [journalBlockSize, journalTailSize, journalHeaderSize] at *; omega)
  simp only [journalHeaderSize, journalTailSize, journalBlockSize] at hsize hcap hblock
  have hused := hblock (15 + entriesSize head) (by omega) (by omega)
  have hfull : ¬ 15 + entriesSize head + padding (15 + entriesSize head) = c.remaining := by omega
  unfold layoutRecord
  simp only [Cursor.place, journalBlockSize] at hlt hoff
  rw [if_neg (by simp only [journalBlockSize]; omega),
    if_neg (by simp only [journalBlockSize, journalTailSize]; omega), hs]
  simp only [journalHeaderSize, journalTailSize, journalBlockSize, if_neg hne, hfull, false_or,
    true_and]
  rw [if_neg (by simp only [u64Max] at *; omega), if_neg (by omega)]
  cases nextId with
  | none =>
      simp only [ne_eq, not_true_eq_false, if_false, false_and, hused]
      rw [if_neg (by omega)]
  | some b =>
      have hused' := hblock (15 + entriesSize head + 5) (by omega) (by omega)
      simp only [ne_eq, reduceCtorEq, not_false_eq_true, if_true, true_and, hused']
      rw [if_neg (by omega), if_neg (by omega)]

/-- The writer emits it. -/
theorem writerEncode_block {s : Super} {c : Cursor} {head : List JEntry} (nextId : Option ℕ)
    (herr : s.error = false) (hv : c.place.Valid)
    (hroom : c.extentOff + journalBlockSize < extentSize) (hne : head ≠ [])
    (hreg : ∀ j ∈ head, j.entry.Regular)
    (hsize : journalHeaderSize + entriesSize head + journalTailSize ≤ journalBlockSize)
    (hseq : c.seq + head.length ≤ u64Max) :
    writerEncode s c head nextId false = emitRecord s c head [] journalBlockSize nextId := by
  rw [writerEncode, if_neg (by simp [herr]), if_neg hne,
    layoutRecord_block nextId hv hroom hne hreg hsize hseq]
  cases nextId <;> rfl

/-! ### The record on the disk -/

/-- A WRITE request at the place `w` for a record of `size` bytes that the loader
reads as the entries `es` and the link `next`, wherever its bytes are found. -/
structure Emitted (seed : UInt32) (w : Place) (req : WriteReq) (size : ℕ) (es : List Entry)
    (next : Option ℕ) : Prop where
  off : req.off = w.addr
  len : req.len = size
  extent : w.extentOff + size ≤ extentSize
  scan : ∀ g : Buf, (∀ a < size, g (w.addr + a) = req.data a) →
    scanAt g seed w = .record size es next

theorem linked_stored (es : List Entry) {next : Option ℕ} (hn : ∀ b ∈ next, b < 256 ^ 4) :
    (linked es next).map Entry.stored = linked (es.map Entry.stored) next := by
  cases next with
  | none => simp [linked]
  | some b =>
      have hb : b % 256 ^ 4 = b := Nat.mod_eq_of_lt (hn b rfl)
      simp only [linked, Option.toList_some, List.map_cons, List.map_nil, List.map_append,
        Entry.stored, hb]

theorem usedSize_linked (js : List JEntry) (next : Option ℕ) :
    usedSize (linked (js.map (·.entry)) next) =
      journalHeaderSize + entriesSize js + (if next = none then 0 else journalTailSize) := by
  cases next with
  | none =>
      simp only [usedSize, linked, Option.toList_none, List.map_nil, List.append_nil,
        length_flatMap_encode, if_true, Nat.add_zero]
  | some b =>
      simp only [usedSize, linked, Option.toList_some, List.map_cons, List.map_nil,
        List.flatMap_append, List.length_append, length_flatMap_encode, List.flatMap_cons,
        List.flatMap_nil, List.append_nil, Entry.length_encode, reduceCtorEq, if_false]
      rfl

/-- The record of a plan meets the checks of the loader. -/
theorem Laid.recordOk {c : Cursor} {head : List JEntry} {nextId next : Option ℕ} {p : Plan}
    (h : Laid c head nextId p) (hseq : c.seq ≤ u64Max) (hlink : next = none ↔ p.link = .none)
    (hn : ∀ b ∈ next, b < 256 ^ 4) :
    RecordOk c.seq (p.taken.map (·.entry.stored)) next p.size := by
  have hmap : p.taken.map (·.entry.stored) = (p.taken.map (·.entry)).map Entry.stored := by
    simp
  have hused : usedSize (linked (p.taken.map (·.entry.stored)) next) =
      journalHeaderSize + entriesSize p.taken +
        (if p.link = .none then 0 else journalTailSize) := by
    rw [hmap, ← linked_stored _ hn, usedSize, flatMap_encode_stored, ← usedSize, usedSize_linked]
    simp only [hlink]
  refine ⟨?_, ?_, ?_, h.block, ?_, ?_, h.page, ?_⟩
  · simpa using h.nonempty
  · intro e he
    obtain ⟨j, hj, rfl⟩ := List.mem_map.1 he
    exact Entry.regular_stored.2 (h.regular j hj)
  · intro e he
    rw [hmap, ← linked_stored _ hn] at he
    obtain ⟨e', -, rfl⟩ := List.mem_map.1 he
    exact e'.fits_stored
  · rw [hused]
    exact h.used
  · rw [hused]
    exact h.pad
  · rw [List.length_map]
    exact h.seq hseq

/-- **The loader accepts what the writer emits.** -/
theorem emitted_of_layout {s : Super} {c : Cursor} {head : List JEntry} {nextId next : Option ℕ}
    {p : Plan} (h : Laid c head nextId p) (hseq : c.seq ≤ u64Max)
    (hlink : next = none ↔ p.link = .none) (hn : ∀ b ∈ next, b < 256 ^ 4) :
    ∃ c' req fl, emitRecord s c p.taken p.rest p.size next = .write s c' req fl p.rest ∧
      Emitted s.uuid.seed c.place req p.size (p.taken.map (·.entry.stored)) next ∧
      c'.place = c.place.behind p.size p.taken.length next ∧
      c'.extentIdFlush = c.extentIdFlush ∧ c'.extentIdOndisk = c.extentIdOndisk := by
  refine ⟨_, _, _, rfl, ⟨rfl, rfl, h.extent, fun g hg => ?_⟩, ?_, ?_, ?_⟩
  · have hr := h.recordOk hseq hlink hn
    let es := p.taken.map (·.entry)
    have hmap : p.taken.map (·.entry.stored) = es.map Entry.stored := by
      rw [List.map_map]
      rfl
    have hstored : recordBytes s.uuid.seed c.seq (linked (p.taken.map (·.entry.stored)) next) p.size
        c.page = recordBytes s.uuid.seed c.seq (linked es next) p.size c.page := by
      rw [← recordBytes_stored _ _ (linked es next), linked_stored _ hn, hmap]
    have hlen := length_recordBytes s.uuid.seed c.seq _ c.page hr.used
    rw [hstored] at hlen
    have hslice : g.slice c.place.addr p.size = recordBytes s.uuid.seed c.seq
        (linked (p.taken.map (·.entry.stored)) next) p.size c.page := by
      have hover := Buf.slice_overlay c.page
        (recordBytes s.uuid.seed c.seq (linked es next) p.size c.page)
      rw [hlen] at hover
      rw [hstored, ← hover, Buf.slice_eq_iff]
      intro i hi
      rw [Nat.zero_add]
      exact hg i hi
    exact scanRecord_of_slice hr hslice h.extent fun hnone => (h.inside (hlink.1 hnone)).ne
  · cases next <;> simp [Cursor.place, Place.behind]
  · cases next <;> rfl
  · cases next <;> rfl

end Cyanfs
