/-
# Records and header slots on the disk

The byte level of the journal.  `scanRecord` looks at the bytes of one record
only (`scanRecord_congr`), and it accepts what `cyanfs_journal_writer_encode`
lays out, with the same entries and link (`scanRecord_of_slice`).  The same for
the two header slots: `cyanfs_super_parse` reads back the header of a slot that
`cyanfs_journal_compact_write_super` or `cyanfs_super_make` has written.
-/

import Cyanfs.Core.Journal

namespace Cyanfs

open Lib

/-! ### Only the bytes of the record matter -/

theorem le_of_decodeEntries {g : Buf} {stop count k q : ℕ} {es : List Entry}
    (hd : decodeEntries g k stop count = some (es, q)) : k ≤ q := by
  induction count generalizing k q es with
  | zero =>
      simp only [decodeEntries, Option.some.injEq, Prod.mk.injEq] at hd
      omega
  | succ count ih =>
      unfold decodeEntries at hd
      split at hd
      · cases hd
      · rename_i e r hr
        obtain ⟨⟨es', q'⟩, h₁, h₂⟩ := Option.map_eq_some_iff.1 hd
        simp only [Prod.mk.injEq] at h₂
        obtain ⟨-, rfl⟩ := h₂
        have := (decodeEntry_spec hr).2.1
        have := ih h₁
        omega

section Congr

variable {g g' : Buf} {p p' n : ℕ} (h : ∀ a < n, g (p + a) = g' (p' + a))

include h

theorem slice_congr {k m : ℕ} (hk : k + m ≤ n) : g.slice (p + k) m = g'.slice (p' + k) m := by
  rw [Buf.slice_eq_iff]
  intro i hi
  rw [Nat.add_assoc, Nat.add_assoc]
  exact h (k + i) (by omega)

theorem getLe_congr {k m : ℕ} (hk : k + m ≤ n) : getLe g (p + k) m = getLe g' (p' + k) m := by
  rw [getLe, getLe, slice_congr h hk]

theorem getName_congr {k : ℕ} (hk : k + 128 ≤ n) : getName g (p + k) = getName g' (p' + k) :=
  FileName.bytes_injective (slice_congr h hk)

theorem decodeHeader_congr (hn : journalHeaderSize ≤ n) : decodeHeader g p = decodeHeader g' p' := by
  simp only [journalHeaderSize] at hn
  have h₀ := getLe_congr h (k := 0) (m := 4) (by omega)
  have h₁ := getLe_congr h (k := 4) (m := 8) (by omega)
  have h₂ := getLe_congr h (k := 12) (m := 2) (by omega)
  have h₃ := getLe_congr h (k := 14) (m := 1) (by omega)
  simp only [Nat.add_zero] at h₀
  simp only [decodeHeader, h₀, h₁, h₂, h₃]

omit h in
theorem decodeBody_congr {t : ℕ} (h : ∀ a < entrySize t - 1, g (p + a) = g' (p' + a)) :
    decodeBody g p t = decodeBody g' p' t := by
  have hz : ∀ m, 0 + m ≤ entrySize t - 1 → getLe g p m = getLe g' p' m := fun m hm => by
    simpa using getLe_congr h hm
  unfold decodeBody
  split
  · rw [hz 4 (by decide)]
  · rw [hz 8 (by decide), getName_congr h (k := 8) (by decide)]
  · rw [hz 8 (by decide), getLe_congr h (k := 8) (m := 8) (by decide)]
  · rw [hz 8 (by decide), getLe_congr h (k := 8) (m := 8) (by decide),
      getName_congr h (k := 16) (by decide)]
  · rw [hz 8 (by decide)]
  · rw [hz 8 (by decide), getLe_congr h (k := 8) (m := 4) (by decide),
      getLe_congr h (k := 12) (m := 4) (by decide)]
  · rw [hz 8 (by decide), getLe_congr h (k := 8) (m := 4) (by decide)]
  · rw [hz 8 (by decide), getName_congr h (k := 8) (by decide)]
  · rfl

/-- Entries are decoded alike, at positions that correspond. -/
theorem decodeEntry_congr {k stop : ℕ} (hs : stop ≤ n) :
    (decodeEntry g (p + k) (p + stop)).map (fun r => (r.1, r.2 - p)) =
      (decodeEntry g' (p' + k) (p' + stop)).map fun r => (r.1, r.2 - p') := by
  unfold decodeEntry
  simp only [Nat.add_le_add_iff_left, Nat.add_sub_add_left]
  by_cases hk : stop ≤ k
  · simp only [hk, if_true, Option.map_none]
  · have htype : g (p + k) = g' (p' + k) := h k (by omega)
    simp only [hk, if_false, htype]
    split_ifs with hc
    · rfl
    · push Not at hc
      have hb : decodeBody g (p + k + 1) (g' (p' + k)).toNat =
          decodeBody g' (p' + k + 1) (g' (p' + k)).toNat := by
        refine decodeBody_congr fun a ha => ?_
        have := h (k + 1 + a) (by omega)
        rw [show p + k + 1 + a = p + (k + 1 + a) from by omega, this]
        congr 1
        omega
      rw [hb, Option.map_map, Option.map_map]
      congr 1
      funext e
      simp only [Function.comp_apply, Prod.mk.injEq, true_and]
      omega

theorem decodeEntries_congr {stop : ℕ} (hs : stop ≤ n) (count k : ℕ) :
    (decodeEntries g (p + k) (p + stop) count).map (fun r => (r.1, r.2 - p)) =
      (decodeEntries g' (p' + k) (p' + stop) count).map fun r => (r.1, r.2 - p') := by
  induction count generalizing k with
  | zero =>
      simp only [decodeEntries, Option.map_some, Option.some.injEq, Prod.mk.injEq, true_and]
      omega
  | succ count ih =>
      have he := decodeEntry_congr h (k := k) hs
      unfold decodeEntries
      cases h₁ : decodeEntry g (p + k) (p + stop) with
      | none =>
          rw [h₁] at he
          rw [Option.map_eq_none_iff.1 he.symm]
          rfl
      | some r =>
          rw [h₁] at he
          obtain ⟨r', h₂, hr⟩ := Option.map_eq_some_iff.1 he.symm
          rw [h₂]
          obtain ⟨e, q⟩ := r
          obtain ⟨e', q'⟩ := r'
          simp only [Prod.mk.injEq] at hr
          obtain ⟨rfl, hq⟩ := hr
          have hpos := (decodeEntry_spec h₁).2.1
          have hpos' := (decodeEntry_spec h₂).2.1
          obtain ⟨j, rfl⟩ : ∃ j, q = p + j := ⟨q - p, by omega⟩
          obtain rfl : q' = p' + j := by omega
          have := ih j
          simp only [Option.map_map, Function.comp_def] at this ⊢
          cases h₃ : decodeEntries g (p + j) (p + stop) count with
          | none =>
              rw [h₃] at this
              rw [Option.map_eq_none_iff.1 this.symm]
              rfl
          | some t =>
              rw [h₃] at this
              obtain ⟨t', h₄, ht⟩ := Option.map_eq_some_iff.1 this.symm
              rw [h₄]
              simp only [Prod.mk.injEq] at ht
              simp [ht]

theorem validateRecord_congr {k stop : ℕ} (hs : stop ≤ n) (count : ℕ) :
    validateRecord g (p + k) (p + stop) count = validateRecord g' (p' + k) (p' + stop) count := by
  have hd := decodeEntries_congr h hs count k
  unfold validateRecord
  split_ifs with hc
  · rfl
  · cases h₁ : decodeEntries g (p + k) (p + stop) count with
    | none =>
        rw [h₁] at hd
        rw [Option.map_eq_none_iff.1 hd.symm]
    | some r =>
        rw [h₁] at hd
        obtain ⟨r', h₂, hr⟩ := Option.map_eq_some_iff.1 hd.symm
        rw [h₂]
        obtain ⟨es, q⟩ := r
        obtain ⟨es', q'⟩ := r'
        simp only [Prod.mk.injEq] at hr
        obtain ⟨rfl, hq⟩ := hr
        have hle := le_of_decodeEntries h₁
        have hle' := le_of_decodeEntries h₂
        simp only
        rw [show p + stop - q = p' + stop - q' from by omega]

theorem sizeOk_congr (hn : journalHeaderSize ≤ n) (off : ℕ) :
    sizeOk g p off ↔ sizeOk g' p' off := by
  simp only [sizeOk, decodeHeader_congr h hn]

/-- **A scan looks at no more than the header and the record it announces.** -/
theorem scanRecord_congr (hn : journalHeaderSize ≤ n) {off : ℕ}
    (hlen : sizeOk g p off → (decodeHeader g p).size ≤ n) (seed : UInt32) (seq : ℕ) :
    scanRecord g p seed off seq = scanRecord g' p' seed off seq := by
  have hh := decodeHeader_congr h hn
  have hsz := sizeOk_congr h hn off
  unfold scanRecord
  by_cases hs : sizeOk g p off
  · have hs' := hsz.1 hs
    have hlen := hlen hs
    have hcrc : crcOk g p seed ↔ crcOk g' p' seed := by
      have h15 := hs.1
      simp only [journalHeaderSize] at h15
      simp only [crcOk]
      rw [← hh, slice_congr h (by omega)]
    have hval := validateRecord_congr h (k := journalHeaderSize) hlen (decodeHeader g p).count
    rw [hh] at hval
    simp only [hs, hs', not_true_eq_false, if_false, hcrc, hh, hval]
  · have hs' : ¬ sizeOk g' p' off := fun hc => hs (hsz.2 hc)
    simp only [hs, hs', not_false_eq_true, if_true]

end Congr

/-! ### Reading back a record -/

variable {g : Buf} {p : ℕ}

/-- **Encoded entries are read back.** -/
theorem decodeEntries_of_slice {stop : ℕ} {es : List Entry} (hf : ∀ e ∈ es, e.Fits)
    (h : g.slice p (es.flatMap Entry.encode).length = es.flatMap Entry.encode)
    (hs : p + (es.flatMap Entry.encode).length ≤ stop) :
    decodeEntries g p stop es.length = some (es, p + (es.flatMap Entry.encode).length) := by
  induction es generalizing p with
  | nil => rfl
  | cons e es ih =>
      rw [List.flatMap_cons] at h hs ⊢
      obtain ⟨h₁, h₂⟩ := (Buf.slice_append_iff g p _ _).1 h
      simp only [List.length_append, Entry.length_encode] at hs h₁ h₂ ⊢
      have he : decodeEntry g p stop = some (e, p + e.size) :=
        decodeEntry_of_slice (hf e List.mem_cons_self) h₁ (by omega)
      have ht := ih (fun x hx => hf x (List.mem_cons_of_mem _ hx)) h₂ (by omega)
      simp only [List.length_cons, decodeEntries, he, ht, Option.map_some, Option.some.injEq,
        Prod.mk.injEq, true_and]
      omega

/-- The entries of a record and the link behind them. -/
def linked (es : List Entry) (next : Option ℕ) : List Entry := es ++ next.toList.map .next

theorem nextOf_linked {es : List Entry} (he : ∀ e ∈ es, e.Regular) (next : Option ℕ) :
    nextOf (linked es next) = next := by
  cases next with
  | some b => simp [nextOf, linked]
  | none =>
      simp only [nextOf, linked, Option.toList_none, List.map_nil, List.append_nil]
      split
      · rename_i b hb
        exact absurd rfl (he _ (List.mem_of_getLast? hb))
      · rfl

theorem filter_linked {es : List Entry} (he : ∀ e ∈ es, e.Regular) (next : Option ℕ) :
    (linked es next).filter (·.Regular) = es := by
  have h₁ : es.filter (·.Regular) = es := List.filter_eq_self.2 (by simpa using he)
  cases next with
  | none => simpa [linked] using h₁
  | some b =>
      have hb : ¬ (Entry.next b).Regular := fun h => h rfl
      simp only [linked, Option.toList_some, List.map_cons, List.map_nil, List.filter_append, h₁]
      simp [hb]

theorem regular_dropLast_linked {es : List Entry} (he : ∀ e ∈ es, e.Regular) (next : Option ℕ) :
    ∀ e ∈ (linked es next).dropLast, e.Regular := by
  cases next with
  | none =>
      simp only [linked, Option.toList_none, List.map_nil, List.append_nil]
      exact fun e h => he e (List.dropLast_subset es h)
  | some b =>
      simp only [linked, Option.toList_some, List.map_cons, List.map_nil, List.dropLast_concat]
      exact he

/-- The size of the entries of a record, header included. -/
def usedSize (es : List Entry) : ℕ := journalHeaderSize + (es.flatMap Entry.encode).length

/-- What the writer guarantees about a record: the entries are regular and fit
the C types, the size is that of the header and the entries rounded up to blocks,
and it is at most a page. -/
structure RecordOk (seq : ℕ) (es : List Entry) (next : Option ℕ) (size : ℕ) : Prop where
  nonempty : es ≠ []
  regular : ∀ e ∈ es, e.Regular
  fits : ∀ e ∈ linked es next, e.Fits
  block : size % journalBlockSize = 0
  used : usedSize (linked es next) ≤ size
  pad : size < usedSize (linked es next) + journalBlockSize
  page : size ≤ journalPageSize
  seq : seq + es.length ≤ u64Max

theorem length_recordBytes (seed : UInt32) (seq : ℕ) (es : List Entry) (page : Buf) {n : ℕ}
    (h : usedSize es ≤ n) : (recordBytes seed seq es n page).length = n := by
  simp only [usedSize, journalHeaderSize] at h
  simp only [recordBytes, List.length_append, length_leBytes, length_encodeTail, Buf.length_slice,
    journalHeaderSize]
  omega

/-- A header of zeros has no size. -/
theorem size_decodeHeader_of_zero {g : Buf} {p : ℕ} (h : g (p + 14) = 0) :
    (decodeHeader g p).size = 0 := by
  simp only [decodeHeader, getLe, Buf.slice, leVal, h]
  rfl

/-- The header fields of an encoded record. -/
theorem decodeHeader_of_slice {seed : UInt32} {seq size : ℕ} {es : List Entry} {page : Buf}
    (h : g.slice p size = recordBytes seed seq es size page) (hu : usedSize es ≤ size)
    (hseq : seq < 256 ^ 8) (hcount : es.length < 256 ^ 2) (hblock : size % journalBlockSize = 0)
    (hpage : size ≤ journalPageSize) :
    (decodeHeader g p).seq = seq ∧ (decodeHeader g p).count = es.length ∧
      (decodeHeader g p).size = size ∧ crcOk g p seed ∧
      g.slice (p + journalHeaderSize) (es.flatMap Entry.encode).length = es.flatMap Entry.encode := by
  simp only [usedSize, journalHeaderSize, journalBlockSize, journalPageSize] at *
  have hlen := length_recordBytes seed seq es page (n := size) (by
    simpa only [usedSize, journalHeaderSize] using hu)
  -- cut the record into its fields
  have hcut : g.slice p (recordBytes seed seq es size page).length =
      recordBytes seed seq es size page := by rw [hlen]; exact h
  simp only [recordBytes] at hcut
  obtain ⟨hcrc, htail⟩ := (Buf.slice_append_iff g p _ _).1 hcut
  obtain ⟨hhead, hbody⟩ := (Buf.slice_append_iff g _ _ _).1 htail
  obtain ⟨hpay, -⟩ := (Buf.slice_append_iff g _ _ _).1 hbody
  simp only [RecordHeader.encodeTail] at hhead
  obtain ⟨hs, hhead⟩ := (Buf.slice_append_iff g _ _ _).1 hhead
  obtain ⟨hc, hz⟩ := (Buf.slice_append_iff g _ _ _).1 hhead
  simp only [length_leBytes, length_encodeTail] at hcrc htail hpay hs hc hz
  have hsize : (decodeHeader g p).size = size := by
    have hlt : size / journalBlockSize < 256 ^ 1 := by
      simp only [journalBlockSize]
      omega
    have := getLe_of_slice hz hlt
    simp only [decodeHeader]
    rw [show p + 14 = p + 4 + 8 + 2 from by omega, this]
    simp only [journalBlockSize]
    omega
  refine ⟨getLe_of_slice hs hseq, ?_, hsize, ?_, ?_⟩
  · exact getLe_of_slice hc hcount
  · rw [crcOk, hsize]
    have hlt := UInt32.toNat_lt (crc32 seed (RecordHeader.encodeTail seq es.length size ++
      (es.flatMap Entry.encode ++ page.slice (15 + (es.flatMap Entry.encode).length)
        (size - (15 + (es.flatMap Entry.encode).length)))))
    have hsum : size - 4 = (RecordHeader.encodeTail seq es.length size ++
        (es.flatMap Entry.encode ++ page.slice (15 + (es.flatMap Entry.encode).length)
          (size - (15 + (es.flatMap Entry.encode).length)))).length := by
      simp only [List.length_append, length_encodeTail, Buf.length_slice]
      omega
    rw [hsum, htail]
    exact (getLe_of_slice hcrc (by simpa using hlt)).symm
  · rw [show p + 15 = p + 4 + 11 from by omega]
    exact hpay

theorem length_le_flatMap_encode (es : List Entry) : es.length ≤ (es.flatMap Entry.encode).length := by
  induction es with
  | nil => simp
  | cons e es ih =>
      have := e.size_pos
      simp only [List.flatMap_cons, List.length_append, Entry.length_encode, List.length_cons]
      omega

/-- **A record that was written is scanned**, at any offset where it does not
end the extent without a link. -/
theorem scanRecord_of_slice {seed : UInt32} {seq size off : ℕ} {es : List Entry} {next : Option ℕ}
    {page : Buf} (hr : RecordOk seq es next size)
    (h : g.slice p size = recordBytes seed seq (linked es next) size page)
    (hoff : off + size ≤ extentSize) (hend : next = none → off + size ≠ extentSize) :
    scanRecord g p seed off seq = .record size es next := by
  have hlen := length_le_flatMap_encode (linked es next)
  have hused := hr.used
  have hpage := hr.page
  have hseq := hr.seq
  have hpad := hr.pad
  simp only [usedSize, journalHeaderSize, journalPageSize, journalBlockSize] at hused hpage hpad
  obtain ⟨h₁, h₂, h₃, h₄, h₅⟩ := decodeHeader_of_slice h hr.used
    (by simp only [u64Max] at hseq; omega) (by omega) hr.block hr.page
  have hdec := decodeEntries_of_slice hr.fits h₅
    (show _ ≤ p + size by simp only [journalHeaderSize]; omega)
  have hval : validateRecord g (p + journalHeaderSize) (p + size) (linked es next).length =
      some (es, next) := by
    have hne : (linked es next).length ≠ 0 := by
      have := List.length_pos_iff.2 hr.nonempty
      simp only [linked, List.length_append]
      omega
    simp only [validateRecord, hne, if_false, hdec]
    rw [if_neg, if_neg, filter_linked hr.regular, nextOf_linked hr.regular]
    · simp only [journalBlockSize, journalHeaderSize]
      omega
    · rintro ⟨e, he, hn⟩
      exact hn (regular_dropLast_linked hr.regular next e he)
  have hsz : sizeOk g p off := by
    refine ⟨?_, ?_, ?_⟩ <;> rw [h₃]
    · simp only [journalHeaderSize]
      omega
    · simpa only [journalPageSize] using hpage
    · exact hoff
  simp only [scanRecord, hsz, h₄, h₁, h₂, h₃, hval, not_true_eq_false, if_false, ne_eq]
  rw [if_neg, if_neg]
  · omega
  · rintro ⟨hn, hs⟩
    exact hend hn (by omega)

/-! ### Header slots -/

/-- The fields of a header fit the C types. -/
def SuperHeader.Fits (h : SuperHeader) : Prop :=
  h.magic < 256 ^ 4 ∧ h.version < 256 ^ 8 ∧ h.journalId < 256 ^ 8 ∧ h.journalSeq < 256 ^ 8

theorem length_slotBytes (h : SuperHeader) (page : Buf) :
    (slotBytes h page).length = superHeaderSize := by
  simp only [slotBytes, List.length_append, length_leBytes, SuperHeader.length_encodeTail,
    Buf.length_slice, superHeaderSize]

theorem length_superMake (uuid : Uuid) : (superMake uuid).length = superBlockSize := by
  simp only [superMake, List.length_append, length_slotBytes, superHeaderSize, superBlockSize]

/-- **A slot that was written is valid and is read back.** -/
theorem slot_of_slice {h : SuperHeader} {page : Buf} (hf : h.Fits)
    (hs : g.slice p superHeaderSize = slotBytes h page) :
    slotValid g p ∧ decodeSuperHeader g p = h := by
  have hcut : g.slice p (slotBytes h page).length = slotBytes h page := by
    rw [length_slotBytes]
    exact hs
  simp only [slotBytes] at hcut
  obtain ⟨hcrc, htail⟩ := (Buf.slice_append_iff g p _ _).1 hcut
  obtain ⟨hh, -⟩ := (Buf.slice_append_iff g _ _ _).1 htail
  simp only [SuperHeader.encodeTail] at hh
  obtain ⟨hmagic, hh⟩ := (Buf.slice_append_iff g _ _ _).1 hh
  obtain ⟨huuid, hh⟩ := (Buf.slice_append_iff g _ _ _).1 hh
  obtain ⟨hversion, hh⟩ := (Buf.slice_append_iff g _ _ _).1 hh
  obtain ⟨hid, hseq⟩ := (Buf.slice_append_iff g _ _ _).1 hh
  simp only [length_leBytes, Uuid.length_eq, List.length_append, SuperHeader.length_encodeTail,
    Buf.length_slice] at hcrc htail hmagic huuid hversion hid hseq
  obtain ⟨hf₁, hf₂, hf₃, hf₄⟩ := hf
  constructor
  · rw [slotValid, slotCrc]
    have hlt := UInt32.toNat_lt (crc32 0xFFFFFFFF
      (h.encodeTail ++ page.slice 48 (superHeaderSize - 48)))
    have hlen : superHeaderSize - 4 = 44 + (superHeaderSize - 48) := by
      simp only [superHeaderSize]
    rw [hlen, htail]
    exact getLe_of_slice hcrc (by simpa using hlt)
  · obtain ⟨magic, uuid, version, journalId, journalSeq⟩ := h
    simp only [decodeSuperHeader, SuperHeader.mk.injEq]
    refine ⟨getLe_of_slice hmagic hf₁, ?_, ?_, ?_, ?_⟩
    · obtain ⟨bytes, hb⟩ := uuid
      simpa using huuid
    · rw [show p + 24 = p + 4 + 4 + 16 from by omega]
      exact getLe_of_slice hversion hf₂
    · rw [show p + 32 = p + 4 + 4 + 16 + 8 from by omega]
      exact getLe_of_slice hid hf₃
    · rw [show p + 40 = p + 4 + 4 + 16 + 8 + 8 from by omega]
      exact getLe_of_slice hseq hf₄

/-- A super block as `cyanfs_super_make` leaves it selects the second slot. -/
theorem superParse_superMake {uuid : Uuid} (h : g.slice 0 superBlockSize = superMake uuid) :
    superParse g = some (mkfsHeader uuid 1) := by
  have hlen : ∀ v, (slotBytes (mkfsHeader uuid v) fun _ => 0).length = superHeaderSize :=
    fun v => length_slotBytes _ _
  have hcut : g.slice 0 (superMake uuid).length = superMake uuid := by
    rw [length_superMake]
    exact h
  obtain ⟨h₁, h₂⟩ := (Buf.slice_append_iff g 0 _ _).1 hcut
  rw [hlen] at h₁ h₂
  rw [hlen, Nat.zero_add] at h₂
  have hfits : ∀ v < 2, (mkfsHeader uuid v).Fits := by
    intro v hv
    refine ⟨?_, ?_, ?_, ?_⟩ <;> simp only [mkfsHeader, superMagic]
    · decide
    · omega
    · decide
    · decide
  obtain ⟨v₁, d₁⟩ := slot_of_slice (hfits 0 (by omega)) h₁
  obtain ⟨v₂, d₂⟩ := slot_of_slice (hfits 1 (by omega)) h₂
  simp only [superParse, v₁, v₂, d₁, d₂, and_self, if_true]
  simp [mkfsHeader]

theorem slotValid_congr {g g' : Buf} {p : ℕ} (h : ∀ i < superHeaderSize, g (p + i) = g' (p + i)) :
    slotValid g p ↔ slotValid g' p := by
  have h₀ := getLe_congr h (k := 0) (m := 4) (by simp [superHeaderSize])
  have h₄ := slice_congr h (k := 4) (m := superHeaderSize - 4) (by simp [superHeaderSize])
  simp only [Nat.add_zero] at h₀
  rw [slotValid, slotValid, slotCrc, slotCrc, h₀, h₄]

theorem decodeSuperHeader_congr {g g' : Buf} {p : ℕ}
    (h : ∀ i < superHeaderSize, g (p + i) = g' (p + i)) :
    decodeSuperHeader g p = decodeSuperHeader g' p := by
  have h₄ := getLe_congr h (k := 4) (m := 4) (by simp [superHeaderSize])
  have h₈ := slice_congr h (k := 8) (m := 16) (by simp [superHeaderSize])
  have h₂₄ := getLe_congr h (k := 24) (m := 8) (by simp [superHeaderSize])
  have h₃₂ := getLe_congr h (k := 32) (m := 8) (by simp [superHeaderSize])
  have h₄₀ := getLe_congr h (k := 40) (m := 8) (by simp [superHeaderSize])
  simp only [decodeSuperHeader, h₄, h₈, h₂₄, h₃₂, h₄₀]

/-- `cyanfs_super_parse` looks at the super block only. -/
theorem superParse_congr {g g' : Buf} (h : ∀ a < superBlockSize, g a = g' a) :
    superParse g = superParse g' := by
  have h₀ : ∀ i < superHeaderSize, g (0 + i) = g' (0 + i) := fun i hi => by
    rw [Nat.zero_add]
    exact h i (by simp only [superBlockSize, superHeaderSize] at *; omega)
  have h₁ : ∀ i < superHeaderSize, g (superHeaderSize + i) = g' (superHeaderSize + i) :=
    fun i hi => h _ (by simp only [superBlockSize, superHeaderSize] at *; omega)
  simp only [superParse, slotValid_congr h₀, slotValid_congr h₁, decodeSuperHeader_congr h₀,
    decodeSuperHeader_congr h₁]

/-! ### A disk with one record -/

/-- A disk of zeros that was formatted, with a record of one block at the start of its journal. -/
def recordDisk (uuid : Uuid) (es : List Entry) (next : Option ℕ) : Buf :=
  (Buf.overlay (fun _ => 0) (superMake uuid)).patch (mapExtentOffset 0 0) journalBlockSize
    (Buf.overlay (fun _ => 0) (recordBytes uuid.seed 0 (linked es next) journalBlockSize fun _ => 0))

theorem recordDisk_block (uuid : Uuid) (es : List Entry) (next : Option ℕ) :
    (recordDisk uuid es next).slice 0 superBlockSize = superMake uuid := by
  rw [recordDisk, Buf.slice_patch_disjoint _ _ _ _ (.inl (by decide))]
  rw [← length_superMake uuid]
  exact Buf.slice_overlay _ _

theorem recordDisk_slice {uuid : Uuid} {es : List Entry} {next : Option ℕ}
    (h : RecordOk 0 es next journalBlockSize) :
    (recordDisk uuid es next).slice (mapExtentOffset 0 0) journalBlockSize =
      recordBytes uuid.seed 0 (linked es next) journalBlockSize fun _ => 0 := by
  have hover := Buf.slice_overlay (fun _ => 0)
    (recordBytes uuid.seed 0 (linked es next) journalBlockSize fun _ => 0)
  rw [length_recordBytes _ _ _ _ h.used] at hover
  rw [recordDisk, Buf.slice_patch_same _ _ _ _ le_rfl]
  exact hover

theorem recordDisk_zero (uuid : Uuid) (es : List Entry) (next : Option ℕ) {a : ℕ}
    (h : mapExtentOffset 0 journalBlockSize ≤ a) : recordDisk uuid es next a = 0 := by
  have hlen := length_superMake uuid
  simp only [mapExtentOffset, extentBegin, extentSize, journalBlockSize, superBlockSize] at *
  rw [recordDisk, Buf.patch_of_not (by simp only [mapExtentOffset, extentBegin, extentSize,
    journalBlockSize, superBlockSize]; omega), Buf.overlay_of_le _ _ (by omega)]

end Cyanfs
