/-
# The entry codec

`core/journal.h` has three tables over the eight entry types: the size of an
entry, the stores that encode it and the loads that decode it.  The decoder
checks the bounds with the first table and then reads through a pointer that
the third one moves.  Here that pointer is threaded through the loads as in the
C code, so that its final position is a result of the decode table alone:

* `decodeFields_body`: the loads of a type end where the size table says and
  the encode table gives back the bytes they have passed;
* `decodeEntryChecked_eq`: the decoder of the loader, with the position taken
  from the size table, is this one;
* `entry_codec`: the decoder inverts the encoder on arbitrary bytes.
-/

import Cyanfs.Core.Journal

namespace Cyanfs

open Lib

/-! ### Loads through a pointer -/

/-- `cyanfs_get8`. -/
def get8 (g : Buf) : StateM ℕ ℕ := fun p => ((g p).toNat, p + 1)

/-- `cyanfs_get32`. -/
def get32 (g : Buf) : StateM ℕ ℕ := fun p => (getLe g p 4, p + 4)

/-- `cyanfs_get64`. -/
def get64 (g : Buf) : StateM ℕ ℕ := fun p => (getLe g p 8, p + 8)

/-- A name that is left where it lies; the pointer is moved over it. -/
def getFileName (g : Buf) : StateM ℕ FileName := fun p => (getName g p, p + 128)

/-- The switch of `cyanfs_journal_decode_entry_checked`. -/
def decodeFields (g : Buf) : ℕ → StateM ℕ (Option Entry)
  | 0 => do
      let backend ← get32 g
      return some (.next backend)
  | 1 => do
      let id ← get64 g
      let name ← getFileName g
      return some (.create id name)
  | 2 => do
      let id ← get64 g
      let size ← get64 g
      return some (.truncate id size)
  | 3 => do
      let id ← get64 g
      let pid ← get64 g
      let name ← getFileName g
      return some (.fork id pid name)
  | 4 => do
      let id ← get64 g
      return some (.delete id)
  | 5 => do
      let id ← get64 g
      let file ← get32 g
      let backend ← get32 g
      return some (.bind id file backend)
  | 6 => do
      let id ← get64 g
      let file ← get32 g
      return some (.unbind id file)
  | 7 => do
      let id ← get64 g
      let name ← getFileName g
      return some (.rename id name)
  | _ => return none

/-- `cyanfs_journal_decode_entry_checked`: `*p` is the state, and it is stored
back only on success.  A type without a case has size `0` and is refused before
the switch. -/
def decodeEntryChecked (g : Buf) (stop : ℕ) : StateM ℕ (Except Err Entry) := fun p =>
  if stop ≤ p then (.error .inval, p)
  else
    let (type, cursor) := get8 g p
    let size := entrySize type
    if size = 0 ∨ stop - p < size then (.error .inval, p)
    else
      match decodeFields g type cursor with
      | (some e, cursor) => (.ok e, cursor)
      | (none, _) => (.error .inval, p)

/-! ### The three tables agree -/

theorem slice_eq_leBytes (g : Buf) (p n : ℕ) : g.slice p n = leBytes n (getLe g p n) := by
  have h := leBytes_leVal (g.slice p n)
  rw [Buf.length_slice] at h
  exact h.symm

/-- **Decode against size and encode:** the loads of a known type pass as many
bytes as the size table has, and those bytes are the ones that the encode table
stores for the entry. -/
theorem decodeFields_body (g : Buf) (p t : ℕ) (ht : entrySize t ≠ 0) :
    ∃ e : Entry, decodeFields g t p = (some e, p + (entrySize t - 1)) ∧ e.type = t ∧ e.Fits ∧
      g.slice p (entrySize t - 1) = e.body := by
  unfold entrySize at ht
  split at ht
  case h_1 => exact ⟨.next (getLe g p 4), rfl, rfl, getLe_lt g p 4, slice_eq_leBytes g p 4⟩
  case h_2 =>
    refine ⟨.create (getLe g p 8) (getName g (p + 8)), rfl, rfl, getLe_lt g p 8, ?_⟩
    change g.slice p (8 + 128) = _
    rw [Buf.slice_add, slice_eq_leBytes g p 8]
    rfl
  case h_3 =>
    refine ⟨.truncate (getLe g p 8) (getLe g (p + 8) 8), rfl, rfl,
      ⟨getLe_lt g p 8, getLe_lt g _ 8⟩, ?_⟩
    change g.slice p (8 + 8) = _
    rw [Buf.slice_add, slice_eq_leBytes g p 8, slice_eq_leBytes g (p + 8) 8]
    rfl
  case h_4 =>
    refine ⟨.fork (getLe g p 8) (getLe g (p + 8) 8) (getName g (p + 16)), rfl, rfl,
      ⟨getLe_lt g p 8, getLe_lt g _ 8⟩, ?_⟩
    change g.slice p (8 + (8 + 128)) = _
    rw [Buf.slice_add, Buf.slice_add, slice_eq_leBytes g p 8, slice_eq_leBytes g (p + 8) 8]
    rfl
  case h_5 => exact ⟨.delete (getLe g p 8), rfl, rfl, getLe_lt g p 8, slice_eq_leBytes g p 8⟩
  case h_6 =>
    refine ⟨.bind (getLe g p 8) (getLe g (p + 8) 4) (getLe g (p + 12) 4), rfl, rfl,
      ⟨getLe_lt g p 8, getLe_lt g _ 4, getLe_lt g _ 4⟩, ?_⟩
    change g.slice p (8 + (4 + 4)) = _
    rw [Buf.slice_add, Buf.slice_add, slice_eq_leBytes g p 8, slice_eq_leBytes g (p + 8) 4,
      slice_eq_leBytes g (p + 8 + 4) 4]
    rfl
  case h_7 =>
    refine ⟨.unbind (getLe g p 8) (getLe g (p + 8) 4), rfl, rfl,
      ⟨getLe_lt g p 8, getLe_lt g _ 4⟩, ?_⟩
    change g.slice p (8 + 4) = _
    rw [Buf.slice_add, slice_eq_leBytes g p 8, slice_eq_leBytes g (p + 8) 4]
    rfl
  case h_8 =>
    refine ⟨.rename (getLe g p 8) (getName g (p + 8)), rfl, rfl, getLe_lt g p 8, ?_⟩
    change g.slice p (8 + 128) = _
    rw [Buf.slice_add, slice_eq_leBytes g p 8]
    rfl
  case h_9 => exact absurd rfl ht

/-- What one call does: the entry, its size in the pointer and its encoding in
the bytes passed, or an error and the old pointer. -/
theorem decodeEntryChecked_cases (g : Buf) (stop p : ℕ) :
    (∃ e : Entry, decodeEntryChecked g stop p = (.ok e, p + e.size) ∧ e.Fits ∧
        e.type = (g p).toNat ∧ p + e.size ≤ stop ∧ g.slice p e.size = e.encode) ∨
      decodeEntryChecked g stop p = (.error .inval, p) := by
  unfold decodeEntryChecked
  by_cases hp : stop ≤ p
  · exact .inr (by rw [if_pos hp])
  rw [if_neg hp]
  simp only [get8]
  by_cases hs : entrySize (g p).toNat = 0 ∨ stop - p < entrySize (g p).toNat
  · exact .inr (by rw [if_pos hs])
  rw [if_neg hs]
  rw [not_or] at hs
  obtain ⟨e, hd, ht, hf, hb⟩ := decodeFields_body g (p + 1) (g p).toNat hs.1
  have hsize : entrySize (g p).toNat = e.size := by rw [Entry.size, ht]
  have hpos := e.size_pos
  rw [hsize] at hd hb hs
  refine .inl ⟨e, ?_, hf, ht, by omega, ?_⟩
  · rw [hd, show p + 1 + (e.size - 1) = p + e.size from by omega]
  · obtain ⟨k, hk⟩ : ∃ k, e.size = k + 1 := ⟨e.size - 1, by omega⟩
    rw [hk, Nat.add_sub_cancel] at hb
    rw [hk, Buf.slice, Entry.encode, hb, ht, UInt8.ofNat_toNat]

/-- The entry that the loads give is the one of `decodeBody`. -/
theorem decodeFields_fst (g : Buf) (p t : ℕ) : (decodeFields g t p).1 = decodeBody g p t := by
  unfold decodeFields
  split
  case h_9 =>
    unfold decodeBody
    split <;> first | rfl | contradiction
  all_goals rfl

/-- **The decoder of the loader is this one**, with the final pointer read off
the size table. -/
theorem decodeEntryChecked_eq (g : Buf) (stop p : ℕ) :
    decodeEntryChecked g stop p =
      match decodeEntry g p stop with
      | some (e, q) => (.ok e, q)
      | none => (.error .inval, p) := by
  unfold decodeEntryChecked decodeEntry
  by_cases hp : stop ≤ p
  · rw [if_pos hp, if_pos hp]
  rw [if_neg hp, if_neg hp]
  simp only [get8]
  by_cases hs : entrySize (g p).toNat = 0 ∨ stop - p < entrySize (g p).toNat
  · rw [if_pos hs, if_pos hs]
  rw [if_neg hs, if_neg hs]
  rw [not_or] at hs
  obtain ⟨e, hd, -⟩ := decodeFields_body g (p + 1) (g p).toNat hs.1
  have hb := decodeFields_fst g (p + 1) (g p).toNat
  rw [hd] at hb
  rw [hd, ← hb, show p + 1 + (entrySize (g p).toNat - 1) = p + entrySize (g p).toNat from by omega]
  rfl

/-- **Encode, then decode**, whatever stands behind the entry. -/
theorem decodeEntryChecked_of_slice {g : Buf} {p stop : ℕ} {e : Entry} (he : e.Fits)
    (h : g.slice p e.size = e.encode) (hs : p + e.size ≤ stop) :
    decodeEntryChecked g stop p = (.ok e, p + e.size) := by
  rw [decodeEntryChecked_eq, decodeEntry_of_slice he h hs]

/-! ### Sequences of entries -/

/-- The bytes of a sequence of entries, as the writer stores them one behind
the other. -/
def encodeEntries (es : List Entry) : List UInt8 := es.flatMap Entry.encode

/-- An encoding is never a proper prefix of another one: the first entries of
two equal byte lists are the same. -/
theorem encode_append_inj {e e' : Entry} {l l' : List UInt8} (he : e.Fits) (he' : e'.Fits)
    (h : e.encode ++ l = e'.encode ++ l') : e = e' ∧ l = l' := by
  let g : Buf := Buf.overlay (fun _ => 0) (e.encode ++ l)
  have hg : g.slice 0 (e.encode ++ l).length = e.encode ++ l := Buf.slice_overlay _ _
  have h₁ := ((Buf.slice_append_iff g 0 _ _).1 hg).1
  rw [h] at hg
  have h₂ := ((Buf.slice_append_iff g 0 _ _).1 hg).1
  rw [Entry.length_encode] at h₁ h₂
  have d₁ : decodeEntryChecked g 145 0 = _ :=
    decodeEntryChecked_of_slice he h₁ (by have := e.size_le; omega)
  have d₂ : decodeEntryChecked g 145 0 = _ :=
    decodeEntryChecked_of_slice he' h₂ (by have := e'.size_le; omega)
  rw [d₁] at d₂
  obtain rfl := Except.ok.inj (congrArg Prod.fst d₂)
  exact ⟨rfl, List.append_cancel_left h⟩

/-- **A payload determines its entries**, given how many there are: neither
the padding nor anything else behind them matters. -/
theorem encodeEntries_append_inj {es es' : List Entry} {l l' : List UInt8}
    (hes : ∀ e ∈ es, e.Fits) (hes' : ∀ e ∈ es', e.Fits) (hn : es.length = es'.length)
    (h : encodeEntries es ++ l = encodeEntries es' ++ l') : es = es' := by
  induction es generalizing es' with
  | nil => exact (List.length_eq_zero_iff.1 hn.symm).symm
  | cons e es ih =>
      obtain ⟨e', es', rfl⟩ := List.exists_cons_of_length_eq_add_one hn.symm
      simp only [encodeEntries, List.flatMap_cons, List.append_assoc] at h
      obtain ⟨rfl, ht⟩ := encode_append_inj (hes e List.mem_cons_self)
        (hes' e' List.mem_cons_self) h
      rw [ih (fun a ha => hes a (List.mem_cons_of_mem _ ha))
        (fun a ha => hes' a (List.mem_cons_of_mem _ ha)) (by simpa using hn) ht]

/-- **The entry decoder inverts the encoder.**  On arbitrary bytes a success
consumes exactly the size of the type, all before `stop`, and the encoding of
the entry is the consumed bytes; a failure leaves the pointer where it was.  An
encoded entry followed by anything is decoded to itself, with the pointer right
behind it.  Hence two records with the same number of entries and the same
payload have the same entries. -/
theorem entry_codec :
    (∀ (g : Buf) (stop p q : ℕ) (e : Entry), decodeEntryChecked g stop p = (.ok e, q) →
      e.type = (g p).toNat ∧ q = p + entrySize e.type ∧ q ≤ stop ∧ e.Fits ∧
        g.slice p (q - p) = e.encode) ∧
    (∀ (g : Buf) (stop p q : ℕ) (c : Err), decodeEntryChecked g stop p = (.error c, q) → q = p) ∧
    (∀ (g : Buf) (stop p : ℕ) (e : Entry), e.Fits → g.slice p e.encode.length = e.encode →
      p + e.encode.length ≤ stop →
        decodeEntryChecked g stop p = (.ok e, p + e.encode.length)) ∧
    ∀ (es es' : List Entry) (l l' : List UInt8), (∀ e ∈ es, e.Fits) → (∀ e ∈ es', e.Fits) →
      es.length = es'.length → encodeEntries es ++ l = encodeEntries es' ++ l' → es = es' := by
  refine ⟨fun g stop p q e h => ?_, fun g stop p q c h => ?_, fun g stop p e he hg hs => ?_,
    fun es es' l l' hes hes' hn h => encodeEntries_append_inj hes hes' hn h⟩
  · obtain ⟨e', hd, hf, ht, hs, hb⟩ | hd := decodeEntryChecked_cases g stop p
    · rw [hd] at h
      obtain ⟨hee, rfl⟩ := Prod.mk.inj h
      obtain rfl := Except.ok.inj hee
      refine ⟨ht, rfl, hs, hf, ?_⟩
      rw [Nat.add_sub_cancel_left]
      exact hb
    · rw [hd] at h
      cases congrArg Prod.fst h
  · obtain ⟨e', hd, -⟩ | hd := decodeEntryChecked_cases g stop p
    · rw [hd] at h
      cases congrArg Prod.fst h
    · rw [hd] at h
      exact (congrArg Prod.snd h).symm
  · rw [Entry.length_encode] at hg hs ⊢
    exact decodeEntryChecked_of_slice he hg hs

/-- A DELETE entry with two stray bytes behind it: decoded, its bytes given
back, and refused with the pointer left at the start when a byte is missing. -/
theorem entry_codec_delete :
    let g : Buf := Buf.overlay (fun _ => 0) ((Entry.delete 7).encode ++ [1, 2])
    decodeEntryChecked g 11 0 = (.ok (.delete 7), 9) ∧ g.slice 0 9 = (Entry.delete 7).encode ∧
      (decodeEntryChecked g 8 0).2 = 0 ∧ encodeEntries [.delete 7] ++ [1, 2] = g.slice 0 11 := by
  intro g
  have h := entry_codec.2.2.1 g 11 0 (.delete 7) (by decide) (by decide) (by decide)
  refine ⟨h, (entry_codec.1 g 11 0 9 _ h).2.2.2.2, ?_, by decide⟩
  exact entry_codec.2.1 g 8 0 _ .inval rfl

end Cyanfs
