/-
# Journal entries, record headers and super headers as bytes

`core/journal.h`: the eight entry types, the three tables that give their size,
their encoding and their decoding, the 15-byte record header and the 48-byte
super header.

The decoders read a buffer at a position, as the C code reads through a
pointer; the encoders return the bytes that the C code stores.
-/

import Cyanfs.Core.Base

namespace Cyanfs

open Lib

/-- `struct cyanfs_journal_entry`, without the list node and the `flush` mark. -/
inductive Entry where
  | next (backend : ℕ)
  | create (id : ℕ) (name : FileName)
  | truncate (id size : ℕ)
  | fork (id pid : ℕ) (name : FileName)
  | delete (id : ℕ)
  | bind (id file backend : ℕ)
  | unbind (id file : ℕ)
  | rename (id : ℕ) (name : FileName)
deriving DecidableEq

/-- `cyanfs_journal_entry_size`, by type byte; `0` for an unknown type. -/
def entrySize : ℕ → ℕ
  | 0 => 5
  | 1 => 137
  | 2 => 17
  | 3 => 145
  | 4 => 9
  | 5 => 17
  | 6 => 13
  | 7 => 137
  | _ => 0

namespace Entry

/-- The member of `cyanfs_journal_entry_type`. -/
def type : Entry → ℕ
  | next _ => 0
  | create _ _ => 1
  | truncate _ _ => 2
  | fork _ _ _ => 3
  | delete _ => 4
  | bind _ _ _ => 5
  | unbind _ _ => 6
  | rename _ _ => 7

/-- `cyanfs_journal_entry_size(j->type)`. -/
def size (e : Entry) : ℕ := entrySize e.type

/-- Entries that carry a change, as opposed to the link to the next extent. -/
def Regular (e : Entry) : Prop := e.type ≠ 0

instance (e : Entry) : Decidable e.Regular := inferInstanceAs (Decidable (_ ≠ _))

/-- The fields fit the C types: 64-bit ids and sizes, 32-bit extent ids. -/
def Fits : Entry → Prop
  | next b => b < 256 ^ 4
  | create i _ => i < 256 ^ 8
  | truncate i s => i < 256 ^ 8 ∧ s < 256 ^ 8
  | fork i p _ => i < 256 ^ 8 ∧ p < 256 ^ 8
  | delete i => i < 256 ^ 8
  | bind i f b => i < 256 ^ 8 ∧ f < 256 ^ 4 ∧ b < 256 ^ 4
  | unbind i f => i < 256 ^ 8 ∧ f < 256 ^ 4
  | rename i _ => i < 256 ^ 8

instance : DecidablePred Fits := fun e => by
  cases e <;> unfold Fits <;> infer_instance

/-- The bytes behind the type byte. -/
def body : Entry → List UInt8
  | next b => leBytes 4 b
  | create i n => leBytes 8 i ++ n.bytes
  | truncate i s => leBytes 8 i ++ leBytes 8 s
  | fork i p n => leBytes 8 i ++ (leBytes 8 p ++ n.bytes)
  | delete i => leBytes 8 i
  | bind i f b => leBytes 8 i ++ (leBytes 4 f ++ leBytes 4 b)
  | unbind i f => leBytes 8 i ++ leBytes 4 f
  | rename i n => leBytes 8 i ++ n.bytes

/-- `cyanfs_journal_encode_entry`. -/
def encode (e : Entry) : List UInt8 := UInt8.ofNat e.type :: e.body

@[simp] theorem length_encode (e : Entry) : e.encode.length = e.size := by
  cases e <;> simp [encode, body, size, type, entrySize, FileName.length_eq]

theorem size_pos (e : Entry) : 0 < e.size := by
  cases e <;> simp [size, type, entrySize]

theorem size_le (e : Entry) : e.size ≤ 145 := by
  cases e <;> simp [size, type, entrySize]

end Entry

/-- `n` little-endian bytes at `p` (`cyanfs_get16/32/64`). -/
def getLe (g : Buf) (p n : ℕ) : ℕ := leVal (g.slice p n)

/-- The name stored at `p`. -/
def getName (g : Buf) (p : ℕ) : FileName := ⟨g.slice p 128, g.length_slice p 128⟩

/-- The entry of the given type whose fields start at `p`. -/
def decodeBody (g : Buf) (p : ℕ) : ℕ → Option Entry
  | 0 => some (.next (getLe g p 4))
  | 1 => some (.create (getLe g p 8) (getName g (p + 8)))
  | 2 => some (.truncate (getLe g p 8) (getLe g (p + 8) 8))
  | 3 => some (.fork (getLe g p 8) (getLe g (p + 8) 8) (getName g (p + 16)))
  | 4 => some (.delete (getLe g p 8))
  | 5 => some (.bind (getLe g p 8) (getLe g (p + 8) 4) (getLe g (p + 12) 4))
  | 6 => some (.unbind (getLe g p 8) (getLe g (p + 8) 4))
  | 7 => some (.rename (getLe g p 8) (getName g (p + 8)))
  | _ => none

/-- `cyanfs_journal_decode_entry_checked`: the entry at `p` and the position
behind it, or nothing if it does not lie wholly before `stop`. -/
def decodeEntry (g : Buf) (p stop : ℕ) : Option (Entry × ℕ) :=
  if stop ≤ p then none
  else
    let type := (g p).toNat
    let size := entrySize type
    if size = 0 ∨ stop - p < size then none
    else (decodeBody g (p + 1) type).map (·, p + size)

theorem getLe_lt (g : Buf) (p n : ℕ) : getLe g p n < 256 ^ n := by
  have := leVal_lt (g.slice p n)
  rwa [Buf.length_slice] at this

theorem getLe_of_slice {g : Buf} {p n v : ℕ} (h : g.slice p n = leBytes n v) (hv : v < 256 ^ n) :
    getLe g p n = v := by
  rw [getLe, h, leVal_leBytes_of_lt hv]

theorem getName_of_slice {g : Buf} {p : ℕ} {n : FileName} (h : g.slice p 128 = n.bytes) :
    getName g p = n :=
  FileName.bytes_injective h

/-- Two fields stored one behind the other. -/
theorem slice_append_of_length {g : Buf} {p k n : ℕ} {l m : List UInt8} (hk : l.length = k)
    (h : g.slice p (k + n) = l ++ m) : g.slice p k = l ∧ g.slice (p + k) n = m := by
  rw [Buf.slice_add] at h
  exact List.append_inj h (by simp [hk])

/-- The body table of the decoder inverts the one of the encoder. -/
theorem decodeBody_of_slice {g : Buf} {p : ℕ} {e : Entry} (he : e.Fits)
    (h : g.slice p (e.size - 1) = e.body) : decodeBody g p e.type = some e := by
  cases e with
  | next b => simpa [Entry.type, decodeBody] using getLe_of_slice (n := 4) h he
  | create i n =>
      obtain ⟨h₁, h₂⟩ := slice_append_of_length (k := 8) (n := 128) (by simp) h
      simp [Entry.type, decodeBody, getLe_of_slice h₁ he, getName_of_slice h₂]
  | truncate i s =>
      obtain ⟨h₁, h₂⟩ := slice_append_of_length (k := 8) (n := 8) (by simp) h
      simp [Entry.type, decodeBody, getLe_of_slice h₁ he.1, getLe_of_slice h₂ he.2]
  | fork i q n =>
      obtain ⟨h₁, h₂⟩ := slice_append_of_length (k := 8) (n := 136) (by simp) h
      obtain ⟨h₂, h₃⟩ := slice_append_of_length (k := 8) (n := 128) (by simp) h₂
      simp [Entry.type, decodeBody, getLe_of_slice h₁ he.1, getLe_of_slice h₂ he.2,
        getName_of_slice h₃]
  | delete i => simpa [Entry.type, decodeBody] using getLe_of_slice (n := 8) h he
  | bind i f b =>
      obtain ⟨h₁, h₂⟩ := slice_append_of_length (k := 8) (n := 8) (by simp) h
      obtain ⟨h₂, h₃⟩ := slice_append_of_length (k := 4) (n := 4) (by simp) h₂
      simp [Entry.type, decodeBody, getLe_of_slice h₁ he.1, getLe_of_slice h₂ he.2.1,
        getLe_of_slice h₃ he.2.2]
  | unbind i f =>
      obtain ⟨h₁, h₂⟩ := slice_append_of_length (k := 8) (n := 4) (by simp) h
      simp [Entry.type, decodeBody, getLe_of_slice h₁ he.1, getLe_of_slice h₂ he.2]
  | rename i n =>
      obtain ⟨h₁, h₂⟩ := slice_append_of_length (k := 8) (n := 128) (by simp) h
      simp [Entry.type, decodeBody, getLe_of_slice h₁ he, getName_of_slice h₂]

/-- **Decoding an encoded entry returns it**, whatever follows it. -/
theorem decodeEntry_of_slice {g : Buf} {p stop : ℕ} {e : Entry} (he : e.Fits)
    (h : g.slice p e.size = e.encode) (hs : p + e.size ≤ stop) :
    decodeEntry g p stop = some (e, p + e.size) := by
  have hpos := e.size_pos
  obtain ⟨k, hk⟩ : ∃ k, e.size = k + 1 := ⟨e.size - 1, by omega⟩
  rw [hk, Buf.slice, Entry.encode] at h
  injection h with ht hb
  have htype : (g p).toNat = e.type := by
    rw [ht]; cases e <;> rfl
  have hsize : entrySize e.type = e.size := rfl
  have hbody : decodeBody g (p + 1) e.type = some e :=
    decodeBody_of_slice he (by rw [hk]; exact hb)
  rw [decodeEntry, if_neg (by omega)]
  simp only [htype, hsize, hbody]
  rw [if_neg (by omega), Option.map_some]

/-- A decoded entry has fields of the C types. -/
theorem fits_of_decodeBody {g : Buf} {p t : ℕ} {e : Entry} (h : decodeBody g p t = some e) :
    e.Fits ∧ e.type = t := by
  unfold decodeBody at h
  split at h <;> first
    | (obtain rfl := Option.some.inj h
       simp only [Entry.Fits, Entry.type, getLe_lt, and_self])
    | cases h

/-- A decoded entry lies inside the checked range, and the position moves by
its size. -/
theorem decodeEntry_spec {g : Buf} {p stop q : ℕ} {e : Entry}
    (h : decodeEntry g p stop = some (e, q)) : e.Fits ∧ q = p + e.size ∧ q ≤ stop := by
  unfold decodeEntry at h
  simp only at h
  split_ifs at h with h₁ h₂
  obtain ⟨e', he', hq⟩ := Option.map_eq_some_iff.1 h
  injection hq with he hq
  subst he
  obtain ⟨hf, ht⟩ := fits_of_decodeBody he'
  have hs : e'.size = entrySize (g p).toNat := by rw [Entry.size, ht]
  exact ⟨hf, by omega, by omega⟩

/-! ### Record headers -/

/-- `CYANFS_JOURNAL_HEADER_SIZE`. -/
abbrev journalHeaderSize : ℕ := 15

/-- `CYANFS_JOURNAL_BLOCK_SIZE`. -/
abbrev journalBlockSize : ℕ := 512

/-- `CYANFS_JOURNAL_PAGE_SIZE`. -/
abbrev journalPageSize : ℕ := 65536

/-- `CYANFS_JOURNAL_TAIL_SIZE`, the size of a NEXT entry. -/
abbrev journalTailSize : ℕ := 5

/-- `struct cyanfs_journal_header`. -/
structure RecordHeader where
  crc : ℕ
  seq : ℕ
  count : ℕ
  size : ℕ

/-- `cyanfs_journal_encode_header` without the checksum field in front. -/
def RecordHeader.encodeTail (seq count size : ℕ) : List UInt8 :=
  leBytes 8 seq ++ (leBytes 2 count ++ leBytes 1 (size / journalBlockSize))

/-- The decoding of `cyanfs_journal_decode_header_checked`, whose length check
the loader makes. -/
def decodeHeader (g : Buf) (p : ℕ) : RecordHeader where
  crc := getLe g p 4
  seq := getLe g (p + 4) 8
  count := getLe g (p + 12) 2
  size := getLe g (p + 14) 1 * journalBlockSize

theorem length_encodeTail (seq count size : ℕ) :
    (RecordHeader.encodeTail seq count size).length = 11 := by
  simp [RecordHeader.encodeTail]

/-! ### Super headers -/

/-- `cyanfs_uuid_t`. -/
structure Uuid where
  bytes : List UInt8
  length_eq : bytes.length = 16
deriving DecidableEq

/-- `cyanfs_le32toh(uuid.data[0])`, the seed of every record checksum. -/
def Uuid.seed (u : Uuid) : UInt32 := UInt32.ofNat (leVal (u.bytes.take 4))

/-- `struct cyanfs_super_header` without the checksum. -/
structure SuperHeader where
  magic : ℕ
  uuid : Uuid
  version : ℕ
  journalId : ℕ
  journalSeq : ℕ
deriving DecidableEq

/-- `cyanfs_super_encode_header` behind the checksum field. -/
def SuperHeader.encodeTail (h : SuperHeader) : List UInt8 :=
  leBytes 4 h.magic ++ (h.uuid.bytes ++
    (leBytes 8 h.version ++ (leBytes 8 h.journalId ++ leBytes 8 h.journalSeq)))

theorem SuperHeader.length_encodeTail (h : SuperHeader) : h.encodeTail.length = 44 := by
  simp [SuperHeader.encodeTail, Uuid.length_eq]

/-- The checksum stored in the slot at `p`. -/
def slotCrc (g : Buf) (p : ℕ) : ℕ := getLe g p 4

/-- `cyanfs_super_decode_header` on the slot at `p`. -/
def decodeSuperHeader (g : Buf) (p : ℕ) : SuperHeader where
  magic := getLe g (p + 4) 4
  uuid := ⟨g.slice (p + 8) 16, g.length_slice _ _⟩
  version := getLe g (p + 24) 8
  journalId := getLe g (p + 32) 8
  journalSeq := getLe g (p + 40) 8

/-- The checksum of the slot at `p` is right. -/
def slotValid (g : Buf) (p : ℕ) : Prop :=
  slotCrc g p = (crc32 0xFFFFFFFF (g.slice (p + 4) (superHeaderSize - 4))).toNat

instance (g : Buf) (p : ℕ) : Decidable (slotValid g p) := inferInstanceAs (Decidable (_ = _))

/-- `cyanfs_super_parse`. -/
def superParse (g : Buf) : Option SuperHeader :=
  let h₁ := decodeSuperHeader g 0
  let h₂ := decodeSuperHeader g superHeaderSize
  let pick : Option SuperHeader :=
    if slotValid g 0 ∧ slotValid g superHeaderSize then
      if h₁.version < h₂.version then some h₂ else some h₁
    else if slotValid g 0 then some h₁
    else if slotValid g superHeaderSize then some h₂
    else none
  match pick with
  | none => none
  | some h => if h.magic ≠ superMagic ∨ extentIdInvalid ≤ h.journalId then none else some h

/-- A header slot: `cyanfs_super_encode_header` over `page`, checksummed as
`cyanfs_journal_compact_write_super` and `cyanfs_super_make` do it. -/
def slotBytes (h : SuperHeader) (page : Buf) : List UInt8 :=
  let tail := h.encodeTail ++ page.slice 48 (superHeaderSize - 48)
  leBytes 4 (crc32 0xFFFFFFFF tail).toNat ++ tail

/-- The header that `cyanfs_super_make` writes with the given version. -/
def mkfsHeader (uuid : Uuid) (version : ℕ) : SuperHeader :=
  ⟨superMagic, uuid, version, 0, 0⟩

/-- `cyanfs_super_make`. -/
def superMake (uuid : Uuid) : List UInt8 :=
  slotBytes (mkfsHeader uuid 0) (fun _ => 0) ++ slotBytes (mkfsHeader uuid 1) (fun _ => 0)

end Cyanfs
