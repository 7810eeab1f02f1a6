/-
# The writer and the loader agree

The flushers append their batches with `cyanfs_journal_writer_encode`, record by record;
`Appends` is such a sequence of calls, each made with whatever the super has become by
then, and all WRITEs of it applied to the disk.

One call prolongs the chain by one record (`Written.trace`): what was on the chain lies
before the cursor and in other extents, so the WRITE leaves it alone, and the record is
read back where the cursor was.  By induction a scan from the super header comes to the
cursor of the writer over exactly the entries that were appended (`Appends.trace`).  What
lies behind the cursor is what was there before (`Appends.untouched`), so a disk with no
record there makes the loader stop at that place.
-/

import Cyanfs.Journal.Packing
import Cyanfs.Journal.Writing

namespace Cyanfs

open Lib Std

/-! ### One call of the writer -/

theorem Entry.stored_of_fits {e : Entry} (h : e.Fits) : e.stored = e := by
  cases e <;> simp_all [Entry.Fits, Entry.stored, Nat.mod_eq_of_lt]

/-- What a call of `cyanfs_journal_writer_encode` that emits a record does: the entries
`taken` go to a record of `size` bytes at the cursor, with a link `next`. -/
structure Written (s : Super) (c : Cursor) (head : List JEntry) (nextId : Option ℕ) (s' : Super)
    (c' : Cursor) (req : WriteReq) (rest taken : List JEntry) (size : ℕ) (next : Option ℕ) :
    Prop where
  valid : c.place.Valid
  head : head = taken ++ rest
  nonempty : taken ≠ []
  entries : req.entries = taken.map (·.entry)
  emitted : Emitted s.uuid.seed c.place req size (taken.map (·.entry.stored)) next
  place : c'.place = c.place.behind size taken.length next
  flushId : c'.extentIdFlush = c.extentIdFlush
  ondiskId : c'.extentIdOndisk = c.extentIdOndisk
  final : ∀ b, nextId = some b → rest = [] → next = some b
  super : next = none ∧ s' = s ∨ (∃ b, next = some b ∧ nextId = some b ∧ rest = [] ∧ s' = s) ∨
    ∃ b, next = some b ∧ b ∈ s.free ∧ s' = s.takeJournal b

/-- **What a call that emits a record does.** -/
theorem written_of_writerEncode {s s' : Super} {c c' : Cursor} {head rest : List JEntry}
    {nextId : Option ℕ} {req : WriteReq} {fl : Bool} (hfree : ∀ b ∈ s.free, b < 256 ^ 4)
    (hnext : ∀ b ∈ nextId, b < 256 ^ 4)
    (h : writerEncode s c head nextId false = .write s' c' req fl rest) :
    ∃ taken size next, Written s c head nextId s' c' req rest taken size next := by
  unfold writerEncode at h
  split at h
  · cases h
  split at h
  · cases h
  split at h
  · cases h
  rename_i p hp
  have hlaid := laid_of_layoutRecord hp
  have hseq := Nat.le_of_lt (seq_lt_of_layoutRecord hp)
  -- the record of the plan, once its link is known
  have key : ∀ (s₁ : Super) (next : Option ℕ), s₁.uuid = s.uuid → (next = none ↔ p.link = .none) →
      (∀ b ∈ next, b < 256 ^ 4) → (∀ b, p.link = .final b → next = some b) →
      emitRecord s₁ c p.taken p.rest p.size next = .write s' c' req fl rest →
      (next = none ∧ s₁ = s ∨ (∃ b, next = some b ∧ nextId = some b ∧ p.rest = [] ∧ s₁ = s) ∨
        ∃ b, next = some b ∧ b ∈ s.free ∧ s₁ = s.takeJournal b) →
      ∃ taken size next, Written s c head nextId s' c' req rest taken size next := by
    intro s₁ next huuid hlink hlt hfin he hsuper
    obtain ⟨c₁, req₁, fl₁, he₁, hem, hplace, hfl, hon⟩ :=
      emitted_of_layout (s := s₁) hlaid hseq hlink hlt
    have hentries : req₁.entries = p.taken.map (·.entry) := by
      unfold emitRecord at he₁
      obtain ⟨-, -, rfl, -, -⟩ := EncodeOut.write.inj he₁
      rfl
    rw [he₁] at he
    obtain ⟨rfl, rfl, rfl, -, rfl⟩ := EncodeOut.write.inj he
    rw [huuid] at hem
    exact ⟨p.taken, p.size, next, hlaid.valid, hlaid.head, hlaid.nonempty, hentries, hem, hplace,
      hfl, hon, fun b hid hrest => hfin b ((hlaid.final b).2 ⟨hid, hrest⟩), hsuper⟩
  split at h
  · rename_i hl
    exact key s none rfl (by simp [hl]) (by simp) (by simp [hl]) h (.inl ⟨rfl, rfl⟩)
  · rename_i b hl
    obtain ⟨hid, hrest⟩ := (hlaid.final b).1 hl
    exact key s (some b) rfl (by simp [hl]) (by simpa using hnext b hid) (by simp [hl]) h
      (.inr (.inl ⟨b, rfl, hid, hrest, rfl⟩))
  · rename_i hl
    split at h
    · cases h
    · rename_i b hb
      have hmem := Super.mem_of_findNearlyExtent hb
      exact key (s.takeJournal b) (some b) rfl (by simp [hl]) (by simpa using hfree b hmem)
        (by simp [hl]) h (.inr (.inr ⟨b, rfl, hmem, rfl⟩))

/-- A WRITE of a record changes nothing but the record. -/
theorem Emitted.patch_of_not {seed : UInt32} {w : Place} {req : WriteReq} {size a : ℕ}
    {es : List Entry} {next : Option ℕ} {d : Buf} (h : Emitted seed w req size es next)
    (ha : a < w.addr ∨ w.addr + size ≤ a) : d.patch req.off req.len req.data a = d a :=
  Buf.patch_of_not (by rw [h.off, h.len]; exact ha)

/-- The record lies in the extent of the cursor. -/
theorem Emitted.patch_of_not_inExtent {seed : UInt32} {w : Place} {req : WriteReq} {size a : ℕ}
    {es : List Entry} {next : Option ℕ} {d : Buf} (h : Emitted seed w req size es next)
    (hw : w.Valid) (ha : ¬ InExtent w.extentId a) : d.patch req.off req.len req.data a = d a := by
  refine h.patch_of_not ?_
  by_contra hin
  have hext := h.extent
  have haddr := hw.addr_eq
  refine ha ⟨?_, ?_⟩ <;> omega

/-- The record is read back where it was written. -/
theorem Emitted.scan_patch {seed : UInt32} {w : Place} {req : WriteReq} {size : ℕ} {es : List Entry}
    {next : Option ℕ} (h : Emitted seed w req size es next) (d : Buf) :
    scanAt (d.patch req.off req.len req.data) seed w = .record size es next := by
  refine h.scan _ fun a ha => ?_
  rw [← h.off, Buf.patch_of_lt (by omega) (by rw [h.len]; omega), Nat.add_sub_cancel_left]

/-- The chain lies before the cursor or in another extent. -/
theorem Emitted.patch_of_footprint {seed : UInt32} {w : Place} {req : WriteReq} {size a : ℕ}
    {es : List Entry} {next : Option ℕ} {bs : List ℕ} {d : Buf} (h : Emitted seed w req size es next)
    (hw : w.Valid) (hnodup : bs.Nodup) (hlast : bs.getLast? = some w.extentId)
    (ha : Footprint bs w a) : d.patch req.off req.len req.data a = d a := by
  rcases ha with ⟨e, he, hea⟩ | ⟨-, hlt⟩
  · refine h.patch_of_not_inExtent hw fun hin => ?_
    obtain rfl := hea.unique hin
    have hsplit := List.dropLast_append_getLast? _ hlast
    rw [← hsplit] at hnodup
    exact (List.nodup_append.1 hnodup).2.2 _ he _ (List.mem_singleton_self _) rfl
  · exact h.patch_of_not (.inl hlt)

/-- **A record that is written at the end of a chain prolongs it.** -/
theorem Emitted.trace {seed : UInt32} {p w : Place} {req : WriteReq} {size : ℕ} {es es₀ : List Entry}
    {next : Option ℕ} {js : List ℕ} {d : Buf} (h : Emitted seed w req size es next)
    (ht : Trace d seed p es₀ js w) (hp : p.Valid) (hnodup : (p.extentId :: js).Nodup) :
    Trace (d.patch req.off req.len req.data) seed p (es₀ ++ es) (js ++ next.toList)
      (w.behind size es.length next) := by
  have hold : Trace (d.patch req.off req.len req.data) seed p es₀ js w :=
    ht.congr hp fun a ha => h.patch_of_footprint (ht.valid hp) hnodup ht.getLast? ha
  have hnew := Trace.step (h.scan_patch d) (.refl (w.behind size es.length next))
  rw [List.append_nil, List.append_nil] at hnew
  exact hold.trans hnew

/-! ### Batches -/

/-- The writer between two calls: its cursor, the disk with all its WRITEs applied, and the
extents of the chain. -/
structure Tape where
  cursor : Cursor
  disk : Buf
  chain : List ℕ

/-- A super that the writer may be called with: its journal set holds the chain, and the
free extents are extents of the disk outside it. -/
structure Tape.Serves (t : Tape) (total : ℕ) (uuid : Uuid) (s : Super) : Prop where
  uuid : s.uuid = uuid
  chain : ∀ b ∈ t.chain, b ∈ s.journal
  free : ∀ b ∈ s.free, b < total ∧ b ∉ s.journal

/-- The extents that a call has added to the journal set. -/
def Super.added (s s' : Super) : List ℕ := (s'.journal \ s.journal).sort

/-- The calls of `cyanfs_journal_writer_encode` for the batches `heads`, each made with a
super as it is then, from one tape to another.  A batch ends when the writer reports that
it has finished. -/
inductive Appends (total : ℕ) (uuid : Uuid) : Tape → List (List JEntry) → Tape → Prop
  | nil (t : Tape) : Appends total uuid t [] t
  | finish {t t' : Tape} {heads : List (List JEntry)} {s : Super} (hs : t.Serves total uuid s)
      (h : writerEncode s t.cursor [] none false = .finish) (ht : Appends total uuid t heads t') :
      Appends total uuid t ([] :: heads) t'
  | write {t t' : Tape} {head rest : List JEntry} {heads : List (List JEntry)} {s s' : Super}
      {c : Cursor} {req : WriteReq} {fl : Bool} (hs : t.Serves total uuid s)
      (h : writerEncode s t.cursor head none false = .write s' c req fl rest)
      (ht : Appends total uuid ⟨c, t.disk.patch req.off req.len req.data, t.chain ++ s.added s'⟩
        (rest :: heads) t') : Appends total uuid t (head :: heads) t'

/-- The chain from the place `p` to the cursor holds the entries `es`, and everything
outside it is as on the disk `d`. -/
structure Tape.Chained (t : Tape) (total : ℕ) (seed : UInt32) (d : Buf) (p : Place)
    (es : List Entry) : Prop where
  trace : ∃ js, t.chain = p.extentId :: js ∧ Trace t.disk seed p es js t.cursor.place
  nodup : t.chain.Nodup
  lt : ∀ b ∈ t.chain, b < total
  outside : ∀ a, (∀ e ∈ t.chain, ¬ InExtent e a) → t.disk a = d a
  behind : ∀ a, InExtent t.cursor.extentId a → t.cursor.place.addr ≤ a → t.disk a = d a

theorem Super.added_self (s : Super) : s.added s = [] := by simp [added]

theorem Super.added_takeJournal {s : Super} {b : ℕ} (hb : b ∉ s.journal) :
    s.added (s.takeJournal b) = [b] := by
  have : (insert b s.journal) \ s.journal = {b} := by
    rw [Finset.insert_sdiff_of_notMem _ hb, Finset.sdiff_self]
    rfl
  rw [added, takeJournal]
  simp only [this, Finset.sort_singleton]

/-- What a call adds to the journal set is its link. -/
theorem Written.added_eq {t : Tape} {total : ℕ} {uuid : Uuid} {s s' : Super} {c : Cursor}
    {head rest taken : List JEntry} {req : WriteReq} {size : ℕ} {next : Option ℕ}
    (h : Written s t.cursor head none s' c req rest taken size next) (hs : t.Serves total uuid s) :
    s.added s' = next.toList ∧ ∀ b ∈ next, b < total ∧ b ∉ t.chain := by
  rcases h.super with ⟨rfl, rfl⟩ | ⟨b, -, hb, -⟩ | ⟨b, rfl, hb, rfl⟩
  · exact ⟨s'.added_self, by simp⟩
  · cases hb
  · obtain ⟨hlt, hnot⟩ := hs.free b hb
    refine ⟨Super.added_takeJournal hnot, fun b' hb' => ?_⟩
    obtain rfl : b = b' := Option.some.inj hb'
    exact ⟨hlt, fun hc => hnot (hs.chain b hc)⟩

/-- **One call keeps the chain.** -/
theorem Tape.Chained.write {t : Tape} {total : ℕ} {uuid : Uuid} {s s' : Super} {c : Cursor}
    {head rest taken : List JEntry} {req : WriteReq} {size : ℕ} {next : Option ℕ} {d : Buf}
    {p : Place} {es : List Entry} (ht : t.Chained total uuid.seed d p es) (hp : p.Valid)
    (hs : t.Serves total uuid s)
    (h : Written s t.cursor head none s' c req rest taken size next) :
    Tape.Chained ⟨c, t.disk.patch req.off req.len req.data, t.chain ++ s.added s'⟩ total uuid.seed d p
      (es ++ taken.map (·.entry.stored)) := by
  obtain ⟨js, hchain, htrace⟩ := ht.trace
  obtain ⟨hadd, hnew⟩ := h.added_eq hs
  have hem := h.emitted
  rw [hs.uuid] at hem
  have hplace := h.place
  have hlast : t.cursor.extentId ∈ t.chain := by
    rw [hchain]
    exact List.mem_of_getLast? htrace.getLast?
  rw [hadd]
  refine ⟨⟨js ++ next.toList, by rw [hchain, List.cons_append], ?_⟩, ?_, ?_, ?_, ?_⟩
  · have := hem.trace htrace hp (hchain ▸ ht.nodup)
    rw [List.length_map, ← hplace] at this
    exact this
  · refine List.nodup_append.2 ⟨ht.nodup, ?_, ?_⟩
    · cases next <;> simp
    · intro a ha b hb hab
      exact (hnew b (Option.mem_toList.1 hb)).2 (hab ▸ ha)
  · intro b hb
    rcases List.mem_append.1 hb with hb | hb
    · exact ht.lt b hb
    · exact (hnew b (Option.mem_toList.1 hb)).1
  · intro a ha
    have ha' : ∀ e ∈ t.chain, ¬ InExtent e a := fun e he => ha e (List.mem_append_left _ he)
    exact (hem.patch_of_not_inExtent h.valid (ha' _ hlast)).trans (ht.outside a ha')
  · intro a (hin : InExtent c.extentId a) (hle : c.place.addr ≤ a)
    have hid : c.extentId = (t.cursor.place.behind size taken.length next).extentId :=
      congrArg Place.extentId hplace
    cases next with
    | none =>
        -- behind the record in the same extent
        have hoff : c.place.addr = t.cursor.place.addr + size := by
          have hin' := hem.scan_patch t.disk
          have hv := (scanned_of_scanAt hin').valid_behind h.valid
          rw [List.length_map] at hv
          rw [hplace, hv.addr_eq, h.valid.addr_eq]
          simp only [Place.behind]
          omega
        rw [hid] at hin
        exact (hem.patch_of_not (.inr (by omega))).trans (ht.behind a hin (by omega))
    | some b =>
        have hb : c.extentId = b := hid
        have ha' : ∀ e ∈ t.chain, ¬ InExtent e a := by
          intro e he hea
          obtain rfl := hea.unique (hb ▸ hin)
          exact (hnew e rfl).2 he
        exact (hem.patch_of_not_inExtent h.valid (ha' _ hlast)).trans (ht.outside a ha')

/-- **All calls keep the chain**, and append exactly the entries of the batches. -/
theorem Appends.chained {t t' : Tape} {total : ℕ} {uuid : Uuid} {d : Buf} {p : Place}
    {es : List Entry} {heads : List (List JEntry)} (h : Appends total uuid t heads t')
    (htotal : total ≤ extentCountMax) (hp : p.Valid) (ht : t.Chained total uuid.seed d p es) :
    t'.Chained total uuid.seed d p (es ++ heads.flatten.map (·.entry.stored)) := by
  induction h generalizing es with
  | nil t => simpa using ht
  | finish hs h _ ih => exact ih ht
  | @write t t' head rest heads s s' c req fl hs h _ ih =>
      have hlt : ∀ b ∈ s.free, b < 256 ^ 4 := fun b hb =>
        (hs.free b hb).1.trans_le (htotal.trans (by decide))
      obtain ⟨taken, size, next, hw⟩ := written_of_writerEncode hlt (by simp) h
      have := ih (ht.write hp hs hw)
      rw [List.append_assoc, ← List.map_append, List.flatten_cons, ← List.append_assoc, ← hw.head] at this
      rw [List.flatten_cons]
      exact this

theorem Place.valid_zero (id seq : ℕ) : Place.Valid ⟨id, 0, seq⟩ :=
  ⟨show 0 < extentSize by decide, Nat.zero_mod _⟩

/-! ### What the loader makes of it -/

/-- A record with a valid checksum and the sequence number that is due. -/
def HasRecord (d : Buf) (seed : UInt32) (p : Place) : Prop :=
  sizeOk d p.addr p.extentOff ∧ crcOk d p.addr seed ∧ (decodeHeader d p.addr).seq = p.seq

theorem scanAt_of_not_hasRecord {d : Buf} {seed : UInt32} {p : Place} (h : ¬ HasRecord d seed p) :
    scanAt d seed p = .stop := by
  simp only [scanAt, scanRecord]
  by_cases h₁ : sizeOk d p.addr p.extentOff
  · by_cases h₂ : crcOk d p.addr seed
    · rw [if_neg (not_not.2 h₁), if_neg (not_not.2 h₂), if_pos fun h₃ => h ⟨h₁, h₂, h₃⟩]
    · rw [if_neg (not_not.2 h₁), if_pos h₂]
  · rw [if_pos h₁]

/-- No record has a size of 0. -/
theorem not_hasRecord_of_size {d : Buf} {seed : UInt32} {p : Place}
    (h : (decodeHeader d p.addr).size = 0) : ¬ HasRecord d seed p := fun hr => by
  have hok := hr.1.1
  rw [h] at hok
  exact absurd hok (by decide)

/-- Behind the cursor the disk is as before, so a scan finds there what it found before. -/
theorem Tape.Chained.scanAt_cursor {t : Tape} {total : ℕ} {seed : UInt32} {d : Buf} {p : Place}
    {es : List Entry} (h : t.Chained total seed d p es) (hp : p.Valid) :
    scanAt t.disk seed t.cursor.place = scanAt d seed t.cursor.place := by
  obtain ⟨js, -, htrace⟩ := h.trace
  have hv := htrace.valid hp
  have haddr := hv.addr_eq
  have hlt := hv.1
  refine scanRecord_congr (n := extentSize - t.cursor.extentOff) (fun a ha => ?_) ?_ ?_ _ _
  · refine h.behind _ ⟨?_, ?_⟩ (Nat.le_add_right _ _)
    · simp only [Cursor.place] at *
      omega
    · simp only [Cursor.place] at *
      omega
  · have hmod := hv.2
    simp only [Cursor.place, extentSize, journalBlockSize, journalHeaderSize] at *
    omega
  · intro hs
    have := hs.2.2
    simp only [Cursor.place] at *
    omega

/-- The loader on a chain whose end is reached: it hands exactly the entries of the chain to
the parser, and the extents of the chain at its end. -/
theorem Tape.Chained.loads {t : Tape} {total : ℕ} {header : SuperHeader} {d : Buf}
    {es : List Entry} {X Y : Super}
    (h : t.Chained total header.uuid.seed d ⟨header.journalId, 0, header.journalSeq⟩ es)
    (htotal : total ≤ extentCountMax) (hstop : scanAt t.disk header.uuid.seed t.cursor.place = .stop)
    (hX : X.totalExtents = total)
    (hcur : X.cursor.place = ⟨header.journalId, 0, header.journalSeq⟩)
    (happ : applyEntries true X (es ++ t.chain.map .next) = (Y, true)) :
    ∃ c : Cursor, c.place = t.cursor.place ∧
      Loads t.disk (.readPage ⟨header, none, [header.journalId]⟩ X)
        (.finish ⟨header, none, t.chain⟩ { Y with cursor := c }) := by
  obtain ⟨js, hchain, htrace⟩ := h.trace
  have hp : Place.Valid ⟨header.journalId, 0, header.journalSeq⟩ := Place.valid_zero _ _
  rw [applyEntries_append] at happ
  obtain ⟨Y₁, happ₁⟩ : ∃ Y₁, applyEntries true X es = (Y₁, true) := by
    generalize applyEntries true X es = r at happ
    obtain ⟨Y₁, ok⟩ := r
    cases ok with
    | false => cases happ
    | true => exact ⟨Y₁, rfl⟩
  rw [happ₁] at happ
  replace happ : applyEntries true Y₁ (t.chain.map .next) = (Y, true) := happ
  have hadm : Loader.Admits ⟨header, none, [header.journalId]⟩ X.totalExtents js := by
    have hnodup := h.nodup
    rw [hchain] at hnodup
    refine ⟨hnodup, fun b hb => ?_⟩
    have hlt := h.lt b (hchain ▸ List.mem_cons_of_mem _ hb)
    refine ⟨hX ▸ hlt, ?_, by simp⟩
    simp only [extentCountMax, extentIdInvalid] at *
    omega
  obtain ⟨c, hc, -, -, hload⟩ := Loader.loads htrace hp hstop rfl rfl hcur hadm happ₁
  refine ⟨c, hc, ?_⟩
  have hend : Loader.end ⟨header, none, t.chain⟩ { Y₁ with cursor := c } true =
      .finish ⟨header, none, t.chain⟩ { Y with cursor := c } := by
    simp only [Loader.end, applyEntries_cursor, happ]
  rw [← hend, hchain]
  exact hload

/-! ### The writer comes to its end -/

/-- Behind a call the super still serves the writer. -/
theorem Tape.Serves.write {t : Tape} {total : ℕ} {uuid : Uuid} {s s' : Super} {c : Cursor}
    {head rest taken : List JEntry} {req : WriteReq} {size : ℕ} {next : Option ℕ} {d : Buf}
    (hs : t.Serves total uuid s)
    (h : Written s t.cursor head none s' c req rest taken size next) :
    Tape.Serves ⟨c, d, t.chain ++ s.added s'⟩ total uuid s' ∧ s'.error = s.error ∧
      s.free.card ≤ s'.free.card + 1 := by
  have hadd := (h.added_eq hs).1
  rw [hadd]
  rcases h.super with ⟨rfl, rfl⟩ | ⟨b, -, hb, -⟩ | ⟨b, rfl, hb, rfl⟩
  · exact ⟨⟨hs.uuid, by simpa using hs.chain, hs.free⟩, rfl, by omega⟩
  · cases hb
  · refine ⟨⟨hs.uuid, fun e he => ?_, fun e he => ?_⟩, rfl, ?_⟩
    · rcases List.mem_append.1 he with he | he
      · exact Finset.mem_insert_of_mem (hs.chain e he)
      · obtain rfl : e = b := by simpa using he
        exact Finset.mem_insert_self _ _
    · obtain ⟨hne, he⟩ := Finset.mem_erase.1 he
      obtain ⟨hlt, hnot⟩ := hs.free e he
      exact ⟨hlt, fun hm => (Finset.mem_insert.1 hm).elim hne hnot⟩
    · change s.free.card ≤ (s.free.erase b).card + 1
      rw [Finset.card_erase_of_mem hb]
      omega

theorem Super.findNearlyExtent_ne_none {s : Super} (h : 0 < s.free.card) :
    s.findNearlyExtent 0 ≠ none := by
  have hleast : least s.free ≠ none := fun hn => by simp [least_eq_none.1 hn] at h
  rw [findNearlyExtent, if_pos (Nat.zero_le _)]
  simpa using hleast

/-- **With enough free extents and sequence numbers the writer comes to its end**: an extent
for each entry is enough. -/
theorem exists_appends {total : ℕ} {uuid : Uuid} (htotal : total ≤ extentCountMax)
    (heads : List (List JEntry)) :
    ∀ (t : Tape) (s : Super), t.Serves total uuid s → s.error = false → t.cursor.place.Valid →
      (∀ j ∈ heads.flatten, j.entry.Regular) → t.cursor.seq + heads.flatten.length ≤ u64Max →
      heads.flatten.length ≤ s.free.card → ∃ t', Appends total uuid t heads t' := by
  induction heads with
  | nil => exact fun t _ _ _ _ _ _ _ => ⟨t, .nil t⟩
  | cons head heads ih =>
      -- one batch, by the number of its entries
      induction hn : head.length using Nat.strong_induction_on generalizing head with
      | _ n ihn =>
          intro t s hs herr hv hreg hseq hfree
          by_cases hnil : head = []
          · subst hnil
            obtain ⟨t', ht⟩ := ih t s hs herr hv hreg hseq hfree
            exact ⟨t', .finish hs (by simp [writerEncode, herr]) ht⟩
          have hpos := List.length_pos_iff.2 hnil
          rw [List.flatten_cons, List.length_append] at hseq hfree
          have hreg' : ∀ j ∈ head, j.entry.Regular := fun j hj =>
            hreg j (List.mem_append_left _ hj)
          obtain ⟨s', c, req, fl, rest, hw⟩ := exists_write none hv hnil hreg' herr (by omega)
            (Super.findNearlyExtent_ne_none (by omega))
          obtain ⟨taken, size, next, hwr⟩ := written_of_writerEncode
            (fun b hb => (hs.free b hb).1.trans_le (htotal.trans (by decide))) (by simp) hw
          obtain ⟨hs', herr', hcard⟩ := hs.write (d := t.disk.patch req.off req.len req.data) hwr
          have hlen := congrArg List.length hwr.head
          have htaken := List.length_pos_iff.2 hwr.nonempty
          rw [List.length_append] at hlen
          have hseq' : c.seq = t.cursor.seq + taken.length := by
            have := congrArg Place.seq hwr.place
            cases next <;> exact this
          have hv' : c.place.Valid := by
            rw [hwr.place, ← List.length_map (f := fun j : JEntry => j.entry.stored)]
            exact (scanned_of_scanAt (hwr.emitted.scan_patch t.disk)).valid_behind hv
          have hreg'' : ∀ j ∈ (rest :: heads).flatten, j.entry.Regular := by
            intro j hj
            rw [List.flatten_cons, hwr.head] at hreg
            rw [List.flatten_cons] at hj
            refine hreg j ?_
            rw [List.append_assoc]
            exact List.mem_append_right _ hj
          obtain ⟨t', ht⟩ := ihn rest.length (by omega) rest rfl _ s' hs' (herr'.trans herr) hv'
            hreg'' (by simp only [List.flatten_cons, List.length_append]; omega)
            (by simp only [List.flatten_cons, List.length_append]; omega)
          exact ⟨t', .write hs hw ht⟩

/-- **The writer and the loader agree on the whole format.**  A chain leads from the super
header to the cursor of the writer, over the entries `es` and the extents `js`, and the
writer appends the batches `heads`.

If the disk that it started from has no record with a valid checksum and the right sequence
number where the writer ends, then the loader hands exactly `es` and the appended entries to
the parser, visits the extents of the chain and then those that the writer has added, and
stops at the cursor of the writer.  With an extent for each entry and enough sequence numbers
the writer does come to an end. -/
theorem writer_loader_agree {total : ℕ} (header : SuperHeader) {d : Buf} {c : Cursor}
    {es : List Entry} {js : List ℕ} {heads : List (List JEntry)} (htotal : total ≤ extentCountMax)
    (hchain : Trace d header.uuid.seed ⟨header.journalId, 0, header.journalSeq⟩ es js c.place)
    (hnodup : (header.journalId :: js).Nodup) (hlt : ∀ b ∈ header.journalId :: js, b < total)
    (hreg : ∀ j ∈ heads.flatten, j.entry.Regular) (hfits : ∀ j ∈ heads.flatten, j.entry.Fits) :
    (∀ t, Appends total header.uuid ⟨c, d, header.journalId :: js⟩ heads t →
      ¬ HasRecord d header.uuid.seed t.cursor.place →
      ∀ X Y, X.totalExtents = total →
        X.cursor.place = ⟨header.journalId, 0, header.journalSeq⟩ →
        applyEntries true X (es ++ heads.flatten.map (·.entry) ++ t.chain.map .next) = (Y, true) →
        ∃ c' : Cursor, c'.place = t.cursor.place ∧
          Loads t.disk (.readPage ⟨header, none, [header.journalId]⟩ X)
            (.finish ⟨header, none, t.chain⟩ { Y with cursor := c' })) ∧
    ∀ s, Tape.Serves ⟨c, d, header.journalId :: js⟩ total header.uuid s → s.error = false →
      c.seq + heads.flatten.length ≤ u64Max → heads.flatten.length ≤ s.free.card →
      ∃ t, Appends total header.uuid ⟨c, d, header.journalId :: js⟩ heads t := by
  have hp := Place.valid_zero header.journalId header.journalSeq
  have hstart : Tape.Chained ⟨c, d, header.journalId :: js⟩ total header.uuid.seed d
      ⟨header.journalId, 0, header.journalSeq⟩ es :=
    ⟨⟨js, rfl, hchain⟩, hnodup, hlt, fun _ _ => rfl, fun _ _ _ => rfl⟩
  constructor
  · intro t h hother X Y hX hcur happ
    have ht := h.chained htotal hp hstart
    have hmap : heads.flatten.map (·.entry.stored) = heads.flatten.map (·.entry) :=
      List.map_congr_left fun j hj => Entry.stored_of_fits (hfits j hj)
    rw [hmap] at ht
    have hstop := (ht.scanAt_cursor hp).trans (scanAt_of_not_hasRecord hother)
    exact ht.loads htotal hstop hX hcur happ
  · intro s hs herr hseq hfree
    exact exists_appends htotal heads _ s hs herr (hchain.valid hp) hreg hseq hfree

/-- A batch that fits into a block. -/
theorem exists_appends_block {total : ℕ} {uuid : Uuid} {t : Tape} {head : List JEntry} {s : Super}
    (hs : t.Serves total uuid s) (herr : s.error = false) (hv : t.cursor.place.Valid)
    (hroom : t.cursor.extentOff + journalBlockSize < extentSize) (hne : head ≠ [])
    (hreg : ∀ j ∈ head, j.entry.Regular)
    (hsize : journalHeaderSize + entriesSize head + journalTailSize ≤ journalBlockSize)
    (hseq : t.cursor.seq + head.length ≤ u64Max) :
    ∃ c g, c.place = ⟨t.cursor.extentId, t.cursor.extentOff + journalBlockSize,
        t.cursor.seq + head.length⟩ ∧
      ∀ heads t', Appends total uuid ⟨c, g, t.chain⟩ heads t' →
        Appends total uuid t (head :: heads) t' := by
  have hw := writerEncode_block none herr hv hroom hne hreg hsize hseq
  obtain ⟨c, req, fl, hemit, hplace⟩ : ∃ c req fl,
      emitRecord s t.cursor head [] journalBlockSize none = .write s c req fl [] ∧
      c.place = ⟨t.cursor.extentId, t.cursor.extentOff + journalBlockSize,
        t.cursor.seq + (head.map (·.entry)).length⟩ := ⟨_, _, _, rfl, rfl⟩
  rw [hemit] at hw
  rw [List.length_map] at hplace
  refine ⟨c, t.disk.patch req.off req.len req.data, hplace, fun heads t' ht => .write hs hw ?_⟩
  rw [s.added_self, List.append_nil]
  exact .finish ⟨hs.uuid, hs.chain, hs.free⟩ (by rw [writerEncode, if_neg (by simp [herr]), if_pos rfl]) ht

/-- A record that links to the second extent of its journal, and two batches that are written
there. -/
theorem writer_loader_agree_linked :
    let u : Uuid := ⟨List.replicate 16 7, rfl⟩
    let X : Super := Super.opened 16 false false u fun _ => 0
    let c : Cursor := ⟨fun _ => 0, 0, 1, 0, 0, 1⟩
    let d := recordDisk u [.create 1 (markerCandidate 0)] (some 1)
    let heads : List (List JEntry) := [[⟨.create 2 (markerCandidate 1), false⟩],
      [⟨.truncate 2 4096, false⟩, ⟨.create 3 (markerCandidate 2), false⟩]]
    ∃ (t : Tape) (Y : Super) (c' : Cursor), Appends 16 u ⟨c, d, [0, 1]⟩ heads t ∧ t.chain = [0, 1] ∧
      Loads t.disk (.readPage ⟨mkfsHeader u 1, none, [0]⟩ X)
        (.finish ⟨mkfsHeader u 1, none, [0, 1]⟩ { Y with cursor := c' }) ∧
      c'.place = ⟨1, 1024, 4⟩ := by
  intro u X c d heads
  have hr : RecordOk 0 [.create 1 (markerCandidate 0)] (some 1) journalBlockSize := by
    have hused : usedSize (linked [.create 1 (markerCandidate 0)] (some 1)) = 157 := by
      simp only [usedSize, linked, Option.toList_some, List.map_cons, List.map_nil, List.cons_append,
        List.nil_append, List.flatMap_cons, List.flatMap_nil, List.length_append, Entry.length_encode]
      rfl
    refine ⟨by simp, by simp [Entry.Regular, Entry.type], by simp [linked, Entry.Fits], rfl, ?_, ?_,
      by decide, by decide⟩
    · rw [hused]; decide
    · rw [hused]; decide
  have hchain : Trace d u.seed ⟨0, 0, 0⟩ ([.create 1 (markerCandidate 0)] ++ []) [1] c.place :=
    .step (scanAt_recordDisk hr) (.refl _)
  rw [List.append_nil] at hchain
  let s : Super := (X.takeJournal 0).takeJournal 1
  have hs : ∀ c g, Tape.Serves ⟨c, g, [0, 1]⟩ 16 u s := fun c g =>
    ⟨rfl, by simp [s, Super.takeJournal], by decide⟩
  let a : List JEntry := [⟨.create 2 (markerCandidate 1), false⟩]
  let b : List JEntry := [⟨.truncate 2 4096, false⟩, ⟨.create 3 (markerCandidate 2), false⟩]
  have ha : entriesSize a = 137 := rfl
  have hb : entriesSize b = 154 := rfl
  obtain ⟨c₁, g₁, hc₁, happ₁⟩ : ∃ c₁ g₁, _ ∧ _ := exists_appends_block (hs c d) rfl
    (Place.valid_zero 1 1) (by decide) (show a ≠ [] by simp [a])
    (by simp [a, Entry.Regular, Entry.type]) (by rw [ha]; decide) (by simp [a, c, u64Max])
  have hv₁ : c₁.place.Valid := by
    rw [hc₁]
    exact ⟨by simp only [c, journalBlockSize, extentSize]; omega, by simp only [c]; rfl⟩
  obtain ⟨c₂, g₂, hc₂, happ₂⟩ : ∃ c₂ g₂, _ ∧ _ := exists_appends_block (hs c₁ g₁) rfl hv₁
    (by rw [show c₁.extentOff = 512 from congrArg Place.extentOff hc₁]; decide)
    (show b ≠ [] by simp [b]) (by simp [b, Entry.Regular, Entry.type]) (by rw [hb]; decide)
    (by rw [show c₁.seq = 2 from congrArg Place.seq hc₁]; simp [b, u64Max])
  let t : Tape := ⟨c₂, g₂, [0, 1]⟩
  have happends : Appends 16 u ⟨c, d, [0, 1]⟩ heads t := happ₁ _ t (happ₂ _ t (.nil t))
  have hplace : t.cursor.place = ⟨1, 1024, 4⟩ := by
    rw [show t.cursor.place = _ from hc₂, show c₁.extentId = 1 from congrArg Place.extentId hc₁,
      show c₁.extentOff = 512 from congrArg Place.extentOff hc₁,
      show c₁.seq = 2 from congrArg Place.seq hc₁]
    rfl
  have hnone : ¬ HasRecord d u.seed t.cursor.place := by
    rw [hplace]
    exact not_hasRecord_of_size (size_decodeHeader_of_zero (recordDisk_zero _ _ _ (by decide)))
  obtain ⟨Y, happ⟩ : ∃ Y, applyEntries true X ([.create 1 (markerCandidate 0)] ++
      heads.flatten.map (·.entry) ++ [0, 1].map .next) = (Y, true) :=
    ⟨(applyEntries true X ([.create 1 (markerCandidate 0)] ++
      heads.flatten.map (·.entry) ++ [0, 1].map .next)).1, Prod.ext rfl (by decide +kernel)⟩
  obtain ⟨c', hc', hload⟩ := (writer_loader_agree (mkfsHeader u 1) (by decide) hchain
    (by simp [mkfsHeader]) (by simp [mkfsHeader]) (by decide)
    (by simp [heads, Entry.Fits])).1 t happends hnone X Y rfl rfl happ
  exact ⟨t, Y, c', happends, rfl, hload, hc'.trans hplace⟩

end Cyanfs
