/-
# The chain of records

`Trace d seed p es js q` says that a scan of the disk `d` gets from the place `p`
to the place `q` over intact records with the entries `es` and with links to the
extents `js`.  It is what `cyanfs_journal_loader_parser_page` does when pages are
left out of the picture: `Loader.reaches` shows that the loop over pages of
64 KiB, which re-reads a page whenever a record does not lie wholly in it, passes
over exactly these records.

A trace depends on the bytes before its end only (`Trace.congr`), and a record
written at its end prolongs it (`Trace.concat`).
-/

import Cyanfs.Core.Frame
import Cyanfs.Journal.Record

namespace Cyanfs

open Lib Std

/-! ### The parser does not look at the cursor -/

namespace Super

variable {s s' : Super} (c : Cursor)

theorem unmapExtent_cursor (s : Super) (id i : ℕ) :
    Super.unmapExtent { s with cursor := c } id i = { s.unmapExtent id i with cursor := c } := by
  unfold unmapExtent
  cases s.filesById[id]? with
  | none => rfl
  | some f =>
      simp only
      cases f.extents[i]? with
      | none => rfl
      | some e =>
          obtain ⟨b, _ | _, err⟩ := e <;> simp only [bugOn, setFile] <;> split <;> rfl

theorem truncateFile_cursor (s : Super) (f : File) (size : ℕ) :
    Super.truncateFile { s with cursor := c } f size = { s.truncateFile f size with cursor := c } := by
  have hfold : ∀ (ks : List ℕ) (s : Super),
      ks.foldl (fun s i => s.unmapExtent f.id i) { s with cursor := c } =
        { ks.foldl (fun s i => s.unmapExtent f.id i) s with cursor := c } := by
    intro ks
    induction ks with
    | nil => exact fun _ => rfl
    | cons k ks ih =>
        intro s
        rw [List.foldl_cons, unmapExtent_cursor, ih, List.foldl_cons]
  rw [truncateFile, hfold, truncateFile, updFile, updFile]
  simp only
  split <;> rfl

theorem deleteFile_cursor (s : Super) (f : File) :
    Super.deleteFile { s with cursor := c } f = { s.deleteFile f with cursor := c } := by
  unfold deleteFile
  rw [truncateFile_cursor]
  cases f.parent with
  | none => rfl
  | some p =>
      simp only [updFile]
      split <;> rfl

theorem initFile_cursor {name : FileName} {id : ℕ} {parent : Option File}
    (h : s.initFile name id parent = .ok s') :
    Super.initFile { s with cursor := c } name id parent = .ok { s' with cursor := c } := by
  obtain ⟨h₁, h₂, rfl⟩ := initFile_eq_ok.1 h
  refine initFile_eq_ok.2 ⟨h₁, h₂, ?_⟩
  cases parent <;> rfl

theorem Replayed.cursor {e : Entry} (h : s.Replayed e s') :
    Super.Replayed { s with cursor := c } e { s' with cursor := c } := by
  cases h with
  | create hn h0 hlimit hlookup hi => exact .create hn h0 hlimit hlookup (initFile_cursor c hi)
  | fork hn h0 hlt hlimit hlookup hp hi =>
      exact .fork hn h0 hlt hlimit hlookup hp (initFile_cursor c hi)
  | truncate hs hf hc =>
      rw [← truncateFile_cursor]
      exact .truncate hs hf hc
  | delete hf hc =>
      rw [← deleteFile_cursor]
      exact .delete hf hc
  | bind hf hi hsize hb hfree hnone =>
      have := Replayed.bind (s := { s with cursor := c }) hf hi hsize hb hfree hnone
      rw [superToFile_eq hnone] at this ⊢
      exact this
  | unbind hf hi hsize he =>
      rw [← unmapExtent_cursor]
      exact .unbind hf hi hsize he
  | rename hn hf hlookup => exact .rename hn hf hlookup
  | next hb hfree => exact .next hb hfree

theorem replay_cursor {e : Entry} (h : s.replay e = .ok s') :
    Super.replay { s with cursor := c } e = .ok { s' with cursor := c } :=
  replay_eq_ok.2 ((replay_eq_ok.1 h).cursor c)

theorem cursor_of_replay {e : Entry} (h : s.replay e = .ok s') : s'.cursor = s.cursor := by
  obtain ⟨_, _, _, _, _, _, _, _, _, _, _, hs⟩ := (replay_eq_ok.1 h).shape
  rw [hs]

end Super

/-- What the parser makes of a list of entries does not depend on the cursor. -/
theorem applyEntries_cursor (X : Super) (c : Cursor) (es : List Entry) :
    applyEntries true { X with cursor := c } es =
      ({ (applyEntries true X es).1 with cursor := c }, (applyEntries true X es).2) := by
  induction es generalizing X with
  | nil => rfl
  | cons e es ih =>
      rw [applyEntries, applyEntries]
      cases h : X.replayWith true e with
      | ok X' =>
          have h' : Super.replayWith { X with cursor := c } true e = _ := Super.replay_cursor c h
          rw [h']
          exact ih X'
      | error err =>
          cases h' : Super.replayWith { X with cursor := c } true e with
          | error err' => rfl
          | ok X' =>
              have : Super.replay { { X with cursor := c } with cursor := X.cursor } e = _ :=
                Super.replay_cursor X.cursor h'
              exact absurd (h.symm.trans this) (by simp)

theorem cursor_applyEntries (X : Super) (es : List Entry) :
    (applyEntries true X es).1.cursor = X.cursor :=
  Loader.applyEntries_rule (P := fun Y => Y.cursor = X.cursor)
    (fun _ _ _ hr h => (Super.cursor_of_replay hr).trans h) true rfl es

theorem totalExtents_applyEntries (X : Super) (es : List Entry) :
    (applyEntries true X es).1.totalExtents = X.totalExtents :=
  Loader.applyEntries_rule (P := fun Y => Y.totalExtents = X.totalExtents)
    (fun _ _ _ hr h => (Super.replay_eq_ok.1 hr).totalExtents.trans h) true rfl es

theorem applyEntries_append (X : Super) (es fs : List Entry) :
    applyEntries true X (es ++ fs) = match applyEntries true X es with
      | (Y, true) => applyEntries true Y fs
      | (Y, false) => (Y, false) := by
  induction es generalizing X with
  | nil => rfl
  | cons e es ih =>
      rw [List.cons_append, applyEntries, applyEntries]
      cases X.replayWith true e with
      | ok X' => exact ih X'
      | error err => rfl

/-! ### Traces -/

/-- A place in the journal and the sequence number that is due there. -/
@[ext] structure Place where
  extentId : ℕ
  extentOff : ℕ
  seq : ℕ

/-- The place of a cursor. -/
def Cursor.place (c : Cursor) : Place := ⟨c.extentId, c.extentOff, c.seq⟩

namespace Place

/-- The address on the disk. -/
def addr (p : Place) : ℕ := mapExtentOffset p.extentId p.extentOff

/-- Where a record may begin. -/
def Valid (p : Place) : Prop := p.extentOff < extentSize ∧ p.extentOff % journalBlockSize = 0

/-- The place behind a record. -/
def behind (p : Place) (size count : ℕ) : Option ℕ → Place
  | none => ⟨p.extentId, p.extentOff + size, p.seq + count⟩
  | some b => ⟨b, 0, p.seq + count⟩

theorem Valid.addr_eq {p : Place} (h : p.Valid) :
    p.addr = superBlockSize + p.extentId * extentSize + p.extentOff := by
  rw [addr, mapExtentOffset, extentBegin, Nat.mod_eq_of_lt h.1]

end Place

/-- The scan at a place. -/
def scanAt (d : Buf) (seed : UInt32) (p : Place) : Scan :=
  scanRecord d p.addr seed p.extentOff p.seq

theorem regular_of_validateRecord {g : Buf} {p stop count : ℕ} {es : List Entry} {next : Option ℕ}
    (h : validateRecord g p stop count = some (es, next)) : ∀ e ∈ es, e.Regular := by
  unfold validateRecord at h
  split_ifs at h
  split at h
  · cases h
  · split_ifs at h
    obtain ⟨rfl, -⟩ := Prod.mk.inj (Option.some.inj h)
    intro e he
    simpa using (List.mem_filter.1 he).2

/-- What is known about a record that was scanned. -/
structure Scanned (d : Buf) (p : Place) (n : ℕ) (es : List Entry) (next : Option ℕ) : Prop where
  ok : sizeOk d p.addr p.extentOff
  size_eq : (decodeHeader d p.addr).size = n
  pos : journalBlockSize ≤ n
  block : n % journalBlockSize = 0
  page : n ≤ journalPageSize
  extent : p.extentOff + n ≤ extentSize
  inside : next = none → p.extentOff + n < extentSize
  regular : ∀ e ∈ es, e.Regular
  seq : p.seq ≤ u64Max → p.seq + es.length ≤ u64Max

theorem scanned_of_scanAt {d : Buf} {seed : UInt32} {p : Place} {size : ℕ} {es : List Entry}
    {next : Option ℕ} (h : scanAt d seed p = .record size es next) : Scanned d p size es next := by
  simp only [scanAt, scanRecord] at h
  split_ifs at h with hs hc hq
  split at h
  · cases h
  · rename_i es' next' hval
    split_ifs at h with hn hu
    obtain ⟨rfl, rfl, rfl⟩ := Scan.record.inj h
    have hblock : (decodeHeader d p.addr).size % journalBlockSize = 0 := Nat.mul_mod_left _ _
    obtain ⟨h₁, h₂, h₃⟩ := hs
    refine ⟨⟨h₁, h₂, h₃⟩, rfl, ?_, hblock, h₂, h₃, fun hnone => ?_, regular_of_validateRecord hval,
      fun hle => ?_⟩
    · simp only [journalHeaderSize, journalBlockSize] at *
      omega
    · have : ¬ (decodeHeader d p.addr).size = extentSize - p.extentOff := fun he => hn ⟨hnone, he⟩
      omega
    · omega

theorem Scanned.valid_behind {d : Buf} {p : Place} {size : ℕ} {es : List Entry} {next : Option ℕ}
    (h : Scanned d p size es next) (hp : p.Valid) : (p.behind size es.length next).Valid := by
  cases next with
  | some b => exact ⟨by simp [Place.behind], by simp [Place.behind]⟩
  | none =>
      refine ⟨h.inside rfl, ?_⟩
      have h₁ := h.block
      have h₂ := hp.2
      simp only [Place.behind, journalBlockSize] at *
      omega

/-- From `p` to `q` over records with the entries `es` and links to `js`. -/
inductive Trace (d : Buf) (seed : UInt32) : Place → List Entry → List ℕ → Place → Prop
  | refl (p : Place) : Trace d seed p [] [] p
  | step {p q : Place} {size : ℕ} {es es' : List Entry} {next : Option ℕ} {js : List ℕ}
      (h : scanAt d seed p = .record size es next)
      (ht : Trace d seed (p.behind size es.length next) es' js q) :
      Trace d seed p (es ++ es') (next.toList ++ js) q

namespace Trace

variable {d d' : Buf} {seed : UInt32} {p q r : Place} {es es' : List Entry} {js js' : List ℕ}

theorem trans (h : Trace d seed p es js q) (h' : Trace d seed q es' js' r) :
    Trace d seed p (es ++ es') (js ++ js') r := by
  induction h with
  | refl p => exact h'
  | step hs _ ih =>
      rw [List.append_assoc, List.append_assoc]
      exact .step hs (ih h')

theorem valid (h : Trace d seed p es js q) (hp : p.Valid) : q.Valid := by
  induction h with
  | refl p => exact hp
  | step hs _ ih => exact ih ((scanned_of_scanAt hs).valid_behind hp)

theorem seq (h : Trace d seed p es js q) : q.seq = p.seq + es.length := by
  induction h with
  | refl p => rfl
  | @step p q size es es' next js hs _ ih =>
      rw [ih, List.length_append]
      cases next <;> simp only [Place.behind] <;> omega

theorem regular (h : Trace d seed p es js q) : ∀ e ∈ es, e.Regular := by
  induction h with
  | refl p => simp
  | step hs _ ih =>
      intro e he
      rcases List.mem_append.1 he with he | he
      · exact (scanned_of_scanAt hs).regular e he
      · exact ih e he

theorem getLast? (h : Trace d seed p es js q) : (p.extentId :: js).getLast? = some q.extentId := by
  induction h with
  | refl p => rfl
  | @step p q size es es' next js hs _ ih =>
      cases next with
      | none => exact ih
      | some b =>
          rw [Option.toList_some, List.singleton_append, List.getLast?_cons_cons]
          exact ih

/-- A trace that stays in its extent moves forward. -/
theorem same_extent (h : Trace d seed p es [] q) :
    q.extentId = p.extentId ∧ p.extentOff ≤ q.extentOff := by
  generalize hjs : ([] : List ℕ) = js at h
  induction h with
  | refl p => exact ⟨rfl, le_rfl⟩
  | @step p q size es es' next js hs _ ih =>
      cases next with
      | some b => simp at hjs
      | none =>
          obtain ⟨h₁, h₂⟩ := ih (by simpa using hjs)
          simp only [Place.behind] at h₁ h₂
          exact ⟨h₁, by omega⟩

end Trace

/-- The address lies in the extent. -/
def InExtent (e a : ℕ) : Prop := superBlockSize + e * extentSize ≤ a ∧
  a < superBlockSize + e * extentSize + extentSize

theorem InExtent.unique {e e' a : ℕ} (h : InExtent e a) (h' : InExtent e' a) : e = e' := by
  simp only [InExtent, extentSize] at h h'
  omega

/-- The bytes that a trace over the extents `es` to the place `q` depends on. -/
def Footprint (es : List ℕ) (q : Place) (a : ℕ) : Prop :=
  (∃ e ∈ es.dropLast, InExtent e a) ∨ (InExtent q.extentId a ∧ a < q.addr)

/-- **A trace depends on the bytes before its end.** -/
theorem Trace.congr {d d' : Buf} {seed : UInt32} {p q : Place} {es : List Entry} {js : List ℕ}
    (h : Trace d seed p es js q) (hp : p.Valid)
    (hd : ∀ a, Footprint (p.extentId :: js) q a → d' a = d a) : Trace d' seed p es js q := by
  induction h with
  | refl p => exact .refl p
  | @step p q size es es' next js hs ht ih =>
      have hsc := scanned_of_scanAt hs
      have hv := hsc.valid_behind hp
      -- the record lies in the footprint
      have hrec : ∀ a < size, d (p.addr + a) = d' (p.addr + a) := by
        intro a ha
        refine (hd _ ?_).symm
        have hin : InExtent p.extentId (p.addr + a) := by
          have := hsc.extent
          rw [hp.addr_eq]
          constructor <;> omega
        by_cases hj : next.toList ++ js = []
        · right
          obtain ⟨hn, rfl⟩ := List.append_eq_nil_iff.1 hj
          obtain rfl : next = none := by simpa using hn
          obtain ⟨h₁, h₂⟩ := ht.same_extent
          have hq := (ht.valid hv).addr_eq
          simp only [Place.behind] at h₁ h₂
          rw [h₁] at hq ⊢
          refine ⟨hin, ?_⟩
          rw [hq, hp.addr_eq]
          omega
        · left
          refine ⟨p.extentId, ?_, hin⟩
          rw [List.dropLast_cons_of_ne_nil hj]
          exact List.mem_cons_self
      have hcongr : scanAt d' seed p = scanAt d seed p := by
        refine (scanRecord_congr hrec ?_ (fun _ => hsc.size_eq.le) _ _).symm
        have := hsc.pos
        simp only [journalBlockSize, journalHeaderSize] at *
        omega
      refine .step (hcongr.trans hs) (ih hv fun a ha => hd a ?_)
      rcases ha with ⟨e, he, ha⟩ | ha
      · left
        refine ⟨e, ?_, ha⟩
        cases next with
        | none => exact he
        | some b =>
            rw [Option.toList_some, List.singleton_append, List.dropLast_cons_of_ne_nil (by simp)]
            exact List.mem_cons_of_mem _ he
      · exact .inr ha

/-! ### The loop over pages -/

/-- The callbacks of the loader from one READ to its end. -/
inductive Loads (d : Buf) : LoaderOut → LoaderOut → Prop
  | finish (l : Loader) (X : Super) : Loads d (.finish l X) (.finish l X)
  | error (X : Super) : Loads d (.error X) (.error X)
  | page {l : Loader} {X : Super} {out : LoaderOut} (h : Loads d (l.parserPage X true d) out) :
      Loads d (.readPage l X) out

/-- The loop stands at offset `off` of a page of `len` bytes, at the place of the
cursor, and `n` rounds are enough for the rest of the page. -/
structure InPage (d : Buf) (X : Super) (n off len : ℕ) : Prop where
  valid : X.cursor.place.Valid
  le : off ≤ X.cursor.extentOff
  len_eq : len = pageLen (X.cursor.extentOff - off)
  lt : off < len
  block : off % journalBlockSize = 0
  fuel : len - off < n * journalBlockSize
  page : ∀ a < len, X.cursor.page a =
    d (mapExtentOffset X.cursor.extentId (X.cursor.extentOff - off) + a)

namespace InPage

variable {d : Buf} {X : Super} {n off len : ℕ}

theorem addr_eq (h : InPage d X n off len) (a : ℕ) :
    X.cursor.page (off + a) = d (X.cursor.place.addr + a) ∨ len ≤ off + a := by
  by_cases ha : off + a < len
  · left
    have h₁ := h.valid.1
    have h₂ := h.le
    simp only [Cursor.place] at h₁
    rw [h.page _ ha, h.valid.addr_eq, mapExtentOffset, extentBegin, Nat.mod_eq_of_lt (by omega)]
    congr 1
    simp only [Cursor.place]
    omega
  · right
    omega

theorem agree (h : InPage d X n off len) :
    ∀ a < len - off, X.cursor.page (off + a) = d (X.cursor.place.addr + a) := by
  intro a ha
  rcases h.addr_eq a with h | h
  · exact h
  · omega

theorem header_le (h : InPage d X n off len) : journalHeaderSize ≤ len - off := by
  have h₁ := h.lt
  have h₂ := h.block
  have h₃ := h.len_eq
  have h₄ := h.valid.2
  have h₅ := h.le
  simp only [Cursor.place, pageLen, extentSize, journalPageSize, journalBlockSize,
    journalHeaderSize] at *
  omega

theorem exists_succ (h : InPage d X n off len) : ∃ k, n = k + 1 := by
  have h₁ := h.fuel
  have h₂ := h.lt
  refine ⟨n - 1, ?_⟩
  rcases Nat.eq_zero_or_pos n with rfl | hn <;> omega

theorem decodeHeader_eq (h : InPage d X n off len) :
    decodeHeader X.cursor.page off = decodeHeader d X.cursor.place.addr :=
  decodeHeader_congr h.agree h.header_le

theorem sizeOk_iff (h : InPage d X n off len) :
    sizeOk X.cursor.page off X.cursor.extentOff ↔ sizeOk d X.cursor.place.addr X.cursor.extentOff :=
  sizeOk_congr h.agree h.header_le _

/-- A record that lies in the page is scanned there. -/
theorem scan_eq (h : InPage d X n off len)
    (hfit : sizeOk d X.cursor.place.addr X.cursor.extentOff →
      (decodeHeader d X.cursor.place.addr).size ≤ len - off) (seed : UInt32) :
    scanRecord X.cursor.page off seed X.cursor.extentOff X.cursor.seq =
      scanAt d seed X.cursor.place := by
  refine scanRecord_congr h.agree h.header_le (fun hs => ?_) seed _
  rw [h.decodeHeader_eq]
  exact hfit (h.sizeOk_iff.1 hs)

/-- Behind a record that does not end the page. -/
theorem behind {Y : Super} {size k : ℕ} {es : List Entry} (h : InPage d X (n + 1) off len)
    (hs : Scanned d X.cursor.place size es none) (hfit : size ≤ len - off)
    (hend : off + size ≠ journalPageSize) :
    InPage d { Y with cursor := { X.cursor with
      extentOff := X.cursor.extentOff + size
      seq := k } } n (off + size) len := by
  have h₁ := h.valid
  have h₂ := h.le
  have h₃ := h.len_eq
  have h₄ := h.lt
  have h₅ := h.block
  have h₆ := h.fuel
  have h₇ := hs.inside rfl
  have h₈ := hs.block
  have h₉ := hs.pos
  have hsub : X.cursor.extentOff + size - (off + size) = X.cursor.extentOff - off := by omega
  refine ⟨hs.valid_behind h₁, ?_, ?_, ?_, ?_, ?_, ?_⟩
  · simp only
    omega
  · simp only [hsub]
    exact h₃
  · -- the record ends the page only when it ends the extent
    simp only [Cursor.place, pageLen, extentSize, journalPageSize] at *
    omega
  · simp only [journalBlockSize] at *
    omega
  · simp only [journalBlockSize] at *
    omega
  · simp only [hsub]
    exact h.page

/-- At the beginning of a page every record that may begin there fits. -/
theorem fits_of_zero (h : InPage d X n 0 len)
    (hs : sizeOk d X.cursor.place.addr X.cursor.extentOff) :
    (decodeHeader d X.cursor.place.addr).size ≤ len - 0 := by
  have h₁ := h.len_eq
  have h₂ := hs.2
  simp only [pageLen] at *
  omega

end InPage

@[simp] theorem Cursor.read_extentOff (c : Cursor) (d : Buf) (off len : ℕ) :
    (c.read d off len).extentOff = c.extentOff := rfl

@[simp] theorem Cursor.read_seq (c : Cursor) (d : Buf) (off len : ℕ) :
    (c.read d off len).seq = c.seq := rfl

/-- The page that is read at the cursor. -/
theorem inPage_read {X : Super} (d : Buf) (hv : X.cursor.place.Valid) :
    InPage d { X with
      cursor := X.cursor.read d (mapExtentOffset X.cursor.extentId X.cursor.extentOff)
        (pageLen X.cursor.extentOff) }
      (pageLen X.cursor.extentOff / journalBlockSize + 1) 0 (pageLen X.cursor.extentOff) := by
  refine ⟨hv, Nat.zero_le _, rfl, ?_, rfl, ?_, ?_⟩
  · have := hv.1
    simp only [Cursor.place, pageLen, journalPageSize] at *
    omega
  · simp only [journalBlockSize, Nat.sub_zero]
    omega
  · intro a ha
    simp only [Cursor.read]
    rw [Buf.patch_of_lt (by omega) (by simpa using ha)]
    simp

theorem parserPage_inPage (l : Loader) (m : Bool) {X : Super} (d : Buf) (hv : X.cursor.place.Valid) :
    ∃ c : Cursor, c.place = X.cursor.place ∧ c.extentIdFlush = X.cursor.extentIdFlush ∧
      c.extentIdOndisk = X.cursor.extentIdOndisk ∧
      ∃ n len, InPage d { X with cursor := c } n 0 len ∧
        l.parserPage X m d = l.parsePage m len n 0 { X with cursor := c } :=
  ⟨X.cursor.read d (mapExtentOffset X.cursor.extentId X.cursor.extentOff)
    (pageLen X.cursor.extentOff), rfl, rfl, rfl, _, _, inPage_read d hv, rfl⟩

section Loop

variable {d : Buf} {seed : UInt32} {l : Loader} {X Y : Super} {n off len size b : ℕ}
  {es : List Entry} {next : Option ℕ}

/-- One round of the loop, at a record that lies in the page. -/
theorem parsePage_of_fits {ok : Bool} (h : InPage d X (n + 1) off len)
    (hl : l.header.uuid.seed = seed) (hs : scanAt d seed X.cursor.place = .record size es next)
    (hfit : size ≤ len - off)
    (hprep : ∀ b ∈ next, some b ≠ l.endId → l.prepareExtent X true b)
    (happ : applyEntries true X es = (Y, ok)) :
    l.parsePage true len (n + 1) off X =
      match ok, next with
      | false, _ => .error Y
      | true, some b =>
          if some b = l.endId then
            l.stopped { Y with cursor := { X.cursor with seq := X.cursor.seq + es.length } } true true
          else l.commitExtent
            { Y with cursor := { X.cursor with seq := X.cursor.seq + es.length } } b
      | true, none =>
          if off + size = journalPageSize then
            .readPage l { Y with cursor := { X.cursor with
              seq := X.cursor.seq + es.length
              extentOff := X.cursor.extentOff + size } }
          else l.parsePage true len n (off + size) { Y with cursor := { X.cursor with
            seq := X.cursor.seq + es.length
            extentOff := X.cursor.extentOff + size } } := by
  have hsc := scanned_of_scanAt hs
  have hlt := h.lt
  have hhead := h.header_le
  have hscan := h.scan_eq (fun _ => hsc.size_eq.trans_le hfit) seed
  have hcur : Y.cursor = X.cursor := by
    rw [← cursor_applyEntries X es, happ]
  have hprep' : ¬ ∃ b ∈ next, ¬ (next ≠ none ∧ next = l.endId) ∧ ¬ l.prepareExtent X true b := by
    rintro ⟨b, hb, hne, hno⟩
    obtain rfl : next = some b := hb
    exact hno (hprep b rfl fun he => hne ⟨by simp, he⟩)
  rw [Loader.parsePage]
  simp only [hl, hscan, hs]
  rw [if_neg (by omega), if_neg (not_not.2 (h.sizeOk_iff.2 hsc.ok)),
    if_neg (by rw [h.decodeHeader_eq, hsc.size_eq]; omega), if_neg (by simpa using hprep')]
  split
  · rename_i Y' h'
    obtain ⟨rfl, rfl⟩ := Prod.mk.inj (happ.symm.trans h')
    cases next <;> rfl
  · rename_i Y' h'
    obtain ⟨rfl, rfl⟩ := Prod.mk.inj (happ.symm.trans h')
    cases next with
    | none => simp only [hcur]
    | some b => simp [hcur]

/-- A record that does not lie in the page is read again from its beginning. -/
theorem parsePage_of_not_fits (h : InPage d X (n + 1) off len)
    (hs : scanAt d seed X.cursor.place = .record size es next) (hfit : ¬ size ≤ len - off) :
    l.parsePage true len (n + 1) off X = .readPage l X := by
  have hsc := scanned_of_scanAt hs
  have hlt := h.lt
  have hhead := h.header_le
  have hoff : off ≠ 0 := by
    rintro rfl
    have := h.fits_of_zero hsc.ok
    rw [hsc.size_eq] at this
    omega
  rw [Loader.parsePage]
  simp only
  rw [if_neg (by omega), if_neg (not_not.2 (h.sizeOk_iff.2 hsc.ok)),
    if_pos (by rw [h.decodeHeader_eq, hsc.size_eq]; omega), if_neg hoff]

/-- The page loop of `l` at the cursor of `X` comes to the place `q`, where it
goes on as `l'` with the state `Y`. -/
def Loader.Reaches (d : Buf) (l : Loader) (X : Super) (l' : Loader) (Y : Super) (q : Place) : Prop :=
  ∀ n off len, InPage d X n off len → ∃ (c : Cursor) (n' off' len' : ℕ), c.place = q ∧
    c.extentIdFlush = X.cursor.extentIdFlush ∧ c.extentIdOndisk = X.cursor.extentIdOndisk ∧
    InPage d { Y with cursor := c } n' off' len' ∧
    ∀ out, Loads d (l'.parsePage true len' n' off' { Y with cursor := c }) out →
      Loads d (l.parsePage true len n off X) out

/-- A page that is read next is entered. -/
theorem Loader.Reaches.readPage {l m : Loader} {q : Place} {c : Cursor} (hv : c.place.Valid)
    (h : ∀ c₁ : Cursor, c₁.place = c.place →
      l.Reaches d { Y with cursor := c₁ } m X q) :
    ∃ (c' : Cursor) (n' off' len' : ℕ), c'.place = q ∧ c'.extentIdFlush = c.extentIdFlush ∧
      c'.extentIdOndisk = c.extentIdOndisk ∧ InPage d { X with cursor := c' } n' off' len' ∧
      ∀ out, Loads d (m.parsePage true len' n' off' { X with cursor := c' }) out →
        Loads d (.readPage l { Y with cursor := c }) out := by
  obtain ⟨c₁, hplace, hfl, hon, n₁, len₁, hin, heq⟩ :=
    parserPage_inPage l true (X := { Y with cursor := c }) d hv
  obtain ⟨c', n', off', len', h₁, h₂, h₃, h₄, h₅⟩ := h c₁ hplace n₁ 0 len₁ hin
  refine ⟨c', n', off', len', h₁, h₂.trans hfl, h₃.trans hon, h₄, fun out ho => .page ?_⟩
  rw [heq]
  exact h₅ out ho

/-- The behaviour of the loop does not depend on whether the next record lies in
the page. -/
theorem Loader.Reaches.of_fits {l l' : Loader} {q : Place} (hv : X.cursor.place.Valid)
    (hs : scanAt d seed X.cursor.place = .record size es next)
    (h : ∀ (c : Cursor) (n off len : ℕ), c.place = X.cursor.place →
      c.extentIdFlush = X.cursor.extentIdFlush → c.extentIdOndisk = X.cursor.extentIdOndisk →
      InPage d { X with cursor := c } (n + 1) off len → size ≤ len - off →
      ∃ (c' : Cursor) (n' off' len' : ℕ), c'.place = q ∧ c'.extentIdFlush = c.extentIdFlush ∧
        c'.extentIdOndisk = c.extentIdOndisk ∧ InPage d { Y with cursor := c' } n' off' len' ∧
        ∀ out, Loads d (l'.parsePage true len' n' off' { Y with cursor := c' }) out →
          Loads d (l.parsePage true len (n + 1) off { X with cursor := c }) out) :
    l.Reaches d X l' Y q := by
  intro n off len hin
  obtain ⟨n, rfl⟩ := hin.exists_succ
  by_cases hfit : size ≤ len - off
  · exact h X.cursor n off len rfl rfl rfl hin hfit
  · obtain ⟨c₁, hplace, hfl, hon, n₁, len₁, hin₁, heq⟩ := parserPage_inPage l true d hv
    obtain ⟨n₁, rfl⟩ := hin₁.exists_succ
    have hsc := scanned_of_scanAt hs
    have hfit₁ : size ≤ len₁ - 0 := by
      have := hin₁.fits_of_zero (by
        simp only [hplace]
        have : c₁.extentOff = X.cursor.extentOff := congrArg Place.extentOff hplace
        rw [this]
        exact hsc.ok)
      simp only [hplace] at this
      rwa [hsc.size_eq] at this
    obtain ⟨c', n', off', len', h₁, h₂, h₃, h₄, h₅⟩ := h c₁ n₁ 0 len₁ hplace hfl hon hin₁ hfit₁
    refine ⟨c', n', off', len', h₁, h₂.trans hfl, h₃.trans hon, h₄, fun out ho => ?_⟩
    rw [parsePage_of_not_fits hin hs hfit]
    refine .page ?_
    rw [heq]
    exact h₅ out ho

/-- What the loader asks of the extents `js` that it is going to visit. -/
def Loader.Admits (l : Loader) (total : ℕ) (js : List ℕ) : Prop :=
  (l.journals ++ js).Nodup ∧ ∀ b ∈ js, b < total ∧ b ≠ extentIdInvalid ∧ some b ≠ l.endId

/-- **The page loop follows a trace** whose entries the parser accepts. -/
theorem Loader.reaches {p q : Place} {js : List ℕ} (h : Trace d seed p es js q) (hv : p.Valid)
    (hl : l.header.uuid.seed = seed) (hp : X.cursor.place = p)
    (hjs : l.Admits X.totalExtents js) (happ : applyEntries true X es = (Y, true)) :
    l.Reaches d X { l with journals := l.journals ++ js } Y q := by
  induction h generalizing l X Y with
  | refl p =>
      obtain ⟨rfl, -⟩ := Prod.mk.inj happ
      intro n off len hin
      refine ⟨X.cursor, n, off, len, hp, rfl, rfl, hin, fun out ho => ?_⟩
      rw [List.append_nil] at ho
      exact ho
  | @step p q size es es' next js hs ht ih =>
      have hsc := scanned_of_scanAt hs
      have hv' := hsc.valid_behind hv
      subst hp
      rw [applyEntries_append] at happ
      obtain ⟨Y₁, happ₁⟩ : ∃ Y₁, applyEntries true X es = (Y₁, true) := by
        generalize hr : applyEntries true X es = r at happ
        obtain ⟨Y₁, ok⟩ := r
        cases ok with
        | false => cases happ
        | true => exact ⟨Y₁, rfl⟩
      rw [happ₁] at happ
      replace happ : applyEntries true Y₁ es' = (Y, true) := happ
      have happ₂ : ∀ c : Cursor, applyEntries true { Y₁ with cursor := c } es' =
          ({ Y with cursor := c }, true) := by
        intro c
        rw [applyEntries_cursor, happ]
      have htotal : Y₁.totalExtents = X.totalExtents := by
        rw [← totalExtents_applyEntries X es, happ₁]
      refine Loader.Reaches.of_fits hv hs fun c n off len hc hfl hon hin hfit => ?_
      have happ₀ : applyEntries true { X with cursor := c } es = ({ Y₁ with cursor := c }, true) := by
        rw [applyEntries_cursor, happ₁]
      have hs' : scanAt d seed c.place = .record size es next := by rw [hc]; exact hs
      cases next with
      | some b =>
          obtain ⟨hnd, hb⟩ := hjs
          obtain ⟨hb₁, hb₂, hb₃⟩ := hb b (by simp)
          have hnot : b ∉ l.journals := by
            intro hmem
            exact (List.nodup_append.1 hnd).2.2 b hmem b (by simp) rfl
          rw [parsePage_of_fits hin hl hs' hfit (fun b' hb' _ => by
            obtain rfl : b = b' := Option.some.inj hb'
            exact ⟨hb₂, hb₁, hnot, rfl⟩) happ₀]
          simp only
          rw [if_neg hb₃, Loader.commitExtent]
          have hplace : ∀ c₁ : Cursor, c₁.place = ⟨b, 0, c.seq + es.length⟩ →
              c₁.place = X.cursor.place.behind size es.length (some b) := by
            intro c₁ h₁
            rw [h₁, ← hc]
            rfl
          have hr := Loader.Reaches.readPage (d := d) (X := Y) (Y := Y₁) (q := q)
            (l := { l with journals := l.journals ++ [b] })
            (c := { c with extentOff := 0, extentId := b, seq := c.seq + es.length })
            (m := { l with journals := l.journals ++ (some b).toList ++ js })
            ((hplace { c with extentOff := 0, extentId := b, seq := c.seq + es.length } rfl) ▸ hv')
            (fun c₁ hc₁ => by
              have := ih (l := { l with journals := l.journals ++ [b] })
                (X := { Y₁ with cursor := c₁ }) hv' hl (hplace c₁ hc₁)
                ⟨by simpa using hnd, fun b' hb' => by
                  rw [htotal]
                  exact hb b' (by simp [hb'])⟩ (happ₂ c₁)
              exact this)
          obtain ⟨c', n', off', len', h₁, h₂, h₃, h₄, h₅⟩ := hr
          refine ⟨c', n', off', len', h₁, h₂, h₃, h₄, fun out ho => ?_⟩
          refine h₅ out ?_
          simpa using ho
      | none =>
          rw [parsePage_of_fits hin hl hs' hfit (by simp) happ₀]
          simp only
          have hplace : ∀ c₁ : Cursor,
              c₁.place = ⟨c.extentId, c.extentOff + size, c.seq + es.length⟩ →
              c₁.place = X.cursor.place.behind size es.length none := by
            intro c₁ h₁
            rw [h₁, ← hc]
            rfl
          have hnext : ∀ c₁ : Cursor,
              c₁.place = ⟨c.extentId, c.extentOff + size, c.seq + es.length⟩ →
              l.Reaches d { Y₁ with cursor := c₁ } { l with journals := l.journals ++ js } Y q := by
            intro c₁ hc₁
            have := ih (X := { Y₁ with cursor := c₁ }) hv' hl (hplace c₁ hc₁)
              (by rw [htotal]; exact hjs) (happ₂ c₁)
            exact this
          split_ifs with hend
          · exact Loader.Reaches.readPage
              (c := { c with extentOff := c.extentOff + size, seq := c.seq + es.length })
              ((hplace { c with extentOff := c.extentOff + size, seq := c.seq + es.length } rfl) ▸ hv')
              hnext
          · refine hnext { c with extentOff := c.extentOff + size, seq := c.seq + es.length } rfl n
              (off + size) len ?_
            exact hin.behind (hc.symm ▸ hsc) hfit hend

theorem loads_end (l : Loader) (X : Super) : Loads d (l.end X true) (l.end X true) := by
  unfold Loader.end
  split
  · exact .finish _ _
  · exact .error _

theorem loads_stopped (l : Loader) (X : Super) (followEnd : Bool) :
    Loads d (l.stopped X true followEnd) (l.stopped X true followEnd) := by
  unfold Loader.stopped
  split
  · exact .error _
  · exact loads_end l X

/-- The loop ends where no record follows. -/
theorem loads_of_stop (hin : InPage d X n off len) (hl : l.header.uuid.seed = seed)
    (hs : scanAt d seed X.cursor.place = .stop) :
    ∃ c : Cursor, c.place = X.cursor.place ∧ c.extentIdFlush = X.cursor.extentIdFlush ∧
      c.extentIdOndisk = X.cursor.extentIdOndisk ∧
      Loads d (l.parsePage true len n off X) (l.stopped { X with cursor := c } true false) := by
  -- a header that announces a size is looked at in a page that holds the record
  have key : ∀ (X : Super) (n off len : ℕ), InPage d X n off len →
      scanAt d seed X.cursor.place = .stop → (sizeOk d X.cursor.place.addr X.cursor.extentOff →
        (decodeHeader d X.cursor.place.addr).size ≤ len - off) →
      l.parsePage true len n off X = l.stopped X true false := by
    intro X n off len hin hs hfit
    obtain ⟨n, rfl⟩ := hin.exists_succ
    have hscan := hin.scan_eq hfit seed
    have h₁ := hin.lt
    have h₂ := hin.header_le
    rw [Loader.parsePage]
    simp only [hl, hscan, hs]
    rw [if_neg (by omega)]
    by_cases hok : sizeOk X.cursor.page off X.cursor.extentOff
    · have := hfit (hin.sizeOk_iff.1 hok)
      rw [if_neg (not_not.2 hok), if_neg (by rw [hin.decodeHeader_eq]; omega)]
    · rw [if_pos hok]
  by_cases hfit : sizeOk d X.cursor.place.addr X.cursor.extentOff →
      (decodeHeader d X.cursor.place.addr).size ≤ len - off
  · refine ⟨X.cursor, rfl, rfl, rfl, ?_⟩
    rw [key X n off len hin hs hfit]
    exact loads_stopped l X false
  · push Not at hfit
    obtain ⟨hok, hlt⟩ := hfit
    have hoff : off ≠ 0 := by
      rintro rfl
      have := hin.fits_of_zero hok
      omega
    obtain ⟨c, hc, hfl, hon, n₁, len₁, hin₁, heq⟩ := parserPage_inPage l true d hin.valid
    refine ⟨c, hc, hfl, hon, ?_⟩
    have hread : l.parsePage true len n off X = .readPage l X := by
      obtain ⟨n, rfl⟩ := hin.exists_succ
      have h₁ := hin.lt
      have h₂ := hin.header_le
      rw [Loader.parsePage]
      simp only
      rw [if_neg (by omega), if_neg (not_not.2 (hin.sizeOk_iff.2 hok)),
        if_pos (by rw [hin.decodeHeader_eq]; omega), if_neg hoff]
    rw [hread]
    refine .page ?_
    rw [heq, key { X with cursor := c } n₁ 0 len₁ hin₁ (by rw [hc]; exact hs)
      (fun h => hin₁.fits_of_zero h)]
    exact loads_stopped l _ false

/-- **The loader reads a chain**: from the place of its cursor over a trace to a
place where nothing follows. -/
theorem Loader.loads {p q : Place} {js : List ℕ} (h : Trace d seed p es js q) (hv : p.Valid)
    (hstop : scanAt d seed q = .stop) (hl : l.header.uuid.seed = seed) (hend : l.endId = none)
    (hp : X.cursor.place = p) (hjs : l.Admits X.totalExtents js)
    (happ : applyEntries true X es = (Y, true)) :
    ∃ c : Cursor, c.place = q ∧ c.extentIdFlush = X.cursor.extentIdFlush ∧
      c.extentIdOndisk = X.cursor.extentIdOndisk ∧ Loads d (.readPage l X)
        (Loader.end { l with journals := l.journals ++ js } { Y with cursor := c } true) := by
  obtain ⟨c₀, hc₀, hfl₀, hon₀, n, len, hin, heq⟩ := parserPage_inPage l true d (hp.symm ▸ hv)
  have happ₀ : applyEntries true { X with cursor := c₀ } es = ({ Y with cursor := c₀ }, true) := by
    rw [applyEntries_cursor, happ]
  obtain ⟨c₁, n', off', len', h₁, hfl₁, hon₁, hin', h₂⟩ :=
    Loader.reaches (X := { X with cursor := c₀ }) h hv hl (hc₀.trans hp) hjs happ₀ n 0 len hin
  obtain ⟨c, hc, hfl, hon, hload⟩ := loads_of_stop
    (l := { l with journals := l.journals ++ js }) hin' hl (by rw [h₁]; exact hstop)
  refine ⟨c, hc.trans h₁, (hfl.trans hfl₁).trans hfl₀, (hon.trans hon₁).trans hon₀, .page ?_⟩
  rw [heq]
  refine h₂ _ ?_
  have : Loader.stopped { l with journals := l.journals ++ js } { Y with cursor := c } true false =
      Loader.end { l with journals := l.journals ++ js } { Y with cursor := c } true := by
    simp [Loader.stopped, hend]
  rw [← this]
  exact hload

/-- **The record that links to `end_id`** ends the loop. -/
theorem Loader.parserPage_final (hv : X.cursor.place.Valid)
    (hs : scanAt d l.header.uuid.seed X.cursor.place = .record size es (some b))
    (hend : l.endId = some b) (happ : applyEntries true X es = (Y, true)) :
    ∃ c : Cursor, c.seq = X.cursor.seq + es.length ∧
      l.parserPage X true d = l.end { Y with cursor := c } true := by
  obtain ⟨c, hc, -, -, n, len, hin, heq⟩ := parserPage_inPage l true d hv
  obtain ⟨n, rfl⟩ := hin.exists_succ
  have hs' : scanAt d l.header.uuid.seed c.place = .record size es (some b) := by rw [hc]; exact hs
  have hsc := scanned_of_scanAt hs'
  have hfit : size ≤ len - 0 := by
    rw [← hsc.size_eq]
    exact hin.fits_of_zero hsc.ok
  have happ' : applyEntries true { X with cursor := c } es = ({ Y with cursor := c }, true) := by
    rw [applyEntries_cursor, happ]
  refine ⟨{ c with seq := c.seq + es.length },
    congrArg (· + es.length) (congrArg Place.seq hc : c.seq = X.cursor.seq), ?_⟩
  rw [heq, parsePage_of_fits hin rfl hs' hfit (fun b' hb hne => ?_) happ']
  · simp only
    rw [if_pos hend.symm, Loader.stopped, if_neg (by simp)]
  · obtain rfl : b = b' := Option.some.inj hb
    exact absurd hend.symm hne

end Loop

/-! ### The header -/

/-- The READ of the super block brings its header. -/
theorem superParse_read {c : Cursor} {d : Buf} {h : SuperHeader} (hp : superParse d = some h) :
    superParse (c.read d 0 superBlockSize).page = some h := by
  rw [← hp]
  refine superParse_congr fun a ha => ?_
  have hlt : a < 0 + superBlockSize := by omega
  simp only [Cursor.read]
  rw [Buf.patch_of_lt (Nat.zero_le a) hlt]
  simp

/-- The READ of a valid super block leads to the first page of its journal. -/
theorem Loader.parserHeader_of_parse {l : Loader} {X : Super} {d : Buf} {h : SuperHeader}
    (hp : superParse d = some h) (hend : l.endId ≠ some h.journalId) (hj : l.journals = [])
    (hid : h.journalId < X.totalExtents) (ht : X.totalExtents ≤ extentCountMax) :
    ∃ c : Cursor, c.place = ⟨h.journalId, 0, h.journalSeq⟩ ∧ l.parserHeader X true d =
      .readPage ⟨h, l.endId, [h.journalId]⟩ { X with cursor := c } := by
  have hne : h.journalId ≠ extentIdInvalid := by
    simp only [extentCountMax, extentIdInvalid] at *
    omega
  refine ⟨{ X.cursor.read d 0 superBlockSize with
    seq := h.journalSeq, extentOff := 0, extentId := h.journalId }, rfl, ?_⟩
  unfold Loader.parserHeader
  simp only [superParse_read hp]
  rw [if_neg hend, if_pos ⟨hne, hid, by simp [hj], rfl⟩]
  simp [Loader.commitExtent, hj]

/-- The loader of a compaction with nothing in front of `end_id`. -/
theorem Loader.parserHeader_arrived {l : Loader} {X : Super} {d : Buf} {h : SuperHeader}
    (hp : superParse d = some h) (hend : l.endId = some h.journalId) (hj : l.journals = []) :
    ∃ c : Cursor, c.seq = h.journalSeq ∧
      l.parserHeader X true d = .finish { l with header := h } { X with cursor := c } := by
  refine ⟨{ X.cursor.read d 0 superBlockSize with seq := h.journalSeq }, rfl, ?_⟩
  simp only [Loader.parserHeader, superParse_read hp, hend, if_true, Loader.end, hj]
  rfl

/-- The record of `recordDisk`. -/
theorem scanAt_recordDisk {uuid : Uuid} {es : List Entry} {next : Option ℕ}
    (h : RecordOk 0 es next journalBlockSize) :
    scanAt (recordDisk uuid es next) uuid.seed ⟨0, 0, 0⟩ = .record journalBlockSize es next :=
  scanRecord_of_slice h (recordDisk_slice h) (by decide) fun _ => by decide

end Cyanfs
