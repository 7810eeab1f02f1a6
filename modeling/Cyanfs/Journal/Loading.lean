/-
# The loader reads a finite part of the disk

`cyanfs_journal_loader_start` queues a READ of the super block; every callback then queues
another READ, or ends the loader with `finish` or `error`.  Nothing about the disk is
assumed here.  A page that was read leads on in one of four ways (`PageOut`): the loader
fails, it reads on in the same extent from a larger offset, it follows a link to an extent
of the device that it has not read, or it is done.  Either way the entries it has handed
to the parser are those of a trace on the disk it has read.

So the extents that are left and the blocks that are left in this one fall with every READ
(`Stage.left`), and the loader ends (`loader_terminates`).
-/

import Cyanfs.Journal.Chain
import Cyanfs.Metadata.Charge

namespace Cyanfs

open Lib

/-- The parser has taken the entries from `X` to `Y`, wherever the cursor of `Y` is. -/
def Fed (X : Super) (es : List Entry) (Y : Super) : Prop :=
  applyEntries true X es = ({ Y with cursor := X.cursor }, true)

namespace Fed

variable {X Y Z : Super} {es fs : List Entry}

theorem nil (X : Super) (c : Cursor) : Fed X [] { X with cursor := c } := rfl

theorem cursor (h : Fed X es Y) (c : Cursor) : Fed X es { Y with cursor := c } := h

theorem trans (h : Fed X es Y) (h' : Fed Y fs Z) : Fed X (es ++ fs) Z := by
  unfold Fed at *
  rw [applyEntries_append, h]
  change applyEntries true { Y with cursor := X.cursor } fs = _
  rw [applyEntries_cursor, h']

theorem totalExtents (h : Fed X es Y) : Y.totalExtents = X.totalExtents := by
  have := totalExtents_applyEntries X es
  rw [h] at this
  exact this

end Fed

/-- What the parser has taken with some allocations failing it takes without. -/
theorem fed_of_applyEntries {m : Bool} {X Y : Super} {es : List Entry}
    (h : applyEntries m X es = (Y, true)) : Fed X es Y ∧ Y.cursor = X.cursor := by
  have htrue : applyEntries true X es = (Y, true) := by
    induction es generalizing X with
    | nil => exact h
    | cons e es ih =>
        rw [applyEntries] at h ⊢
        split at h
        · rename_i X' hr
          have hr' : X.replayWith true e = .ok X' := Super.replay_of_replayWith hr
          rw [hr']
          exact ih h
        · cases h
  have hcur : Y.cursor = X.cursor := by
    rw [← cursor_applyEntries X es, htrue]
  refine ⟨?_, hcur⟩
  rw [Fed, htrue, ← hcur]

theorem replayAll_of_fed {X Y : Super} {es : List Entry} (h : Fed X es Y) :
    X.replayAll es = .ok { Y with cursor := X.cursor } := by
  unfold Fed at h
  generalize ({ Y with cursor := X.cursor } : Super) = Y' at h
  induction es generalizing X with
  | nil => exact congrArg Except.ok (Prod.mk.inj h).1
  | cons e es ih =>
      rw [applyEntries] at h
      rw [Super.replayAll, Super.replay]
      cases hr : X.replayWith true e with
      | error err => simp [hr] at h
      | ok X' =>
          simp only [hr] at h ⊢
          exact ih h

/-! ### One page -/

/-- How a page leads on that the loader `l` has read from `d` at the cursor of `X`, from
offset `start` of its extent. -/
inductive PageOut (d : Buf) (l : Loader) (X : Super) (start : ℕ) : LoaderOut → Prop
  | error (Y : Super) : PageOut d l X start (.error Y)
  /-- on in the same extent -/
  | again {es : List Entry} {Y : Super}
      (ht : Trace d l.header.uuid.seed X.cursor.place es [] Y.cursor.place) (hfed : Fed X es Y)
      (hlt : start < Y.cursor.extentOff) : PageOut d l X start (.readPage l Y)
  /-- on in another extent -/
  | next {es : List Entry} {Y : Super} {b : ℕ}
      (ht : Trace d l.header.uuid.seed X.cursor.place es [b] Y.cursor.place) (hfed : Fed X es Y)
      (hid : Y.cursor.extentId = b) (hoff : Y.cursor.extentOff = 0)
      (hb : b < X.totalExtents) (hnew : b ∉ l.journals) (hend : l.endId ≠ some b) :
      PageOut d l X start (.readPage { l with journals := l.journals ++ [b] } Y)
  /-- at the end of the chain, or at `end_id` -/
  | finish {es : List Entry} {Y : Super} {q : Place}
      (ht : Trace d l.header.uuid.seed X.cursor.place es l.endId.toList q)
      (hfed : Fed X (es ++ l.journals.map .next) Y) (hseq : Y.cursor.seq = q.seq)
      (hplace : l.endId = none → Y.cursor.place = q) (hzero : l.endId ≠ none → q.extentOff = 0) :
      PageOut d l X start (.finish l Y)

namespace PageOut

variable {d : Buf} {l : Loader} {X Y : Super} {start size : ℕ} {es : List Entry} {out : LoaderOut}

/-- A record in front of the rest of the page. -/
theorem step (hs : scanAt d l.header.uuid.seed X.cursor.place = .record size es none)
    (hplace : Y.cursor.place = X.cursor.place.behind size es.length none) (hfed : Fed X es Y)
    (h : PageOut d l Y start out) : PageOut d l X start out := by
  have htrace : ∀ {fs : List Entry} {js : List ℕ} {q : Place},
      Trace d l.header.uuid.seed Y.cursor.place fs js q →
      Trace d l.header.uuid.seed X.cursor.place (es ++ fs) js q :=
    fun ht => .step hs (hplace ▸ ht)
  cases h with
  | error Z => exact .error Z
  | again ht hf hlt => exact .again (htrace ht) (hfed.trans hf) hlt
  | next ht hf hid hoff hb hnew hend =>
      exact .next (htrace ht) (hfed.trans hf) hid hoff (hfed.totalExtents ▸ hb) hnew hend
  | finish ht hf hseq hplace hzero =>
      refine .finish (htrace ht) ?_ hseq hplace hzero
      rw [List.append_assoc]
      exact hfed.trans hf

theorem of_end (m : Bool) {q : Place} (hp : q.seq = Y.cursor.seq) (hfed : Fed X es Y)
    (ht : Trace d l.header.uuid.seed X.cursor.place es l.endId.toList q)
    (hplace : l.endId = none → Y.cursor.place = q) (hzero : l.endId ≠ none → q.extentOff = 0) :
    PageOut d l X start (l.end Y m) := by
  unfold Loader.end
  split
  · rename_i Z hr
    obtain ⟨hz, hcur⟩ := fed_of_applyEntries hr
    exact .finish ht (hfed.trans hz) (by rw [hcur, hp]) (hcur ▸ hplace) hzero
  · exact .error _

/-- The loader stops where no record continues the chain. -/
theorem of_stopped (m : Bool) : PageOut d l X start (l.stopped X m false) := by
  unfold Loader.stopped
  split_ifs with hend
  · exact .error X
  · simp only [and_true, not_not] at hend
    have hfed : Fed X [] X := .nil X X.cursor
    refine of_end m (q := X.cursor.place) rfl hfed ?_ (fun _ => rfl) fun hne => absurd hend hne
    rw [hend]
    exact .refl _

end PageOut

/-- **What a page leads to.** -/
theorem Loader.parsePage_out {d : Buf} (m : Bool) {len n off : ℕ} (l : Loader) {X : Super}
    (h : InPage d X n off len) :
    PageOut d l X (X.cursor.extentOff - off) (l.parsePage m len n off X) := by
  induction n generalizing off X with
  | zero => exact .of_stopped m
  | succ n ih =>
      unfold Loader.parsePage
      simp only
      split
      · exact .of_stopped m
      split
      · exact .of_stopped m
      rename_i hsize
      split
      · split
        · exact .of_stopped m
        · -- the record reaches behind the page: it is read again from its beginning
          rename_i hoff
          refine .again (.refl _) (.nil X X.cursor) ?_
          have := h.le
          omega
      rename_i hfit
      have hhead := h.header_le
      rw [h.scan_eq (fun _ => by rw [← h.decodeHeader_eq]; omega)]
      split
      · exact .of_stopped m
      · exact .error X
      · rename_i size es next hscan
        have hsc := scanned_of_scanAt hscan
        split
        · exact .error X
        rename_i hprep
        split
        · exact .error _
        rename_i Y hr
        obtain ⟨hfed, hcur⟩ := fed_of_applyEntries hr
        cases next with
        | some b =>
            have hbehind : Trace d l.header.uuid.seed X.cursor.place es [b]
                (X.cursor.place.behind size es.length (some b)) := by
              simpa using Trace.step hscan (.refl _)
            simp only
            split
            · -- the link to the extent where the loader is to end
              rename_i hfollow
              unfold Loader.stopped
              rw [if_neg (by simp)]
              refine .of_end m (q := X.cursor.place.behind size es.length (some b)) ?_
                (hfed.cursor _) ?_ (fun hnone => absurd (hfollow.2.trans hnone) (by simp))
                fun _ => rfl
              · simp only [Place.behind, Cursor.place, hcur]
              · rw [← hfollow.2]
                exact hbehind
            · rename_i hfollow
              have hend : l.endId ≠ some b := fun he => hfollow ⟨by simp, he.symm⟩
              have hp : l.prepareExtent X m b := by
                by_contra hp
                exact hprep ⟨b, rfl, hfollow, hp⟩
              refine .next ?_ (hfed.cursor _) rfl rfl hp.2.1 hp.2.2.1 hend
              simpa only [Place.behind, Cursor.place, hcur] using hbehind
        | none =>
            have hplace : (X.cursor.place.behind size es.length none) =
                Cursor.place { Y.cursor with
                  extentOff := Y.cursor.extentOff + size
                  seq := Y.cursor.seq + es.length } := by
              simp only [Place.behind, Cursor.place, hcur]
            have hpos := hsc.pos
            have hle := h.le
            simp only
            split
            · refine .again ?_ (hfed.cursor _) ?_
              · rw [← hplace]
                simpa using Trace.step hscan (.refl _)
              · simp only [hcur, journalBlockSize] at *
                omega
            · rename_i hpage
              refine .step hscan hplace.symm (hfed.cursor _) ?_
              have hin := h.behind (Y := Y) (k := X.cursor.seq + es.length) hsc
                (hsc.size_eq ▸ by rw [← h.decodeHeader_eq]; omega) hpage
              have hrest := ih hin
              simp only [hcur] at hrest ⊢
              have hsub : X.cursor.extentOff + size - (off + size) = X.cursor.extentOff - off := by omega
              rw [hsub] at hrest
              exact hrest

theorem PageOut.of_cursor {d : Buf} {l : Loader} {X : Super} {start : ℕ} {out : LoaderOut} {c : Cursor}
    (hc : c.place = X.cursor.place) (h : PageOut d l { X with cursor := c } start out) :
    PageOut d l X start out := by
  have hfed : ∀ {es : List Entry} {Y : Super}, Fed { X with cursor := c } es Y → Fed X es Y := by
    intro es Y hf
    simpa using (Fed.nil X c).trans hf
  cases h with
  | error Y => exact .error Y
  | again ht hf hlt => exact .again (hc ▸ ht) (hfed hf) hlt
  | next ht hf hid hoff hb hnew hend =>
      exact .next (hc ▸ ht) (hfed hf) hid hoff hb hnew hend
  | finish ht hf hseq hplace hzero => exact .finish (hc ▸ ht) (hfed hf) hseq hplace hzero

theorem Loader.parserPage_out {d : Buf} (m : Bool) (l : Loader) {X : Super}
    (hv : X.cursor.place.Valid) : PageOut d l X X.cursor.extentOff (l.parserPage X m d) := by
  obtain ⟨c, hc, -, -, n, len, hin, heq⟩ := parserPage_inPage l m d hv
  rw [heq]
  have hoff : c.extentOff = X.cursor.extentOff := congrArg Place.extentOff hc
  exact .of_cursor hc (hoff ▸ Loader.parsePage_out m l hin)

/-- The page holds no more rounds than the model gives the loop. -/
theorem Loader.parsePage_fuel {d : Buf} (m : Bool) {len n off : ℕ} (l : Loader) {X : Super}
    (h : InPage d X n off len) (k : ℕ) :
    l.parsePage m len (n + k) off X = l.parsePage m len n off X := by
  induction n generalizing off X with
  | zero =>
      have := h.fuel
      have := h.lt
      omega
  | succ n ih =>
      rw [Nat.succ_add, Loader.parsePage, Loader.parsePage]
      simp only
      refine ite_congr rfl (fun _ => rfl) fun _ => ite_congr rfl (fun _ => rfl) fun _ =>
        ite_congr rfl (fun _ => rfl) fun hfit => ?_
      have hscan := h.scan_eq (fun _ => by rw [← h.decodeHeader_eq]; omega) l.header.uuid.seed
      rw [hscan]
      cases hs : scanAt d l.header.uuid.seed X.cursor.place with
      | stop => rfl
      | bad => rfl
      | record size es next =>
          have hsc := scanned_of_scanAt hs
          simp only
          refine ite_congr rfl (fun _ => rfl) fun _ => ?_
          cases hr : applyEntries m X es with
          | mk Y ok =>
              cases ok with
              | false => rfl
              | true =>
                  cases next with
                  | some b => rfl
                  | none =>
                      obtain ⟨-, hcur⟩ := fed_of_applyEntries hr
                      simp only
                      refine ite_congr rfl (fun _ => rfl) fun hpage => ?_
                      have hin := h.behind (Y := Y) (k := X.cursor.seq + es.length) hsc
                        (hsc.size_eq ▸ by rw [← h.decodeHeader_eq]; omega) hpage
                      simp only [hcur]
                      exact ih hin

/-! ### The super block -/

/-- How the super block leads on that the loader `l` has read into `X`. -/
inductive HeaderOut (l : Loader) (X : Super) : LoaderOut → Prop
  | error (Y : Super) : HeaderOut l X (.error Y)
  /-- on in the first extent of the chain -/
  | next {h : SuperHeader} {Y : Super} (hmax : h.journalSeq ≤ u64Max)
      (hplace : Y.cursor.place = ⟨h.journalId, 0, h.journalSeq⟩) (hfed : Fed X [] Y)
      (hb : h.journalId < X.totalExtents) (hnew : h.journalId ∉ l.journals)
      (hend : l.endId ≠ some h.journalId) :
      HeaderOut l X (.readPage { l with header := h, journals := l.journals ++ [h.journalId] } Y)
  /-- nothing in front of `end_id` -/
  | finish {h : SuperHeader} {Y : Super} (hmax : h.journalSeq ≤ u64Max)
      (hfed : Fed X (l.journals.map .next) Y)
      (hseq : Y.cursor.seq = h.journalSeq) (hend : l.endId = some h.journalId) :
      HeaderOut l X (.finish { l with header := h } Y)

theorem journalSeq_le {g : Buf} {h : SuperHeader} (hp : superParse g = some h) :
    h.journalSeq ≤ u64Max := by
  have hslot : ∀ p, (decodeSuperHeader g p).journalSeq ≤ u64Max := by
    intro p
    have := getLe_lt g (p + 40) 8
    simp only [decodeSuperHeader, u64Max]
    omega
  unfold superParse at hp
  simp only at hp
  split at hp
  · cases hp
  rename_i h' hpick
  obtain rfl : h' = h := by
    split_ifs at hp
    exact Option.some.inj hp
  split_ifs at hpick <;> obtain rfl := Option.some.inj hpick <;> exact hslot _

theorem Loader.parserHeader_out {d : Buf} (m : Bool) (l : Loader) (X : Super) :
    HeaderOut l X (l.parserHeader X m d) := by
  unfold Loader.parserHeader
  simp only
  split
  · exact .error _
  rename_i h hparse
  split_ifs with hend hprep
  · unfold Loader.end
    split
    · rename_i Y hr
      obtain ⟨hfed, hcur⟩ := fed_of_applyEntries hr
      refine .finish (journalSeq_le hparse) ?_ (by rw [hcur]) hend
      simpa using (Fed.nil X _).trans hfed
    · exact .error _
  · exact .next (journalSeq_le hparse) rfl (.nil X _) hprep.2.1 hprep.2.2.1 hend
  · exact .error _

/-! ### The whole loader -/

/-- Where the loader is between two callbacks. -/
inductive Stage where
  /-- the READ of the super block is queued -/
  | header (l : Loader) (X : Super)
  /-- the READ of a page is queued -/
  | page (l : Loader) (X : Super)
  /-- `operations.finish` was called -/
  | finish (l : Loader) (X : Super)
  /-- `operations.error` was called -/
  | error (X : Super)

/-- What a callback leaves behind. -/
def LoaderOut.stage : LoaderOut → Stage
  | .readPage l X => .page l X
  | .finish l X => .finish l X
  | .error X => .error X

/-- How a READ is answered: with an error or not, and then with which bytes on the disk
and with or without memory for the callback. -/
structure ReadResult where
  err : Bool
  malloc : Bool
  disk : Buf

namespace Stage

/-- The READ task that is queued: its offset and its length
(`cyanfs_journal_loader_start`, `cyanfs_journal_loader_read_page`). -/
def read : Stage → Option (ℕ × ℕ)
  | header _ _ => some (0, superBlockSize)
  | page _ X => some (mapExtentOffset X.cursor.extentId X.cursor.extentOff, pageLen X.cursor.extentOff)
  | finish _ _ | error _ => none

/-- The READ completes and its callback runs. -/
def next (a : ReadResult) : Stage → Stage
  | header l X => if a.err then .error X else (l.parserHeader X a.malloc a.disk).stage
  | page l X => if a.err then .error X else (l.parserPage X a.malloc a.disk).stage
  | finish l X => .finish l X
  | error X => .error X

/-- Where the loader is after its first `n` READs. -/
def after (st : Stage) (answer : ℕ → ReadResult) : ℕ → Stage
  | 0 => st
  | n + 1 => (after st answer n).next (answer n)

/-- The loader has ended. -/
def Done (st : Stage) : Prop := st.read = none

/-- The extents that the loader has followed, the extent it reads and the offset there. -/
structure PageOk (total : ℕ) (l : Loader) (X : Super) : Prop where
  device : X.totalExtents = total
  inside : ∀ b ∈ l.journals, b < total
  once : l.journals.Nodup
  last : l.journals.getLast? = some X.cursor.extentId
  valid : X.cursor.place.Valid

/-- What holds in every stage on a device of `total` extents. -/
def Ok (total : ℕ) : Stage → Prop
  | header l X => X.totalExtents = total ∧ l.journals = []
  | page l X => PageOk total l X
  | finish _ _ | error _ => True

/-- How many READs may still follow: one for every block of the extents that are left. -/
def left (total : ℕ) : Stage → ℕ
  | header _ _ => total * 2048 + 1
  | page l X => (total - l.journals.length) * 2048 + (extentSize - X.cursor.extentOff) / journalBlockSize
  | finish _ _ | error _ => 0

variable {total : ℕ} {st : Stage}

theorem PageOk.length_le {l : Loader} {X : Super} (h : PageOk total l X) :
    l.journals.length ≤ total := by
  have hsub : l.journals ⊆ List.range total := fun b hb => List.mem_range.2 (h.inside b hb)
  have := (List.subperm_of_subset h.once hsub).length_le
  rwa [List.length_range] at this

/-- A new extent at the end of the chain. -/
theorem PageOk.append {l : Loader} {h : SuperHeader} {X : Super} {b : ℕ} (hX : X.totalExtents = total)
    (hin : ∀ b ∈ l.journals, b < total) (honce : l.journals.Nodup) (hb : b < total)
    (hnew : b ∉ l.journals) (hid : X.cursor.extentId = b) (hoff : X.cursor.extentOff = 0) :
    PageOk total { l with header := h, journals := l.journals ++ [b] } X := by
  refine ⟨hX, fun k hk => ?_, ?_, by simp [hid], ?_⟩
  · rcases List.mem_append.1 hk with hk | hk
    · exact hin k hk
    · rwa [List.mem_singleton.1 hk]
  · refine List.nodup_append.2 ⟨honce, List.nodup_singleton b, fun k hk j hj => ?_⟩
    rw [List.mem_singleton.1 hj]
    rintro rfl
    exact hnew hk
  · exact ⟨by simp [Cursor.place, hoff], by simp [Cursor.place, hoff]⟩

/-- Reading on in the same extent. -/
theorem PageOk.again {l : Loader} {X Y : Super} {es : List Entry} {d : Buf} (h : PageOk total l X)
    (ht : Trace d l.header.uuid.seed X.cursor.place es [] Y.cursor.place) (hfed : Fed X es Y) :
    PageOk total l Y ∧ Y.cursor.extentId = X.cursor.extentId := by
  have hid : Y.cursor.extentId = X.cursor.extentId := ht.same_extent.1
  exact ⟨⟨hfed.totalExtents.trans h.device, h.inside, h.once, hid ▸ h.last, ht.valid h.valid⟩, hid⟩

/-- **Every callback keeps the loader inside the device and leaves less to read.** -/
theorem Ok.next (h : st.Ok total) (a : ReadResult) :
    (st.next a).Ok total ∧ (st.read ≠ none → (st.next a).left total < st.left total) := by
  cases st with
  | finish l X => exact ⟨trivial, fun hr => absurd rfl hr⟩
  | error X => exact ⟨trivial, fun hr => absurd rfl hr⟩
  | header l X =>
      obtain ⟨hX, hl⟩ := h
      simp only [Stage.next]
      split_ifs
      · exact ⟨trivial, fun _ => Nat.succ_pos _⟩
      have hout := Loader.parserHeader_out (d := a.disk) a.malloc l X
      generalize l.parserHeader X a.malloc a.disk = out at hout ⊢
      cases hout with
      | error Y => exact ⟨trivial, fun _ => Nat.succ_pos _⟩
      | finish => exact ⟨trivial, fun _ => Nat.succ_pos _⟩
      | @next h Y hmax hplace hfed hb hnew hend =>
          have hid : Y.cursor.extentId = h.journalId := congrArg Place.extentId hplace
          have hoff : Y.cursor.extentOff = 0 := congrArg Place.extentOff hplace
          have hok : PageOk total { l with header := h, journals := l.journals ++ [h.journalId] } Y :=
            .append (hfed.totalExtents.trans hX) (by simp [hl]) (by simp [hl]) (hX ▸ hb) hnew hid hoff
          refine ⟨hok, fun _ => ?_⟩
          have hlen := hok.length_le
          simp only [left, LoaderOut.stage, hl, hoff, List.nil_append, List.length_singleton,
            extentSize, journalBlockSize] at *
          omega
  | page l X =>
      have hv := h.valid
      have hlen := PageOk.length_le h
      have hpos : 0 < (extentSize - X.cursor.extentOff) / journalBlockSize := by
        have h₁ := hv.1
        have h₂ := hv.2
        simp only [Cursor.place, extentSize, journalBlockSize] at *
        omega
      have hleft : 0 < (Stage.page l X).left total := Nat.add_pos_right _ hpos
      simp only [Stage.next]
      split_ifs
      · exact ⟨trivial, fun _ => hleft⟩
      have hout := Loader.parserPage_out (d := a.disk) a.malloc l hv
      generalize l.parserPage X a.malloc a.disk = out at hout ⊢
      cases hout with
      | error Y => exact ⟨trivial, fun _ => hleft⟩
      | finish => exact ⟨trivial, fun _ => hleft⟩
      | @again es Y ht hfed hlt =>
          obtain ⟨hok, -⟩ := PageOk.again h ht hfed
          refine ⟨hok, fun _ => ?_⟩
          have h₁ := hok.valid
          simp only [left, LoaderOut.stage, Place.Valid, Cursor.place, extentSize,
            journalBlockSize] at *
          omega
      | @next es Y b ht hfed hid hoff hb hnew hend =>
          have hok : PageOk total { l with journals := l.journals ++ [b] } Y :=
            .append (h := l.header) (hfed.totalExtents.trans h.device) h.inside h.once
              (h.device ▸ hb) hnew hid hoff
          refine ⟨hok, fun _ => ?_⟩
          have hlen' := hok.length_le
          simp only [left, LoaderOut.stage, hoff, List.length_append, List.length_singleton,
            extentSize, journalBlockSize] at *
          omega

/-- The READ that is queued lies inside the device. -/
theorem Ok.read_inside {off len : ℕ} (h : st.Ok total) (hr : st.read = some (off, len)) :
    off + len ≤ superBlockSize + total * extentSize := by
  cases st with
  | header l X =>
      obtain ⟨rfl, rfl⟩ := Prod.mk.inj (Option.some.inj hr)
      omega
  | page l X =>
      obtain ⟨rfl, rfl⟩ := Prod.mk.inj (Option.some.inj hr)
      have hv := h.valid
      have hid := h.inside _ (List.mem_of_getLast? h.last)
      have hle : (X.cursor.extentId + 1) * extentSize ≤ total * extentSize :=
        Nat.mul_le_mul_right _ hid
      have haddr : mapExtentOffset X.cursor.extentId X.cursor.extentOff = _ := hv.addr_eq
      have hoff : X.cursor.extentOff < extentSize := hv.1
      rw [haddr, pageLen]
      rw [Nat.succ_mul] at hle
      simp only [Cursor.place]
      omega
  | finish l X => cases hr
  | error X => cases hr

/-- What two READs in a row are about. -/
theorem Ok.next_page {l l' : Loader} {X X' : Super} {a : ReadResult}
    (h : (Stage.page l X).Ok total) (hn : (Stage.page l X).next a = .page l' X') :
    (l'.journals = l.journals ∧ X'.cursor.extentId = X.cursor.extentId ∧
      X.cursor.extentOff < X'.cursor.extentOff) ∨
    ∃ b, b ∉ l.journals ∧ l'.journals = l.journals ++ [b] ∧ X'.cursor.extentId = b ∧
      X'.cursor.extentOff = 0 := by
  simp only [Stage.next] at hn
  split_ifs at hn
  have hout := Loader.parserPage_out (d := a.disk) a.malloc l h.valid
  generalize l.parserPage X a.malloc a.disk = out at hout hn
  cases hout with
  | error Y => cases hn
  | finish => cases hn
  | again ht hfed hlt =>
      obtain ⟨rfl, rfl⟩ := Stage.page.inj hn
      exact .inl ⟨rfl, ht.same_extent.1, hlt⟩
  | next ht hfed hid hoff hb hnew hend =>
      obtain ⟨rfl, rfl⟩ := Stage.page.inj hn
      exact .inr ⟨_, hnew, rfl, hid, hoff⟩

theorem next_of_done {a : ReadResult} (h : st.Done) : st.next a = st := by
  cases st with
  | header | page => cases h
  | finish | error => rfl

/-- The stages of a whole load. -/
theorem Ok.after (h : st.Ok total) (answer : ℕ → ReadResult) (n : ℕ) :
    (st.after answer n).Ok total ∧
      ((st.after answer n).Done ∨ (st.after answer n).left total + n ≤ st.left total) := by
  induction n with
  | zero => exact ⟨h, .inr le_rfl⟩
  | succ n ih =>
      obtain ⟨hok, hleft⟩ := ih
      obtain ⟨hok', hlt⟩ := hok.next (answer n)
      refine ⟨hok', ?_⟩
      by_cases hd : (st.after answer n).Done
      · left
        rw [Stage.after, next_of_done hd]
        exact hd
      · right
        have := hlt hd
        have := hleft.resolve_left hd
        simp only [Stage.after]
        omega

theorem after_of_done {answer : ℕ → ReadResult} {n : ℕ} (h : (st.after answer n).Done) (k : ℕ) :
    st.after answer (n + k) = st.after answer n := by
  induction k with
  | zero => rfl
  | succ k ih =>
      rw [← Nat.add_assoc, Stage.after, ih, next_of_done h]

/-- The loader ends, after no more READs than there are blocks. -/
theorem Ok.exists_done (h : st.Ok total) (answer : ℕ → ReadResult) :
    ∃ n ≤ st.left total, ∀ k, (st.after answer k).Done ↔ n ≤ k := by
  have hex : ∃ n, (st.after answer n).Done := by
    obtain ⟨-, hd | hleft⟩ := h.after answer (st.left total + 1)
    · exact ⟨_, hd⟩
    · omega
  classical
  refine ⟨Nat.find hex, ?_, fun k => ⟨fun hk => Nat.find_min' hex hk, fun hk => ?_⟩⟩
  · by_contra hlt
    have hnot := Nat.find_min hex (Nat.not_le.1 hlt)
    obtain ⟨hok, hd | hleft⟩ := h.after answer (st.left total)
    · exact hnot hd
    · -- nothing is left to read, but a READ is queued
      have hz : (st.after answer (st.left total)).left total = 0 := by omega
      have hlt := (hok.next (answer (st.left total))).2 hnot
      omega
  · obtain ⟨j, rfl⟩ := Nat.exists_eq_add_of_le hk
    rw [after_of_done (Nat.find_spec hex)]
    exact Nat.find_spec hex

end Stage

/-- Up to a stage the parser has taken the entries `L` from `X₀`, and the sequence numbers
were counted along; at the end it has also taken the extents of the chain. -/
def Stage.Counted (X₀ : Super) (endId : Option ℕ) (L : List Entry) : Stage → Prop
  | .header l X => L = [] ∧ X = X₀ ∧ l.endId = endId ∧ l.journals = []
  | .page l X => Fed X₀ L X ∧ X.cursor.seq = l.header.journalSeq + L.length ∧
      X.cursor.seq ≤ u64Max ∧ l.endId = endId
  | .finish l X => Fed X₀ (L ++ l.journals.map .next) X ∧
      X.cursor.seq = l.header.journalSeq + L.length ∧ X.cursor.seq ≤ u64Max ∧ l.endId = endId
  | .error _ => True

/-- A trace keeps the sequence numbers in 64 bits. -/
theorem Trace.seq_le {d : Buf} {seed : UInt32} {p q : Place} {es : List Entry} {js : List ℕ}
    (h : Trace d seed p es js q) (hp : p.seq ≤ u64Max) : q.seq ≤ u64Max := by
  induction h with
  | refl p => exact hp
  | @step p q size es es' next js hs _ ih =>
      have := (scanned_of_scanAt hs).seq hp
      refine ih ?_
      cases next <;> exact this

/-- One callback. -/
theorem Stage.Counted.next {X₀ : Super} {endId : Option ℕ} {total : ℕ} {L : List Entry} {st : Stage}
    (h : st.Counted X₀ endId L) (hok : st.Ok total) (hreg : ∀ e ∈ L, e.Regular) (a : ReadResult) :
    ∃ L', (∀ e ∈ L', e.Regular) ∧ (st.next a).Counted X₀ endId L' := by
  cases st with
  | error X => exact ⟨L, hreg, trivial⟩
  | finish l X => exact ⟨L, hreg, h⟩
  | header l X =>
      obtain ⟨rfl, rfl, hend, hl⟩ := h
      simp only [Stage.next]
      split_ifs
      · exact ⟨[], hreg, trivial⟩
      have hout := Loader.parserHeader_out (d := a.disk) a.malloc l X
      generalize l.parserHeader X a.malloc a.disk = out at hout ⊢
      refine ⟨[], hreg, ?_⟩
      cases hout with
      | error Y => exact trivial
      | @finish h Y hmax hfed hseq _ => exact ⟨hfed, hseq, hseq ▸ hmax, hend⟩
      | @next h Y hmax hplace hfed _ _ _ =>
          have hseq : Y.cursor.seq = h.journalSeq := congrArg Place.seq hplace
          exact ⟨hfed, hseq, hseq ▸ hmax, hend⟩
  | page l X =>
      obtain ⟨hfed, hseq, hmax, hend⟩ := h
      have hv := hok.valid
      simp only [Stage.next]
      split_ifs
      · exact ⟨[], by simp, trivial⟩
      have hout := Loader.parserPage_out (d := a.disk) a.malloc l hv
      generalize l.parserPage X a.malloc a.disk = out at hout ⊢
      have hreg' : ∀ {d : Buf} {es : List Entry} {js : List ℕ} {q : Place},
          Trace d l.header.uuid.seed X.cursor.place es js q →
          (∀ e ∈ L ++ es, e.Regular) ∧ q.seq = l.header.journalSeq + (L ++ es).length ∧
            q.seq ≤ u64Max := by
        intro d es js q ht
        refine ⟨fun e he => ?_, ?_, ht.seq_le hmax⟩
        · rcases List.mem_append.1 he with he | he
          · exact hreg e he
          · exact ht.regular e he
        · have hX : X.cursor.place.seq = X.cursor.seq := rfl
          rw [ht.seq, hX, hseq, List.length_append]
          omega
      cases hout with
      | error Y => exact ⟨[], by simp, trivial⟩
      | again ht hf _ =>
          obtain ⟨h₁, h₂, h₃⟩ := hreg' ht
          exact ⟨_, h₁, hfed.trans hf, h₂, h₃, hend⟩
      | next ht hf _ _ _ _ _ =>
          obtain ⟨h₁, h₂, h₃⟩ := hreg' ht
          exact ⟨_, h₁, hfed.trans hf, h₂, h₃, hend⟩
      | finish ht hf hq =>
          obtain ⟨h₁, h₂, h₃⟩ := hreg' ht
          refine ⟨_, h₁, ?_, hq ▸ h₂, hq ▸ h₃, hend⟩
          rw [List.append_assoc]
          exact hfed.trans hf

/-- **The loader counts the entries it hands on.** -/
theorem Stage.counted (X₀ : Super) {l : Loader} (hl : l.journals = []) (answer : ℕ → ReadResult)
    (n : ℕ) : ∃ L, (∀ e ∈ L, e.Regular) ∧
      ((Stage.header l X₀).after answer n).Counted X₀ l.endId L := by
  have hok : (Stage.header l X₀).Ok X₀.totalExtents := ⟨rfl, hl⟩
  induction n with
  | zero => exact ⟨[], by simp, rfl, rfl, rfl, hl⟩
  | succ n ih =>
      obtain ⟨L, hreg, hcount⟩ := ih
      exact hcount.next (hok.after answer n).1 hreg (answer n)

/-- The READs of the mount and of a compaction are answered as the stages say. -/
theorem Sys.runTask_read (σ : Sys) (err m : Bool) (junk : Buf) :
    (∀ l, σ.loader = some l →
      (∃ out : LoaderOut, out.stage = (Stage.header l σ.sup).next ⟨err, m, σ.disk.view⟩ ∧
        σ.runTask .loadHeader err m junk = σ.loaded out) ∧
      ∃ out : LoaderOut, out.stage = (Stage.page l σ.sup).next ⟨err, m, σ.disk.view⟩ ∧
        σ.runTask .loadPage err m junk = σ.loaded out) ∧
    ∀ t, σ.compact = some t →
      (∃ out : LoaderOut, out.stage = (Stage.header t.loader t.priv).next ⟨err, m, σ.disk.view⟩ ∧
        σ.runTask .compactHeader err m junk = σ.compactLoaded t m out) ∧
      ∃ out : LoaderOut, out.stage = (Stage.page t.loader t.priv).next ⟨err, m, σ.disk.view⟩ ∧
        σ.runTask .compactPage err m junk = σ.compactLoaded t m out := by
  have hout : ∀ (X : Super) (o : LoaderOut),
      ((if err then LoaderOut.error X else o).stage = if err then .error X else o.stage) := by
    intro X o
    cases err <;> rfl
  constructor
  · intro l hl
    refine ⟨⟨_, hout _ _, ?_⟩, ⟨_, hout _ _, ?_⟩⟩
    · simp only [runTask, hl]
      split_ifs <;> rfl
    · simp only [runTask, hl]
      split_ifs <;> rfl
  · intro t ht
    refine ⟨⟨_, hout _ _, ?_⟩, ⟨_, hout _ _, ?_⟩⟩
    · simp only [runTask, ht]
      split_ifs <;> rfl
    · simp only [runTask, ht]
      split_ifs <;> rfl

/-- A decoder looks at the bytes in front of `stop` only. -/
theorem decodeEntry_inside {g g' : Buf} {p stop : ℕ} (h : ∀ a, p ≤ a → a < stop → g a = g' a) :
    decodeEntry g p stop = decodeEntry g' p stop := by
  by_cases hp : stop ≤ p
  · simp only [decodeEntry, if_pos hp]
  obtain ⟨n, rfl⟩ := Nat.exists_eq_add_of_le (Nat.le_of_not_le hp)
  have hag : ∀ a < n, g (p + a) = g' (p + a) := fun a ha => h _ (by omega) (by omega)
  have heq := decodeEntry_congr hag (k := 0) le_rfl
  rw [Nat.add_zero] at heq
  -- the positions are the same as well
  have hinj : ∀ r r' : Entry × ℕ, decodeEntry g p (p + n) = some r →
      decodeEntry g' p (p + n) = some r' → (r.1, r.2 - p) = (r'.1, r'.2 - p) → r = r' := by
    rintro ⟨e, q⟩ ⟨e', q'⟩ hr hr' heq
    have h₁ := (decodeEntry_spec hr).2.1
    have h₂ := (decodeEntry_spec hr').2.1
    simp only [Prod.mk.injEq] at heq
    obtain ⟨rfl, -⟩ := heq
    rw [h₁, h₂]
  cases hr : decodeEntry g p (p + n) with
  | none =>
      rw [hr] at heq
      exact (Option.map_eq_none_iff.1 heq.symm).symm
  | some r =>
      rw [hr] at heq
      obtain ⟨r', hr', hrr⟩ := Option.map_eq_some_iff.1 heq.symm
      rw [hr', hinj r r' hr hr' hrr.symm]

/-- **Mounting terminates on every disk.**  The loader, started with any `end_id` on a
device of any size, with READs that are answered in any way, issues a bounded number of
READs, all of them inside the device, and then ends with exactly one call of `finish` or
`error`.  Where it reads a page, it is at a block of an extent that it has followed once;
a page is read again from a larger offset of its extent, or another extent is followed;
the loop over a page ends by itself; and what is decoded from a record depends on the
bytes of that record only. -/
theorem loader_terminates (header : SuperHeader) (endId : Option ℕ) (X₀ : Super)
    (answer : ℕ → ReadResult) :
    let st := (Stage.header ⟨header, endId, []⟩ X₀).after answer
    (∃ n ≤ X₀.totalExtents * 2048 + 1, ∀ k, (st k).read = none ↔ n ≤ k) ∧
    (∃! k, (st k).read ≠ none ∧
      ((∃ l X, st (k + 1) = .finish l X) ∨ ∃ X, st (k + 1) = .error X)) ∧
    (∀ k off len, (st k).read = some (off, len) →
      off + len ≤ superBlockSize + X₀.totalExtents * extentSize) ∧
    (∀ k l X, st k = .page l X → l.journals.Nodup ∧
      l.journals.getLast? = some X.cursor.extentId ∧ (∀ b ∈ l.journals, b < X₀.totalExtents) ∧
      X.cursor.extentOff % 512 = 0 ∧ X.cursor.extentOff < extentSize) ∧
    (∀ k l X l' X', st k = .page l X → st (k + 1) = .page l' X' →
      (l'.journals = l.journals ∧ X'.cursor.extentId = X.cursor.extentId ∧
        X.cursor.extentOff < X'.cursor.extentOff) ∨
      ∃ b, b ∉ l.journals ∧ l'.journals = l.journals ++ [b] ∧ X'.cursor.extentId = b ∧
        X'.cursor.extentOff = 0) ∧
    (∀ k l X, st k = .page l X → ∀ (m : Bool) (d : Buf) (j : ℕ),
      l.parsePage m (pageLen X.cursor.extentOff) (pageLen X.cursor.extentOff / journalBlockSize + 1 + j)
        0 { X with
          cursor := X.cursor.read d (mapExtentOffset X.cursor.extentId X.cursor.extentOff)
            (pageLen X.cursor.extentOff) } = l.parserPage X m d) ∧
    ∀ (g g' : Buf) (p size : ℕ), (∀ a, p ≤ a → a < p + size → g a = g' a) →
      (∀ q, p ≤ q → decodeEntry g q (p + size) = decodeEntry g' q (p + size)) ∧
      ∀ count, validateRecord g (p + journalHeaderSize) (p + size) count =
        validateRecord g' (p + journalHeaderSize) (p + size) count := by
  intro st
  have hstart : (Stage.header ⟨header, endId, []⟩ X₀).Ok X₀.totalExtents := ⟨rfl, rfl⟩
  have hok : ∀ k, (st k).Ok X₀.totalExtents := fun k => (hstart.after answer k).1
  obtain ⟨n, hn, hdone⟩ := hstart.exists_done answer
  have hdone : ∀ k, (st k).read = none ↔ n ≤ k := hdone
  have hpage : ∀ {k l X}, st k = .page l X → Stage.PageOk X₀.totalExtents l X := by
    intro k l X hk
    have := hok k
    rwa [hk] at this
  refine ⟨⟨n, hn, hdone⟩, ?_, ?_, ?_, ?_, ?_, ?_⟩
  · have hpos : n ≠ 0 := by
      rintro rfl
      exact absurd ((hdone 0).2 le_rfl) (by simp [st, Stage.after, Stage.read])
    refine ⟨n - 1, ⟨fun hr => ?_, ?_⟩, ?_⟩
    · have := (hdone _).1 hr
      omega
    · have hlast : (st (n - 1 + 1)).read = none := (hdone _).2 (by omega)
      generalize st (n - 1 + 1) = s at hlast
      cases s with
      | header | page => cases hlast
      | finish l X => exact .inl ⟨l, X, rfl⟩
      | error X => exact .inr ⟨X, rfl⟩
    · rintro k ⟨hread, hend⟩
      have h₁ : ¬ n ≤ k := fun hk => hread ((hdone k).2 hk)
      have h₂ : n ≤ k + 1 := by
        rw [← hdone]
        rcases hend with ⟨l, X, h⟩ | ⟨X, h⟩ <;> rw [h] <;> rfl
      omega
  · exact fun k off len hr => (hok k).read_inside hr
  · intro k l X hk
    have h := hpage hk
    exact ⟨h.once, h.last, h.inside, h.valid.2, h.valid.1⟩
  · intro k l X l' X' hk hk'
    have h := hok k
    rw [hk] at h
    refine h.next_page (a := answer k) ?_
    rw [← hk', ← hk]
    rfl
  · intro k l X hk m d j
    exact Loader.parsePage_fuel m l (inPage_read d (hpage hk).valid) j
  · intro g g' p size hg
    refine ⟨fun q hq => decodeEntry_inside fun a ha hlt => hg a (by omega) hlt, fun count => ?_⟩
    refine validateRecord_congr (n := size) (fun a ha => hg _ (by omega) (by omega)) le_rfl count

end Cyanfs
