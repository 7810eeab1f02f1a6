/-
# What a compaction writes

The writer of a compaction is `cyanfs_journal_writer_encode`, called again whenever its
last WRITE has completed, with whatever the mounted super has become in between.  `Writes`
is such a sequence of records.  It moves the cursor by as many sequence numbers as it has
taken entries (`Writes.seq`).

The loader of the compaction has counted the entries it has read, and their snapshot is no
longer (`Cyanfs.Metadata.Charge`).  So the new header starts at a sequence number that is
not below the old one, and the last record of the snapshot ends where the first record of
`end_id` goes on (`compaction_seq`).
-/

import Cyanfs.Journal.Format
import Cyanfs.Journal.Loading

namespace Cyanfs

open Lib

/-! ### A sequence of records -/

/-- One record: its plan, and the cursor behind it. -/
structure Wrote (nextId : Option ℕ) (c : Cursor) (head : List JEntry) (p : Plan) (c' : Cursor) :
    Prop where
  laid : Laid c head nextId p
  seq : c'.seq = c.seq + p.taken.length
  same : p.link = .none → c'.extentId = c.extentId ∧ c'.extentOff = c.extentOff + p.size
  linked : p.link ≠ .none → c'.extentOff = 0
  final : ∀ b, p.link = .final b → c'.extentId = b

theorem wrote_of_writerEncode {s s' : Super} {c c' : Cursor} {head rest : List JEntry}
    {nextId : Option ℕ} {req : WriteReq} {fl : Bool}
    (h : writerEncode s c head nextId false = .write s' c' req fl rest) :
    ∃ p, layoutRecord c head nextId = some p ∧ p.rest = rest ∧ Wrote nextId c head p c' := by
  unfold writerEncode at h
  split at h
  · cases h
  split at h
  · cases h
  split at h
  · cases h
  rename_i p hp
  have hlaid := laid_of_layoutRecord hp
  refine ⟨p, hp, ?_⟩
  split at h
  · rename_i hl
    obtain ⟨-, rfl, -, -, rfl⟩ := EncodeOut.write.inj h
    exact ⟨rfl, hlaid, by simp, fun _ => ⟨rfl, rfl⟩, fun hn => absurd hl hn, fun b hb => by simp [hl] at hb⟩
  · rename_i b hl
    obtain ⟨-, rfl, -, -, rfl⟩ := EncodeOut.write.inj h
    refine ⟨rfl, hlaid, by simp, fun hn => by simp [hl] at hn, fun _ => rfl, fun b' hb => ?_⟩
    rw [hl] at hb
    exact Link.final.inj hb
  · rename_i hl
    split at h
    · cases h
    obtain ⟨-, rfl, -, -, rfl⟩ := EncodeOut.write.inj h
    exact ⟨rfl, hlaid, by simp, fun hn => by simp [hl] at hn, fun _ => rfl, fun b hb => by simp [hl] at hb⟩

/-- A record of a sequence, with the cursor before and behind it. -/
structure WriterStep where
  before : Cursor
  plan : Plan
  behind : Cursor

/-- The records that `cyanfs_journal_writer_encode` lays out one after the other, each
with the super as it is then: from a cursor and a list of entries to what is left. -/
inductive Writes (nextId : Option ℕ) :
    Cursor → List JEntry → List WriterStep → Cursor → List JEntry → Prop
  | nil (c : Cursor) (head : List JEntry) : Writes nextId c head [] c head
  | cons {s s' : Super} {c c' c'' : Cursor} {head rest : List JEntry} {req : WriteReq} {fl : Bool}
      {p : Plan} {ps : List WriterStep} {left : List JEntry}
      (hp : layoutRecord c head nextId = some p)
      (h : writerEncode s c head nextId false = .write s' c' req fl rest)
      (ht : Writes nextId c' rest ps c'' left) : Writes nextId c head (⟨c, p, c'⟩ :: ps) c'' left

/-- **A writer counts the entries it takes.** -/
theorem Writes.seq {nextId : Option ℕ} {c c' : Cursor} {head left : List JEntry}
    {ps : List WriterStep} (h : Writes nextId c head ps c' left) :
    c'.seq + left.length = c.seq + head.length := by
  induction h with
  | nil c head => rfl
  | @cons s s' c c' c'' head rest req fl p ps left hp hw _ ih =>
      obtain ⟨p', hp', hrest, hw⟩ := wrote_of_writerEncode hw
      obtain rfl := Option.some.inj (hp.symm.trans hp')
      rw [ih, hw.seq, hw.laid.head, List.length_append, hrest]
      omega

/-- The callbacks of a compaction's writer are such records. -/
theorem Sys.writes_compactEncode {σ : Sys} {t t' : Compact}
    (h : (σ.compactEncode t false).compact = some t') (hc : σ.compact = some t) :
    t'.nextId = t.nextId ∧ t'.header = t.header ∧
      ∃ ps, Writes t.nextId t.priv.cursor t.head ps t'.priv.cursor t'.head := by
  unfold compactEncode at h
  split at h
  · cases h
  · obtain rfl : t = t' := Option.some.inj (hc.symm.trans h)
    exact ⟨rfl, rfl, [], .nil _ _⟩
  · rename_i s c req fl rest hw
    obtain rfl := Option.some.inj h
    obtain ⟨p, hp, -⟩ := wrote_of_writerEncode hw
    exact ⟨rfl, rfl, [⟨_, p, _⟩], .cons hp hw (.nil _ _)⟩

/-! ### The sequence numbers of a compaction -/

/-- The compaction that `cyanfs_journal_compact_loader_finish` sets up, and why it may
refuse. -/
theorem Sys.compact_compactLoaderFinish {σ : Sys} {t : Compact} {l : Loader} {X : Super}
    {S : List Entry} (hS : X.snapshot = some S) (hle : S.length ≤ X.cursor.seq)
    (hmax : X.cursor.seq ≤ u64Max) :
    ((σ.compactLoaderFinish t l X true).compact = none →
      l.header.version = u64Max ∨ S ≠ [] ∧ σ.sup.findNearlyExtent 0 = none) ∧
    ∀ t', (σ.compactLoaderFinish t l X true).compact = some t' →
      t'.header.journalSeq + S.length = X.cursor.seq ∧ t'.head.map (·.entry) = S ∧
      (S = [] → t'.header.journalId = l.endId.getD extentIdInvalid) ∧
      (S ≠ [] → t'.priv.cursor.seq = t'.header.journalSeq ∧ t'.nextId = l.endId ∧
        t'.header.journalId = t'.priv.cursor.extentId ∧ t'.priv.cursor.extentOff = 0) := by
  unfold compactLoaderFinish
  simp only [hS]
  have hmap : (S.map fun e => (⟨e, false⟩ : JEntry)).map (·.entry) = S := by
    rw [List.map_map]
    exact List.map_id _
  by_cases hv : l.header.version = u64Max
  · rw [if_pos (.inr (.inr hv))]
    exact ⟨fun _ => .inl hv, fun t' ht => by cases ht⟩
  rw [if_neg (by rintro (h | h | h) <;> omega)]
  by_cases hnil : S = []
  · rw [if_pos hnil]
    refine ⟨(by rintro ⟨⟩), fun t' ht => ?_⟩
    obtain rfl := Option.some.inj ht
    refine ⟨?_, by simp [hnil], fun _ => rfl, fun hne => absurd hnil hne⟩
    simp only
    omega
  · rw [if_neg hnil]
    cases hb : σ.sup.findNearlyExtent 0 with
    | none => exact ⟨fun _ => .inr ⟨hnil, rfl⟩, fun t' ht => by cases ht⟩
    | some b =>
        refine ⟨(by rintro ⟨⟩), fun t' ht => ?_⟩
        obtain rfl := Option.some.inj ht
        refine ⟨?_, hmap, fun h => absurd h hnil, fun _ => ⟨rfl, rfl, rfl, rfl⟩⟩
        simp only
        omega

/-- **The sequence numbers of a compaction work out.**  A journal that the replay accepts
has a snapshot that is no longer than it.  Whatever a compaction of the super `s` reads,
its loader ends with the sequence number of the header and as many more as it has taken
entries, so that the snapshot is refused only for want of a version or of an extent, the
new header does not start below the old one, and the record behind the snapshot has the
sequence number that is due at `end_id`. -/
theorem compaction_seq {total : ℕ} :
    (∀ (d c : Bool) (u : Uuid) (page : Buf) (L : List Entry) (X : Super),
      (Super.opened total d c u page).replayAll L = .ok X →
        ∃ S, X.snapshot = some S ∧ S.length ≤ L.length) ∧
    ∀ (s : Super) (endId : ℕ) (answer : ℕ → ReadResult) (n : ℕ) (l : Loader) (X : Super),
      (Stage.header (Compact.init s endId).loader (Compact.init s endId).priv).after answer n =
        .finish l X →
      ∃ L S, (Compact.init s endId).priv.replayAll (L ++ l.journals.map .next) =
          .ok { X with cursor := (Compact.init s endId).priv.cursor } ∧
        X.cursor.seq = l.header.journalSeq + L.length ∧
        X.snapshot = some S ∧ S.length ≤ L.length ∧
        ∀ (σ : Sys) (t : Compact),
          ((σ.compactLoaderFinish t l X true).compact = none →
            l.header.version = u64Max ∨ S ≠ [] ∧ σ.sup.findNearlyExtent 0 = none) ∧
          ∀ t', (σ.compactLoaderFinish t l X true).compact = some t' →
            l.header.journalSeq ≤ t'.header.journalSeq ∧
            t'.header.journalSeq + S.length = X.cursor.seq ∧ t'.head.map (·.entry) = S ∧
            (S = [] → t'.header.journalId = endId) ∧
            (S ≠ [] → t'.priv.cursor.seq = t'.header.journalSeq ∧ t'.nextId = some endId ∧
              t'.header.journalId = t'.priv.cursor.extentId ∧ t'.priv.cursor.extentOff = 0 ∧
              ∀ ps c', Writes t'.nextId t'.priv.cursor t'.head ps c' [] →
                c'.seq = X.cursor.seq) := by
  constructor
  · intro d c u page L X hr
    obtain ⟨S, hS, hle⟩ := Super.snapshot_of_replayAll hr
    exact ⟨S, hS, hle.trans (List.length_filter_le _ _)⟩
  · intro s endId answer n l X hfin
    obtain ⟨L, hreg, hcount⟩ := Stage.counted (Compact.init s endId).priv
      (l := (Compact.init s endId).loader) rfl answer n
    rw [hfin] at hcount
    obtain ⟨hfed, hseq, hmax, hend⟩ := hcount
    have hr := replayAll_of_fed hfed
    obtain ⟨S, hS, hle⟩ := Super.snapshot_of_replayAll hr
    have hlen : ((L ++ l.journals.map Entry.next).filter fun e : Entry => e.Regular).length =
        L.length := by
      rw [List.filter_append, List.filter_eq_self.2 fun e he => by simpa using hreg e he,
        List.filter_eq_nil_iff.2, List.append_nil]
      intro e he
      obtain ⟨b, -, rfl⟩ := List.mem_map.1 he
      simp [Entry.Regular, Entry.type]
    rw [hlen] at hle
    have hS' : X.snapshot = some S := hS
    refine ⟨L, S, hr, hseq, hS', hle, fun σ t => ?_⟩
    obtain ⟨hnone, hsome⟩ := Sys.compact_compactLoaderFinish (σ := σ) (t := t) (l := l) hS'
      (by omega) hmax
    refine ⟨hnone, fun t' ht => ?_⟩
    obtain ⟨hnew, hhead, hnil, hcons⟩ := hsome t' ht
    refine ⟨by omega, hnew, hhead, fun h => ?_, fun h => ?_⟩
    · rw [hnil h, hend]
      rfl
    · obtain ⟨hcur, hnext, hid, hoff⟩ := hcons h
      refine ⟨hcur, hnext.trans hend, hid, hoff, fun ps c' hw => ?_⟩
      have hsum := hw.seq
      have hlen : t'.head.length = S.length := by rw [← hhead, List.length_map]
      rw [List.length_nil] at hsum
      omega

/-- The loader of a compaction, on a journal with one record in front of `end_id`. -/
theorem compaction_loads (uuid : Uuid) {s Y Z : Super} {es : List Entry} {endId : ℕ}
    (hr : RecordOk 0 es (some endId) journalBlockSize) (hend : endId ≠ 0)
    (h0 : 0 < s.totalExtents) (ht : s.totalExtents ≤ extentCountMax)
    (happ : applyEntries true (Compact.init s endId).priv es = (Y, true))
    (hnext : applyEntries true Y [.next 0] = (Z, true)) :
    ∃ c c' : Cursor, c'.seq = es.length ∧
      (Compact.init s endId).loader.parserHeader (Compact.init s endId).priv true
          (recordDisk uuid es (some endId)) =
        .readPage ⟨mkfsHeader uuid 1, some endId, [0]⟩
          { (Compact.init s endId).priv with cursor := c } ∧
      Loader.parserPage ⟨mkfsHeader uuid 1, some endId, [0]⟩
          { (Compact.init s endId).priv with cursor := c } true (recordDisk uuid es (some endId)) =
        .finish ⟨mkfsHeader uuid 1, some endId, [0]⟩ { Z with cursor := c' } := by
  obtain ⟨c, hc, hhead⟩ := Loader.parserHeader_of_parse (l := (Compact.init s endId).loader)
    (X := (Compact.init s endId).priv) (superParse_superMake (recordDisk_block uuid es (some endId)))
    (by simpa [Compact.init, mkfsHeader] using hend) rfl h0 ht
  have hplace : c.place = ⟨0, 0, 0⟩ := hc
  obtain ⟨c', hseq, hpage⟩ := Loader.parserPage_final (d := recordDisk uuid es (some endId))
    (l := ⟨mkfsHeader uuid 1, some endId, [0]⟩)
    (X := { (Compact.init s endId).priv with cursor := c }) (Y := { Y with cursor := c })
    (by rw [hplace]; exact ⟨by decide, rfl⟩) (by rw [hplace]; exact scanAt_recordDisk hr) rfl
    (by rw [applyEntries_cursor, happ])
  refine ⟨c, c', ?_, hhead, hpage.trans ?_⟩
  · rw [hseq, show c.seq = 0 from congrArg Place.seq hplace, Nat.zero_add]
  · have hcur := applyEntries_cursor Y c' [.next 0]
    rw [hnext] at hcur
    simp only [Loader.end, List.map_cons, List.map_nil, hcur]

theorem after_of_loads {l l₁ l₂ : Loader} {X X₁ X₂ : Super} {d : Buf}
    (hhead : l.parserHeader X true d = .readPage l₁ X₁)
    (hpage : l₁.parserPage X₁ true d = .finish l₂ X₂) :
    (Stage.header l X).after (fun _ => ⟨false, true, d⟩) 2 = .finish l₂ X₂ := by
  have h₁ : (Stage.header l X).next ⟨false, true, d⟩ = .page l₁ X₁ := by
    simp only [Stage.next, hhead, Bool.false_eq_true, if_false, LoaderOut.stage]
  have h₂ : (Stage.page l₁ X₁).next ⟨false, true, d⟩ = .finish l₂ X₂ := by
    simp only [Stage.next, hpage, Bool.false_eq_true, if_false, LoaderOut.stage]
  rw [Stage.after, Stage.after, Stage.after, h₁, h₂]

/-- Of the three entries of a journal, two are left in its snapshot. -/
theorem compaction_seq_linked :
    let u : Uuid := ⟨List.replicate 16 7, rfl⟩
    let es : List Entry := [.create 1 (markerCandidate 0), .truncate 1 4096, .truncate 1 8192]
    let s := Super.opened 16 true true u fun _ => 0
    ∃ l X S, (Stage.header (Compact.init s 1).loader (Compact.init s 1).priv).after
        (fun _ => ⟨false, true, recordDisk u es (some 1)⟩) 2 = .finish l X ∧
      X.cursor.seq = 3 ∧ X.snapshot = some S ∧ S.length = 2 ∧
      ∀ (σ : Sys) (t t' : Compact), (σ.compactLoaderFinish t l X true).compact = some t' →
        t'.header.journalSeq = 1 ∧ t'.priv.cursor.seq = 1 ∧ t'.nextId = some 1 := by
  intro u es s
  have hused : usedSize (linked es (some 1)) = 191 := by
    simp only [usedSize, linked, es, Option.toList_some, List.map_cons, List.map_nil, List.cons_append,
      List.nil_append, List.flatMap_cons, List.flatMap_nil, List.length_append, Entry.length_encode]
    rfl
  have hr : RecordOk 0 es (some 1) journalBlockSize := by
    refine ⟨by simp [es], by simp [es, Entry.Regular, Entry.type],
      by simp [es, linked, Entry.Fits], rfl, ?_, ?_, by decide, by decide⟩
    · rw [hused]; decide
    · rw [hused]; decide
  obtain ⟨Y, Z, happ, hnext, hfile, hmax, hfiles⟩ : ∃ Y Z : Super,
      applyEntries true (Compact.init s 1).priv es = (Y, true) ∧
      applyEntries true Y [.next 0] = (Z, true) ∧ Z.filesById[1]?.isSome = true ∧
      Z.maxFileId = 1 ∧ (Z.filesById.toList.flatMap fun x => Z.fileEntries x.2).length = 2 :=
    ⟨(applyEntries true (Compact.init s 1).priv es).1,
      (applyEntries true (applyEntries true (Compact.init s 1).priv es).1 [.next 0]).1,
      Prod.ext rfl (by decide +kernel), Prod.ext rfl (by decide +kernel), by decide +kernel,
      by decide +kernel, by decide +kernel⟩
  obtain ⟨c, c', hseq, hhead, hpage⟩ :=
    compaction_loads u hr (by decide) (show 0 < 16 by decide) (show 16 ≤ _ by decide) happ hnext
  have hfin := after_of_loads hhead hpage
  obtain ⟨L, S, -, -, hS, -, hcompact⟩ := (@compaction_seq 16).2 s 1 _ 2 _ _ hfin
  have hlen : S.length = 2 := by
    obtain ⟨f, hf⟩ := Option.isSome_iff_exists.1 hfile
    have hmark : Z.markerEntries = some [] :=
      if_pos (hmax.symm ▸ Super.le_maxLiveId_of_file hf)
    have hS' : Z.snapshot = some S := hS
    rw [Super.snapshot, hmark, Option.map_some, List.append_nil] at hS'
    rw [← Option.some.inj hS', hfiles]
  refine ⟨_, _, S, hfin, hseq, hS, hlen, fun σ t t' ht' => ?_⟩
  obtain ⟨-, hsum, -, -, hne⟩ := (hcompact σ t).2 t' ht'
  obtain ⟨hcur, hend, -⟩ := hne (by rintro rfl; cases hlen)
  have h3 : t'.header.journalSeq + S.length = 3 := hsum.trans hseq
  exact ⟨by omega, by omega, hend⟩

end Cyanfs
