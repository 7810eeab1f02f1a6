/-
# A mount after a power loss

What is `Sealed` on the medium are the entries that were written when the last FLUSH
completed, in the shape that the compactions have given them (`Recalls`).  A mount of the
medium after a power loss finds them all, whichever of the two headers it selects, and goes on
from there with the records of the last moments, as far as they have arrived
(`mount_after_power_loss`).
-/

import Cyanfs.Run.PowerLoss
import Cyanfs.Run.Remount
import Cyanfs.Metadata.Compaction

namespace Cyanfs

open Lib Std

/-! ### Entries that fit their fields -/

namespace Metadata

variable {m : Metadata} {total : ℕ}

theorem maxFileId_after (m : Metadata) (e : Entry) : m.maxFileId ≤ (m.after e).maxFileId := by
  cases e with
  | create id name | fork id pid name => exact le_max_left _ _
  | _ => exact le_rfl

theorem maxFileId_afterAll (total : ℕ) (m : Metadata) (es : List Entry) :
    m.maxFileId ≤ ((history total).afterAll m es).maxFileId := by
  induction es generalizing m with
  | nil => exact le_rfl
  | cons e es ih => exact (maxFileId_after m e).trans (ih _)

theorem Admits.fits {e : Entry} (ha : m.Admits total e) (hw : m.WF total)
    (ht : total ≤ extentCountMax) (hmax : (m.after e).maxFileId ≤ u64Max) : e.Fits := by
  have hid : ∀ id ∈ m.ids, id < 256 ^ 8 := fun id hid => by
    have := (hw.ids id hid).2
    have := (maxFileId_after m e).trans hmax
    simp only [u64Max] at *
    omega
  have hnew : ∀ id, max m.maxFileId id ≤ u64Max → id < 256 ^ 8 := fun id h => by
    have := (le_max_right m.maxFileId id).trans h
    simp only [u64Max] at *
    omega
  have hindex : ∀ i ≤ extentIndexMax, i < 256 ^ 4 := fun i hi => by
    simp only [extentIndexMax] at hi
    omega
  have hfile : ∀ {id : ℕ} {f : FileInfo}, m.files id = some f → id < 256 ^ 8 := fun hf =>
    hid _ (mem_ids.2 ⟨_, hf⟩)
  cases e with
  | next b => exact ha.elim
  | create id name => exact hnew id hmax
  | fork id pid name => exact ⟨hnew id hmax, hid pid ha.2.2⟩
  | truncate id size =>
      refine ⟨hid id ha.2.1, (sizeValid_le ha.1).trans_lt ?_⟩
      decide
  | delete id => exact hid id ha.1
  | bind id i b =>
      obtain ⟨hi, hb, -, f, hf, -⟩ := ha
      refine ⟨hfile hf, hindex i hi, ?_⟩
      simp only [extentCountMax] at ht
      omega
  | unbind id i =>
      obtain ⟨hi, f, hf, -⟩ := ha
      exact ⟨hfile hf, hindex i hi⟩
  | rename id name => exact hid id ha.2.1

/-- **What a history has written fits its fields** as long as the ids do. -/
theorem fits_of_history {es : List Entry} (h : (history total).Accepts m es) (hw : m.WF total)
    (ht : total ≤ extentCountMax) (hmax : ((history total).afterAll m es).maxFileId ≤ u64Max) :
    ∀ e ∈ es, e.Fits := by
  induction es generalizing m with
  | nil => simp
  | cons e es ih =>
      obtain ⟨⟨ha, -⟩, hes⟩ := h
      have hlast := (maxFileId_afterAll total (m.after e) es).trans hmax
      intro x hx
      rcases List.mem_cons.1 hx with rfl | hx
      · exact ha.fits hw ht hlast
      · exact ih hes (hw.after ha) hmax x hx

theorem map_stored_of_history {es : List Entry} (h : (history total).Accepts .empty es)
    (ht : total ≤ extentCountMax)
    (hmax : ((history total).afterAll .empty es).maxFileId ≤ u64Max) : es.map Entry.stored = es := by
  have hfits := fits_of_history h (wf_empty total) ht hmax
  conv_rhs => rw [← List.map_id es]
  exact List.map_congr_left fun e he => Entry.stored_of_fits (hfits e he)

end Metadata

theorem Super.Same.trans {s₁ s₂ s₃ : Super} (h : s₁.Same s₂) (h' : s₂.Same s₃) : s₁.Same s₃ :=
  ⟨fun id => (h'.file id).trans (h.file id), fun id i => (h'.extent id i).trans (h.extent id i),
    h'.free.trans h.free, h'.files.trans h.files, h'.maxFileId.trans h.maxFileId⟩

/-- The ids of the public calls do not overflow. -/
theorem Super.Op.maxFileId_le {s s' : Super} {j : JEntry} (ho : s.Op j s') (h : s.maxFileId ≤ u64Max) :
    s'.maxFileId ≤ u64Max := by
  have hinit : ∀ {name : FileName} {parent : Option File}, s.maxFileId ≠ u64Max →
      s.initFile name (s.maxFileId + 1) parent = .ok s' → s'.maxFileId ≤ u64Max := by
    intro name parent hmax hi
    obtain ⟨-, -, rfl⟩ := initFile_eq_ok.1 hi
    simp only
    split_ifs <;> omega
  cases ho with
  | create _ _ _ hmax _ hi => exact hinit hmax hi
  | fork _ _ _ hmax _ _ _ hi => exact hinit hmax hi
  | rename => exact h
  | @truncate f size =>
      obtain ⟨_, _, _, _, _, _, hu⟩ := unmapped_truncateFile s f size
      rw [hu]
      exact h
  | @delete f =>
      obtain ⟨_, hd⟩ := deleteFile_shape s f
      obtain ⟨_, _, _, _, _, _, hu⟩ := unmapped_truncateFile s f 0
      rw [hd, hu]
      exact h
  | bind _ _ _ _ _ _ _ hnone =>
      rw [superToFile_eq hnone]
      exact h
  | @unbind f i =>
      obtain ⟨_, _, _, _, _, _, hu⟩ := unmapped_unmapExtent s f.id i
      rw [hu]
      exact h

namespace Sys

variable {σ σ' : Sys} {total : ℕ} {h h' : SuperHeader} {C bs bd bd' : List ℕ} {w wd wd' : Place}

theorem Change.maxFileId_le (hc : σ.Change σ') (hl : σ.loader = none) (h : σ.sup.maxFileId ≤ u64Max) :
    σ'.sup.maxFileId ≤ u64Max := by
  have hupd : ∀ (s : Super) (id : ℕ) (g : File → File), (s.updFile id g).maxFileId = s.maxFileId := by
    intro s id g
    obtain ⟨_, _, _, _, _, _, hu⟩ := Super.unmapped_updFile s id g
    rw [hu]
  cases hc with
  | «open» _ _ _ _ _ _ he | close _ _ _ _ _ _ he => exact he ▸ h
  | closeClosed he => exact he ▸ h
  | op ho he => exact he ▸ ho.maxFileId_le h
  | copyStart _ _ _ _ _ _ _ _ _ hnone he =>
      rw [he]
      simp only [Super.copyPending, hupd, Super.superToFile_eq hnone]
      exact h
  | @copied id i b src err m junk _ he =>
      rw [he, (metaEq_runTask_copy σ id i b src err m junk).maxFileId, Super.copyEnded, hupd]
      exact h
  | mount hl' =>
      rw [hl] at hl'
      cases hl'

/-- **No run of a fresh file system overflows the ids.** -/
theorem Reachable.maxFileId_le {discard compact : Bool} {u uuid : Uuid} {disk : Buf}
    (hf : FreshMkfs uuid disk) (h1 : 1 ≤ total)
    (h : (Sys.opened total discard compact u disk).Reachable σ) : σ.sup.maxFileId ≤ u64Max := by
  refine Reachable.fresh_rule (P := fun σ => σ.sup.maxFileId ≤ u64Max) hf h1 h
    (fun σ hb => ?_) (fun σ hm => ?_) (fun σ hm => ?_) fun σ l σ' _ _ _ hl hp _ he => ?_
  · rw [hb.sup]
    exact Nat.zero_le _
  · rw [hm.sup]
    exact Nat.zero_le _
  · rw [hm.sup]
    exact Nat.zero_le _
  · rcases he.change_or_quiet with hc | ⟨hm, -⟩
    · exact hc.maxFileId_le hl hp
    · rw [hm.maxFileId]
      exact hp

/-! ### What the chain on the medium means -/

/-- The entries `es` make sense and lead where `fs` lead. -/
def Stands (total : ℕ) (es fs : List Entry) : Prop :=
  (history total).Accepts .empty es ∧
    (history total).afterAll .empty es = (history total).afterAll .empty fs

section Stands

variable {es fs P S T : List Entry}

theorem Stands.append (h : Stands total es fs) (ha : (history total).Accepts .empty (fs ++ T)) :
    Stands total (es ++ T) (fs ++ T) := by
  refine ⟨Machine.accepts_append.2 ⟨h.1, ?_⟩, ?_⟩
  · rw [h.2]
    exact (Machine.accepts_append.1 ha).2
  · rw [Machine.afterAll_append, Machine.afterAll_append, h.2]

/-- A compaction puts a snapshot in the place of the entries in front. -/
theorem Stands.snap (h : Stands total (P ++ T) fs) (ht : total ≤ extentCountMax)
    (hmax : ((history total).afterAll .empty fs).maxFileId ≤ u64Max) (hs : Snap total P S) :
    Stands total (S ++ T) fs := by
  obtain ⟨u, js, X, S₀, hfed, hS₀, rfl⟩ := hs
  obtain ⟨X', S₁, hX', hS₁, hacc, hafter⟩ := exists_snapshot ht
    (Super.replaying_opened total false false u fun _ => 0)
    (Super.metadata_opened total false false u fun _ => 0) h.1
  have hsame : S₀ = S₁ := by
    have hr := replayAll_of_fed hfed
    rw [Super.replayAll_append, hX'] at hr
    have hsnap := Super.snapshot_next (show X'.replayAll (js.map .next) = _ from hr)
    rw [hS₁] at hsnap
    exact Option.some.inj (hS₀.symm.trans hsnap)
  subst hsame
  have hlast := Metadata.maxFileId_afterAll total ((history total).afterAll .empty S₀) T
  rw [← Machine.afterAll_append, hafter, h.2] at hlast
  have hstored := Metadata.map_stored_of_history (Machine.accepts_append.1 hacc).1 ht (hlast.trans hmax)
  rw [hstored]
  exact ⟨hacc, hafter.trans h.2⟩

end Stands

/-- What was written makes sense and fits its fields. -/
structure Logged (σ : Sys) (total : ℕ) : Prop where
  accepts : (history total).Accepts .empty σ.log.written
  max : ((history total).afterAll .empty σ.log.written).maxFileId ≤ u64Max

theorem Logged.stored (hl : σ.Logged total) (ht : total ≤ extentCountMax) :
    σ.log.written.map Entry.stored = σ.log.written :=
  Metadata.map_stored_of_history hl.accepts ht hl.max

theorem Reachable.logged {discard compact : Bool} {u uuid : Uuid} {disk : Buf}
    (hf : FreshMkfs uuid disk) (h1 : 1 ≤ total) (he : σ.sup.error = false)
    (h : (Sys.opened total discard compact u disk).Reachable σ) : σ.Logged total := by
  have hj := h.journalOk hf h1
  have hacc := hj.accepts
  have hcontent := hj.content
  rw [hj.account.all he] at hacc hcontent
  refine ⟨(Machine.accepts_append.1 hacc).1, ?_⟩
  have hmax := Metadata.maxFileId_afterAll total ((history total).afterAll .empty σ.log.written)
    (σ.inFlight ++ σ.sup.journalHead.map (·.entry))
  rw [← Machine.afterAll_append, hcontent] at hmax
  exact hmax.trans (h.maxFileId_le hf h1)

/-- The entries of the chain up to `wd` lead where those lead that were written when the last
FLUSH completed. -/
def Recalls (σ : Sys) (total : ℕ) (h : SuperHeader) (bd : List ℕ) (wd : Place) : Prop :=
  ∃ es, Tells σ.disk.view h.uuid.seed h.place bd es wd ∧
    Stands total es (σ.log.written.take σ.log.durable)

/-- Up to `w` the chain has all that was written. -/
theorem Recalls.all (hr : σ.Recalls total h bd wd) (hs : σ.Sealed h C bs w bd wd)
    (hl : σ.Logged total) (ht : total ≤ extentCountMax) :
    ∃ es, Tells σ.disk.view h.uuid.seed h.place bs es w ∧ Stands total es σ.log.written := by
  obtain ⟨es, htells, hstands⟩ := hr
  obtain ⟨post, rfl, htrace⟩ := hs.onward.back
  have hdrop : (σ.log.written.drop σ.log.durable).map Entry.stored =
      σ.log.written.drop σ.log.durable := by
    rw [List.map_drop, hl.stored ht]
  rw [hdrop] at htrace
  have happ : σ.log.written.take σ.log.durable ++ σ.log.written.drop σ.log.durable = σ.log.written :=
    List.take_append_drop _ _
  refine ⟨_, htells.append htrace, ?_⟩
  have := hstands.append (T := σ.log.written.drop σ.log.durable) (by rw [happ]; exact hl.accepts)
  rwa [happ] at this

/-- **What the chain means stays** when it grows, when a FLUSH completes and when a compaction
changes over to its own. -/
theorem Recalls.advance (hr : σ.Recalls total h bd wd) (hs : σ.Sealed h C bs w bd wd)
    (hl : σ.Logged total) (ht : total ≤ extentCountMax)
    (ha : Advance σ σ' total h bs w bd wd h' bd' wd') : σ'.Recalls total h' bd' wd' := by
  have htake : σ'.log.durable = σ.log.written.length → σ'.log.written = σ.log.written →
      σ'.log.written.take σ'.log.durable = σ.log.written := fun hd hw => by
    rw [hd, hw, List.take_length]
  cases ha with
  | keep hd hw hv =>
      obtain ⟨es, htells, hstands⟩ := hr
      refine ⟨es, htells.congr h.valid_place hv, ?_⟩
      obtain ⟨fs, hfs⟩ := hw
      rw [hd, ← hfs, List.take_append_of_le_length hs.durable]
      exact hstands
  | flush hd hw hv =>
      obtain ⟨es, htells, hstands⟩ := hr.all hs hl ht
      refine ⟨es, ?_, ?_⟩
      · rw [hv]
        exact htells
      · rw [htake hd hw]
        exact hstands
  | turn hd hw hv hrep =>
      obtain ⟨es, htells, hstands⟩ := hr.all hs hl ht
      obtain ⟨P, S, T, hsnap, hold, hnew⟩ := hrep
      obtain rfl := htells.unique hold
      refine ⟨S ++ T, ?_, ?_⟩
      · rw [hv]
        exact hnew
      · rw [htake hd hw]
        exact hstands.snap ht hl.max hsnap

/-! ### Every run -/

/-- What a mount would find is on the medium. -/
def Safe (σ : Sys) (total : ℕ) : Prop :=
  ∃ h C bs w bd wd, σ.Held total h C bs w ∧ σ.Sealed h C bs w bd wd ∧ σ.Recalls total h bd wd

theorem slotted_superMake {uuid : Uuid} {g : Buf} (hg : g.slice 0 superBlockSize = superMake uuid) :
    Slotted g (mkfsHeader uuid 1) := by
  rw [superMake, ← length_superMake uuid, superMake] at hg
  obtain ⟨-, h₁⟩ := (Buf.slice_append_iff g 0 _ _).1 hg
  rw [length_slotBytes, length_slotBytes, Nat.zero_add] at h₁
  have hfits : (mkfsHeader uuid 1).Fits := by
    simp only [SuperHeader.Fits, mkfsHeader]
    decide
  have hslot : (mkfsHeader uuid 1).slot = superHeaderSize := by
    simp [SuperHeader.slot, mkfsHeader]
  rw [Slotted, hslot]
  exact slot_of_slice hfits h₁

/-- **The mount of a fresh file system.** -/
theorem Fetched.safe {uuid : Uuid} {Z : Super} {disk : Buf} {es : List Entry}
    (hm : σ.Fetched Z disk h bs w es) (hh : σ.Held total h [] bs w) (hf : FreshMkfs uuid disk) :
    σ.Safe total := by
  obtain ⟨hdisk, hw, hd⟩ := hm.fresh
  have hview : σ.disk.view = disk := by
    rw [hdisk]
    rfl
  have hfix : ∀ a, σ.disk.Fixed a := Disk.fixed_of_cache (by rw [hdisk])
  obtain rfl : h = mkfsHeader uuid 1 :=
    Option.some.inj (hm.parse.symm.trans (superParse_superMake hf.block))
  obtain ⟨X, -, hst⟩ := hh.chain
  obtain ⟨-, ht, -, -⟩ := hst.idle_of_working hm.working
  refine ⟨_, [], bs, w, bs, w, hh, hh.sealed hfix (by rw [hd, hw]; rfl) (.plain ?_ (fun a _ => hfix a) ?_),
    es, ?_, ?_⟩
  · rw [ht]
    exact List.not_mem_nil
  · rw [hview]
    exact slotted_superMake hf.block
  · rw [hview]
    exact hm.tells
  · have hstops : Stops disk (mkfsHeader uuid 1).uuid.seed (mkfsHeader uuid 1).place :=
        fun size es next hs => by
      have hempty : scanAt disk uuid.seed ⟨0, 0, 0⟩ = .stop := hf.empty
      rw [show scanAt disk (mkfsHeader uuid 1).uuid.seed (mkfsHeader uuid 1).place = .stop from hempty] at hs
      cases hs
    obtain ⟨js, -, htrace⟩ := hm.tells
    obtain ⟨rfl, -, -⟩ := hstops.trace htrace
    rw [hw, List.take_nil]
    exact ⟨trivial, rfl⟩

/-- **Every step keeps it so.** -/
theorem Safe.step {l : Label} (hs : σ.Safe total) (hσ : σ.Orderly total) (hl : σ.Logged total)
    (ht : total ≤ extentCountMax) (hstep : σ.step l = some σ') (he : σ'.sup.error = false) :
    σ'.Safe total := by
  obtain ⟨h, C, bs, w, bd, wd, hh, hsealed, hrec⟩ := hs
  obtain ⟨h', C', bs', w', bd', wd', hh', hsealed', hadv⟩ := hsealed.step hh hσ ht hstep he
  exact ⟨h', C', bs', w', bd', wd', hh', hsealed', hrec.advance hsealed hl ht hadv⟩

/-- **Every run of a fresh file system keeps its journal on the medium.** -/
theorem Reachable.safe {discard compact : Bool} {u uuid : Uuid} {disk : Buf}
    (hf : FreshMkfs uuid disk) (h1 : 1 ≤ total) (ht : total ≤ extentCountMax)
    (h : (Sys.opened total discard compact u disk).Reachable σ) (hready : σ.sup.ready = true)
    (herr : σ.sup.error = false) : σ.Safe total := by
  have key : (Sys.opened total discard compact u disk).Reachable σ ∧ (σ.sup.error = true ∨
      (∃ Z k, σ.Mounting Z disk k) ∨ σ.Safe total) := by
    refine h.rule (P := fun σ => (Sys.opened total discard compact u disk).Reachable σ ∧
      (σ.sup.error = true ∨ (∃ Z k, σ.Mounting Z disk k) ∨ σ.Safe total)) ?_ ?_
    · exact ⟨⟨[], rfl⟩, .inr (.inl ⟨_, ⟨none, ∅⟩, mounting_opened ..⟩)⟩
    · rintro σ l σ' ⟨hr, hk⟩ hstep
      refine ⟨hr.trans ⟨[l], by rw [run, hstep]; rfl⟩, ?_⟩
      cases he : σ'.sup.error with
      | true => exact .inl rfl
      | false =>
          have hgood := error_moves (moves_effect (hr.orderly.step hstep).2) he
          rcases hk with hbad | ⟨Z, k, hm⟩ | hs
          · rw [hgood] at hbad
            cases hbad
          · rcases hm.step hr.orderly hstep he with hm | ⟨h, bs, w, es, -, hh, hfetched⟩
            · exact .inr (.inl ⟨Z, _, hm⟩)
            · exact .inr (.inr (hfetched.safe hh hf))
          · exact .inr (.inr (hs.step hr.orderly (hr.logged hf h1 hgood) ht hstep he))
  rcases key.2 with hbad | ⟨Z, k, hm⟩ | hs
  · rw [herr] at hbad
    cases hbad
  · have := hm.ready
    rw [hready] at this
    cases this
  · exact hs

/-! ### After a power loss -/

/-- A slot of the super block is the old one or the new one, or its check fails. -/
def SlotsWhole (d : Disk) (g : Buf) : Prop := ∀ p, p = 0 ∨ p = superHeaderSize →
  (∀ i < superHeaderSize, g (p + i) = d.stable (p + i)) ∨
    (∀ i < superHeaderSize, g (p + i) = d.view (p + i)) ∨ ¬ slotValid g p

section Torn

variable {g : Buf} {t : Compact}

theorem Held.parse (hh : σ.Held total h C bs w) (hm : .compactFinish ∉ σ.compacts) :
    superParse σ.disk.view = some h := by
  obtain ⟨X, -, hst⟩ := hh.chain
  cases hst with
  | idle _ _ _ _ hp | init _ _ _ _ _ hp | header _ _ _ _ _ hp | page _ _ _ _ _ _ _ hp
  | writing _ _ _ _ _ hp | super _ _ _ _ hp | flushSuper _ _ _ _ _ _ hp => exact hp
  | finish hb => exact absurd (hb.task ▸ List.mem_singleton_self _) hm

/-- What a compaction has on the disk when its header is to be written, and behind that. -/
structure Changing (σ : Sys) (total : ℕ) (h : SuperHeader) (C bs : List ℕ) (w : Place) (t : Compact)
    (e s : ℕ) (S : List Entry) : Prop where
  nodup : bs.Nodup
  ahead : Upto bs e σ.sup.cursor.extentIdOndisk
  cut : Cut total t σ.disk.view h bs w e s S
  own : Tells σ.disk.view h.uuid.seed t.header.place (C ++ [e]) S ⟨e, 0, s⟩

theorem Held.changing {task : Task} (hh : σ.Held total h C bs w) (hm : task ∈ σ.compacts)
    (hlate : task.isLate = true) (hc : σ.compact = some t) :
    ∃ e s S, σ.Changing total h C bs w t e s S := by
  obtain ⟨X, hl, hst⟩ := hh.chain
  have hn := (List.nodup_append.1 (List.nodup_append.1 hl.nodup).1).1
  cases hst with
  | idle _ _ ht | init _ _ ht =>
      rw [ht] at hm
      cases hm
  | header hb | page hb | writing hb | super hb =>
      rw [hb.task] at hm
      rw [List.mem_singleton.1 hm] at hlate
      cases hlate
  | flushSuper hb hcut hown =>
      rw [hb.compact] at hc
      obtain rfl := Option.some.inj hc
      exact ⟨_, _, _, hn, hb.ahead, hcut, hown⟩
  | finish hb hcut hown =>
      rw [hb.compact] at hc
      obtain rfl := Option.some.inj hc
      exact ⟨_, _, _, hn, hb.ahead, hcut, hown⟩

theorem Held.parse_finish (hh : σ.Held total h C bs w) (hm : .compactFinish ∈ σ.compacts)
    (hc : σ.compact = some t) : superParse σ.disk.view = some t.header := by
  obtain ⟨X, -, hst⟩ := hh.chain
  cases hst with
  | idle _ _ ht | init _ _ ht =>
      rw [ht] at hm
      cases hm
  | header hb | page hb | writing hb | super hb | flushSuper hb =>
      rw [hb.task] at hm
      cases List.mem_singleton.1 hm
  | finish hb _ _ hp =>
      rw [hb.compact] at hc
      obtain rfl := Option.some.inj hc
      exact hp

/-- The header that the mount selects: the old one, or the one of a compaction that is about to
change over. -/
theorem Sealed.header (hs : σ.Sealed h C bs w bd wd) (hh : σ.Held total h C bs w)
    (hg : σ.disk.Torn g) (hslots : SlotsWhole σ.disk g) :
    superParse g = some h ∨ ∃ t, .compactFinish ∈ σ.compacts ∧ σ.compact = some t ∧
      superParse g = some t.header := by
  have hfixed : (∀ a < superBlockSize, σ.disk.Fixed a) → superParse g = superParse σ.disk.view :=
    fun hf => superParse_congr fun a ha => (hf a ha).torn hg
  cases hs.block with
  | plain hm hf _ => exact .inl ((hfixed hf).trans (hh.parse hm))
  | @landed t hm hc hf _ =>
      exact .inr ⟨t, hm, hc, (hfixed hf).trans (hh.parse_finish hm hc)⟩
  | @landing t hm hc hf hslot hp hold =>
      obtain ⟨e, s, S, hch⟩ := hh.changing hm rfl hc
      have hout : ∀ a < superBlockSize, a < t.header.slot ∨ t.header.slot + superHeaderSize ≤ a →
          g a = σ.disk.view a ∧ g a = σ.disk.stable a := fun a ha ho =>
        ⟨(hf a ha ho).torn hg, ((hf a ha ho).torn hg).trans (hf a ha ho).view⟩
      have hwhole : ∀ {d : Buf}, (∀ i < superHeaderSize, g (t.header.slot + i) = d (t.header.slot + i)) →
          (∀ a < superBlockSize, a < t.header.slot ∨ t.header.slot + superHeaderSize ≤ a → g a = d a) →
          superParse g = superParse d := fun hd ho => by
        refine superParse_congr fun a ha => ?_
        by_cases hcase : a < t.header.slot ∨ t.header.slot + superHeaderSize ≤ a
        · exact ho a ha hcase
        · have := hd (a - t.header.slot) (by omega)
          rwa [Nat.add_sub_cancel' (by omega)] at this
      rcases hslots t.header.slot t.header.slot_cases with hd | hd | hbad
      · exact .inl ((hwhole hd fun a ha ho => (hout a ha ho).2).trans hp)
      · refine .inr ⟨t, hm, hc, (hwhole hd fun a ha ho => (hout a ha ho).1).trans ?_⟩
        exact hh.parse_finish hm hc
      · exact .inl (superParse_of_torn hp hold hch.cut.follows hbad fun a ha ho => (hout a ha ho).2)

/-- The chain of a compaction is on the medium before its header is written. -/
theorem Sealed.chain_of_late {task : Task} {e s : ℕ} {S es : List Entry}
    (hs : σ.Sealed h C bs w bd wd) (hm : task ∈ σ.compacts) (hlate : task.isLate = true)
    (hch : σ.Changing total h C bs w t e s S) (hl : σ.Logged total) (ht : total ≤ extentCountMax)
    (htells : Tells σ.disk.view h.uuid.seed h.place bd es wd)
    (hstands : Stands total es (σ.log.written.take σ.log.durable)) (hg : σ.disk.Torn g) :
    ∃ bd' es', Tells g h.uuid.seed t.header.place bd' es' wd ∧
      Stands total es' (σ.log.written.take σ.log.durable) := by
  have hmem : e ∈ bd := by
    obtain ⟨post, rfl, -⟩ := hs.onward.back
    exact hch.ahead.mem_of_append hch.nodup hs.ondisk
  obtain ⟨pre, post, rfl, P, S', T, hsnap, hold, hnew⟩ :=
    hch.cut.replaces hch.nodup hch.own htells.reaches hmem
  rw [hch.cut.follows.uuid] at hnew
  obtain rfl := htells.unique hold
  have hmax : ((history total).afterAll .empty (σ.log.written.take σ.log.durable)).maxFileId ≤
      u64Max := by
    have := Metadata.maxFileId_afterAll total
      ((history total).afterAll .empty (σ.log.written.take σ.log.durable))
      (σ.log.written.drop σ.log.durable)
    rw [← Machine.afterAll_append, List.take_append_drop] at this
    exact this.trans hl.max
  refine ⟨C ++ e :: post, S' ++ T, hnew.congr t.header.valid_place fun a ha => ?_,
    hstands.snap ht hmax hsnap⟩
  have hfoot : Footprint (pre ++ e :: post) wd a → g a = σ.disk.view a := fun ha =>
    (hs.fixed a ha).torn hg
  rcases ha with ⟨b, hb, hin⟩ | ha
  · rw [List.dropLast_append_of_ne_nil (by simp)] at hb
    rcases List.mem_append.1 hb with hb | hb
    · exact (hs.own _ hm hlate b hb a hin).torn hg
    · refine hfoot (.inl ⟨b, ?_, hin⟩)
      rw [List.dropLast_append_of_ne_nil (by simp)]
      exact List.mem_append_right _ hb
  · exact hfoot (.inr ha)

/-- **What a power loss leaves**: from the header that a mount selects the chain leads to the place
that it had reached when the last FLUSH completed, and its entries there lead where all those
lead that were written by then. -/
theorem Safe.torn (hs : σ.Safe total) (hl : σ.Logged total) (ht : total ≤ extentCountMax)
    (hg : σ.disk.Torn g) (hslots : SlotsWhole σ.disk g) :
    ∃ h' bd es wd, superParse g = some h' ∧ Tells g h'.uuid.seed h'.place bd es wd ∧
      Stands total es (σ.log.written.take σ.log.durable) ∧
      ∃ js q, Trace σ.disk.view h'.uuid.seed wd (σ.log.written.drop σ.log.durable) js q := by
  obtain ⟨h, C, bs, w, bd, wd, hh, hsealed, es, htells, hstands⟩ := hs
  have hrest : ∃ js q, Trace σ.disk.view h.uuid.seed wd (σ.log.written.drop σ.log.durable) js q := by
    obtain ⟨post, -, htrace⟩ := hsealed.onward.back
    rw [List.map_drop, hl.stored ht] at htrace
    exact ⟨post, w, htrace⟩
  rcases hsealed.header hh hg hslots with hp | ⟨t, hm, hc, hp⟩
  · exact ⟨h, bd, es, wd, hp, htells.congr h.valid_place fun a ha => (hsealed.fixed a ha).torn hg,
      hstands, hrest⟩
  · obtain ⟨e, s, S, hch⟩ := hh.changing hm rfl hc
    obtain ⟨bd', es', htells', hstands'⟩ :=
      hsealed.chain_of_late hm rfl hch hl ht htells hstands hg
    rw [← hch.cut.follows.uuid] at htells' hrest
    exact ⟨t.header, bd', es', wd, hp, htells', hstands', hrest⟩

end Torn

/-! ### The mount -/

section Mount

variable {Z : Super} {disk g : Buf} {es : List Entry}

/-- The NEXT entries of a chain take its extents out of the free ones. -/
theorem replayAll_next {X Y : Super} {js : List ℕ} (hr : X.replayAll (js.map .next) = .ok Y) :
    X.MetaEq Y ∧ X.free = Y.free ∪ js.toFinset := by
  induction js generalizing X with
  | nil =>
      obtain rfl := Except.ok.inj hr
      exact ⟨.refl _, by simp⟩
  | cons b js ih =>
      rw [List.map_cons, Super.replayAll] at hr
      split at hr
      · rename_i X' hX'
        cases Super.replay_eq_ok.1 hX' with
        | next _ hfree =>
            obtain ⟨hmeta, hunion⟩ := ih hr
            refine ⟨(Super.MetaEq.takeJournal X b).trans hmeta, ?_⟩
            rw [List.toFinset_cons, Finset.union_insert, ← hunion]
            exact (Finset.insert_erase hfree).symm
      · cases hr

/-- **What the mount has made of the entries of the chain.** -/
theorem Fetched.replays (hm : σ.Fetched Z disk h bs w es) (hZ : Z.Replaying total)
    (hempty : Z.metadata = .empty) (hj : Z.journal = ∅) :
    (metadata total).Accepts .empty es ∧ ∃ X : Super, X.Replaying total ∧
      X.metadata = (metadata total).afterAll .empty es ∧
      X.Same { σ.sup with free := σ.sup.free ∪ σ.sup.journal } := by
  obtain ⟨Y, hfed, hsup⟩ := hm.fed
  obtain ⟨js, -, htrace⟩ := hm.tells
  have hjournal : Y.journal = bs.toFinset := journal_of_fed hfed htrace.regular hj
  have hr := replayAll_of_fed hfed
  rw [Super.replayAll_append] at hr
  split at hr
  swap
  · cases hr
  rename_i X hX
  obtain ⟨hacc, hrX, hmX⟩ := Super.accepts_of_replayAll hZ htrace.regular hX
  obtain ⟨hmeta, hunion⟩ := replayAll_next hr
  rw [hempty] at hacc hmX
  have hfiles : σ.sup.filesById = X.filesById := by
    rw [hsup]
    exact hmeta.filesById
  refine ⟨hacc, X, hrX, hmX, ?_⟩
  refine ⟨fun id => ?_, fun id i => ?_, ?_, ?_, ?_⟩
  · simp only [hfiles]
  · simp only [Super.extentAt, hfiles]
  · rw [hsup, hunion]
    exact congrArg (Y.free ∪ ·) hjournal
  · rw [hsup]
    exact hmeta.files
  · rw [hsup]
    exact hmeta.maxFileId

/-- The mount goes on where a chain ends that it walks. -/
theorem Fetched.beyond (hm : σ.Fetched Z g h bs w es) {fs : List Entry}
    (ht : Tells g h.uuid.seed h.place bd fs wd) :
    ∃ T js, es = fs ++ T ∧ Trace g h.uuid.seed wd T js w ∧ Stops g h.uuid.seed w := by
  obtain ⟨js, -, htrace⟩ := hm.tells
  obtain ⟨js', -, htrace'⟩ := ht
  rcases htrace'.total htrace with ⟨T, ks, hes, -, hT⟩ | ⟨T, ks, hfs, -, hT⟩
  · exact ⟨T, ks, hes, hT, hm.stops⟩
  · obtain ⟨rfl, rfl, rfl⟩ := hm.stops.trace hT
    rw [List.append_nil] at hfs
    exact ⟨[], [], by rw [hfs, List.append_nil], hT, hm.stops⟩

theorem fetched_of_step {size : ℕ} {discard compact : Bool} {u : Uuid} {ls : List Label} {l : Label}
    (hsize : extentsOfSize size = some total)
    (hrun : (Sys.opened total discard compact u g).run ls = some σ) (hready : σ.sup.ready = false)
    (hstep : σ.step l = some σ') (hready' : σ'.sup.ready = true) (herr : σ'.sup.error = false) :
    ∃ h bs w es, σ'.Fetched (Sys.opened total discard compact u g).sup g h bs w es := by
  have hσ : σ.Orderly total := Reachable.orderly ⟨ls, hrun⟩
  have hgood := error_moves (moves_effect (hσ.step hstep).2) herr
  rcases booked_of_run hsize hrun ⟨none, ∅⟩ with hbad | hm | ⟨h, C, bs, w, -, hh⟩
  · rw [hgood] at hbad
    cases hbad
  · rcases hm.step hσ hstep herr with hm' | ⟨h, bs, w, es, -, -, hf⟩
    · have := hm'.ready
      rw [hready'] at this
      cases this
    · exact ⟨h, bs, w, es, hf⟩
  · have := hh.ready
    rw [hready] at this
    cases this

end Mount

/-! ### Runs with a power loss -/

section Crash

variable {size : ℕ} {discard compact d c : Bool} {u uuid v : Uuid} {disk g : Buf} {ls ms : List Label}
  {l : Label} {τ τ' : Sys}

/-- What a mount finds after a power loss in a reachable state. -/
theorem Reachable.recovered (page : Buf) (hsize : extentsOfSize size = some total)
    (hf : FreshMkfs uuid disk) (hreach : (Sys.opened total discard compact u disk).Reachable σ)
    (hready : σ.sup.ready = true) (herr : σ.sup.error = false) (hg : σ.disk.Torn g)
    (hslots : SlotsWhole σ.disk g) (hmount : (Sys.opened total d c v g).run ms = some τ)
    (hbefore : τ.sup.ready = false) (hstep : τ.step l = some τ') (hafter : τ'.sup.ready = true)
    (hgood : τ'.sup.error = false) :
    ∃ seed p T s,
      (∃ js q, Trace σ.disk.view seed p (σ.log.written.drop σ.log.durable) js q) ∧
      (∃ js q, Trace g seed p T js q ∧ Stops g seed q) ∧
      (Super.opened total d c v page).replayAll (σ.log.written.take σ.log.durable ++ T) = .ok s ∧
      s.Same { τ'.sup with free := τ'.sup.free ∪ τ'.sup.journal } := by
  obtain ⟨h1, ht⟩ := one_le_of_extentsOfSize hsize
  have hlog := hreach.logged hf h1 herr
  obtain ⟨h, bd, es, wd, hp, htells, hstands, hrest⟩ :=
    (hreach.safe hf h1 ht hready herr).torn hlog ht hg hslots
  obtain ⟨h', bs, w, fs, hfetched⟩ := fetched_of_step hsize hmount hbefore hstep hafter hgood
  obtain rfl : h = h' := Option.some.inj (hp.symm.trans hfetched.parse)
  obtain ⟨T, js, rfl, htrace, hstop⟩ := hfetched.beyond htells
  obtain ⟨hacc, X, hX, hmX, hsame⟩ := hfetched.replays (Super.replaying_opened total d c v fun _ => 0)
    (Super.metadata_opened total d c v fun _ => 0) rfl
  have hafterAll : (metadata total).afterAll .empty (es ++ T) =
      (metadata total).afterAll .empty (σ.log.written.take σ.log.durable ++ T) := by
    rw [Machine.afterAll_append, Machine.afterAll_append]
    exact congrArg (fun m => (metadata total).afterAll m T) hstands.2
  have hfront : (metadata total).Accepts .empty (σ.log.written.take σ.log.durable) := by
    have hall := hlog.accepts
    rw [← List.take_append_drop σ.log.durable σ.log.written] at hall
    exact Metadata.accepts_of_history (Machine.accepts_append.1 hall).1
  have hback : (metadata total).Accepts
      ((metadata total).afterAll .empty (σ.log.written.take σ.log.durable)) T := by
    have hT := (Machine.accepts_append.1 hacc).2
    rwa [show (metadata total).afterAll .empty es = (metadata total).afterAll .empty
      (σ.log.written.take σ.log.durable) from hstands.2] at hT
  obtain ⟨s, hs, hrs, hms⟩ := Super.replayAll_of_accepts ht (Super.replaying_opened total d c v page)
    (by rw [Super.metadata_opened]; exact Machine.accepts_append.2 ⟨hfront, hback⟩)
  refine ⟨h.uuid.seed, wd, T, s, hrest, ⟨js, w, htrace, hstop⟩, hs, (hrs.same hX ?_).trans hsame⟩
  rw [hmX, hafterAll, hms, Super.metadata_opened]

/-- **A mount after a power loss.**  Whatever a power loss leaves of the WRITEs since the last FLUSH
of a run, a mount of it finds all that was written when that FLUSH completed, however often the
journal was compacted: the mounted super is what the replay of these entries leads to, and of the
entries `T` of the records behind the place where those end, as far as they have arrived; the
free extents are those of the replay without the journal. -/
theorem mount_after_power_loss (page : Buf) (hsize : extentsOfSize size = some total)
    (hf : FreshMkfs uuid disk) (hrun : (Sys.opened total discard compact u disk).run ls = some σ)
    (hready : σ.sup.ready = true) (herr : σ.sup.error = false) (hg : σ.disk.Torn g)
    (hslots : SlotsWhole σ.disk g) (hmount : (Sys.opened total d c v g).run ms = some τ)
    (hbefore : τ.sup.ready = false) (hstep : τ.step l = some τ') (hafter : τ'.sup.ready = true)
    (hgood : τ'.sup.error = false) :
    ∃ seed p T s,
      (∃ js q, Trace σ.disk.view seed p (σ.log.written.drop σ.log.durable) js q) ∧
      (∃ js q, Trace g seed p T js q ∧ Stops g seed q) ∧
      (Super.opened total d c v page).replayAll (σ.log.written.take σ.log.durable ++ T) = .ok s ∧
      s.Same { τ'.sup with free := τ'.sup.free ∪ τ'.sup.journal } := by
  have hreach : (Sys.opened total discard compact u disk).Reachable σ := ⟨ls, hrun⟩
  exact hreach.recovered page hsize hf hready herr hg hslots hmount hbefore hstep hafter hgood

/-- **What is written can be mounted.**  If nothing is on its way to the journal, no compaction is
under way, and no old record follows the end of the chain, then a mount of the disk comes to its
end. -/
theorem Reachable.exists_mount (hsize : extentsOfSize size = some total) (hf : FreshMkfs uuid disk)
    (hreach : (Sys.opened total discard compact u disk).Reachable σ) (hready : σ.sup.ready = true)
    (herr : σ.sup.error = false) (hrecords : σ.records = []) (hcompacts : σ.compacts = [])
    (hflight : σ.inFlight = []) (hhead : σ.sup.journalHead = [])
    (hstop : scanAt σ.disk.view σ.sup.uuid.seed σ.sup.cursor.place = .stop) :
    ∃ n τ, (Sys.opened total d c v σ.disk.view).run (Sys.work n) = some τ ∧ τ.sup.ready = true ∧
      τ.sup.error = false ∧ τ.sup.metadata = σ.sup.metadata := by
  obtain ⟨h1, ht⟩ := one_le_of_extentsOfSize hsize
  have hlog := hreach.logged hf h1 herr
  have hj := hreach.journalOk hf h1
  obtain ⟨h, C, bs, w, bd, wd, hh, hsealed, hr⟩ := hreach.safe hf h1 ht hready herr
  obtain ⟨es, htells, hstands⟩ := hr.all hsealed hlog ht
  obtain ⟨X, hl, hst⟩ := hh.chain
  obtain ⟨rfl, hw⟩ := hl.tip.of_nil hrecords
  have hp : superParse σ.disk.view = some h := by
    cases hst with
    | idle _ _ _ _ hp | init _ _ _ _ _ hp => exact hp
    | header hb | page hb | writing hb | super hb | flushSuper hb | finish hb =>
        exact absurd hb.task (by simp [hcompacts])
  -- the chain holds what was appended
  have happ : σ.log.appended = σ.log.written := by
    simpa [hflight, hhead] using hj.account.all herr
  let Z := Super.opened total d c v fun _ => 0
  have hempty : Z.metadata = .empty := Super.metadata_opened total d c v fun _ => 0
  obtain ⟨Y₁, hY₁, hrY, hmY⟩ := Super.replayAll_of_accepts ht
    (Super.replaying_opened total d c v fun _ => 0)
    (by rw [hempty]; exact Metadata.accepts_of_history hstands.1)
  have hmeta : Y₁.metadata = σ.sup.metadata := by
    rw [hmY, hempty, ← hj.content, happ]
    exact hstands.2
  -- and its extents are free there
  have hnodup : bs.Nodup := (List.nodup_append.1 (List.nodup_append.1 hl.nodup).1).1
  have hsound := hreach.sound
  have hpart := hsound.totalExtents ▸ hsound.extents.sup.parts
  have hchain : ∀ b ∈ bs, b < total ∧ b ∈ Y₁.free := fun b hb => by
    have hjb : b ∈ σ.sup.journal := by
      rw [hl.journal]
      simp [hb]
    have hlt := hpart.1 .journal hjb
    refine ⟨hlt, hrY.mem_free.2 ⟨hlt, fun hbound => ?_⟩⟩
    obtain ⟨id, i, hi⟩ := Super.bound_of_metadata (hmeta ▸ hbound)
    cases hpart.mem_unique .journal (.file id i) hjb hi
  obtain ⟨Y, hY⟩ := Super.exists_replayAll_next hnodup fun b hb =>
    ⟨Nat.le_of_lt_succ ((hchain b hb).1.trans_le ht), (hchain b hb).2⟩
  obtain ⟨n, τ, c', hτ, hsup, -⟩ := Sys.exists_mount hp htells (by rw [← hl.uuid, ← hw]; exact hstop)
    hnodup (fun b hb => (hchain b hb).1) ht hY₁ hY
  refine ⟨n, τ, hτ, by rw [hsup], ?_, ?_⟩
  · rw [hsup]
    exact (Super.error_replayAll hY).trans (Super.error_replayAll hY₁)
  · rw [hsup, ← hmeta]
    exact (replayAll_next hY).1.metadata

/-- In a run that comes to be mounted some step mounts it. -/
theorem exists_mounting_step {σ₀ : Sys} (hσ : σ₀.Orderly total) (hrun : σ₀.run ls = some σ)
    (h₀ : σ₀.sup.ready = false) (hready : σ.sup.ready = true) (herr : σ.sup.error = false) :
    ∃ ms l τ τ', σ₀.run ms = some τ ∧ τ.sup.ready = false ∧ τ.step l = some τ' ∧
      τ'.sup.ready = true ∧ τ'.sup.error = false := by
  induction ls generalizing σ₀ with
  | nil =>
      obtain rfl := Option.some.inj hrun
      rw [h₀] at hready
      cases hready
  | cons l ls ih =>
      obtain ⟨τ, hτ, hrest⟩ := Option.bind_eq_some_iff.1 hrun
      have hστ := (hσ.step hτ).1
      cases hr : τ.sup.ready with
      | false =>
          obtain ⟨ms, l', τ₁, τ₂, hms, h⟩ := ih hστ hrest hr
          exact ⟨l :: ms, l', τ₁, τ₂, by rw [run, hτ, Option.bind_some, hms], h⟩
      | true =>
          refine ⟨[], l, σ₀, τ, rfl, h₀, hτ, hr, ?_⟩
          exact (Reachable.rule (P := fun σ => σ.Orderly total ∧ (σ.sup.error = false →
            τ.sup.error = false)) ⟨ls, hrest⟩ ⟨hστ, id⟩ fun σ l σ' hP hs =>
              ⟨(hP.1.step hs).1, fun he => hP.2 (error_moves (moves_effect (hP.1.step hs).2) he)⟩).2 herr

/-- The step that mounts what is written. -/
theorem Reachable.exists_mounting_step (hsize : extentsOfSize size = some total)
    (hf : FreshMkfs uuid disk) (hreach : (Sys.opened total discard compact u disk).Reachable σ)
    (hready : σ.sup.ready = true) (herr : σ.sup.error = false) (hrecords : σ.records = [])
    (hcompacts : σ.compacts = []) (hflight : σ.inFlight = []) (hhead : σ.sup.journalHead = [])
    (hstop : (decodeHeader σ.disk.view σ.sup.cursor.place.addr).size = 0) :
    ∃ ms l τ τ', (Sys.opened total d c v σ.disk.view).run ms = some τ ∧ τ.sup.ready = false ∧
      τ.step l = some τ' ∧ τ'.sup.ready = true ∧ τ'.sup.error = false := by
  obtain ⟨n, τ, hrun, hr, he, -⟩ := hreach.exists_mount (d := d) (c := c) (v := v) hsize hf hready
    herr hrecords hcompacts hflight hhead (scanAt_of_not_hasRecord (not_hasRecord_of_size hstop))
  exact Sys.exists_mounting_step (orderly_opened total d c v σ.disk.view) hrun rfl hr he

/-- The power goes when the first of two files is synced and the record of the second one is
written. -/
theorem mount_after_power_loss_unsynced : ∃ ls σ τ', small.run ls = some σ ∧
    σ.log.written = [.create 1 .letter, .create 2 .other] ∧ σ.log.durable = 1 ∧
    σ.disk.cache.length = 1 ∧
    (Sys.opened 16 true true smallUuid σ.disk.view).Reachable τ' ∧ τ'.sup.ready = true ∧
    ∃ seed p T s,
      (∃ js q, Trace σ.disk.view seed p [.create 2 .other] js q) ∧
      (∃ js q, Trace σ.disk.view seed p T js q ∧ Stops σ.disk.view seed q) ∧
      (Super.opened 16 true true smallUuid fun _ => 0).replayAll (.create 1 .letter :: T) = .ok s ∧
      s.Same { τ'.sup with free := τ'.sup.free ∪ τ'.sup.journal } := by
  let ls : List Label := [.create .letter] ++ settle 1 ++ syncLabels ++ Sys.work 5 ++
    [.create .other] ++ settle 1 ++ syncLabels ++ Sys.work 2
  obtain ⟨σ, hrun, ⟨hready, herr⟩, hwritten, hdurable, hcache, ⟨hrec, hcomp, hflight, hhead⟩, hstop⟩ :=
    exists_small ls (P := fun τ => (τ.sup.ready = true ∧ τ.sup.error = false) ∧
      τ.log.written = [.create 1 .letter, .create 2 .other] ∧ τ.log.durable = 1 ∧
      τ.disk.cache.length = 1 ∧
      (τ.records = [] ∧ τ.compacts = [] ∧ τ.inFlight = [] ∧ τ.sup.journalHead = []) ∧
      (decodeHeader τ.disk.view τ.sup.cursor.place.addr).size = 0) (by decide +kernel)
  have hsize : extentsOfSize 16785408 = some 16 := by decide
  obtain ⟨ms, l, τ, τ', hmount, hbefore, hstep, hafter, hgood⟩ :=
    (Reachable.small hrun).exists_mounting_step (d := true) (c := true) (v := smallUuid) hsize
      (freshMkfs_zero smallUuid) hready herr hrec hcomp hflight hhead hstop
  obtain ⟨seed, p, T, s, hlost, hT, hs, hsame⟩ := mount_after_power_loss (fun _ => 0) hsize
    (freshMkfs_zero smallUuid) (run_small hrun) hready herr σ.disk.torn_view
    (fun _ _ => .inr (.inl fun _ _ => rfl)) hmount hbefore hstep hafter hgood
  rw [hwritten, hdurable] at hlost hs
  exact ⟨ls, σ, τ', hrun, hwritten, hdurable, hcache,
    ⟨ms ++ [l], by rw [run_append, hmount]; simp [run, hstep]⟩, hafter, seed, p, T, s, hlost, hT, hs,
    hsame⟩

/-- **The header of a compaction is written last and beside the old one.**  When its WRITE is queued,
the medium and the disk select the same old header, the WRITE lies in the super block outside the
slot of that header, and whatever a power loss leaves, the chain from the new header is on the
medium: its entries lead where all those lead that were written before the last FLUSH. -/
theorem header_write_ordered (hsize : extentsOfSize size = some total) (hf : FreshMkfs uuid disk)
    (hrun : (Sys.opened total discard compact u disk).run ls = some σ)
    (hready : σ.sup.ready = true) (herr : σ.sup.error = false) {req : WriteReq}
    (htask : .compactFlushSuper req ∈ σ.tasks) :
    ∃ h t, superParse σ.disk.stable = some h ∧ superParse σ.disk.view = some h ∧
      σ.compact = some t ∧ t.header.Follows h ∧ slotValid σ.disk.stable h.slot ∧
      (∀ a, req.off ≤ a → a < req.off + req.len →
        a < superBlockSize ∧ (a < h.slot ∨ h.slot + superHeaderSize ≤ a)) ∧
      ∀ g, σ.disk.Torn g → ∃ bs es q, Tells g t.header.uuid.seed t.header.place bs es q ∧
        Stands total es (σ.log.written.take σ.log.durable) := by
  obtain ⟨h1, ht⟩ := one_le_of_extentsOfSize hsize
  have hreach : (Sys.opened total discard compact u disk).Reachable σ := ⟨ls, hrun⟩
  have hlog := hreach.logged hf h1 herr
  obtain ⟨h, C, bs, w, bd, wd, hh, hs, es, htells, hstands⟩ := hreach.safe hf h1 ht hready herr
  have hm : .compactFlushSuper req ∈ σ.compacts := List.mem_filter.2 ⟨htask, rfl⟩
  obtain ⟨X, -, hst⟩ := hh.chain
  cases hst with
  | idle _ _ ht | init _ _ ht =>
      rw [ht] at hm
      cases hm
  | header hb | page hb | writing hb | super hb | finish hb =>
      rw [hb.task] at hm
      cases List.mem_singleton.1 hm
  | @flushSuper e s t req' _ S hb hcut hown hoff hlen _ hp =>
      have hm' := hm
      rw [hb.task] at hm'
      obtain rfl : req = req' := Task.compactFlushSuper.inj (List.mem_singleton.1 hm')
      cases hs.block with
      | landing hfin | landed hfin =>
          rw [hb.task] at hfin
          cases List.mem_singleton.1 hfin
      | plain _ hfix hslot =>
          have hsame : ∀ a < superBlockSize, σ.disk.stable a = σ.disk.view a := fun a ha =>
            (hfix a ha).view.symm
          refine ⟨h, t, (superParse_congr hsame).trans hp, hp, hb.compact, hcut.follows,
            (hslot.congr hsame).1, fun a h₁ h₂ => ?_, fun g hg => ?_⟩
          · rw [hoff] at h₁ h₂
            rw [hlen] at h₂
            have hsl := hcut.follows.slot
            rw [SuperHeader.slot, SuperHeader.slot] at hsl
            rw [SuperHeader.slot]
            simp only [superBlockSize, superHeaderSize] at *
            omega
          · obtain ⟨e', s', S', hch⟩ := hh.changing hm rfl hb.compact
            obtain ⟨bd', es', htells', hstands'⟩ :=
              hs.chain_of_late hm rfl hch hlog ht htells hstands hg
            rw [← hcut.follows.uuid] at htells'
            exact ⟨bd', es', wd, htells', hstands'⟩

/-- The first compaction of a fresh file system of eight extents. -/
theorem header_write_ordered_first :
    let u : Uuid := ⟨List.replicate 16 7, rfl⟩
    let σ₀ := Sys.opened 8 true true u (Buf.overlay (fun _ => 0) (superMake u))
    ∃ σ req t h, σ₀.run (mountLabels ++ (compactLabels 0 ++ work 2)) = some σ ∧
      .compactFlushSuper req ∈ σ.tasks ∧ σ.compact = some t ∧
      superParse σ.disk.stable = some h ∧ t.header.Follows h := by
  intro u σ₀
  obtain ⟨σ, hrun, hm, ha, hq, hc⟩ :=
    exists_mounted_run (freshMkfs_zero u) (by decide : 1 ≤ 8) true true u
  have hp : superParse σ.disk.view = some (mkfsHeader u 1) := by
    rw [hm.disk]
    exact superParse_superMake (freshMkfs_zero u).block
  obtain ⟨τ, req, t', hτ, hturn⟩ := exists_header_write hm ha hq hc hp
  have hrun' : σ₀.run (mountLabels ++ (compactLabels 0 ++ work 2)) = some τ := by
    rw [run_append, hrun]
    exact hτ
  have hmem : .compactFlushSuper req ∈ τ.tasks := by
    rw [tasks, hturn.queue]
    simp
  have hready : τ.sup.ready = true := by rw [hturn.sup, hm.sup]
  have herr : τ.sup.error = false := by rw [hturn.sup, hm.sup]; rfl
  obtain ⟨h, t, hstable, -, ht, hfol, -⟩ :=
    header_write_ordered (by decide : extentsOfSize 8396800 = some 8) (freshMkfs_zero u) hrun' hready
      herr hmem
  exact ⟨τ, req, t, h, hrun', hmem, ht, hstable, hfol⟩

/-- **The entries of a run survive their encoding.**  No entry that a run of a fresh file system
appends is cut off by the fields of its record, so what is read back is what was appended. -/
theorem appended_entries_fit (hsize : extentsOfSize size = some total) (hf : FreshMkfs uuid disk)
    (hrun : (Sys.opened total discard compact u disk).run ls = some σ) :
    ∀ e ∈ σ.log.appended, e.Fits ∧ e.stored = e := by
  obtain ⟨h1, ht⟩ := one_le_of_extentsOfSize hsize
  have hreach : (Sys.opened total discard compact u disk).Reachable σ := ⟨ls, hrun⟩
  have hj := hreach.journalOk hf h1
  intro e he
  have hfits := Metadata.fits_of_history hj.accepts (Metadata.wf_empty total) ht
    (by rw [hj.content]; exact hreach.maxFileId_le hf h1) e he
  exact ⟨hfits, Entry.stored_of_fits hfits⟩

/-- The entries of a file with an extent and a fork of it. -/
theorem appended_entries_fit_forked : ∃ σ,
    (Sys.opened 16 true true smallUuid smallDisk).run (mountLabels ++ forkLabels) = some σ ∧
    σ.log.appended.length = 4 ∧ ∀ e ∈ σ.log.appended, e.stored = e := by
  obtain ⟨σ, hrun, hlen⟩ := exists_small forkLabels (P := fun σ => σ.log.appended.length = 4)
    (by decide +kernel)
  exact ⟨σ, run_small hrun, hlen, fun e he =>
    (appended_entries_fit (by decide : extentsOfSize 16785408 = some 16)
      (freshMkfs_zero smallUuid) (run_small hrun) e he).2⟩

end Crash

end Sys

end Cyanfs
