/-
# A power loss

Until the next FLUSH the bytes of a completed WRITE may be on the medium or not, each byte for
itself (`Disk.Torn`).  What a mount needs is on it nevertheless (`Sealed`): the chain from the
super header up to the place that it had when the last FLUSH completed is written over by
nobody, so all versions of these bytes agree (`Disk.Fixed`); a compaction flushes its own
chain before it writes the header that leads there, and the slot that it writes to is never
the one that a mount selects (`Block`).

Every step keeps this (`Sealed.step`) and says how the chain on the medium moves on (`Advance`): it
stays, a FLUSH brings it to where the disk has it, or a compaction turns to its own.
-/

import Cyanfs.Run.Booked

namespace Cyanfs

open Lib Std

/-! ### The medium -/

namespace Disk

variable {d : Disk} {a : ℕ} {g : Buf}

/-- What a power loss may leave on the medium: every byte is the one of the last FLUSH or that of a
WRITE since.  A power loss during a WRITE is one right behind it. -/
def Torn (d : Disk) (g : Buf) : Prop := ∀ a, g a = d.stable a ∨
  ∃ w ∈ d.cache, w.off ≤ a ∧ a < w.off + w.len ∧ g a = w.data (a - w.off)

/-- All that was written may have arrived. -/
theorem torn_view (d : Disk) : d.Torn d.view := by
  obtain ⟨g, ws⟩ := d
  intro a
  induction ws using List.reverseRecOn with
  | nil => exact .inl rfl
  | append_singleton ws w ih =>
      rw [show (⟨g, ws ++ [w]⟩ : Disk).view = _ from view_write ⟨g, ws⟩ w]
      by_cases h : w.off ≤ a ∧ a < w.off + w.len
      · exact .inr ⟨w, by simp, h.1, h.2, Buf.patch_of_lt h.1 h.2⟩
      · rw [Buf.patch_of_not (by omega)]
        refine ih.imp_right ?_
        rintro ⟨w', hw', h'⟩
        exact ⟨w', List.mem_append_left _ hw', h'⟩

/-- A power loss does not change the byte. -/
def Fixed (d : Disk) (a : ℕ) : Prop :=
  ∀ w ∈ d.cache, w.off ≤ a → a < w.off + w.len → w.data (a - w.off) = d.stable a

theorem Fixed.view (h : d.Fixed a) : d.view a = d.stable a := by
  have key : ∀ (ws : List DiskWrite) (g : Buf), (∀ w ∈ ws, w.off ≤ a → a < w.off + w.len →
      w.data (a - w.off) = d.stable a) → g a = d.stable a →
      ws.foldl (fun g w => g.patch w.off w.len w.data) g a = d.stable a := by
    intro ws
    induction ws with
    | nil => exact fun g _ hg => hg
    | cons w ws ih =>
        intro g hws hg
        refine ih _ (fun v hv => hws v (List.mem_cons_of_mem _ hv)) ?_
        change g.patch w.off w.len w.data a = d.stable a
        by_cases hin : w.off ≤ a ∧ a < w.off + w.len
        · rw [Buf.patch_of_lt hin.1 hin.2]
          exact hws w List.mem_cons_self hin.1 hin.2
        · rw [Buf.patch_of_not (by omega)]
          exact hg
  exact key d.cache d.stable h rfl

theorem Fixed.torn (h : d.Fixed a) (hg : d.Torn g) : g a = d.view a := by
  rw [h.view]
  rcases hg a with hs | ⟨w, hw, hle, hlt, hg⟩
  · exact hs
  · rw [hg]
    exact h w hw hle hlt

/-- A WRITE that does not show changes nothing. -/
theorem Fixed.write {w : DiskWrite} (h : d.Fixed a) (hv : (d.write w).view a = d.view a) :
    (d.write w).Fixed a := by
  intro v hv' hle hlt
  rcases List.mem_append.1 hv' with hm | hm
  · exact h v hm hle hlt
  · obtain rfl := List.mem_singleton.1 hm
    rw [view_write, Buf.patch_of_lt hle hlt] at hv
    exact hv.trans h.view

theorem fixed_flush (d : Disk) (a : ℕ) : d.flush.Fixed a := fun _ hw => absurd hw List.not_mem_nil

theorem fixed_of_cache (h : d.cache = []) (a : ℕ) : d.Fixed a := fun _ hw => by
  rw [h] at hw
  cases hw

end Disk

/-! ### The two slots -/

/-- The slot of a header's version. -/
def SuperHeader.slot (h : SuperHeader) : ℕ := h.version % 2 * superHeaderSize

/-- The header stands in the slot of its version. -/
def Slotted (g : Buf) (h : SuperHeader) : Prop := slotValid g h.slot ∧ decodeSuperHeader g h.slot = h

theorem SuperHeader.slot_cases (h : SuperHeader) : h.slot = 0 ∨ h.slot = superHeaderSize := by
  unfold slot
  rcases Nat.mod_two_eq_zero_or_one h.version with hv | hv <;> simp [hv]

theorem SuperHeader.Follows.slot {h h' : SuperHeader} (hf : h'.Follows h) :
    (h.slot = 0 ∧ h'.slot = superHeaderSize) ∨ (h.slot = superHeaderSize ∧ h'.slot = 0) := by
  have hv := hf.version
  unfold SuperHeader.slot
  rcases Nat.mod_two_eq_zero_or_one h.version with hm | hm
  · exact .inl ⟨by rw [hm, Nat.zero_mul], by rw [show h'.version % 2 = 1 by omega, Nat.one_mul]⟩
  · exact .inr ⟨by rw [hm, Nat.one_mul], by rw [show h'.version % 2 = 0 by omega, Nat.zero_mul]⟩

theorem Slotted.congr {g g' : Buf} {h : SuperHeader} (hs : Slotted g h)
    (hg : ∀ a < superBlockSize, g' a = g a) : Slotted g' h := by
  have hle : h.slot + superHeaderSize ≤ superBlockSize := by
    rcases h.slot_cases with hc | hc <;> rw [hc] <;> decide
  have hslot : ∀ i < superHeaderSize, g' (h.slot + i) = g (h.slot + i) := fun i hi => hg _ (by omega)
  exact ⟨(slotValid_congr hslot).2 hs.1, (decodeSuperHeader_congr hslot).trans hs.2⟩

/-- **A torn slot**: the header of the other slot is selected. -/
theorem superParse_of_torn {g g' : Buf} {h h' : SuperHeader} (hp : superParse g = some h)
    (hs : Slotted g h) (hf : h'.Follows h) (hbad : ¬ slotValid g' h'.slot)
    (ho : ∀ a < superBlockSize, a < h'.slot ∨ h'.slot + superHeaderSize ≤ a → g' a = g a) :
    superParse g' = some h := by
  obtain ⟨hmagic, hid, -⟩ := superParse_eq_some.1 hp
  have hkeep : ∀ i < superHeaderSize, g' (h.slot + i) = g (h.slot + i) := by
    intro i hi
    refine ho _ ?_ ?_ <;> rcases hf.slot with ⟨h₁, h₂⟩ | ⟨h₁, h₂⟩ <;> rw [h₁] <;> try rw [h₂]
    all_goals simp only [superBlockSize, superHeaderSize] at *
    all_goals omega
  have hv := (slotValid_congr hkeep).2 hs.1
  have hd := (decodeSuperHeader_congr hkeep).trans hs.2
  refine superParse_eq_some.2 ⟨hmagic, hid, ?_⟩
  rcases hf.slot with ⟨h₁, h₂⟩ | ⟨h₁, h₂⟩
  · rw [h₁] at hv hd
    rw [h₂] at hbad
    exact .inl ⟨hv, hd, fun hv' => absurd hv' hbad⟩
  · rw [h₁] at hv hd
    rw [h₂] at hbad
    exact .inr ⟨hv, hd, fun hv' => absurd hv' hbad⟩

namespace Sys

variable {σ σ' : Sys} {total : ℕ} {h : SuperHeader} {C bs bs' bd : List ℕ} {w w' wd : Place}

/-! ### What a step does to the medium -/

/-- What a step that is not the writer's does to the medium. -/
inductive Io (σ σ' : Sys) : Prop
  | none (hd : σ'.disk = σ.disk) (hw : σ'.log.written = σ.log.written)
      (hl : σ'.log.durable = σ.log.durable)
  | write {wr : DiskWrite} (hd : σ'.disk = σ.disk.write wr) (hw : σ'.log.written = σ.log.written)
      (hl : σ'.log.durable = σ.log.durable)
  | flush (hd : σ'.disk = σ.disk.flush) (hw : σ'.log.written = σ.log.written)
      (hl : σ'.log.durable = σ.log.written.length)

/-- Neither the medium nor the log of what is on it changes. -/
def Dry (σ σ' : Sys) : Prop :=
  σ'.disk = σ.disk ∧ σ'.log.written = σ.log.written ∧ σ'.log.durable = σ.log.durable

theorem Dry.io (h : σ.Dry σ') : σ.Io σ' := .none h.1 h.2.1 h.2.2

theorem Io.dry {τ : Sys} (h : σ.Io τ) (hd : τ.Dry σ') : σ.Io σ' := by
  cases h with
  | none h₁ h₂ h₃ => exact .none (hd.1.trans h₁) (hd.2.1.trans h₂) (hd.2.2.trans h₃)
  | write h₁ h₂ h₃ => exact .write (hd.1.trans h₁) (hd.2.1.trans h₂) (hd.2.2.trans h₃)
  | flush h₁ h₂ h₃ => exact .flush (hd.1.trans h₁) (hd.2.1.trans h₂) (hd.2.2.trans h₃)

theorem io_ioWrite (σ : Sys) (wr : DiskWrite) (err : Bool) (junk : Buf) :
    σ.Io (σ.ioWrite wr err junk) := .write rfl rfl rfl

theorem io_ioFlush (σ : Sys) (err : Bool) : σ.Io (σ.ioFlush err) := by
  cases err with
  | true => exact .none rfl rfl rfl
  | false => exact .flush rfl rfl rfl

theorem dry_discardExtents (σ : Sys) (X : Finset ℕ) : σ.Dry (σ.discardExtents X) := by
  unfold discardExtents
  simp only
  split_ifs <;> exact ⟨rfl, rfl, rfl⟩

theorem dry_discardBegin (σ : Sys) : σ.Dry σ.discardBegin := by
  unfold discardBegin
  simp only
  split <;> exact ⟨rfl, rfl, rfl⟩

theorem dry_loaded (σ : Sys) (out : LoaderOut) : σ.Dry (σ.loaded out) := by
  cases out <;> exact ⟨rfl, rfl, rfl⟩

theorem dry_compactLoaderFinish (σ : Sys) (t : Compact) (l : Loader) (X : Super) (m : Bool) :
    σ.Dry (σ.compactLoaderFinish t l X m) := by
  unfold compactLoaderFinish
  split
  · simp only
    split_ifs
    · exact ⟨rfl, rfl, rfl⟩
    · exact ⟨rfl, rfl, rfl⟩
    · split <;> exact ⟨rfl, rfl, rfl⟩
  · exact ⟨rfl, rfl, rfl⟩

theorem dry_compactLoaded (σ : Sys) (t : Compact) (m : Bool) (out : LoaderOut) :
    σ.Dry (σ.compactLoaded t m out) := by
  cases out with
  | finish l X => exact dry_compactLoaderFinish σ t l X m
  | _ => exact ⟨rfl, rfl, rfl⟩

theorem dry_compactEncode (σ : Sys) (t : Compact) (err : Bool) : σ.Dry (σ.compactEncode t err) := by
  unfold compactEncode
  split <;> exact ⟨rfl, rfl, rfl⟩

theorem dry_compactFinish (σ : Sys) (t : Compact) (err : Bool) : σ.Dry (σ.compactFinish t err) := by
  unfold compactFinish
  split_ifs
  · exact ⟨rfl, rfl, rfl⟩
  · simp only
    split
    · have hd := dry_discardExtents { σ with sup := { σ.sup with
          journal := σ.sup.journal \ t.priv.journal
          journalExtents := σ.sup.journalExtents - t.priv.journal.card } } t.priv.journal
      exact ⟨hd.1, hd.2.1, hd.2.2⟩
    · rename_i m _
      have hd := dry_discardExtents { σ with sup := { σ.sup with
          journal := σ.sup.journal \ t.priv.journal.filter (· < m)
          journalExtents := σ.sup.journalExtents - (t.priv.journal.filter (· < m)).card } }
        (t.priv.journal.filter (· < m))
      exact ⟨hd.1, hd.2.1, hd.2.2⟩

theorem dry_flusherAfterFlush (σ : Sys) (err : Bool) : σ.Dry (σ.flusherAfterFlush err) := by
  unfold flusherAfterFlush
  simp only
  split_ifs
  all_goals try exact ⟨rfl, rfl, rfl⟩
  exact dry_discardExtents _ _

/-- **A task completes.** -/
theorem io_runTask (σ : Sys) (t : Task) (err m : Bool) (junk : Buf)
    (ht : ∀ fl io, t ≠ .writer fl io) : σ.Io (σ.runTask t err m junk) := by
  cases t with
  | writer fl io => exact absurd rfl (ht fl io)
  | before fl flush =>
      simp only [runTask]
      split
      · exact .none rfl rfl rfl
      · cases flush with
        | true =>
            refine (io_ioFlush σ err).dry ?_
            simp only [if_true, flusherBeforeWriteFlushDone]
            split_ifs <;> exact ⟨rfl, rfl, rfl⟩
        | false =>
            simp only [Bool.false_eq_true, if_false, flusherBeforeWriteFlush]
            split_ifs <;> exact .none rfl rfl rfl
  | after fl flush =>
      simp only [runTask]
      split
      · exact .none rfl rfl rfl
      · cases flush with
        | true => exact (io_ioFlush σ err).dry (dry_flusherAfterFlush _ _)
        | false =>
            simp only [Bool.false_eq_true, if_false, flusherBeforeFlush]
            split_ifs <;> exact .none rfl rfl rfl
  | free fl =>
      simp only [runTask]
      split
      · exact .none rfl rfl rfl
      · simp only [flusherFree]
        split_ifs <;> exact .none rfl rfl rfl
  | copy file i b src =>
      simp only [runTask, copyDone]
      split_ifs <;> exact .write rfl rfl rfl
  | discard range =>
      cases range with
      | none => exact (dry_discardBegin σ).io
      | some range =>
          refine (io_ioWrite σ ⟨range.1, range.2, junk⟩ false junk).dry ?_
          have hd := dry_discardBegin { σ.ioWrite ⟨range.1, range.2, junk⟩ false junk with sup := { σ.sup with
            free := σ.sup.free ∪ σ.sup.discard
            freeExtents := σ.sup.freeExtents + σ.sup.discard.card
            discard := ∅ } }
          exact ⟨hd.1, hd.2.1, hd.2.2⟩
  | loadHeader | loadPage =>
      simp only [runTask]
      split
      · exact .none rfl rfl rfl
      · split_ifs <;> exact (dry_loaded _ _).io
  | compactHeader | compactPage =>
      simp only [runTask]
      split
      · exact .none rfl rfl rfl
      · split_ifs
        · exact .none rfl rfl rfl
        · exact (dry_compactLoaded _ _ _ _).io
  | compactWriter io =>
      simp only [runTask]
      split
      · exact .none rfl rfl rfl
      · cases io with
        | none => exact (dry_compactEncode _ _ _).io
        | some req => exact (io_ioWrite σ _ err junk).dry (dry_compactEncode _ _ _)
  | compactWriteSuper flush =>
      have hdry : ∀ (τ : Sys) (t : Compact) (e : Bool), τ.Dry (τ.compactWriteSuper t e) := fun τ t e => by
        unfold compactWriteSuper
        split_ifs <;> exact ⟨rfl, rfl, rfl⟩
      simp only [runTask]
      split
      · exact .none rfl rfl rfl
      · cases flush with
        | true => exact (io_ioFlush σ err).dry (hdry _ _ _)
        | false => exact (hdry σ _ false).io
  | compactFlushSuper req =>
      simp only [runTask, compactFlushSuper]
      split_ifs <;> exact .write rfl rfl rfl
  | compactFinish =>
      simp only [runTask]
      split
      · exact .none rfl rfl rfl
      · exact (io_ioFlush σ err).dry (dry_compactFinish _ _ _)
  | requeue file => exact .none rfl rfl rfl

theorem io_done {t : Task} (err m : Bool) (junk : Buf) (ht : ∀ fl io, t ≠ .writer fl io) :
    σ.Io ({ σ with active := none }.runTask t err m junk) := by
  cases io_runTask { σ with active := none } t err m junk ht with
  | none h₁ h₂ h₃ => exact .none h₁ h₂ h₃
  | write h₁ h₂ h₃ => exact .write h₁ h₂ h₃
  | flush h₁ h₂ h₃ => exact .flush h₁ h₂ h₃

/-- **A step of a thread.** -/
theorem io_thread (he : σ.Effect σ') (ha : σ'.active = σ.active ∨ σ.active = none) : σ.Io σ' := by
  have htask : ∀ t err m junk, σ.active = some t →
      σ' = { σ with active := none }.runTask t err m junk → False := fun t err m junk ht he => by
    rcases ha with ha | ha
    · rw [he, active_runTask, ht] at ha
      cases ha
    · rw [ht] at ha
      cases ha
  cases he with
  | change hm =>
      cases hm with
      | «open» _ _ _ _ _ _ he => exact he ▸ .none rfl rfl rfl
      | close _ _ _ _ _ _ he => exact he ▸ .none rfl rfl rfl
      | closeClosed he => exact he ▸ .none rfl rfl rfl
      | op _ he => exact he ▸ .none rfl rfl rfl
      | copyStart _ _ _ _ _ _ _ _ _ _ he => exact he ▸ .none rfl rfl rfl
      | copied ht he => exact (htask _ _ _ _ ht he).elim
      | @mount l out hl ho he =>
          subst he
          have hd := dry_loaded { σ with active := none } out
          exact .none hd.1 hd.2.1 hd.2.2
  | threads he => exact he ▸ .none rfl rfl rfl
  | requeue he => exact he ▸ .none rfl rfl rfl
  | flusher he =>
      subst he
      unfold queueFlusher
      simp only
      split_ifs <;> exact .none rfl rfl rfl
  | compactStart _ _ he => exact he ▸ .none rfl rfl rfl
  | compactInit _ he => exact he ▸ .none rfl rfl rfl
  | compactFail _ he => exact he ▸ .none rfl rfl rfl
  | handlerWrite _ _ he => exact he ▸ .write rfl rfl rfl
  | get _ _ he => exact he ▸ .none rfl rfl rfl
  | task ht _ he => exact (htask _ _ _ _ ht he).elim
  | noMount _ _ he => exact he ▸ .none rfl rfl rfl

/-! ### What is on the medium -/

/-- The super block: a mount selects `h`, or the header of the compaction, whose WRITE has
completed. -/
inductive Block (σ : Sys) (h : SuperHeader) : Prop
  | plain (hm : .compactFinish ∉ σ.compacts) (hf : ∀ a < superBlockSize, σ.disk.Fixed a)
      (hs : Slotted σ.disk.view h)
  /-- no FLUSH has completed since -/
  | landing {t : Compact} (hm : .compactFinish ∈ σ.compacts) (hc : σ.compact = some t)
      (hf : ∀ a < superBlockSize, a < t.header.slot ∨ t.header.slot + superHeaderSize ≤ a →
        σ.disk.Fixed a)
      (hs : Slotted σ.disk.view t.header) (hp : superParse σ.disk.stable = some h)
      (hold : Slotted σ.disk.stable h)
  | landed {t : Compact} (hm : .compactFinish ∈ σ.compacts) (hc : σ.compact = some t)
      (hf : ∀ a < superBlockSize, σ.disk.Fixed a) (hs : Slotted σ.disk.view t.header)

/-- What survives a power loss: the chain up to `wd`, from where the entries of the records that
were written since the last FLUSH lead to `w`; the extents of the compaction when its header is
on the way; and the super block. -/
structure Sealed (σ : Sys) (h : SuperHeader) (C bs : List ℕ) (w : Place) (bd : List ℕ) (wd : Place) :
    Prop where
  onward : Onward σ.disk.view h bd wd ((σ.log.written.drop σ.log.durable).map Entry.stored) bs w
  durable : σ.log.durable ≤ σ.log.written.length
  fixed : ∀ a, Footprint bd wd a → σ.disk.Fixed a
  ondisk : σ.sup.cursor.extentIdOndisk ∈ bd
  own : ∀ u ∈ σ.compacts, u.isLate = true → ∀ b ∈ C, ∀ a, InExtent b a → σ.disk.Fixed a
  block : σ.Block h

theorem Onward.via {d : Buf} {es : List Entry} (h' : Onward d h bd wd es bs w) :
    ∃ post, bs = bd ++ post ∧ Via d h.uuid.seed h.place wd w bd post := by
  obtain ⟨post, hbs, ht⟩ := h'.back
  exact ⟨post, hbs, h'.front, es, ht⟩

theorem Onward.footprint {d : Buf} {es : List Entry} {a : ℕ} (h' : Onward d h bd wd es bs w)
    (ha : Footprint bd wd a) : Footprint bs w a := by
  obtain ⟨post, rfl, hv⟩ := h'.via
  exact hv.footprint_front h.valid_place ha

theorem Onward.congr {d d' : Buf} {es : List Entry} (h' : Onward d h bd wd es bs w)
    (hd : ∀ a, Footprint bs w a → d' a = d a) : Onward d' h bd wd es bs w := by
  obtain ⟨post, rfl, ht⟩ := id h'.back
  have hv : Via d h.uuid.seed h.place wd w bd post := ⟨h'.front, es, ht⟩
  exact ⟨h'.front.congr h.valid_place fun a ha => hd a (h'.footprint ha), post, rfl,
    ht.congr (h'.front.valid h.valid_place) fun a ha => hd a (hv.footprint_back ha)⟩

theorem Onward.trans {d : Buf} {es fs : List Entry} (h₁ : Onward d h bd wd es bs w)
    (h₂ : Onward d h bs w fs bs' w') : Onward d h bd wd (es ++ fs) bs' w' := by
  obtain ⟨post, rfl, ht⟩ := h₁.back
  obtain ⟨post', rfl, ht'⟩ := h₂.back
  exact ⟨h₁.front, post ++ post', List.append_assoc .., ht.trans ht'⟩

/-- A byte that does not change stays as it is on the medium. -/
theorem fixed_of_write {a : ℕ} (hd : σ'.disk = σ.disk ∨ ∃ wr, σ'.disk = σ.disk.write wr)
    (hf : σ.disk.Fixed a) (hv : σ'.disk.view a = σ.disk.view a) : σ'.disk.Fixed a := by
  rcases hd with hd | ⟨wr, hd⟩
  · rw [hd]
    exact hf
  · rw [hd] at hv ⊢
    exact hf.write hv

theorem stable_of_write (hd : σ'.disk = σ.disk ∨ ∃ wr, σ'.disk = σ.disk.write wr) :
    σ'.disk.stable = σ.disk.stable := by
  rcases hd with hd | ⟨wr, hd⟩ <;> rw [hd]
  rfl

theorem Block.keep (hb : σ.Block h) (hd : σ'.disk = σ.disk ∨ ∃ wr, σ'.disk = σ.disk.write wr)
    (hv : ∀ a < superBlockSize, σ'.disk.view a = σ.disk.view a)
    (hm : .compactFinish ∈ σ'.compacts ↔ .compactFinish ∈ σ.compacts)
    (hc : .compactFinish ∈ σ.compacts → σ'.compact = σ.compact) : σ'.Block h := by
  cases hb with
  | plain hn hf hs =>
      exact .plain (mt hm.1 hn) (fun a ha => fixed_of_write hd (hf a ha) (hv a ha)) (hs.congr hv)
  | landing hm' hc' hf hs hp hold =>
      refine .landing (hm.2 hm') ((hc hm').trans hc')
        (fun a ha hout => fixed_of_write hd (hf a ha hout) (hv a ha)) (hs.congr hv) ?_ ?_
      · rw [stable_of_write hd]
        exact hp
      · rw [stable_of_write hd]
        exact hold
  | landed hm' hc' hf hs =>
      exact .landed (hm.2 hm') ((hc hm').trans hc') (fun a ha => fixed_of_write hd (hf a ha) (hv a ha))
        (hs.congr hv)

/-- A FLUSH completes. -/
theorem Block.flush (hb : σ.Block h) (hd : σ'.disk = σ.disk.flush)
    (hm : .compactFinish ∈ σ'.compacts ↔ .compactFinish ∈ σ.compacts)
    (hc : .compactFinish ∈ σ.compacts → σ'.compact = σ.compact) : σ'.Block h := by
  have hfix : ∀ a, σ'.disk.Fixed a := fun a => by
    rw [hd]
    exact Disk.fixed_flush _ a
  have hv : σ'.disk.view = σ.disk.view := by
    rw [hd]
    rfl
  cases hb with
  | plain hn hf hs => exact .plain (mt hm.1 hn) (fun a _ => hfix a) (hv ▸ hs)
  | landing hm' hc' hf hs => exact .landed (hm.2 hm') ((hc hm').trans hc') (fun a _ => hfix a) (hv ▸ hs)
  | landed hm' hc' hf hs => exact .landed (hm.2 hm') ((hc hm').trans hc') (fun a _ => hfix a) (hv ▸ hs)

theorem Sealed.keep {C' : List ℕ} {es : List Entry} (hs : σ.Sealed h C bs w bd wd)
    (hd : σ'.disk = σ.disk ∨ ∃ wr, σ'.disk = σ.disk.write wr)
    (hl : σ'.log.durable = σ.log.durable) (hw : σ'.log.written = σ.log.written ++ es)
    (hon : Onward σ'.disk.view h bs w (es.map Entry.stored) bs' w')
    (hfoot : ∀ a, Footprint bs w a → σ'.disk.view a = σ.disk.view a)
    (hcur : σ'.sup.cursor.extentIdOndisk = σ.sup.cursor.extentIdOndisk)
    (hown : ∀ u ∈ σ'.compacts, u.isLate = true → ∀ b ∈ C', ∀ a, InExtent b a → σ'.disk.Fixed a)
    (hb : σ'.Block h) : σ'.Sealed h C' bs' w' bd wd := by
  refine ⟨?_, ?_, fun a ha => ?_, hcur ▸ hs.ondisk, hown, hb⟩
  · have hdrop : σ'.log.written.drop σ'.log.durable = σ.log.written.drop σ.log.durable ++ es := by
      rw [hw, hl, List.drop_append_of_le_length hs.durable]
    rw [hdrop, List.map_append]
    exact (hs.onward.congr hfoot).trans hon
  · rw [hl, hw, List.length_append]
    exact hs.durable.trans (Nat.le_add_right _ _)
  · exact fixed_of_write hd (hs.fixed a ha) (hfoot a (hs.onward.footprint ha))

/-- When a FLUSH has completed, everything is on the medium. -/
theorem Held.sealed (hh : σ.Held total h C bs w) (hf : ∀ a, σ.disk.Fixed a)
    (hl : σ.log.durable = σ.log.written.length) (hb : σ.Block h) : σ.Sealed h C bs w bs w := by
  obtain ⟨X, hlive, -⟩ := hh.chain
  refine ⟨?_, hl.le, fun a _ => hf a, hlive.ondisk, fun _ _ _ _ _ a _ => hf a, hb⟩
  rw [hl, List.drop_length, List.map_nil]
  exact .refl hlive.reaches

/-- Up to `w` the chains from `h` and from `h'` hold the same entries behind a list and its
snapshot. -/
def Replaces (d : Buf) (total : ℕ) (h h' : SuperHeader) (bs bs' : List ℕ) (w : Place) : Prop :=
  ∃ P S T, Snap total P S ∧ Tells d h.uuid.seed h.place bs (P ++ T) w ∧
    Tells d h'.uuid.seed h'.place bs' (S ++ T) w

/-- The chain of a compaction leads wherever the old one goes behind `end_id`. -/
theorem Cut.replaces {t : Compact} {d : Buf} {e s : ℕ} {S : List Entry}
    (hcut : Cut total t d h bs w e s S) (hn : bs.Nodup)
    (hown : Tells d h.uuid.seed t.header.place (C ++ [e]) S ⟨e, 0, s⟩)
    (hr : Reaches d h.uuid.seed h.place bd wd) (hmem : e ∈ bd) :
    ∃ pre post, bd = pre ++ e :: post ∧ Replaces d total h t.header bd (C ++ e :: post) wd := by
  obtain ⟨pre, post, rfl, hv, -, P, hP, hsnap⟩ := hcut.via
  have hnew : e ∉ pre := fun hm => (List.nodup_append.1 hn).2.2 e hm e List.mem_cons_self rfl
  obtain ⟨post', rfl, hv'⟩ := hv.front.via_of_mem hr hmem hnew
  obtain ⟨T, ht⟩ := hv'.back
  refine ⟨pre, post', rfl, P, S, T, hsnap, ?_, ?_⟩
  · simpa using hP.append ht
  · rw [hcut.follows.uuid]
    simpa using hown.append ht

/-- What a step does to the chain on the medium. -/
inductive Advance (σ σ' : Sys) (total : ℕ) (h : SuperHeader) (bs : List ℕ) (w : Place) (bd : List ℕ)
    (wd : Place) : SuperHeader → List ℕ → Place → Prop
  | keep (hl : σ'.log.durable = σ.log.durable) (hw : σ.log.written <+: σ'.log.written)
      (hv : ∀ a, Footprint bd wd a → σ'.disk.view a = σ.disk.view a) :
      Advance σ σ' total h bs w bd wd h bd wd
  | flush (hl : σ'.log.durable = σ.log.written.length) (hw : σ'.log.written = σ.log.written)
      (hv : σ'.disk.view = σ.disk.view) : Advance σ σ' total h bs w bd wd h bs w
  /-- the last task of a compaction -/
  | turn {h' : SuperHeader} {bs' : List ℕ} (hl : σ'.log.durable = σ.log.written.length)
      (hw : σ'.log.written = σ.log.written) (hv : σ'.disk.view = σ.disk.view)
      (hr : Replaces σ.disk.view total h h' bs bs' w) : Advance σ σ' total h bs w bd wd h' bs' w

/-- What holds behind a step. -/
def Goes (σ σ' : Sys) (total : ℕ) (h : SuperHeader) (bs : List ℕ) (w : Place) (bd : List ℕ) (wd : Place) :
    Prop :=
  ∃ h' C' bs' w' bd' wd', σ'.Held total h' C' bs' w' ∧ σ'.Sealed h' C' bs' w' bd' wd' ∧
    Advance σ σ' total h bs w bd wd h' bd' wd'

/-- A step without a FLUSH. -/
theorem Sealed.goes_keep {C' : List ℕ} {es : List Entry} (hs : σ.Sealed h C bs w bd wd)
    (hh' : σ'.Held total h C' bs' w')
    (hd : σ'.disk = σ.disk ∨ ∃ wr, σ'.disk = σ.disk.write wr)
    (hl : σ'.log.durable = σ.log.durable) (hw : σ'.log.written = σ.log.written ++ es)
    (hon : Onward σ'.disk.view h bs w (es.map Entry.stored) bs' w')
    (hfoot : ∀ a, Footprint bs w a → σ'.disk.view a = σ.disk.view a)
    (hcur : σ'.sup.cursor.extentIdOndisk = σ.sup.cursor.extentIdOndisk)
    (hown : ∀ u ∈ σ'.compacts, u.isLate = true → ∀ b ∈ C', ∀ a, InExtent b a → σ'.disk.Fixed a)
    (hb : σ'.Block h) : σ.Goes σ' total h bs w bd wd := by
  refine ⟨h, C', bs', w', bd, wd, hh', hs.keep hd hl hw hon hfoot hcur hown hb, .keep hl ?_ fun a ha => ?_⟩
  · rw [hw]
    exact List.prefix_append _ _
  · exact hfoot a (hs.onward.footprint ha)

/-- A step without a record. -/
theorem Sealed.goes_rest {C' : List ℕ} (hs : σ.Sealed h C bs w bd wd) (hh' : σ'.Held total h C' bs w)
    (hd : σ'.disk = σ.disk ∨ ∃ wr, σ'.disk = σ.disk.write wr)
    (hl : σ'.log.durable = σ.log.durable) (hw : σ'.log.written = σ.log.written)
    (hfoot : ∀ a, Footprint bs w a → σ'.disk.view a = σ.disk.view a)
    (hcur : σ'.sup.cursor.extentIdOndisk = σ.sup.cursor.extentIdOndisk)
    (hown : ∀ u ∈ σ'.compacts, u.isLate = true → ∀ b ∈ C', ∀ a, InExtent b a → σ'.disk.Fixed a)
    (hb : σ'.Block h) : σ.Goes σ' total h bs w bd wd := by
  have hw' : σ'.log.written = σ.log.written ++ [] := by rw [hw, List.append_nil]
  exact hs.goes_keep hh' hd hl hw' (.refl hh'.reaches) hfoot hcur hown hb

/-- A step with a FLUSH. -/
theorem Held.goes_flush {C' : List ℕ} (hh' : σ'.Held total h C' bs w) (hd : σ'.disk = σ.disk.flush)
    (hl : σ'.log.durable = σ.log.written.length) (hw : σ'.log.written = σ.log.written)
    (hb : σ'.Block h) : σ.Goes σ' total h bs w bd wd := by
  refine ⟨h, C', bs, w, bs, w, hh', hh'.sealed (fun a => ?_) (hl.trans (by rw [hw])) hb, .flush hl hw ?_⟩
  · rw [hd]
    exact Disk.fixed_flush _ a
  · rw [hd]
    rfl

/-- A step that leaves the chain and the compaction alone. -/
theorem Sealed.goes_io (hs : σ.Sealed h C bs w bd wd) (hh' : σ'.Held total h C bs w) (hio : σ.Io σ')
    (hleaves : Leaves σ.disk.view σ'.disk.view C bs w)
    (hab : σ.Abides σ') : σ.Goes σ' total h bs w bd wd := by
  obtain ⟨hm, hc, hcur⟩ := hab
  have hkeep : (σ'.disk = σ.disk ∨ ∃ wr, σ'.disk = σ.disk.write wr) →
      σ'.log.written = σ.log.written → σ'.log.durable = σ.log.durable →
      σ.Goes σ' total h bs w bd wd := by
    intro hd hw hl
    refine hs.goes_rest hh' hd hl hw hleaves.foot hcur (fun u hu hlate b hb a ha => ?_)
      (hs.block.keep hd hleaves.block (by rw [hm]) fun _ => hc)
    exact fixed_of_write hd (hs.own u (hm ▸ hu) hlate b hb a ha) (hleaves.own b hb a ha)
  cases hio with
  | none hd hw hl => exact hkeep (.inl hd) hw hl
  | write hd hw hl => exact hkeep (.inr ⟨_, hd⟩) hw hl
  | flush hd hw hl => exact hh'.goes_flush hd hl hw (hs.block.flush hd (by rw [hm]) fun _ => hc)

/-- A step away from the journal. -/
theorem Sealed.goes_spares (hs : σ.Sealed h C bs w bd wd) (hh : σ.Held total h C bs w)
    (hsp : σ.Spares σ') (hio : σ.Io σ') (hi : σ'.inits = σ.inits)
    (hv : ∀ a, σ.InJournal a → σ'.disk.view a = σ.disk.view a) : σ.Goes σ' total h bs w bd wd := by
  obtain ⟨X, hl, -⟩ := hh.chain
  exact hs.goes_io (hh.spares hsp hi hv) hio ⟨fun a ha => hv a (hl.inJournal_footprint ha),
    fun a ha => hv a (.inl ha), fun b hb a ha => hv a (hl.inJournal_own hb ha)⟩ hsp.abides

theorem disk_writer (σ : Sys) (fl : ℕ) (io : Option WriteReq) (err m : Bool) (junk : Buf) :
    let σ' := { σ with active := none }.runTask (.writer fl io) err m junk
    (σ'.disk = σ.disk ∨ ∃ wr, σ'.disk = σ.disk.write wr) ∧ σ'.log.durable = σ.log.durable := by
  simp only [runTask]
  split
  · exact ⟨.inl rfl, rfl⟩
  · rename_i t _
    cases io with
    | none =>
        obtain ⟨hd, -, hl⟩ := flusherEncode_keeps { σ with active := none } fl t false
        exact ⟨.inl hd, hl⟩
    | some req =>
        obtain ⟨hd, -, hl⟩ := flusherEncode_keeps ({ σ with active := none }.ioRecord req err junk) fl t err
        refine ⟨.inr ⟨if err then { req.write with data := junk } else req.write, hd.trans ?_⟩, hl.trans ?_⟩
        · cases err <;> rfl
        · cases err <;> rfl

/-- **The writer of a flusher.** -/
theorem Sealed.goes_writer {fl : ℕ} {io : Option WriteReq} {err m : Bool} {junk : Buf}
    (hs : σ.Sealed h C bs w bd wd) (hσ : σ.Orderly total) (htotal : total ≤ extentCountMax)
    (hh : σ.Held total h C bs w) (ha : σ.active = some (.writer fl io))
    (he : ({ σ with active := none }.runTask (.writer fl io) err m junk).sup.error = false) :
    σ.Goes ({ σ with active := none }.runTask (.writer fl io) err m junk) total h bs w bd wd := by
  obtain ⟨bs', w', es, hh', hw, hon, hleaves, hab⟩ := hh.writer hσ htotal ha he
  obtain ⟨hd, hl⟩ := disk_writer σ fl io err m junk
  refine hs.goes_keep hh' hd hl hw hon hleaves.foot hab.ondisk (fun u hu hlate b hb a ha => ?_)
    (hs.block.keep hd hleaves.block (by rw [hab.compacts]) fun _ => hab.compact)
  exact fixed_of_write hd (hs.own u (hab.compacts ▸ hu) hlate b hb a ha) (hleaves.own b hb a ha)

/-- **The FLUSH of a flusher.** -/
theorem Sealed.goes_after {fl : ℕ} {flush err m : Bool} {junk : Buf}
    (hs : σ.Sealed h C bs w bd wd) (hσ : σ.Orderly total) (hh : σ.Held total h C bs w)
    (ha : σ.active = some (.after fl flush))
    (he : ({ σ with active := none }.runTask (.after fl flush) err m junk).sup.error = false) :
    σ.Goes ({ σ with active := none }.runTask (.after fl flush) err m junk) total h bs w bd wd := by
  have hh' := hh.after hσ ha he
  obtain ⟨f, hf⟩ := flusher_of_active hσ.sound ha rfl
  rw [show (4 * fl + 2) / 4 = fl by omega] at hf
  have hq : ({ σ with active := none } : Sys).compacts = σ.compacts := by
    rw [compacts, compacts, tasks_of_active ha]
    rfl
  cases flush with
  | false =>
      refine hs.goes_io hh' ?_ ?_ ?_
      · exact io_done _ _ _ (by simp)
      · simp only [runTask, hf, Bool.false_eq_true, if_false, flusherBeforeFlush]
        split_ifs <;> exact .refl ..
      · simp only [runTask, hf, Bool.false_eq_true, if_false, flusherBeforeFlush]
        split_ifs
        · exact ⟨hq, rfl, rfl⟩
        · have hbook := book_handOver σ.sup f.unused
          simp only [Super.book, Prod.mk.injEq] at hbook
          refine ⟨hq, rfl, ?_⟩
          simp only [addHead, hbook.2.2.1]
  | true =>
      cases err with
      | true =>
          simp only [runTask, hf, if_true, ioFlush, flusherAfterFlush] at he
          cases he
      | false =>
          have hdry := dry_flusherAfterFlush ({ σ with active := none }.ioFlush false) false
          simp only [runTask, hf, if_true] at he hh' ⊢
          have hne : σ.sup.error = false := by
            by_contra hne
            simp only [Bool.not_eq_false] at hne
            simp only [ioFlush, flusherAfterFlush, hne, Bool.false_eq_true, if_false, if_true] at he
            cases he
          obtain ⟨τ, hsp, -, -, heq⟩ :=
            flusherAfterFlush_false (σ := { σ with active := none }.ioFlush false) hne
          have hc : (({ σ with active := none }.ioFlush false).flusherAfterFlush false).compacts =
              σ.compacts := by
            rw [heq, ← hq]
            exact hsp.compacts
          refine hh'.goes_flush hdry.1 hdry.2.2 hdry.2.1 (hs.block.flush hdry.1 (by rw [hc]) fun _ => ?_)
          rw [heq]
          exact hsp.compact

/-- The task of the compaction that is active is the only one. -/
theorem Held.compacts {t : Task} (hh : σ.Held total h C bs w) (ha : σ.active = some t)
    (hk : t.isCompact = true) : σ.compacts = [t] := by
  obtain ⟨X, -, hst⟩ := hh.chain
  have hm := mem_compacts ha hk
  cases hst with
  | idle _ _ ht => rw [ht] at hm; cases hm
  | init _ _ ht => rw [ht] at hm; cases hm
  | header hb | page hb | writing hb | super hb | flushSuper hb | finish hb =>
      rw [hb.task_eq ha hk]
      exact hb.task

/-- A task of the compaction in front of its header. -/
theorem Sealed.goes_early {t : Task} {err m : Bool} {junk : Buf} (hs : σ.Sealed h C bs w bd wd)
    (hσ : σ.Orderly total) (htotal : total ≤ extentCountMax) (hh : σ.Held total h C bs w)
    (ha : σ.active = some t) (hk : t.isCompact = true) (hne : t ≠ .compactFinish)
    (hearly : ∀ u, t.leads u = true → u.isLate = false)
    (he : ({ σ with active := none }.runTask t err m junk).sup.error = false) :
    σ.Goes ({ σ with active := none }.runTask t err m junk) total h bs w bd wd := by
  obtain ⟨D, u, hp⟩ := hh.compact hσ htotal ha hk hne he
  have hio : σ.Io ({ σ with active := none }.runTask t err m junk) := io_done err m junk fun fl io ht => by
    rw [ht] at hk
    cases hk
  generalize { σ with active := none }.runTask t err m junk = σ' at hp hio ⊢
  have hlate := hearly u hp.leads
  have hfin : u ≠ .compactFinish := by
    rintro rfl
    cases hlate
  have hm : .compactFinish ∈ σ'.compacts ↔ .compactFinish ∈ σ.compacts := by
    rw [hp.compacts, hh.compacts ha hk, List.mem_singleton, List.mem_singleton]
    exact ⟨fun h => absurd h.symm hfin, fun h => absurd h.symm hne⟩
  have hc : .compactFinish ∈ σ.compacts → σ'.compact = σ.compact := by
    rw [hh.compacts ha hk, List.mem_singleton]
    exact fun h => absurd h.symm hne
  have hkeep : (σ'.disk = σ.disk ∨ ∃ wr, σ'.disk = σ.disk.write wr) →
      σ'.log.written = σ.log.written → σ'.log.durable = σ.log.durable →
      σ.Goes σ' total h bs w bd wd := by
    intro hd hw hl
    refine hs.goes_rest hp.held hd hl hw hp.foot (by rw [hp.cursor]) (fun v hv hl' => ?_)
      (hs.block.keep hd (hp.block hfin) hm hc)
    rw [hp.compacts, List.mem_singleton] at hv
    rw [hv, hlate] at hl'
    cases hl'
  cases hio with
  | none hd hw hl => exact hkeep (.inl hd) hw hl
  | write hd hw hl => exact hkeep (.inr ⟨_, hd⟩) hw hl
  | flush hd hw hl => exact hp.held.goes_flush hd hl hw (hs.block.flush hd hm hc)

/-- **The compaction prepares its header** when its chain is on the medium. -/
theorem Sealed.goes_writeSuper {flush err m : Bool} {junk : Buf} (hs : σ.Sealed h C bs w bd wd)
    (hσ : σ.Orderly total) (htotal : total ≤ extentCountMax) (hh : σ.Held total h C bs w)
    (ha : σ.active = some (.compactWriteSuper flush))
    (he : ({ σ with active := none }.runTask (.compactWriteSuper flush) err m junk).sup.error =
      false) :
    σ.Goes ({ σ with active := none }.runTask (.compactWriteSuper flush) err m junk) total h bs w
      bd wd := by
  obtain ⟨D, u, hp⟩ := hh.compact hσ htotal ha rfl (by simp) he
  obtain ⟨req, rfl⟩ : ∃ req, u = .compactFlushSuper req := by
    have hl := hp.leads
    cases u <;> simp [Task.leads] at hl
    exact ⟨_, rfl⟩
  obtain rfl := hp.late rfl
  have hm : .compactFinish ∈ ({ σ with active := none }.runTask (.compactWriteSuper flush) err m
      junk).compacts ↔ .compactFinish ∈ σ.compacts := by
    rw [hp.compacts, hh.compacts ha rfl]
    simp
  have hc : .compactFinish ∈ σ.compacts → ({ σ with active := none }.runTask (.compactWriteSuper flush)
      err m junk).compact = σ.compact := by
    rw [hh.compacts ha rfl]
    simp
  obtain ⟨X, -, hst⟩ := hh.chain
  have hcs := mem_compacts ha rfl
  cases hst with
  | idle _ _ ht => rw [ht] at hcs; cases hcs
  | init _ _ ht => rw [ht] at hcs; cases hcs
  | header hb | page hb | writing hb | flushSuper hb | finish hb => cases hb.task_eq ha rfl
  | super hb hcut hown hC _ =>
      cases hb.task_eq ha rfl
      cases flush with
      | false =>
          obtain rfl := hC rfl
          have hd : ({ σ with active := none }.runTask (.compactWriteSuper false) err m junk).disk =
              σ.disk := by
            simp only [runTask, hb.compact, compactWriteSuper, Bool.false_eq_true, if_false]
            rfl
          have hlog : ({ σ with active := none }.runTask (.compactWriteSuper false) err m
              junk).log.written = σ.log.written ∧ ({ σ with active := none }.runTask
                (.compactWriteSuper false) err m junk).log.durable = σ.log.durable := by
            simp only [runTask, hb.compact, compactWriteSuper, Bool.false_eq_true, if_false]
            exact ⟨rfl, rfl⟩
          exact hs.goes_rest hp.held (.inl hd) hlog.2 hlog.1 hp.foot (by rw [hp.cursor])
            (fun v hv _ b hb => absurd hb (by simp)) (hs.block.keep (.inl hd) (hp.block (by simp)) hm hc)
      | true =>
          cases err with
          | true =>
              simp only [runTask, hb.compact, compactWriteSuper, if_true] at he
              cases he
          | false =>
              have hd : ({ σ with active := none }.runTask (.compactWriteSuper true) false m
                  junk).disk = σ.disk.flush := by
                simp only [runTask, hb.compact, compactWriteSuper, Bool.false_eq_true, if_false, if_true]
                rfl
              have hlog : ({ σ with active := none }.runTask (.compactWriteSuper true) false m
                  junk).log.written = σ.log.written ∧ ({ σ with active := none }.runTask
                    (.compactWriteSuper true) false m junk).log.durable = σ.log.written.length := by
                simp only [runTask, hb.compact, compactWriteSuper, Bool.false_eq_true, if_false, if_true]
                exact ⟨rfl, rfl⟩
              exact hp.held.goes_flush hd hlog.2 hlog.1 (hs.block.flush hd hm hc)

/-- **The header of the compaction lands** in the other slot. -/
theorem Sealed.goes_flushSuper {req : WriteReq} {err m : Bool} {junk : Buf}
    (hs : σ.Sealed h C bs w bd wd) (hσ : σ.Orderly total) (htotal : total ≤ extentCountMax)
    (hh : σ.Held total h C bs w) (ha : σ.active = some (.compactFlushSuper req))
    (he : ({ σ with active := none }.runTask (.compactFlushSuper req) err m junk).sup.error = false) :
    σ.Goes ({ σ with active := none }.runTask (.compactFlushSuper req) err m junk) total h bs w
      bd wd := by
  obtain ⟨D, u, hp⟩ := hh.compact hσ htotal ha rfl (by simp) he
  obtain rfl : u = .compactFinish := by
    have hl := hp.leads
    cases u <;> simp [Task.leads] at hl
    rfl
  obtain rfl := hp.late rfl
  cases err with
  | true =>
      simp only [runTask, compactFlushSuper, if_true] at he
      cases he
  | false =>
      have hd : ({ σ with active := none }.runTask (.compactFlushSuper req) false m junk).disk =
          σ.disk.write req.write := rfl
      have hcompact : ({ σ with active := none }.runTask (.compactFlushSuper req) false m junk).compact =
          σ.compact := rfl
      have hw : ({ σ with active := none }.runTask (.compactFlushSuper req) false m junk).log.written =
          σ.log.written := rfl
      have hl : ({ σ with active := none }.runTask (.compactFlushSuper req) false m junk).log.durable =
          σ.log.durable := rfl
      generalize { σ with active := none }.runTask (.compactFlushSuper req) false m junk = σ'
        at hp hd hw hl hcompact ⊢
      obtain ⟨X, -, hst⟩ := hh.chain
      have hcs := mem_compacts ha rfl
      cases hst with
      | idle _ _ ht => rw [ht] at hcs; cases hcs
      | init _ _ ht => rw [ht] at hcs; cases hcs
      | header hb | page hb | writing hb | super hb | finish hb => cases hb.task_eq ha rfl
      | @flushSuper e s t _ page S hb hcut hown hoff hlen hdata hparse =>
          cases hb.task_eq ha rfl
          have hview : σ'.disk.view = σ.disk.view.patch req.off req.len req.data := by
            rw [hd]
            exact Disk.view_write _ _
          have hother : ∀ a, a < t.header.slot ∨ t.header.slot + superHeaderSize ≤ a →
              σ'.disk.view a = σ.disk.view a := fun a ha => by
            rw [hview]
            refine Buf.patch_of_not ?_
            rw [hoff, hlen]
            exact ha
          have hle : t.header.slot + superHeaderSize ≤ superBlockSize := by
            rcases t.header.slot_cases with hc | hc <;> rw [hc] <;> decide
          refine hs.goes_rest hp.held (.inr ⟨_, hd⟩) hl hw hp.foot (by rw [hp.cursor])
            (fun v _ _ b hb a ha => ?_) ?_
          · rw [List.append_nil] at hb
            refine fixed_of_write (.inr ⟨_, hd⟩) (hs.own _ hcs rfl b hb a ha) (hother a (.inr ?_))
            have := ha.1
            omega
          · have hfix : (∀ a < superBlockSize, σ.disk.Fixed a) ∧ Slotted σ.disk.view h := by
              cases hs.block with
              | plain hn hf hs => exact ⟨hf, hs⟩
              | landing hm | landed hm =>
                  rw [hb.task] at hm
                  cases List.mem_singleton.1 hm
            have hstable : σ'.disk.stable = σ.disk.stable := stable_of_write (.inr ⟨_, hd⟩)
            have hsame : ∀ a < superBlockSize, σ'.disk.stable a = σ.disk.view a := fun a ha => by
              rw [hstable, (hfix.1 a ha).view]
            have hslice : σ'.disk.view.slice t.header.slot superHeaderSize = slotBytes t.header page := by
              rw [hview, SuperHeader.slot, ← hoff, Buf.slice_patch_same _ _ _ _ hlen.ge]
              exact hdata
            obtain ⟨hmagic, -, -⟩ := superParse_eq_some.1 hparse
            refine .landing ?_ (hcompact.trans hb.compact) (fun a ha hout => ?_)
              (slot_of_slice (hcut.follows.fits hmagic) hslice) ?_ (hfix.2.congr hsame)
            · rw [hp.compacts]
              exact List.mem_singleton_self _
            · exact fixed_of_write (.inr ⟨_, hd⟩) (hfix.1 a ha) (hother a hout)
            · exact (superParse_congr hsame).trans hparse

/-- **The change-over.** -/
theorem Sealed.goes_finish {err m : Bool} {junk : Buf} (hs : σ.Sealed h C bs w bd wd)
    (hh : σ.Held total h C bs w) (ha : σ.active = some .compactFinish)
    (he : ({ σ with active := none }.runTask .compactFinish err m junk).sup.error = false) :
    σ.Goes ({ σ with active := none }.runTask .compactFinish err m junk) total h bs w bd wd := by
  obtain ⟨X, hl, hst⟩ := hh.chain
  have hcs := mem_compacts ha rfl
  cases hst with
  | idle _ _ ht => rw [ht] at hcs; cases hcs
  | init _ _ ht => rw [ht] at hcs; cases hcs
  | header hb | page hb | writing hb | super hb | flushSuper hb => cases hb.task_eq ha rfl
  | @finish e s t S hb hcut hown hparse =>
      cases err with
      | true =>
          simp only [runTask, hb.compact, compactFinish, if_true] at he
          cases he
      | false =>
          obtain ⟨pre, post, hbs, -, hch⟩ :=
            hl.finish m junk hh.loader hh.ready ha hb hcut hown hparse
          have hn := (List.nodup_append.1 (List.nodup_append.1 hl.nodup).1).1
          obtain ⟨pre', post', hbs', hrep⟩ := hcut.replaces hn hown hl.reaches hb.ahead.mem_left
          obtain rfl : post = post' := by
            rw [hbs] at hn hbs'
            obtain ⟨-, hpost, hdisj⟩ := List.nodup_append.1 hn
            have hpre : e ∉ pre := fun hm => hdisj e hm e List.mem_cons_self rfl
            exact ((List.append_cons_inj_of_notMem hpre (List.nodup_cons.1 hpost).1).1 hbs').2.2
          have hd : ({ σ with active := none }.runTask .compactFinish false m junk).disk =
              σ.disk.flush := by
            simp only [runTask, hb.compact]
            exact (dry_compactFinish ({ σ with active := none, compact := some t }.ioFlush false) t
              false).1
          have hlog : ({ σ with active := none }.runTask .compactFinish false m junk).log.written =
              σ.log.written ∧ ({ σ with active := none }.runTask .compactFinish false m
                junk).log.durable = σ.log.written.length := by
            simp only [runTask, hb.compact]
            exact (dry_compactFinish ({ σ with active := none, compact := some t }.ioFlush false) t
              false).2
          have hfix : ∀ a, ({ σ with active := none }.runTask .compactFinish false m junk).disk.Fixed a :=
            fun a => by
              rw [hd]
              exact Disk.fixed_flush _ a
          have hview : ({ σ with active := none }.runTask .compactFinish false m junk).disk.view =
              σ.disk.view := by
            rw [hd]
            rfl
          have hslot : Slotted σ.disk.view t.header := by
            cases hs.block with
            | plain hm => exact absurd hcs hm
            | landing _ hc _ hs | landed _ hc _ hs =>
                rw [hb.compact] at hc
                obtain rfl := Option.some.inj hc
                exact hs
          have hh' : ({ σ with active := none }.runTask .compactFinish false m junk).Held total t.header []
              (C ++ e :: post) w := hch.held
          refine ⟨t.header, [], C ++ e :: post, w, C ++ e :: post, w, hh',
            hh'.sealed hfix (hlog.2.trans (by rw [hlog.1])) (.plain ?_ (fun a _ => hfix a) ?_),
            .turn hlog.2 hlog.1 hview hrep⟩
          · rw [hch.compacts]
            exact List.not_mem_nil
          · rw [hview]
            exact hslot

/-- **A compaction starts.** -/
theorem Sealed.goes_init {e : ℕ} {ok : Bool} (hs : σ.Sealed h C bs w bd wd) (hh : σ.Held total h C bs w)
    (htotal : σ.sup.totalExtents = total) (hm : .compactInit e ∈ σ.calls)
    (he : (σ.compactInit (.compactInit e) e ok).sup.error = false) :
    σ.Goes (σ.compactInit (.compactInit e) e ok) total h bs w bd wd := by
  have hh' := hh.compactInit htotal hm he
  obtain ⟨X, -, hst⟩ := hh.chain
  obtain ⟨-, -, ht, -, rfl, -⟩ := hst.init_of_mem hm
  cases ok with
  | false =>
      simp only [Sys.compactInit, Bool.false_eq_true, if_false, compactFail] at he
      cases he
  | true =>
      have ht' : (σ.compactInit (.compactInit e) e true).compacts = [.compactHeader] := by
        simp only [Sys.compactInit, if_true]
        rw [compacts, tasks_addTail, List.filter_append]
        exact congrArg (· ++ [Task.compactHeader]) ht
      refine hs.goes_rest hh' (.inl rfl) rfl rfl (fun _ _ => rfl) rfl
        (fun _ _ _ b hb => absurd hb List.not_mem_nil) (hs.block.keep (.inl rfl) (fun _ _ => rfl) ?_ ?_)
      · rw [ht, ht']
        simp
      · rw [ht]
        exact fun hm => absurd hm List.not_mem_nil

/-- **Every step keeps what a mount needs on the medium.** -/
theorem Sealed.step {l : Label} (hs : σ.Sealed h C bs w bd wd) (hh : σ.Held total h C bs w)
    (hσ : σ.Orderly total) (htotal : total ≤ extentCountMax) (hstep : σ.step l = some σ')
    (he : σ'.sup.error = false) : σ.Goes σ' total h bs w bd wd := by
  by_cases hdone : ∃ err m junk, l = .done err m junk
  · obtain ⟨err, m, junk, rfl⟩ := hdone
    obtain ⟨t, ha, rfl⟩ := done_of_step hstep
    by_cases haside : t.isAside = true
    · obtain ⟨hsp, hv⟩ := hσ.aside_done ha hh.loader (bug_of_step hstep) haside err m junk he
      refine hs.goes_spares hh hsp (io_done err m junk fun fl io ht => ?_)
        (inits_step hstep (by simp) (by simp)) hv
      rw [ht] at haside
      cases haside
    · cases t with
      | writer fl io => exact hs.goes_writer hσ htotal hh ha he
      | after fl flush => exact hs.goes_after hσ hh ha he
      | compactHeader | compactPage | compactWriter =>
          exact hs.goes_early hσ htotal hh ha rfl (by simp) (fun u hu => by simpa [Task.leads] using hu) he
      | compactWriteSuper flush => exact hs.goes_writeSuper hσ htotal hh ha he
      | compactFlushSuper req => exact hs.goes_flushSuper hσ htotal hh ha he
      | compactFinish => exact hs.goes_finish hh ha he
      | _ => exact absurd rfl haside
  · have hd : ∀ err m junk, l ≠ .done err m junk := fun err m junk hl => hdone ⟨err, m, junk, hl⟩
    have hio : σ.Io σ' := by
      refine io_thread (hσ.step hstep).2 ?_
      rcases active_step hstep with ⟨-, ha⟩ | ⟨err, m, junk, -, hl, -⟩ | ⟨-, ha⟩
      · exact .inr ha
      · exact absurd hl (hd err m junk)
      · exact .inl ha
    by_cases hcompact : ∃ ok, l = .call .compact ok
    · obtain ⟨ok, rfl⟩ := hcompact
      obtain rfl := Option.some.inj (callStep_of_step hstep)
      have hh' := hh.compactStart (mem_calls_of_step hstep)
      refine hs.goes_io hh' hio ?_ ?_
      · unfold compactStart
        simp only
        split_ifs <;> exact .refl ..
      · unfold compactStart
        simp only
        split_ifs <;> exact ⟨rfl, rfl, rfl⟩
    by_cases hinit : ∃ e ok, l = .call (.compactInit e) ok
    · obtain ⟨e, ok, rfl⟩ := hinit
      obtain rfl := Option.some.inj (callStep_of_step hstep)
      exact hs.goes_init hh hσ.sound.totalExtents (mem_calls_of_step hstep) he
    have hc : ∀ ok, l ≠ .call .compact ok := fun ok hl => hcompact ⟨ok, hl⟩
    have hi : ∀ e ok, l ≠ .call (.compactInit e) ok := fun e ok hl => hinit ⟨e, ok, hl⟩
    obtain ⟨hsp, hv⟩ := hσ.aside_thread hstep hh.loader hd hc hi hh.idle he
    exact hs.goes_spares hh hsp hio (inits_step hstep hc hi) hv

end Sys

end Cyanfs
