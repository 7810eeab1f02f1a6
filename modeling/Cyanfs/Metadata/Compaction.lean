/-
# A compaction preserves the meaning of the journal

A compaction replaces the entries `P` in front of `end_id` by a snapshot of the
state they lead to and keeps the entries `T` behind it.  `Journal` lists the
journals that come about this way from the runs of a fresh file system, with any
number of compactions; for all of them the replay of the compacted journal leads
to the state that the journal led to before (`compaction_preserves_meaning`).
-/

import Cyanfs.Metadata.Snapshot
import Cyanfs.Metadata.System

namespace Cyanfs

open Lib Std

namespace Super

variable {s s' X : Super} {total : ℕ}

theorem replayAll_append (s : Super) (es fs : List Entry) :
    s.replayAll (es ++ fs) = match s.replayAll es with
      | .ok s' => s'.replayAll fs
      | .error err => .error err := by
  induction es generalizing s with
  | nil => rfl
  | cons e es ih =>
      rw [List.cons_append, replayAll, replayAll]
      cases s.replay e with
      | error err => rfl
      | ok s' => exact ih s'

/-- The NEXT entries at the end of a load do not show in the snapshot. -/
theorem snapshot_next {js : List ℕ} (h : s.replayAll (js.map .next) = .ok s') :
    s'.snapshot = s.snapshot := by
  induction js generalizing s with
  | nil => exact Except.ok.inj h ▸ rfl
  | cons b js ih =>
      rw [List.map_cons, replayAll] at h
      split at h
      · rename_i s₁ hs₁
        rw [ih h]
        cases replay_eq_ok.1 hs₁
        rfl
      · cases h

/-- The two states have the same files with the same id, name, parent, size,
number of children and extents, the same free extents, the same number of files
and the same largest id. -/
structure Same (s s' : Super) : Prop where
  file : ∀ id : ℕ, (s'.filesById[id]?).map (fun f => (f.id, f.name, f.parentId, f.size, f.children)) =
    (s.filesById[id]?).map fun f => (f.id, f.name, f.parentId, f.size, f.children)
  extent : ∀ id i, s'.extentAt id i = s.extentAt id i
  free : s'.free = s.free
  files : s'.files = s.files
  maxFileId : s'.maxFileId = s.maxFileId

/-- States that entries are replayed into are determined by their metadata. -/
theorem Replaying.same (h : s.Replaying total) (h' : s'.Replaying total)
    (hm : s'.metadata = s.metadata) : s.Same s' := by
  refine ⟨h.rep.files_eq h'.rep hm, fun id i => ?_, ?_, ?_, congrArg Metadata.maxFileId hm⟩
  · rw [h'.settled.extentAt_eq, h.settled.extentAt_eq, hm]
  · ext b
    rw [h.mem_free, h'.mem_free, hm]
  · rw [h'.rep.files, h.rep.files, hm]

end Super

namespace Sys

variable {σ σ₀ : Sys} {s₀ : Super} {total : ℕ}

/-- The journals of the runs from `σ₀`: what a run has appended at some point,
and what a compaction makes of such a journal.  The compaction replays the
entries `P` and the NEXT entries of their extents into `s₀`. -/
inductive Journal (σ₀ : Sys) (s₀ : Super) : List Entry → Prop
  | run {σ : Sys} {es : List Entry} (h : σ₀.Reachable σ) (he : es <+: σ.log.appended) :
      Journal σ₀ s₀ es
  | compact {P T S : List Entry} {js : List ℕ} {X : Super} (h : Journal σ₀ s₀ (P ++ T))
      (hX : s₀.replayAll (P ++ js.map .next) = .ok X) (hS : X.snapshot = some S) :
      Journal σ₀ s₀ (S ++ T)

/-- Replaying a history and taking a snapshot of it. -/
theorem exists_snapshot {P T : List Entry} (ht : total ≤ extentCountMax)
    (hs₀ : s₀.Replaying total) (he : s₀.metadata = .empty)
    (h : (history total).Accepts .empty (P ++ T)) :
    ∃ X S, s₀.replayAll P = .ok X ∧ X.snapshot = some S ∧ (history total).Accepts .empty (S ++ T) ∧
      (history total).afterAll .empty (S ++ T) = (history total).afterAll .empty (P ++ T) := by
  obtain ⟨hP, hT⟩ := Machine.accepts_append.1 h
  obtain ⟨X, hX, hrX, hmX⟩ := Super.replayAll_of_accepts ht hs₀
    (he ▸ Metadata.accepts_of_history hP)
  have hmX : X.metadata = (history total).afterAll .empty P := by
    rw [hmX, he]
    rfl
  obtain ⟨S, hS, hacc, hafter⟩ := hrX.snapshot (hmX ▸ (Metadata.room_of_history hP).2)
  rw [hmX] at hafter
  refine ⟨X, S, hX, hS, Machine.accepts_append.2 ⟨hacc, ?_⟩, ?_⟩
  · rw [hafter]
    exact hT
  · rw [Machine.afterAll_append, Machine.afterAll_append, hafter]

/-- **Every journal makes sense**, however often it was compacted. -/
theorem Journal.accepts {discard compact : Bool} {u uuid : Uuid} {disk : Buf} {es : List Entry}
    (hf : FreshMkfs uuid disk) (h1 : 1 ≤ total) (ht : total ≤ extentCountMax)
    (hs₀ : s₀.Replaying total) (he : s₀.metadata = .empty)
    (h : Journal (Sys.opened total discard compact u disk) s₀ es) :
    (history total).Accepts .empty es := by
  induction h with
  | run hr hp =>
      obtain ⟨fs, hfs⟩ := hp
      have hacc := (hr.journalOk hf h1).accepts
      rw [← hfs] at hacc
      exact (Machine.accepts_append.1 hacc).1
  | @compact P T S js X h hX hS ih =>
      obtain ⟨X₀, S₀, hX₀, hS₀, hacc, -⟩ := exists_snapshot ht hs₀ he ih
      rw [Super.replayAll_append, hX₀] at hX
      rw [Super.snapshot_next hX, hS₀] at hS
      exact Option.some.inj hS ▸ hacc

/-- **A compaction preserves the meaning of the journal.**  Of a journal `P ++ T`
the replay accepts `P`, the snapshot that is taken there (whatever extents the
load takes out as NEXT entries) is a list `S`, and the replay accepts `S ++ T`
and leads to the same state as `P ++ T`. -/
theorem compaction_preserves_meaning {size : ℕ} {discard compact d c : Bool} {u uuid v : Uuid}
    {disk page : Buf} {P T : List Entry} (hsize : extentsOfSize size = some total)
    (hf : FreshMkfs uuid disk)
    (h : Journal (Sys.opened total discard compact u disk) (Super.opened total d c v page) (P ++ T)) :
    ∃ X S, (Super.opened total d c v page).replayAll P = .ok X ∧ X.snapshot = some S ∧
      (∀ (js : List ℕ) (X' : Super), (Super.opened total d c v page).replayAll (P ++ js.map .next) = .ok X' →
        X'.snapshot = some S) ∧
      ∃ Y Y', (Super.opened total d c v page).replayAll (P ++ T) = .ok Y ∧
        (Super.opened total d c v page).replayAll (S ++ T) = .ok Y' ∧ Y.Same Y' := by
  obtain ⟨h1, ht⟩ := one_le_of_extentsOfSize hsize
  have hopen := Super.replaying_opened total d c v page
  have hempty := Super.metadata_opened total d c v page
  have hacc := h.accepts hf h1 ht hopen hempty
  obtain ⟨X, S, hX, hS, haccS, hafter⟩ := exists_snapshot ht hopen hempty hacc
  obtain ⟨Y, hY, hrY, hmY⟩ := Super.replayAll_of_accepts ht hopen
    (hempty ▸ Metadata.accepts_of_history hacc)
  obtain ⟨Y', hY', hrY', hmY'⟩ := Super.replayAll_of_accepts ht hopen
    (hempty ▸ Metadata.accepts_of_history haccS)
  refine ⟨X, S, hX, hS, fun js X' hX' => ?_, Y, Y', hY, hY', hrY.same hrY' ?_⟩
  · rw [Super.replayAll_append, hX] at hX'
    rw [Super.snapshot_next hX', hS]
  · rw [hmY', hmY, hempty]
    exact hafter

/-- A file was created and deleted again: the snapshot of the empty state behind
it still knows its id. -/
theorem compaction_preserves_meaning_deleted :
    let u : Uuid := ⟨List.replicate 16 7, rfl⟩
    let name := FileName.ofCstr [97] (by decide)
    let s₀ := Super.opened 8 false false u fun _ => 0
    let σ₀ := Sys.opened 8 true true u (Buf.overlay (fun _ => 0) (superMake u))
    Journal σ₀ s₀ [.create 1 name, .delete 1] ∧
      ∃ X S, s₀.replayAll [.create 1 name, .delete 1] = .ok X ∧ X.snapshot = some S ∧
        ∃ Y, s₀.replayAll S = .ok Y ∧ Y.maxFileId = 1 := by
  intro u name s₀ σ₀
  have hfresh := freshMkfs_zero u
  obtain ⟨σ, hr, hm, -, -, -⟩ := exists_mounted hfresh (by decide : 1 ≤ 8) true true u
  have hbug : σ.sup.bug = none := by rw [hm.sup]; rfl
  have hnorm : name.normalize = some name := by decide
  obtain ⟨s₁, s₂, hs₁, hs₂, hb₁, hhead, hhead₁, hhead₂⟩ : ∃ s₁ s₂, σ.sup.create name = .ok s₁ ∧
      s₁.delete 1 = .ok s₂ ∧ s₁.bug = none ∧ σ.sup.journalHead = [] ∧
      s₁.journalHead = [⟨.create 1 name, false⟩] ∧
      s₂.journalHead = [⟨.create 1 name, false⟩, ⟨.delete 1, false⟩] := by
    rw [hm.sup]
    exact ⟨_, _, rfl, rfl, rfl, rfl, rfl, rfl⟩
  let σ₁ := (σ.commit s₁).flushNewJournal
  let σ₂ := (σ₁.commit s₂).flushNewJournal
  have h₁ : σ.step (.create name) = some σ₁ := by
    simp only [step, hbug, hnorm, metaOp, hs₁]
    rfl
  have h₂ : σ₁.step (.delete 1) = some σ₂ := by
    have hsup : σ₁.sup = s₁ := rfl
    simp only [step, hsup, hb₁, metaOp, hs₂]
    rfl
  have hlog : σ.log.appended = [] := by rw [hm.log]; rfl
  have happ₁ : σ₁.log.appended = [.create 1 name] := by
    change σ.log.appended ++ (s₁.journalHead.drop σ.sup.journalHead.length).map (·.entry) = _
    rw [hlog, hhead, hhead₁]
    rfl
  have happ₂ : σ₂.log.appended = [.create 1 name, .delete 1] := by
    change σ₁.log.appended ++ (s₂.journalHead.drop s₁.journalHead.length).map (·.entry) = _
    rw [happ₁, hhead₁, hhead₂]
    rfl
  have hj : Journal σ₀ s₀ ([.create 1 name, .delete 1] ++ []) :=
    .run (hr.trans ⟨[.create name, .delete 1], by rw [run, h₁, Option.bind_some, run, h₂]; rfl⟩)
      (by rw [happ₂]; exact List.prefix_rfl)
  obtain ⟨X, S, hX, hS, -, Y, Y', hY, hY', hsame⟩ := compaction_preserves_meaning
    (by decide : extentsOfSize 8396800 = some 8) hfresh hj
  rw [List.append_nil] at hY hY'
  refine ⟨hj, X, S, hX, hS, Y', hY', hsame.maxFileId.trans ?_⟩
  obtain rfl := Except.ok.inj (show Except.ok _ = _ from hY)
  rfl

end Sys

end Cyanfs
