/-
# A mount comes to its end

What the executor makes of a disk whose super block is valid, whose journal leads to a place at
which no record follows, and whose entries the parser takes: it goes through the pages of the
journal and the super is mounted (`Sys.exists_mount`).  The callbacks of the loader run into no bug
on the way, since no extent is pending before the mount is over.
-/

import Cyanfs.Metadata.Nodes
import Cyanfs.Journal.Reach

namespace Cyanfs

open Lib Std

/-- What the replay accepts the parser takes. -/
theorem applyEntries_of_replayAll {X Y : Super} {es : List Entry} (h : X.replayAll es = .ok Y) :
    applyEntries true X es = (Y, true) := by
  induction es generalizing X with
  | nil => rw [applyEntries, Except.ok.inj h]
  | cons e es ih =>
      rw [Super.replayAll, Super.replay] at h
      cases hX : X.replayWith true e with
      | ok X' =>
          rw [hX] at h
          rw [applyEntries, hX]
          exact ih h
      | error err =>
          rw [hX] at h
          cases h

/-- A super without an error is replayed into without one. -/
theorem Super.error_replayAll {X Y : Super} {es : List Entry} (h : X.replayAll es = .ok Y) :
    Y.error = X.error := by
  induction es generalizing X with
  | nil => rw [Except.ok.inj h]
  | cons e es ih =>
      rw [replayAll] at h
      split at h
      · rename_i X' hX
        obtain ⟨_, _, _, _, _, _, _, _, _, _, _, hs⟩ := (replay_eq_ok.1 hX).shape
        rw [ih h, hs]
      · cases h

/-- NEXT entries take free extents. -/
theorem Super.exists_replayAll_next {X : Super} {js : List ℕ} (hnodup : js.Nodup)
    (hfree : ∀ b ∈ js, b ≤ extentIndexMax ∧ b ∈ X.free) :
    ∃ Y, X.replayAll (js.map .next) = .ok Y := by
  induction js generalizing X with
  | nil => exact ⟨X, rfl⟩
  | cons b js ih =>
      obtain ⟨hb, hnd⟩ := List.nodup_cons.1 hnodup
      obtain ⟨hlt, hbfree⟩ := hfree b List.mem_cons_self
      obtain ⟨Y, hY⟩ := ih (X := X.takeJournal b) hnd fun b' hb' => by
        obtain ⟨hlt', hfree'⟩ := hfree b' (List.mem_cons_of_mem _ hb')
        exact ⟨hlt', Finset.mem_erase.2 ⟨fun he => hb (he ▸ hb'), hfree'⟩⟩
      refine ⟨Y, ?_⟩
      have hfind : X.findExtent b = some b := findExtent_eq_some.2 ⟨rfl, hlt, hbfree⟩
      rw [List.map_cons, replayAll, replay, replayWith]
      simp only [hfind]
      exact hY

namespace Sys

variable {σ : Sys} {total : ℕ}

/-- **The executor goes through the pages of the journal.** -/
theorem run_loads {l l' : Loader} {X Y : Super} {g : Buf}
    (h : Loads g (.readPage l X) (.finish l' Y)) (hσ : σ.Sound total) (hbug : σ.sup.bug = none)
    (hsup : σ.sup = X) (hl : σ.loader = some l) (hq : σ.queue = [.loadPage]) (ha : σ.active = none)
    (hd : σ.disk.view = g) : ∃ n τ, σ.run (work n) = some τ ∧
      τ.sup = { Y with
        ready := true
        uuid := l'.header.uuid
        cursor := { Y.cursor with extentIdOndisk := Y.cursor.extentId } } ∧
      τ.queue = [] ∧ τ.active = none ∧ τ.calls = σ.calls ∧ τ.disk = σ.disk := by
  generalize hstart : LoaderOut.readPage l X = start at h
  generalize hend : LoaderOut.finish l' Y = out at h
  induction h generalizing σ l X with
  | finish => cases hstart
  | error => cases hstart
  | page h ih =>
      obtain ⟨rfl, rfl⟩ := LoaderOut.readPage.inj hstart
      subst hend hsup hd
      let σ₁ : Sys := { σ with active := some .loadPage, queue := [] }
      have e₁ : σ.step .get = some σ₁ := by
        rw [step, if_neg (by simp [hbug])]
        simp only [ha, hq, σ₁]
      have e₂ : σ₁.step (.done false true fun _ => 0) = some (Sys.loaded
          { σ with active := none, queue := [] } (l.parserPage σ.sup true σ.disk.view)) := by
        rw [step, if_neg (by simp [σ₁, hbug])]
        simp only [σ₁, runTask, hl]
        rfl
      have hrun : σ.run (work 1) = some (Sys.loaded
          { σ with active := none, queue := [] } (l.parserPage σ.sup true σ.disk.view)) := by
        change σ.run [.get, .done false true fun _ => 0] = _
        rw [run, e₁, Option.bind_some, run, e₂, Option.bind_some, run]
      have hσ₁ := (hσ.step e₁).1
      have hσ₂ := (hσ₁.step e₂).1
      have hout : MountOut σ₁ l (l.parserPage σ.sup true σ.disk.view) := .page true rfl
      have hbug₂ := hout.bug hσ₁.calls hσ₁.live (by simp [σ₁, hl]) hbug
      generalize l.parserPage σ.sup true σ.disk.view = out at *
      cases out with
      | error => cases h
      | finish =>
          cases h
          exact ⟨1, _, hrun, rfl, rfl, rfl, rfl, rfl⟩
      | readPage l₂ X₂ =>
          obtain ⟨n, τ, hτ, hsup, hqueue, hactive, hcalls, hdisk⟩ :=
            ih hσ₂ hbug₂ rfl rfl rfl rfl rfl rfl rfl
          refine ⟨1 + n, τ, ?_, hsup, hqueue, hactive, hcalls, hdisk⟩
          rw [work, List.replicate_add, List.flatten_append, run_append]
          exact (congrArg (Option.bind · _) hrun).trans hτ

/-- **A good disk is mounted.** -/
theorem exists_mount {discard compact : Bool} {u : Uuid} {g : Buf} {h : SuperHeader} {bs : List ℕ}
    {es : List Entry} {w : Place} {Y₁ Y : Super} (hp : superParse g = some h)
    (ht : Tells g h.uuid.seed h.place bs es w) (hstop : scanAt g h.uuid.seed w = .stop)
    (hnodup : bs.Nodup) (hlt : ∀ b ∈ bs, b < total) (htotal : total ≤ extentCountMax)
    (happ : (Super.opened total discard compact u fun _ => 0).replayAll es = .ok Y₁)
    (hnext : Y₁.replayAll (bs.map .next) = .ok Y) :
    ∃ n τ c, (Sys.opened total discard compact u g).run (work n) = some τ ∧
      τ.sup = { Y with ready := true, uuid := h.uuid, cursor := c } ∧ c.place = w ∧
      c.extentIdOndisk = w.extentId ∧ τ.queue = [] ∧ τ.active = none ∧ τ.calls = 0 ∧
      τ.disk = ⟨g, []⟩ := by
  let σ₀ := Sys.opened total discard compact u g
  obtain ⟨js, rfl, htrace⟩ := ht
  have hσ₀ := sound_opened total discard compact u g
  obtain ⟨c, hc, hhead⟩ := Loader.parserHeader_of_parse (l := ⟨mkfsHeader u 0, none, []⟩)
    (X := σ₀.sup) hp (by simp) rfl (hlt _ List.mem_cons_self) htotal
  let X : Super := { σ₀.sup with cursor := c }
  let l : Loader := ⟨h, none, [h.journalId]⟩
  let σ₁ : Sys := { σ₀ with active := some .loadHeader, queue := [] }
  let σ₂ : Sys := { σ₀ with sup := X, loader := some l, queue := [.loadPage] }
  have e₁ : σ₀.step .get = some σ₁ := rfl
  have e₂ : σ₁.step (.done false true fun _ => 0) = some σ₂ := by
    have : σ₁.step (.done false true fun _ => 0) = some (Sys.loaded { σ₁ with active := none }
        (Loader.parserHeader ⟨mkfsHeader u 0, none, []⟩ σ₀.sup true g)) := rfl
    rw [this, hhead]
    rfl
  -- the parser takes the entries of the chain, and then its extents
  have happ₁ : applyEntries true X es = ({ Y₁ with cursor := c }, true) := by
    rw [applyEntries_cursor, show applyEntries true σ₀.sup es = (Y₁, true) from
      applyEntries_of_replayAll happ]
  have hadm : l.Admits X.totalExtents js := by
    refine ⟨hnodup, fun b hb => ?_⟩
    have hb' := hlt b (List.mem_cons_of_mem _ hb)
    refine ⟨hb', ?_, by simp [l]⟩
    simp only [extentCountMax, extentIdInvalid] at *
    omega
  obtain ⟨c', hc', -, -, hload⟩ :=
    Loader.loads htrace h.valid_place hstop (l := l) rfl rfl hc hadm happ₁
  have hfinish : Loader.end { l with journals := l.journals ++ js } { Y₁ with cursor := c' } true =
      .finish { l with journals := l.journals ++ js } { Y with cursor := c' } := by
    have hjournals : l.journals ++ js = h.journalId :: js := rfl
    have hall := applyEntries_of_replayAll hnext
    simp only [Loader.end, hjournals, applyEntries_cursor]
    rw [show applyEntries true Y₁ ((h.journalId :: js).map .next) = (Y, true) from hall]
  rw [hfinish] at hload
  obtain ⟨n, τ, hτ, hsup, hq, ha, hcalls, hdisk⟩ :=
    run_loads (σ := σ₂) hload ((hσ₀.step e₁).1.step e₂).1 rfl rfl rfl rfl rfl rfl
  refine ⟨1 + n, τ, _, ?_, hsup, hc', congrArg Place.extentId hc', hq, ha, hcalls, hdisk⟩
  have hrun : σ₀.run (work 1) = some σ₂ := by
    change σ₀.run [.get, .done false true fun _ => 0] = _
    rw [run, e₁, Option.bind_some, run, e₂, Option.bind_some, run]
  rw [work, List.replicate_add, List.flatten_append, run_append]
  exact (congrArg (Option.bind · _) hrun).trans hτ

end Sys

end Cyanfs
