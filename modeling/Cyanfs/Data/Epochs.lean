/-
# Writer epochs

A write that has found its extent counts itself in `writers[writer_current_id]`
until its handler has returned.  The hand-over to `flush_extents` changes the
current epoch and happens only while that set is empty, and the set is retired
only when the writers of the other epoch are gone; so while `flush_extents` is
empty no writer of the other epoch is left (`EpochsOk`), and an extent that a
writer holds is in the tree of the file, on its way to `flush_extents`, or in it
as one of the epoch that is waited for (`Protected`).
-/

import Cyanfs.Data.CopyOnWrite
import Cyanfs.Data.Released

namespace Cyanfs

open Lib Std

namespace Sys

variable {σ σ' : Sys} {total : ℕ}

/-! ### The counters -/

/-- The calls that count in an epoch. -/
def counted (σ : Sys) (w : Bool) : ℕ := σ.calls.countP fun c => c.epoch? = some w

/-- The counters are right, and `flush_extents` is empty only if no writer of the
other epoch is left. -/
structure EpochsOk (σ : Sys) : Prop where
  writers : ∀ w, σ.sup.writers w = σ.counted w
  empty : σ.sup.flush = ∅ → σ.sup.writers (!σ.sup.writerCurrent) = 0

theorem countP_plain {cs : Multiset Call} (h : ∀ c ∈ cs, c.Plain) (w : Bool) :
    cs.countP (fun c => c.epoch? = some w) = 0 := by
  refine Multiset.countP_eq_zero.2 fun c hc he => ?_
  rw [(h c hc).epoch?] at he
  cases he

theorem countP_erase {cs : Multiset Call} {c : Call} (hc : c ∈ cs) (w : Bool) :
    cs.countP (fun c => c.epoch? = some w) =
      (cs.erase c).countP (fun c => c.epoch? = some w) + if c.epoch? = some w then 1 else 0 := by
  conv_lhs => rw [← Multiset.cons_erase hc, Multiset.countP_cons]

/-- A call that a thread enters without counting as a writer. -/
theorem Enters.epoch? {c : Call} (h : σ.Enters c) : c.epoch? = none := by
  cases h with
  | plain h => exact h.epoch?
  | readHandler | writeAlloc | requeue => rfl

/-- **The counters count the calls.** -/
theorem counted_turn (h : σ.Turn σ') (hw : ∀ w, σ.sup.writers w = σ.counted w) (w : Bool) :
    σ'.sup.writers w = σ'.counted w := by
  unfold counted at *
  cases h with
  | @moved c c' hc he hepoch hio hnew =>
      subst he
      have := hw w
      rw [countP_erase hc, if_neg (by simp [hepoch])] at this
      simp only [setCall, Multiset.countP_cons, hnew.epoch?]
      simpa using this
  | @plain gone new hgone hepoch hnew hcalls hw' =>
      have h0 : gone.countP (fun c => c.epoch? = some w) = 0 :=
        Multiset.countP_eq_zero.2 fun c hc he => by rw [hepoch c hc] at he; cases he
      rw [hw', hcalls, Multiset.countP_add, countP_plain hnew, Multiset.countP_sub hgone, h0, hw w]
      simp
  | @mapped c io io' e hc hepoch hio hsame hnode hbug hcurrent hw' hcalls =>
      have := hw w
      rw [countP_erase hc, if_neg (by simp [hepoch])] at this
      rw [hw', hcalls, Multiset.countP_cons, Function.update_apply]
      by_cases heq : w = σ.sup.writerCurrent
      · subst heq
        simp [Call.epoch?, this]
      · simp [Call.epoch?, this, heq, Ne.symm heq]
  | @returned io arg v new rs hc hnew he =>
      subst he
      have := hw w
      rw [countP_erase hc] at this
      simp only [Multiset.countP_add, countP_plain hnew, Function.update_apply, Nat.zero_add]
      by_cases heq : w = v
      · subst heq
        simp [Call.epoch?] at this ⊢
        omega
      · simp [Call.epoch?, heq, Ne.symm heq] at this ⊢
        omega

/-- The other epoch gets no new writer. -/
theorem writers_turn (h : σ.Turn σ') {w : Bool} (hw : w ≠ σ.sup.writerCurrent) :
    σ'.sup.writers w ≤ σ.sup.writers w := by
  cases h with
  | moved hc he => exact (he ▸ le_rfl)
  | plain hgone hepoch hnew hcalls hw' => rw [hw']
  | mapped hc hepoch hio hsame hnode hbug hcurrent hw' hcalls =>
      rw [hw', Function.update_of_ne hw]
  | @returned io arg v new rs hc hnew he =>
      subst he
      simp only [Function.update_apply]
      split_ifs with h
      · subst h
        omega
      · exact le_rfl

theorem epochsOk_step {l : Label} (hσ : σ.Sound total) (h : σ.EpochsOk) (hs : σ.step l = some σ') :
    σ'.EpochsOk := by
  have ht := step_turn hσ.calls hs
  have he := (hσ.step hs).2
  refine ⟨counted_turn ht h.writers, fun hempty => ?_⟩
  have hle : σ'.sup.writers (!σ.sup.writerCurrent) ≤ σ.sup.writers (!σ.sup.writerCurrent) :=
    writers_turn ht (by simp)
  have hkeep : σ'.sup.flush = σ.sup.flush → σ'.sup.writerCurrent = σ.sup.writerCurrent →
      σ'.sup.writers (!σ'.sup.writerCurrent) = 0 := by
    intro hf hc
    rw [hc]
    have := h.empty (hf ▸ hempty)
    omega
  cases drain_effect hσ he with
  | keep hf hc hr =>
      rw [hc]
      have := h.empty (hf ▸ hempty)
      omega
  | handOver he hne hc hr => exact absurd hempty hne
  | retire hw hc hr =>
      rw [hc]
      omega

theorem epochsOk_opened (total : ℕ) (discard compact : Bool) (uuid : Uuid) (disk : Buf) :
    (Sys.opened total discard compact uuid disk).EpochsOk := ⟨fun _ => rfl, fun _ => rfl⟩

theorem Reachable.epochsOk {discard compact : Bool} {uuid : Uuid} {disk : Buf}
    (h : (Sys.opened total discard compact uuid disk).Reachable σ) : σ.EpochsOk :=
  (h.rule (P := fun σ => σ.Sound total ∧ σ.EpochsOk) ⟨sound_opened .., epochsOk_opened ..⟩
    fun _ _ _ hp hs => ⟨(hp.1.step hs).1, epochsOk_step hp.1 hp.2 hs⟩).2

/-! ### What a writer holds -/

/-- The extent `b` of a writer that counts in epoch `w`. -/
inductive Protected (σ : Sys) (id i b : ℕ) (w : Bool) : Prop
  | bound {x : Extent} (hx : σ.sup.extentAt id i = some x) (hb : x.backend = b)
  | released (h : σ.Released b)
  | flush (hb : b ∈ σ.sup.flush) (hw : w = !σ.sup.writerCurrent)

/-- A writer of epoch `w` is in its handler. -/
theorem EpochsOk.pos {c : Call} {w : Bool} (h : σ.EpochsOk) (hc : c ∈ σ.calls)
    (hw : c.epoch? = some w) : σ.sup.writers w ≠ 0 := by
  rw [h.writers]
  exact (Multiset.countP_pos.2 ⟨c, hc, hw⟩).ne'

/-- **A step keeps what a writer holds protected.** -/
theorem protected_step {l : Label} {c : Call} {id i b : ℕ} {w : Bool} (hσ : σ.Sound total)
    (h : σ.EpochsOk) (hl : σ.loader = none) (hs : σ.step l = some σ') (hc : c ∈ σ.calls)
    (hw : c.epoch? = some w) (hp : σ.Protected id i b w) : σ'.Protected id i b w := by
  have he := (hσ.step hs).2
  have hpos := h.pos hc hw
  cases hp with
  | @bound x hx hb =>
      cases node_effect hσ (bug_of_step hs) hl he id i with
      | same hsame => exact .bound (hsame.trans hx) hb
      | mapped hf hmode hnone => rw [hx] at hnone; cases hnone
      | copied h₁ h₂ =>
          rw [hx] at h₁
          exact .bound h₂ (by rw [← hb, Option.some.inj h₁])
      | unmapped hf hmode he hnone hu =>
          rw [hx] at he
          refine .released (.inl ?_)
          rw [← hb, Option.some.inj he]
          exact hu
  | released hr =>
      cases drain_effect hσ he with
      | keep hf hc hrel => exact .released (hrel b hr)
      | handOver hempty hne hcur hrel =>
          rcases hrel b hr with hr | hr
          · exact .released hr
          · -- the epoch that ends is that of the writer: the other one is empty
            refine .flush hr ?_
            rw [hcur, Bool.not_not]
            by_contra hne
            refine hpos ?_
            rw [Bool.eq_not_of_ne hne]
            exact h.empty hempty
      | retire hz hcur hrel => exact .released (hrel b hr)
  | flush hb hcur =>
      cases drain_effect hσ he with
      | keep hf hc hrel => exact .flush (hf ▸ hb) (hc ▸ hcur)
      | handOver hempty hne hc hrel =>
          rw [hempty] at hb
          simp at hb
      | retire hz hc hrel => exact absurd (hcur ▸ hz) hpos

theorem protected_run {ls : List Label} {c : Call} {id i b : ℕ} {w : Bool} (hσ : σ.Sound total)
    (h : σ.EpochsOk) (hl : σ.loader = none) (hrun : σ.run ls = some σ')
    (hc : Throughout (fun τ => c ∈ τ.calls) σ ls) (hw : c.epoch? = some w)
    (hp : σ.Protected id i b w) : σ'.Sound total ∧ σ'.Protected id i b w := by
  induction ls generalizing σ with
  | nil => exact Option.some.inj hrun ▸ ⟨hσ, hp⟩
  | cons l ls ih =>
      obtain ⟨τ, hs, hr⟩ := Option.bind_eq_some_iff.1 hrun
      exact ih (hσ.step hs).1 (epochsOk_step hσ h hs) (loader_effect (hσ.step hs).2 hl) hr
        (hc.2 τ hs) (protected_step hσ h hl hs hc.1 hw hp)

/-- A protected extent is not free, nor on its way to be, and only its own file
can have it. -/
theorem Protected.safe {id i b : ℕ} {w : Bool} (hσ : σ.Sound total) (hp : σ.Protected id i b w) :
    b ∉ σ.sup.free ∧ b ∉ σ.sup.waitDiscard ∧ b ∉ σ.sup.discard ∧
      ∀ k j y, σ.sup.extentAt k j = some y → y.backend = b → k = id := by
  obtain ⟨o, ho, hne⟩ : ∃ o, b ∈ σ.sup.owned σ.held o ∧ (o = .file id i ∨ o = .unused ∨
      o = .flush ∨ ∃ fl, o = .flusher fl) := by
    cases hp with
    | bound hx hb => exact ⟨.file id i, by simp [Super.owned, hx, hb], .inl rfl⟩
    | released h =>
        rcases h with hb | ⟨fl, hb⟩
        · exact ⟨.unused, hb, .inr (.inl rfl)⟩
        · exact ⟨.flusher fl, hb, .inr (.inr (.inr ⟨fl, rfl⟩))⟩
    | flush hb hw => exact ⟨.flush, hb, .inr (.inr (.inl rfl))⟩
  have hu := fun o' => hσ.extents.sup.parts.mem_unique (a := b) o' o
  refine ⟨fun hb => ?_, fun hb => ?_, fun hb => ?_, fun k j y hy hb => ?_⟩
  · have := hu .free hb ho
    grind
  · have := hu .waitDiscard hb ho
    grind
  · have := hu .discard hb ho
    grind
  · have := hu (.file k j) (by simp [Super.owned, hy, hb]) ho
    grind

/-- **Writer epochs protect in-flight writes.**  In any run, whatever the disk
holds: a thread gets to the label `mapped` of `cyanfs_write` with the extent of
its node and counts itself in the current epoch; from then on, as long as its
handler has not returned, the extent is in none of `free_extents`,
`wait_discard_extents` and `discard_extents` and no other file has it, whatever
else happens. -/
theorem epochs_protect {discard compact : Bool} {uuid : Uuid} {disk : Buf} {l : Label}
    {io : IoCall} {arg : HandlerArg} {w : Bool}
    (h : (Sys.opened total discard compact uuid disk).Reachable σ) (hs : σ.step l = some σ')
    (hnew : σ.calls.count (.writeHandler io arg (some w)) <
      σ'.calls.count (.writeHandler io arg (some w))) :
    ∃ x, σ'.sup.extentAt io.file io.index = some x ∧ arg = .of x io.off ∧
      w = σ.sup.writerCurrent ∧ σ'.sup.writers w = σ.sup.writers w + 1 ∧
      ∀ ls σ'', σ'.run ls = some σ'' →
        Throughout (fun τ => .writeHandler io arg (some w) ∈ τ.calls) σ' ls →
        x.backend ∉ σ''.sup.free ∧ x.backend ∉ σ''.sup.waitDiscard ∧
        x.backend ∉ σ''.sup.discard ∧
        ∀ id i y, σ''.sup.extentAt id i = some y → y.backend = x.backend → id = io.file := by
  have hσ := h.sound
  obtain ⟨hl, ⟨x, hx, harg⟩, hcur, hcount⟩ := node_of_mapped hσ hs hnew
  refine ⟨x, hx, harg, hcur, hcount, fun ls σ'' hrun hall => ?_⟩
  obtain ⟨hσ'', hp⟩ := protected_run (hσ.step hs).1 (epochsOk_step hσ h.epochsOk hs) hl hrun hall
    rfl (.bound hx rfl)
  exact hp.safe hσ''

/-- The first writer on a fresh file system of a hundred extents. -/
theorem epochs_protect_first_write :
    let u : Uuid := ⟨List.replicate 16 7, rfl⟩
    let σ₀ := Sys.opened 100 true true u (Buf.overlay (fun _ => 0) (superMake u))
    ∃ τ τ' l x, σ₀.Reachable τ ∧ τ.step l = some τ' ∧ τ'.sup.extentAt 1 0 = some x ∧
      τ'.sup.writers false = τ.sup.writers false + 1 ∧
      x.backend ∉ τ'.sup.free ∧ x.backend ∉ τ'.sup.waitDiscard ∧ x.backend ∉ τ'.sup.discard := by
  intro u σ₀
  obtain ⟨τ, τ', b, f, hrun, -, -, hs, hnew⟩ := exists_first_write (freshMkfs_zero u)
    (by decide : reservedFor 100 + 1 < 100) true true u FileName.normal_letter
  have hr : σ₀.Reachable τ := ⟨_, hrun⟩
  obtain ⟨x, hx, -, -, hw, hall⟩ := epochs_protect hr hs hnew
  obtain ⟨h₁, h₂, h₃, -⟩ := hall [] τ' rfl (Multiset.count_pos.1 (Nat.zero_lt_of_lt hnew))
  exact ⟨τ, τ', _, x, hr, hs, hx, hw, h₁, h₂, h₃⟩

end Sys

end Cyanfs
