/-
# No update is lost under copy-on-write

A write to an extent that an ancestor has starts a COPY into a fresh extent and
marks its node pending until the COPY is done.  Handlers are given an extent only
while its node is not pending, so no COPY can overwrite what they store: none is
under way then, and none is made later as long as the extent stays bound
(`no_lost_update`).
-/

import Cyanfs.Data.Mapping
import Cyanfs.Run.First

namespace Cyanfs

open Lib Std

/-- The arguments of a handler of `cyanfs_read` or `cyanfs_write`. -/
def Call.handler? : Call → Option (IoCall × HandlerArg)
  | readHandler io arg => some (io, arg)
  | writeHandler io arg _ => some (io, arg)
  | _ => none

namespace Super

variable {s : Super} {off : ℕ}

/-- The extent that the walk through the ancestors finds is the node of a file. -/
theorem extentAt_of_followFrom {e : Extent} (n : ℕ) (file : Option ℕ)
    (h : s.followFrom off n file = some e) :
    ∃ id, s.extentAt id (fileIndex (extentFrom off)) = some e := by
  induction n generalizing file with
  | zero => cases file <;> cases h
  | succ n ih =>
      cases file with
      | none => cases h
      | some id =>
          rw [followFrom] at h
          split at h
          · cases h
          rename_i f hf
          split_ifs at h
          split at h
          · rename_i x hx
            obtain rfl := Option.some.inj h
            exact ⟨id, by rw [extentAt_of_file hf]; exact hx⟩
          · exact ih _ h

end Super

namespace Sys

variable {σ σ' σ'' : Sys} {b total : ℕ}

/-- How many COPY tasks with destination `b` are queued or have their I/O
outstanding. -/
def copiesTo (σ : Sys) (b : ℕ) : ℕ := (σ.copies.map (·.2.2.1)).count b

/-- How many COPY tasks with destination `b` are created along a run. -/
def copiesMade (b : ℕ) : Sys → List Label → ℕ
  | _, [] => 0
  | σ, l :: ls =>
      match σ.step l with
      | none => 0
      | some σ' => (σ'.copiesTo b - σ.copiesTo b) + copiesMade b σ' ls

/-- `P` holds in every state of a run. -/
def Throughout (P : Sys → Prop) : Sys → List Label → Prop
  | σ, [] => P σ
  | σ, l :: ls => P σ ∧ ∀ σ', σ.step l = some σ' → Throughout P σ' ls

theorem Throughout.start {P : Sys → Prop} {ls : List Label} (h : Throughout P σ ls) : P σ := by
  cases ls with
  | nil => exact h
  | cons l ls => exact h.1

/-- The call that a thread moved on to is the one that was not there. -/
theorem eq_of_count_lt {cs : Multiset Call} {c c' d : Call}
    (h : cs.count c < (c' ::ₘ cs.erase d).count c) : c' = c := by
  by_contra hne
  rw [Multiset.count_cons_of_ne (Ne.symm hne)] at h
  exact absurd (Multiset.count_le_of_le c (Multiset.erase_le d cs)) (by omega)

theorem not_count_lt {cs new rest : Multiset Call} {c : Call} (hn : ∀ d ∈ new, d.Plain)
    (hle : rest ≤ cs) (hc : ¬ c.Plain) : ¬ cs.count c < (new + rest).count c := by
  have h0 : new.count c = 0 := Multiset.count_eq_zero.2 fun hm => hc (hn c hm)
  have := Multiset.count_le_of_le c hle
  rw [Multiset.count_add]
  omega

/-- A handler is called in the step, with an extent that is not pending. -/
theorem node_of_submit {l : Label} {c : Call} {io : IoCall} {off : ℕ} (h : σ.Sound total)
    (hs : σ.step l = some σ') (hc : c.handler? = some (io, .submit off))
    (hnew : σ.calls.count c < σ'.calls.count c) :
    σ'.sup.bug = none ∧ ∃ id x, σ'.sup.extentAt id io.index = some x ∧ x.pending = false ∧
      off = mapExtentOffset x.backend io.off := by
  have hbug := bug_of_step hs
  have harg : ∀ (x : Extent) (n : ℕ), HandlerArg.of x n = .submit off →
      x.pending = false ∧ off = mapExtentOffset x.backend n := by
    intro x n hx
    unfold HandlerArg.of at hx
    split_ifs at hx with h₁ h₂
    exact ⟨by simpa using h₂, (HandlerArg.submit.inj hx).symm⟩
  have hplain : ¬ c.Plain := by
    intro hp
    cases c <;> first | exact hp.elim | cases hc
  cases step_turn h.calls hs with
  | @moved d c' hd he hepoch hio hent =>
      subst he
      obtain rfl := eq_of_count_lt hnew
      refine ⟨hbug, ?_⟩
      cases hent with
      | plain hp => cases c' <;> first | exact hp.elim | cases hc
      | @readHandler io' hst =>
          simp only [Call.handler?, Option.some.injEq, Prod.mk.injEq] at hc
          obtain ⟨rfl, hx⟩ := hc
          split at hx
          · rename_i x hfind
            obtain ⟨id, hid⟩ := Super.extentAt_of_followFrom _ _ hfind
            obtain ⟨hp, ho⟩ := harg x _ hx
            exact ⟨id, x, hid, hp, ho⟩
          · cases hx
      | writeAlloc => cases hc
      | requeue => cases hc
  | plain hgone hepoch hn hcalls hw =>
      rw [hcalls] at hnew
      exact absurd hnew (not_count_lt hn (Multiset.sub_le_self _ _) hplain)
  | @mapped d io₀ io' x hd hepoch hio hsame hnode hb hcur hw hcalls =>
      rw [hcalls] at hnew
      obtain rfl := eq_of_count_lt hnew
      simp only [Call.handler?, Option.some.injEq, Prod.mk.injEq] at hc
      obtain ⟨rfl, hx⟩ := hc
      obtain ⟨hp, ho⟩ := harg x _ hx
      refine ⟨hb.trans hbug, io₀.file, x, ?_, hp, ho⟩
      rw [IoCall.index, hsame.2.1]
      exact hnode
  | returned hd hn he =>
      subst he
      exact absurd hnew (not_count_lt hn (Multiset.erase_le _ _) hplain)

/-- A node that is not pending is the destination of no COPY. -/
theorem copiesTo_of_settled {id i : ℕ} {x : Extent} (h : σ.Sound total) (hbug : σ.sup.bug = none)
    (hx : σ.sup.extentAt id i = some x) (hp : x.pending = false) : σ.copiesTo x.backend = 0 := by
  refine List.count_eq_zero.2 fun hm => ?_
  obtain ⟨⟨f, j, b, src⟩, hmem, hb⟩ := List.mem_map.1 hm
  have hpend := (h.live.copies hbug).pending f j b src hmem
  obtain ⟨rfl, rfl⟩ := h.bound_once hpend hx hb
  rw [hpend] at hx
  obtain rfl := Option.some.inj hx
  cases hp

/-- An extent that no file has is the destination of no COPY. -/
theorem copiesTo_of_not_bound (h : σ.Sound total) (hbug : σ.sup.bug = none)
    (hb : b ∉ σ.sup.bound) : σ.copiesTo b = 0 := by
  refine List.count_eq_zero.2 fun hm => hb ?_
  obtain ⟨⟨f, j, c, src⟩, hmem, rfl⟩ := List.mem_map.1 hm
  exact mem_bound_of_extentAt ((h.live.copies hbug).pending f j c src hmem)

/-- One step makes at most one COPY, and none to an extent that is bound. -/
theorem copiesTo_step {l : Label} (h : σ.Sound total) (hs : σ.step l = some σ') :
    σ'.copiesTo b ≤ σ.copiesTo b + 1 ∧ (b ∈ σ.sup.bound → σ'.copiesTo b ≤ σ.copiesTo b) := by
  rcases copies_effect h (h.step hs).2 with he | ⟨f, i, c, src, hfree, -, -, he⟩ | ⟨x, he⟩
  · simp [copiesTo, he]
  · simp only [copiesTo, he, List.map_append, List.count_append]
    constructor
    · exact Nat.add_le_add_left (List.count_le_length ..) _
    · intro hb
      have hne : c ≠ b := by
        rintro rfl
        exact Super.not_mem_bound_of_free h.extents.sup hfree hb
      simp [hne]
  · simp only [copiesTo, he, List.map_cons]
    have := List.count_le_count_cons (a := b) (b := x.2.2.1) (l := σ'.copies.map (·.2.2.1))
    exact ⟨by omega, fun _ => this⟩

/-- While an extent stays bound no COPY to it is made. -/
theorem copies_throughout {ls : List Label} (h : σ.Sound total) (hrun : σ.run ls = some σ')
    (hb : Throughout (fun τ => b ∈ τ.sup.bound) σ ls) :
    σ'.copiesTo b ≤ σ.copiesTo b ∧ copiesMade b σ ls = 0 := by
  induction ls generalizing σ with
  | nil => exact ⟨Option.some.inj hrun ▸ le_rfl, rfl⟩
  | cons l ls ih =>
      obtain ⟨τ, hs, hr⟩ := Option.bind_eq_some_iff.1 hrun
      have hle := (copiesTo_step h hs).2 hb.1
      obtain ⟨h₁, h₂⟩ := ih (h.step hs).1 hr (hb.2 τ hs)
      refine ⟨h₁.trans hle, ?_⟩
      simp only [copiesMade, hs, h₂]
      omega

/-! ### Racing writers -/

/-- A writer is given the node of its file and counts itself in the current
epoch. -/
theorem node_of_mapped {l : Label} {io : IoCall} {arg : HandlerArg} {w : Bool} (h : σ.Sound total)
    (hs : σ.step l = some σ')
    (hnew : σ.calls.count (.writeHandler io arg (some w)) <
      σ'.calls.count (.writeHandler io arg (some w))) :
    σ'.loader = none ∧ (∃ x, σ'.sup.extentAt io.file io.index = some x ∧ arg = .of x io.off) ∧
      w = σ.sup.writerCurrent ∧ σ'.sup.writers w = σ.sup.writers w + 1 := by
  obtain ⟨hσ', -⟩ := h.step hs
  have hmem : .writeHandler io arg (some w) ∈ σ'.calls := Multiset.count_pos.1 (by omega)
  refine ⟨hσ'.loader_of_call hmem rfl, ?_⟩
  cases step_turn h.calls hs with
  | @moved d c' hd he hepoch hio hent =>
      subst he
      obtain rfl := eq_of_count_lt hnew
      cases hent with
      | plain hp => exact hp.elim
  | plain hgone hepoch hn hcalls hw =>
      rw [hcalls] at hnew
      exact absurd hnew (not_count_lt hn (Multiset.sub_le_self _ _) (by simp [Call.Plain]))
  | @mapped d io₀ io' x hd hepoch hio hsame hnode hb hcur hw hcalls =>
      rw [hcalls] at hnew
      obtain ⟨rfl, rfl, rfl⟩ :
          io' = io ∧ HandlerArg.of x io'.off = arg ∧ σ.sup.writerCurrent = w := by
        simpa using eq_of_count_lt hnew
      refine ⟨⟨x, ?_, rfl⟩, rfl, by rw [hw, Function.update_self]⟩
      rw [hsame.1, IoCall.index, hsame.2.1]
      exact hnode
  | returned hd hn he =>
      subst he
      exact absurd hnew (not_count_lt hn (Multiset.erase_le _ _) (by simp [Call.Plain]))

/-- **No lost update under copy-on-write.**  In any run, whatever the disk holds:

* a handler that is called with an extent finds no COPY to it queued or
  outstanding, and none is made while the extent stays bound;
* from the step on that binds an extent at most one COPY to it is made while it
  stays bound;
* writers that get to the same node, in whatever order their sections run, are
  given the same extent, unless a discard, a truncation or a deletion comes in
  between. -/
theorem no_lost_update {discard compact : Bool} {uuid : Uuid} {disk : Buf} {l : Label}
    (h : (Sys.opened total discard compact uuid disk).Reachable σ) (hs : σ.step l = some σ') :
    (∀ c io off, c.handler? = some (io, .submit off) → σ.calls.count c < σ'.calls.count c →
      ∃ b, off = mapExtentOffset b io.off ∧ b ∈ σ'.sup.bound ∧ σ'.copiesTo b = 0 ∧
        ∀ ls σ'', σ'.run ls = some σ'' → Throughout (fun τ => b ∈ τ.sup.bound) σ' ls →
          σ''.copiesTo b = 0 ∧ copiesMade b σ' ls = 0) ∧
    (∀ b ls σ'', b ∉ σ.sup.bound → σ'.run ls = some σ'' →
      Throughout (fun τ => b ∈ τ.sup.bound) σ' ls → copiesMade b σ (l :: ls) ≤ 1) ∧
    ∀ io arg w ls τ l' τ' io' arg' w',
      σ.calls.count (.writeHandler io arg (some w)) <
        σ'.calls.count (.writeHandler io arg (some w)) →
      σ'.run ls = some τ → (∀ m ∈ ls ++ [l'], m.unmaps = false) → τ.step l' = some τ' →
      τ.calls.count (.writeHandler io' arg' (some w')) <
        τ'.calls.count (.writeHandler io' arg' (some w')) →
      io'.file = io.file → io'.index = io.index →
      ∃ x x', σ'.sup.extentAt io.file io.index = some x ∧ arg = .of x io.off ∧
        τ'.sup.extentAt io.file io.index = some x' ∧ arg' = .of x' io'.off ∧
        x'.backend = x.backend := by
  have hσ := h.sound
  obtain ⟨hσ', -⟩ := hσ.step hs
  refine ⟨fun c io off hc hnew => ?_, fun b ls σ'' hb hrun hall => ?_, ?_⟩
  · obtain ⟨hbug, id, x, hx, hp, rfl⟩ := node_of_submit hσ hs hc hnew
    have h0 := copiesTo_of_settled hσ' hbug hx hp
    refine ⟨x.backend, rfl, mem_bound_of_extentAt hx, h0, fun ls σ'' hrun hall => ?_⟩
    obtain ⟨h₁, h₂⟩ := copies_throughout hσ' hrun hall
    exact ⟨by omega, h₂⟩
  · have h0 := copiesTo_of_not_bound hσ (bug_of_step hs) hb
    have h1 := (copiesTo_step (b := b) hσ hs).1
    have h2 := (copies_throughout hσ' hrun hall).2
    simp only [copiesMade, hs, h2]
    omega
  · intro io arg w ls τ l' τ' io' arg' w' hnew hrun hkeep hs' hnew' hfile hindex
    obtain ⟨hl, ⟨x, hx, harg⟩, -⟩ := node_of_mapped hσ hs hnew
    have hτ := hσ'.run hrun
    obtain ⟨-, ⟨x', hx', harg'⟩, -⟩ := node_of_mapped hτ hs' hnew'
    rw [hfile, hindex] at hx'
    have hrun' : σ'.run (ls ++ [l']) = some τ' := by
      rw [run_append, hrun]
      simp [run, hs']
    obtain ⟨y, hy, hxy⟩ := node_stays_run hσ' hl hkeep hrun' hx
    rw [hx'] at hy
    exact ⟨x, x', hx, harg, hx', harg', by rw [Option.some.inj hy, hxy]⟩

/-- A write to a fork starts a COPY, and the next one is given its destination. -/
theorem no_lost_update_copied :
    let ls := forkLabels ++ [.open 2 true, .write 2 0 4096, .call (.write forkIo) true]
    let l : Label := .call (.writeAlloc forkIo (some 11)) true
    let ms := .call (.writeHandler forkIo .requeue (some false)) true :: work 1 ++ [.write 2 0 4096]
    let l' : Label := .call (.write forkIo) true
    ∃ τ τ' ρ ρ' x x', small.run ls = some τ ∧ τ.step l = some τ' ∧ τ'.run ms = some ρ ∧
      ρ.step l' = some ρ' ∧ τ'.copiesTo 9 = 1 ∧ copiesMade 9 τ [l] ≤ 1 ∧
      (9 ∈ ρ'.sup.bound ∧ ρ'.copiesTo 9 = 0) ∧
      τ'.sup.extentAt 2 0 = some x ∧ .requeue = HandlerArg.of x 0 ∧
      ρ'.sup.extentAt 2 0 = some x' ∧ .submit (mapExtentOffset 9 0) = HandlerArg.of x' 0 ∧
      x'.backend = x.backend := by
  intro ls l ms l'
  let c (arg : HandlerArg) : Call := .writeHandler forkIo arg (some false)
  obtain ⟨τ, h₁, hc₁, hfree⟩ := exists_small ls
    (P := fun τ => τ.calls.count (c .requeue) = 0 ∧ 9 ∈ τ.sup.free) (by decide +kernel)
  obtain ⟨τ', h₂, hc₂, hcopy, hnode⟩ := exists_small (ls ++ [l])
    (P := fun τ => τ.calls.count (c .requeue) = 1 ∧ τ.copiesTo 9 = 1 ∧
      τ.sup.extentAt 2 0 = some ⟨9, true, false⟩) (by decide +kernel)
  obtain ⟨ρ, h₃, hc₃⟩ := exists_small (ls ++ [l] ++ ms)
    (P := fun τ => τ.calls.count (c (.submit (mapExtentOffset 9 0))) = 0) (by decide +kernel)
  obtain ⟨ρ', h₄, hc₄⟩ := exists_small (ls ++ [l] ++ ms ++ [l'])
    (P := fun τ => τ.calls.count (c (.submit (mapExtentOffset 9 0))) = 1) (by decide +kernel)
  have hs := run_concat h₁ h₂
  have hs' := run_concat h₃ h₄
  have hms : τ'.run ms = some ρ := run_rest h₂ h₃
  have hτ := Reachable.small h₁
  -- the extent was free
  have hnot : 9 ∉ τ.sup.bound := fun ⟨id, i, hi⟩ => by
    cases hτ.sound.extents.sup.parts.mem_unique .free (.file id i) hfree hi
  obtain ⟨-, hmade, hsame⟩ := no_lost_update hτ hs
  have hone := hmade 9 [] τ' hnot rfl (mem_bound_of_extentAt hnode)
  have hfirst : τ.calls.count (c .requeue) < τ'.calls.count (c .requeue) := by rw [hc₁, hc₂]; decide
  have hnext : ρ.calls.count (c (.submit (mapExtentOffset 9 0))) <
      ρ'.calls.count (c (.submit (mapExtentOffset 9 0))) := by rw [hc₃, hc₄]; decide
  obtain ⟨b, hoff, hbound, hzero, -⟩ := (no_lost_update (.small h₃) hs').1 _ forkIo _ rfl hnext
  obtain rfl : 9 = b := by
    simp only [mapExtentOffset, extentBegin, extentSize] at hoff
    omega
  obtain ⟨x, x', hx, harg, hx', harg', heq⟩ := hsame forkIo .requeue false ms ρ l' ρ' forkIo
    (.submit (mapExtentOffset 9 0)) false hfirst hms (by decide) hs' hnext rfl rfl
  exact ⟨τ, τ', ρ, ρ', x, x', h₁, hs, hms, hs', hcopy, hone, ⟨hbound, hzero⟩, hx, harg, hx', harg', heq⟩

end Sys

end Cyanfs
