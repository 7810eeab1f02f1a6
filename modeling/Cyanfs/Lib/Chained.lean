/-
# Chained jobs

Jobs that are split while they run.  Every job counts what it still waits for:
its own end and the ends of the jobs split off it.  A job whose count falls to
zero ends, and that counts down the job it was split off; the end of the first
job is the end of the whole.

`Counted t M` ties the counts to a multiset `M` of jobs whose own end is still
outstanding.  `split` adds one (`Counted.split`), `finish` takes one away
(`Counted.finish`).  So the whole has ended when nobody holds a job any more
(`Counted.done_eq_one`), and one that is lost keeps it from ending
(`Counted.done_eq_zero`).
-/

import Mathlib.Data.Multiset.Count
import Mathlib.Data.Finset.Card
import Mathlib.Data.Finset.Range

namespace Cyanfs
namespace Lib

/-- Jobs `0, …, next - 1`, their counts, the job each was split off, and how often
the first one has ended. -/
structure Chained where
  remaining : ℕ → ℕ
  parent : ℕ → Option ℕ
  next : ℕ
  done : ℕ

namespace Chained

/-- One job. -/
def root : Chained := ⟨fun _ => 1, fun _ => none, 1, 0⟩

/-- Split a new job off job `i`. -/
def split (t : Chained) (i : ℕ) : Chained where
  remaining := Function.update (Function.update t.remaining i (t.remaining i + 1)) t.next 1
  parent := Function.update t.parent t.next (some i)
  next := t.next + 1
  done := t.done

/-- Count down job `i` and, when it ends by that, the job it was split off.  Jobs
are split off older ones, so `i + 1` rounds are enough. -/
def finish (t : Chained) : ℕ → ℕ → Chained
  | 0, _ => t
  | n + 1, i =>
      let t' := { t with remaining := Function.update t.remaining i (t.remaining i - 1) }
      if t.remaining i - 1 ≠ 0 then t'
      else
        match t.parent i with
        | none => { t' with done := t.done + 1 }
        | some p => t'.finish n p

/-- The jobs split off job `i` that have not ended. -/
def kids (t : Chained) (i : ℕ) : Finset ℕ :=
  (Finset.range t.next).filter fun c => t.parent c = some i ∧ t.remaining c ≠ 0

/-- The jobs of `M` are those whose own end is outstanding. -/
structure Counted (t : Chained) (M : Multiset ℕ) : Prop where
  pos : 0 < t.next
  first : t.parent 0 = none
  older : ∀ i p, i < t.next → t.parent i = some p → p < i
  chained : ∀ i, 0 < i → i < t.next → t.parent i ≠ none
  bound : ∀ i ∈ M, i < t.next
  count : ∀ i < t.next, t.remaining i = M.count i + (t.kids i).card
  done : t.done = if t.remaining 0 = 0 then 1 else 0

theorem counted_root : root.Counted {0} := by
  have hkids : ∀ i, root.kids i = ∅ := fun i => by simp [kids, root]
  refine ⟨Nat.one_pos, rfl, ?_, ?_, ?_, ?_, rfl⟩
  · intro i p hi hp
    cases hp
  · intro i hpos hi
    simp only [root] at hi
    omega
  · simp [root]
  · intro i hi
    simp only [root, Nat.lt_one_iff] at hi
    subst hi
    rw [hkids]
    simp [root]

variable {t : Chained} {M : Multiset ℕ} {i : ℕ}

theorem mem_kids {c : ℕ} : c ∈ t.kids i ↔ c < t.next ∧ t.parent c = some i ∧ t.remaining c ≠ 0 := by
  simp [kids]

/-- A job that someone holds has not ended. -/
theorem Counted.remaining_pos (h : t.Counted M) (hi : i ∈ M) : 0 < t.remaining i := by
  rw [h.count i (h.bound i hi)]
  have := Multiset.count_pos.2 hi
  omega

theorem Counted.split (h : t.Counted M) (hi : i ∈ M) : (t.split i).Counted (t.next ::ₘ M) := by
  have hlt := h.bound i hi
  have hpos := h.remaining_pos hi
  have hfresh : t.next ∉ M := fun hm => (h.bound _ hm).ne rfl
  have hrem : ∀ c, c < t.next → (t.split i).remaining c = t.remaining c + if c = i then 1 else 0 := by
    intro c hc
    simp only [Chained.split, Function.update_apply, hc.ne, if_false]
    split_ifs with hci
    · rw [hci]
    · rfl
  have hpar : ∀ c, c < t.next → (t.split i).parent c = t.parent c := by
    intro c hc
    simp only [Chained.split, Function.update_apply, hc.ne, if_false]
  have hnew : (t.split i).remaining t.next = 1 ∧ (t.split i).parent t.next = some i := by
    simp [Chained.split]
  -- the new job is one more that `i` waits for, and nobody waits for another
  have hkids : ∀ j, j < t.next → (t.split i).kids j = if j = i then insert t.next (t.kids i)
      else t.kids j := by
    intro j hj
    ext c
    by_cases hc : c < t.next
    · have hzero : (t.split i).remaining c ≠ 0 ↔ t.remaining c ≠ 0 := by
        rw [hrem c hc]
        split_ifs with hci
        · subst hci
          omega
        · rfl
      have hmem : c ∈ (t.split i).kids j ↔ c ∈ t.kids j := by
        simp only [mem_kids, hpar c hc, hzero, hc, true_and]
        exact and_iff_right (Nat.lt_succ_of_lt hc)
      rw [hmem]
      split_ifs with hji
      · subst hji
        simp [hc.ne]
      · rfl
    · have hold : ∀ k, c ∉ t.kids k := fun k hk => hc (mem_kids.1 hk).1
      by_cases hcn : c = t.next
      · subst hcn
        rw [mem_kids, hnew.1, hnew.2]
        have hsucc : t.next < (t.split i).next := Nat.lt_succ_self _
        split_ifs with hji
        · simp [hji, hsucc]
        · simp [hold, Ne.symm hji]
      · have : ¬ c < (t.split i).next := by
          simp only [Chained.split]
          omega
        split_ifs <;> simp [mem_kids, this, hcn, hc]
  have hkidsNew : (t.split i).kids t.next = ∅ := by
    ext c
    simp only [mem_kids, Finset.notMem_empty, iff_false]
    rintro ⟨hc, hp, -⟩
    rcases (Nat.lt_succ_iff.1 hc).eq_or_lt with rfl | hc
    · rw [hnew.2] at hp
      exact hlt.ne (Option.some.inj hp)
    · rw [hpar c hc] at hp
      have := h.older c _ hc hp
      omega
  refine ⟨Nat.succ_pos _, ?_, ?_, ?_, ?_, ?_, ?_⟩
  · rw [hpar 0 h.pos, h.first]
  · intro j p hj hp
    rcases (Nat.lt_succ_iff.1 hj).eq_or_lt with rfl | hj
    · rw [hnew.2] at hp
      rw [← Option.some.inj hp]
      exact hlt
    · exact h.older j p hj (by rwa [hpar j hj] at hp)
  · intro j hpos hj
    rcases (Nat.lt_succ_iff.1 hj).eq_or_lt with rfl | hj
    · rw [hnew.2]
      simp
    · rw [hpar j hj]
      exact h.chained j hpos hj
  · intro j hj
    rcases Multiset.mem_cons.1 hj with rfl | hj
    · exact Nat.lt_succ_self _
    · exact Nat.lt_succ_of_lt (h.bound j hj)
  · intro j hj
    rcases (Nat.lt_succ_iff.1 hj).eq_or_lt with rfl | hj
    · rw [hnew.1, hkidsNew, Multiset.count_cons_self, Multiset.count_eq_zero_of_notMem hfresh]
      rfl
    · rw [hrem j hj, hkids j hj, Multiset.count_cons_of_ne hj.ne, h.count j hj]
      split_ifs with hji
      · subst hji
        have : t.next ∉ t.kids j := fun hm => (mem_kids.1 hm).1.ne rfl
        rw [Finset.card_insert_of_notMem this]
        omega
      · omega
  · rw [hrem 0 h.pos, show (t.split i).done = t.done from rfl, h.done]
    by_cases h0 : (0 : ℕ) = i
    · subst h0
      rw [if_neg hpos.ne', if_neg (by simp)]
    · rw [if_neg h0, Nat.add_zero]

/-- Counting down a job moves a hold on it to the job it was split off, if it ends
by that. -/
theorem Counted.countdown (h : t.Counted (i ::ₘ M)) :
    let t' := { t with remaining := Function.update t.remaining i (t.remaining i - 1) }
    (t.remaining i - 1 ≠ 0 → t'.Counted M) ∧
      (t.remaining i - 1 = 0 → t.parent i = none →
        Counted { t' with done := t.done + 1 } M) ∧
      ∀ p, t.remaining i - 1 = 0 → t.parent i = some p → t'.Counted (p ::ₘ M) := by
  intro t'
  have hlt := h.bound i (Multiset.mem_cons_self i M)
  have hpos := h.remaining_pos (Multiset.mem_cons_self i M)
  have hbound : ∀ j ∈ M, j < t.next := fun j hj => h.bound j (Multiset.mem_cons_of_mem hj)
  have hself : t'.remaining i = t.remaining i - 1 := by simp [t']
  have hother : ∀ j, j ≠ i → t'.remaining j = t.remaining j := fun j hj => by simp [t', hj]
  have hcounti := h.count i hlt
  rw [Multiset.count_cons_self] at hcounti
  have hcount : ∀ j, j < t.next → j ≠ i → t.remaining j = M.count j + (t.kids j).card := by
    intro j hj hji
    rw [h.count j hj, Multiset.count_cons_of_ne hji]
  refine ⟨fun hr => ?_, fun hr hp => ?_, fun p hr hp => ?_⟩
  · have hkids : ∀ j, t'.kids j = t.kids j := by
      intro j
      ext c
      rw [mem_kids, mem_kids]
      by_cases hci : c = i
      · subst hci
        rw [hself]
        exact and_congr_right fun _ => and_congr_right fun _ => by omega
      · rw [hother c hci]
    refine ⟨h.pos, h.first, h.older, h.chained, hbound, fun j hj => ?_, ?_⟩
    · rw [hkids]
      by_cases hji : j = i
      · subst hji
        rw [hself]
        omega
      · rw [hother j hji]
        exact hcount j hj hji
    · have hdone := h.done
      by_cases h0 : 0 = i
      · subst h0
        rw [if_neg hpos.ne'] at hdone
        rw [hself, if_neg hr]
        exact hdone
      · rw [hother 0 h0]
        exact hdone
  · have hi0 : i = 0 := by
      by_contra hne
      exact h.chained i (Nat.pos_of_ne_zero hne) hlt hp
    have hkids : ∀ j, t'.kids j = t.kids j := by
      intro j
      ext c
      rw [mem_kids, mem_kids]
      by_cases hci : c = i
      · subst hci
        simp [t', hp]
      · rw [hother c hci]
    refine ⟨h.pos, h.first, h.older, h.chained, hbound, fun j hj => ?_, ?_⟩
    · have hk : (Chained.kids { t' with done := t.done + 1 } j) = t'.kids j := rfl
      rw [hk, hkids]
      by_cases hji : j = i
      · subst hji
        show t'.remaining j = _
        rw [hself]
        omega
      · show t'.remaining j = _
        rw [hother j hji]
        exact hcount j hj hji
    · have hdone := h.done
      subst hi0
      rw [if_neg hpos.ne'] at hdone
      show t.done + 1 = if t'.remaining 0 = 0 then 1 else 0
      rw [hself, if_pos hr, hdone]
  · have hpi := h.older i p hlt hp
    have hi0 : i ≠ 0 := fun h0 => by omega
    -- the ended job is no longer one that `p` waits for
    have hkids : ∀ j, t'.kids j = (t.kids j).erase i := by
      intro j
      ext c
      rw [Finset.mem_erase, mem_kids, mem_kids]
      by_cases hci : c = i
      · subst hci
        simp [hself, hr]
      · rw [hother c hci]
        simp [hci, t']
    have hmem : ∀ j, i ∈ t.kids j ↔ j = p := by
      intro j
      rw [mem_kids, hp]
      constructor
      · rintro ⟨-, he, -⟩
        exact (Option.some.inj he).symm
      · rintro rfl
        exact ⟨hlt, rfl, hpos.ne'⟩
    refine ⟨h.pos, h.first, h.older, h.chained, ?_, fun j hj => ?_, ?_⟩
    · intro j hj
      rcases Multiset.mem_cons.1 hj with rfl | hj
      · exact hpi.trans hlt
      · exact hbound j hj
    · rw [hkids]
      by_cases hjp : j = p
      · subst hjp
        have hin := (hmem j).2 rfl
        have hcard := Finset.card_erase_add_one hin
        rw [hother j hpi.ne, Multiset.count_cons_self, hcount j hj hpi.ne]
        omega
      · rw [Finset.erase_eq_of_notMem fun hin => hjp ((hmem j).1 hin),
          Multiset.count_cons_of_ne hjp]
        by_cases hji : j = i
        · subst hji
          rw [hself]
          omega
        · rw [hother j hji]
          exact hcount j hj hji
    · rw [hother 0 hi0.symm]
      exact h.done

theorem next_finish (t : Chained) (n i : ℕ) : (t.finish n i).next = t.next := by
  induction n generalizing t i with
  | zero => rfl
  | succ n ih =>
      rw [finish]
      split_ifs
      · rfl
      · split
        · rfl
        · rw [ih]

theorem Counted.finish {n : ℕ} (h : t.Counted (i ::ₘ M)) (hn : i < n) : (t.finish n i).Counted M := by
  induction n generalizing t i with
  | zero => omega
  | succ n ih =>
      obtain ⟨h₁, h₂, h₃⟩ := h.countdown
      rw [Chained.finish]
      split_ifs with hr
      · exact h₁ hr
      · have hr : t.remaining i - 1 = 0 := not_not.1 hr
        cases hp : t.parent i with
        | none => exact h₂ hr hp
        | some p =>
            have hlt := h.older i p (h.bound i (Multiset.mem_cons_self i M)) hp
            exact ih (h₃ p hr hp) (by omega)

theorem Counted.done_le (h : t.Counted M) : t.done ≤ 1 := by
  rw [h.done]
  split_ifs <;> omega

/-- While someone holds a job the whole has not ended. -/
theorem Counted.done_eq_zero (h : t.Counted M) (hi : i ∈ M) : t.done = 0 := by
  have hup : ∀ n j, j ≤ n → j < t.next → t.remaining j ≠ 0 → t.remaining 0 ≠ 0 := by
    intro n
    induction n with
    | zero =>
        intro j hj _ hr
        rwa [Nat.le_zero.1 hj] at hr
    | succ n ih =>
        intro j hjn hj hr
        by_cases h0 : j = 0
        · rwa [h0] at hr
        obtain ⟨p, hp⟩ := Option.ne_none_iff_exists'.1 (h.chained j (Nat.pos_of_ne_zero h0) hj)
        have hpj := h.older j p hj hp
        refine ih p (by omega) (hpj.trans hj) ?_
        rw [h.count p (hpj.trans hj)]
        have : 0 < (t.kids p).card := Finset.card_pos.2 ⟨j, mem_kids.2 ⟨hj, hp, hr⟩⟩
        omega
  have := hup i i le_rfl (h.bound i hi) (h.remaining_pos hi).ne'
  rw [h.done, if_neg this]

/-- When nobody holds a job the whole has ended, once. -/
theorem Counted.done_eq_one (h : t.Counted 0) : t.done = 1 := by
  have hall : ∀ n j, t.next ≤ j + n → j < t.next → t.remaining j = 0 := by
    intro n
    induction n with
    | zero =>
        intro j hn hj
        omega
    | succ n ih =>
        intro j hn hj
        rw [h.count j hj, Multiset.count_zero, Nat.zero_add, Finset.card_eq_zero]
        ext c
        simp only [mem_kids, Finset.notMem_empty, iff_false]
        rintro ⟨hc, hp, hr⟩
        have := h.older c j hc hp
        exact hr (ih c (by omega) hc)
  have h0 := hall t.next 0 (Nat.le_add_left _ _) h.pos
  rw [h.done, if_pos h0]

end Chained

end Lib
end Cyanfs
