/-
# What the flushers still have to do

The extents in `unused_extents` wait for the next flusher, and something tells
that one is wanted: the flag FLUSH or an entry in `journal_head`.  The extents in
`flush_extents` wait for a FLUSH: the flag asks for it, or the `after` task of a
flusher is on its way, or a flusher without one that will set the flag when it has
written its entries (`WillFlush`).

The tasks of the flushers matter by their kind only, so `Chores` looks at their
places in the order (`orders`); `Chores.advance` is the rule for a callback of a
flusher.
-/

import Cyanfs.Data.Released

namespace Cyanfs

open Lib Std

namespace Sys

variable {σ σ' : Sys} {total : ℕ}

/-- The places of the flushers' tasks. -/
def orders (σ : Sys) : List ℕ := σ.tasks.filterMap Task.order

/-- A task of some flusher leads to a FLUSH or to the flag that asks for one. -/
def WillFlush (σ : Sys) : Prop := (∃ fl, 4 * fl + 2 ∈ σ.orders) ∨
  ∃ fl t, 4 * fl + 1 ∈ σ.orders ∧ σ.flushers[fl]? = some t ∧ t.flushBeforeWrite = true ∧
    t.ondisk = false

/-- Nothing that a flusher should take is forgotten. -/
structure Chores (σ : Sys) : Prop where
  count : σ.sup.journalCount = σ.sup.journalHead.length
  unused : σ.sup.unused ≠ ∅ → σ.sup.flushFlag = true ∨ σ.sup.journalHead ≠ []
  flush : σ.sup.flush ≠ ∅ → σ.sup.error = true ∨ σ.sup.flushFlag = true ∨ σ.WillFlush
  before : ∀ fl, 4 * fl ∈ σ.orders → 4 * fl + 1 ∈ σ.orders ∧
    ∃ t, σ.flushers[fl]? = some t ∧ t.flushBeforeWrite = true
  after : ∀ fl t, 4 * fl + 1 ∈ σ.orders → σ.flushers[fl]? = some t → t.ondisk = true →
    4 * fl + 2 ∈ σ.orders

/-- The flushers and their tasks are those of before. -/
theorem Chores.frame (h : σ.Chores) (hcount : σ'.sup.journalCount = σ'.sup.journalHead.length)
    (hunused : σ'.sup.unused ≠ ∅ → σ'.sup.flushFlag = true ∨ σ'.sup.journalHead ≠ [])
    (hflush : σ'.sup.flush = σ.sup.flush) (hflag : σ'.sup.flushFlag = σ.sup.flushFlag)
    (herr : σ.sup.error = true → σ'.sup.error = true) (hfs : σ'.flushers = σ.flushers)
    (ho : σ'.orders = σ.orders) : σ'.Chores := by
  have hw : σ'.WillFlush ↔ σ.WillFlush := by
    unfold WillFlush
    rw [ho, hfs]
  refine ⟨hcount, hunused, fun hne => ?_, ?_, ?_⟩
  · rw [hw, hflag]
    exact (h.flush (hflush ▸ hne)).imp herr id
  · rw [ho, hfs]
    exact h.before
  · rw [ho, hfs]
    exact h.after

theorem Chores.still (h : σ.Chores) (hs : σ.Still σ')
    (herr : σ.sup.error = true → σ'.sup.error = true) (ho : σ'.orders = σ.orders) : σ'.Chores := by
  refine h.frame ?_ ?_ hs.flush hs.flag herr hs.flushers ho
  · rw [hs.count, hs.head]
    exact h.count
  · rw [hs.unused, hs.flag, hs.head]
    exact h.unused

theorem Tail.orders (h : σ.Tail σ') : σ'.orders = σ.orders := by
  obtain ⟨ts, ht, hp⟩ := h.tasks
  rw [Sys.orders, ht, List.filterMap_append, filterMap_order_of_plain hp, List.append_nil]
  rfl

/-! ### The callbacks of a flusher -/

section Callback

variable {n fl : ℕ} {t : Flusher} {Q U : List ℕ}

/-- **The rule for a flusher's callback**: the tasks of the other flushers stay,
so only those of the flusher itself are to be looked at. -/
theorem Chores.advance (h : σ.Chores) (ho : σ.orders = n :: Q) (hlt : ∀ k ∈ Q, n < k)
    (ho' : σ'.orders = U ++ Q) (hU : ∀ k ∈ U, k / 4 = n / 4)
    (hfs : ∀ k, k ≠ n / 4 → σ'.flushers[k]? = σ.flushers[k]?)
    (hcount : σ'.sup.journalCount = σ.sup.journalCount)
    (hhead : σ'.sup.journalHead = σ.sup.journalHead)
    (hunused : σ'.sup.unused ≠ ∅ → σ'.sup.flushFlag = true ∨ σ.sup.unused ≠ ∅)
    (hflag : σ.sup.flushFlag = true → σ'.sup.flushFlag = true)
    (hflush : σ'.sup.flush ≠ ∅ → σ'.sup.error = true ∨ σ'.sup.flushFlag = true ∨ σ'.WillFlush)
    (hbefore : 4 * (n / 4) ∈ U ++ Q → 4 * (n / 4) + 1 ∈ U ++ Q ∧
      ∃ t, σ'.flushers[n / 4]? = some t ∧ t.flushBeforeWrite = true)
    (hafter : ∀ t, 4 * (n / 4) + 1 ∈ U ++ Q → σ'.flushers[n / 4]? = some t → t.ondisk = true →
      4 * (n / 4) + 2 ∈ U ++ Q) : σ'.Chores := by
  have hother : ∀ k, k / 4 ≠ n / 4 → (k ∈ U ++ Q ↔ k ∈ n :: Q) := by
    intro k hk
    rw [List.mem_append, List.mem_cons]
    constructor
    · rintro (hu | hq)
      · exact absurd (hU k hu) hk
      · exact .inr hq
    · rintro (rfl | hq)
      · exact absurd rfl hk
      · exact .inr hq
  refine ⟨?_, fun hne => ?_, hflush, fun fl hm => ?_, fun fl t hm ht hon => ?_⟩
  · rw [hcount, hhead]
    exact h.count
  · rw [hhead]
    rcases hunused hne with hf | hu
    · exact .inl hf
    · exact (h.unused hu).imp hflag id
  · rw [ho'] at hm ⊢
    by_cases hfl : fl = n / 4
    · subst hfl
      exact hbefore hm
    · rw [hother _ (by omega), ← ho] at hm
      obtain ⟨hw, t, ht, hb⟩ := h.before fl hm
      rw [ho, ← hother _ (by omega)] at hw
      exact ⟨hw, t, by rw [hfs fl hfl]; exact ht, hb⟩
  · rw [ho'] at hm ⊢
    by_cases hfl : fl = n / 4
    · subst hfl
      exact hafter t hm ht hon
    · rw [hother _ (by omega), ← ho] at hm
      rw [hfs fl hfl] at ht
      have ha := h.after fl t hm ht hon
      rwa [ho, ← hother _ (by omega)] at ha

/-- Work that other flushers have left is still there. -/
theorem WillFlush.advance (h : σ.WillFlush) (ho : σ.orders = n :: Q) (ho' : σ'.orders = U ++ Q)
    (hfs : ∀ k, k ≠ n / 4 → σ'.flushers[k]? = σ.flushers[k]?)
    (hown : n % 4 = 2 ∨ (∃ t, 4 * (n / 4) + 1 ∈ σ.orders ∧ σ.flushers[n / 4]? = some t ∧
      t.flushBeforeWrite = true ∧ t.ondisk = false) → σ'.sup.flushFlag = true ∨ σ'.WillFlush) :
    σ'.sup.flushFlag = true ∨ σ'.WillFlush := by
  rcases h with ⟨fl, hm⟩ | ⟨fl, t, hm, ht, hb, hon⟩
  · rw [ho] at hm
    rcases List.mem_cons.1 hm with hm | hm
    · exact hown (.inl (by omega))
    · exact .inr (.inl ⟨fl, by rw [ho']; exact List.mem_append_right _ hm⟩)
  · by_cases hfl : fl = n / 4
    · subst hfl
      exact hown (.inr ⟨t, hm, ht, hb, hon⟩)
    · rw [ho] at hm
      rcases List.mem_cons.1 hm with hm | hm
      · omega
      · exact .inr (.inr ⟨fl, t, by rw [ho']; exact List.mem_append_right _ hm,
          by rw [hfs fl hfl]; exact ht, hb, hon⟩)

/-- The places behind the active task of a flusher. -/
theorem orders_of_active {t₀ : Task} (hacc : σ.Accounted) (ht : σ.active = some t₀)
    (hn : t₀.order = some n) : σ.orders = n :: σ.queue.filterMap Task.order ∧
      ∀ k ∈ σ.queue.filterMap Task.order, n < k := by
  have hs := hacc.sched
  rw [tasks_of_active ht] at hs
  refine ⟨?_, (hs.behind hn).1⟩
  rw [orders, tasks_of_active ht, List.filterMap_cons_some hn]

theorem orders_of_queue (us : List Task) (ha : σ'.active = none) (hq : σ'.queue = us ++ σ.queue) :
    σ'.orders = us.filterMap Task.order ++ σ.queue.filterMap Task.order := by
  rw [orders, tasks, ha, hq, Option.toList_none, List.nil_append, List.filterMap_append]

theorem orders_popped (ha : σ'.active = none) (hq : σ'.queue = σ.queue) :
    σ'.orders = [] ++ σ.queue.filterMap Task.order := orders_of_queue [] ha hq

theorem orders_cancelWrite (σ : Sys) (fl : ℕ) : (σ.cancelWrite fl).orders = σ.orders := by
  simp only [orders, tasks, List.filterMap_append]
  exact congrArg _ (filterMap_cancelTask fl σ.queue Task.order fun _ _ => rfl)

/-- The writer of a flusher. -/
theorem chores_encode {τ : Sys} {io : Option WriteReq} (h : σ.Chores) (hacc : σ.Accounted)
    (ht : σ.active = some (.writer fl io)) (hfl : σ.flushers[fl]? = some t) (hs : τ.sup = σ.sup)
    (hq : τ.queue = σ.queue) (ha : τ.active = none) (hfs : τ.flushers = σ.flushers) (err : Bool) :
    (τ.flusherEncode fl t err).Chores := by
  obtain ⟨ho, hlt⟩ := orders_of_active hacc ht rfl
  have hdiv : (4 * fl + 1) / 4 = fl := by omega
  have hno : ∀ k, k ≤ 4 * fl + 1 → k ∉ σ.queue.filterMap Task.order := by
    intro k hk hm
    have := hlt k hm
    omega
  have hinsert : ∀ (t' : Flusher) k, k ≠ (4 * fl + 1) / 4 →
      (τ.flushers.insert fl t')[k]? = σ.flushers[k]? := by
    intro t' k hk
    rw [flushers_insert, if_neg (by omega), hfs]
  unfold flusherEncode
  rw [hs]
  split
  · rename_i s hw
    have hs' : s.journalCount = σ.sup.journalCount ∧ s.journalHead = σ.sup.journalHead ∧
        s.unused = σ.sup.unused ∧ s.flushFlag = σ.sup.flushFlag := by
      rcases writerEncode_super.1 s hw with rfl | rfl <;> exact ⟨rfl, rfl, rfl, rfl⟩
    refine h.advance ho hlt (orders_popped ha hq) (by simp) (hinsert _) hs'.1 hs'.2.1
      (fun hne => .inr (hs'.2.2.1 ▸ hne)) (fun hf => hs'.2.2.2.trans hf) (fun _ => .inl rfl)
      (fun hm => absurd hm ?_) (fun t hm => absurd hm ?_)
    · exact hno _ (by omega)
    · exact hno _ (by omega)
  · have hfin : ∀ τ' : Sys, τ'.orders = [] ++ σ.queue.filterMap Task.order →
        τ'.flushers = σ.flushers → τ'.sup = (if wantFlush σ.sup t then
          { σ.sup with flushFlag := true } else σ.sup) → τ'.Chores := by
      intro τ' ho' hfs' hs'
      have hframe : τ'.sup.journalCount = σ.sup.journalCount ∧
          τ'.sup.journalHead = σ.sup.journalHead ∧ τ'.sup.unused = σ.sup.unused ∧
          τ'.sup.flush = σ.sup.flush ∧ τ'.sup.error = σ.sup.error ∧
          (σ.sup.flushFlag = true → τ'.sup.flushFlag = true) := by
        rw [hs']
        split_ifs <;> simp
      obtain ⟨h₁, h₂, h₃, h₄, h₅, h₆⟩ := hframe
      refine h.advance ho hlt ho' (by simp) (fun k _ => by rw [hfs']) h₁ h₂
        (fun hne => .inr (h₃ ▸ hne)) h₆ (fun hne => ?_) (fun hm => absurd hm ?_)
        (fun t hm => absurd hm ?_)
      · rw [h₅]
        rcases h.flush (h₄ ▸ hne) with he | hf | hw
        · exact .inl he
        · exact .inr (.inl (h₆ hf))
        refine .inr (hw.advance ho ho' (fun k _ => by rw [hfs']) ?_)
        rintro (hm | ⟨t', -, ht', hb, hon⟩)
        · omega
        · -- the flusher itself asks for the flush when it ends
          left
          rw [hdiv, hfl] at ht'
          obtain rfl := Option.some.inj ht'
          rw [hs', if_pos (.inr (.inl ⟨hb, hon⟩))]
      · exact hno _ (by omega)
      · exact hno _ (by omega)
    unfold flusherWriteFinish
    simp only
    rw [hs]
    split_ifs with hc hw hw
    · exact hfin _ (orders_popped ha hq) hfs (by rw [if_pos hw]; rfl)
    · exact hfin _ (orders_popped ha hq) hfs (by rw [if_neg hw]; exact hs)
    · exact hfin _ (orders_popped ha hq) hfs (by rw [if_pos hw])
    · exact hfin _ (orders_popped ha hq) hfs (by rw [if_neg hw]; exact hs)
  · rename_i s c req flush rest hw
    have hs' : s.journalCount = σ.sup.journalCount ∧ s.journalHead = σ.sup.journalHead ∧
        s.unused = σ.sup.unused ∧ s.flushFlag = σ.sup.flushFlag ∧ s.flush = σ.sup.flush ∧
        s.error = σ.sup.error := by
      rcases writerEncode_super.2 s c req flush rest hw with rfl | ⟨b, -, rfl⟩ <;>
        exact ⟨rfl, rfl, rfl, rfl, rfl, rfl⟩
    obtain ⟨h₁, h₂, h₃, h₄, h₅, h₆⟩ := hs'
    have hgo : ∀ (τ' : Sys) (U : List ℕ) (t' : Flusher), τ'.orders = U ++ σ.queue.filterMap Task.order →
        τ'.flushers = τ.flushers.insert fl t' → τ'.sup = { s with cursor := c } →
        (∀ k ∈ U, k / 4 = (4 * fl + 1) / 4) → 4 * fl + 1 ∈ U →
        (4 * fl ∈ U → t'.flushBeforeWrite = true) →
        (t.flushBeforeWrite = true → t'.flushBeforeWrite = true) → t'.ondisk = t.ondisk →
        τ'.Chores := by
      intro τ' U t' ho' hfs' hτ hU hw hb hbb hon
      have hat : τ'.flushers[fl]? = some t' := by rw [hfs', flushers_insert, if_pos rfl]
      have hother : ∀ k, k ≠ (4 * fl + 1) / 4 → τ'.flushers[k]? = σ.flushers[k]? := by
        intro k hk
        rw [hfs']
        exact hinsert t' k hk
      refine h.advance ho hlt ho' hU hother (by rw [hτ]; exact h₁) (by rw [hτ]; exact h₂)
        (fun hne => ?_) (fun hf => ?_) (fun hne => ?_) (fun hm => ?_) (fun x hm hx hox => ?_)
      · rw [hτ] at hne
        exact .inr (h₃ ▸ hne)
      · rw [hτ]
        exact h₄.trans hf
      · rw [hτ] at hne ⊢
        simp only [h₄, h₆]
        rcases h.flush (h₅ ▸ hne) with he | hf | hwf
        · exact .inl he
        · exact .inr (.inl hf)
        right
        have hadv : τ'.sup.flushFlag = true ∨ τ'.WillFlush := hwf.advance ho ho' hother ?_
        · rcases hadv with hf | hw
          · left
            rw [hτ] at hf
            exact h₄.symm.trans hf
          · exact .inr hw
        · rintro (hm | ⟨t₁, -, ht₁, hb₁, hon₁⟩)
          · omega
          · rw [hdiv, hfl] at ht₁
            obtain rfl := Option.some.inj ht₁
            exact .inr (.inr ⟨fl, t', by rw [ho']; exact List.mem_append_left _ hw, hat, hbb hb₁,
              hon.trans hon₁⟩)
      · rw [hdiv] at hm ⊢
        refine ⟨List.mem_append_left _ hw, t', hat, ?_⟩
        rcases List.mem_append.1 hm with hm | hm
        · exact hb hm
        · exact absurd hm (hno _ (by omega))
      · rw [hdiv] at hx ⊢
        rw [hat] at hx
        obtain rfl := Option.some.inj hx
        have hmem := h.after fl t (by rw [ho]; exact List.mem_cons_self) hfl (hon ▸ hox)
        rw [ho] at hmem
        rcases List.mem_cons.1 hmem with hmem | hmem
        · omega
        · exact List.mem_append_right _ hmem
    simp only
    split_ifs with hc
    · exact hgo _ [4 * fl, 4 * fl + 1] _
        (orders_of_queue [.before fl false, .writer fl (some req)] ha
          (by simp [addHead, hq])) rfl rfl (by simp; omega) (by simp) (fun _ => rfl)
        (fun _ => rfl) rfl
    · exact hgo _ [4 * fl + 1] _
        (orders_of_queue [.writer fl (some req)] ha (by simp [addHead, hq])) rfl rfl
        (by simp) (by simp) (by simp) id rfl

theorem handOver_frame (s : Super) (X : Finset ℕ) :
    (s.handOver X).1.journalCount = s.journalCount ∧ (s.handOver X).1.journalHead = s.journalHead ∧
    (s.handOver X).1.unused = s.unused ∧ (s.handOver X).1.flushFlag = s.flushFlag := by
  unfold Super.handOver
  split_ifs <;> exact ⟨rfl, rfl, rfl, rfl⟩

/-- A hand-over, by a flusher that will see to the flush. -/
theorem Chores.handOver {X : Finset ℕ} (h : σ.Chores) (hfl : σ.flushers[fl]? = some t)
    (hfs : σ'.flushers = σ.flushers.insert fl { t with unused := X }) (ho : σ'.orders = σ.orders)
    (hcount : σ'.sup.journalCount = (σ.sup.handOver t.unused).1.journalCount)
    (hhead : σ'.sup.journalHead = (σ.sup.handOver t.unused).1.journalHead)
    (hunused : σ'.sup.unused = (σ.sup.handOver t.unused).1.unused)
    (hflag : σ'.sup.flushFlag = (σ.sup.handOver t.unused).1.flushFlag) (hw : σ.WillFlush) :
    σ'.Chores := by
  obtain ⟨h₁, h₂, h₃, h₄⟩ := handOver_frame σ.sup t.unused
  -- the flags of the flushers are those of before
  have hsame : ∀ (k : ℕ) (g : Flusher), σ'.flushers[k]? = some g →
      ∃ g₀ : Flusher, σ.flushers[k]? = some g₀ ∧
      g.flushBeforeWrite = g₀.flushBeforeWrite ∧ g.ondisk = g₀.ondisk := by
    intro k g hg
    rw [hfs, flushers_insert] at hg
    split_ifs at hg with hk
    · obtain rfl := Option.some.inj hg
      exact ⟨t, by rw [hk]; exact hfl, rfl, rfl⟩
    · exact ⟨g, hg, rfl, rfl⟩
  have hsame' : ∀ (k : ℕ) (g : Flusher), σ.flushers[k]? = some g →
      ∃ g' : Flusher, σ'.flushers[k]? = some g' ∧
      g'.flushBeforeWrite = g.flushBeforeWrite ∧ g'.ondisk = g.ondisk := by
    intro k g hg
    rw [hfs, flushers_insert]
    split_ifs with hk
    · rw [hk, hfl] at hg
      obtain rfl := Option.some.inj hg
      exact ⟨_, rfl, rfl, rfl⟩
    · exact ⟨g, hg, rfl, rfl⟩
  refine ⟨?_, fun hne => ?_, fun _ => .inr (.inr ?_), fun k hm => ?_, fun k g hm hg hon => ?_⟩
  · rw [hcount, hhead, h₁, h₂]
    exact h.count
  · rw [hflag, hhead, h₄, h₂]
    exact h.unused (by rwa [hunused, h₃] at hne)
  · rcases hw with ⟨k, hm⟩ | ⟨k, g, hm, hg, hb, hon⟩
    · exact .inl ⟨k, ho ▸ hm⟩
    · obtain ⟨g', hg', hb', hon'⟩ := hsame' k g hg
      exact .inr ⟨k, g', ho ▸ hm, hg', hb'.trans hb, hon'.trans hon⟩
  · obtain ⟨hwm, g, hg, hb⟩ := h.before k (ho ▸ hm)
    obtain ⟨g', hg', hb', -⟩ := hsame' k g hg
    exact ⟨ho ▸ hwm, g', hg', hb'.trans hb⟩
  · obtain ⟨g₀, hg₀, -, hon₀⟩ := hsame k g hg
    rw [ho]
    exact h.after k g₀ (ho ▸ hm) hg₀ (hon₀ ▸ hon)

/-- The pre-write flush of a flusher. -/
theorem chores_before {b err m : Bool} {junk : Buf} (h : σ.Chores) (hacc : σ.Accounted)
    (ht : σ.active = some (.before fl b)) :
    ({ σ with active := none }.runTask (.before fl b) err m junk).Chores := by
  obtain ⟨ho, hlt⟩ := orders_of_active hacc ht rfl
  have hdiv : 4 * fl / 4 = fl := by omega
  obtain ⟨hwm, t, hfl, hb⟩ := h.before fl (by rw [ho]; exact List.mem_cons_self)
  have hwriter : 4 * fl + 1 ∈ σ.queue.filterMap Task.order := by
    rw [ho] at hwm
    rcases List.mem_cons.1 hwm with hm | hm
    · omega
    · exact hm
  have hafter : t.ondisk = true → 4 * fl + 2 ∈ σ.queue.filterMap Task.order := by
    intro hon
    have hmem := h.after fl t hwm hfl hon
    rw [ho] at hmem
    rcases List.mem_cons.1 hmem with hm | hm
    · omega
    · exact hm
  -- the super is marked, or nothing happens to it
  have hpop : ∀ τ : Sys, τ.orders = [] ++ σ.queue.filterMap Task.order →
      τ.flushers = σ.flushers → (τ.sup = σ.sup ∨ τ.sup = σ.sup.markError) → τ.Chores := by
    intro τ ho' hfs hs
    have hframe : τ.sup.journalCount = σ.sup.journalCount ∧
        τ.sup.journalHead = σ.sup.journalHead ∧ τ.sup.unused = σ.sup.unused ∧
        τ.sup.flush = σ.sup.flush ∧ τ.sup.flushFlag = σ.sup.flushFlag ∧
        (σ.sup.error = true → τ.sup.error = true) := by
      rcases hs with hs | hs <;> rw [hs]
      · exact ⟨rfl, rfl, rfl, rfl, rfl, id⟩
      · exact ⟨rfl, rfl, rfl, rfl, rfl, fun _ => rfl⟩
    obtain ⟨h₁, h₂, h₃, h₄, h₅, h₆⟩ := hframe
    refine h.advance ho hlt ho' (by simp) (fun k _ => by rw [hfs]) h₁ h₂
      (fun hne => .inr (h₃ ▸ hne)) (fun hf => h₅.trans hf) (fun hne => ?_) (fun hm => ?_)
      (fun t' hm ht' hon => ?_)
    · rcases h.flush (h₄ ▸ hne) with he | hf | hw
      · exact .inl (h₆ he)
      · exact .inr (.inl (h₅.trans hf))
      refine .inr (hw.advance ho ho' (fun k _ => by rw [hfs]) ?_)
      rintro (hm | ⟨t₁, -, ht₁, hb₁, hon₁⟩)
      · omega
      · rw [hdiv] at ht₁
        exact .inr (.inr ⟨fl, t₁, by rw [ho']; exact hwriter, by rw [hfs]; exact ht₁, hb₁, hon₁⟩)
    · have := hlt _ hm
      omega
    · rw [hdiv] at ht' ⊢
      rw [hfs, hfl] at ht'
      obtain rfl := Option.some.inj ht'
      exact hafter hon
  simp only [runTask, hfl]
  split_ifs with hflush
  · have hio := still_ioFlush { σ with active := none } err
    have hs : ({ σ with active := none }.ioFlush err).sup = σ.sup := by
      unfold ioFlush
      split_ifs <;> rfl
    have hact : ({ σ with active := none }.ioFlush err).active = none := by
      unfold ioFlush
      split_ifs <;> rfl
    have hq : ({ σ with active := none }.ioFlush err).queue = σ.queue := by
      unfold ioFlush
      split_ifs <;> rfl
    unfold flusherBeforeWriteFlushDone
    simp only
    split_ifs
    · refine hpop _ ?_ hio.flushers (.inr ?_)
      · rw [orders_cancelWrite]
        exact orders_popped hact hq
      · simp only [cancelWrite, hs]
    · refine hpop _ (orders_popped hact hq) hio.flushers (.inr ?_)
      simp only [hs]
    · refine hpop _ ?_ hio.flushers (.inl hs)
      rw [orders_cancelWrite]
      exact orders_popped hact hq
    · exact hpop _ (orders_popped hact hq) hio.flushers (.inl hs)
  · unfold flusherBeforeWriteFlush
    split_ifs
    · refine hpop _ ?_ rfl (.inl rfl)
      rw [orders_cancelWrite]
      exact orders_popped rfl rfl
    · refine h.handOver hfl rfl ?_ rfl rfl rfl rfl ?_
      · rw [ho]
        exact orders_of_queue [.before fl true] rfl rfl
      · cases hon : t.ondisk with
        | true => exact .inl ⟨fl, h.after fl t hwm hfl hon⟩
        | false => exact .inr ⟨fl, t, hwm, hfl, hb, hon⟩

/-- A completed FLUSH retires `flush_extents`, or it asks for another one. -/
theorem afterFlush_frame (σ : Sys) (err : Bool) :
    (σ.flusherAfterFlush err).sup.journalCount = σ.sup.journalCount ∧
    (σ.flusherAfterFlush err).sup.unused = σ.sup.unused ∧
    (σ.sup.flushFlag = true → (σ.flusherAfterFlush err).sup.flushFlag = true) ∧
    ((σ.flusherAfterFlush err).sup.flush ≠ ∅ → (σ.flusherAfterFlush err).sup.error = true ∨
      (σ.flusherAfterFlush err).sup.flushFlag = true) := by
  unfold flusherAfterFlush
  simp only
  split_ifs with h₁ h₂ h₃ h₄
  · exact ⟨rfl, rfl, id, fun _ => .inl rfl⟩
  · exact ⟨rfl, rfl, id, fun _ => .inl h₂⟩
  · exact ⟨rfl, rfl, id, fun hne => absurd h₃ hne⟩
  · exact ⟨rfl, rfl, fun _ => rfl, fun _ => .inr rfl⟩
  · have h := still_discardExtents { σ with sup := { σ.sup with flush := ∅ } } σ.sup.flush
    exact ⟨h.count, h.unused, fun hf => h.flag.trans hf, fun hne => absurd h.flush hne⟩

/-- The flush of a flusher and what comes before it. -/
theorem chores_after {b err m : Bool} {junk : Buf} (h : σ.Chores) (hacc : σ.Accounted)
    (ht : σ.active = some (.after fl b)) :
    ({ σ with active := none }.runTask (.after fl b) err m junk).Chores := by
  obtain ⟨ho, hlt⟩ := orders_of_active hacc ht rfl
  have hdiv : (4 * fl + 2) / 4 = fl := by omega
  obtain ⟨t, hfl⟩ : ∃ t, σ.flushers[fl]? = some t := by
    have := hacc.sched.alive (4 * fl + 2) (by
      rw [tasks_of_active ht]
      exact List.mem_cons_self)
    rwa [hdiv] at this
  -- no task is queued; `flush_extents` is seen to
  have hpop : ∀ τ : Sys, τ.orders = [] ++ σ.queue.filterMap Task.order →
      τ.flushers = σ.flushers → τ.sup.journalCount = σ.sup.journalCount →
      τ.sup.journalHead = σ.sup.journalHead → τ.sup.unused = σ.sup.unused →
      (σ.sup.flushFlag = true → τ.sup.flushFlag = true) →
      (τ.sup.flush ≠ ∅ → τ.sup.error = true ∨ τ.sup.flushFlag = true) → τ.Chores := by
    intro τ ho' hfs h₁ h₂ h₃ h₄ h₅
    refine h.advance ho hlt ho' (by simp) (fun k _ => by rw [hfs]) h₁ h₂
      (fun hne => .inr (h₃ ▸ hne)) h₄ (fun hne => (h₅ hne).imp id .inl) (fun hm => ?_)
      (fun t' hm => ?_)
    · have := hlt _ hm
      omega
    · have := hlt _ hm
      omega
  simp only [runTask, hfl]
  split_ifs with hflush
  · have hio := still_ioFlush { σ with active := none } err
    obtain ⟨hs, hact, hq⟩ : ({ σ with active := none }.ioFlush err).sup = σ.sup ∧
        ({ σ with active := none }.ioFlush err).active = none ∧
        ({ σ with active := none }.ioFlush err).queue = σ.queue := by
      unfold ioFlush
      split_ifs <;> exact ⟨rfl, rfl, rfl⟩
    have htail := tail_flusherAfterFlush ({ σ with active := none }.ioFlush err) err
    obtain ⟨h₁, h₂, h₃, h₄⟩ := afterFlush_frame ({ σ with active := none }.ioFlush err) err
    rw [hs] at h₁ h₂ h₃
    refine hpop _ ?_ (htail.flushers.trans hio.flushers) h₁ (htail.journalHead.trans hio.head) h₂ h₃ h₄
    rw [htail.orders]
    exact orders_popped hact hq
  · unfold flusherBeforeFlush
    split_ifs with herr
    · exact hpop _ (orders_popped rfl rfl) rfl rfl rfl rfl id (fun _ => .inl herr)
    · refine h.handOver hfl rfl ?_ rfl rfl rfl rfl (.inl ⟨fl, ?_⟩)
      · rw [ho]
        exact orders_of_queue [.after fl true] rfl rfl
      · rw [ho]
        exact List.mem_cons_self

theorem chores_free {err m : Bool} {junk : Buf} (h : σ.Chores) (hacc : σ.Accounted)
    (ht : σ.active = some (.free fl)) :
    ({ σ with active := none }.runTask (.free fl) err m junk).Chores := by
  obtain ⟨ho, hlt⟩ := orders_of_active hacc ht rfl
  have hpop : ∀ τ : Sys, τ.orders = [] ++ σ.queue.filterMap Task.order →
      (∀ k, k ≠ (4 * fl + 3) / 4 → τ.flushers[k]? = σ.flushers[k]?) →
      τ.sup.journalCount = σ.sup.journalCount → τ.sup.journalHead = σ.sup.journalHead →
      (τ.sup.unused ≠ ∅ → τ.sup.flushFlag = true ∨ σ.sup.unused ≠ ∅) →
      (σ.sup.flushFlag = true → τ.sup.flushFlag = true) → τ.sup.flush = σ.sup.flush →
      τ.sup.error = σ.sup.error → τ.Chores := by
    intro τ ho' hfs h₁ h₂ h₃ h₄ h₅ h₆
    refine h.advance ho hlt ho' (by simp) hfs h₁ h₂ h₃ h₄ (fun hne => ?_) (fun hm => ?_)
      (fun t' hm => ?_)
    · rw [h₆]
      rcases h.flush (h₅ ▸ hne) with he | hf | hw
      · exact .inl he
      · exact .inr (.inl (h₄ hf))
      refine .inr (hw.advance ho ho' hfs ?_)
      rintro (hm | ⟨t₁, hm, -⟩)
      · omega
      · rw [ho] at hm
        rcases List.mem_cons.1 hm with hm | hm
        · omega
        · have := hlt _ hm
          omega
    · have := hlt _ hm
      omega
    · have := hlt _ hm
      omega
  simp only [runTask]
  split
  · exact hpop _ (orders_popped rfl rfl) (fun _ _ => rfl) rfl rfl .inr id rfl rfl
  · have herase : ∀ k, k ≠ (4 * fl + 3) / 4 → (σ.flushers.erase fl)[k]? = σ.flushers[k]? := by
      intro k hk
      rw [flushers_erase, if_neg (by omega)]
    unfold flusherFree
    simp only
    split_ifs
    · exact hpop _ (orders_popped rfl rfl) herase rfl rfl .inr id rfl rfl
    · exact hpop _ (orders_popped rfl rfl) herase rfl rfl (fun _ => .inl rfl) (fun _ => rfl) rfl rfl

/-- The tasks of a flusher. -/
theorem chores_flusher {t₀ : Task} (h : σ.Chores) (hacc : σ.Accounted) (ht : σ.active = some t₀)
    (hn : t₀.order = some n) (err m : Bool) (junk : Buf) :
    ({ σ with active := none }.runTask t₀ err m junk).Chores := by
  cases t₀ with
  | writer fl io =>
      obtain ⟨t, hfl⟩ : ∃ t, σ.flushers[fl]? = some t := by
        have := hacc.sched.alive (4 * fl + 1) (by
          rw [tasks_of_active ht]
          exact List.mem_cons_self)
        rwa [show (4 * fl + 1) / 4 = fl by omega] at this
      simp only [runTask, hfl]
      cases io with
      | none => exact chores_encode (τ := { σ with active := none }) h hacc ht hfl rfl rfl rfl rfl false
      | some req =>
          have hio : ({ σ with active := none }.ioRecord req err junk).sup = σ.sup ∧
              ({ σ with active := none }.ioRecord req err junk).queue = σ.queue ∧
              ({ σ with active := none }.ioRecord req err junk).active = none ∧
              ({ σ with active := none }.ioRecord req err junk).flushers = σ.flushers := by
            unfold ioRecord
            simp only
            split_ifs <;> exact ⟨rfl, rfl, rfl, rfl⟩
          exact chores_encode h hacc ht hfl hio.1 hio.2.1 hio.2.2.1 hio.2.2.2 err
  | before fl flush => exact chores_before h hacc ht
  | after fl flush => exact chores_after h hacc ht
  | free fl => exact chores_free h hacc ht
  | _ => cases hn

end Callback

/-! ### The other steps -/

theorem chores_queueFlusher (h : σ.Chores) (hacc : σ.Accounted)
    (hfresh : ∀ fl : ℕ, σ.nextFlusher ≤ fl → σ.flushers[fl]? = none) (ondisk : Bool) :
    (σ.queueFlusher ondisk).Chores := by
  have hold : ∀ k ∈ σ.orders, k / 4 ≠ σ.nextFlusher := by
    intro k hk heq
    obtain ⟨t, ht⟩ := hacc.sched.alive k hk
    rw [heq, hfresh _ le_rfl] at ht
    cases ht
  by_cases hnone : ondisk = false ∧ ¬ σ.sup.journalHead ≠ []
  · rw [queueFlusher, if_pos hnone]
    exact h
  generalize hσ' : σ.queueFlusher ondisk = σ'
  have hq : σ'.orders = σ.orders ++ ((if σ.sup.journalHead ≠ [] then [4 * σ.nextFlusher + 1] else []) ++
      ((if ondisk then [4 * σ.nextFlusher + 2] else []) ++ [4 * σ.nextFlusher + 3])) := by
    rw [← hσ', queueFlusher, if_neg hnone]
    simp only [orders, tasks, List.filterMap_append, List.append_assoc]
    congr 2
    split_ifs <;> rfl
  have hfs : ∀ k, σ'.flushers[k]? = if k = σ.nextFlusher then
      some ⟨false, ondisk, σ.sup.unused, σ.sup.journalHead⟩ else σ.flushers[k]? := by
    intro k
    rw [← hσ', queueFlusher, if_neg hnone]
    exact flushers_insert _ _ _ _
  have hs : σ'.sup = { σ.sup with
      unused := ∅
      journalHead := []
      journalCount := if σ.sup.journalHead ≠ [] then 0 else σ.sup.journalCount
      flushFlag := if ondisk then false else σ.sup.flushFlag } := by
    rw [← hσ', queueFlusher, if_neg hnone]
  have hmem : ∀ k ∈ σ.orders, k ∈ σ'.orders := by
    intro k hk
    rw [hq]
    exact List.mem_append_left _ hk
  have hmem' : ∀ k ∈ σ'.orders, k / 4 ≠ σ.nextFlusher → k ∈ σ.orders := by
    intro k hk hne
    rw [hq] at hk
    rcases List.mem_append.1 hk with hk | hk
    · exact hk
    · refine absurd ?_ hne
      simp only [List.mem_append, List.mem_singleton] at hk
      split_ifs at hk <;> simp at hk <;> omega
  refine ⟨?_, fun hne => ?_, fun hne => ?_, fun fl hm => ?_, fun fl t hm ht hon => ?_⟩
  · rw [hs]
    simp only
    split_ifs with hj
    · rfl
    · rw [h.count, not_not.1 hj]
  · rw [hs] at hne
    exact absurd rfl hne
  · rw [hs] at hne ⊢
    cases hon : ondisk with
    | true =>
        refine .inr (.inr (.inl ⟨σ.nextFlusher, ?_⟩))
        rw [hq, hon]
        simp
    | false =>
        rcases h.flush hne with he | hf | ⟨fl, hm⟩ | ⟨fl, t, hm, ht, hb, ho⟩
        · exact .inl he
        · exact .inr (.inl (by simpa using hf))
        · exact .inr (.inr (.inl ⟨fl, hmem _ hm⟩))
        · refine .inr (.inr (.inr ⟨fl, t, hmem _ hm, ?_, hb, ho⟩))
          have := hold _ hm
          rw [hfs, if_neg (by omega), ht]
  · have hfl : fl ≠ σ.nextFlusher := by
      rintro rfl
      rw [hq] at hm
      rcases List.mem_append.1 hm with hm | hm
      · exact hold _ hm (by omega)
      · simp only [List.mem_append, List.mem_singleton] at hm
        split_ifs at hm <;> simp at hm
    obtain ⟨hw, t, ht, hb⟩ := h.before fl (hmem' _ hm (by omega))
    exact ⟨hmem _ hw, t, by rw [hfs, if_neg hfl, ht], hb⟩
  · by_cases hfl : fl = σ.nextFlusher
    · subst hfl
      rw [hfs, if_pos rfl] at ht
      obtain rfl := Option.some.inj ht
      rw [hq, show ondisk = true from hon]
      simp
    · rw [hfs, if_neg hfl] at ht
      exact hmem _ (h.after fl t (hmem' _ hm (by omega)) ht hon)

theorem chores_opened (total : ℕ) (discard compact : Bool) (uuid : Uuid) (disk : Buf) :
    (Sys.opened total discard compact uuid disk).Chores := by
  refine ⟨rfl, fun hne => absurd rfl hne, fun hne => absurd rfl hne, fun fl hm => ?_, fun fl t hm => ?_⟩
  · cases hm
  · cases hm

/-- A journaled change: the entry that goes with it asks for a flusher. -/
theorem Chores.append {j : JEntry} (h : σ.Chores) (hhead : σ'.sup.journalHead = σ.sup.journalHead ++ [j])
    (hcount : σ'.sup.journalCount = σ.sup.journalCount + 1) (hflush : σ'.sup.flush = σ.sup.flush)
    (hflag : σ'.sup.flushFlag = σ.sup.flushFlag) (herr : σ'.sup.error = σ.sup.error)
    (hfs : σ'.flushers = σ.flushers) (ho : σ'.orders = σ.orders) : σ'.Chores := by
  refine h.frame ?_ (fun _ => .inr ?_) hflush hflag (fun he => herr.trans he) hfs ho
  · rw [hcount, hhead, h.count, List.length_append]
    rfl
  · rw [hhead]
    simp

/-- **Every step leaves nothing behind.** -/
theorem chores_effect (hσ : σ.Sound total) (h : σ.Chores) (he : σ.Effect σ') : σ'.Chores := by
  cases he with
  | change hm =>
      cases hm with
      | «open» _ _ _ _ _ _ he | close _ _ _ _ _ _ he | closeClosed he =>
          subst he
          exact h.still ⟨rfl, rfl, rfl, rfl, rfl, rfl, rfl, rfl⟩ id rfl
      | @op j s cs ws ho he =>
          obtain ⟨_, _, _, _, _, _, _, _, _, hs⟩ := ho.shape
          subst he
          refine h.append (j := j) ?_ ?_ ?_ ?_ ?_ rfl rfl <;> rw [hs] <;> rfl
      | @copyStart f i b src cs ws io _ _ _ _ hf hmode _ _ hb hnone he =>
          have hs : ∀ g, ∃ filesById free freeExtents dataExtents,
              (σ.sup.superToFile f b i).updFile f.id g = { σ.sup with
                filesById := filesById
                free := free
                freeExtents := freeExtents
                dataExtents := dataExtents } := by
            intro g
            rw [Super.updFile, Super.superToFile_eq hnone]
            split <;> exact ⟨_, _, _, _, rfl⟩
          obtain ⟨_, _, _, _, hs⟩ := hs fun f => f.markExtent i fun e => { e with pending := true }
          rw [Super.copyPending, hs] at he
          subst he
          refine h.frame h.count h.unused rfl rfl id rfl ?_
          simp [orders, tasks, List.filterMap_append, Task.order]
      | @copied k i b src err m junk ht he =>
          obtain ⟨h₁, h₂, h₃, h₄, h₅, h₆⟩ :
              (σ.sup.copyEnded k i err).journalHead = σ.sup.journalHead ∧
              (σ.sup.copyEnded k i err).journalCount = σ.sup.journalCount ∧
              (σ.sup.copyEnded k i err).flush = σ.sup.flush ∧
              (σ.sup.copyEnded k i err).flushFlag = σ.sup.flushFlag ∧
              (σ.sup.copyEnded k i err).error = σ.sup.error ∧
              (σ.sup.copyEnded k i err).unused = σ.sup.unused := by
            unfold Super.copyEnded Super.updFile
            split <;> exact ⟨rfl, rfl, rfl, rfl, rfl, rfl⟩
          have ho : orders { σ with active := none } = σ.orders := by
            rw [orders, orders, tasks_of_active ht]
            rfl
          subst he
          cases err with
          | true =>
              refine h.frame ?_ ?_ h₃ h₄ (fun he => h₅.trans he) rfl ho
              · exact h₂.trans (h.count.trans (congrArg _ h₁.symm))
              · intro hne
                refine (h.unused fun hu => hne (h₆.trans hu)).imp (fun hf => h₄.trans hf) fun hj hj' => ?_
                exact hj (h₁.symm.trans hj')
          | false =>
              let j : JEntry := ⟨.bind k i b, true⟩
              exact h.append (j := j) (congrArg (· ++ [j]) h₁) (congrArg (· + 1) h₂) h₃ h₄ h₅ rfl ho
      | mount hl ho he =>
          subst he
          refine h.still (still_loaded (hσ.calls.loading (by simp [hl])) ho) (fun herr => ?_) ?_
          · by_contra hne
            have := (tail_loaded ho).error (by simpa using hne)
            exact absurd herr (by simpa using this)
          · rw [(tail_loaded ho).orders]
            rcases ho.active with ht | ht <;>
              rw [orders, orders, tasks_of_active ht] <;> rfl
  | threads he =>
      subst he
      exact h.frame h.count h.unused rfl rfl id rfl rfl
  | compactStart _ _ he | handlerWrite _ _ he =>
      subst he
      exact h.still ⟨rfl, rfl, rfl, rfl, rfl, rfl, rfl, rfl⟩ id rfl
  | requeue he | compactInit _ he =>
      subst he
      refine h.still ⟨rfl, rfl, rfl, rfl, rfl, rfl, rfl, rfl⟩ id ?_
      simp [orders, tasks, addTail, List.filterMap_append, Task.order]
  | compactFail _ he =>
      subst he
      exact h.still ⟨rfl, rfl, rfl, rfl, rfl, rfl, rfl, rfl⟩ (fun _ => rfl) rfl
  | get ha hq he =>
      subst he
      refine h.still ⟨rfl, rfl, rfl, rfl, rfl, rfl, rfl, rfl⟩ id ?_
      simp [orders, tasks, ha, hq]
  | noMount _ ht he =>
      subst he
      refine h.still ⟨rfl, rfl, rfl, rfl, rfl, rfl, rfl, rfl⟩ id ?_
      rcases ht with ht | ht <;> rw [orders, orders, tasks_of_active ht] <;> rfl
  | @flusher cs ondisk he =>
      subst he
      refine (chores_queueFlusher h hσ.account hσ.extents.fresh ondisk).still ?_ id rfl
      exact ⟨rfl, rfl, rfl, rfl, rfl, rfl, rfl, rfl⟩
  | @task t err m junk ht hloud he =>
      subst he
      cases ho : t.order with
      | none =>
          have hpop : Chores { σ with active := none } := by
            refine h.still ⟨rfl, rfl, rfl, rfl, rfl, rfl, rfl, rfl⟩ id ?_
            simp [orders, tasks, ht, ho]
          have htail := tail_runTask { σ with active := none } hloud ho err m junk
          refine hpop.still (still_runTask _ hloud ho err m junk) (fun he => ?_) htail.orders
          by_contra hne
          exact absurd (htail.error (by simpa using hne)) (by simpa using he)
      | some n => exact chores_flusher h hσ.account ht ho err m junk

end Sys

end Cyanfs
