/-
# Ordered trees and listing by cursor

The content of a search tree is a list of entries with ascending keys (`Rb`).
The operations are those of a tree whose insertion leaves an entry of the same
key alone: `find`, `nfind` (the first entry at or behind a key), `insert` and
`erase`.

`Lists next c l` says that calling `next` from the cursor `c`, and feeding every
result back, returns the members of `l` and then nothing.  If each call looks
from a key on that separates what was returned from the rest, everything is
listed in order (`Lists.of_separates`); if after some entry the search starts at
or before it, nothing that contains this entry is listed in ascending order
(`Lists.not_ascending`).
-/

import Mathlib.Data.List.Basic
import Mathlib.Order.Lattice

namespace Cyanfs
namespace Lib

/-- The entries of a search tree, in order. -/
structure Rb (κ α : Type) [LinearOrder κ] where
  entries : List (κ × α)
  sorted : entries.Pairwise (·.1 < ·.1)

namespace Rb

variable {κ α : Type} [LinearOrder κ] {t : Rb κ α} {k x : κ} {a b : α}

/-- `CYANFS_RB_INIT`. -/
def empty : Rb κ α := ⟨[], .nil⟩

/-- `CYANFS_RB_FIND`. -/
def find (t : Rb κ α) (k : κ) : Option α := (t.entries.find? (·.1 = k)).map (·.2)

/-- `CYANFS_RB_NFIND`. -/
def nfind (t : Rb κ α) (k : κ) : Option (κ × α) := t.entries.find? (k ≤ ·.1)

/-- A list of entries with one more, unless its key is there. -/
def insertEntry (k : κ) (a : α) : List (κ × α) → List (κ × α)
  | [] => [(k, a)]
  | e :: l =>
      if k < e.1 then (k, a) :: e :: l
      else if e.1 < k then e :: insertEntry k a l
      else e :: l

theorem mem_insertEntry {l : List (κ × α)} (hl : l.Pairwise (·.1 < ·.1)) :
    (x, b) ∈ insertEntry k a l ↔ (x, b) ∈ l ∨ x = k ∧ b = a ∧ ∀ e ∈ l, e.1 ≠ k := by
  induction l with
  | nil => simp [insertEntry]
  | cons e l ih =>
      obtain ⟨hhead, htail⟩ := List.pairwise_cons.1 hl
      unfold insertEntry
      split_ifs with h₁ h₂
      · have hne : ∀ f ∈ e :: l, f.1 ≠ k := fun f hf => by
          rcases List.mem_cons.1 hf with rfl | hf
          · exact h₁.ne'
          · exact (h₁.trans (hhead f hf)).ne'
        simp only [List.mem_cons (a := (x, b)), Prod.mk.injEq]
        constructor
        · rintro (⟨rfl, rfl⟩ | h)
          · exact .inr ⟨rfl, rfl, hne⟩
          · exact .inl h
        · rintro (h | ⟨rfl, rfl, -⟩)
          · exact .inr h
          · exact .inl ⟨rfl, rfl⟩
      · rw [List.mem_cons, ih htail, List.mem_cons]
        constructor
        · rintro (h | h | ⟨rfl, rfl, h⟩)
          · exact .inl (.inl h)
          · exact .inl (.inr h)
          · refine .inr ⟨rfl, rfl, fun f hf => ?_⟩
            rcases List.mem_cons.1 hf with rfl | hf
            · exact h₂.ne
            · exact h f hf
        · rintro ((h | h) | ⟨rfl, rfl, h⟩)
          · exact .inl h
          · exact .inr (.inl h)
          · exact .inr (.inr ⟨rfl, rfl, fun f hf => h f (List.mem_cons_of_mem _ hf)⟩)
      · have hk : e.1 = k := le_antisymm (not_lt.1 h₁) (not_lt.1 h₂)
        refine ⟨.inl, ?_⟩
        rintro (h | ⟨-, -, h⟩)
        · exact h
        · exact absurd hk (h e List.mem_cons_self)

theorem sorted_insertEntry {l : List (κ × α)} (hl : l.Pairwise (·.1 < ·.1)) :
    (insertEntry k a l).Pairwise (·.1 < ·.1) := by
  induction l with
  | nil => exact List.pairwise_singleton _ _
  | cons e l ih =>
      obtain ⟨hhead, htail⟩ := List.pairwise_cons.1 hl
      unfold insertEntry
      split_ifs with h₁ h₂
      · refine List.pairwise_cons.2 ⟨fun f hf => ?_, hl⟩
        rcases List.mem_cons.1 hf with rfl | hf
        · exact h₁
        · exact h₁.trans (hhead f hf)
      · refine List.pairwise_cons.2 ⟨fun f hf => ?_, ih htail⟩
        rcases (mem_insertEntry htail).1 hf with hf | ⟨hx, -⟩
        · exact hhead f hf
        · rw [hx]
          exact h₂
      · exact hl

/-- `CYANFS_RB_INSERT`: an entry of the same key stays, and the new one is not
put into the tree. -/
def insert (t : Rb κ α) (k : κ) (a : α) : Rb κ α :=
  ⟨insertEntry k a t.entries, sorted_insertEntry t.sorted⟩

/-- `CYANFS_RB_REMOVE`. -/
def erase (t : Rb κ α) (k : κ) : Rb κ α :=
  ⟨t.entries.filter (·.1 ≠ k), t.sorted.filter _⟩

theorem mem_insert : (x, b) ∈ (t.insert k a).entries ↔
    (x, b) ∈ t.entries ∨ x = k ∧ b = a ∧ ∀ e ∈ t.entries, e.1 ≠ k :=
  mem_insertEntry t.sorted

theorem mem_erase : (x, b) ∈ (t.erase k).entries ↔ (x, b) ∈ t.entries ∧ x ≠ k := by
  simp [erase, List.mem_filter]

/-- A key has one entry. -/
theorem eq_of_key_eq {l : List (κ × α)} (hl : l.Pairwise (·.1 < ·.1)) {e f : κ × α} (he : e ∈ l)
    (hf : f ∈ l) (h : e.1 = f.1) : e = f := by
  induction l with
  | nil => cases he
  | cons g l ih =>
      obtain ⟨hhead, htail⟩ := List.pairwise_cons.1 hl
      rcases List.mem_cons.1 he with rfl | he' <;> rcases List.mem_cons.1 hf with rfl | hf'
      · rfl
      · exact absurd h (hhead f hf').ne
      · exact absurd h (hhead e he').ne'
      · exact ih htail he' hf'

theorem find_eq_some : t.find k = some a ↔ (k, a) ∈ t.entries := by
  constructor
  · intro h
    obtain ⟨⟨y, c⟩, he, rfl⟩ := Option.map_eq_some_iff.1 h
    have hy : y = k := by simpa using List.find?_some he
    subst hy
    exact List.mem_of_find?_eq_some he
  · intro h
    obtain ⟨e, he⟩ := Option.isSome_iff_exists.1
      (List.find?_isSome.2 ⟨(k, a), h, by simp⟩ : (t.entries.find? (·.1 = k)).isSome)
    have hk : e.1 = k := by simpa using List.find?_some he
    obtain rfl := eq_of_key_eq t.sorted (List.mem_of_find?_eq_some he) h hk
    rw [find, he, Option.map_some]

theorem find_eq_none : t.find k = none ↔ ∀ e ∈ t.entries, e.1 ≠ k := by
  simp [find]

@[simp] theorem find_empty : (empty : Rb κ α).find k = none := rfl

@[simp] theorem find_insert :
    (t.insert k a).find x = if x = k then some ((t.find k).getD a) else t.find x := by
  refine Option.ext fun b => ?_
  simp only [find_eq_some, mem_insert]
  split_ifs with hx
  · subst hx
    cases hf : t.find x with
    | none =>
        have hno := find_eq_none.1 hf
        simp only [Option.getD_none, Option.some.injEq]
        constructor
        · rintro (h | ⟨-, rfl, -⟩)
          · exact absurd rfl (hno _ h)
          · rfl
        · rintro rfl
          exact .inr ⟨trivial, rfl, hno⟩
    | some c =>
        have hc := find_eq_some.1 hf
        simp only [Option.getD_some, Option.some.injEq]
        constructor
        · rintro (h | ⟨-, -, h⟩)
          · exact (congrArg Prod.snd (eq_of_key_eq t.sorted h hc rfl)).symm
          · exact absurd rfl (h _ hc)
        · rintro rfl
          exact .inl hc
  · rw [find_eq_some]
    exact ⟨fun h => h.resolve_right fun h => hx h.1, .inl⟩

@[simp] theorem find_erase : (t.erase k).find x = if x = k then none else t.find x := by
  refine Option.ext fun b => ?_
  simp only [find_eq_some, mem_erase]
  split_ifs with hx
  · simp [hx]
  · simp [find_eq_some, hx]

/-- The tree with the entry of a key changed. -/
def modify (t : Rb κ α) (k : κ) (g : α → α) : Rb κ α where
  entries := t.entries.map fun e => if e.1 = k then (e.1, g e.2) else e
  sorted := by
    refine List.pairwise_map.2 (t.sorted.imp fun {e f} h => ?_)
    split_ifs <;> exact h

@[simp] theorem find_modify {g : α → α} :
    (t.modify k g).find x = if x = k then (t.find k).map g else t.find x := by
  refine Option.ext fun b => ?_
  rw [find_eq_some, modify, List.mem_map]
  split_ifs with hx
  · subst hx
    rw [Option.map_eq_some_iff]
    constructor
    · rintro ⟨e, he, hb⟩
      split_ifs at hb with h
      · exact ⟨e.2, find_eq_some.2 (by rw [← h]; exact he), congrArg Prod.snd hb⟩
      · exact absurd (congrArg Prod.fst hb) h
    · rintro ⟨c, hc, rfl⟩
      exact ⟨(x, c), find_eq_some.1 hc, if_pos rfl⟩
  · rw [find_eq_some]
    constructor
    · rintro ⟨e, he, hb⟩
      split_ifs at hb with h
      · exact absurd ((congrArg Prod.fst hb).symm.trans h) hx
      · rwa [hb] at he
    · intro h
      exact ⟨(x, b), h, if_neg hx⟩

theorem find_modify_eq_some {g : α → α} : (t.modify k g).find x = some b ↔
    ∃ a, t.find x = some a ∧ b = if x = k then g a else a := by
  rw [find_modify]
  split_ifs with hx
  · subst hx
    rw [Option.map_eq_some_iff]
    exact ⟨fun ⟨a, ha, hb⟩ => ⟨a, ha, hb.symm⟩, fun ⟨a, ha, hb⟩ => ⟨a, ha, hb.symm⟩⟩
  · exact ⟨fun h => ⟨b, h, rfl⟩, fun ⟨a, ha, hb⟩ => hb ▸ ha⟩

/-! #### Counting entries -/

/-- The number of entries with a property. -/
def count (t : Rb κ α) (p : α → Bool) : ℕ := t.entries.countP fun e => p e.2

variable {p : α → Bool}

@[simp] theorem count_empty : (empty : Rb κ α).count p = 0 := rfl

theorem count_eq_zero : t.count p = 0 ↔ ∀ k a, t.find k = some a → p a = false := by
  simp only [count, List.countP_eq_zero, find_eq_some, Bool.not_eq_true]
  exact ⟨fun h k a ha => h (k, a) ha, fun h e he => h e.1 e.2 he⟩

theorem countP_insertEntry {l : List (κ × α)} (h : ∀ e ∈ l, e.1 ≠ k) :
    (insertEntry k a l).countP (fun e => p e.2) = l.countP (fun e => p e.2) + if p a then 1 else 0 := by
  induction l with
  | nil => simp [insertEntry, List.countP_cons]
  | cons e l ih =>
      have htail := ih fun f hf => h f (List.mem_cons_of_mem _ hf)
      rcases lt_trichotomy k e.1 with hk | hk | hk
      · rw [insertEntry, if_pos hk, List.countP_cons]
      · exact absurd hk.symm (h e List.mem_cons_self)
      · rw [insertEntry, if_neg hk.not_gt, if_pos hk, List.countP_cons, htail, List.countP_cons]
        omega

theorem count_insert (h : t.find k = none) :
    (t.insert k a).count p = t.count p + if p a then 1 else 0 :=
  countP_insertEntry (find_eq_none.1 h)

theorem countP_filter_key {l : List (κ × α)} (hl : l.Pairwise (·.1 < ·.1)) (h : (k, a) ∈ l) :
    l.countP (fun e => p e.2) =
      (l.filter (·.1 ≠ k)).countP (fun e => p e.2) + if p a then 1 else 0 := by
  induction l with
  | nil => cases h
  | cons e l ih =>
      obtain ⟨hhead, htail⟩ := List.pairwise_cons.1 hl
      rcases List.mem_cons.1 h with rfl | hmem
      · have hrest : l.filter (·.1 ≠ k) = l :=
          List.filter_eq_self.2 fun f hf => by simpa using (hhead f hf).ne'
        rw [List.filter_cons_of_neg (by simp), hrest, List.countP_cons]
      · have hne : e.1 ≠ k := (hhead _ hmem).ne
        rw [List.filter_cons_of_pos (by simpa using hne), List.countP_cons, List.countP_cons,
          ih htail hmem]
        omega

theorem count_erase (h : t.find k = some a) :
    t.count p = (t.erase k).count p + if p a then 1 else 0 :=
  countP_filter_key t.sorted (find_eq_some.1 h)

theorem count_modify {g : α → α} (h : ∀ a, p (g a) = p a) : (t.modify k g).count p = t.count p := by
  rw [count, modify, List.countP_map, count]
  refine List.countP_congr fun e _ => ?_
  simp only [Function.comp]
  split_ifs <;> simp [h]

/-! #### The first entry from a key on -/

/-- The first entry at or behind a key is the least one there. -/
theorem nfind_eq_some {e : κ × α} (h : t.nfind k = some e) :
    e ∈ t.entries ∧ k ≤ e.1 ∧ ∀ f ∈ t.entries, k ≤ f.1 → e.1 ≤ f.1 := by
  obtain ⟨hk, pre, suf, hsplit, hpre⟩ := List.find?_eq_some_iff_append.1 h
  refine ⟨List.mem_of_find?_eq_some h, by simpa using hk, fun f hf hkf => ?_⟩
  have hsorted := t.sorted
  rw [hsplit] at hf hsorted
  rcases List.mem_append.1 hf with hf | hf
  · exact absurd hkf (by simpa using hpre f hf)
  · rcases List.mem_cons.1 hf with rfl | hf
    · exact le_rfl
    · exact ((List.pairwise_cons.1 (List.pairwise_append.1 hsorted).2.1).1 f hf).le

theorem nfind_eq_none : t.nfind k = none ↔ ∀ e ∈ t.entries, e.1 < k := by
  simp [nfind]

/-- The entry at a key is the first one from there on. -/
theorem nfind_of_find (h : t.find k = some a) : t.nfind k = some (k, a) := by
  have hmem := find_eq_some.1 h
  cases hn : t.nfind k with
  | none => exact absurd (nfind_eq_none.1 hn _ hmem) (lt_irrefl _)
  | some e =>
      obtain ⟨he, hk, hleast⟩ := nfind_eq_some hn
      exact congrArg some (eq_of_key_eq t.sorted he hmem (le_antisymm (hleast _ hmem le_rfl) hk))

/-- The entries before a key and those from it on. -/
theorem exists_split (t : Rb κ α) (k : κ) : ∃ pre suf, t.entries = pre ++ suf ∧
    (∀ e ∈ pre, e.1 < k) ∧ ∀ e ∈ suf, k ≤ e.1 := by
  obtain ⟨l, hl⟩ := t
  simp only
  induction l with
  | nil => exact ⟨[], [], rfl, by simp, by simp⟩
  | cons e l ih =>
      obtain ⟨hhead, htail⟩ := List.pairwise_cons.1 hl
      by_cases he : e.1 < k
      · obtain ⟨pre, suf, rfl, hpre, hsuf⟩ := ih htail
        refine ⟨e :: pre, suf, rfl, fun f hf => ?_, hsuf⟩
        rcases List.mem_cons.1 hf with rfl | hf
        · exact he
        · exact hpre f hf
      · refine ⟨[], e :: l, rfl, by simp, fun f hf => ?_⟩
        rcases List.mem_cons.1 hf with rfl | hf
        · exact not_lt.1 he
        · exact (not_lt.1 he).trans (hhead f hf).le

end Rb

/-! ### Listing by cursor -/

/-- From the cursor `c` the calls return `l`, each fed back, and then nothing. -/
inductive Lists {σ : Type} (next : σ → Option σ) : σ → List σ → Prop
  | stop {c : σ} (h : next c = none) : Lists next c []
  | more {c v : σ} {l : List σ} (h : next c = some v) (ht : Lists next v l) : Lists next c (v :: l)

namespace Lists

variable {κ α σ : Type} [LinearOrder κ] {t : Rb κ α} {next : σ → Option σ} {put : κ × α → σ}
  {seek : σ → κ}

/-- Every call starts behind all that was returned and before all that was
not. -/
theorem of_separates (hnext : ∀ c, next c = (t.nfind (seek c)).map put) {c : σ}
    (pre : List (κ × α)) {suf : List (κ × α)} (hsplit : t.entries = pre ++ suf)
    (hpre : ∀ e ∈ pre, e.1 < seek c) (hsuf : ∀ e ∈ suf, seek c ≤ e.1)
    (hstep : ∀ e ∈ suf, ∀ f ∈ t.entries, seek (put e) ≤ f.1 ↔ e.1 < f.1) :
    Lists next c (suf.map put) := by
  induction suf generalizing pre c with
  | nil =>
      refine .stop ?_
      rw [hnext, Rb.nfind_eq_none.2 (fun e he => hpre e (by simpa [hsplit] using he)),
        Option.map_none]
  | cons e suf ih =>
      have hfind : t.nfind (seek c) = some e := by
        rw [Rb.nfind, hsplit]
        refine List.find?_eq_some_iff_append.2 ⟨?_, pre, suf, rfl, fun f hf => ?_⟩
        · simpa using hsuf e List.mem_cons_self
        · simpa using hpre f hf
      refine .more (v := put e) (by rw [hnext, hfind, Option.map_some]) ?_
      have hsorted := t.sorted
      rw [hsplit] at hsorted
      obtain ⟨-, hes, hpe⟩ := List.pairwise_append.1 hsorted
      have he := hstep e List.mem_cons_self
      refine ih (pre ++ [e]) (by rw [hsplit, List.append_assoc]; rfl) (fun f hf => ?_)
        (fun f hf => ?_) (fun f hf => hstep f (List.mem_cons_of_mem _ hf))
      · rw [← not_le, he f (by rw [hsplit]; simp at hf ⊢; tauto), not_lt]
        rcases List.mem_append.1 hf with hf | hf
        · exact (hpe f hf e List.mem_cons_self).le
        · rw [List.mem_singleton.1 hf]
      · rw [he f (by rw [hsplit]; simp [hf])]
        exact (List.pairwise_cons.1 hes).1 f hf

/-- Results in the order of the tree ascend. -/
theorem ascending {es : List (κ × α)} (hs : es.Pairwise (·.1 < ·.1)) {key : σ → κ}
    (hkey : ∀ e ∈ es, key (put e) = e.1) :
    (es.map put).Pairwise fun v w => key v < key w := by
  refine List.pairwise_map.2 (hs.imp_of_mem fun {e f} he hf h => ?_)
  rw [hkey e he, hkey f hf]
  exact h

/-- The list behind a member. -/
theorem of_append {c v : σ} {l m : List σ} (h : Lists next c (l ++ v :: m)) : Lists next v m := by
  induction l generalizing c with
  | nil =>
      cases h with
      | more h ht => exact ht
  | cons w l ih =>
      cases h with
      | more h ht => exact ih ht

/-- If the search after an entry can find it again, a list that holds it is not
ascending. -/
theorem not_ascending (hnext : ∀ c, next c = (t.nfind (seek c)).map put) {key : σ → κ}
    (hkey : ∀ e ∈ t.entries, key (put e) = e.1) {e : κ × α} (he : e ∈ t.entries)
    (hback : seek (put e) ≤ e.1) {c : σ} {l : List σ} (hl : Lists next c l)
    (hp : l.Pairwise fun v w => key v < key w) : put e ∉ l := by
  intro hmem
  obtain ⟨l₁, l₂, rfl⟩ := List.append_of_mem hmem
  have hcons := (List.pairwise_append.1 hp).2.1
  cases of_append hl with
  | stop h =>
      rw [hnext, Option.map_eq_none_iff, Rb.nfind_eq_none] at h
      exact absurd (h e he) (not_lt.2 hback)
  | more h ht =>
      rw [hnext] at h
      obtain ⟨f, hf, rfl⟩ := Option.map_eq_some_iff.1 h
      obtain ⟨hmemf, -, hleast⟩ := Rb.nfind_eq_some hf
      have hlt := (List.pairwise_cons.1 hcons).1 _ List.mem_cons_self
      rw [hkey e he, hkey f hmemf] at hlt
      exact absurd (hleast e he hback) (not_le.2 hlt)

end Lists

end Lib
end Cyanfs
