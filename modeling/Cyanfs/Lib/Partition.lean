/-
# Families of sets that partition a universe

`Partitions S U`: the sets `S o` are disjoint and cover exactly `U`; any of them
may be empty.  The one rule a program needs is `Partitions.move`: taking some
elements out of one set and putting them into another keeps the partition.
Everything else (`mem_unique`, `disjoint`) reads a fact out of it.
-/

import Mathlib.Data.Set.Card
import Mathlib.Data.Set.Lattice
import Mathlib.Order.CompletePartialOrder

namespace Cyanfs
namespace Lib

variable {ι α : Type*} {S S' : ι → Set α} {U : Set α} {a : α}

/-- Every element of `U` is in exactly one set of the family, and the family
has no other elements. -/
def Partitions (S : ι → Set α) (U : Set α) : Prop :=
  (∀ o, S o ⊆ U) ∧ ∀ a ∈ U, ∃! o, a ∈ S o

namespace Partitions

theorem mem_unique (h : Partitions S U) (o o' : ι) (ho : a ∈ S o) (ho' : a ∈ S o') : o = o' := by
  obtain ⟨p, -, hp⟩ := h.2 a (h.1 o ho)
  rw [hp o ho, hp o' ho']

theorem disjoint (h : Partitions S U) (o o' : ι) (hne : o ≠ o') : Disjoint (S o) (S o') :=
  Set.disjoint_left.2 fun _ ho ho' => hne (h.mem_unique o o' ho ho')

/-- A partition is a function from elements to owners. -/
theorem of_owner (own : α → ι) (h : ∀ o a, a ∈ S o ↔ a ∈ U ∧ own a = o) : Partitions S U := by
  constructor
  · intro o a ha
    exact ((h o a).1 ha).1
  · intro a ha
    exact ⟨own a, (h _ a).2 ⟨ha, rfl⟩, fun o ho => (((h o a).1 ho).2).symm⟩

/-- **Moving elements keeps the partition.**  `X` leaves `src` and enters `dst`;
the other sets are as before. -/
theorem move (h : Partitions S U) (src dst : ι) (X : Set α) (hX : X ⊆ S src) (hne : src ≠ dst)
    (hs : S' src = S src \ X) (hd : S' dst = S dst ∪ X)
    (ho : ∀ o, o ≠ src → o ≠ dst → S' o = S o) : Partitions S' U := by
  classical
  have key : ∀ o a, a ∈ S' o ↔ if a ∈ X then o = dst else a ∈ S o := by
    intro o a
    by_cases h₁ : o = src
    · subst h₁
      by_cases ha : a ∈ X <;> simp [hs, ha, hne]
    · by_cases h₂ : o = dst
      · subst h₂
        by_cases ha : a ∈ X <;> simp [hd, ha]
      · by_cases ha : a ∈ X
        · have : a ∉ S o := fun hm => h₁ (h.mem_unique o src hm (hX ha))
          simp [ho o h₁ h₂, ha, h₂, this]
        · simp [ho o h₁ h₂, ha]
  constructor
  · intro o a ha
    rw [key] at ha
    split_ifs at ha with hx
    · exact h.1 src (hX hx)
    · exact h.1 o ha
  · intro a ha
    by_cases hx : a ∈ X
    · exact ⟨dst, by simp [key, hx], fun o ho => by simpa [key, hx] using ho⟩
    · obtain ⟨p, hp, hu⟩ := h.2 a ha
      exact ⟨p, by simpa [key, hx] using hp, fun o ho => hu o (by simpa [key, hx] using ho)⟩

/-- A family with the same sets is the same partition. -/
theorem congr (h : Partitions S U) (ho : ∀ o, S' o = S o) : Partitions S' U := by
  rwa [show S' = S from funext ho]

end Partitions

end Lib
end Cyanfs
