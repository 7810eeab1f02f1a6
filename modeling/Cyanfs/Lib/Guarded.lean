/-
# Guarded machines

A machine that reads a list of entries: `Admits s e` says when it takes entry
`e` in state `s`, `after s e` is the state behind it.  `Accepts` and `afterAll`
lift the two to lists, `Accepts.rule` carries an invariant along a list, and
`Accepts.mono` passes to a machine that admits more.
-/

import Mathlib.Logic.Basic

namespace Cyanfs
namespace Lib

universe u v

/-- When an entry is taken, and the state behind it. -/
structure Machine (S : Type u) (E : Type v) where
  Admits : S → E → Prop
  after : S → E → S

namespace Machine

variable {S : Type u} {E : Type v} (M : Machine S E)

/-- The state behind a list of entries. -/
def afterAll (s : S) (es : List E) : S := es.foldl M.after s

/-- Every entry of the list is taken. -/
def Accepts : S → List E → Prop
  | _, [] => True
  | s, e :: es => M.Admits s e ∧ Accepts (M.after s e) es

variable {M} {s : S} {e : E} {es fs : List E}

@[simp] theorem afterAll_nil : M.afterAll s [] = s := rfl

@[simp] theorem afterAll_cons : M.afterAll s (e :: es) = M.afterAll (M.after s e) es := rfl

theorem afterAll_append : M.afterAll s (es ++ fs) = M.afterAll (M.afterAll s es) fs :=
  List.foldl_append

@[simp] theorem accepts_nil : M.Accepts s [] := trivial

@[simp] theorem accepts_cons :
    M.Accepts s (e :: es) ↔ M.Admits s e ∧ M.Accepts (M.after s e) es := Iff.rfl

theorem accepts_append :
    M.Accepts s (es ++ fs) ↔ M.Accepts s es ∧ M.Accepts (M.afterAll s es) fs := by
  induction es generalizing s with
  | nil => simp
  | cons e es ih =>
      rw [List.cons_append, accepts_cons, accepts_cons, ih, afterAll_cons, and_assoc]

theorem accepts_concat :
    M.Accepts s (es ++ [e]) ↔ M.Accepts s es ∧ M.Admits (M.afterAll s es) e := by
  rw [accepts_append, accepts_cons]
  simp

/-- What survives every taken entry holds behind an accepted list. -/
theorem Accepts.rule {P : S → Prop} (h : M.Accepts s es) (h₀ : P s)
    (hstep : ∀ s e, P s → M.Admits s e → P (M.after s e)) : P (M.afterAll s es) := by
  induction es generalizing s with
  | nil => exact h₀
  | cons e es ih => exact ih h.2 (hstep s e h₀ h.1)

/-- A machine that admits more and does the same accepts more. -/
theorem Accepts.mono {N : Machine S E} (hafter : M.after = N.after)
    (hadmits : ∀ s e, M.Admits s e → N.Admits s e) (h : M.Accepts s es) : N.Accepts s es := by
  induction es generalizing s with
  | nil => trivial
  | cons e es ih => exact ⟨hadmits s e h.1, hafter ▸ ih h.2⟩

end Machine

end Lib
end Cyanfs
