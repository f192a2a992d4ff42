/-
# Items packed into boxes

Items of given sizes are put into boxes one after the other, each box with as
many of the next items as there is room for.

    fit size cap as      what goes into one box
    pack size caps as    what goes into each of several
    Longest, Packed      the same, without saying how it is found
    Roomy                every box has room for the item that is next

No item is split or left out (`pack_packed`, `Packed.flatten_front`).  A box stays
empty though there are items left exactly if it has no room for the next one
(`empty_at_end_iff`).
-/
import Mathlib.Algebra.GroupWithZero.Nat
import Mathlib.Data.List.Basic
import Mathlib.Tactic.Common

namespace Packing

variable {α : Type} (size : α → Nat)

/-- As many items from the front as there is room for. -/
def fit : Nat → List α → List α
  | _, [] => []
  | cap, a :: as => if size a ≤ cap then a :: fit (cap - size a) as else []

/-- What is put into the boxes. -/
def pack : List Nat → List α → List (List α)
  | [], _ => []
  | cap :: caps, as => fit size cap as :: pack caps (as.drop (fit size cap as).length)

/-- The longest run of items from the front for which there is room. -/
structure Longest (cap : Nat) (as run : List α) : Prop where
  front : run <+: as
  fits : (run.map size).sum ≤ cap
  longest : ∀ q, q <+: as → (q.map size).sum ≤ cap → q.length ≤ run.length

inductive Packed : List Nat → List α → List (List α) → Prop
  | nil {as : List α} : Packed [] as []
  | cons {cap : Nat} {caps : List Nat} {as run : List α} {runs : List (List α)} :
      Longest size cap as run → Packed caps (as.drop run.length) runs →
      Packed (cap :: caps) as (run :: runs)

/-- Every box has room for the item that is next, if there is one. -/
def Roomy : List Nat → List α → Prop
  | [], _ => True
  | cap :: caps, as =>
      (∀ a ∈ as.head?, size a ≤ cap) ∧ Roomy caps (as.drop (fit size cap as).length)

variable {size} {cap : Nat} {caps : List Nat} {as : List α}

/-! ## One box -/

theorem fit_front (cap : Nat) (as : List α) : fit size cap as <+: as := by
  induction as generalizing cap with
  | nil => exact List.nil_prefix
  | cons a as ih =>
      rw [fit]
      split
      · exact List.prefix_cons_inj a |>.mpr (ih _)
      · exact List.nil_prefix

theorem fit_append_drop (cap : Nat) (as : List α) :
    fit size cap as ++ as.drop (fit size cap as).length = as :=
  List.prefix_iff_eq_append.mp (fit_front cap as)

theorem fit_longest (cap : Nat) (as : List α) : Longest size cap as (fit size cap as) := by
  refine ⟨fit_front cap as, ?_, ?_⟩
  · induction as generalizing cap with
    | nil => exact Nat.zero_le _
    | cons a as ih =>
        rw [fit]
        split
        · have := ih (cap - size a)
          rw [List.map_cons, List.sum_cons]
          omega
        · exact Nat.zero_le _
  · induction as generalizing cap with
    | nil =>
        intro q hq _
        rw [List.prefix_nil.mp hq]
        exact Nat.le_refl _
    | cons a as ih =>
        rintro (_ | ⟨b, q⟩) hq hsum
        · exact Nat.zero_le _
        · obtain ⟨rfl, hrest⟩ := List.cons_prefix_cons.mp hq
          rw [List.map_cons, List.sum_cons] at hsum
          rw [fit, if_pos (by omega)]
          exact Nat.succ_le_succ (ih _ q hrest (by omega))

theorem fit_eq_nil : fit size cap as = [] ↔ ∀ a ∈ as.head?, cap < size a := by
  cases as with
  | nil => exact ⟨fun _ => nofun, fun _ => rfl⟩
  | cons a as =>
      rw [fit]
      by_cases ha : size a ≤ cap
      · rw [if_pos ha]
        exact ⟨nofun, fun h => absurd (h a rfl) (Nat.not_lt.mpr ha)⟩
      · rw [if_neg ha]
        refine ⟨fun _ b hb => ?_, fun _ => rfl⟩
        cases hb
        exact Nat.not_le.mp ha

/-! ## Boxes in a row -/

theorem pack_packed (caps : List Nat) (as : List α) : Packed size caps as (pack size caps as) := by
  induction caps generalizing as with
  | nil => exact .nil
  | cons cap caps ih => exact .cons (fit_longest cap as) (ih _)

theorem Packed.flatten_front {runs : List (List α)} (h : Packed size caps as runs) :
    runs.flatten <+: as := by
  induction h with
  | nil => exact List.nil_prefix
  | @cons cap caps as run runs hrun _ ih =>
      obtain ⟨rest, rfl⟩ := hrun.front
      rw [List.drop_left] at ih
      exact (List.prefix_append_right_inj run).mpr ih

/-- A box stays empty only at the end: every box has room for the next item. -/
theorem empty_at_end_iff :
    (∀ i : Nat, (pack size caps as)[i]? = some [] → ((pack size caps as).take i).flatten = as) ↔
      Roomy size caps as := by
  induction caps generalizing as with
  | nil => exact ⟨fun _ => trivial, fun _ i h => by cases h⟩
  | cons cap caps ih =>
      rw [Roomy, ← ih, pack]
      constructor
      · intro h
        constructor
        · intro a ha
          by_contra hbig
          have hnil : fit size cap as = [] := fit_eq_nil.mpr fun b hb => by
            cases ha.symm.trans hb
            exact Nat.not_le.mp hbig
          have has : [] = as := h 0 (by rw [List.getElem?_cons_zero, hnil])
          rw [← has] at ha
          cases ha
        · intro i hi
          have hall := h (i + 1) (by rwa [List.getElem?_cons_succ])
          rw [List.take_succ_cons, List.flatten_cons] at hall
          refine List.append_cancel_left (hall.trans (fit_append_drop cap as).symm)
      · rintro ⟨hroom, h⟩ (_ | i) hi
        · rw [List.getElem?_cons_zero, Option.some.injEq, fit_eq_nil] at hi
          cases as with
          | nil => rfl
          | cons a as => exact absurd (hi a rfl) (Nat.not_lt.mpr (hroom a rfl))
        · rw [List.getElem?_cons_succ] at hi
          rw [List.take_succ_cons, List.flatten_cons, h i hi, fit_append_drop]

end Packing
