/-
# Going down and back

A stack, its top at the end of the list, and words of moves: down to a name, or
back.  Going back from the empty stack fails, and a word fails where one of its
moves does.

Every word does what some `Rel` does: back a number of times, and then down
(`run_eq_apply`).  The `Rel` of a word is found move by move (`Rel.snoc`): going
back takes the last name off, if there is one, and otherwise counts.  It is the
word's normal form; a word that is in normal form already is its own
(`ofWord_word`).
-/
import Mathlib.Data.List.Basic

namespace Backtrack

variable {α : Type}

inductive Move (α : Type) where
  | back
  | down (a : α)

def step (st : List α) : Move α → Option (List α)
  | .back => if st = [] then none else some st.dropLast
  | .down a => some (st ++ [a])

/-- The stack at the end of a word. -/
def run (st : List α) : List (Move α) → Option (List α)
  | [] => some st
  | m :: ms => (step st m).bind fun st => run st ms

/-! ## Back, and then down -/

structure Rel (α : Type) where
  up : Nat
  down : List α

namespace Rel

def apply (r : Rel α) (st : List α) : Option (List α) :=
  if r.up ≤ st.length then some (st.take (st.length - r.up) ++ r.down) else none

/-- One move more. -/
def snoc (r : Rel α) : Move α → Rel α
  | .down a => ⟨r.up, r.down ++ [a]⟩
  | .back => if r.down = [] then ⟨r.up + 1, []⟩ else ⟨r.up, r.down.dropLast⟩

def word (r : Rel α) : List (Move α) := List.replicate r.up .back ++ r.down.map .down

theorem apply_zero (st : List α) (xs : List α) : apply ⟨0, xs⟩ st = some (st ++ xs) := by
  rw [apply, if_pos (Nat.zero_le _), Nat.sub_zero, List.take_length]

theorem mem_apply {r : Rel α} {st st' : List α} {a : α} (h : r.apply st = some st')
    (ha : a ∈ st') : a ∈ st ∨ a ∈ r.down := by
  rw [apply] at h
  split at h
  · cases h
    exact (List.mem_append.mp ha).imp_left List.mem_of_mem_take
  · cases h

theorem apply_snoc (r : Rel α) (m : Move α) (st : List α) :
    (r.snoc m).apply st = (r.apply st).bind fun st => step st m := by
  by_cases hle : r.up ≤ st.length
  · rw [show r.apply st = some _ from if_pos hle, Option.bind_some]
    cases m with
    | down a =>
        show apply ⟨r.up, r.down ++ [a]⟩ st = some _
        rw [apply, if_pos hle, List.append_assoc]
    | back =>
        rw [snoc, step]
        by_cases hdown : r.down = []
        · rw [if_pos hdown, hdown, List.append_nil, apply]
          -- the stack is empty now exactly if it has no element left for one more
          have hlen : (st.take (st.length - r.up)).length = st.length - r.up :=
            List.length_take_of_le (Nat.sub_le _ _)
          by_cases hmore : r.up + 1 ≤ st.length
          · have hne : st.take (st.length - r.up) ≠ [] := by
              apply List.ne_nil_of_length_pos
              omega
            rw [if_pos hmore, if_neg hne, List.append_nil, List.dropLast_eq_take, hlen,
              List.take_take]
            congr 2
            dsimp only
            omega
          · have hnil : st.take (st.length - r.up) = [] := by
              apply List.eq_nil_of_length_eq_zero
              omega
            rw [if_neg hmore, if_pos hnil]
        · rw [if_neg hdown, if_neg (List.append_ne_nil_of_right_ne_nil _ hdown), apply, if_pos hle,
            List.dropLast_append_of_ne_nil hdown]
  · rw [apply, apply, if_neg hle, Option.bind_none, if_neg]
    cases m with
    | down a => exact hle
    | back =>
        rw [snoc]
        split
        · exact fun h => hle (Nat.le_of_succ_le h)
        · exact hle

theorem mem_snoc {r : Rel α} {m : Move α} {a : α} (h : a ∈ (r.snoc m).down) :
    a ∈ r.down ∨ m = .down a := by
  cases m with
  | down b =>
      rcases List.mem_append.mp h with h | h
      · exact Or.inl h
      · exact Or.inr (congrArg Move.down (List.mem_singleton.mp h).symm)
  | back =>
      rw [snoc] at h
      split at h
      · cases h
      · exact Or.inl (List.dropLast_subset _ h)

theorem apply_foldl (r : Rel α) (ms : List (Move α)) (st : List α) :
    (ms.foldl snoc r).apply st = (r.apply st).bind fun st => run st ms := by
  induction ms generalizing r with
  | nil => exact (Option.bind_fun_some (r.apply st)).symm
  | cons m ms ih =>
      rw [List.foldl_cons, ih, apply_snoc, Option.bind_assoc]
      rfl

/-- The normal form of a word. -/
def ofWord (ms : List (Move α)) : Rel α := ms.foldl snoc ⟨0, []⟩

end Rel

/-- A word does what its normal form does. -/
theorem run_eq_apply (st : List α) (ms : List (Move α)) : run st ms = (Rel.ofWord ms).apply st := by
  rw [Rel.ofWord, Rel.apply_foldl, Rel.apply_zero, List.append_nil, Option.bind_some]

theorem foldl_snoc_down (r : Rel α) (xs : List α) :
    (xs.map .down).foldl Rel.snoc r = ⟨r.up, r.down ++ xs⟩ := by
  induction xs generalizing r with
  | nil => rw [List.append_nil]; rfl
  | cons x xs ih =>
      rw [List.map_cons, List.foldl_cons, ih]
      show Rel.mk r.up (r.down ++ [x] ++ xs) = _
      rw [List.append_assoc, List.singleton_append]

theorem foldl_snoc_back (m n : Nat) :
    (List.replicate n Move.back).foldl Rel.snoc (⟨m, []⟩ : Rel α) = ⟨m + n, []⟩ := by
  induction n generalizing m with
  | zero => rfl
  | succ n ih =>
      rw [List.replicate_succ, List.foldl_cons]
      show (List.replicate n Move.back).foldl Rel.snoc (⟨m + 1, []⟩ : Rel α) = _
      rw [ih, Nat.add_right_comm]
      rfl

/-- The word of a `Rel` is in normal form. -/
theorem ofWord_word (r : Rel α) : Rel.ofWord r.word = r := by
  rw [Rel.ofWord, Rel.word, List.foldl_append, foldl_snoc_back, foldl_snoc_down, Nat.zero_add,
    List.nil_append]

end Backtrack
