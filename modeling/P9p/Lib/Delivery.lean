/-
# Bytes that arrive with interruptions

A connection delivers bytes, and from time to time a read of it is interrupted:
it returns early, and what comes after is left for the next read.  `gather`
collects a number of bytes until it has them, is interrupted, or finds the
connection at its end.

A delivery is a list of items; `content` forgets the interruptions.  The next `n`
bytes either come in one piece or with an interruption among them (`split_at`),
and `gather` is known in both cases.
-/
import Mathlib.Data.List.Basic

namespace Wire

inductive Item where
  | byte (b : UInt8)
  | timeout
  deriving DecidableEq, Repr

/-- The bytes of a delivery. -/
def content : List Item → List UInt8
  | [] => []
  | .byte b :: items => b :: content items
  | .timeout :: items => content items

/-- Why there are fewer bytes than wanted. -/
inductive Break where
  | timeout
  | ended
  deriving DecidableEq, Repr

/-- The next bytes, `n` of them at most; what has cut them short; and what is
still to come. -/
def gather : Nat → List Item → List UInt8 × Option Break × List Item
  | 0, items => ([], none, items)
  | _ + 1, [] => ([], some .ended, [])
  | _ + 1, .timeout :: items => ([], some .timeout, items)
  | n + 1, .byte b :: items =>
      let (bs, stop, rest) := gather n items
      (b :: bs, stop, rest)

@[simp] theorem content_map_byte (bs : List UInt8) : content (bs.map .byte) = bs := by
  induction bs with
  | nil => rfl
  | cons b bs ih => rw [List.map_cons, content, ih]

@[simp] theorem content_append (items items' : List Item) :
    content (items ++ items') = content items ++ content items' := by
  induction items with
  | nil => rfl
  | cons item items ih =>
      cases item with
      | byte b => rw [List.cons_append, content, content, ih, List.cons_append]
      | timeout => rw [List.cons_append, content, content, ih]

/-- Enough bytes in one piece. -/
theorem gather_bytes (bs : List UInt8) (rest : List Item) :
    gather bs.length (bs.map .byte ++ rest) = (bs, none, rest) := by
  induction bs with
  | nil => rfl
  | cons b bs ih => rw [List.length_cons, List.map_cons, List.cons_append, gather, ih]

theorem gather_timeout {n : Nat} {bs : List UInt8} (h : bs.length < n) (rest : List Item) :
    gather n (bs.map .byte ++ .timeout :: rest) = (bs, some .timeout, rest) := by
  induction bs generalizing n with
  | nil =>
      cases n with
      | zero => cases h
      | succ n => rfl
  | cons b bs ih =>
      cases n with
      | zero => cases h
      | succ n => rw [List.map_cons, List.cons_append, gather, ih (Nat.lt_of_succ_lt_succ h)]

theorem gather_ended {n : Nat} {bs : List UInt8} (h : bs.length < n) :
    gather n (bs.map .byte) = (bs, some .ended, []) := by
  induction bs generalizing n with
  | nil =>
      cases n with
      | zero => cases h
      | succ n => rfl
  | cons b bs ih =>
      cases n with
      | zero => cases h
      | succ n => rw [List.map_cons, gather, ih (Nat.lt_of_succ_lt_succ h)]

theorem gather_length_le (n : Nat) (items : List Item) :
    (gather n items).2.2.length ≤ items.length := by
  induction items generalizing n with
  | nil => cases n <;> exact Nat.le_refl _
  | cons item items ih =>
      cases n with
      | zero => exact Nat.le_refl _
      | succ n =>
          cases item with
          | timeout => exact Nat.le_succ _
          | byte b => exact Nat.le_succ_of_le (ih n)

/-- Something is taken off the connection, if there is anything. -/
theorem gather_length_lt (n : Nat) {items : List Item} (h : items ≠ []) :
    (gather (n + 1) items).2.2.length < items.length := by
  cases items with
  | nil => exact absurd rfl h
  | cons item items =>
      cases item with
      | timeout => exact Nat.lt_succ_self _
      | byte b => exact Nat.lt_succ_of_le (gather_length_le n items)

/-- The next `n` bytes come in one piece, or there is an interruption among
them. -/
theorem split_at {n : Nat} {items : List Item} (h : n ≤ (content items).length) :
    (∃ (bs : List UInt8) (rest : List Item), items = bs.map .byte ++ rest ∧ bs.length = n) ∨
      ∃ (bs : List UInt8) (rest : List Item),
        items = bs.map .byte ++ .timeout :: rest ∧ bs.length < n := by
  induction items generalizing n with
  | nil =>
      cases Nat.le_zero.mp h
      exact Or.inl ⟨[], [], rfl, rfl⟩
  | cons item items ih =>
      cases n with
      | zero => exact Or.inl ⟨[], item :: items, rfl, rfl⟩
      | succ n =>
          cases item with
          | timeout => exact Or.inr ⟨[], items, rfl, Nat.succ_pos n⟩
          | byte b =>
              rcases ih (Nat.le_of_succ_le_succ h) with ⟨bs, rest, rfl, rfl⟩ | ⟨bs, rest, rfl, hlt⟩
              · exact Or.inl ⟨b :: bs, rest, rfl, rfl⟩
              · exact Or.inr ⟨b :: bs, rest, rfl, Nat.succ_lt_succ hlt⟩

end Wire
