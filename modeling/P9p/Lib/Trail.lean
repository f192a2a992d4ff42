/-
# Walking in a tree

A place in a tree is a way down to it: the names taken from the top, each with
the node it has led to.  A walk takes one name after the other.  The name `up`
takes back the last step; every other name is looked up at the node where the
walk stands.  It ends early at a name that leads nowhere.

**One step at a time.**  `follow` lists the places that a walk comes to.  Walks
one behind the other are one walk (`follow_append`).

**In one pass.**  For names of which the first `n` are `up` and the others are
not, nothing in between need be visited: the walk goes back `n` steps at once,
and from there descends (`follow_map_here`, `final_eq`).
-/
import Mathlib.Data.List.Basic
import Mathlib.Data.List.GetD

namespace Trail

variable {ν α : Type}

structure Place (ν α : Type) where
  top : α
  below : List (ν × α)

namespace Place

def names (p : Place ν α) : List ν := p.below.map Prod.fst

/-- The nodes on the way, from the top. -/
def nodes (p : Place ν α) : List α := p.top :: p.below.map Prod.snd

def here (p : Place ν α) : α := (p.below.map Prod.snd).getLastD p.top

/-- `n` steps back. -/
def back (p : Place ν α) (n : Nat) : Place ν α := ⟨p.top, p.below.take (p.below.length - n)⟩

def extend (p : Place ν α) (l : List (ν × α)) : Place ν α := ⟨p.top, p.below ++ l⟩

theorem length_names (p : Place ν α) : p.names.length = p.below.length := List.length_map ..

theorem length_nodes (p : Place ν α) : p.nodes.length = p.below.length + 1 := by
  rw [nodes, List.length_cons, List.length_map]

theorem nodes_eq (p : Place ν α) : p.nodes = p.nodes.dropLast ++ [p.here] := by
  have hne : p.top :: p.below.map Prod.snd ≠ [] := List.cons_ne_nil _ _
  rw [nodes, here, ← List.getLast_eq_getLastD hne, List.dropLast_concat_getLast hne]

theorem nodes_reverse (p : Place ν α) : p.nodes.reverse = p.here :: p.nodes.dropLast.reverse := by
  conv_lhs => rw [p.nodes_eq, List.reverse_append]
  rfl

@[simp] theorem back_zero (p : Place ν α) : p.back 0 = p := by
  rw [back, Nat.sub_zero, List.take_length]

theorem length_back (p : Place ν α) (n : Nat) : (p.back n).below.length = p.below.length - n := by
  rw [back, List.length_take]
  exact Nat.min_eq_left (Nat.sub_le _ _)

theorem back_back (p : Place ν α) (m n : Nat) : (p.back m).back n = p.back (m + n) := by
  have htake : (p.back m).below.take ((p.back m).below.length - n) =
      p.below.take (p.below.length - (m + n)) := by
    rw [length_back, back, List.take_take, Nat.sub_sub]
    congr 1
    omega
  exact congrArg (Place.mk p.top) htake

theorem nodes_back (p : Place ν α) (n : Nat) :
    (p.back n).nodes = p.nodes.take (p.below.length - n + 1) := by
  rw [nodes, nodes, List.take_succ_cons, back, List.map_take]

/-- Where `n` steps back lead, among the nodes on the way. -/
theorem here_back (p : Place ν α) (n : Nat) (a : α) :
    (p.back n).here = p.nodes.getD (p.below.length - n) a := by
  have hlt : p.below.length - n < p.nodes.length := by
    rw [p.length_nodes]
    omega
  have hlast : (p.back n).nodes.getLast? = some (p.back n).here := by
    rw [(p.back n).nodes_eq, List.getLast?_concat]
  rw [nodes_back, List.take_add_one, List.getElem?_eq_getElem hlt, Option.toList_some,
    List.getLast?_concat] at hlast
  rw [List.getD_eq_getElem _ _ hlt]
  exact (Option.some.inj hlast).symm

theorem nodes_back_one {p : Place ν α} (h : p.below ≠ []) :
    (p.back 1).nodes = p.nodes.dropLast := by
  have hpos := List.length_pos_iff.mpr h
  rw [nodes_back, List.dropLast_eq_take, length_nodes]
  congr 1
  omega

theorem nodes_extend (p : Place ν α) (l : List (ν × α)) :
    (p.extend l).nodes = p.nodes ++ l.map Prod.snd := by
  rw [nodes, nodes, extend, List.map_append, List.cons_append]

theorem names_extend (p : Place ν α) (l : List (ν × α)) :
    (p.extend l).names = p.names ++ l.map Prod.fst := List.map_append

theorem names_back (p : Place ν α) (n : Nat) :
    (p.back n).names = p.names.take (p.below.length - n) := List.map_take

theorem here_extend_one (p : Place ν α) (x : ν) (a : α) : (p.extend [(x, a)]).here = a := by
  rw [here, extend, List.map_append]
  exact List.getLastD_concat

theorem extend_extend (p : Place ν α) (l l' : List (ν × α)) :
    (p.extend l).extend l' = p.extend (l ++ l') :=
  congrArg (Place.mk p.top) (List.append_assoc ..)

theorem extend_nil (p : Place ν α) : p.extend [] = p :=
  congrArg (Place.mk p.top) (List.append_nil _)

end Place

/-! ## The way down -/

section Descend

variable (look : α → ν → Option α)

/-- The nodes on the way down from `a`. -/
def descend : α → List ν → List α
  | _, [] => []
  | a, x :: xs =>
      match look a x with
      | none => []
      | some b => b :: descend b xs

theorem length_descend_le (a : α) (xs : List ν) :
    (descend look a xs).length ≤ xs.length := by
  induction xs generalizing a with
  | nil => exact Nat.le_refl 0
  | cons x xs ih =>
      rw [descend]
      cases look a x with
      | none => exact Nat.zero_le _
      | some b => exact Nat.succ_le_succ (ih b)

variable {look}

/-- What every single step down does. -/
theorem isChain_descend {R : α → α → Prop} (h : ∀ a x b, look a x = some b → R a b) (a : α)
    (xs : List ν) : (a :: descend look a xs).IsChain R := by
  induction xs generalizing a with
  | nil => exact .singleton a
  | cons x xs ih =>
      cases hlook : look a x with
      | none =>
          rw [descend, hlook]
          exact .singleton a
      | some b =>
          rw [descend, hlook]
          exact List.isChain_cons_cons.mpr ⟨h a x b hlook, ih b⟩

end Descend

/-! ## Walks -/

section Walks

variable [DecidableEq ν] (up : ν) (look : α → ν → Option α)

def step (p : Place ν α) (x : ν) : Option (Place ν α) :=
  if x = up then if p.below = [] then none else some (p.back 1)
  else (look p.here x).map fun a => p.extend [(x, a)]

/-- The places that the walk comes to. -/
def follow : Place ν α → List ν → List (Place ν α)
  | _, [] => []
  | p, x :: xs =>
      match step up look p x with
      | none => []
      | some q => q :: follow q xs

/-- Where the walk ends. -/
def final (p : Place ν α) (xs : List ν) : Place ν α := (follow up look p xs).getLastD p

variable {up look} {p q : Place ν α} {x : ν} {xs ys : List ν}

theorem follow_cons (h : step up look p x = some q) :
    follow up look p (x :: xs) = q :: follow up look q xs := by
  rw [follow, h]

theorem follow_stop (h : step up look p x = none) : follow up look p (x :: xs) = [] := by
  rw [follow, h]

theorem final_cons (h : step up look p x = some q) :
    final up look p (x :: xs) = final up look q xs := by
  rw [final, follow_cons h, List.getLastD_cons, final]

/-- Walks one behind the other. -/
theorem follow_append (h : (follow up look p xs).length = xs.length) (ys : List ν) :
    follow up look p (xs ++ ys) =
      follow up look p xs ++ follow up look (final up look p xs) ys := by
  induction xs generalizing p with
  | nil => rfl
  | cons x xs ih =>
      cases hstep : step up look p x with
      | none =>
          rw [follow_stop hstep] at h
          cases h
      | some q =>
          rw [follow_cons hstep, List.length_cons, List.length_cons, Nat.succ.injEq] at h
          rw [List.cons_append, follow_cons hstep, follow_cons hstep, final_cons hstep, ih h,
            List.cons_append]

theorem final_append (h : (follow up look p xs).length = xs.length) (ys : List ν) :
    final up look p (xs ++ ys) = final up look (final up look p xs) ys := by
  induction xs generalizing p with
  | nil => rfl
  | cons x xs ih =>
      cases hstep : step up look p x with
      | none =>
          rw [follow_stop hstep] at h
          cases h
      | some q =>
          rw [follow_cons hstep, List.length_cons, List.length_cons, Nat.succ.injEq] at h
          rw [List.cons_append, final_cons hstep, final_cons hstep, ih h]

/-! ## In one pass -/

theorem step_up (h : p.below ≠ []) : step up look p up = some (p.back 1) := by
  rw [step, if_pos rfl, if_neg h]

theorem step_down (h : x ≠ up) :
    step up look p x = (look p.here x).map fun a => p.extend [(x, a)] := if_neg h

/-- Back, one step at a time. -/
theorem follow_up {n : Nat} (h : n ≤ p.below.length) :
    (follow up look p (List.replicate n up)).map Place.here = p.nodes.dropLast.reverse.take n ∧
      final up look p (List.replicate n up) = p.back n := by
  induction n generalizing p with
  | zero =>
      rw [List.take_zero, p.back_zero]
      exact ⟨rfl, rfl⟩
  | succ n ih =>
      have hne : p.below ≠ [] := List.ne_nil_of_length_pos (Nat.lt_of_lt_of_le (Nat.succ_pos n) h)
      have hstep : step up look p up = some (p.back 1) := step_up hne
      obtain ⟨hnodes, hfinal⟩ := @ih (p.back 1) (by rw [p.length_back]; omega)
      rw [List.replicate_succ, follow_cons hstep, final_cons hstep, hfinal, p.back_back,
        Nat.add_comm 1 n, List.map_cons, hnodes, ← Place.nodes_back_one hne,
        (p.back 1).nodes_reverse, List.take_succ_cons]
      exact ⟨rfl, rfl⟩

/-- And down. -/
theorem follow_down (h : ∀ x ∈ xs, x ≠ up) :
    (follow up look p xs).map Place.here = descend look p.here xs ∧
      final up look p xs = p.extend (xs.zip (descend look p.here xs)) := by
  induction xs generalizing p with
  | nil => exact ⟨rfl, p.extend_nil.symm⟩
  | cons x xs ih =>
      obtain ⟨hx, hxs⟩ := List.forall_mem_cons.mp h
      have hstep : step up look p x = (look p.here x).map _ := step_down hx
      cases hlook : look p.here x with
      | none =>
          rw [hlook] at hstep
          rw [final, follow_stop hstep, descend, hlook]
          exact ⟨rfl, p.extend_nil.symm⟩
      | some a =>
          rw [hlook] at hstep
          obtain ⟨hnodes, hfinal⟩ := @ih (p.extend [(x, a)]) hxs
          rw [p.here_extend_one] at hnodes hfinal
          rw [follow_cons hstep, final_cons hstep, descend, hlook, List.map_cons, hnodes, hfinal,
            p.here_extend_one, p.extend_extend]
          exact ⟨rfl, rfl⟩

variable {n : Nat}

theorem length_follow_up (h : n ≤ p.below.length) :
    (follow up look p (List.replicate n up)).length = (List.replicate n up).length := by
  have hnodes : ((follow up look p (List.replicate n up)).map Place.here).length = _ :=
    congrArg List.length (follow_up h).1
  rw [List.length_map, List.length_take, List.length_reverse, List.length_dropLast,
    p.length_nodes] at hnodes
  rw [hnodes, List.length_replicate]
  omega

theorem follow_map_here (h : n ≤ p.below.length) (hxs : ∀ x ∈ xs, x ≠ up) :
    (follow up look p (List.replicate n up ++ xs)).map Place.here =
      p.nodes.dropLast.reverse.take n ++ descend look (p.back n).here xs := by
  rw [follow_append (length_follow_up h), List.map_append, (follow_up h).1, (follow_up h).2,
    (follow_down hxs).1]

theorem final_eq (h : n ≤ p.below.length) (hxs : ∀ x ∈ xs, x ≠ up) :
    final up look p (List.replicate n up ++ xs) =
      (p.back n).extend (xs.zip (descend look (p.back n).here xs)) := by
  rw [final_append (length_follow_up h), (follow_up h).2, (follow_down hxs).2]

end Walks

end Trail
