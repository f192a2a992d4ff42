/-
# Counting what is held

A thing that is referred to from many places counts the references to it.  To
compare the count with the references one has to add them up: over the values
of a map, over the cells of a store, over the threads of a pool.  Each lemma
here says what such a sum becomes if one place changes.

    perm_values          a map gives up or takes in a value
    sum_map_set          one element of a list changes
    sum_range_update     one cell of finitely many changes
    Total.update         one thread changes what it holds
-/
import Mathlib.Algebra.BigOperators.Group.Finset.Basic
import Mathlib.Algebra.GroupWithZero.Nat
import Mathlib.Data.List.AList
import Mathlib.Logic.Function.Basic

namespace Tally

/-! ## Maps -/

section Maps

variable {α β : Type} [DecidableEq α] {a : α} {b b' : β} {m : AList fun _ : α => β}

/-- The values of a map, in the order of its entries. -/
def values (m : AList fun _ : α => β) : List β := m.entries.map Sigma.snd

theorem values_insert : values (m.insert a b) = b :: values (m.erase a) := by
  rw [values, AList.entries_insert]
  rfl

theorem values_erase : values (m.erase a) = (m.entries.kerase a).map Sigma.snd := rfl

theorem perm_values (h : m.lookup a = some b) : (values m).Perm (b :: values (m.erase a)) := by
  have hkey : a ∈ m.entries.keys := AList.lookup_isSome.mp (Option.isSome_of_mem h)
  obtain ⟨b₀, l₁, l₂, hfst, hentries, herase⟩ := List.exists_of_kerase hkey
  have hb : b₀ = b := by
    have hmem : (⟨a, b₀⟩ : Sigma fun _ : α => β) ∈ m.entries := by
      rw [hentries]
      exact List.mem_append_right _ List.mem_cons_self
    exact Option.some.inj ((List.mem_dlookup m.nodupKeys hmem).symm.trans h)
  subst hb
  rw [values_erase, herase, values, hentries, List.map_append, List.map_append, List.map_cons]
  exact List.perm_middle

theorem values_erase_of_none (h : m.lookup a = none) : values (m.erase a) = values m := by
  rw [values_erase, List.kerase_of_notMem_keys (AList.lookup_eq_none.mp h), values]

theorem mem_values : b ∈ values m ↔ ∃ a, m.lookup a = some b := by
  rw [values, List.mem_map]
  constructor
  · rintro ⟨⟨a, b⟩, hmem, rfl⟩
    exact ⟨a, List.mem_dlookup m.nodupKeys hmem⟩
  · rintro ⟨a, h⟩
    exact ⟨⟨a, b⟩, List.of_mem_dlookup h, rfl⟩

end Maps

/-! ## Lists -/

section Lists

variable {α : Type} (w : α → Nat)

theorem sum_map_set {l : List α} {i : Nat} {x : α} (h : l[i]? = some x) (y : α) :
    ((l.set i y).map w).sum + w x = (l.map w).sum + w y := by
  induction l generalizing i with
  | nil => cases h
  | cons a l ih =>
      cases i with
      | zero =>
          cases h
          simp only [List.set_cons_zero, List.map_cons, List.sum_cons]
          omega
      | succ i =>
          have hl := ih (i := i) h
          simp only [List.set_cons_succ, List.map_cons, List.sum_cons]
          omega

/-- Changes that no weight sees. -/
theorem sum_map_mapIdx {l : List α} {f : Nat → α → α} (h : ∀ i x, w (f i x) = w x) :
    ((l.mapIdx f).map w).sum = (l.map w).sum := by
  have heq : (l.mapIdx f).map w = l.map w := by
    refine List.ext_getElem? fun i => ?_
    rw [List.getElem?_map, List.getElem?_mapIdx, List.getElem?_map, Option.map_map]
    exact congrArg (Option.map · _) (funext (h i))
  rw [heq]

end Lists

/-! ## Cells and threads -/

/-- If only the cell `q` changes. -/
theorem sum_range_update {N q : Nat} {g g' : Nat → Nat} (hq : q < N)
    (h : ∀ p, p ≠ q → g' p = g p) :
    ∑ p ∈ Finset.range N, g' p + g q = ∑ p ∈ Finset.range N, g p + g' q := by
  have hmem : q ∈ Finset.range N := Finset.mem_range.mpr hq
  have hrest : ∑ p ∈ (Finset.range N).erase q, g' p = ∑ p ∈ (Finset.range N).erase q, g p :=
    Finset.sum_congr rfl fun p hp => h p (Finset.ne_of_mem_erase hp)
  rw [← Finset.add_sum_erase _ g hmem, ← Finset.add_sum_erase _ g' hmem, hrest]
  omega

section Threads

variable {ρ : Type} {w : ρ → Nat} {f : Nat → ρ} {k k' : Nat} {o : ρ} {t : Nat}

/-- Together the threads hold `k`.  Only finitely many hold anything. -/
def Total (w : ρ → Nat) (f : Nat → ρ) (k : Nat) : Prop :=
  ∃ N, (∀ t, N ≤ t → w (f t) = 0) ∧ ∑ t ∈ Finset.range N, w (f t) = k

theorem Total.zero (h : ∀ t, w (f t) = 0) : Total w f 0 := ⟨0, fun t _ => h t, rfl⟩

theorem Total.eq_zero (h : Total w f k) (hzero : ∀ t, w (f t) = 0) : k = 0 := by
  obtain ⟨N, -, rfl⟩ := h
  exact Finset.sum_eq_zero fun t _ => hzero t

/-- The bound can be raised. -/
theorem Total.above (h : Total w f k) (t : Nat) :
    ∃ N, t < N ∧ (∀ u, N ≤ u → w (f u) = 0) ∧ ∑ u ∈ Finset.range N, w (f u) = k := by
  obtain ⟨N, hzero, hsum⟩ := h
  refine ⟨max N (t + 1), by omega, fun u hu => hzero u (by omega), ?_⟩
  rw [← hsum]
  refine (Finset.sum_subset (Finset.range_mono (Nat.le_max_left _ _)) fun u _ hu => ?_).symm
  exact hzero u (by simpa using hu)

theorem Total.le (h : Total w f k) (t : Nat) : w (f t) ≤ k := by
  obtain ⟨N, hlt, -, rfl⟩ := h.above t
  rw [← Finset.add_sum_erase _ _ (Finset.mem_range.mpr hlt)]
  exact Nat.le_add_right _ _

theorem Total.update (h : Total w f k) (heq : k' + w (f t) = k + w o) :
    Total w (Function.update f t o) k' := by
  obtain ⟨N, hlt, hzero, hsum⟩ := h.above t
  have hold : ∀ u, u ≠ t → w (Function.update f t o u) = w (f u) := by
    intro u hu
    rw [Function.update_of_ne hu]
  refine ⟨N, fun u hu => ?_, ?_⟩
  · rw [hold u (by omega)]
    exact hzero u hu
  · have := sum_range_update (g := fun u => w (f u)) hlt hold
    rw [Function.update_self] at this
    omega

end Threads

end Tally
