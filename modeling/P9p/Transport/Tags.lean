/-
# `P9p.Transport.Tags` — a free tag is found

`allocateTag` tries 65535 tags, each the successor of the one before, where the
successor leaves out `NOTAG`.

    hint ──▸ hint + 1 ──▸ ... ──▸ 65534 ──▸ 0 ──▸ 1 ──▸ ...

From the second tag on this is counting modulo 65535 (`iterate_nextHint`), so
every tag but `NOTAG` is tried, wherever the search starts (`nextHint_visits`).
A search that finds nothing has therefore found 65535 tags taken, and so many
have been refused before the search (`taken_iff`).

Requests do not get `NOTAG`, so the tables of a run of `handle` are of the kind
that `allocateTag` asks for (`noTag_notMem`).
-/
import P9p.Transport
import Mathlib.Logic.Function.Iterate
import Mathlib.Data.List.Perm.Subperm

namespace P9p.Transport

open Conc

/-! ## The order of the search -/

theorem toNat_lt_noTag {t : Tag} (h : t ≠ noTag) : t.toNat < 65535 := by
  have hlt : t.toNat < 65536 := t.toNat_lt
  have hne : t.toNat ≠ 65535 := fun heq => h (UInt16.toNat_inj.mp heq)
  omega

theorem nextHint_ne (hint : Tag) : nextHint hint ≠ noTag := by
  unfold nextHint
  split
  · decide
  · assumption

theorem nextHint_toNat {t : Tag} (h : t ≠ noTag) : (nextHint t).toNat = (t.toNat + 1) % 65535 := by
  have hlt := toNat_lt_noTag h
  have hsucc : (t + 1).toNat = t.toNat + 1 := by
    rw [UInt16.toNat_add]
    show (t.toNat + 1) % 65536 = _
    omega
  unfold nextHint
  split
  · rename_i heq
    rw [heq] at hsucc
    have hlast : 65535 = t.toNat + 1 := hsucc
    show 0 = _
    omega
  · rename_i hne
    have hlt' := toNat_lt_noTag hne
    rw [hsucc] at hlt' ⊢
    omega

/-- After its first step the search counts modulo 65535. -/
theorem iterate_nextHint (hint : Tag) (k : Nat) :
    nextHint^[k + 1] hint ≠ noTag ∧
      (nextHint^[k + 1] hint).toNat = ((nextHint hint).toNat + k) % 65535 := by
  induction k with
  | zero =>
      have hlt := toNat_lt_noTag (nextHint_ne hint)
      exact ⟨nextHint_ne hint, (Nat.mod_eq_of_lt hlt).symm⟩
  | succ k ih =>
      obtain ⟨hne, hk⟩ := ih
      rw [Function.iterate_succ_apply']
      refine ⟨nextHint_ne _, ?_⟩
      rw [nextHint_toNat hne, hk]
      omega

/-- Every tag but `NOTAG` is tried. -/
theorem nextHint_visits (hint : Tag) {t : Tag} (h : t ≠ noTag) :
    ∃ k < 65535, nextHint^[k + 1] hint = t := by
  have ht := toNat_lt_noTag h
  have hfirst := toNat_lt_noTag (nextHint_ne hint)
  refine ⟨(t.toNat + 65535 - (nextHint hint).toNat) % 65535, Nat.mod_lt _ (by decide), ?_⟩
  apply UInt16.toNat_inj.mp
  rw [(iterate_nextHint hint _).2]
  omega

/-! ## The search -/

section Search

variable {β : Type} {m : AList fun _ : Tag => β} {n : Nat} {hint t : Tag}

theorem searchTag_eq_none_iff :
    searchTag m n hint = none ↔ ∀ k < n, nextHint^[k + 1] hint ∈ m := by
  induction n generalizing hint with
  | zero => exact ⟨fun _ k hk => absurd hk (Nat.not_lt_zero k), fun _ => rfl⟩
  | succ n ih =>
      rw [searchTag]
      by_cases hmem : nextHint hint ∈ m
      · rw [if_pos (AList.lookup_isSome.mpr hmem), ih]
        constructor
        · intro h k hk
          cases k with
          | zero => exact hmem
          | succ k => exact h k (Nat.lt_of_succ_lt_succ hk)
        · exact fun h k hk => h (k + 1) (Nat.succ_lt_succ hk)
      · rw [if_neg (mt AList.lookup_isSome.mp hmem)]
        exact ⟨fun h => (by cases h), fun h => absurd (h 0 (Nat.succ_pos n)) hmem⟩

theorem searchTag_ne (h : searchTag m n hint = some t) : t ≠ noTag := by
  induction n generalizing hint with
  | zero => cases h
  | succ n ih =>
      rw [searchTag] at h
      split at h
      · exact ih h
      · cases h
        exact nextHint_ne hint

/-- A full search finds nothing only if there is nothing. -/
theorem searchTag_full : searchTag m 0xFFFF hint = none ↔ ∀ t, t ≠ noTag → t ∈ m := by
  rw [searchTag_eq_none_iff]
  constructor
  · intro h t ht
    obtain ⟨k, hk, rfl⟩ := nextHint_visits hint ht
    exact h k hk
  · exact fun h k _ => h _ (iterate_nextHint hint k).1

/-! ## Counting -/

/-- All tags but `NOTAG`. -/
def tags : List Tag := (List.range 65535).map UInt16.ofNat

theorem toNat_ofNat_tag {x : Nat} (h : x < 65535) : (UInt16.ofNat x).toNat = x :=
  UInt16.toNat_ofNat_of_lt' (Nat.lt_succ_of_lt h)

theorem mem_tags : t ∈ tags ↔ t ≠ noTag := by
  constructor
  · rintro h rfl
    obtain ⟨x, hx, heq⟩ := List.mem_map.mp h
    have hlt := List.mem_range.mp hx
    have htoNat : (UInt16.ofNat x).toNat = x := toNat_ofNat_tag hlt
    have hnoTag : (noTag : Tag).toNat = 65535 := rfl
    rw [← heq, htoNat] at hnoTag
    omega
  · intro h
    exact List.mem_map.mpr ⟨t.toNat, List.mem_range.mpr (toNat_lt_noTag h), UInt16.ofNat_toNat⟩

theorem length_tags : tags.length = 65535 := by
  rw [tags, List.length_map, List.length_range]

theorem nodup_tags : tags.Nodup := by
  refine List.Nodup.map_on ?_ List.nodup_range
  intro x hx y hy heq
  have hx := List.mem_range.mp hx
  have hy := List.mem_range.mp hy
  have hxy := congrArg UInt16.toNat heq
  rwa [toNat_ofNat_tag hx, toNat_ofNat_tag hy] at hxy

/-- A table without `NOTAG` holds all other tags exactly if it has 65535 keys. -/
theorem taken_iff (hm : noTag ∉ m) : 65535 ≤ m.entries.length ↔ ∀ t, t ≠ noTag → t ∈ m := by
  have hlen : m.keys.length = m.entries.length := List.length_map ..
  rw [← hlen]
  constructor
  · intro h t ht
    have hsub : m.keys ⊆ tags := fun t hmem => mem_tags.mpr fun heq => hm (heq ▸ hmem)
    have hperm := (List.subperm_of_subset m.keys_nodup hsub).perm_of_length_le
      (by rw [length_tags]; exact h)
    exact hperm.mem_iff.mpr (mem_tags.mpr ht)
  · intro h
    have hsub : tags ⊆ m.keys := fun t ht => h t (mem_tags.mp ht)
    exact length_tags ▸ (List.subperm_of_subset nodup_tags hsub).length_le

/-- The error that `allocateTag` does not expect does not come. -/
theorem allocateTag_cases (hm : noTag ∉ m) (hint : Tag) :
    (m.entries.length < 65535 ∧ ∃ t, allocateTag m hint = .ok t ∧ t ≠ noTag ∧ t ∉ m) ∨
    (65535 ≤ m.entries.length ∧
      allocateTag m hint = .error (.other (lit "tag pool depleted"))) := by
  rcases Nat.lt_or_ge m.entries.length 65535 with hlt | hge
  · left
    refine ⟨hlt, ?_⟩
    rw [allocateTag, if_neg (Nat.not_le.mpr hlt)]
    cases hs : searchTag m 0xFFFF hint with
    | none => exact absurd ((taken_iff hm).mpr (searchTag_full.mp hs)) (Nat.not_le.mpr hlt)
    | some t =>
        exact ⟨t, rfl, searchTag_ne hs, AList.lookup_eq_none.mp (searchTag_free hs)⟩
  · exact Or.inr ⟨hge, if_pos hge⟩

end Search

/-- **A free tag is found** whenever there is one.  There is none exactly if all
65535 are taken, which is an error of its own. -/
theorem allocateTag_finds {β : Type} (m : AList fun _ : Tag => β) (hint : Tag) (hm : noTag ∉ m) :
    (m.entries.length < 65535 → ∃ t, allocateTag m hint = .ok t ∧ t ≠ noTag ∧ t ∉ m) ∧
      ((∃ err, allocateTag m hint = .error err) ↔ ∀ t, t ≠ noTag → t ∈ m) ∧
      allocateTag m hint ≠ .error (.other (lit "allocateTag: unexpected error")) := by
  rw [← taken_iff hm]
  rcases allocateTag_cases hm hint with ⟨hlt, t, hok, hfree⟩ | ⟨hge, herr⟩
  · refine ⟨fun _ => ⟨t, hok, hfree⟩, ?_, by rw [hok]; nofun⟩
    rw [hok]
    exact ⟨nofun, fun h => absurd hlt (Nat.not_lt.mpr h)⟩
  · refine ⟨fun h => absurd hge (Nat.not_le.mpr h), ⟨fun _ => hge, fun _ => ⟨_, herr⟩⟩, ?_⟩
    rw [herr]
    decide

/-- Tag 0 is taken. -/
def zeroTaken : AList fun _ : Tag => Nat := AList.singleton 0 0

/-- The hint is the tag before `NOTAG`. -/
theorem allocateTag_finds_wraps :
    noTag ∉ zeroTaken ∧
      ∃ t, allocateTag zeroTaken 0xFFFE = .ok t ∧ t ≠ noTag ∧ t ∉ zeroTaken :=
  ⟨by decide, (allocateTag_finds zeroTaken 0xFFFE (by decide)).1 (by decide)⟩

/-! ## The tables of a run -/

theorem noTag_notMem_step {s s' : State} {a : Act} (h : noTag ∉ s.outstanding)
    (hstep : Step s a s') : noTag ∉ s'.outstanding := by
  have herase : ∀ t, noTag ∉ s.outstanding.erase t := fun t hmem => h (AList.mem_erase.mp hmem).2
  cases hstep with
  | @dispatch r q t _ _ _ halloc =>
      intro hmem
      rcases (AList.mem_insert _).mp hmem with heq | hmem
      · rcases allocateTag_cases h s.selected with ⟨-, t', hok, hne, -⟩ | ⟨-, herr⟩
        · cases halloc.symm.trans hok
          exact hne heq.symm
        · cases halloc.symm.trans herr
      · exact h hmem
  | writeFail _ => exact herase _
  | deliver _ _ _ => exact herase _
  | _ => exact h

/-- Whatever the callers, the reader and the peer do, `allocateTag` gets a table
without `NOTAG`. -/
theorem noTag_notMem {s : State} (h : Reachable step init s) : noTag ∉ s.outstanding :=
  reachable_invariant (fun hI hs => noTag_notMem_step hI (step_cases hs)) (AList.notMem_empty _) h

end P9p.Transport
