/-
# Custody of resources

Holders take resources into their custody and give them up.  A resource is
obtained when a holder acquires it, and released when the holder lets go of it;
a holder may exchange its resource for a new one.

**Linearity.**  In `Sound` states no resource is obtained twice or released
twice, each is held by at most one holder, and each is either released or
held.  All steps keep that (`Step.sound`), so once nobody holds anything,
everything obtained has been released exactly once (`Sound.released_once`).
-/
import Mathlib.Data.List.Nodup
import Mathlib.Logic.Function.Basic
import Mathlib.Logic.Relation

namespace Conc

/-- Who holds what, and what was obtained and released so far. -/
structure Custody (K D : Type) where
  holds : K → Option D
  obtained : List D
  released : List D

namespace Custody

variable {K D : Type} {c c' : Custody K D}

inductive Step [DecidableEq K] : Custody K D → Custody K D → Prop
  | acquire (c : Custody K D) {k : K} {d : D} (hk : c.holds k = none) (hd : d ∉ c.obtained) :
      Step c ⟨Function.update c.holds k (some d), c.obtained ++ [d], c.released⟩
  | exchange (c : Custody K D) {k : K} {d d' : D} (hk : c.holds k = some d)
      (hd : d' ∉ c.obtained) :
      Step c ⟨Function.update c.holds k (some d'), c.obtained ++ [d'], c.released ++ [d]⟩
  | release (c : Custody K D) {k : K} {d : D} (hk : c.holds k = some d) :
      Step c ⟨Function.update c.holds k none, c.obtained, c.released ++ [d]⟩

structure Sound (c : Custody K D) : Prop where
  obtained : c.obtained.Nodup
  released : c.released.Nodup
  sub : c.released ⊆ c.obtained
  unique : ∀ k k' d, c.holds k = some d → c.holds k' = some d → k = k'
  held : ∀ k d, c.holds k = some d → d ∈ c.obtained ∧ d ∉ c.released
  kept : ∀ d ∈ c.obtained, d ∈ c.released ∨ ∃ k, c.holds k = some d

theorem Sound.empty : Sound (⟨fun _ => none, [], []⟩ : Custody K D) :=
  ⟨List.nodup_nil, List.nodup_nil, List.Subset.refl _, nofun, nofun, nofun⟩

/-- Nobody holds anything: what was obtained has been released exactly once. -/
theorem Sound.released_once [DecidableEq D] (h : c.Sound) (hnone : ∀ k, c.holds k = none) :
    ∀ d ∈ c.obtained, c.released.count d = 1 := by
  intro d hd
  rcases h.kept d hd with hr | ⟨k, hk⟩
  · exact List.count_eq_one_of_mem h.released hr
  · cases (hnone k).symm.trans hk

/-! ## The steps -/

variable [DecidableEq K]

theorem nodup_snoc {l : List D} {d : D} (hl : l.Nodup) (hd : d ∉ l) : (l ++ [d]).Nodup :=
  List.nodup_append.mpr ⟨hl, List.nodup_singleton d, fun _ hx _ hy =>
    List.mem_singleton.mp hy ▸ fun heq => hd (heq ▸ hx)⟩

theorem of_update_eq_some {f : K → Option D} {k k' : K} {o : Option D} {d : D}
    (h : Function.update f k o k' = some d) : k' = k ∧ o = some d ∨ k' ≠ k ∧ f k' = some d := by
  rcases eq_or_ne k' k with rfl | hne
  · rw [Function.update_self] at h
    exact Or.inl ⟨rfl, h⟩
  · rw [Function.update_of_ne hne] at h
    exact Or.inr ⟨hne, h⟩

/-- `k` acquires `d`. -/
theorem Sound.acquire (h : c.Sound) {k : K} {d : D} (hk : c.holds k = none)
    (hd : d ∉ c.obtained) :
    Sound ⟨Function.update c.holds k (some d), c.obtained ++ [d], c.released⟩ where
  obtained := nodup_snoc h.obtained hd
  released := h.released
  sub := List.subset_append_of_subset_left _ h.sub
  unique := by
    intro k₁ k₂ d' h₁ h₂
    rcases of_update_eq_some h₁ with ⟨hk₁, he₁⟩ | ⟨-, hold₁⟩ <;>
      rcases of_update_eq_some h₂ with ⟨hk₂, he₂⟩ | ⟨-, hold₂⟩
    · exact hk₁.trans hk₂.symm
    · cases he₁
      exact absurd (h.held k₂ d hold₂).1 hd
    · cases he₂
      exact absurd (h.held k₁ d hold₁).1 hd
    · exact h.unique k₁ k₂ d' hold₁ hold₂
  held := by
    rw [Function.forall_update_iff c.holds fun _ o =>
      ∀ d', o = some d' → d' ∈ c.obtained ++ [d] ∧ d' ∉ c.released]
    constructor
    · rintro _ ⟨⟩
      exact ⟨List.mem_append_right _ (List.mem_singleton_self d), fun hr => hd (h.sub hr)⟩
    · intro k' _ d' hk'
      exact ⟨List.mem_append_left _ (h.held k' d' hk').1, (h.held k' d' hk').2⟩
  kept := by
    intro d' hd'
    rcases List.mem_append.mp hd' with hd' | hd'
    · refine (h.kept d' hd').imp id ?_
      rintro ⟨k', hk'⟩
      have hne : k' ≠ k := by
        rintro rfl
        cases hk.symm.trans hk'
      exact ⟨k', (Function.update_of_ne hne ..).trans hk'⟩
    · cases List.mem_singleton.mp hd'
      exact Or.inr ⟨k, Function.update_self ..⟩

/-- `k` gives `d` up. -/
theorem Sound.release (h : c.Sound) {k : K} {d : D} (hk : c.holds k = some d) :
    Sound ⟨Function.update c.holds k none, c.obtained, c.released ++ [d]⟩ where
  obtained := h.obtained
  released := nodup_snoc h.released (h.held k d hk).2
  sub := List.append_subset.mpr ⟨h.sub, by
    intro d' hd'
    cases List.mem_singleton.mp hd'
    exact (h.held k d hk).1⟩
  unique := by
    intro k₁ k₂ d' h₁ h₂
    rcases of_update_eq_some h₁ with ⟨-, he⟩ | ⟨-, h₁⟩
    · cases he
    · rcases of_update_eq_some h₂ with ⟨-, he⟩ | ⟨-, h₂⟩
      · cases he
      · exact h.unique k₁ k₂ d' h₁ h₂
  held := by
    rw [Function.forall_update_iff c.holds fun _ o =>
      ∀ d', o = some d' → d' ∈ c.obtained ∧ d' ∉ c.released ++ [d]]
    refine ⟨nofun, fun k' hne d' hk' => ⟨(h.held k' d' hk').1, fun hr => ?_⟩⟩
    rcases List.mem_append.mp hr with hr | hr
    · exact (h.held k' d' hk').2 hr
    · cases List.mem_singleton.mp hr
      exact hne (h.unique k' k d hk' hk)
  kept := by
    intro d' hd'
    rcases h.kept d' hd' with hr | ⟨k', hk'⟩
    · exact Or.inl (List.mem_append_left _ hr)
    · rcases eq_or_ne k' k with rfl | hne
      · cases hk.symm.trans hk'
        exact Or.inl (List.mem_append_right _ (List.mem_singleton_self d))
      · exact Or.inr ⟨k', (Function.update_of_ne hne ..).trans hk'⟩

/-- An exchange is a release, and then an acquisition. -/
theorem Step.sound (hs : Step c c') (h : c.Sound) : c'.Sound := by
  cases hs with
  | acquire hk hd => exact h.acquire hk hd
  | exchange hk hd =>
      have := (h.release hk).acquire (Function.update_self ..) hd
      rwa [Function.update_idem] at this
  | release hk => exact h.release hk

end Custody

end Conc
