/-
# Runs of a labelled step function

A system is a partial function `step : σ → α → Option σ`: the action names
every choice, of the scheduler and of the environment, so that an action
determines the next state or is not enabled.  A run is a list of actions, and
a property of all runs is a property of all lists.

Two ways to use it.  `exec_invariant` is the rule for what holds in every
reachable state.  `Guarded` restricts a run to steps that meet a condition in
the state they are taken in, for properties that hold as long as no step of a
certain kind occurs.
-/
import Mathlib.Logic.Function.Basic

namespace Conc

variable {σ α : Type} (step : σ → α → Option σ)

/-- The state after taking the actions in order, if all are enabled. -/
def exec : σ → List α → Option σ
  | s, [] => some s
  | s, a :: as => (step s a).bind fun s' => exec s' as

/-- Every step of the run meets `C` in the state it is taken in. -/
def Guarded (C : σ → α → Prop) : σ → List α → Prop
  | _, [] => True
  | s, a :: as => C s a ∧ ∀ s', step s a = some s' → Guarded C s' as

/-- `P` holds in every state the run passes through. -/
def Along (P : σ → Prop) : σ → List α → Prop
  | s, [] => P s
  | s, a :: as => P s ∧ ∀ s', step s a = some s' → Along P s' as

/-- `s` is reached from `s₀` by some run. -/
def Reachable (s₀ s : σ) : Prop := ∃ as, exec step s₀ as = some s

variable {step} {C : σ → α → Prop}

theorem exec_cons_eq_some {s t : σ} {a : α} {as : List α}
    (h : exec step s (a :: as) = some t) :
    ∃ s', step s a = some s' ∧ exec step s' as = some t := by
  rw [exec, Option.bind_eq_some_iff] at h
  exact h

theorem guarded_cons {s s' : σ} {a : α} {as : List α} (ha : C s a) (hs : step s a = some s')
    (h : Guarded step C s' as) : Guarded step C s (a :: as) :=
  ⟨ha, fun _ hu => Option.some.inj (hs.symm.trans hu) ▸ h⟩

theorem guarded_of_forall (h : ∀ s a, C s a) (s : σ) (as : List α) : Guarded step C s as := by
  induction as generalizing s with
  | nil => trivial
  | cons a as ih => exact ⟨h s a, fun s' _ => ih s'⟩

theorem guarded_of_mem {as : List α} (h : ∀ a ∈ as, ∀ s, C s a) (s : σ) :
    Guarded step C s as := by
  induction as generalizing s with
  | nil => trivial
  | cons a as ih =>
      exact ⟨h a List.mem_cons_self s,
        fun s' _ => ih (fun b hb => h b (List.mem_cons_of_mem a hb)) s'⟩

/-- What holds at the start and is kept by every guarded step holds after
every guarded run. -/
theorem exec_invariant {I : σ → Prop}
    (hstep : ∀ {s a s'}, I s → C s a → step s a = some s' → I s') :
    ∀ (as : List α) {s₀ s : σ}, I s₀ → Guarded step C s₀ as → exec step s₀ as = some s → I s
  | [], _, _, h, _, hrun => by cases hrun; exact h
  | a :: as, s₀, s, h, hg, hrun => by
      obtain ⟨s', hs', hrun'⟩ := exec_cons_eq_some hrun
      exact exec_invariant hstep as (hstep h hg.1 hs') (hg.2 s' hs') hrun'

/-- What holds at the start and is kept by every step holds in every
reachable state. -/
theorem reachable_invariant {I : σ → Prop}
    (hstep : ∀ {s a s'}, I s → step s a = some s' → I s') {s₀ s : σ} (h₀ : I s₀)
    (h : Reachable step s₀ s) : I s := by
  obtain ⟨as, hrun⟩ := h
  exact exec_invariant (C := fun _ _ => True) (fun hI _ hs => hstep hI hs) as h₀
    (guarded_of_forall (fun _ _ => trivial) s₀ as) hrun

theorem exec_append (s : σ) (as bs : List α) :
    exec step s (as ++ bs) = (exec step s as).bind fun t => exec step t bs := by
  induction as generalizing s with
  | nil => rfl
  | cons a as ih =>
      rw [List.cons_append, exec, exec, Option.bind_assoc]
      exact congrArg _ (funext fun s' => ih s')

/-- If guarded steps are always enabled, so are guarded runs. -/
theorem Guarded.exec_eq_some {I : σ → Prop}
    (hstep : ∀ {s a}, I s → C s a → ∃ s', step s a = some s' ∧ I s') :
    ∀ {as : List α} {s₀ : σ}, Guarded step C s₀ as → I s₀ → ∃ s, exec step s₀ as = some s ∧ I s
  | [], s₀, _, h => ⟨s₀, rfl, h⟩
  | a :: as, s₀, hg, h => by
      obtain ⟨s', hs', h'⟩ := hstep h hg.1
      obtain ⟨s, hs, hI⟩ := Guarded.exec_eq_some hstep (hg.2 s' hs') h'
      exact ⟨s, by rw [exec, hs', Option.bind_some, hs], hI⟩

/-- If every guarded step lowers a measure, guarded runs are no longer than it
is at their start. -/
theorem Guarded.length_le (m : σ → Nat)
    (hstep : ∀ {s a s'}, C s a → step s a = some s' → m s' < m s) {as : List α} {s t : σ}
    (hg : Guarded step C s as) (hrun : exec step s as = some t) : as.length + m t ≤ m s := by
  induction as generalizing s with
  | nil =>
      cases hrun
      simp
  | cons a as ih =>
      obtain ⟨s', hs', hrun'⟩ := exec_cons_eq_some hrun
      have hlt := hstep hg.1 hs'
      have hle := ih (hg.2 s' hs') hrun'
      rw [List.length_cons]
      omega

/-- Where a condition decides at each step whether `P` is kept, the runs that
keep `P` throughout are those whose steps all meet it. -/
theorem along_iff_guarded {P : σ → Prop}
    (hstep : ∀ {s a s'}, P s → step s a = some s' → (P s' ↔ C s a)) :
    ∀ (as : List α) {s t : σ}, P s → exec step s as = some t →
      (Along step P s as ↔ Guarded step C s as)
  | [], s, _, hs, _ => ⟨fun _ => trivial, fun _ => hs⟩
  | a :: as, s, t, hs, hrun => by
      obtain ⟨s', hs', hrun'⟩ := exec_cons_eq_some hrun
      have hnext : ∀ {Q : σ → Prop}, (∀ u, step s a = some u → Q u) ↔ Q s' := by
        intro Q
        exact ⟨fun h => h s' hs', fun h u hu => Option.some.inj (hs'.symm.trans hu) ▸ h⟩
      rw [Along, Guarded, hnext, hnext]
      constructor
      · rintro ⟨-, halong⟩
        have hP : P s' := by
          cases as with
          | nil => exact halong
          | cons b bs => exact halong.1
        exact ⟨(hstep hs hs').mp hP, (along_iff_guarded hstep as hP hrun').mp halong⟩
      · rintro ⟨hC, hg⟩
        have hP : P s' := (hstep hs hs').mpr hC
        exact ⟨hs, (along_iff_guarded hstep as hP hrun').mpr hg⟩

/-- If besides what breaks `P` is never mended, it is enough to look at the last
state of the run. -/
theorem exec_iff_guarded {I P : σ → Prop}
    (hI : ∀ {s a s'}, I s → step s a = some s' → I s')
    (hstep : ∀ {s a s'}, I s → P s → step s a = some s' → (P s' ↔ C s a))
    (hstay : ∀ {s a s'}, ¬ P s → step s a = some s' → ¬ P s') :
    ∀ (as : List α) {s t : σ}, I s → P s → exec step s as = some t →
      (P t ↔ Guarded step C s as)
  | [], s, _, _, hs, hrun => by
      cases hrun
      exact ⟨fun _ => trivial, fun _ => hs⟩
  | a :: as, s, t, hi, hs, hrun => by
      obtain ⟨s', hs', hrun'⟩ := exec_cons_eq_some hrun
      have hiff := hstep hi hs hs'
      constructor
      · intro ht
        have hP : P s' := by
          by_contra hnot
          exact reachable_invariant hstay hnot ⟨as, hrun'⟩ ht
        exact guarded_cons (hiff.mp hP) hs'
          ((exec_iff_guarded hI hstep hstay as (hI hi hs') hP hrun').mp ht)
      · rintro ⟨hC, hg⟩
        exact (exec_iff_guarded hI hstep hstay as (hI hi hs') (hiff.mpr hC) hrun').mpr (hg s' hs')

theorem Guarded.mono {C' : σ → α → Prop} {s : σ} {as : List α} (h : Guarded step C s as)
    (hC : ∀ s a, C s a → C' s a) : Guarded step C' s as := by
  induction as generalizing s with
  | nil => trivial
  | cons a as ih => exact ⟨hC s a h.1, fun s' hs' => ih (h.2 s' hs')⟩

/-- The guard of a run can be computed. -/
instance Guarded.decidable [∀ s a, Decidable (C s a)] :
    (s : σ) → (as : List α) → Decidable (Guarded step C s as)
  | _, [] => isTrue trivial
  | s, a :: as =>
      match h : step s a with
      | none => decidable_of_iff (C s a) ⟨fun ha => ⟨ha, fun s' hs' => by rw [h] at hs'; cases hs'⟩,
          And.left⟩
      | some s' =>
          have := Guarded.decidable s' as
          decidable_of_iff (C s a ∧ Guarded step C s' as)
            ⟨fun hg => guarded_cons hg.1 h hg.2, fun hg => ⟨hg.1, hg.2 s' h⟩⟩

end Conc
