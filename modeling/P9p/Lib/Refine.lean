/-
# Programs that compute a function

A program of commands runs on a store with everything that the code keeps
there.  What it is for can often be said on less, by a function

    m : τ → Option (β × τ)

with `none` where the program does not return: it waits for what never comes,
or crashes.  `Computes` says that program and function go together: where the
function is defined the program returns, and what it returns and leaves is
related to the function's result; where it is not, the program does not return.

**Rules.**  Each command of the program is either a step of the store alone
(`Computes.next`, `Computes.seq`, `Computes.then`), or the program blocks there
(`Computes.blocked`); the steps of the function alone are rewritten
(`Computes.step`).  `Computes.bind` composes.

**Runs.**  `Agrees` is the same between two functions, where the store of one is
seen through a view.  It holds of a sequence if it holds of every member
(`Agrees.mapM`).
-/
import P9p.Lib.Prog

namespace Conc

variable {C : Type} {R : C → Type} {α β γ δ σ τ E : Type}
  {exec : σ → Nat → (c : C) → E → Option (R c × σ)} {t : Nat} {env : Nat → E}
variable {b : β} {v' : τ}

/-- The program computes the function `m` at `v`; `Q` relates the results. -/
def Prog.Computes (exec : σ → Nat → (c : C) → E → Option (R c × σ)) (t : Nat) (env : Nat → E)
    (Q : α → σ → β → τ → Prop) (p : Prog C R α) (s : σ) (n : Nat) (m : StateT τ Option β)
    (v : τ) : Prop :=
  match m v with
  | some (b, v') => ∃ a s' n', run exec t env p s n = .returned a s' n' ∧ Q a s' b v'
  | none => ∀ a s' n', run exec t env p s n ≠ .returned a s' n'

section Rules

variable {Q : α → σ → β → τ → Prop} {p : Prog C R α} {s : σ} {n : Nat} {m : StateT τ Option β}
  {v : τ}

/-- Of a function that is defined. -/
theorem Prog.Computes.returned (h : p.Computes exec t env Q s n m v) (hm : m v = some (b, v')) :
    ∃ a s' n', run exec t env p s n = .returned a s' n' ∧ Q a s' b v' := by
  rw [Prog.Computes, hm] at h
  exact h

/-- Of one that is not. -/
theorem Prog.Computes.not_returned (h : p.Computes exec t env Q s n m v) (hm : m v = none) {a : α}
    {s' : σ} {n' : Nat} : run exec t env p s n ≠ .returned a s' n' := by
  rw [Prog.Computes, hm] at h
  exact h a s' n'

theorem Prog.Computes.ret {a : α} (h : Q a s b v) :
    (pure a : Prog C R α).Computes exec t env Q s n (pure b) v :=
  ⟨a, s, n, rfl, h⟩

/-- The function has come to its end. -/
theorem Prog.Computes.ends (h : p.Ends exec t env (fun a s' => Q a s' b v) s n) :
    p.Computes exec t env Q s n (pure b) v :=
  h.run

theorem Prog.Computes.mono {Q' : α → σ → β → τ → Prop} (h : p.Computes exec t env Q s n m v)
    (hQ : ∀ a s' b v', Q a s' b v' → Q' a s' b v') : p.Computes exec t env Q' s n m v := by
  unfold Prog.Computes at h ⊢
  cases hm : m v with
  | none =>
      rw [hm] at h
      exact h
  | some r =>
      rw [hm] at h
      obtain ⟨a, s', n', hrun, hq⟩ := h
      exact ⟨a, s', n', hrun, hQ _ _ _ _ hq⟩

theorem Prog.Computes.bind {Q' : γ → σ → δ → τ → Prop} {f : α → Prog C R γ}
    {g : β → StateT τ Option δ} (h : p.Computes exec t env Q s n m v)
    (hf : ∀ a s' n' b v', Q a s' b v' → (f a).Computes exec t env Q' s' n' (g b) v') :
    (p >>= f).Computes exec t env Q' s n (m >>= g) v := by
  unfold Prog.Computes at h ⊢
  cases hm : m v with
  | none =>
      have hnone : (m >>= g) v = none := by
        show Option.bind (m v) _ = none
        rw [hm]
        rfl
      rw [hm] at h
      rw [hnone]
      intro a s' n' hrun
      obtain ⟨a₁, s₁, n₁, hp, -⟩ := returned_bind hrun
      exact h a₁ s₁ n₁ hp
  | some r =>
      obtain ⟨b, v'⟩ := r
      have hsome : (m >>= g) v = g b v' := by
        show Option.bind (m v) _ = g b v'
        rw [hm]
        rfl
      rw [hm] at h
      obtain ⟨a, s', n', hrun, hq⟩ := h
      rw [hsome, run_bind_returned hrun]
      exact hf a s' n' b v' hq

/-- A command that is executed. -/
theorem Prog.Computes.next {c : C} {k : R c → Prog C R α} {r : R c} {s' : σ}
    (hs' : exec s t c (env n) = some (r, s')) (hk : (k r).Computes exec t env Q s' (n + 1) m v) :
    (Prog.issue c >>= k).Computes exec t env Q s n m v := by
  unfold Prog.Computes at hk ⊢
  rw [run_then hs']
  exact hk

/-- One that cannot be executed. -/
theorem Prog.Computes.blocked {c : C} {k : R c → Prog C R α} (hs : exec s t c (env n) = none)
    (hm : m v = none) : (Prog.issue c >>= k).Computes exec t env Q s n m v := by
  unfold Prog.Computes
  have hrun : run exec t env (Prog.issue c >>= k) s n = .blocked c s := run_blocked hs
  rw [hm, hrun]
  intro a s' n' h
  cases h

/-- A part of the program that the function does not mention. -/
theorem Prog.Computes.seq {P : γ → σ → Prop} {q : Prog C R γ} {f : γ → Prog C R α}
    (hq : q.Ends exec t env P s n)
    (hf : ∀ a s' n', P a s' → (f a).Computes exec t env Q s' n' m v) :
    (q >>= f).Computes exec t env Q s n m v := by
  obtain ⟨a, s', n', hrun, hP⟩ := hq.run
  have h := hf a s' n' hP
  unfold Prog.Computes at h ⊢
  rw [run_bind_returned hrun]
  exact h

/-- The same at the end. -/
theorem Prog.Computes.then {Q' : γ → σ → β → τ → Prop} {f : α → Prog C R γ}
    (h : p.Computes exec t env Q s n m v)
    (hf : ∀ a s' n' b v', Q a s' b v' →
      (f a).Ends exec t env (fun c s'' => Q' c s'' b v') s' n') :
    (p >>= f).Computes exec t env Q' s n m v := by
  unfold Prog.Computes at h ⊢
  cases hm : m v with
  | none =>
      rw [hm] at h
      intro c s' n' hrun
      obtain ⟨a, s₁, n₁, hp, -⟩ := returned_bind hrun
      exact h a s₁ n₁ hp
  | some r =>
      rw [hm] at h
      obtain ⟨a, s', n', hrun, hq⟩ := h
      obtain ⟨c, s'', n'', hrun', hq'⟩ := (hf a s' n' _ _ hq).run
      exact ⟨c, s'', n'', (run_bind_returned hrun f).trans hrun', hq'⟩

theorem Prog.Computes.crash (hm : m v = none) :
    (Prog.crash : Prog C R α).Computes exec t env Q s n m v := by
  unfold Prog.Computes
  rw [hm]
  intro a s' n' h
  cases h

/-- A step of the function. -/
theorem Prog.Computes.step {m' : StateT τ Option β} (hm : m v = m' v')
    (h : p.Computes exec t env Q s n m' v') : p.Computes exec t env Q s n m v := by
  unfold Prog.Computes at h ⊢
  rw [hm]
  exact h

end Rules

/-! ## Sequences -/

/-- On stores with the invariant `I`, the function `f` is `g` on the view. -/
structure Agrees (I : σ → Prop) (view : σ → τ) (f : StateT σ Option β) (g : StateT τ Option β) :
    Prop where
  result : ∀ {s}, I s → (f s).map (Prod.map id view) = g (view s)
  keeps : ∀ {s b s'}, I s → f s = some (b, s') → I s'

section Agrees

variable {I : σ → Prop} {view : σ → τ}

theorem Agrees.ret (b : β) : Agrees I view (pure b) (pure b) := by
  constructor
  · intro s _
    rfl
  · intro s b' s' hI h
    cases h
    exact hI

theorem Agrees.bind {f : StateT σ Option β} {g : StateT τ Option β} {f' : β → StateT σ Option γ}
    {g' : β → StateT τ Option γ} (h : Agrees I view f g) (h' : ∀ b, Agrees I view (f' b) (g' b)) :
    Agrees I view (f >>= f') (g >>= g') := by
  constructor
  · intro s hI
    show Option.map _ (Option.bind (f s) _) = Option.bind (g (view s)) _
    rw [← h.result hI]
    cases hf : f s with
    | none => rfl
    | some r => exact (h' r.1).result (h.keeps hI hf)
  · intro s c s'' hI hs
    obtain ⟨⟨b, s'⟩, hf, hs'⟩ := Option.bind_eq_some_iff.mp hs
    exact (h' b).keeps (h.keeps hI hf) hs'

theorem Agrees.mapM {f : α → StateT σ Option β} {g : α → StateT τ Option β}
    (h : ∀ a, Agrees I view (f a) (g a)) (as : List α) :
    Agrees I view (as.mapM f) (as.mapM g) := by
  induction as with
  | nil => exact .ret []
  | cons a as ih =>
      rw [List.mapM_cons, List.mapM_cons]
      exact (h a).bind fun b => ih.bind fun bs => .ret (b :: bs)

end Agrees

/-- Where a sequence is defined, its parts are. -/
theorem bind_eq_some {m : StateT τ Option β} {v : τ} {g : β → StateT τ Option γ} {c : γ}
    (h : (m >>= g) v = some (c, v')) : ∃ b v₁, m v = some (b, v₁) ∧ g b v₁ = some (c, v') := by
  obtain ⟨⟨b, v₁⟩, hm, hg⟩ := Option.bind_eq_some_iff.mp h
  exact ⟨b, v₁, hm, hg⟩

end Conc
