/-
# Programs of atomic commands, alone and interleaved

A program is a tree: it ends with a value, crashes, or issues a command and
continues with its result.  What a command does is a partial function

    exec : store → thread → command → choice → Option (result × store)

undefined where the command cannot proceed (a mutex that is taken); the
`choice` is whatever the environment decides, such as the answer of a call to
foreign code.

**Two semantics, one `exec`.**  `run` executes one program alone, with the
choices given in advance, to its end: it returns, crashes or blocks.
`Pool.step` interleaves any number of programs, one command a step, with new
ones invoked at any time.

**Reasoning about `run`** is rewriting, with `run_next` and `run_bind`, or by
an invariant and `Safe.run`; that a program returns at all is `Ends`, and how
many commands it issues at most is `Within`.  Where only runs that return
matter, `Returns` is simpler: a relation, taken apart by `returns_next` and
`returns_bind`, and carried to another store by `Returns.simulate`.

**Reasoning about pools** is by ghost values.  A protocol gives every thread a
ghost value; `pre` says which commands a thread may issue with it, `post` how
it changes, and an invariant ties the store to all ghost values.  `Safe`
checks one program against `pre` and `post`, with no mention of the others;
`Protocol.sound` says that if all programs are safe and every single command
keeps the invariant, then every reachable pool has it.
-/
import Mathlib.Algebra.GroupWithZero.Nat
import Mathlib.Data.List.Forall2
import Mathlib.Logic.Function.Basic
import P9p.Lib.Exec

namespace Conc

inductive Prog (C : Type) (R : C → Type) (α : Type) : Type where
  | ret (a : α)
  | cmd (c : C) (k : R c → Prog C R α)
  | crash

variable {C : Type} {R : C → Type} {α β : Type}

namespace Prog

def bind : Prog C R α → (α → Prog C R β) → Prog C R β
  | ret a, f => f a
  | cmd c k, f => cmd c fun r => (k r).bind f
  | crash, _ => crash

instance : Monad (Prog C R) where
  pure := ret
  bind := bind

/-- Issue one command. -/
def issue (c : C) : Prog C R (R c) := cmd c ret

@[simp] theorem cmd_bind (c : C) (k : R c → Prog C R α) (f : α → Prog C R β) :
    (cmd c k >>= f) = cmd c fun r => k r >>= f := rfl

end Prog

variable {P P' : C → Prop} {p : Prog C R α} {f : α → Prog C R β} {c : C} {k : R c → Prog C R α}
  {n m : Nat}

/-- Every command that the program can issue satisfies `P`. -/
def Prog.Only (P : C → Prop) : Prog C R α → Prop
  | .ret _ => True
  | .cmd c k => P c ∧ ∀ r, (k r).Only P
  | .crash => True

theorem Prog.Only.issue (hc : P c) : (Prog.issue c : Prog C R (R c)).Only P :=
  ⟨hc, fun _ => trivial⟩

theorem Prog.Only.cmd (hc : P c) (hk : ∀ r, (k r).Only P) : (Prog.issue c >>= k).Only P :=
  ⟨hc, hk⟩

theorem Prog.Only.bind (h : p.Only P) (hf : ∀ a, (f a).Only P) : (p >>= f).Only P := by
  induction p with
  | ret a => exact hf a
  | crash => trivial
  | cmd c k ih => exact ⟨h.1, fun r => ih r (h.2 r)⟩

theorem Prog.Only.mono (h : p.Only P) (hP : ∀ c, P c → P' c) : p.Only P' := by
  induction p with
  | ret a => trivial
  | crash => trivial
  | cmd c k ih => exact ⟨hP c h.1, fun r => ih r (h.2 r)⟩

/-- The program issues at most `n` commands, whatever they return. -/
def Prog.Within : Nat → Prog C R α → Prop
  | _, .ret _ => True
  | _, .crash => True
  | 0, .cmd _ _ => False
  | n + 1, .cmd _ k => ∀ r, (k r).Within n

theorem Prog.Within.cmd (hk : ∀ r, (k r).Within n) : (Prog.issue c >>= k).Within (n + 1) :=
  hk

theorem Prog.Within.mono (h : p.Within n) (hm : n ≤ m) : p.Within m := by
  induction p generalizing n m with
  | ret a => cases m <;> trivial
  | crash => cases m <;> trivial
  | cmd c k ih =>
      cases n with
      | zero => exact h.elim
      | succ n =>
          obtain ⟨m, rfl⟩ : ∃ m', m = m' + 1 := ⟨m - 1, by omega⟩
          exact fun r => ih r (h r) (Nat.le_of_succ_le_succ hm)

theorem Prog.Within.bind (h : p.Within n) (hf : ∀ a, (f a).Within m) :
    (p >>= f).Within (n + m) := by
  induction p generalizing n with
  | ret a => exact (hf a).mono (Nat.le_add_left _ _)
  | crash => cases n + m <;> trivial
  | cmd c k ih =>
      cases n with
      | zero => exact h.elim
      | succ n =>
          rw [Nat.add_right_comm]
          exact fun r => ih r (h r)

/-! ## One program alone -/

section Alone

variable {σ E : Type} (exec : σ → Nat → (c : C) → E → Option (R c × σ))

/-- How a program ends; `n` counts the commands that were executed. -/
inductive Outcome (C : Type) (α σ : Type) : Type where
  | returned (a : α) (s : σ) (n : Nat)
  | crashed (s : σ)
  | blocked (c : C) (s : σ)

def Outcome.store {C α σ : Type} : Outcome C α σ → σ
  | .returned _ s _ | .crashed s | .blocked _ s => s

/-- What holds if the program returns, and if it blocks. -/
def Outcome.Meets {C α σ : Type} (ret : α → σ → Prop) (blk : C → σ → Prop) : Outcome C α σ → Prop
  | .returned a s _ => ret a s
  | .crashed _ => True
  | .blocked c s => blk c s

/-- Run a program as thread `t`; `env n` is the choice for the `n`-th command. -/
def run (t : Nat) (env : Nat → E) : Prog C R α → σ → Nat → Outcome C α σ
  | .ret a, s, n => .returned a s n
  | .crash, s, _ => .crashed s
  | .cmd c k, s, n =>
      match exec s t c (env n) with
      | none => .blocked c s
      | some (r, s') => run t env (k r) s' (n + 1)

variable {exec} {t n' : Nat} {env : Nat → E} {s s' : σ} {a : α} {b : β} {r : R c}

theorem run_next (h : exec s t c (env n) = some (r, s')) :
    run exec t env (.cmd c k) s n = run exec t env (k r) s' (n + 1) := by
  rw [run, h]

theorem run_blocked (h : exec s t c (env n) = none) :
    run exec t env (.cmd c k) s n = .blocked c s := by
  rw [run, h]

theorem run_then (h : exec s t c (env n) = some (r, s')) :
    run exec t env (Prog.issue c >>= k) s n = run exec t env (k r) s' (n + 1) :=
  run_next h

/-- Where a program blocks, its next command cannot be executed. -/
theorem exec_of_blocked (h : run exec t env p s n = .blocked c s') :
    ∃ m, exec s' t c (env m) = none := by
  induction p generalizing s n with
  | ret a => cases h
  | crash => cases h
  | cmd c' k ih =>
      cases hexec : exec s t c' (env n) with
      | none =>
          rw [run_blocked hexec] at h
          cases h
          exact ⟨n, hexec⟩
      | some p =>
          rw [run_next hexec] at h
          exact ih p.1 h

theorem run_bind (p : Prog C R α) (f : α → Prog C R β) (s : σ) (n : Nat) :
    run exec t env (p >>= f) s n =
      match run exec t env p s n with
      | .returned a s' n' => run exec t env (f a) s' n'
      | .crashed s' => .crashed s'
      | .blocked c s' => .blocked c s' := by
  induction p generalizing s n with
  | ret a => rfl
  | crash => rfl
  | cmd c k ih =>
      rw [Prog.cmd_bind, run, run]
      cases exec s t c (env n) with
      | none => rfl
      | some p => exact ih p.1 p.2 (n + 1)

theorem run_bind_returned (h : run exec t env p s n = .returned a s' n') (f : α → Prog C R β) :
    run exec t env (p >>= f) s n = run exec t env (f a) s' n' := by
  rw [run_bind, h]

theorem returned_bind (h : run exec t env (p >>= f) s n = .returned b s' n') :
    ∃ a s₁ n₁, run exec t env p s n = .returned a s₁ n₁ ∧
      run exec t env (f a) s₁ n₁ = .returned b s' n' := by
  rw [run_bind] at h
  cases hp : run exec t env p s n with
  | returned a s₁ n₁ =>
      rw [hp] at h
      exact ⟨a, s₁, n₁, rfl, h⟩
  | crashed s₁ => rw [hp] at h; cases h
  | blocked c s₁ => rw [hp] at h; cases h

theorem run_bind_blocked (h : run exec t env p s n = .blocked c s') (f : α → Prog C R β) :
    run exec t env (p >>= f) s n = .blocked c s' := by
  rw [run_bind, h]

end Alone

section Ends

variable {σ E : Type} {exec : σ → Nat → (c : C) → E → Option (R c × σ)} {t : Nat} {env : Nat → E}
  {Q Q' : α → σ → Prop} {s s' : σ} {r : R c}

/-- Run alone, the program returns, and `Q` holds of what it returns. -/
def Prog.Ends (exec : σ → Nat → (c : C) → E → Option (R c × σ)) (t : Nat) (env : Nat → E)
    (Q : α → σ → Prop) : Prog C R α → σ → Nat → Prop
  | .ret a, s, _ => Q a s
  | .crash, _, _ => False
  | .cmd c k, s, n =>
      ∃ r s', exec s t c (env n) = some (r, s') ∧ (k r).Ends exec t env Q s' (n + 1)

theorem Prog.Ends.run (h : p.Ends exec t env Q s n) :
    ∃ a s' n', run exec t env p s n = .returned a s' n' ∧ Q a s' := by
  induction p generalizing s n with
  | ret a => exact ⟨a, s, n, rfl, h⟩
  | crash => exact h.elim
  | cmd c k ih =>
      obtain ⟨r, s', hs', hk⟩ := h
      rw [run_next hs']
      exact ih r hk

theorem Prog.Ends.bind {Q' : β → σ → Prop} (h : p.Ends exec t env Q s n)
    (hf : ∀ a s' n', Q a s' → (f a).Ends exec t env Q' s' n') :
    (p >>= f).Ends exec t env Q' s n := by
  induction p generalizing s n with
  | ret a => exact hf a s n h
  | crash => exact h.elim
  | cmd c k ih =>
      obtain ⟨r, s', hs', hk⟩ := h
      exact ⟨r, s', hs', ih r hk⟩

theorem Prog.Ends.cmd (hs' : exec s t c (env n) = some (r, s'))
    (hk : (k r).Ends exec t env Q s' (n + 1)) : (Prog.issue c >>= k).Ends exec t env Q s n :=
  ⟨r, s', hs', hk⟩

theorem Prog.Ends.mono (h : p.Ends exec t env Q s n) (hQ : ∀ a s', Q a s' → Q' a s') :
    p.Ends exec t env Q' s n := by
  induction p generalizing s n with
  | ret a => exact hQ a s h
  | crash => exact h
  | cmd c k ih =>
      obtain ⟨r, s', hs', hk⟩ := h
      exact ⟨r, s', hs', ih r hk⟩

end Ends

/-! ## Runs that return -/

section Returns

variable {σ τ E : Type} {exec : σ → Nat → (c : C) → E → Option (R c × σ)} {t n' : Nat}
  {env : Nat → E} {step : σ → (c : C) → R c → σ → Prop} {s s' : σ} {a : α} {b : β} {r : R c}

/-- With commands that behave as `step` says, the program can return `a` and
take the store from `s` to `s'`. -/
inductive Returns (step : σ → (c : C) → R c → σ → Prop) : Prog C R α → σ → α → σ → Prop
  | ret (a : α) (s : σ) : Returns step (.ret a) s a s
  | cmd {c : C} {k : R c → Prog C R α} {s s₁ s' : σ} {r : R c} {a : α} (hstep : step s c r s₁)
      (hk : Returns step (k r) s₁ a s') : Returns step (.cmd c k) s a s'

/-- What thread `t` can do with a command, whatever the environment chooses. -/
def CanExec {E : Type} (exec : σ → Nat → (c : C) → E → Option (R c × σ)) (t : Nat) (s : σ) (c : C)
    (r : R c) (s' : σ) : Prop :=
  ∃ e, exec s t c e = some (r, s')

theorem Returns.of_run (h : run exec t env p s n = .returned a s' n') :
    Returns (CanExec exec t) p s a s' := by
  induction p generalizing s n with
  | ret b =>
      cases h
      exact .ret ..
  | crash => cases h
  | cmd c k ih =>
      cases hexec : exec s t c (env n) with
      | none =>
          rw [run_blocked hexec] at h
          cases h
      | some p =>
          rw [run_next hexec] at h
          exact .cmd ⟨env n, hexec⟩ (ih p.1 h)

/-- Where a step is what the command does, the program returns. -/
theorem Returns.run (h : Returns (fun s c r s' => ∀ e, exec s t c e = some (r, s')) p s a s')
    (n : Nat) : ∃ n', run exec t env p s n = .returned a s' n' := by
  induction h generalizing n with
  | ret a s => exact ⟨n, rfl⟩
  | cmd hstep hk ih =>
      rw [run_next (hstep _)]
      exact ih (n + 1)

theorem returns_ret {b : α} (h : Returns step (.ret a) s b s') : a = b ∧ s = s' := by
  cases h
  exact ⟨rfl, rfl⟩

theorem not_returns_crash : ¬ Returns step (.crash : Prog C R α) s a s' := by
  intro h
  cases h

/-- The next command. -/
theorem returns_next (h : Returns step (Prog.issue c >>= k) s a s') :
    ∃ r s₁, step s c r s₁ ∧ Returns step (k r) s₁ a s' := by
  cases h with
  | cmd hstep hk => exact ⟨_, _, hstep, hk⟩

theorem returns_issue (h : Returns step (Prog.issue c) s r s') : step s c r s' := by
  cases h with
  | cmd hstep hk =>
      obtain ⟨rfl, rfl⟩ := returns_ret hk
      exact hstep

theorem returns_bind (h : Returns step (p >>= f) s b s') :
    ∃ a s₁, Returns step p s a s₁ ∧ Returns step (f a) s₁ b s' := by
  induction p generalizing s with
  | ret a => exact ⟨a, s, .ret a s, h⟩
  | crash => exact absurd h not_returns_crash
  | cmd c k ih =>
      rw [Prog.cmd_bind] at h
      cases h with
      | cmd hstep hk =>
          obtain ⟨a, s₁, hp, hf⟩ := ih _ hk
          exact ⟨a, s₁, .cmd hstep hp, hf⟩

/-- Where commands simulate commands, programs simulate programs. -/
theorem Returns.simulate {step' : τ → (c : C) → R c → τ → Prop} (h : Returns step p s a s')
    (rel : σ → τ → Prop)
    (hstep : ∀ {s s' : σ} {u : τ} {c : C} {r : R c}, rel s u → step s c r s' →
      ∃ u', step' u c r u' ∧ rel s' u') {u : τ} (hu : rel s u) :
    ∃ u', Returns step' p u a u' ∧ rel s' u' := by
  induction h generalizing u with
  | ret a s => exact ⟨u, .ret a u, hu⟩
  | cmd hc hk ih =>
      obtain ⟨u₁, hu₁, hrel⟩ := hstep hu hc
      obtain ⟨u', hret, hrel'⟩ := ih hrel
      exact ⟨u', .cmd hu₁ hret, hrel'⟩

/-- What every command keeps, a program keeps. -/
theorem Returns.keeps (h : Returns step p s a s') (I : σ → σ → Prop) (hrefl : ∀ s, I s s)
    (htrans : ∀ {s s₁ s'}, I s s₁ → I s₁ s' → I s s')
    (hstep : ∀ {s s' : σ} {c : C} {r : R c}, step s c r s' → I s s') : I s s' := by
  induction h with
  | ret a s => exact hrefl s
  | cmd hc hk ih => exact htrans (hstep hc) ih

end Returns

/-! ## Many programs -/

theorem getElem?_snoc_cases {α : Type} {l : List α} {a b : α} {i : Nat}
    (h : (l ++ [a])[i]? = some b) : l[i]? = some b ∨ i = l.length ∧ b = a := by
  rcases Nat.lt_or_ge i l.length with hlt | hge
  · rw [List.getElem?_append_left hlt] at h
    exact Or.inl h
  · rw [List.getElem?_append_right hge, List.getElem?_singleton] at h
    split at h
    · cases h
      exact Or.inr ⟨by omega, rfl⟩
    · cases h

theorem getElem?_set_cases {α : Type} {l : List α} {a b : α} {i j : Nat}
    (h : (l.set i a)[j]? = some b) : j = i ∧ b = a ∨ j ≠ i ∧ l[j]? = some b := by
  rcases eq_or_ne j i with rfl | hne
  · rw [List.getElem?_set_self'] at h
    obtain ⟨-, -, rfl⟩ := Option.map_eq_some_iff.mp h
    exact Or.inl ⟨rfl, rfl⟩
  · rw [List.getElem?_set_ne (Ne.symm hne)] at h
    exact Or.inr ⟨hne, h⟩

section Pool

variable {σ E Op : Type} (exec : σ → Nat → (c : C) → E → Option (R c × σ))
  (start : σ → Nat → Op → σ) (prog : Op → Prog C R α)

structure Pool (C : Type) (R : C → Type) (α σ : Type) where
  store : σ
  threads : List (Prog C R α)

/-- Invoke an operation in a new thread, or let thread `t` execute its next
command. -/
inductive Sched (Op E : Type) where
  | invoke (op : Op)
  | run (t : Nat) (e : E)

def Pool.step (s : Pool C R α σ) : Sched Op E → Option (Pool C R α σ)
  | .invoke op => some ⟨start s.store s.threads.length op, s.threads ++ [prog op]⟩
  | .run t e =>
      match s.threads[t]? with
      | some (.cmd c k) => (exec s.store t c e).map fun p => ⟨p.2, s.threads.set t (k p.1)⟩
      | _ => none

variable {exec start prog} {s s' : Pool C R α σ} {t : Nat} {e : E} {budget : List Nat}

theorem Pool.step_run (h : Pool.step exec start prog s (.run t e) = some s') :
    ∃ c k r st, s.threads[t]? = some (.cmd c k) ∧ exec s.store t c e = some (r, st) ∧
      s' = ⟨st, s.threads.set t (k r)⟩ := by
  simp only [Pool.step] at h
  split at h
  · rename_i c k ht
    obtain ⟨⟨r, st⟩, hexec, rfl⟩ := Option.map_eq_some_iff.mp h
    exact ⟨c, k, r, st, ht, hexec, rfl⟩
  · cases h

/-- The threads of the pool issue at most so many commands each. -/
def Pool.Within (s : Pool C R α σ) (budget : List Nat) : Prop :=
  List.Forall₂ (fun n p => p.Within n) budget s.threads

/-- Every command is paid for. -/
theorem Pool.Within.run (h : s.Within budget)
    (hstep : Pool.step exec start prog s (.run t e) = some s') :
    ∃ budget', s'.Within budget' ∧ budget'.sum + 1 = budget.sum := by
  obtain ⟨c, k, r, st, ht, -, rfl⟩ := Pool.step_run hstep
  show ∃ budget', List.Forall₂ _ budget' (s.threads.set t (k r)) ∧ _
  clear hstep
  unfold Pool.Within at h
  generalize s.threads = ps at h ht
  induction h generalizing t with
  | nil => cases ht
  | @cons n p ns ps hp hps ih =>
      cases t with
      | zero =>
          cases ht
          cases n with
          | zero => exact hp.elim
          | succ n =>
              refine ⟨n :: ns, .cons (hp r) hps, ?_⟩
              simp only [List.sum_cons]
              omega
      | succ t =>
          obtain ⟨ns', hns', hsum⟩ := ih ht
          refine ⟨n :: ns', .cons hp hns', ?_⟩
          simp only [List.sum_cons]
          omega

/-- While nothing is invoked, the steps are bounded. -/
theorem Pool.Within.length_le (h : s.Within budget) {runs : List (Nat × E)}
    (hrun : Conc.exec (Pool.step exec start prog) s
      (runs.map fun p => .run p.1 p.2) = some s') : runs.length ≤ budget.sum := by
  induction runs generalizing s budget with
  | nil => exact Nat.zero_le _
  | cons p runs ih =>
      obtain ⟨s₁, hs₁, hrest⟩ := exec_cons_eq_some hrun
      obtain ⟨budget', h', hsum⟩ := h.run hs₁
      have := ih h' hrest
      rw [List.length_cons]
      omega

end Pool

/-! ## Ghost values -/

section Safe

variable {ρ : Type} (pre : ρ → C → Prop) (post : ρ → (c : C) → R c → ρ → Prop)

/-- Started with ghost value `o`, the program issues only commands that `pre`
allows, and `Q` holds of its value and of the ghost value it ends with. -/
def Safe (Q : α → ρ → Prop) : Prog C R α → ρ → Prop
  | .ret a, o => Q a o
  | .crash, _ => True
  | .cmd c k, o => pre o c ∧ ∀ r o', post o c r o' → Safe Q (k r) o'

variable {pre post} {Q Q' : α → ρ → Prop} {o : ρ}

theorem Safe.issue {Q : R c → ρ → Prop} (hpre : pre o c) (hpost : ∀ r o', post o c r o' → Q r o') :
    Safe pre post Q (Prog.issue c) o :=
  ⟨hpre, hpost⟩

theorem Safe.cmd (hpre : pre o c) (hk : ∀ r o', post o c r o' → Safe pre post Q (k r) o') :
    Safe pre post Q (Prog.issue c >>= k) o :=
  ⟨hpre, hk⟩

theorem Safe.mono (h : Safe pre post Q p o) (hQ : ∀ a o, Q a o → Q' a o) :
    Safe pre post Q' p o := by
  induction p generalizing o with
  | ret a => exact hQ a o h
  | crash => trivial
  | cmd c k ih => exact ⟨h.1, fun r o' hp => ih r (h.2 r o' hp)⟩

theorem Safe.bind {Q' : β → ρ → Prop} (h : Safe pre post Q p o)
    (hf : ∀ a o', Q a o' → Safe pre post Q' (f a) o') : Safe pre post Q' (p >>= f) o := by
  induction p generalizing o with
  | ret a => exact hf a o h
  | crash => trivial
  | cmd c k ih => exact ⟨h.1, fun r o' hp => ih r (h.2 r o' hp)⟩

/-- What no command changes in the ghost value is at the end as it was. -/
theorem Safe.fixed {γ : Type} (g : ρ → γ) (hg : ∀ {o c r o'}, post o c r o' → g o' = g o)
    (h : Safe pre post Q p o) : Safe pre post (fun a o' => Q a o' ∧ g o' = g o) p o := by
  induction p generalizing o with
  | ret a => exact ⟨h, rfl⟩
  | crash => trivial
  | cmd c k ih =>
      refine ⟨h.1, fun r o₁ hp => (ih r (h.2 r o₁ hp)).mono fun a o' hQ => ?_⟩
      exact ⟨hQ.1, hQ.2.trans (hg hp)⟩

/-- A program whose commands are allowed with any ghost value. -/
theorem Prog.Only.safe (h : p.Only P) (hpre : ∀ o c, P c → pre o c) (o : ρ) :
    Safe pre post (fun _ _ => True) p o := by
  induction p generalizing o with
  | ret a => trivial
  | crash => trivial
  | cmd c k ih => exact ⟨hpre o c h.1, fun r o' _ => ih r (h.2 r) o'⟩

/-- With the store itself as the ghost value, such a program ends where it
returns. -/
theorem Prog.Only.safe_returns (h : p.Only P) (hpre : ∀ o c, P c → pre o c) (o : ρ) :
    Safe pre post (fun a o' => Returns post p o a o') p o := by
  induction p generalizing o with
  | ret a => exact .ret a o
  | crash => trivial
  | cmd c k ih =>
      refine ⟨hpre o c h.1, fun r o₁ hstep => (ih r (h.2 r) o₁).mono fun a o' hk => ?_⟩
      exact .cmd hstep hk

/-- Two disciplines at once, with a ghost value for each. -/
theorem Safe.prod {ρ' : Type} {pre' : ρ' → C → Prop} {post' : ρ' → (c : C) → R c → ρ' → Prop}
    {Q' : α → ρ' → Prop} {o' : ρ'} (h : Safe pre post Q p o) (h' : Safe pre' post' Q' p o') :
    Safe (fun o c => pre o.1 c ∧ pre' o.2 c)
      (fun o c r u => post o.1 c r u.1 ∧ post' o.2 c r u.2)
      (fun a o => Q a o.1 ∧ Q' a o.2) p (o, o') := by
  induction p generalizing o o' with
  | ret a => exact ⟨h, h'⟩
  | crash => trivial
  | cmd c k ih =>
      refine ⟨⟨h.1, h'.1⟩, ?_⟩
      rintro r ⟨u, u'⟩ ⟨hp, hp'⟩
      exact ih r (h.2 r u hp) (h'.2 r u' hp')

section Heeds

variable {σ E : Type} {exec : σ → Nat → (c : C) → E → Option (R c × σ)} {t n' : Nat}
  {env : Nat → E} {G : σ → C → Prop} {s s' : σ} {a : α}

/-- Every command that the program executes when it runs alone meets `G` in the
store it is executed in. -/
def Prog.Heeds (exec : σ → Nat → (c : C) → E → Option (R c × σ)) (t : Nat)
    (env : Nat → E) (G : σ → C → Prop) : Prog C R α → σ → Nat → Prop
  | .ret _, _, _ => True
  | .crash, _, _ => True
  | .cmd c k, s, n =>
      G s c ∧ ∀ r s', exec s t c (env n) = some (r, s') → (k r).Heeds exec t env G s' (n + 1)

theorem Prog.Only.heeds (h : p.Only P) (hG : ∀ s c, P c → G s c) (s : σ) (n : Nat) :
    p.Heeds exec t env G s n := by
  induction p generalizing s n with
  | ret a => trivial
  | crash => trivial
  | cmd c k ih => exact ⟨hG s c h.1, fun r s' _ => ih r (h.2 r) s' (n + 1)⟩

theorem Prog.Heeds.cmd (hc : G s c)
    (hk : ∀ r s', exec s t c (env n) = some (r, s') → (k r).Heeds exec t env G s' (n + 1)) :
    (Prog.issue c >>= k).Heeds exec t env G s n :=
  ⟨hc, hk⟩

theorem Prog.Heeds.bind (h : p.Heeds exec t env G s n)
    (hf : ∀ a s' n', (f a).Heeds exec t env G s' n') : (p >>= f).Heeds exec t env G s n := by
  induction p generalizing s n with
  | ret a => exact hf a s n
  | crash => trivial
  | cmd c k ih => exact ⟨h.1, fun r s' hs' => ih r (h.2 r s' hs')⟩

theorem Prog.heeds_of_forall (hG : ∀ s c, G s c) (p : Prog C R α) (s : σ) (n : Nat) :
    p.Heeds exec t env G s n := by
  induction p generalizing s n with
  | ret a => trivial
  | crash => trivial
  | cmd c k ih => exact ⟨hG s c, fun r s' _ => ih r s' (n + 1)⟩

/-- What commands that meet a condition keep, a program that heeds it keeps. -/
theorem Prog.Heeds.run {I : σ → Prop}
    (hstep : ∀ {s s' : σ} {c : C} {e : E} {r : R c},
      I s → G s c → exec s t c e = some (r, s') → I s') (h : p.Heeds exec t env G s n) (hI : I s)
    (hrun : run exec t env p s n = .returned a s' n') : I s' := by
  induction p generalizing s n with
  | ret a =>
      cases hrun
      exact hI
  | crash => cases hrun
  | cmd c k ih =>
      cases hexec : exec s t c (env n) with
      | none =>
          rw [run_blocked hexec] at hrun
          cases hrun
      | some p =>
          rw [run_next hexec] at hrun
          exact ih p.1 (h.2 p.1 p.2 hexec) (hstep hI h.1 hexec) hrun

/-- What a safe program does when it runs alone, for an invariant that ties the
store to its ghost value, if its commands meet a condition. -/
theorem Safe.run_heeds {I : σ → ρ → Prop}
    (hstep : ∀ {s s' : σ} {o : ρ} {c : C} {e : E} {r : R c}, I s o → pre o c → G s c →
      exec s t c e = some (r, s') → ∃ o', post o c r o' ∧ I s' o') (h : Safe pre post Q p o)
    (hI : I s o) (hG : p.Heeds exec t env G s n) :
    (run exec t env p s n).Meets (fun a s' => ∃ o', Q a o' ∧ I s' o')
      (fun c s' => ∃ o', pre o' c ∧ I s' o') := by
  induction p generalizing o s n with
  | ret a => exact ⟨o, h, hI⟩
  | crash => trivial
  | cmd c k ih =>
      obtain ⟨hpre, hk⟩ := h
      cases hexec : exec s t c (env n) with
      | none =>
          rw [run_blocked hexec]
          exact ⟨o, hpre, hI⟩
      | some p =>
          obtain ⟨r, s'⟩ := p
          obtain ⟨o', hpost, hI'⟩ := hstep hI hpre hG.1 hexec
          rw [run_next hexec]
          exact ih r (hk r o' hpost) hI' (hG.2 r s' hexec)

/-- The same without a condition. -/
theorem Safe.run {I : σ → ρ → Prop}
    (hstep : ∀ {s s' : σ} {o : ρ} {c : C} {e : E} {r : R c}, I s o → pre o c →
      exec s t c e = some (r, s') → ∃ o', post o c r o' ∧ I s' o') (h : Safe pre post Q p o)
    (hI : I s o) (n : Nat) :
    (run exec t env p s n).Meets (fun a s' => ∃ o', Q a o' ∧ I s' o')
      (fun c s' => ∃ o', pre o' c ∧ I s' o') := by
  exact Safe.run_heeds (G := fun _ _ => True) (fun hI hpre _ => hstep hI hpre) h hI
    (Prog.heeds_of_forall (fun _ _ => trivial) p s n)

end Heeds

/-- `Safe`, where a crash counts too: `fall` says with which ghost values the
program may crash. -/
def Strict (pre : ρ → C → Prop) (post : ρ → (c : C) → R c → ρ → Prop) (fall : ρ → Prop)
    (Q : α → ρ → Prop) : Prog C R α → ρ → Prop
  | .ret a, o => Q a o
  | .crash, o => fall o
  | .cmd c k, o => pre o c ∧ ∀ r o', post o c r o' → Strict pre post fall Q (k r) o'

variable {fall : ρ → Prop}

theorem Strict.issue {Q : R c → ρ → Prop} (hpre : pre o c)
    (hpost : ∀ r o', post o c r o' → Q r o') : Strict pre post fall Q (Prog.issue c) o :=
  ⟨hpre, hpost⟩

theorem Strict.cmd (hpre : pre o c) (hk : ∀ r o', post o c r o' → Strict pre post fall Q (k r) o') :
    Strict pre post fall Q (Prog.issue c >>= k) o :=
  ⟨hpre, hk⟩

theorem Strict.mono (h : Strict pre post fall Q p o) (hQ : ∀ a o, Q a o → Q' a o) :
    Strict pre post fall Q' p o := by
  induction p generalizing o with
  | ret a => exact hQ a o h
  | crash => exact h
  | cmd c k ih => exact ⟨h.1, fun r o' hp => ih r (h.2 r o' hp)⟩

theorem Strict.bind {Q' : β → ρ → Prop} (h : Strict pre post fall Q p o)
    (hf : ∀ a o', Q a o' → Strict pre post fall Q' (f a) o') :
    Strict pre post fall Q' (p >>= f) o := by
  induction p generalizing o with
  | ret a => exact hf a o h
  | crash => exact h
  | cmd c k ih => exact ⟨h.1, fun r o' hp => ih r (h.2 r o' hp)⟩

end Safe

/-- What the new value has in common with the old one. -/
theorem update_congr {ρ γ : Type} {f : Nat → ρ} {t : Nat} {o : ρ} (g : ρ → γ) (h : g o = g (f t))
    (t' : Nat) : g (Function.update f t o t') = g (f t') := by
  by_cases ht : t' = t
  · rw [ht, Function.update_self, h]
  · rw [Function.update_of_ne ht]

section Protocol

variable {σ E Op ρ : Type} (exec : σ → Nat → (c : C) → E → Option (R c × σ))
  (start : σ → Nat → Op → σ) (prog : Op → Prog C R α)

/-- A discipline for the threads of a pool.  `inv s f` says that the store is
`s` and thread `t` has the ghost value `f t`, which is `idle` before it starts
and `begin op` when operation `op` is invoked in it; `guard` is an assumption
on the commands that are executed. -/
structure Protocol (ρ : Type) where
  idle : ρ
  begin : Op → ρ
  pre : ρ → C → Prop
  post : ρ → (c : C) → R c → ρ → Prop
  inv : σ → (Nat → ρ) → Prop
  guard : σ → Nat → C → E → Prop
  start_inv : ∀ {s f t} (op : Op), inv s f → f t = idle →
    inv (start s t op) (Function.update f t (begin op))
  exec_inv : ∀ {s s' f t} {c : C} {e : E} {r : R c}, inv s f → pre (f t) c → guard s t c e →
    exec s t c e = some (r, s') → ∃ o, post (f t) c r o ∧ inv s' (Function.update f t o)
  safe : ∀ op, Safe pre post (fun _ _ => True) (prog op) (begin op)

variable {exec start prog}

/-- The guard, as a condition on the steps of a pool. -/
def Protocol.Admits (P : Protocol exec start prog ρ) (s : Pool C R α σ) : Sched Op E → Prop
  | .invoke _ => True
  | .run t e => ∀ c k, s.threads[t]? = some (.cmd c k) → P.guard s.store t c e

/-- The pool keeps to the protocol with the ghost values `f`. -/
structure Protocol.Obeyed (P : Protocol exec start prog ρ) (s : Pool C R α σ) (f : Nat → ρ) :
    Prop where
  inv : P.inv s.store f
  idle : ∀ t, s.threads.length ≤ t → f t = P.idle
  safe : ∀ (t : Nat) p, s.threads[t]? = some p → Safe P.pre P.post (fun _ _ => True) p (f t)

/-- Besides, every thread ends with `Q`. -/
structure Protocol.Met (P : Protocol exec start prog ρ) (Q : α → ρ → Prop) (s : Pool C R α σ)
    (f : Nat → ρ) : Prop where
  inv : P.inv s.store f
  idle : ∀ t, s.threads.length ≤ t → f t = P.idle
  safe : ∀ (t : Nat) p, s.threads[t]? = some p → Safe P.pre P.post Q p (f t)

section Met

variable {P : Protocol exec start prog ρ} {Q : α → ρ → Prop} {s : Pool C R α σ} {f : Nat → ρ}

theorem Protocol.Met.invoke (h : P.Met Q s f) {op : Op}
    (hop : Safe P.pre P.post Q (prog op) (P.begin op)) :
    P.Met Q ⟨start s.store s.threads.length op, s.threads ++ [prog op]⟩
      (Function.update f s.threads.length (P.begin op)) where
  inv := P.start_inv op h.inv (h.idle _ (Nat.le_refl _))
  idle := by
    intro t ht
    rw [List.length_append, List.length_singleton] at ht
    rw [Function.update_of_ne (by omega)]
    exact h.idle t (by omega)
  safe := by
    intro t p ht
    rcases getElem?_snoc_cases ht with ht | ⟨rfl, rfl⟩
    · rw [Function.update_of_ne (Nat.ne_of_lt (List.getElem?_eq_some_iff.mp ht).1)]
      exact h.safe t p ht
    · rw [Function.update_self]
      exact hop

theorem Protocol.Met.run (h : P.Met Q s f) {t : Nat} {c : C} {k : R c → Prog C R α} {e : E}
    {r : R c} {st : σ} (ht : s.threads[t]? = some (.cmd c k)) (hg : P.guard s.store t c e)
    (hexec : exec s.store t c e = some (r, st)) :
    ∃ o, P.Met Q ⟨st, s.threads.set t (k r)⟩ (Function.update f t o) := by
  obtain ⟨hpre, hsafe⟩ := h.safe t _ ht
  obtain ⟨o, hpost, hinv⟩ := P.exec_inv h.inv hpre hg hexec
  have hlt := (List.getElem?_eq_some_iff.mp ht).1
  refine ⟨o, hinv, ?_, ?_⟩
  · intro t' ht'
    rw [List.length_set] at ht'
    rw [Function.update_of_ne (by omega)]
    exact h.idle t' ht'
  · intro t' p hp
    rcases getElem?_set_cases hp with ⟨rfl, rfl⟩ | ⟨hne, hp⟩
    · rw [Function.update_self]
      exact hsafe r o hpost
    · rw [Function.update_of_ne hne]
      exact h.safe t' p hp

/-- Every pool that guarded steps reach from the empty one keeps to the
protocol, and its threads end as the programs do. -/
theorem Protocol.sound_met (hprog : ∀ op, Safe P.pre P.post Q (prog op) (P.begin op)) {s₀ : σ}
    (h₀ : P.inv s₀ fun _ => P.idle) (acts : List (Sched Op E)) {s : Pool C R α σ}
    (hg : Guarded (Pool.step exec start prog) P.Admits ⟨s₀, []⟩ acts)
    (hrun : Conc.exec (Pool.step exec start prog) ⟨s₀, []⟩ acts = some s) : ∃ f, P.Met Q s f := by
  refine exec_invariant (I := fun s => ∃ f, P.Met Q s f) ?_ acts ?_ hg hrun
  · rintro s a s' ⟨f, h⟩ hadm hstep
    cases a with
    | invoke op =>
        cases hstep
        exact ⟨_, h.invoke (hprog op)⟩
    | run t e =>
        obtain ⟨c, k, r, st, ht, hexec, rfl⟩ := Pool.step_run hstep
        obtain ⟨o, ho⟩ := h.run ht (hadm c k ht) hexec
        exact ⟨_, ho⟩
  · exact ⟨fun _ => P.idle, h₀, fun _ _ => rfl, fun t p ht => by cases ht⟩

end Met

theorem Protocol.sound (P : Protocol exec start prog ρ) {s₀ : σ} (h₀ : P.inv s₀ fun _ => P.idle)
    (acts : List (Sched Op E)) {s : Pool C R α σ}
    (hg : Guarded (Pool.step exec start prog) P.Admits ⟨s₀, []⟩ acts)
    (hrun : Conc.exec (Pool.step exec start prog) ⟨s₀, []⟩ acts = some s) : ∃ f, P.Obeyed s f := by
  obtain ⟨f, h⟩ := Protocol.sound_met P.safe h₀ acts hg hrun
  exact ⟨f, h.inv, h.idle, h.safe⟩

/-- Where there is no guard, every step is admitted. -/
theorem Protocol.guarded_of_forall (P : Protocol exec start prog ρ)
    (hguard : ∀ s t c e, P.guard s t c e) (s : Pool C R α σ) (acts : List (Sched Op E)) :
    Guarded (Pool.step exec start prog) P.Admits s acts := by
  refine Conc.guarded_of_forall ?_ s acts
  rintro s (op | ⟨t, e⟩)
  · trivial
  · exact fun c k _ => hguard s.store t c e

/-- Without a guard, so does every reachable pool. -/
theorem Protocol.sound_of_forall (P : Protocol exec start prog ρ)
    (hguard : ∀ s t c e, P.guard s t c e) {s₀ : σ} (h₀ : P.inv s₀ fun _ => P.idle)
    (acts : List (Sched Op E)) {s : Pool C R α σ}
    (hrun : Conc.exec (Pool.step exec start prog) ⟨s₀, []⟩ acts = some s) : ∃ f, P.Obeyed s f := by
  exact P.sound h₀ acts (P.guarded_of_forall hguard _ _) hrun

end Protocol

end Conc
