/-
# Exact counts

Every node counts the references to it: one for each name that a directory has
for it, one for each time it occurs in a handle, and the root has one more.

**Theorem** (`counts_exact`).  Operations that are executed one after the other
keep all counts exact, if a `Remove` never finds another node under the name of
its own.  Each of them returns, and a directory loses its map only when no
handle refers to it or to anything below it.

The invariant is that of the interleaved operations with nothing in hand.  For
the last part, the handles of a node are also handles of all directories it was
linked into.
-/
import Mathlib.Logic.Relation
import P9p.Ramfs.Sequential

namespace P9p.Ramfs

open Conc Tally

variable {s s' : Store}

/-! ## What is claimed -/

/-- The number of names that directories have for `n`. -/
def Store.parentLinks (s : Store) (n : Nat) : Nat :=
  ∑ p ∈ Finset.range s.next, (s.node p).links.count n

def Exact (s : Store) : Prop :=
  ∀ n, (s.node n).nref = ((if n = 0 then 1 else 0) + s.parentLinks n + s.held.count n : Nat)

/-- A directory that has lost its map is not in use, nor is anything below it. -/
def DropsUnused (s s' : Store) : Prop :=
  ∀ n, (s.node n).children ≠ none → (s'.node n).children = none →
    ∀ m, s.Below n m → ∀ k slot, s'.handles.lookup k = some slot → m ∉ slot.handle.chain

/-- In the directory of a handle that is removed, its name is free or that of
its own node. -/
def OwnName (s : Store) : Op → Prop
  | .remove k => ∀ slot ∈ s.handles.lookup k, ∀ p ∈ slot.handle.parents.getLast?,
      s.entry p (s.node slot.handle.ent).info.name = none ∨
        s.entry p (s.node slot.handle.ent).info.name = some slot.handle.ent
  | _ => True

instance (s : Store) : (op : Op) → Decidable (OwnName s op)
  | .remove k => inferInstanceAs (Decidable (∀ slot ∈ s.handles.lookup k, ∀ p ∈ _, _ ∨ _))
  | .attach _ _ | .walk _ _ _ | .create _ _ _ _ _ | .clunk _ | .qid _ | .stat _ | .wstat _ _
  | .openDir _ | .open _ _ | .read _ _ _ | .write _ _ _ => .isTrue trivial

/-- An operation that may be called. -/
def Permitted (s : Store) (act : Op × (Nat → Env)) : Prop := Issued s act.1 ∧ OwnName s act.1

instance (s : Store) (act : Op × (Nat → Env)) : Decidable (Permitted s act) :=
  inferInstanceAs (Decidable (_ ∧ _))

/-! ## Exact counts -/

theorem Inv.exact (h : Inv True s fun _ => Hand.empty) : Exact s := by
  intro n
  obtain ⟨K, hK, hcounted⟩ := h.counted
  have hnone : K n = 0 := (hK n).eq_zero fun _ => rfl
  have hlinks : s.linkCount (Taken fun _ => Hand.empty) n = s.parentLinks n := by
    refine Finset.sum_congr rfl fun p _ => if_neg ?_
    rintro ⟨_, hp⟩
    cases hp
  have hlower := hcounted.lower n (Or.inl trivial)
  have hupper := hcounted.upper trivial n
  rw [hnone, Nat.add_zero, Store.refs, hlinks] at hlower hupper
  exact Int.le_antisymm hupper hlower

/-- `Remove` takes away the name of its own node. -/
theorem OwnName.heeds {op : Op} (hop : OwnName s op) (env : Nat → Env) (fuel : Nat) :
    (op.prog fuel).Heeds exec 0 env (Own True) s 0 := by
  -- what comes after the name is gone does not take away others
  have hafter : ∀ {α : Type} {p : M α} {k : Key} {s : Store} {i : Nat},
      p.Only (Op.clunk k).Uses → p.Heeds exec 0 env (Own True) s i := by
    intro α p k s i hp
    refine hp.heeds (fun s c hc => ?_) s i
    cases c with
    | unlink p name ent =>
        obtain ⟨_, hk⟩ := hc.issues
        cases hk
    | _ => trivial
  by_cases hremove : ∃ k, op = .remove k
  · obtain ⟨k, rfl⟩ := hremove
    refine Prog.Heeds.bind ?_ fun _ _ _ => trivial
    refine Prog.Heeds.cmd trivial fun h s₁ hs₁ => ?_
    refine Prog.Heeds.bind ?_ fun _ s₂ i₂ =>
      hafter (k := k) ((release_only h).bind fun _ => trivial)
    unfold unlinkEnt
    split
    · trivial
    · rename_i p hp
      refine Prog.Heeds.cmd trivial fun info s₂ hs₂ => ?_
      cases hs₂
      refine Prog.Heeds.cmd (fun _ => ?_) fun r s₃ _ => ?_
      · simp only [exec] at hs₁
        split at hs₁
        · rename_i hd hk
          cases hs₁
          exact hop _ hk p hp
        · cases hs₁
      · refine hafter (k := k) ?_
        cases r with
        | none => exact (decref_only _).bind fun _ => trivial
        | some err => trivial
  · refine (op.prog_only).heeds (fun s c hc => ?_) s 0
    cases c with
    | unlink p name ent => exact absurd hc.issues hremove
    | _ => trivial

/-! ## What is dropped -/

/-- A path goes through the directory that a node on it was linked into. -/
theorem Store.Chain.mem_home {l : List Nat} {p c : Nat} (h : s.Chain l) (hc : c ∈ l)
    (hedge : s.Edge p c) : p ∈ l := by
  obtain ⟨l₁, l₂, rfl⟩ := List.append_of_mem hc
  rcases List.eq_nil_or_concat l₁ with rfl | ⟨l₀, q, rfl⟩
  · obtain rfl : c = 0 := Option.some.inj h.root
    exact absurd hedge.lt (Nat.not_lt_zero p)
  · have hq : s.Edge q c := by
      refine (List.isChain_append.mp h.steps).2.2 q ?_ c rfl
      rw [List.concat_eq_append, List.getLast?_append]
      rfl
    obtain rfl : p = q := hedge.home.symm.trans hq.home
    simp

theorem mem_of_below {l : List Nat} {n m : Nat} (ht : s.Tree) (hg : s.Grows s') (hl : s'.Chain l)
    (hm : s.Below n m) (hmem : m ∈ l) : n ∈ l := by
  induction hm with
  | refl => exact hmem
  | tail _ hlink ih => exact ih (hl.mem_home hmem (hg.edge (ht.edge hlink)))

theorem Inv.dropsUnused (h : Inv True s fun _ => Hand.empty) (h' : Inv True s' fun _ => Hand.empty)
    (hg : s.Grows s') (hmapped : s.Mapped) : DropsUnused s s' := by
  intro n hmap hnone m hm k slot hk hmem
  have hlt : n < s.next := by
    by_contra hle
    exact hmap (h.tree.blank n (Nat.not_lt.mp hle)).2
  have hdir : (s'.node n).IsDirectory := by
    rw [Node.IsDirectory, hg.type n hlt]
    exact hmapped n hmap
  have hdead := (h'.vital.dead n (Nat.lt_of_lt_of_le hlt hg.next) hdir hnone).2 trivial
  have halive := h'.held_alive trivial
    (mem_held hk (mem_of_below h.tree hg (h'.tree.chain hk) hm hmem))
  omega

/-! ## Runs -/

structure Settled (s : Store) : Prop where
  inv : Inv True s fun _ => Hand.empty
  mapped : s.Mapped

theorem settled_init (now : Time) : Settled (init now) := ⟨inv_init True now, mapped_init now⟩

/-- What one operation does. -/
theorem Settled.after {act : Op × (Nat → Env)} (h : Settled s) (hact : Permitted s act) :
    ∃ s', Ramfs.after s act = some s' ∧ Settled s' ∧ DropsUnused s s' := by
  obtain ⟨op, env⟩ := act
  obtain ⟨hissued, hown⟩ := hact
  obtain ⟨s', hs'⟩ := h.inv.returns hissued env
  obtain ⟨r, n, hrun⟩ := after_eq_some hs'
  have hinv : Inv True s' fun _ => Hand.empty := perform_keeps h.inv (hown.heeds env _) hrun
  refine ⟨s', hs', ⟨hinv, perform_mapped h.mapped hrun⟩, ?_⟩
  exact h.inv.dropsUnused hinv (perform_grows hrun) h.mapped

/-- After every run of permitted operations the counts are exact, and the next
operation drops only what is not in use. -/
theorem counts_exact (now : Time) (acts : List (Op × (Nat → Env)))
    (hacts : Guarded after Permitted (init now) acts) :
    ∃ s, Conc.exec after (init now) acts = some s ∧ Exact s ∧
      ∀ act, Permitted s act → ∃ s', after s act = some s' ∧ DropsUnused s s' := by
  have hstep : ∀ {s act}, Settled s → Permitted s act →
      ∃ s', after s act = some s' ∧ Settled s' := by
    intro s act hs hact
    obtain ⟨s', hs', hsettled, -⟩ := hs.after hact
    exact ⟨s', hs', hsettled⟩
  obtain ⟨s, hrun, hs⟩ := hacts.exec_eq_some hstep (settled_init now)
  refine ⟨s, hrun, hs.inv.exact, fun act hact => ?_⟩
  obtain ⟨s', hs', -, hdrops⟩ := hs.after hact
  exact ⟨s', hs', hdrops⟩

/-- Two clients; the second makes the directory `d` with a file in it, to which
the first walks.  Then the second removes `d`, and the first lets go of it. -/
def twoClients : List (Op × (Nat → Env)) :=
  [Op.attach (0, 0) [], .attach (1, 0) [], .create (1, 0) (1, 1) (lit "d") (dmdir ||| 0o755) 0,
    .walk (1, 1) (1, 2) [], .create (1, 2) (1, 2) (lit "f") 0o644 0, .walk (0, 0) (0, 1) [lit "d"],
    .remove (1, 1), .clunk (1, 2), .clunk (0, 1)].map fun op => (op, fun _ => still)

theorem counts_exact_twoClients :
    ∃ s, Conc.exec after (init Time.zero) twoClients = some s ∧ Exact s ∧
      ∀ act, Permitted s act → ∃ s', after s act = some s' ∧ DropsUnused s s' :=
  counts_exact _ _ (by decide +kernel)

end P9p.Ramfs
