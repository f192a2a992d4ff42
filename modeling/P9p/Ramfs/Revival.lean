/-
# Nodes that come back

The comment on `decref` asks that `incref` is never called on a node that has
come to zero.  `Walk` finds all nodes on its way first and takes its references
afterwards, and `Create` links a node before it takes the reference for the
handle.

**It is not so.**  Between the two, another client's `Remove` may take out the
node (`walk_revives`).  Then the handle that `Walk` returns refers to a
directory that has lost its map.

**When it is** (`never_revived`): as long as no node is counted down while an
operation uses a handle, a `Walk` or `Create` in particular, and `Remove` takes
away only the name of its own node, in every interleaving.
-/
import P9p.Ramfs.Operations

namespace P9p.Ramfs

open Conc Tally

/-! ## Any number of operations, interleaved -/

abbrev State := Pool Cmd Cmd.Res Ret Store

/-- `fuel` bounds the depth of the recursion in `decref`. -/
abbrev step (fuel : Nat) : State → Sched Op Env → Option State :=
  Pool.step exec (fun s _ _ => s) (Op.prog fuel)

def initial (now : Time) : State := ⟨init now, []⟩

/-- No node that has come to zero is about to be counted up, and no handle
refers to a directory that has lost its map. -/
structure NoneRevived (s : State) : Prop where
  pending : ∀ (t n : Nat) k, s.threads[t]? = some (.cmd (.incref n) k) → 0 < (s.store.node n).nref
  live : ∀ k slot, s.store.handles.lookup k = some slot → ∀ n ∈ slot.handle.chain,
    (s.store.node n).IsDirectory → (s.store.node n).children ≠ none

/-- While an operation uses a handle, no node is counted down; and the name that
`Remove` takes away is not that of another node. -/
def Orderly (s : State) : Sched Op Env → Prop
  | .invoke _ => True
  | .run t _ =>
      match s.threads[t]? with
      | some (.cmd c _) => Guard True s.store c
      | _ => True

instance (s : State) (a : Sched Op Env) : Decidable (Orderly s a) := by
  unfold Orderly
  split
  · infer_instance
  · split <;> infer_instance

/-- The counts, as a discipline for all operations. -/
def protocol (fuel : Nat) : Protocol exec (fun s _ (_ : Op) => s) (Op.prog fuel) Hand where
  idle := Hand.empty
  begin _ := Hand.empty
  pre := pre
  post := post
  inv := Inv True
  guard s _ c _ := Guard True s c
  start_inv := by
    intro s f t op hinv hidle
    rwa [← hidle, Function.update_eq_self]
  exec_inv hinv hpre hguard hexec := exec_keeps hinv (Or.inl trivial) hpre hguard hexec
  safe op := (op.prog_keeps ⟨rfl, rfl, rfl, rfl, rfl⟩).mono fun _ _ _ => trivial

theorem Orderly.admits {fuel : Nat} {s : State} {a : Sched Op Env} (h : Orderly s a) :
    (protocol fuel).Admits s a := by
  cases a with
  | invoke op => trivial
  | run t e =>
      intro c k ht
      rw [Orderly, ht] at h
      exact h

/-- In every run whose steps are orderly, no node is revived. -/
theorem never_revived (now : Time) (fuel : Nat) (acts : List (Sched Op Env)) {s : State}
    (hord : Guarded (step fuel) Orderly (initial now) acts)
    (hrun : Conc.exec (step fuel) (initial now) acts = some s) : NoneRevived s := by
  obtain ⟨f, hf⟩ := (protocol fuel).sound (inv_init True now) acts
    (hord.mono fun _ _ => Orderly.admits) hrun
  have hinv : Inv True s.store f := hf.inv
  constructor
  · intro t n k ht
    obtain ⟨hpre, -⟩ := hf.safe t _ ht
    rcases hpre with hn | rfl
    · exact hinv.alive trivial t n hn
    · exact hinv.anchored (Or.inl rfl)
  · intro k slot hk n hn hdir hnone
    have hlt := (hinv.tree.chain hk).lt hinv.tree.pos n hn
    have hle := (hinv.vital.dead n hlt hdir hnone).2 trivial
    have := hinv.held_alive trivial (mem_held hk hn)
    omega

/-! ## Two clients -/

/-- `n` commands of thread `t`. -/
def turns (t n : Nat) : List (Sched Op Env) := List.replicate n (.run t still)

/-- Two clients attach, and the second makes the directory `d`. -/
def makesDir : List (Sched Op Env) :=
  [.invoke (.attach (0, 0) [])] ++ turns 0 2 ++ [.invoke (.attach (1, 0) [])] ++ turns 1 2 ++
  [.invoke (.create (1, 0) (1, 1) (lit "d") (dmdir ||| 0o755) 0)] ++ turns 2 7

/-- The first walks to `d`; then the second removes it. -/
def removesAfter : List (Sched Op Env) :=
  makesDir ++ [.invoke (.walk (0, 0) (0, 1) [lit "d"])] ++ turns 3 7 ++
  [.invoke (.remove (1, 1))] ++ turns 4 6

theorem never_revived_removesAfter :
    ∃ s, Conc.exec (step 3) (initial Time.zero) removesAfter = some s ∧
      (s.store.node 1).nref = 1 ∧ NoneRevived s :=
  ⟨_, rfl, rfl, never_revived Time.zero 3 removesAfter (by decide +kernel) rfl⟩

/-- The first has found `d` when the second removes it. -/
def removesBetween : List (Sched Op Env) :=
  makesDir ++ [.invoke (.walk (0, 0) (0, 1) [lit "d"])] ++ turns 3 3 ++
  [.invoke (.remove (1, 1))] ++ turns 4 8

/-- The first client is about to take its reference when none is left.  In the
end its handle refers to a directory without a map. -/
theorem walk_revives :
    (∃ s, Conc.exec (step 3) (initial Time.zero) removesBetween = some s ∧
      (∃ k, s.threads[3]? = some (.cmd (.incref 1) k)) ∧ (s.store.node 1).nref = 0) ∧
    ∃ s slot, Conc.exec (step 3) (initial Time.zero) (removesBetween ++ turns 3 4) = some s ∧
      s.store.handles.lookup (0, 1) = some slot ∧ slot.handle.chain = [0, 1] ∧
      (s.store.node 1).info.qid.type = qtdir ∧ (s.store.node 1).children = none :=
  ⟨⟨_, rfl, ⟨_, rfl⟩, rfl⟩, _, _, rfl, rfl, rfl, rfl, rfl⟩

end P9p.Ramfs
