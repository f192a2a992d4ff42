/-
# `WStat` and the length of a file

A node has its data and, in its `Dir`, the length of its data.  `Write` sets
both.  `WStat` cuts the data and does not touch the length.

**So the length may be wrong** (`wstat_keeps_length`): after a `WStat` that cuts
a file, `Stat` and directory listings report the length it had before.

**Otherwise it is right** (`lengths_right`), in every run in which no `WStat`
asks for less than there is.

**A `WStat` that fails may have changed the node** (`wstat_renames_and_chmods`).
It sets mode, uid and gid before it looks at the name and the length, which are
what it can refuse.  It is all or nothing (`wstat_all_or_nothing`) when it
refuses nothing or would set nothing.
-/
import P9p.Ramfs.Sequential

namespace P9p.Ramfs

open Conc Tally

variable {s s' : Store} {c : Cmd}
variable {f : Node}

/-- The recorded length is the length of the data. -/
def Node.Sized (f : Node) : Prop := f.info.length = UInt64.ofNat f.data.length

def Sized (s : Store) : Prop := ∀ n, (s.node n).Sized

/-- A `WStat` that leaves the data as they are. -/
def Node.Spares (f : Node) (dir : Dir) : Prop :=
  dir.name ≠ [] ∨ dir.length = 0xFFFFFFFFFFFFFFFF ∨ f.data.length ≤ dir.length.toNat

instance (f : Node) (dir : Dir) : Decidable (f.Spares dir) := inferInstanceAs (Decidable (_ ∨ _))

/-- No `WStat` cuts the file that its handle refers to. -/
def CutsNothing (s : Store) (act : Op × (Nat → Env)) : Prop :=
  match act.1 with
  | .wstat k dir => ∀ slot ∈ s.handles.lookup k, (s.node slot.handle.ent).Spares dir
  | _ => True

instance (s : Store) (act : Op × (Nat → Env)) : Decidable (CutsNothing s act) := by
  unfold CutsNothing
  split <;> infer_instance

/-! ## Commands -/

theorem Node.Sized.wstat {dir : Dir} (h : f.Sized) (hdir : f.Spares dir) :
    (f.wstat dir).2.Sized := by
  unfold Node.wstat
  dsimp only
  split
  · exact h
  · rename_i hname
    split
    · rename_i hlength
      split
      · exact h
      · have hle : f.data.length ≤ dir.length.toNat :=
          (hdir.resolve_left hname).resolve_left hlength
        have hdata : (f.setInfo dir).data.take dir.length.toNat = f.data :=
          List.take_of_length_le hle
        rw [hdata]
        exact h
    · exact h

theorem Node.Sized.write {g : Node} {p : Bytes} {offset : Int64} {r : Nat × Option Err}
    (h : f.Sized) (hg : f.write p offset = some (r, g)) : g.Sized := by
  unfold Node.write at hg
  dsimp only at hg
  split at hg
  · cases hg
    exact h
  · split at hg
    · cases hg
    · cases hg
      rfl

/-- What the commands of a run have to heed. -/
def Spares (s : Store) : Cmd → Prop
  | .wstat n dir => (s.node n).Spares dir
  | .link _ info => info.length = 0
  | _ => True

theorem Sized.set {n : Nat} (h : Sized s) (hf : f.Sized) : Sized (s.set n f) := by
  intro m
  by_cases hm : m = n
  · rw [hm, Store.set_node]
    exact hf
  · rw [Store.set_node_of_ne s f hm]
    exact h m

theorem Store.Changes.sized (h : s.Changes c s') (hs : Sized s) (hc : Spares s c) : Sized s' := by
  cases h with
  | same hnode hnext =>
      intro n
      rw [hnode]
      exact hs n
  | count n i => exact hs.set (hs n)
  | @children _ n m hm => exact hs.set (hs n)
  | @link p m info hm =>
      intro n
      by_cases hnew : n = s.next
      · rw [hnew, Store.linkNew_self]
        exact hc
      · by_cases hp : n = p
        · rw [hp, Store.linkNew_parent (hp ▸ hnew)]
          exact hs p
        · rw [Store.linkNew_of_ne hp hnew]
          exact hs n
  | wstat n dir => exact hs.set ((hs n).wstat hc)
  | @write n p offset r f hf => exact hs.set ((hs n).write hf)

/-! ## Operations -/

theorem CutsNothing.heeds {op : Op} {env : Nat → Env} (hop : CutsNothing s (op, env)) (fuel : Nat) :
    (op.prog fuel).Heeds exec 0 env Spares s 0 := by
  by_cases hwstat : ∃ k dir, op = .wstat k dir
  · obtain ⟨k, dir, rfl⟩ := hwstat
    refine wstat_heeds trivial (fun _ => trivial) fun slot hslot s' hs' => ?_
    show (s'.node slot.handle.ent).Spares dir
    rw [hs']
    exact hop slot hslot
  · refine (op.prog_only).heeds (fun s c hc => ?_) s 0
    cases c with
    | wstat n dir =>
        obtain ⟨k, hk⟩ := hc.issues
        exact absurd ⟨k, dir, hk⟩ hwstat
    | link p info =>
        obtain ⟨k, k', name, perm, flag, uname, path, mode, now, -, rfl⟩ := hc.issues
        rfl
    | _ => trivial

theorem Sized.after {act : Op × (Nat → Env)} (hs : Sized s) (hact : CutsNothing s act)
    (h : Ramfs.after s act = some s') : Sized s' := by
  obtain ⟨op, env⟩ := act
  obtain ⟨r, n, hrun⟩ := after_eq_some h
  exact (hact.heeds _).run (fun hs hc hexec => (exec_changes hexec).sized hs hc) hs hrun

/-- Where no `WStat` cuts a file, the lengths are right in every state that is
reached. -/
theorem lengths_right (now : Time) (acts : List (Op × (Nat → Env)))
    (hacts : Guarded after CutsNothing (init now) acts)
    (hrun : Conc.exec after (init now) acts = some s) : Sized s := by
  refine exec_invariant Sized.after acts ?_ hacts hrun
  rintro (_ | n) <;> rfl

/-! ## A file that is cut -/

/-- A client makes the file `f` and writes three bytes. -/
def writesFile : List Op :=
  [.attach (0, 0) [], .create (0, 0) (0, 1) (lit "f") 0o644 0, .write (0, 1) [1, 2, 3] 0]

/-- It asks for a length, and for nothing else. -/
def setLength (length : UInt64) : Op :=
  .wstat (0, 1) { Dir.zero with mode := 0xFFFFFFFF, length }

/-- The clock stands still during all operations. -/
def calmly (ops : List Op) : List (Op × (Nat → Env)) := ops.map fun op => (op, fun _ => still)

theorem lengths_right_writesFile :
    ∃ s, Conc.exec after (init Time.zero) (calmly (writesFile ++ [setLength 3])) = some s ∧
      (s.node 1).data = [1, 2, 3] ∧ Sized s :=
  ⟨_, rfl, rfl, lengths_right Time.zero (calmly (writesFile ++ [setLength 3])) (by decide +kernel)
    rfl⟩

/-- Of three bytes one is left, and the length is still three. -/
theorem wstat_keeps_length :
    ∃ s, Conc.exec after (init Time.zero) (calmly (writesFile ++ [setLength 1])) = some s ∧
      (s.node 1).data = [1] ∧ (s.node 1).info.length = 3 :=
  ⟨_, rfl, rfl, rfl⟩

/-! ## A `WStat` that fails -/

/-- What `WStat` does not refuse: no new name, and no length beyond the data. -/
def Node.Accepts (f : Node) (dir : Dir) : Prop :=
  dir.name = [] ∧
    (dir.length = 0xFFFFFFFFFFFFFFFF ∨ dir.length ≤ UInt64.ofNat f.data.length)

/-- Mode, uid and gid are left out, or are those the node has. -/
def Node.SetsNothing (f : Node) (dir : Dir) : Prop :=
  (dir.mode = 0xFFFFFFFF ∨ dir.mode = f.info.mode) ∧
    (dir.uid = [] ∨ dir.uid = f.info.uid) ∧ (dir.gid = [] ∨ dir.gid = f.info.gid)

theorem Node.wstat_accepted {dir : Dir} (h : f.Accepts dir) : (f.wstat dir).1 = none := by
  obtain ⟨hname, hlength⟩ := h
  unfold Node.wstat
  dsimp only
  rw [if_neg (not_not_intro hname)]
  split
  · rename_i hset
    have hle : dir.length ≤ UInt64.ofNat f.data.length := hlength.resolve_left hset
    rw [if_neg (show ¬ UInt64.ofNat (f.setInfo dir).data.length < dir.length from
      UInt64.not_lt.mpr hle)]
  · rfl

/-- When `WStat` fails, the assignments before the refusal have been made. -/
theorem Node.wstat_refused {dir : Dir} (h : ¬ f.Accepts dir) :
    (f.wstat dir).1 ≠ none ∧ (f.wstat dir).2 = f.setInfo dir := by
  unfold Node.wstat
  dsimp only
  split
  · exact ⟨nofun, rfl⟩
  · rename_i hname
    have hlength := fun hl => h ⟨not_not.mp hname, hl⟩
    rw [if_pos (fun hset => hlength (Or.inl hset))]
    rw [if_pos (show UInt64.ofNat (f.setInfo dir).data.length < dir.length from
      UInt64.not_le.mp fun hle => hlength (Or.inr hle))]
    exact ⟨nofun, rfl⟩

theorem Node.setInfo_info {dir : Dir} : (f.setInfo dir).info = f.info ↔ f.SetsNothing dir := by
  have hset : ∀ {α : Type} [DecidableEq α] (a b unset : α),
      (if a ≠ unset then a else b) = b ↔ a = unset ∨ a = b := by
    intro α _ a b unset
    by_cases h : a = unset <;> simp [h]
  unfold Node.SetsNothing
  rw [← hset dir.mode, ← hset dir.uid, ← hset dir.gid]
  constructor
  · intro h
    exact ⟨congrArg Dir.mode h, congrArg Dir.uid h, congrArg Dir.gid h⟩
  · rintro ⟨hmode, huid, hgid⟩
    unfold Node.setInfo
    simp only [hmode, huid, hgid]

/-- `WStat` is all or nothing exactly when it refuses nothing or sets nothing. -/
theorem wstat_all_or_nothing (f : Node) (dir : Dir) :
    ((f.wstat dir).1 ≠ none →
        (f.wstat dir).2.info = f.info ∧ (f.wstat dir).2.data = f.data) ↔
      f.Accepts dir ∨ f.SetsNothing dir := by
  by_cases hdir : f.Accepts dir
  · exact ⟨fun _ => Or.inl hdir, fun _ hfail => absurd (f.wstat_accepted hdir) hfail⟩
  · obtain ⟨hfail, hnode⟩ := Node.wstat_refused hdir
    rw [hnode]
    constructor
    · intro h
      exact Or.inr (Node.setInfo_info.mp (h hfail).1)
    · rintro (hacc | hnothing) _
      · exact absurd hacc hdir
      · exact ⟨Node.setInfo_info.mpr hnothing, rfl⟩

/-- A client asks for a new name and a new mode at once.  It is told that this
is not implemented, and the mode is changed. -/
theorem wstat_renames_and_chmods :
    let f := Node.create { Dir.zero with mode := 0o644 } 0
    let dir := { Dir.zero with name := lit "g", mode := 0o600, length := 0xFFFFFFFFFFFFFFFF }
    (f.wstat dir).1 = some eNotImpl ∧
      f.info.mode = 0o644 ∧ (f.wstat dir).2.info.mode = 0o600 :=
  ⟨rfl, rfl, rfl⟩

end P9p.Ramfs
