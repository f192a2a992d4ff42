/-
# Directories and files

A node says three times whether it is a directory: in its mode, in the type of
its qid, and by having a map.  `Create` makes all three from the mode it is
given, but `WStat` changes the mode alone.

As long as `WStat` leaves that bit alone and nothing is written to a directory
(`KeepsKinds`), the three agree for every node that is reached from the root
(`Sound.oneKind`).

That nothing is written to a directory is not up to `ramfs`: `Open` and `Create`
return a file for any node, and `Write` does not ask what it is.  The session
asks first.
-/
import P9p.Ramfs.Sequential

namespace P9p.Ramfs

open Conc Tally

variable {s s' : Store} {c : Cmd} {n : Nat}

/-! ## Kinds -/

/-- A node is a directory in every respect or in none, a directory has no data,
and its children have the names that it has for them. -/
structure Store.OneKind (s : Store) (n : Nat) : Prop where
  mode : (s.node n).info.mode &&& dmdir ≠ 0 ↔ (s.node n).info.qid.type &&& qtdir ≠ 0
  map : (s.node n).info.qid.type &&& qtdir ≠ 0 ↔ (s.node n).children ≠ none
  data : (s.node n).info.qid.type &&& qtdir ≠ 0 → (s.node n).data = []
  names : ∀ name c, s.entry n name = some c → (s.node c).info.name = name

/-- The part of it that does not depend on links. -/
structure Node.Kinded (f : Node) : Prop where
  mode : f.info.mode &&& dmdir ≠ 0 ↔ f.IsDirectory
  data : f.IsDirectory → f.data = []

def Kinded (s : Store) : Prop := ∀ n, (s.node n).Kinded

theorem Node.Kinded.isDir {f : Node} (h : f.Kinded) : f.isDir ↔ f.IsDirectory := by
  rw [← h.mode, Node.isDir, decide_eq_true_iff, gt_iff_lt, UInt32.pos_iff_ne_zero]

/-- A `WStat` that leaves alone whether the mode says directory. -/
def Node.Suits (f : Node) (dir : Dir) : Prop :=
  dir.mode = 0xFFFFFFFF ∨ dir.mode &&& dmdir = f.info.mode &&& dmdir

instance (f : Node) (dir : Dir) : Decidable (f.Suits dir) := inferInstanceAs (Decidable (_ ∨ _))

/-! ## Commands -/

theorem Node.setInfo_mode {f : Node} {dir : Dir} (hdir : f.Suits dir) :
    (f.setInfo dir).info.mode &&& dmdir = f.info.mode &&& dmdir := by
  unfold Node.setInfo
  dsimp only
  split
  · rename_i hmode
    exact hdir.resolve_left hmode
  · rfl

theorem Node.Kinded.wstat {f : Node} {dir : Dir} (h : f.Kinded) (hdir : f.Suits dir) :
    (f.wstat dir).2.Kinded := by
  have hset : (f.setInfo dir).Kinded := ⟨by rw [Node.setInfo_mode hdir]; exact h.mode, h.data⟩
  unfold Node.wstat
  dsimp only
  split
  · exact hset
  · split
    · split
      · exact hset
      · refine ⟨hset.mode, fun hd => ?_⟩
        change (f.setInfo dir).data.take _ = []
        rw [hset.data hd, List.take_nil]
    · exact hset

theorem Node.Kinded.write {f g : Node} {p : Bytes} {offset : Int64} {r : Nat × Option Err}
    (h : f.Kinded) (hfile : ¬ f.IsDirectory) (hg : f.write p offset = some (r, g)) : g.Kinded := by
  unfold Node.write at hg
  dsimp only at hg
  split at hg
  · cases hg
    exact h
  · split at hg
    · cases hg
    · cases hg
      exact ⟨h.mode, fun hd => absurd hd hfile⟩

theorem newDir_mode (path : UInt64) (fname uname : Bytes) (mode : UInt32) (now : Time) :
    (newDir path fname uname mode now).mode &&& dmdir ≠ 0 ↔
      (newDir path fname uname mode now).qid.type &&& qtdir ≠ 0 := by
  change mode &&& dmdir ≠ 0 ↔ (if mode &&& dmdir > 0 then qtdir else 0) &&& qtdir ≠ 0
  have hpos : mode &&& dmdir > 0 ↔ mode &&& dmdir ≠ 0 := UInt32.pos_iff_ne_zero
  split
  · rename_i hmode
    exact ⟨fun _ => by decide, fun _ => hpos.mp hmode⟩
  · rename_i hmode
    exact ⟨fun h => absurd (hpos.mpr h) hmode, fun h => absurd rfl h⟩

/-- What the commands of an operation have to heed. -/
def Suits (s : Store) : Cmd → Prop
  | .wstat n dir => (s.node n).Suits dir
  | .link p info => (Node.create info p).Kinded
  | .write n _ _ => ¬ (s.node n).IsDirectory
  | _ => True

theorem Kinded.set {f : Node} (h : Kinded s) (hf : f.Kinded) : Kinded (s.set n f) := by
  intro m
  by_cases hm : m = n
  · rw [hm, Store.set_node]
    exact hf
  · rw [Store.set_node_of_ne s f hm]
    exact h m

theorem Store.Changes.kinded (h : s.Changes c s') (hs : Kinded s) (hc : Suits s c) : Kinded s' := by
  cases h with
  | same hnode hnext =>
      intro n
      rw [hnode]
      exact hs n
  | count n i => exact hs.set ⟨(hs n).mode, (hs n).data⟩
  | @children _ n m hm => exact hs.set ⟨(hs n).mode, (hs n).data⟩
  | @link p m info hm =>
      intro n
      by_cases hnew : n = s.next
      · rw [hnew, Store.linkNew_self]
        exact hc
      · by_cases hp : n = p
        · rw [hp, Store.linkNew_parent (hp ▸ hnew)]
          exact ⟨(hs p).mode, (hs p).data⟩
        · rw [Store.linkNew_of_ne hp hnew]
          exact hs n
  | wstat n dir => exact hs.set ((hs n).wstat hc)
  | @write n p offset r f hf => exact hs.set ((hs n).write hc hf)

/-! ## Operations -/

/-- `WStat` leaves the kind alone, and `Write` is for files. -/
def KeepsKinds (s : Store) : Op → Prop
  | .wstat k dir => ∀ slot ∈ s.handles.lookup k, (s.node slot.handle.ent).Suits dir
  | .write k _ _ => ∀ n ∈ s.files k, ¬ (s.node n).IsDirectory
  | _ => True

theorem KeepsKinds.heeds {op : Op} (hop : KeepsKinds s op) (env : Nat → Env) (fuel : Nat) :
    (op.prog fuel).Heeds exec 0 env Suits s 0 := by
  by_cases hwstat : ∃ k dir, op = .wstat k dir
  · obtain ⟨k, dir, rfl⟩ := hwstat
    refine wstat_heeds trivial (fun _ => trivial) fun slot hslot s' hs' => ?_
    show (s'.node slot.handle.ent).Suits dir
    rw [hs']
    exact hop slot hslot
  by_cases hwrite : ∃ k p offset, op = .write k p offset
  · obtain ⟨k, p, offset, rfl⟩ := hwrite
    refine Prog.Heeds.bind ?_ fun _ _ _ => trivial
    refine Prog.Heeds.cmd trivial ?_
    rintro (_ | n) s₁ hs₁
    · trivial
    · obtain ⟨hn, rfl⟩ := Prod.mk.inj (Option.some.inj hs₁)
      refine Prog.Heeds.cmd (hop n hn) ?_
      rintro (_ | a) <;> intros <;> trivial
  · refine (op.prog_only).heeds (fun s c hc => ?_) s 0
    cases c with
    | wstat n dir =>
        obtain ⟨k, hk⟩ := hc.issues
        exact absurd ⟨k, dir, hk⟩ hwstat
    | write n p offset =>
        obtain ⟨k, hk⟩ := hc.issues
        exact absurd ⟨k, p, offset, hk⟩ hwrite
    | link p info =>
        obtain ⟨k, k', name, perm, flag, uname, path, mode, now, -, rfl⟩ := hc.issues
        exact ⟨newDir_mode path name uname mode now, fun _ => rfl⟩
    | _ => trivial

/-! ## The server between operations -/

structure Sound (s : Store) : Prop where
  inv : Inv False s fun _ => Hand.empty
  mapped : s.Mapped
  kinded : Kinded s

theorem sound_init (now : Time) : Sound (init now) := by
  refine ⟨inv_init False now, mapped_init now, ?_⟩
  rintro (_ | n)
  · exact ⟨newDir_mode _ _ _ _ now, fun _ => rfl⟩
  · have hzero : Dir.zero.mode &&& dmdir ≠ 0 ↔ Dir.zero.qid.type &&& qtdir ≠ 0 := by decide
    exact ⟨hzero, fun _ => rfl⟩

/-- What an operation does to the server. -/
structure Effect (s : Store) (op : Op) (r : Ret) (s' : Store) : Prop where
  does : op.Does s r s'
  sound : Sound s'
  grows : s.Grows s'
  handles : ∀ k, k ∉ op.keys → s'.handles.lookup k = s.handles.lookup k
  files : ∀ k, k ∉ op.opens → s'.files k = s.files k

theorem Sound.performs {op : Op} (h : Sound s) (hop : Issued s op) (hkinds : KeepsKinds s op)
    (env : Nat → Env) : ∃ r s' n, perform s op env = .returned r s' n ∧ Effect s op r s' := by
  obtain ⟨r, s', n, hrun, hdoes⟩ := h.inv.performs hop env
  have hkinded : Kinded s' := (hkinds.heeds env _).run
    (fun hs hc hexec => (exec_changes hexec).kinded hs hc) h.kinded hrun
  have hsound : Sound s' :=
    ⟨perform_keeps h.inv (heeds_own _ env s 0) hrun, perform_mapped h.mapped hrun, hkinded⟩
  exact ⟨r, s', n, hrun, hdoes, hsound, perform_grows hrun, fun k hk => perform_handle hk hrun,
    fun k hk => perform_file hk hrun⟩

/-- Nobody is about to take out a directory, so those that are left have their
map. -/
theorem Sound.oneKind (h : Sound s) (hn : s.Below 0 n) : s.OneKind n := by
  have hanchored : n < s.next ∧ s.Anchored (Taken fun _ => Hand.empty) n := by
    cases hn with
    | refl => exact ⟨h.inv.tree.pos, Or.inl rfl⟩
    | tail _ hlink =>
        refine ⟨(h.inv.tree.edge hlink).bound, Or.inr ⟨_, ?_, hlink⟩⟩
        rintro ⟨t, ht⟩
        cases ht
  refine ⟨(h.kinded n).mode, ⟨fun hdir hnone => ?_, h.mapped n⟩, (h.kinded n).data,
    fun name c hc => (h.inv.tree.link hc).2⟩
  exact (h.inv.vital.dead n hanchored.1 hdir hnone).1 hanchored.2

end P9p.Ramfs
