/-
# `Remove` takes away a name

`Remove` looks for the name of its node in the directory that it was reached
through, and takes the entry away.  It does not look at what the entry leads to.
If the file was removed before, and a new one was created under its name, the
new one loses its name (`remove_takes_another`).

**Otherwise** (`remove_own_iff`) it takes away the entry of its own node, or, if
there is no entry any more, it only gives back the references of the handle.
The nodes that are reached from the root then stay as they are, but for the
counts:

    taken out    a directory whose last reference is given back; it has no name
                 in a directory that stays, so it is not reached from the root
    given back   by the handle, and by what is taken out to its children, which
                 are not reached from the root either
-/
import P9p.Ramfs.Sequential

namespace P9p.Ramfs

open Conc Tally

/-! ## What is reached from the root -/

section Giving

variable {E : Prop} {s s' s₀ : Store} {f : Nat → Hand} {o o' : Hand} {m n p : Nat}

/-- It is not about to be taken out. -/
theorem Inv.anchored_below (h : Inv E s f) (hm : s.Below 0 m) : s.Anchored (Taken f) m := by
  induction hm with
  | refl => exact Or.inl rfl
  | tail _ hlink ih => exact Or.inr ⟨_, fun ht => (h.vital.doomed _ (Or.inl ht)).1 ih, hlink⟩

/-- A node has a name in one directory only. -/
theorem Store.Tree.parent_below (h : s.Tree) (hm : s.Below 0 m) (hlink : m ∈ (s.node p).links) :
    s.Below 0 p := by
  have hp := h.edge hlink
  cases hm with
  | refl => exact absurd hp.lt (Nat.not_lt_zero p)
  | tail hq hlink' =>
      have hsame := (h.edge hlink').home.symm.trans hp.home
      exact hsame ▸ hq

/-- Since `s₀` the references `toks₀` have become `toks`; what was reached from the
root has not changed but for its counts. -/
structure Giving (s₀ : Store) (toks₀ : List Nat) (s : Store) (toks : List Nat) : Prop where
  node : ∀ m, s₀.Below 0 m →
    s.node m = (s₀.node m).addRef ((toks.count m : Int) - (toks₀.count m : Int))
  next : s.next = s₀.next
  lastpath : s.lastpath = s₀.lastpath
  handles : s.handles = s₀.handles
  files : s.files = s₀.files

variable {toks₀ toks : List Nat}

theorem Node.addRef_addRef (g : Node) (i j : Int) : (g.addRef i).addRef j = g.addRef (i + j) := by
  unfold Node.addRef
  rw [Int.add_assoc]

theorem Giving.refl (s : Store) (toks : List Nat) : Giving s toks s toks := by
  refine ⟨fun m _ => ?_, rfl, rfl, rfl, rfl⟩
  rw [Int.sub_self, Node.addRef, Int.add_zero]

theorem Giving.below (h : Giving s₀ toks₀ s toks) (hm : s₀.Below 0 m) : s.Below 0 m := by
  induction hm with
  | refl => exact .refl
  | @tail p c hp hlink ih =>
      refine ih.tail ?_
      rw [h.node p hp]
      exact hlink

/-- **One command** that gives back. -/
theorem Giving.step {c : Cmd} {e : Env} {r : c.Res} (h : Giving s₀ toks₀ s o.toks)
    (hinv : Inv E s (alone o)) (hc : c.Gives) (hpre : pre o c)
    (hexec : exec s 0 c e = some (r, s')) (hpost : post o c r o') :
    Giving s₀ toks₀ s' o'.toks := by
  have hanchored : ∀ m, s₀.Below 0 m → s.Anchored (Taken (alone o)) m :=
    fun m hm => hinv.anchored_below (h.below hm)
  cases c with
  | decr n =>
      obtain ⟨rest, htoks, -⟩ := hpre
      have htoks' : o'.toks = rest := by
        rw [show o'.toks = o.toks.tail from congrArg Hand.toks hpost, htoks, List.tail_cons]
      cases hexec
      refine ⟨fun m hm => ?_, h.next, h.lastpath, h.handles, h.files⟩
      have hnode := h.node m hm
      rw [htoks] at hnode
      rw [htoks']
      by_cases hmn : m = n
      · subst hmn
        rw [Store.set_node, hnode, Node.addRef_addRef, List.count_cons_self]
        congr 1
        omega
      · rw [Store.set_node_of_ne _ _ hmn, hnode, List.count_cons_of_ne (Ne.symm hmn)]
  | children n =>
      cases hexec
      have hdying : Dying (alone o) n := ⟨0, (congrArg Hand.dying (alone_zero o)).trans hpre⟩
      cases hm : (s.node n).children with
      | none =>
          rw [hm] at hpost
          cases hpost
          exact h
      | some names =>
          rw [hm] at hpost
          obtain ⟨-, rfl⟩ := hpost
          refine ⟨fun m hbelow => ?_, h.next, h.lastpath, h.handles, h.files⟩
          -- the children of what is dying are not reached from the root
          have hnot : m ∉ (e.order (values names)).1 := by
            intro hmem
            have hlink : m ∈ (s.node n).links := by
              rw [Node.links, hm]
              exact ((e.order (values names)).2.mem_iff).mp hmem
            have hn := hinv.tree.parent_below (h.below hbelow) hlink
            exact (hinv.vital.doomed n (Or.inr hdying)).1 (hinv.anchored_below hn)
          rw [h.node m hbelow, List.count_append, List.count_eq_zero_of_not_mem hnot, Nat.zero_add]
  | drop n =>
      obtain ⟨rest, htaken⟩ := hpre
      cases hexec
      cases hpost
      have hT : Taken (alone o) n := by
        refine ⟨0, ?_⟩
        rw [alone_zero, htaken]
        exact List.mem_cons_self
      refine ⟨fun m hm => ?_, h.next, h.lastpath, h.handles, h.files⟩
      have hne : m ≠ n := by
        rintro rfl
        exact (hinv.vital.doomed m (Or.inl hT)).1 (hanchored m hm)
      rw [Store.set_node_of_ne _ _ hne]
      exact h.node m hm
  | _ => exact hc.elim

/-- `Clunk` gives back the references of the handle. -/
theorem release_giving {h : Handle} {env : Nat → Env} {fuel i i' : Nat} {a : Unit}
    (hinv : Inv E s (alone o)) (ho : o.Holds h)
    (hrun : run exec 0 env (release fuel h) s i = .returned a s' i') :
    Giving s o.toks s' [] := by
  have hstep : ∀ {s₁ s₂ : Store} {o₁ : Hand} {c : Cmd} {e : Env} {r : c.Res},
      Inv E s₁ (alone o₁) ∧ Giving s o.toks s₁ o₁.toks → pre o₁ c → c.Gives →
      exec s₁ 0 c e = some (r, s₂) →
      ∃ o₂, post o₁ c r o₂ ∧ Inv E s₂ (alone o₂) ∧ Giving s o.toks s₂ o₂.toks := by
    rintro s₁ s₂ o₁ c e r ⟨hinv₁, hgiving⟩ hpre hc hexec
    have hown : Own E s₁ c := by
      cases c with
      | unlink p name ent => exact hc.elim
      | _ => trivial
    obtain ⟨o₂, hpost, hinv₂⟩ := exec_keeps_alone hinv₁ hpre hown hexec
    exact ⟨o₂, hpost, hinv₂, hgiving.step hinv₁ hc hpre hexec hpost⟩
  have hheeds : (release fuel h).Heeds exec 0 env (fun _ c => c.Gives) s i :=
    (release_gives h).heeds (fun _ _ hc => hc) s i
  have hmeets := Safe.run_heeds
    (I := fun s₁ o₁ => Inv E s₁ (alone o₁) ∧ Giving s o.toks s₁ o₁.toks) hstep
    (release_keeps ho) ⟨hinv, Giving.refl s o.toks⟩ hheeds
  rw [hrun] at hmeets
  obtain ⟨o₁, hidle, -, hgiving⟩ := hmeets
  rwa [hidle.toks] at hgiving

end Giving

/-! ## The entry -/

section Entry

variable {s s' : Store} {p n : Nat} {name : Bytes} {env : Nat → Env} {i i' : Nat}

theorem exec_unlink_none (h : s.entry p name = none) (ent : Nat) (e : Env) :
    ∃ err, exec s 0 (.unlink p name ent) e = some (some err, s) := by
  unfold Store.entry at h
  rw [exec]
  cases hm : (s.node p).children with
  | none => exact ⟨_, rfl⟩
  | some m =>
      have hname : m.lookup name = none := by rwa [hm] at h
      dsimp only
      rw [hname]
      exact ⟨_, rfl⟩

theorem exec_unlink_some (h : s.entry p name = some n) (ent : Nat) (e : Env) :
    ∃ s', exec s 0 (.unlink p name ent) e = some (none, s') ∧ s'.entry p name = none := by
  unfold Store.entry at h
  rw [exec]
  cases hm : (s.node p).children with
  | none =>
      rw [hm] at h
      cases h
  | some m =>
      have hname : m.lookup name = some n := by rwa [hm] at h
      dsimp only
      rw [hname]
      refine ⟨_, rfl, ?_⟩
      rw [Store.entry, Store.set_node]
      exact AList.lookup_erase name m

/-- What gives back adds no names. -/
theorem entry_none_of_gives {α : Type} {a : α} {b : M α} (hb : b.Only Cmd.Gives)
    (h : s.entry p name = none) (hrun : run exec 0 env b s i = .returned a s' i') :
    s'.entry p name = none := by
  have hstep : ∀ {s₁ s₂ : Store} {c : Cmd} {e : Env} {r : c.Res}, s₁.entry p name = none →
      c.Gives → exec s₁ 0 c e = some (r, s₂) → s₂.entry p name = none := by
    intro s₁ s₂ c e r h₁ hc hexec
    cases c with
    | decr n =>
        cases hexec
        unfold Store.entry at h₁ ⊢
        rwa [Store.set_congr Node.children (f := (s₁.node n).addRef (-1)) rfl]
    | children n =>
        cases hexec
        exact h₁
    | drop n =>
        cases hexec
        by_cases hp : p = n
        · rw [hp, Store.entry, Store.set_node]
          rfl
        · rw [Store.entry, Store.set_node_of_ne _ _ hp]
          exact h₁
    | _ => exact hc.elim
  have hheeds : b.Heeds exec 0 env (fun _ c => c.Gives) s i := hb.heeds (fun _ _ hc => hc) s i
  exact hheeds.run (I := fun s => s.entry p name = none) hstep h hrun

end Entry

/-! ## `Remove` -/

section Remove

variable {s s' : Store} {k : Key} {h : Handle} {p n : Nat} {env : Nat → Env} {r : Ret}

/-- The tree from the root down is what it was, but that the references of the
handle are given back; so are all other handles. -/
structure OnlyClunks (s : Store) (k : Key) (h : Handle) (s' : Store) : Prop where
  node : ∀ m, s.Below 0 m → s'.node m = (s.node m).addRef (-(h.chain.count m : Int))
  handles : s'.handles = s.handles.erase k
  files : s'.files = s.files
  next : s'.next = s.next
  lastpath : s'.lastpath = s.lastpath

/-- `Remove` deletes the entry of its own node and no other, and without an entry
it is a `Clunk`. -/
structure RemovesOwn (s : Store) (k : Key) (h : Handle) (p : Nat) (s' : Store) : Prop where
  deletes : s.entry p (s.node h.ent).info.name ≠ none ∧ s'.entry p (s.node h.ent).info.name = none ↔
    s.entry p (s.node h.ent).info.name = some h.ent
  clunks : s.entry p (s.node h.ent).info.name ≠ some h.ent → OnlyClunks s k h s'

/-- The commands before the entry is taken away, and what comes after. -/
theorem remove_returned (hk : s.Live k h) (hp : h.parents.getLast? = some p) {err : Option Err}
    {s₁ : Store} (hunlink : exec { s with handles := s.handles.erase k } 0
      (.unlink p (s.node h.ent).info.name h.ent) (env 2) = some (err, s₁))
    (hrun : perform s (.remove k) env = .returned r s' n) :
    ∃ err' s₂ i, run exec 0 env (match err with
        | some err => pure (some err)
        | none => do
            let _ ← decref (s.next + 1) h.ent
            return none) s₁ 3 = .returned err' s₂ i ∧
      run exec 0 env (release (s.next + 1) h) s₂ i = .returned () s' n := by
  obtain ⟨err₀, _, _, hremove, ⟨⟩⟩ := returned_bind hrun
  obtain ⟨_, s₂, i, hhead, htail⟩ := returned_bind
    ((run_then (exec_consume hk (env 0))).symm.trans hremove)
  obtain ⟨_, _, _, hrelease, ⟨⟩⟩ := returned_bind htail
  rw [unlinkEnt, hp] at hhead
  have hnext := (run_then hunlink).symm.trans hhead
  cases err <;> exact ⟨err₀, s₂, i, hnext, hrelease⟩

/-- The name is there: it is taken away, whatever it leads to. -/
theorem remove_present (hk : s.Live k h) (hp : h.parents.getLast? = some p) {c : Nat}
    (hc : s.entry p (s.node h.ent).info.name = some c)
    (hrun : perform s (.remove k) env = .returned r s' n) :
    s'.entry p (s.node h.ent).info.name = none := by
  obtain ⟨s₁, hunlink, hnone⟩ := exec_unlink_some
    (s := { s with handles := s.handles.erase k }) hc h.ent (env 2)
  obtain ⟨err', s₂, i, hhead, hrelease⟩ := remove_returned hk hp hunlink hrun
  have hgives : Prog.Only Cmd.Gives (do
      let _ ← decref (s.next + 1) h.ent
      return none : M (Option Err)) := (decref_gives _).bind fun _ => trivial
  have h₂ := entry_none_of_gives hgives hnone hhead
  exact entry_none_of_gives (release_gives h) h₂ hrelease

/-- The name is not there. -/
theorem remove_absent (hinv : Inv False s fun _ => Hand.empty) (hk : s.Live k h)
    (hp : h.parents.getLast? = some p) (hnone : s.entry p (s.node h.ent).info.name = none)
    (hrun : perform s (.remove k) env = .returned r s' n) : OnlyClunks s k h s' := by
  obtain ⟨err, hunlink⟩ := exec_unlink_none
    (s := { s with handles := s.handles.erase k }) hnone h.ent (env 2)
  obtain ⟨err', s₂, i, ⟨⟩, hrelease⟩ := remove_returned hk hp hunlink hrun
  have hidle : Hand.empty.Idle := ⟨rfl, rfl, rfl, rfl, rfl⟩
  obtain ⟨o, ⟨edge, -, hpath, ho⟩, hinv'⟩ := exec_keeps_alone (c := .consume k)
    (alone_empty ▸ hinv) hidle.locked trivial (exec_consume hk (env 0))
  have htoks : o.toks = h.ent :: h.parents.reverse := by
    rw [ho]
    exact List.append_nil _
  have hholds : o.Holds h := by
    refine ⟨htoks, ?_, ?_, ?_, ?_, ?_⟩ <;> rw [ho]
    · rfl
    · rfl
    · rfl
    · rfl
    · exact hpath
  have hgiving := release_giving hinv' hholds hrelease
  refine ⟨fun m hm => ?_, hgiving.handles, hgiving.files, hgiving.next, hgiving.lastpath⟩
  have hcount : o.toks.count m = h.chain.count m := by
    rw [htoks]
    exact h.chain_perm.count_eq m
  have hnode := hgiving.node m hm
  rwa [hcount, List.count_nil, Int.natCast_zero, Int.zero_sub] at hnode

/-- **`Remove`** of a handle that is not the root's, in any state that is reached:
it returns, and it is right about its own node exactly when the name has not
been given to another. -/
theorem remove_own_iff {now : Time} (hs : Reachable after (init now) s) (hk : s.Live k h)
    (hp : h.parents.getLast? = some p) (env : Nat → Env) :
    ∃ r s' n, perform s (.remove k) env = .returned r s' n ∧
      (RemovesOwn s k h p s' ↔ s.entry p (s.node h.ent).info.name = none ∨
        s.entry p (s.node h.ent).info.name = some h.ent) := by
  have hinv := inv_reached hs
  have hop : Issued s (.remove k) := by
    show (s.handles.lookup k).isSome
    rw [hk]
    rfl
  obtain ⟨r, s', n, hrun, -⟩ := hinv.performs hop env
  refine ⟨r, s', n, hrun, ?_⟩
  cases hentry : s.entry p (s.node h.ent).info.name with
  | none =>
      refine ⟨fun _ => Or.inl rfl, fun _ => ⟨?_, fun _ => remove_absent hinv hk hp hentry hrun⟩⟩
      rw [hentry]
      exact ⟨fun hdel => absurd rfl hdel.1, nofun⟩
  | some c =>
      have hdel := remove_present hk hp hentry hrun
      constructor
      · intro hown
        have hc := hown.deletes.mp ⟨by rw [hentry]; nofun, hdel⟩
        exact Or.inr (hentry.symm.trans hc)
      · intro hc
        have hc := hentry.trans (hc.resolve_left nofun)
        refine ⟨⟨fun _ => hc, fun _ => ⟨by rw [hentry]; nofun, hdel⟩⟩, fun hne => absurd hc hne⟩

end Remove

/-! ## Two clients -/

/-- One makes the file `f`, to which the other walks. -/
def sharesFile : List (Op × (Nat → Env)) :=
  [Op.attach (0, 0) [], .create (0, 0) (0, 1) (lit "f") 0o644 0, .attach (1, 0) [],
    .walk (1, 0) (1, 1) [lit "f"]].map fun op => (op, fun _ => still)

/-- The first removes it, and makes another one. -/
def remakesFile : List (Op × (Nat → Env)) :=
  [Op.remove (0, 1), .attach (0, 2) [], .create (0, 2) (0, 3) (lit "f") 0o644 0].map
    fun op => (op, fun _ => still)

theorem remove_own_iff_sharesFile :
    ∃ s h r s' n, Conc.exec after (init Time.zero) sharesFile = some s ∧ s.Live (1, 1) h ∧
      perform s (.remove (1, 1)) (fun _ => still) = .returned r s' n ∧
      RemovesOwn s (1, 1) h 0 s' := by
  obtain ⟨s, h, hs, hk, hp, hentry⟩ : ∃ s h, Conc.exec after (init Time.zero) sharesFile = some s ∧
      s.Live (1, 1) h ∧ h.parents.getLast? = some 0 ∧
      s.entry 0 (s.node h.ent).info.name = some h.ent :=
    ⟨_, _, rfl, rfl, rfl, rfl⟩
  obtain ⟨r, s', n, hrun, hiff⟩ := remove_own_iff ⟨_, hs⟩ hk hp fun _ => still
  exact ⟨s, h, r, s', n, hs, hk, hrun, hiff.mpr (Or.inr hentry)⟩

/-- The second removes the file it walked to, node 1, and the new file, node 2,
is gone. -/
theorem remove_takes_another :
    ∃ s h s', Conc.exec after (init Time.zero) (sharesFile ++ remakesFile) = some s ∧
      s.Live (1, 1) h ∧ h.ent = 1 ∧ h.parents = [0] ∧ (s.node 1).info.name = lit "f" ∧
      s.entry 0 (lit "f") = some 2 ∧ after s (.remove (1, 1), fun _ => still) = some s' ∧
      s'.entry 0 (lit "f") = none :=
  ⟨_, _, _, rfl, rfl, rfl, rfl, rfl, rfl, rfl, rfl⟩

end P9p.Ramfs
