/-
# One operation at a time

Operations that are executed one after the other, each run alone to its end.
Its commands can always be executed, if the handle it is called on is live
(`Issued`); the recursion of `decref` ends because links lead to newer nodes.
-/
import P9p.Lib.Trail
import P9p.Ramfs.Operations

namespace P9p.Ramfs

open Conc Tally

variable {α : Type} {o : Hand} {f : Node} {h : Handle} {k' : Key}

/-- Run an operation.  No chain of links is longer than there are nodes. -/
def perform (s : Store) (op : Op) (env : Nat → Env) : Outcome Cmd Ret Store :=
  run exec 0 env (op.prog (s.next + 1)) s 0

/-- The server after an operation, if it returns. -/
def after (s : Store) (act : Op × (Nat → Env)) : Option Store :=
  match perform s act.1 act.2 with
  | .returned _ s' _ => some s'
  | _ => none

theorem after_eq_some {s s' : Store} {op : Op} {env : Nat → Env} (h : after s (op, env) = some s') :
    ∃ r n, perform s op env = .returned r s' n := by
  unfold after at h
  split at h
  · rename_i r s'' n hrun
    cases h
    exact ⟨r, n, hrun⟩
  · cases h

theorem after_of_returned {s s' : Store} {op : Op} {env : Nat → Env} {r : Ret} {n : Nat}
    (h : perform s op env = .returned r s' n) : after s (op, env) = some s' := by
  rw [after, h]

/-! ## The invariant -/

section Keeps

variable {E : Prop} {s s' : Store}

/-- The name that `Remove` takes away is not that of another node.  Only exact
counts ask for it. -/
def Own (E : Prop) (s : Store) : Cmd → Prop
  | .unlink p name ent => E → s.entry p name = none ∨ s.entry p name = some ent
  | _ => True

theorem heeds_own (p : M α) (env : Nat → Env) (s : Store) (i : Nat) :
    p.Heeds exec 0 env (Own False) s i := by
  refine Prog.heeds_of_forall (fun s c => ?_) p s i
  cases c with
  | unlink p name ent => exact False.elim
  | _ => trivial

/-- One operation, with the hand `o`. -/
def alone (o : Hand) : Nat → Hand := Function.update (fun _ => Hand.empty) 0 o

theorem alone_zero (o : Hand) : alone o 0 = o := Function.update_self ..

theorem alone_of_ne (o : Hand) {t : Nat} (ht : t ≠ 0) : alone o t = Hand.empty :=
  Function.update_of_ne ht ..

theorem update_alone (o o' : Hand) : Function.update (alone o) 0 o' = alone o' :=
  Function.update_idem ..

theorem alone_empty : alone Hand.empty = fun _ => Hand.empty :=
  Function.update_eq_self (f := fun _ => Hand.empty) 0

theorem Inv.quiet (h : Inv E s (alone o)) (ho : o.locked = none) : s.Quiet := by
  intro slot hslot
  obtain ⟨k, hk⟩ := mem_values.mp hslot
  obtain ⟨hd, busy⟩ := slot
  cases busy with
  | false => rfl
  | true =>
      obtain ⟨t, ht⟩ := h.locks.busy k hd hk
      by_cases h0 : t = 0
      · rw [h0, alone_zero, ho] at ht
        cases ht
      · rw [alone_of_ne o h0] at ht
        cases ht

theorem exec_keeps_alone {c : Cmd} {e : Env} {r : c.Res} (h : Inv E s (alone o)) (hpre : pre o c)
    (hown : Own E s c) (hexec : exec s 0 c e = some (r, s')) :
    ∃ o', post o c r o' ∧ Inv E s' (alone o') := by
  have hguard : Guard E s c := by
    cases c with
    | decr n =>
        obtain ⟨rest, -, -, hlocked, -⟩ := hpre
        exact h.quiet hlocked
    | unlink p name ent => exact hown
    | _ => trivial
  obtain ⟨o', hpost, hinv⟩ := exec_keeps h (Or.inr fun u => alone_of_ne o)
    ((alone_zero o).symm ▸ hpre) hguard hexec
  rw [alone_zero] at hpost
  rw [update_alone] at hinv
  exact ⟨o', hpost, hinv⟩

/-- What an operation has learned is forgotten. -/
theorem Inv.forget (h : Inv E s (alone o)) (ho : o.Idle) : Inv E s fun _ => Hand.empty := by
  have hinv : Inv E s (Function.update (alone o) 0 Hand.empty) := by
    refine h.same (Same.refl s) ?_ ?_ ?_ ?_ ⟨nofun, nofun, nofun, nofun, nofun, nofun⟩
      (fun _ => rfl) nofun
    · exact (alone_zero o).symm ▸ ho.toks.symm
    · exact (alone_zero o).symm ▸ ho.dying.symm
    · exact (alone_zero o).symm ▸ ho.taken.symm
    · exact (alone_zero o).symm ▸ ho.locked.symm
  rwa [update_alone, alone_empty] at hinv

/-- What an operation that returns leaves behind. -/
theorem perform_keeps {op : Op} {env : Nat → Env} {r : Ret} {n : Nat}
    (h : Inv E s fun _ => Hand.empty)
    (hown : (op.prog (s.next + 1)).Heeds exec 0 env (Own E) s 0)
    (hrun : perform s op env = .returned r s' n) : Inv E s' fun _ => Hand.empty := by
  have hmeets := Safe.run_heeds (I := fun s o => Inv E s (alone o)) exec_keeps_alone
    (op.prog_keeps (o := Hand.empty) ⟨rfl, rfl, rfl, rfl, rfl⟩) (alone_empty ▸ h) hown
  rw [show run exec 0 env (op.prog (s.next + 1)) s 0 = .returned r s' n from hrun] at hmeets
  obtain ⟨o', hidle, hinv'⟩ := hmeets
  exact hinv'.forget hidle

/-- Bounds from below ask for nothing. -/
theorem inv_after {act : Op × (Nat → Env)} (h : Inv False s fun _ => Hand.empty)
    (hs' : after s act = some s') : Inv False s' fun _ => Hand.empty := by
  obtain ⟨op, env⟩ := act
  obtain ⟨r, n, hrun⟩ := after_eq_some hs'
  exact perform_keeps h (heeds_own _ env s 0) hrun

theorem inv_reached {now : Time} (h : Reachable after (init now) s) :
    Inv False s fun _ => Hand.empty :=
  reachable_invariant (I := fun s => Inv False s fun _ => Hand.empty) inv_after
    (inv_init False now) h

end Keeps

/-! ## Every operation returns -/

section Ends

variable {env : Nat → Env} {s s' : Store} {i fuel n : Nat}

abbrev Ends {α : Type} (env : Nat → Env) (Q : α → Store → Prop) (p : M α) (s : Store) (i : Nat) :
    Prop :=
  p.Ends exec 0 env Q s i

/-- Links lead to newer nodes. -/
def Store.Ordered (s : Store) : Prop := ∀ p, ∀ c ∈ (s.node p).links, p < c ∧ c < s.next

/-- Links are only taken away, and handles stay. -/
structure Store.Shrinks (s s' : Store) : Prop where
  next : s'.next = s.next
  handles : s'.handles = s.handles
  links : ∀ p, (s'.node p).links ⊆ (s.node p).links

theorem Store.Shrinks.refl (s : Store) : s.Shrinks s := ⟨rfl, rfl, fun _ => List.Subset.refl _⟩

theorem Store.Shrinks.trans {s₁ s₂ s₃ : Store} (h : s₁.Shrinks s₂) (h' : s₂.Shrinks s₃) :
    s₁.Shrinks s₃ where
  next := h'.next.trans h.next
  handles := h'.handles.trans h.handles
  links p := List.Subset.trans (h'.links p) (h.links p)

theorem Store.Ordered.shrinks (hs : s.Ordered) (h : s.Shrinks s') : s'.Ordered := by
  intro p c hc
  rw [h.next]
  exact hs p c (h.links p hc)

theorem Store.Shrinks.set (hf : f.links ⊆ (s.node n).links) : s.Shrinks (s.set n f) := by
  refine ⟨rfl, rfl, fun p => ?_⟩
  by_cases hp : p = n
  · subst hp
    rwa [Store.set_node]
  · rw [Store.set_node_of_ne s f hp]
    exact List.Subset.refl _

theorem each_ends {f : Nat → M α} {I : Store → Prop} {l : List Nat}
    (hf : ∀ n ∈ l, ∀ s i, I s → Ends env (fun _ => I) (f n) s i) (hs : I s) :
    Ends env (fun as s' => as.length = l.length ∧ I s') (each f l) s i := by
  induction l generalizing s i with
  | nil => exact ⟨rfl, hs⟩
  | cons n l ih =>
      obtain ⟨hn, hl⟩ := List.forall_mem_cons.mp hf
      refine (hn s i hs).bind fun _ s₁ i₁ h₁ => (ih hl h₁).bind ?_
      rintro as s₂ i₂ ⟨hlength, h₂⟩
      exact ⟨congrArg (· + 1) hlength, h₂⟩

/-- A node has fewer nodes above it than there are after it, so `fuel` does not
run out. -/
theorem decref_ends (hs : s.Ordered) (hn : n < s.next) (hfuel : s.next ≤ fuel + n) :
    Ends env (fun _ s' => s.Shrinks s') (decref fuel n) s i := by
  induction fuel generalizing n s i with
  | zero => omega
  | succ fuel ih =>
      have hcount : s.Shrinks (s.set n ((s.node n).addRef (-1))) :=
        Store.Shrinks.set (List.Subset.refl _)
      refine Prog.Ends.cmd rfl ?_
      split
      · refine Prog.Ends.cmd rfl ?_
        generalize hs₁ : s.set n ((s.node n).addRef (-1)) = s₁ at hcount
        cases hm : (s₁.node n).children with
        | none => exact hcount
        | some m =>
            have hchildren : ∀ c ∈ ((env (i + 1)).order (values m)).1, n < c ∧ c < s.next := by
              intro c hc
              refine hs n c (hcount.links n ?_)
              rw [Node.links, hm]
              exact (((env (i + 1)).order (values m)).2.mem_iff).mp hc
            refine Prog.Ends.bind (each_ends (I := s.Shrinks) (fun c hc s₂ i₂ h₂ => ?_) hcount) ?_
            · obtain ⟨hlt, hbound⟩ := hchildren c hc
              have hnext := h₂.next
              refine (ih (hs.shrinks h₂) (by omega) (by omega)).mono fun _ _ h₃ => h₂.trans h₃
            · rintro _ s₂ i₂ ⟨-, h₂⟩
              exact Prog.Ends.cmd rfl (h₂.trans (Store.Shrinks.set (List.nil_subset _)))
      · exact hcount

theorem release_ends (hs : s.Ordered) (hchain : ∀ n ∈ h.chain, n < s.next) (hfuel : s.next ≤ fuel) :
    Ends env (fun _ _ => True) (release fuel h) s i := by
  refine Prog.Ends.bind (each_ends (I := s.Shrinks) (fun n hn s₁ i₁ h₁ => ?_) (.refl s))
    fun _ _ _ _ => trivial
  have hmem : n ∈ h.chain := by
    rcases List.mem_cons.mp hn with rfl | hn
    · exact mem_chain_ent h
    · exact List.mem_append_left _ (List.mem_reverse.mp hn)
  have hnext := h₁.next
  have hlt := hchain n hmem
  exact (decref_ends (hs.shrinks h₁) (by omega) (by omega)).mono fun _ _ h₂ => h₁.trans h₂

theorem exec_unlink_ends (p : Nat) (name : Bytes) (ent : Nat) (e : Env) :
    ∃ r s', exec s 0 (.unlink p name ent) e = some (r, s') ∧ s.Shrinks s' := by
  rw [exec]
  cases hm : (s.node p).children with
  | none => exact ⟨_, _, rfl, .refl s⟩
  | some m =>
      dsimp only
      cases hname : m.lookup name with
      | none => exact ⟨_, _, rfl, .refl s⟩
      | some c =>
          refine ⟨_, _, rfl, Store.Shrinks.set ?_⟩
          rw [Node.links, Node.links, hm]
          exact fun x hx => (perm_values hname).mem_iff.mpr (List.mem_cons_of_mem _ hx)

theorem unlinkEnt_ends (hs : s.Ordered) (hent : h.ent < s.next) (hfuel : s.next ≤ fuel) :
    Ends env (fun _ s' => s.Shrinks s') (unlinkEnt fuel h) s i := by
  unfold unlinkEnt
  split
  · exact .refl s
  · rename_i p hp
    refine Prog.Ends.cmd rfl ?_
    obtain ⟨r, s₁, hs₁, h₁⟩ :=
      exec_unlink_ends (s := s) p (s.node h.ent).info.name h.ent (env (i + 1))
    refine Prog.Ends.cmd hs₁ ?_
    cases r with
    | some err => exact h₁
    | none =>
        have hnext := h₁.next
        exact (decref_ends (hs.shrinks h₁) (by omega) (by omega)).bind fun _ _ _ h₂ => h₁.trans h₂

/-- A live handle that no operation uses. -/
def Store.Live (s : Store) (k : Key) (h : Handle) : Prop := s.handles.lookup k = some ⟨h, false⟩

/-- While it is locked. -/
def Store.Locked (s : Store) (k : Key) (h : Handle) : Prop := s.handles.lookup k = some ⟨h, true⟩

def Store.setSlot (s : Store) (k : Key) (slot : Slot) : Store :=
  { s with handles := s.handles.insert k slot }

theorem Store.lookup_setSlot (s : Store) (k : Key) (slot : Slot) :
    (s.setSlot k slot).handles.lookup k = some slot :=
  AList.lookup_insert _

theorem Store.lookup_setSlot_of_ne (s : Store) {k : Key} (slot : Slot) (hk : k' ≠ k) :
    (s.setSlot k slot).handles.lookup k' = s.handles.lookup k' :=
  AList.lookup_insert_ne hk

theorem exec_lock {k : Key} (hk : s.Live k h) (e : Env) :
    exec s 0 (.lock k) e = some (h, s.setSlot k ⟨h, true⟩) := by
  rw [exec, show s.handles.lookup k = some ⟨h, false⟩ from hk]
  rfl

theorem exec_unlock {k : Key} (hk : s.Locked k h) (e : Env) :
    exec s 0 (.unlock k) e = some ((), s.setSlot k ⟨h, false⟩) := by
  rw [exec, show s.handles.lookup k = some ⟨h, true⟩ from hk]
  rfl

theorem exec_consume {k : Key} (hk : s.Live k h) (e : Env) :
    exec s 0 (.consume k) e = some (h, { s with handles := s.handles.erase k }) := by
  rw [exec, show s.handles.lookup k = some ⟨h, false⟩ from hk]
  rfl

theorem exec_put {k : Key} (hk : s.handles.lookup k = none) (h : Handle) (e : Env) :
    exec s 0 (.put k h) e = some ((), s.setSlot k ⟨h, false⟩) := by
  rw [exec, hk]
  rfl

theorem exec_replace {k : Key} (hk : (s.handles.erase k).lookup k' = none) (h : Handle) (e : Env) :
    exec s 0 (.replace k k' h) e =
      some ((), { s with handles := (s.handles.erase k).insert k' ⟨h, false⟩ }) := by
  rw [exec, hk]
  rfl

theorem unlock_ends {k : Key} {Q : α → Store → Prop} (hk : s.Locked k h) {a : α}
    (ha : Q a (s.setSlot k ⟨h, false⟩)) : Ends env Q (do issue (.unlock k); return a) s i :=
  Prog.Ends.cmd (exec_unlock hk _) ha

/-- What is done with a locked handle leaves it locked. -/
theorem locked_ends {β : Type} {k : Key} {body : Handle → M α} {g : α → β} {Q : β → Store → Prop}
    (hk : s.Live k h)
    (hbody : ∀ i', Ends env (fun a s' => s'.Locked k h ∧ Q (g a) (s'.setSlot k ⟨h, false⟩)) (body h)
      (s.setSlot k ⟨h, true⟩) i') :
    Ends env Q
      (do let h : Handle ← issue (.lock k); let a ← body h; issue (.unlock k); return g a) s i := by
  refine Prog.Ends.cmd (exec_lock hk _) ((hbody _).bind ?_)
  rintro a s' i' ⟨hs', ha⟩
  exact unlock_ends hs' ha

/-- Operations that only look at the handle. -/
theorem withHandle_ends {k : Key} {body : Handle → M α} {Q : α → (Key → Option Nat) → Prop}
    (hk : s.Live k h)
    (hbody : ∀ i', Ends env
      (fun a s' => s'.handles = (s.setSlot k ⟨h, true⟩).handles ∧ Q a s'.files)
      (body h) (s.setSlot k ⟨h, true⟩) i') :
    Ends env (fun a s' => s'.Live k h ∧ Q a s'.files) (withHandle k body) s i := by
  refine locked_ends (g := fun a => a) hk fun i' => (hbody i').mono ?_
  rintro a s' ⟨hs', ha⟩
  exact ⟨(congrArg _ hs').trans (s.lookup_setSlot k _), s'.lookup_setSlot k _, ha⟩

theorem walkDown_finds (ref : Nat) (names : List Bytes) :
    Ends env (fun below s' => below = Trail.descend s.entry ref names ∧ s' = s)
      (walkDown ref names) s i := by
  induction names generalizing ref i with
  | nil => exact ⟨rfl, rfl⟩
  | cons name names ih =>
      refine Prog.Ends.cmd rfl ?_
      rw [Trail.descend]
      cases s.entry ref name with
      | none => exact ⟨rfl, rfl⟩
      | some c =>
          refine (ih c).bind ?_
          rintro _ _ _ ⟨rfl, rfl⟩
          exact ⟨rfl, rfl⟩

/-- A walk that gets as far as it should puts a handle there. -/
theorem walkFrom_ends {k : Key} (hk : s.Locked k h) (hk' : s.handles.lookup k' = none)
    (newpath : Bytes) (names : List Bytes) :
    Ends env (fun r s' => s'.Locked k h ∧
        (r.2.2 = none → names = [] ∨ r.1.length = names.length → ∃ h', s'.Live k' h'))
      (walkFrom h k' newpath names) s i := by
  -- up to the new handle, the table of handles does not change
  let I : Store → Prop := fun s' => s'.handles = s.handles
  have hlocked : ∀ s', I s' → s'.Locked k h := fun s' hs' => (congrArg _ hs').trans hk
  have hincrefs : ∀ l s i, I s → Ends env (fun as s' => as.length = l.length ∧ I s')
      (each (fun p => issue (.incref p)) l) s i :=
    fun l s i => each_ends fun n _ s i hs => Prog.Ends.cmd rfl hs
  have hinfos : ∀ l s i, I s → Ends env (fun as s' => as.length = l.length ∧ I s')
      (each (fun a => issue (.info a)) l) s i :=
    fun l s i => each_ends fun n _ s i hs => Prog.Ends.cmd rfl hs
  unfold walkFrom
  split
  · exact ⟨hk, nofun⟩
  · refine (walkDown_finds _ _).bind ?_
    rintro below s₁ i₁ ⟨hbelow, rfl⟩
    have hbelow : below.length ≤ _ := hbelow ▸ Trail.length_descend_le s₁.entry _ _
    have h₁ : I s₁ := rfl
    dsimp only
    split
    · exact ⟨hlocked s₁ h₁, nofun⟩
    · split
      · refine (hincrefs _ s₁ i₁ h₁).bind fun _ s₂ i₂ h₂ => ?_
        refine (hinfos _ s₂ i₂ h₂.2).bind fun infos s₃ i₃ h₃ => ?_
        have hnone : s₃.handles.lookup k' = none := (congrArg _ h₃.2).trans hk'
        have hne : k ≠ k' := by
          rintro rfl
          cases (hlocked s₃ h₃.2).symm.trans hnone
        refine Prog.Ends.cmd (exec_put hnone _ _) ⟨?_, fun _ _ => ⟨_, s₃.lookup_setSlot k' _⟩⟩
        exact (s₃.lookup_setSlot_of_ne _ hne).trans (hlocked s₃ h₃.2)
      · rename_i hshort
        refine (hinfos _ s₁ i₁ h₁).bind ?_
        rintro infos s₂ i₂ ⟨hlength, h₂⟩
        refine ⟨hlocked s₂ h₂, fun _ hqids => absurd ?_ hshort⟩
        rcases hqids with rfl | hqids
        · exact Nat.le_zero.mp hbelow
        · rw [← hlength, ← hqids]
          exact (List.length_map _).symm

theorem exec_link_ends (p : Nat) (info : Dir) (e : Env) :
    ∃ r s', exec s 0 (.link p info) e = some (r, s') ∧ s'.handles = s.handles := by
  rw [exec]
  cases (s.node p).children with
  | none => exact ⟨_, _, rfl, rfl⟩
  | some m =>
      dsimp only
      cases m.lookup info.name with
      | none => exact ⟨_, _, rfl, rfl⟩
      | some c => exact ⟨_, _, rfl, rfl⟩

/-- The parent's handle is replaced by that of the new file, or stays. -/
theorem create_ends {k : Key} (hk : s.Live k h) (hk' : k' ≠ k → s.handles.lookup k' = none)
    (name : Bytes) (perm : UInt32) (mode : Flag) :
    Ends env (fun err s' =>
        (err = none → ∃ h', s'.Live k' h' ∧ s'.files k' = some h'.ent) ∧
        (err ≠ none → s'.Live k h)) (create k k' name perm mode) s i := by
  have hfail : ∀ {s' : Store} {err : Err} {i}, s'.Locked k h → Ends env (fun err s' =>
      (err = none → ∃ h', s'.Live k' h' ∧ s'.files k' = some h'.ent) ∧
      (err ≠ none → s'.Live k h)) (do issue (.unlock k); return some err) s' i :=
    fun {s'} _ _ hs' => unlock_ends hs' ⟨nofun, fun _ => s'.lookup_setSlot k _⟩
  refine Prog.Ends.cmd (exec_lock hk _) ?_
  split
  · exact hfail (s.lookup_setSlot k _)
  · refine Prog.Ends.cmd rfl (Prog.Ends.cmd rfl ?_)
    obtain ⟨r, s₁, hs₁, h₁⟩ := exec_link_ends
      (s := { s with handles := s.handles.insert k ⟨h, true⟩, lastpath := s.lastpath + 1 }) h.ent
      (newDir (s.lastpath + 1) name h.uname (perm ^^^ (perm &&& umask)) (env (i + 2)).now)
      (env (i + 3))
    refine Prog.Ends.cmd hs₁ ?_
    cases r with
    | error err => exact hfail ((congrArg _ h₁).trans (AList.lookup_insert _))
    | ok ent =>
        have hfree : (s₁.handles.erase k).lookup k' = none := by
          rw [h₁]
          by_cases heq : k' = k
          · rw [heq, AList.lookup_erase]
          · rw [AList.lookup_erase_ne heq, AList.lookup_insert_ne heq]
            exact hk' heq
        refine Prog.Ends.cmd rfl (Prog.Ends.cmd rfl (Prog.Ends.cmd (exec_replace ?_ _ _) ?_))
        · exact hfree
        · exact ⟨fun _ => ⟨_, AList.lookup_insert _, Function.update_self ..⟩, absurd rfl⟩

theorem clunk_ends {k : Key} (hk : s.Live k h) (hs : s.Ordered)
    (hchain : ∀ n ∈ h.chain, n < s.next) (hfuel : s.next ≤ fuel) :
    Ends env (fun _ _ => True) (clunk fuel k) s i := by
  refine Prog.Ends.cmd (exec_consume hk _) ?_
  have hs' : Store.Ordered { s with handles := s.handles.erase k } := hs
  exact Prog.Ends.bind (release_ends hs' hchain hfuel) fun _ _ _ _ => trivial

theorem remove_ends {k : Key} (hk : s.Live k h) (hs : s.Ordered)
    (hchain : ∀ n ∈ h.chain, n < s.next) (hfuel : s.next ≤ fuel) :
    Ends env (fun _ _ => True) (remove fuel k) s i := by
  refine Prog.Ends.cmd (exec_consume hk _) ?_
  have hs' : Store.Ordered { s with handles := s.handles.erase k } := hs
  refine Prog.Ends.bind (unlinkEnt_ends hs' (hchain _ (mem_chain_ent h)) hfuel) ?_
  intro err s₁ i₁ h₁
  refine Prog.Ends.bind (release_ends (hs'.shrinks h₁) ?_ ?_) fun _ _ _ _ => trivial
  · rw [h₁.next]
    exact hchain
  · rw [h₁.next]
    exact hfuel

/-- What an operation asks for: the handle it is called on is live, a new one
gets a key that is free, a file has been opened, and offsets are not negative. -/
def Issued (s : Store) : Op → Prop
  | .attach k _ => s.handles.lookup k = none
  | .walk k k' _ => (s.handles.lookup k).isSome ∧ s.handles.lookup k' = none
  | .create k k' _ _ _ => (s.handles.lookup k).isSome ∧ (k' ≠ k → s.handles.lookup k' = none)
  | .clunk k | .remove k | .qid k | .stat k | .wstat k _ | .openDir k | .open k _ =>
      (s.handles.lookup k).isSome
  | .read k _ offset | .write k _ offset => (s.files k).isSome ∧ 0 ≤ offset.toInt

instance (s : Store) (op : Op) : Decidable (Issued s op) := by
  cases op <;> unfold Issued <;> infer_instance

theorem exec_list (s : Store) (n : Nat) (e : Env) :
    ∃ r, exec s 0 (.list n) e = some (r, s) ∧ ((s.node n).isDir → ∃ dirs, r = .ok dirs) := by
  rw [exec]
  split
  · exact ⟨_, rfl, fun _ => ⟨_, rfl⟩⟩
  · rename_i hdir
    exact ⟨_, rfl, fun h => absurd h hdir⟩

theorem Node.read_total (f : Node) (len : Nat) {offset : Int64} (h : 0 ≤ offset.toInt) :
    ∃ data err, f.read len offset = some (data, err) ∧ data.length ≤ len := by
  unfold Node.read
  dsimp only
  split
  · exact ⟨_, _, rfl, Nat.zero_le _⟩
  · rw [if_neg (Int.not_lt.mpr h)]
    refine ⟨_, _, rfl, Nat.le_trans (List.length_take_le ..) ?_⟩
    split <;> omega

theorem Node.write_total (f : Node) (p : Bytes) {offset : Int64} (h : 0 ≤ offset.toInt) :
    ∃ r g, f.write p offset = some (r, g) ∧ (r.2 ≠ none → g.data = f.data) := by
  unfold Node.write
  dsimp only
  split
  · exact ⟨_, _, rfl, fun _ => rfl⟩
  · rw [if_neg (Int.not_lt.mpr h)]
    exact ⟨_, _, rfl, absurd rfl⟩

theorem onFile_ends {k : Key} {body : Nat → M (Option α)} (hk : (s.files k).isSome)
    (hbody : ∀ n s i, Ends env (fun a _ => a.isSome) (body n) s i) :
    Ends env (fun _ _ => True) (onFile k body) s i := by
  obtain ⟨n, hn⟩ := Option.isSome_iff_exists.mp hk
  refine Prog.Ends.cmd (show exec s 0 (.getFile k) _ = some (some n, s) by rw [exec, hn]; rfl) ?_
  refine (hbody n s _).bind ?_
  rintro (_ | a) s' i' ha
  · cases ha
  · trivial

/-- What an operation returns, and what becomes of the handles and files that
it is called with. -/
def Op.Does (s : Store) : Op → Ret → Store → Prop
  | .attach k _, r, s' => r = .done none ∧ ∃ h, s'.Live k h
  | .walk k k' names, r, s' => ∃ h qids complete err,
      s.Live k h ∧ s'.Live k h ∧ r = .walked qids complete err ∧
        (err = none → names = [] ∨ qids.length = names.length → ∃ h', s'.Live k' h')
  | .create k k' _ _ _, r, s' => ∃ h err, s.Live k h ∧ r = .done err ∧
      (err = none → ∃ h', s'.Live k' h' ∧ s'.files k' = some h'.ent) ∧ (err ≠ none → s'.Live k h)
  | .clunk _, r, _ | .remove _, r, _ => ∃ err, r = .done err
  | .qid k, r, s' => ∃ h, s.Live k h ∧ s'.Live k h ∧ r = .qid (s.node h.ent).info.qid
  | .stat k, r, s' => ∃ h dir, s.Live k h ∧ s'.Live k h ∧ r = .dir dir
  | .wstat k _, r, s' => ∃ h err, s.Live k h ∧ s'.Live k h ∧ r = .done err
  | .openDir k, r, s' => ∃ h dirs, s.Live k h ∧ s'.Live k h ∧ r = .dirs dirs ∧
      ((s.node h.ent).isDir → ∃ l, dirs = .ok l)
  | .open k k', r, s' => ∃ h, s.Live k h ∧ s'.Live k h ∧ r = .done none ∧ s'.files k' = some h.ent
  | .read _ _ _, r, _ => ∃ data err, r = .data data err
  | .write _ _ _, r, _ => ∃ n err, r = .count n err

theorem Op.prog_ends {op : Op} {E : Prop} (hinv : Inv E s fun _ => Hand.empty) (hop : Issued s op)
    (hfuel : s.next ≤ fuel) : Ends env (op.Does s) (op.prog fuel) s i := by
  have hlive : ∀ {k}, (s.handles.lookup k).isSome → ∃ h, s.Live k h := by
    intro k hk
    obtain ⟨⟨h, busy⟩, hslot⟩ := Option.isSome_iff_exists.mp hk
    cases busy with
    | false => exact ⟨h, hslot⟩
    | true =>
        obtain ⟨t, ht⟩ := hinv.locks.busy k h hslot
        cases ht
  have hordered : s.Ordered := fun p c hc => ⟨(hinv.tree.edge hc).lt, (hinv.tree.edge hc).bound⟩
  have hchain : ∀ {k h}, s.Live k h → ∀ n ∈ h.chain, n < s.next :=
    fun hk => (hinv.tree.chain hk).lt hinv.tree.pos
  cases op with
  | attach k uname =>
      have hput := exec_put (s := s.set 0 ((s.node 0).addRef 1)) hop
      refine Prog.Ends.cmd rfl (Prog.Ends.cmd (hput _ _) ?_)
      exact ⟨rfl, _, Store.lookup_setSlot _ k _⟩
  | walk k k' names =>
      obtain ⟨h, hk⟩ := hlive hop.1
      have hne : k' ≠ k := by
        rintro rfl
        cases hk.symm.trans hop.2
      refine Prog.Ends.bind (Q := fun r s' => s'.Live k h ∧
          (r.2.2 = none → names = [] ∨ r.1.length = names.length → ∃ h', s'.Live k' h'))
        (locked_ends (g := fun a => a) hk fun i' => ?_) ?_
      · have hlocked : (s.setSlot k ⟨h, true⟩).Locked k h := s.lookup_setSlot k _
        unfold walkLocked
        split
        · exact ⟨hlocked, Store.lookup_setSlot _ k _, nofun⟩
        · have hnone := (s.lookup_setSlot_of_ne ⟨h, true⟩ hne).trans hop.2
          refine (walkFrom_ends hlocked hnone _ names).mono ?_
          rintro r s' ⟨hs', hr⟩
          refine ⟨hs', s'.lookup_setSlot k _, fun herr hlen => ?_⟩
          obtain ⟨h', hk'⟩ := hr herr hlen
          exact ⟨h', (s'.lookup_setSlot_of_ne _ hne).trans hk'⟩
      · rintro ⟨qids, complete, err⟩ s' i' ⟨hs', hr⟩
        exact ⟨h, qids, complete, err, hk, hs', rfl, hr⟩
  | create k k' name perm mode =>
      obtain ⟨h, hk⟩ := hlive hop.1
      refine (create_ends hk hop.2 name perm mode).bind ?_
      rintro err s' i' ⟨hok, hfail⟩
      exact ⟨h, err, hk, rfl, hok, hfail⟩
  | clunk k =>
      obtain ⟨h, hk⟩ := hlive hop
      exact (clunk_ends hk hordered (hchain hk) hfuel).bind fun err _ _ _ => ⟨err, rfl⟩
  | remove k =>
      obtain ⟨h, hk⟩ := hlive hop
      exact (remove_ends hk hordered (hchain hk) hfuel).bind fun err _ _ _ => ⟨err, rfl⟩
  | qid k =>
      obtain ⟨h, hk⟩ := hlive hop
      refine Prog.Ends.bind (withHandle_ends (Q := fun q _ => q = (s.node h.ent).info.qid) hk
        fun i' => ?_) ?_
      · exact Prog.Ends.cmd rfl ⟨rfl, rfl⟩
      · rintro q s' i' ⟨hs', rfl⟩
        exact ⟨h, hk, hs', rfl⟩
  | stat k =>
      obtain ⟨h, hk⟩ := hlive hop
      refine Prog.Ends.bind (withHandle_ends (Q := fun _ _ => True) hk fun i' => ?_) ?_
      · exact ⟨_, _, rfl, rfl, trivial⟩
      · exact fun dir s' i' hs' => ⟨h, dir, hk, hs'.1, rfl⟩
  | wstat k dir =>
      obtain ⟨h, hk⟩ := hlive hop
      refine Prog.Ends.bind (withHandle_ends (Q := fun _ _ => True) hk fun i' => ?_) ?_
      · exact ⟨_, _, rfl, rfl, trivial⟩
      · exact fun err s' i' hs' => ⟨h, err, hk, hs'.1, rfl⟩
  | openDir k =>
      obtain ⟨h, hk⟩ := hlive hop
      refine Prog.Ends.bind (withHandle_ends (Q := fun r _ => (s.node h.ent).isDir → ∃ l, r = .ok l)
        hk fun i' => Prog.Ends.cmd rfl ?_) fun r s' i' hs' => ⟨h, r, hk, hs'.1, rfl, hs'.2⟩
      obtain ⟨r, hr, hdirs⟩ := exec_list (s.setSlot k ⟨h, true⟩) h.ent (env (i' + 1))
      refine Prog.Ends.cmd hr ?_
      cases r with
      | error err =>
          refine ⟨rfl, fun hdir => ?_⟩
          obtain ⟨l, hl⟩ := hdirs hdir
          cases hl
      | ok dirs => exact ⟨rfl, fun _ => ⟨_, rfl⟩⟩
  | «open» k k' =>
      obtain ⟨h, hk⟩ := hlive hop
      refine Prog.Ends.bind (withHandle_ends (Q := fun _ files => files k' = some h.ent) hk
        fun i' => ?_) ?_
      · exact ⟨_, _, rfl, rfl, Function.update_self ..⟩
      · exact fun _ s' i' hs' => ⟨h, hk, hs'.1, rfl, hs'.2⟩
  | read k len offset =>
      refine (onFile_ends hop.1 fun n s i => ?_).bind fun r _ _ _ => ⟨r.1, r.2, rfl⟩
      obtain ⟨data, err, hr, -⟩ := (s.node n).read_total len hop.2
      exact ⟨some (data, err), s, by rw [exec, hr], rfl⟩
  | write k p offset =>
      refine (onFile_ends hop.1 fun n s i => ?_).bind fun r _ _ _ => ⟨r.1, r.2, rfl⟩
      obtain ⟨r, g, hr, -⟩ := (s.node n).write_total p hop.2
      exact ⟨some r, s.set n g, by rw [exec, hr], rfl⟩

/-- Operations return, and do what is said. -/
theorem Inv.performs {op : Op} {E : Prop} (h : Inv E s fun _ => Hand.empty) (hop : Issued s op)
    (env : Nat → Env) : ∃ r s' n, perform s op env = .returned r s' n ∧ op.Does s r s' :=
  Prog.Ends.run (op.prog_ends h hop (Nat.le_succ s.next))

theorem Inv.returns {op : Op} {E : Prop} (h : Inv E s fun _ => Hand.empty) (hop : Issued s op)
    (env : Nat → Env) : ∃ s', after s (op, env) = some s' := by
  obtain ⟨r, s', n, hrun, -⟩ := h.performs hop env
  exact ⟨s', after_of_returned hrun⟩

end Ends

/-! ## What every command keeps -/

section Grows

variable {s s' : Store} {t : Nat} {c : Cmd} {e : Env} {r : c.Res}

theorem Store.Grows.refl (s : Store) : s.Grows s :=
  ⟨Nat.le_refl _, fun _ _ => rfl, fun _ _ => rfl, fun _ _ => rfl⟩

theorem Store.Grows.trans {s₁ s₂ s₃ : Store} (h : s₁.Grows s₂) (h' : s₂.Grows s₃) :
    s₁.Grows s₃ where
  next := Nat.le_trans h.next h'.next
  home n hn := (h'.home n (Nat.lt_of_lt_of_le hn h.next)).trans (h.home n hn)
  name n hn := (h'.name n (Nat.lt_of_lt_of_le hn h.next)).trans (h.name n hn)
  type n hn := (h'.type n (Nat.lt_of_lt_of_le hn h.next)).trans (h.type n hn)

/-- What a command can do to the nodes. -/
inductive Store.Changes (s : Store) : Cmd → Store → Prop
  | same {c : Cmd} {s' : Store} (hnode : s'.node = s.node) (hnext : s'.next = s.next) :
      s.Changes c s'
  | count {c : Cmd} (n : Nat) (i : Int) : s.Changes c (s.set n ((s.node n).addRef i))
  | children {c : Cmd} {n : Nat} {m : Option Names}
      (hm : m ≠ none → (s.node n).children ≠ none) :
      s.Changes c (s.set n ((s.node n).withChildren m))
  | link {p : Nat} {m : Names} {info : Dir} (hm : (s.node p).children = some m) :
      s.Changes (.link p info) (s.linkNew p m info)
  | wstat (n : Nat) (dir : Dir) : s.Changes (.wstat n dir) (s.set n ((s.node n).wstat dir).2)
  | write {n : Nat} {p : Bytes} {offset : Int64} {r : Nat × Option Err} {f : Node}
      (hf : (s.node n).write p offset = some (r, f)) : s.Changes (.write n p offset) (s.set n f)

theorem exec_changes (h : exec s t c e = some (r, s')) : s.Changes c s' := by
  cases c with
  | lock k | unlock k | consume k | put k h | replace k k' h =>
      simp only [exec] at h
      split at h
      · cases h
        exact .same rfl rfl
      · cases h
  | incref n | decr n =>
      cases h
      exact .count n _
  | drop n =>
      cases h
      exact .children (absurd rfl)
  | link p info =>
      simp only [exec] at h
      split at h
      · cases h
        exact .same rfl rfl
      · rename_i m hm
        split at h
        · cases h
          exact .same rfl rfl
        · cases h
          exact .link hm
  | unlink p name ent =>
      simp only [exec] at h
      split at h
      · cases h
        exact .same rfl rfl
      · rename_i m hm
        split at h
        · cases h
          exact .same rfl rfl
        · cases h
          exact .children fun _ hnone => by cases hm.symm.trans hnone
  | list n =>
      simp only [exec] at h
      split at h <;> cases h <;> exact .same rfl rfl
  | wstat n dir =>
      cases h
      exact .wstat n dir
  | write n p offset =>
      simp only [exec] at h
      split at h
      · cases h
        exact .same rfl rfl
      · rename_i hf
        cases h
        exact .write hf
  | _ =>
      cases h
      exact .same rfl rfl

theorem Store.Changes.grows (h : s.Changes c s') : s.Grows s' := by
  cases h with
  | same hnode hnext =>
      refine ⟨Nat.le_of_eq hnext.symm, fun _ _ => ?_, fun _ _ => ?_, fun _ _ => ?_⟩ <;> rw [hnode]
  | count n i => exact grows_addRef i
  | children hm => exact grows_withChildren _
  | link hm => exact grows_linkNew
  | wstat n dir => exact (same_wstat n dir).grows
  | write hf => exact (same_write hf).grows

/-- What has a map is a directory. -/
def Store.Mapped (s : Store) : Prop := ∀ n, (s.node n).children ≠ none → (s.node n).IsDirectory

theorem mapped_init (now : Time) : (init now).Mapped := by
  rintro (_ | n) hn
  · exact (by decide : qtdir &&& qtdir ≠ 0)
  · exact absurd rfl hn

theorem Store.Mapped.set {n : Nat} (h : s.Mapped)
    (htype : f.info.qid.type = (s.node n).info.qid.type)
    (hchildren : f.children ≠ none → (s.node n).children ≠ none) : (s.set n f).Mapped := by
  intro m hm
  by_cases hmn : m = n
  · subst hmn
    rw [Store.set_node] at hm ⊢
    rw [Node.IsDirectory, htype]
    exact h m (hchildren hm)
  · rw [Store.set_node_of_ne s f hmn] at hm ⊢
    exact h m hm

theorem Same.mapped (h : Same s s') (hs : s.Mapped) : s'.Mapped := by
  intro n hn
  rw [h.children] at hn
  rw [Node.IsDirectory, h.type]
  exact hs n hn

theorem Store.Changes.mapped (h : s.Changes c s') (hs : s.Mapped) : s'.Mapped := by
  cases h with
  | same hnode hnext =>
      intro n
      rw [hnode]
      exact hs n
  | count n i => exact hs.set rfl fun hn => hn
  | children hm => exact hs.set rfl hm
  | @link p m info hm =>
      intro n hn
      by_cases hnew : n = s.next
      · rw [hnew, Store.linkNew_self] at hn ⊢
        by_contra hdir
        exact hn (if_neg hdir)
      · by_cases hp : n = p
        · rw [hp, Store.linkNew_parent (hp ▸ hnew)]
          exact hs p fun hnone => nomatch hm.symm.trans hnone
        · rw [Store.linkNew_of_ne hp hnew] at hn ⊢
          exact hs n hn
  | wstat n dir => exact (same_wstat n dir).mapped hs
  | write hf => exact (same_write hf).mapped hs

/-- Handles with other keys stay. -/
theorem exec_handle {k : Key} (hk : k ∉ c.keys) (h : exec s t c e = some (r, s')) :
    s'.handles.lookup k = s.handles.lookup k := by
  cases c with
  | lock k' | unlock k' | put k' _ =>
      simp only [exec] at h
      split at h
      · cases h
        exact AList.lookup_insert_ne (List.ne_of_not_mem_cons hk)
      · cases h
  | consume k' =>
      simp only [exec] at h
      split at h
      · cases h
        exact AList.lookup_erase_ne (List.ne_of_not_mem_cons hk)
      · cases h
  | replace k₁ k₂ _ =>
      simp only [exec] at h
      split at h
      · cases h
        have hk₁ : k ≠ k₁ := List.ne_of_not_mem_cons hk
        have hk₂ : k ≠ k₂ := List.ne_of_not_mem_cons (List.not_mem_of_not_mem_cons hk)
        exact (AList.lookup_insert_ne hk₂).trans (AList.lookup_erase_ne hk₁)
      · cases h
  | link _ _ | unlink _ _ _ =>
      simp only [exec] at h
      split at h
      · cases h
        rfl
      · split at h <;> cases h <;> rfl
  | list _ | write _ _ _ =>
      simp only [exec] at h
      split at h <;> cases h <;> rfl
  | _ =>
      cases h
      rfl

theorem exec_file {k : Key} (hk : k ∉ c.opens) (h : exec s t c e = some (r, s')) :
    s'.files k = s.files k := by
  cases c with
  | setFile k' n =>
      cases h
      exact Function.update_of_ne (List.ne_of_not_mem_cons hk) ..
  | lock _ | unlock _ | consume _ | put _ _ | replace _ _ _ =>
      simp only [exec] at h
      split at h <;> cases h
      rfl
  | link _ _ | unlink _ _ _ =>
      simp only [exec] at h
      split at h
      · cases h
        rfl
      · split at h <;> cases h <;> rfl
  | list _ | write _ _ _ =>
      simp only [exec] at h
      split at h <;> cases h <;> rfl
  | _ =>
      cases h
      rfl

section Perform

variable {op : Op} {env : Nat → Env} {ret : Ret} {n : Nat}

/-- What the commands of an operation keep, the operation keeps. -/
theorem perform_invariant {I : Store → Prop}
    (hstep : ∀ {s s' : Store} {c : Cmd} {e : Env} {r : c.Res}, I s → op.Uses c →
      exec s 0 c e = some (r, s') → I s')
    (hs : I s) (h : perform s op env = .returned ret s' n) : I s' := by
  have hall : (op.prog (s.next + 1)).Heeds exec 0 env (fun _ => op.Uses) s 0 :=
    op.prog_only.heeds (fun _ _ hc => hc) s 0
  exact hall.run hstep hs h

/-- Of `WStat`, its one command on the node of the handle matters. -/
theorem wstat_heeds {G : Store → Cmd → Prop} {k : Key} {dir : Dir} {fuel : Nat}
    (hlock : G s (.lock k)) (hunlock : ∀ s', G s' (.unlock k))
    (hwstat : ∀ slot ∈ s.handles.lookup k, ∀ s', s'.node = s.node →
      G s' (.wstat slot.handle.ent dir)) :
    ((Op.wstat k dir).prog fuel).Heeds exec 0 env G s 0 := by
  refine Prog.Heeds.bind ?_ fun _ _ _ => trivial
  refine Prog.Heeds.cmd hlock fun h s₁ hs₁ => ?_
  simp only [exec] at hs₁
  split at hs₁
  · rename_i hd hk
    cases hs₁
    refine Prog.Heeds.cmd (hwstat _ hk _ rfl) fun _ s₂ _ => ?_
    exact Prog.Heeds.cmd (hunlock s₂) fun _ _ _ => trivial
  · cases hs₁

theorem perform_grows (h : perform s op env = .returned ret s' n) : s.Grows s' :=
  perform_invariant (I := s.Grows) (fun hg _ hexec => hg.trans (exec_changes hexec).grows)
    (.refl s) h

theorem perform_mapped (hs : s.Mapped) (h : perform s op env = .returned ret s' n) : s'.Mapped :=
  perform_invariant (fun hm _ hexec => (exec_changes hexec).mapped hm) hs h

theorem perform_handle {k : Key} (hk : k ∉ op.keys) (h : perform s op env = .returned ret s' n) :
    s'.handles.lookup k = s.handles.lookup k := by
  refine perform_invariant (I := fun s' => s'.handles.lookup k = s.handles.lookup k)
    (fun hs hc hexec => ?_) rfl h
  exact (exec_handle (fun hmem => hk (hc.keys hmem)) hexec).trans hs

theorem perform_file {k : Key} (hk : k ∉ op.opens) (h : perform s op env = .returned ret s' n) :
    s'.files k = s.files k := by
  refine perform_invariant (I := fun s' => s'.files k = s.files k) (fun hs hc hexec => ?_) rfl h
  exact (exec_file (fun hmem => hk (hc.opens hmem)) hexec).trans hs

end Perform

end Grows

/-! ## Files -/

section Files

variable {s s' : Store} {k : Key} {n : Nat} {env : Nat → Env}

theorem run_onFile (hfile : s.files k = some n) {b : Nat → M (Option α)} {a : α}
    (hb : run exec 0 env (b n) s 1 = .returned (some a) s' 2) :
    run exec 0 env (onFile k b) s 0 = .returned a s' 2 := by
  refine (run_then rfl).trans ?_
  rw [hfile]
  exact run_bind_returned hb _

theorem perform_read (hfile : s.files k = some n) {len : Nat} {offset : Int64} {data : Bytes}
    {err : Option Err} (hread : (s.node n).read len offset = some (data, err)) :
    perform s (.read k len offset) env = .returned (.data data err) s 2 := by
  have hexec : exec s 0 (.read n len offset) (env 1) = some (some (data, err), s) := by
    rw [exec, hread]
    rfl
  exact run_bind_returned (run_onFile hfile (b := fun n => issue (.read n len offset))
    (run_next hexec)) _

theorem perform_write (hfile : s.files k = some n) {p : Bytes} {offset : Int64}
    {r : Nat × Option Err} (hwrite : (s.node n).write p offset = some (r, f)) :
    perform s (.write k p offset) env = .returned (.count r.1 r.2) (s.set n f) 2 := by
  have hexec : exec s 0 (.write n p offset) (env 1) = some (some r, s.set n f) := by
    rw [exec, hwrite]
    rfl
  exact run_bind_returned (run_onFile hfile (b := fun n => issue (.write n p offset))
    (run_next hexec)) _

theorem Node.read_backward (f : Node) (len : Nat) {offset : Int64} (h : offset.toInt < 0) :
    f.read len offset = none := by
  rw [Node.read, if_neg (by omega), if_pos h]

theorem Node.write_backward (f : Node) (p : Bytes) {offset : Int64} (h : offset.toInt < 0) :
    f.write p offset = none := by
  rw [Node.write, if_neg (by omega), if_pos h]

/-- A panic. -/
theorem run_onFile_crash (hfile : s.files k = some n) {b : Nat → M (Option α)}
    (hb : run exec 0 env (b n) s 1 = .returned none s' 2) :
    run exec 0 env (onFile k b) s 0 = .crashed s' := by
  refine (run_then rfl).trans ?_
  rw [hfile]
  exact run_bind_returned hb _

theorem perform_read_crash (hfile : s.files k = some n) {len : Nat} {offset : Int64}
    (hread : (s.node n).read len offset = none) :
    perform s (.read k len offset) env = .crashed s := by
  have hexec : exec s 0 (.read n len offset) (env 1) = some (none, s) := by
    rw [exec, hread]
    rfl
  have hcrash := run_onFile_crash hfile (b := fun n => issue (.read n len offset)) (run_next hexec)
  refine (run_bind ..).trans ?_
  rw [show run exec 0 env (read k len offset) s 0 = .crashed s from hcrash]

theorem perform_write_crash (hfile : s.files k = some n) {p : Bytes} {offset : Int64}
    (hwrite : (s.node n).write p offset = none) :
    perform s (.write k p offset) env = .crashed s := by
  have hexec : exec s 0 (.write n p offset) (env 1) = some (none, s) := by
    rw [exec, hwrite]
    rfl
  have hcrash := run_onFile_crash hfile (b := fun n => issue (.write n p offset)) (run_next hexec)
  refine (run_bind ..).trans ?_
  rw [show run exec 0 env (write k p offset) s 0 = .crashed s from hcrash]

end Files

end P9p.Ramfs
