/-
# Every command keeps the counts

`exec_keeps` is the step of all arguments about references: every command that
an operation may issue keeps the invariant, if two things are so.

* No node is counted down while a handle is in use.  What `Walk` has found would
  be gone before it has its reference.
* A name is taken away only from the node on whose behalf it is.  For counts that
  are not exact this is not asked, but then no other operation is under way.
-/
import P9p.Ramfs.Hands

namespace P9p.Ramfs

open Conc Tally

variable {g : Node} {T : Nat → Prop} {info : Dir}

/-! ## Counting -/

section Counting

variable {E : Prop} {s s' : Store} {f : Nat → Hand} {t n p : Nat} {o : Hand}

theorem Inv.anchored (h : Inv E s f) (ha : s.Anchored (Taken f) n) : 1 ≤ (s.node n).nref := by
  obtain ⟨K, -, hcounted⟩ := h.counted
  exact hcounted.anchored h.tree ha

theorem Inv.toks_alive (h : Inv E s f) (hE : E) (hn : n ∈ (f t).toks) : 1 ≤ (s.node n).nref := by
  obtain ⟨K, hK, hcounted⟩ := h.counted
  have hle := (hK n).le t
  have hone : 1 ≤ (f t).toks.count n := List.count_pos_iff.mpr hn
  have := hcounted.lower n (Or.inl hE)
  omega

theorem Inv.held_alive (h : Inv E s f) (hE : E) (hn : n ∈ s.held) : 1 ≤ (s.node n).nref := by
  obtain ⟨K, -, hcounted⟩ := h.counted
  have hone : 1 ≤ s.held.count n := List.count_pos_iff.mpr hn
  have := hcounted.lower n (Or.inl hE)
  rw [Store.refs] at this
  omega

/-- What has a reference is not being taken out. -/
theorem Inv.not_doomed (h : Inv E s f) (hE : E) (hn : 1 ≤ (s.node n).nref) :
    ¬ Taken f n ∧ ¬ Dying f n := by
  constructor
  · intro hT
    have := (h.vital.doomed n (Or.inl hT)).2 hE
    omega
  · intro hD
    have := (h.vital.doomed n (Or.inr hD)).2 hE
    omega

theorem grows_set (hhome : g.home = (s.node n).home) (hname : g.info.name = (s.node n).info.name)
    (htype : g.info.qid.type = (s.node n).info.qid.type) : s.Grows (s.set n g) :=
  ⟨Nat.le_refl _, fun m _ => Store.set_congr Node.home hhome m,
    fun m _ => Store.set_congr (fun g => g.info.name) hname m,
    fun m _ => Store.set_congr (fun g => g.info.qid.type) htype m⟩

theorem grows_addRef (i : Int) : s.Grows (s.set n ((s.node n).addRef i)) := grows_set rfl rfl rfl

theorem grows_withChildren (m : Option Names) : s.Grows (s.set n ((s.node n).withChildren m)) :=
  grows_set rfl rfl rfl

theorem Store.Tree.addRef (h : s.Tree) (hn : n < s.next) (i : Int) :
    (s.set n ((s.node n).addRef i)).Tree := by
  have hg : s.Grows (s.set n ((s.node n).addRef i)) := grows_addRef i
  refine h.shrink hg rfl (fun p name c hc => ?_) (fun m hm => ?_) fun k slot hk =>
    hg.chain (h.chain hk)
  · have hchildren : ((s.set n ((s.node n).addRef i)).node p).children = (s.node p).children :=
      Store.set_congr (f := (s.node n).addRef i) Node.children rfl p
    rwa [Store.entry, hchildren] at hc
  · rw [Store.set_node_of_ne s _ (by omega)]
    exact h.blank m hm

/-- Where only counts change, the same nodes are anchored. -/
theorem anchored_addRef {i : Int} {m : Nat} :
    (s.set n ((s.node n).addRef i)).Anchored T m ↔ s.Anchored T m :=
  anchored_congr (Store.set_congr Node.links rfl) fun _ => Iff.rfl

theorem Vital.addRef {D : Nat → Prop} {i : Int} (h : Vital E s T D)
    (hzero : ∀ m, E → (s.node m).nref ≤ 0 → ((s.set n ((s.node n).addRef i)).node m).nref ≤ 0) :
    Vital E (s.set n ((s.node n).addRef i)) T D where
  dead m hm hdir hnone := by
    rw [Node.IsDirectory,
      Store.set_congr (f := (s.node n).addRef i) (fun g => g.info.qid.type) rfl] at hdir
    rw [Store.set_congr (f := (s.node n).addRef i) Node.children rfl] at hnone
    obtain ⟨ha, hle⟩ := h.dead m hm hdir hnone
    exact ⟨mt anchored_addRef.mp ha, fun hE => hzero m hE (hle hE)⟩
  doomed m hm := by
    obtain ⟨ha, hle⟩ := h.doomed m hm
    exact ⟨mt anchored_addRef.mp ha, fun hE => hzero m hE (hle hE)⟩

/-- One more node is on its way out. -/
theorem Vital.doom {D D' : Nat → Prop} (h : Vital E s T D)
    (hD : ∀ m, D' m → D m ∨ ¬ s.Anchored T m ∧ (E → (s.node m).nref ≤ 0)) : Vital E s T D' where
  dead := h.dead
  doomed m hm := by
    rcases hm with hm | hm
    · exact h.doomed m (Or.inl hm)
    · rcases hD m hm with hm | hm
      · exact h.doomed m (Or.inr hm)
      · exact hm

theorem Inv.incref (h : Inv E s f) (hn : n ∈ (f t).seen ∨ n = 0)
    (ho : o = { f t with toks := n :: (f t).toks }) :
    Inv E (s.set n ((s.node n).addRef 1)) (Function.update f t o) := by
  have hdying : o.dying = (f t).dying := by rw [ho]
  have hT : Taken (Function.update f t o) = Taken f := taken_update_of_eq (by rw [ho])
  have hlt : n < s.next := by
    rcases hn with hn | rfl
    · exact (h.knows t).seen n hn
    · exact h.tree.pos
  have hone : E → 1 ≤ (s.node n).nref := by
    intro hE
    rcases hn with hn | rfl
    · exact h.alive hE t n hn
    · exact h.anchored (Or.inl rfl)
  -- a node without references gets none
  have hzero : ∀ m, E → (s.node m).nref ≤ 0 →
      ((s.set n ((s.node n).addRef 1)).node m).nref ≤ 0 := by
    intro m hE hm
    have hne : m ≠ n := by
      rintro rfl
      exact absurd (hone hE) (by omega)
    rwa [Store.set_node_of_ne s _ hne]
  have hg : s.Grows (s.set n ((s.node n).addRef 1)) := grows_addRef 1
  have hknows := (h.knows t).mono hg
  obtain ⟨K, hK, hcounted⟩ := h.counted
  obtain ⟨K', hK', heq⟩ := hK.update t o
  refine ⟨h.tree.addRef hlt 1, h.knows_update hg ?_, h.locks.same rfl (by rw [ho]) ?_,
    ⟨K', hK', ?_⟩, ?_, ?_, (h.apart_same hdying (by rw [ho])).1,
    (h.apart_same hdying (by rw [ho])).2⟩
  · rw [ho]
    exact { hknows with toks := List.forall_mem_cons.mpr ⟨hlt, hknows.toks⟩ }
  · rw [ho]
    exact h.locks.seen t
  · rw [hT]
    rw [ho] at heq
    exact hcounted.incref heq
  · rw [hT, dying_update_of_eq hdying]
    exact h.vital.addRef hzero
  · intro hE u m hm
    rw [update_congr Hand.seen (by rw [ho])] at hm
    have := h.alive hE u m hm
    rw [Store.set_addRef]
    split <;> omega

/-- A node is counted down while no handle is in use. -/
theorem Inv.decr (h : Inv E s f) (hsolo : E ∨ ∀ u, u ≠ t → f u = Hand.empty)
    (hquiet : ∀ u, (f u).seen = []) {rest : List Nat} (htoks : (f t).toks = n :: rest)
    (hold : (f t).dying = none) (htaken : ∀ p ∈ (f t).taken, p < n)
    (ho : o = { f t with
      toks := rest, dying := if (s.node n).nref - 1 = 0 then some n else none }) :
    Inv E (s.set n ((s.node n).addRef (-1))) (Function.update f t o) := by
  have hT : Taken (Function.update f t o) = Taken f := taken_update_of_eq (by rw [ho])
  have hmem : n ∈ (f t).toks := by
    rw [htoks]
    exact List.mem_cons_self
  have hlt : n < s.next := (h.knows t).toks n hmem
  have hdying : ∀ m, o.dying = some m → m = n ∧ (s.node n).nref - 1 = 0 := by
    intro m hm
    rw [ho] at hm
    split at hm
    · rename_i hzero
      exact ⟨(Option.some.inj hm).symm, hzero⟩
    · cases hm
  -- nobody else is taking the node out
  have hfree : ¬ Taken f n ∧ ¬ Dying f n := by
    rcases hsolo with hE | hsolo
    · exact h.not_doomed hE (h.toks_alive hE hmem)
    · constructor
      · rw [taken_split t]
        rintro (hn | ⟨u, hu, hn⟩)
        · exact Nat.lt_irrefl n (htaken n hn)
        · rw [hsolo u hu] at hn
          cases hn
      · rw [dying_split t, hold]
        rintro (hn | ⟨u, hu, hn⟩)
        · cases hn
        · rw [hsolo u hu] at hn
          cases hn
  have hg : s.Grows (s.set n ((s.node n).addRef (-1))) := grows_addRef (-1)
  have hknows := (h.knows t).mono hg
  obtain ⟨K, hK, hcounted⟩ := h.counted
  obtain ⟨K', hK', heq⟩ := hK.update t o
  have hcounted' : Counted E (s.set n ((s.node n).addRef (-1))) (Taken f) K' := by
    rw [htoks, show o.toks = rest by rw [ho]] at heq
    exact hcounted.decr heq
  refine ⟨h.tree.addRef hlt (-1), h.knows_update hg ?_, h.locks.same rfl (by rw [ho]) ?_,
    ⟨K', hK', hT ▸ hcounted'⟩, ?_, ?_, ?_, ?_⟩
  · rw [ho]
    refine { hknows with toks := fun m hm => hknows.toks m ?_, dying := fun m hm => ?_ }
    · rw [htoks]
      exact List.mem_cons_of_mem n hm
    · rw [(hdying m (by rw [ho]; exact hm)).1]
      exact hlt
  · rw [ho]
    exact h.locks.seen t
  · rw [hT]
    refine Vital.doom (D := Dying f) (h.vital.addRef fun m _ hm => ?_) fun m hm => ?_
    · rw [Store.set_addRef]
      split <;> omega
    · rcases dying_update.mp hm with hm | ⟨u, -, hm⟩
      · obtain ⟨rfl, hzero⟩ := hdying m hm
        have hnref : ((s.set m ((s.node m).addRef (-1))).node m).nref = 0 := by
          rw [Store.set_addRef, if_pos rfl]
          exact hzero
        refine Or.inr ⟨fun ha => ?_, fun _ => Int.le_of_eq hnref⟩
        have := hcounted'.anchored (h.tree.addRef hlt (-1)) ha
        omega
      · exact Or.inl ⟨u, hm⟩
  · intro hE u m hm
    rw [update_congr Hand.seen (by rw [ho]), hquiet u] at hm
    cases hm
  · intro m hm
    rw [hT]
    rcases dying_update.mp hm with hm | ⟨u, -, hm⟩
    · rw [(hdying m hm).1]
      exact hfree.1
    · exact h.apart m ⟨u, hm⟩
  · refine lone_update Hand.dying h.lone fun u m _ hm hnew => ?_
    rw [(hdying m hnew).1] at hm
    exact hfree.2 ⟨u, hm⟩

/-- The map of a node that has come to zero is read.  It may have none. -/
theorem Inv.children_none (h : Inv E s f) (ho : o = { f t with dying := none }) :
    Inv E s (Function.update f t o) := by
  have hT : Taken (Function.update f t o) = Taken f := taken_update_of_eq (by rw [ho])
  have hnone : o.dying = none := by rw [ho]
  have hD : ∀ m, Dying (Function.update f t o) m → Dying f m := by
    intro m hm
    rcases dying_update.mp hm with hm | ⟨u, -, hm⟩
    · rw [hnone] at hm
      cases hm
    · exact ⟨u, hm⟩
  have hg : s.Grows s := (Same.refl s).grows
  obtain ⟨K, hK, hcounted⟩ := h.counted
  refine ⟨h.tree, h.knows_update hg ?_, h.locks.same rfl (by rw [ho]) ?_,
    ⟨K, fun n => (hK n).update (by rw [ho]), hT ▸ hcounted⟩, ?_, ?_, ?_, ?_⟩
  · rw [ho]
    exact { h.knows t with dying := nofun }
  · rw [ho]
    exact h.locks.seen t
  · rw [hT]
    exact h.vital.doom fun m hm => Or.inl (hD m hm)
  · intro hE u m hm
    rw [update_congr Hand.seen (by rw [ho])] at hm
    exact h.alive hE u m hm
  · intro m hm
    rw [hT]
    exact h.apart m (hD m hm)
  · refine lone_update Hand.dying h.lone fun u m _ _ hnew => ?_
    rw [hnone] at hnew
    cases hnew

/-- The operation takes over the children. -/
theorem Inv.children_some (h : Inv E s f) (hold : (f t).dying = some n) {cs : List Nat}
    (hcs : cs.Perm (s.node n).links)
    (ho : o = { f t with toks := cs ++ (f t).toks, dying := none, taken := n :: (f t).taken }) :
    Inv E s (Function.update f t o) := by
  have hlt : n < s.next := (h.knows t).dying n hold
  have hD : ∀ m, Dying (Function.update f t o) m → m ≠ n ∧ Dying f m := by
    intro m hm
    rcases dying_update.mp hm with hm | ⟨u, hu, hm⟩
    · rw [ho] at hm
      cases hm
    · refine ⟨?_, u, hm⟩
      rintro rfl
      exact hu (h.lone u t m hm hold)
  have hT : ∀ m, Taken (Function.update f t o) m ↔ m = n ∨ Taken f m := by
    intro m
    rw [taken_update, taken_split t, show o.taken = n :: (f t).taken by rw [ho], List.mem_cons,
      or_assoc]
  have hanchor : ∀ m, s.Anchored (Taken (Function.update f t o)) m → s.Anchored (Taken f) m := by
    intro m hm
    exact anchored_mono (fun q _ hq hlink => ⟨fun hTq => hq ((hT q).mpr (Or.inr hTq)), hlink⟩) hm
  have hdoomed := h.vital.doomed n (Or.inr ⟨t, hold⟩)
  have hg : s.Grows s := (Same.refl s).grows
  have hknows := h.knows t
  obtain ⟨K, hK, hcounted⟩ := h.counted
  obtain ⟨K', hK', heq⟩ := hK.update t o
  refine ⟨h.tree, h.knows_update hg ?_, h.locks.same rfl (by rw [ho]) ?_, ⟨K', hK', ?_⟩,
    ⟨?_, ?_⟩, ?_, ?_, ?_⟩
  · rw [ho]
    refine { hknows with
      toks := List.forall_mem_append.mpr ⟨fun c hc => ?_, hknows.toks⟩
      dying := nofun
      taken := List.forall_mem_cons.mpr ⟨hlt, hknows.taken⟩ }
    exact (h.tree.edge (hcs.mem_iff.mp hc)).bound
  · rw [ho]
    exact h.locks.seen t
  · rw [ho] at heq
    exact hcounted.take hlt (h.apart n ⟨t, hold⟩) hT hcs heq
  · intro m hm hdir hnone
    obtain ⟨ha, hle⟩ := h.vital.dead m hm hdir hnone
    exact ⟨mt (hanchor m) ha, hle⟩
  · rintro m (hm | hm)
    · rcases (hT m).mp hm with rfl | hm
      · exact ⟨mt (hanchor m) hdoomed.1, hdoomed.2⟩
      · obtain ⟨ha, hle⟩ := h.vital.doomed m (Or.inl hm)
        exact ⟨mt (hanchor m) ha, hle⟩
    · obtain ⟨ha, hle⟩ := h.vital.doomed m (Or.inr (hD m hm).2)
      exact ⟨mt (hanchor m) ha, hle⟩
  · intro hE u m hm
    rw [update_congr Hand.seen (by rw [ho])] at hm
    exact h.alive hE u m hm
  · intro m hm hTm
    rcases (hT m).mp hTm with hmn | hTm
    · exact (hD m hm).1 hmn
    · exact h.apart m (hD m hm).2 hTm
  · refine lone_update Hand.dying h.lone fun u m _ _ hnew => ?_
    rw [ho] at hnew
    cases hnew

/-- Links are taken away from one node. -/
theorem Store.Tree.withChildren (h : s.Tree) (hn : n < s.next) {m : Option Names}
    (hm : ∀ name c, m.bind (AList.lookup name) = some c → s.entry n name = some c) :
    (s.set n ((s.node n).withChildren m)).Tree := by
  have hg : s.Grows (s.set n ((s.node n).withChildren m)) := grows_withChildren m
  refine h.shrink hg rfl (fun p name c hc => ?_) (fun q hq => ?_) fun k slot hk =>
    hg.chain (h.chain hk)
  · by_cases hp : p = n
    · subst hp
      rw [Store.entry, Store.set_node] at hc
      exact hm name c hc
    · rwa [Store.entry, Store.set_node_of_ne s _ hp] at hc
  · rw [Store.set_node_of_ne s _ (by omega)]
    exact h.blank q hq

theorem nref_withChildren (m : Option Names) (q : Nat) :
    ((s.set n ((s.node n).withChildren m)).node q).nref = (s.node q).nref :=
  Store.set_congr (f := (s.node n).withChildren m) Node.nref rfl q

/-- The children have been counted down, and the map goes. -/
theorem Inv.drop (h : Inv E s f) {rest : List Nat} (htaken : (f t).taken = n :: rest)
    (ho : o = { f t with taken := rest }) :
    Inv E (s.set n ((s.node n).withChildren none)) (Function.update f t o) := by
  have hmem : n ∈ (f t).taken := by
    rw [htaken]
    exact List.mem_cons_self
  have hlt : n < s.next := (h.knows t).taken n hmem
  have hTn : Taken f n := ⟨t, hmem⟩
  have hT : ∀ q, q ≠ n → (Taken (Function.update f t o) q ↔ Taken f q) := by
    intro q hq
    rw [taken_update, taken_split t, htaken, show o.taken = rest by rw [ho], List.mem_cons,
      or_iff_right hq]
  have hsub : ∀ q, Taken (Function.update f t o) q → Taken f q := by
    intro q hq
    by_cases hqn : q = n
    · rwa [hqn]
    · exact (hT q hqn).mp hq
  have hD : Dying (Function.update f t o) = Dying f := dying_update_of_eq (by rw [ho])
  have hanchor : ∀ m, (s.set n ((s.node n).withChildren none)).Anchored
      (Taken (Function.update f t o)) m → s.Anchored (Taken f) m := by
    refine fun m => anchored_mono fun q c hq hc => ?_
    by_cases hqn : q = n
    · rw [hqn, Store.set_node] at hc
      cases hc
    · rw [Store.set_node_of_ne s _ hqn] at hc
      exact ⟨fun hTq => hq ((hT q hqn).mpr hTq), hc⟩
  have hg : s.Grows (s.set n ((s.node n).withChildren none)) := grows_withChildren none
  have hknows := (h.knows t).mono hg
  obtain ⟨K, hK, hcounted⟩ := h.counted
  refine ⟨h.tree.withChildren hlt nofun, h.knows_update hg ?_, h.locks.same rfl (by rw [ho]) ?_,
    ⟨K, fun n => (hK n).update (by rw [ho]), hcounted.drop hlt hTn hT⟩, ⟨?_, ?_⟩, ?_, ?_, ?_⟩
  · rw [ho]
    refine { hknows with taken := fun m hm => hknows.taken m ?_ }
    rw [htaken]
    exact List.mem_cons_of_mem n hm
  · rw [ho]
    exact h.locks.seen t
  · intro m hm hdir hnone
    rw [nref_withChildren]
    by_cases hmn : m = n
    · obtain ⟨ha, hle⟩ := h.vital.doomed n (Or.inl hTn)
      subst hmn
      exact ⟨mt (hanchor m) ha, hle⟩
    · rw [Store.set_node_of_ne s _ hmn] at hdir hnone
      obtain ⟨ha, hle⟩ := h.vital.dead m hm hdir hnone
      exact ⟨mt (hanchor m) ha, hle⟩
  · intro m hm
    rw [nref_withChildren]
    rw [hD] at hm
    obtain ⟨ha, hle⟩ := h.vital.doomed m (hm.imp_left (hsub m))
    exact ⟨mt (hanchor m) ha, hle⟩
  · intro hE u m hm
    rw [update_congr Hand.seen (by rw [ho])] at hm
    rw [nref_withChildren]
    exact h.alive hE u m hm
  · intro m hm hTm
    rw [hD] at hm
    exact h.apart m hm (hsub m hTm)
  · intro u v m hu hv
    rw [update_congr Hand.dying (by rw [ho])] at hu hv
    exact h.lone u v m hu hv

/-- No directory that can be reached from a handle in use is being taken out. -/
theorem Inv.not_taken (h : Inv E s f) (hsolo : E ∨ ∀ u, u ≠ t → f u = Hand.empty)
    (htaken : (f t).taken = []) (hp : E → 1 ≤ (s.node p).nref) : ¬ Taken f p := by
  rcases hsolo with hE | hsolo
  · exact (h.not_doomed hE (hp hE)).1
  · rw [taken_split t, htaken]
    rintro (hn | ⟨u, hu, hn⟩)
    · cases hn
    · rw [hsolo u hu] at hn
      cases hn

/-- A name is taken away, and with it the reference. -/
theorem Inv.unlink (h : Inv E s f) (hsolo : E ∨ ∀ u, u ≠ t → f u = Hand.empty) {name : Bytes}
    {ent c : Nat} {names : Names} (hp : p ∈ (f t).toks) (htaken : (f t).taken = [])
    (hedge : (f t).edge p ent) (hname : (f t).names ent name)
    (hm : (s.node p).children = some names) (hc : names.lookup name = some c) (hE : E → c = ent)
    (ho : o = { f t with toks := ent :: (f t).toks }) :
    Inv E (s.set p ((s.node p).withChildren (some (names.erase name))))
      (Function.update f t o) := by
  have hedge := (h.knows t).edge p ent hedge
  have hname := (h.knows t).names ent name hname
  have hlt : p < s.next := (h.knows t).toks p hp
  have hTp : ¬ Taken f p := h.not_taken hsolo htaken fun hE => h.toks_alive hE hp
  have hT : Taken (Function.update f t o) = Taken f := taken_update_of_eq (by rw [ho])
  have hdying : o.dying = (f t).dying := by rw [ho]
  have hanchor : ∀ m, (s.set p ((s.node p).withChildren (some (names.erase name)))).Anchored
      (Taken f) m → s.Anchored (Taken f) m := by
    refine fun m => anchored_mono fun q x hq hx => ⟨hq, ?_⟩
    by_cases hqp : q = p
    · rw [hqp, Store.set_node] at hx
      rw [hqp, Node.links, hm]
      exact (perm_values hc).mem_iff.mpr (List.mem_cons_of_mem c hx)
    · rwa [Store.set_node_of_ne s _ hqp] at hx
  have hg : s.Grows (s.set p ((s.node p).withChildren (some (names.erase name)))) :=
    grows_withChildren _
  have hknows := (h.knows t).mono hg
  obtain ⟨K, hK, hcounted⟩ := h.counted
  obtain ⟨K', hK', heq⟩ := hK.update t o
  refine ⟨h.tree.withChildren hlt ?_, h.knows_update hg ?_, h.locks.same rfl (by rw [ho]) ?_,
    ⟨K', hK', ?_⟩, ⟨?_, ?_⟩, ?_, (h.apart_same hdying (by rw [ho])).1,
    (h.apart_same hdying (by rw [ho])).2⟩
  · intro name' x hx
    have hne : name' ≠ name := by
      rintro rfl
      cases (AList.lookup_erase _ _).symm.trans hx
    rw [Store.entry, hm]
    exact (AList.lookup_erase_ne hne).symm.trans hx
  · rw [ho]
    exact { hknows with toks := List.forall_mem_cons.mpr ⟨hedge.bound, hknows.toks⟩ }
  · rw [ho]
    exact h.locks.seen t
  · rw [hT]
    rw [ho] at heq
    exact hcounted.unlink h.tree hTp hm hc hE hedge hname.2 heq
  · intro m hm' hdir hnone
    rw [hT, nref_withChildren]
    by_cases hmp : m = p
    · rw [hmp, Store.set_node] at hnone
      cases hnone
    · rw [Store.set_node_of_ne s _ hmp] at hdir hnone
      obtain ⟨ha, hle⟩ := h.vital.dead m hm' hdir hnone
      exact ⟨mt (hanchor m) ha, hle⟩
  · intro m hm'
    rw [hT, dying_update_of_eq hdying] at hm'
    rw [hT, nref_withChildren]
    obtain ⟨ha, hle⟩ := h.vital.doomed m hm'
    exact ⟨mt (hanchor m) ha, hle⟩
  · intro hE u m hm'
    rw [update_congr Hand.seen (by rw [ho])] at hm'
    rw [nref_withChildren]
    exact h.alive hE u m hm'

/-- Nodes that were there before keep all but, perhaps, their map. -/
theorem Store.linkNew_old {names : Names} {q : Nat} (hq : q < s.next) :
    ((s.linkNew p names info).node q).nref = (s.node q).nref ∧
      ((s.linkNew p names info).node q).home = (s.node q).home ∧
      ((s.linkNew p names info).node q).info = (s.node q).info := by
  by_cases hqp : q = p
  · rw [hqp, Store.linkNew_parent (Nat.ne_of_lt (hqp ▸ hq))]
    exact ⟨rfl, rfl, rfl⟩
  · rw [Store.linkNew_of_ne hqp (Nat.ne_of_lt hq)]
    exact ⟨rfl, rfl, rfl⟩

theorem grows_linkNew {names : Names} : s.Grows (s.linkNew p names info) where
  next := Nat.le_succ _
  home q hq := (Store.linkNew_old hq).2.1
  name q hq := by rw [(Store.linkNew_old hq).2.2]
  type q hq := by rw [(Store.linkNew_old hq).2.2]

theorem edge_linkNew {names : Names} (hp : p < s.next) :
    (s.linkNew p names info).Edge p s.next := by
  refine ⟨?_, hp, Nat.lt_succ_self _⟩
  rw [Store.linkNew_self]
  rfl

theorem Store.Tree.linkNew (h : s.Tree) {names : Names} (hp : p < s.next)
    (hm : (s.node p).children = some names) : (s.linkNew p names info).Tree where
  pos := Nat.succ_pos _
  link := by
    intro q name c hc
    have hg : s.Grows (s.linkNew p names info) := grows_linkNew
    -- the link was there before
    have hold : s.entry q name = some c → (s.linkNew p names info).Edge q c ∧
        ((s.linkNew p names info).node c).info.name = name := by
      intro hc
      obtain ⟨hedge, hname⟩ := h.link hc
      exact ⟨hg.edge hedge, (hg.name c hedge.bound).trans hname⟩
    by_cases hqp : q = p
    · subst hqp
      rw [Store.entry, Store.linkNew_parent (Nat.ne_of_lt hp)] at hc
      have hc : (names.insert info.name s.next).lookup name = some c := hc
      by_cases hname : name = info.name
      · rw [hname, AList.lookup_insert] at hc
        obtain rfl : s.next = c := Option.some.inj hc
        refine ⟨edge_linkNew hp, ?_⟩
        rw [Store.linkNew_self, hname]
        rfl
      · rw [AList.lookup_insert_ne hname] at hc
        refine hold ?_
        rw [Store.entry, hm]
        exact hc
    · by_cases hqn : q = s.next
      · have hmem := mem_links.mpr ⟨name, hc⟩
        rw [hqn, Store.linkNew_self, Node.create_links] at hmem
        cases hmem
      · refine hold ?_
        rwa [Store.entry, Store.linkNew_of_ne hqp hqn] at hc
  blank q hq := by
    have hlt : s.next < q := hq
    rw [Store.linkNew_of_ne (by omega) (by omega)]
    exact h.blank q (by omega)
  chain hk := (grows_linkNew).chain (h.chain hk)

/-- A directory gets a new node. -/
theorem Inv.link (h : Inv E s f) (hsolo : E ∨ ∀ u, u ≠ t → f u = Hand.empty) {names : Names}
    {edge : Nat → Nat → Prop} (hp : p ∈ (f t).seen) (htaken : (f t).taken = [])
    (hm : (s.node p).children = some names) (hnone : names.lookup info.name = none)
    (hedge : ∀ a b, edge a b → (f t).edge a b ∨ a = p ∧ b = s.next)
    (ho : o = { f t with seen := s.next :: (f t).seen, edge }) :
    Inv E (s.linkNew p names info) (Function.update f t o) := by
  have hlt : p < s.next := (h.knows t).seen p hp
  have hTp : ¬ Taken f p := h.not_taken hsolo htaken fun hE => h.alive hE t p hp
  have hT : Taken (Function.update f t o) = Taken f := taken_update_of_eq (by rw [ho])
  have hdying : o.dying = (f t).dying := by rw [ho]
  have hnref : ∀ q, q < s.next → ((s.linkNew p names info).node q).nref = (s.node q).nref :=
    fun q hq => (Store.linkNew_old hq).1
  have hg : s.Grows (s.linkNew p names info) := grows_linkNew
  have hanchor : ∀ m, m < s.next → (s.linkNew p names info).Anchored (Taken f) m →
      s.Anchored (Taken f) m := by
    rintro m hlt' (rfl | ⟨q, hq, hmq⟩)
    · exact Or.inl rfl
    · refine Or.inr ⟨q, hq, ?_⟩
      by_cases hqp : q = p
      · rw [hqp, Store.linkNew_links_parent hlt hm hnone] at hmq
        rw [hqp]
        exact (List.mem_cons.mp hmq).resolve_left (Nat.ne_of_lt hlt')
      · rwa [Store.linkNew_links hqp (h.tree.links_blank (Nat.le_refl _))] at hmq
  have hknows := (h.knows t).mono hg
  obtain ⟨K, hK, hcounted⟩ := h.counted
  have hKnext : K s.next = 0 := by
    refine (hK s.next).eq_zero fun u => List.count_eq_zero_of_not_mem fun hu => ?_
    exact Nat.lt_irrefl _ ((h.knows u).toks _ hu)
  refine ⟨h.tree.linkNew hlt hm, h.knows_update hg ?_, h.locks.same rfl (by rw [ho]) ?_,
    ⟨K, fun n => (hK n).update (by rw [ho]), hT ▸ hcounted.link h.tree hlt hTp hm hnone hKnext⟩,
    ⟨?_, ?_⟩, ?_, (h.apart_same hdying (by rw [ho])).1, (h.apart_same hdying (by rw [ho])).2⟩
  · rw [ho]
    refine { hknows with
      seen := List.forall_mem_cons.mpr ⟨Nat.lt_succ_self _, hknows.seen⟩
      edge := fun a b hab => ?_ }
    rcases hedge a b hab with hab | ⟨rfl, rfl⟩
    · exact hknows.edge a b hab
    · exact edge_linkNew hlt
  · intro hnone
    rw [ho] at hnone
    rw [h.locks.seen t hnone] at hp
    cases hp
  · intro m hm' hdir hnone'
    rw [hT]
    by_cases hmn : m = s.next
    · rw [hmn, Store.linkNew_self] at hdir hnone'
      have hsome : (Node.create info p).children = some ∅ := if_pos hdir
      rw [hsome] at hnone'
      cases hnone'
    · have hlt' : m < s.next := Nat.lt_of_le_of_ne (Nat.le_of_lt_succ hm') hmn
      rw [hnref m hlt']
      by_cases hmp : m = p
      · rw [hmp, Store.linkNew_parent (Nat.ne_of_lt hlt)] at hnone'
        cases hnone'
      · rw [Store.linkNew_of_ne hmp hmn] at hdir hnone'
        obtain ⟨ha, hle⟩ := h.vital.dead m hlt' hdir hnone'
        exact ⟨mt (hanchor m hlt') ha, hle⟩
  · intro m hm'
    rw [hT, dying_update_of_eq hdying] at hm'
    have hlt' : m < s.next := by
      rcases hm' with ⟨u, hu⟩ | ⟨u, hu⟩
      · exact (h.knows u).taken m hu
      · exact (h.knows u).dying m hu
    rw [hT, hnref m hlt']
    obtain ⟨ha, hle⟩ := h.vital.doomed m hm'
    exact ⟨mt (hanchor m hlt') ha, hle⟩
  · intro hE u m hm'
    by_cases hut : u = t
    · rw [hut, Function.update_self, ho] at hm'
      rcases List.mem_cons.mp hm' with rfl | hm'
      · rw [Store.linkNew_self]
        exact Int.le_refl 1
      · rw [hnref m ((h.knows t).seen m hm')]
        exact h.alive hE t m hm'
    · rw [Function.update_of_ne hut] at hm'
      rw [hnref m ((h.knows u).seen m hm')]
      exact h.alive hE u m hm'

end Counting

/-! ## Looking, and handles -/

section Handles

variable {E : Prop} {s s' : Store} {f : Nat → Hand} {t n : Nat} {o : Hand} {k : Key} {h : Handle}

/-- The operation has learned something. -/
theorem Inv.learn (hI : Inv E s f) {edge : Nat → Nat → Prop} {names : Nat → Bytes → Prop}
    {seen : List Nat} (ho : o = { f t with seen, edge, names })
    (hedge : ∀ a b, edge a b → s.Edge a b)
    (hnames : ∀ n x, names n x → n < s.next ∧ (s.node n).info.name = x)
    (hbound : ∀ n ∈ seen, n < s.next) (halive : E → ∀ n ∈ seen, 1 ≤ (s.node n).nref)
    (hseen : (f t).locked = none → seen = []) : Inv E s (Function.update f t o) := by
  have hknows := hI.knows t
  subst ho
  exact hI.same (Same.refl s) rfl rfl rfl rfl
    ⟨hknows.toks, hknows.dying, hknows.taken, hbound, hedge, hnames⟩ hseen halive

/-- `lock` and `unlock`: only whether the handle is in use. -/
theorem Inv.set_busy (hI : Inv E s f) {b b' : Bool} (hk : s.handles.lookup k = some ⟨h, b⟩)
    (htoks : o.toks = (f t).toks) (hdying : o.dying = (f t).dying) (htaken : o.taken = (f t).taken)
    (hlocks : Locks { s with handles := s.handles.insert k ⟨h, b'⟩ } (Function.update f t o))
    (hknows : Knows s o) (halive : E → ∀ n ∈ o.seen, 1 ≤ (s.node n).nref) :
    Inv E { s with handles := s.handles.insert k ⟨h, b'⟩ } (Function.update f t o) := by
  refine hI.set_handles _ (fun k' slot hk' => ?_) hdying htaken hlocks (fun n => ?_) hknows halive
  · by_cases hkk : k' = k
    · rw [hkk, AList.lookup_insert] at hk'
      obtain rfl := Option.some.inj hk'
      have hchain := hI.tree.chain hk
      exact hchain
    · rw [AList.lookup_insert_ne hkk] at hk'
      exact hI.tree.chain hk'
  · rw [Store.held, count_heldIn hk, count_heldIn_insert, htoks]

theorem mem_held {b : Bool} (hk : s.handles.lookup k = some ⟨h, b⟩) (hn : n ∈ h.chain) :
    n ∈ s.held :=
  List.mem_flatMap.mpr ⟨⟨h, b⟩, mem_values.mpr ⟨k, hk⟩, hn⟩

theorem Inv.lock (hI : Inv E s f) (hnone : (f t).locked = none)
    (hk : s.handles.lookup k = some ⟨h, false⟩)
    (ho : o = { f t with locked := some (k, h), seen := h.chain ++ (f t).seen, edge := s.Edge }) :
    Inv E { s with handles := s.handles.insert k ⟨h, true⟩ } (Function.update f t o) := by
  have hknows := hI.knows t
  have hfree : ∀ u hd, (f u).locked ≠ some (k, hd) :=
    hI.locks.not_locked fun hd heq => nomatch hk.symm.trans heq
  have hlocked : o.locked = some (k, h) := by rw [ho]
  refine hI.set_busy hk (by rw [ho]) (by rw [ho]) (by rw [ho]) ?_ ?_ ?_
  · refine hI.locks.change (· = k) (fun k' hne => AList.lookup_insert_ne hne) ?_ ?_ ?_ ?_
    · rintro _ rfl u hd hu
      exact absurd hu (hfree u hd)
    · rintro _ hd rfl
      rw [AList.lookup_insert, hlocked]
      simp
    · intro k' hd hne
      rw [hlocked, hnone]
      simp [Ne.symm hne]
    · rw [hlocked]
      nofun
  · rw [ho]
    refine { hknows with
      seen := List.forall_mem_append.mpr ⟨?_, hknows.seen⟩, edge := fun _ _ hab => hab }
    exact (hI.tree.chain hk).lt hI.tree.pos
  · intro hE n hn
    rw [ho] at hn
    rcases List.mem_append.mp hn with hn | hn
    · exact hI.held_alive hE (mem_held hk hn)
    · exact hI.alive hE t n hn

theorem Inv.unlock (hI : Inv E s f) (hold : (f t).locked = some (k, h))
    (ho : o = { f t with locked := none, seen := [] }) :
    Inv E { s with handles := s.handles.insert k ⟨h, false⟩ } (Function.update f t o) := by
  have hknows := hI.knows t
  have hlocked : o.locked = none := by rw [ho]
  have hk := hI.locks.held t k h hold
  refine hI.set_busy hk (by rw [ho]) (by rw [ho]) (by rw [ho]) ?_ ?_ ?_
  · refine hI.locks.change (· = k) (fun k' hne => AList.lookup_insert_ne hne) ?_ ?_ ?_ ?_
    · rintro _ rfl u hd hu
      have heq := (hI.locks.held u _ hd hu).symm.trans hk
      cases heq
      exact hI.locks.lone u t _ _ hu hold
    · rintro _ hd rfl
      rw [AList.lookup_insert, hlocked]
      simp
    · intro k' hd hne
      rw [hlocked, hold]
      simp [Ne.symm hne]
    · rw [ho]
      exact fun _ => rfl
  · rw [ho]
    exact { hknows with seen := nofun }
  · intro _ n hn
    rw [ho] at hn
    cases hn

/-- The order in which `Clunk` gives back. -/
theorem Handle.chain_perm (h : Handle) : (h.ent :: h.parents.reverse).Perm h.chain :=
  (List.perm_append_singleton _ _).symm.trans ((List.reverse_perm h.parents).append_right _)

theorem Inv.consume (hI : Inv E s f) (hnone : (f t).locked = none)
    (hk : s.handles.lookup k = some ⟨h, false⟩)
    (ho : o = { f t with toks := h.ent :: h.parents.reverse ++ (f t).toks, edge := s.Edge }) :
    Inv E { s with handles := s.handles.erase k } (Function.update f t o) := by
  have hknows := hI.knows t
  have hlocked : o.locked = none := by
    rw [ho]
    exact hnone
  refine hI.set_handles _ (fun k' slot hk' => ?_) (by rw [ho]) (by rw [ho]) ?_ (fun n => ?_) ?_ ?_
  · by_cases hkk : k' = k
    · rw [hkk, AList.lookup_erase] at hk'
      cases hk'
    · rw [AList.lookup_erase_ne hkk] at hk'
      exact hI.tree.chain hk'
  · refine hI.locks.change (· = k) (fun k' hne => AList.lookup_erase_ne hne) ?_ ?_ ?_ ?_
    · rintro _ rfl u hd hu
      exact absurd hu (hI.locks.not_locked (fun hd heq => nomatch hk.symm.trans heq) u hd)
    · rintro _ hd rfl
      rw [AList.lookup_erase, hlocked]
      simp
    · intro k' hd _
      rw [hlocked, hnone]
    · rw [ho]
      exact hI.locks.seen t
  · rw [Store.held, count_heldIn hk,
      show o.toks = h.ent :: h.parents.reverse ++ (f t).toks by rw [ho],
      List.count_append, h.chain_perm.count_eq]
    dsimp only
    omega
  · rw [ho]
    refine { hknows with
      toks := List.forall_mem_append.mpr ⟨fun n hn => ?_, hknows.toks⟩
      edge := fun _ _ hab => hab }
    exact (hI.tree.chain hk).lt hI.tree.pos n (h.chain_perm.mem_iff.mp hn)
  · rw [ho]
    exact fun hE => hI.alive hE t

theorem Knows.path (hknows : Knows s o) {l : List Nat} (hl : Hand.Path o.edge l) : s.Chain l :=
  ⟨hl.root, hl.steps.imp hknows.edge⟩

theorem Inv.put (hI : Inv E s f) (hk : s.handles.lookup k = none) (htoks : (f t).toks.Perm h.chain)
    (hpath : Hand.Path (f t).edge h.chain) (ho : o = { f t with toks := [] }) :
    Inv E { s with handles := s.handles.insert k ⟨h, false⟩ } (Function.update f t o) := by
  have hknows := hI.knows t
  have hfree : ∀ u hd, (f u).locked ≠ some (k, hd) :=
    hI.locks.not_locked fun hd heq => by cases hk.symm.trans heq
  have hlocked : o.locked = (f t).locked := by rw [ho]
  refine hI.set_handles _ (fun k' slot hk' => ?_) (by rw [ho]) (by rw [ho]) ?_ (fun n => ?_) ?_ ?_
  · by_cases hkk : k' = k
    · rw [hkk, AList.lookup_insert] at hk'
      obtain rfl := Option.some.inj hk'
      exact hknows.path hpath
    · rw [AList.lookup_insert_ne hkk] at hk'
      exact hI.tree.chain hk'
  · refine hI.locks.change (· = k) (fun k' hne => AList.lookup_insert_ne hne) ?_ ?_ ?_ ?_
    · rintro _ rfl u hd hu
      exact absurd hu (hfree u hd)
    · rintro _ hd rfl
      rw [AList.lookup_insert, hlocked]
      simp [hfree t hd]
    · intro k' hd _
      rw [hlocked]
    · rw [ho]
      exact hI.locks.seen t
  · rw [count_heldIn_insert, heldIn_erase_of_none hk, htoks.count_eq, Store.held,
      show o.toks = [] by rw [ho], List.count_nil]
    dsimp only
    omega
  · rw [ho]
    exact { hknows with toks := List.forall_mem_nil _ }
  · rw [ho]
    exact fun hE => hI.alive hE t

theorem Inv.replace (hI : Inv E s f) {k' : Key} {h₀ : Handle} (hold : (f t).locked = some (k, h₀))
    (hk' : (s.handles.erase k).lookup k' = none) (htoks : (f t).toks = [h.ent])
    (hparents : h.parents = h₀.chain) (hedge : (f t).edge h₀.ent h.ent)
    (ho : o = { f t with toks := [], locked := none, seen := [] }) :
    Inv E { s with handles := (s.handles.erase k).insert k' ⟨h, false⟩ }
      (Function.update f t o) := by
  have hknows := hI.knows t
  have hk := hI.locks.held t k h₀ hold
  have hlocked : o.locked = none := by rw [ho]
  have hchain : h.chain = h₀.chain ++ [h.ent] := by rw [Handle.chain, hparents]
  have hpath : s.Chain h.chain := by
    obtain ⟨hroot, hsteps⟩ := hI.tree.chain hk
    rw [hchain]
    refine ⟨?_, ?_⟩
    · rw [List.head?_append, hroot]
      rfl
    · refine hsteps.append (List.isChain_singleton _) fun a ha b hb => ?_
      rw [Handle.chain, List.getLast?_append, List.getLast?_singleton] at ha
      cases ha
      cases hb
      exact hknows.edge _ _ hedge
  refine hI.set_handles _ (fun q slot hq => ?_) (by rw [ho]) (by rw [ho]) ?_ (fun n => ?_) ?_ ?_
  · by_cases hqk : q = k'
    · rw [hqk, AList.lookup_insert] at hq
      obtain rfl := Option.some.inj hq
      exact hpath
    · rw [AList.lookup_insert_ne hqk] at hq
      by_cases hqk : q = k
      · rw [hqk, AList.lookup_erase] at hq
        cases hq
      · rw [AList.lookup_erase_ne hqk] at hq
        exact hI.tree.chain hq
  · refine hI.locks.change (fun q => q = k ∨ q = k') (fun q hq => ?_) ?_ ?_ ?_ ?_
    · obtain ⟨hqk, hqk'⟩ := not_or.mp hq
      exact (AList.lookup_insert_ne hqk').trans (AList.lookup_erase_ne hqk)
    · intro q hq u hd hu
      have hheld := hI.locks.held u q hd hu
      by_cases hqk : q = k
      · subst hqk
        have heq := hheld.symm.trans hk
        cases heq
        exact hI.locks.lone u t _ _ hu hold
      · rw [hq.resolve_left hqk] at hheld hqk
        rw [AList.lookup_erase_ne hqk, hheld] at hk'
        cases hk'
    · intro q hd hq
      rw [hlocked]
      refine ⟨fun hbusy => ?_, fun h => by cases h⟩
      by_cases hqk : q = k'
      · rw [hqk, AList.lookup_insert] at hbusy
        cases hbusy
      · rw [AList.lookup_insert_ne hqk, hq.resolve_right hqk, AList.lookup_erase] at hbusy
        cases hbusy
    · intro q hd hq
      rw [hlocked, hold]
      refine ⟨fun h => (by cases h), fun heq => ?_⟩
      cases heq
      exact absurd (Or.inl rfl) hq
    · rw [ho]
      exact fun _ => rfl
  · rw [Store.held, count_heldIn hk, count_heldIn_insert, heldIn_erase_of_none hk', htoks,
      show o.toks = [] by rw [ho], List.count_nil]
    dsimp only
    rw [hchain, List.count_append]
    omega
  · rw [ho]
    exact { hknows with toks := List.forall_mem_nil _, seen := List.forall_mem_nil _ }
  · intro _ n hn
    rw [ho] at hn
    cases hn

end Handles

/-! ## The step -/

/-- No handle is in use. -/
def Store.Quiet (s : Store) : Prop := ∀ slot ∈ values s.handles, slot.busy = false

/-- What is asked of a command beyond what the operation has in hand. -/
def Guard (E : Prop) (s : Store) : Cmd → Prop
  | .decr _ => s.Quiet
  | .unlink p name ent => E → s.entry p name = none ∨ s.entry p name = some ent
  | _ => True

instance (s : Store) : Decidable s.Quiet :=
  inferInstanceAs (Decidable (∀ slot ∈ values s.handles, slot.busy = false))

instance (E : Prop) [Decidable E] (s : Store) (c : Cmd) : Decidable (Guard E s c) := by
  unfold Guard
  split <;> infer_instance

section Step

variable {E : Prop} {s s' : Store} {f : Nat → Hand} {t : Nat}

theorem Inv.unchanged (h : Inv E s f) : Inv E s (Function.update f t (f t)) := by
  rwa [Function.update_eq_self]

theorem Inv.seen_of_quiet (h : Inv E s f) (hq : s.Quiet) (u : Nat) : (f u).seen = [] := by
  cases hl : (f u).locked with
  | none => exact h.locks.seen u hl
  | some kh =>
      exact absurd (hq _ (mem_values.mpr ⟨kh.1, h.locks.held u kh.1 kh.2 hl⟩)) Bool.true_eq_false.mp

theorem same_set {n : Nat} (hnref : g.nref = (s.node n).nref)
    (hchildren : g.children = (s.node n).children) (hhome : g.home = (s.node n).home)
    (hname : g.info.name = (s.node n).info.name)
    (htype : g.info.qid.type = (s.node n).info.qid.type) : Same s (s.set n g) :=
  ⟨rfl, rfl, Store.set_congr Node.nref hnref, Store.set_congr Node.children hchildren,
    Store.set_congr Node.home hhome, Store.set_congr (fun g => g.info.name) hname,
    Store.set_congr (fun g => g.info.qid.type) htype⟩

theorem Inv.same_self (h : Inv E s f) (hs : Same s s') : Inv E s' (Function.update f t (f t)) :=
  h.same hs rfl rfl rfl rfl ((h.knows t).mono hs.grows) (h.locks.seen t) fun hE => h.alive hE t

theorem same_wstat (n : Nat) (dir : Dir) : Same s (s.set n ((s.node n).wstat dir).2) := by
  have hnode : ((s.node n).wstat dir).2 = (s.node n).setInfo dir ∨
      ∃ data, ((s.node n).wstat dir).2 = { (s.node n).setInfo dir with data } := by
    unfold Node.wstat
    dsimp only
    split
    · exact Or.inl rfl
    · split
      · split
        · exact Or.inl rfl
        · exact Or.inr ⟨_, rfl⟩
      · exact Or.inl rfl
  rcases hnode with hnode | ⟨data, hnode⟩
  · rw [hnode]
    exact same_set rfl rfl rfl rfl rfl
  · rw [hnode]
    exact same_set rfl rfl rfl rfl rfl

theorem same_write {n : Nat} {p : Bytes} {offset : Int64} {r : Nat × Option Err}
    (h : (s.node n).write p offset = some (r, g)) : Same s (s.set n g) := by
  unfold Node.write at h
  dsimp only at h
  split at h
  · cases h
    exact same_set rfl rfl rfl rfl rfl
  · split at h
    · cases h
    · cases h
      exact same_set rfl rfl rfl rfl rfl

/-- A lookup that succeeds finds a node that is linked. -/
theorem Inv.lookup (h : Inv E s f) {p c : Nat} {name : Bytes} (hp : p ∈ (f t).seen)
    (hc : s.entry p name = some c) {o : Hand}
    (ho : o = { f t with seen := c :: (f t).seen, edge := s.Edge }) :
    Inv E s (Function.update f t o) := by
  have hedge := (h.tree.link hc).1
  have hknows := h.knows t
  refine h.learn ho (fun _ _ hab => hab) hknows.names
    (List.forall_mem_cons.mpr ⟨hedge.bound, hknows.seen⟩) (fun hE => ?_) ?_
  · refine List.forall_mem_cons.mpr
      ⟨h.anchored (Or.inr ⟨p, ?_, mem_links.mpr ⟨name, hc⟩⟩), h.alive hE t⟩
    exact (h.not_doomed hE (h.alive hE t p hp)).1
  · intro hnone
    rw [h.locks.seen t hnone] at hp
    cases hp

theorem exec_keeps {c : Cmd} {e : Env} {r : c.Res} (h : Inv E s f)
    (hsolo : E ∨ ∀ u, u ≠ t → f u = Hand.empty) (hpre : pre (f t) c) (hguard : Guard E s c)
    (hexec : exec s t c e = some (r, s')) :
    ∃ o, post (f t) c r o ∧ Inv E s' (Function.update f t o) := by
  have hknows := h.knows t
  cases c with
  | lock k =>
      simp only [exec] at hexec
      split at hexec
      · rename_i hd hk
        cases hexec
        have hchain := h.tree.chain hk
        exact ⟨_, ⟨s.Edge, hknows.edge, ⟨hchain.root, hchain.steps⟩, rfl⟩, h.lock hpre hk rfl⟩
      · cases hexec
  | unlock k =>
      obtain ⟨hd, hold⟩ := hpre
      simp only [exec, h.locks.held t k hd hold] at hexec
      cases hexec
      exact ⟨_, rfl, h.unlock hold rfl⟩
  | consume k =>
      simp only [exec] at hexec
      split at hexec
      · rename_i hd hk
        cases hexec
        have hchain := h.tree.chain hk
        exact ⟨_, ⟨s.Edge, hknows.edge, ⟨hchain.root, hchain.steps⟩, rfl⟩, h.consume hpre hk rfl⟩
      · cases hexec
  | put k hd =>
      obtain ⟨htoks, hpath⟩ := hpre
      simp only [exec] at hexec
      split at hexec
      · rename_i hk
        cases hexec
        exact ⟨_, rfl, h.put hk htoks hpath rfl⟩
      · cases hexec
  | replace k k' hd =>
      obtain ⟨h₀, hold, htoks, hparents, hedge⟩ := hpre
      simp only [exec] at hexec
      split at hexec
      · rename_i hk'
        cases hexec
        exact ⟨_, rfl, h.replace hold hk' htoks hparents hedge rfl⟩
      · cases hexec
  | incref n =>
      cases hexec
      exact ⟨_, rfl, h.incref hpre rfl⟩
  | decr n =>
      obtain ⟨rest, htoks, hdying, -, htaken⟩ := hpre
      cases hexec
      refine ⟨_, rfl, h.decr hsolo (h.seen_of_quiet hguard) htoks hdying htaken ?_⟩
      rw [htoks]
      rfl
  | children n =>
      cases hexec
      cases hm : (s.node n).children with
      | none => exact ⟨_, rfl, h.children_none rfl⟩
      | some m =>
          have hlinks : (e.order (values m)).1.Perm (s.node n).links := by
            rw [Node.links, hm]
            exact (e.order (values m)).2
          refine ⟨_, ⟨fun c hc => ?_, rfl⟩, h.children_some hpre hlinks rfl⟩
          exact (h.tree.edge (hlinks.mem_iff.mp hc)).lt
  | drop n =>
      obtain ⟨rest, htaken⟩ := hpre
      cases hexec
      refine ⟨_, rfl, h.drop htaken ?_⟩
      rw [htaken]
      rfl
  | lookup p name =>
      cases hexec
      cases hc : s.entry p name with
      | none => exact ⟨_, rfl, h.unchanged⟩
      | some c =>
          exact ⟨_, ⟨s.Edge, hknows.edge, (h.tree.link hc).1, rfl⟩, h.lookup hpre hc rfl⟩
  | link p info =>
      obtain ⟨hp, htaken⟩ := hpre
      simp only [exec] at hexec
      split at hexec
      · cases hexec
        exact ⟨_, rfl, h.unchanged⟩
      · rename_i m hm
        split at hexec
        · cases hexec
          exact ⟨_, rfl, h.unchanged⟩
        · rename_i hnone
          cases hexec
          exact ⟨_, ⟨fun a b => (f t).edge a b ∨ a = p ∧ b = s.next, fun a b hab => Or.inl hab,
            Or.inr ⟨rfl, rfl⟩, rfl⟩, h.link hsolo hp htaken hm hnone (fun _ _ hab => hab) rfl⟩
  | unlink p name ent =>
      obtain ⟨hp, htaken, hedge, hname⟩ := hpre
      simp only [exec] at hexec
      split at hexec
      · cases hexec
        exact ⟨_, rfl, h.unchanged⟩
      · rename_i m hm
        split at hexec
        · cases hexec
          exact ⟨_, rfl, h.unchanged⟩
        · rename_i c hc
          cases hexec
          have hentry : s.entry p name = some c := by
            rw [Store.entry, hm]
            exact hc
          have hown : E → c = ent := by
            intro hE
            rcases hguard hE with hg | hg
            · cases hentry.symm.trans hg
            · exact Option.some.inj (hentry.symm.trans hg)
          exact ⟨_, rfl, h.unlink hsolo hp htaken hedge hname hm hc hown rfl⟩
  | info n =>
      cases hexec
      refine ⟨_, rfl, h.learn rfl hknows.edge ?_ hknows.seen (fun hE => h.alive hE t)
        (h.locks.seen t)⟩
      rintro m x (hx | ⟨rfl, rfl⟩)
      · exact hknows.names m x hx
      · exact ⟨hpre.elim (hknows.toks m) (hknows.seen m), rfl⟩
  | list n =>
      simp only [exec] at hexec
      split at hexec <;> cases hexec <;> exact ⟨_, rfl, h.unchanged⟩
  | wstat n dir =>
      cases hexec
      exact ⟨_, rfl, h.same_self (same_wstat n dir)⟩
  | read n len offset =>
      cases hexec
      exact ⟨_, rfl, h.unchanged⟩
  | write n p offset =>
      simp only [exec] at hexec
      split at hexec
      · cases hexec
        exact ⟨_, rfl, h.unchanged⟩
      · rename_i hw
        cases hexec
        exact ⟨_, rfl, h.same_self (same_write hw)⟩
  | setFile k n =>
      cases hexec
      exact ⟨_, rfl, h.same_self ⟨rfl, rfl, fun _ => rfl, fun _ => rfl, fun _ => rfl, fun _ => rfl,
        fun _ => rfl⟩⟩
  | getFile k =>
      cases hexec
      exact ⟨_, rfl, h.unchanged⟩
  | nextPath =>
      cases hexec
      exact ⟨_, rfl, h.same_self ⟨rfl, rfl, fun _ => rfl, fun _ => rfl, fun _ => rfl, fun _ => rfl,
        fun _ => rfl⟩⟩
  | now =>
      cases hexec
      exact ⟨_, rfl, h.unchanged⟩

end Step

end P9p.Ramfs
