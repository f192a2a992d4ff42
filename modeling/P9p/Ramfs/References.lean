/-
# References to nodes

A node is referred to by the maps of directories, by handles, and by operations
that are under way; the root is also referred to by the server.  `Counted` says
that the counts are right.  It comes in two strengths:

* **exact** (`E` is true): every count is the number of references.
* otherwise a count is no less than that, and only for the nodes that are
  `Anchored`: the root, and what some directory has a name for.

The second is what is left after a `Remove` that has taken away the name of
another node.  It is enough to keep the tree alive.

A directory whose count has come to zero gives up its map in three steps: it
visits the children, counts each of them down, and drops the map.  While it does,
it belongs to `T`, and its links are not references any more; those who visit
the children have taken them over.
-/
import P9p.Ramfs

namespace P9p.Ramfs

open Conc Tally

variable {s s' : Store} {n p q : Nat}

/-! ## The tree -/

/-- The nodes a directory has names for. -/
def Node.links (f : Node) : List Nat := f.children.elim [] values

/-- The nodes that handles refer to, as often as they do. -/
def heldIn (handles : AList fun _ : Key => Slot) : List Nat :=
  (values handles).flatMap fun slot => slot.handle.chain

namespace Store

def held (s : Store) : List Nat := heldIn s.handles

/-- `b` was linked into `a`. -/
structure Edge (s : Store) (a b : Nat) : Prop where
  home : (s.node b).home = a
  lt : a < b
  bound : b < s.next

/-- A path that starts at the root. -/
structure Chain (s : Store) (l : List Nat) : Prop where
  root : l.head? = some 0
  steps : l.IsChain s.Edge

/-- What is said about a node once and for all. -/
structure Grows (s s' : Store) : Prop where
  next : s.next ≤ s'.next
  home : ∀ n, n < s.next → (s'.node n).home = (s.node n).home
  name : ∀ n, n < s.next → (s'.node n).info.name = (s.node n).info.name
  type : ∀ n, n < s.next → (s'.node n).info.qid.type = (s.node n).info.qid.type

theorem Grows.edge (h : s.Grows s') {a b : Nat} (he : s.Edge a b) : s'.Edge a b :=
  ⟨(h.home b he.bound).trans he.home, he.lt, Nat.lt_of_lt_of_le he.bound h.next⟩

theorem Grows.chain (h : s.Grows s') {l : List Nat} (hl : s.Chain l) : s'.Chain l :=
  ⟨hl.root, hl.steps.imp fun _ _ => h.edge⟩

/-- Links lead from older nodes to newer ones, each under the name of the newer
one, and handles are paths. -/
structure Tree (s : Store) : Prop where
  pos : 0 < s.next
  link : ∀ {p name c}, s.entry p name = some c → s.Edge p c ∧ (s.node c).info.name = name
  blank : ∀ n, s.next ≤ n → (s.node n).nref = 0 ∧ (s.node n).children = none
  chain : ∀ {k slot}, s.handles.lookup k = some slot → s.Chain slot.handle.chain

end Store

/-- `m` is `n` or below it. -/
def Store.Below (s : Store) : Nat → Nat → Prop :=
  Relation.ReflTransGen fun p c => c ∈ (s.node p).links

theorem mem_links : n ∈ (s.node p).links ↔ ∃ name, s.entry p name = some n := by
  unfold Node.links Store.entry
  cases (s.node p).children with
  | none => exact ⟨nofun, fun ⟨_, h⟩ => nomatch h⟩
  | some m => exact mem_values

theorem Store.Tree.edge (h : s.Tree) (hn : n ∈ (s.node p).links) : s.Edge p n := by
  obtain ⟨name, hname⟩ := mem_links.mp hn
  exact (h.link hname).1

theorem Store.Tree.links_blank (h : s.Tree) (hp : s.next ≤ p) : (s.node p).links = [] := by
  rw [Node.links, (h.blank p hp).2]
  rfl

/-- Where links are only taken away. -/
theorem Store.Tree.shrink (h : s.Tree) (hg : s.Grows s') (hnext : s'.next = s.next)
    (hentry : ∀ p name c, s'.entry p name = some c → s.entry p name = some c)
    (hblank : ∀ n, s.next ≤ n → (s'.node n).nref = 0 ∧ (s'.node n).children = none)
    (hchain : ∀ k slot, s'.handles.lookup k = some slot → s'.Chain slot.handle.chain) :
    s'.Tree where
  pos := hnext ▸ h.pos
  link := by
    intro p name c hc
    obtain ⟨hedge, hname⟩ := h.link (hentry p name c hc)
    exact ⟨hg.edge hedge, (hg.name c hedge.bound).trans hname⟩
  blank n hn := hblank n (hnext ▸ hn)
  chain := hchain _ _

/-! ## Counts -/

namespace Store

/-- Apart from those that are giving up their map, the root and the nodes that
some directory has a name for. -/
def Anchored (s : Store) (T : Nat → Prop) (n : Nat) : Prop :=
  n = 0 ∨ ∃ p, ¬ T p ∧ n ∈ (s.node p).links

open Classical in
/-- The references to `n` from the map of `p`. -/
noncomputable def linksFrom (s : Store) (T : Nat → Prop) (n p : Nat) : Nat :=
  if T p then 0 else (s.node p).links.count n

noncomputable def linkCount (s : Store) (T : Nat → Prop) (n : Nat) : Nat :=
  ∑ p ∈ Finset.range s.next, s.linksFrom T n p

noncomputable def refs (s : Store) (T : Nat → Prop) (n : Nat) : Nat :=
  (if n = 0 then 1 else 0) + s.linkCount T n + s.held.count n

end Store

/-- The counts are right, if operations under way have `K n` references to
`n`. -/
structure Counted (E : Prop) (s : Store) (T : Nat → Prop) (K : Nat → Nat) : Prop where
  lower : ∀ n, E ∨ s.Anchored T n → ((s.refs T n + K n : Nat) : Int) ≤ (s.node n).nref
  upper : E → ∀ n, (s.node n).nref ≤ ((s.refs T n + K n : Nat) : Int)

section Counted

variable {E : Prop} {T T' : Nat → Prop} {K K' : Nat → Nat}

/-- Counts stay right where each changes as the references do. -/
theorem Counted.balance (h : Counted E s T K)
    (hanchor : ∀ n, s'.Anchored T' n →
      s.Anchored T n ∨ ((s.refs T n + K n : Nat) : Int) ≤ (s.node n).nref)
    (heq : ∀ n, E ∨ s'.Anchored T' n →
      (s'.node n).nref + (s.refs T n + K n : Nat) = (s.node n).nref + (s'.refs T' n + K' n : Nat)) :
    Counted E s' T' K' where
  lower n hn := by
    have hlow : ((s.refs T n + K n : Nat) : Int) ≤ (s.node n).nref := by
      rcases hn with hE | ha
      · exact h.lower n (Or.inl hE)
      · rcases hanchor n ha with ha | hle
        · exact h.lower n (Or.inr ha)
        · exact hle
    have := heq n hn
    omega
  upper hE n := by
    have := h.upper hE n
    have := heq n (Or.inl hE)
    omega

theorem linksFrom_of_links (hlinks : (s'.node p).links = (s.node p).links) (hT : T' p ↔ T p) :
    s'.linksFrom T' n p = s.linksFrom T n p := by
  classical
  unfold Store.linksFrom
  rw [hlinks]
  exact if_congr hT rfl rfl

/-- If only the map of `q` changes, or whether `q` is giving it up. -/
theorem linkCount_update (s' : Store) (hq : q < s.next) (hnext : s'.next = s.next)
    (hlinks : ∀ p, p ≠ q → (s'.node p).links = (s.node p).links) (hT : ∀ p, p ≠ q → (T' p ↔ T p))
    (n : Nat) :
    s'.linkCount T' n + s.linksFrom T n q = s.linkCount T n + s'.linksFrom T' n q := by
  rw [Store.linkCount, Store.linkCount, hnext]
  exact sum_range_update hq fun p hp => linksFrom_of_links (hlinks p hp) (hT p hp)

theorem linkCount_congr (hnext : s'.next = s.next)
    (hlinks : ∀ p, (s'.node p).links = (s.node p).links) (hT : ∀ p, T' p ↔ T p) (n : Nat) :
    s'.linkCount T' n = s.linkCount T n := by
  rw [Store.linkCount, Store.linkCount, hnext]
  exact Finset.sum_congr rfl fun p _ => linksFrom_of_links (hlinks p) (hT p)

theorem anchored_congr (hlinks : ∀ p, (s'.node p).links = (s.node p).links)
    (hT : ∀ p, T' p ↔ T p) : s'.Anchored T' n ↔ s.Anchored T n := by
  simp only [Store.Anchored, hlinks, hT]

/-- Links are only taken away, or given up. -/
theorem anchored_mono
    (hlinks : ∀ p n, ¬ T' p → n ∈ (s'.node p).links → ¬ T p ∧ n ∈ (s.node p).links)
    (h : s'.Anchored T' n) : s.Anchored T n := by
  rcases h with rfl | ⟨p, hp, hn⟩
  · exact Or.inl rfl
  · exact Or.inr ⟨p, hlinks p n hp hn⟩

/-- Where only references move between handles and operations. -/
theorem Counted.move (h : Counted E s T K) (hnext : s'.next = s.next)
    (hlinks : ∀ p, (s'.node p).links = (s.node p).links) (hT : ∀ p, T' p ↔ T p)
    (heq : ∀ n, (s'.node n).nref + (s.held.count n + K n : Nat) =
      (s.node n).nref + (s'.held.count n + K' n : Nat)) : Counted E s' T' K' := by
  refine h.balance (fun n hn => Or.inl ((anchored_congr hlinks hT).mp hn)) fun n _ => ?_
  have := heq n
  rw [Store.refs, Store.refs, linkCount_congr hnext hlinks hT]
  omega

/-! ### One node -/

theorem Store.set_node (s : Store) (q : Nat) (f : Node) : (s.set q f).node q = f :=
  Function.update_self ..

theorem Store.set_node_of_ne (s : Store) {q : Nat} (f : Node) (h : p ≠ q) :
    (s.set q f).node p = s.node p :=
  Function.update_of_ne h ..

variable {m : Nat} {toks cs : List Nat}

/-- What the new node has in common with the old one. -/
theorem Store.set_congr {α : Type} {f : Node} (g : Node → α) (hf : g f = g (s.node q)) (p : Nat) :
    g ((s.set q f).node p) = g (s.node p) :=
  update_congr g hf p

theorem Store.set_addRef (s : Store) (m : Nat) (i : Int) (n : Nat) :
    ((s.set m ((s.node m).addRef i)).node n).nref =
      (s.node n).nref + if n = m then i else 0 := by
  split
  · rename_i hn
    subst hn
    rw [Store.set_node]
    rfl
  · rename_i hn
    rw [Store.set_node_of_ne s _ hn, Int.add_zero]

theorem count_cons_eq (n m : Nat) (l : List Nat) :
    (m :: l).count n = l.count n + if n = m then 1 else 0 := by
  rw [List.count_cons]
  simp only [beq_iff_eq, eq_comm (a := m)]

theorem Counted.incref (h : Counted E s T K)
    (hK : ∀ n, K' n + toks.count n = K n + (m :: toks).count n) :
    Counted E (s.set m ((s.node m).addRef 1)) T K' := by
  refine h.move rfl (Store.set_congr Node.links rfl) (fun _ => Iff.rfl) fun n => ?_
  have hn := hK n
  rw [count_cons_eq] at hn
  rw [Store.set_addRef, show (s.set m _).held = s.held from rfl]
  split at hn <;> omega

theorem Counted.decr (h : Counted E s T K)
    (hK : ∀ n, K' n + (m :: toks).count n = K n + toks.count n) :
    Counted E (s.set m ((s.node m).addRef (-1))) T K' := by
  refine h.move rfl (Store.set_congr Node.links rfl) (fun _ => Iff.rfl) fun n => ?_
  have hn := hK n
  rw [count_cons_eq] at hn
  rw [Store.set_addRef, show (s.set m _).held = s.held from rfl]
  split at hn <;> omega

/-- A directory begins to give up its map. -/
theorem Counted.take (h : Counted E s T K) (hp : p < s.next) (hTp : ¬ T p)
    (hT' : ∀ q, T' q ↔ q = p ∨ T q) (hcs : cs.Perm (s.node p).links)
    (hK : ∀ n, K' n + toks.count n = K n + (cs ++ toks).count n) : Counted E s T' K' := by
  have hanchor : ∀ n, s.Anchored T' n → s.Anchored T n := by
    intro n hn
    exact anchored_mono (fun q n hq hn => ⟨fun hTq => hq ((hT' q).mpr (Or.inr hTq)), hn⟩) hn
  refine h.balance (fun n hn => Or.inl (hanchor n hn)) fun n _ => ?_
  have hlinks := linkCount_update s hp rfl (fun _ _ => rfl)
    (fun q hq => (hT' q).trans (or_iff_right hq)) n
  have hn := hK n
  rw [Store.linksFrom, Store.linksFrom, if_neg hTp, if_pos ((hT' p).mpr (Or.inl rfl))] at hlinks
  rw [List.count_append, hcs.count_eq] at hn
  simp only [Store.refs]
  omega

/-- It has no map any more. -/
theorem Counted.drop (h : Counted E s T K) (hp : p < s.next) (hTp : T p)
    (hT' : ∀ q, q ≠ p → (T' q ↔ T q)) :
    Counted E (s.set p ((s.node p).withChildren none)) T' K := by
  have hnref : ∀ n, ((s.set p ((s.node p).withChildren none)).node n).nref = (s.node n).nref :=
    Store.set_congr Node.nref rfl
  have hnone : ((s.set p ((s.node p).withChildren none)).node p).links = [] := by
    rw [Store.set_node]
    rfl
  have hlinks : ∀ q, q ≠ p →
      ((s.set p ((s.node p).withChildren none)).node q).links = (s.node q).links := by
    intro q hq
    rw [Store.set_node_of_ne s _ hq]
  have hheld : (s.set p ((s.node p).withChildren none)).held = s.held := rfl
  have hnext : (s.set p ((s.node p).withChildren none)).next = s.next := rfl
  generalize s.set p ((s.node p).withChildren none) = s' at *
  refine h.balance (fun n hn => Or.inl (anchored_mono (fun q n hq hn => ?_) hn)) fun n _ => ?_
  · by_cases hqp : q = p
    · subst hqp
      rw [hnone] at hn
      cases hn
    · rw [hlinks q hqp] at hn
      exact ⟨fun hTq => hq ((hT' q hqp).mpr hTq), hn⟩
  · have hcount := linkCount_update s' hp hnext hlinks hT' n
    rw [Store.linksFrom, Store.linksFrom, if_pos hTp, hnone, List.count_nil, ite_self] at hcount
    rw [hnref, Store.refs, Store.refs, hheld]
    omega

/-! ### Names -/

variable {names : Names} {info : Dir} {name : Bytes} {c ent : Nat}

theorem Store.Chain.lt (h : s.Chain cs) (hpos : 0 < s.next) : ∀ n ∈ cs, n < s.next := by
  obtain ⟨hroot, hsteps⟩ := h
  cases cs with
  | nil => cases hroot
  | cons a l =>
      obtain rfl : a = 0 := Option.some.inj hroot
      rw [List.forall_mem_cons]
      refine ⟨hpos, ?_⟩
      clear hroot
      generalize (0 : Nat) = a at hsteps
      induction l generalizing a with
      | nil => nofun
      | cons b l ih =>
          obtain ⟨hedge, hl⟩ := List.isChain_cons_cons.mp hsteps
          exact List.forall_mem_cons.mpr ⟨hedge.bound, ih b hl⟩

theorem Store.Tree.held_lt (h : s.Tree) : ∀ n ∈ s.held, n < s.next := by
  intro n hn
  obtain ⟨slot, hslot, hn⟩ := List.mem_flatMap.mp hn
  obtain ⟨k, hk⟩ := mem_values.mp hslot
  exact (h.chain hk).lt h.pos n hn

theorem Store.Tree.refs_blank (h : s.Tree) (hn : s.next ≤ n) : s.refs T n = 0 := by
  have hlinks : s.linkCount T n = 0 := by
    refine Finset.sum_eq_zero fun p _ => ?_
    rw [Store.linksFrom, List.count_eq_zero_of_not_mem, ite_self]
    exact fun hmem => Nat.not_lt.mpr hn (h.edge hmem).bound
  have hheld : s.held.count n = 0 :=
    List.count_eq_zero_of_not_mem fun hmem => Nat.not_lt.mpr hn (h.held_lt n hmem)
  have hpos := h.pos
  rw [Store.refs, hlinks, hheld, if_neg (by omega)]

/-- What is anchored has a reference. -/
theorem Store.Tree.anchored_refs (h : s.Tree) (ha : s.Anchored T n) : 1 ≤ s.refs T n := by
  rcases ha with rfl | ⟨p, hp, hn⟩
  · rw [Store.refs, if_pos rfl]
    omega
  · have hedge := h.edge hn
    have hone : 1 ≤ s.linksFrom T n p := by
      rw [Store.linksFrom, if_neg hp]
      exact List.count_pos_iff.mpr hn
    have hle : s.linksFrom T n p ≤ s.linkCount T n := by
      have hmem := Finset.mem_range.mpr (Nat.lt_trans hedge.lt hedge.bound)
      rw [Store.linkCount, ← Finset.add_sum_erase _ _ hmem]
      exact Nat.le_add_right _ _
    rw [Store.refs]
    omega

theorem Counted.anchored (h : Counted E s T K) (ht : s.Tree) (ha : s.Anchored T n) :
    1 ≤ (s.node n).nref := by
  have := h.lower n (Or.inr ha)
  have := ht.anchored_refs ha
  omega

theorem Store.linkNew_self (s : Store) (p : Nat) (names : Names) (info : Dir) :
    (s.linkNew p names info).node s.next = .create info p :=
  Function.update_self ..

theorem Store.linkNew_parent (hp : p ≠ s.next) : (s.linkNew p names info).node p =
    (s.node p).withChildren (some (names.insert info.name s.next)) :=
  (Function.update_of_ne hp ..).trans (Function.update_self ..)

theorem Store.linkNew_of_ne (hq : q ≠ p) (hq' : q ≠ s.next) :
    (s.linkNew p names info).node q = s.node q :=
  (Function.update_of_ne hq' ..).trans (Function.update_of_ne hq ..)

/-- A new node has no children. -/
theorem Node.create_links (info : Dir) (home : Nat) : (Node.create info home).links = [] := by
  unfold Node.links Node.create
  split <;> rfl

theorem Store.linkNew_links_parent (hp : p < s.next) (hm : (s.node p).children = some names)
    (hnone : names.lookup info.name = none) :
    ((s.linkNew p names info).node p).links = s.next :: (s.node p).links := by
  rw [Store.linkNew_parent (Nat.ne_of_lt hp), Node.links, Node.links, hm]
  exact values_insert.trans (congrArg _ (values_erase_of_none hnone))

theorem Store.linkNew_links (hq : q ≠ p) (hblank : (s.node s.next).links = []) :
    ((s.linkNew p names info).node q).links = (s.node q).links := by
  by_cases hq' : q = s.next
  · rw [hq', Store.linkNew_self, Node.create_links, hblank]
  · rw [Store.linkNew_of_ne hq hq']

theorem linkCount_linkNew (ht : s.Tree) (hp : p < s.next) (hTp : ¬ T p)
    (hm : (s.node p).children = some names) (hnone : names.lookup info.name = none) (n : Nat) :
    (s.linkNew p names info).linkCount T n = s.linkCount T n + if n = s.next then 1 else 0 := by
  have hblank := ht.links_blank (Nat.le_refl s.next)
  have hsum : ∑ q ∈ Finset.range s.next, (s.linkNew p names info).linksFrom T n q +
      s.linksFrom T n p = ∑ q ∈ Finset.range s.next, s.linksFrom T n q +
      (s.linkNew p names info).linksFrom T n p :=
    sum_range_update hp fun q hq => linksFrom_of_links (Store.linkNew_links hq hblank) Iff.rfl
  have hself : (s.linkNew p names info).linksFrom T n s.next = 0 := by
    rw [Store.linksFrom, Store.linkNew_self, Node.create_links, List.count_nil, ite_self]
  have hparent : (s.linkNew p names info).linksFrom T n p =
      s.linksFrom T n p + if n = s.next then 1 else 0 := by
    rw [Store.linksFrom, Store.linksFrom, if_neg hTp, if_neg hTp,
      Store.linkNew_links_parent hp hm hnone, count_cons_eq]
  rw [hparent] at hsum
  have hnext : (s.linkNew p names info).next = s.next + 1 := rfl
  rw [Store.linkCount, Store.linkCount, hnext, Finset.sum_range_succ, hself]
  omega

theorem Counted.link (h : Counted E s T K) (ht : s.Tree) (hp : p < s.next) (hTp : ¬ T p)
    (hm : (s.node p).children = some names) (hnone : names.lookup info.name = none)
    (hK : K s.next = 0) : Counted E (s.linkNew p names info) T K := by
  have hpos := ht.pos
  have hblank := ht.links_blank (Nat.le_refl s.next)
  have hlinks : ∀ q, q ≠ p → ((s.linkNew p names info).node q).links = (s.node q).links :=
    fun q hq => Store.linkNew_links hq hblank
  have hparent := s.linkNew_links_parent hp hm hnone
  have hnew : (s.refs T s.next + K s.next : Nat) = (s.node s.next).nref := by
    rw [ht.refs_blank (Nat.le_refl _), hK, (ht.blank _ (Nat.le_refl _)).1]
    rfl
  refine h.balance (fun n hn => ?_) fun n _ => ?_
  · rcases hn with rfl | ⟨q, hq, hn⟩
    · exact Or.inl (Or.inl rfl)
    · by_cases hqp : q = p
      · subst hqp
        rw [hparent] at hn
        rcases List.mem_cons.mp hn with rfl | hn
        · exact Or.inr (Int.le_of_eq hnew)
        · exact Or.inl (Or.inr ⟨q, hq, hn⟩)
      · rw [hlinks q hqp] at hn
        exact Or.inl (Or.inr ⟨q, hq, hn⟩)
  · have hnref : ((s.linkNew p names info).node n).nref =
        (s.node n).nref + if n = s.next then 1 else 0 := by
      by_cases hn : n = s.next
      · rw [hn, Store.linkNew_self, (ht.blank _ (Nat.le_refl _)).1, if_pos rfl]
        rfl
      · rw [if_neg hn, Int.add_zero]
        by_cases hnp : n = p
        · rw [hnp, Store.linkNew_parent (Nat.ne_of_lt hp)]
          rfl
        · rw [Store.linkNew_of_ne hnp hn]
    rw [hnref, Store.refs, Store.refs, linkCount_linkNew ht hp hTp hm hnone,
      show (s.linkNew p names info).held = s.held from rfl]
    split <;> omega

/-- A name is taken away on behalf of `ent`, which was linked under it. -/
theorem Counted.unlink (h : Counted E s T K) (ht : s.Tree) (hTp : ¬ T p)
    (hm : (s.node p).children = some names) (hc : names.lookup name = some c) (hE : E → c = ent)
    (hent : s.Edge p ent) (hname : (s.node ent).info.name = name)
    (hK : ∀ n, K' n + toks.count n = K n + (ent :: toks).count n) :
    Counted E (s.set p ((s.node p).withChildren (some (names.erase name)))) T K' := by
  have hedge : s.Edge p c ∧ (s.node c).info.name = name := by
    refine ht.link ?_
    rw [Store.entry, hm]
    exact hc
  have hp : p < s.next := Nat.lt_trans hedge.1.lt hedge.1.bound
  have hnref : ∀ n, ((s.set p ((s.node p).withChildren (some (names.erase name)))).node n).nref =
      (s.node n).nref := Store.set_congr Node.nref rfl
  have hlinks : ∀ q, q ≠ p →
      ((s.set p ((s.node p).withChildren (some (names.erase name)))).node q).links =
        (s.node q).links := by
    intro q hq
    rw [Store.set_node_of_ne s _ hq]
  have hself : ((s.set p ((s.node p).withChildren (some (names.erase name)))).node p).links =
      values (names.erase name) := by
    rw [Store.set_node]
    rfl
  have hheld : (s.set p ((s.node p).withChildren (some (names.erase name)))).held = s.held := rfl
  have hnext : (s.set p ((s.node p).withChildren (some (names.erase name)))).next = s.next := rfl
  generalize s.set p ((s.node p).withChildren (some (names.erase name))) = s' at *
  have hold : (s.node p).links = values names := by
    rw [Node.links, hm]
    rfl
  -- what was linked under the name is not anchored any more
  have hloose : ∀ x, s.Edge p x → (s.node x).info.name = name → ¬ s'.Anchored T x := by
    rintro x hx hxname (rfl | ⟨q, -, hq⟩)
    · exact Nat.not_lt_zero p hx.lt
    · by_cases hqp : q = p
      · rw [hqp, hself] at hq
        obtain ⟨name', hname'⟩ := mem_values.mp hq
        have hne : name' ≠ name := by
          rintro rfl
          rw [AList.lookup_erase] at hname'
          cases hname'
        rw [AList.lookup_erase_ne hne] at hname'
        have hentry : s.entry p name' = some x := by
          rw [Store.entry, hm]
          exact hname'
        exact hne ((ht.link hentry).2.symm.trans hxname)
      · rw [hlinks q hqp] at hq
        exact hqp ((ht.edge hq).home.symm.trans hx.home)
  refine h.balance (fun n hn => Or.inl (anchored_mono (fun q n hq hn => ⟨hq, ?_⟩) hn))
    fun n hn => ?_
  · by_cases hqp : q = p
    · rw [hqp, hself] at hn
      rw [hqp, hold]
      exact (perm_values hc).mem_iff.mpr (List.mem_cons_of_mem _ hn)
    · rwa [hlinks q hqp] at hn
  · have hcount := linkCount_update s' hp hnext hlinks (fun q _ => Iff.refl (T q)) n
    rw [Store.linksFrom, Store.linksFrom, if_neg hTp, if_neg hTp, hself, hold,
      (perm_values hc).count_eq, count_cons_eq] at hcount
    have hKn := hK n
    rw [count_cons_eq] at hKn
    have hsame : n = c ↔ n = ent := by
      by_cases hcent : c = ent
      · rw [hcent]
      · have ha := hn.resolve_left fun hE' => hcent (hE hE')
        have hnc : n ≠ c := fun heq => hloose c hedge.1 hedge.2 (heq ▸ ha)
        have hne : n ≠ ent := fun heq => hloose ent hent hname (heq ▸ ha)
        simp only [hnc, hne]
    rw [if_congr hsame rfl rfl] at hcount
    rw [hnref, Store.refs, Store.refs, hheld]
    omega

/-! ### Handles -/

variable {handles : AList fun _ : Key => Slot} {k : Key} {slot : Slot}

theorem count_heldIn_insert (n : Nat) : (heldIn (handles.insert k slot)).count n =
    slot.handle.chain.count n + (heldIn (handles.erase k)).count n := by
  rw [heldIn, values_insert, List.flatMap_cons, List.count_append]
  rfl

theorem count_heldIn (h : handles.lookup k = some slot) (n : Nat) :
    (heldIn handles).count n =
      slot.handle.chain.count n + (heldIn (handles.erase k)).count n := by
  rw [heldIn, ((perm_values h).flatMap_right _).count_eq, List.flatMap_cons, List.count_append]
  rfl

theorem heldIn_erase_of_none (h : handles.lookup k = none) :
    heldIn (handles.erase k) = heldIn handles := by
  rw [heldIn, values_erase_of_none h, heldIn]

theorem Counted.set_handles (h : Counted E s T K)
    (heq : ∀ n, s.held.count n + K n = (heldIn handles).count n + K' n) :
    Counted E { s with handles } T K' := by
  refine h.move rfl (fun _ => rfl) (fun _ => Iff.rfl) fun n => ?_
  show (s.node n).nref + _ = (s.node n).nref + ((heldIn handles).count n + K' n : Nat)
  rw [heq n]

end Counted

end P9p.Ramfs
