/-
# What an operation has in hand

Between two commands an operation owns references, has a handle locked, knows of
nodes, or is in the middle of giving up the map of a directory.  Its `Hand` says
so; it is not part of the program.

    toks       references it has to give back or to put into a handle
    dying      a node it has counted down to zero
    taken      the directories whose children it is counting down
    locked     the handle it uses
    seen       nodes it has found from there
    edge       which of the nodes it knows were linked into which
    names      the names it has read

`pre` says which commands an operation may issue with what it has in hand, and
`post` what it has afterwards.  The invariant `Inv` ties the store to all hands.
-/
import P9p.Ramfs.References

namespace P9p.Ramfs

open Conc Tally

/-! ## Hands -/

structure Hand where
  toks : List Nat
  dying : Option Nat
  taken : List Nat
  locked : Option (Key × Handle)
  seen : List Nat
  edge : Nat → Nat → Prop
  names : Nat → Bytes → Prop

def Hand.empty : Hand := ⟨[], none, [], none, [], fun _ _ => False, fun _ _ => False⟩

/-- Nothing in hand, whatever is known. -/
structure Hand.Idle (o : Hand) : Prop where
  toks : o.toks = []
  dying : o.dying = none
  taken : o.taken = []
  locked : o.locked = none
  seen : o.seen = []

/-- The path of a handle is known. -/
structure Hand.Path (edge : Nat → Nat → Prop) (l : List Nat) : Prop where
  root : l.head? = some 0
  steps : l.IsChain edge

def pre (o : Hand) : Cmd → Prop
  | .lock _ | .consume _ => o.locked = none
  | .unlock k => ∃ h, o.locked = some (k, h)
  | .put _ h => o.toks.Perm h.chain ∧ Hand.Path o.edge h.chain
  | .replace k _ h =>
      ∃ h₀, o.locked = some (k, h₀) ∧ o.toks = [h.ent] ∧ h.parents = h₀.chain ∧ o.edge h₀.ent h.ent
  | .incref n => n ∈ o.seen ∨ n = 0
  | .decr n =>
      ∃ rest, o.toks = n :: rest ∧ o.dying = none ∧ o.locked = none ∧ ∀ p ∈ o.taken, p < n
  | .children n => o.dying = some n
  | .drop n => ∃ rest, o.taken = n :: rest
  | .lookup p _ => p ∈ o.seen
  | .link p _ => p ∈ o.seen ∧ o.taken = []
  | .unlink p name ent => p ∈ o.toks ∧ o.taken = [] ∧ o.edge p ent ∧ o.names ent name
  | .info n => n ∈ o.toks ∨ n ∈ o.seen
  | _ => True

/-- What is known stays known. -/
def Hand.Learns (o : Hand) (edge : Nat → Nat → Prop) : Prop := ∀ a b, o.edge a b → edge a b

def post (o : Hand) : (c : Cmd) → c.Res → Hand → Prop
  | .lock k, h, o' =>
      ∃ edge, o.Learns edge ∧ Hand.Path edge h.chain ∧
        o' = { o with locked := some (k, h), seen := h.chain ++ o.seen, edge }
  | .unlock _, _, o' => o' = { o with locked := none, seen := [] }
  | .consume _, h, o' =>
      ∃ edge, o.Learns edge ∧ Hand.Path edge h.chain ∧
        o' = { o with toks := h.ent :: h.parents.reverse ++ o.toks, edge }
  | .put _ _, _, o' => o' = { o with toks := [] }
  | .replace _ _ _, _, o' => o' = { o with toks := [], locked := none, seen := [] }
  | .incref n, _, o' => o' = { o with toks := n :: o.toks }
  | .decr n, (nref : Int), o' =>
      o' = { o with toks := o.toks.tail, dying := if nref = 0 then some n else none }
  | .children _, none, o' => o' = { o with dying := none }
  | .children n, some cs, o' =>
      (∀ c ∈ cs, n < c) ∧
        o' = { o with toks := cs ++ o.toks, dying := none, taken := n :: o.taken }
  | .drop _, _, o' => o' = { o with taken := o.taken.tail }
  | .lookup p _, some c, o' | .link p _, .ok c, o' =>
      ∃ edge, o.Learns edge ∧ edge p c ∧ o' = { o with seen := c :: o.seen, edge }
  | .unlink _ _ ent, none, o' => o' = { o with toks := ent :: o.toks }
  | .info n, dir, o' => o' = { o with names := fun m x => o.names m x ∨ m = n ∧ x = dir.name }
  | _, _, o' => o' = o

/-! ## The invariant -/

section Threads

variable {f : Nat → Hand} {t : Nat} {o : Hand} {p n : Nat}

def Taken (f : Nat → Hand) (p : Nat) : Prop := ∃ t, p ∈ (f t).taken

def Dying (f : Nat → Hand) (p : Nat) : Prop := ∃ t, (f t).dying = some p

theorem taken_update :
    Taken (Function.update f t o) p ↔ p ∈ o.taken ∨ ∃ u, u ≠ t ∧ p ∈ (f u).taken :=
  Function.exists_update_iff f fun _ (o : Hand) => p ∈ o.taken

theorem dying_update :
    Dying (Function.update f t o) p ↔ o.dying = some p ∨ ∃ u, u ≠ t ∧ (f u).dying = some p :=
  Function.exists_update_iff f fun _ (o : Hand) => o.dying = some p

theorem taken_split (t : Nat) : Taken f p ↔ p ∈ (f t).taken ∨ ∃ u, u ≠ t ∧ p ∈ (f u).taken := by
  rw [← taken_update, Function.update_eq_self]

theorem dying_split (t : Nat) :
    Dying f p ↔ (f t).dying = some p ∨ ∃ u, u ≠ t ∧ (f u).dying = some p := by
  rw [← dying_update, Function.update_eq_self]

theorem taken_update_of_eq (h : o.taken = (f t).taken) :
    Taken (Function.update f t o) = Taken f := by
  funext p
  rw [taken_update, taken_split t, h]

theorem dying_update_of_eq (h : o.dying = (f t).dying) :
    Dying (Function.update f t o) = Dying f := by
  funext p
  rw [dying_update, dying_split t, h]

/-- Together the operations have `K n` references to `n`. -/
def Holding (f : Nat → Hand) (K : Nat → Nat) : Prop :=
  ∀ n, Total (fun o : Hand => o.toks.count n) f (K n)

theorem Holding.update {K : Nat → Nat} (h : Holding f K) (t : Nat) (o : Hand) :
    ∃ K', Holding (Function.update f t o) K' ∧
      ∀ n, K' n + (f t).toks.count n = K n + o.toks.count n := by
  have hK : ∀ n, K n - (f t).toks.count n + o.toks.count n + (f t).toks.count n =
      K n + o.toks.count n := by
    intro n
    have := (h n).le t
    omega
  exact ⟨_, fun n => (h n).update (hK n), hK⟩

/-- What only one operation has, if nobody else has what is new. -/
theorem lone_update {α : Type} (g : Hand → Option α)
    (h : ∀ u v a, g (f u) = some a → g (f v) = some a → u = v)
    (ho : ∀ u a, u ≠ t → g (f u) = some a → g o ≠ some a) (u v : Nat) (a : α)
    (hu : g (Function.update f t o u) = some a) (hv : g (Function.update f t o v) = some a) :
    u = v := by
  by_cases hut : u = t <;> by_cases hvt : v = t
  · exact hut.trans hvt.symm
  · rw [hut, Function.update_self] at hu
    rw [Function.update_of_ne hvt] at hv
    exact absurd hu (ho v a hvt hv)
  · rw [Function.update_of_ne hut] at hu
    rw [hvt, Function.update_self] at hv
    exact absurd hv (ho u a hut hu)
  · rw [Function.update_of_ne hut] at hu
    rw [Function.update_of_ne hvt] at hv
    exact h u v a hu hv

end Threads

/-- What a hand says about the nodes is so. -/
structure Knows (s : Store) (o : Hand) : Prop where
  toks : ∀ n ∈ o.toks, n < s.next
  dying : ∀ n, o.dying = some n → n < s.next
  taken : ∀ n ∈ o.taken, n < s.next
  seen : ∀ n ∈ o.seen, n < s.next
  edge : ∀ a b, o.edge a b → s.Edge a b
  names : ∀ n x, o.names n x → n < s.next ∧ (s.node n).info.name = x

/-- A handle is busy exactly if an operation has locked it, and only one has. -/
structure Locks (s : Store) (f : Nat → Hand) : Prop where
  held : ∀ t k h, (f t).locked = some (k, h) → s.handles.lookup k = some ⟨h, true⟩
  busy : ∀ k h, s.handles.lookup k = some ⟨h, true⟩ → ∃ t, (f t).locked = some (k, h)
  lone : ∀ t u k h, (f t).locked = some (k, h) → (f u).locked = some (k, h) → t = u
  seen : ∀ t, (f t).locked = none → (f t).seen = []

theorem Locks.not_locked {s : Store} {f : Nat → Hand} (h : Locks s f) {k : Key}
    (hk : ∀ hd, s.handles.lookup k ≠ some ⟨hd, true⟩) (u : Nat) (hd : Handle) :
    (f u).locked ≠ some (k, hd) :=
  fun hu => hk hd (h.held u k hd hu)

/-- The type of the qid, which never changes. -/
def Node.IsDirectory (f : Node) : Prop := f.info.qid.type &&& qtdir ≠ 0

/-- A directory without its map is on its way out, and so is what operations are
about to take out. -/
structure Vital (E : Prop) (s : Store) (T D : Nat → Prop) : Prop where
  dead : ∀ n, n < s.next → (s.node n).IsDirectory → (s.node n).children = none →
    ¬ s.Anchored T n ∧ (E → (s.node n).nref ≤ 0)
  doomed : ∀ n, T n ∨ D n → ¬ s.Anchored T n ∧ (E → (s.node n).nref ≤ 0)

structure Inv (E : Prop) (s : Store) (f : Nat → Hand) : Prop where
  tree : s.Tree
  knows : ∀ t, Knows s (f t)
  locks : Locks s f
  counted : ∃ K, Holding f K ∧ Counted E s (Taken f) K
  vital : Vital E s (Taken f) (Dying f)
  alive : E → ∀ t, ∀ n ∈ (f t).seen, 1 ≤ (s.node n).nref
  apart : ∀ n, Dying f n → ¬ Taken f n
  lone : ∀ t u n, (f t).dying = some n → (f u).dying = some n → t = u

theorem inv_init (E : Prop) (now : Time) : Inv E (init now) fun _ => Hand.empty := by
  have hlinks : ∀ p, ((init now).node p).links = [] := by
    rintro (_ | p) <;> rfl
  have hentry : ∀ {p name c}, (init now).entry p name ≠ some c := by
    intro p name c hc
    have hmem := mem_links.mpr ⟨name, hc⟩
    rw [hlinks] at hmem
    cases hmem
  have hrefs : ∀ T n, (((init now).refs T n + 0 : Nat) : Int) = ((init now).node n).nref := by
    intro T n
    have hcount : (init now).linkCount T n = 0 := by
      refine Finset.sum_eq_zero fun p _ => ?_
      rw [Store.linksFrom, hlinks, List.count_nil, ite_self]
    rw [Store.refs, hcount]
    cases n <;> rfl
  have hknows : Knows (init now) Hand.empty := by
    constructor <;> intros <;> contradiction
  have hlocks : Locks (init now) fun _ => Hand.empty :=
    ⟨by rintro _ _ _ ⟨⟩, by rintro _ _ ⟨⟩, by rintro _ _ _ _ ⟨⟩, fun _ _ => rfl⟩
  refine ⟨⟨Nat.one_pos, fun h => absurd h hentry, ?_, by rintro _ _ ⟨⟩⟩, fun _ => hknows, hlocks,
    ⟨fun _ => 0, fun n => Total.zero fun _ => rfl, fun n _ => Int.le_of_eq (hrefs _ n),
      fun _ n => Int.le_of_eq (hrefs _ n).symm⟩, ⟨?_, ?_⟩, by rintro _ _ _ ⟨⟩, ?_,
    by rintro _ _ _ ⟨⟩⟩
  · rintro (_ | n) hn
    · exact absurd hn (Nat.not_le.mpr Nat.one_pos)
    · exact ⟨rfl, rfl⟩
  · rintro (_ | n) hn _ hnone
    · cases hnone
    · exact absurd (Nat.lt_of_succ_lt_succ hn) (Nat.not_lt_zero n)
  · rintro n (⟨_, h⟩ | ⟨_, h⟩) <;> cases h
  · rintro n ⟨_, h⟩
    cases h

/-! ## Frames -/

section Frames

variable {E : Prop} {s s' : Store} {f : Nat → Hand} {t : Nat} {o : Hand}

theorem Knows.mono (h : Knows s o) (hg : s.Grows s') : Knows s' o where
  toks n hn := Nat.lt_of_lt_of_le (h.toks n hn) hg.next
  dying n hn := Nat.lt_of_lt_of_le (h.dying n hn) hg.next
  taken n hn := Nat.lt_of_lt_of_le (h.taken n hn) hg.next
  seen n hn := Nat.lt_of_lt_of_le (h.seen n hn) hg.next
  edge a b hab := hg.edge (h.edge a b hab)
  names n x hx := by
    obtain ⟨hlt, hname⟩ := h.names n x hx
    exact ⟨Nat.lt_of_lt_of_le hlt hg.next, (hg.name n hlt).trans hname⟩

theorem Inv.knows_update (h : Inv E s f) (hg : s.Grows s') (ho : Knows s' o) (u : Nat) :
    Knows s' (Function.update f t o u) := by
  by_cases hu : u = t
  · rwa [hu, Function.update_self]
  · rw [Function.update_of_ne hu]
    exact (h.knows u).mono hg

/-- Handles and locks stay as they are. -/
theorem Locks.same (h : Locks s f) (hh : s'.handles = s.handles) (hl : o.locked = (f t).locked)
    (hs : o.locked = none → o.seen = []) : Locks s' (Function.update f t o) := by
  have hlocked := update_congr Hand.locked hl
  refine ⟨?_, ?_, ?_, ?_⟩
  · intro u k hd hu
    rw [hlocked] at hu
    rw [hh]
    exact h.held u k hd hu
  · intro k hd hk
    rw [hh] at hk
    obtain ⟨u, hu⟩ := h.busy k hd hk
    exact ⟨u, (hlocked u).trans hu⟩
  · intro u v k hd hu hv
    rw [hlocked] at hu hv
    exact h.lone u v k hd hu hv
  · intro u hu
    by_cases hut : u = t
    · rw [hut, Function.update_self] at hu ⊢
      exact hs hu
    · rw [Function.update_of_ne hut] at hu ⊢
      exact h.seen u hu

/-- Nobody begins or ends with a directory. -/
theorem Inv.apart_same (h : Inv E s f) (hd : o.dying = (f t).dying) (ht : o.taken = (f t).taken) :
    (∀ n, Dying (Function.update f t o) n → ¬ Taken (Function.update f t o) n) ∧
      ∀ u v n, (Function.update f t o u).dying = some n →
        (Function.update f t o v).dying = some n → u = v := by
  have hdying := update_congr Hand.dying hd
  refine ⟨fun n hn => ?_, fun u v n hu hv => ?_⟩
  · rw [taken_update_of_eq ht]
    rw [dying_update_of_eq hd] at hn
    exact h.apart n hn
  · rw [hdying] at hu hv
    exact h.lone u v n hu hv

/-- What the operation has seen is alive. -/
theorem Inv.alive_update (h : Inv E s f) (halive : E → ∀ n ∈ o.seen, 1 ≤ (s.node n).nref)
    (hE : E) : ∀ u, ∀ n ∈ (Function.update f t o u).seen, 1 ≤ (s.node n).nref :=
  (Function.forall_update_iff f fun _ (o : Hand) => ∀ n ∈ o.seen, 1 ≤ (s.node n).nref).mpr
    ⟨halive hE, fun u _ => h.alive hE u⟩

/-- Nothing that the invariant is about has changed. -/
structure Same (s s' : Store) : Prop where
  next : s'.next = s.next
  handles : s'.handles = s.handles
  nref : ∀ n, (s'.node n).nref = (s.node n).nref
  children : ∀ n, (s'.node n).children = (s.node n).children
  home : ∀ n, (s'.node n).home = (s.node n).home
  name : ∀ n, (s'.node n).info.name = (s.node n).info.name
  type : ∀ n, (s'.node n).info.qid.type = (s.node n).info.qid.type

theorem Same.refl (s : Store) : Same s s :=
  ⟨rfl, rfl, fun _ => rfl, fun _ => rfl, fun _ => rfl, fun _ => rfl, fun _ => rfl⟩

theorem Same.grows (h : Same s s') : s.Grows s' :=
  ⟨Nat.le_of_eq h.next.symm, fun n _ => h.home n, fun n _ => h.name n, fun n _ => h.type n⟩

theorem Same.links (h : Same s s') (n : Nat) : (s'.node n).links = (s.node n).links := by
  rw [Node.links, h.children, Node.links]

theorem Same.tree (h : Same s s') (ht : s.Tree) : s'.Tree := by
  refine ht.shrink h.grows h.next (fun p name c hc => ?_) (fun n hn => ?_) (fun k slot hk => ?_)
  · rwa [Store.entry, h.children] at hc
  · rw [h.nref, h.children]
    exact ht.blank n hn
  · rw [h.handles] at hk
    exact h.grows.chain (ht.chain hk)

/-- Commands that only look, or change what is not counted. -/
theorem Inv.same (h : Inv E s f) (hs : Same s s') (htoks : o.toks = (f t).toks)
    (hdying : o.dying = (f t).dying) (htaken : o.taken = (f t).taken)
    (hlocked : o.locked = (f t).locked) (hknows : Knows s' o)
    (hseen : o.locked = none → o.seen = [])
    (halive : E → ∀ n ∈ o.seen, 1 ≤ (s.node n).nref) : Inv E s' (Function.update f t o) := by
  obtain ⟨K, hK, hcounted⟩ := h.counted
  have hT := taken_update_of_eq htaken
  have hanchor : ∀ n, s'.Anchored (Taken f) n ↔ s.Anchored (Taken f) n :=
    fun n => anchored_congr hs.links fun _ => Iff.rfl
  obtain ⟨hapart, hlone⟩ := h.apart_same hdying htaken
  refine ⟨hs.tree h.tree, h.knows_update hs.grows hknows, h.locks.same hs.handles hlocked hseen,
    ⟨K, fun n => (hK n).update (by rw [htoks]), ?_⟩, ⟨?_, ?_⟩, ?_, hapart, hlone⟩
  · rw [hT]
    refine hcounted.move hs.next hs.links (fun _ => Iff.rfl) fun n => ?_
    rw [hs.nref, Store.held, Store.held, hs.handles]
  · intro n hn hdir hnone
    rw [hs.next] at hn
    rw [Node.IsDirectory, hs.type] at hdir
    rw [hs.children] at hnone
    rw [hT, hanchor, hs.nref]
    exact h.vital.dead n hn hdir hnone
  · intro n hn
    rw [hT, dying_update_of_eq hdying] at hn
    rw [hT, hanchor, hs.nref]
    exact h.vital.doomed n hn
  · intro hE u n hn
    rw [hs.nref]
    exact h.alive_update halive hE u n hn

/-- The operation changes the handles `C`, which no other one has locked. -/
theorem Locks.change (h : Locks s f) (C : Key → Prop)
    (hother : ∀ k, ¬ C k → s'.handles.lookup k = s.handles.lookup k)
    (hmine : ∀ k, C k → ∀ u hd, (f u).locked = some (k, hd) → u = t)
    (hnew : ∀ k hd, C k → (s'.handles.lookup k = some ⟨hd, true⟩ ↔ o.locked = some (k, hd)))
    (hkept : ∀ k hd, ¬ C k → (o.locked = some (k, hd) ↔ (f t).locked = some (k, hd)))
    (hseen : o.locked = none → o.seen = []) : Locks s' (Function.update f t o) := by
  -- for one handle: who has it locked
  have hiff : ∀ k hd, s'.handles.lookup k = some ⟨hd, true⟩ ↔
      ∃ u, (Function.update f t o u).locked = some (k, hd) := by
    intro k hd
    by_cases hC : C k
    · rw [hnew k hd hC]
      constructor
      · exact fun ho => ⟨t, by rwa [Function.update_self]⟩
      · rintro ⟨u, hu⟩
        by_cases hut : u = t
        · rwa [hut, Function.update_self] at hu
        · rw [Function.update_of_ne hut] at hu
          exact absurd (hmine k hC u hd hu) hut
    · rw [hother k hC]
      constructor
      · intro hk
        obtain ⟨u, hu⟩ := h.busy k hd hk
        refine ⟨u, ?_⟩
        by_cases hut : u = t
        · rw [hut, Function.update_self, hkept k hd hC, ← hut]
          exact hu
        · rwa [Function.update_of_ne hut]
      · rintro ⟨u, hu⟩
        by_cases hut : u = t
        · rw [hut, Function.update_self, hkept k hd hC] at hu
          exact h.held t k hd hu
        · rw [Function.update_of_ne hut] at hu
          exact h.held u k hd hu
  have hone : ∀ u k hd, u ≠ t → (f u).locked = some (k, hd) → o.locked ≠ some (k, hd) := by
    intro u k hd hut hu ho
    by_cases hC : C k
    · exact hut (hmine k hC u hd hu)
    · exact hut (h.lone u t k hd hu ((hkept k hd hC).mp ho))
  refine ⟨fun u k hd hu => (hiff k hd).mpr ⟨u, hu⟩, fun k hd => (hiff k hd).mp, ?_, ?_⟩
  · intro u v k hd
    exact lone_update Hand.locked (fun u v a => h.lone u v a.1 a.2) (fun u a => hone u a.1 a.2) u v
      (k, hd)
  · intro u hu
    by_cases hut : u = t
    · rw [hut, Function.update_self] at hu ⊢
      exact hseen hu
    · rw [Function.update_of_ne hut] at hu ⊢
      exact h.seen u hu

/-- Commands on handles. -/
theorem Inv.set_handles (h : Inv E s f) (handles : AList fun _ : Key => Slot)
    (hchain : ∀ k slot, handles.lookup k = some slot → s.Chain slot.handle.chain)
    (hdying : o.dying = (f t).dying) (htaken : o.taken = (f t).taken)
    (hlocks : Locks { s with handles } (Function.update f t o))
    (hcount : ∀ n, s.held.count n + (f t).toks.count n = (heldIn handles).count n + o.toks.count n)
    (hknows : Knows s o) (halive : E → ∀ n ∈ o.seen, 1 ≤ (s.node n).nref) :
    Inv E { s with handles } (Function.update f t o) := by
  have hg : s.Grows { s with handles } :=
    ⟨Nat.le_refl _, fun _ _ => rfl, fun _ _ => rfl, fun _ _ => rfl⟩
  obtain ⟨K, hK, hcounted⟩ := h.counted
  obtain ⟨K', hK', heq⟩ := hK.update t o
  have hT := taken_update_of_eq htaken
  have hanchor : ∀ n, Store.Anchored { s with handles } (Taken f) n ↔ s.Anchored (Taken f) n :=
    fun n => anchored_congr (fun _ => rfl) fun _ => Iff.rfl
  obtain ⟨hapart, hlone⟩ := h.apart_same hdying htaken
  refine ⟨?_, h.knows_update hg (hknows.mono hg), hlocks, ⟨K', hK', ?_⟩, ⟨?_, ?_⟩, ?_, hapart,
    hlone⟩
  · exact h.tree.shrink hg rfl (fun _ _ _ hc => hc) h.tree.blank fun k slot hk =>
      hg.chain (hchain k slot hk)
  · rw [hT]
    refine hcounted.set_handles fun n => ?_
    have := heq n
    have := hcount n
    omega
  · intro n hn hdir hnone
    rw [hT, hanchor]
    exact h.vital.dead n hn hdir hnone
  · intro n hn
    rw [hT, dying_update_of_eq hdying] at hn
    rw [hT, hanchor]
    exact h.vital.doomed n hn
  · exact h.alive_update halive

end Frames

end P9p.Ramfs
