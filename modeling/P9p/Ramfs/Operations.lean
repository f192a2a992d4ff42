/-
# The operations keep to what they have in hand

One lemma for each operation and each part of it.  An operation begins with
nothing in hand and ends with nothing in hand:

    decref      gives back one reference, and with it, if it was the last,
                those of the directory to its children
    clunk       takes the references out of the handle and gives them back
    remove      the same, with one more for the name
    walk        finds nodes, takes a reference to each, makes a handle of them
    create      adds the reference to the new node to those of the old handle

`Op.prog_keeps` collects them.
-/
import Mathlib.Data.List.GetD
import P9p.Ramfs.Steps

namespace P9p.Ramfs

open Conc Tally

variable {h : Handle} {α : Type} {c : Cmd} {P : Cmd → Prop}

/-- A program that keeps to `pre`, with what it ends with. -/
abbrev Keeps {α : Type} (Q : α → Hand → Prop) (p : M α) (o : Hand) : Prop := Safe pre post Q p o

variable {o : Hand} {n : Nat} {rest : List Nat} {fuel : Nat}

/-! ## Giving back -/

/-- A loop over nodes, each of which gives back one reference. -/
theorem each_keeps {p : Nat → M Int} {cs : List Nat}
    (hp : ∀ {o : Hand} {n : Nat} {rest : List Nat}, o.toks = n :: rest → o.dying = none →
      o.locked = none → (∀ q ∈ o.taken, q < n) →
      Keeps (fun _ o' => o' = { o with toks := rest }) (p n) o)
    (htoks : o.toks = cs ++ rest) (hdying : o.dying = none) (hlocked : o.locked = none)
    (htaken : ∀ c ∈ cs, ∀ q ∈ o.taken, q < c) :
    Keeps (fun _ o' => o' = { o with toks := rest }) (each p cs) o := by
  induction cs generalizing o with
  | nil =>
      obtain ⟨toks, dying, taken, locked, seen, edge, names⟩ := o
      cases htoks
      rfl
  | cons c cs ih =>
      obtain ⟨hc, hcs⟩ := List.forall_mem_cons.mp htaken
      refine (hp htoks hdying hlocked hc).bind ?_
      rintro _ _ rfl
      refine (ih (o := { o with toks := cs ++ rest }) rfl hdying hlocked hcs).bind ?_
      rintro _ _ rfl
      rfl

/-- By induction on the fuel, which bounds the depth of the recursion. -/
theorem decref_keeps (htoks : o.toks = n :: rest) (hdying : o.dying = none)
    (hlocked : o.locked = none) (htaken : ∀ q ∈ o.taken, q < n) :
    Keeps (fun _ o' => o' = { o with toks := rest }) (decref fuel n) o := by
  induction fuel generalizing o n rest with
  | zero => trivial
  | succ fuel ih =>
      refine Safe.cmd ⟨rest, htoks, hdying, hlocked, htaken⟩ ?_
      rintro nref _ rfl
      rw [htoks, List.tail_cons]
      split
      · refine Safe.cmd rfl ?_
        rintro (_ | cs) _ hpost
        · rw [hpost, ← hdying]
          rfl
        · obtain ⟨hcs, rfl⟩ := hpost
          refine (each_keeps
            (o := { o with toks := cs ++ rest, dying := none, taken := n :: o.taken }) ih rfl rfl
            hlocked fun c hc q hq => ?_).bind ?_
          · rcases List.mem_cons.mp hq with rfl | hq
            · exact hcs c hc
            · exact Nat.lt_trans (htaken q hq) (hcs c hc)
          · rintro _ _ rfl
            refine Safe.cmd ⟨_, rfl⟩ ?_
            rintro _ _ rfl
            rw [← hdying]
            rfl
      · rw [← hdying]
        rfl

/-- The hand after a handle was taken out of the table. -/
structure Hand.Holds (o : Hand) (h : Handle) : Prop where
  toks : o.toks = h.ent :: h.parents.reverse
  dying : o.dying = none
  taken : o.taken = []
  locked : o.locked = none
  seen : o.seen = []
  path : Hand.Path o.edge h.chain

theorem release_keeps (ho : o.Holds h) : Keeps (fun _ o' => o'.Idle) (release fuel h) o := by
  have htoks : o.toks = (h.ent :: h.parents.reverse) ++ [] := by rw [ho.toks, List.append_nil]
  refine (each_keeps decref_keeps htoks ho.dying ho.locked ?_).bind ?_
  · rw [ho.taken]
    nofun
  · rintro _ _ rfl
    exact ⟨rfl, ho.dying, ho.taken, ho.locked, ho.seen⟩

/-- `Clunk` and `Remove` begin by taking the handle out of the table. -/
theorem consume_keeps {Q : α → Hand → Prop} {k : Key} {body : Handle → M α} (ho : o.Idle)
    (hbody : ∀ h o', o'.Holds h → Keeps Q (body h) o') :
    Keeps Q (issue (.consume k) >>= body) o := by
  refine Safe.cmd ho.locked ?_
  rintro h _ ⟨edge, -, hpath, rfl⟩
  refine hbody h _ ⟨?_, ho.dying, ho.taken, ho.locked, ho.seen, hpath⟩
  rw [ho.toks, List.append_nil]

theorem clunk_keeps (ho : o.Idle) (k : Key) : Keeps (fun _ o' => o'.Idle) (clunk fuel k) o := by
  refine consume_keeps ho fun h o' ho' => ?_
  exact (release_keeps ho').bind fun _ _ hidle => hidle

/-- The last parent is where the node was linked. -/
theorem edge_last {edge : Nat → Nat → Prop} {p : Nat} (hpath : Hand.Path edge h.chain)
    (hp : h.parents.getLast? = some p) : edge p h.ent :=
  (List.isChain_append.mp hpath.steps).2.2 p hp h.ent rfl

theorem unlinkEnt_keeps (ho : o.Holds h) : Keeps (fun _ o' => o'.Holds h) (unlinkEnt fuel h) o := by
  unfold unlinkEnt
  split
  · exact ho
  · rename_i p hp
    have hmem : p ∈ o.toks := by
      rw [ho.toks]
      exact List.mem_cons_of_mem _ (List.mem_reverse.mpr (List.mem_of_getLast? hp))
    refine Safe.cmd (Or.inl ?_) ?_
    · rw [ho.toks]
      exact List.mem_cons_self
    · rintro info _ rfl
      refine Safe.cmd ⟨hmem, ho.taken, edge_last ho.path hp, Or.inr ⟨rfl, rfl⟩⟩ ?_
      rintro (_ | err) _ rfl
      · refine Safe.bind (decref_keeps rfl ho.dying ho.locked ?_) ?_
        · rw [ho.taken]
          nofun
        · rintro _ _ rfl
          exact ⟨ho.toks, ho.dying, ho.taken, ho.locked, ho.seen, ho.path⟩
      · exact ⟨ho.toks, ho.dying, ho.taken, ho.locked, ho.seen, ho.path⟩

theorem remove_keeps (ho : o.Idle) (k : Key) : Keeps (fun _ o' => o'.Idle) (remove fuel k) o := by
  refine consume_keeps ho fun h o' ho' => (unlinkEnt_keeps ho').bind fun err o'' ho'' => ?_
  exact (release_keeps ho'').bind fun _ _ hidle => hidle

/-! ## Making handles -/

theorem attach_keeps (ho : o.Idle) (k : Key) (uname : Bytes) :
    Keeps (fun _ o' => o'.Idle) (attach k uname) o := by
  refine Safe.cmd (Or.inr rfl) ?_
  rintro _ _ rfl
  refine Safe.issue ⟨?_, rfl, List.isChain_singleton 0⟩ ?_
  · rw [ho.toks]
    exact List.Perm.refl _
  · rintro _ _ rfl
    exact ⟨rfl, ho.dying, ho.taken, ho.locked, ho.seen⟩

/-- The hand while a handle is in use, with the nodes found from it. -/
structure Hand.Uses (o : Hand) (k : Key) (h : Handle) : Prop where
  dying : o.dying = none
  taken : o.taken = []
  locked : o.locked = some (k, h)
  seen : ∀ n ∈ h.chain, n ∈ o.seen
  path : Hand.Path o.edge h.chain

theorem lock_keeps {Q : α → Hand → Prop} {k : Key} {body : Handle → M α} (ho : o.Idle)
    (hbody : ∀ h o', o'.Uses k h → o'.toks = [] → Keeps Q (body h) o') :
    Keeps Q (issue (.lock k) >>= body) o := by
  refine Safe.cmd ho.locked ?_
  rintro h _ ⟨edge, -, hpath, rfl⟩
  refine hbody h _ ⟨ho.dying, ho.taken, rfl, fun n hn => ?_, hpath⟩ ho.toks
  exact List.mem_append_left _ hn

theorem unlock_keeps {k : Key} (ho : o.Uses k h) (htoks : o.toks = []) :
    Keeps (fun _ o' => o'.Idle) (issue (.unlock k)) o := by
  refine Safe.issue ⟨h, ho.locked⟩ ?_
  rintro _ _ rfl
  exact ⟨htoks, ho.dying, ho.taken, rfl, rfl⟩

/-- The hand has found more. -/
structure Hand.Finds (o o' : Hand) : Prop where
  toks : o'.toks = o.toks
  dying : o'.dying = o.dying
  taken : o'.taken = o.taken
  locked : o'.locked = o.locked
  seen : ∀ n ∈ o.seen, n ∈ o'.seen
  edge : ∀ a b, o.edge a b → o'.edge a b

theorem Hand.Finds.refl (o : Hand) : o.Finds o :=
  ⟨rfl, rfl, rfl, rfl, fun _ hn => hn, fun _ _ hab => hab⟩

theorem Hand.Uses.finds {o' : Hand} {k : Key} (ho : o.Uses k h) (hf : o.Finds o') :
    o'.Uses k h where
  dying := hf.dying.trans ho.dying
  taken := hf.taken.trans ho.taken
  locked := hf.locked.trans ho.locked
  seen n hn := hf.seen n (ho.seen n hn)
  path := ⟨ho.path.root, ho.path.steps.imp hf.edge⟩

/-- What `FileEnt.Walk` finds is a path down from where it starts. -/
theorem walkDown_keeps {ref : Nat} (href : ref ∈ o.seen) (names : List Bytes) :
    Keeps (fun below o' => o.Finds o' ∧ (ref :: below).IsChain o'.edge ∧ ∀ n ∈ below, n ∈ o'.seen)
      (walkDown ref names) o := by
  induction names generalizing ref o with
  | nil => exact ⟨Hand.Finds.refl o, List.isChain_singleton _, nofun⟩
  | cons name names ih =>
      refine Safe.cmd href ?_
      rintro (_ | c) _ hpost
      · obtain rfl := hpost
        exact ⟨Hand.Finds.refl _, List.isChain_singleton _, nofun⟩
      · obtain ⟨edge, hlearn, hedge, rfl⟩ := hpost
        refine Safe.bind (ih List.mem_cons_self) ?_
        rintro below o' ⟨hf, hchain, hseen⟩
        refine ⟨⟨hf.toks, hf.dying, hf.taken, hf.locked, fun n hn => ?_, fun a b hab => ?_⟩, ?_, ?_⟩
        · exact hf.seen n (List.mem_cons_of_mem c hn)
        · exact hf.edge a b (hlearn a b hab)
        · exact List.isChain_cons_cons.mpr ⟨hf.edge ref c hedge, hchain⟩
        · exact List.forall_mem_cons.mpr ⟨hf.seen c List.mem_cons_self, hseen⟩

/-- References to the nodes of a chain. -/
theorem increfs_keeps {chain : List Nat} (hchain : ∀ n ∈ chain, n ∈ o.seen) :
    Keeps (fun _ o' => o' = { o with toks := chain.reverse ++ o.toks })
      (each (fun p => issue (.incref p)) chain) o := by
  induction chain generalizing o with
  | nil => rfl
  | cons n chain ih =>
      obtain ⟨hn, hchain⟩ := List.forall_mem_cons.mp hchain
      refine Safe.cmd (Or.inl hn) ?_
      rintro _ _ rfl
      refine Safe.bind (ih hchain) ?_
      rintro _ _ rfl
      rw [List.reverse_cons, List.append_assoc]
      rfl

theorem infos_keeps {ans : List Nat} (hans : ∀ n ∈ ans, n ∈ o.seen) :
    Keeps (fun _ o' => o.Finds o') (each (fun a => issue (.info a)) ans) o := by
  induction ans generalizing o with
  | nil => exact Hand.Finds.refl o
  | cons n ans ih =>
      obtain ⟨hn, hans⟩ := List.forall_mem_cons.mp hans
      refine Safe.cmd (Or.inr hn) ?_
      rintro _ _ rfl
      refine Safe.bind (ih hans) fun _ o' hf => ?_
      exact ⟨hf.toks, hf.dying, hf.taken, hf.locked, hf.seen, hf.edge⟩

/-- A path is followed up to some node and goes on from there. -/
theorem Hand.Path.branch {edge : Nat → Nat → Prop} {l below : List Nat} (hl : Hand.Path edge l)
    {i : Nat} (hi : i < l.length) (hbelow : (l.getD i 0 :: below).IsChain edge) :
    Hand.Path edge (l.take (i + 1) ++ below) := by
  have hget : l.getD i 0 = l[i] := List.getD_eq_getElem l 0 hi
  have htake : l.take (i + 1) ++ below = l.take i ++ l[i] :: below := by
    rw [List.take_add_one, List.getElem?_eq_getElem hi, List.append_assoc]
    rfl
  have hsplit : l = l.take i ++ l[i] :: l.drop (i + 1) := by
    rw [← List.drop_eq_getElem_cons hi, List.take_append_drop]
  have hsteps := hl.steps
  rw [hsplit, List.isChain_append] at hsteps
  rw [hget] at hbelow
  refine ⟨?_, ?_⟩
  · rw [← hl.root, htake]
    cases i with
    | zero =>
        rw [List.take_zero, List.nil_append, List.head?_cons, List.head?_eq_getElem?,
          List.getElem?_eq_getElem hi]
    | succ i =>
        have hne : l.take (i + 1) ≠ [] := by
          intro hnil
          have := congrArg List.length hnil
          rw [List.length_take, List.length_nil] at this
          omega
        rw [List.head?_append_of_ne_nil _ hne, List.head?_take, if_neg (Nat.succ_ne_zero i)]
  · rw [htake]
    exact List.isChain_append.mpr ⟨hsteps.1, hbelow, hsteps.2.2⟩

theorem chain_of_nodes {l : List Nat} (hl : l ≠ []) (path uname : Bytes) (mode : Flag) :
    (Handle.mk path mode (l.getLastD 0) uname l.dropLast).chain = l := by
  rw [Handle.chain, List.getLastD_eq_getLast?, List.getLast?_eq_some_getLast hl]
  exact List.dropLast_append_getLast hl

theorem walkFrom_keeps {k k' : Key} (ho : o.Uses k h) (htoks : o.toks = []) (newpath : Bytes)
    (names : List Bytes) :
    Keeps (fun _ o' => o'.Uses k h ∧ o'.toks = []) (walkFrom h k' newpath names) o := by
  unfold walkFrom
  split
  · exact ⟨ho, htoks⟩
  · rename_i hdel
    have hlen : h.chain.length = h.parents.length + 1 := List.length_append
    have hi : h.parents.length - ndel names < h.chain.length := by omega
    have href : h.chain.getD (h.parents.length - ndel names) 0 ∈ h.chain := by
      rw [List.getD_eq_getElem _ _ hi]
      exact List.getElem_mem hi
    refine Safe.bind (walkDown_keeps (ho.seen _ href) _) ?_
    rintro below o₁ ⟨hf, hbelow, hseen⟩
    have ho₁ := ho.finds hf
    have hans : ∀ n ∈ h.parents.reverse.take (ndel names) ++ below, n ∈ o₁.seen := by
      refine List.forall_mem_append.mpr ⟨fun n hn => ho₁.seen n ?_, hseen⟩
      exact List.mem_append_left _ (List.mem_reverse.mp (List.mem_of_mem_take hn))
    dsimp only
    split
    · exact ⟨ho₁, hf.toks.trans htoks⟩
    · split
      · have hpath : Hand.Path o₁.edge (newChain h names below) := ho₁.path.branch hi hbelow
        have hne : newChain h names below ≠ [] := by
          intro hnil
          have hroot := hpath.root
          rw [hnil] at hroot
          cases hroot
        refine Safe.bind (increfs_keeps (List.forall_mem_append.mpr ⟨fun n hn => ?_, hseen⟩)) ?_
        · exact ho₁.seen n (List.mem_of_mem_take hn)
        · rintro _ _ rfl
          refine Safe.bind (infos_keeps hans) fun infos o₂ hf₂ => ?_
          refine Safe.cmd ⟨?_, ?_⟩ ?_
          · rw [chain_of_nodes hne, hf₂.toks, hf.toks, htoks, List.append_nil]
            exact List.reverse_perm _
          · rw [chain_of_nodes hne]
            exact ⟨hpath.root, hpath.steps.imp hf₂.edge⟩
          · rintro _ _ rfl
            have ho₂ := Hand.Uses.finds
              (o := { o₁ with toks := (newChain h names below).reverse ++ o₁.toks })
              ⟨ho₁.dying, ho₁.taken, ho₁.locked, ho₁.seen, ho₁.path⟩ hf₂
            exact ⟨⟨ho₂.dying, ho₂.taken, ho₂.locked, ho₂.seen, ho₂.path⟩, rfl⟩
      · refine Safe.bind (infos_keeps hans) fun infos o₂ hf₂ => ?_
        exact ⟨ho₁.finds hf₂, hf₂.toks.trans (hf.toks.trans htoks)⟩

theorem walk_keeps (ho : o.Idle) (k k' : Key) (names : List Bytes) :
    Keeps (fun _ o' => o'.Idle) (walk k k' names) o := by
  refine lock_keeps ho fun h o' ho' htoks => ?_
  have hwalk : Keeps (fun _ o' => o'.Uses k h ∧ o'.toks = []) (walkLocked h k' names) o' := by
    unfold walkLocked
    split
    · exact ⟨ho', htoks⟩
    · exact walkFrom_keeps ho' htoks _ names
  refine hwalk.bind ?_
  rintro r o'' ⟨ho'', htoks⟩
  exact (unlock_keeps ho'' htoks).bind fun _ _ hidle => hidle

theorem create_keeps (ho : o.Idle) (k k' : Key) (fname : Bytes) (perm : UInt32) (mode : Flag) :
    Keeps (fun _ o' => o'.Idle) (create k k' fname perm mode) o := by
  refine lock_keeps ho fun h o' ho' htoks => ?_
  have hent : h.ent ∈ o'.seen := ho'.seen _ (List.mem_append_right _ List.mem_cons_self)
  split
  · exact (unlock_keeps ho' htoks).bind fun _ _ hidle => hidle
  · refine Safe.cmd trivial ?_
    rintro path _ rfl
    refine Safe.cmd trivial ?_
    rintro now _ rfl
    refine Safe.cmd ⟨hent, ho'.taken⟩ ?_
    rintro (err | ent) o'' hpost
    · obtain rfl := hpost
      exact (unlock_keeps ho' htoks).bind fun _ _ hidle => hidle
    · obtain ⟨edge, hlearn, hedge, rfl⟩ := hpost
      refine Safe.cmd (Or.inl List.mem_cons_self) ?_
      rintro _ _ rfl
      refine Safe.cmd trivial ?_
      rintro _ _ rfl
      refine Safe.cmd ⟨h, ho'.locked, ?_, rfl, hedge⟩ ?_
      · rw [htoks]
      · rintro _ _ rfl
        exact ⟨rfl, ho'.dying, ho'.taken, rfl, rfl⟩

/-! ## The others -/

theorem withHandle_keeps (ho : o.Idle) (k : Key) {body : Handle → M α}
    (hbody : ∀ h o', o'.Uses k h → o'.toks = [] →
      Keeps (fun _ o'' => o''.Uses k h ∧ o''.toks = []) (body h) o') :
    Keeps (fun _ o' => o'.Idle) (withHandle k body) o := by
  refine lock_keeps ho fun h o' ho' htoks => (hbody h o' ho' htoks).bind ?_
  rintro a o'' ⟨ho'', htoks⟩
  exact (unlock_keeps ho'' htoks).bind fun _ _ hidle => hidle

theorem info_keeps {k : Key} {n : Nat} (ho : o.Uses k h) (htoks : o.toks = []) (hn : n ∈ h.chain) :
    Keeps (fun _ o' => o'.Uses k h ∧ o'.toks = []) (issue (.info n)) o := by
  refine Safe.issue (Or.inr (ho.seen n hn)) ?_
  rintro _ _ rfl
  exact ⟨⟨ho.dying, ho.taken, ho.locked, ho.seen, ho.path⟩, htoks⟩

theorem mem_chain_ent (h : Handle) : h.ent ∈ h.chain := List.mem_append_right _ List.mem_cons_self

theorem mem_chain_up (h : Handle) : h.parents.getLastD h.ent ∈ h.chain := by
  rw [List.getLastD_eq_getLast?]
  cases hp : h.parents.getLast? with
  | none => exact mem_chain_ent h
  | some p => exact List.mem_append_left _ (List.mem_of_getLast? hp)

theorem onFile_keeps (ho : o.Idle) (k : Key) {body : Nat → M (Option α)}
    (hbody : ∀ n, Keeps (fun _ o' => o'.Idle) (body n) o) :
    Keeps (fun _ o' => o'.Idle) (onFile k body) o := by
  refine Safe.cmd trivial ?_
  rintro (_ | n) _ rfl
  · trivial
  · refine (hbody n).bind ?_
    rintro (_ | a) o' ho'
    · trivial
    · exact ho'

theorem Op.prog_keeps (op : Op) (ho : o.Idle) : Keeps (fun _ o' => o'.Idle) (op.prog fuel) o := by
  have hdone : ∀ {α : Type} {p : M α} {f : α → Ret}, Keeps (fun _ o' => o'.Idle) p o →
      Keeps (fun _ o' => o'.Idle) (p >>= fun a => pure (f a)) o :=
    fun h => h.bind fun _ _ hidle => hidle
  cases op with
  | attach k uname => exact (attach_keeps ho k uname).bind fun _ _ hidle => hidle
  | walk k k' names => exact (walk_keeps ho k k' names).bind fun _ _ hidle => hidle
  | create k k' name perm mode => exact hdone (create_keeps ho k k' name perm mode)
  | clunk k => exact hdone (clunk_keeps ho k)
  | remove k => exact hdone (remove_keeps ho k)
  | qid k =>
      refine hdone (withHandle_keeps ho k fun h o' ho' htoks => ?_)
      exact (info_keeps ho' htoks (mem_chain_ent h)).bind fun _ _ h => h
  | stat k =>
      exact hdone (withHandle_keeps ho k fun h o' ho' htoks =>
        info_keeps ho' htoks (mem_chain_ent h))
  | wstat k dir =>
      refine hdone (withHandle_keeps ho k fun h o' ho' htoks => Safe.issue trivial ?_)
      rintro _ _ rfl
      exact ⟨ho', htoks⟩
  | openDir k =>
      refine hdone (withHandle_keeps ho k fun h o' ho' htoks => ?_)
      refine (info_keeps ho' htoks (mem_chain_up h)).bind ?_
      rintro up o'' ho''
      refine Safe.cmd trivial ?_
      rintro (err | dirs) _ rfl
      · exact ho''
      · exact ho''
  | «open» k k' =>
      refine Safe.bind (withHandle_keeps ho k fun h o' ho' htoks => Safe.issue trivial ?_)
        fun _ _ hidle => hidle
      rintro _ _ rfl
      exact ⟨ho', htoks⟩
  | read k len offset =>
      refine Safe.bind (onFile_keeps ho k fun n => Safe.issue trivial ?_) fun _ _ hidle => hidle
      rintro _ _ rfl
      exact ho
  | write k p offset =>
      refine Safe.bind (onFile_keeps ho k fun n => Safe.issue trivial ?_) fun _ _ hidle => hidle
      rintro _ _ rfl
      exact ho

/-! ## What they issue -/

/-- The commands that an operation issues, as far as they change names or
contents. -/
def Op.Issues (op : Op) : Cmd → Prop
  | .link _ dir => ∃ k k' name perm flag uname path mode now,
      op = create k k' name perm flag ∧ dir = newDir path name uname mode now
  | .unlink _ _ _ => ∃ k, op = remove k
  | .wstat _ dir => ∃ k, op = wstat k dir
  | .write _ p offset => ∃ k, op = write k p offset
  | _ => True

/-- The keys of the handles that a command changes. -/
def Cmd.keys : Cmd → List Key
  | .lock k | .unlock k | .consume k | .put k _ => [k]
  | .replace k k' _ => [k, k']
  | _ => []

/-- The keys of the files that it opens. -/
def Cmd.opens : Cmd → List Key
  | .setFile k _ => [k]
  | _ => []

def Op.keys : Op → List Key
  | .attach k _ | .clunk k | .remove k | .qid k | .stat k | .wstat k _ | .openDir k
  | .open k _ => [k]
  | .walk k k' _ | .create k k' _ _ _ => [k, k']
  | .read _ _ _ | .write _ _ _ => []

def Op.opens : Op → List Key
  | .create _ k' _ _ _ | .open _ k' => [k']
  | _ => []

/-- An operation stays with its own keys. -/
structure Op.Uses (op : Op) (c : Cmd) : Prop where
  issues : op.Issues c
  keys : c.keys ⊆ op.keys
  opens : c.opens ⊆ op.opens

section Issues

variable {op : Op} {k k' : Key}

theorem Op.Uses.plain (hissues : op.Issues c) (hkeys : c.keys = []) (hopens : c.opens = []) :
    op.Uses c :=
  ⟨hissues, hkeys ▸ List.nil_subset _, hopens ▸ List.nil_subset _⟩

theorem Op.Uses.key (hissues : op.Issues c) (hk : k ∈ op.keys) (hkeys : c.keys = [k])
    (hopens : c.opens = []) : op.Uses c :=
  ⟨hissues, hkeys ▸ List.cons_subset.mpr ⟨hk, List.nil_subset _⟩, hopens ▸ List.nil_subset _⟩

theorem each_only {f : Nat → M α} (hf : ∀ n, (f n).Only P) (l : List Nat) : (each f l).Only P := by
  induction l with
  | nil => trivial
  | cons n l ih => exact (hf n).bind fun _ => ih.bind fun _ => trivial

/-- The commands with which references are given back. -/
def Cmd.Gives : Cmd → Prop
  | .decr _ | .children _ | .drop _ => True
  | _ => False

theorem Cmd.Gives.uses (h : c.Gives) : op.Uses c := by
  cases c with
  | decr n | children n | drop n => exact .plain trivial rfl rfl
  | _ => exact h.elim

theorem decref_gives (n : Nat) : (decref fuel n).Only Cmd.Gives := by
  induction fuel generalizing n with
  | zero => trivial
  | succ fuel ih =>
      refine Prog.Only.cmd trivial fun nref => ?_
      split
      · refine Prog.Only.cmd trivial ?_
        rintro (_ | cs)
        · trivial
        · refine (each_only ih cs).bind fun _ => ?_
          exact Prog.Only.cmd trivial fun _ => trivial
      · trivial

theorem release_gives (h : Handle) : (release fuel h).Only Cmd.Gives :=
  (each_only decref_gives _).bind fun _ => trivial

theorem decref_only (n : Nat) : (decref fuel n).Only op.Uses :=
  (decref_gives n).mono fun _ hc => hc.uses

theorem release_only (h : Handle) : (release fuel h).Only op.Uses :=
  (release_gives h).mono fun _ hc => hc.uses

theorem walkDown_only (ref : Nat) (names : List Bytes) : (walkDown ref names).Only op.Uses := by
  induction names generalizing ref with
  | nil => trivial
  | cons name names ih =>
      refine Prog.Only.cmd (.plain trivial rfl rfl) ?_
      rintro (_ | c)
      · trivial
      · exact (ih c).bind fun _ => trivial

theorem walkFrom_only (hk' : k' ∈ op.keys) (h : Handle) (newpath : Bytes) (names : List Bytes) :
    (walkFrom h k' newpath names).Only op.Uses := by
  have hincrefs : ∀ l, (each (fun p => issue (.incref p)) l).Only op.Uses :=
    each_only fun p => Prog.Only.issue (.plain trivial rfl rfl)
  have hinfos : ∀ l, (each (fun a => issue (.info a)) l).Only op.Uses :=
    each_only fun a => Prog.Only.issue (.plain trivial rfl rfl)
  unfold walkFrom
  split
  · trivial
  · refine (walkDown_only _ _).bind fun below => ?_
    dsimp only
    split
    · trivial
    · split
      · refine (hincrefs _).bind fun _ => (hinfos _).bind fun _ => ?_
        exact Prog.Only.cmd (.key trivial hk' rfl rfl) fun _ => trivial
      · exact (hinfos _).bind fun _ => trivial

theorem walkLocked_only (hk' : k' ∈ op.keys) (h : Handle) (names : List Bytes) :
    (walkLocked h k' names).Only op.Uses := by
  unfold walkLocked
  split
  · trivial
  · exact walkFrom_only hk' h _ names

theorem withHandle_only {body : Handle → M α} (hlock : P (.lock k)) (hunlock : P (.unlock k))
    (hbody : ∀ h, (body h).Only P) : (withHandle k body).Only P := by
  refine Prog.Only.cmd hlock fun h => (hbody h).bind fun _ => ?_
  exact Prog.Only.cmd hunlock fun _ => trivial

theorem onFile_only {body : Nat → M (Option α)} (hget : P (.getFile k))
    (hbody : ∀ n, (body n).Only P) : (onFile k body).Only P := by
  refine Prog.Only.cmd hget ?_
  rintro (_ | n)
  · trivial
  · refine (hbody n).bind ?_
    rintro (_ | a) <;> trivial

theorem create_only (k k' : Key) (name : Bytes) (perm : UInt32) (mode : Flag) :
    (create k k' name perm mode).Only (Op.create k k' name perm mode).Uses := by
  have hk : k ∈ (Op.create k k' name perm mode).keys := List.mem_cons_self
  have hunlock : ∀ err : Option Err, Prog.Only (Op.create k k' name perm mode).Uses
      (do issue (.unlock k); return err) :=
    fun _ => Prog.Only.cmd (.key trivial hk rfl rfl) fun _ => trivial
  refine Prog.Only.cmd (.key trivial hk rfl rfl) fun h => ?_
  split
  · exact hunlock _
  · refine Prog.Only.cmd (.plain trivial rfl rfl) fun path => ?_
    refine Prog.Only.cmd (.plain trivial rfl rfl) fun now => ?_
    refine Prog.Only.cmd
      (.plain ⟨k, k', name, perm, mode, h.uname, path, _, now, rfl, rfl⟩ rfl rfl) ?_
    rintro (err | ent)
    · exact hunlock _
    · refine Prog.Only.cmd (.plain trivial rfl rfl) fun _ => ?_
      refine Prog.Only.cmd ⟨trivial, List.nil_subset _, List.Subset.refl _⟩ fun _ => ?_
      exact Prog.Only.cmd ⟨trivial, List.Subset.refl _, List.nil_subset _⟩ fun _ => trivial

theorem remove_only (k : Key) : (remove fuel k).Only (Op.remove k).Uses := by
  refine Prog.Only.cmd (.key trivial List.mem_cons_self rfl rfl) fun h => ?_
  have hunlink : (unlinkEnt fuel h).Only (Op.remove k).Uses := by
    unfold unlinkEnt
    split
    · trivial
    · refine Prog.Only.cmd (.plain trivial rfl rfl) fun info => ?_
      refine Prog.Only.cmd (.plain ⟨k, rfl⟩ rfl rfl) ?_
      rintro (_ | err)
      · exact (decref_only _).bind fun _ => trivial
      · trivial
  exact hunlink.bind fun _ => (release_only h).bind fun _ => trivial

theorem Op.prog_only (op : Op) : (op.prog fuel).Only op.Uses := by
  have hdone : ∀ {α : Type} {p : M α} {f : α → Ret}, p.Only op.Uses →
      (p >>= fun a => pure (f a)).Only op.Uses :=
    fun h => h.bind fun _ => trivial
  have hwith : ∀ {α : Type} {k : Key} {body : Handle → M α}, k ∈ op.keys →
      (∀ h, (body h).Only op.Uses) → (withHandle k body).Only op.Uses :=
    fun hk => withHandle_only (.key trivial hk rfl rfl) (.key trivial hk rfl rfl)
  cases op with
  | attach k uname =>
      refine Prog.Only.cmd (.plain trivial rfl rfl) fun _ => ?_
      exact Prog.Only.cmd (.key trivial List.mem_cons_self rfl rfl) fun _ => trivial
  | walk k k' names =>
      have hk' : k' ∈ (Op.walk k k' names).keys := List.mem_cons_of_mem _ List.mem_cons_self
      refine Prog.Only.bind ?_ fun _ => trivial
      refine Prog.Only.cmd (.key trivial List.mem_cons_self rfl rfl) fun h => ?_
      refine (walkLocked_only hk' h names).bind fun _ => ?_
      exact Prog.Only.cmd (.key trivial List.mem_cons_self rfl rfl) fun _ => trivial
  | create k k' name perm mode => exact hdone (create_only k k' name perm mode)
  | clunk k =>
      refine hdone (Prog.Only.cmd (.key trivial List.mem_cons_self rfl rfl) fun h => ?_)
      exact (release_only h).bind fun _ => trivial
  | remove k => exact hdone (remove_only k)
  | qid k =>
      refine hdone (hwith List.mem_cons_self fun h => ?_)
      exact Prog.Only.cmd (.plain trivial rfl rfl) fun _ => trivial
  | stat k =>
      refine hdone (hwith List.mem_cons_self fun h => ?_)
      exact Prog.Only.issue (.plain trivial rfl rfl)
  | wstat k dir =>
      refine hdone (hwith List.mem_cons_self fun h => ?_)
      exact Prog.Only.issue (.plain ⟨k, rfl⟩ rfl rfl)
  | openDir k =>
      refine hdone (hwith List.mem_cons_self fun h => ?_)
      refine Prog.Only.cmd (.plain trivial rfl rfl) fun up => ?_
      refine Prog.Only.cmd (.plain trivial rfl rfl) ?_
      rintro (err | dirs) <;> trivial
  | «open» k k' =>
      refine Prog.Only.bind (hwith List.mem_cons_self fun h => ?_) fun _ => trivial
      exact Prog.Only.issue ⟨trivial, List.nil_subset _, List.Subset.refl _⟩
  | read k len offset =>
      refine Prog.Only.bind (onFile_only (.plain trivial rfl rfl) fun n => ?_) fun _ => trivial
      exact Prog.Only.issue (.plain trivial rfl rfl)
  | write k p offset =>
      refine Prog.Only.bind (onFile_only (.plain trivial rfl rfl) fun n => ?_) fun _ => trivial
      exact Prog.Only.issue (.plain ⟨k, rfl⟩ rfl rfl)

end Issues

end P9p.Ramfs
