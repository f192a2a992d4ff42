/-
# Walks

`Walk` works out at once where a list of names leads: it cuts as many nodes off
the chain of the handle as there are `".."` in front, and looks up the others
from there.  The same is said of the path, by other means.

**Places.**  Every handle is for a place in the tree (`Handle.At`), in every
interleaving: its path has the names on the way to it, and its chain the nodes.
So it has as many parents as its path has elements.

**A walk is a walk.**  From a place, `Walk` does what it would do name by name
(`walkLocked_ends`).  What is known of walks one behind the other is then known
of `Walk` (`walks_well`).
-/
import P9p.Ramfs.Remove
import P9p.Ramfs.Revival

namespace P9p.Ramfs

open Conc

/-! ## Places -/

abbrev Place := Trail.Place Bytes Nat

/-- The names are those of files, and nodes are newer than those above them. -/
structure Proper (p : Place) : Prop where
  plain : ∀ e ∈ p.names, SlashPath.Plain e
  rising : p.nodes.IsChain (· < ·)

/-- The handle is for the place `p`. -/
structure Handle.At (h : Handle) (p : Place) : Prop where
  path : h.path = SlashPath.root p.names
  chain : h.chain = p.nodes
  proper : Proper p

/-- The elements of a path. -/
def pathElements (path : Bytes) : List Bytes :=
  (path.splitOn SlashPath.slash).filter (· ≠ [])

/-- The handle that `Walk` makes for a place. -/
def handleAt (p : Place) (uname : Bytes) : Handle :=
  ⟨SlashPath.root p.names, 0, p.here, uname, p.nodes.dropLast⟩

section Places

variable {h : Handle} {p : Place} {n : Nat}

theorem handleAt_chain (p : Place) (uname : Bytes) : (handleAt p uname).chain = p.nodes :=
  p.nodes_eq.symm

theorem Proper.handleAt (hp : Proper p) (uname : Bytes) : (handleAt p uname).At p :=
  ⟨rfl, handleAt_chain p uname, hp⟩

theorem Handle.At.parents (hat : h.At p) : h.parents = p.nodes.dropLast := by
  rw [← hat.chain, Handle.chain, List.dropLast_concat]

theorem Handle.At.ent (hat : h.At p) : h.ent = p.here := by
  have hchain : p.nodes.dropLast ++ [h.ent] = p.nodes.dropLast ++ [p.here] := by
    rw [← p.nodes_eq, ← hat.parents, ← hat.chain, Handle.chain]
  exact List.singleton_inj.mp (List.append_cancel_left hchain)

theorem Handle.At.depth (hat : h.At p) : h.parents.length = p.below.length := by
  rw [hat.parents, List.length_dropLast, p.length_nodes, Nat.add_sub_cancel]

theorem Handle.At.elements (hat : h.At p) :
    h.parents.length = (pathElements h.path).length := by
  rw [hat.depth, hat.path, pathElements, SlashPath.filter_splitOn_root hat.proper.plain,
    p.length_names]

theorem Proper.nodup (hp : Proper p) : p.nodes.Nodup :=
  (List.isChain_iff_pairwise.mp hp.rising).imp Nat.ne_of_lt

theorem Proper.back (hp : Proper p) (n : Nat) : Proper (p.back n) where
  plain e he := by
    rw [p.names_back] at he
    exact hp.plain e (List.mem_of_mem_take he)
  rising := by
    rw [p.nodes_back]
    exact hp.rising.take _

theorem Proper.extend (hp : Proper p) {l : List (Bytes × Nat)}
    (hplain : ∀ e ∈ l.map Prod.fst, SlashPath.Plain e)
    (hrising : (p.here :: l.map Prod.snd).IsChain (· < ·)) : Proper (p.extend l) where
  plain := by
    rw [p.names_extend]
    exact List.forall_mem_append.mpr ⟨hp.plain, hplain⟩
  rising := by
    have hnodes : (p.extend l).nodes = p.nodes.dropLast ++ p.here :: l.map Prod.snd := by
      rw [p.nodes_extend]
      conv_lhs => rw [p.nodes_eq]
      rw [List.append_assoc]
      rfl
    have hp := hp.rising
    rw [p.nodes_eq, List.isChain_append] at hp
    rw [hnodes]
    exact List.isChain_append.mpr ⟨hp.1, hrising, hp.2.2⟩

end Places

/-! ## Names -/

/-- `WalkName` accepts the names at a depth of `d`: they are `".."`, `k` times, and
then elements. -/
structure Accepted (d : Nat) (names : List Bytes) (k : Nat) (rest : List Bytes) : Prop where
  names_eq : names = List.replicate k (lit "..") ++ rest
  elements : ∀ s ∈ rest, Element s
  depth : k ≤ d

/-- The place `k` steps back and `rest` down from `p`, by the nodes `below`. -/
def branch (p : Place) (k : Nat) (rest : List Bytes) (below : List Nat) : Place :=
  (p.back k).extend (rest.zip below)

section Names

variable {h : Handle} {p : Place} {d k : Nat} {names rest : List Bytes} {below : List Nat}

theorem accepted_of_validPath (h : 0 ≤ validPath names) (hd : validPath names ≤ d) :
    ∃ k rest, Accepted d names k rest := by
  obtain ⟨k, rest, rfl, hrest⟩ := validPath_inv h
  rw [validPath_eq hrest] at hd
  exact ⟨k, rest, rfl, hrest, Int.ofNat_le.mp hd⟩

theorem Accepted.ndel (hacc : Accepted d names k rest) : ndel names = k := by
  have hdots : ∀ s ∈ List.replicate k (lit ".."), decide (s = lit "..") = true :=
    fun s hs => decide_eq_true (List.eq_of_mem_replicate hs)
  have hrest : rest.takeWhile (· = lit "..") = [] := by
    cases rest with
    | nil => rfl
    | cons s rest =>
        have hs := (hacc.elements s List.mem_cons_self).ne_dotdot
        exact List.takeWhile_cons_of_neg (fun h => hs (of_decide_eq_true h))
  rw [Ramfs.ndel, hacc.names_eq, List.takeWhile_append_of_pos hdots, hrest, List.append_nil,
    List.length_replicate]

theorem Accepted.drop (hacc : Accepted d names k rest) : names.drop k = rest := by
  rw [hacc.names_eq]
  exact List.drop_left' List.length_replicate

theorem Accepted.length (hacc : Accepted d names k rest) : names.length = k + rest.length := by
  rw [hacc.names_eq, List.length_append, List.length_replicate]

/-- The names of two walks, one behind the other. -/
theorem Accepted.split {xs ys : List Bytes} (hacc : Accepted d (xs ++ ys) k rest) :
    (∃ j, xs = List.replicate j (lit "..") ∧ Accepted (d - j) ys (k - j) rest ∧ j ≤ d) ∨
      ∃ rest₁, Accepted d xs k rest₁ ∧ ∀ d', Accepted d' ys 0 ys := by
  rcases List.append_eq_append_iff.mp hacc.names_eq with ⟨as, hdots, hys⟩ | ⟨bs, hxs, hrest⟩
  · obtain ⟨hlen, hxs, has⟩ := List.replicate_eq_append_iff.mp hdots
    have hdepth := hacc.depth
    refine Or.inl ⟨xs.length, hxs, ⟨?_, hacc.elements, by omega⟩, by omega⟩
    have hlen' : as.length = k - xs.length := by omega
    rw [hys, ← hlen', ← has]
  · have hels : ∀ s ∈ bs ++ ys, Element s := hrest ▸ hacc.elements
    obtain ⟨hbs, hys⟩ := List.forall_mem_append.mp hels
    exact Or.inr ⟨bs, ⟨hxs, hbs, hacc.depth⟩, fun d' => ⟨rfl, hys, Nat.zero_le d'⟩⟩

theorem branch_names (hlen : below.length = rest.length) :
    (branch p k rest below).names = p.names.take (p.below.length - k) ++ rest := by
  rw [branch, Trail.Place.names_extend, p.names_back, List.map_fst_zip (Nat.le_of_eq hlen.symm)]

theorem branch_nodes (hlen : below.length = rest.length) :
    (branch p k rest below).nodes = (p.back k).nodes ++ below := by
  rw [branch, Trail.Place.nodes_extend, List.map_snd_zip (Nat.le_of_eq hlen)]

theorem Proper.branch (hp : Proper p) (hrest : ∀ s ∈ rest, Element s)
    (hlen : below.length = rest.length)
    (hrising : ((p.back k).here :: below).IsChain (· < ·)) : Proper (branch p k rest below) := by
  refine (hp.back k).extend ?_ ?_
  · rw [List.map_fst_zip (Nat.le_of_eq hlen.symm)]
    exact fun s hs => (hrest s hs).plain
  · rwa [List.map_snd_zip (Nat.le_of_eq hlen)]

theorem Handle.At.walkName (hat : h.At p) (hacc : Accepted p.below.length names k rest) :
    walkName h.path names =
      .ok (SlashPath.root (p.names.take (p.below.length - k) ++ rest)) := by
  have hk : k ≤ p.names.length := hacc.depth.trans_eq p.length_names.symm
  rw [hat.path, hacc.names_eq, walkName_root hat.proper.plain hacc.elements hk, p.length_names]

theorem Handle.At.walkName_rejects (hat : h.At p)
    (hnot : ∀ k rest, ¬ Accepted p.below.length names k rest) :
    P9p.walkName h.path names = .error (.rerror (lit "Invalid path")) := by
  rw [hat.path]
  by_cases hvalid : 0 ≤ validPath names
  · obtain ⟨k, rest, hnames, hrest⟩ := validPath_inv hvalid
    have hk : p.names.length < k := by
      rw [p.length_names]
      exact Nat.lt_of_not_le fun hk => hnot k rest ⟨hnames, hrest, hk⟩
    rw [hnames, walkName_beyond hat.proper.plain hrest hk]
  · exact walkName_invalid (Int.not_le.mp hvalid)

theorem Handle.At.newChain (hat : h.At p) (hacc : Accepted p.below.length names k rest) :
    newChain h names below = (p.back k).nodes ++ below := by
  rw [Ramfs.newChain, hat.chain, hat.depth, hacc.ndel, p.nodes_back]

/-- Where `Walk` looks up the first name. -/
theorem Handle.At.turn (hat : h.At p) (k : Nat) :
    h.chain.getD (h.parents.length - k) 0 = (p.back k).here := by
  rw [hat.chain, hat.depth, p.here_back k 0]

/-- The new handle is for the place that the names lead to. -/
theorem Handle.At.arrives (hat : h.At p) (hacc : Accepted p.below.length names k rest)
    (hlen : below.length = rest.length) :
    (⟨SlashPath.root (p.names.take (p.below.length - k) ++ rest), 0,
      (Ramfs.newChain h names below).getLastD 0, h.uname, (Ramfs.newChain h names below).dropLast⟩ :
        Handle) = handleAt (branch p k rest below) h.uname := by
  have hnodes : Ramfs.newChain h names below = (branch p k rest below).nodes := by
    rw [hat.newChain hacc, branch_nodes hlen]
  have hlast : (branch p k rest below).nodes.getLastD 0 = (branch p k rest below).here := by
    rw [(branch p k rest below).nodes_eq, List.getLastD_concat]
  rw [hnodes, hlast, handleAt, branch_names hlen]

/-- The walk was complete. -/
theorem Handle.At.below_length (hat : h.At p) (hacc : Accepted p.below.length names k rest)
    (below : List Nat) :
    (h.parents.reverse.take k ++ below).length = names.length ↔ below.length = rest.length := by
  rw [List.length_append, List.length_take, List.length_reverse, hat.depth,
    Nat.min_eq_left hacc.depth, hacc.length]
  omega

end Names

/-! ## Every handle has a place -/

def Handle.Placed (h : Handle) : Prop := ∃ p, h.At p

/-- Links lead to newer nodes, those that are not there yet have none, and every
handle is for a place. -/
structure Store.Placed (s : Store) : Prop where
  blank : ∀ n, s.next ≤ n → (s.node n).children = none
  rising : ∀ p name c, s.entry p name = some c → p < c
  handle : ∀ k slot, s.handles.lookup k = some slot → slot.handle.Placed

/-- What an operation has to know of the handles it makes. -/
def needs : Unit → Cmd → Prop
  | _, .put _ h | _, .replace _ _ h => h.Placed
  | _, _ => True

/-- What it learns. -/
def learns : Unit → (c : Cmd) → c.Res → Unit → Prop
  | _, .lock _, h, _ | _, .consume _, h, _ => Handle.Placed h
  | _, .lookup n _, r, _ => ∀ c, r = some c → n < c
  | _, .link p _, r, _ => ∀ c, r = .ok c → p < c
  | _, _, _, _ => True

section Commands

variable {s s' : Store} {k : Key} {n p : Nat}

theorem placed_init (now : Time) : (init now).Placed where
  blank n hn := by
    cases n with
    | zero => exact absurd hn (Nat.not_le.mpr Nat.one_pos)
    | succ n => rfl
  rising p name c hc := by
    cases p with
    | zero => cases hc
    | succ p => cases hc
  handle := nofun

/-- Names are only taken away. -/
theorem Store.Placed.fewer (h : s.Placed) (hnext : s'.next = s.next)
    (hhandles : s'.handles = s.handles)
    (hnone : ∀ n, (s.node n).children = none → (s'.node n).children = none)
    (hentry : ∀ p name c, s'.entry p name = some c → s.entry p name = some c) : s'.Placed where
  blank n hn := hnone n (h.blank n (hnext ▸ hn))
  rising p name c hc := h.rising p name c (hentry p name c hc)
  handle := by
    rw [hhandles]
    exact h.handle

theorem Store.Placed.same (h : s.Placed) (hsame : Same s s') : s'.Placed := by
  refine h.fewer hsame.next hsame.handles (fun n hn => ?_) (fun p name c hc => ?_)
  · rw [hsame.children, hn]
  · rwa [Store.entry, hsame.children] at hc

theorem Store.Placed.set (h : s.Placed) {f : Node}
    (hnone : (s.node n).children = none → f.children = none)
    (hentry : ∀ name c, f.children.bind (AList.lookup name) = some c → s.entry n name = some c) :
    (s.set n f).Placed := by
  refine h.fewer rfl rfl (fun m hm => ?_) (fun p name c hc => ?_)
  · by_cases hmn : m = n
    · subst hmn
      rw [Store.set_node]
      exact hnone hm
    · rwa [Store.set_node_of_ne s f hmn]
  · by_cases hpn : p = n
    · subst hpn
      rw [Store.entry, Store.set_node] at hc
      exact hentry name c hc
    · rwa [Store.entry, Store.set_node_of_ne s f hpn] at hc

theorem Store.Placed.count (h : s.Placed) (n : Nat) (i : Int) :
    (s.set n ((s.node n).addRef i)).Placed :=
  h.set (fun hn => hn) fun _ _ hc => hc

theorem Store.Placed.insert (h : s.Placed) {slot : Slot} (hslot : slot.handle.Placed) :
    (s.setSlot k slot).Placed := by
  refine ⟨h.blank, h.rising, fun k' slot' hk' => ?_⟩
  by_cases hk : k' = k
  · rw [hk, s.lookup_setSlot] at hk'
    cases hk'
    exact hslot
  · rw [s.lookup_setSlot_of_ne slot hk] at hk'
    exact h.handle k' slot' hk'

theorem Store.Placed.erase (h : s.Placed) :
    Store.Placed { s with handles := s.handles.erase k } := by
  refine ⟨h.blank, h.rising, fun k' slot hk' => ?_⟩
  have hk' : (s.handles.erase k).lookup k' = some slot := hk'
  by_cases hk : k' = k
  · rw [hk, AList.lookup_erase] at hk'
    cases hk'
  · rw [AList.lookup_erase_ne hk] at hk'
    exact h.handle k' slot hk'

theorem Store.Placed.lt_next (h : s.Placed) {m : Ramfs.Names} (hm : (s.node p).children = some m) :
    p < s.next := by
  refine Nat.lt_of_not_le fun hle => ?_
  cases hm.symm.trans (h.blank p hle)

theorem Store.Placed.linkNew (h : s.Placed) {m : Ramfs.Names} (hm : (s.node p).children = some m)
    (info : Dir) : (s.linkNew p m info).Placed where
  blank n hn := by
    have hp := h.lt_next hm
    have hlt : s.next < n := hn
    rw [Store.linkNew_of_ne (by omega) (by omega)]
    exact h.blank n (by omega)
  rising q name c hc := by
    have hp := h.lt_next hm
    by_cases hqp : q = p
    · rw [hqp, Store.entry, Store.linkNew_parent (Nat.ne_of_lt hp)] at hc
      have hc : (m.insert info.name s.next).lookup name = some c := hc
      rw [hqp]
      by_cases hname : name = info.name
      · rw [hname, AList.lookup_insert] at hc
        cases hc
        exact hp
      · rw [AList.lookup_insert_ne hname] at hc
        refine h.rising p name c ?_
        rw [Store.entry, hm]
        exact hc
    · by_cases hnew : q = s.next
      · have hmem := mem_links.mpr ⟨name, hc⟩
        rw [hnew, Store.linkNew_self, Node.create_links] at hmem
        cases hmem
      · rw [Store.entry, Store.linkNew_of_ne hqp hnew] at hc
        exact h.rising q name c hc
  handle := h.handle

/-- **One command.** -/
theorem exec_placed {t : Nat} {c : Cmd} {e : Env} {r : c.Res} (h : s.Placed) (hneeds : needs () c)
    (hexec : exec s t c e = some (r, s')) : learns () c r () ∧ s'.Placed := by
  cases c with
  | lock k =>
      simp only [exec] at hexec
      split at hexec
      · rename_i hd hk
        cases hexec
        have hplaced : Handle.Placed r := h.handle k _ hk
        exact ⟨hplaced, h.insert hplaced⟩
      · cases hexec
  | unlock k =>
      simp only [exec] at hexec
      split at hexec
      · rename_i hd hk
        cases hexec
        have hplaced : hd.Placed := h.handle k _ hk
        exact ⟨trivial, h.insert hplaced⟩
      · cases hexec
  | consume k =>
      simp only [exec] at hexec
      split at hexec
      · rename_i hd hk
        cases hexec
        exact ⟨h.handle k _ hk, h.erase⟩
      · cases hexec
  | put k hd =>
      simp only [exec] at hexec
      split at hexec
      · cases hexec
        exact ⟨trivial, h.insert hneeds⟩
      · cases hexec
  | replace k k' hd =>
      simp only [exec] at hexec
      split at hexec
      · cases hexec
        exact ⟨trivial, h.erase.insert hneeds⟩
      · cases hexec
  | incref n | decr n =>
      cases hexec
      exact ⟨trivial, h.count n _⟩
  | drop n =>
      cases hexec
      exact ⟨trivial, h.set (fun _ => rfl) (by rintro _ _ ⟨⟩)⟩
  | lookup n name =>
      cases hexec
      exact ⟨fun c hc => h.rising n name c hc, h⟩
  | link p info =>
      simp only [exec] at hexec
      split at hexec
      · cases hexec
        exact ⟨by rintro _ ⟨⟩, h⟩
      · rename_i m hm
        split at hexec
        · cases hexec
          exact ⟨by rintro _ ⟨⟩, h⟩
        · cases hexec
          refine ⟨?_, h.linkNew hm info⟩
          rintro _ ⟨⟩
          exact h.lt_next hm
  | unlink p name ent =>
      simp only [exec] at hexec
      split at hexec
      · cases hexec
        exact ⟨trivial, h⟩
      · rename_i m hm
        split at hexec
        · cases hexec
          exact ⟨trivial, h⟩
        · cases hexec
          refine ⟨trivial, h.set (fun hnone => by cases hm.symm.trans hnone) fun name' c hc => ?_⟩
          have hc : (m.erase name).lookup name' = some c := hc
          have hne : name' ≠ name := by
            rintro rfl
            rw [AList.lookup_erase] at hc
            cases hc
          rw [AList.lookup_erase_ne hne] at hc
          rw [Store.entry, hm]
          exact hc
  | list n =>
      simp only [exec] at hexec
      split at hexec <;> cases hexec <;> exact ⟨trivial, h⟩
  | wstat n dir =>
      cases hexec
      exact ⟨trivial, h.same (same_wstat n dir)⟩
  | write n p offset =>
      simp only [exec] at hexec
      split at hexec
      · cases hexec
        exact ⟨trivial, h⟩
      · rename_i hf
        cases hexec
        exact ⟨trivial, h.same (same_write hf)⟩
  | _ =>
      cases hexec
      exact ⟨trivial, h.blank, h.rising, h.handle⟩

end Commands

/-- A program that puts handles only for places. -/
abbrev Places {α : Type} (Q : α → Prop) (p : M α) : Prop :=
  Safe needs learns (fun a _ => Q a) p ()

section Operations

variable {h : Handle} {p : Place} {k k' : Key} {fuel : Nat}

theorem only_places {α : Type} {b : M α} (hb : b.Only (needs ())) : Places (fun _ => True) b :=
  hb.safe (fun _ _ hc => hc) ()

theorem gives_needs {α : Type} {b : M α} (hb : b.Only Cmd.Gives) : b.Only (needs ()) := by
  refine hb.mono fun c hc => ?_
  cases c with
  | put k h | replace k k' h => exact hc.elim
  | _ => trivial

/-- The nodes that are found lie one below the other. -/
theorem walkDown_places (ref : Nat) (names : List Bytes) :
    Places (fun below => (ref :: below).IsChain (· < ·)) (walkDown ref names) := by
  induction names generalizing ref with
  | nil => exact List.isChain_singleton ref
  | cons name names ih =>
      refine Safe.cmd trivial ?_
      rintro (_ | c) _ hc
      · exact List.isChain_singleton ref
      · refine (ih c).bind fun below _ hbelow => ?_
        exact List.isChain_cons_cons.mpr ⟨hc c rfl, hbelow⟩

theorem walkLocked_places (hat : h.At p) (k' : Key) (names : List Bytes) :
    Places (fun _ => True) (walkLocked h k' names) := by
  have hincrefs : ∀ l, (each (fun p => issue (.incref p)) l).Only (needs ()) :=
    each_only fun p => Prog.Only.issue trivial
  have hinfos : ∀ l, (each (fun a => issue (.info a)) l).Only (needs ()) :=
    each_only fun a => Prog.Only.issue trivial
  by_cases hacc : ∃ k rest, Accepted p.below.length names k rest
  · obtain ⟨k, rest, hacc⟩ := hacc
    rw [walkLocked, hat.walkName hacc]
    dsimp only [walkFrom]
    split
    · trivial
    · rw [hacc.ndel, hat.turn k]
      refine (walkDown_places _ _).bind fun below _ hbelow => ?_
      dsimp only
      split
      · trivial
      · split
        · rename_i hlen
          have hlen := (hat.below_length hacc below).mp hlen
          refine (only_places (hincrefs _)).bind fun _ _ _ => ?_
          refine (only_places (hinfos _)).bind fun infos _ _ => ?_
          refine Safe.cmd ?_ fun _ _ _ => trivial
          rw [hat.arrives hacc hlen]
          exact ⟨_, (hat.proper.branch hacc.elements hlen hbelow).handleAt h.uname⟩
        · exact (only_places (hinfos _)).bind fun _ _ _ => trivial
  · have hnot : ∀ k rest, ¬ Accepted p.below.length names k rest :=
      fun k rest hk => hacc ⟨k, rest, hk⟩
    rw [walkLocked, hat.walkName_rejects hnot]
    trivial

theorem walk_places (k k' : Key) (names : List Bytes) :
    Places (fun _ => True) (walk k k' names) := by
  refine Safe.cmd trivial ?_
  rintro (h : Handle) _ ⟨p, hat⟩
  refine (walkLocked_places hat k' names).bind fun _ _ _ => ?_
  exact Safe.cmd trivial fun _ _ _ => trivial

theorem create_places (k k' : Key) (name : Bytes) (perm : UInt32) (mode : Flag) :
    Places (fun _ => True) (create k k' name perm mode) := by
  have hunlock : ∀ err : Option Err, Places (fun _ => True) (do issue (.unlock k); return err) :=
    fun _ => Safe.cmd trivial fun _ _ _ => trivial
  refine Safe.cmd trivial ?_
  rintro (h : Handle) _ ⟨p, hat⟩
  rw [hat.path]
  split
  · exact hunlock _
  · rename_i path hpath
    obtain ⟨hname, rfl⟩ := createName_root hat.proper.plain hpath
    refine Safe.cmd trivial fun _ _ _ => Safe.cmd trivial fun _ _ _ => Safe.cmd trivial ?_
    rintro (err | ent) _ hent
    · exact hunlock _
    · refine Safe.cmd trivial fun _ _ _ => Safe.cmd trivial fun _ _ _ => ?_
      refine Safe.cmd ⟨p.extend [(name, ent)], ?_, ?_, hat.proper.extend ?_ ?_⟩ fun _ _ _ => trivial
      · rw [p.names_extend]
        rfl
      · rw [p.nodes_extend, ← hat.chain]
        rfl
      · exact List.forall_mem_singleton.mpr hname.plain
      · rw [← hat.ent]
        exact List.isChain_pair.mpr (hent ent rfl)

theorem attach_places (k : Key) (uname : Bytes) : Places (fun _ => True) (attach k uname) := by
  refine Safe.cmd trivial fun _ _ _ => Safe.cmd ?_ fun _ _ _ => trivial
  exact ⟨⟨0, []⟩, rfl, rfl, nofun, List.isChain_singleton 0⟩

theorem Op.prog_places (op : Op) : Places (fun _ => True) (op.prog fuel) := by
  have hdone : ∀ {α : Type} {p : M α} {f : α → Ret}, p.Only (needs ()) →
      Places (fun _ => True) (p >>= fun a => pure (f a)) :=
    fun h => (only_places h).bind fun _ _ _ => trivial
  have hwith : ∀ {α : Type} {k : Key} {body : Handle → M α}, (∀ h, (body h).Only (needs ())) →
      (withHandle k body).Only (needs ()) :=
    withHandle_only trivial trivial
  cases op with
  | attach k uname => exact (attach_places k uname).bind fun _ _ _ => trivial
  | walk k k' names => exact (walk_places k k' names).bind fun _ _ _ => trivial
  | create k k' name perm mode =>
      exact (create_places k k' name perm mode).bind fun _ _ _ => trivial
  | clunk k =>
      refine hdone (Prog.Only.cmd trivial fun h => ?_)
      exact (gives_needs (release_gives h)).bind fun _ => trivial
  | remove k =>
      refine hdone (Prog.Only.cmd trivial fun h => ?_)
      refine Prog.Only.bind ?_ fun _ => (gives_needs (release_gives h)).bind fun _ => trivial
      unfold unlinkEnt
      split
      · trivial
      · refine Prog.Only.cmd trivial fun info => Prog.Only.cmd trivial ?_
        rintro (_ | err)
        · exact (gives_needs (decref_gives _)).bind fun _ => trivial
        · trivial
  | qid k => exact hdone (hwith fun h => Prog.Only.cmd trivial fun _ => trivial)
  | stat k => exact hdone (hwith fun h => Prog.Only.issue trivial)
  | wstat k dir => exact hdone (hwith fun h => Prog.Only.issue trivial)
  | openDir k =>
      refine hdone (hwith fun h => Prog.Only.cmd trivial fun up => Prog.Only.cmd trivial ?_)
      rintro (err | dirs) <;> trivial
  | «open» k k' =>
      refine Safe.bind (only_places (hwith fun h => ?_)) fun _ _ _ => trivial
      exact Prog.Only.issue trivial
  | read k len offset =>
      refine (only_places (onFile_only trivial fun n => ?_)).bind fun _ _ _ => trivial
      exact Prog.Only.issue trivial
  | write k data offset =>
      refine (only_places (onFile_only trivial fun n => ?_)).bind fun _ _ _ => trivial
      exact Prog.Only.issue trivial

end Operations

/-- Handles have places, as a discipline for all operations. -/
def placing (fuel : Nat) : Protocol exec (fun s _ (_ : Op) => s) (Op.prog fuel) Unit where
  idle := ()
  begin _ := ()
  pre := needs
  post := learns
  inv s _ := s.Placed
  guard _ _ _ _ := True
  start_inv _ h _ := h
  exec_inv h hneeds _ hexec := ⟨(), exec_placed h hneeds hexec⟩
  safe op := op.prog_places

/-- **Every interleaving.** -/
theorem placed_reached {now : Time} {fuel : Nat} {acts : List (Sched Op Env)} {s : State}
    (hrun : Conc.exec (step fuel) (initial now) acts = some s) : s.store.Placed := by
  obtain ⟨f, hf⟩ := (placing fuel).sound_of_forall (fun _ _ _ _ => trivial) (placed_init now) acts
    hrun
  exact hf.inv

/-! ## One walk, alone -/

/-- A call of `FileHandle.Walk`. -/
def callWalk (s : Store) (h : Handle) (k' : Key) (names : List Bytes) (env : Nat → Env) :
    Outcome Cmd (List Qid × Bool × Option Err) Store :=
  run exec 0 env (walkLocked h k' names) s 0

/-- One more reference to each of the nodes. -/
def Store.increfs (s : Store) (l : List Nat) : Store :=
  l.foldl (fun s n => s.set n ((s.node n).addRef 1)) s

/-- The places that the names lead to, one after the other. -/
abbrev Store.follow (s : Store) (p : Place) (names : List Bytes) : List Place :=
  Trail.follow (lit "..") s.entry p names

abbrev Store.final (s : Store) (p : Place) (names : List Bytes) : Place :=
  Trail.final (lit "..") s.entry p names

def Store.qids (s : Store) (ps : List Place) : List Qid := ps.map fun q => (s.node q.here).info.qid

/-- A walk name by name: what it returns, and the server after it. -/
def Store.walkTo (s : Store) (h : Handle) (p : Place) (k' : Key) (names : List Bytes) :
    (List Qid × Bool × Option Err) × Store :=
  if names ≠ [] ∧ s.follow p names = [] then (([], false, some .notfound), s)
  else if (s.follow p names).length = names.length then
    ((s.qids (s.follow p names), true, none),
      (s.increfs (s.final p names).nodes).setSlot k' ⟨handleAt (s.final p names) h.uname, false⟩)
  else ((s.qids (s.follow p names), false, none), s)

section Runs

variable {s : Store} {h : Handle} {p : Place} {k k' : Key} {names : List Bytes} {env : Nat → Env}
  {i n : Nat} {rest : List Bytes}

theorem Store.increfs_node (s : Store) (l : List Nat) (m : Nat) :
    (s.increfs l).node m = (s.node m).addRef (l.count m) := by
  induction l generalizing s with
  | nil =>
      rw [List.count_nil, Node.addRef, Int.natCast_zero, Int.add_zero]
      rfl
  | cons n l ih =>
      refine (ih (s.set n ((s.node n).addRef 1))).trans ?_
      by_cases hmn : m = n
      · rw [hmn, Store.set_node, Node.addRef_addRef, List.count_cons_self, Int.natCast_succ,
          Int.add_comm]
      · rw [Store.set_node_of_ne _ _ hmn, List.count_cons_of_ne (Ne.symm hmn)]

theorem Store.increfs_handles (s : Store) (l : List Nat) : (s.increfs l).handles = s.handles := by
  induction l generalizing s with
  | nil => rfl
  | cons n l ih => exact ih (s.set n ((s.node n).addRef 1))

theorem Store.increfs_info (s : Store) (l : List Nat) (m : Nat) :
    ((s.increfs l).node m).info = (s.node m).info := by
  rw [s.increfs_node]
  rfl

theorem Store.increfs_entry (s : Store) (l : List Nat) : (s.increfs l).entry = s.entry := by
  funext m name
  rw [Store.entry, s.increfs_node]
  rfl

theorem increfs_ends (l : List Nat) :
    Ends env (fun _ s' => s' = s.increfs l) (each (fun p => issue (.incref p)) l) s i := by
  induction l generalizing s i with
  | nil => rfl
  | cons n l ih =>
      refine Prog.Ends.cmd rfl (ih.bind ?_)
      rintro _ _ _ rfl
      rfl

theorem infos_ends (l : List Nat) :
    Ends env (fun infos s' => infos = (l.map fun a => (s.node a).info) ∧ s' = s)
      (each (fun a => issue (.info a)) l) s i := by
  induction l generalizing i with
  | nil => exact ⟨rfl, rfl⟩
  | cons n l ih =>
      refine Prog.Ends.cmd rfl (ih.bind ?_)
      rintro _ _ _ ⟨rfl, rfl⟩
      exact ⟨rfl, rfl⟩

theorem Accepted.final_eq (hacc : Accepted p.below.length names n rest) :
    s.final p names = branch p n rest (Trail.descend s.entry (p.back n).here rest) := by
  rw [Store.final, hacc.names_eq]
  exact Trail.final_eq hacc.depth fun x hx => (hacc.elements x hx).ne_dotdot

/-- The nodes that `Walk` finds are those it would come to name by name. -/
theorem Handle.At.finds (hat : h.At p) (hacc : Accepted p.below.length names n rest) :
    h.parents.reverse.take n ++ Trail.descend s.entry (p.back n).here rest =
      (s.follow p names).map Trail.Place.here := by
  rw [Store.follow, hat.parents, hacc.names_eq]
  exact (Trail.follow_map_here hacc.depth fun x hx => (hacc.elements x hx).ne_dotdot).symm

theorem Accepted.final_nodes (hat : h.At p) (hacc : Accepted p.below.length names n rest)
    (hlen : (Trail.descend s.entry (p.back n).here rest).length = rest.length) :
    newChain h names (Trail.descend s.entry (p.back n).here rest) = (s.final p names).nodes := by
  rw [hacc.final_eq, branch_nodes hlen, hat.newChain hacc]

/-- **`Walk`** is a walk name by name. -/
theorem walkLocked_ends (hat : h.At p) (hacc : Accepted p.below.length names n rest)
    (hk' : s.handles.lookup k' = none) :
    Ends env (fun r s' => (r, s') = s.walkTo h p k' names) (walkLocked h k' names) s i := by
  have hdel : ¬ n > h.parents.length := by
    rw [hat.depth]
    exact Nat.not_lt.mpr hacc.depth
  rw [walkLocked, hat.walkName hacc]
  dsimp only [walkFrom]
  rw [hacc.ndel, if_neg hdel, hat.turn n, hacc.drop]
  refine (walkDown_finds _ _).bind ?_
  rintro _ s i₁ ⟨rfl, rfl⟩
  -- whether the walk is complete, in terms of the nodes it finds
  have hcomplete := hat.below_length hacc (Trail.descend s.entry (p.back n).here rest)
  rw [hat.finds hacc]
  rw [hat.finds hacc, List.length_map] at hcomplete
  have hnil : names ≠ [] ∧ (s.follow p names).map Trail.Place.here = [] ↔
      names ≠ [] ∧ s.follow p names = [] := by
    rw [List.map_eq_nil_iff]
  unfold Store.walkTo
  by_cases hstop : names ≠ [] ∧ s.follow p names = []
  · rw [if_pos (hnil.mpr hstop), if_pos hstop]
    rfl
  · rw [if_neg (mt hnil.mp hstop), if_neg hstop]
    by_cases hlen : (s.follow p names).length = names.length
    · rw [if_pos ((List.length_map _).trans hlen), if_pos hlen,
        hat.arrives hacc (hcomplete.mp hlen),
        hacc.final_nodes hat (hcomplete.mp hlen), ← hacc.final_eq]
      refine (increfs_ends _).bind ?_
      rintro _ _ i₂ rfl
      refine (infos_ends _).bind ?_
      rintro _ _ i₃ ⟨rfl, rfl⟩
      have hfree : (s.increfs (s.final p names).nodes).handles.lookup k' = none := by
        rw [s.increfs_handles, hk']
      refine Prog.Ends.cmd (exec_put hfree _ _) ?_
      simp only [s.increfs_info, List.map_map]
      rfl
    · rw [if_neg (mt (List.length_map _).symm.trans hlen), if_neg hlen]
      refine (infos_ends _).bind ?_
      rintro _ _ i₂ ⟨rfl, rfl⟩
      rw [List.map_map, List.map_map]
      rfl

theorem callWalk_returns (hat : h.At p) (hacc : Accepted p.below.length names n rest)
    (hk' : s.handles.lookup k' = none) (env : Nat → Env) :
    ∃ i, callWalk s h k' names env =
      .returned (s.walkTo h p k' names).1 (s.walkTo h p k' names).2 i := by
  obtain ⟨r, s', i, hrun, hr⟩ := (walkLocked_ends hat hacc hk').run
  rw [← hr]
  exact ⟨i, hrun⟩

theorem walkTo_complete (hlen : (s.follow p names).length = names.length) :
    s.walkTo h p k' names = ((s.qids (s.follow p names), true, none),
      (s.increfs (s.final p names).nodes).setSlot k'
      ⟨handleAt (s.final p names) h.uname, false⟩) := by
  have hgoes : ¬ (names ≠ [] ∧ s.follow p names = []) := by
    rintro ⟨hne, hnil⟩
    rw [hnil] at hlen
    exact hne (List.length_eq_zero_iff.mp hlen.symm)
  rw [Store.walkTo, if_neg hgoes, if_pos hlen]

theorem walkTo_incomplete (hlen : (s.follow p names).length ≠ names.length) :
    ∃ err, s.walkTo h p k' names = ((s.qids (s.follow p names), false, err), s) ∧
      (err ≠ none → s.qids (s.follow p names) = []) := by
  rw [Store.walkTo]
  by_cases hstop : names ≠ [] ∧ s.follow p names = []
  · rw [if_pos hstop, hstop.2]
    exact ⟨_, rfl, fun _ => rfl⟩
  · rw [if_neg hstop, if_neg hlen]
    exact ⟨_, rfl, absurd rfl⟩

theorem walkTo_complete_iff {qids : List Qid} {complete : Bool} {err : Option Err} {s' : Store}
    (hw : s.walkTo h p k' names = ((qids, complete, err), s')) :
    complete = true ↔ (s.follow p names).length = names.length := by
  by_cases hlen : (s.follow p names).length = names.length
  · rw [walkTo_complete hlen] at hw
    cases hw
    exact ⟨fun _ => hlen, fun _ => rfl⟩
  · obtain ⟨err', hw', -⟩ : ∃ err, s.walkTo h p k' names = _ ∧ _ := walkTo_incomplete hlen
    cases hw'.symm.trans hw
    exact ⟨nofun, fun h => absurd h hlen⟩

/-- A complete walk comes to a proper place. -/
theorem Accepted.final_proper (hacc : Accepted p.below.length names n rest) (hs : s.Placed)
    (hat : h.At p) (hlen : (s.follow p names).length = names.length) :
    Proper (s.final p names) := by
  have hbelow := (hat.below_length hacc (Trail.descend s.entry (p.back n).here rest)).mp
    (by rw [hat.finds hacc, List.length_map, hlen])
  rw [hacc.final_eq]
  exact hat.proper.branch hacc.elements hbelow (Trail.isChain_descend hs.rising _ _)

end Runs

/-! ## Walks one behind the other -/

/-- What is said of the walks from a handle `h`.  If a walk with the names `xs` is
complete, then the walk with the names `xs ++ ys` returns what the walks one
behind the other return.  A walk changes no node, but that a complete one
counts each node of the new handle up by one. -/
structure WalksWell (s : Store) (h : Handle) : Prop where
  depth : h.parents.length = (pathElements h.path).length
  composes : ∀ {xs ys : List Bytes} {k₁ : Key} {env : Nat → Env} {qids₁ : List Qid}
    {err₁ : Option Err} {s₁ : Store} {n₁ : Nat},
    0 ≤ validPath (xs ++ ys) → validPath (xs ++ ys) ≤ h.parents.length →
    s.handles.lookup k₁ = none → callWalk s h k₁ xs env = .returned (qids₁, true, err₁) s₁ n₁ →
    ∃ h₁, s₁.Live k₁ h₁ ∧ ∀ k₂ k', s₁.handles.lookup k₂ = none → s.handles.lookup k' = none →
      ∃ qids₂ complete err₂ s₂ n₂ err' s' n',
        callWalk s₁ h₁ k₂ ys env = .returned (qids₂, complete, err₂) s₂ n₂ ∧
        callWalk s h k' (xs ++ ys) env = .returned (qids₁ ++ qids₂, complete, err') s' n' ∧
        (err₂ ≠ none → qids₂ = []) ∧
        (complete = true → ∃ h₂ h', s₂.Live k₂ h₂ ∧ s'.Live k' h' ∧ h'.path = h₂.path ∧
          h'.ent = h₂.ent ∧ h'.parents = h₂.parents)
  counts : ∀ (names : List Bytes) {k' : Key} (env : Nat → Env), s.handles.lookup k' = none →
    ∃ qids complete err s' n, callWalk s h k' names env = .returned (qids, complete, err) s' n ∧
      (complete = true → ∃ h', s'.Live k' h' ∧
        ∀ m, s'.node m = (s.node m).addRef (if m ∈ h'.chain then 1 else 0)) ∧
      (complete = false → s'.node = s.node)

section Composes

variable {s : Store} {h : Handle} {p : Place} {k k' k₁ k₂ : Key} {names xs ys rest : List Bytes}
  {n : Nat}

/-- The names of the second walk, at the place where the first one ends. -/
theorem Accepted.walks (hacc : Accepted p.below.length (xs ++ ys) n rest) :
    ∃ n₁ rest₁ n₂ rest₂, Accepted p.below.length xs n₁ rest₁ ∧
      Accepted (s.final p xs).below.length ys n₂ rest₂ := by
  rcases hacc.split with ⟨j, hxs, hys, hj⟩ | ⟨rest₁, hxs, hys⟩
  · have hup : s.final p xs = p.back j := by
      rw [hxs]
      exact (Trail.follow_up hj).2
    refine ⟨j, [], n - j, rest, ⟨?_, nofun, hj⟩, ?_⟩
    · rw [hxs, List.append_nil]
    · rw [hup, p.length_back]
      exact hys
  · exact ⟨n, rest₁, 0, ys, hxs, hys _⟩

/-- A walk does not change what other walks find. -/
theorem Store.increfs_walks (s : Store) (l : List Nat) (k : Key) (slot : Slot) (p : Place)
    (names : List Bytes) :
    ((s.increfs l).setSlot k slot).follow p names = s.follow p names ∧
      ((s.increfs l).setSlot k slot).final p names = s.final p names ∧
      ∀ ps, ((s.increfs l).setSlot k slot).qids ps = s.qids ps := by
  have hentry : ((s.increfs l).setSlot k slot).entry = s.entry := s.increfs_entry l
  refine ⟨?_, ?_, fun ps => ?_⟩
  · rw [Store.follow, hentry]
  · rw [Store.final, hentry]
  · exact List.map_congr_left fun q _ => congrArg Dir.qid (s.increfs_info l q.here)

theorem Store.qids_append (s : Store) (ps qs : List Place) :
    s.qids (ps ++ qs) = s.qids ps ++ s.qids qs := List.map_append

theorem Store.Placed.composes (hs : s.Placed) (hat : h.At p)
    (hacc : Accepted p.below.length (xs ++ ys) n rest) {env : Nat → Env} {qids₁ : List Qid}
    {err₁ : Option Err} {s₁ : Store} {n₁ : Nat} (hk₁ : s.handles.lookup k₁ = none)
    (hrun : callWalk s h k₁ xs env = .returned (qids₁, true, err₁) s₁ n₁) :
    ∃ h₁, s₁.Live k₁ h₁ ∧ ∀ k₂ k', s₁.handles.lookup k₂ = none → s.handles.lookup k' = none →
      ∃ qids₂ complete err₂ s₂ n₂ err' s' n',
        callWalk s₁ h₁ k₂ ys env = .returned (qids₂, complete, err₂) s₂ n₂ ∧
        callWalk s h k' (xs ++ ys) env = .returned (qids₁ ++ qids₂, complete, err') s' n' ∧
        (err₂ ≠ none → qids₂ = []) ∧
        (complete = true → ∃ h₂ h', s₂.Live k₂ h₂ ∧ s'.Live k' h' ∧ h'.path = h₂.path ∧
          h'.ent = h₂.ent ∧ h'.parents = h₂.parents) := by
  obtain ⟨m₁, rest₁, m₂, rest₂, hxs, hys⟩ : ∃ m₁ rest₁ m₂ rest₂,
      Accepted p.below.length xs m₁ rest₁ ∧ Accepted (s.final p xs).below.length ys m₂ rest₂ :=
    hacc.walks
  -- the first walk
  obtain ⟨i, hrun₁⟩ := callWalk_returns hat hxs hk₁ env
  rw [hrun] at hrun₁
  obtain ⟨hret, hs₁, -⟩ := Outcome.returned.inj hrun₁
  have hw₁ : s.walkTo h p k₁ xs = ((qids₁, true, err₁), s₁) := Prod.ext hret.symm hs₁.symm
  have hlen := (walkTo_complete_iff hw₁).mp rfl
  rw [walkTo_complete hlen] at hw₁
  cases hw₁
  have hat₁ : (handleAt (s.final p xs) h.uname).At (s.final p xs) :=
    (hxs.final_proper hs hat hlen).handleAt h.uname
  refine ⟨_, Store.lookup_setSlot _ _ _, fun k₂ k' hk₂ hk' => ?_⟩
  -- the second walk, and both at once
  obtain ⟨hfollow, hfinal, hqids⟩ := s.increfs_walks (s.final p xs).nodes k₁
    ⟨handleAt (s.final p xs) h.uname, false⟩ (s.final p xs) ys
  obtain ⟨i₂, hrun₂⟩ := callWalk_returns hat₁ hys hk₂ env
  obtain ⟨i', hrun'⟩ := callWalk_returns hat hacc hk' env
  have hsteps : s.follow p (xs ++ ys) = s.follow p xs ++ s.follow (s.final p xs) ys :=
    Trail.follow_append hlen ys
  have hend : s.final p (xs ++ ys) = s.final (s.final p xs) ys := Trail.final_append hlen ys
  by_cases hlen₂ : (s.follow (s.final p xs) ys).length = ys.length
  · have hlen' : (s.follow p (xs ++ ys)).length = (xs ++ ys).length := by
      rw [hsteps, List.length_append, List.length_append, hlen, hlen₂]
    rw [walkTo_complete (hfollow ▸ hlen₂), hfollow, hqids, hfinal] at hrun₂
    rw [walkTo_complete hlen', hsteps, s.qids_append, hend] at hrun'
    refine ⟨_, _, _, _, _, _, _, _, hrun₂, hrun', absurd rfl, fun _ => ?_⟩
    exact ⟨_, _, Store.lookup_setSlot _ _ _, Store.lookup_setSlot _ _ _, rfl, rfl, rfl⟩
  · have hlen' : (s.follow p (xs ++ ys)).length ≠ (xs ++ ys).length := by
      rw [hsteps, List.length_append, List.length_append, hlen]
      exact fun h => hlen₂ (Nat.add_left_cancel h)
    obtain ⟨err₂, hw₂, hnone⟩ : ∃ err, Store.walkTo _ (handleAt (s.final p xs) h.uname) _ k₂ ys =
      _ ∧ _ := walkTo_incomplete (hfollow ▸ hlen₂)
    obtain ⟨err', hw', -⟩ : ∃ err, s.walkTo h p k' (xs ++ ys) = _ ∧ _ := walkTo_incomplete hlen'
    rw [hw₂, hfollow, hqids] at hrun₂
    rw [hfollow, hqids] at hnone
    rw [hw', hsteps, s.qids_append] at hrun'
    exact ⟨_, _, _, _, _, _, _, _, hrun₂, hrun', hnone, nofun⟩

theorem Store.Placed.counts (hs : s.Placed) (hat : h.At p) (names : List Bytes) (env : Nat → Env)
    (hk' : s.handles.lookup k' = none) :
    ∃ qids complete err s' n, callWalk s h k' names env = .returned (qids, complete, err) s' n ∧
      (complete = true → ∃ h', s'.Live k' h' ∧
        ∀ m, s'.node m = (s.node m).addRef (if m ∈ h'.chain then 1 else 0)) ∧
      (complete = false → s'.node = s.node) := by
  by_cases hacc : ∃ n rest, Accepted p.below.length names n rest
  · obtain ⟨n, rest, hacc⟩ := hacc
    obtain ⟨i, hrun⟩ := callWalk_returns hat hacc hk' env
    by_cases hlen : (s.follow p names).length = names.length
    · rw [walkTo_complete hlen] at hrun
      refine ⟨_, _, _, _, _, hrun, fun _ => ⟨_, Store.lookup_setSlot _ _ _, fun m => ?_⟩, nofun⟩
      have hcount := (hacc.final_proper hs hat hlen).nodup.count (a := m)
      refine (s.increfs_node _ m).trans ?_
      rw [handleAt_chain, hcount]
      split <;> rfl
    · obtain ⟨err, hw, -⟩ : ∃ err, s.walkTo h p k' names = _ ∧ _ := walkTo_incomplete hlen
      rw [hw] at hrun
      exact ⟨_, _, _, _, _, hrun, nofun, fun _ => rfl⟩
  · have hnot : ∀ n rest, ¬ Accepted p.below.length names n rest :=
      fun n rest hn => hacc ⟨n, rest, hn⟩
    have hrun : callWalk s h k' names env =
        .returned ([], false, some (.rerror (lit "Invalid path"))) s 0 := by
      rw [callWalk, walkLocked, hat.walkName_rejects hnot]
      rfl
    exact ⟨_, _, _, _, _, hrun, nofun, fun _ => rfl⟩

end Composes

/-- **In every reachable state**, of any number of operations interleaved, the walks
from every handle are as said. -/
theorem walks_well (now : Time) (fuel : Nat) (acts : List (Sched Op Env)) {s : State}
    (hrun : Conc.exec (step fuel) (initial now) acts = some s) (k : Key) (slot : Slot)
    (hk : s.store.handles.lookup k = some slot) : WalksWell s.store slot.handle := by
  have hs := placed_reached hrun
  obtain ⟨p, hat⟩ := hs.handle k slot hk
  refine ⟨hat.elements, ?_, fun names k' env hk' => hs.counts hat names env hk'⟩
  intro xs ys k₁ env qids₁ err₁ s₁ n₁ hvalid hdepth hk₁ hwalk
  rw [hat.depth] at hdepth
  obtain ⟨n, rest, hacc⟩ := accepted_of_validPath hvalid hdepth
  exact hs.composes hat hacc hk₁ hwalk

/-- From the directory `d` to the root and down again. -/
theorem walks_well_makesDir :
    ∃ s slot qids s₁ n, Conc.exec (step 3) (initial Time.zero) makesDir = some s ∧
      s.store.handles.lookup (1, 1) = some slot ∧ slot.handle.path = lit "/d" ∧
      slot.handle.parents = [0] ∧ validPath ([lit ".."] ++ [lit "d"]) = 1 ∧
      s.store.handles.lookup (1, 2) = none ∧
      callWalk s.store slot.handle (1, 2) [lit ".."] (fun _ => still) =
        .returned (qids, true, none) s₁ n ∧
      WalksWell s.store slot.handle :=
  ⟨_, _, _, _, _, rfl, rfl, rfl, rfl, rfl, rfl, rfl,
    walks_well Time.zero 3 makesDir rfl (1, 1) _ rfl⟩

end P9p.Ramfs
