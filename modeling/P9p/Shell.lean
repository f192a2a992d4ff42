/-
# `P9p.Shell` — the paths of the client shell

`cmd/9pr/main.go`, with `ToWalk` of `path.go`.  A command of the shell takes the
path that was typed through two functions:

    p ──ToWalk──▸ isAbs, steps ──WalkName──▸ starting entry, steps, path

`ToWalk` refuses backslashes, and `".."` above the root of an absolute path.
`WalkName` refuses to go above the root.

**One would have** that a command fails or acts on the path that was typed.

**It is not so.**  `fsCommander.toWalk` keeps the error of `ToWalk` in the
variable that it then uses for that of `WalkName`.  When `ToWalk` refuses there
are no steps, and with no steps `WalkName` succeeds: the command acts on the root
or on the current directory.  `rm` removes it (`rm_wrong_directory`).

**When it is** (`toWalk_faithful_iff`): if and only if `ToWalk` accepts the path.

The path that the shell shows is right all the same: `cd` changes it together
with the directory it stands for (`Commander.At`).
-/
import P9p.Path.Resolve
import Mathlib.Data.List.DropRight

namespace P9p

open Backtrack

/-! ## `ToWalk` -/

/-- `strings.Trim(p, "/")`. -/
def trimSlashes (p : Bytes) : Bytes :=
  (p.dropWhile (· = SlashPath.slash)).rdropWhile (· = SlashPath.slash)

/-- What `ToWalk` returns. -/
structure ToWalk where
  isAbs : Bool
  steps : List Bytes
  err : Option Err

def toWalk (p : Bytes) : ToWalk :=
  let (steps, bsp) := normalizePath ((trimSlashes p).splitOn SlashPath.slash)
  if SlashPath.isAbs p then
    if bsp ≠ 0 then ⟨true, [], some (.rerror (lit "invalid path: " ++ p))⟩
    else ⟨true, steps, none⟩
  else if bsp < 0 then ⟨false, [], some (.rerror (lit "invalid path: " ++ p))⟩
  else ⟨false, steps, none⟩

section ToWalk

variable {p : Bytes}

/-- What is trimmed are empty elements. -/
theorem moves_trimSlashes (p : Bytes) :
    ((trimSlashes p).splitOn SlashPath.slash).filterMap move? =
      (p.splitOn SlashPath.slash).filterMap move? := by
  have hleft : ∀ p : Bytes, ((p.dropWhile (· = SlashPath.slash)).splitOn SlashPath.slash).filterMap
      move? = (p.splitOn SlashPath.slash).filterMap move? := by
    intro p
    induction p with
    | nil => rfl
    | cons b p ih =>
        by_cases hb : b = SlashPath.slash
        · have happ := List.splitOn_append_cons_self [] p (a := SlashPath.slash)
          rw [List.nil_append, List.splitOn_nil, List.singleton_append] at happ
          rw [List.dropWhile_cons, if_pos (decide_eq_true hb), ih, hb, happ]
          rfl
        · rw [List.dropWhile_cons, if_neg (mt of_decide_eq_true hb)]
  have hright : ∀ p : Bytes, ((p.rdropWhile (· = SlashPath.slash)).splitOn
      SlashPath.slash).filterMap move? = (p.splitOn SlashPath.slash).filterMap move? := by
    intro p
    induction p using List.reverseRecOn with
    | nil => rfl
    | append_singleton p b ih =>
        by_cases hb : b = SlashPath.slash
        · have happ := List.splitOn_append_cons_self p [] (a := SlashPath.slash)
          rw [List.splitOn_nil] at happ
          rw [List.rdropWhile_concat, if_pos (decide_eq_true hb), ih, hb, happ,
            List.filterMap_append]
          exact (List.append_nil _).symm
        · rw [List.rdropWhile_concat, if_neg (mt of_decide_eq_true hb)]
  rw [trimSlashes, hright, hleft]

theorem normalizePath_trimSlashes (p : Bytes) :
    normalizePath ((trimSlashes p).splitOn SlashPath.slash) =
      normalizePath (p.splitOn SlashPath.slash) :=
  normalizePath_congr (moves_trimSlashes p)

theorem toWalk_isAbs (p : Bytes) : (toWalk p).isAbs = SlashPath.isAbs p := by
  rw [toWalk]
  dsimp only
  split
  · rename_i habs
    rw [habs]
    split <;> rfl
  · rename_i habs
    rw [Bool.eq_false_iff.mpr habs]
    split <;> rfl

/-- The elements between the slashes have a separator exactly if there is a
backslash. -/
theorem separator_splitOn :
    (∃ s ∈ p.splitOn SlashPath.slash, (s.any fun b => b ∈ lit "\\/") = true) ↔ 92 ∈ p := by
  have hroot : SlashPath.root (p.splitOn SlashPath.slash) = SlashPath.slash :: p := by
    rw [SlashPath.root, List.intercalate_splitOn]
  have hmem : 92 ∈ p ↔ ∃ s ∈ p.splitOn SlashPath.slash, 92 ∈ s := by
    have h : 92 ∈ SlashPath.root (p.splitOn SlashPath.slash) ↔ _ := SlashPath.mem_root
    rw [hroot, List.mem_cons] at h
    have hne : (92 : UInt8) ≠ SlashPath.slash := by decide
    simpa only [hne, false_or] using h
  rw [hmem]
  refine exists_congr fun s => and_congr_right fun hs => ?_
  have hslash := SlashPath.slash_notMem_splitOn p s hs
  rw [← not_iff_not, Bool.not_eq_true, separator_iff]
  exact and_iff_left hslash

/-- `ToWalk` gives the normal form of what lies between the slashes, or nothing. -/
theorem toWalk_cases (p : Bytes) :
    ((toWalk p).err = none ∧ 92 ∉ p ∧
      (SlashPath.isAbs p → (relOf (p.splitOn SlashPath.slash)).up = 0) ∧
      (toWalk p).steps = relNames (relOf (p.splitOn SlashPath.slash))) ∨
    ((toWalk p).err = some (.rerror (lit "invalid path: " ++ p)) ∧ (toWalk p).steps = [] ∧
      (92 ∈ p ∨ SlashPath.isAbs p ∧ (relOf (p.splitOn SlashPath.slash)).up ≠ 0)) := by
  rw [toWalk, normalizePath_trimSlashes]
  by_cases hback : 92 ∈ p
  · have herr : normalizePath (p.splitOn SlashPath.slash) = ([], -1) :=
      normalizePathFrom_separator (separator_splitOn.mpr hback)
    right
    rw [herr]
    dsimp only
    split
    · exact ⟨rfl, rfl, Or.inl hback⟩
    · exact ⟨rfl, rfl, Or.inl hback⟩
  · rw [normalizePath_rel (noSeparator (mt separator_splitOn.mp hback))]
    dsimp only
    split
    · rename_i habs
      split
      · rename_i hup
        exact Or.inr ⟨rfl, rfl, Or.inr ⟨habs, fun h => hup (congrArg Int.ofNat h)⟩⟩
      · rename_i hup
        exact Or.inl ⟨rfl, hback, fun _ => Int.ofNat_eq_zero.mp (not_not.mp hup), rfl⟩
    · rename_i habs
      rw [if_neg (Int.not_lt.mpr (Int.natCast_nonneg _))]
      exact Or.inl ⟨rfl, hback, fun h => absurd h habs, rfl⟩

/-- The steps are a normal form, also where there are none. -/
theorem steps_normal (p : Bytes) :
    ∃ r, (toWalk p).steps = relNames r ∧ ∀ s ∈ r.down, Element s := by
  rcases toWalk_cases p with ⟨-, hback, -, hsteps⟩ | ⟨-, hsteps, -⟩
  · exact ⟨_, hsteps, relOf_elements (noSeparator (mt separator_splitOn.mp hback))⟩
  · exact ⟨⟨0, []⟩, hsteps, List.forall_mem_nil _⟩

/-- What `ToWalk` accepts. -/
theorem toWalk_accepts_iff :
    (toWalk p).err = none ↔
      92 ∉ p ∧ (SlashPath.isAbs p → resolve [] (p.splitOn SlashPath.slash) ≠ none) := by
  have hresolve : resolve [] (p.splitOn SlashPath.slash) ≠ none ↔
      (relOf (p.splitOn SlashPath.slash)).up = 0 := by
    rw [resolve, run_eq_apply, Rel.apply]
    show ite ((relOf (p.splitOn SlashPath.slash)).up ≤ 0) _ _ ≠ none ↔ _
    split
    · rename_i hle
      exact ⟨fun _ => Nat.le_zero.mp hle, fun _ => Option.some_ne_none _⟩
    · rename_i hle
      exact ⟨fun h => absurd rfl h, fun h => absurd h.le hle⟩
  rw [hresolve]
  rcases toWalk_cases p with ⟨hok, hback, habs, -⟩ | ⟨herr, -, hwhy⟩
  · exact ⟨fun _ => ⟨hback, habs⟩, fun _ => hok⟩
  · rw [herr]
    refine ⟨fun h => (by cases h), ?_⟩
    rintro ⟨hback, habs⟩
    exact (hwhy.elim hback fun h => h.2 (habs h.1)).elim

end ToWalk

/-! ## The commands -/

/-- `fsCommander`, as far as paths go; `δ` are the entries. -/
structure FsCommander (δ : Type) where
  pwd : δ
  root : δ
  path : Bytes

/-- What `fsCommander.toWalk` returns. -/
structure Target (δ : Type) where
  rel : δ
  steps : List Bytes
  path : Bytes
  err : Option Err

/-- The methods of an entry that the commands here use. -/
structure Dirents (σ δ : Type) where
  walk : δ → List Bytes → σ → Except Err (List Qid × δ) × σ
  isDir : δ → Bool
  clunk : δ → σ → σ
  remove : δ → σ → Option Err × σ

/-- Entries have places, and a walk that is complete goes where its names lead. -/
def Dirents.Follows {σ δ : Type} (ds : Dirents σ δ) (place : δ → List Bytes) : Prop :=
  ∀ d steps s qids d' s', ds.walk d steps s = (.ok (qids, d'), s') →
    qids.length = steps.length → resolve (place d) steps = some (place d')

namespace FsCommander

variable {σ δ : Type}

/-- The error of `ToWalk` is overwritten. -/
def toWalk (c : FsCommander δ) (p : Bytes) : Target δ :=
  let w := P9p.toWalk p
  let rel := if w.isAbs then c.root else c.pwd
  let path := if w.isAbs then lit "/" else c.path
  match walkName path w.steps with
  | .ok path => ⟨rel, w.steps, path, none⟩
  | .error err => ⟨rel, w.steps, path, some err⟩

/-- `cmdcd` with its argument. -/
def cd (ds : Dirents σ δ) (c : FsCommander δ) (p : Bytes) (s : σ) :
    Option Err × FsCommander δ × σ :=
  let w := c.toWalk p
  match w.err with
  | some err => (some err, c, s)
  | none =>
      match ds.walk w.rel w.steps s with
      | (.error err, s) => (some err, c, s)
      | (.ok (qids, next), s) =>
          if qids.length ≠ w.steps.length then (none, c, s)
          else if ds.isDir next then
            (none, { c with pwd := next, path := w.path }, ds.clunk c.pwd s)
          else (some (.other (lit "not a directory.")), c, ds.clunk next s)

def cmdcd (ds : Dirents σ δ) (c : FsCommander δ) (args : List Bytes) (s : σ) :
    Option Err × FsCommander δ × σ :=
  match args with
  | [] => c.cd ds (lit "/") s
  | [p] => c.cd ds p s
  | _ => (some (.other (lit "invalid args: [" ++ (lit " ").intercalate args ++ lit "]")), c, s)

/-- One round of the loop of `cmdrm`, and whether it fails. -/
def rm (ds : Dirents σ δ) (c : FsCommander δ) (p : Bytes) (s : σ) : Bool × σ :=
  let w := c.toWalk p
  match w.err with
  | some _ => (true, s)
  | none =>
      match ds.walk w.rel w.steps s with
      | (.error _, s) => (true, s)
      | (.ok (_, ent), s) =>
          let (err, s) := ds.remove ent s
          (err.isSome, s)

def cmdrm (ds : Dirents σ δ) (c : FsCommander δ) (args : List Bytes) (s : σ) : Option Err × σ :=
  args.foldl (fun (ret, s) p =>
    let (failed, s) := c.rm ds p s
    (if failed then some (.other (lit "error")) else ret, s)) (none, s)

/-! ## The path that was typed -/

/-- From the directory with the path `dir`, `names` lead to `path`. -/
def Leads (dir : Bytes) (names : List Bytes) (path : Bytes) : Prop :=
  ∃ es es', (∀ e ∈ es, Element e) ∧ dir = SlashPath.root es ∧ resolve es names = some es' ∧
    path = SlashPath.root es'

/-- What a path that was typed is relative to. -/
def base (c : FsCommander δ) (p : Bytes) : Bytes := if SlashPath.isAbs p then lit "/" else c.path

/-- A path that `ToWalk` refuses is refused.  One that is not refused gives steps
that lead, from the entry they start from, where the path leads. -/
def Faithful (c : FsCommander δ) (p : Bytes) : Prop :=
  ((P9p.toWalk p).err ≠ none → (c.toWalk p).err ≠ none) ∧
    ((c.toWalk p).err = none →
      (c.toWalk p).rel = (if SlashPath.isAbs p then c.root else c.pwd) ∧
      Leads (c.base p) (c.toWalk p).steps (c.toWalk p).path ∧
      Leads (c.base p) (p.splitOn SlashPath.slash) (c.toWalk p).path)

section ToWalk

variable {c : FsCommander δ} {p : Bytes} {es : List Bytes}

@[simp] theorem toWalk_rel (c : FsCommander δ) (p : Bytes) :
    (c.toWalk p).rel = if SlashPath.isAbs p then c.root else c.pwd := by
  rw [toWalk, toWalk_isAbs]
  split <;> rfl

@[simp] theorem toWalk_steps (c : FsCommander δ) (p : Bytes) :
    (c.toWalk p).steps = (P9p.toWalk p).steps := by
  rw [toWalk]
  split <;> rfl

/-- The error is that of `WalkName`. -/
theorem walkName_toWalk (h : (c.toWalk p).err = none) :
    walkName (c.base p) (P9p.toWalk p).steps = .ok (c.toWalk p).path := by
  rw [toWalk, toWalk_isAbs] at h ⊢
  rw [base]
  split at h
  · assumption
  · cases h

theorem toWalk_err {path : Bytes} (h : walkName (c.base p) (P9p.toWalk p).steps = .ok path) :
    (c.toWalk p).err = none := by
  rw [base, ← toWalk_isAbs] at h
  rw [toWalk]
  rw [h]

/-- Both kinds of paths are relative to an internal path. -/
theorem base_internal (hc : InternalPath c.path) (p : Bytes) :
    ∃ es, (∀ e ∈ es, Element e) ∧ c.base p = SlashPath.root es := by
  rw [base]
  split
  · exact ⟨[], List.forall_mem_nil _, rfl⟩
  · exact internalPath_iff.mp hc

/-- Where there are no steps there is no error. -/
theorem toWalk_refused (hc : InternalPath c.path) (h : (P9p.toWalk p).err ≠ none) :
    (c.toWalk p).err = none := by
  rcases toWalk_cases p with ⟨hok, -⟩ | ⟨-, hsteps, -⟩
  · exact absurd hok h
  · obtain ⟨es, hes, hbase⟩ := base_internal hc p
    have hzero := walkName_relNames hes (r := ⟨0, []⟩) (List.forall_mem_nil _)
    rw [Rel.apply_zero, List.append_nil] at hzero
    have hwalk : walkName (c.base p) (P9p.toWalk p).steps = .ok (SlashPath.root es) := by
      rw [hbase, hsteps]
      exact hzero
    exact toWalk_err hwalk

/-- The steps lead to the path, whatever was typed. -/
theorem toWalk_leads (hes : ∀ e ∈ es, Element e) (hbase : c.base p = SlashPath.root es)
    (hok : (c.toWalk p).err = none) :
    ∃ es', (∀ e ∈ es', Element e) ∧ resolve es (P9p.toWalk p).steps = some es' ∧
      (c.toWalk p).path = SlashPath.root es' := by
  obtain ⟨r, hsteps, hr⟩ := steps_normal p
  have hwalk := walkName_toWalk hok
  rw [hbase, hsteps, walkName_relNames hes hr] at hwalk
  rw [hsteps, resolve_normal hr]
  cases happly : r.apply es with
  | none => rw [happly] at hwalk; cases hwalk
  | some es' =>
      rw [happly] at hwalk
      refine ⟨es', fun e he => ?_, rfl, (Except.ok.inj hwalk).symm⟩
      exact (Rel.mem_apply happly he).elim (hes e) (hr e)

/-- If `ToWalk` accepts it, the path leads there too. -/
theorem resolve_accepted (h : (P9p.toWalk p).err = none) (st : List Bytes) :
    resolve st (P9p.toWalk p).steps = resolve st (p.splitOn SlashPath.slash) := by
  rcases toWalk_cases p with ⟨-, hback, -, hsteps⟩ | ⟨herr, -⟩
  · rw [hsteps]
    exact resolve_relNames (noSeparator (mt separator_splitOn.mp hback)) st
  · cases h.symm.trans herr

/-- **The path that was typed** is the one that a command acts on, exactly if
`ToWalk` accepts it. -/
theorem toWalk_faithful_iff (c : FsCommander δ) (hc : InternalPath c.path) (p : Bytes) :
    c.Faithful p ↔ (P9p.toWalk p).err = none := by
  constructor
  · intro h
    by_contra herr
    exact h.1 herr (toWalk_refused hc herr)
  · intro h
    refine ⟨fun herr => absurd h herr, fun hok => ⟨toWalk_rel c p, ?_⟩⟩
    obtain ⟨es, hes, hbase⟩ := base_internal hc p
    obtain ⟨es', -, hsteps, hpath⟩ := toWalk_leads hes hbase hok
    rw [toWalk_steps]
    exact ⟨⟨es, es', hes, hbase, hsteps, hpath⟩,
      ⟨es, es', hes, hbase, (resolve_accepted h es).symm.trans hsteps, hpath⟩⟩

end ToWalk

/-! ## Runs of commands -/

section Runs

variable {ds : Dirents σ δ} {place : δ → List Bytes} {c : FsCommander δ} {s : σ}

/-- The path of the shell is that of its entry. -/
structure At (place : δ → List Bytes) (c : FsCommander δ) : Prop where
  root : place c.root = []
  elements : ∀ e ∈ place c.pwd, Element e
  path : c.path = SlashPath.root (place c.pwd)

theorem At.base (h : c.At place) (p : Bytes) :
    (∀ e ∈ place (if SlashPath.isAbs p then c.root else c.pwd), Element e) ∧
      c.base p = SlashPath.root (place (if SlashPath.isAbs p then c.root else c.pwd)) := by
  rw [FsCommander.base]
  split
  · rw [h.root]
    exact ⟨List.forall_mem_nil _, rfl⟩
  · exact ⟨h.elements, h.path⟩

theorem At.cd (hds : ds.Follows place) (h : c.At place) (p : Bytes) (s : σ) :
    (c.cd ds p s).2.1.At place := by
  rw [FsCommander.cd]
  split
  · exact h
  · rename_i hok
    split
    · exact h
    · rename_i qids next s' hwalk
      split
      · exact h
      · rename_i hlen
        split
        · -- the new entry is where the steps lead, and so is the new path
          obtain ⟨helements, hbase⟩ := h.base p
          obtain ⟨es, hes, hsteps, hpath⟩ := toWalk_leads helements hbase hok
          have hnext := hds _ _ _ _ _ _ hwalk (not_not.mp hlen)
          rw [toWalk_rel, toWalk_steps, hsteps] at hnext
          cases hnext
          exact ⟨h.root, hes, hpath⟩
        · exact h

theorem At.cmdcd (hds : ds.Follows place) (h : c.At place) (args : List Bytes) (s : σ) :
    (c.cmdcd ds args s).2.1.At place := by
  rw [FsCommander.cmdcd.eq_def]
  split
  · exact h.cd hds _ s
  · exact h.cd hds _ s
  · exact h

/-- **What `cd` shows is where it is**, after any number of them. -/
theorem At.run (hds : ds.Follows place) (h : c.At place) (cds : List (List Bytes)) (s : σ) :
    (cds.foldl (fun (cs : FsCommander δ × σ) args => (cs.1.cmdcd ds args cs.2).2)
      (c, s)).1.At place := by
  induction cds generalizing c s with
  | nil => exact h
  | cons args cds ih => exact ih (h.cmdcd hds args s) _

/-- What `rm` removes is what was typed, if `ToWalk` accepts it. -/
theorem removes_typed (hds : ds.Follows place) {p : Bytes} (hp : (P9p.toWalk p).err = none)
    (hok : (c.toWalk p).err = none) {qids : List Qid} {ent : δ} {s' : σ}
    (hwalk : ds.walk (c.toWalk p).rel (c.toWalk p).steps s = (.ok (qids, ent), s'))
    (hlen : qids.length = (c.toWalk p).steps.length) :
    c.rm ds p s = ((ds.remove ent s').1.isSome, (ds.remove ent s').2) ∧
      resolve (place (if SlashPath.isAbs p then c.root else c.pwd))
        (p.splitOn SlashPath.slash) = some (place ent) := by
  refine ⟨?_, ?_⟩
  · rw [FsCommander.rm, hok, hwalk]
  · have hent := hds _ _ _ _ _ _ hwalk hlen
    rwa [toWalk_rel, toWalk_steps, resolve_accepted hp] at hent

end Runs

/-! ## Two directories too many -/

/-- Entries that are their places; the state is the list of those that were
removed. -/
def places : Dirents (List (List Bytes)) (List Bytes) where
  walk d steps s :=
    match resolve d steps with
    | some d' => (.ok (steps.map fun _ => ⟨qtdir, 0, 0⟩, d'), s)
    | none => (.error .notfound, s)
  isDir _ := true
  clunk _ s := s
  remove d s := (none, s ++ [d])

def inHome : FsCommander (List Bytes) := ⟨[lit "home"], [], lit "/home"⟩

theorem toWalk_faithful_sibling :
    InternalPath inHome.path ∧ inHome.Faithful (lit "../a") ∧
      (inHome.toWalk (lit "../a")).path = lit "/a" :=
  ⟨by decide, (toWalk_faithful_iff inHome (by decide) (lit "../a")).mpr (by decide), by decide⟩

/-- In `/home`, `rm a\b` removes `/home`, and `rm /../a` the root. -/
theorem rm_wrong_directory :
    InternalPath inHome.path ∧ ¬ inHome.Faithful (lit "a\\b") ∧
      inHome.cmdrm places [lit "a\\b"] [] = (none, [[lit "home"]]) ∧
      ¬ inHome.Faithful (lit "/../a") ∧
      inHome.cmdrm places [lit "/../a"] [] = (none, [[]]) := by
  refine ⟨by decide, fun h => ?_, by decide, fun h => ?_, by decide⟩
  · exact h.1 (by decide) (by decide)
  · exact h.1 (by decide) (by decide)

end FsCommander

end P9p
