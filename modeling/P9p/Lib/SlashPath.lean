/-
# Slash-separated paths

Paths as byte strings whose elements are separated by slashes, with the usual
lexical operations: `clean`, `join`, `dir`.

**Cleaning** goes through the elements from left to right with a stack: empty
elements and `.` are dropped, `..` takes back the element before it, and at the
front of a path it stays, unless the path begins with a slash.

The paths that begin with a slash and that `clean` leaves alone are `root es`
for lists `es` of plain elements (`eq_root_of_clean`); joining two of them puts
the lists one behind the other (`join_root`).  A relative path that is clean
begins with some `..`; behind `root es`, each of them takes back an element
(`join_root_relative`).
-/
import Mathlib.Data.List.Basic

namespace SlashPath

abbrev Str := List UInt8

def slash : UInt8 := 47
def dot : Str := [46]
def dotdot : Str := [46, 46]

/-! ## The operations -/

def isAbs (p : Str) : Bool := p.head? = some slash

/-- One element more on the stack. -/
def push (rooted : Bool) (es : List Str) (e : Str) : List Str :=
  if e = [] ∨ e = dot then es
  else if e = dotdot then
    match es.getLast? with
    | none => if rooted then [] else [dotdot]
    | some l => if l = dotdot then es ++ [dotdot] else es.dropLast
  else es ++ [e]

def elements (p : Str) : List Str := (p.splitOn slash).foldl (push (isAbs p)) []

/-- The path from the root with these elements. -/
def root (es : List Str) : Str := slash :: [slash].intercalate es

def clean (p : Str) : Str :=
  if isAbs p then root (elements p)
  else if elements p = [] then dot
  else [slash].intercalate (elements p)

/-- Empty paths are left out. -/
def join (ps : List Str) : Str :=
  let ps := ps.filter (· ≠ [])
  if ps = [] then [] else clean ([slash].intercalate ps)

/-- Everything up to the last slash, cleaned. -/
def dir (p : Str) : Str := clean (p.reverse.dropWhile (· ≠ slash)).reverse

/-! ## Plain elements -/

/-- An element that stands for itself. -/
structure Plain (e : Str) : Prop where
  ne_nil : e ≠ []
  ne_dot : e ≠ dot
  ne_dotdot : e ≠ dotdot
  slash : slash ∉ e

theorem push_plain {e : Str} (h : Plain e) (rooted : Bool) (es : List Str) :
    push rooted es e = es ++ [e] := by
  rw [push, if_neg (not_or.mpr ⟨h.ne_nil, h.ne_dot⟩), if_neg h.ne_dotdot]

theorem push_nil (rooted : Bool) (es : List Str) : push rooted es [] = es := if_pos (Or.inl rfl)

theorem foldl_push_plain {es : List Str} (h : ∀ e ∈ es, Plain e) (rooted : Bool) (acc : List Str) :
    es.foldl (push rooted) acc = acc ++ es := by
  induction es generalizing acc with
  | nil => exact (List.append_nil acc).symm
  | cons e es ih =>
      obtain ⟨he, hes⟩ := List.forall_mem_cons.mp h
      rw [List.foldl_cons, push_plain he, ih hes, List.append_assoc, List.singleton_append]

/-- On a rooted stack there is no `..`. -/
theorem plain_push {es : List Str} (hes : ∀ e ∈ es, Plain e) {e : Str} (he : slash ∉ e) :
    ∀ e' ∈ push true es e, Plain e' := by
  unfold push
  split
  · exact hes
  · rename_i hne
    obtain ⟨hnil, hdot⟩ := not_or.mp hne
    split
    · cases hlast : es.getLast? with
      | none => exact fun _ h => absurd h List.not_mem_nil
      | some l =>
          have hl := hes l (List.mem_of_getLast? hlast)
          dsimp only
          rw [if_neg hl.ne_dotdot]
          exact fun e' h => hes e' (List.dropLast_subset es h)
    · rename_i hdotdot
      intro e' h
      rcases List.mem_append.mp h with h | h
      · exact hes e' h
      · rw [List.mem_singleton.mp h]
        exact ⟨hnil, hdot, hdotdot, he⟩

theorem plain_foldl_push {xs : List Str} (hxs : ∀ x ∈ xs, slash ∉ x) {acc : List Str}
    (hacc : ∀ e ∈ acc, Plain e) : ∀ e ∈ xs.foldl (push true) acc, Plain e := by
  induction xs generalizing acc with
  | nil => exact hacc
  | cons x xs ih =>
      obtain ⟨hx, hxs⟩ := List.forall_mem_cons.mp hxs
      exact ih hxs (plain_push hacc hx)

theorem slash_notMem_splitOn (p : Str) : ∀ x ∈ p.splitOn slash, slash ∉ x := by
  induction p with
  | nil =>
      intro x hx
      rw [List.splitOn_nil, List.mem_singleton] at hx
      rw [hx]
      exact List.not_mem_nil
  | cons b p ih =>
      rw [List.splitOn_cons_eq_if_modifyHead]
      split
      · exact List.forall_mem_cons.mpr ⟨List.not_mem_nil, ih⟩
      · rename_i hb
        cases hsplit : p.splitOn slash with
        | nil => exact fun _ h => absurd h List.not_mem_nil
        | cons y ys =>
            rw [hsplit] at ih
            obtain ⟨hy, hys⟩ := List.forall_mem_cons.mp ih
            refine List.forall_mem_cons.mpr ⟨?_, hys⟩
            intro h
            rcases List.mem_cons.mp h with h | h
            · exact hb (beq_iff_eq.mpr h.symm)
            · exact hy h

/-- A cleaned path from the root has plain elements. -/
theorem plain_elements {p : Str} (h : isAbs p) : ∀ e ∈ elements p, Plain e := by
  rw [elements, h]
  exact plain_foldl_push (slash_notMem_splitOn p) fun _ h => absurd h List.not_mem_nil

theorem eq_root_of_clean {p : Str} (habs : isAbs p) (h : clean p = p) :
    ∃ es, (∀ e ∈ es, Plain e) ∧ p = root es := by
  refine ⟨elements p, plain_elements habs, ?_⟩
  rw [clean, if_pos habs] at h
  exact h.symm

/-! ## Joining -/

theorem splitOn_root {es : List Str} (h : ∀ e ∈ es, Plain e) (hne : es ≠ []) :
    (root es).splitOn slash = [] :: es := by
  have happ := List.splitOn_append_cons_self [] ([slash].intercalate es) (a := slash)
  rw [List.nil_append, List.splitOn_nil,
    List.splitOn_intercalate slash (fun x hx => (h x hx).slash) hne] at happ
  exact happ

theorem foldl_push_root {es : List Str} (h : ∀ e ∈ es, Plain e) (rooted : Bool) (acc : List Str) :
    ((root es).splitOn slash).foldl (push rooted) acc = acc ++ es := by
  cases es with
  | nil =>
      show [[], []].foldl (push rooted) acc = _
      rw [List.foldl_cons, List.foldl_cons, push_nil, push_nil, List.append_nil]
      rfl
  | cons e es =>
      rw [splitOn_root h (List.cons_ne_nil e es), List.foldl_cons, push_nil, foldl_push_plain h]

theorem join_root {bs es : List Str} (hbs : ∀ e ∈ bs, Plain e) (hes : ∀ e ∈ es, Plain e) :
    join [root bs, root es] = root (bs ++ es) := by
  have hcat : [slash].intercalate [root bs, root es] = root bs ++ slash :: root es := by
    simp [List.intercalate]
  have hsplit := List.splitOn_append_cons_self (root bs) (root es) (a := slash)
  have habs : isAbs (root bs ++ slash :: root es) := rfl
  have hjoin : join [root bs, root es] = clean (root bs ++ slash :: root es) := by
    rw [← hcat]
    rfl
  rw [hjoin, clean, if_pos habs, elements, hsplit, List.foldl_append, foldl_push_root hbs,
    foldl_push_root hes, List.nil_append]

/-! ## Relative paths

A relative path is `../` some number of times, and plain elements.  -/

theorem push_dotdot_relative (m : Nat) :
    push false (List.replicate m dotdot) dotdot = List.replicate (m + 1) dotdot := by
  rw [push, if_neg (by decide), if_pos rfl]
  cases m with
  | zero => rfl
  | succ m =>
      rw [List.getLast?_replicate, if_neg (Nat.succ_ne_zero m)]
      exact (if_pos rfl).trans List.replicate_succ'.symm

theorem foldl_push_dotdot (n m : Nat) :
    (List.replicate n dotdot).foldl (push false) (List.replicate m dotdot) =
      List.replicate (m + n) dotdot := by
  induction n generalizing m with
  | zero => rfl
  | succ n ih =>
      rw [List.replicate_succ, List.foldl_cons, push_dotdot_relative, ih, Nat.add_right_comm]
      rfl

/-- Each `..` takes back an element. -/
theorem foldl_push_back {bs : List Str} (hbs : ∀ e ∈ bs, Plain e) {n : Nat} (hn : n ≤ bs.length) :
    (List.replicate n dotdot).foldl (push true) bs = bs.take (bs.length - n) := by
  induction n generalizing bs with
  | zero => rw [Nat.sub_zero, List.take_length]; rfl
  | succ n ih =>
      have hne : bs ≠ [] := List.ne_nil_of_length_pos (Nat.lt_of_lt_of_le (Nat.succ_pos n) hn)
      have hpush : push true bs dotdot = bs.dropLast := by
        have hlast := hbs _ (List.getLast_mem hne)
        rw [push, if_neg (by decide), if_pos rfl, List.getLast?_eq_some_getLast hne]
        exact if_neg hlast.ne_dotdot
      rw [List.replicate_succ, List.foldl_cons, hpush,
        ih (fun e he => hbs e (List.dropLast_subset bs he)) (by rw [List.length_dropLast]; omega),
        List.length_dropLast, List.dropLast_eq_take, List.take_take]
      congr 1
      omega

section Relative

variable {n : Nat} {bs es : List Str}

theorem mem_relative (hes : ∀ e ∈ es, Plain e) :
    ∀ e ∈ List.replicate n dotdot ++ es, e ≠ [] ∧ slash ∉ e := by
  intro e he
  rcases List.mem_append.mp he with he | he
  · rw [List.eq_of_mem_replicate he]
    decide
  · exact ⟨(hes e he).ne_nil, (hes e he).slash⟩

theorem isAbs_intercalate {xs : List Str} (h : ∀ x ∈ xs, x ≠ [] ∧ slash ∉ x) :
    isAbs ([slash].intercalate xs) = false := by
  cases xs with
  | nil => rfl
  | cons x xs =>
      obtain ⟨hne, hslash⟩ := h x List.mem_cons_self
      cases x with
      | nil => exact absurd rfl hne
      | cons b x =>
          have hb : b ≠ slash := fun heq => hslash (heq ▸ List.mem_cons_self)
          have hhead : ([slash].intercalate ((b :: x) :: xs)).head? = some b := by
            cases xs <;> rfl
          rw [isAbs, hhead]
          exact decide_eq_false fun heq => hb (Option.some.inj heq)

/-- A relative path is clean. -/
theorem join_relative (hes : ∀ e ∈ es, Plain e) :
    join (List.replicate n dotdot ++ es) = [slash].intercalate (List.replicate n dotdot ++ es) := by
  have hmem := mem_relative (n := n) hes
  have hfilter : (List.replicate n dotdot ++ es).filter (· ≠ []) = List.replicate n dotdot ++ es :=
    List.filter_eq_self.mpr fun e he => decide_eq_true (hmem e he).1
  rw [join, hfilter]
  split
  · rename_i hnil
    rw [hnil]
    rfl
  · rename_i hne
    have hsplit := List.splitOn_intercalate slash (fun x hx => (hmem x hx).2) hne
    have helements : elements ([slash].intercalate (List.replicate n dotdot ++ es)) =
        List.replicate n dotdot ++ es := by
      have hdots := foldl_push_dotdot n 0
      rw [Nat.zero_add] at hdots
      rw [elements, isAbs_intercalate hmem, hsplit, List.foldl_append]
      exact (congrArg (es.foldl (push false)) hdots).trans (foldl_push_plain hes false _)
    rw [clean, isAbs_intercalate hmem, if_neg Bool.false_ne_true, helements, if_neg hne]

/-- A relative path from a place: back, and down. -/
theorem join_root_relative (hbs : ∀ e ∈ bs, Plain e) (hes : ∀ e ∈ es, Plain e)
    (hn : n ≤ bs.length) :
    join [root bs, [slash].intercalate (List.replicate n dotdot ++ es)] =
      root (bs.take (bs.length - n) ++ es) := by
  have hmem := mem_relative (n := n) hes
  by_cases hne : List.replicate n dotdot ++ es = []
  · obtain ⟨hdots, rfl⟩ := List.append_eq_nil_iff.mp hne
    obtain rfl : n = 0 := List.replicate_eq_nil_iff _ |>.mp hdots
    have hjoin : join [root bs, [slash].intercalate (List.replicate 0 dotdot ++ [])] =
        clean ([slash].intercalate [root bs]) := rfl
    have hcat : [slash].intercalate [root bs] = root bs := by
      simp [List.intercalate]
    have habs : isAbs (root bs) := rfl
    rw [hjoin, hcat, clean, if_pos habs, elements, foldl_push_root hbs, List.nil_append,
      Nat.sub_zero, List.take_length, List.append_nil]
  · have hsplit := List.splitOn_intercalate slash (fun x hx => (hmem x hx).2) hne
    generalize hrel : [slash].intercalate (List.replicate n dotdot ++ es) = rel at hsplit ⊢
    have hrelne : rel ≠ [] := by
      rintro rfl
      rw [List.splitOn_nil] at hsplit
      have hnil := hmem [] (hsplit ▸ List.mem_singleton_self [])
      exact hnil.1 rfl
    have hcat : [slash].intercalate [root bs, rel] = root bs ++ slash :: rel := by
      simp [List.intercalate]
    have hfilter : [root bs, rel].filter (· ≠ []) = [root bs, rel] :=
      List.filter_eq_self.mpr fun e he => by
        rcases List.mem_cons.mp he with rfl | he
        · exact decide_eq_true (List.cons_ne_nil _ _)
        · rw [List.mem_singleton.mp he]
          exact decide_eq_true hrelne
    have hjoin : join [root bs, rel] = clean (root bs ++ slash :: rel) := by
      rw [join, hfilter, ← hcat]
      rfl
    have habs : isAbs (root bs ++ slash :: rel) := rfl
    have happ := List.splitOn_append_cons_self (root bs) rel (a := slash)
    rw [hjoin, clean, if_pos habs, elements, happ, List.foldl_append, habs, foldl_push_root hbs,
      hsplit, List.foldl_append, List.nil_append, foldl_push_back hbs hn, foldl_push_plain hes]

theorem root_eq_flatMap (hne : bs ≠ []) : root bs = bs.flatMap (slash :: ·) := by
  induction bs with
  | nil => exact absurd rfl hne
  | cons b bs ih =>
      cases bs with
      | nil => simp [root, List.intercalate]
      | cons b' bs =>
          rw [List.flatMap_cons, ← ih (List.cons_ne_nil b' bs)]
          simp [root, List.intercalate]

theorem mem_root {b : UInt8} : b ∈ root bs ↔ b = slash ∨ ∃ e ∈ bs, b ∈ e := by
  by_cases hne : bs = []
  · subst hne
    exact List.mem_singleton.trans ⟨Or.inl, fun h => h.resolve_right fun ⟨_, h, _⟩ => nomatch h⟩
  · rw [root_eq_flatMap hne, List.mem_flatMap]
    constructor
    · rintro ⟨e, he, hb⟩
      exact (List.mem_cons.mp hb).imp_right fun hb => ⟨e, he, hb⟩
    · rintro (rfl | ⟨e, he, hb⟩)
      · obtain ⟨e, he⟩ := List.exists_mem_of_ne_nil bs hne
        exact ⟨e, he, List.mem_cons_self⟩
      · exact ⟨e, he, List.mem_cons_of_mem _ hb⟩

theorem count_slash_flatMap (hbs : ∀ e ∈ bs, Plain e) :
    (bs.flatMap (slash :: ·)).count slash = bs.length := by
  induction bs with
  | nil => rfl
  | cons b bs ih =>
      obtain ⟨hb, hbs⟩ := List.forall_mem_cons.mp hbs
      rw [List.flatMap_cons, List.count_append, List.count_cons_self,
        List.count_eq_zero_of_not_mem hb.slash, ih hbs, List.length_cons]
      omega

/-- The slashes of a path, but for one at its end, are as many as its
elements. -/
theorem count_slash_root (hbs : ∀ e ∈ bs, Plain e) :
    (root bs).dropLast.count slash = bs.length := by
  rcases List.eq_nil_or_concat' bs with rfl | ⟨init, l, rfl⟩
  · rfl
  · have hl := hbs l (List.mem_append_right _ (List.mem_singleton_self l))
    have hinit : ∀ e ∈ init, Plain e := fun e he => hbs e (List.mem_append_left _ he)
    obtain ⟨l', c, rfl⟩ := (List.eq_nil_or_concat' l).resolve_left hl.ne_nil
    have hl' : slash ∉ l' := fun hmem => hl.slash (List.mem_append_left _ hmem)
    have hroot : root (init ++ [l' ++ [c]]) = init.flatMap (slash :: ·) ++ slash :: l' ++ [c] := by
      rw [root_eq_flatMap (List.append_ne_nil_of_right_ne_nil _ (List.cons_ne_nil _ _))]
      simp
    rw [hroot, List.dropLast_concat, List.count_append, count_slash_flatMap hinit,
      List.count_cons_self, List.count_eq_zero_of_not_mem hl', List.length_append,
      List.length_singleton]

/-- The elements of a path, as they stand between the slashes. -/
theorem filter_splitOn_root (hbs : ∀ e ∈ bs, Plain e) :
    ((root bs).splitOn slash).filter (· ≠ []) = bs := by
  cases bs with
  | nil => rfl
  | cons b bs =>
      rw [splitOn_root hbs (List.cons_ne_nil b bs)]
      exact List.filter_eq_self.mpr fun e he => decide_eq_true (hbs e he).ne_nil

end Relative

end SlashPath
