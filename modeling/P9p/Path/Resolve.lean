/-
# `P9p.Path.Resolve` — what names mean

From a directory, given by the elements of its path, a list of names leads down
and back: `""` and `"."` do nothing, `".."` goes back, any other name down
(`resolve`).  It fails where `".."` would go back from the root.

**Normalising** keeps this meaning, failures included (`normalizePath_sound`).
The loop keeps the normal form of the elements it has seen, as the leading
`".."` and the elements behind them.

**Internal paths** begin with a slash and have plain elements, without
backslashes.  From one of these, `WalkName` goes where its names lead, and
nowhere else, and the result is an internal path again (`walkName_createName`).
-/
import P9p.Lib.Backtrack
import P9p.Path

namespace P9p

open Backtrack

/-! ## Names as moves -/

def move? (s : Bytes) : Option (Move Bytes) :=
  if s = [] ∨ s = lit "." then none
  else if s = lit ".." then some .back
  else some (.down s)

/-- Where names lead, from the directory with the elements `st`. -/
def resolve (st names : List Bytes) : Option (List Bytes) := run st (names.filterMap move?)

/-- A normal form, as names. -/
def relNames (r : Rel Bytes) : List Bytes := List.replicate r.up (lit "..") ++ r.down

/-- The normal form of names. -/
def relOf (names : List Bytes) : Rel Bytes := Rel.ofWord (names.filterMap move?)

theorem Element.move? {s : Bytes} (h : Element s) : move? s = some (.down s) := by
  rw [P9p.move?, if_neg (not_or.mpr ⟨h.ne_nil, h.ne_dot⟩), if_neg h.ne_dotdot]

theorem element_of_move? {s e : Bytes} (h : move? s = some (.down e))
    (hs : (s.any fun b => b ∈ lit "\\/") = false) : Element e := by
  rw [move?] at h
  split at h
  · cases h
  · rename_i hskip
    obtain ⟨hnil, hdot⟩ := not_or.mp hskip
    split at h
    · cases h
    · rename_i hback
      cases h
      exact ⟨hnil, hdot, hback, hs⟩

theorem filterMap_relNames {r : Rel Bytes} (h : ∀ s ∈ r.down, Element s) :
    (relNames r).filterMap move? = r.word := by
  have hdots : (List.replicate r.up (lit "..")).filterMap move? = List.replicate r.up .back :=
    List.filterMap_replicate_of_some rfl
  have hdown : r.down.filterMap move? = r.down.map .down := by
    rw [← List.filterMap_eq_map]
    exact List.filterMap_congr fun s hs => (h s hs).move?
  rw [relNames, List.filterMap_append, hdots, hdown, Rel.word]

/-! ## `NormalizePath` -/

section Normalize

variable {names : List Bytes} {r : Rel Bytes}

theorem normalizePathFrom_separator {ans : List Bytes} {lo : Nat}
    (h : ∃ s ∈ names, (s.any fun b => b ∈ lit "\\/") = true) :
    normalizePathFrom ans lo names = ([], -1) := by
  induction names generalizing ans lo with
  | nil =>
      obtain ⟨s, hs, -⟩ := h
      cases hs
  | cons s names ih =>
      rw [normalizePathFrom]
      by_cases hsep : (s.any fun b => b ∈ lit "\\/") = true
      · rw [if_pos hsep]
      · have hrest : ∃ s ∈ names, (s.any fun b => b ∈ lit "\\/") = true := by
          obtain ⟨s', hs', hsep'⟩ := h
          rcases List.mem_cons.mp hs' with rfl | hs'
          · exact absurd hsep' hsep
          · exact ⟨s', hs', hsep'⟩
        rw [if_neg hsep, ih hrest, ih hrest, ih hrest, ih hrest, ite_self, ite_self, ite_self]

/-- The loop takes one normal form to the next. -/
theorem normalizePathFrom_relNames (h : ∀ s ∈ names, (s.any fun b => b ∈ lit "\\/") = false) :
    normalizePathFrom (relNames r) r.up names =
      (relNames ((names.filterMap move?).foldl Rel.snoc r),
        (((names.filterMap move?).foldl Rel.snoc r).up : Int)) := by
  induction names generalizing r with
  | nil => rfl
  | cons s names ih =>
      obtain ⟨hs, hnames⟩ := List.forall_mem_cons.mp h
      have hlen : (relNames r).length = r.up + r.down.length := by
        rw [relNames, List.length_append, List.length_replicate]
      have hskip_iff : s.length = 0 ∨ s = lit "." ↔ s = [] ∨ s = lit "." := by
        rw [List.length_eq_zero_iff]
      rw [normalizePathFrom, if_neg (Bool.eq_false_iff.mp hs)]
      by_cases hskip : s = [] ∨ s = lit "."
      · have hmove : move? s = none := if_pos hskip
        rw [if_pos (hskip_iff.mpr hskip), ih hnames, List.filterMap_cons_none hmove]
      · rw [if_neg (mt hskip_iff.mp hskip)]
        by_cases hback : s = lit ".."
        · have hmove : move? s = some .back := (if_neg hskip).trans (if_pos hback)
          rw [if_pos hback, List.filterMap_cons_some hmove, List.foldl_cons]
          by_cases hdown : r.down = []
          · -- nothing to take back: this `..` is one of the leading ones
            have hsnoc : r.snoc .back = ⟨r.up + 1, []⟩ := if_pos hdown
            have happend : relNames r ++ [s] = relNames ⟨r.up + 1, []⟩ := by
              rw [relNames, hdown, hback, relNames, List.append_nil, List.append_nil,
                List.replicate_succ']
            rw [if_neg (by rw [hlen, hdown, List.length_nil]; omega), happend, hsnoc]
            exact ih hnames
          · have hsnoc : r.snoc .back = ⟨r.up, r.down.dropLast⟩ := if_neg hdown
            have hdrop : (relNames r).dropLast = relNames ⟨r.up, r.down.dropLast⟩ :=
              List.dropLast_append_of_ne_nil hdown
            have hpos := List.length_pos_of_ne_nil hdown
            rw [if_pos (by omega), hdrop, hsnoc]
            exact ih hnames
        · have hmove : move? s = some (.down s) := (if_neg hskip).trans (if_neg hback)
          have happend : relNames r ++ [s] = relNames (r.snoc (.down s)) :=
            List.append_assoc _ _ _
          rw [if_neg hback, happend, List.filterMap_cons_some hmove, List.foldl_cons]
          exact ih hnames

theorem noSeparator (h : ¬ ∃ s ∈ names, (s.any fun b => b ∈ lit "\\/") = true) :
    ∀ s ∈ names, (s.any fun b => b ∈ lit "\\/") = false :=
  fun s hs => Bool.eq_false_iff.mpr fun hsep => h ⟨s, hs, hsep⟩

theorem normalizePath_rel (h : ∀ s ∈ names, (s.any fun b => b ∈ lit "\\/") = false) :
    normalizePath names = (relNames (relOf names), ((relOf names).up : Int)) :=
  normalizePathFrom_relNames (r := ⟨0, []⟩) h

theorem foldl_snoc_elements (h : ∀ s ∈ names, (s.any fun b => b ∈ lit "\\/") = false)
    (hr : ∀ s ∈ r.down, Element s) :
    ∀ s ∈ ((names.filterMap move?).foldl Rel.snoc r).down, Element s := by
  induction names generalizing r with
  | nil => exact hr
  | cons s names ih =>
      obtain ⟨hs, hnames⟩ := List.forall_mem_cons.mp h
      rw [List.filterMap_cons]
      cases hmove : move? s with
      | none => exact ih hnames hr
      | some m =>
          refine ih hnames fun e he => (Rel.mem_snoc he).elim (hr e) ?_
          rintro rfl
          exact element_of_move? hmove hs

theorem relOf_elements (h : ∀ s ∈ names, (s.any fun b => b ∈ lit "\\/") = false) :
    ∀ s ∈ (relOf names).down, Element s :=
  foldl_snoc_elements h (List.forall_mem_nil _)

theorem relOf_relNames (h : ∀ s ∈ r.down, Element s) : relOf (relNames r) = r := by
  rw [relOf, filterMap_relNames h, ofWord_word]

theorem resolve_normal (h : ∀ s ∈ r.down, Element s) (st : List Bytes) :
    resolve st (relNames r) = r.apply st := by
  rw [resolve, run_eq_apply, ← relOf, relOf_relNames h]

/-- The normal form leads where the names lead. -/
theorem resolve_relNames (h : ∀ s ∈ names, (s.any fun b => b ∈ lit "\\/") = false)
    (st : List Bytes) : resolve st (relNames (relOf names)) = resolve st names := by
  rw [resolve_normal (relOf_elements h), resolve, run_eq_apply, relOf]

theorem separator_relNames (h : ∀ s ∈ r.down, Element s) :
    ∀ s ∈ relNames r, (s.any fun b => b ∈ lit "\\/") = false := by
  intro s hs
  rcases List.mem_append.mp hs with hs | hs
  · rw [List.eq_of_mem_replicate hs]
    decide
  · exact (h s hs).separator

theorem normalizePath_idem {steps : List Bytes} {bsp : Int}
    (h : normalizePath names = (steps, bsp)) (hbsp : 0 ≤ bsp) :
    normalizePath steps = (steps, bsp) := by
  by_cases hsep : ∃ s ∈ names, (s.any fun b => b ∈ lit "\\/") = true
  · have herr : normalizePath names = ([], -1) := normalizePathFrom_separator hsep
    cases herr.symm.trans h
    exact absurd hbsp (by decide)
  · have helements := relOf_elements (noSeparator hsep)
    cases (normalizePath_rel (noSeparator hsep)).symm.trans h
    rw [normalizePath_rel (separator_relNames helements), relOf_relNames helements]

/-- A separator is seen among the moves too. -/
theorem separator_moves : (∃ s ∈ names, (s.any fun b => b ∈ lit "\\/") = true) ↔
    ∃ s, Move.down s ∈ names.filterMap move? ∧ (s.any fun b => b ∈ lit "\\/") = true := by
  constructor
  · rintro ⟨s, hs, hsep⟩
    refine ⟨s, List.mem_filterMap.mpr ⟨s, hs, ?_⟩, hsep⟩
    rw [move?, if_neg, if_neg]
    · rintro rfl
      exact absurd hsep (by decide)
    · rintro (rfl | rfl)
      · cases hsep
      · exact absurd hsep (by decide)
  · rintro ⟨e, he, hsep⟩
    obtain ⟨s, hs, hmove⟩ := List.mem_filterMap.mp he
    refine ⟨s, hs, ?_⟩
    by_contra hnot
    exact absurd hsep (Bool.eq_false_iff.mp
      (element_of_move? hmove (Bool.eq_false_iff.mpr hnot)).separator)

/-- `NormalizePath` sees the moves only. -/
theorem normalizePath_congr {names' : List Bytes}
    (h : names.filterMap move? = names'.filterMap move?) :
    normalizePath names = normalizePath names' := by
  by_cases hsep : ∃ s ∈ names, (s.any fun b => b ∈ lit "\\/") = true
  · have hsep' : ∃ s ∈ names', (s.any fun b => b ∈ lit "\\/") = true := by
      rwa [separator_moves, ← h, ← separator_moves]
    exact (normalizePathFrom_separator hsep).trans (normalizePathFrom_separator hsep').symm
  · have hsep' : ¬ ∃ s ∈ names', (s.any fun b => b ∈ lit "\\/") = true := by
      rwa [separator_moves, ← h, ← separator_moves]
    rw [normalizePath_rel (noSeparator hsep), normalizePath_rel (noSeparator hsep'), relOf, h,
      relOf]

end Normalize

/-- **`NormalizePath`** refuses separators and nothing else.  What it returns is
valid, normalised, and leads where the names lead. -/
theorem normalizePath_sound (names : List Bytes) :
    ((normalizePath names).2 = -1 ↔
        ∃ s ∈ names, (s.any fun b => b ∈ lit "\\/") = true) ∧
      ((normalizePath names).2 ≠ -1 →
        0 ≤ (normalizePath names).2 ∧
        validPath (normalizePath names).1 = (normalizePath names).2 ∧
        (∃ rest, (normalizePath names).1 =
            List.replicate (normalizePath names).2.toNat (lit "..") ++ rest ∧
          ∀ s ∈ rest, Element s) ∧
        normalizePath (normalizePath names).1 = normalizePath names ∧
        ∀ st, resolve st (normalizePath names).1 = resolve st names) := by
  by_cases hsep : ∃ s ∈ names, (s.any fun b => b ∈ lit "\\/") = true
  · have herr : normalizePath names = ([], -1) := normalizePathFrom_separator hsep
    rw [herr]
    exact ⟨⟨fun _ => hsep, fun _ => rfl⟩, fun h => absurd rfl h⟩
  · have hnone := noSeparator hsep
    have helements := relOf_elements hnone
    have hsteps := normalizePath_idem (normalizePath_rel hnone) (Int.natCast_nonneg _)
    rw [normalizePath_rel hnone]
    refine ⟨⟨fun h => absurd h (by omega), fun h => absurd h hsep⟩, fun _ => ?_⟩
    exact ⟨Int.natCast_nonneg _, validPath_eq helements, ⟨_, rfl, helements⟩, hsteps,
      resolve_relNames hnone⟩

/-! ## Internal paths -/

/-- A slash first, no backslash, and no element that is empty, `"."` or `".."`. -/
def InternalPath (p : Bytes) : Prop :=
  p.head? = some SlashPath.slash ∧ 92 ∉ p ∧
    (p = [SlashPath.slash] ∨ ∀ e ∈ p.tail.splitOn SlashPath.slash,
      e ≠ [] ∧ e ≠ lit "." ∧ e ≠ lit "..")

instance (p : Bytes) : Decidable (InternalPath p) := inferInstanceAs (Decidable (_ ∧ _ ∧ _))

section Internal

variable {es : List Bytes}

theorem separator_iff {s : Bytes} :
    (s.any fun b => b ∈ lit "\\/") = false ↔ 92 ∉ s ∧ SlashPath.slash ∉ s := by
  have hmem : ∀ b : UInt8, b ∈ lit "\\/" ↔ b = 92 ∨ b = SlashPath.slash := by
    intro b
    show b ∈ [92, SlashPath.slash] ↔ _
    rw [List.mem_cons, List.mem_singleton]
  rw [List.any_eq_false]
  constructor
  · exact fun h => ⟨fun hs => h _ hs (decide_eq_true ((hmem _).mpr (Or.inl rfl))),
      fun hs => h _ hs (decide_eq_true ((hmem _).mpr (Or.inr rfl)))⟩
  · rintro ⟨hback, hslash⟩ b hb h
    rcases (hmem b).mp (of_decide_eq_true h) with rfl | rfl
    · exact hback hb
    · exact hslash hb

theorem internalPath_root (hes : ∀ e ∈ es, Element e) : InternalPath (SlashPath.root es) := by
  refine ⟨rfl, ?_, ?_⟩
  · intro hmem
    rcases SlashPath.mem_root.mp hmem with h | ⟨e, he, h⟩
    · exact absurd h (by decide)
    · exact (separator_iff.mp (hes e he).separator).1 h
  · by_cases hnil : es = []
    · exact Or.inl (hnil ▸ rfl)
    · right
      have hsplit := List.splitOn_intercalate SlashPath.slash
        (fun e he => (hes e he).plain.slash) hnil
      rw [SlashPath.root, List.tail_cons, hsplit]
      exact fun e he => ⟨(hes e he).ne_nil, (hes e he).ne_dot, (hes e he).ne_dotdot⟩

/-- The internal paths are those from the root by names of files. -/
theorem internalPath_iff {p : Bytes} :
    InternalPath p ↔ ∃ es, (∀ e ∈ es, Element e) ∧ p = SlashPath.root es := by
  constructor
  · rintro ⟨hhead, hback, helements⟩
    obtain ⟨q, rfl⟩ := List.head?_eq_some_iff.mp hhead
    rcases helements with h | h
    · exact ⟨[], List.forall_mem_nil _, h⟩
    · have hroot : SlashPath.slash :: q = SlashPath.root (q.splitOn SlashPath.slash) := by
        rw [SlashPath.root, List.intercalate_splitOn]
      refine ⟨_, fun e he => ?_, hroot⟩
      obtain ⟨hnil, hdot, hdotdot⟩ := h e he
      refine ⟨hnil, hdot, hdotdot, separator_iff.mpr ⟨fun hmem => hback ?_, ?_⟩⟩
      · rw [hroot]
        exact SlashPath.mem_root.mpr (Or.inr ⟨e, he, hmem⟩)
      · exact SlashPath.slash_notMem_splitOn q e he
  · rintro ⟨es, hes, rfl⟩
    exact internalPath_root hes

theorem createName_element {name : Bytes} (h : Element name) :
    ∃ path, createName (SlashPath.root es) name = .ok path := by
  refine ⟨_, if_neg ?_⟩
  have hlen : name.length ≠ 0 := fun heq => h.ne_nil (List.length_eq_zero_iff.mp heq)
  exact not_or.mpr ⟨Bool.eq_false_iff.mp h.separator,
    not_or.mpr ⟨hlen, not_or.mpr ⟨h.ne_dot, h.ne_dotdot⟩⟩⟩

/-- From an internal path, `WalkName` does to the elements what a normal form
says. -/
theorem walkName_relNames (hes : ∀ e ∈ es, Element e) {r : Rel Bytes}
    (hr : ∀ s ∈ r.down, Element s) :
    walkName (SlashPath.root es) (relNames r) =
      match r.apply es with
      | some es' => .ok (SlashPath.root es')
      | none => .error (.rerror (lit "Invalid path")) := by
  have hplain : ∀ e ∈ es, SlashPath.Plain e := fun e he => (hes e he).plain
  rw [Rel.apply]
  by_cases hle : r.up ≤ es.length
  · rw [if_pos hle]
    exact walkName_root hplain hr hle
  · rw [if_neg hle]
    exact walkName_beyond hplain hr (Nat.not_le.mp hle)

end Internal

/-- **`WalkName` and `CreateName`** succeed where the names lead to a place in the
tree, and then return its path. -/
theorem walkName_createName (dir : Bytes) (hdir : InternalPath dir) :
    ∃ es, (∀ e ∈ es, Element e) ∧ dir = SlashPath.root es ∧
      (∀ names,
        ((∃ path, walkName dir names = .ok path) ↔
          0 ≤ validPath names ∧ validPath names ≤ es.length) ∧
        ∀ path, walkName dir names = .ok path →
          path = SlashPath.root (es.take (es.length - (validPath names).toNat) ++
            names.drop (validPath names).toNat) ∧
          InternalPath path) ∧
      ∀ name,
        ((∃ path, createName dir name = .ok path) ↔ Element name) ∧
        ∀ path, createName dir name = .ok path →
          path = SlashPath.root (es ++ [name]) ∧ InternalPath path := by
  obtain ⟨es, hes, rfl⟩ := internalPath_iff.mp hdir
  have hplain : ∀ e ∈ es, SlashPath.Plain e := fun e he => (hes e he).plain
  refine ⟨es, hes, rfl, fun names => ?_, fun name => ?_⟩
  · by_cases hvalid : 0 ≤ validPath names
    · obtain ⟨k, rest, rfl, hrest⟩ := validPath_inv hvalid
      have hdrop : (List.replicate k (lit "..") ++ rest).drop k = rest :=
        List.drop_left' List.length_replicate
      rw [validPath_eq hrest, Int.toNat_natCast, hdrop]
      by_cases hk : k ≤ es.length
      · have hok := walkName_root hplain hrest hk
        refine ⟨⟨fun _ => ⟨Int.natCast_nonneg k, Int.ofNat_le.mpr hk⟩, fun _ => ⟨_, hok⟩⟩, ?_⟩
        intro path hpath
        cases hok.symm.trans hpath
        refine ⟨rfl, internalPath_root fun e he => ?_⟩
        exact (List.mem_append.mp he).elim (fun he => hes e (List.mem_of_mem_take he)) (hrest e)
      · have herr := walkName_beyond hplain hrest (Nat.not_le.mp hk)
        refine ⟨⟨?_, fun h => absurd (Int.ofNat_le.mp h.2) hk⟩, ?_⟩
        · rintro ⟨path, hpath⟩
          cases herr.symm.trans hpath
        · intro path hpath
          cases herr.symm.trans hpath
    · have herr : walkName (SlashPath.root es) names = _ := walkName_invalid (Int.not_le.mp hvalid)
      refine ⟨⟨?_, fun h => absurd h.1 hvalid⟩, ?_⟩
      · rintro ⟨path, hpath⟩
        cases herr.symm.trans hpath
      · intro path hpath
        cases herr.symm.trans hpath
  · refine ⟨⟨?_, createName_element⟩, fun path hpath => ?_⟩
    · rintro ⟨path, hpath⟩
      exact (createName_root hplain hpath).1
    · obtain ⟨hname, rfl⟩ := createName_root hplain hpath
      refine ⟨rfl, internalPath_root fun e he => ?_⟩
      rcases List.mem_append.mp he with he | he
      · exact hes e he
      · rw [List.mem_singleton.mp he]
        exact hname

/-- From `/a/b` back and down to `c`. -/
theorem walkName_createName_sibling :
    InternalPath (lit "/a/b") ∧ walkName (lit "/a/b") [lit "..", lit "c"] = .ok (lit "/a/c") ∧
      InternalPath (lit "/a/c") := by
  have hdir : InternalPath (lit "/a/b") := by decide
  have hwalk : walkName (lit "/a/b") [lit "..", lit "c"] = .ok (lit "/a/c") := by decide
  obtain ⟨es, -, -, hnames, -⟩ := walkName_createName (lit "/a/b") hdir
  exact ⟨hdir, hwalk, ((hnames _).2 _ hwalk).2⟩

end P9p
