/-
# Path elements (`path.go`)

`ValidPath` decides whether the names of a walk are normalised: no element is
empty, `"."` or contains a separator, and every `".."` comes before all other
elements.  `NormalizePath` makes them so.  `WalkName` and `CreateName` go from
the path of a directory to that of a file.
-/
import P9p.Lib.SlashPath
import P9p.Types

namespace P9p

/-- The loop of `ValidPath`, at element `i` with `n` leading `".."` so far. -/
def validPathFrom (i n : Nat) : List Bytes → Int
  | [] => n
  | s :: rest =>
      if s.length = 0 ∨ s = lit "." then -1
      else if s = lit ".." then
        if n ≠ i then -1 else validPathFrom (i + 1) (n + 1) rest
      else if s.any fun b => b ∈ lit "\\/" then -1
      else validPathFrom (i + 1) n rest

/-- `ValidPath`: -1, or the number of leading `".."` elements. -/
def validPath (args : List Bytes) : Int := validPathFrom 0 0 args

/-- The loop of `NormalizePath`: `ans` are the elements below the cursor, `lo`
of them `".."`. -/
def normalizePathFrom (ans : List Bytes) (lo : Nat) : List Bytes → List Bytes × Int
  | [] => (ans, lo)
  | s :: rest =>
      if s.any fun b => b ∈ lit "\\/" then ([], -1)
      else if s.length = 0 ∨ s = lit "." then normalizePathFrom ans lo rest
      else if s = lit ".." then
        if ans.length > lo then normalizePathFrom ans.dropLast lo rest
        else normalizePathFrom (ans ++ [s]) (lo + 1) rest
      else normalizePathFrom (ans ++ [s]) lo rest

/-- `NormalizePath`: the path, and -1 or the number of leading `".."`. -/
def normalizePath (args : List Bytes) : List Bytes × Int := normalizePathFrom [] 0 args

/-- `WalkName`, for a path that is not empty. -/
def walkName (dir : Bytes) (names : List Bytes) : Except Err Bytes :=
  let depth := dir.dropLast.count SlashPath.slash
  let bsp := validPath names
  if bsp < 0 ∨ bsp > depth then .error (.rerror (lit "Invalid path"))
  else .ok (SlashPath.join [dir, SlashPath.join names])

def createName (dir name : Bytes) : Except Err Bytes :=
  if (name.any fun b => b ∈ lit "\\/") ∨ name.length = 0 ∨ name = lit "." ∨ name = lit ".." then
    .error (.rerror (lit "Invalid path"))
  else .ok (SlashPath.join [dir, name])

/-! ## Valid names

The names that `ValidPath` accepts are `".."` some number of times, and
elements.  -/

/-- A name of a file. -/
structure Element (s : Bytes) : Prop where
  ne_nil : s ≠ []
  ne_dot : s ≠ lit "."
  ne_dotdot : s ≠ lit ".."
  separator : (s.any fun b => b ∈ lit "\\/") = false

theorem Element.plain {s : Bytes} (h : Element s) : SlashPath.Plain s where
  ne_nil := h.ne_nil
  ne_dot := h.ne_dot
  ne_dotdot := h.ne_dotdot
  slash hmem := by
    have hnot := List.any_eq_false.mp h.separator SlashPath.slash hmem
    exact hnot (by decide)

section ValidPath

variable {names rest : List Bytes} {k : Nat} {bs : List Bytes}

theorem validPathFrom_elements (hrest : ∀ s ∈ rest, Element s) (i n : Nat) :
    validPathFrom i n rest = n := by
  induction rest generalizing i with
  | nil => rfl
  | cons s rest ih =>
      obtain ⟨hs, hrest⟩ := List.forall_mem_cons.mp hrest
      have hlen : s.length ≠ 0 := fun h => hs.ne_nil (List.length_eq_zero_iff.mp h)
      rw [validPathFrom, if_neg (not_or.mpr ⟨hlen, hs.ne_dot⟩), if_neg hs.ne_dotdot,
        if_neg (Bool.eq_false_iff.mp hs.separator), ih hrest]

theorem validPathFrom_dots (hrest : ∀ s ∈ rest, Element s) (i : Nat) :
    validPathFrom i i (List.replicate k (lit "..") ++ rest) = (i + k : Nat) := by
  induction k generalizing i with
  | zero => exact validPathFrom_elements hrest i i
  | succ k ih =>
      rw [List.replicate_succ, List.cons_append, validPathFrom, if_neg (by decide), if_pos rfl,
        if_neg (not_not_intro rfl), ih, Nat.add_right_comm]
      rfl

theorem validPath_eq (hrest : ∀ s ∈ rest, Element s) :
    validPath (List.replicate k (lit "..") ++ rest) = k := by
  rw [validPath, validPathFrom_dots hrest, Nat.zero_add]

theorem validPathFrom_inv {i n : Nat} (hn : n ≤ i) (h : 0 ≤ validPathFrom i n names) :
    ∃ k rest, names = List.replicate k (lit "..") ++ rest ∧ (∀ s ∈ rest, Element s) ∧
      (n ≠ i → k = 0) := by
  induction names generalizing i n with
  | nil => exact ⟨0, [], rfl, nofun, fun _ => rfl⟩
  | cons s names ih =>
      rw [validPathFrom] at h
      split at h
      · exact absurd h (by decide)
      · rename_i hs
        obtain ⟨hlen, hdot⟩ := not_or.mp hs
        split at h
        · rename_i hdotdot
          split at h
          · exact absurd h (by decide)
          · rename_i heq
            obtain ⟨k, rest, rfl, hrest, -⟩ := ih (Nat.succ_le_succ hn) h
            refine ⟨k + 1, rest, ?_, hrest, fun hne => absurd hne heq⟩
            rw [hdotdot, List.replicate_succ, List.cons_append]
        · rename_i hdotdot
          split at h
          · exact absurd h (by decide)
          · rename_i hsep
            obtain ⟨k, rest, rfl, hrest, hk⟩ := ih (Nat.le_succ_of_le hn) h
            obtain rfl := hk (Nat.ne_of_lt (Nat.lt_succ_of_le hn))
            have hel : Element s :=
              ⟨fun h => hlen (h ▸ rfl), hdot, hdotdot, Bool.eq_false_iff.mpr hsep⟩
            exact ⟨0, s :: rest, rfl, List.forall_mem_cons.mpr ⟨hel, hrest⟩, fun _ => rfl⟩

/-- What `ValidPath` accepts. -/
theorem validPath_inv (h : 0 ≤ validPath names) :
    ∃ k rest, names = List.replicate k (lit "..") ++ rest ∧ ∀ s ∈ rest, Element s := by
  obtain ⟨k, rest, hnames, hrest, -⟩ := validPathFrom_inv (Nat.le_refl 0) h
  exact ⟨k, rest, hnames, hrest⟩

/-- `WalkName` goes back and down. -/
theorem walkName_root (hbs : ∀ e ∈ bs, SlashPath.Plain e) (hrest : ∀ s ∈ rest, Element s)
    (hk : k ≤ bs.length) :
    walkName (SlashPath.root bs) (List.replicate k (lit "..") ++ rest) =
      .ok (SlashPath.root (bs.take (bs.length - k) ++ rest)) := by
  have hplain : ∀ s ∈ rest, SlashPath.Plain s := fun s hs => (hrest s hs).plain
  rw [walkName, validPath_eq hrest, SlashPath.count_slash_root hbs, if_neg (by omega)]
  show Except.ok (SlashPath.join
    [_, SlashPath.join (List.replicate k SlashPath.dotdot ++ rest)]) = _
  rw [SlashPath.join_relative hplain, SlashPath.join_root_relative hbs hplain hk]

theorem walkName_beyond (hbs : ∀ e ∈ bs, SlashPath.Plain e) (hrest : ∀ s ∈ rest, Element s)
    (hk : bs.length < k) :
    walkName (SlashPath.root bs) (List.replicate k (lit "..") ++ rest) =
      .error (.rerror (lit "Invalid path")) := by
  rw [walkName, validPath_eq hrest, SlashPath.count_slash_root hbs, if_pos (by omega)]

theorem walkName_invalid {dir : Bytes} (h : validPath names < 0) :
    walkName dir names = .error (.rerror (lit "Invalid path")) :=
  if_pos (Or.inl h)

theorem createName_root (hbs : ∀ e ∈ bs, SlashPath.Plain e) {name path : Bytes}
    (h : createName (SlashPath.root bs) name = .ok path) :
    Element name ∧ path = SlashPath.root (bs ++ [name]) := by
  rw [createName] at h
  split at h
  · cases h
  · rename_i hnot
    obtain ⟨hsep, hnot⟩ := not_or.mp hnot
    obtain ⟨hlen, hnot⟩ := not_or.mp hnot
    obtain ⟨hdot, hdotdot⟩ := not_or.mp hnot
    have hel : Element name :=
      ⟨fun h => hlen (h ▸ rfl), hdot, hdotdot, Bool.eq_false_iff.mpr hsep⟩
    have hplain : ∀ e ∈ [name], SlashPath.Plain e := by
      intro e he
      rw [List.mem_singleton.mp he]
      exact hel.plain
    have hjoin := SlashPath.join_root_relative hbs hplain (Nat.zero_le _)
    rw [Nat.sub_zero, List.take_length] at hjoin
    have hrel : [SlashPath.slash].intercalate
      (List.replicate 0 SlashPath.dotdot ++ [name]) = name :=
      List.append_nil name
    rw [hrel] at hjoin
    cases h
    exact ⟨hel, hjoin⟩

end ValidPath

/-! ## What is normalised already -/

/-- No element is empty or `"."`, and `".."` stands at the front only. -/
def Normal (names : List Bytes) : Prop :=
  ∃ k rest, names = List.replicate k (lit "..") ++ rest ∧
    ∀ s ∈ rest, s ≠ [] ∧ s ≠ lit "." ∧ s ≠ lit ".."

section Normalize

variable {ans names steps : List Bytes} {lo : Nat} {bsp : Int}

/-- An element is dropped, with or without the one before it, or kept. -/
theorem normalizePathFrom_cons {s : Bytes}
    (h : normalizePathFrom ans lo (s :: names) = (steps, bsp)) (hbsp : 0 ≤ bsp) :
    (normalizePathFrom ans lo names = (steps, bsp) ∧ (s = [] ∨ s = lit ".")) ∨
    (normalizePathFrom ans.dropLast lo names = (steps, bsp) ∧ s = lit ".." ∧ lo < ans.length) ∨
    (normalizePathFrom (ans ++ [s]) (lo + 1) names = (steps, bsp) ∧ s = lit ".." ∧
      ans.length ≤ lo) ∨
    (normalizePathFrom (ans ++ [s]) lo names = (steps, bsp) ∧ s ≠ [] ∧ s ≠ lit "." ∧
      s ≠ lit "..") := by
  rw [normalizePathFrom] at h
  split at h
  · cases h
    exact absurd hbsp (by decide)
  · split at h
    · rename_i hs
      exact Or.inl ⟨h, hs.imp_left List.length_eq_zero_iff.mp⟩
    · rename_i hs
      obtain ⟨hnil, hdot⟩ := not_or.mp hs
      split at h
      · rename_i hdotdot
        split at h
        · rename_i hlt
          exact Or.inr (Or.inl ⟨h, hdotdot, hlt⟩)
        · rename_i hle
          exact Or.inr (Or.inr (Or.inl ⟨h, hdotdot, Nat.not_lt.mp hle⟩))
      · rename_i hdotdot
        exact Or.inr (Or.inr (Or.inr ⟨h, mt (congrArg List.length) hnil, hdot, hdotdot⟩))

/-- The normal form has no more elements.  If it has as many, nothing was
dropped. -/
theorem normalizePathFrom_length (h : normalizePathFrom ans lo names = (steps, bsp))
    (hbsp : 0 ≤ bsp) (hlo : lo ≤ ans.length) :
    steps.length ≤ ans.length + names.length ∧
      (steps.length = ans.length + names.length →
        ∃ k rest, names = List.replicate k (lit "..") ++ rest ∧ (k ≠ 0 → ans.length = lo) ∧
          ∀ s ∈ rest, s ≠ [] ∧ s ≠ lit "." ∧ s ≠ lit "..") := by
  induction names generalizing ans lo with
  | nil =>
      cases h
      exact ⟨Nat.le_refl _, fun _ => ⟨0, [], rfl, nofun, nofun⟩⟩
  | cons s names ih =>
      rw [List.length_cons]
      rcases normalizePathFrom_cons h hbsp with ⟨h, -⟩ | ⟨h, -, hlt⟩ | ⟨h, hs, hle⟩ | ⟨h, hs⟩
      · obtain ⟨hlen, -⟩ := ih h hlo
        exact ⟨by omega, fun heq => by omega⟩
      · have hdrop : ans.dropLast.length = ans.length - 1 := List.length_dropLast
        obtain ⟨hlen, -⟩ := ih h (by omega)
        exact ⟨by omega, fun heq => by omega⟩
      · have happ : (ans ++ [s]).length = ans.length + 1 := List.length_append
        obtain ⟨hlen, hsame⟩ := ih h (by omega)
        refine ⟨by omega, fun heq => ?_⟩
        obtain ⟨k, rest, rfl, -, hrest⟩ := hsame (by omega)
        refine ⟨k + 1, rest, ?_, fun _ => Nat.le_antisymm hle hlo, hrest⟩
        rw [hs, List.replicate_succ, List.cons_append]
      · have happ : (ans ++ [s]).length = ans.length + 1 := List.length_append
        obtain ⟨hlen, hsame⟩ := ih h (by omega)
        refine ⟨by omega, fun heq => ?_⟩
        obtain ⟨k, rest, rfl, hk, hrest⟩ := hsame (by omega)
        have hzero : k = 0 := by
          by_contra hne
          have := hk hne
          omega
        subst hzero
        exact ⟨0, s :: rest, rfl, nofun, List.forall_mem_cons.mpr ⟨hs, hrest⟩⟩

theorem normalizePathFrom_kept {k : Nat} {rest : List Bytes}
    (h : normalizePathFrom ans lo (List.replicate k (lit "..") ++ rest) = (steps, bsp))
    (hbsp : 0 ≤ bsp) (hk : k ≠ 0 → ans.length = lo)
    (hrest : ∀ s ∈ rest, s ≠ [] ∧ s ≠ lit "." ∧ s ≠ lit "..") :
    steps.length = ans.length + (k + rest.length) := by
  induction k generalizing ans lo with
  | zero =>
      induction rest generalizing ans lo with
      | nil =>
          cases h
          rfl
      | cons s rest ih =>
          obtain ⟨⟨hnil, hdot, hdotdot⟩, hrest⟩ := List.forall_mem_cons.mp hrest
          have happ : (ans ++ [s]).length = ans.length + 1 := List.length_append
          rcases normalizePathFrom_cons h hbsp with ⟨-, hs⟩ | ⟨-, hs, -⟩ | ⟨-, hs, -⟩ | ⟨h, -⟩
          · exact absurd hs (not_or.mpr ⟨hnil, hdot⟩)
          · exact absurd hs hdotdot
          · exact absurd hs hdotdot
          · rw [ih hrest h fun hne => absurd rfl hne, List.length_cons]
            omega
  | succ k ih =>
      have hlen := hk (Nat.succ_ne_zero k)
      have happ : (ans ++ [lit ".."]).length = ans.length + 1 := List.length_append
      rw [List.replicate_succ, List.cons_append] at h
      rcases normalizePathFrom_cons h hbsp with ⟨-, hs⟩ | ⟨-, -, hlt⟩ | ⟨h, -⟩ | ⟨-, -, -, hs⟩
      · exact absurd hs (by decide)
      · omega
      · rw [ih h fun _ => by omega]
        omega
      · exact absurd rfl hs

/-- `NormalizePath` keeps the number of elements of what is normalised already,
and of nothing else. -/
theorem normalizePath_length_iff (h : normalizePath names = (steps, bsp)) (hbsp : 0 ≤ bsp) :
    steps.length = names.length ↔ Normal names := by
  constructor
  · intro hlen
    obtain ⟨-, hsame⟩ := normalizePathFrom_length h hbsp (Nat.le_refl 0)
    obtain ⟨k, rest, hnames, -, hrest⟩ := hsame (by rw [hlen, List.length_nil, Nat.zero_add])
    exact ⟨k, rest, hnames, hrest⟩
  · rintro ⟨k, rest, rfl, hrest⟩
    rw [normalizePathFrom_kept h hbsp (fun _ => rfl) hrest, List.length_append,
      List.length_replicate, List.length_nil, Nat.zero_add]

end Normalize

end P9p
