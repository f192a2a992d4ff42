/-
# `P9p.Readdir` — a directory that is read like a file

`readdir.go`: the session answers `Read` on a directory with the entries that
the file system's `ReadNext` gives, one encoded after the other.

    next ──▸ mkNext1 ──▸ item ──▸ fill ──▸ read
    lists    one entry   or the    whole    at the offset
                         one kept  entries  it has reached

An entry that does not fit any more is kept for the next call.

**Two levels.**  A `Readdir1` has any function that gives one entry at a time, as
`NewReaddir1` takes it.  A `Readdir` is what `NewReaddir` makes: the variables of
the function from `mkNext1` are among its own, and what the file system's
`ReadNext` depends on stays outside.  They do the same (`Readdir.read_eq`).

**What is left.**  A `Stream` predicate says which entries a function is going to
give.  A `Read` delivers the longest run of these that fits, and leaves the
others (`Readdir1.read_delivers`).  For the file system's lists the predicate is
`Ahead`: `Yields next s es` says that `next` gives `es`, in lists of any lengths,
and then an empty one, and `Readdir.Left` adds the entries that the `Readdir` has
taken and not delivered yet.
-/
import P9p.Encoding.RoundTrip
import P9p.Lib.Packing

namespace P9p

open Wire Wire.Reader Packing

/-! ## The model -/

def Err.badoffset : Err := .rerror (lit "bad offset")

/-- `ReadNext1`; `τ` is whatever it depends on. -/
abbrev ReadNext1 (τ : Type) := τ → Except Err Dir × τ

/-- `Readdir`, for a given `nextfn`. -/
structure Readdir1 (τ : Type) where
  source : τ
  buf : Option Dir
  offset : Int64

def newReaddir1 {τ : Type} (source : τ) : Readdir1 τ := ⟨source, none, 0⟩

namespace Readdir1

variable {τ : Type} (nextfn : ReadNext1 τ)

/-- The entry that was kept, or else the next one. -/
def item (rd : Readdir1 τ) : Except Err Dir × Readdir1 τ :=
  match rd.buf with
  | some d => (.ok d, { rd with buf := none })
  | none =>
      match nextfn rd.source with
      | (r, source) => (r, { rd with source })

/-- The loop of `Read`, with the `p` that is filled. -/
def fill (cap : Nat) (p : Bytes) (rd : Readdir1 τ) : Bytes × Option Err × Readdir1 τ :=
  if p.length < cap then
    match rd.item nextfn with
    | (.error err, rd) => (p, some err, rd)
    | (.ok d, rd) =>
        if p.length + d.encode.length > cap then (p, none, { rd with buf := some d })
        else fill cap (p ++ d.encode) rd
  else (p, none, rd)
termination_by cap - p.length
decreasing_by
  rw [List.length_append, d.encode_length]
  omega

/-- `Read` into a buffer of length `len`: what it puts there. -/
def read (rd : Readdir1 τ) (len : Nat) (offset : Int64) : Bytes × Option Err × Readdir1 τ :=
  if rd.offset ≠ offset then ([], some .badoffset, rd)
  else
    match rd.fill nextfn len [] with
    | (p, err, rd) =>
        (p, if err = some .eof then none else err,
          { rd with offset := rd.offset + Int64.ofNat p.length })

end Readdir1

/-- The function of `NewFixedReaddir`. -/
def fixedNext : ReadNext1 (List Dir)
  | [] => (.error .eof, [])
  | d :: dirs => (.ok d, dirs)

def newFixedReaddir (dir : List Dir) : Readdir1 (List Dir) := newReaddir1 dir

/-- `ReadNext`; `s` is whatever it depends on. -/
abbrev ReadNext (φ : Type) := φ → Except Err (List Dir) × φ

/-- The variables of the function that `mkNext1` makes, and what `next` depends
on. -/
structure Next1 (φ : Type) where
  dirs : List Dir
  done : Bool
  source : φ

def mkNext1 {φ : Type} (next : ReadNext φ) : ReadNext1 (Next1 φ) := fun v =>
  if v.done then (.error .eof, v)
  else
    match v.dirs with
    | d :: dirs => (.ok d, { v with dirs })
    | [] =>
        match next v.source with
        | (.error err, source) => (.error err, { v with source })
        | (.ok [], source) => (.error .eof, { v with done := true, source })
        | (.ok (d :: dirs), source) => (.ok d, { v with dirs, source })

/-- `Readdir`, with the variables `dirs` and `done` of `mkNext1`. -/
structure Readdir where
  dirs : List Dir
  done : Bool
  buf : Option Dir
  offset : Int64

def newReaddir : Readdir := ⟨[], false, none, 0⟩

namespace Readdir

variable {φ : Type} (next : ReadNext φ)

/-- The function that `mkNext1` makes. -/
def nextfn (rd : Readdir) (s : φ) : Except Err Dir × Readdir × φ :=
  if rd.done then (.error .eof, rd, s)
  else
    match rd.dirs with
    | d :: dirs => (.ok d, { rd with dirs }, s)
    | [] =>
        match next s with
        | (.error err, s) => (.error err, rd, s)
        | (.ok [], s) => (.error .eof, { rd with done := true }, s)
        | (.ok (d :: dirs), s) => (.ok d, { rd with dirs }, s)

/-- The entry that was kept, or else the next one. -/
def item (rd : Readdir) (s : φ) : Except Err Dir × Readdir × φ :=
  match rd.buf with
  | some d => (.ok d, { rd with buf := none }, s)
  | none => rd.nextfn next s

/-- The loop of `Read`, with the `p` that is filled. -/
def fill (cap : Nat) (p : Bytes) (rd : Readdir) (s : φ) : Bytes × Option Err × Readdir × φ :=
  if p.length < cap then
    match rd.item next s with
    | (.error err, rd, s) => (p, some err, rd, s)
    | (.ok d, rd, s) =>
        if p.length + d.encode.length > cap then (p, none, { rd with buf := some d }, s)
        else fill cap (p ++ d.encode) rd s
  else (p, none, rd, s)
termination_by cap - p.length
decreasing_by
  rw [List.length_append, d.encode_length]
  omega

/-- `Read` into a buffer of length `len`: what it puts there. -/
def read (rd : Readdir) (len : Nat) (offset : Int64) (s : φ) :
    Bytes × Option Err × Readdir × φ :=
  if rd.offset ≠ offset then ([], some .badoffset, rd, s)
  else
    match rd.fill next len [] s with
    | (p, err, rd, s) =>
        (p, if err = some .eof then none else err,
          { rd with offset := rd.offset + Int64.ofNat p.length }, s)

/-! ## What it depends on -/

section State

variable {next} {I : φ → Prop} (hnext : ∀ s, I s → I (next s).2)

include hnext

theorem item_state (rd : Readdir) {s : φ} (hs : I s) : I (rd.item next s).2.2 := by
  unfold item nextfn
  split
  · exact hs
  · split
    · exact hs
    · split
      · exact hs
      · have h := hnext s hs
        split <;> simp_all

theorem fill_state {cap : Nat} {p : Bytes} {rd : Readdir} {s : φ} (hs : I s) :
    I (rd.fill next cap p s).2.2.2 := by
  have hafter : ∀ {rd : Readdir} {s : φ} {r rd' s'}, I s → rd.item next s = (r, rd', s') →
      I s' := by
    intro rd s r rd' s' hs hitem
    have h := item_state hnext rd hs
    rwa [hitem] at h
  fun_induction fill next cap p rd s with
  | case1 p rd s hlt err rd' s' hitem => exact hafter hs hitem
  | case2 p rd s hlt d rd' s' hitem hfull => exact hafter hs hitem
  | case3 p rd s hlt d rd' s' hitem hfits ih => exact ih (hafter hs hitem)
  | case4 p rd s hge => exact hs

/-- What `next` keeps, `Read` keeps. -/
theorem read_state {rd : Readdir} {len : Nat} {offset : Int64} {s : φ} (hs : I s) :
    I (rd.read next len offset s).2.2.2 := by
  unfold read
  split
  · exact hs
  · exact fill_state hnext hs

end State

end Readdir

/-! ## The two levels -/

namespace Readdir

variable {φ : Type} {next : ReadNext φ}

/-- With the variables of `mkNext1` where they belong. -/
def atLevel1 (rd : Readdir) (s : φ) : Readdir1 (Next1 φ) :=
  ⟨⟨rd.dirs, rd.done, s⟩, rd.buf, rd.offset⟩

def ofLevel1 (rd : Readdir1 (Next1 φ)) : Readdir × φ :=
  (⟨rd.source.dirs, rd.source.done, rd.buf, rd.offset⟩, rd.source.source)

theorem item_eq (rd : Readdir) (s : φ) :
    rd.item next s = (((rd.atLevel1 s).item (mkNext1 next)).1,
      ofLevel1 ((rd.atLevel1 s).item (mkNext1 next)).2) := by
  obtain ⟨dirs, done, buf, offset⟩ := rd
  cases buf with
  | some d => rfl
  | none =>
      cases done with
      | true => rfl
      | false =>
          cases dirs with
          | cons d dirs => rfl
          | nil =>
              simp only [item, nextfn, Readdir1.item, atLevel1, mkNext1, Bool.false_eq_true,
                if_false]
              rcases next s with ⟨_ | _ | ⟨d, ds⟩, s'⟩ <;> rfl

theorem atLevel1_ofLevel1 (rd : Readdir1 (Next1 φ)) :
    (ofLevel1 rd).1.atLevel1 (ofLevel1 rd).2 = rd := rfl

theorem fill_eq (cap : Nat) (p : Bytes) (rd : Readdir) (s : φ) :
    rd.fill next cap p s = (((rd.atLevel1 s).fill (mkNext1 next) cap p).1,
      ((rd.atLevel1 s).fill (mkNext1 next) cap p).2.1,
      ofLevel1 ((rd.atLevel1 s).fill (mkNext1 next) cap p).2.2) := by
  generalize hrd : rd.atLevel1 s = rd₁
  obtain ⟨rfl, rfl⟩ : rd = (ofLevel1 rd₁).1 ∧ s = (ofLevel1 rd₁).2 := by
    rw [← hrd]
    exact ⟨rfl, rfl⟩
  clear hrd
  fun_induction Readdir1.fill (mkNext1 next) cap p rd₁ with
  | case1 p rd₁ hlt err rd₂ hitem =>
      rw [fill, if_pos hlt, item_eq, atLevel1_ofLevel1, hitem]
  | case2 p rd₁ hlt d rd₂ hitem hfull =>
      rw [fill, if_pos hlt, item_eq, atLevel1_ofLevel1, hitem]
      exact if_pos hfull
  | case3 p rd₁ hlt d rd₂ hitem hfits ih =>
      rw [fill, if_pos hlt, item_eq, atLevel1_ofLevel1, hitem]
      exact (if_neg hfits).trans ih
  | case4 p rd₁ hge => rw [fill, if_neg hge]

theorem read_eq (rd : Readdir) (len : Nat) (offset : Int64) (s : φ) :
    rd.read next len offset s = (((rd.atLevel1 s).read (mkNext1 next) len offset).1,
      ((rd.atLevel1 s).read (mkNext1 next) len offset).2.1,
      ofLevel1 ((rd.atLevel1 s).read (mkNext1 next) len offset).2.2) := by
  have hsame : (rd.atLevel1 s).offset = rd.offset := rfl
  unfold read Readdir1.read
  rw [fill_eq, hsame]
  by_cases hoffset : rd.offset = offset
  · rw [if_neg (not_not_intro hoffset), if_neg (not_not_intro hoffset)]
    rfl
  · rw [if_pos hoffset, if_pos hoffset]
    rfl

end Readdir

/-! ## What is left to be read -/

/-- `P v es` says of what `nextfn` depends on that it gives the entries `es`, one
after the other, and then EOF as often as it is asked. -/
structure Streams {τ : Type} (nextfn : ReadNext1 τ) (P : τ → List Dir → Prop) : Prop where
  cons : ∀ {v d es}, P v (d :: es) → ∃ v', nextfn v = (.ok d, v') ∧ P v' es
  nil : ∀ {v}, P v [] → ∃ v', nextfn v = (.error .eof, v') ∧ P v' []

/-- The bytes that an entry takes. -/
def Dir.encodedSize (d : Dir) : Nat := d.encode.length

theorem length_flatMap_encode (ds : List Dir) :
    (ds.flatMap Dir.encode).length = (ds.map Dir.encodedSize).sum := List.length_flatMap

theorem Dir.encodedSize_pos (d : Dir) : 0 < d.encodedSize := by
  rw [Dir.encodedSize, d.encode_length]
  omega

namespace Readdir1

variable {τ : Type} {nextfn : ReadNext1 τ} {P : τ → List Dir → Prop} {rd : Readdir1 τ} {d : Dir}
  {es : List Dir}

/-- The entries that were not delivered yet. -/
def Left (P : τ → List Dir → Prop) (rd : Readdir1 τ) (es : List Dir) : Prop :=
  ∃ ahead, es = rd.buf.toList ++ ahead ∧ P rd.source ahead

theorem left_new {v : τ} (h : P v es) : (newReaddir1 v).Left P es := ⟨es, rfl, h⟩

/-- Entries are given in order. -/
theorem item_cons (hP : Streams nextfn P) (h : rd.Left P (d :: es)) :
    ∃ rd', rd.item nextfn = (.ok d, rd') ∧ rd'.offset = rd.offset ∧ rd'.Left P es ∧
      Left P { rd' with buf := some d } (d :: es) := by
  obtain ⟨v, buf, offset⟩ := rd
  obtain ⟨ahead, heq, hahead⟩ := h
  cases buf with
  | some d' =>
      cases heq
      exact ⟨⟨v, none, offset⟩, rfl, rfl, ⟨ahead, rfl, hahead⟩, ahead, rfl, hahead⟩
  | none =>
      cases heq
      obtain ⟨v', hnext, hrest⟩ := hP.cons hahead
      refine ⟨⟨v', none, offset⟩, ?_, rfl, ⟨es, rfl, hrest⟩, es, rfl, hrest⟩
      simp only [item, hnext]

/-- At the end it says so, as often as it is asked. -/
theorem item_nil (hP : Streams nextfn P) (h : rd.Left P []) :
    ∃ rd', rd.item nextfn = (.error .eof, rd') ∧ rd'.offset = rd.offset ∧ rd'.Left P [] := by
  obtain ⟨v, buf, offset⟩ := rd
  obtain ⟨ahead, heq, hahead⟩ := h
  cases buf with
  | some d' => cases heq
  | none =>
      cases heq
      obtain ⟨v', hnext, hrest⟩ := hP.nil hahead
      refine ⟨⟨v', none, offset⟩, ?_, rfl, [], rfl, hrest⟩
      simp only [item, hnext]

/-- The loop takes whole entries off the front, as many as there is room for. -/
theorem fill_delivers (hP : Streams nextfn P) (cap : Nat) {p : Bytes} (hp : p.length ≤ cap)
    (h : rd.Left P es) :
    ∃ err rd', rd.fill nextfn cap p =
        (p ++ (fit Dir.encodedSize (cap - p.length) es).flatMap Dir.encode, err, rd') ∧
      (err = none ∨ err = some .eof) ∧ rd'.offset = rd.offset ∧
      rd'.Left P (es.drop (fit Dir.encodedSize (cap - p.length) es).length) := by
  induction es generalizing p rd with
  | nil =>
      rw [fit, List.flatMap_nil, List.append_nil]
      by_cases hroom : p.length < cap
      · obtain ⟨rd', hitem, hoffset, hleft⟩ := item_nil hP h
        refine ⟨some .eof, rd', ?_, Or.inr rfl, hoffset, hleft⟩
        rw [fill, if_pos hroom, hitem]
      · refine ⟨none, rd, ?_, Or.inl rfl, rfl, h⟩
        rw [fill, if_neg hroom]
  | cons d es ih =>
      by_cases hfits : d.encodedSize ≤ cap - p.length
      · have hpos := d.encodedSize_pos
        have hroom : p.length < cap := by omega
        have hlen : ¬ p.length + d.encode.length > cap := by
          rw [← Dir.encodedSize]
          omega
        obtain ⟨rd', hitem, hoffset, hleft, -⟩ := item_cons hP h
        have hp' : (p ++ d.encode).length ≤ cap := by
          rw [List.length_append]
          exact Nat.not_lt.mp hlen
        have hcap : cap - (p ++ d.encode).length = cap - p.length - d.encodedSize := by
          rw [List.length_append, ← Dir.encodedSize]
          omega
        obtain ⟨err, rd'', hfill, herr, hoffset', hleft'⟩ := ih hp' hleft
        rw [hcap] at hfill hleft'
        rw [fit, if_pos hfits, List.flatMap_cons, ← List.append_assoc]
        refine ⟨err, rd'', ?_, herr, hoffset'.trans hoffset, hleft'⟩
        rw [fill, if_pos hroom, hitem]
        exact (if_neg hlen).trans hfill
      · rw [fit, if_neg hfits, List.flatMap_nil, List.append_nil]
        by_cases hroom : p.length < cap
        · -- the entry is kept for the next call
          obtain ⟨rd', hitem, hoffset, -, hkept⟩ := item_cons hP h
          have hlen : p.length + d.encode.length > cap := by
            rw [← Dir.encodedSize]
            omega
          refine ⟨none, { rd' with buf := some d }, ?_, Or.inl rfl, hoffset, hkept⟩
          rw [fill, if_pos hroom, hitem]
          exact if_pos hlen
        · refine ⟨none, rd, ?_, Or.inl rfl, rfl, h⟩
          rw [fill, if_neg hroom]

/-- **A `Read` at the right offset** returns the longest run of entries that
fits. -/
theorem read_delivers (hP : Streams nextfn P) (len : Nat) (h : rd.Left P es) :
    ∃ rd', rd.read nextfn len rd.offset =
        ((fit Dir.encodedSize len es).flatMap Dir.encode, none, rd') ∧
      rd'.offset = rd.offset +
        Int64.ofNat ((fit Dir.encodedSize len es).flatMap Dir.encode).length ∧
      rd'.Left P (es.drop (fit Dir.encodedSize len es).length) := by
  obtain ⟨err, rd', hfill, herr, hoffset, hleft⟩ := fill_delivers hP len (Nat.zero_le _) h (p := [])
  rw [List.nil_append, List.length_nil, Nat.sub_zero] at hfill
  generalize (fit Dir.encodedSize len es).flatMap Dir.encode = q at hfill ⊢
  refine ⟨{ rd' with offset := rd'.offset + Int64.ofNat q.length }, ?_, ?_, hleft⟩
  · rw [read, if_neg (not_not_intro rfl), hfill]
    rcases herr with rfl | rfl <;> rfl
  · rw [hoffset]

end Readdir1

/-! ## The lists of a file system -/

/-- `next` gives the entries `es`, and then an empty list. -/
inductive Yields {φ : Type} (next : ReadNext φ) : φ → List Dir → Prop where
  | last {s s' : φ} : next s = (.ok [], s') → Yields next s []
  | batch {s s' : φ} {d : Dir} {ds es : List Dir} :
      next s = (.ok (d :: ds), s') → Yields next s' es → Yields next s (d :: ds ++ es)

namespace Readdir

variable {φ : Type} {next : ReadNext φ} {rd : Readdir} {s : φ} {d : Dir} {es : List Dir}

/-- The entries of `mkNext1`: those in its list, and those of `next`. -/
def Ahead (next : ReadNext φ) (rd : Readdir) (s : φ) (es : List Dir) : Prop :=
  if rd.done then es = []
  else ∃ later, es = rd.dirs ++ later ∧ Yields next s later

/-- The entries that were not delivered yet. -/
def Left (next : ReadNext φ) (rd : Readdir) (s : φ) (es : List Dir) : Prop :=
  ∃ ahead, es = rd.buf.toList ++ ahead ∧ rd.Ahead next s ahead

theorem left_new (h : Yields next s es) : newReaddir.Left next s es := ⟨es, rfl, es, rfl, h⟩

/-- `Ahead` depends on the variables of `mkNext1` only. -/
def Gives (next : ReadNext φ) (v : Next1 φ) (es : List Dir) : Prop :=
  Ahead next ⟨v.dirs, v.done, none, 0⟩ v.source es

theorem mkNext1_streams (next : ReadNext φ) : Streams (mkNext1 next) (Gives next) where
  cons := by
    rintro ⟨dirs, done, s⟩ d es h
    cases done with
    | true => cases h
    | false =>
        obtain ⟨later, heq, hlater⟩ := h
        cases dirs with
        | cons d' dirs =>
            cases heq
            exact ⟨⟨dirs, false, s⟩, rfl, later, rfl, hlater⟩
        | nil =>
            obtain rfl : d :: es = later := heq
            generalize hds : d :: es = ds at hlater
            cases hlater with
            | last _ => cases hds
            | @batch _ s' d' ds' es' hnext hrest =>
                cases hds
                refine ⟨⟨ds', false, s'⟩, ?_, es', rfl, hrest⟩
                simp only [mkNext1, Bool.false_eq_true, if_false, hnext]
  nil := by
    rintro ⟨dirs, done, s⟩ h
    cases done with
    | true => exact ⟨⟨dirs, true, s⟩, rfl, rfl⟩
    | false =>
        obtain ⟨later, heq, hlater⟩ := h
        obtain ⟨rfl, rfl⟩ := List.nil_eq_append_iff.mp heq
        cases hlater with
        | @last _ s' hnext =>
            refine ⟨⟨[], true, s'⟩, ?_, rfl⟩
            simp only [mkNext1, Bool.false_eq_true, if_false, hnext]

/-- **A `Read` at the right offset** puts the first entries into the buffer, at
least one if there is one and all are short enough. -/
theorem read_delivers (len : Nat) (h : rd.Left next s es)
    (hshort : ∀ d ∈ es, d.encode.length ≤ len) :
    ∃ pre post rd' s', rd.read next len rd.offset s =
        (pre.flatMap Dir.encode, none, rd', s') ∧
      es = pre ++ post ∧ Left next rd' s' post ∧ (pre.flatMap Dir.encode).length ≤ len ∧
      rd'.offset = rd.offset + Int64.ofNat (pre.flatMap Dir.encode).length ∧
      (pre = [] → es = []) := by
  have hleft₁ : (rd.atLevel1 s).Left (Gives next) es := h
  obtain ⟨rd₁, hread, hoffset, hleft⟩ := Readdir1.read_delivers (mkNext1_streams next) len hleft₁
  have hread' : rd.read next len rd.offset s =
      ((fit Dir.encodedSize len es).flatMap Dir.encode, none, ofLevel1 rd₁) := by
    rw [read_eq, show (rd.atLevel1 s).read (mkNext1 next) len rd.offset = _ from hread]
  refine ⟨fit Dir.encodedSize len es, es.drop (fit Dir.encodedSize len es).length,
    (ofLevel1 rd₁).1, (ofLevel1 rd₁).2, hread', (fit_append_drop len es).symm, hleft, ?_,
    hoffset, ?_⟩
  · rw [length_flatMap_encode]
    exact (fit_longest len es).fits
  · intro hnil
    cases es with
    | nil => rfl
    | cons d es =>
        exact absurd (fit_eq_nil.mp hnil d rfl) (Nat.not_lt.mpr (hshort d List.mem_cons_self))

end Readdir

end P9p
