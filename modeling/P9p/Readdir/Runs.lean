/-
# `P9p.Readdir.Runs` — one `Read` after the other

A client reads a directory with buffers of any lengths, each time at the offset
that is the sum of the counts so far.

    es        the entries that the directory gives
    lens      the lengths of the buffers
    reads     what the calls return

**In order** (`reads_in_order`).  Each call returns the longest run of entries that
fits into its buffer, and the next call goes on behind it.  A call at another
offset is refused and changes nothing.

**An empty result** means the end of the directory to a client, but a call also
returns nothing if the next entry is too long for the buffer
(`short_buffer_reads_nothing`).  It means the end exactly when every buffer has
room for the entry that is next (`empty_read_iff`).

**A call that fails** may have copied entries before.  The offset has gone ahead,
the entries are not given again, and `Handle` drops the count
(`failing_read_loses`).  Nothing is lost exactly when nothing was copied
(`failing_read_iff`).
-/
import P9p.Readdir

namespace P9p

open Packing

/-! ## Runs -/

section Runs

variable {τ : Type} {nextfn : ReadNext1 τ} {v : τ} {rd : Readdir1 τ} {es : List Dir}

/-- Calls of `Read` with buffers of the given lengths, the first at `offset`: what
they return, and where the last has come to. -/
def Readdir1.reads (nextfn : ReadNext1 τ) :
    List Nat → Int64 → Readdir1 τ → List (Bytes × Option Err) × Int64 × Readdir1 τ
  | [], offset, rd => ([], offset, rd)
  | len :: lens, offset, rd =>
      match rd.read nextfn len offset with
      | (p, err, rd) =>
          match reads nextfn lens (offset + Int64.ofNat p.length) rd with
          | (results, offset, rd) => ((p, err) :: results, offset, rd)

/-- The entries of a directory: lists of a `ReadNext` that ends with an empty one,
or the list of `NewFixedReaddir`. -/
inductive Stream : {τ : Type} → ReadNext1 τ → τ → List Dir → Prop
  | batches {φ : Type} {next : ReadNext φ} {s : φ} {es : List Dir} :
      Yields next s es → Stream (mkNext1 next) ⟨[], false, s⟩ es
  | fixed (dir : List Dir) : Stream fixedNext dir dir

theorem fixedNext_streams : Streams fixedNext Eq where
  cons := by
    rintro _ d es rfl
    exact ⟨es, rfl, rfl⟩
  nil := by
    rintro _ rfl
    exact ⟨[], rfl, rfl⟩

theorem Stream.streams (h : Stream nextfn v es) :
    ∃ P, Streams nextfn P ∧ (newReaddir1 v).Left P es := by
  cases h with
  | batches hyields => exact ⟨_, Readdir.mkNext1_streams _, es, rfl, es, rfl, hyields⟩
  | fixed => exact ⟨Eq, fixedNext_streams, es, rfl, rfl⟩

/-- What a call with the entries `run` returns. -/
def delivery (run : List Dir) : Bytes × Option Err := (run.flatMap Dir.encode, none)

/-- By induction on the calls; what is left goes from one to the next. -/
theorem Readdir1.reads_delivers {P : τ → List Dir → Prop} (hP : Streams nextfn P) (lens : List Nat)
    (h : rd.Left P es) :
    ∃ rd', rd.reads nextfn lens rd.offset =
      ((pack Dir.encodedSize lens es).map delivery, rd'.offset, rd') := by
  induction lens generalizing rd es with
  | nil => exact ⟨rd, rfl⟩
  | cons len lens ih =>
      obtain ⟨rd₁, hread, hoffset, hleft⟩ := rd.read_delivers hP len h
      obtain ⟨rd', hreads⟩ := ih hleft
      refine ⟨rd', ?_⟩
      rw [hoffset] at hreads
      rw [reads, hread]
      dsimp only
      rw [hreads]
      rfl

theorem flatMap_delivery (runs : List (List Dir)) :
    (runs.map delivery).flatMap Prod.fst = runs.flatten.flatMap Dir.encode := by
  induction runs with
  | nil => rfl
  | cons run runs ih =>
      rw [List.map_cons, List.flatMap_cons, ih, List.flatten_cons, List.flatMap_append]
      rfl

/-- **In order.**  The calls return the entries in runs, each the longest that fits
into its buffer; then a call at another offset is refused and changes nothing. -/
theorem reads_in_order (h : Stream nextfn v es) (lens : List Nat) :
    ∃ runs offset rd', (newReaddir1 v).reads nextfn lens 0 = (runs.map delivery, offset, rd') ∧
      Packed Dir.encodedSize lens es runs ∧
      (runs.map delivery).flatMap Prod.fst = runs.flatten.flatMap Dir.encode ∧
      runs.flatten <+: es ∧
      ∀ len offset', offset' ≠ offset →
        rd'.read nextfn len offset' = ([], some .badoffset, rd') := by
  obtain ⟨P, hP, hleft⟩ := h.streams
  obtain ⟨rd', hreads⟩ := Readdir1.reads_delivers hP lens hleft
  have hpacked : Packed Dir.encodedSize lens es _ := pack_packed lens es
  refine ⟨_, rd'.offset, rd', hreads, hpacked, flatMap_delivery _, hpacked.flatten_front, ?_⟩
  intro len offset' hne
  rw [Readdir1.read, if_pos hne.symm]

theorem reads_in_order_fixed :
    ∃ runs offset rd', (newFixedReaddir [Dir.somedir, Dir.somedir]).reads fixedNext [10, 100, 0] 0 =
        (runs.map delivery, offset, rd') ∧
      Packed Dir.encodedSize [10, 100, 0] [Dir.somedir, Dir.somedir] runs := by
  obtain ⟨runs, offset, rd', hreads, hpacked, -⟩ :=
    reads_in_order (.fixed [Dir.somedir, Dir.somedir]) [10, 100, 0]
  exact ⟨runs, offset, rd', hreads, hpacked⟩

/-! ## Empty results -/

theorem flatMap_encode_eq_nil {ds : List Dir} : ds.flatMap Dir.encode = [] ↔ ds = [] := by
  cases ds with
  | nil => exact ⟨fun _ => rfl, fun _ => rfl⟩
  | cons d ds =>
      refine ⟨fun h => ?_, nofun⟩
      have hpos := d.encodedSize_pos
      rw [Dir.encodedSize, (List.append_eq_nil_iff.mp h).1] at hpos
      cases hpos

/-- Of the front of a list, the bytes are those of the list only if it is all of
it. -/
theorem flatMap_encode_inj {ds : List Dir} (h : ds <+: es) :
    ds.flatMap Dir.encode = es.flatMap Dir.encode ↔ ds = es := by
  obtain ⟨rest, rfl⟩ := h
  rw [List.flatMap_append, List.self_eq_append_right, flatMap_encode_eq_nil,
    List.self_eq_append_right]

theorem take_pack_front (lens : List Nat) (es : List Dir) (i : Nat) :
    ((pack Dir.encodedSize lens es).take i).flatten <+: es := by
  have hpacked : Packed Dir.encodedSize lens es _ := pack_packed lens es
  have hall := hpacked.flatten_front
  rw [← List.take_append_drop i (pack Dir.encodedSize lens es), List.flatten_append] at hall
  exact (List.prefix_append ..).trans hall

/-- **An empty result** is returned at the end only, exactly when every buffer has
room for the entry that is next. -/
theorem empty_read_iff (h : Stream nextfn v es) (lens : List Nat) :
    (∀ i : Nat, ((newReaddir1 v).reads nextfn lens 0).1[i]? = some ([], none) →
        (((newReaddir1 v).reads nextfn lens 0).1.take i).flatMap Prod.fst =
          es.flatMap Dir.encode) ↔
      Roomy Dir.encodedSize lens es := by
  obtain ⟨P, hP, hleft⟩ := h.streams
  obtain ⟨rd', hreads⟩ := Readdir1.reads_delivers hP lens hleft
  rw [show (newReaddir1 v).reads nextfn lens 0 = _ from hreads, ← empty_at_end_iff]
  refine forall_congr' fun i => imp_congr ?_ ?_
  · rw [List.getElem?_map, Option.map_eq_some_iff]
    constructor
    · rintro ⟨run, hrun, heq⟩
      rw [hrun, flatMap_encode_eq_nil.mp (Prod.mk.inj heq).1]
    · exact fun hnil => ⟨[], hnil, rfl⟩
  · rw [← List.map_take, flatMap_delivery, flatMap_encode_inj (take_pack_front lens es i)]

theorem empty_read_iff_fixed :
    Roomy Dir.encodedSize [100, 10] [Dir.somedir] ∧
      ∀ i : Nat, ((newFixedReaddir [Dir.somedir]).reads fixedNext [100, 10] 0).1[i]? =
          some ([], none) →
        (((newFixedReaddir [Dir.somedir]).reads fixedNext [100, 10] 0).1.take i).flatMap Prod.fst =
          [Dir.somedir].flatMap Dir.encode := by
  have hroomy : Roomy Dir.encodedSize [100, 10] [Dir.somedir] := by
    refine ⟨?_, nofun, trivial⟩
    rintro _ ⟨⟩
    decide
  exact ⟨hroomy, (empty_read_iff (.fixed [Dir.somedir]) [100, 10]).mpr hroomy⟩

/-- Ten bytes are not enough for the entry, which is there all the same: the next
call gets it. -/
theorem short_buffer_reads_nothing :
    ((newFixedReaddir [Dir.somedir]).reads fixedNext [10, 100] 0).1 =
      [([], none), (Dir.somedir.encode, none)] := by
  obtain ⟨rd', hreads⟩ := Readdir1.reads_delivers fixedNext_streams [10, 100]
    (Readdir1.left_new (v := [Dir.somedir]) rfl)
  rw [show (newFixedReaddir [Dir.somedir]).reads fixedNext [10, 100] 0 = _ from hreads]
  rfl

end Runs

/-! ## Calls that fail -/

section Failing

variable {τ : Type} {nextfn : ReadNext1 τ} {v v' : τ} {rd rd' : Readdir1 τ} {p : Bytes} {err : Err}
  {len : Nat} {offset : Int64}

/-- Asked again and again, also after an error, `nextfn` gives `es`, and perhaps
more. -/
inductive Offers (nextfn : ReadNext1 τ) : τ → List Dir → Prop
  | nil {v : τ} : Offers nextfn v []
  | entry {v v' : τ} {d : Dir} {es : List Dir} :
      nextfn v = (.ok d, v') → Offers nextfn v' es → Offers nextfn v (d :: es)
  | retry {v v' : τ} {err : Err} {es : List Dir} :
      nextfn v = (.error err, v') → err ≠ .eof → Offers nextfn v' es → Offers nextfn v es

/-- The entries still to be delivered begin with `es`. -/
def Readdir1.Pending (nextfn : ReadNext1 τ) (rd : Readdir1 τ) (es : List Dir) : Prop :=
  ∃ ahead, Offers nextfn rd.source ahead ∧ es <+: rd.buf.toList ++ ahead

/-- No entry is at hand, and the next one cannot be had. -/
def Readdir1.FailsAtOnce (nextfn : ReadNext1 τ) (rd : Readdir1 τ) : Prop :=
  rd.buf = none ∧ ∃ err v', nextfn rd.source = (.error err, v') ∧ err ≠ .eof

theorem offers_retry (h : nextfn v = (.error err, v')) (herr : err ≠ .eof) (es : List Dir) :
    Offers nextfn v' es ↔ Offers nextfn v es := by
  refine ⟨.retry h herr, fun hv => ?_⟩
  cases hv with
  | nil => exact .nil
  | entry hok _ => cases h.symm.trans hok
  | retry herror _ hrest =>
      cases h.symm.trans herror
      exact hrest

theorem Readdir1.item_error (h : rd.item nextfn = (.error err, rd')) :
    rd.buf = none ∧ ∃ v', nextfn rd.source = (.error err, v') ∧ rd' = { rd with source := v' } := by
  unfold item at h
  split at h
  · cases h
  · rename_i hbuf
    obtain ⟨hr, rfl⟩ := Prod.mk.inj h
    exact ⟨hbuf, (nextfn rd.source).2, Prod.ext hr rfl, rfl⟩

theorem Readdir1.item_offset {r : Except Err Dir} (h : rd.item nextfn = (r, rd')) :
    rd'.offset = rd.offset := by
  unfold item at h
  split at h <;> cases h <;> rfl

/-- The loop fails when an entry cannot be had: the first, or a later one. -/
theorem Readdir1.fill_error {cap : Nat} {p q : Bytes} (hp : p.length ≤ cap)
    (h : rd.fill nextfn cap p = (q, some err, rd')) :
    rd'.offset = rd.offset ∧ q.length ≤ cap ∧
      ((p.length < q.length ∧ ∃ d rd₁, rd.item nextfn = (.ok d, rd₁)) ∨
        p = q ∧ rd.item nextfn = (.error err, rd')) := by
  fun_induction fill nextfn cap p rd with
  | case1 p rd hlt err' rd₁ hitem =>
      cases h
      exact ⟨item_offset hitem, hp, Or.inr ⟨rfl, hitem⟩⟩
  | case2 p rd hlt d rd₁ hitem hfull => cases h
  | case3 p rd hlt d rd₁ hitem hfits ih =>
      have hpos := d.encodedSize_pos
      rw [Dir.encodedSize] at hpos
      rw [List.length_append] at ih
      obtain ⟨hoffset, hle, hcases⟩ := ih (Nat.not_lt.mp hfits) h
      refine ⟨hoffset.trans (item_offset hitem), hle, Or.inl ⟨?_, d, rd₁, hitem⟩⟩
      rcases hcases with ⟨hlt, -⟩ | ⟨rfl, -⟩
      · omega
      · rw [List.length_append]
        omega
  | case4 p rd hge => cases h

theorem int64_ofNat_eq_zero {n : Nat} (hn : n < 2 ^ 63) (h : Int64.ofNat n = 0) : n = 0 := by
  have hint := congrArg Int64.toInt h
  rw [Int64.toInt_ofNat_of_lt hn] at hint
  exact Int.ofNat_eq_zero.mp hint

/-- What a call at the right offset has done that fails: it has copied entries, or
it has failed before the first. -/
theorem Readdir1.read_error (h : rd.read nextfn len rd.offset = (p, some err, rd')) :
    err ≠ .eof ∧ rd'.offset = rd.offset + Int64.ofNat p.length ∧ p.length ≤ len ∧
      ((0 < p.length ∧ ∃ d rd₁, rd.item nextfn = (.ok d, rd₁)) ∨
        p = [] ∧ rd.item nextfn = (.error err, { rd' with offset := rd.offset })) := by
  rw [read, if_neg (not_not_intro rfl)] at h
  obtain ⟨q, e, rd₁, hfill⟩ : ∃ q e rd₁, rd.fill nextfn len [] = (q, e, rd₁) := ⟨_, _, _, rfl⟩
  rw [hfill] at h
  obtain ⟨rfl, hrest⟩ := Prod.mk.inj h
  obtain ⟨he, rfl⟩ := Prod.mk.inj hrest
  have herr : e = some err ∧ err ≠ .eof := by
    split at he
    · cases he
    · rename_i hne
      cases he
      exact ⟨rfl, fun heof => hne (congrArg some heof)⟩
  obtain ⟨rfl, hne⟩ := herr
  obtain ⟨hoffset, hle, hcases⟩ := fill_error (Nat.zero_le _) hfill
  refine ⟨hne, by rw [hoffset], hle, ?_⟩
  rcases hcases with hcopied | ⟨rfl, hitem⟩
  · exact Or.inl hcopied
  · rw [← hoffset]
    exact Or.inr ⟨rfl, hitem⟩

/-- **A call that fails** leaves everything as it was exactly when it is refused
for its offset or fails before the first entry. -/
theorem failing_read_iff (hread : rd.read nextfn len offset = (p, some err, rd'))
    (hlen : len < 2 ^ 63) :
    (rd'.offset = rd.offset ∧ ∀ es, rd'.Pending nextfn es ↔ rd.Pending nextfn es) ↔
      rd.offset ≠ offset ∨ rd.FailsAtOnce nextfn := by
  by_cases hoffset : rd.offset = offset
  · subst hoffset
    obtain ⟨herr, hsum, hle, hcases⟩ := Readdir1.read_error hread
    constructor
    · rintro ⟨hsame, -⟩
      refine Or.inr ?_
      rcases hcases with ⟨hpos, -⟩ | ⟨-, hitem⟩
      · rw [hsum, Int64.add_eq_left] at hsame
        have hzero := int64_ofNat_eq_zero (Nat.lt_of_le_of_lt hle hlen) hsame
        omega
      · obtain ⟨hbuf, v', hv', -⟩ := Readdir1.item_error hitem
        exact ⟨hbuf, err, v', hv', herr⟩
    · intro hcond
      obtain ⟨hbuf, err', v', hv', -⟩ := hcond.resolve_left (not_not_intro rfl)
      have hfails : rd.item nextfn = (.error err', { rd with source := v' }) := by
        simp only [Readdir1.item, hbuf, hv']
      rcases hcases with ⟨-, d, rd₁, hitem⟩ | ⟨rfl, hitem⟩
      · cases hfails.symm.trans hitem
      · obtain ⟨-, v'', hv'', hrd'⟩ := Readdir1.item_error hitem
        obtain ⟨hsource, hbuf', -⟩ := Readdir1.mk.inj hrd'
        refine ⟨?_, fun es => ?_⟩
        · rw [hsum]
          exact Int64.add_zero _
        · unfold Readdir1.Pending
          rw [hsource, hbuf']
          simp only [offers_retry hv'' herr]
  · rw [Readdir1.read, if_pos hoffset] at hread
    cases hread
    exact ⟨fun _ => Or.inl hoffset, fun _ => ⟨rfl, fun _ => Iff.rfl⟩⟩

end Failing

/-- A list of one entry, and then errors. -/
def failsLater : ReadNext Bool
  | false => (.ok [Dir.somedir], true)
  | true => (.error (.other (lit "input/output error")), true)

theorem failing_read_iff_failsLater :
    ∃ p err rd', (newReaddir1 ⟨[], false, true⟩).read (mkNext1 failsLater) 100 0 =
        (p, some err, rd') ∧
      rd'.offset = 0 ∧ ∀ es, rd'.Pending (mkNext1 failsLater) es ↔
        (newReaddir1 ⟨[], false, true⟩).Pending (mkNext1 failsLater) es := by
  have hread : (newReaddir1 ⟨[], false, true⟩).read (mkNext1 failsLater) 100 0 =
      ([], some (.other (lit "input/output error")), newReaddir1 ⟨[], false, true⟩) := by
    rw [Readdir1.read, if_neg (by decide), Readdir1.fill]
    rfl
  refine ⟨_, _, _, hread, (failing_read_iff hread (by decide)).mpr (Or.inr ?_)⟩
  exact ⟨rfl, _, _, rfl, fun h => by cases h⟩

theorem failsLater_offers {v : Next1 Bool} {es : List Dir} (h : Offers (mkNext1 failsLater) v es)
    (hv : v = ⟨[], false, true⟩) : es = [] := by
  induction h with
  | nil => rfl
  | entry hok =>
      subst hv
      cases hok
  | retry herror _ _ ih =>
      subst hv
      cases herror
      exact ih rfl

/-- The entry was copied before the call failed, and is not given again. -/
theorem failing_read_loses :
    ∃ rd', (newReaddir1 ⟨[], false, false⟩).read (mkNext1 failsLater) 100 0 =
        (Dir.somedir.encode, some (.other (lit "input/output error")), rd') ∧
      rd'.offset ≠ 0 ∧
      (newReaddir1 ⟨[], false, false⟩).Pending (mkNext1 failsLater) [Dir.somedir] ∧
      ¬ rd'.Pending (mkNext1 failsLater) [Dir.somedir] := by
  refine ⟨⟨⟨[], false, true⟩, none, 0 + Int64.ofNat Dir.somedir.encode.length⟩, ?_, by decide,
    ⟨[Dir.somedir], .entry rfl .nil, List.prefix_refl _⟩, ?_⟩
  · have hfirst : (newReaddir1 ⟨[], false, false⟩).item (mkNext1 failsLater) =
        (.ok Dir.somedir, ⟨⟨[], false, true⟩, none, 0⟩) := rfl
    rw [Readdir1.read, if_neg (by decide), Readdir1.fill, if_pos (by decide), hfirst]
    dsimp only
    rw [if_neg (by decide), Readdir1.fill, if_pos (by decide)]
    rfl
  · rintro ⟨ahead, hahead, hfront⟩
    rw [failsLater_offers hahead rfl] at hfront
    cases List.prefix_nil.mp hfront

end P9p
