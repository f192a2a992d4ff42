/-
# `P9p.Encoding.Records` — what the decoder takes for a directory record

A record is a size and as many bytes.  The decoder takes these bytes and decodes
them on their own, field by field.  What the fields do not use is dropped: a
`Record` is a `Dir` with such `slack`.

    decode_eq_ok_iff     a `Dir` is decoded from the records that hold it
    decode_eq_eof_iff    io.EOF is the error for an empty input, for a size with
                         nothing behind it, and for a record whose bytes end
                         between two reads of its fields

For the decoder of a list the error io.EOF is the end of the list.  So the list
also ends, without an error, at a record that is cut in one of these two ways
(`DirLoop.reads_iff`).  Whatever follows that record is lost.
-/
import P9p.Encoding.Pieces

namespace P9p

open Wire Wire.Reader

variable {r : Record} {d : Dir} {b rest : Bytes} {ds : List Dir}

/-! ## Records -/

@[ext] structure Record where
  dir : Dir
  slack : Bytes

namespace Record

/-- The bytes that the size counts. -/
def body (r : Record) : Bytes := r.dir.body ++ r.slack

def encode (r : Record) : Bytes := putUint16 (UInt16.ofNat r.body.length) ++ r.body

/-- The fields and the size can be stated, the size below a limit. -/
def Fits (limit : Nat) (r : Record) : Prop :=
  (∀ p ∈ r.dir.fields, p.Encodable) ∧ r.body.length < limit

instance (limit : Nat) (r : Record) : Decidable (r.Fits limit) :=
  inferInstanceAs (Decidable (_ ∧ _))

/-- A size and as many bytes have the layout of a string. -/
theorem encode_eq (r : Record) : r.encode = encodeString r.body := rfl

theorem encode_length (r : Record) : r.encode.length = 2 + r.body.length := by
  rw [encode_eq, encodeString_length]

end Record

theorem Record.Fits.encodable (h : r.Fits (2 ^ 16)) : r.dir.Encodable := by
  have hlt := h.2
  rw [Record.body, List.length_append] at hlt
  exact ⟨h.1, by omega⟩

/-- Without slack a record is what the encoder writes. -/
theorem record_encode (h : d.Encodable) : Record.encode ⟨d, []⟩ = d.encode := by
  have hsize : d.fieldsSize.toUInt16 = UInt16.ofNat d.body.length :=
    (eq_toNat_iff16.mp (Dir.fieldsSize_toUInt16 h.2).symm).2.symm
  rw [Record.encode, Record.body, List.append_nil, Dir.encode, hsize]

/-- A record that is cut short where the decoder finds no byte to read: behind
its size, or inside, between two reads of its fields. -/
inductive Torn (limit : Nat) : Bytes → Prop
  | size {ll : UInt16} : ll ≠ 0 → ll.toNat < limit → Torn limit (putUint16 ll)
  | field {d : Dir} {body : Bytes} (rest : Bytes) : (∀ p ∈ d.fields, p.Encodable) →
      CutOf d.pieces body → body.length < limit →
      Torn limit (putUint16 (UInt16.ofNat body.length) ++ body ++ rest)

/-! ## Decoding one -/

/-- The decoder of the fields, on the bytes of the record. -/
def decodeBody : Decoder Dir := do return Dir.zero.setFields (← Dir.zero.fields.mapM Plain.decode)

theorem Dir.decode_zero : Dir.zero.decode = decodeString >>= fun b => decodeBody.within b := by
  rw [decodeString, bind_assoc]
  refine bind_congr fun ll => bind_congr fun b => ?_
  exact within_map (Dir.zero.fields.mapM Plain.decode) Dir.zero.setFields b

theorem decodeBody_eq_ok_iff {slack : Bytes} :
    decodeBody b = .ok (d, slack) ↔ (∀ p ∈ d.fields, p.Encodable) ∧ b = d.body ++ slack := by
  constructor
  · intro h
    obtain ⟨hd, rfl⟩ := stepwise_fields.accepts b d slack h
    exact ⟨hd, by rw [Dir.pieces_flatten]⟩
  · rintro ⟨hd, rfl⟩
    have h := stepwise_fields.reads d hd slack
    rwa [Dir.pieces_flatten] at h

theorem decodeBody_eq_eof_iff :
    decodeBody b = .error .eof ↔ ∃ d : Dir, (∀ p ∈ d.fields, p.Encodable) ∧ CutOf d.pieces b :=
  stepwise_fields.cut b

theorem decodeString_eq_ok_iff {s : Bytes} :
    decodeString b = .ok (s, rest) ↔ s.length < 2 ^ 16 ∧ b = encodeString s ++ rest := by
  constructor
  · intro h
    obtain ⟨hs, hb⟩ := stepwise_decodeString.accepts b s rest h
    exact ⟨hs, by rwa [stringPieces_flatten] at hb⟩
  · rintro ⟨hs, rfl⟩
    exact encodes_decodeString hs rest

theorem decodeString_eq_eof_iff :
    decodeString b = .error .eof ↔ b = [] ∨ ∃ ll, ll ≠ 0 ∧ b = putUint16 ll := by
  have hne : ∀ ll, putUint16 ll ≠ [] := fun ll h => by cases h
  rw [stepwise_decodeString.cut]
  constructor
  · rintro ⟨s, hs, hcut⟩
    -- the input stops before the length, or before the bytes
    have hcuts := (cutOf_append_iff (p := [putUint16 (UInt16.ofNat s.length)]) (q := [s])).mp hcut
    simp only [cutOf_singleton] at hcuts
    rcases hcuts with ⟨rfl, -⟩ | ⟨v, rfl, rfl, hs'⟩
    · exact Or.inl rfl
    · refine Or.inr ⟨UInt16.ofNat s.length, fun h => hs' ?_, by simp⟩
      exact List.length_eq_zero_iff.mp (eq_toNat_iff16.mpr ⟨hs, h⟩)
  · rintro (rfl | ⟨ll, hll, rfl⟩)
    · exact ⟨[], by decide, cutOf_nil_iff.mpr (by simp [stringPieces, hne])⟩
    · have hlen : (List.replicate ll.toNat (0 : UInt8)).length = ll.toNat := List.length_replicate
      obtain ⟨hlt, hof⟩ := eq_toNat_iff16.mp hlen
      refine ⟨List.replicate ll.toNat 0, hlt, ?_⟩
      refine (cutOf_append_iff (p := [putUint16 _])).mpr
        (Or.inr ⟨[], ?_, cutOf_singleton.mpr ⟨rfl, ?_⟩⟩)
      · rw [hof, List.append_nil, List.flatten_singleton]
      · intro h
        rw [h] at hlen
        exact hll (UInt16.toNat_inj.mp hlen.symm)

theorem decode_eq_ok_iff :
    Dir.zero.decode b = .ok (d, rest) ↔
      ∃ slack, Record.Fits (2 ^ 16) ⟨d, slack⟩ ∧ b = Record.encode ⟨d, slack⟩ ++ rest := by
  rw [Dir.decode_zero]
  constructor
  · intro h
    obtain ⟨body, mid, hbody, h⟩ := bind_eq_ok h
    obtain ⟨rfl, slack, hd⟩ := within_eq_ok h
    obtain ⟨hlt, rfl⟩ := decodeString_eq_ok_iff.mp hbody
    obtain ⟨hfields, rfl⟩ := decodeBody_eq_ok_iff.mp hd
    exact ⟨slack, ⟨hfields, hlt⟩, rfl⟩
  · rintro ⟨slack, ⟨hfields, hlt⟩, rfl⟩
    have hd : decodeBody (Record.body ⟨d, slack⟩) = .ok (d, slack) :=
      decodeBody_eq_ok_iff.mpr ⟨hfields, rfl⟩
    rw [bind_apply, Record.encode_eq, decodeString_eq_ok_iff.mpr ⟨hlt, rfl⟩]
    dsimp only
    rw [Reader.within, hd]

theorem decode_eq_eof_iff : Dir.zero.decode b = .error .eof ↔ b = [] ∨ Torn (2 ^ 16) b := by
  rw [Dir.decode_zero, bind_eq_error_iff, decodeString_eq_eof_iff]
  simp only [within_error_iff, decodeBody_eq_eof_iff]
  constructor
  · rintro ((rfl | ⟨ll, hll, rfl⟩) | ⟨body, rest, hbody, d, hd, hcut⟩)
    · exact Or.inl rfl
    · exact Or.inr (.size hll ll.toNat_lt)
    · obtain ⟨hlt, rfl⟩ := decodeString_eq_ok_iff.mp hbody
      exact Or.inr (.field rest hd hcut hlt)
  · rintro (rfl | ⟨hll, -⟩ | ⟨rest, hd, hcut, hlt⟩)
    · exact Or.inl (Or.inl rfl)
    · exact Or.inl (Or.inr ⟨_, hll, rfl⟩)
    · exact Or.inr ⟨_, rest, decodeString_eq_ok_iff.mpr ⟨hlt, rfl⟩, _, hd, hcut⟩

/-! ## Decoding a list -/

theorem Dir.decode_lt (h : Dir.zero.decode b = .ok (d, rest)) : rest.length < b.length := by
  obtain ⟨slack, -, rfl⟩ := decode_eq_ok_iff.mp h
  rw [List.length_append, Record.encode_length]
  omega

/-- Decoding into a `*[]Dir`, until there is nothing to read. -/
def decodeDirList (b : Bytes) : Except Err (List Dir) :=
  match _h : Dir.zero.decode b with
  | .error .eof => .ok []
  | .error err => .error err
  | .ok (d, rest) => do return d :: (← decodeDirList rest)
termination_by b.length
decreasing_by exact Dir.decode_lt _h

theorem decodeDirList_step :
    decodeDirList b = .ok ds ↔
      (ds = [] ∧ Dir.zero.decode b = .error .eof) ∨
        ∃ d rest ds', ds = d :: ds' ∧ Dir.zero.decode b = .ok (d, rest) ∧
          decodeDirList rest = .ok ds' := by
  rw [decodeDirList]
  split
  · rename_i h
    constructor
    · rintro ⟨⟩
      exact Or.inl ⟨rfl, h⟩
    · rintro (⟨rfl, -⟩ | ⟨d, rest, ds', -, hd, -⟩)
      · rfl
      · cases h.symm.trans hd
  · rename_i err hne h
    constructor
    · rintro ⟨⟩
    · rintro (⟨-, he⟩ | ⟨d, rest, ds', -, hd, -⟩)
      · exact absurd (Except.error.inj (h.symm.trans he)) hne
      · cases h.symm.trans hd
  · rename_i d rest h
    constructor
    · intro hds
      cases hrest : decodeDirList rest with
      | error e =>
          rw [hrest] at hds
          cases hds
      | ok ds' =>
          rw [hrest] at hds
          cases hds
          exact Or.inr ⟨d, rest, ds', rfl, h, hrest⟩
    · rintro (⟨-, he⟩ | ⟨d', rest', ds', rfl, hd, hrest⟩)
      · cases h.symm.trans he
      · cases h.symm.trans hd
        rw [hrest]
        rfl

/-! ## Lists of records -/

/-- `b` consists of these records. -/
def Whole (limit : Nat) (rs : List Record) (b : Bytes) : Prop :=
  (∀ r ∈ rs, r.Fits limit) ∧ b = rs.flatMap Record.encode

/-- `b` consists of records, the last one of them cut short. -/
def EndsTorn (limit : Nat) (b : Bytes) : Prop :=
  ∃ rs w tail, Whole limit rs w ∧ Torn limit tail ∧ b = w ++ tail

theorem whole_nil {limit : Nat} : Whole limit [] [] := ⟨List.forall_mem_nil _, rfl⟩

theorem Whole.cons {limit : Nat} {rs : List Record} (hr : r.Fits limit) (h : Whole limit rs b) :
    Whole limit (r :: rs) (r.encode ++ b) :=
  ⟨List.forall_mem_cons.mpr ⟨hr, h.1⟩, by rw [List.flatMap_cons, ← h.2]⟩

theorem Torn.ne_nil {limit : Nat} (h : Torn limit b) : b ≠ [] := by
  cases h <;> exact nofun

/-- Where a record ends, and what it holds, can be told from the bytes. -/
theorem Record.encode_inj {limit : Nat} (hlimit : limit ≤ 2 ^ 16) {r' : Record} {b' : Bytes}
    (hr : r.Fits limit) (hr' : r'.Fits limit) (h : r.encode ++ b = r'.encode ++ b') :
    r = r' ∧ b = b' := by
  have hs : decodeString (r.encode ++ b) = .ok (r.body, b) :=
    decodeString_eq_ok_iff.mpr ⟨Nat.lt_of_lt_of_le hr.2 hlimit, rfl⟩
  have hs' : decodeString (r'.encode ++ b') = .ok (r'.body, b') :=
    decodeString_eq_ok_iff.mpr ⟨Nat.lt_of_lt_of_le hr'.2 hlimit, rfl⟩
  rw [h, hs'] at hs
  obtain ⟨hbody, rfl⟩ := Prod.mk.inj (Except.ok.inj hs)
  have hd : decodeBody r.body = .ok (r.dir, r.slack) := decodeBody_eq_ok_iff.mpr ⟨hr.1, rfl⟩
  have hd' : decodeBody r'.body = .ok (r'.dir, r'.slack) := decodeBody_eq_ok_iff.mpr ⟨hr'.1, rfl⟩
  rw [← hbody, hd'] at hd
  obtain ⟨hdir, hslack⟩ := Prod.mk.inj (Except.ok.inj hd)
  exact ⟨Record.ext hdir.symm hslack.symm, rfl⟩

theorem Whole.unique {limit : Nat} (hlimit : limit ≤ 2 ^ 16) {tail : Bytes} :
    ∀ {rs rs' : List Record} {w : Bytes}, Whole limit rs w → Whole limit rs' (w ++ tail) →
      rs.length = rs'.length → rs = rs' ∧ tail = []
  | [], [], _, hw, hw', _ => by
      obtain ⟨-, rfl⟩ := hw
      exact ⟨rfl, hw'.2⟩
  | r :: rs, r' :: rs', _, hw, hw', hlen => by
      obtain ⟨hall, rfl⟩ := hw
      obtain ⟨hall', h⟩ := hw'
      obtain ⟨hr, hrs⟩ := List.forall_mem_cons.mp hall
      obtain ⟨hr', hrs'⟩ := List.forall_mem_cons.mp hall'
      rw [List.flatMap_cons, List.flatMap_cons, List.append_assoc] at h
      obtain ⟨rfl, hrest⟩ := Record.encode_inj hlimit hr hr' h
      have hlen' : rs.length = rs'.length := Nat.succ.inj hlen
      obtain ⟨rfl, rfl⟩ := Whole.unique hlimit ⟨hrs, rfl⟩ ⟨hrs', hrest⟩ hlen'
      exact ⟨rfl, rfl⟩

/-- The records that the encoder writes. -/
theorem whole_exact {limit : Nat} (hlimit : limit ≤ 2 ^ 16)
    (h : ∀ d ∈ ds, Record.Fits limit ⟨d, []⟩) :
    Whole limit (ds.map fun d => ⟨d, []⟩) (ds.flatMap Dir.encode) := by
  refine ⟨List.forall_mem_map.mpr h, ?_⟩
  rw [List.flatMap_map]
  refine List.flatMap_congr fun d hd => ?_
  have hbody := (h d hd).2
  rw [Record.body, List.append_nil] at hbody
  exact (record_encode ⟨(h d hd).1, by omega⟩).symm

/-! ## Loops that take `io.EOF` for the end -/

/-- `P b ds`: the loop reads `b` as `ds`, and ends without an error. -/
structure DirLoop (limit : Nat) (P : Bytes → List Dir → Prop) : Prop where
  nil : ∀ b, P b [] ↔ b = [] ∨ Torn limit b
  cons : ∀ b d ds, P b (d :: ds) ↔
    ∃ slack rest, Record.Fits limit ⟨d, slack⟩ ∧ b = Record.encode ⟨d, slack⟩ ++ rest ∧ P rest ds

section Loop

variable {limit : Nat} {P : Bytes → List Dir → Prop}

/-- A loop is told by its step. -/
theorem DirLoop.of_step {ok : Bytes → Dir → Bytes → Prop} {eof : Bytes → Prop}
    (hstep : ∀ b ds, P b ds ↔
      (ds = [] ∧ eof b) ∨ ∃ d rest ds', ds = d :: ds' ∧ ok b d rest ∧ P rest ds')
    (hok : ∀ b d rest, ok b d rest ↔
      ∃ slack, Record.Fits limit ⟨d, slack⟩ ∧ b = Record.encode ⟨d, slack⟩ ++ rest)
    (heof : ∀ b, eof b ↔ b = [] ∨ Torn limit b) : DirLoop limit P where
  nil b := by
    rw [hstep, heof]
    constructor
    · rintro (⟨-, h⟩ | ⟨_, _, _, ⟨⟩, _⟩)
      exact h
    · exact fun h => Or.inl ⟨rfl, h⟩
  cons b d ds := by
    rw [hstep]
    simp only [hok]
    constructor
    · rintro (⟨⟨⟩, -⟩ | ⟨_, rest, _, ⟨⟩, ⟨slack, hfits, rfl⟩, hrest⟩)
      exact ⟨slack, rest, hfits, rfl, hrest⟩
    · rintro ⟨slack, rest, hfits, rfl, hrest⟩
      exact Or.inr ⟨d, rest, ds, rfl, ⟨slack, hfits, rfl⟩, hrest⟩

/-- It reads whole records, up to the end or to one that is cut short. -/
theorem DirLoop.reads_iff (h : DirLoop limit P) :
    ∀ {b : Bytes}, P b ds ↔
      ∃ rs w tail, Whole limit rs w ∧ ds = rs.map Record.dir ∧
        (tail = [] ∨ Torn limit tail) ∧ b = w ++ tail := by
  induction ds with
  | nil =>
      intro b
      rw [h.nil]
      constructor
      · exact fun hb => ⟨[], [], b, whole_nil, rfl, hb, rfl⟩
      · rintro ⟨rs, w, tail, ⟨-, rfl⟩, hnil, htail, rfl⟩
        obtain rfl := List.map_eq_nil_iff.mp hnil.symm
        exact htail
  | cons d ds ih =>
      intro b
      rw [h.cons]
      simp only [ih]
      constructor
      · rintro ⟨slack, rest, hfits, rfl, rs, w, tail, hw, rfl, htail, rfl⟩
        exact ⟨⟨d, slack⟩ :: rs, _, tail, hw.cons hfits, rfl, htail, (List.append_assoc ..).symm⟩
      · rintro ⟨rs, w, tail, ⟨hrs, rfl⟩, hds, htail, rfl⟩
        obtain ⟨r, rs, rfl, rfl, rfl⟩ := List.map_eq_cons_iff.mp hds.symm
        obtain ⟨hr, hrs⟩ := List.forall_mem_cons.mp hrs
        exact ⟨r.slack, _, hr, by rw [List.flatMap_cons, List.append_assoc], rs, _, tail,
          ⟨hrs, rfl⟩, rfl, htail, rfl⟩

/-- **A loop reads all there is** exactly if the last record is not cut short. -/
theorem DirLoop.whole_iff (h : DirLoop limit P) (hlimit : limit ≤ 2 ^ 16) (b : Bytes) :
    (∀ ds, P b ds → ∃ rs, Whole limit rs b ∧ ds = rs.map Record.dir) ↔ ¬ EndsTorn limit b := by
  constructor
  · rintro hall ⟨rs, w, tail, hw, htail, rfl⟩
    have hread := h.reads_iff.mpr ⟨rs, w, tail, hw, rfl, Or.inr htail, rfl⟩
    obtain ⟨rs', hw', hds⟩ := hall _ hread
    have hlen := congrArg List.length hds
    rw [List.length_map, List.length_map] at hlen
    exact htail.ne_nil (Whole.unique hlimit hw hw' hlen).2
  · intro hshort ds hds
    obtain ⟨rs, w, tail, hw, rfl, rfl | htail, rfl⟩ := h.reads_iff.mp hds
    · exact ⟨rs, by rwa [List.append_nil], rfl⟩
    · exact absurd ⟨rs, w, tail, hw, htail, rfl⟩ hshort

/-- What it reads is what the encoder writes for it, exactly if moreover no record
has slack. -/
theorem DirLoop.exact_iff (h : DirLoop limit P) (hlimit : limit ≤ 2 ^ 16) (b : Bytes) :
    (∀ ds, P b ds → b = ds.flatMap Dir.encode) ↔
      ¬ EndsTorn limit b ∧ ∀ rs, Whole limit rs b → ∀ r ∈ rs, r.slack = [] := by
  have hfits : ∀ {rs w}, Whole limit rs w → ∀ d ∈ rs.map Record.dir, Record.Fits limit ⟨d, []⟩ := by
    intro rs w hw
    refine List.forall_mem_map.mpr fun r hr => ⟨(hw.1 r hr).1, ?_⟩
    have hlt := (hw.1 r hr).2
    rw [Record.body, List.length_append] at hlt
    show (r.dir.body ++ []).length < limit
    rw [List.append_nil]
    omega
  constructor
  · intro hall
    -- the records that are read, and those that the encoder writes, are as many
    have hexact : ∀ rs w tail, Whole limit rs w → (tail = [] ∨ Torn limit tail) →
        b = w ++ tail → (rs = (rs.map Record.dir).map fun d => ⟨d, []⟩) ∧ tail = [] := by
      rintro rs w tail hw htail rfl
      have hb := hall _ (h.reads_iff.mpr ⟨rs, w, tail, hw, rfl, htail, rfl⟩)
      have hw' := whole_exact hlimit (hfits hw)
      rw [← hb] at hw'
      exact Whole.unique hlimit hw hw' (by rw [List.length_map, List.length_map])
    constructor
    · rintro ⟨rs, w, tail, hw, htail, hb⟩
      exact htail.ne_nil (hexact rs w tail hw (Or.inr htail) hb).2
    · intro rs hw r hr
      rw [(hexact rs b [] hw (Or.inl rfl) (List.append_nil b).symm).1] at hr
      obtain ⟨d, -, rfl⟩ := List.mem_map.mp hr
      rfl
  · rintro ⟨hshort, hslack⟩ ds hds
    obtain ⟨rs, hw, rfl⟩ := (h.whole_iff hlimit b).mpr hshort ds hds
    have hrs : ((rs.map Record.dir).map fun d => (⟨d, []⟩ : Record)) = rs := by
      rw [List.map_map]
      refine Eq.trans (List.map_congr_left fun r hr => ?_) (List.map_id rs)
      exact Record.ext rfl (hslack rs hw r hr).symm
    have hw' := whole_exact hlimit (hfits hw)
    rw [hrs] at hw'
    exact hw.2.trans hw'.2.symm

end Loop

theorem dirLoop_decodeDirList : DirLoop (2 ^ 16) (fun b ds => decodeDirList b = .ok ds) :=
  .of_step (fun _ _ => decodeDirList_step) (fun _ _ _ => decode_eq_ok_iff)
    fun _ => decode_eq_eof_iff

/-- Bytes that end in a torn record are no row of whole ones. -/
theorem EndsTorn.not_whole (h : EndsTorn (2 ^ 16) b) (rs : List Record) :
    ¬ Whole (2 ^ 16) rs b := by
  intro hrs
  have hread := dirLoop_decodeDirList.reads_iff.mpr
    ⟨rs, b, [], hrs, rfl, Or.inl rfl, (List.append_nil b).symm⟩
  obtain ⟨rs', w, tail, hw, htail, rfl⟩ := h
  have hread' := dirLoop_decodeDirList.reads_iff.mpr ⟨rs', w, tail, hw, rfl, Or.inr htail, rfl⟩
  have hlen := congrArg List.length (Except.ok.inj (hread'.symm.trans hread))
  rw [List.length_map, List.length_map] at hlen
  exact htail.ne_nil (Whole.unique Nat.le.refl hw hrs hlen).2

end P9p
