/-
# `P9p.Encoding.Targets` — what decoding keeps of its target

`Unmarshal` decodes into a target that may hold anything.  All of it is overwritten,
with one exception: a length of zero leaves a byte slice as it was, and the read that
follows fills it, however long it is.  So the lengths of the byte slices in the target
decide how many bytes are read, and nothing else of the target matters:

    unmarshal_agree_iff    on an input, two targets of one type give the same exactly
                           if their byte slices are equally long, or the length in the
                           input is missing or not zero, or too few bytes follow it for
                           either slice

**Proof.**  A field that is no byte slice is decoded by a reader that depends on its
kind only (`Elem.decode_congr`).  What is decoded has the kinds of the fields, and a
message is determined by its type and fields, so it does not matter into which of the
two the fields are set.  The three values with a byte slice are made of what `slice`
reads (`slice_agree_iff`).
-/
import P9p.Encoding.Values

namespace P9p

open Wire Wire.Reader

variable {p : Plain} {b : Bytes} {m m' : Message}

/-! ## Fields -/

/-- The length of the byte slice that a field holds. -/
def Elem.held : Elem → Option Nat
  | .plain (.bytes b) => some b.length
  | _ => none

theorem Plain.decode_kind {q : Plain} {rest : Bytes} (h : p.decode b = .ok (q, rest)) :
    q.kind = p.kind := by
  cases p with
  | bytes old =>
      obtain ⟨_, _, -, h⟩ := bind_eq_ok h
      obtain ⟨_, _, -, h⟩ := bind_eq_ok h
      cases h
      rfl
  | strings | qids =>
      obtain ⟨_, _, -, h⟩ := bind_eq_ok h
      obtain ⟨_, _, -, h⟩ := bind_eq_ok h
      cases h
      rfl
  | _ =>
      obtain ⟨_, _, -, h⟩ := bind_eq_ok h
      cases h
      rfl

theorem Elem.decode_kind {e e' : Elem} {rest : Bytes} (h : e.decode b = .ok (e', rest)) :
    e'.kind = e.kind := by
  cases e with
  | plain p =>
      obtain ⟨q, _, hq, h⟩ := bind_eq_ok h
      cases h
      exact Plain.decode_kind hq
  | dir d =>
      obtain ⟨d', _, -, h⟩ := bind_eq_ok h
      cases h
      rfl

/-- A record has no byte slices, and all of it is overwritten. -/
theorem Dir.decode_congr (d d' : Dir) : d.decode = d'.decode := by
  have hfields : d.fields.mapM Plain.decode = d'.fields.mapM Plain.decode := rfl
  refine bind_congr fun ll => bind_congr fun b => ?_
  rw [hfields]
  funext mid
  refine bind_congr_ok fun fs _ hfs => ?_
  obtain ⟨-, left, hfs⟩ := within_eq_ok hfs
  have hkinds := mapM_map_eq Plain.kind Plain.kind (fun _ _ _ _ => Plain.decode_kind) _ hfs
  obtain ⟨d'', rfl⟩ := Dir.of_kinds hkinds
  rfl

/-- So is any other field that is no byte slice. -/
theorem Plain.decode_congr {p' : Plain} (hkind : p'.kind = p.kind) (hbytes : p.kind ≠ .bytes) :
    p'.decode = p.decode := by
  obtain ⟨v, hv⟩ := Elem.of_kind (e := .plain p') hkind
  cases p with
  | bytes old => exact absurd rfl hbytes
  | _ =>
      cases hv
      rfl

theorem Elem.decode_congr {e e' : Elem} (hkind : e'.kind = e.kind) (hbytes : e.kind ≠ .bytes) :
    e'.decode = e.decode := by
  cases e with
  | dir d =>
      obtain ⟨d', rfl⟩ := Elem.of_kind hkind
      show (do return Elem.dir (← Dir.decode d')) = (do return Elem.dir (← d.decode) : Decoder Elem)
      rw [Dir.decode_congr d' d]
  | plain p =>
      cases e' with
      | plain p' => rw [Elem.decode, Elem.decode, Plain.decode_congr hkind hbytes]
      | dir d => cases p <;> cases hkind

theorem map_decode_congr {es es' : List Elem} (hkinds : es'.map Elem.kind = es.map Elem.kind)
    (hbytes : .bytes ∉ es.map Elem.kind) : es'.map Elem.decode = es.map Elem.decode := by
  induction es generalizing es' with
  | nil => rw [List.map_eq_nil_iff.mp hkinds]
  | cons e es ih =>
      obtain ⟨e', es', rfl, hkind, hkinds⟩ := List.map_eq_cons_iff.mp hkinds
      obtain ⟨hhead, htail⟩ := not_or.mp (mt List.mem_cons.mpr hbytes)
      rw [List.map_cons, List.map_cons, ih hkinds htail, Elem.decode_congr hkind (Ne.symm hhead)]

/-! ## Messages -/

theorem Elem.zero_kind (e : Elem) : e.zero.kind = e.kind := by
  cases e with
  | plain p => exact p.zero_kind
  | dir d => rfl

namespace Message

/-- A message is determined by its type and its fields. -/
theorem ext_fields (htype : m'.type = m.type) (hfields : m'.fields = m.fields) : m' = m := by
  obtain ⟨z, hz, -, hset⟩ := newMessage_spec m
  obtain ⟨z', hz', -, hset'⟩ := newMessage_spec m'
  rw [htype, hz] at hz'
  cases hz'
  rw [← hset, ← hset', hfields]

/-- The type determines the kinds of the fields. -/
theorem kinds_of_type (htype : m'.type = m.type) :
    m'.fields.map Elem.kind = m.fields.map Elem.kind := by
  obtain ⟨z, hz, hfields, -⟩ := newMessage_spec m
  obtain ⟨z', hz', hfields', -⟩ := newMessage_spec m'
  rw [htype, hz] at hz'
  cases hz'
  have hkinds := congrArg (List.map Elem.kind) (hfields'.symm.trans hfields)
  rw [List.map_map, List.map_map] at hkinds
  have hzero : Elem.kind ∘ Elem.zero = Elem.kind := funext Elem.zero_kind
  rwa [hzero] at hkinds

theorem setFields_congr (htype : m'.type = m.type) {es : List Elem}
    (hkinds : es.map Elem.kind = m.fields.map Elem.kind) : m'.setFields es = m.setFields es := by
  obtain ⟨hfields, ht⟩ := setFields_spec hkinds
  obtain ⟨hfields', ht'⟩ := setFields_spec (hkinds.trans (kinds_of_type htype).symm)
  exact ext_fields (ht'.trans (htype.trans ht.symm)) (hfields'.trans hfields.symm)

theorem mapM_decode_eq (es : List Elem) : es.mapM Elem.decode = (es.map Elem.decode).mapM id := by
  rw [List.mapM_map]
  rfl

theorem of_type_rstat (h : m.type = 125) : ∃ stat, m = .rstat stat := by
  cases m with
  | rstat stat => exact ⟨stat, rfl⟩
  | _ => exact absurd h (of_decide_eq_false rfl)

theorem of_type_twstat (h : m.type = 126) : ∃ fid stat, m = .twstat fid stat := by
  cases m with
  | twstat fid stat => exact ⟨fid, stat, rfl⟩
  | _ => exact absurd h (of_decide_eq_false rfl)

theorem of_type_rread (h : m.type = 117) : ∃ data, m = .rread data := by
  cases m with
  | rread data => exact ⟨data, rfl⟩
  | _ => exact absurd h (of_decide_eq_false rfl)

theorem of_type_twrite (h : m.type = 118) : ∃ fid offset data, m = .twrite fid offset data := by
  cases m with
  | twrite fid offset data => exact ⟨fid, offset, data, rfl⟩
  | _ => exact absurd h (of_decide_eq_false rfl)

theorem decode_congr (htype : m'.type = m.type) (hbytes : .bytes ∉ m.fields.map Elem.kind) :
    m'.decode = m.decode := by
  have hkinds := kinds_of_type htype
  have hmap := map_decode_congr hkinds hbytes
  have hdecoded : ∀ {es es' : List Elem} {b rest : Bytes},
      es.mapM Elem.decode b = .ok (es', rest) → es'.map Elem.kind = es.map Elem.kind :=
    fun h => mapM_map_eq Elem.kind Elem.kind (fun _ _ _ _ => Elem.decode_kind) _ h
  have hfields : (do return m'.setFields (← m'.fields.mapM Elem.decode) : Decoder Message) =
      (do return m.setFields (← m.fields.mapM Elem.decode)) := by
    rw [mapM_decode_eq, hmap, ← mapM_decode_eq]
    funext b
    refine bind_congr_ok fun es _ hes => ?_
    rw [setFields_congr htype (hdecoded hes)]
  by_cases h125 : m.type = 125
  · obtain ⟨stat, rfl⟩ := of_type_rstat h125
    obtain ⟨stat', rfl⟩ := of_type_rstat (htype.trans h125)
    exact bind_congr fun _ => hfields
  · by_cases h126 : m.type = 126
    · obtain ⟨fid, stat, rfl⟩ := of_type_twstat h126
      obtain ⟨fid', stat', rfl⟩ := of_type_twstat (htype.trans h126)
      -- the fid and the record are read apart, with the size between them
      rw [Message.decode, Message.decode, mapM_decode_eq, mapM_decode_eq, List.map_take,
        List.map_drop, hmap, ← List.map_take, ← List.map_drop, ← mapM_decode_eq,
        ← mapM_decode_eq]
      funext b
      refine bind_congr_ok fun es mid hes => bind_congr_ok fun _ mid' _ =>
        bind_congr_ok fun es' _ hes' => ?_
      have hkinds' : (es ++ es').map Elem.kind = (twstat fid stat).fields.map Elem.kind := by
        rw [List.map_append, hdecoded hes, hdecoded hes', ← List.map_append,
          List.take_append_drop]
      rw [setFields_congr htype hkinds']
    · rw [decode_plain h125 h126, decode_plain (htype ▸ h125) (htype ▸ h126)]
      exact hfields

end Message

/-! ## `Unmarshal` -/

namespace Datum

/-- `codec9p.Unmarshal` into a pointer to a value.  Lists of records and Fcalls are
made anew. -/
def unmarshal (data : Bytes) : Datum → Except Err Datum
  | plain p => (p.decode data).map fun (q, _) => plain q
  | dir d => (d.decode data).map fun (d', _) => dir d'
  | dirs _ => (decodeDirList data).map dirs
  | fcall _ => (P9p.unmarshal data).map fcall
  | message m => (m.decode data).map fun (m', _) => message m'

/-- The two values are of one Go type. -/
def SameType : Datum → Datum → Prop
  | plain p, plain q => p.kind = q.kind
  | dir _, dir _ => True
  | dirs _, dirs _ => True
  | fcall _, fcall _ => True
  | message m, message m' => m.type = m'.type
  | _, _ => False

/-- The lengths of the byte slices that a target holds. -/
def held : Datum → List Nat
  | plain p => (Elem.plain p).held.toList
  | message m => m.fields.filterMap Elem.held
  | _ => []

/-! ## Byte slices -/

/-- The bytes of a slice, for a target that holds `old`. -/
def slice (old : Bytes) : Decoder Bytes := do
  let ll ← getUint32
  readFull (sliceFor ll old).length

theorem value?_getUint32 {α : Type} (f : UInt32 → Decoder α) (b : Bytes) :
    (getUint32 >>= f).value? b =
      if 4 ≤ b.length then (f (UInt32.ofNat (ofLE (b.take 4)))).value? (b.drop 4) else none := by
  rw [getUint32, bind_assoc]
  exact value?_take_bind _ _ 4 _ b

theorem value?_getUint64 {α : Type} (f : UInt64 → Decoder α) (b : Bytes) :
    (getUint64 >>= f).value? b =
      if 8 ≤ b.length then (f (UInt64.ofNat (ofLE (b.take 8)))).value? (b.drop 8) else none := by
  rw [getUint64, bind_assoc]
  exact value?_take_bind _ _ 8 _ b

/-- Four bytes are the number zero if and only if all of them are. -/
theorem ofLE_eq_zero_iff (h : 4 ≤ b.length) :
    UInt32.ofNat (ofLE (b.take 4)) = 0 ↔ b.take 4 = [0, 0, 0, 0] := by
  have hlen : (b.take 4).length = 4 := List.length_take_of_le h
  constructor
  · intro hzero
    have hlt := ofLE_lt (b.take 4)
    rw [hlen] at hlt
    have hnat : ofLE (b.take 4) = 0 := by
      rw [← UInt32.toNat_ofNat_of_lt' hlt, hzero]
      rfl
    rw [← toLE_ofLE (b.take 4), hlen, hnat]
    rfl
  · intro hzero
    rw [hzero]
    rfl

/-- The old slices matter if their lengths differ, the length that is read is
zero, and there are enough bytes for one of them. -/
theorem slice_agree_iff (old old' b : Bytes) :
    (slice old).value? b = (slice old').value? b ↔
      old.length = old'.length ∨ b.take 4 ≠ [0, 0, 0, 0] ∨
        b.length < 4 + old.length ∧ b.length < 4 + old'.length := by
  rw [slice, slice, value?_getUint32, value?_getUint32]
  split
  · rename_i hfull
    by_cases hzero : b.take 4 = [0, 0, 0, 0]
    · have hll := (ofLE_eq_zero_iff hfull).mpr hzero
      have hold : ∀ old, sliceFor 0 old = old := fun _ => rfl
      rw [hll, hold, hold, readFull, readFull, value?_take_eq_iff, List.length_drop]
      simp only [hzero, ne_eq, not_true_eq_false, false_or]
      omega
    · have hll := mt (ofLE_eq_zero_iff hfull).mp hzero
      have hnew : ∀ old, sliceFor (UInt32.ofNat (ofLE (b.take 4))) old =
          List.replicate (UInt32.ofNat (ofLE (b.take 4))).toNat 0 :=
        fun _ => if_pos (UInt32.pos_iff_ne_zero.mpr hll)
      exact iff_of_true (by rw [hnew, hnew]) (Or.inr (Or.inl hzero))
  · rename_i hshort
    refine iff_of_true rfl (Or.inr (Or.inl fun hzero => hshort ?_))
    have hlen : (b.take 4).length = 4 := congrArg List.length hzero
    rw [List.length_take] at hlen
    omega

/-- Where the length of the byte slice stands: in a `Twrite` behind the fid and the
offset. -/
def lengthAt : Datum → Nat
  | message (.twrite _ _ _) => 12
  | _ => 0

theorem toOption_plain (p : Plain) (b : Bytes) :
    ((plain p).unmarshal b).toOption = (p.decode.value? b).map plain := by
  rw [unmarshal, value?]
  cases p.decode b <;> rfl

theorem toOption_message (m : Message) (b : Bytes) :
    ((message m).unmarshal b).toOption = (m.decode.value? b).map message := by
  rw [unmarshal, value?]
  cases m.decode b <;> rfl

theorem decode_bytes (old : Bytes) :
    (Plain.bytes old).decode = (do return .bytes (← slice old)) := by
  simp only [Plain.decode, slice, bind_assoc]

theorem decode_rread (old : Bytes) :
    (Message.rread old).decode = (do return .rread (← slice old)) := by
  have hset : ∀ x, (Message.rread old).setFields [.plain (.bytes x)] = .rread x := fun _ => rfl
  rw [Message.decode_plain (of_decide_eq_false rfl) (of_decide_eq_false rfl)]
  simp [Message.fields, Elem.decode, decode_bytes, hset]

theorem decode_twrite (fid : Fid) (offset : UInt64) (old : Bytes) :
    (Message.twrite fid offset old).decode = (do
      let fid ← getUint32
      let offset ← getUint64
      return .twrite fid offset (← slice old)) := by
  have hset : ∀ f o x, (Message.twrite fid offset old).setFields
      [.plain (.uint32 f), .plain (.uint64 o), .plain (.bytes x)] = .twrite f o x :=
    fun _ _ _ => rfl
  have hfid : (Plain.uint32 fid).decode = (do return .uint32 (← getUint32)) := rfl
  have hoffset : (Plain.uint64 offset).decode = (do return .uint64 (← getUint64)) := rfl
  rw [Message.decode_plain (of_decide_eq_false rfl) (of_decide_eq_false rfl)]
  simp [Message.fields, Elem.decode, hfid, hoffset, decode_bytes, hset]

theorem toOption_bytes (old b : Bytes) :
    ((plain (.bytes old)).unmarshal b).toOption =
      ((slice old).value? b).map fun x => plain (.bytes x) := by
  rw [toOption_plain, decode_bytes, value?_map, Option.map_map]
  rfl

theorem toOption_rread (old b : Bytes) :
    ((message (.rread old)).unmarshal b).toOption =
      ((slice old).value? b).map fun x => message (.rread x) := by
  rw [toOption_message, decode_rread, value?_map, Option.map_map]
  rfl

theorem toOption_twrite (fid : Fid) (offset : UInt64) (old : Bytes) (h : 12 ≤ b.length) :
    ((message (.twrite fid offset old)).unmarshal b).toOption =
      ((slice old).value? (b.drop 12)).map fun x => message (.twrite
        (UInt32.ofNat (ofLE (b.take 4))) (UInt64.ofNat (ofLE ((b.drop 4).take 8))) x) := by
  rw [toOption_message, decode_twrite, value?_getUint32, if_pos (by omega), value?_getUint64,
    if_pos (by rw [List.length_drop]; omega), value?_map, Option.map_map, List.drop_drop]
  rfl

theorem toOption_twrite_short (fid : Fid) (offset : UInt64) (old : Bytes) (h : b.length < 12) :
    ((message (.twrite fid offset old)).unmarshal b).toOption = none := by
  rw [toOption_message, decode_twrite, value?_getUint32]
  split
  · rw [value?_getUint64, if_neg (by rw [List.length_drop]; omega)]
    rfl
  · rfl

/-- Targets that are decoded to what is made of their slices. -/
theorem agree_iff_of_slice {v w : Datum} {c old old' : Bytes} {g : Bytes → Datum}
    (hg : Function.Injective g) (hv : (v.unmarshal b).toOption = ((slice old).value? c).map g)
    (hw : (w.unmarshal b).toOption = ((slice old').value? c).map g) :
    (v.unmarshal b).toOption = (w.unmarshal b).toOption ↔
      old.length = old'.length ∨ c.take 4 ≠ [0, 0, 0, 0] ∨
        c.length < 4 + old.length ∧ c.length < 4 + old'.length := by
  rw [hv, hw]
  exact (Option.map_injective hg).eq_iff.trans (slice_agree_iff old old' c)

theorem bytes_agree_iff (old old' b : Bytes) :
    ((plain (.bytes old)).unmarshal b).toOption = ((plain (.bytes old')).unmarshal b).toOption ↔
      old.length = old'.length ∨ b.take 4 ≠ [0, 0, 0, 0] ∨
        b.length < 4 + old.length ∧ b.length < 4 + old'.length :=
  agree_iff_of_slice (fun _ _ h => Plain.bytes.inj (Datum.plain.inj h)) (toOption_bytes old b)
    (toOption_bytes old' b)

theorem rread_agree_iff (old old' b : Bytes) :
    ((message (.rread old)).unmarshal b).toOption =
        ((message (.rread old')).unmarshal b).toOption ↔
      old.length = old'.length ∨ b.take 4 ≠ [0, 0, 0, 0] ∨
        b.length < 4 + old.length ∧ b.length < 4 + old'.length :=
  agree_iff_of_slice (fun _ _ h => Message.rread.inj (Datum.message.inj h)) (toOption_rread old b)
    (toOption_rread old' b)

theorem twrite_agree_iff (fid fid' : Fid) (offset offset' : UInt64) (old old' b : Bytes) :
    ((message (.twrite fid offset old)).unmarshal b).toOption =
        ((message (.twrite fid' offset' old')).unmarshal b).toOption ↔
      old.length = old'.length ∨ (b.drop 12).take 4 ≠ [0, 0, 0, 0] ∨
        b.length < 12 + 4 + old.length ∧ b.length < 12 + 4 + old'.length := by
  by_cases h : 12 ≤ b.length
  · have hlen : ∀ n, b.length < 12 + 4 + n ↔ (b.drop 12).length < 4 + n := by
      intro n
      rw [List.length_drop]
      omega
    rw [hlen, hlen]
    exact agree_iff_of_slice (fun _ _ h => (Message.twrite.inj (Datum.message.inj h)).2.2)
      (toOption_twrite fid offset old h) (toOption_twrite fid' offset' old' h)
  · have hshort := Nat.not_le.mp h
    rw [toOption_twrite_short fid offset old hshort, toOption_twrite_short fid' offset' old' hshort,
      List.drop_eq_nil_of_le (Nat.le_of_lt hshort)]
    exact iff_of_true rfl (Or.inr (Or.inl (by decide)))

theorem held_plain (h : p.kind ≠ .bytes) : (plain p).held = [] := by
  cases p with
  | bytes => exact absurd rfl h
  | _ => rfl

/-- The other messages have no byte slice. -/
theorem held_message (h117 : m.type ≠ 117) (h118 : m.type ≠ 118) :
    (message m).held = [] ∧ .bytes ∉ m.fields.map Elem.kind := by
  cases m with
  | rread => exact absurd rfl h117
  | twrite => exact absurd rfl h118
  | _ => exact ⟨rfl, by simp [Message.fields, Elem.kind, Plain.kind]⟩

theorem agree_iff_of_held {v w : Datum} {m n : Nat} (hv : v.held = [m]) (hw : w.held = [n])
    (h : (v.unmarshal b).toOption = (w.unmarshal b).toOption ↔
      m = n ∨ (b.drop v.lengthAt).take 4 ≠ [0, 0, 0, 0] ∨
        b.length < v.lengthAt + 4 + m ∧ b.length < v.lengthAt + 4 + n) :
    (v.unmarshal b).toOption = (w.unmarshal b).toOption ↔
      v.held = w.held ∨ (b.drop v.lengthAt).take 4 ≠ [0, 0, 0, 0] ∨
        ∀ n ∈ v.held ++ w.held, b.length < v.lengthAt + 4 + n := by
  rw [h, hv, hw]
  simp

/-- **Decoding depends on its target** only in the length of a byte slice there.
Two targets of one type both fail, or succeed and are left with equal values,
exactly if these lengths are the same, or the length in the input is not zero or
missing, or the input is too short for both. -/
theorem unmarshal_agree_iff (v w : Datum) (htype : v.SameType w) (b : Bytes) :
    (v.unmarshal b).toOption = (w.unmarshal b).toOption ↔
      v.held = w.held ∨ (b.drop v.lengthAt).take 4 ≠ [0, 0, 0, 0] ∨
        ∀ n ∈ v.held ++ w.held, b.length < v.lengthAt + 4 + n := by
  cases v with
  | plain p =>
      cases w with
      | plain q =>
          by_cases hbytes : p.kind = .bytes
          · obtain ⟨old, ⟨⟩⟩ := Elem.of_kind (e := .plain p) hbytes
            obtain ⟨old', ⟨⟩⟩ := Elem.of_kind (e := .plain q) htype.symm
            exact agree_iff_of_held rfl rfl (bytes_agree_iff old old' b)
          · rw [unmarshal, unmarshal, Plain.decode_congr htype (htype ▸ hbytes)]
            have hheld := (held_plain hbytes).trans (held_plain (htype ▸ hbytes)).symm
            exact iff_of_true rfl (Or.inl hheld)
      | _ => exact htype.elim
  | message m =>
      cases w with
      | message m' =>
          by_cases h117 : m.type = 117
          · obtain ⟨old, rfl⟩ := Message.of_type_rread h117
            obtain ⟨old', rfl⟩ := Message.of_type_rread (htype.symm.trans h117)
            exact agree_iff_of_held rfl rfl (rread_agree_iff old old' b)
          · by_cases h118 : m.type = 118
            · obtain ⟨fid, offset, old, rfl⟩ := Message.of_type_twrite h118
              obtain ⟨fid', offset', old', rfl⟩ := Message.of_type_twrite (htype.symm.trans h118)
              exact agree_iff_of_held rfl rfl (twrite_agree_iff fid fid' offset offset' old old' b)
            · obtain ⟨hheld, -⟩ := held_message h117 h118
              obtain ⟨hheld', hbytes⟩ := held_message (htype ▸ h117) (htype ▸ h118)
              rw [unmarshal, unmarshal, Message.decode_congr htype hbytes]
              exact iff_of_true rfl (Or.inl (hheld.trans hheld'.symm))
      | _ => exact htype.elim
  | dir d =>
      cases w with
      | dir d' =>
          rw [unmarshal, unmarshal, Dir.decode_congr d d']
          exact iff_of_true rfl (Or.inl rfl)
      | _ => exact htype.elim
  | dirs ds =>
      cases w with
      | dirs ds' => exact iff_of_true rfl (Or.inl rfl)
      | _ => exact htype.elim
  | fcall f =>
      cases w with
      | fcall f' => exact iff_of_true rfl (Or.inl rfl)
      | _ => exact htype.elim

/-- The length in the input is one: a slice that held a byte is as good as an
empty one. -/
theorem unmarshal_agree_nonzero :
    (plain (.bytes [7])).SameType (plain (.bytes [])) ∧
      ((plain (.bytes [7])).unmarshal [1, 0, 0, 0, 5]).toOption =
        ((plain (.bytes [])).unmarshal [1, 0, 0, 0, 5]).toOption :=
  ⟨rfl, (unmarshal_agree_iff (plain (.bytes [7])) (plain (.bytes [])) rfl _).mpr
    (Or.inr (Or.inl (by decide)))⟩

/-- A byte slice and an `Rread` that held one byte, decoded from a length of zero
and a byte, and fresh ones.  Without the byte the reused ones fail. -/
theorem unmarshal_reused :
    ((plain (.bytes [7])).unmarshal [0, 0, 0, 0, 9] = .ok (plain (.bytes [9])) ∧
        (plain (.bytes [])).unmarshal [0, 0, 0, 0, 9] = .ok (plain (.bytes []))) ∧
      ((message (.rread [7])).unmarshal [0, 0, 0, 0, 9] = .ok (message (.rread [9])) ∧
        (message (.rread [])).unmarshal [0, 0, 0, 0, 9] = .ok (message (.rread []))) ∧
      (message (.rread [7])).unmarshal [0, 0, 0, 0] = .error .eof ∧
        (message (.rread [])).unmarshal [0, 0, 0, 0] = .ok (message (.rread [])) :=
  ⟨⟨rfl, rfl⟩, ⟨rfl, rfl⟩, rfl, rfl⟩

end Datum

end P9p
