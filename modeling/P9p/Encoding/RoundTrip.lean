/-
# `P9p.Encoding.RoundTrip` — decoding undoes encoding

For every Fcall whose fields the wire format can hold, reading its encoding
back, with anything behind it, gives the Fcall and stops exactly at the end:

    f.type = m.type → f.message = .value m → m.Encodable →
      marshal f = .ok p  and  Encodes decodeFcall p f

The proof climbs the layers of the codec.  `Encodes` composes along `bind`, so
a struct needs two facts only: its field list is encoded field by field, and
writing the decoded list back through `setFields` rebuilds the struct.  The
second is the only place where the 27 kinds are told apart.

The decoder starts from the zero value of each target.  `zero` gives it per
value, and `newMessage` hands out exactly the message whose fields are zero.

The sizes in the format come from `size9p`, which counts in 32 bits:
`size_toNat` says that it is the length of the encoding modulo `2 ^ 32`, so a
record body of at most 65535 bytes gets its true length as prefix.  The second
size of `Rstat` and `Twstat` may wrap (it is larger by two); nothing reads it.
-/
import P9p.Encoding
import Mathlib.Algebra.BigOperators.Group.List.Basic

namespace P9p

open Wire Wire.Reader

variable {α : Type} {m : Message}

/-! ## What the wire format can hold -/

def Plain.Encodable : Plain → Prop
  | .bytes b => b.length < 2 ^ 32
  | .string s => s.length < 2 ^ 16
  | .strings ss => ss.length < 2 ^ 16 ∧ ∀ s ∈ ss, s.length < 2 ^ 16
  | .time t => t.OnWire
  | .qids qs => qs.length < 2 ^ 16
  | _ => True

/-- A record whose body the 16-bit size prefix can state. -/
def Dir.Encodable (d : Dir) : Prop :=
  (∀ p ∈ d.fields, p.Encodable) ∧ d.body.length ≤ 65535

def Elem.Encodable : Elem → Prop
  | .plain p => p.Encodable
  | .dir d => d.Encodable

def Message.Encodable (m : Message) : Prop := ∀ e ∈ m.fields, e.Encodable

instance : DecidablePred Plain.Encodable
  | .bytes b => inferInstanceAs (Decidable (b.length < 2 ^ 32))
  | .string s => inferInstanceAs (Decidable (s.length < 2 ^ 16))
  | .strings ss =>
      inferInstanceAs (Decidable (ss.length < 2 ^ 16 ∧ ∀ s ∈ ss, s.length < 2 ^ 16))
  | .time t => inferInstanceAs (Decidable t.OnWire)
  | .qids qs => inferInstanceAs (Decidable (qs.length < 2 ^ 16))
  | .uint8 _ | .uint16 _ | .uint32 _ | .uint64 _ | .qid _ => inferInstanceAs (Decidable True)

instance (d : Dir) : Decidable d.Encodable := inferInstanceAs (Decidable (_ ∧ _))

instance : DecidablePred Elem.Encodable
  | .plain p => inferInstanceAs (Decidable p.Encodable)
  | .dir d => inferInstanceAs (Decidable d.Encodable)

instance (m : Message) : Decidable m.Encodable :=
  inferInstanceAs (Decidable (∀ e ∈ m.fields, e.Encodable))

/-! ## Sizes are lengths modulo 2 ^ 32 -/

/-- A wrapping sum of sizes that are lengths modulo `2 ^ 32` is the total
length modulo `2 ^ 32`. -/
theorem foldl_size_toNat (size : α → UInt32) (len : α → Nat) (init : UInt32) :
    ∀ (xs : List α), (∀ x ∈ xs, (size x).toNat = len x % 2 ^ 32) →
      (xs.foldl (fun s x => s + size x) init).toNat = (init.toNat + (xs.map len).sum) % 2 ^ 32
  | [], _ => by
      have hlt := init.toNat_lt
      simp only [List.foldl_nil, List.map_nil, List.sum_nil]
      omega
  | x :: xs, h => by
      have hx := h x List.mem_cons_self
      have ih := foldl_size_toNat size len (init + size x) xs
        (fun y hy => h y (List.mem_cons_of_mem _ hy))
      rw [List.foldl_cons, ih, List.map_cons, List.sum_cons, UInt32.toNat_add, hx]
      omega

theorem putUint16_length (n : UInt16) : (putUint16 n).length = 2 := toLE_length 2 n.toNat

theorem putUint32_length (n : UInt32) : (putUint32 n).length = 4 := toLE_length 4 n.toNat

theorem ofLE_putUint16 (n : UInt16) : ofLE (putUint16 n) = n.toNat :=
  ofLE_toLE_of_lt (n := 2) n.toNat_lt

theorem ofLE_putUint32 (n : UInt32) : ofLE (putUint32 n) = n.toNat :=
  ofLE_toLE_of_lt (n := 4) n.toNat_lt

@[simp] theorem encodeString_length (s : Bytes) : (encodeString s).length = 2 + s.length := by
  simp [encodeString, putUint16]

@[simp] theorem Qid.encode_length (q : Qid) : q.encode.length = 13 := by
  simp [Qid.encode, putUint32, putUint64]

theorem Plain.size_toNat (p : Plain) : (p.size false).toNat = p.encode.length % 2 ^ 32 := by
  cases p with
  | uint8 n => rfl
  | uint16 n => simp [Plain.size, Plain.encode, putUint16]
  | uint32 n => simp [Plain.size, Plain.encode, putUint32]
  | uint64 n => simp [Plain.size, Plain.encode, putUint64]
  | bytes b => simp [Plain.size, Plain.encode, putUint32]
  | string s => simp [Plain.size, Plain.encode]
  | strings ss =>
      have h := foldl_size_toNat (fun sv : Bytes => UInt32.ofNat (2 + sv.length))
        (fun sv => (encodeString sv).length) 2 ss (fun s _ => by simp)
      simp only [Plain.size, Plain.encode, putUint16, List.length_append, toLE_length,
        List.length_flatMap]
      exact h
  | time t => simp [Plain.size, Plain.encode, putUint32]
  | qid q => simp [Plain.size, Plain.encode, Qid.size]
  | qids qs =>
      have h := foldl_size_toNat (fun _ : Qid => Qid.size) (fun q => q.encode.length) 2 qs
        (fun q _ => by simp [Qid.size])
      simp only [Plain.size, Plain.encode, putUint16, List.length_append, toLE_length,
        List.length_flatMap]
      exact h

theorem Dir.fieldsSize_toNat (d : Dir) : d.fieldsSize.toNat = d.body.length % 2 ^ 32 := by
  have h := foldl_size_toNat (fun p : Plain => p.size false) (fun p => p.encode.length) 0 d.fields
    (fun p _ => p.size_toNat)
  rw [Dir.fieldsSize, h, Dir.body, List.length_flatMap]
  simp

theorem Dir.encode_length (d : Dir) : d.encode.length = 2 + d.body.length := by
  simp [Dir.encode, putUint16]

theorem Elem.size_toNat (e : Elem) : (e.size false).toNat = e.encode.length % 2 ^ 32 := by
  cases e with
  | plain p => exact p.size_toNat
  | dir d =>
      have h := d.fieldsSize_toNat
      rw [Elem.size, Dir.size, UInt32.toNat_add, h, Elem.encode, d.encode_length]
      show (_ + 2) % _ = _
      omega

theorem size9p_toNat (es : List Elem) :
    (size9p false es).toNat = (es.flatMap Elem.encode).length % 2 ^ 32 := by
  have h := foldl_size_toNat (fun e : Elem => e.size false) (fun e => e.encode.length) 0 es
    (fun e _ => e.size_toNat)
  rw [size9p, h, List.length_flatMap]
  simp

theorem Message.size_toNat (m : Message) :
    (m.size false).toNat = (m.encode false).length % 2 ^ 32 := by
  have hfields := size9p_toNat m.fields
  -- `Rstat` and `Twstat` count their second size
  cases m with
  | rstat stat =>
      rw [Message.size, UInt32.toNat_add, hfields, Message.encode, List.length_append,
        putUint16_length]
      show (2 + _) % _ = _
      omega
  | twstat fid stat =>
      rw [Message.size, UInt32.toNat_add, hfields, Message.encode]
      show (2 + _) % _ = _
      simp only [Message.fields, List.take, List.drop, List.flatMap_cons, List.flatMap_nil,
        List.append_nil, List.length_append, putUint16_length]
      omega
  | _ => exact hfields

/-- `Size` of an Fcall that holds its message by value. -/
theorem Fcall.size_toNat {f : Fcall} (hm : f.message = .value m) :
    f.size.toNat = f.encode.length % 2 ^ 32 := by
  have h := m.size_toNat
  have hlen : f.encode.length = 3 + (m.encode false).length := by
    simp only [Fcall.encode, hm, MessageVal.encode, List.length_append, List.length_singleton,
      putUint16, toLE_length]
  rw [Fcall.size, hm, MessageVal.size, UInt32.toNat_add, h, hlen]
  show (3 + _) % _ = _
  omega

/-! ### By reference -/

def Plain.isBytes : Plain → Bool
  | .bytes _ => true
  | _ => false

theorem Plain.size_byRef {p : Plain} (h : p.isBytes = false) : p.size true = p.size false := by
  cases p with
  | bytes b => cases h
  | _ => rfl

def Elem.isBytes : Elem → Bool
  | .plain p => p.isBytes
  | .dir _ => false

theorem Elem.size_byRef {e : Elem} (h : e.isBytes = false) : e.size true = e.size false := by
  cases e with
  | plain p => exact Plain.size_byRef h
  | dir d => rfl

theorem size9p_byRef {es : List Elem} (h : es.any Elem.isBytes = false) :
    size9p true es = size9p false es := by
  refine List.foldl_ext _ _ 0 fun s e he => ?_
  have hplain : e.isBytes = false := Bool.eq_false_iff.mpr (List.any_eq_false.mp h e he)
  rw [Elem.size_byRef hplain]

theorem Message.encode_byRef_length (m : Message) :
    (m.encode true).length = (m.encode false).length := by
  unfold Message.encode
  split <;> simp only [List.length_append, putUint16, toLE_length]

/-- By reference, a byte slice counts for four bytes more; a message has at most
one. -/
theorem Message.size_true (m : Message) :
    m.size true = m.size false + if m.fields.any Elem.isBytes then 4 else 0 := by
  have hplain : m.fields.any Elem.isBytes = false → m.size true = m.size false + 0 := by
    intro h
    rw [UInt32.add_zero]
    unfold Message.size
    split <;> rw [size9p_byRef h]
  cases m with
  | rread data =>
      show 0 + (4 + UInt32.ofNat (4 + data.length)) = 0 + UInt32.ofNat (4 + data.length) + 4
      rw [UInt32.add_comm 4, UInt32.add_assoc]
  | twrite fid offset data =>
      show 0 + 4 + 8 + (4 + UInt32.ofNat (4 + data.length)) =
        0 + 4 + 8 + UInt32.ofNat (4 + data.length) + 4
      rw [UInt32.add_comm 4 (UInt32.ofNat _), ← UInt32.add_assoc]
  | _ => exact hplain rfl

theorem Message.size_byRef (m : Message) :
    m.size true = m.size false ∨ m.size true = m.size false + 4 := by
  rw [m.size_true]
  split
  · exact Or.inr rfl
  · exact Or.inl (UInt32.add_zero _)

/-! ## Integers, strings and qids -/

/-- Reading a little-endian number of a fixed width. -/
theorem encodes_number (g : Nat → α) {n x : Nat} (h : x < 256 ^ n) :
    Encodes (do return g (ofLE (← readFull n)) : Decoder α) (toLE n x) (g x) := by
  have htake : Encodes (readFull n) (toLE n x) (toLE n x) := by
    have ht := Encodes.take Err.eof Err.unexpectedEOF (toLE n x)
    rwa [toLE_length] at ht
  have hmap := htake.map (fun bs => g (ofLE bs))
  rwa [ofLE_toLE_of_lt h] at hmap

theorem encodes_getUint8 (n : UInt8) : Encodes getUint8 [n] n := by
  have h := encodes_number (n := 1) UInt8.ofNat n.toNat_lt
  rwa [UInt8.ofNat_toNat, toLE, toLE, UInt8.ofNat_toNat] at h

theorem encodes_getUint16 (n : UInt16) : Encodes getUint16 (putUint16 n) n := by
  have h := encodes_number (n := 2) UInt16.ofNat n.toNat_lt
  rwa [UInt16.ofNat_toNat] at h

theorem encodes_getUint32 (n : UInt32) : Encodes getUint32 (putUint32 n) n := by
  have h := encodes_number (n := 4) UInt32.ofNat n.toNat_lt
  rwa [UInt32.ofNat_toNat] at h

theorem encodes_getUint64 (n : UInt64) : Encodes getUint64 (putUint64 n) n := by
  have h := encodes_number (n := 8) UInt64.ofNat n.toNat_lt
  rwa [UInt64.ofNat_toNat] at h

/-- Reading back as many bytes as there are. -/
theorem encodes_readFull (w : Bytes) : Encodes (readFull w.length) w w :=
  Encodes.take Err.eof Err.unexpectedEOF w

theorem encodes_decodeString {s : Bytes} (h : s.length < 2 ^ 16) :
    Encodes decodeString (encodeString s) s := by
  have hlen : (UInt16.ofNat s.length).toNat = s.length := UInt16.toNat_ofNat_of_lt' h
  refine (encodes_getUint16 (UInt16.ofNat s.length)).bind ?_
  rw [hlen]
  exact encodes_readFull s

theorem encodes_decodeQid (q : Qid) : Encodes decodeQid q.encode q := by
  rw [Qid.encode, List.append_assoc]
  refine (encodes_getUint8 q.type).bind ((encodes_getUint32 q.version).bind ?_)
  exact (encodes_getUint64 q.path).map fun path => Qid.mk q.type q.version path

/-- A 16-bit count followed by that many items. -/
theorem encodes_counted {item : Decoder α} {enc : α → Bytes} {xs : List α}
    (hlen : xs.length < 2 ^ 16) (h : ∀ x ∈ xs, Encodes item (enc x) x) :
    Encodes (do
        let ll ← getUint16
        (List.replicate ll.toNat ()).mapM fun _ => item : Decoder (List α))
      (putUint16 (UInt16.ofNat xs.length) ++ xs.flatMap enc) xs := by
  have hcount : (UInt16.ofNat xs.length).toNat = xs.length := UInt16.toNat_ofNat_of_lt' hlen
  refine (encodes_getUint16 (UInt16.ofNat xs.length)).bind ?_
  have hitems := Encodes.mapM (fun _ : Unit => item) (fun _ : α => ()) enc id xs h
  rw [hcount]
  simpa [List.map_const'] using hitems

/-! ## Fields, decoded into zero targets -/

/-- The zero value of the same Go type. -/
def Plain.zero : Plain → Plain
  | .uint8 _ => .uint8 0
  | .uint16 _ => .uint16 0
  | .uint32 _ => .uint32 0
  | .uint64 _ => .uint64 0
  | .bytes _ => .bytes []
  | .string _ => .string []
  | .strings _ => .strings []
  | .time _ => .time Time.zero
  | .qid _ => .qid default
  | .qids _ => .qids []

def Elem.zero : Elem → Elem
  | .plain p => .plain p.zero
  | .dir _ => .dir Dir.zero

/-- A zero target ends up with as many bytes as the prefix says, the prefix
zero included: the old slice is empty. -/
theorem sliceFor_nil_length (ll : UInt32) : (sliceFor ll []).length = ll.toNat := by
  unfold sliceFor
  split
  · simp
  · rename_i h
    have h0 : ll.toNat = 0 := by
      have := (UInt32.lt_iff_toNat_lt (a := 0) (b := ll)).not.mp h
      simp only [UInt32.toNat_zero] at this
      omega
    simp [h0]

theorem ofInt_toNat {x : Int} (h₀ : 0 ≤ x) (h₁ : x < 2 ^ 32) :
    ((UInt32.ofInt x).toNat : Int) = x := by
  have hmod : x % 2 ^ 32 = x := Int.emod_eq_of_lt h₀ h₁
  have hlt : x.toNat < 2 ^ 32 := by omega
  rw [UInt32.ofInt, hmod, UInt32.toNat_ofNat_of_lt' hlt, Int.toNat_of_nonneg h₀]

theorem encodes_plain {p : Plain} (h : p.Encodable) : Encodes p.zero.decode p.encode p := by
  cases p with
  | uint8 n => exact (encodes_getUint8 n).map _
  | uint16 n => exact (encodes_getUint16 n).map _
  | uint32 n => exact (encodes_getUint32 n).map _
  | uint64 n => exact (encodes_getUint64 n).map _
  | bytes b =>
      have hlen : (UInt32.ofNat b.length).toNat = b.length := UInt32.toNat_ofNat_of_lt' h
      refine (encodes_getUint32 (UInt32.ofNat b.length)).bind ?_
      rw [sliceFor_nil_length, hlen]
      exact (encodes_readFull b).map _
  | string s => exact (encodes_decodeString h).map _
  | strings ss =>
      have hss := (encodes_counted h.1 fun s hs => encodes_decodeString (h.2 s hs)).map
        Plain.strings
      rwa [bind_assoc] at hss
  | time t =>
      obtain ⟨hnsec, h₀, h₁⟩ := h
      have ht : Time.mk ((UInt32.ofInt t.unix).toNat : Int) 0 = t := by
        rw [ofInt_toNat h₀ h₁, ← hnsec]
      have he := (encodes_getUint32 (UInt32.ofInt t.unix)).map
        fun epoch => Plain.time ⟨epoch.toNat, 0⟩
      rwa [ht] at he
  | qid q => exact (encodes_decodeQid q).map _
  | qids qs =>
      have hqs := (encodes_counted h fun q _ => encodes_decodeQid q).map Plain.qids
      rwa [bind_assoc] at hqs

/-! ## Records and messages -/

@[simp] theorem Dir.setFields_fields (d z : Dir) : z.setFields d.fields = d := rfl

theorem Dir.zero_fields (d : Dir) : Dir.zero.fields = d.fields.map Plain.zero := rfl

/-- The size prefix of a record. -/
theorem Dir.fieldsSize_toUInt16 {d : Dir} (h : d.body.length ≤ 65535) :
    d.fieldsSize.toUInt16.toNat = d.body.length := by
  rw [UInt32.toNat_toUInt16, d.fieldsSize_toNat]
  omega

theorem encodes_dir {d : Dir} (h : d.Encodable) : Encodes Dir.zero.decode d.encode d := by
  have hll := Dir.fieldsSize_toUInt16 h.2
  have hfields : Encodes (Dir.zero.fields.mapM Plain.decode) d.body d.fields := by
    have hm := Encodes.mapM Plain.decode Plain.zero Plain.encode id d.fields
      (fun p hp => encodes_plain (h.1 p hp))
    rwa [List.map_id, ← Dir.zero_fields] at hm
  refine (encodes_getUint16 d.fieldsSize.toUInt16).bind ?_
  rw [hll]
  have hread := (encodes_readFull d.body).bind (hfields.within.map Dir.zero.setFields)
    (f := fun b => do
      return Dir.zero.setFields (← (Dir.zero.fields.mapM Plain.decode : Decoder _).within b))
  rwa [List.append_nil, Dir.setFields_fields] at hread

theorem encodes_elem {e : Elem} (h : e.Encodable) : Encodes e.zero.decode e.encode e := by
  cases e with
  | plain p => exact (encodes_plain h).map _
  | dir d => exact (encodes_dir h).map _

/-- Decoding a zeroed list of fields. -/
theorem encodes_elems (es : List Elem) (h : ∀ e ∈ es, e.Encodable) :
    Encodes ((es.map Elem.zero).mapM Elem.decode) (es.flatMap Elem.encode) es := by
  have hm := Encodes.mapM Elem.decode Elem.zero Elem.encode id es
    (fun e he => encodes_elem (h e he))
  rwa [List.map_id] at hm

/-- `newMessage` hands out the message of the wanted kind with zero fields,
and setting the fields of that message to those of `m` makes it `m`. -/
theorem newMessage_spec (m : Message) :
    ∃ z, newMessage m.type = .ok z ∧ z.fields = m.fields.map Elem.zero ∧
      z.setFields m.fields = m := by
  cases m <;> exact ⟨_, rfl, rfl, rfl⟩

theorem newMessage_ok_type {typ : FcallType} (h : newMessage typ = .ok m) : m.type = typ := by
  unfold newMessage at h
  split at h <;> cases h <;> rfl

theorem encodes_message {z : Message} (byRef : Bool) (h : m.Encodable)
    (hz : newMessage m.type = .ok z) : Encodes z.decode (m.encode byRef) m := by
  obtain ⟨z', hz', hfields, hset⟩ := newMessage_spec m
  obtain rfl : z' = z := by rw [hz'] at hz; cases hz; rfl
  -- only `Rstat` and `Twstat` have a layout of their own
  have hplain : ∀ (hdec : z'.decode = do return z'.setFields (← z'.fields.mapM Elem.decode))
      (henc : m.encode byRef = m.fields.flatMap Elem.encode),
      Encodes z'.decode (m.encode byRef) m := by
    intro hdec henc
    have hm := (encodes_elems _ h).map z'.setFields
    rwa [← hfields, hset, ← hdec, ← henc] at hm
  cases m with
  | rstat stat =>
      cases hz
      refine (encodes_getUint16 _).bind ?_
      exact (encodes_elems _ h).map (Message.rstat Dir.zero).setFields
  | twstat fid stat =>
      cases hz
      have hfid := encodes_elems [.plain (.uint32 fid)]
        (fun e he => h e (List.mem_of_mem_take (i := 1) he))
      have hstat := encodes_elems [.dir stat]
        (fun e he => h e (List.mem_of_mem_drop (i := 1) he))
      rw [Message.encode, List.append_assoc]
      refine hfid.bind ((encodes_getUint16 _).bind ?_)
      exact hstat.map fun es => (Message.twstat 0 Dir.zero).setFields ([.plain (.uint32 fid)] ++ es)
  | _ => cases hz; exact hplain rfl rfl

theorem encodes_decodeFcall (tag : Tag) (hok : m.Encodable) :
    Encodes decodeFcall (Fcall.encode ⟨m.type, tag, .value m⟩) ⟨m.type, tag, .value m⟩ := by
  obtain ⟨z, hz, -⟩ := newMessage_spec m
  have hbody : Encodes (do return Fcall.mk m.type tag (.value (← z.decode)) : Decoder Fcall)
      (m.encode false) ⟨m.type, tag, .value m⟩ := (encodes_message false hok hz).map _
  rw [Fcall.encode, List.append_assoc]
  refine (encodes_getUint8 m.type).bind ((encodes_getUint16 tag).bind ?_)
  rw [hz]
  exact hbody

theorem unmarshal_eq_ok {b : Bytes} {f : Fcall} (h : unmarshal b = .ok f) :
    ∃ rest, decodeFcall b = .ok (f, rest) := by
  unfold unmarshal at h
  cases hb : decodeFcall b with
  | error err => rw [hb] at h; cases h
  | ok p =>
      rw [hb] at h
      cases h
      exact ⟨p.2, rfl⟩

/-- The directory record of `TestEncodeDecode`. -/
def Dir.somedir : Dir :=
  ⟨0xFFFF, 0xFFFFFFFF, ⟨qtdir, 0xFFFFFFFF, 0xFFFFFFFFFFFFFFFF⟩, 0x80000004, ⟨1136171045, 0⟩,
   ⟨1136171045, 0⟩, 0xFFFFFFFFFFFFFFFF, lit "somedir", lit "uid", lit "gid", lit "muid"⟩

/-- **The codec round trip.**  An Fcall that holds a message of its own type
by value, with fields the format can hold, is encoded, and decoding its
encoding with any bytes behind gives it back, those bytes unread. -/
theorem unmarshal_marshal (f : Fcall) (m : Message) (hm : f.message = .value m)
    (htype : f.type = m.type) (hok : m.Encodable) :
    ∃ p, marshal f = .ok p ∧
      ∀ rest, decodeFcall (p ++ rest) = .ok (f, rest) ∧ unmarshal (p ++ rest) = .ok f := by
  obtain ⟨type, tag, message⟩ := f
  simp only at hm htype
  subst hm htype
  have hf := encodes_decodeFcall tag hok
  refine ⟨_, rfl, fun rest => ⟨hf rest, ?_⟩⟩
  rw [unmarshal, hf rest]

/-- The `Twstat` of the codec's own test meets the hypotheses. -/
theorem unmarshal_marshal_twstat :
    (Message.twstat 285212672 Dir.somedir).Encodable ∧
      ∃ p, marshal (newFcall 5556 (.twstat 285212672 Dir.somedir)) = .ok p ∧
        ∀ rest, decodeFcall (p ++ rest) =
            .ok (newFcall 5556 (.twstat 285212672 Dir.somedir), rest) ∧
          unmarshal (p ++ rest) = .ok (newFcall 5556 (.twstat 285212672 Dir.somedir)) :=
  ⟨by decide, unmarshal_marshal _ _ rfl rfl (by decide)⟩

end P9p
