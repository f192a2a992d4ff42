/-
# `P9p.Encoding.Lengths` — the lengths that the encoder states

The format states lengths in five places: before a string (2 bytes), before the items
of a list (2), before data (4), before a record (2), and once more before the record
of an `Rstat` or `Twstat` (2).  `Honest v w` says what the format asks of them,
without looking at the encoder: `w` holds the value `v`, and every number in front of
something is the number of bytes, or of items, that follow.

The encoder converts every length to the width of its place and never refuses one.
So its output is honest exactly for the values whose lengths fit (`marshal_honest_iff`).
A string of 65536 bytes is written behind the length 0 (`rerror_dishonest`).

**Proof.**  A statement of a fixed width can be told from what follows it
(`states_iff`), and the parts of an honest encoding are as long as the encoder's
(`forall₂_flatten_iff`).  So honesty of the whole is honesty of each part.
-/
import P9p.Encoding.Values

namespace P9p

open Wire Wire.Reader

variable {n : Nat} {rest w : Bytes}

/-! ## What the format asks for -/

/-- `w` is the number `n`, in `width` bytes, with `rest` behind it. -/
def States (width n : Nat) (rest w : Bytes) : Prop :=
  ∃ front, front.length = width ∧ ofLE front = n ∧ w = front ++ rest

/-- `w` is a string with its length. -/
def HonestString (s w : Bytes) : Prop := States 2 s.length s w

def Plain.Honest : Plain → Bytes → Prop
  | .bytes b, w => States 4 b.length b w
  | .string s, w => HonestString s w
  | .strings ss, w => ∃ ws, List.Forall₂ HonestString ss ws ∧ States 2 ss.length ws.flatten w
  | .qids qs, w => States 2 qs.length (qs.flatMap Qid.encode) w
  | p, w => w = p.encode

def Dir.Honest (d : Dir) (w : Bytes) : Prop :=
  ∃ ws, List.Forall₂ Plain.Honest d.fields ws ∧ States 2 ws.flatten.length ws.flatten w

def Elem.Honest : Elem → Bytes → Prop
  | .plain p => p.Honest
  | .dir d => d.Honest

/-- `w` is a record with the outer size of the stat messages. -/
def Dir.HonestStat (d : Dir) (w : Bytes) : Prop :=
  ∃ record, d.Honest record ∧ States 2 record.length record w

def Message.Honest : Message → Bytes → Prop
  | .rstat stat, w => stat.HonestStat w
  | .twstat fid stat, w => ∃ v, stat.HonestStat v ∧ w = putUint32 fid ++ v
  | m, w => ∃ ws, List.Forall₂ Elem.Honest m.fields ws ∧ ws.flatten = w

def MessageVal.Honest : MessageVal → Bytes → Prop
  | .nil, w => w = []
  | .value m, w => m.Honest w
  | .pointer m, w => m.Honest w

def Fcall.Honest (f : Fcall) (w : Bytes) : Prop :=
  ∃ v, f.message.Honest v ∧ w = [f.type] ++ putUint16 f.tag ++ v

/-! ## What the places can hold -/

def Plain.LengthsFit : Plain → Prop
  | .bytes b => b.length < 2 ^ 32
  | .string s => s.length < 2 ^ 16
  | .strings ss => ss.length < 2 ^ 16 ∧ ∀ s ∈ ss, s.length < 2 ^ 16
  | .qids qs => qs.length < 2 ^ 16
  | _ => True

def Dir.LengthsFit (d : Dir) : Prop := (∀ p ∈ d.fields, p.LengthsFit) ∧ d.body.length < 2 ^ 16

def Elem.LengthsFit : Elem → Prop
  | .plain p => p.LengthsFit
  | .dir d => d.LengthsFit

/-- The outer size counts the inner one. -/
def Dir.StatFits (d : Dir) : Prop := d.LengthsFit ∧ d.encode.length < 2 ^ 16

def Message.LengthsFit : Message → Prop
  | .rstat stat => stat.StatFits
  | .twstat _ stat => stat.StatFits
  | m => ∀ e ∈ m.fields, e.LengthsFit

def MessageVal.LengthsFit : MessageVal → Prop
  | .nil => True
  | .value m => m.LengthsFit
  | .pointer m => m.LengthsFit

/-! ## Parts -/

theorem states_iff {width : Nat} {front body : Bytes} (h : front.length = width) :
    States width n rest (front ++ body) ↔ ofLE front = n ∧ rest = body := by
  constructor
  · rintro ⟨front', hlen, hn, heq⟩
    obtain ⟨rfl, rfl⟩ := List.append_inj heq (h.trans hlen.symm)
    exact ⟨hn, rfl⟩
  · rintro ⟨hn, rfl⟩
    exact ⟨front, h, hn, rfl⟩

theorem States.length_eq {width : Nat} (h : States width n rest w) :
    w.length = width + rest.length := by
  obtain ⟨front, rfl, -, rfl⟩ := h
  exact List.length_append

/-- A length in two bytes. -/
theorem states_putUint16_iff {body : Bytes} :
    States 2 n rest (putUint16 (UInt16.ofNat n) ++ body) ↔ n < 2 ^ 16 ∧ rest = body := by
  rw [states_iff (putUint16_length _), ofLE_putUint16, UInt16.toNat_ofNat']
  refine and_congr_left fun _ => ?_
  omega

theorem states_putUint32_iff {body : Bytes} :
    States 4 n rest (putUint32 (UInt32.ofNat n) ++ body) ↔ n < 2 ^ 32 ∧ rest = body := by
  rw [states_iff (putUint32_length _), ofLE_putUint32, UInt32.toNat_ofNat']
  refine and_congr_left fun _ => ?_
  omega

section Lists

variable {α : Type} (R : α → Bytes → Prop) (enc : α → Bytes)

theorem forall₂_flatten_length (hlen : ∀ a w, R a w → w.length = (enc a).length) :
    ∀ {as : List α} {ws : List Bytes}, List.Forall₂ R as ws →
      ws.flatten.length = (as.flatMap enc).length
  | [], _, .nil => rfl
  | a :: as, _, .cons ha has => by
      rw [List.flatten_cons, List.flatMap_cons, List.length_append, List.length_append,
        hlen a _ ha, forall₂_flatten_length hlen has]

/-- Parts of the right lengths that make up the encoding are the encodings of the
parts. -/
theorem forall₂_flatten_iff (hlen : ∀ a w, R a w → w.length = (enc a).length) :
    ∀ {as : List α},
      (∃ ws, List.Forall₂ R as ws ∧ ws.flatten = as.flatMap enc) ↔ ∀ a ∈ as, R a (enc a)
  | [] => iff_of_true ⟨[], .nil, rfl⟩ (List.forall_mem_nil _)
  | a :: as => by
      rw [List.forall_mem_cons, ← forall₂_flatten_iff hlen]
      constructor
      · rintro ⟨ws, hws, heq⟩
        obtain ⟨w, ws, ha, has, rfl⟩ := List.forall₂_cons_left_iff.mp hws
        rw [List.flatten_cons, List.flatMap_cons] at heq
        obtain ⟨rfl, hrest⟩ := List.append_inj heq (hlen a _ ha)
        exact ⟨ha, ws, has, hrest⟩
      · rintro ⟨ha, ws, has, heq⟩
        exact ⟨enc a :: ws, .cons ha has, by rw [List.flatten_cons, heq, List.flatMap_cons]⟩

end Lists

theorem honestString_length {s : Bytes} (h : HonestString s w) :
    w.length = (encodeString s).length := by
  rw [h.length_eq, encodeString_length]

theorem honestString_iff {s : Bytes} : HonestString s (encodeString s) ↔ s.length < 2 ^ 16 :=
  states_putUint16_iff.trans (and_iff_left rfl)

/-! ## Values -/

namespace Plain

theorem Honest.length_eq {p : Plain} (h : p.Honest w) : w.length = p.encode.length := by
  cases p with
  | bytes b =>
      rw [States.length_eq h, encode, List.length_append, putUint32_length]
  | string s => exact honestString_length h
  | strings ss =>
      obtain ⟨ws, hws, hw⟩ := h
      have hflat := forall₂_flatten_length HonestString encodeString
        (fun _ _ => honestString_length) hws
      rw [hw.length_eq, encode, List.length_append, putUint16_length, hflat]
  | qids qs =>
      rw [States.length_eq h, encode, List.length_append, putUint16_length]
  | _ =>
      cases h
      rfl

theorem honest_encode_iff (p : Plain) : p.Honest p.encode ↔ p.LengthsFit := by
  cases p with
  | bytes b => exact states_putUint32_iff.trans (and_iff_left rfl)
  | string s => exact honestString_iff
  | strings ss =>
      have hss : (∃ ws, List.Forall₂ HonestString ss ws ∧ ws.flatten = ss.flatMap encodeString) ↔
          ∀ s ∈ ss, s.length < 2 ^ 16 :=
        (forall₂_flatten_iff HonestString encodeString fun _ _ => honestString_length).trans
          (forall₂_congr fun _ _ => honestString_iff)
      show (∃ ws, List.Forall₂ HonestString ss ws ∧ States 2 ss.length ws.flatten
        (putUint16 (UInt16.ofNat ss.length) ++ ss.flatMap encodeString)) ↔ _ ∧ _
      rw [← hss]
      constructor
      · rintro ⟨ws, hws, hw⟩
        obtain ⟨hlt, hflat⟩ := states_putUint16_iff.mp hw
        exact ⟨hlt, ws, hws, hflat⟩
      · rintro ⟨hlt, ws, hws, hflat⟩
        exact ⟨ws, hws, states_putUint16_iff.mpr ⟨hlt, hflat⟩⟩
  | qids qs => exact states_putUint16_iff.trans (and_iff_left rfl)
  | _ => exact iff_of_true rfl trivial

end Plain

namespace Dir

theorem Honest.length_eq {d : Dir} (h : d.Honest w) : w.length = d.encode.length := by
  obtain ⟨ws, hws, hw⟩ := h
  have hflat := forall₂_flatten_length Plain.Honest Plain.encode
    (fun _ _ => Plain.Honest.length_eq) hws
  rw [hw.length_eq, hflat, d.encode_length, Dir.body]

theorem honest_encode_iff (d : Dir) : d.Honest d.encode ↔ d.LengthsFit := by
  have hfields : (∃ ws, List.Forall₂ Plain.Honest d.fields ws ∧ ws.flatten = d.body) ↔
      ∀ p ∈ d.fields, p.LengthsFit :=
    (forall₂_flatten_iff Plain.Honest Plain.encode fun _ _ => Plain.Honest.length_eq).trans
      (forall₂_congr fun p _ => p.honest_encode_iff)
  have hsize : d.fieldsSize.toUInt16.toNat = d.body.length ↔ d.body.length < 2 ^ 16 := by
    rw [UInt32.toNat_toUInt16, d.fieldsSize_toNat]
    omega
  rw [LengthsFit, ← hfields, ← hsize]
  constructor
  · rintro ⟨ws, hws, hw⟩
    obtain ⟨hn, hbody⟩ := (states_iff (putUint16_length _)).mp hw
    rw [ofLE_putUint16, hbody] at hn
    exact ⟨⟨ws, hws, hbody⟩, hn⟩
  · rintro ⟨⟨ws, hws, hbody⟩, hn⟩
    refine ⟨ws, hws, (states_iff (putUint16_length _)).mpr ⟨?_, hbody⟩⟩
    rw [ofLE_putUint16, hbody, hn]

/-- The size in front of the record is that of the record, modulo `2 ^ 16`. -/
theorem honestStat_iff {d : Dir} {n : UInt16} (hn : n.toNat = d.encode.length % 2 ^ 16) :
    d.HonestStat (putUint16 n ++ d.encode) ↔ d.StatFits := by
  rw [StatFits, ← d.honest_encode_iff]
  constructor
  · rintro ⟨record, hrecord, hw⟩
    obtain ⟨hlen, rfl⟩ := (states_iff (putUint16_length _)).mp hw
    rw [ofLE_putUint16, hn] at hlen
    exact ⟨hrecord, by omega⟩
  · rintro ⟨hrecord, hlt⟩
    refine ⟨d.encode, hrecord, (states_iff (putUint16_length _)).mpr ⟨?_, rfl⟩⟩
    rw [ofLE_putUint16, hn]
    exact Nat.mod_eq_of_lt hlt

end Dir

namespace Elem

theorem Honest.length_eq {e : Elem} (h : e.Honest w) : w.length = e.encode.length := by
  cases e with
  | plain p => exact Plain.Honest.length_eq h
  | dir d => exact Dir.Honest.length_eq h

theorem honest_encode_iff (e : Elem) : e.Honest e.encode ↔ e.LengthsFit := by
  cases e with
  | plain p => exact p.honest_encode_iff
  | dir d => exact d.honest_encode_iff

end Elem

/-! ## Messages and Fcalls -/

theorem Message.honest_encode_iff (m : Message) (byRef : Bool) :
    m.Honest (m.encode byRef) ↔ m.LengthsFit := by
  have hfields : (∃ ws, List.Forall₂ Elem.Honest m.fields ws ∧
      ws.flatten = m.fields.flatMap Elem.encode) ↔ ∀ e ∈ m.fields, e.LengthsFit :=
    (forall₂_flatten_iff Elem.Honest Elem.encode fun _ _ => Elem.Honest.length_eq).trans
      (forall₂_congr fun e _ => e.honest_encode_iff)
  -- the outer size is `size9p` of the record, by value or by pointer
  have hsize : ∀ d : Dir, (size9p byRef [.dir d]).toUInt16.toNat = d.encode.length % 2 ^ 16 := by
    intro d
    have h : (size9p byRef [.dir d]).toNat = d.encode.length % 2 ^ 32 := by
      have hsum : size9p byRef [.dir d] = size9p false [.dir d] := rfl
      rw [hsum, size9p_toNat, List.flatMap_singleton]
      rfl
    rw [UInt32.toNat_toUInt16, h]
    omega
  cases m with
  | rstat stat =>
      have henc : (Message.rstat stat).encode byRef =
          putUint16 (size9p byRef [.dir stat]).toUInt16 ++ stat.encode := by
        rw [Message.encode, Message.fields, List.flatMap_singleton]
        rfl
      rw [henc]
      exact Dir.honestStat_iff (hsize stat)
  | twstat fid stat =>
      have henc : (Message.twstat fid stat).encode byRef = putUint32 fid ++
          (putUint16 (size9p byRef [.dir stat]).toUInt16 ++ stat.encode) := by
        simp [Message.encode, Message.fields, Elem.encode, Plain.encode]
      rw [henc, Message.LengthsFit, ← Dir.honestStat_iff (hsize stat)]
      constructor
      · rintro ⟨v, hv, heq⟩
        rwa [List.append_cancel_left heq]
      · exact fun h => ⟨_, h, rfl⟩
  | _ => exact hfields

theorem Fcall.honest_encode_iff (f : Fcall) : f.Honest f.encode ↔ f.message.LengthsFit := by
  have hmessage : f.message.Honest f.message.encode ↔ f.message.LengthsFit := by
    cases f.message with
    | nil => exact iff_of_true rfl trivial
    | value m => exact m.honest_encode_iff false
    | pointer m => exact m.honest_encode_iff true
  rw [← hmessage]
  constructor
  · rintro ⟨v, hv, heq⟩
    rw [Fcall.encode, List.append_cancel_left_eq] at heq
    rwa [heq]
  · exact fun h => ⟨_, h, rfl⟩

/-- **`Marshal` tells the truth about lengths** exactly where they fit: for an Fcall
and for a record, by value or by pointer. -/
theorem marshal_honest_iff (f : Fcall) (d : Dir) (byRef : Bool) :
    ((∀ p, (Datum.fcall f).marshal byRef = .ok p → f.Honest p) ↔ f.message.LengthsFit) ∧
      ((∀ p, (Datum.dir d).marshal byRef = .ok p → d.Honest p) ↔ d.LengthsFit) := by
  rw [← f.honest_encode_iff, ← d.honest_encode_iff]
  constructor
  · exact ⟨fun h => h _ rfl, by rintro h _ ⟨⟩; exact h⟩
  · exact ⟨fun h => h _ rfl, by rintro h _ ⟨⟩; exact h⟩

/-- The text of an error that is too long, behind the length zero. -/
theorem rerror_dishonest :
    let ename : Bytes := List.replicate 65536 97
    let f := newFcall 1 (.rerror ename)
    marshal f = .ok ([107, 1, 0] ++ [0, 0] ++ ename) ∧
      ¬ f.Honest ([107, 1, 0] ++ [0, 0] ++ ename) := by
  intro ename f
  have hlen : ename.length = 65536 := List.length_replicate
  have henc : f.encode = [107, 1, 0] ++ [0, 0] ++ ename := by
    have hzero : putUint16 (UInt16.ofNat ename.length) = [0, 0] := by
      rw [hlen]
      decide
    have hbody : (Message.rerror ename).encode false = encodeString ename := List.append_nil _
    have hfront : [107] ++ putUint16 1 = [107, 1, 0] := by decide
    show [107] ++ putUint16 1 ++ (Message.rerror ename).encode false = _
    rw [hbody, encodeString, hzero, hfront, List.append_assoc]
  refine ⟨congrArg Except.ok henc, ?_⟩
  rw [← henc, f.honest_encode_iff]
  intro hfit
  have hlt : ename.length < 2 ^ 16 := hfit _ List.mem_cons_self
  rw [hlen] at hlt
  exact absurd hlt (by decide)

end P9p
