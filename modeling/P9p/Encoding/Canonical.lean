/-
# `P9p.Encoding.Canonical` — the decoder accepts what the encoder writes

The converse of the round trip, over arbitrary bytes.  Whatever `Unmarshal` makes
an Fcall of, the message is one that the format can hold, and the bytes consumed
are its encoding.  So every count, length and type byte that is accepted is the one
that the encoder would write.

    Plain, Elem     elem_accepts, from `stepwise_plain` and `decode_eq_ok_iff`
    fields          elems_accept, by induction on the fields
    Message         message_accepts; the decoded fields have the kinds of the
                    target's, so `setFields` loses none of them
    Fcall           decodeFcall_accepts

`Rstat` and `Twstat` are the exception.  Their second size is not looked at, and
the record may hold bytes that are dropped.  For them encoding and decoding once
more leads back to the same Fcall.
-/
import P9p.Encoding.Records

namespace P9p

open Wire Wire.Reader

variable {b rest : Bytes} {es : List Elem} {m : Message}

/-! ## Fields -/

theorem elem_accepts {e e' : Elem} (h : e.zero.decode b = .ok (e', rest)) :
    e'.Encodable ∧ e'.kind = e.kind ∧ (e.kind ≠ .dir → b = e'.encode ++ rest) := by
  cases e with
  | plain p =>
      obtain ⟨q, mid, hq, hpure⟩ := bind_eq_ok h
      cases hpure
      obtain ⟨⟨hok, hkind⟩, hb⟩ := (stepwise_plain p).accepts b q _ hq
      exact ⟨hok, hkind, fun _ => by rwa [Plain.pieces_flatten] at hb⟩
  | dir d =>
      obtain ⟨d', mid, hd, hpure⟩ := bind_eq_ok h
      cases hpure
      obtain ⟨slack, hfits, -⟩ := decode_eq_ok_iff.mp hd
      exact ⟨hfits.encodable, rfl, fun hne => absurd rfl hne⟩

theorem elems_accept :
    ∀ {es' : List Elem} {b rest : Bytes}, (es.map Elem.zero).mapM Elem.decode b = .ok (es', rest) →
      (∀ e ∈ es', e.Encodable) ∧ es'.map Elem.kind = es.map Elem.kind ∧
        ((∀ e ∈ es, e.kind ≠ .dir) → b = es'.flatMap Elem.encode ++ rest) := by
  induction es with
  | nil =>
      intro es' b rest h
      cases h
      exact ⟨List.forall_mem_nil _, rfl, fun _ => rfl⟩
  | cons e es ih =>
      intro es' b rest h
      rw [List.map_cons, List.mapM_cons] at h
      obtain ⟨e', mid, he, h⟩ := bind_eq_ok h
      obtain ⟨es', mid', hes, h⟩ := bind_eq_ok h
      cases h
      obtain ⟨hok, hkind, hb⟩ := elem_accepts he
      obtain ⟨hoks, hkinds, hbs⟩ := ih hes
      refine ⟨List.forall_mem_cons.mpr ⟨hok, hoks⟩, ?_, fun hne => ?_⟩
      · rw [List.map_cons, List.map_cons, hkind, hkinds]
      · obtain ⟨hne, hnes⟩ := List.forall_mem_cons.mp hne
        rw [hb hne, hbs hnes, List.flatMap_cons, List.append_assoc]

/-! ## Messages -/

/-- Fields of the right kinds can be set, and are then what they were set to. -/
theorem Message.setFields_spec (h : es.map Elem.kind = m.fields.map Elem.kind) :
    (m.setFields es).fields = es ∧ (m.setFields es).type = m.type := by
  cases m with
  | rflush | rclunk | rremove | rwstat =>
      obtain rfl := List.map_eq_nil_iff.mp h
      exact ⟨rfl, rfl⟩
  | rauth | rattach | rerror | tflush | rwalk | rread | rwrite | tclunk | tremove | tstat | rstat =>
      obtain ⟨v, es₁, rfl, h₁⟩ := kinds_cons h
      obtain rfl := List.map_eq_nil_iff.mp h₁
      exact ⟨rfl, rfl⟩
  | tversion | rversion | topen | ropen | rcreate | twstat =>
      obtain ⟨v, es₁, rfl, h₁⟩ := kinds_cons h
      obtain ⟨w, es₂, rfl, h₂⟩ := kinds_cons h₁
      obtain rfl := List.map_eq_nil_iff.mp h₂
      exact ⟨rfl, rfl⟩
  | tauth | twalk | tread | twrite =>
      obtain ⟨v, es₁, rfl, h₁⟩ := kinds_cons h
      obtain ⟨w, es₂, rfl, h₂⟩ := kinds_cons h₁
      obtain ⟨x, es₃, rfl, h₃⟩ := kinds_cons h₂
      obtain rfl := List.map_eq_nil_iff.mp h₃
      exact ⟨rfl, rfl⟩
  | tattach | tcreate =>
      obtain ⟨v, es₁, rfl, h₁⟩ := kinds_cons h
      obtain ⟨w, es₂, rfl, h₂⟩ := kinds_cons h₁
      obtain ⟨x, es₃, rfl, h₃⟩ := kinds_cons h₂
      obtain ⟨y, es₄, rfl, h₄⟩ := kinds_cons h₃
      obtain rfl := List.map_eq_nil_iff.mp h₄
      exact ⟨rfl, rfl⟩

theorem Message.encode_plain (byRef : Bool) (h₁ : m.type ≠ 125) (h₂ : m.type ≠ 126) :
    m.encode byRef = m.fields.flatMap Elem.encode := by
  cases m with
  | rstat => exact absurd rfl h₁
  | twstat => exact absurd rfl h₂
  | _ => rfl

theorem Message.decode_plain (h₁ : m.type ≠ 125) (h₂ : m.type ≠ 126) :
    m.decode = do return m.setFields (← m.fields.mapM Elem.decode) := by
  cases m with
  | rstat => exact absurd rfl h₁
  | twstat => exact absurd rfl h₂
  | _ => rfl

theorem Message.fields_plain (h₁ : m.type ≠ 125) (h₂ : m.type ≠ 126) :
    ∀ e ∈ m.fields, e.kind ≠ .dir := by
  cases m with
  | rstat => exact absurd rfl h₁
  | twstat => exact absurd rfl h₂
  | _ => simp [Message.fields, Elem.kind, Plain.kind]

/-- What setting decoded fields makes. -/
theorem Message.setFields_decoded {z : Message} (hok : ∀ e ∈ es, e.Encodable)
    (hkinds : es.map Elem.kind = z.fields.map Elem.kind) :
    (z.setFields es).type = z.type ∧ (z.setFields es).Encodable := by
  obtain ⟨hfields, htype⟩ := Message.setFields_spec hkinds
  refine ⟨htype, ?_⟩
  rwa [Message.Encodable, hfields]

/-- A decoded message is of the wanted type and can be encoded.  Without a record
in it, it was decoded from its encoding. -/
theorem message_accepts {typ : FcallType} {z : Message} (hz : newMessage typ = .ok z)
    (h : z.decode b = .ok (m, rest)) :
    m.type = typ ∧ m.Encodable ∧ (typ ≠ 125 → typ ≠ 126 → b = m.encode false ++ rest) := by
  obtain rfl : z.type = typ := newMessage_ok_type hz
  have hzero : z.fields.map Elem.zero = z.fields := by
    obtain ⟨z', hz', hfields, -⟩ := newMessage_spec z
    cases hz.symm.trans hz'
    exact hfields.symm
  by_cases hstat : z.type = 125 ∨ z.type = 126
  · have hdec : m.type = z.type ∧ m.Encodable := by
      cases z with
      | rstat stat =>
          obtain ⟨ll, mid, -, h⟩ := bind_eq_ok h
          obtain ⟨es, _, hes, h⟩ := bind_eq_ok h
          cases h
          rw [← hzero] at hes
          obtain ⟨hok, hkinds, -⟩ := elems_accept hes
          exact Message.setFields_decoded hok hkinds
      | twstat fid stat =>
          obtain ⟨es, mid, hes, h⟩ := bind_eq_ok h
          obtain ⟨ll, mid', -, h⟩ := bind_eq_ok h
          obtain ⟨es', _, hes', h⟩ := bind_eq_ok h
          cases h
          rw [← hzero, ← List.map_take] at hes
          rw [← hzero, ← List.map_drop] at hes'
          obtain ⟨hok, hkinds, -⟩ := elems_accept hes
          obtain ⟨hok', hkinds', -⟩ := elems_accept hes'
          refine Message.setFields_decoded (List.forall_mem_append.mpr ⟨hok, hok'⟩) ?_
          rw [List.map_append, hkinds, hkinds', ← List.map_append, List.take_append_drop]
      | _ => exact absurd hstat (of_decide_eq_false rfl)
    exact ⟨hdec.1, hdec.2, fun h₁ h₂ => absurd hstat (not_or.mpr ⟨h₁, h₂⟩)⟩
  · obtain ⟨h₁, h₂⟩ := not_or.mp hstat
    rw [Message.decode_plain h₁ h₂] at h
    obtain ⟨es, _, hes, h⟩ := bind_eq_ok h
    cases h
    rw [← hzero] at hes
    obtain ⟨hok, hkinds, hb⟩ := elems_accept hes
    obtain ⟨htype, hm⟩ := Message.setFields_decoded hok hkinds
    refine ⟨htype, hm, fun _ _ => ?_⟩
    rw [Message.encode_plain false (htype ▸ h₁) (htype ▸ h₂), (Message.setFields_spec hkinds).1]
    exact hb (Message.fields_plain h₁ h₂)

/-! ## Fcalls -/

theorem decodeFcall_accepts {f : Fcall} (h : decodeFcall b = .ok (f, rest)) :
    ∃ m, f = ⟨m.type, f.tag, .value m⟩ ∧ m.Encodable ∧
      (m.type ≠ 125 → m.type ≠ 126 → b = f.encode ++ rest) := by
  obtain ⟨type, b₁, htype, h₁⟩ := bind_eq_ok h
  obtain ⟨tag, body, htag, h₂⟩ := bind_eq_ok h₁
  cases hz : newMessage type with
  | error e =>
      rw [hz] at h₂
      cases h₂
  | ok z =>
      rw [hz] at h₂
      obtain ⟨m, _, hm, hpure⟩ := bind_eq_ok h₂
      cases hpure
      obtain ⟨rfl, hok, hbody⟩ := message_accepts hz hm
      obtain ⟨-, hb⟩ := stepwise_getUint8.accepts b m.type b₁ htype
      obtain ⟨-, hb₁⟩ := stepwise_getUint16.accepts b₁ tag body htag
      refine ⟨m, rfl, hok, fun h125 h126 => ?_⟩
      rw [hb, hb₁, hbody h125 h126]
      simp [Fcall.encode, MessageVal.encode]

/-- **Only canonical encodings are accepted.**  An Fcall that was decoded can be
encoded.  Unless it is an `Rstat` or a `Twstat`, its encoding is what was consumed,
and no other bytes are decoded, all of them, to the same Fcall.  In any case its
encoding is decoded to it. -/
theorem unmarshal_canonical (b : Bytes) (f : Fcall) (h : unmarshal b = .ok f) :
    ∃ p rest, marshal f = .ok p ∧ decodeFcall b = .ok (f, rest) ∧ unmarshal p = .ok f ∧
      (f.type ≠ 125 → f.type ≠ 126 →
        b = p ++ rest ∧ (rest = [] → ∀ b', decodeFcall b' = .ok (f, []) → b' = b)) := by
  obtain ⟨rest, hdec⟩ := unmarshal_eq_ok h
  obtain ⟨m, hf, hok, hb⟩ := decodeFcall_accepts hdec
  have hround := encodes_decodeFcall f.tag hok []
  rw [← hf, List.append_nil] at hround
  have htype : f.type = m.type := congrArg Fcall.type hf
  refine ⟨f.encode, rest, rfl, hdec, by rw [unmarshal, hround], fun h₁ h₂ => ?_⟩
  rw [htype] at h₁ h₂
  refine ⟨hb h₁ h₂, ?_⟩
  rintro rfl b' hb'
  obtain ⟨m', hf', -, hcanon⟩ := decodeFcall_accepts hb'
  have htype' : m'.type = m.type := (congrArg Fcall.type hf').symm.trans htype
  rw [hb h₁ h₂]
  exact hcanon (htype' ▸ h₁) (htype' ▸ h₂)

/-- A `Tflush` with a byte behind it. -/
theorem unmarshal_canonical_tflush :
    unmarshal [108, 1, 0, 2, 0, 9] = .ok (newFcall 1 (.tflush 2)) ∧
      ∃ p rest, marshal (newFcall 1 (.tflush 2)) = .ok p ∧
        decodeFcall [108, 1, 0, 2, 0, 9] = .ok (newFcall 1 (.tflush 2), rest) ∧
        [108, 1, 0, 2, 0, 9] = p ++ rest := by
  have hdec : unmarshal [108, 1, 0, 2, 0, 9] = .ok (newFcall 1 (.tflush 2)) := rfl
  obtain ⟨p, rest, hp, hrest, -, hcanon⟩ := unmarshal_canonical _ _ hdec
  exact ⟨hdec, p, rest, hp, hrest, (hcanon (by decide) (by decide)).1⟩

end P9p
