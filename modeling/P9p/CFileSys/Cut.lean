/-
# `P9p.CFileSys.Cut` — directory lists that end too early

Two loops read the records of a directory until `io.EOF`: the decoder of a
`[]Dir`, and `Next` of an open directory over `DecodeDir`.  They meet the same
records.  `DecodeDir` panics for a size of 65534 or 65535, which its buffer has no
room for; below that it does what the decoder does (`decodeDir_eq`).

**The result.**  Both return all records, without an error, exactly if the last
one is not cut short right behind its size or between two reads of its fields
(`dirs_whole_iff`).  If it is, the loops take the `io.EOF` of the record for the
end of the list.  The record and all that stands behind it are dropped
(`dirs_dropped`).
-/
import P9p.CFileSys.Listing
import P9p.Encoding.Records

namespace P9p

open Wire Wire.Reader

variable {ll : UInt16} {b : Bytes}

/-! ## `DecodeDir` and the decoder -/

/-- Decoding a record from a buffer of its own. -/
theorem decode_buffer {p : Bytes} (h : p.length = ll.toNat) (rest : Bytes) :
    Dir.zero.decode (putUint16 ll ++ p ++ rest) = decodeBody.within p rest := by
  obtain ⟨hlt, rfl⟩ := eq_toNat_iff16.mp h
  rw [Dir.decode_zero, bind_apply, ← encodeString, encodes_decodeString hlt rest]

theorem room_iff : (ll + 2).toNat < 2 ↔ 65534 ≤ ll.toNat := by
  have hlt := ll.toNat_lt
  rw [UInt16.toNat_add]
  show (ll.toNat + 2) % 2 ^ 16 < 2 ↔ _
  omega

/-- A size that leaves room in the buffer is read like the decoder reads it. -/
theorem decodeDir_size (mid : Bytes) :
    decodeDir (putUint16 ll ++ mid) =
      if 65534 ≤ ll.toNat then .error .panic
      else Dir.zero.decode.lift (putUint16 ll ++ mid) := by
  have hsize := encodes_lift (encodes_getUint16 ll) mid
  rw [decodeDir, bind_apply, hsize]
  dsimp only
  by_cases hroom : 65534 ≤ ll.toNat
  · rw [if_pos (room_iff.mpr hroom), if_pos hroom]
    rfl
  · rw [if_neg (room_iff.not.mpr hroom), if_neg hroom, bind_apply]
    cases hp : readFull ll.toNat mid with
    | error e =>
        have hdec : Dir.zero.decode (putUint16 ll ++ mid) = .error e := by
          rw [Dir.decode, bind_apply, encodes_getUint16 ll mid]
          dsimp only
          rw [bind_apply, hp]
        rw [lift_error hp, lift_error hdec]
    | ok res =>
        obtain ⟨p, rest⟩ := res
        obtain ⟨hlen, rfl⟩ := (stepwise_readFull ll.toNat).accepts mid p rest hp
        rw [List.flatten_singleton] at hp ⊢
        have hbuf := decode_buffer hlen []
        rw [List.append_nil] at hbuf
        rw [lift_ok hp]
        dsimp only
        unfold Reader.within Decoder.lift
        rw [hbuf, ← List.append_assoc, decode_buffer hlen rest]
        unfold Reader.within
        cases decodeBody p <;> rfl

theorem decodeDir_eq_lift {mid : Bytes} (h : ll.toNat < 65534) :
    decodeDir (putUint16 ll ++ mid) = Dir.zero.decode.lift (putUint16 ll ++ mid) := by
  rw [decodeDir_size, if_neg (Nat.not_le.mpr h)]

theorem lt_of_ne_panic {mid : Bytes} (h : decodeDir (putUint16 ll ++ mid) ≠ .error .panic) :
    ll.toNat < 65534 := by
  by_contra hge
  exact h (by rw [decodeDir_size, if_pos (Nat.not_lt.mp hge)])

/-- Unless it panics, `DecodeDir` does what the decoder does. -/
theorem decodeDir_eq (h : decodeDir b ≠ .error .panic) : decodeDir b = Dir.zero.decode.lift b := by
  cases hll : getUint16 b with
  | error e =>
      have hdec : Dir.zero.decode b = .error e := by
        rw [Dir.decode, bind_apply, hll]
      rw [lift_error hdec, decodeDir, bind_apply, lift_error hll]
  | ok res =>
      obtain ⟨ll, mid⟩ := res
      obtain ⟨-, rfl⟩ := stepwise_getUint16.accepts b ll mid hll
      rw [List.flatten_singleton] at h ⊢
      exact decodeDir_eq_lift (lt_of_ne_panic h)

theorem decodeDir_eq_ok_iff {rest : Bytes} {d : Dir} :
    decodeDir b = .ok (d, rest) ↔
      ∃ slack, Record.Fits 65534 ⟨d, slack⟩ ∧ b = Record.encode ⟨d, slack⟩ ++ rest := by
  have hsize : ∀ slack, Record.encode ⟨d, slack⟩ ++ rest =
      putUint16 (UInt16.ofNat (Record.body ⟨d, slack⟩).length) ++
        (Record.body ⟨d, slack⟩ ++ rest) := fun slack => List.append_assoc ..
  constructor
  · intro h
    have hne : decodeDir b ≠ .error .panic := by
      rw [h]
      nofun
    obtain ⟨slack, hfits, rfl⟩ := decode_eq_ok_iff.mp (lift_eq_ok ((decodeDir_eq hne).symm.trans h))
    rw [hsize] at hne
    refine ⟨slack, ⟨hfits.1, ?_⟩, rfl⟩
    rw [eq_toNat_iff16.mpr ⟨hfits.2, rfl⟩]
    exact lt_of_ne_panic hne
  · rintro ⟨slack, hfits, rfl⟩
    have hlt : (Record.body ⟨d, slack⟩).length < 2 ^ 16 := hfits.2.trans (by decide)
    have hdec : Dir.zero.decode (Record.encode ⟨d, slack⟩ ++ rest) = .ok (d, rest) :=
      decode_eq_ok_iff.mpr ⟨slack, ⟨hfits.1, hlt⟩, rfl⟩
    rw [hsize, decodeDir_eq_lift (by rw [← eq_toNat_iff16.mpr ⟨hlt, rfl⟩]; exact hfits.2),
      ← hsize]
    exact lift_ok hdec

theorem decodeDir_eq_eof_iff : decodeDir b = .error (.err .eof) ↔ b = [] ∨ Torn 65534 b := by
  constructor
  · intro h
    have hne : decodeDir b ≠ .error .panic := by
      rw [h]
      nofun
    have hdec := lift_eq_error ((decodeDir_eq hne).symm.trans h)
    rcases decode_eq_eof_iff.mp hdec with rfl | ⟨hll, -⟩ | ⟨rest, hd, hcut, hlt⟩
    · exact Or.inl rfl
    · rw [← List.append_nil (putUint16 _)] at hne
      exact Or.inr (.size hll (lt_of_ne_panic hne))
    · rw [List.append_assoc] at hne
      refine Or.inr (.field rest hd hcut ?_)
      rw [eq_toNat_iff16.mpr ⟨hlt, rfl⟩]
      exact lt_of_ne_panic hne
  · rintro (rfl | ⟨hll, hlt⟩ | ⟨rest, hd, hcut, hlt⟩)
    · rfl
    · have hdec := decode_eq_eof_iff.mpr (Or.inr (.size hll (UInt16.toNat_lt _)))
      rw [← List.append_nil (putUint16 _)] at hdec ⊢
      rw [decodeDir_eq_lift hlt]
      exact lift_error hdec
    · have hlt' := hlt.trans (show 65534 < 2 ^ 16 by decide)
      have hdec := decode_eq_eof_iff.mpr (Or.inr (.field rest hd hcut hlt'))
      rw [List.append_assoc] at hdec ⊢
      rw [decodeDir_eq_lift (by rw [← eq_toNat_iff16.mpr ⟨hlt', rfl⟩]; exact hlt)]
      exact lift_error hdec

/-! ## The two loops -/

theorem decodeDirs_step {ds : List Dir} :
    decodeDirs b = (ds, .err .eof) ↔
      (ds = [] ∧ decodeDir b = .error (.err .eof)) ∨
        ∃ d rest ds', ds = d :: ds' ∧ decodeDir b = .ok (d, rest) ∧
          decodeDirs rest = (ds', .err .eof) := by
  cases h : decodeDir b with
  | error f =>
      rw [decodeDirs_error h, Prod.mk.injEq]
      constructor
      · rintro ⟨rfl, rfl⟩
        exact Or.inl ⟨rfl, rfl⟩
      · rintro (⟨rfl, ⟨⟩⟩ | ⟨d, rest, ds', -, ⟨⟩, -⟩)
        exact ⟨rfl, rfl⟩
  | ok res =>
      obtain ⟨d, rest⟩ := res
      rw [decodeDirs_ok h, Prod.mk.injEq]
      constructor
      · rintro ⟨rfl, hf⟩
        exact Or.inr ⟨d, rest, _, rfl, rfl, Prod.ext rfl hf⟩
      · rintro (⟨-, ⟨⟩⟩ | ⟨d, rest, ds', rfl, ⟨⟩, hrest⟩)
        rw [hrest]
        exact ⟨rfl, rfl⟩

theorem dirLoop_decodeDirs : DirLoop 65534 (fun b ds => decodeDirs b = (ds, .err .eof)) :=
  .of_step (fun _ _ => decodeDirs_step) (fun _ _ _ => decodeDir_eq_ok_iff)
    fun _ => decodeDir_eq_eof_iff

/-- **Lists are not cut short** unless their last record is.  What the decoder of a
`[]Dir` and the loop over `DecodeDir` return, when they return no error, are the
records of their input, one by one, exactly if the input does not end in a record
that is torn.  It is, byte for byte, what the encoder writes for them, exactly if
moreover no record has bytes that its fields do not use. -/
theorem dirs_whole_iff (b : Bytes) :
    ((∀ ds, decodeDirList b = .ok ds → ∃ rs, Whole (2 ^ 16) rs b ∧ ds = rs.map Record.dir) ↔
        ¬ EndsTorn (2 ^ 16) b) ∧
      ((∀ ds, decodeDirs b = (ds, .err .eof) → ∃ rs, Whole 65534 rs b ∧ ds = rs.map Record.dir) ↔
        ¬ EndsTorn 65534 b) ∧
      ((∀ ds, decodeDirList b = .ok ds → b = ds.flatMap Dir.encode) ↔
        ¬ EndsTorn (2 ^ 16) b ∧ ∀ rs, Whole (2 ^ 16) rs b → ∀ r ∈ rs, r.slack = []) ∧
      ((∀ ds, decodeDirs b = (ds, .err .eof) → b = ds.flatMap Dir.encode) ↔
        ¬ EndsTorn 65534 b ∧ ∀ rs, Whole 65534 rs b → ∀ r ∈ rs, r.slack = []) :=
  ⟨dirLoop_decodeDirList.whole_iff Nat.le.refl b, dirLoop_decodeDirs.whole_iff (by decide) b,
    dirLoop_decodeDirList.exact_iff Nat.le.refl b, dirLoop_decodeDirs.exact_iff (by decide) b⟩

/-- A record of size zero ends the list, and the record that follows it is lost.
So does a size with nothing behind it. -/
theorem dirs_dropped :
    let b := Dir.somedir.encode ++ [0, 0] ++ Dir.somedir.encode
    (decodeDirList b = .ok [Dir.somedir] ∧ decodeDirs b = ([Dir.somedir], .err .eof) ∧
        ∀ rs, ¬ Whole (2 ^ 16) rs b) ∧
      decodeDirList [5, 0] = .ok [] ∧ decodeDirs [5, 0] = ([], .err .eof) ∧
        ∀ rs, ¬ Whole (2 ^ 16) rs [5, 0] := by
  have hrecord : ∀ limit, 65534 ≤ limit → Whole limit [⟨Dir.somedir, []⟩] Dir.somedir.encode := by
    intro limit h
    have hfits : Record.Fits 65534 ⟨Dir.somedir, []⟩ := by decide
    exact ⟨List.forall_mem_singleton.mpr ⟨hfits.1, Nat.lt_of_lt_of_le hfits.2 h⟩, by decide⟩
  have hempty : ∀ limit, 65534 ≤ limit → Torn limit ([0, 0] ++ Dir.somedir.encode) := by
    intro limit h
    have hcut : CutOf Dir.somedir.pieces [] := cutOf_nil_iff.mpr (by decide)
    exact .field _ (by decide) hcut (Nat.lt_of_lt_of_le (by decide) h)
  have hsize : ∀ limit, 65534 ≤ limit → Torn limit (putUint16 5) := fun limit h =>
    .size (by decide) (Nat.lt_of_lt_of_le (by decide) h)
  refine ⟨⟨?_, ?_, ?_⟩, ?_, ?_, ?_⟩
  · exact dirLoop_decodeDirList.reads_iff.mpr ⟨_, _, _, hrecord _ (by decide), rfl,
      Or.inr (hempty _ (by decide)), List.append_assoc ..⟩
  · exact dirLoop_decodeDirs.reads_iff.mpr ⟨_, _, _, hrecord _ Nat.le.refl, rfl,
      Or.inr (hempty _ Nat.le.refl), List.append_assoc ..⟩
  · exact EndsTorn.not_whole ⟨_, _, _, hrecord _ (by decide), hempty _ (by decide),
      List.append_assoc ..⟩
  · exact (dirLoop_decodeDirList.nil _).mpr (Or.inr (hsize _ (by decide)))
  · exact (dirLoop_decodeDirs.nil _).mpr (Or.inr (hsize _ Nat.le.refl))
  · exact EndsTorn.not_whole ⟨[], [], _, whole_nil, hsize _ (by decide), rfl⟩

end P9p
