/-
# `P9p.Encoding.Values` — the codec on all of its values

`Marshal` and `Size` take any value, by value or by pointer.  `Datum` has a case for
each that the type switches know, beyond the Fcalls of the protocol: plain values,
records, lists of records, messages.

**Does `Size` predict `Marshal`?**  Except for the double count of a `*[]byte`
(`P9p.Encoding`), yes: `size_eq_length_iff`.  The exceptions are the values that
reach a byte slice through a pointer.
-/
import P9p.Encoding.Canonical

namespace P9p

open Wire Wire.Reader

inductive Datum where
  | plain (p : Plain)
  | dir (d : Dir)
  | dirs (ds : List Dir)
  | fcall (f : Fcall)
  | message (m : Message)

/-- The message is held by pointer and has a byte slice. -/
def MessageVal.bytesByRef : MessageVal → Bool
  | .pointer m => m.fields.any Elem.isBytes
  | _ => false

namespace Datum

/-! ## `Marshal` and `Size` -/

/-- Pointers to records, lists and Fcalls are followed at once. -/
def encode (byRef : Bool) : Datum → Bytes
  | plain p => p.encode
  | dir d => d.encode
  | dirs ds => ds.flatMap Dir.encode
  | fcall f => f.encode
  | message m => m.encode byRef

/-- `codec9p.Marshal`. -/
def marshal (byRef : Bool) (v : Datum) : Except Err Bytes := .ok (v.encode byRef)

def size9p (byRef : Bool) : Datum → UInt32
  | plain p => p.size byRef
  | dir d => d.size
  | dirs ds => ds.foldl (fun s (d : Dir) => s + d.size) 0
  | fcall f => f.size
  | message m => m.size byRef

/-- `codec9p.Size`. -/
def size (byRef : Bool) (v : Datum) : Int := (v.size9p byRef).toNat

/-- A byte slice is reached through a pointer. -/
def bytesByRef (byRef : Bool) : Datum → Bool
  | plain p => byRef && p.isBytes
  | message m => byRef && m.fields.any Elem.isBytes
  | fcall f => f.message.bytesByRef
  | dir _ => false
  | dirs _ => false

end Datum

theorem Plain.size_true (p : Plain) :
    p.size true = p.size false + if p.isBytes then 4 else 0 := by
  cases p with
  | bytes b => exact UInt32.add_comm _ _
  | _ => exact (UInt32.add_zero _).symm

/-- A wrapping size with four bytes too many, or not. -/
theorem toNat_add_four {s : UInt32} {n : Nat} (h : s.toNat = n % 2 ^ 32) (double : Bool) :
    (s + if double then 4 else 0).toNat = (n + if double then 4 else 0) % 2 ^ 32 := by
  rw [UInt32.toNat_add, h]
  cases double with
  | false =>
      show (n % 2 ^ 32 + 0) % 2 ^ 32 = (n + 0) % 2 ^ 32
      omega
  | true =>
      show (n % 2 ^ 32 + 4) % 2 ^ 32 = (n + 4) % 2 ^ 32
      omega

theorem MessageVal.size_toNat (m : MessageVal) :
    m.size.toNat = (m.encode.length + if m.bytesByRef then 4 else 0) % 2 ^ 32 := by
  cases m with
  | nil => rfl
  | value m => exact m.size_toNat
  | pointer m =>
      have h := toNat_add_four m.size_toNat (m.fields.any Elem.isBytes)
      rwa [← m.size_true, ← m.encode_byRef_length] at h

namespace Datum

theorem size9p_toNat (byRef : Bool) (v : Datum) :
    (v.size9p byRef).toNat =
      ((v.encode byRef).length + if v.bytesByRef byRef then 4 else 0) % 2 ^ 32 := by
  cases v with
  | plain p =>
      cases byRef with
      | false => exact p.size_toNat
      | true =>
          have h := toNat_add_four p.size_toNat p.isBytes
          rwa [← p.size_true] at h
  | dir d => exact Elem.size_toNat (.dir d)
  | dirs ds =>
      have h := foldl_size_toNat (fun d : Dir => d.size) (fun d => d.encode.length) 0 ds
        fun d _ => Elem.size_toNat (.dir d)
      rw [size9p, h, encode, List.length_flatMap]
      simp [bytesByRef]
  | fcall f =>
      have hlen : f.encode.length = 3 + f.message.encode.length := by
        simp only [Fcall.encode, List.length_append, List.length_singleton, putUint16, toLE_length]
      rw [size9p, Fcall.size, UInt32.toNat_add, f.message.size_toNat, encode, hlen, bytesByRef]
      show (3 + _) % _ = _
      omega
  | message m =>
      cases byRef with
      | false => exact m.size_toNat
      | true =>
          have h := toNat_add_four m.size_toNat (m.fields.any Elem.isBytes)
          rwa [← m.size_true, ← m.encode_byRef_length] at h

/-- **`Size` predicts `Marshal`** for every encoding that `Size` can count, exactly
if no byte slice is reached through a pointer. -/
theorem size_eq_length_iff (v : Datum) (byRef : Bool) (p : Bytes) (hp : v.marshal byRef = .ok p)
    (hlen : p.length < 2 ^ 32) : v.size byRef = p.length ↔ v.bytesByRef byRef = false := by
  cases hp
  rw [size, v.size9p_toNat, Int.ofNat_inj]
  cases v.bytesByRef byRef with
  | false =>
      refine iff_of_true ?_ rfl
      exact Nat.mod_eq_of_lt hlen
  | true =>
      refine iff_of_false ?_ nofun
      show ¬ ((v.encode byRef).length + 4) % 2 ^ 32 = _
      omega

/-- An `Rread` by value, as the codec's own test has it. -/
theorem size_eq_length_rread :
    (message (.rread (lit "a lot of byte data"))).size false = 22 ∧
      (message (.rread (lit "a lot of byte data"))).bytesByRef false = false := by
  have hiff := size_eq_length_iff (message (.rread (lit "a lot of byte data"))) false _ rfl
    (by decide)
  exact ⟨hiff.mpr rfl, rfl⟩

/-- Four bytes too many: `[]byte{}` and `MessageRread` behind a pointer, also in an
Fcall. -/
theorem size_double_counts :
    ((plain (.bytes [])).size true = 8 ∧ (plain (.bytes [])).marshal true = .ok [0, 0, 0, 0]) ∧
      ((message (.rread [7])).size true = 9 ∧
        (message (.rread [7])).marshal true = .ok [1, 0, 0, 0, 7]) ∧
      (fcall ⟨117, 1, .pointer (.rread [7])⟩).size false = 12 ∧
        (fcall ⟨117, 1, .pointer (.rread [7])⟩).marshal false =
          .ok [117, 1, 0, 1, 0, 0, 0, 7] := by
  decide

end Datum

end P9p
