/-
# `P9p.Encoding.Stable` — the decoder never looks past what it consumes

`decodeFcall` is built from `readFull`, from sub-decoders run on a delimited
record, and from `bind`, and all of these are `Stable`: a success depends on
the bytes consumed and on nothing behind them.  Bytes appended to an accepted
input are left unread, and the accepted messages form a prefix-free set.
-/
import P9p.Encoding

namespace P9p

open Wire Wire.Reader

theorem stable_readFull (n : Nat) : Stable (readFull n) :=
  Stable.take Err.eof Err.unexpectedEOF n

theorem stable_getUint8 : Stable getUint8 :=
  (stable_readFull 1).bind fun _ => Stable.pure _

theorem stable_getUint16 : Stable getUint16 :=
  (stable_readFull 2).bind fun _ => Stable.pure _

theorem stable_getUint32 : Stable getUint32 :=
  (stable_readFull 4).bind fun _ => Stable.pure _

theorem stable_getUint64 : Stable getUint64 :=
  (stable_readFull 8).bind fun _ => Stable.pure _

theorem stable_decodeString : Stable decodeString :=
  stable_getUint16.bind fun ll => stable_readFull ll.toNat

theorem stable_decodeQid : Stable decodeQid :=
  stable_getUint8.bind fun _ => stable_getUint32.bind fun _ =>
    stable_getUint64.bind fun _ => Stable.pure _

theorem stable_plain (p : Plain) : Stable p.decode := by
  cases p with
  | uint8 n => exact stable_getUint8.bind fun _ => Stable.pure _
  | uint16 n => exact stable_getUint16.bind fun _ => Stable.pure _
  | uint32 n => exact stable_getUint32.bind fun _ => Stable.pure _
  | uint64 n => exact stable_getUint64.bind fun _ => Stable.pure _
  | bytes old =>
      exact stable_getUint32.bind fun _ => (stable_readFull _).bind fun _ => Stable.pure _
  | string s => exact stable_decodeString.bind fun _ => Stable.pure _
  | strings ss =>
      exact stable_getUint16.bind fun _ =>
        (Stable.mapM _ fun _ _ => stable_decodeString).bind fun _ => Stable.pure _
  | time t => exact stable_getUint32.bind fun _ => Stable.pure _
  | qid q => exact stable_decodeQid.bind fun _ => Stable.pure _
  | qids qs =>
      exact stable_getUint16.bind fun _ =>
        (Stable.mapM _ fun _ _ => stable_decodeQid).bind fun _ => Stable.pure _

/-- The record is consumed whole, so what its fields do with it is settled
inside. -/
theorem stable_dir (d : Dir) : Stable d.decode :=
  stable_getUint16.bind fun _ => (stable_readFull _).bind fun b =>
    (Stable.within _ b).bind fun _ => Stable.pure _

theorem stable_elem (e : Elem) : Stable e.decode := by
  cases e with
  | plain p => exact (stable_plain p).bind fun _ => Stable.pure _
  | dir d => exact (stable_dir d).bind fun _ => Stable.pure _

theorem stable_elems (es : List Elem) : Stable (es.mapM Elem.decode) :=
  Stable.mapM es fun e _ => stable_elem e

theorem stable_message (m : Message) : Stable m.decode := by
  cases m with
  | rstat stat => exact stable_getUint16.bind fun _ => (stable_elems _).bind fun _ => Stable.pure _
  | twstat fid stat =>
      exact (stable_elems _).bind fun _ => stable_getUint16.bind fun _ =>
        (stable_elems _).bind fun _ => Stable.pure _
  | _ => exact (stable_elems _).bind fun _ => Stable.pure _

theorem stable_decodeFcall : Stable decodeFcall := by
  refine stable_getUint8.bind fun type => stable_getUint16.bind fun tag => ?_
  cases newMessage type with
  | error err => exact Stable.fail err
  | ok message => exact (stable_message message).bind fun _ => Stable.pure _

/-- Bytes behind an accepted message make no difference. -/
theorem unmarshal_append {b : Bytes} {f : Fcall} (h : unmarshal b = .ok f) (ext : Bytes) :
    unmarshal (b ++ ext) = .ok f := by
  unfold unmarshal at h ⊢
  cases hb : decodeFcall b with
  | error err => rw [hb] at h; cases h
  | ok r =>
      rw [hb] at h
      cases h
      rw [stable_decodeFcall.append hb ext]

end P9p
