/-
# Readers that read piece by piece

A format says which byte strings a reader takes one after the other to read a
value: `pieces a`, for the values `ok a` that the format can hold.  `Stepwise`
ties a reader to such a description:

    reads      the pieces of `a`, put together, are read as `a`
    accepts    nothing else is: what was consumed are the pieces of the result
    cut        the reader finds the end of its input, instead of a first byte,
               exactly if the input stops between two pieces

The last is what a caller learns from the error for an empty input, and why it
cannot tell the end of a list of values from a value that is cut short.

The rules follow the way readers are put together: `take`, `pure`, `map`, `bind`,
`mapM` and `replicate`.
-/
import P9p.Lib.Reader
import Mathlib.Data.List.Forall2

namespace Wire.Reader

variable {ε α β γ : Type} {eof : ε}

/-- `b` consists of the first of these pieces, but not of all there is in them. -/
def CutOf (ps : List (List UInt8)) (b : List UInt8) : Prop :=
  ∃ k, b = (ps.take k).flatten ∧ b ≠ ps.flatten

structure Stepwise (eof : ε) (r : Reader ε α) (pieces : α → List (List UInt8)) (ok : α → Prop) :
    Prop where
  reads : ∀ a, ok a → Encodes r (pieces a).flatten a
  accepts : ∀ b a rest, r b = .ok (a, rest) → ok a ∧ b = (pieces a).flatten ++ rest
  cut : ∀ b, r b = .error eof ↔ ∃ a, ok a ∧ CutOf (pieces a) b
  inhabited : ∃ a, ok a

/-! ## Cuts -/

section Cut

variable {p q : List (List UInt8)} {b : List UInt8}

theorem cutOf_nil_iff : CutOf p [] ↔ p.flatten ≠ [] :=
  ⟨fun ⟨_, _, h⟩ => h.symm, fun h => ⟨0, rfl, h.symm⟩⟩

theorem cutOf_singleton {w : List UInt8} : CutOf [w] b ↔ b = [] ∧ w ≠ [] := by
  constructor
  · rintro ⟨k, rfl, hne⟩
    cases k with
    | zero => exact ⟨rfl, fun h => hne (by rw [h]; rfl)⟩
    | succ k => exact absurd (by rw [List.take_of_length_le (by simp)]) hne
  · rintro ⟨rfl, hne⟩
    exact cutOf_nil_iff.mpr (by simpa using hne)

theorem CutOf.length_lt (h : CutOf p b) : b.length < p.flatten.length := by
  obtain ⟨k, rfl, hne⟩ := h
  have hsplit : p.flatten = (p.take k).flatten ++ (p.drop k).flatten := by
    rw [← List.flatten_append, List.take_append_drop]
  have hrest : (p.drop k).flatten ≠ [] := by
    intro hnil
    rw [hnil, List.append_nil] at hsplit
    exact hne hsplit.symm
  have hpos := List.length_pos_iff.mpr hrest
  rw [hsplit, List.length_append]
  omega

/-- A cut of two lists of pieces lies in the first, or behind it in the second. -/
theorem cutOf_append_iff :
    CutOf (p ++ q) b ↔ CutOf p b ∨ ∃ v, b = p.flatten ++ v ∧ CutOf q v := by
  constructor
  · rintro ⟨k, rfl, hne⟩
    rw [List.take_append, List.flatten_append, List.flatten_append] at hne
    rw [List.take_append, List.flatten_append]
    by_cases hp : (p.take k).flatten = p.flatten
    · rw [hp] at hne ⊢
      exact Or.inr ⟨_, rfl, k - p.length, rfl, fun h => hne (congrArg _ h)⟩
    · -- the first list is not used up, so nothing of the second one is taken
      have hlt : k < p.length := by
        by_contra hge
        exact hp (by rw [List.take_of_length_le (Nat.le_of_not_lt hge)])
      rw [Nat.sub_eq_zero_of_le (Nat.le_of_lt hlt)]
      exact Or.inl ⟨k, List.append_nil _, fun h => hp ((List.append_nil _).symm.trans h)⟩
  · rintro (h | ⟨v, rfl, k, rfl, hne⟩)
    · have hlt := h.length_lt
      obtain ⟨k, rfl, -⟩ := h
      refine ⟨min k p.length, ?_, ?_⟩
      · rw [List.take_append_of_le_length (Nat.min_le_right k _), ← List.take_eq_take_min]
      · intro heq
        rw [heq, List.flatten_append, List.length_append] at hlt
        omega
    · refine ⟨p.length + k, ?_, ?_⟩
      · rw [List.take_length_add_append, List.flatten_append]
      · rw [List.flatten_append]
        exact fun heq => hne (List.append_cancel_left heq)

end Cut

/-! ## Rules -/

namespace Stepwise

/-- Reading a number of bytes. -/
theorem take (eof short : ε) (hne : eof ≠ short) (n : Nat) :
    Stepwise eof (Reader.take eof short n) (fun bs => [bs]) (fun bs => bs.length = n) where
  reads := by
    rintro bs rfl
    rw [List.flatten_singleton]
    exact Encodes.take eof short bs
  accepts b a rest h := by
    obtain ⟨rfl, hlen⟩ := take_eq_ok h
    exact ⟨hlen, by rw [List.flatten_singleton]⟩
  cut b := by
    simp only [cutOf_singleton]
    constructor
    · intro h
      unfold Reader.take at h
      split at h
      · cases h
      · rename_i hlt
        split at h
        · rename_i hnil
          refine ⟨List.replicate n 0, List.length_replicate, List.isEmpty_iff.mp hnil, ?_⟩
          rw [List.isEmpty_iff.mp hnil] at hlt
          exact List.ne_nil_of_length_pos (by rw [List.length_replicate]; omega)
        · exact absurd (Except.error.inj h).symm hne
    · rintro ⟨a, rfl, rfl, ha⟩
      have hpos := List.length_pos_iff.mpr ha
      unfold Reader.take
      rw [if_neg (by rw [List.length_nil]; omega)]
      rfl
  inhabited := ⟨List.replicate n 0, List.length_replicate⟩

theorem pure {pieces : α → List (List UInt8)} (a : α) (h : pieces a = []) :
    Stepwise eof (Pure.pure a) pieces (· = a) where
  reads := by
    rintro c rfl
    rw [h]
    exact Encodes.pure c
  accepts b c rest hb := by
    cases hb
    exact ⟨rfl, by rw [h]; rfl⟩
  cut b := by
    refine ⟨nofun, ?_⟩
    rintro ⟨c, rfl, k, rfl, hne⟩
    rw [h, List.take_nil] at hne
    exact absurd rfl hne
  inhabited := ⟨a, rfl⟩

theorem congr {r : Reader ε α} {pieces pieces' : α → List (List UInt8)} {ok ok' : α → Prop}
    (h : Stepwise eof r pieces ok) (hok : ∀ a, ok a ↔ ok' a)
    (hpieces : ∀ a, ok' a → pieces a = pieces' a) : Stepwise eof r pieces' ok' where
  reads a ha := hpieces a ha ▸ h.reads a ((hok a).mpr ha)
  accepts b a rest hb := by
    obtain ⟨ha, rfl⟩ := h.accepts b a rest hb
    exact ⟨(hok a).mp ha, by rw [hpieces a ((hok a).mp ha)]⟩
  cut b := by
    rw [h.cut]
    refine exists_congr fun a => ?_
    rw [hok]
    exact and_congr_right fun ha => by rw [hpieces a ha]
  inhabited := h.inhabited.imp fun a => (hok a).mp

/-- The same format, with its values under other names. -/
theorem map {r : Reader ε α} {pieces : α → List (List UInt8)} {ok : α → Prop}
    (h : Stepwise eof r pieces ok) (φ : α → β) {pieces' : β → List (List UInt8)} {ok' : β → Prop}
    (hpieces : ∀ a, ok a → pieces' (φ a) = pieces a) (hok : ∀ a, ok a → ok' (φ a))
    (honto : ∀ c, ok' c → ∃ a, ok a ∧ φ a = c) :
    Stepwise eof (r >>= fun a => Pure.pure (φ a)) pieces' ok' where
  reads := by
    intro c hc
    obtain ⟨a, ha, rfl⟩ := honto c hc
    rw [hpieces a ha]
    exact (h.reads a ha).map φ
  accepts b c rest hb := by
    obtain ⟨a, mid, hr, hpure⟩ := bind_eq_ok hb
    cases hpure
    obtain ⟨ha, rfl⟩ := h.accepts b a _ hr
    exact ⟨hok a ha, by rw [hpieces a ha]⟩
  cut b := by
    have herr : (r >>= fun a => Pure.pure (φ a)) b = .error eof ↔ r b = .error eof := by
      rw [bind_apply]
      cases r b with
      | error e =>
          exact ⟨fun h => congrArg _ (Except.error.inj h), fun h => congrArg _ (Except.error.inj h)⟩
      | ok p => exact ⟨nofun, nofun⟩
    rw [herr, h.cut]
    constructor
    · rintro ⟨a, ha, hcut⟩
      exact ⟨φ a, hok a ha, by rwa [hpieces a ha]⟩
    · rintro ⟨c, hc, hcut⟩
      obtain ⟨a, ha, rfl⟩ := honto c hc
      exact ⟨a, ha, by rwa [hpieces a ha] at hcut⟩
  inhabited := by
    obtain ⟨a, ha⟩ := h.inhabited
    exact ⟨φ a, hok a ha⟩

/-- One reader after the other, where the result tells what the first one read. -/
theorem bind {r : Reader ε α} {p : α → List (List UInt8)} {P : α → Prop}
    {f : α → Reader ε β} {q : β → List (List UInt8)} {Q : β → Prop} (g : β → α)
    (h : Stepwise eof r p P) (hf : ∀ a, P a → Stepwise eof (f a) q fun c => Q c ∧ g c = a) :
    Stepwise eof (r >>= f) (fun c => p (g c) ++ q c) (fun c => P (g c) ∧ Q c) where
  reads := by
    rintro c ⟨ha, hc⟩
    rw [List.flatten_append]
    exact (h.reads _ ha).bind ((hf _ ha).reads c ⟨hc, rfl⟩)
  accepts b c rest hb := by
    obtain ⟨a, mid, hr, hfa⟩ := bind_eq_ok hb
    obtain ⟨ha, rfl⟩ := h.accepts b a mid hr
    obtain ⟨⟨hc, rfl⟩, rfl⟩ := (hf a ha).accepts mid c rest hfa
    exact ⟨⟨ha, hc⟩, by rw [List.flatten_append, List.append_assoc]⟩
  cut b := by
    simp only [cutOf_append_iff]
    constructor
    · intro hb
      rw [bind_apply] at hb
      cases hr : r b with
      | error e =>
          rw [hr] at hb
          cases hb
          obtain ⟨a, ha, hcut⟩ := (h.cut b).mp hr
          obtain ⟨c, hc, rfl⟩ := (hf a ha).inhabited
          exact ⟨c, ⟨ha, hc⟩, Or.inl hcut⟩
      | ok res =>
          obtain ⟨a, mid⟩ := res
          rw [hr] at hb
          obtain ⟨ha, rfl⟩ := h.accepts b a mid hr
          obtain ⟨c, ⟨hc, rfl⟩, hcut⟩ := ((hf a ha).cut mid).mp hb
          exact ⟨c, ⟨ha, hc⟩, Or.inr ⟨mid, rfl, hcut⟩⟩
    · rintro ⟨c, ⟨ha, hc⟩, hcut | ⟨v, rfl, hcut⟩⟩
      · rw [bind_apply, (h.cut b).mpr ⟨g c, ha, hcut⟩]
      · rw [bind_apply, h.reads _ ha v]
        exact ((hf _ ha).cut v).mpr ⟨c, ⟨hc, rfl⟩, hcut⟩
  inhabited := by
    obtain ⟨a, ha⟩ := h.inhabited
    obtain ⟨c, hc, rfl⟩ := (hf a ha).inhabited
    exact ⟨c, ha, hc⟩

/-- A list of values, each read by its own reader. -/
theorem mapM {r : α → Reader ε β} {pieces : β → List (List UInt8)} {ok : α → β → Prop} :
    ∀ (as : List α), (∀ a ∈ as, Stepwise eof (r a) pieces (ok a)) →
      Stepwise eof (as.mapM r) (fun bs => bs.flatMap pieces) (fun bs => List.Forall₂ ok as bs)
  | [], _ =>
      (pure [] rfl).congr (fun _ => List.forall₂_nil_left_iff.symm) fun _ _ => rfl
  | a :: as, h => by
      have ha := h a List.mem_cons_self
      have has := mapM as fun x hx => h x (List.mem_cons_of_mem a hx)
      obtain ⟨b₀, -⟩ := ha.inhabited
      rw [List.mapM_cons]
      -- the list tells its head; the default is for the list that is never read
      refine (ha.bind (Q := fun bs => ∃ x xs, bs = x :: xs ∧ List.Forall₂ ok as xs)
        (q := fun bs => bs.tail.flatMap pieces) (fun bs => bs.headD b₀) fun x _ =>
          has.map (x :: ·) ?_ ?_ ?_).congr ?_ ?_
      · exact fun _ _ => rfl
      · exact fun xs hxs => ⟨⟨x, xs, rfl, hxs⟩, rfl⟩
      · rintro _ ⟨⟨x, xs, rfl, hxs⟩, rfl⟩
        exact ⟨xs, hxs, rfl⟩
      · intro bs
        constructor
        · rintro ⟨hx, x, xs, rfl, hxs⟩
          exact .cons hx hxs
        · rintro (_ | ⟨hx, hxs⟩)
          exact ⟨hx, _, _, rfl, hxs⟩
      · rintro _ (_ | ⟨hx, hxs⟩)
        exact (List.flatMap_cons ..).symm

theorem forall₂_replicate_iff {R : α → β → Prop} {a : α} :
    ∀ {n : Nat} {bs : List β},
      List.Forall₂ R (List.replicate n a) bs ↔ bs.length = n ∧ ∀ x ∈ bs, R a x
  | 0, bs => by
      rw [List.replicate_zero, List.forall₂_nil_left_iff, List.length_eq_zero_iff]
      exact (and_iff_left_of_imp (by rintro rfl; exact nofun)).symm
  | n + 1, [] => by simp [List.replicate_succ]
  | n + 1, x :: xs => by
      rw [List.replicate_succ, List.forall₂_cons, forall₂_replicate_iff, List.forall_mem_cons,
        List.length_cons, Nat.add_right_cancel_iff]
      exact and_left_comm

/-- A number of values. -/
theorem replicate {r : Reader ε β} {pieces : β → List (List UInt8)} {ok : β → Prop}
    (h : Stepwise eof r pieces ok) (n : Nat) :
    Stepwise eof ((List.replicate n ()).mapM fun _ => r) (fun bs => bs.flatMap pieces)
      (fun bs => bs.length = n ∧ ∀ x ∈ bs, ok x) :=
  (mapM (List.replicate n ()) fun _ _ => h).congr (fun _ => forall₂_replicate_iff) fun _ _ => rfl

end Stepwise

end Wire.Reader
