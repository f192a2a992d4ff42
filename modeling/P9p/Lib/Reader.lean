/-
# Reading values off a byte string

A `Reader ε α` takes the bytes still unread and either fails or returns a
value with the bytes left over.  Two notions carry every proof about a
format:

    Encodes r w a    reading w, whatever follows it, gives a and stops
                     exactly at the end of w
    Stable r         a success depends on the bytes consumed only: whenever
                     r succeeds, the consumed prefix `Encodes` the result

`Encodes` composes along `bind` by appending the byte strings, so a round
trip for a record is the round trips of its fields in order.  `Stable`
readers cannot look past what they consume.  `Consumes r n` says how much that
is, for a reader of values of one length.

A sub-reader run on a delimited piece of the input (`delimited`) is stable
for free: the piece is consumed as a whole, whatever the sub-reader does
with it.
-/
import P9p.Lib.LittleEndian

namespace Wire

abbrev Reader (ε α : Type) := StateT (List UInt8) (Except ε) α

namespace Reader

variable {ε α β γ : Type}

/-- Reading `w` gives `a` and leaves everything after `w` unread. -/
def Encodes (r : Reader ε α) (w : List UInt8) (a : α) : Prop :=
  ∀ rest, r (w ++ rest) = .ok (a, rest)

/-- Whenever `r` succeeds, the bytes it consumed encode its result. -/
def Stable (r : Reader ε α) : Prop :=
  ∀ b a rest, r b = .ok (a, rest) → ∃ w, b = w ++ rest ∧ Encodes r w a

/-- A reader that always fails. -/
def fail (e : ε) : Reader ε α := fun _ => .error e

/-- Exactly `n` bytes.  Wanting some and finding none fails with `empty`,
finding too few with `short`; wanting none always succeeds. -/
def take (empty short : ε) (n : Nat) : Reader ε (List UInt8) := fun b =>
  if n ≤ b.length then .ok (b.take n, b.drop n)
  else if b.isEmpty then .error empty
  else .error short

/-- Run `r` on a piece of its own, forgetting what it leaves of the piece. -/
def within (r : Reader ε α) (piece : List UInt8) : Reader ε α := fun rest =>
  match r piece with
  | .ok (a, _) => .ok (a, rest)
  | .error e => .error e

theorem bind_apply (r : Reader ε α) (f : α → Reader ε β) (b : List UInt8) :
    (r >>= f) b = match r b with
      | .ok (a, rest) => f a rest
      | .error e => .error e := by
  show (r b >>= fun p => f p.1 p.2) = _
  cases r b <;> rfl

theorem pure_apply (a : α) (b : List UInt8) :
    (pure a : Reader ε α) b = .ok (a, b) := rfl

variable {r : Reader ε α} {f : α → Reader ε β} {b rest piece w : List UInt8} {a : α} {c : β}
  {n : Nat}

/-- A successful `bind` is two successes. -/
theorem bind_eq_ok (h : (r >>= f) b = .ok (c, rest)) :
    ∃ a mid, r b = .ok (a, mid) ∧ f a mid = .ok (c, rest) := by
  rw [bind_apply] at h
  cases hr : r b with
  | error e => rw [hr] at h; cases h
  | ok p =>
      obtain ⟨a, mid⟩ := p
      rw [hr] at h
      exact ⟨a, mid, rfl, h⟩

/-- The reader got through its piece, and the input is where it was. -/
theorem within_eq_ok {mid : List UInt8} (h : r.within piece mid = .ok (a, rest)) :
    rest = mid ∧ ∃ left, r piece = .ok (a, left) := by
  unfold Reader.within at h
  split at h
  · rename_i left hr
    cases h
    exact ⟨rfl, left, hr⟩
  · cases h

theorem within_error_iff {mid : List UInt8} {e : ε} :
    r.within piece mid = .error e ↔ r piece = .error e := by
  unfold Reader.within
  cases r piece with
  | ok p => exact ⟨nofun, nofun⟩
  | error e' => exact ⟨fun h => congrArg _ (Except.error.inj h), fun h => by cases h; rfl⟩

theorem within_map (r : Reader ε α) (g : α → β) (piece : List UInt8) :
    (r.within piece >>= fun a => pure (g a)) = (r >>= fun a => pure (g a)).within piece := by
  funext mid
  rw [bind_apply]
  unfold Reader.within
  rw [bind_apply]
  cases r piece <;> rfl

/-- A failing `bind` fails first or second. -/
theorem bind_eq_error_iff {e : ε} :
    (r >>= f) b = .error e ↔
      r b = .error e ∨ ∃ a mid, r b = .ok (a, mid) ∧ f a mid = .error e := by
  rw [bind_apply]
  cases r b with
  | error e' => exact ⟨fun h => Or.inl (by cases h; rfl), by rintro (⟨⟨⟩⟩ | ⟨_, _, ⟨⟩, _⟩); rfl⟩
  | ok p =>
      constructor
      · exact fun h => Or.inr ⟨p.1, p.2, rfl, h⟩
      · rintro (⟨⟨⟩⟩ | ⟨a, mid, ⟨⟩, h⟩)
        exact h

/-- What follows a reader matters only where the reader succeeds. -/
theorem bind_congr_ok {g : α → Reader ε β} (h : ∀ a mid, r b = .ok (a, mid) → f a mid = g a mid) :
    (r >>= f) b = (r >>= g) b := by
  rw [bind_apply, bind_apply]
  cases hr : r b with
  | error e => rfl
  | ok p => exact h p.1 p.2 hr

/-- A property of each value that is read, in its place in the list. -/
theorem mapM_map_eq {r : α → Reader ε β} (f : α → γ) (g : β → γ)
    (h : ∀ a b c rest, r a b = .ok (c, rest) → g c = f a) :
    ∀ (as : List α) {b : List UInt8} {cs : List β} {rest : List UInt8},
      as.mapM r b = .ok (cs, rest) → cs.map g = as.map f
  | [], _, _, _, hb => by
      cases hb
      rfl
  | a :: as, b, cs, rest, hb => by
      rw [List.mapM_cons] at hb
      obtain ⟨c, mid, hc, hb⟩ := bind_eq_ok hb
      obtain ⟨cs, mid', hcs, hb⟩ := bind_eq_ok hb
      cases hb
      rw [List.map_cons, List.map_cons, h a b c mid hc, mapM_map_eq f g h as hcs]

/-! ## Encodings compose -/

theorem Encodes.pure (a : α) : Encodes (Pure.pure a : Reader ε α) [] a :=
  fun _ => rfl

theorem Encodes.bind {v : List UInt8} (h : Encodes r w a) (hf : Encodes (f a) v c) :
    Encodes (r >>= f) (w ++ v) c := by
  intro rest
  rw [bind_apply, List.append_assoc, h]
  exact hf rest

theorem Encodes.map (g : α → β) (h : Encodes r w a) :
    Encodes (r >>= fun x => Pure.pure (g x)) w (g a) := by
  intro rest
  rw [bind_apply, h]
  rfl

theorem Encodes.mapM_cons {r : α → Reader ε β} {as : List α} {v : List UInt8} {cs : List β}
    (h : Encodes (r a) w c) (hs : Encodes (as.mapM r) v cs) :
    Encodes ((a :: as).mapM r) (w ++ v) (c :: cs) := by
  rw [List.mapM_cons]
  exact h.bind (hs.map (c :: ·))

/-- Reading a list of values one after the other: the encodings are
appended in order. -/
theorem Encodes.mapM (r : α → Reader ε β) (proj : γ → α) (enc : γ → List UInt8) (out : γ → β) :
    ∀ (cs : List γ), (∀ c ∈ cs, Encodes (r (proj c)) (enc c) (out c)) →
      Encodes ((cs.map proj).mapM r) (cs.flatMap enc) (cs.map out)
  | [], _ => Encodes.pure []
  | c :: cs, h => by
      have hc := h c List.mem_cons_self
      have hcs := Encodes.mapM r proj enc out cs (fun x hx => h x (List.mem_cons_of_mem _ hx))
      rw [List.map_cons, List.flatMap_cons, List.map_cons]
      exact hc.mapM_cons hcs

theorem Encodes.take (empty short : ε) (w : List UInt8) :
    Encodes (Reader.take empty short w.length) w w := by
  intro rest
  simp [Reader.take]

theorem Encodes.within (h : Encodes r piece a) : Encodes (r.within piece) [] a := by
  intro rest
  have hp := h []
  rw [List.append_nil] at hp
  simp [Reader.within, hp]

/-! ## Lengths -/

/-- Whenever `r` succeeds, it has consumed `n` bytes. -/
def Consumes (r : Reader ε α) (n : Nat) : Prop :=
  ∀ b a rest, r b = .ok (a, rest) → b.length = n + rest.length

theorem Consumes.pure (a : α) : Consumes (Pure.pure a : Reader ε α) 0 := by
  intro b a' rest h
  cases h
  exact (Nat.zero_add _).symm

theorem Consumes.bind {m : Nat} (h : Consumes r m) (hf : ∀ a, Consumes (f a) n) :
    Consumes (r >>= f) (m + n) := by
  intro b c rest hb
  obtain ⟨a, mid, h₁, h₂⟩ := bind_eq_ok hb
  rw [h b a mid h₁, hf a mid c rest h₂, Nat.add_assoc]

theorem Consumes.map (g : α → β) (h : Consumes r n) :
    Consumes (r >>= fun x => Pure.pure (g x)) n := h.bind fun a => Consumes.pure (g a)

theorem take_eq_ok {empty short : ε} {a : List UInt8}
    (h : Reader.take empty short n b = .ok (a, rest)) : b = a ++ rest ∧ a.length = n := by
  unfold Reader.take at h
  split at h
  · rename_i hn
    cases h
    exact ⟨(List.take_append_drop n b).symm, List.length_take_of_le hn⟩
  · split at h <;> cases h

theorem Consumes.take (empty short : ε) (n : Nat) : Consumes (Reader.take empty short n) n := by
  intro b a rest h
  obtain ⟨rfl, rfl⟩ := take_eq_ok h
  exact List.length_append

/-! ## Values -/

/-- What `r` reads, whatever it leaves.  An error is no value. -/
def value? (r : Reader ε α) (b : List UInt8) : Option α := (r b).toOption.map Prod.fst

theorem value?_map (g : α → β) (r : Reader ε α) (b : List UInt8) :
    (r >>= fun a => Pure.pure (g a)).value? b = (r.value? b).map g := by
  rw [value?, bind_apply, value?]
  cases r b <;> rfl

theorem value?_take_bind (empty short : ε) (n : Nat) (f : List UInt8 → Reader ε β)
    (b : List UInt8) :
    (take empty short n >>= f).value? b =
      if n ≤ b.length then (f (b.take n)).value? (b.drop n) else none := by
  by_cases h : n ≤ b.length
  · rw [if_pos h, value?, bind_apply, take, if_pos h]
    rfl
  · rw [if_neg h, value?, bind_apply, take, if_neg h]
    cases b.isEmpty <;> rfl

theorem value?_take (empty short : ε) (n : Nat) (b : List UInt8) :
    (take empty short n).value? b = if n ≤ b.length then some (b.take n) else none := by
  rw [← bind_pure (take empty short n), value?_take_bind]
  rfl

/-- Different numbers of bytes are read differently, unless there are too few for
both. -/
theorem value?_take_eq_iff (empty short : ε) {m : Nat} :
    (take empty short m).value? b = (take empty short n).value? b ↔
      m = n ∨ b.length < m ∧ b.length < n := by
  rw [value?_take, value?_take]
  split <;> split
  · rename_i hm hn
    rw [Option.some.injEq]
    constructor
    · intro heq
      have hlen := congrArg List.length heq
      rw [List.length_take_of_le hm, List.length_take_of_le hn] at hlen
      exact Or.inl hlen
    · rintro (rfl | h)
      · rfl
      · omega
  · rename_i hm hn
    exact iff_of_false (by rintro ⟨⟩) (by omega)
  · rename_i hm hn
    exact iff_of_false (by rintro ⟨⟩) (by omega)
  · exact iff_of_true rfl (by omega)

/-! ## Stable readers -/

theorem Stable.pure (a : α) : Stable (Pure.pure a : Reader ε α) := by
  intro b a' rest h
  cases h
  exact ⟨[], rfl, Encodes.pure a⟩

theorem Stable.fail (e : ε) : Stable (Reader.fail e : Reader ε α) := by
  intro b a rest h
  cases h

theorem Stable.bind (h : Stable r) (hf : ∀ a, Stable (f a)) : Stable (r >>= f) := by
  intro b c rest hb
  obtain ⟨a, mid, h₁, h₂⟩ := bind_eq_ok hb
  obtain ⟨w, rfl, hw⟩ := h b a mid h₁
  obtain ⟨v, rfl, hv⟩ := hf a mid c rest h₂
  exact ⟨w ++ v, (List.append_assoc ..).symm, hw.bind hv⟩

theorem Stable.take (empty short : ε) (n : Nat) : Stable (Reader.take empty short n) := by
  intro b a rest h
  unfold Reader.take at h
  split at h
  · rename_i hn
    cases h
    refine ⟨b.take n, (List.take_append_drop n b).symm, ?_⟩
    have henc := Encodes.take empty short (b.take n)
    rwa [List.length_take, Nat.min_eq_left hn] at henc
  · split at h <;> cases h

theorem Stable.within (r : Reader ε α) (piece : List UInt8) : Stable (r.within piece) := by
  intro b a rest h
  unfold Reader.within at h
  cases hp : r piece with
  | error e => rw [hp] at h; cases h
  | ok p =>
      rw [hp] at h
      cases h
      refine ⟨[], rfl, fun rest' => ?_⟩
      simp [Reader.within, hp]

theorem Stable.mapM {r : α → Reader ε β} :
    ∀ (as : List α), (∀ a ∈ as, Stable (r a)) → Stable (as.mapM r)
  | [], _ => Stable.pure []
  | a :: as, h => by
      rw [List.mapM_cons]
      refine (h a List.mem_cons_self).bind fun x => ?_
      refine (Stable.mapM as fun y hy => h y (List.mem_cons_of_mem _ hy)).bind fun xs => ?_
      exact Stable.pure (x :: xs)

/-- Appending bytes to an accepted input changes nothing but the rest. -/
theorem Stable.append (h : Stable r) (hb : r b = .ok (a, rest)) (ext : List UInt8) :
    r (b ++ ext) = .ok (a, rest ++ ext) := by
  obtain ⟨w, rfl, hw⟩ := h b a rest hb
  rw [List.append_assoc]
  exact hw (rest ++ ext)

/-- An input that fails and succeeds once extended is a proper prefix of
what the extended run consumes. -/
theorem Stable.cut_of_extended (h : Stable r) {ext : List UInt8} (hfail : ∀ p, r b ≠ .ok p)
    (hext : r (b ++ ext) = .ok (a, rest)) :
    ∃ w, b ++ ext = w ++ rest ∧ Encodes r w a ∧ b.length < w.length := by
  obtain ⟨w, hw, henc⟩ := h _ _ _ hext
  refine ⟨w, hw, henc, ?_⟩
  by_contra hlen
  have hpre : w <+: b :=
    List.prefix_of_prefix_length_le ⟨rest, hw.symm⟩ ⟨ext, rfl⟩ (by omega)
  obtain ⟨tail, rfl⟩ := hpre
  exact hfail _ (henc tail)

end Reader

end Wire
