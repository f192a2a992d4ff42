/-
# No use after release

Under any interleaving of any operations, and whatever the file system
answers:

    no method of a Dirent is called after it was Clunked or Removed,
    so none is Clunked or Removed twice;
    no two calls on one Dirent overlap.

**Where a Dirent is.**  A `Dirent` that may still be called sits in one place:
in the hands of the thread a call has returned it to, or in the field `Ent` of
one `SFid`.  The invariant `Exclusive` says that the places are distinct, that
a `Dirent` in a place that is not stale was never released, and that a call
under way is made from a place that belongs to its thread.  By `Locks` a place
belongs to one thread at most, so at the moment of a call there is no other.
-/
import P9p.Session.Locks
import P9p.Session.Operations

namespace P9p.Session

open Conc

variable {c : Call} {d : Nat}

/-! ## The property -/

structure NoUseAfterRelease (log : List Event) : Prop where
  /-- No call on a `Dirent` comes after one that releases it. -/
  alive : ∀ past t c rest d, log = past ++ .enter t c :: rest → c.dirent = some d →
    ∀ t' c', .enter t' c' ∈ past → c'.dirent = some d → c'.releases = false
  /-- When a `Dirent` is called, every earlier call on it has returned. -/
  alone : ∀ past t c rest d, log = past ++ .enter t c :: rest → c.dirent = some d →
    ∀ l₁ t' c' l₂, past = l₁ ++ .enter t' c' :: l₂ → c'.dirent = some d →
      ∃ r, .leave t' c' r ∈ l₂

/-- No call in `log` has released `d`. -/
def Alive (log : List Event) (d : Nat) : Prop :=
  ∀ t c, .enter t c ∈ log → c.dirent = some d → c.releases = false

/-- Every call in `log` on `d` has returned. -/
def Idle (log : List Event) (d : Nat) : Prop :=
  ∀ l₁ t c l₂, log = l₁ ++ .enter t c :: l₂ → c.dirent = some d → ∃ r, .leave t c r ∈ l₂

theorem snoc_eq_append_cons {α : Type} {l l₁ l₂ : List α} {x y : α} (h : l ++ [x] = l₁ ++ y :: l₂) :
    (l = l₁ ∧ x = y ∧ l₂ = []) ∨ ∃ l₂', l₂ = l₂' ++ [x] ∧ l = l₁ ++ y :: l₂' := by
  rcases List.eq_nil_or_concat l₂ with rfl | ⟨l₂', z, rfl⟩
  · obtain ⟨rfl, hx⟩ := List.append_inj' h rfl
    exact Or.inl ⟨rfl, List.head_eq_of_cons_eq hx, rfl⟩
  · have h' : l ++ [x] = (l₁ ++ y :: l₂') ++ [z] := by
      rw [h, List.append_assoc, List.concat_eq_append, List.cons_append]
    obtain ⟨rfl, hx⟩ := List.append_inj' h' rfl
    obtain rfl := List.head_eq_of_cons_eq hx
    exact Or.inr ⟨l₂', List.concat_eq_append, rfl⟩

/-- `log'` has no calls beyond those of `log`. -/
def NoNewCalls (log log' : List Event) : Prop :=
  ∀ l₁ t c l₂, log' = l₁ ++ .enter t c :: l₂ → ∃ l₂', log = l₁ ++ .enter t c :: l₂' ∧ l₂' ⊆ l₂

namespace NoNewCalls

variable {log log' : List Event}

theorem refl (log : List Event) : NoNewCalls log log :=
  fun _ _ _ l₂ h => ⟨l₂, h, fun _ hx => hx⟩

theorem snoc (log : List Event) {ev : Event} (hev : ∀ t c, ev ≠ .enter t c) :
    NoNewCalls log (log ++ [ev]) := by
  intro l₁ t c l₂ h
  rcases snoc_eq_append_cons h with ⟨-, heq, -⟩ | ⟨l₂', rfl, hlog⟩
  · exact absurd heq (hev t c)
  · exact ⟨l₂', hlog, fun _ hx => List.mem_append_left _ hx⟩

theorem mem (h : NoNewCalls log log') {t : Nat} (hm : .enter t c ∈ log') : .enter t c ∈ log := by
  obtain ⟨l₁, l₂, hsplit⟩ := List.append_of_mem hm
  obtain ⟨l₂', hsplit', -⟩ := h l₁ t c l₂ hsplit
  rw [hsplit']
  exact List.mem_append_right _ List.mem_cons_self

theorem alive (h : NoNewCalls log log') (ha : Alive log d) : Alive log' d :=
  fun t c hm => ha t c (h.mem hm)

theorem keeps (h : NoNewCalls log log') (hlog : NoUseAfterRelease log) :
    NoUseAfterRelease log' := by
  refine ⟨?_, ?_⟩
  · intro past t c rest d hsplit hd
    obtain ⟨rest', hsplit', -⟩ := h past t c rest hsplit
    exact hlog.alive past t c rest' d hsplit' hd
  · intro past t c rest d hsplit hd
    obtain ⟨rest', hsplit', -⟩ := h past t c rest hsplit
    exact hlog.alone past t c rest' d hsplit' hd

end NoNewCalls

/-- One more call, on a `Dirent` that is alive and idle. -/
theorem NoUseAfterRelease.enter {log : List Event} (hlog : NoUseAfterRelease log) {t : Nat}
    (hc : ∀ d, c.dirent = some d → Alive log d ∧ Idle log d) :
    NoUseAfterRelease (log ++ [.enter t c]) := by
  refine ⟨?_, ?_⟩
  · intro past t' c' rest d hsplit hd
    rcases snoc_eq_append_cons hsplit with ⟨rfl, heq, -⟩ | ⟨rest', -, h⟩
    · cases heq
      exact (hc d hd).1
    · exact hlog.alive past t' c' rest' d h hd
  · intro past t' c' rest d hsplit hd
    rcases snoc_eq_append_cons hsplit with ⟨rfl, heq, -⟩ | ⟨rest', -, h⟩
    · cases heq
      exact fun l₁ t' c' l₂ hpast => (hc d hd).2 l₁ t' c' l₂ hpast
    · exact hlog.alone past t' c' rest' d h hd

/-! ## Places -/

inductive Place where
  | thread (t : Nat)
  | sfid (ref : Nat)

namespace Place

/-- The place has the `Dirent` `d`. -/
def Has (s : Store) (f : Nat → Ghost) (d : Nat) : Place → Prop
  | thread t => (f t).own = some d
  | sfid ref => (s.sfid ref).ent = some d

/-- The place belongs to thread `t`. -/
def Of (f : Nat → Ghost) (t : Nat) : Place → Prop
  | thread t' => t' = t
  | sfid ref => (f t).held ref ≠ .free

def Stale (f : Nat → Ghost) : Place → Prop
  | thread _ => False
  | sfid ref => ∃ t, (f t).held ref = .stale

end Place

variable {s s' : Store} {f : Nat → Ghost} {t : Nat} {o : Ghost}

variable {p : Place}

theorem Place.Of.update {t' : Nat} (h : p.Of f t') (ht : t' ≠ t) :
    p.Of (Function.update f t o) t' := by
  cases p with
  | thread u => exact h
  | sfid ref =>
      simp only [Place.Of, Function.update_of_ne ht]
      exact h

/-- What is stale stays so if the thread goes on holding it. -/
theorem Place.Stale.update (h : p.Stale f)
    (ho : ∀ ref, p = .sfid ref → (f t).held ref = .stale → o.held ref = .stale) :
    p.Stale (Function.update f t o) := by
  cases p with
  | thread t' => exact h
  | sfid ref =>
      obtain ⟨t', ht'⟩ := h
      refine ⟨t', ?_⟩
      by_cases ht : t' = t
      · subst ht
        rw [Function.update_self]
        exact ho ref rfl ht'
      · rwa [Function.update_of_ne ht]

theorem Locks.of_unique (L : Locks s f) {t' : Nat} (h : p.Of f t) (h' : p.Of f t') : t = t' := by
  cases p with
  | thread u => exact h.symm.trans h'
  | sfid ref =>
      by_contra hne
      exact h' (L.others_free h (Ne.symm hne))

/-- What a thread may call is in a place of its own that is not stale. -/
theorem Locks.place (L : Locks s f) (h : (f t).Reaches d) :
    ∃ p : Place, p.Has s f d ∧ p.Of f t ∧ ¬ p.Stale f := by
  rcases h with hown | ⟨ref, href⟩
  · exact ⟨.thread t, hown, rfl, id⟩
  · have hne : (f t).held ref ≠ .free := by
      rw [href]
      exact nofun
    refine ⟨.sfid ref, (L.live href).2.2, hne, ?_⟩
    rintro ⟨t', ht'⟩
    by_cases heq : t' = t
    · subst heq
      cases href.symm.trans ht'
    · cases (L.others_free hne heq).symm.trans ht'

/-! ## The invariant -/

structure Exclusive (s : Store) (f : Nat → Ghost) : Prop where
  lt : ∀ (p : Place) d, p.Has s f d → d < s.calls
  enter_lt : ∀ t c d, .enter t c ∈ s.log → c.dirent = some d → d < s.calls
  inj : ∀ (p p' : Place) d, p.Has s f d → p'.Has s f d → p = p'
  alive : ∀ (p : Place) d, p.Has s f d → ¬ p.Stale f → Alive s.log d
  calling : ∀ t c d, (f t).calling = some c → c.dirent = some d →
    ∃ p : Place, p.Has s f d ∧ p.Of f t
  pending : ∀ t c l₁ l₂, s.log = l₁ ++ .enter t c :: l₂ →
    (∃ r, .leave t c r ∈ l₂) ∨ (f t).calling = some c
  log : NoUseAfterRelease s.log

namespace Exclusive

theorem init (s : Store) (hlog : s.log = []) (hent : ∀ ref, (s.sfid ref).ent = none) :
    Exclusive s fun _ => Ghost.idle := by
  have hno : ∀ (p : Place) d, ¬ p.Has s (fun _ => Ghost.idle) d := by
    rintro (t | ref) d hp
    · cases hp
    · cases (hent ref).symm.trans hp
  have hnil : ∀ {l₁ l₂ : List Event} {ev : Event}, s.log ≠ l₁ ++ ev :: l₂ := by
    intro l₁ l₂ ev heq
    rw [hlog] at heq
    exact absurd heq (by simp)
  refine ⟨fun p d hp => absurd hp (hno p d), ?_, fun p _ d hp => absurd hp (hno p d),
    fun p d hp => absurd hp (hno p d), nofun, fun _ _ _ _ h => absurd h hnil,
    fun _ _ _ _ _ h => absurd h hnil, fun _ _ _ _ _ h => absurd h hnil⟩
  intro t c d hm
  rw [hlog] at hm
  cases hm

/-- A step that is no call, and after which every `Dirent` is where it was, if
it is anywhere. -/
theorem frame (X : Exclusive s f) (hlog : NoNewCalls s.log s'.log) (hcalls : s'.calls = s.calls)
    (hent : ∀ ref d, (s'.sfid ref).ent = some d → (s.sfid ref).ent = some d)
    (hkeep : ∀ t' ref, t' ≠ t → (f t').held ref ≠ .free →
      (s'.sfid ref).ent = (s.sfid ref).ent)
    (hidle : (f t).calling = none) (hcalling : o.calling = none) (hown : o.own = (f t).own)
    (hstale : ∀ ref d, (s'.sfid ref).ent = some d → (f t).held ref = .stale →
      o.held ref = .stale) : Exclusive s' (Function.update f t o) := by
  have hhas : ∀ (p : Place) d, p.Has s' (Function.update f t o) d → p.Has s f d := by
    rintro (t' | ref) d hp
    · by_cases ht : t' = t
      · subst ht
        simp only [Place.Has, Function.update_self, hown] at hp
        exact hp
      · simp only [Place.Has, Function.update_of_ne ht] at hp
        exact hp
    · exact hent ref d hp
  have hcall : ∀ t' c, (Function.update f t o t').calling = some c →
      t' ≠ t ∧ (f t').calling = some c := by
    intro t' c hc
    by_cases ht : t' = t
    · subst ht
      rw [Function.update_self, hcalling] at hc
      cases hc
    · rw [Function.update_of_ne ht] at hc
      exact ⟨ht, hc⟩
  refine ⟨?_, ?_, ?_, ?_, ?_, ?_, hlog.keeps X.log⟩
  · intro p d hp
    rw [hcalls]
    exact X.lt p d (hhas p d hp)
  · intro t' c d hm hd
    rw [hcalls]
    exact X.enter_lt t' c d (hlog.mem hm) hd
  · intro p p' d hp hp'
    exact X.inj p p' d (hhas p d hp) (hhas p' d hp')
  · intro p d hp hns
    refine hlog.alive (X.alive p d (hhas p d hp) ?_)
    intro hs
    refine hns (hs.update ?_)
    rintro ref rfl
    exact hstale ref d hp
  · intro t' c d hc hd
    obtain ⟨ht, hc⟩ := hcall t' c hc
    obtain ⟨p, hp, hof⟩ := X.calling t' c d hc hd
    refine ⟨p, ?_, ?_⟩
    · cases p with
      | thread u =>
          cases hof
          simp only [Place.Has, Function.update_of_ne ht]
          exact hp
      | sfid ref => exact (hkeep t' ref ht hof).trans hp
    · exact hof.update ht
  · intro t' c l₁ l₂ hsplit
    obtain ⟨l₂', hsplit', hsub⟩ := hlog l₁ t' c l₂ hsplit
    rcases X.pending t' c l₁ l₂' hsplit' with ⟨r, hr⟩ | hc
    · exact Or.inl ⟨r, hsub hr⟩
    · refine Or.inr ?_
      by_cases ht : t' = t
      · subst ht
        rw [hidle] at hc
        cases hc
      · rw [Function.update_of_ne ht]
        exact hc

/-- A frame step that leaves the field `Ent` of every `SFid` alone. -/
theorem frame_ent (X : Exclusive s f) (hlog : NoNewCalls s.log s'.log)
    (hcalls : s'.calls = s.calls) (hent : ∀ ref, (s'.sfid ref).ent = (s.sfid ref).ent)
    (hidle : (f t).calling = none) (hcalling : o.calling = none) (hown : o.own = (f t).own)
    (hstale : ∀ ref, (f t).held ref = .stale → o.held ref = .stale) :
    Exclusive s' (Function.update f t o) :=
  X.frame hlog hcalls (fun ref _ h => (hent ref).symm.trans h) (fun _ ref _ _ => hent ref) hidle
    hcalling hown fun ref _ _ h => hstale ref h

/-- No other thread is calling a `Dirent` that thread `t` may call. -/
theorem idle_of_place (X : Exclusive s f) (L : Locks s f) (hp : p.Has s f d) (hof : p.Of f t)
    (hidle : (f t).calling = none) : Idle s.log d := by
  intro l₁ t' c' l₂ hsplit hd
  rcases X.pending t' c' l₁ l₂ hsplit with hr | hc
  · exact hr
  · obtain ⟨p', hp', hof'⟩ := X.calling t' c' d hc hd
    obtain rfl := X.inj p p' d hp hp'
    obtain rfl := L.of_unique hof hof'
    rw [hidle] at hc
    cases hc

theorem enter (X : Exclusive s f) (L : Locks s f) (hidle : (f t).calling = none)
    (hc : (f t).MayCall c) :
    Exclusive (s.record (.enter t c)) (Function.update f t ((f t).enter c)) := by
  have hhas : ∀ (p : Place) d,
      p.Has (s.record (.enter t c)) (Function.update f t ((f t).enter c)) d ↔ p.Has s f d := by
    rintro (t' | ref) d
    · by_cases ht : t' = t
      · subst ht
        simp only [Place.Has, Function.update_self, Ghost.enter]
      · simp only [Place.Has, Function.update_of_ne ht]
    · exact Iff.rfl
  have hstale : ∀ p : Place, p.Stale f → p.Stale (Function.update f t ((f t).enter c)) := by
    refine fun p hs => hs.update fun ref _ hheld => ?_
    simp only [Ghost.enter, hheld, ite_self]
  refine ⟨?_, ?_, ?_, ?_, ?_, ?_, ?_⟩
  · intro p d hp
    exact X.lt p d ((hhas p d).mp hp)
  · intro t' c' d hm hd
    rcases List.mem_append.mp hm with hm | hm
    · exact X.enter_lt t' c' d hm hd
    · cases List.mem_singleton.mp hm
      obtain ⟨p, hp, -, -⟩ := L.place (hc.dirent d hd)
      exact X.lt p d hp
  · intro p p' d hp hp'
    exact X.inj p p' d ((hhas p d).mp hp) ((hhas p' d).mp hp')
  · intro p d hp hns t' c' hm hd
    have hp := (hhas p d).mp hp
    rcases List.mem_append.mp hm with hm | hm
    · exact X.alive p d hp (fun hs => hns (hstale p hs)) t' c' hm hd
    · cases List.mem_singleton.mp hm
      -- a release makes the place of its `Dirent` stale
      by_contra hrel
      have hrel : c.releases := by simpa using hrel
      obtain ⟨ref, hlast, hheld⟩ := hc.release hrel
      have hent := (L.live hheld).2.2
      rw [hd] at hent
      obtain rfl := X.inj p (.sfid ref) d hp hent
      refine hns ⟨t, ?_⟩
      simp only [Function.update_self, Ghost.enter, hrel, hlast, and_self, if_true]
  · intro t' c' d hcall hd
    by_cases ht : t' = t
    · subst ht
      rw [Function.update_self] at hcall
      cases hcall
      obtain ⟨p, hp, hof, -⟩ := L.place (hc.dirent d hd)
      refine ⟨p, (hhas p d).mpr hp, ?_⟩
      cases p with
      | thread u => exact hof
      | sfid ref =>
          simp only [Place.Of, Function.update_self, Ghost.enter]
          split
          · rintro ⟨⟩
          · exact hof
    · rw [Function.update_of_ne ht] at hcall
      obtain ⟨p, hp, hof⟩ := X.calling t' c' d hcall hd
      exact ⟨p, (hhas p d).mpr hp, hof.update ht⟩
  · intro t' c' l₁ l₂ hsplit
    rcases snoc_eq_append_cons hsplit with ⟨-, heq, -⟩ | ⟨l₂', rfl, hsplit'⟩
    · cases heq
      refine Or.inr ?_
      rw [Function.update_self]
      rfl
    · rcases X.pending t' c' l₁ l₂' hsplit' with ⟨r, hr⟩ | hcall
      · exact Or.inl ⟨r, List.mem_append_left _ hr⟩
      · have ht : t' ≠ t := by
          rintro rfl
          rw [hidle] at hcall
          cases hcall
        rw [Function.update_of_ne ht]
        exact Or.inr hcall
  · refine X.log.enter ?_
    intro d hd
    obtain ⟨p, hp, hof, hns⟩ := L.place (hc.dirent d hd)
    exact ⟨X.alive p d hp hns, X.idle_of_place L hp hof hidle⟩

/-- A call returns: its `Dirent`, if any, is a fresh one. -/
theorem leave (X : Exclusive s f) {r : c.Res} (hcalling : (f t).calling = some c)
    (hr : ∀ d, c.newEnt r = some d → d = s.calls) :
    Exclusive (s.answered t c r) (Function.update f t ((f t).leave c r)) := by
  have hlog : NoNewCalls s.log (s.answered t c r).log := NoNewCalls.snoc _ nofun
  -- a place has what it had, or it is the thread and has the fresh one
  have hhas : ∀ (p : Place) d,
      p.Has (s.answered t c r) (Function.update f t ((f t).leave c r)) d →
        p.Has s f d ∨ p = .thread t ∧ d = s.calls := by
    rintro (t' | ref) d hp
    · by_cases ht : t' = t
      · subst ht
        simp only [Place.Has, Function.update_self, Ghost.leave, Option.or_eq_some_iff] at hp
        rcases hp with hp | ⟨-, hp⟩
        · exact Or.inr ⟨rfl, hr d hp⟩
        · exact Or.inl hp
      · simp only [Place.Has, Function.update_of_ne ht] at hp
        exact Or.inl hp
    · exact Or.inl hp
  refine ⟨?_, ?_, ?_, ?_, ?_, ?_, hlog.keeps X.log⟩
  · intro p d hp
    rcases hhas p d hp with hp | ⟨-, rfl⟩
    · exact Nat.lt_succ_of_lt (X.lt p d hp)
    · exact Nat.lt_succ_self _
  · intro t' c' d hm hd
    exact Nat.lt_succ_of_lt (X.enter_lt t' c' d (hlog.mem hm) hd)
  · intro p p' d hp hp'
    rcases hhas p d hp with hp | ⟨rfl, rfl⟩ <;> rcases hhas p' _ hp' with hp' | ⟨rfl, hd⟩
    · exact X.inj p p' d hp hp'
    · exact absurd (X.lt p d hp) (by omega)
    · exact absurd (X.lt p' _ hp') (by omega)
    · rfl
  · intro p d hp hns
    rcases hhas p d hp with hp | ⟨-, rfl⟩
    · exact hlog.alive (X.alive p d hp fun hs => hns (hs.update fun _ _ hheld => hheld))
    · intro t' c' hm hd
      exact absurd (X.enter_lt t' c' _ (hlog.mem hm) hd) (Nat.lt_irrefl _)
  · intro t' c' d hcall hd
    have ht : t' ≠ t := by
      rintro rfl
      rw [Function.update_self] at hcall
      cases hcall
    rw [Function.update_of_ne ht] at hcall
    obtain ⟨p, hp, hof⟩ := X.calling t' c' d hcall hd
    refine ⟨p, ?_, ?_⟩
    · cases p with
      | thread u =>
          cases hof
          simp only [Place.Has, Function.update_of_ne ht]
          exact hp
      | sfid ref => exact hp
    · exact hof.update ht
  · intro t' c' l₁ l₂ hsplit
    rcases snoc_eq_append_cons hsplit with ⟨-, heq, -⟩ | ⟨l₂', rfl, hsplit'⟩
    · cases heq
    · rcases X.pending t' c' l₁ l₂' hsplit' with ⟨r', hr'⟩ | hcall
      · exact Or.inl ⟨r', List.mem_append_left _ hr'⟩
      · by_cases ht : t' = t
        · subst ht
          cases hcalling.symm.trans hcall
          exact Or.inl ⟨r, List.mem_append_right _ List.mem_cons_self⟩
        · rw [Function.update_of_ne ht]
          exact Or.inr hcall

/-- The thread links the `Dirent` it was given to an `SFid` it has locked. -/
theorem link (X : Exclusive s f) (L : Locks s f) {ref : Nat} (hidle : (f t).calling = none)
    (hheld : (f t).held ref ≠ .free) (hown : (f t).own = some d) :
    Exclusive (s.modify ref fun g => { g with ent := some d })
      (Function.update f t ((f t).link ref d)) := by
  have hhas : ∀ (p : Place) d',
      p.Has (s.modify ref fun g => { g with ent := some d })
        (Function.update f t ((f t).link ref d)) d' →
      p = .sfid ref ∧ d' = d ∨ p.Has s f d' ∧ p ≠ .thread t ∧ p ≠ .sfid ref := by
    rintro (t' | ref') d' hp
    · by_cases ht : t' = t
      · subst ht
        simp only [Place.Has, Function.update_self] at hp
        cases hp
      · simp only [Place.Has, Function.update_of_ne ht] at hp
        exact Or.inr ⟨hp, fun h => ht (Place.thread.inj h), nofun⟩
    · by_cases href : ref' = ref
      · subst href
        simp only [Place.Has, Store.modify_sfid_self] at hp
        cases hp
        exact Or.inl ⟨rfl, rfl⟩
      · simp only [Place.Has, s.modify_sfid_of_ne _ href] at hp
        exact Or.inr ⟨hp, nofun, fun h => href (Place.sfid.inj h)⟩
  refine ⟨?_, X.enter_lt, ?_, ?_, ?_, ?_, X.log⟩
  · intro p d' hp
    rcases hhas p d' hp with ⟨-, rfl⟩ | ⟨hp, -, -⟩
    · exact X.lt (.thread t) d' hown
    · exact X.lt p d' hp
  · intro p p' d' hp hp'
    rcases hhas p d' hp with ⟨rfl, rfl⟩ | ⟨hp, hne, -⟩ <;>
      rcases hhas p' d' hp' with ⟨rfl, hd⟩ | ⟨hp', hne', -⟩
    · rfl
    · exact absurd (X.inj p' (.thread t) d' hp' hown) hne'
    · rw [hd] at hp
      exact absurd (X.inj p (.thread t) d hp hown) hne
    · exact X.inj p p' d' hp hp'
  · intro p d' hp hns
    rcases hhas p d' hp with ⟨-, rfl⟩ | ⟨hp, -, hne⟩
    · exact X.alive (.thread t) d' hown id
    · refine X.alive p d' hp fun hs => hns (hs.update ?_)
      rintro ref' rfl hheld'
      exact (Function.update_of_ne (fun h => hne (congrArg _ h)) ..).trans hheld'
  · intro t' c d' hcall hd
    have ht : t' ≠ t := by
      rintro rfl
      rw [Function.update_self] at hcall
      cases hidle.symm.trans hcall
    rw [Function.update_of_ne ht] at hcall
    obtain ⟨p, hp, hof⟩ := X.calling t' c d' hcall hd
    cases p with
    | thread u =>
        cases hof
        refine ⟨.thread t', ?_, rfl⟩
        simp only [Place.Has, Function.update_of_ne ht]
        exact hp
    | sfid ref' =>
        have href : ref' ≠ ref := by
          rintro rfl
          exact hof (L.others_free hheld ht)
        refine ⟨.sfid ref', ?_, ?_⟩
        · simp only [Place.Has, s.modify_sfid_of_ne _ href]
          exact hp
        · exact Place.Of.update hof ht
  · intro t' c l₁ l₂ hsplit
    rcases X.pending t' c l₁ l₂ hsplit with hr | hcall
    · exact Or.inl hr
    · have ht : t' ≠ t := by
        rintro rfl
        cases hidle.symm.trans hcall
      rw [Function.update_of_ne ht]
      exact Or.inr hcall

theorem step (X : Exclusive s f) (L : Locks s f) {c : Cmd} {env : Env} {r : c.Res}
    (hpre : (f t).pre c) (h : exec s t c env = some (r, s')) (hpost : (f t).post c r o) :
    Exclusive s' (Function.update f t o) := by
  cases c with
  | load fid =>
      cases h
      cases hpost
      exact X.frame_ent (.refl _) rfl (fun _ => rfl) hpre hpre rfl fun _ => id
  | storeNew fid =>
      rcases exec_storeNew h with ⟨rfl, rfl⟩ | ⟨-, rfl, rfl⟩
      · cases hpost
        exact X.frame_ent (.refl _) rfl (fun _ => rfl) hpre.1 hpre.1 rfl fun _ => id
      · obtain ⟨hfree, rfl⟩ := hpost
        refine X.frame (.snoc _ nofun) rfl ?_ ?_ hpre.1 hpre.1 rfl ?_
        · intro ref d hd
          by_cases href : ref = s.next
          · subst href
            cases (congrArg SFid.ent (s.bindNew_sfid_next t fid)).symm.trans hd
          · rwa [← s.bindNew_sfid_of_ne t fid href]
        · intro t' ref _ hheld
          have href : ref ≠ s.next := Nat.ne_of_lt (L.owner hheld).1
          exact congrArg SFid.ent (s.bindNew_sfid_of_ne t fid href)
        · intro ref _ _ hs
          have href : ref ≠ s.next := by
            rintro rfl
            cases hfree.symm.trans hs
          exact (Function.update_of_ne href ..).trans hs
  | loadAndDelete fid =>
      rcases exec_loadAndDelete h with ⟨rfl, rfl⟩ | ⟨ref, -, rfl, rfl⟩
      · cases hpost
        exact X.frame_ent (.refl _) rfl (fun _ => rfl) hpre.1 hpre.1 rfl fun _ => id
      · cases hpost
        exact X.frame_ent (.snoc _ nofun) rfl (fun _ => rfl) hpre.1 hpre.1 rfl fun _ => id
  | delete fid =>
      cases h
      cases hpost
      exact X.frame_ent (.snoc _ nofun) rfl (fun _ => rfl) hpre.1 hpre.1 rfl fun _ => id
  | lock ref =>
      obtain ⟨-, rfl⟩ := exec_lock h
      obtain ⟨hfree, e, rfl⟩ := hpost
      refine X.frame_ent (.refl _) rfl ?_ hpre.1 hpre.1 rfl ?_
      · exact s.modify_field SFid.ent ref fun _ => rfl
      · intro ref' hs
        have href : ref' ≠ ref := by
          rintro rfl
          cases hfree.symm.trans hs
        exact (Function.update_of_ne href ..).trans hs
  | unlock ref =>
      obtain rfl := exec_unlock h
      obtain ⟨hidle, e, he⟩ := hpre
      cases hpost
      refine X.frame_ent (.refl _) rfl ?_ hidle hidle rfl ?_
      · exact s.modify_field SFid.ent ref fun _ => rfl
      · intro ref' hs
        have href : ref' ≠ ref := by
          rintro rfl
          cases he.symm.trans hs
        exact (Function.update_of_ne href ..).trans hs
  | getEnt ref =>
      cases h
      obtain ⟨-, rfl⟩ := hpost
      exact X.frame_ent (.refl _) rfl (fun _ => rfl) hpre.1 hpre.1 rfl fun _ => id
  | setEnt ref e =>
      cases h
      obtain ⟨hidle, hheld, hlink⟩ := hpre
      cases e with
      | none =>
          cases hpost
          refine X.frame (.refl _) rfl ?_ ?_ hidle hidle rfl ?_
          · intro ref' d hd
            by_cases href : ref' = ref
            · subst href
              rw [Store.modify_sfid_self] at hd
              cases hd
            · rwa [s.modify_sfid_of_ne _ href] at hd
          · intro t' ref' ht hheld'
            have href : ref' ≠ ref := by
              rintro rfl
              exact hheld' (L.others_free hheld ht)
            rw [s.modify_sfid_of_ne _ href]
          · intro ref' d hd hs
            have href : ref' ≠ ref := by
              rintro rfl
              rw [Store.modify_sfid_self] at hd
              cases hd
            exact (Function.update_of_ne href ..).trans hs
      | some d =>
          cases hpost
          exact X.link L hidle hheld (hlink d rfl).1
  | getFile ref =>
      cases h
      cases hpost
      exact X.frame_ent (.refl _) rfl (fun _ => rfl) hpre.1 hpre.1 rfl fun _ => id
  | setFile ref file =>
      cases h
      cases hpost
      exact X.frame_ent (.refl _) rfl (s.modify_field SFid.ent ref fun _ => rfl) hpre.1 hpre.1 rfl
        fun _ => id
  | getMode ref =>
      cases h
      cases hpost
      exact X.frame_ent (.refl _) rfl (fun _ => rfl) hpre.1 hpre.1 rfl fun _ => id
  | setMode ref mode =>
      cases h
      cases hpost
      exact X.frame_ent (.refl _) rfl (s.modify_field SFid.ent ref fun _ => rfl) hpre.1 hpre.1 rfl
        fun _ => id
  | enter c =>
      cases h
      cases hpost
      exact X.enter L hpre.1 hpre.2
  | leave c =>
      cases h
      cases hpost
      exact X.leave hpre fun d hd => c.newEnt_answer hd

end Exclusive

/-! ## Every run -/

/-- Nothing is asked of the schedule or of the file system. -/
def exclusion : Protocol exec start Op.prog Ghost where
  idle := Ghost.idle
  begin := Ghost.begin
  pre := Ghost.pre
  post := Ghost.post
  inv s f := Locks s f ∧ Exclusive s f
  guard _ _ _ _ := True
  start_inv op h ht := by
    refine ⟨h.1.start op ht, h.2.frame_ent (.snoc _ nofun) rfl (fun _ => rfl) ?_ rfl ?_ ?_⟩
    · rw [ht]
      rfl
    · rw [ht]
      rfl
    · intro ref hs
      rw [ht] at hs
      cases hs
  exec_inv h hpre _ hexec := by
    obtain ⟨o, hpost, hlocks⟩ := h.1.step hpre hexec
    exact ⟨o, hpost, hlocks, h.2.step h.1 hpre hexec hpost⟩
  safe := Op.prog_safe

/-- In every run of a session, no `Dirent` is called after its release, and no
two calls on one overlap. -/
theorem noUseAfterRelease (acts : List (Sched Op Env)) {s : State}
    (hrun : Conc.exec step initial acts = some s) : NoUseAfterRelease s.store.log := by
  obtain ⟨f, hf⟩ := exclusion.sound_of_forall (fun _ _ _ _ => trivial)
    ⟨Locks.idle init, Exclusive.init init rfl fun _ => rfl⟩ acts hrun
  exact hf.inv.2.log

/-- Thread 0 attaches fid 1; then thread 2 clunks it while thread 1 is in a
`Stat`. -/
def statWhileClunked : List (Sched Op Env) :=
  .invoke (.attach 1 noFid [] []) :: turns 0 7 agreeable ++
    [.invoke (.stat 1), .invoke (.clunk 1)] ++ turns 1 5 agreeable ++ turns 2 1 agreeable ++
    turns 1 2 agreeable ++ turns 2 7 agreeable

theorem noUseAfterRelease_statWhileClunked :
    ∃ s, Conc.exec step initial statWhileClunked = some s ∧
      s.store.log.getLast? = some (.leave 2 (.clunk 0) (none : Option Err)) ∧
      NoUseAfterRelease s.store.log :=
  ⟨_, rfl, rfl, noUseAfterRelease statWhileClunked rfl⟩

end P9p.Session
