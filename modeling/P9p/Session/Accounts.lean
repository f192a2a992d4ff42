/-
# Every Dirent is accounted for

Along any run of operations that keep to the disciplines of `Discipline` and
`Hand`, a `Dirent` that was obtained

    was released, or
    is in the field Ent of an SFid, or
    is in the hand of a thread, which is going to link it,

and an `SFid` that was taken out of the table is in the hand of the thread that
took it, until its `Ent` is nil for good.

A thread knows of an `SFid` what it has read there since it locked it.  Other
threads do not change it, by `Locks`.
-/
import P9p.Session.Exclusive
import P9p.Session.Hand

namespace P9p.Session

open Conc

variable {s s' : Store} {f : Nat → Ghost} {x : Nat → Hand} {t : Nat} {o o' : Ghost} {y z : Hand}
variable {d ref : Nat}

/-! ## The invariant -/

/-- What a hand says is so. -/
structure Hand.Holds (s : Store) (o : Ghost) (y : Hand) : Prop where
  focus : ∀ ref d, y.focus = some (ref, d) →
    o.held ref ≠ .free ∧ (s.sfid ref).ent = some d ∧ (y.spent → d ∈ released s.log)
  empty : ∀ ref, y.mine = some ref ∨ y.cleared = some ref →
    o.held ref ≠ .free ∧ (s.sfid ref).ent = none
  creating : y.creating = o.op.any Op.isCreate
  failed : y.failed → o.failed

/-- The `Ent` of `ref` is nil, and nobody is going to link it. -/
structure OutOfUse (s : Store) (f : Nat → Ghost) (ref : Nat) : Prop where
  lt : ref < s.next
  ent : (s.sfid ref).ent = none
  mine : ∀ t fid, (f t).mine ≠ some (fid, ref)

structure Accounts (s : Store) (f : Nat → Ghost) (x : Nat → Hand) : Prop where
  holds : ∀ t, (x t).Holds s (f t)
  kept : ∀ d ∈ obtained s.log, d ∈ released s.log ∨
    (∃ ref, ref < s.next ∧ (s.sfid ref).ent = some d) ∨ ∃ t, (x t).fresh = some d
  taken : ∀ t fid ref, .took t fid ref ∈ s.log → (x t).taken = some ref ∨ OutOfUse s f ref

theorem released_mono {log log' : List Event} (h : log ⊆ log') : released log ⊆ released log' := by
  intro d hd
  obtain ⟨ev, hev, hr⟩ := List.mem_filterMap.mp hd
  exact List.mem_filterMap.mpr ⟨ev, h hev, hr⟩

theorem Call.enter_releases {c : Call} (t : Nat) (h : c.releases) (hd : c.dirent = some d) :
    (Event.enter t c).releases = some d := by
  cases c with
  | remove d' => exact hd
  | clunk d' => exact hd
  | _ => cases h

/-- By this event no `Dirent` is obtained and no `SFid` is taken out. -/
def Event.isNeutral : Event → Bool
  | took _ _ _ => false
  | ev => ev.obtains.isNone

theorem Event.not_isNeutral {ev : Event} (h : ev.obtains = some d) : ev.isNeutral = false := by
  cases ev with
  | leave t c r => exact congrArg Option.isNone h
  | _ => cases h

/-- A hand that knows nothing new. -/
theorem Hand.Holds.frame (h : y.Holds s o) (hlog : s.log ⊆ s'.log)
    (hent : ∀ ref, o.held ref ≠ .free → (s'.sfid ref).ent = (s.sfid ref).ent)
    (hheld : ∀ ref, o.held ref ≠ .free → o'.held ref ≠ .free) (hop : o'.op = o.op)
    (hfailed : o.failed → o'.failed) (hfocus : z.focus = y.focus) (hspent : z.spent = y.spent)
    (hmine : z.mine = y.mine) (hcleared : z.cleared = y.cleared)
    (hcreating : z.creating = y.creating) (hzfailed : z.failed = y.failed) : z.Holds s' o' where
  focus := by
    intro ref d hd
    rw [hfocus] at hd
    obtain ⟨hh, he, hr⟩ := h.focus ref d hd
    rw [hspent]
    exact ⟨hheld ref hh, (hent ref hh).trans he, fun hs => released_mono hlog (hr hs)⟩
  empty := by
    intro ref hd
    rw [hmine, hcleared] at hd
    obtain ⟨hh, he⟩ := h.empty ref hd
    exact ⟨hheld ref hh, (hent ref hh).trans he⟩
  creating := by rw [hcreating, h.creating, hop]
  failed := by
    intro hz
    rw [hzfailed] at hz
    exact hfailed (h.failed hz)

theorem OutOfUse.frame (h : OutOfUse s f ref) (hnext : s.next ≤ s'.next)
    (hent : (s'.sfid ref).ent = (s.sfid ref).ent)
    (hmine : ∀ p, o.mine = some p → (f t).mine = some p ∨ s.next ≤ p.2) :
    OutOfUse s' (Function.update f t o) ref where
  lt := Nat.lt_of_lt_of_le h.lt hnext
  ent := hent.trans h.ent
  mine := by
    intro t' fid
    by_cases ht : t' = t
    · subst ht
      rw [Function.update_self]
      intro hm
      rcases hmine _ hm with hm | hle
      · exact h.mine t' fid hm
      · exact absurd h.lt (Nat.not_lt.mpr hle)
    · rw [Function.update_of_ne ht]
      exact h.mine t' fid

namespace Accounts

/-- A step of thread `t`, which changes `Ent` only where no other thread knows
it. -/
theorem change (A : Accounts s f x)
    (hothers : ∀ t' ref, t' ≠ t → (f t').held ref ≠ .free →
      (s'.sfid ref).ent = (s.sfid ref).ent)
    (hlog : s.log ⊆ s'.log) (hholds : y.Holds s' o)
    (hkept : ∀ d ∈ obtained s'.log, d ∈ released s'.log ∨
      (∃ ref, ref < s'.next ∧ (s'.sfid ref).ent = some d) ∨ y.fresh = some d ∨
        ∃ t', t' ≠ t ∧ (x t').fresh = some d)
    (htaken : ∀ t' fid ref, .took t' fid ref ∈ s'.log →
      (if t' = t then y else x t').taken = some ref ∨
        OutOfUse s' (Function.update f t o) ref) :
    Accounts s' (Function.update f t o) (Function.update x t y) where
  holds := by
    intro t'
    by_cases ht : t' = t
    · subst ht
      rw [Function.update_self, Function.update_self]
      exact hholds
    · rw [Function.update_of_ne ht, Function.update_of_ne ht]
      exact (A.holds t').frame hlog (fun ref => hothers t' ref ht) (fun _ => id) rfl id rfl
        rfl rfl rfl
        rfl rfl
  kept := by
    intro d hd
    rcases hkept d hd with h | h | h | ⟨t', ht, h⟩
    · exact Or.inl h
    · exact Or.inr (Or.inl h)
    · exact Or.inr (Or.inr ⟨t, by rwa [Function.update_self]⟩)
    · exact Or.inr (Or.inr ⟨t', by rwa [Function.update_of_ne ht]⟩)
  taken := by
    intro t' fid ref hm
    rw [Function.update_apply]
    exact htaken t' fid ref hm

/-- Everything obtained is where it was, or was released meanwhile. -/
theorem kept_of (A : Accounts s f x) (hlog : s.log ⊆ s'.log) (hnext : s.next ≤ s'.next)
    (hent : ∀ ref d, ref < s.next → (s.sfid ref).ent = some d →
      (s'.sfid ref).ent = some d ∨ d ∈ released s'.log)
    (hfresh : ∀ d, (x t).fresh = some d → y.fresh = some d ∨ d ∈ released s'.log ∨
      ∃ ref, ref < s'.next ∧ (s'.sfid ref).ent = some d) (hd : d ∈ obtained s.log) :
    d ∈ released s'.log ∨ (∃ ref, ref < s'.next ∧ (s'.sfid ref).ent = some d) ∨
      y.fresh = some d ∨ ∃ t', t' ≠ t ∧ (x t').fresh = some d := by
  rcases A.kept d hd with h | ⟨ref, hlt, he⟩ | ⟨t', h⟩
  · exact Or.inl (released_mono hlog h)
  · rcases hent ref d hlt he with he | hr
    · exact Or.inr (Or.inl ⟨ref, Nat.lt_of_lt_of_le hlt hnext, he⟩)
    · exact Or.inl hr
  · by_cases ht : t' = t
    · subst ht
      rcases hfresh d h with h | h | h
      · exact Or.inr (Or.inr (Or.inl h))
      · exact Or.inl h
      · exact Or.inr (Or.inl h)
    · exact Or.inr (Or.inr (Or.inr ⟨t', ht, h⟩))

/-- The thread has in hand what it had, and what was out of use still is. -/
theorem taken_of (A : Accounts s f x)
    (htaken : ∀ ref, (x t).taken = some ref → y.taken = some ref ∨
      OutOfUse s' (Function.update f t o) ref)
    (hout : ∀ ref, OutOfUse s f ref → OutOfUse s' (Function.update f t o) ref) {t' : Nat}
    {fid : Fid} (hm : .took t' fid ref ∈ s.log) :
    (if t' = t then y else x t').taken = some ref ∨ OutOfUse s' (Function.update f t o) ref := by
  rcases A.taken t' fid ref hm with h | h
  · split
    · subst t'
      exact htaken ref h
    · exact Or.inl h
  · exact Or.inr (hout ref h)

/-- A step that obtains, links, clears and takes nothing. -/
theorem quiet (A : Accounts s f x) (es : List Event) (hlog : s'.log = s.log ++ es)
    (hes : ∀ ev ∈ es, ev.isNeutral) (hnext : s'.next = s.next)
    (hent : ∀ ref, (s'.sfid ref).ent = (s.sfid ref).ent)
    (hmine : ∀ p, o.mine = some p → (f t).mine = some p) (hfresh : y.fresh = (x t).fresh)
    (htaken : y.taken = (x t).taken) (hholds : y.Holds s' o) :
    Accounts s' (Function.update f t o) (Function.update x t y) := by
  have hsub : s.log ⊆ s'.log := by
    rw [hlog]
    exact List.subset_append_left ..
  have hold : ∀ {ev : Event}, ev ∈ s'.log → ev.isNeutral = false → ev ∈ s.log := by
    intro ev hev hn
    rw [hlog, List.mem_append] at hev
    rcases hev with hev | hev
    · exact hev
    · rw [hes ev hev] at hn
      cases hn
  refine A.change (fun _ ref _ _ => hent ref) hsub hholds ?_ ?_
  · intro d hd
    refine A.kept_of hsub (Nat.le_of_eq hnext.symm)
      (fun ref d _ he => Or.inl ((hent ref).trans he)) (fun d hd => Or.inl (hfresh.trans hd)) ?_
    obtain ⟨ev, hev, ho⟩ := List.mem_filterMap.mp hd
    exact List.mem_filterMap.mpr ⟨ev, hold hev (Event.not_isNeutral ho), ho⟩
  · intro t' fid ref hm
    refine A.taken_of (fun ref h => Or.inl (htaken.trans h)) (fun ref h => ?_) (hold hm rfl)
    exact h.frame (Nat.le_of_eq hnext.symm) (hent ref) fun p hp => Or.inl (hmine p hp)

/-- A command that the hand takes no note of. -/
theorem calm (A : Accounts s f x) (es : List Event) (hlog : s'.log = s.log ++ es)
    (hes : ∀ ev ∈ es, ev.isNeutral) (hnext : s'.next = s.next)
    (hent : ∀ ref, (s'.sfid ref).ent = (s.sfid ref).ent)
    (hmine : ∀ p, o.mine = some p → (f t).mine = some p)
    (hheld : ∀ ref, (f t).held ref ≠ .free → o.held ref ≠ .free) (hop : o.op = (f t).op)
    (hfailed : o.failed = (f t).failed) :
    Accounts s' (Function.update f t o) (Function.update x t { x t with sawNil := false }) := by
  have hsub : s.log ⊆ s'.log := by
    rw [hlog]
    exact List.subset_append_left ..
  exact A.quiet es hlog hes hnext hent hmine rfl rfl ((A.holds t).frame hsub (fun ref _ => hent ref)
    hheld hop (fun h => hfailed.trans h) rfl rfl rfl rfl rfl rfl)

/-- A command on the table that is not logged. -/
theorem calm_table (A : Accounts s f x) (hlog : s'.log = s.log) (hnext : s'.next = s.next)
    (hent : ∀ ref, (s'.sfid ref).ent = (s.sfid ref).ent)
    (hmine : ∀ p, o.mine = some p → (f t).mine = some p)
    (hheld : ∀ ref, (f t).held ref ≠ .free → o.held ref ≠ .free) (hop : o.op = (f t).op)
    (hfailed : o.failed = (f t).failed) :
    Accounts s' (Function.update f t o) (Function.update x t { x t with sawNil := false }) :=
  A.calm [] (hlog.trans (List.append_nil _).symm) (List.forall_mem_nil _) hnext hent hmine hheld hop
    hfailed

/-- `LoadOrStore` stores a placeholder. -/
theorem store (A : Accounts s f x) (L : Locks s f) (fid : Fid) :
    Accounts ((s.bindNew t fid).record (.stored t fid s.next))
      (Function.update f t ((f t).reserve fid s.next))
      (Function.update x t { x t with mine := some s.next, sawNil := false }) := by
  have hsub : s.log ⊆ ((s.bindNew t fid).record (.stored t fid s.next)).log :=
    List.subset_append_left ..
  have hent : ∀ {ref}, ref < s.next → ((s.bindNew t fid).sfid ref).ent = (s.sfid ref).ent :=
    fun h => congrArg SFid.ent (s.bindNew_sfid_of_ne t fid (Nat.ne_of_lt h))
  have hheld : ∀ {ref}, (f t).held ref ≠ .free → ((f t).reserve fid s.next).held ref ≠ .free := by
    intro ref h
    refine (Function.update_of_ne ?_ ..).trans_ne h
    exact Nat.ne_of_lt (L.owner h).1
  refine A.change (fun t' ref _ h => hent (L.owner h).1) hsub ⟨?_, ?_, ?_, ?_⟩ ?_ ?_
  · intro ref d hd
    obtain ⟨hh, he, hr⟩ := (A.holds t).focus ref d hd
    exact ⟨hheld hh, (hent (L.owner hh).1).trans he, fun hs => released_mono hsub (hr hs)⟩
  · rintro ref (⟨⟨⟩⟩ | hc)
    · refine ⟨?_, congrArg SFid.ent (s.bindNew_sfid_next t fid)⟩
      exact (Function.update_self ..).trans_ne nofun
    · obtain ⟨hh, he⟩ := (A.holds t).empty ref (Or.inr hc)
      exact ⟨hheld hh, (hent (L.owner hh).1).trans he⟩
  · exact (A.holds t).creating
  · exact (A.holds t).failed
  · intro d hd
    rw [Store.record, Books.obtained_record _ rfl] at hd
    exact A.kept_of hsub (Nat.le_succ _) (fun ref d hlt he => Or.inl ((hent hlt).trans he))
      (fun _ h => Or.inl h) hd
  · intro t' fid' ref hm
    rcases List.mem_append.mp hm with hm | hm
    · refine A.taken_of ?_ ?_ hm
      · exact fun _ => Or.inl
      · intro ref h
        refine h.frame (Nat.le_succ _) (hent h.lt) ?_
        rintro _ ⟨⟩
        exact Or.inr (Nat.le_refl _)
    · cases List.mem_singleton.mp hm

/-- `LoadAndDelete` takes an `SFid` out. -/
theorem take (A : Accounts s f x) {fid : Fid} (ht : (x t).taken = none) :
    Accounts ((s.unbind fid).record (.took t fid ref)) (Function.update f t ((f t).look (some ref)))
      (Function.update x t { x t with taken := some ref, sawNil := false }) := by
  have hsub : s.log ⊆ ((s.unbind fid).record (.took t fid ref)).log := List.subset_append_left ..
  refine A.change (fun _ _ _ _ => rfl) hsub
    ((A.holds t).frame hsub (fun _ _ => rfl) (fun _ => id) rfl
    id rfl rfl rfl rfl rfl rfl) ?_ ?_
  · intro d hd
    rw [Store.record, Books.obtained_record _ rfl] at hd
    exact A.kept_of hsub (Nat.le_refl _) (fun _ _ _ => Or.inl) (fun _ => Or.inl) hd
  · intro t' fid' ref' hm
    rcases List.mem_append.mp hm with hm | hm
    · refine A.taken_of ?_ ?_ hm
      · intro ref h
        cases ht.symm.trans h
      · exact fun ref h => h.frame (Nat.le_refl _) rfl fun _ => Or.inl
    · cases List.mem_singleton.mp hm
      rw [if_pos rfl]
      exact Or.inl rfl

/-- An `SFid` in hand is unlocked with a nil `Ent`. -/
theorem unlock (A : Accounts s f x) (L : Locks s f) (R : Records s f)
    (hheld : (f t).held ref ≠ .free) (ht : (x t).taken = some ref → (x t).cleared = some ref) :
    Accounts (s.modify ref fun g => { g with owner := none })
      (Function.update f t ((f t).unlock ref))
      (Function.update x t ((x t).after (.unlock ref) ())) := by
  have hent : ∀ ref', ((s.modify ref fun g => { g with owner := none }).sfid ref').ent =
      (s.sfid ref').ent := s.modify_field SFid.ent ref fun _ => rfl
  have hmine : ∀ p, ((f t).unlock ref).mine = some p → (f t).mine = some p :=
    fun _ h => (Option.filter_eq_some_iff.mp h).1
  refine A.change (fun _ ref _ _ => hent ref) (List.Subset.refl _) ⟨nofun, ?_, ?_, ?_⟩ ?_ ?_
  · rintro ref' (hm | ⟨⟨⟩⟩)
    obtain ⟨hm, hne⟩ := Option.filter_eq_some_iff.mp hm
    obtain ⟨hh, he⟩ := (A.holds t).empty ref' (Or.inl hm)
    refine ⟨?_, (hent ref').trans he⟩
    exact (Function.update_of_ne (of_decide_eq_true hne) ..).trans_ne hh
  · exact (A.holds t).creating
  · exact (A.holds t).failed
  · intro d hd
    refine A.kept_of ?_ ?_ ?_ ?_ hd
    · exact List.Subset.refl _
    · exact Nat.le_refl _
    · exact fun ref d _ h => Or.inl ((hent ref).trans h)
    · exact fun _ => Or.inl
  · intro t' fid ref' hm
    refine A.taken_of ?_ ?_ hm
    · intro ref' h
      by_cases href : ref' = ref
      · subst href
        obtain ⟨-, he⟩ := (A.holds t).empty ref' (Or.inr (ht h))
        refine Or.inr ⟨(L.owner hheld).1, (hent ref').trans he, ?_⟩
        intro t'' fid' hm
        by_cases ht' : t'' = t
        · subst ht'
          rw [Function.update_self] at hm
          exact of_decide_eq_true (Option.filter_eq_some_iff.mp hm).2 rfl
        · -- another thread would hold it too
          rw [Function.update_of_ne ht'] at hm
          cases (L.others_free hheld ht').symm.trans (R.mine t'' fid' ref' hm).1
      · exact Or.inl (Option.filter_eq_some_iff.mpr ⟨h, decide_eq_true href⟩)
    · exact fun ref h => h.frame (Nat.le_refl _) (hent ref) fun p hp => Or.inl (hmine p hp)

/-- The thread reads `ref.Ent`. -/
theorem look (A : Accounts s f x) (hheld : (f t).held ref ≠ .free) :
    Accounts s (Function.update f t (f t))
      (Function.update x t ((x t).after (.getEnt ref) (s.sfid ref).ent)) := by
  have H := A.holds t
  cases he : (s.sfid ref).ent with
  | none =>
      refine A.quiet [] (List.append_nil _).symm (List.forall_mem_nil _) rfl (fun _ => rfl)
        (fun _ => id) rfl rfl ⟨H.focus, ?_, H.creating, H.failed⟩
      rintro ref' (hm | ⟨⟨⟩⟩)
      · exact H.empty ref' (Or.inl hm)
      · exact ⟨hheld, he⟩
  | some d =>
      refine A.quiet [] (List.append_nil _).symm (List.forall_mem_nil _) rfl (fun _ => rfl)
        (fun _ => id) rfl rfl ⟨?_, H.empty, H.creating, H.failed⟩
      rintro ref' d' ⟨⟩
      refine ⟨hheld, he, fun hs => ?_⟩
      obtain ⟨hspent, hfocus⟩ := Bool.and_eq_true_iff.mp hs
      exact (H.focus ref d (of_decide_eq_true hfocus)).2.2 hspent

/-- What an assignment to `ref.Ent` overwrites was released. -/
theorem overwrites (A : Accounts s f x) (hx : (x t).MayAssign ref)
    (he : (s.sfid ref).ent = some d) : d ∈ released s.log := by
  rcases hx with hm | ⟨⟨d', hd'⟩, hspent⟩
  · cases ((A.holds t).empty ref (Or.inl hm)).2.symm.trans he
  · obtain ⟨-, he', hr⟩ := (A.holds t).focus ref d' hd'
    cases he.symm.trans he'
    exact hr hspent

/-- The thread assigns `ref.Ent`: it clears it, or links the `Dirent` it has. -/
theorem assign (A : Accounts s f x) (L : Locks s f) {e : Option Nat}
    (hheld : (f t).held ref ≠ .free) (hx : (x t).MayAssign ref)
    (hfresh : ∀ d, (x t).fresh = some d → y.fresh = some d ∨ e = some d)
    (hlink : e ≠ none → (f t).MayLink ref) (hmine : ∀ p, o.mine = some p → (f t).mine = some p)
    (htaken : y.taken = (x t).taken)
    (hholds : y.Holds (s.modify ref fun g => { g with ent := e }) o) :
    Accounts (s.modify ref fun g => { g with ent := e }) (Function.update f t o)
      (Function.update x t y) := by
  have hself : ((s.modify ref fun g => { g with ent := e }).sfid ref).ent = e := by
    rw [Store.modify_sfid_self]
  have hent : ∀ {ref'}, ref' ≠ ref →
      ((s.modify ref fun g => { g with ent := e }).sfid ref').ent = (s.sfid ref').ent := by
    intro ref' hne
    rw [s.modify_sfid_of_ne _ hne]
  refine A.change ?_ (List.Subset.refl _) hholds ?_ ?_
  · intro t' ref' ht hh
    refine hent ?_
    rintro rfl
    exact hh (L.others_free hheld ht)
  · intro d hd
    refine A.kept_of ?_ ?_ ?_ ?_ hd
    · exact List.Subset.refl _
    · exact Nat.le_refl _
    · intro ref' d _ he
      by_cases href : ref' = ref
      · subst href
        exact Or.inr (A.overwrites hx he)
      · exact Or.inl ((hent href).trans he)
    · intro d hd
      rcases hfresh d hd with h | h
      · exact Or.inl h
      · exact Or.inr (Or.inr ⟨ref, (L.owner hheld).1, hself.trans h⟩)
  · intro t' fid ref' hm
    refine A.taken_of ?_ ?_ hm
    · exact fun ref h => Or.inl (htaken.trans h)
    · intro ref' h
      refine h.frame (Nat.le_refl _) ?_ fun p hp => Or.inl (hmine p hp)
      by_cases href : ref' = ref
      · subst href
        rw [hself, h.ent]
        by_contra hne
        -- what is out of use is not linked, and no placeholder
        rcases hlink hne with hstale | ⟨d, hlive⟩ | ⟨fid, hm, -⟩
        · have hslot := L.slots t ref'
          rw [hstale] at hslot
          obtain ⟨-, -, d, hd⟩ := hslot
          cases h.ent.symm.trans hd
        · cases h.ent.symm.trans (L.live hlive).2.2
        · exact h.mine t fid hm
      · exact hent href

theorem clear (A : Accounts s f x) (L : Locks s f) (hheld : (f t).held ref ≠ .free)
    (hx : (x t).MayAssign ref) :
    Accounts (s.modify ref fun g => { g with ent := none })
      (Function.update f t ((f t).set ref (.live none)))
      (Function.update x t ((x t).after (.setEnt ref none) ())) := by
  have H := A.holds t
  refine A.assign L hheld hx (fun _ => Or.inl) (absurd rfl) (fun _ => id) rfl
    ⟨nofun, ?_, H.creating, H.failed⟩
  intro ref' h
  by_cases href : ref' = ref
  · subst href
    refine ⟨(Function.update_self ..).trans_ne nofun, ?_⟩
    rw [Store.modify_sfid_self]
  · rcases h with hm | ⟨⟨⟩⟩
    · obtain ⟨hh, he⟩ := H.empty ref' (Or.inl hm)
      refine ⟨(Function.update_of_ne href ..).trans_ne hh, ?_⟩
      rwa [s.modify_sfid_of_ne _ href]
    · exact absurd rfl href

theorem link (A : Accounts s f x) (L : Locks s f) (hheld : (f t).held ref ≠ .free)
    (hlink : (f t).MayLink ref) (hfresh : (x t).fresh = some d) (hx : (x t).MayAssign ref) :
    Accounts (s.modify ref fun g => { g with ent := some d })
      (Function.update f t ((f t).link ref d))
      (Function.update x t ((x t).after (.setEnt ref (some d)) ())) := by
  have H := A.holds t
  refine A.assign L hheld hx (fun d' h => Or.inr (hfresh.symm.trans h)) (fun _ => hlink)
    (fun _ h => (Option.filter_eq_some_iff.mp h).1) rfl ⟨?_, ?_, H.creating, H.failed⟩
  · rintro _ _ ⟨⟩
    refine ⟨(Function.update_self ..).trans_ne nofun, ?_, nofun⟩
    rw [Store.modify_sfid_self]
  · rintro ref' (⟨⟨⟩⟩ | ⟨⟨⟩⟩)

theorem enter (A : Accounts s f x) (c : Call) :
    Accounts (s.record (.enter t c)) (Function.update f t ((f t).enter c))
      (Function.update x t ((x t).after (.enter c) ())) := by
  have H := A.holds t
  have hsub : s.log ⊆ (s.record (.enter t c)).log := List.subset_append_left ..
  have hheld : ∀ {ref}, (f t).held ref ≠ .free → ((f t).enter c).held ref ≠ .free := by
    intro ref hh
    simp only [Ghost.enter]
    split
    · rintro ⟨⟩
    · exact hh
  refine A.quiet [.enter t c] rfl (List.forall_mem_singleton.mpr rfl) rfl (fun _ => rfl)
    (fun _ => id) rfl rfl ⟨?_, ?_, H.creating, H.failed⟩
  · intro ref d hd
    obtain ⟨hh, he, hr⟩ := H.focus ref d hd
    refine ⟨hheld hh, he, fun hs => ?_⟩
    rcases Bool.or_eq_true_iff.mp hs with hs | hs
    · exact released_mono hsub (hr hs)
    · -- the call releases the `Dirent` in focus
      obtain ⟨hrel, hdir⟩ := Bool.and_eq_true_iff.mp hs
      have hdir : c.dirent = some d := (of_decide_eq_true hdir).trans (congrArg _ hd)
      refine List.mem_filterMap.mpr ⟨.enter t c, List.mem_append_right _ List.mem_cons_self, ?_⟩
      exact Call.enter_releases t hrel hdir
  · intro ref h
    obtain ⟨hh, he⟩ := H.empty ref h
    exact ⟨hheld hh, he⟩

theorem leave (A : Accounts s f x) {c : Call} {r : c.Res}
    (hx : ∀ d, c.obtains r = some d → (x t).fresh = none) :
    Accounts (s.answered t c r) (Function.update f t ((f t).leave c r))
      (Function.update x t ((x t).after (.leave c) r)) := by
  have H := A.holds t
  have hsub : s.log ⊆ (s.answered t c r).log := List.subset_append_left ..
  refine A.change (fun _ _ _ _ => rfl) hsub ⟨?_, H.empty, H.creating, ?_⟩ ?_ ?_
  · intro ref d hd
    obtain ⟨hh, he, hr⟩ := H.focus ref d hd
    refine ⟨hh, he, fun hs => ?_⟩
    rcases Bool.or_eq_true_iff.mp hs with hs | hs
    · exact released_mono hsub (hr hs)
    · have hcons : c.consumes r = some d :=
        (of_decide_eq_true (Bool.and_eq_true_iff.mp hs).2).trans (congrArg _ hd)
      exact List.mem_filterMap.mpr ⟨.leave t c r, List.mem_append_right _ List.mem_cons_self, hcons⟩
  · intro hf
    rcases Bool.or_eq_true_iff.mp hf with hf | hf
    · simp only [Ghost.leave, H.failed hf, Bool.true_or]
    · simp only [Ghost.leave, ← H.creating, hf, Bool.or_true]
  · intro d hd
    rw [Store.answered, obtained_append] at hd
    rcases List.mem_append.mp hd with hd | hd
    · refine A.kept_of hsub (Nat.le_refl _) (fun _ _ _ => Or.inl) (fun d hd => Or.inl ?_) hd
      cases ho : c.obtains r with
      | none =>
          show (c.obtains r).or (x t).fresh = some d
          rw [ho, Option.none_or, hd]
      | some d' => cases (hx d' ho).symm.trans hd
    · obtain ⟨ev, hev, ho⟩ := List.mem_filterMap.mp hd
      cases List.mem_singleton.mp hev
      refine Or.inr (Or.inr (Or.inl ?_))
      show (c.obtains r).or (x t).fresh = some d
      rw [show c.obtains r = some d from ho, Option.some_or]
  · intro t' fid ref hm
    rcases List.mem_append.mp hm with hm | hm
    · refine A.taken_of ?_ ?_ hm
      · exact fun _ => Or.inl
      · exact fun ref h => h.frame (Nat.le_refl _) rfl fun _ => Or.inl
    · cases List.mem_singleton.mp hm

theorem step (A : Accounts s f x) (L : Locks s f) (R : Records s f) {c : Cmd} {env : Env}
    {r : c.Res} (hpre : (f t).pre c) (hx : (x t).pre c) (h : exec s t c env = some (r, s'))
    (hpost : (f t).post c r o) :
    (x t).Allows c r ∧ Accounts s' (Function.update f t o)
      (Function.update x t ((x t).after c r)) := by
  cases c with
  | load fid =>
      cases h
      cases hpost
      exact ⟨trivial, A.calm_table rfl rfl (fun _ => rfl) (fun _ => id) (fun _ => id) rfl rfl⟩
  | storeNew fid =>
      rcases exec_storeNew h with ⟨rfl, rfl⟩ | ⟨-, rfl, rfl⟩
      · cases hpost
        exact ⟨trivial, A.calm_table rfl rfl (fun _ => rfl) (fun _ => id) (fun _ => id) rfl rfl⟩
      · obtain ⟨-, rfl⟩ := hpost
        refine ⟨?_, A.store L fid⟩
        rintro ref d hd rfl
        exact absurd (L.owner ((A.holds t).focus _ d hd).1).1 (Nat.lt_irrefl _)
  | loadAndDelete fid =>
      rcases exec_loadAndDelete h with ⟨rfl, rfl⟩ | ⟨ref, -, rfl, rfl⟩
      · cases hpost
        refine ⟨trivial, A.quiet [] (List.append_nil _).symm (List.forall_mem_nil _) rfl
          (fun _ => rfl) (fun _ => id) rfl hx.symm ?_⟩
        exact (A.holds t).frame (List.Subset.refl _) (fun _ _ => rfl) (fun _ => id) rfl id
          rfl rfl rfl
          rfl rfl rfl
      · cases hpost
        exact ⟨trivial, A.take hx⟩
  | delete fid =>
      cases h
      cases hpost
      exact ⟨trivial, A.calm [_] rfl (List.forall_mem_singleton.mpr rfl) rfl (fun _ => rfl) nofun
        (fun _ => id) rfl rfl⟩
  | lock ref =>
      obtain ⟨-, rfl⟩ := exec_lock h
      obtain ⟨-, e, rfl⟩ := hpost
      refine ⟨trivial, A.calm_table rfl rfl (s.modify_field SFid.ent ref fun _ => rfl) (fun _ => id)
        ?_
        rfl rfl⟩
      intro ref' hh
      show Function.update (f t).held ref (.live e) ref' ≠ .free
      rw [Function.update_apply]
      split
      · exact nofun
      · exact hh
  | unlock ref =>
      obtain rfl := exec_unlock h
      obtain ⟨-, e, he⟩ := hpre
      cases hpost
      exact ⟨trivial, A.unlock L R (by rw [he]; exact nofun) hx⟩
  | getEnt ref =>
      cases h
      obtain ⟨he, rfl⟩ := hpost
      refine ⟨fun d hd => ((A.holds t).focus ref d hd).2.1, A.look ?_⟩
      rw [he]
      exact nofun
  | setEnt ref e =>
      cases h
      obtain ⟨-, hheld, hlink⟩ := hpre
      cases e with
      | none =>
          cases hpost
          exact ⟨trivial, A.clear L hheld hx⟩
      | some d =>
          cases hpost
          exact ⟨trivial, A.link L hheld (hlink d rfl).2 hx.1 hx.2⟩
  | getFile ref =>
      cases h
      cases hpost
      exact ⟨trivial, A.calm_table rfl rfl (fun _ => rfl) (fun _ => id) (fun _ => id) rfl rfl⟩
  | setFile ref file =>
      cases h
      cases hpost
      exact ⟨trivial, A.calm_table rfl rfl (s.modify_field SFid.ent ref fun _ => rfl) (fun _ => id)
        (fun _ => id) rfl rfl⟩
  | getMode ref =>
      cases h
      cases hpost
      exact ⟨trivial, A.calm_table rfl rfl (fun _ => rfl) (fun _ => id) (fun _ => id) rfl rfl⟩
  | setMode ref mode =>
      cases h
      cases hpost
      exact ⟨trivial, A.calm_table rfl rfl (s.modify_field SFid.ent ref fun _ => rfl) (fun _ => id)
        (fun _ => id) rfl rfl⟩
  | enter c =>
      cases h
      cases hpost
      exact ⟨trivial, A.enter c⟩
  | leave c =>
      cases h
      cases hpost
      exact ⟨trivial, A.leave fun d => hx _ d⟩

theorem init (hlog : s.log = []) : Accounts s (fun _ => Ghost.idle) fun _ => Hand.idle := by
  refine ⟨fun _ => ⟨nofun, ?_, rfl, nofun⟩, ?_, ?_⟩
  · rintro ref (⟨⟨⟩⟩ | ⟨⟨⟩⟩)
  · intro d hd
    rw [hlog] at hd
    cases hd
  · intro t fid ref hm
    rw [hlog] at hm
    cases hm

theorem start (A : Accounts s f x) (op : Op) (hx : x t = Hand.idle) :
    Accounts (start s t op) (Function.update f t (Ghost.begin op))
      (Function.update x t (Hand.begin op)) := by
  refine A.quiet [.invoked t op] rfl (List.forall_mem_singleton.mpr rfl) rfl (fun _ => rfl)
    (by rintro _ ⟨⟩) ?_ ?_ ⟨by rintro _ _ ⟨⟩, ?_, rfl, by rintro ⟨⟩⟩
  · rw [hx]
    rfl
  · rw [hx]
    rfl
  · rintro ref (⟨⟨⟩⟩ | ⟨⟨⟩⟩)

end Accounts

end P9p.Session
