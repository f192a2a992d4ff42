/-
# Mutexes and records

Two invariants of the session under any interleaving, for threads that keep to
the discipline:

    Locks     what a thread knows of a mutex is so: it is the owner, and the
              field Ent has the value the thread knows
    Records   the log agrees with the ghost values: every thread's operation
              is on record, an SFid is stored once and under one fid, and a
              placeholder is an SFid the thread has stored, locked and not
              linked

`Locks` needs nothing of the table it starts from, which may have mutexes
locked by others and `SFid`s linked to anything.  The other invariants of the
session are built on these two.
-/
import P9p.Session.Discipline

namespace P9p.Session

open Conc

variable {s s' : Store} {f : Nat → Ghost} {t : Nat} {o : Ghost}
variable {fid : Fid} {env : Env} {ref : Nat} {g : SFid → SFid}

/-! ## The commands that depend on the store -/

theorem exec_storeNew {r : Option Nat} (h : exec s t (.storeNew fid) env = some (r, s')) :
    r = none ∧ s' = s ∨ s.refs fid = none ∧ r = some s.next ∧
      s' = (s.bindNew t fid).record (.stored t fid s.next) := by
  simp only [exec] at h
  split at h
  · cases h
    exact Or.inl ⟨rfl, rfl⟩
  · rename_i hnone
    cases h
    exact Or.inr ⟨hnone, rfl, rfl⟩

theorem exec_loadAndDelete {r : Option Nat} (h : exec s t (.loadAndDelete fid) env = some (r, s')) :
    r = none ∧ s' = s ∨ ∃ ref, s.refs fid = some ref ∧ r = some ref ∧
      s' = (s.unbind fid).record (.took t fid ref) := by
  simp only [exec] at h
  split at h
  · cases h
    exact Or.inl ⟨rfl, rfl⟩
  · rename_i ref hsome
    cases h
    exact Or.inr ⟨ref, hsome, rfl, rfl⟩

theorem exec_lock {r : Unit} (h : exec s t (.lock ref) env = some (r, s')) :
    (s.sfid ref).owner = none ∧ s' = s.modify ref fun g => { g with owner := some t } := by
  simp only [exec] at h
  split at h
  · rename_i hnone
    cases h
    exact ⟨hnone, rfl⟩
  · cases h

theorem exec_unlock {r : Unit} (h : exec s t (.unlock ref) env = some (r, s')) :
    s' = s.modify ref fun g => { g with owner := none } := by
  simp only [exec] at h
  split at h
  · cases h
  · cases h
    rfl

@[simp] theorem Store.modify_sfid_self (s : Store) (ref : Nat) (g : SFid → SFid) :
    (s.modify ref g).sfid ref = g (s.sfid ref) :=
  Function.update_self ..

theorem Store.modify_sfid_of_ne (s : Store) {ref' : Nat} (g : SFid → SFid) (h : ref' ≠ ref) :
    (s.modify ref g).sfid ref' = s.sfid ref' :=
  Function.update_of_ne h ..

/-- A field that the assignment does not touch. -/
theorem Store.modify_field {α : Type} (s : Store) (p : SFid → α) (ref : Nat)
    (hg : ∀ x, p (g x) = p x) (ref' : Nat) : p ((s.modify ref g).sfid ref') = p (s.sfid ref') :=
  update_congr p (hg _) ref'

@[simp] theorem Store.bindNew_sfid_next (s : Store) (t : Nat) (fid : Fid) :
    (s.bindNew t fid).sfid s.next = ⟨some t, none, none, 0⟩ :=
  Function.update_self ..

theorem Store.bindNew_sfid_of_ne (s : Store) (t : Nat) (fid : Fid) (h : ref ≠ s.next) :
    (s.bindNew t fid).sfid ref = s.sfid ref :=
  Function.update_of_ne h ..

/-! ## Locks -/

/-- What thread `t` knows of `ref` is so. -/
def Slot.Holds (s : Store) (t ref : Nat) : Slot → Prop
  | .free => True
  | .live e => ref < s.next ∧ (s.sfid ref).owner = some t ∧ (s.sfid ref).ent = e
  | .stale => ref < s.next ∧ (s.sfid ref).owner = some t ∧ ∃ d, (s.sfid ref).ent = some d

structure Locks (s : Store) (f : Nat → Ghost) : Prop where
  slots : ∀ t ref, ((f t).held ref).Holds s t ref
  known : ∀ t ref, (f t).known = some ref → ref < s.next

theorem Slot.Holds.owner {slot : Slot} (h : slot.Holds s t ref) (hs : slot ≠ .free) :
    ref < s.next ∧ (s.sfid ref).owner = some t := by
  cases slot with
  | free => exact absurd rfl hs
  | live e => exact ⟨h.1, h.2.1⟩
  | stale => exact ⟨h.1, h.2.1⟩

theorem Slot.Holds.frame {slot : Slot} (h : slot.Holds s t ref)
    (howner : (s'.sfid ref).owner = (s.sfid ref).owner)
    (hent : (s'.sfid ref).ent = (s.sfid ref).ent) (hnext : s.next ≤ s'.next) :
    slot.Holds s' t ref := by
  cases slot with
  | free => trivial
  | live e => exact ⟨Nat.lt_of_lt_of_le h.1 hnext, howner.trans h.2.1, hent.trans h.2.2⟩
  | stale =>
      obtain ⟨hlt, ho, d, hd⟩ := h
      exact ⟨Nat.lt_of_lt_of_le hlt hnext, howner.trans ho, d, hent.trans hd⟩

namespace Locks

theorem idle (s : Store) : Locks s fun _ => Ghost.idle := ⟨fun _ _ => trivial, nofun⟩

theorem live (L : Locks s f) {e : Option Nat} (h : (f t).held ref = .live e) :
    ref < s.next ∧ (s.sfid ref).owner = some t ∧ (s.sfid ref).ent = e := by
  have := L.slots t ref
  rwa [h] at this

theorem owner (L : Locks s f) (h : (f t).held ref ≠ .free) :
    ref < s.next ∧ (s.sfid ref).owner = some t :=
  (L.slots t ref).owner h

theorem free_of_owner (L : Locks s f) (h : (s.sfid ref).owner ≠ some t) :
    (f t).held ref = .free := by
  by_contra hs
  exact h (L.owner hs).2

theorem free_of_next_le (L : Locks s f) (h : s.next ≤ ref) : (f t).held ref = .free := by
  by_contra hs
  exact absurd (L.owner hs).1 (by omega)

/-- No two threads hold a mutex. -/
theorem others_free (L : Locks s f) {t' : Nat} (h : (f t).held ref ≠ .free) (hne : t' ≠ t) :
    (f t').held ref = .free := by
  refine L.free_of_owner ?_
  rw [(L.owner h).2]
  exact fun heq => hne (Option.some.inj heq).symm

theorem known_update (L : Locks s f) (hnext : s.next ≤ s'.next)
    (hk : ∀ ref, o.known = some ref → ref < s'.next) (t' ref : Nat)
    (h : (Function.update f t o t').known = some ref) : ref < s'.next := by
  by_cases heq : t' = t
  · subst heq
    rw [Function.update_self] at h
    exact hk ref h
  · rw [Function.update_of_ne heq] at h
    exact Nat.lt_of_lt_of_le (L.known t' ref h) hnext

/-- A step that changes no `Ent`, no mutex and no knowledge of them. -/
theorem frame (L : Locks s f) (howner : ∀ ref, (s'.sfid ref).owner = (s.sfid ref).owner)
    (hent : ∀ ref, (s'.sfid ref).ent = (s.sfid ref).ent) (hnext : s.next ≤ s'.next)
    (ho : o.held = (f t).held) (hk : ∀ ref, o.known = some ref → ref < s'.next) :
    Locks s' (Function.update f t o) := by
  refine ⟨?_, L.known_update hnext hk⟩
  intro t' ref
  rw [update_congr Ghost.held ho]
  exact (L.slots t' ref).frame (howner ref) (hent ref) hnext

/-- A step that concerns the one `SFid` `ref`, which no other thread holds. -/
theorem change (L : Locks s f) (slot : Slot)
    (hrest : ∀ ref', ref' ≠ ref → s'.sfid ref' = s.sfid ref') (hnext : s.next ≤ s'.next)
    (hothers : ∀ t', t' ≠ t → (f t').held ref = .free)
    (ho : o.held = Function.update (f t).held ref slot) (hk : o.known = (f t).known)
    (hslot : slot.Holds s' t ref) : Locks s' (Function.update f t o) := by
  refine ⟨?_, L.known_update hnext fun x hx => Nat.lt_of_lt_of_le (L.known t x (hk ▸ hx)) hnext⟩
  intro t' ref'
  by_cases ht : t' = t
  · subst ht
    rw [Function.update_self, ho]
    by_cases href : ref' = ref
    · subst href
      rwa [Function.update_self]
    · rw [Function.update_of_ne href]
      exact (L.slots t' ref').frame (by rw [hrest ref' href]) (by rw [hrest ref' href]) hnext
  · rw [Function.update_of_ne ht]
    by_cases href : ref' = ref
    · subst href
      rw [hothers t' ht]
      trivial
    · exact (L.slots t' ref').frame (by rw [hrest ref' href]) (by rw [hrest ref' href]) hnext

/-- The thread changes an `SFid` it holds. -/
theorem modify (L : Locks s f) (slot : Slot) (h : (f t).held ref ≠ .free)
    (ho : o.held = Function.update (f t).held ref slot) (hk : o.known = (f t).known)
    (hslot : slot.Holds (s.modify ref g) t ref) : Locks (s.modify ref g) (Function.update f t o) :=
  L.change slot (fun _ hne => s.modify_sfid_of_ne g hne) (Nat.le_refl _)
    (fun _ hne => L.others_free h hne) ho hk hslot

/-- A field that is neither the mutex nor `Ent`. -/
theorem modify_other (L : Locks s f) (howner : ∀ x, (g x).owner = x.owner)
    (hent : ∀ x, (g x).ent = x.ent) (ho : o.held = (f t).held) (hk : o.known = (f t).known) :
    Locks (s.modify ref g) (Function.update f t o) :=
  L.frame (s.modify_field SFid.owner ref howner) (s.modify_field SFid.ent ref hent)
    (Nat.le_refl _) ho
    fun x hx => L.known t x (hk ▸ hx)

/-- A command that leaves the table alone. -/
theorem unchanged (L : Locks s f) (htable : s'.toTable = s.toTable) (ho : o.held = (f t).held)
    (hk : o.known = (f t).known) : Locks s' (Function.update f t o) := by
  refine L.frame ?_ ?_ ?_ ho ?_
  · intro ref
    rw [htable]
  · intro ref
    rw [htable]
  · exact Nat.le_of_eq (by rw [htable])
  · intro x hx
    rw [htable]
    exact L.known t x (hk ▸ hx)

theorem start (L : Locks s f) (op : Op) (ht : f t = Ghost.idle) :
    Locks (start s t op) (Function.update f t (Ghost.begin op)) := by
  refine L.unchanged rfl ?_ ?_
  · rw [ht]
    rfl
  · rw [ht]
    rfl

/-- A release turns the knowledge of `Ent` stale. -/
theorem enter (L : Locks s f) {c : Call} (hc : (f t).MayCall c) :
    Locks (s.record (.enter t c)) (Function.update f t ((f t).enter c)) := by
  refine ⟨?_, L.known_update (Nat.le_refl _) (L.known t)⟩
  intro t' ref
  have hslot : ((f t').held ref).Holds (s.record (.enter t c)) t' ref :=
    (L.slots t' ref).frame rfl rfl (Nat.le_refl _)
  by_cases ht : t' = t
  · subst ht
    rw [Function.update_self]
    simp only [Ghost.enter]
    split
    · rename_i hrel
      obtain ⟨ref', hlast, hheld⟩ := hc.release hrel.1
      obtain ⟨d, hd⟩ := Call.dirent_of_releases hrel.1
      cases hlast.symm.trans hrel.2
      rw [hheld, hd] at hslot
      exact ⟨hslot.1, hslot.2.1, d, hslot.2.2⟩
    · exact hslot
  · rwa [Function.update_of_ne ht]

theorem step (L : Locks s f) {c : Cmd} {r : c.Res} (hpre : (f t).pre c)
    (h : exec s t c env = some (r, s')) :
    ∃ o, (f t).post c r o ∧ Locks s' (Function.update f t o) := by
  cases c with
  | load fid =>
      cases h
      exact ⟨_, rfl, L.frame (fun _ => rfl) (fun _ => rfl) (Nat.le_refl _) rfl fun _ hx =>
        s.bound hx⟩
  | storeNew fid =>
      rcases exec_storeNew h with ⟨rfl, rfl⟩ | ⟨-, rfl, rfl⟩
      · exact ⟨_, rfl, L.unchanged rfl rfl rfl⟩
      · refine ⟨_, ⟨L.free_of_next_le (Nat.le_refl _), rfl⟩, ?_⟩
        exact L.change (.live none) (fun _ hne => s.bindNew_sfid_of_ne t fid hne) (Nat.le_succ _)
          (fun _ _ => L.free_of_next_le (Nat.le_refl _)) rfl rfl
          ⟨Nat.lt_succ_self _, congrArg SFid.owner (s.bindNew_sfid_next t fid),
            congrArg SFid.ent (s.bindNew_sfid_next t fid)⟩
  | loadAndDelete fid =>
      rcases exec_loadAndDelete h with ⟨rfl, rfl⟩ | ⟨ref, href, rfl, rfl⟩
      · refine ⟨_, rfl, L.frame (fun _ => rfl) (fun _ => rfl) (Nat.le_refl _) rfl ?_⟩
        rintro _ ⟨⟩
      · refine ⟨_, rfl, L.frame (fun _ => rfl) (fun _ => rfl) (Nat.le_refl _) rfl ?_⟩
        rintro _ ⟨⟩
        exact s.bound href
  | delete fid =>
      cases h
      exact ⟨_, rfl, L.frame (fun _ => rfl) (fun _ => rfl) (Nat.le_refl _) rfl (L.known t)⟩
  | lock ref =>
      obtain ⟨hnone, rfl⟩ := exec_lock h
      have hfree : ∀ t', (f t').held ref = .free := by
        intro t'
        refine L.free_of_owner ?_
        rw [hnone]
        rintro ⟨⟩
      refine ⟨_, ⟨hfree t, (s.sfid ref).ent, rfl⟩, ?_⟩
      refine L.change (.live _) (fun _ hne => s.modify_sfid_of_ne _ hne) (Nat.le_refl _)
        (fun t' _ => hfree t') rfl rfl ⟨L.known t ref hpre.2.1, ?_, ?_⟩
      · rw [Store.modify_sfid_self]
      · rw [Store.modify_sfid_self]
  | unlock ref =>
      obtain ⟨-, e, he⟩ := hpre
      obtain rfl := exec_unlock h
      exact ⟨_, rfl, L.modify .free (by rw [he]; rintro ⟨⟩) rfl rfl trivial⟩
  | getEnt ref =>
      cases h
      obtain ⟨-, e, he⟩ := hpre
      exact ⟨_, ⟨he.trans (congrArg _ (L.live he).2.2.symm), rfl⟩, L.unchanged rfl rfl rfl⟩
  | setEnt ref e =>
      cases h
      obtain ⟨-, hheld, -⟩ := hpre
      obtain ⟨hlt, howner⟩ := L.owner hheld
      cases e with
      | none =>
          refine ⟨_, rfl, L.modify (.live none) hheld rfl rfl ⟨hlt, ?_, ?_⟩⟩
          · rw [Store.modify_sfid_self, howner]
          · rw [Store.modify_sfid_self]
      | some d =>
          refine ⟨_, rfl, L.modify (.live (some d)) hheld rfl rfl ⟨hlt, ?_, ?_⟩⟩
          · rw [Store.modify_sfid_self, howner]
          · rw [Store.modify_sfid_self]
  | getFile ref =>
      cases h
      exact ⟨_, rfl, L.unchanged rfl rfl rfl⟩
  | setFile ref file =>
      cases h
      exact ⟨_, rfl, L.modify_other (fun _ => rfl) (fun _ => rfl) rfl rfl⟩
  | getMode ref =>
      cases h
      exact ⟨_, rfl, L.unchanged rfl rfl rfl⟩
  | setMode ref mode =>
      cases h
      exact ⟨_, rfl, L.modify_other (fun _ => rfl) (fun _ => rfl) rfl rfl⟩
  | enter c =>
      cases h
      exact ⟨_, rfl, L.enter hpre.2⟩
  | leave c =>
      cases h
      exact ⟨_, rfl, L.unchanged rfl rfl rfl⟩

end Locks

/-! ## Records -/

structure Records (s : Store) (f : Nat → Ghost) : Prop where
  op : ∀ t op, (f t).op = some op ↔ .invoked t op ∈ s.log
  mine : ∀ t fid ref, (f t).mine = some (fid, ref) →
    (f t).held ref = .live none ∧ .stored t fid ref ∈ s.log
  stored_lt : ∀ t fid ref, .stored t fid ref ∈ s.log → ref < s.next
  stored_by : ∀ t fid ref, .stored t fid ref ∈ s.log → (f t).op ≠ none ∧ fid ≠ noFid
  stored_inj : ∀ t t' fid fid' ref, .stored t fid ref ∈ s.log → .stored t' fid' ref ∈ s.log →
    t = t' ∧ fid = fid'
  failed : ∀ t, (f t).failed → (∃ op, (f t).op = some op ∧ op.isCreate) ∧
    ∃ c r, .leave t c r ∈ s.log ∧ c.openFails r

/-- Neither the start of an operation nor a new `SFid`. -/
def Event.isUpkeep : Event → Bool
  | invoked _ _ | stored _ _ _ => false
  | _ => true

namespace Records

theorem init (s : Store) (hlog : s.log = []) : Records s fun _ => Ghost.idle := by
  have hnil : ∀ ev, ev ∉ s.log := by
    intro ev
    rw [hlog]
    exact List.not_mem_nil
  exact ⟨fun t op => ⟨nofun, fun h => absurd h (hnil _)⟩, nofun, fun _ _ _ h => absurd h (hnil _),
    fun _ _ _ h => absurd h (hnil _), fun _ _ _ _ _ h => absurd h (hnil _), nofun⟩

/-- A step that starts nothing and stores nothing. -/
theorem frame (R : Records s f) (es : List Event) (hlog : s'.log = s.log ++ es)
    (hes : ∀ ev ∈ es, ev.isUpkeep) (hnext : s'.next = s.next) (hop : o.op = (f t).op)
    (hmine : ∀ fid ref, o.mine = some (fid, ref) →
      (f t).mine = some (fid, ref) ∧ o.held ref = (f t).held ref)
    (hfailed : o.failed → (f t).failed ∨ (∃ op, (f t).op = some op ∧ op.isCreate) ∧
      ∃ c r, .leave t c r ∈ es ∧ c.openFails r) : Records s' (Function.update f t o) := by
  have hold : ∀ {ev}, ev ∈ s.log → ev ∈ s'.log := by
    intro ev hev
    rw [hlog]
    exact List.mem_append_left _ hev
  have hnew : ∀ {ev : Event}, ev ∈ s'.log → ev.isUpkeep = false → ev ∈ s.log := by
    intro ev hev hu
    rw [hlog, List.mem_append] at hev
    rcases hev with hev | hev
    · exact hev
    · rw [hes ev hev] at hu
      cases hu
  have hop' : ∀ t', (Function.update f t o t').op = (f t').op := update_congr Ghost.op hop
  refine ⟨?_, ?_, ?_, ?_, ?_, ?_⟩
  · intro t' op
    rw [hop', R.op t' op]
    exact ⟨hold, fun h => hnew h rfl⟩
  · intro t' fid ref hm
    by_cases ht : t' = t
    · subst ht
      rw [Function.update_self] at hm ⊢
      obtain ⟨hm, hheld⟩ := hmine fid ref hm
      obtain ⟨hlive, hstored⟩ := R.mine t' fid ref hm
      exact ⟨hheld.trans hlive, hold hstored⟩
    · rw [Function.update_of_ne ht] at hm ⊢
      obtain ⟨hlive, hstored⟩ := R.mine t' fid ref hm
      exact ⟨hlive, hold hstored⟩
  · intro t' fid ref h
    rw [hnext]
    exact R.stored_lt t' fid ref (hnew h rfl)
  · intro t' fid ref h
    rw [hop']
    exact R.stored_by t' fid ref (hnew h rfl)
  · intro t₁ t₂ fid₁ fid₂ ref h₁ h₂
    exact R.stored_inj t₁ t₂ fid₁ fid₂ ref (hnew h₁ rfl) (hnew h₂ rfl)
  · intro t' hf
    by_cases ht : t' = t
    · subst ht
      rw [Function.update_self] at hf ⊢
      rw [hop]
      rcases hfailed hf with hf | ⟨hc, c, r, hm, ho⟩
      · obtain ⟨hc, c, r, hm, ho⟩ := R.failed t' hf
        exact ⟨hc, c, r, hold hm, ho⟩
      · refine ⟨hc, c, r, ?_, ho⟩
        rw [hlog]
        exact List.mem_append_right _ hm
    · rw [Function.update_of_ne ht] at hf ⊢
      obtain ⟨hc, c, r, hm, ho⟩ := R.failed t' hf
      exact ⟨hc, c, r, hold hm, ho⟩

/-- A step that is not logged and keeps the placeholder. -/
theorem quiet (R : Records s f) (hlog : s'.log = s.log) (hnext : s'.next = s.next)
    (hop : o.op = (f t).op) (hmine : o.mine = (f t).mine) (hheld : o.held = (f t).held)
    (hfailed : o.failed = (f t).failed) : Records s' (Function.update f t o) :=
  R.frame [] (hlog.trans (List.append_nil _).symm) (List.forall_mem_nil _) hnext hop
    (fun _ _ h => ⟨hmine ▸ h, by rw [hheld]⟩) fun h => Or.inl (hfailed ▸ h)

theorem start (R : Records s f) (op : Op) (ht : f t = Ghost.idle) :
    Records (start s t op) (Function.update f t (Ghost.begin op)) := by
  have hmem : ∀ {ev}, ev ∈ (Session.start s t op).log ↔ ev ∈ s.log ∨ ev = .invoked t op := by
    intro ev
    exact List.mem_append.trans (or_congr Iff.rfl List.mem_singleton)
  have hstored : ∀ {t' fid ref}, .stored t' fid ref ∈ (Session.start s t op).log →
      .stored t' fid ref ∈ s.log := by
    intro t' fid ref h
    rcases hmem.mp h with h | h
    · exact h
    · cases h
  refine ⟨?_, ?_, ?_, ?_, ?_, ?_⟩
  · intro t' op'
    rw [hmem]
    by_cases heq : t' = t
    · subst heq
      rw [Function.update_self]
      constructor
      · intro h
        cases h
        exact Or.inr rfl
      · rintro (h | h)
        · rw [← R.op, ht] at h
          cases h
        · cases h
          rfl
    · rw [Function.update_of_ne heq, R.op]
      constructor
      · exact Or.inl
      · rintro (h | h)
        · exact h
        · cases h
          exact absurd rfl heq
  · intro t' fid ref hm
    by_cases heq : t' = t
    · subst heq
      rw [Function.update_self] at hm
      cases hm
    · rw [Function.update_of_ne heq] at hm ⊢
      obtain ⟨hlive, hm⟩ := R.mine t' fid ref hm
      exact ⟨hlive, hmem.mpr (Or.inl hm)⟩
  · intro t' fid ref h
    exact R.stored_lt t' fid ref (hstored h)
  · intro t' fid ref h
    by_cases heq : t' = t
    · subst heq
      rw [Function.update_self]
      exact ⟨nofun, (R.stored_by t' fid ref (hstored h)).2⟩
    · rw [Function.update_of_ne heq]
      exact R.stored_by t' fid ref (hstored h)
  · intro t₁ t₂ fid₁ fid₂ ref h₁ h₂
    exact R.stored_inj t₁ t₂ fid₁ fid₂ ref (hstored h₁) (hstored h₂)
  · intro t' hf
    by_cases heq : t' = t
    · subst heq
      rw [Function.update_self] at hf
      cases hf
    · rw [Function.update_of_ne heq] at hf ⊢
      obtain ⟨hc, c, r, hm, ho⟩ := R.failed t' hf
      exact ⟨hc, c, r, hmem.mpr (Or.inl hm), ho⟩

/-- `LoadOrStore` stores a new `SFid`, which was never stored before. -/
theorem store (R : Records s f) (hop : (f t).op ≠ none ∧ fid ≠ noFid) :
    Records ((s.bindNew t fid).record (.stored t fid s.next))
      (Function.update f t ((f t).reserve fid s.next)) := by
  have hmem : ∀ {ev}, ev ∈ ((s.bindNew t fid).record (.stored t fid s.next)).log ↔
      ev ∈ s.log ∨ ev = .stored t fid s.next := by
    intro ev
    exact List.mem_append.trans (or_congr Iff.rfl List.mem_singleton)
  have hop' : ∀ t', (Function.update f t ((f t).reserve fid s.next) t').op = (f t').op :=
    update_congr Ghost.op rfl
  refine ⟨?_, ?_, ?_, ?_, ?_, ?_⟩
  · intro t' op
    rw [hop', R.op, hmem]
    exact ⟨Or.inl, fun h => h.resolve_right nofun⟩
  · intro t' fid' ref hm
    by_cases heq : t' = t
    · subst heq
      rw [Function.update_self] at hm ⊢
      cases hm
      exact ⟨Function.update_self .., hmem.mpr (Or.inr rfl)⟩
    · rw [Function.update_of_ne heq] at hm ⊢
      obtain ⟨hlive, hm⟩ := R.mine t' fid' ref hm
      exact ⟨hlive, hmem.mpr (Or.inl hm)⟩
  · intro t' fid' ref h
    rcases hmem.mp h with h | h
    · exact Nat.lt_succ_of_lt (R.stored_lt t' fid' ref h)
    · cases h
      exact Nat.lt_succ_self _
  · intro t' fid' ref h
    rw [hop']
    rcases hmem.mp h with h | h
    · exact R.stored_by t' fid' ref h
    · cases h
      exact hop
  · intro t₁ t₂ fid₁ fid₂ ref h₁ h₂
    rcases hmem.mp h₁ with h₁ | h₁ <;> rcases hmem.mp h₂ with h₂ | h₂
    · exact R.stored_inj t₁ t₂ fid₁ fid₂ ref h₁ h₂
    · cases h₂
      exact absurd (R.stored_lt _ _ _ h₁) (Nat.lt_irrefl _)
    · cases h₁
      exact absurd (R.stored_lt _ _ _ h₂) (Nat.lt_irrefl _)
    · cases h₁
      cases h₂
      exact ⟨rfl, rfl⟩
  · intro t' hf
    have hf' : (f t').failed := by
      by_cases heq : t' = t
      · subst heq
        rwa [Function.update_self] at hf
      · rwa [Function.update_of_ne heq] at hf
    rw [hop']
    obtain ⟨hc, c, r, hm, ho⟩ := R.failed t' hf'
    exact ⟨hc, c, r, hmem.mpr (Or.inl hm), ho⟩

/-- An assignment to `ref`: the placeholder is what it was, unless it is `ref`
itself, which has been settled. -/
theorem settle (R : Records s f) (hlog : s'.log = s.log) (hnext : s'.next = s.next) {slot : Slot}
    (hop : o.op = (f t).op) (hmine : o.mine = (f t).mine.filter fun p => p.2 ≠ ref)
    (hheld : o.held = Function.update (f t).held ref slot) (hfailed : o.failed = (f t).failed) :
    Records s' (Function.update f t o) := by
  refine R.frame [] (hlog.trans (List.append_nil _).symm) (List.forall_mem_nil _) hnext hop ?_
    fun h => Or.inl (hfailed ▸ h)
  intro fid ref' hm
  rw [hmine] at hm
  obtain ⟨hm, hne⟩ := Option.filter_eq_some_iff.mp hm
  refine ⟨hm, ?_⟩
  rw [hheld]
  exact Function.update_of_ne (of_decide_eq_true hne) ..

theorem step (R : Records s f) {c : Cmd} {r : c.Res} (hpre : (f t).pre c)
    (h : exec s t c env = some (r, s')) (hpost : (f t).post c r o) :
    Records s' (Function.update f t o) := by
  cases c with
  | load fid =>
      cases h
      cases hpost
      exact R.quiet rfl rfl rfl rfl rfl rfl
  | storeNew fid =>
      rcases exec_storeNew h with ⟨rfl, rfl⟩ | ⟨-, rfl, rfl⟩
      · cases hpost
        exact R.quiet rfl rfl rfl rfl rfl rfl
      · obtain ⟨-, rfl⟩ := hpost
        exact R.store hpre.2.2
  | loadAndDelete fid =>
      rcases exec_loadAndDelete h with ⟨rfl, rfl⟩ | ⟨ref, -, rfl, rfl⟩
      · cases hpost
        exact R.quiet rfl rfl rfl rfl rfl rfl
      · cases hpost
        exact R.frame [.took t fid ref] rfl (List.forall_mem_singleton.mpr rfl) rfl rfl
          (fun _ _ h => ⟨h, rfl⟩) Or.inl
  | delete fid =>
      cases h
      cases hpost
      exact R.frame [.deleted t fid (s.refs fid)] rfl (List.forall_mem_singleton.mpr rfl) rfl
        rfl nofun Or.inl
  | lock ref =>
      obtain ⟨-, rfl⟩ := exec_lock h
      obtain ⟨hfree, e, rfl⟩ := hpost
      refine R.frame [] (List.append_nil _).symm (List.forall_mem_nil _) rfl rfl ?_ Or.inl
      intro fid ref' hm
      have hne : ref' ≠ ref := by
        rintro rfl
        cases hfree.symm.trans (R.mine t fid ref' hm).1
      exact ⟨hm, Function.update_of_ne hne ..⟩
  | unlock ref =>
      obtain rfl := exec_unlock h
      cases hpost
      exact R.settle rfl rfl rfl rfl rfl rfl
  | getEnt ref =>
      cases h
      obtain ⟨-, rfl⟩ := hpost
      exact R.quiet rfl rfl rfl rfl rfl rfl
  | setEnt ref e =>
      cases h
      cases e with
      | none =>
          cases hpost
          refine R.frame [] (List.append_nil _).symm (List.forall_mem_nil _) rfl rfl ?_ Or.inl
          intro fid ref' hm
          refine ⟨hm, ?_⟩
          by_cases href : ref' = ref
          · subst href
            exact (Function.update_self ..).trans (R.mine t fid ref' hm).1.symm
          · exact Function.update_of_ne href ..
      | some d =>
          cases hpost
          exact R.settle rfl rfl rfl rfl rfl rfl
  | getFile ref =>
      cases h
      cases hpost
      exact R.quiet rfl rfl rfl rfl rfl rfl
  | setFile ref file =>
      cases h
      cases hpost
      exact R.quiet rfl rfl rfl rfl rfl rfl
  | getMode ref =>
      cases h
      cases hpost
      exact R.quiet rfl rfl rfl rfl rfl rfl
  | setMode ref mode =>
      cases h
      cases hpost
      exact R.quiet rfl rfl rfl rfl rfl rfl
  | enter c =>
      cases h
      cases hpost
      refine R.frame [.enter t c] rfl (List.forall_mem_singleton.mpr rfl) rfl rfl ?_ Or.inl
      intro fid ref hm
      refine ⟨hm, if_neg ?_⟩
      -- the placeholder is not linked, so it is not what the call releases
      rintro ⟨hrel, hlast⟩
      obtain ⟨ref', hlast', hheld⟩ := hpre.2.release hrel
      cases hlast'.symm.trans hlast
      obtain ⟨d, hd⟩ := Call.dirent_of_releases hrel
      rw [(R.mine t fid ref hm).1, hd] at hheld
      cases hheld
  | leave c =>
      cases h
      cases hpost
      refine R.frame [.leave t c _] rfl (List.forall_mem_singleton.mpr rfl) rfl rfl
        (fun _ _ h => ⟨h, rfl⟩) ?_
      intro hf
      rcases Bool.or_eq_true _ _ ▸ hf with hf | hf
      · exact Or.inl hf
      · obtain ⟨hop, ho⟩ := Bool.and_eq_true _ _ ▸ hf
        obtain ⟨op, hop, hc⟩ := (Option.any_eq_true _ _).mp hop
        exact Or.inr ⟨⟨op, hop, hc⟩, c, _, List.mem_singleton.mpr rfl, ho⟩

end Records

end P9p.Session
