/-
# Which operation may remove a fid

An `Auth`, `Attach` or `Walk` that fails takes back the placeholder it has
inserted, by `Delete` under its fid; a `Clunk` or `Remove` takes a fid out by
`LoadAndDelete`.  One would have

    a Delete removes nothing but the operation's own placeholder;
    what is stored under a fid stays there until the operation that stored it
    deletes it, or a Clunk or Remove of that fid takes it out;
    so a linked SFid is reachable through refs, or was taken out.

**It is not so.**  `Delete` goes by the fid and not by the `SFid`.  If a
`Clunk` has taken the placeholder out and a third operation has bound the fid
again, then the `Delete` of the first removes that binding (`binding_lost`).
`Create` also takes out its parent's fid, when it cannot open the directory it
has made.

**When it is.**  `bindings_kept`: in every run in which

    no fid is bound again while the operation that stored a placeholder under
    it still has that placeholder locked, and
    no Create fails to open the directory it has made.
-/
import P9p.Session.Locks
import P9p.Session.Operations

namespace P9p.Session

open Conc

variable {fid : Fid} {ref : Nat}

/-! ## The property -/

/-- A `Clunk` or `Remove` of `fid` has taken out `ref`. -/
def TakenOut (s : Store) (fid : Fid) (ref : Nat) : Prop :=
  ∃ t op, .took t fid ref ∈ s.log ∧ .invoked t op ∈ s.log ∧ (op = .clunk fid ∨ op = .remove fid)

structure BindingsKept (s : Store) : Prop where
  deleted : ∀ t fid ref, .deleted t fid (some ref) ∈ s.log → .stored t fid ref ∈ s.log
  bound : ∀ t fid ref, .stored t fid ref ∈ s.log →
    s.refs fid = some ref ∨ .deleted t fid (some ref) ∈ s.log ∨ TakenOut s fid ref
  linked : ∀ ref d, (s.sfid ref).ent = some d → ∃ fid, s.refs fid = some ref ∨ TakenOut s fid ref

/-- A placeholder stored under `fid` whose mutex is still held by the thread
that stored it. -/
def Event.heldPlaceholder (s : Store) (fid : Fid) : Event → Bool
  | stored t fid' ref => fid' = fid ∧ (s.sfid ref).owner = some t
  | _ => false

def Event.startsCreate (t : Nat) : Event → Bool
  | invoked t' op => t' = t ∧ op.isCreate
  | _ => false

/-- The condition on a command: no fid is bound while another operation has its
placeholder for it, and in a `Create` neither `OpenDir` nor `Open` fails. -/
def Undisturbed (s : Store) (t : Nat) : Cmd → Env → Prop
  | .storeNew fid, _ => s.refs fid = none → ∀ ev ∈ s.log, ev.heldPlaceholder s fid = false
  | .leave c, env => (∃ ev ∈ s.log, ev.startsCreate t) →
      c.openFails (c.answer s.calls (env c)) = false
  | _, _ => True

/-- The condition on a thread that takes a step, and on a step of the session. -/
def UndisturbedThread (s : Store) (t : Nat) (env : Env) : Option (M Ret) → Prop
  | some (.cmd c _) => Undisturbed s t c env
  | _ => True

def UndisturbedStep (s : State) : Sched Op Env → Prop
  | .invoke _ => True
  | .run t env => UndisturbedThread s.store t env s.threads[t]?

instance (s : Store) (t : Nat) (c : Cmd) (env : Env) : Decidable (Undisturbed s t c env) :=
  match c with
  | .storeNew fid =>
      inferInstanceAs (Decidable (s.refs fid = none →
        ∀ ev ∈ s.log, ev.heldPlaceholder s fid = false))
  | .leave c =>
      inferInstanceAs (Decidable ((∃ ev ∈ s.log, ev.startsCreate t) →
        c.openFails (c.answer s.calls (env c)) = false))
  | .load _ | .loadAndDelete _ | .delete _ | .lock _ | .unlock _ | .getEnt _ | .setEnt _ _
  | .getFile _ | .setFile _ _ | .getMode _ | .setMode _ _ | .enter _ => isTrue trivial

instance (s : Store) (t : Nat) (env : Env) (p : Option (M Ret)) :
    Decidable (UndisturbedThread s t env p) :=
  match p with
  | some (.cmd c _) => inferInstanceAs (Decidable (Undisturbed s t c env))
  | some (.ret _) | some .crash | none => isTrue trivial

instance (s : State) (a : Sched Op Env) : Decidable (UndisturbedStep s a) :=
  match a with
  | .invoke _ => isTrue trivial
  | .run t env => inferInstanceAs (Decidable (UndisturbedThread s.store t env s.threads[t]?))

variable {s s' : Store} {f : Nat → Ghost} {t : Nat} {o : Ghost}

theorem TakenOut.mono (h : TakenOut s fid ref) (hlog : s.log ⊆ s'.log) : TakenOut s' fid ref := by
  obtain ⟨t, op, htook, hinv, hop⟩ := h
  exact ⟨t, op, hlog htook, hlog hinv, hop⟩

/-- A file system that refuses every walk. -/
def refusing : Env
  | .walk _ _ => ([], false, some .unknownfid)
  | c => agreeable c

/-! ## The invariant -/

structure Bindings (s : Store) (f : Nat → Ghost) : Prop where
  mine : ∀ t fid ref, (f t).mine = some (fid, ref) →
    s.refs fid = some ref ∨ s.refs fid = none ∧ TakenOut s fid ref
  sane : ∀ t, (f t).failed = false
  kept : BindingsKept s

/-- An event that is about no binding. -/
def Event.isCall : Event → Bool
  | enter _ _ | leave _ _ _ | invoked _ _ => true
  | _ => false

namespace Bindings

theorem init : Bindings init fun _ => Ghost.idle := by
  refine ⟨nofun, fun _ => rfl, ?_, ?_, nofun⟩
  · exact fun _ _ _ h => absurd h List.not_mem_nil
  · exact fun _ _ _ h => absurd h List.not_mem_nil

theorem sane_update (B : Bindings s f) (hfailed : o.failed = false) (t' : Nat) :
    (Function.update f t o t').failed = false := by
  by_cases ht : t' = t
  · subst ht
    rwa [Function.update_self]
  · rw [Function.update_of_ne ht]
    exact B.sane t'

theorem mine_of_update (hmine : ∀ p, o.mine = some p → (f t).mine = some p) {t' : Nat}
    (h : (Function.update f t o t').mine = some (fid, ref)) : (f t').mine = some (fid, ref) := by
  by_cases ht : t' = t
  · subst ht
    rw [Function.update_self] at h
    exact hmine _ h
  · rwa [Function.update_of_ne ht] at h

/-- A step that changes no binding, and links only what was linked or is the
thread's placeholder. -/
theorem frame (B : Bindings s f) (es : List Event) (hlog : s'.log = s.log ++ es)
    (hes : ∀ ev ∈ es, ev.isCall) (hrefs : s'.refs = s.refs)
    (hent : ∀ ref d, (s'.sfid ref).ent = some d →
      (∃ d', (s.sfid ref).ent = some d') ∨ ∃ fid, (f t).mine = some (fid, ref))
    (hmine : ∀ p, o.mine = some p → (f t).mine = some p) (hfailed : o.failed = false) :
    Bindings s' (Function.update f t o) := by
  have hsub : s.log ⊆ s'.log := by
    rw [hlog]
    exact List.subset_append_left ..
  have hnew : ∀ {ev : Event}, ev ∈ s'.log → ev.isCall = false → ev ∈ s.log := by
    intro ev hev hc
    rw [hlog, List.mem_append] at hev
    rcases hev with hev | hev
    · exact hev
    · rw [hes ev hev] at hc
      cases hc
  refine ⟨?_, B.sane_update hfailed, ?_, ?_, ?_⟩
  · intro t' fid ref hm
    rw [hrefs]
    rcases B.mine t' fid ref (mine_of_update hmine hm) with h | ⟨h, htook⟩
    · exact Or.inl h
    · exact Or.inr ⟨h, htook.mono hsub⟩
  · intro t' fid ref h
    exact hsub (B.kept.deleted t' fid ref (hnew h rfl))
  · intro t' fid ref h
    rw [hrefs]
    rcases B.kept.bound t' fid ref (hnew h rfl) with h | h | h
    · exact Or.inl h
    · exact Or.inr (Or.inl (hsub h))
    · exact Or.inr (Or.inr (h.mono hsub))
  · intro ref d hd
    rw [hrefs]
    rcases hent ref d hd with ⟨d', hd'⟩ | ⟨fid, hm⟩
    · obtain ⟨fid, h | h⟩ := B.kept.linked ref d' hd'
      · exact ⟨fid, Or.inl h⟩
      · exact ⟨fid, Or.inr (h.mono hsub)⟩
    · rcases B.mine t fid ref hm with h | ⟨-, h⟩
      · exact ⟨fid, Or.inl h⟩
      · exact ⟨fid, Or.inr (h.mono hsub)⟩

/-- A step that is not logged and links nothing. -/
theorem quiet (B : Bindings s f) (hlog : s'.log = s.log) (hrefs : s'.refs = s.refs)
    (hent : ∀ ref, (s'.sfid ref).ent = (s.sfid ref).ent)
    (hmine : ∀ p, o.mine = some p → (f t).mine = some p) (hfailed : o.failed = (f t).failed) :
    Bindings s' (Function.update f t o) :=
  B.frame [] (hlog.trans (List.append_nil _).symm) (List.forall_mem_nil _) hrefs
    (fun ref d h => Or.inl ⟨d, (hent ref).symm.trans h⟩) hmine (hfailed.trans (B.sane t))

/-- `LoadOrStore` stores a placeholder under `fid`. -/
theorem store (B : Bindings s f) (L : Locks s f) (R : Records s f) (hnone : s.refs fid = none)
    (hguard : ∀ t' ref, .stored t' fid ref ∈ s.log → (s.sfid ref).owner ≠ some t') :
    Bindings ((s.bindNew t fid).record (.stored t fid s.next))
      (Function.update f t ((f t).reserve fid s.next)) := by
  have hself : (s.bindNew t fid).refs fid = some s.next := Function.update_self ..
  have hother : ∀ {fid'}, fid' ≠ fid → (s.bindNew t fid).refs fid' = s.refs fid' :=
    fun h => Function.update_of_ne h ..
  have hkeep : ∀ {fid' ref}, s.refs fid' = some ref →
      (s.bindNew t fid).refs fid' = some ref := by
    intro fid' ref h
    rw [hother ?_, h]
    rintro rfl
    cases hnone.symm.trans h
  have hsub : s.log ⊆ ((s.bindNew t fid).record (.stored t fid s.next)).log :=
    List.subset_append_left ..
  refine ⟨?_, B.sane_update (B.sane t), ?_, ?_, ?_⟩
  · intro t' fid' ref hm
    by_cases ht : t' = t
    · subst ht
      rw [Function.update_self] at hm
      cases hm
      exact Or.inl hself
    · rw [Function.update_of_ne ht] at hm
      have hne : fid' ≠ fid := by
        rintro rfl
        obtain ⟨hlive, hstored⟩ := R.mine t' fid' ref hm
        exact hguard t' ref hstored (L.live hlive).2.1
      rcases B.mine t' fid' ref hm with h | ⟨h, htook⟩
      · exact Or.inl (hkeep h)
      · exact Or.inr ⟨(hother hne).trans h, htook.mono hsub⟩
  · intro t' fid' ref h
    rcases List.mem_append.mp h with h | h
    · exact hsub (B.kept.deleted t' fid' ref h)
    · cases List.mem_singleton.mp h
  · intro t' fid' ref h
    rcases List.mem_append.mp h with h | h
    · rcases B.kept.bound t' fid' ref h with h | h | h
      · exact Or.inl (hkeep h)
      · exact Or.inr (Or.inl (hsub h))
      · exact Or.inr (Or.inr (h.mono hsub))
    · cases List.mem_singleton.mp h
      exact Or.inl hself
  · intro ref d hd
    have href : ref ≠ s.next := by
      rintro rfl
      cases (congrArg SFid.ent (s.bindNew_sfid_next t fid)).symm.trans hd
    have hd : (s.sfid ref).ent = some d := by
      rwa [← s.bindNew_sfid_of_ne t fid href]
    obtain ⟨fid', h | h⟩ := B.kept.linked ref d hd
    · exact ⟨fid', Or.inl (hkeep h)⟩
    · exact ⟨fid', Or.inr (h.mono hsub)⟩

/-- A `Clunk` or `Remove` takes out what is bound to its fid. -/
theorem take (B : Bindings s f) (R : Records s f) {op : Op} (hop : (f t).op = some op)
    (hclunk : op = .clunk fid ∨ op = .remove fid) (href : s.refs fid = some ref)
    (hmine : ∀ p, o.mine = some p → (f t).mine = some p) (hfailed : o.failed = (f t).failed) :
    Bindings ((s.unbind fid).record (.took t fid ref)) (Function.update f t o) := by
  have hself : (s.unbind fid).refs fid = none := Function.update_self ..
  have hother : ∀ {fid'}, fid' ≠ fid → (s.unbind fid).refs fid' = s.refs fid' :=
    fun h => Function.update_of_ne h ..
  have hsub : s.log ⊆ ((s.unbind fid).record (.took t fid ref)).log :=
    List.subset_append_left ..
  have htook : TakenOut ((s.unbind fid).record (.took t fid ref)) fid ref :=
    ⟨t, op, List.mem_append_right _ List.mem_cons_self, hsub ((R.op t op).mp hop), hclunk⟩
  -- a binding stays or has just been taken out
  have hkeep : ∀ {fid' ref'}, s.refs fid' = some ref' → (s.unbind fid).refs fid' = some ref' ∨
      fid' = fid ∧ TakenOut ((s.unbind fid).record (.took t fid ref)) fid' ref' := by
    intro fid' ref' h
    by_cases hfid : fid' = fid
    · subst hfid
      cases href.symm.trans h
      exact Or.inr ⟨rfl, htook⟩
    · exact Or.inl ((hother hfid).trans h)
  refine ⟨?_, B.sane_update (hfailed.trans (B.sane t)), ?_, ?_, ?_⟩
  · intro t' fid' ref' hm
    rcases B.mine t' fid' ref' (mine_of_update hmine hm) with h | ⟨h, h'⟩
    · rcases hkeep h with h | ⟨rfl, h⟩
      · exact Or.inl h
      · exact Or.inr ⟨hself, h⟩
    · by_cases hfid : fid' = fid
      · subst hfid
        exact Or.inr ⟨hself, h'.mono hsub⟩
      · exact Or.inr ⟨(hother hfid).trans h, h'.mono hsub⟩
  · intro t' fid' ref' h
    rcases List.mem_append.mp h with h | h
    · exact hsub (B.kept.deleted t' fid' ref' h)
    · cases List.mem_singleton.mp h
  · intro t' fid' ref' h
    rcases List.mem_append.mp h with h | h
    · rcases B.kept.bound t' fid' ref' h with h | h | h
      · rcases hkeep h with h | ⟨-, h⟩
        · exact Or.inl h
        · exact Or.inr (Or.inr h)
      · exact Or.inr (Or.inl (hsub h))
      · exact Or.inr (Or.inr (h.mono hsub))
    · cases List.mem_singleton.mp h
  · intro ref' d hd
    obtain ⟨fid', h | h⟩ := B.kept.linked ref' d hd
    · rcases hkeep h with h | ⟨-, h⟩
      · exact ⟨fid', Or.inl h⟩
      · exact ⟨fid', Or.inr h⟩
    · exact ⟨fid', Or.inr (h.mono hsub)⟩

/-- A failed operation deletes under the fid of its placeholder. -/
theorem delete (B : Bindings s f) (L : Locks s f) (R : Records s f)
    (hm : (f t).mine = some (fid, ref)) :
    Bindings ((s.unbind fid).record (.deleted t fid (s.refs fid)))
      (Function.update f t { f t with mine := none }) := by
  obtain ⟨hlive, hstored⟩ := R.mine t fid ref hm
  have hself : (s.unbind fid).refs fid = none := Function.update_self ..
  have hother : ∀ {fid'}, fid' ≠ fid → (s.unbind fid).refs fid' = s.refs fid' :=
    fun h => Function.update_of_ne h ..
  have hsub : s.log ⊆ ((s.unbind fid).record (.deleted t fid (s.refs fid))).log :=
    List.subset_append_left ..
  -- what the fid is bound to, if anything, is the placeholder
  have hown : ∀ {ref'}, s.refs fid = some ref' → ref' = ref := by
    intro ref' h
    rcases B.mine t fid ref hm with h' | ⟨h', -⟩
    · exact Option.some.inj (h.symm.trans h')
    · cases h.symm.trans h'
  refine ⟨?_, B.sane_update (B.sane t), ?_, ?_, ?_⟩
  · intro t' fid' ref' hm'
    by_cases ht : t' = t
    · subst ht
      rw [Function.update_self] at hm'
      cases hm'
    · rw [Function.update_of_ne ht] at hm'
      by_cases hfid : fid' = fid
      · subst hfid
        rcases B.mine t' fid' ref' hm' with h | ⟨-, h⟩
        · -- then both threads would hold the placeholder
          obtain rfl := hown h
          have hfree := L.others_free (t := t) (by rw [hlive]; exact nofun) ht
          cases hfree.symm.trans (R.mine t' fid' ref' hm').1
        · exact Or.inr ⟨hself, h.mono hsub⟩
      · rcases B.mine t' fid' ref' hm' with h | ⟨h, h'⟩
        · exact Or.inl ((hother hfid).trans h)
        · exact Or.inr ⟨(hother hfid).trans h, h'.mono hsub⟩
  · intro t' fid' ref' h
    rcases List.mem_append.mp h with h | h
    · exact hsub (B.kept.deleted t' fid' ref' h)
    · obtain ⟨rfl, rfl, href⟩ := Event.deleted.inj (List.mem_singleton.mp h)
      obtain rfl := hown href.symm
      exact hsub hstored
  · intro t' fid' ref' h
    rcases List.mem_append.mp h with hm' | hm'
    · rcases B.kept.bound t' fid' ref' hm' with href | h | h
      · by_cases hfid : fid' = fid
        · subst hfid
          obtain rfl := hown href
          obtain ⟨rfl, -⟩ := R.stored_inj _ _ _ _ _ hm' hstored
          refine Or.inr (Or.inl (List.mem_append_right _ ?_))
          rw [href]
          exact List.mem_cons_self
        · exact Or.inl ((hother hfid).trans href)
      · exact Or.inr (Or.inl (hsub h))
      · exact Or.inr (Or.inr (h.mono hsub))
    · cases List.mem_singleton.mp hm'
  · intro ref' d hd
    obtain ⟨fid', h | h⟩ := B.kept.linked ref' d hd
    · by_cases hfid : fid' = fid
      · subst hfid
        obtain rfl := hown h
        cases (L.live hlive).2.2.symm.trans hd
      · exact ⟨fid', Or.inl ((hother hfid).trans h)⟩
    · exact ⟨fid', Or.inr (h.mono hsub)⟩

theorem step (B : Bindings s f) (L : Locks s f) (R : Records s f) {c : Cmd} {env : Env}
    {r : c.Res} (hpre : (f t).pre c) (hguard : Undisturbed s t c env)
    (h : exec s t c env = some (r, s')) (hpost : (f t).post c r o) :
    Bindings s' (Function.update f t o) := by
  cases c with
  | load fid =>
      cases h
      cases hpost
      exact B.quiet rfl rfl (fun _ => rfl) (fun _ => id) rfl
  | storeNew fid =>
      rcases exec_storeNew h with ⟨rfl, rfl⟩ | ⟨hnone, rfl, rfl⟩
      · cases hpost
        exact B.quiet rfl rfl (fun _ => rfl) (fun _ => id) rfl
      · obtain ⟨-, rfl⟩ := hpost
        refine B.store L R hnone fun t' ref hm howner => ?_
        exact of_decide_eq_false (hguard hnone _ hm) ⟨rfl, howner⟩
  | loadAndDelete fid =>
      rcases exec_loadAndDelete h with ⟨rfl, rfl⟩ | ⟨ref, href, rfl, rfl⟩
      · cases hpost
        exact B.quiet rfl rfl (fun _ => rfl) (fun _ => id) rfl
      · cases hpost
        rcases hpre.2 with hop | hop | hfailed
        · exact B.take R hop (Or.inl rfl) href (fun _ => id) rfl
        · exact B.take R hop (Or.inr rfl) href (fun _ => id) rfl
        · rw [B.sane t] at hfailed
          cases hfailed
  | delete fid =>
      cases h
      cases hpost
      obtain ⟨-, ref, hm⟩ := hpre
      exact B.delete L R hm
  | lock ref =>
      obtain ⟨-, rfl⟩ := exec_lock h
      obtain ⟨-, e, rfl⟩ := hpost
      exact B.quiet rfl rfl (s.modify_field SFid.ent ref fun _ => rfl) (fun _ => id) rfl
  | unlock ref =>
      obtain rfl := exec_unlock h
      cases hpost
      exact B.quiet rfl rfl (s.modify_field SFid.ent ref fun _ => rfl)
        (fun _ h => (Option.filter_eq_some_iff.mp h).1) rfl
  | getEnt ref =>
      cases h
      obtain ⟨-, rfl⟩ := hpost
      exact B.quiet rfl rfl (fun _ => rfl) (fun _ => id) rfl
  | setEnt ref e =>
      cases h
      -- every other field Ent is as before
      have hrest : ∀ {ref' d}, ref' ≠ ref →
          ((s.modify ref fun g => { g with ent := e }).sfid ref').ent = some d →
            (∃ d', (s.sfid ref').ent = some d') ∨ ∃ fid, (f t).mine = some (fid, ref') := by
        intro ref' d hne hd
        rw [s.modify_sfid_of_ne _ hne] at hd
        exact Or.inl ⟨d, hd⟩
      cases e with
      | none =>
          cases hpost
          refine B.frame [] (List.append_nil _).symm (List.forall_mem_nil _) rfl ?_ (fun _ => id)
            (B.sane t)
          intro ref' d hd
          by_cases hne : ref' = ref
          · subst hne
            rw [Store.modify_sfid_self] at hd
            cases hd
          · exact hrest hne hd
      | some d =>
          cases hpost
          refine B.frame [] (List.append_nil _).symm (List.forall_mem_nil _) rfl ?_
            (fun _ h => (Option.filter_eq_some_iff.mp h).1) (B.sane t)
          intro ref' d' hd
          by_cases hne : ref' = ref
          · subst hne
            rcases (hpre.2.2 d rfl).2 with hstale | ⟨d'', hlive⟩ | ⟨fid, hm, -⟩
            · have hslot := L.slots t ref'
              rw [hstale] at hslot
              exact Or.inl hslot.2.2
            · exact Or.inl ⟨d'', (L.live hlive).2.2⟩
            · exact Or.inr ⟨fid, hm⟩
          · exact hrest hne hd
  | getFile ref =>
      cases h
      cases hpost
      exact B.quiet rfl rfl (fun _ => rfl) (fun _ => id) rfl
  | setFile ref file =>
      cases h
      cases hpost
      exact B.quiet rfl rfl (s.modify_field SFid.ent ref fun _ => rfl) (fun _ => id) rfl
  | getMode ref =>
      cases h
      cases hpost
      exact B.quiet rfl rfl (fun _ => rfl) (fun _ => id) rfl
  | setMode ref mode =>
      cases h
      cases hpost
      exact B.quiet rfl rfl (s.modify_field SFid.ent ref fun _ => rfl) (fun _ => id) rfl
  | enter c =>
      cases h
      cases hpost
      exact B.frame [.enter t c] rfl (List.forall_mem_singleton.mpr rfl) rfl
        (fun _ d h => Or.inl ⟨d, h⟩) (fun _ => id) (B.sane t)
  | leave c =>
      cases h
      cases hpost
      refine B.frame [.leave t c _] rfl (List.forall_mem_singleton.mpr rfl) rfl
        (fun _ d h => Or.inl ⟨d, h⟩) (fun _ => id) ?_
      have hopen :
          ((f t).op.any Op.isCreate && c.openFails (c.answer s.calls (env c))) = false := by
        by_contra hne
        rw [Bool.not_eq_false, Bool.and_eq_true] at hne
        obtain ⟨hop, hfails⟩ := hne
        obtain ⟨op, hop, hc⟩ := (Option.any_eq_true _ _).mp hop
        rw [hguard ⟨_, (R.op t op).mp hop, decide_eq_true ⟨rfl, hc⟩⟩] at hfails
        cases hfails
      simp only [Ghost.leave, B.sane t, hopen, Bool.or_self]

end Bindings

/-! ## Every undisturbed run -/

def keeping : Protocol exec start Op.prog Ghost where
  idle := Ghost.idle
  begin := Ghost.begin
  pre := Ghost.pre
  post := Ghost.post
  inv s f := Locks s f ∧ Records s f ∧ Bindings s f
  guard := Undisturbed
  start_inv op h ht := by
    refine ⟨h.1.start op ht, h.2.1.start op ht, ?_⟩
    exact h.2.2.frame [.invoked _ op] rfl (List.forall_mem_singleton.mpr rfl) rfl
      (fun _ d h => Or.inl ⟨d, h⟩) nofun rfl
  exec_inv h hpre hguard hexec := by
    obtain ⟨o, hpost, hlocks⟩ := h.1.step hpre hexec
    exact ⟨o, hpost, hlocks, h.2.1.step hpre hexec hpost,
      h.2.2.step h.1 h.2.1 hpre hguard hexec hpost⟩
  safe := Op.prog_safe

/-- In every run whose steps are all undisturbed, an operation removes only its
own placeholder, and every linked `SFid` can be reached or was taken out. -/
theorem bindings_kept (acts : List (Sched Op Env)) {s : State}
    (hg : Guarded step UndisturbedStep initial acts)
    (hrun : Conc.exec step initial acts = some s) : BindingsKept s.store := by
  have hg : Guarded step keeping.Admits initial acts := hg.mono fun s a h => by
    cases a with
    | invoke op => trivial
    | run t env =>
        intro c k ht
        rw [UndisturbedStep, ht] at h
        exact h
  obtain ⟨f, hf⟩ := keeping.sound ⟨Locks.idle init, Records.init init rfl, Bindings.init⟩
    acts hg hrun
  exact hf.inv.2.2.kept

/-- Thread 0 attaches fid 1; thread 1 fails to clone it as fid 2, after which
thread 2 does. -/
def secondClone : List (Sched Op Env) :=
  .invoke (.attach 1 noFid [] []) :: turns 0 7 agreeable ++
    [.invoke (.walk 1 2 [])] ++ turns 1 10 refusing ++
    [.invoke (.walk 1 2 [])] ++ turns 2 10 agreeable

theorem bindings_kept_secondClone :
    ∃ s, Conc.exec step initial secondClone = some s ∧ s.store.refs 2 = some 2 ∧
      BindingsKept s.store :=
  ⟨_, rfl, rfl, bindings_kept secondClone (by decide +kernel) rfl⟩

/-! ## A binding is lost -/

/-- Thread 0 attaches fid 1, and thread 1 begins to clone it as fid 2.  Thread 2
clunks fid 2: it takes the placeholder out and waits for its mutex.  Thread 3
attaches fid 2.  Then the clone fails. -/
def lostBinding : List (Sched Op Env) :=
  .invoke (.attach 1 noFid [] []) :: turns 0 7 agreeable ++
    [.invoke (.walk 1 2 [])] ++ turns 1 4 agreeable ++
    [.invoke (.clunk 2)] ++ turns 2 1 agreeable ++
    [.invoke (.attach 2 noFid [] [])] ++ turns 3 7 agreeable ++
    turns 1 6 refusing

def Event.isStored (t : Nat) (fid : Fid) (ref : Nat) : Event → Bool
  | stored t' fid' ref' => t' = t ∧ fid' = fid ∧ ref' = ref
  | _ => false

/-- The `Walk` of thread 1 has deleted the binding of thread 3: its `SFid` is
linked, and fid 2 is unbound. -/
theorem binding_lost :
    ∃ s, Conc.exec step initial lostBinding = some s ∧
      s.threads[3]? = some (.ret (.qid ⟨qtdir, 0, 0⟩ none)) ∧
      .stored 3 2 2 ∈ s.store.log ∧ (s.store.sfid 2).ent = some 2 ∧
      .deleted 1 2 (some 2) ∈ s.store.log ∧ s.store.refs 2 = none ∧ ¬ BindingsKept s.store := by
  refine ⟨_, rfl, rfl, List.mem_of_getElem? (i := 11) rfl, rfl, List.mem_of_getElem? (i := 18) rfl,
    rfl, fun h => ?_⟩
  have hm := h.deleted 1 2 2 (List.mem_of_getElem? (i := 18) rfl)
  exact (List.any_eq_false (p := Event.isStored 1 2 2)).mp rfl _ hm rfl

end P9p.Session
