/-
# The authentication handshake

`Auth` stores the `AuthFile` that the file system returns in a new `SFid` and
leaves its `Ent` nil.  `getRef` takes a nil `Ent` for a fid that is being
deleted.  So the `AuthFile` is out of reach: in no run of a session, however
its operations interleave, is it read, written, asked for `Success` or handed
to `Attach`.

The invariant `Unreached` says of every thread and every `SFid`:

    usable    no file that a thread may use is an `AuthFile`
    file      an `AuthFile` is stored in an `SFid` of `Auth` only
    ent       the `Ent` of such an `SFid` is nil
    called    no call was made with an `AuthFile`
-/
import P9p.Session.Alone

namespace P9p.Session

open Conc

variable {s s' : Store} {f : Nat → Ghost} {t : Nat} {o : Ghost}
variable {g : File} {log : List Event} {ref : Nat}

/-! ## Auth files -/

/-- The file system has returned `g` from `Auth`. -/
def IsAuthFile (log : List Event) (g : File) : Prop :=
  ∃ t c r, .leave t c r ∈ log ∧ c.newAuthFile r = some g

/-- `ref` was stored by an `Auth`. -/
def IsAuthRef (log : List Event) (ref : Nat) : Prop :=
  ∃ t fid op, .invoked t op ∈ log ∧ op.isAuth ∧ .stored t fid ref ∈ log

/-- `g` was returned by a call, and not by `Auth`. -/
def Ordinary (s : Store) (g : File) : Prop := g.id < s.calls ∧ ¬ IsAuthFile s.log g

theorem Call.newFile_answer (c : Call) {n : Nat} {reply : c.Reply}
    (h : c.newFile (c.answer n reply) = some g) :
    g.id = n ∧ c.newAuthFile (c.answer n reply) = none := by
  cases c with
  | openDir d =>
      cases h
      exact ⟨rfl, rfl⟩
  | create d name perm mode =>
      obtain ⟨nonNil, kind, err⟩ := reply
      cases kind <;> cases h
      exact ⟨rfl, rfl⟩
  | «open» d mode =>
      obtain ⟨kind, err⟩ := reply
      cases kind <;> cases h
      exact ⟨rfl, rfl⟩
  | _ => cases h

theorem Call.newAuthFile_answer (c : Call) {n : Nat} {reply : c.Reply}
    (h : c.newAuthFile (c.answer n reply) = some g) : g.id = n := by
  cases c with
  | auth uname aname =>
      obtain ⟨nonNil, err⟩ := reply
      cases nonNil <;> cases h
      rfl
  | _ => cases h

theorem isAuthFile_append {es : List Event} :
    IsAuthFile (log ++ es) g ↔ IsAuthFile log g ∨ IsAuthFile es g := by
  constructor
  · rintro ⟨t, c, r, hm, hg⟩
    exact (List.mem_append.mp hm).imp (⟨t, c, r, ·, hg⟩) (⟨t, c, r, ·, hg⟩)
  · rintro (⟨t, c, r, hm, hg⟩ | ⟨t, c, r, hm, hg⟩)
    · exact ⟨t, c, r, List.mem_append_left _ hm, hg⟩
    · exact ⟨t, c, r, List.mem_append_right _ hm, hg⟩

theorem IsAuthRef.append (h : IsAuthRef log ref) (es : List Event) : IsAuthRef (log ++ es) ref := by
  obtain ⟨t, fid, op, hop, hauth, hstored⟩ := h
  exact ⟨t, fid, op, List.mem_append_left _ hop, hauth, List.mem_append_left _ hstored⟩

theorem IsAuthRef.of_append {es : List Event} (hes : ∀ ev ∈ es, ev.isUpkeep)
    (h : IsAuthRef (log ++ es) ref) : IsAuthRef log ref := by
  have hold : ∀ {ev : Event}, ev ∈ log ++ es → ev.isUpkeep = false → ev ∈ log := by
    intro ev hm hu
    rcases List.mem_append.mp hm with hm | hm
    · exact hm
    · rw [hes ev hm] at hu
      cases hu
  obtain ⟨t, fid, op, hop, hauth, hstored⟩ := h
  exact ⟨t, fid, op, hold hop rfl, hauth, hold hstored rfl⟩

def Event.isLeave : Event → Bool
  | leave _ _ _ => true
  | _ => false

/-! ## The invariant -/

structure Unreached (s : Store) (f : Nat → Ghost) : Prop where
  authFile : ∀ g, IsAuthFile s.log g → g.id < s.calls
  usable : ∀ t g, (f t).usable = some g → Ordinary s g
  afile : ∀ t g, (f t).afile = some g → g.id < s.calls
  called : ∀ t c g, .enter t c ∈ s.log → c.file = some g → Ordinary s g
  file : ∀ ref g, (s.sfid ref).file = some g →
    g.id < s.calls ∧ (IsAuthFile s.log g → IsAuthRef s.log ref)
  ent : ∀ ref, IsAuthRef s.log ref → (s.sfid ref).ent = none

namespace Unreached

theorem init (s : Store) (hlog : s.log = []) (hfile : ∀ ref, (s.sfid ref).file = none) :
    Unreached s fun _ => Ghost.idle := by
  have hnil : ∀ ev, ev ∉ s.log := by
    intro ev
    rw [hlog]
    exact List.not_mem_nil
  refine ⟨?_, nofun, nofun, fun _ _ _ h => absurd h (hnil _), ?_, ?_⟩
  · rintro g ⟨t, c, r, hm, -⟩
    exact absurd hm (hnil _)
  · intro ref g hg
    cases (hfile ref).symm.trans hg
  · rintro ref ⟨t, fid, op, hm, -⟩
    exact absurd hm (hnil _)

/-- A step in which no call returns. -/
theorem frame (U : Unreached s f) (es : List Event) (hlog : s'.log = s.log ++ es)
    (hcalls : s'.calls = s.calls) (hleave : ∀ t c r, .leave t c r ∉ es)
    (henter : ∀ t c g, .enter t c ∈ es → c.file = some g → Ordinary s g)
    (husable : ∀ g, o.usable = some g → Ordinary s g) (hafile : o.afile = (f t).afile)
    (hfile : ∀ ref g, (s'.sfid ref).file = some g →
      g.id < s.calls ∧ (IsAuthFile s.log g → IsAuthRef s.log ref))
    (hent : ∀ ref, IsAuthRef s'.log ref → (s'.sfid ref).ent = none) :
    Unreached s' (Function.update f t o) := by
  have hauth : ∀ {g}, IsAuthFile s'.log g → IsAuthFile s.log g := by
    intro g h
    rw [hlog] at h
    refine (isAuthFile_append.mp h).resolve_right ?_
    rintro ⟨t, c, r, hm, -⟩
    exact hleave t c r hm
  have hord : ∀ {g}, Ordinary s g → Ordinary s' g := by
    rintro g ⟨hlt, hg⟩
    exact ⟨hcalls.symm ▸ hlt, fun h => hg (hauth h)⟩
  refine ⟨?_, ?_, ?_, ?_, ?_, hent⟩
  · intro g h
    rw [hcalls]
    exact U.authFile g (hauth h)
  · rw [Function.forall_update_iff f fun _ o => ∀ g, o.usable = some g → Ordinary s' g]
    exact ⟨fun g hg => hord (husable g hg), fun t' _ g hg => hord (U.usable t' g hg)⟩
  · rw [hcalls, Function.forall_update_iff f fun _ o => ∀ g, o.afile = some g → g.id < s.calls,
      hafile]
    exact ⟨U.afile t, fun t' _ => U.afile t'⟩
  · intro t' c g hm hg
    rw [hlog] at hm
    rcases List.mem_append.mp hm with hm | hm
    · exact hord (U.called t' c g hm hg)
    · exact hord (henter t' c g hm hg)
  · intro ref g hg
    obtain ⟨hlt, hg⟩ := hfile ref g hg
    refine ⟨hcalls.symm ▸ hlt, fun h => ?_⟩
    rw [hlog]
    exact (hg (hauth h)).append es

/-- A step that is not logged. -/
theorem unlogged (U : Unreached s f) (hlog : s'.log = s.log) (hcalls : s'.calls = s.calls)
    (husable : ∀ g, o.usable = some g → Ordinary s g) (hafile : o.afile = (f t).afile)
    (hfile : ∀ ref g, (s'.sfid ref).file = some g →
      g.id < s.calls ∧ (IsAuthFile s.log g → IsAuthRef s.log ref))
    (hent : ∀ ref, IsAuthRef s.log ref → (s'.sfid ref).ent = none) :
    Unreached s' (Function.update f t o) := by
  refine U.frame [] (hlog.trans (List.append_nil _).symm) hcalls (fun _ _ _ => List.not_mem_nil)
    (fun _ _ _ h => absurd h List.not_mem_nil) husable hafile hfile ?_
  rw [hlog]
  exact hent

/-- Moreover it assigns to no `File` or `Ent`. -/
theorem quiet (U : Unreached s f) (hlog : s'.log = s.log) (hcalls : s'.calls = s.calls)
    (hfile : ∀ ref, (s'.sfid ref).file = (s.sfid ref).file)
    (hent : ∀ ref, (s'.sfid ref).ent = (s.sfid ref).ent) (husable : o.usable = (f t).usable)
    (hafile : o.afile = (f t).afile) : Unreached s' (Function.update f t o) := by
  refine U.unlogged hlog hcalls (husable ▸ U.usable t) hafile ?_ ?_
  · intro ref g
    rw [hfile]
    exact U.file ref g
  · intro ref
    rw [hent]
    exact U.ent ref

/-- An event other than the return of a call is logged, and the table is as it
was. -/
theorem record (U : Unreached s f) (ev : Event) (hev : ev.isUpkeep) (hleave : ev.isLeave = false)
    (henter : ∀ t c g, .enter t c = ev → c.file = some g → Ordinary s g)
    (hlog : s'.log = s.log ++ [ev]) (hcalls : s'.calls = s.calls) (hsfid : s'.sfid = s.sfid)
    (husable : o.usable = (f t).usable) (hafile : o.afile = (f t).afile) :
    Unreached s' (Function.update f t o) := by
  refine U.frame [ev] hlog hcalls ?_ ?_ (husable ▸ U.usable t) hafile (hsfid ▸ U.file) ?_
  · intro t c r h
    rw [← List.mem_singleton.mp h] at hleave
    cases hleave
  · exact fun t c g h => henter t c g (List.mem_singleton.mp h)
  · intro ref href
    rw [hlog] at href
    rw [hsfid]
    exact U.ent ref (href.of_append (List.forall_mem_singleton.mpr hev))

theorem start (U : Unreached s f) (R : Records s f) (op : Op) (ht : f t = Ghost.idle) :
    Unreached (start s t op) (Function.update f t (Ghost.begin op)) := by
  refine U.frame [.invoked t op] rfl rfl (fun _ _ _ h => nomatch List.mem_singleton.mp h)
    (fun _ _ _ h => nomatch List.mem_singleton.mp h) nofun (by rw [ht]; rfl) U.file ?_
  rintro ref ⟨t', fid, op', hop, hauth, hstored⟩
  have hstored : .stored t' fid ref ∈ s.log :=
    (List.mem_append.mp hstored).resolve_right fun h => nomatch List.mem_singleton.mp h
  refine U.ent ref ⟨t', fid, op', (List.mem_append.mp hop).resolve_right fun h => ?_, hauth,
    hstored⟩
  -- a thread that has stored an `SFid` has started before
  cases List.mem_singleton.mp h
  exact (R.stored_by t fid ref hstored).1 (by rw [ht]; rfl)

theorem store (U : Unreached s f) (fid : Fid) :
    Unreached ((s.bindNew t fid).record (.stored t fid s.next))
      (Function.update f t ((f t).reserve fid s.next)) := by
  refine U.frame [.stored t fid s.next] rfl rfl (fun _ _ _ h => nomatch List.mem_singleton.mp h)
    (fun _ _ _ h => nomatch List.mem_singleton.mp h) (U.usable t) rfl ?_ ?_
  · intro ref g hg
    by_cases href : ref = s.next
    · subst href
      cases (congrArg SFid.file (s.bindNew_sfid_next t fid)).symm.trans hg
    · exact U.file ref g ((congrArg SFid.file (s.bindNew_sfid_of_ne t fid href)).symm.trans hg)
  · rintro ref ⟨t', fid', op, hop, hauth, hstored⟩
    by_cases href : ref = s.next
    · subst href
      exact congrArg SFid.ent (s.bindNew_sfid_next t fid)
    · refine (congrArg SFid.ent (s.bindNew_sfid_of_ne t fid href)).trans (U.ent ref ?_)
      refine ⟨t', fid', op, (List.mem_append.mp hop).resolve_right ?_, hauth,
        (List.mem_append.mp hstored).resolve_right ?_⟩
      · exact fun h => nomatch List.mem_singleton.mp h
      · intro h
        cases List.mem_singleton.mp h
        exact href rfl

/-- A call returns: its handles are new. -/
theorem answered (U : Unreached s f) (c : Call) (reply : c.Reply) :
    Unreached (s.answered t c (c.answer s.calls reply))
      (Function.update f t ((f t).leave c (c.answer s.calls reply))) := by
  have hnew : ∀ {g}, IsAuthFile [.leave t c (c.answer s.calls reply)] g →
      c.newAuthFile (c.answer s.calls reply) = some g := by
    rintro g ⟨t', c', r', hm, hg⟩
    cases List.mem_singleton.mp hm
    exact hg
  have hauth : ∀ {g}, g.id < s.calls →
      IsAuthFile (s.answered t c (c.answer s.calls reply)).log g → IsAuthFile s.log g := by
    intro g hlt h
    refine (isAuthFile_append.mp h).resolve_right fun h => ?_
    rw [c.newAuthFile_answer (hnew h)] at hlt
    exact Nat.lt_irrefl _ hlt
  have hord : ∀ {g}, Ordinary s g → Ordinary (s.answered t c (c.answer s.calls reply)) g :=
    fun hg => ⟨Nat.lt_succ_of_lt hg.1, fun h => hg.2 (hauth hg.1 h)⟩
  refine ⟨?_, ?_, ?_, ?_, ?_, ?_⟩
  · intro g h
    rcases isAuthFile_append.mp h with h | h
    · exact Nat.lt_succ_of_lt (U.authFile g h)
    · exact (c.newAuthFile_answer (hnew h)).symm ▸ Nat.lt_succ_self _
  · rw [Function.forall_update_iff f fun _ o => ∀ g, o.usable = some g → Ordinary _ g]
    refine ⟨fun g hg => ?_, fun t' _ g hg => hord (U.usable t' g hg)⟩
    rcases Option.or_eq_some_iff.mp hg with hg | ⟨-, hg⟩
    · obtain ⟨hid, hnone⟩ := c.newFile_answer hg
      refine ⟨hid.symm ▸ Nat.lt_succ_self _, fun h => ?_⟩
      rcases isAuthFile_append.mp h with h | h
      · exact absurd (U.authFile g h) (by rw [hid]; exact Nat.lt_irrefl _)
      · cases hnone.symm.trans (hnew h)
    · exact hord (U.usable t g hg)
  · refine (Function.forall_update_iff f fun _ o => ∀ g, o.afile = some g → g.id < s.calls + 1).mpr
      ⟨fun g hg => ?_, fun t' _ g hg => Nat.lt_succ_of_lt (U.afile t' g hg)⟩
    rcases Option.or_eq_some_iff.mp hg with hg | ⟨-, hg⟩
    · exact (c.newAuthFile_answer hg).symm ▸ Nat.lt_succ_self _
    · exact Nat.lt_succ_of_lt (U.afile t g hg)
  · intro t' c' g hm hg
    refine hord (U.called t' c' g ((List.mem_append.mp hm).resolve_right ?_) hg)
    exact fun h => nomatch List.mem_singleton.mp h
  · intro ref g hg
    obtain ⟨hlt, hg⟩ := U.file ref g hg
    exact ⟨Nat.lt_succ_of_lt hlt, fun h => (hg (hauth hlt h)).append _⟩
  · intro ref href
    exact U.ent ref (href.of_append (List.forall_mem_singleton.mpr rfl))

theorem not_isAuthRef_of_live (U : Unreached s f) (L : Locks s f) {d : Nat}
    (h : (f t).held ref = .live (some d)) : ¬ IsAuthRef s.log ref := by
  intro href
  have hslot := L.slots t ref
  rw [h] at hslot
  cases (U.ent ref href).symm.trans hslot.2.2

theorem not_isAuthRef_of_mayLink (U : Unreached s f) (L : Locks s f) (R : Records s f)
    (h : (f t).MayLink ref) : ¬ IsAuthRef s.log ref := by
  rcases h with h | ⟨d, h⟩ | ⟨fid, hmine, hop⟩
  · intro href
    have hslot := L.slots t ref
    rw [h] at hslot
    obtain ⟨-, -, d, hent⟩ := hslot
    cases (U.ent ref href).symm.trans hent
  · exact U.not_isAuthRef_of_live L h
  · rintro ⟨t', fid', op, hop', hauth, hstored⟩
    obtain ⟨rfl, -⟩ := R.stored_inj _ _ _ _ _ (R.mine t fid ref hmine).2 hstored
    rw [hop op ((R.op t op).mpr hop')] at hauth
    cases hauth

theorem step (U : Unreached s f) (L : Locks s f) (R : Records s f) {c : Cmd} {env : Env}
    {r : c.Res} (hpre : (f t).pre c) (h : exec s t c env = some (r, s'))
    (hpost : (f t).post c r o) : Unreached s' (Function.update f t o) := by
  cases c with
  | load fid =>
      cases h
      cases hpost
      exact U.quiet rfl rfl (fun _ => rfl) (fun _ => rfl) rfl rfl
  | storeNew fid =>
      rcases exec_storeNew h with ⟨rfl, rfl⟩ | ⟨-, rfl, rfl⟩
      · cases hpost
        exact U.quiet rfl rfl (fun _ => rfl) (fun _ => rfl) rfl rfl
      · obtain ⟨-, rfl⟩ := hpost
        exact U.store fid
  | loadAndDelete fid =>
      rcases exec_loadAndDelete h with ⟨rfl, rfl⟩ | ⟨ref, -, rfl, rfl⟩
      · cases hpost
        exact U.quiet rfl rfl (fun _ => rfl) (fun _ => rfl) rfl rfl
      · cases hpost
        exact U.record (.took t fid ref) rfl rfl (fun _ _ _ h => nomatch h) rfl rfl rfl rfl rfl
  | delete fid =>
      cases h
      cases hpost
      exact U.record (.deleted t fid (s.refs fid)) rfl rfl (fun _ _ _ h => nomatch h) rfl rfl rfl
        rfl rfl
  | lock ref =>
      obtain ⟨-, rfl⟩ := exec_lock h
      obtain ⟨-, e, rfl⟩ := hpost
      exact U.quiet rfl rfl (s.modify_field SFid.file ref fun _ => rfl)
        (s.modify_field SFid.ent ref fun _ => rfl) rfl rfl
  | unlock ref =>
      obtain rfl := exec_unlock h
      cases hpost
      exact U.quiet rfl rfl (s.modify_field SFid.file ref fun _ => rfl)
        (s.modify_field SFid.ent ref fun _ => rfl) rfl rfl
  | getEnt ref =>
      cases h
      obtain ⟨-, rfl⟩ := hpost
      exact U.quiet rfl rfl (fun _ => rfl) (fun _ => rfl) rfl rfl
  | setEnt ref e =>
      cases h
      have hkeep : ∀ o : Ghost, o.usable = (f t).usable → o.afile = (f t).afile →
          (∀ d, e = some d → ¬ IsAuthRef s.log ref) →
          Unreached (s.modify ref fun g => { g with ent := e }) (Function.update f t o) := by
        intro o husable hafile he
        have hfile : ∀ ref', ((s.modify ref fun g => { g with ent := e }).sfid ref').file =
            (s.sfid ref').file := s.modify_field SFid.file ref fun _ => rfl
        refine U.unlogged rfl rfl (husable ▸ U.usable t) hafile ?_ ?_
        · intro ref' g hg
          rw [hfile] at hg
          exact U.file ref' g hg
        · intro ref' href
          by_cases heq : ref' = ref
          · subst heq
            rw [Store.modify_sfid_self]
            exact Option.eq_none_iff_forall_ne_some.mpr fun d hd => he d hd href
          · rw [s.modify_sfid_of_ne _ heq]
            exact U.ent ref' href
      cases e with
      | none =>
          cases hpost
          exact hkeep _ rfl rfl nofun
      | some d =>
          cases hpost
          exact hkeep _ rfl rfl fun d' hd' => U.not_isAuthRef_of_mayLink L R (hpre.2.2 d' hd').2
  | getFile ref =>
      cases h
      cases hpost
      refine U.unlogged rfl rfl ?_ rfl U.file U.ent
      intro g hg
      rcases Option.or_eq_some_iff.mp hg with hg | ⟨-, hg⟩
      · obtain ⟨hlt, hauth⟩ := U.file ref g hg
        obtain ⟨-, d, hd⟩ := hpre
        exact ⟨hlt, fun h => U.not_isAuthRef_of_live L hd (hauth h)⟩
      · exact U.usable t g hg
  | setFile ref file =>
      cases h
      cases hpost
      have hent : ∀ ref', ((s.modify ref fun g => { g with file }).sfid ref').ent =
          (s.sfid ref').ent := s.modify_field SFid.ent ref fun _ => rfl
      refine U.unlogged rfl rfl (U.usable t) rfl ?_ fun ref' href =>
        (hent ref').trans (U.ent ref' href)
      · intro ref' g hg
        by_cases heq : ref' = ref
        · subst heq
          rw [Store.modify_sfid_self] at hg
          rcases hpre.2.2 g hg with hu | ⟨ha, ⟨fid, hmine⟩, op, hop, hauth⟩
          · obtain ⟨hlt, hord⟩ := U.usable t g hu
            exact ⟨hlt, fun h => absurd h hord⟩
          · exact ⟨U.afile t g ha, fun _ =>
              ⟨t, fid, op, (R.op t op).mp hop, hauth, (R.mine t fid ref' hmine).2⟩⟩
        · rw [s.modify_sfid_of_ne _ heq] at hg
          exact U.file ref' g hg
  | getMode ref =>
      cases h
      cases hpost
      exact U.quiet rfl rfl (fun _ => rfl) (fun _ => rfl) rfl rfl
  | setMode ref mode =>
      cases h
      cases hpost
      exact U.quiet rfl rfl (s.modify_field SFid.file ref fun _ => rfl)
        (s.modify_field SFid.ent ref fun _ => rfl) rfl rfl
  | enter c =>
      cases h
      cases hpost
      refine U.record (.enter t c) rfl rfl ?_ rfl rfl rfl rfl rfl
      rintro _ _ g ⟨⟩ hg
      exact U.usable t g (hpre.2.file g hg)
  | leave c =>
      cases h
      cases hpost
      exact U.answered c (env c)

end Unreached

/-! ## Every run -/

/-- Nothing is asked of the schedule or of the file system. -/
def seclusion : Protocol exec start Op.prog Ghost where
  idle := Ghost.idle
  begin := Ghost.begin
  pre := Ghost.pre
  post := Ghost.post
  inv s f := Locks s f ∧ Records s f ∧ Unreached s f
  guard _ _ _ _ := True
  start_inv op h ht := ⟨h.1.start op ht, h.2.1.start op ht, h.2.2.start h.2.1 op ht⟩
  exec_inv h hpre _ hexec := by
    obtain ⟨o, hpost, hlocks⟩ := h.1.step hpre hexec
    exact ⟨o, hpost, hlocks, h.2.1.step hpre hexec hpost, h.2.2.step h.1 h.2.1 hpre hexec hpost⟩
  safe := Op.prog_safe

/-- An `Auth` of `afid` has stored `ref`, and the file system has returned
`af`. -/
def Authorized (log : List Event) (afid : Fid) (ref : Nat) (af : File) : Prop :=
  ∃ t uname aname, .invoked t (.auth afid uname aname) ∈ log ∧ .stored t afid ref ∈ log ∧
    .leave t (.auth uname aname) (some af, none) ∈ log

/-- `Read`, `Write` and `Attach` answer that `afid` is unknown, without a call
to the file system. -/
def Refused (s : Store) (afid : Fid) : Prop :=
  ∀ t env,
    (∀ len offset, ∃ n, run exec t env (read afid len offset) s 0 =
      .returned (.count 0 (some .unknownfid)) s n) ∧
    (∀ p offset, ∃ n, run exec t env (write afid p offset) s 0 =
      .returned (.count 0 (some .unknownfid)) s n) ∧
    ∀ fid uname aname, ∃ n, run exec t env (attach fid afid uname aname) s 0 =
      .returned (.qid noQid (some .unknownfid)) s n

theorem refused_of_unavailable {afid : Fid} (hafid : afid ≠ noFid) (h : Unavailable s afid) :
    Refused s afid := by
  intro t env
  obtain ⟨n, hget⟩ := run_getRef_unavailable t env 0 h
  refine ⟨fun len offset => ⟨n, run_bind_returned hget _⟩, fun p offset =>
    ⟨n, run_bind_returned hget _⟩, fun fid uname aname => ⟨n, ?_⟩⟩
  rw [attach, if_neg hafid]
  exact run_bind_returned hget _

/-- In every run, an `AuthFile` is never used: no call is made with it, and
while its `afid` is bound, `Read`, `Write` and `Attach` do not know `afid`. -/
theorem authFile_unreached (acts : List (Sched Op Env)) {s : State}
    (hrun : Conc.exec step initial acts = some s) {afid : Fid} {ref : Nat} {af : File}
    (hauth : Authorized s.store.log afid ref af) :
    (∀ t c, .enter t c ∈ s.store.log → c.file ≠ some af) ∧
      (s.store.refs afid = some ref → (s.store.sfid ref).owner = none →
        Refused s.store afid) := by
  obtain ⟨f, hf⟩ := seclusion.sound_of_forall (fun _ _ _ _ => trivial)
    ⟨Locks.idle init, Records.init init rfl, Unreached.init init rfl fun _ => rfl⟩ acts hrun
  obtain ⟨-, R, U⟩ := hf.inv
  obtain ⟨t, uname, aname, hop, hstored, hleave⟩ := hauth
  constructor
  · intro t' c hm hc
    exact (U.called t' c af hm hc).2 ⟨t, _, _, hleave, rfl⟩
  · intro href howner
    have hent := U.ent ref ⟨t, afid, _, hop, rfl, hstored⟩
    exact refused_of_unavailable (R.stored_by t afid ref hstored).2
      (Or.inr (Or.inr ⟨ref, href, howner, hent⟩))

/-- `Auth` of fid 1, from its start to its return. -/
def authRun : List (Sched Op Env) := .invoke (.auth 1 [] []) :: turns 0 7 agreeable

theorem authRun_authorized :
    ∃ s, Conc.exec step initial authRun = some s ∧ Authorized s.store.log 1 0 ⟨1, .auth⟩ ∧
      s.threads = [.ret (.qid ⟨qtauth, 0, 0⟩ none)] ∧ s.store.refs 1 = some 0 ∧
      (s.store.sfid 0).owner = none ∧ (s.store.sfid 0).file = some ⟨1, .auth⟩ :=
  ⟨_, rfl, ⟨0, [], [], List.mem_of_getElem? (i := 0) rfl, List.mem_of_getElem? (i := 3) rfl,
    List.mem_of_getElem? (i := 5) rfl⟩, rfl, rfl, rfl, rfl⟩

theorem authFile_unreached_authRun :
    ∃ s, Conc.exec step initial authRun = some s ∧ Authorized s.store.log 1 0 ⟨1, .auth⟩ ∧
      s.threads = [.ret (.qid ⟨qtauth, 0, 0⟩ none)] ∧ Refused s.store 1 := by
  obtain ⟨s, hrun, hauth, hret, href, howner, -⟩ := authRun_authorized
  exact ⟨s, hrun, hauth, hret, (authFile_unreached authRun hrun hauth).2 href howner⟩

/-- `Auth` has succeeded and stored its `AuthFile`, but `Read` and `Attach` do
not know the fid; they make no call. -/
theorem afid_unknown :
    ∃ s, Conc.exec step initial authRun = some s ∧ Authorized s.store.log 1 0 ⟨1, .auth⟩ ∧
      s.threads = [.ret (.qid ⟨qtauth, 0, 0⟩ none)] ∧ s.store.refs 1 = some 0 ∧
      (∃ s' n, run exec 1 (fun _ => agreeable) (read 1 8 0) s.store 0 =
        .returned (.count 0 (some .unknownfid)) s' n ∧ s'.log = s.store.log) ∧
      ∃ s' n, run exec 1 (fun _ => agreeable) (attach 2 1 [] []) s.store 0 =
        .returned (.qid noQid (some .unknownfid)) s' n ∧ s'.log = s.store.log := by
  refine ⟨_, rfl, ⟨0, [], [], List.mem_of_getElem? (i := 0) rfl, List.mem_of_getElem? (i := 3) rfl,
    List.mem_of_getElem? (i := 5) rfl⟩, rfl, rfl, ⟨_, _, rfl, rfl⟩, ⟨_, _, rfl, rfl⟩⟩

end P9p.Session
