/-
# One request, or none of it

An operation that runs alone on any fid table and fails, or a `Walk` that stops
short, leaves the map from fids to `(Ent, File, Mode)` as it was; a `Walk` that
does not stop short changes the one entry it is asked to; `Clunk` and `Remove`
take their fid out (`transactional`).

What an operation that returns does is known from `Op.effect`.  `Clunk` and
`Remove` are followed command by command, since they take the fid out even if
they never return.
-/
import P9p.Session.Effects

namespace P9p.Session

open Conc Books

variable {s s' : Store} {t n : Nat} {env : Nat → Env}
variable {fid : Fid} {ref : Nat}

/-- A table in which each `SFid` corresponds to exactly one fid. -/
structure FidTable extends Table where
  distinct : toTable.Distinct

/-- `Walk` returns some number of qids other than that of the names. -/
def Op.Incomplete : Op → Ret → Prop
  | walk _ _ names, .qids qs _ => qs.length ≠ names.length
  | _, _ => False

/-- What the outcome of `op`, run alone on `tbl`, means for the entries. -/
structure Transactional (tbl : Table) (t : Nat) (op : Op) (out : Outcome Cmd Ret Store) : Prop where
  failed : ∀ r s n, out = .returned r s n → op.isDelete = false →
    (r.err ≠ none ∨ op.Incomplete r) → s.entries = tbl.entries
  walked : ∀ fid newfid names qs s n, op = .walk fid newfid names →
    out = .returned (.qids qs none) s n → qs.length = names.length → newfid ≠ fid →
    ∃ d, WalkedTo s.log t names d ∧ tbl.entries newfid = none ∧
      s.entries = Function.update tbl.entries newfid (some ⟨some d, none, 0⟩)
  rewalked : ∀ fid names qs s n, op = .walk fid fid names →
    out = .returned (.qids qs none) s n → qs.length = names.length → names ≠ [] →
    ∃ d e, WalkedTo s.log t names d ∧ tbl.entries fid = some e ∧
      s.entries = Function.update tbl.entries fid (some { e with ent := some d })
  deleted : ∀ fid, op = .clunk fid ∨ op = .remove fid →
    out.store.entries = Function.update tbl.entries fid none
  returns : ∀ fid, op = .clunk fid ∨ op = .remove fid →
    (∀ ref, tbl.refs fid = some ref → (tbl.sfid ref).owner = none) → ∃ r s n, out = .returned r s n

theorem exec_loadAndDelete_bound {e : Env} (href : s.refs fid = some ref) :
    exec s t (.loadAndDelete fid) e =
      some (some ref, (s.unbind fid).record (.took t fid ref)) := by
  simp only [exec, href]
  rfl

/-- `delRef` waits if the mutex is taken. -/
theorem run_delRef_taken {u : Nat} {remove : Bool} (href : s.refs fid = some ref)
    (howner : (s.sfid ref).owner = some u) :
    run exec t env (delRef fid remove) s n =
      .blocked (.lock ref) ((s.unbind fid).record (.took t fid ref)) := by
  refine (run_then (exec_loadAndDelete_bound href)).trans ?_
  exact run_blocked (exec_lock_taken howner)

theorem run_ent {α : Type} {d : Nat} {k : Nat → M α} (hent : (s.sfid ref).ent = some d) :
    run exec t env (ent ref >>= k) s n = run exec t env (k d) s (n + 1) := by
  refine run_bind_returned (p := ent ref) ((run_then rfl).trans ?_) k
  rw [hent]
  rfl

/-- `delRefAction` returns, and leaves all mutexes as they are. -/
theorem run_delRefAction (t : Nat) (env : Nat → Env) (n : Nat) {d : Nat} (remove : Bool)
    (hent : (s.sfid ref).ent = some d) :
    ∃ err s' n', run exec t env (delRefAction ref remove) s n = .returned err s' n' ∧
      ∀ ref', (s'.sfid ref').owner = (s.sfid ref').owner := by
  have howner : ∀ ref', ((s.modify ref fun g => { g with ent := none }).sfid ref').owner =
      (s.sfid ref').owner := s.modify_field SFid.owner ref fun _ => rfl
  cases remove with
  | true => exact ⟨_, _, _, (run_ent hent).trans rfl, howner⟩
  | false => exact ⟨_, _, _, (run_ent hent).trans rfl, howner⟩

/-- With the mutex held, the rest of `delRef` returns and holds it still. -/
theorem run_delRef_held (t : Nat) (env : Nat → Env) (n : Nat) (remove : Bool)
    (hlocked : (s.sfid ref).owner = some t) :
    ∃ err s' n', run exec t env (do
        match ← issue (.getEnt ref) with
        | none => return none
        | some _ => delRefAction ref remove) s n = .returned err s' n' ∧
      (s'.sfid ref).owner = some t := by
  cases hent : (s.sfid ref).ent with
  | none =>
      refine ⟨none, s, n + 1, (run_then rfl).trans ?_, hlocked⟩
      rw [hent]
      rfl
  | some d =>
      obtain ⟨err, s', n', hrun, hkeep⟩ := run_delRefAction t env (n + 1) remove hent
      refine ⟨err, s', n', (run_then rfl).trans ?_, (hkeep ref).trans hlocked⟩
      rw [hent]
      exact hrun

theorem run_delRef_free (t : Nat) (env : Nat → Env) (n : Nat) (remove : Bool)
    (howner : ∀ ref, s.refs fid = some ref → (s.sfid ref).owner = none) :
    ∃ err s' n', run exec t env (delRef fid remove) s n = .returned err s' n' := by
  cases href : s.refs fid with
  | none =>
      have hexec : exec s t (.loadAndDelete fid) (env n) = some (none, s) := by
        simp only [exec, href]
        rfl
      exact ⟨_, _, _, (run_then hexec).trans rfl⟩
  | some ref =>
      have hfree := howner ref href
      obtain ⟨s₁, hlock, hlocked⟩ :
        ∃ s₁, exec ((s.unbind fid).record (.took t fid ref)) t (.lock ref)
          (env (n + 1)) = some ((), s₁) ∧ (s₁.sfid ref).owner = some t :=
        ⟨_, exec_lock_free hfree, congrArg SFid.owner (Store.lock_sfid_self _ t ref)⟩
      obtain ⟨err, s', n', hrun, ho⟩ := run_delRef_held t env (n + 2) remove hlocked
      have hunlock : exec s' t (.unlock ref) (env n') =
          some ((), s'.modify ref fun g => { g with owner := none }) := by
        simp only [exec, ho]
        rfl
      exact ⟨err, _, _, (run_then (exec_loadAndDelete_bound href)).trans
        ((run_then hlock).trans ((run_bind_returned hrun _).trans ((run_then hunlock).trans rfl)))⟩

theorem entries_unbind (s : Store) (fid : Fid) :
    (s.unbind fid).entries = Function.update s.entries fid none :=
  Function.comp_update (Option.map fun ref => (s.sfid ref).entry) ..

/-- `Clunk` and `Remove` take their fid out, however they end. -/
theorem run_delRef_entries (hs : s.Distinct) (fid : Fid) (remove : Bool) :
    (run exec t env (do return Ret.done (← delRef fid remove)) s 0).store.entries =
      Function.update s.entries fid none := by
  by_cases howner : ∀ ref, s.refs fid = some ref → (s.sfid ref).owner = none
  · obtain ⟨err, s', n', hrun⟩ := run_delRef_free t env 0 remove howner
    obtain ⟨hs', hbooks⟩ := books_returns (Returns.of_run hrun) hs
    obtain ⟨d, he⟩ := delRef_effect hbooks
    rw [run_bind_returned hrun]
    exact he.entries
  · obtain ⟨ref, howner⟩ := not_forall.mp howner
    obtain ⟨href, howner⟩ := Classical.not_imp.mp howner
    obtain ⟨u, howner⟩ := Option.ne_none_iff_exists'.mp howner
    rw [run_bind, run_delRef_taken href howner]
    exact entries_unbind s fid

/-- On every fid table and for every answer of the file system, an operation
that fails leaves the entries as they were, a `Walk` changes the one it is
asked to, and `Clunk` and `Remove` take out theirs. -/
theorem transactional (tbl : FidTable) (calls t : Nat) (env : Nat → Env) (op : Op) :
    Transactional tbl.toTable t op (runAlone tbl.toTable calls t env op) := by
  have heffect : ∀ {r s n}, runAlone tbl.toTable calls t env op = .returned r s n →
      ∃ m, op.Explains t s.log r m ∧ s.entries = m.apply tbl.entries ∧ m.Enabled tbl.entries := by
    intro r s n hrun
    obtain ⟨hs', m, hm, he, -⟩ := op.effect tbl.distinct (List.mem_append_right _
      (List.mem_singleton_self _)) (Returns.of_run hrun)
    exact ⟨m, hm, he.entries, he.enabled⟩
  -- a `Walk` that returns as many qids as there are names
  have hwalk : ∀ {fid newfid names qs s n}, op = .walk fid newfid names →
      runAlone tbl.toTable calls t env op = .returned (.qids qs none) s n →
      qs.length = names.length → (newfid = fid → names ≠ []) →
        ∃ (m : Move) (d : Nat), WalkedTo s.log t names d ∧
        s.entries = m.apply tbl.entries ∧ m.Enabled tbl.entries ∧
        (newfid ≠ fid ∧ m = .bind newfid d ∨ newfid = fid ∧ ∃ d₀, m = .rebind fid d₀ d) := by
    rintro fid newfid names qs s n rfl hrun hlen hnames
    obtain ⟨m, hm, happly, hen⟩ := heffect hrun
    rcases hm with ⟨hr, -⟩ | ⟨-, qs', heq, hwalks⟩
    · exact absurd rfl hr
    · cases heq
      rcases hwalks with ⟨hshort | ⟨heq, hnil⟩, -⟩ | ⟨-, d, hd, hwalks⟩
      · exact absurd hlen hshort
      · exact absurd hnil (hnames heq)
      · exact ⟨m, d, hd, happly, hen, hwalks.imp id fun h => ⟨h.1, h.2.2⟩⟩
  refine ⟨?_, ?_, ?_, ?_, ?_⟩
  · intro r s n hrun hdel hfail
    obtain ⟨m, hm, happly, -⟩ := heffect hrun
    rcases hm with ⟨-, -, rfl⟩ | ⟨hr | hdel', hdoes⟩
    · exact happly
    · rcases hfail with hfail | hshort
      · exact absurd hr hfail
      · cases op with
        | walk fid newfid names =>
            obtain ⟨qs, rfl, ⟨-, rfl⟩ | ⟨hlen, -⟩⟩ := hdoes
            · exact happly
            · exact absurd hlen hshort
        | _ => exact hshort.elim
    · rw [hdel] at hdel'
      cases hdel'
  · intro fid newfid names qs s n hop hrun hlen hne
    obtain ⟨m, d, hd, happly, hen, ⟨-, rfl⟩ | ⟨heq, -⟩⟩ :=
      hwalk hop hrun hlen fun heq => absurd heq hne
    · exact ⟨d, hd, hen, happly⟩
    · exact absurd heq hne
  · intro fid names qs s n hop hrun hlen hnames
    obtain ⟨m, d, hd, happly, hen, ⟨hne, -⟩ | ⟨-, d₀, rfl⟩⟩ := hwalk hop hrun hlen fun _ => hnames
    · exact absurd rfl hne
    · obtain ⟨e, he, -⟩ := Option.bind_eq_some_iff.mp hen
      rw [Move.apply, he] at happly
      exact ⟨d, e, hd, he, happly⟩
  · rintro fid (rfl | rfl)
    · exact run_delRef_entries tbl.distinct fid false
    · exact run_delRef_entries tbl.distinct fid true
  · rintro fid (rfl | rfl) howner
    · obtain ⟨err, s', n', hrun⟩ := run_delRef_free
        (s := start { tbl.toTable with calls, log := [] } t (.clunk fid)) t env 0 false howner
      exact ⟨_, _, _, run_bind_returned hrun _⟩
    · obtain ⟨err, s', n', hrun⟩ := run_delRef_free
        (s := start { tbl.toTable with calls, log := [] } t (.remove fid)) t env 0 true howner
      exact ⟨_, _, _, run_bind_returned hrun _⟩

end P9p.Session
