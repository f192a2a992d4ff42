/-
# Requests one at a time

From the empty table, `serve` runs request after request, each to its end.
Each is a sequence of moves of the ledger (`serve_moves`).

**Dirents.**  They are conserved: once `Stop` has visited every fid, each that
was obtained has been released exactly once (`released_after_stop`).

**Files.**  An open file belongs to the entry of its fid, as long as no fid is
walked in place while it is open (`files_belong`).  `Walk` does not check this:
`walksOpen_reads` is a session in which `Read` reaches a file of a `Dirent` that
was clunked.
-/
import P9p.Session.Transaction

namespace P9p.Session

open Conc Books

variable {s s' : Store} {t n : Nat} {env : Nat → Env}
variable {b b' : Books} {r : Ret} {fid : Fid} {log : List Event}

/-! ## Serving requests -/

inductive Request where
  | call (op : Op)
  | stop (err : Option Err) (fids : List Fid)

def Request.prog : Request → M Ret
  | .call op => op.prog
  | .stop err fids => Session.stop err fids

def Request.start (s : Store) (t : Nat) : Request → Store
  | .call op => Session.start s t op
  | .stop _ _ => s

/-- The store, and the number of requests served. -/
structure Served where
  store : Store
  count : Nat

/-- Serve a request to its end; undefined if it does not return. -/
def serve (s : Served) (a : Request × (Nat → Env)) : Option Served :=
  match run exec s.count a.2 a.1.prog (a.1.start s.store s.count) 0 with
  | .returned _ store _ => some ⟨store, s.count + 1⟩
  | .crashed _ | .blocked _ _ => none

def unserved : Served := ⟨init, 0⟩

variable {a : Request × (Nat → Env)} {u u' : Served}

theorem serve_returns (h : serve u a = some u') :
    ∃ r, Returns (CanExec exec u.count) a.1.prog (a.1.start u.store u.count) r u'.store := by
  simp only [serve] at h
  split at h
  · rename_i r store n hrun
    cases h
    exact ⟨r, .of_run hrun⟩
  · cases h
  · cases h

/-! ## Stop -/

/-- `Range` visits a fid: whatever else happens, no `Dirent` is left there. -/
theorem run_sweep (s : Store) (t : Nat) (env : Nat → Env) (n : Nat) (fid : Fid) :
    ∃ s' n', run exec t env (sweep fid) s n = .returned () s' n' := by
  cases href : s.refs fid with
  | none =>
      refine ⟨s, n + 1, (run_then rfl).trans ?_⟩
      rw [href]
      rfl
  | some ref =>
      cases hent : (s.sfid ref).ent with
      | none =>
          refine ⟨s, n + 2, (run_then rfl).trans ?_⟩
          rw [href]
          refine (run_then rfl).trans ?_
          rw [hent]
          rfl
      | some d =>
          obtain ⟨err, s', n', hrun, -⟩ := run_delRefAction t env (n + 2) false hent
          refine ⟨s', n', (run_then rfl).trans ?_⟩
          rw [href]
          refine (run_then rfl).trans ?_
          rw [hent]
          exact run_bind_returned hrun _

theorem run_stop (s : Store) (t : Nat) (env : Nat → Env) (n : Nat) (err : Option Err)
    (fids : List Fid) :
    ∃ s' n', run exec t env (stop err fids) s n = .returned (.done err) s' n' := by
  induction fids generalizing s n with
  | nil => exact ⟨s, n, rfl⟩
  | cons fid fids ih =>
      obtain ⟨s₁, n₁, hsweep⟩ := run_sweep s t env n fid
      obtain ⟨s', n', hrest⟩ := ih s₁ n₁
      exact ⟨s', n', (run_bind_returned hsweep _).trans hrest⟩

/-- What every visit keeps, `Stop` keeps. -/
theorem ran_stop {P : Books → Prop} {err : Option Err} {fids : List Fid}
    (h : Ran t (stop err fids) b r b') (hb : P b)
    (hsweep : ∀ fid ∈ fids, ∀ {b b'}, P b → Ran t (sweep fid) b () b' → P b') : P b' := by
  induction fids generalizing b with
  | nil =>
      obtain ⟨-, rfl⟩ := returns_ret h
      exact hb
  | cons fid fids ih =>
      obtain ⟨⟨⟩, b₁, hfid, hrest⟩ := returns_bind h
      exact ih hrest (hsweep fid List.mem_cons_self hb hfid)
        fun fid' hm => hsweep fid' (List.mem_cons_of_mem fid hm)

/-- A visit takes the `Dirent` away and leaves everything else. -/
def Entries.sweep (E : Entries) (fid : Fid) : Entries :=
  Function.update E fid ((E fid).map fun e => { e with ent := none })

theorem sweep_entries (h : Ran t (sweep fid) b () b') : b'.entries = b.entries.sweep fid := by
  obtain ⟨⟨m, ⟨rfl, hnone⟩ | ⟨d, rfl⟩, he⟩, -⟩ := sweep_effect h
  · rw [he.entries, Move.apply, Entries.sweep]
    refine (Function.update_eq_self_iff.mpr ?_).symm
    cases hfid : b.entries fid with
    | none => rfl
    | some e =>
        have hnone : (b.entries fid).bind Entry.ent = none := hnone
        rw [hfid] at hnone
        exact congrArg (fun ent => some { e with ent }) hnone.symm
  · exact he.entries

theorem Entries.sweep_ent (E : Entries) (fid : Fid) :
    (E.sweep fid).ent = Function.update E.ent fid none := by
  refine (Ledger.ent_update E fid _).trans (congrArg (Function.update E.ent fid) ?_)
  cases E fid <;> rfl

theorem Entries.sweep_file (E : Entries) (fid : Fid) : (E.sweep fid).file = E.file := by
  refine (Function.comp_update ..).trans (Function.update_eq_self_iff.mpr ?_)
  show ((E fid).map _).bind Entry.file = (E fid).bind Entry.file
  cases E fid <;> rfl

/-- `Stop` leaves no `Dirent` in a fid that it visits. -/
theorem stop_ent {err : Option Err} {fids : List Fid} (h : Ran t (stop err fids) b r b')
    (hfid : fid ∈ fids ∨ b.entries.ent fid = none) : b'.entries.ent fid = none := by
  have hkeep : ∀ {b b' : Books} {fid'}, b.entries.ent fid = none → Ran t (sweep fid') b () b' →
      b'.entries.ent fid = none := by
    intro b b' fid' hnone hsweep
    rw [sweep_entries hsweep, Entries.sweep_ent, Function.update_apply, hnone, ite_self]
  induction fids generalizing b with
  | nil => exact ran_stop h (hfid.resolve_left nofun) fun _ _ => hkeep
  | cons fid' fids ih =>
      obtain ⟨⟨⟩, b₁, hsweep, hrest⟩ := returns_bind h
      refine ih hrest ?_
      rcases hfid with hfid | hnone
      · refine (List.mem_cons.mp hfid).symm.imp id ?_
        rintro rfl
        rw [sweep_entries hsweep, Entries.sweep_ent, Function.update_self]
      · exact Or.inr (hkeep hnone hsweep)

/-! ## Requests are moves of the ledger -/

/-- The fid is not open. -/
def Entries.Shut (E : Entries) (fid : Fid) : Prop := E.ent fid = none ∨ E.file fid = none

/-- No fid is walked in place while it is open, and none is open when `Stop`
visits it. -/
def Request.Lawful (E : Entries) : Request → Prop
  | call (.walk fid newfid names) => newfid = fid → names ≠ [] → E.Shut fid
  | call _ => True
  | stop _ fids => ∀ fid ∈ fids, E.Shut fid

/-- A lawful request makes a lawful move. -/
theorem Op.Explains.lawful {op : Op} {E : Entries} {m : Move} (h : op.Explains t log r m)
    (hop : (Request.call op).Lawful E) (hen : m.Enabled E) : m.Lawful E := by
  rcases h with ⟨-, -, rfl⟩ | ⟨-, hdoes⟩
  · trivial
  · cases op with
    | walk fid newfid names =>
        obtain ⟨qs, -, ⟨-, rfl⟩ | ⟨-, d, -, ⟨-, rfl⟩ | ⟨heq, hnames, d₀, rfl⟩⟩⟩ := hdoes
        · trivial
        · trivial
        · refine (hop heq hnames).resolve_left fun hnone => ?_
          cases hen.symm.trans hnone
    | auth afid uname aname =>
        obtain ⟨rfl, -⟩ | ⟨f, rfl⟩ := hdoes <;> trivial
    | attach fid afid uname aname =>
        obtain ⟨d, rfl⟩ := hdoes
        trivial
    | clunk fid | remove fid =>
        obtain ⟨d, rfl⟩ := hdoes
        trivial
    | «open» fid mode =>
        obtain ⟨d, f, rfl⟩ := hdoes
        trivial
    | create parent name perm mode =>
        obtain ⟨d, d', f, rfl⟩ := hdoes
        trivial
    | read _ _ _ | write _ _ _ | stat _ | wstat _ _ =>
        cases hdoes
        trivial

theorem Entries.Shut.sweep {E : Entries} (h : E.Shut fid) (fid' : Fid) :
    (E.sweep fid').Shut fid := by
  refine h.imp (fun hnone => ?_) fun hnone => ?_
  · rw [Entries.sweep_ent, Function.update_apply, hnone, ite_self]
  · rw [Entries.sweep_file, hnone]

/-- From `b` to `b'` in moves of the ledger.  If `law`, then all are lawful. -/
inductive Moves (law : Prop) : Books → Books → Prop where
  | refl (b : Books) : Moves law b b
  | move {b b₁ b' : Books} {m : Move} (h : Moves law b b₁) (he : Effect b₁ m b')
      (hf : Fresh b₁ b') (hm : law → m.Lawful b₁.entries) : Moves law b b'

/-- The start of an operation changes nothing in the ledger. -/
theorem start_effect (hs : s.Distinct) (t : Nat) (op : Op) :
    Effect (s.books hs) .keep ((start s t op).books hs) where
  enabled := trivial
  entries := rfl
  obtained := (obtained_record s.log rfl).trans (List.append_nil _).symm
  released := (released_record s.log rfl).trans (List.append_nil _).symm
  log := List.subset_append_left _ _
  refs _ _ := Or.inl
  opens := nofun
  auths := nofun

theorem start_fresh (hs : s.Distinct) (t : Nat) (op : Op) :
    Fresh (s.books hs) ((start s t op).books hs) :=
  ⟨Nat.le_refl _, [], (obtained_record s.log rfl).trans (List.append_nil _).symm, nofun⟩

/-- Every request is served in moves of the ledger; a lawful one, in lawful
moves. -/
theorem serve_moves (hserve : serve u a = some u') (hs : u.store.Distinct) :
    ∃ hs', Moves (a.1.Lawful u.store.entries) (u.store.books hs) (u'.store.books hs') := by
  obtain ⟨r, hret⟩ := serve_returns hserve
  obtain ⟨req, env⟩ := a
  cases req with
  | call op =>
      have hop : .invoked u.count op ∈ (Session.start u.store u.count op).log :=
        List.mem_append_right _ (List.mem_singleton_self _)
      obtain ⟨hs', m, hm, he, -⟩ := op.effect (s := Session.start u.store u.count op) hs hop hret
      obtain ⟨_, hran⟩ := books_returns hret hs
      have hstart : Moves ((Request.call op).Lawful u.store.entries) (u.store.books hs) _ :=
        .move (.refl _) (start_effect hs u.count op) (start_fresh hs u.count op) fun _ => trivial
      exact ⟨hs', hstart.move he (ran_fresh hran) fun hlaw => hm.lawful hlaw he.enabled⟩
  | stop err fids =>
      obtain ⟨hs', hran⟩ := books_returns hret hs
      -- the fids that are shut stay so
      let P := fun b => Moves ((Request.stop err fids).Lawful u.store.entries)
        (u.store.books hs) b ∧
        ((Request.stop err fids).Lawful u.store.entries → ∀ fid ∈ fids, b.entries.Shut fid)
      have hP : P (u'.store.books hs') := by
        refine ran_stop hran ⟨.refl _, id⟩ ?_
        rintro fid hfid b b' ⟨hmoves, hshut⟩ hsweep
        obtain ⟨⟨m, hm, he⟩, -⟩ := sweep_effect hsweep
        refine ⟨hmoves.move he (ran_fresh hsweep) fun hlaw => ?_, fun hlaw fid' hfid' => ?_⟩
        · rcases hm with ⟨rfl, -⟩ | ⟨d, rfl⟩
          · trivial
          · refine (hshut hlaw fid hfid).resolve_left fun hnone => ?_
            cases he.enabled.symm.trans hnone
        · rw [sweep_entries hsweep]
          exact (hshut hlaw fid' hfid').sweep fid
      exact ⟨hs', hP.1⟩

/-! ## Dirents are conserved -/

/-- The books are sound, and every `Dirent` obtained so far has a number below
that of the next. -/
structure Balanced (b : Books) : Prop where
  sound : b.ledger.custody.Sound
  old : ∀ d ∈ obtained b.log, d < b.calls

theorem Balanced.init : ∃ hs, Balanced (init.books hs) := ⟨nofun, Custody.Sound.empty, nofun⟩

theorem Balanced.moves {law : Prop} (hb : Balanced b) (h : Moves law b b') : Balanced b' := by
  induction h with
  | refl => exact hb
  | move _ he hf _ ih =>
      refine ⟨(he.step hf ih.old).sound ih.sound, ?_⟩
      obtain ⟨es, heq, hes⟩ := hf.obtained
      intro d hd
      rw [heq] at hd
      rcases List.mem_append.mp hd with hd | hd
      · exact Nat.lt_of_lt_of_le (ih.old d hd) hf.calls
      · exact (hes d hd).2

theorem Balanced.serve (h : ∃ hs, Balanced (u.store.books hs)) (hserve : serve u a = some u') :
    ∃ hs, Balanced (u'.store.books hs) := by
  obtain ⟨hs, hb⟩ := h
  obtain ⟨hs', hmoves⟩ := serve_moves hserve hs
  exact ⟨hs', hb.moves hmoves⟩

/-- A session that serves any requests and then `Stop`, which visits at least
the fids in the table, has released every `Dirent` it obtained exactly once. -/
theorem released_after_stop (reqs : List (Request × (Nat → Env))) {u : Served}
    (hrun : Conc.exec serve unserved reqs = some u) (err : Option Err) (fids : List Fid)
    (hfids : ∀ fid, u.store.refs fid ≠ none → fid ∈ fids) (env : Nat → Env) :
    ∃ u', serve u (.stop err fids, env) = some u' ∧
      (obtained u'.store.log).Nodup ∧ released u'.store.log ⊆ obtained u'.store.log ∧
      ∀ d ∈ obtained u'.store.log, (released u'.store.log).count d = 1 := by
  have hinv := exec_invariant (C := fun _ _ => True) (fun hI _ hs => Balanced.serve hI hs) reqs
    Balanced.init (guarded_of_forall (fun _ _ => trivial) _ _) hrun
  obtain ⟨s', n', hstop⟩ := run_stop u.store u.count env 0 err fids
  have hserve : serve u (.stop err fids, env) = some ⟨s', u.count + 1⟩ := by
    simp only [serve, Request.prog, Request.start, hstop]
  obtain ⟨hs', hb⟩ := Balanced.serve hinv hserve
  obtain ⟨hs, -⟩ := hinv
  obtain ⟨_, hran⟩ := books_returns (Returns.of_run hstop) hs
  refine ⟨_, hserve, hb.sound.obtained, hb.sound.sub, hb.sound.released_once fun fid => ?_⟩
  refine stop_ent hran ?_
  cases href : u.store.refs fid with
  | none => exact Or.inr (Ledger.ent_none (congrArg (Option.map _) href))
  | some ref => exact Or.inl (hfids fid (by rw [href]; exact nofun))

/-- Requests, all to the agreeable file system. -/
def agreeably (ops : List Op) : List (Request × (Nat → Env)) :=
  ops.map fun op => (.call op, fun _ => agreeable)

/-- `Attach` of fid 1, a clone of it as fid 2, which is walked in place, and
where a file is created. -/
def someCreate : List Op :=
  [.attach 1 noFid [] [], .walk 1 2 [], .walk 2 2 [lit "a"], .create 2 (lit "b") 0 0]

theorem released_after_stop_someCreate :
    ∃ u u', Conc.exec serve unserved (agreeably someCreate) = some u ∧
      serve u (.stop none [1, 2], fun _ => agreeable) = some u' ∧
      (obtained u'.store.log).length = 4 ∧
      ∀ d ∈ obtained u'.store.log, (released u'.store.log).count d = 1 := by
  obtain ⟨u, hu⟩ : ∃ u, Conc.exec serve unserved (agreeably someCreate) = some u := ⟨_, rfl⟩
  have hfids : ∀ fid, u.store.refs fid ≠ none → fid ∈ [1, 2] := by
    cases hu
    intro fid hfid
    by_contra hnot
    rw [List.mem_cons, List.mem_singleton, not_or] at hnot
    refine hfid ((Function.update_of_ne hnot.2 ..).trans ?_)
    exact Function.update_of_ne hnot.1 ..
  obtain ⟨u', hstop, -, -, hcount⟩ :=
    released_after_stop _ hu none [1, 2] hfids fun _ => agreeable
  refine ⟨u, u', hu, hstop, ?_, hcount⟩
  cases hu
  cases hstop
  rfl

/-! ## Files belong to their entries -/

/-- `f` was opened for the `Dirent` of the entry, in the mode of the entry. -/
def Entry.Owns (log : List Event) (e : Entry) (f : File) : Prop :=
  ∃ d, e.ent = some d ∧ OpenedFor log d f e.mode

/-- The fid that `Read` or `Write` is about. -/
def Op.transfers : Op → Option Fid
  | read fid _ _ | write fid _ _ => some fid
  | _ => none

/-- The open file of a fid belongs to its entry, and so does every file that
`Read` or `Write` of that fid would reach. -/
structure FilesBelong (u : Served) : Prop where
  file : ∀ {fid ref f}, u.store.refs fid = some ref → ¬ IsAuthRef u.store.log ref →
    (u.store.sfid ref).file = some f → (u.store.sfid ref).entry.Owns u.store.log f
  reached : ∀ {fid ref op env r s' n t c f}, u.store.refs fid = some ref →
    ¬ IsAuthRef u.store.log ref → op.transfers = some fid →
    run exec u.count env op.prog (start u.store u.count op) 0 = .returned r s' n →
    .enter t c ∈ s'.log.drop u.store.log.length → c.file = some f →
    (u.store.sfid ref).entry.Owns u.store.log f

def ServesLawful (u : Served) (a : Request × (Nat → Env)) : Prop := a.1.Lawful u.store.entries

instance (E : Entries) (fid : Fid) : Decidable (E.Shut fid) := inferInstanceAs (Decidable (_ ∨ _))

instance (E : Entries) : (req : Request) → Decidable (req.Lawful E)
  | .call (.walk fid newfid names) =>
      inferInstanceAs (Decidable (newfid = fid → names ≠ [] → E.Shut fid))
  | .stop _ fids => inferInstanceAs (Decidable (∀ fid ∈ fids, E.Shut fid))
  | .call (.auth ..) | .call (.attach ..) | .call (.clunk _) | .call (.remove _)
  | .call (.read ..) | .call (.write ..) | .call (.open ..) | .call (.create ..)
  | .call (.stat _) | .call (.wstat ..) => isTrue trivial

instance (u : Served) (a : Request × (Nat → Env)) : Decidable (ServesLawful u a) :=
  inferInstanceAs (Decidable (a.1.Lawful u.store.entries))

theorem Moves.filesBelong {law : Prop} (h : Moves law b b') (hlaw : law) (hb : Balanced b)
    (hfiles : b.ledger.FilesBelong) : b'.ledger.FilesBelong := by
  induction h with
  | refl => exact hfiles
  | move hmoves he hf hm ih =>
      exact (he.step hf (hb.moves hmoves).old).filesBelong (hm hlaw) ih

theorem filesBelong_serve
    (h : ∃ hs, Balanced (u.store.books hs) ∧ (u.store.books hs).ledger.FilesBelong)
    (hlaw : ServesLawful u a) (hserve : serve u a = some u') :
    ∃ hs, Balanced (u'.store.books hs) ∧ (u'.store.books hs).ledger.FilesBelong := by
  obtain ⟨hs, hb, hfiles⟩ := h
  obtain ⟨hs', hmoves⟩ := serve_moves hserve hs
  exact ⟨hs', hb.moves hmoves, hmoves.filesBelong hlaw hb hfiles⟩

/-- A call of `Read` or `Write` is on the open file of the fid. -/
theorem transfer_reaches {op : Op} (hop : op.transfers = some fid) (hs : s.Distinct)
    (h : Returns (CanExec exec t) op.prog (start s t op) r s') {t' : Nat} {c : Call} {f : File}
    (hc : .enter t' c ∈ s'.log.drop s.log.length) (hf : c.file = some f) :
    s.entries.file fid = some f := by
  obtain ⟨hs', hran⟩ := books_returns h hs
  -- the calls of the operation, after the event of its start
  have hcall : ∀ (c₀ : Call) (res : c₀.Res) {f₀ : File}, c₀.file = some f₀ →
      s'.books hs' = ((start s t op).books hs).called t c₀ res → f₀ = f := by
    intro c₀ res f₀ hf₀ heq
    have hlog : s'.log = s.log ++ ([.invoked t op] ++ [.enter t c₀] ++ [.leave t c₀ res]) := by
      rw [← List.append_assoc, ← List.append_assoc]
      exact congrArg Books.log heq
    rw [hlog, List.drop_left] at hc
    simp only [List.cons_append, List.nil_append, List.mem_cons, List.not_mem_nil, or_false,
      reduceCtorEq, false_or] at hc
    cases hc
    exact Option.some.inj (hf₀.symm.trans hf)
  have hnone : (start s t op).books hs ≠ s'.books hs' := by
    intro heq
    have hlog : s'.log = s.log ++ [.invoked t op] := (congrArg Books.log heq).symm
    rw [hlog, List.drop_left] at hc
    cases List.mem_singleton.mp hc
  cases op with
  | read fid len offset =>
      cases hop
      rcases ran_transfer hran with heq | ⟨f₀, a, hfile, hio⟩
      · exact absurd heq hnone
      · cases hcall (.read f₀ len offset) a rfl (ran_call hio).2
        exact hfile
  | write fid p offset =>
      cases hop
      rcases ran_transfer hran with heq | ⟨f₀, a, hfile, hio⟩
      · exact absurd heq hnone
      · cases hcall (.write f₀ p offset) a rfl (ran_call hio).2
        exact hfile
  | _ => cases hop

/-- In a session all of whose requests are lawful, files belong to their
entries. -/
theorem files_belong (reqs : List (Request × (Nat → Env))) {u : Served}
    (hg : Guarded serve ServesLawful unserved reqs)
    (hrun : Conc.exec serve unserved reqs = some u) : FilesBelong u := by
  have hinit : ∃ hs, Balanced (init.books hs) ∧ (init.books hs).ledger.FilesBelong := by
    obtain ⟨hs, hb⟩ := Balanced.init
    exact ⟨hs, hb, nofun⟩
  obtain ⟨hs, -, hfiles⟩ := exec_invariant filesBelong_serve reqs hinit hg hrun
  have howns : ∀ {fid ref f}, u.store.refs fid = some ref → ¬ IsAuthRef u.store.log ref →
      (u.store.sfid ref).file = some f → (u.store.sfid ref).entry.Owns u.store.log f := by
    intro fid ref f href hauth hf
    refine (hfiles fid _ f (congrArg (Option.map _) href) hf).resolve_left ?_
    rintro ⟨ref', href', hauth'⟩
    cases href.symm.trans href'
    exact hauth hauth'
  refine ⟨howns, ?_⟩
  intro fid ref op env r s' n t c f href hauth hop hret hc hf
  have hfile := transfer_reaches hop hs (Returns.of_run hret) hc hf
  refine howns href hauth ?_
  have hfile : ((u.store.refs fid).map _).bind Entry.file = some f := hfile
  rw [href] at hfile
  exact hfile

/-- Fid 2 is walked in place before it is opened, and is read; fid 1 is walked
in place while fid 2 is open. -/
def walksThenReads : List Op :=
  [.attach 1 noFid [] [], .walk 1 2 [], .walk 2 2 [lit "a"], .open 2 ordwr, .read 2 1 0,
    .walk 1 1 [lit "b"]]

theorem files_belong_walksThenReads :
    ∃ u, Conc.exec serve unserved (agreeably walksThenReads) = some u ∧
      u.store.refs 2 = some 1 ∧ (u.store.sfid 1).file ≠ none ∧ FilesBelong u :=
  ⟨_, rfl, rfl, nofun, files_belong (agreeably walksThenReads) (by decide +kernel) rfl⟩

/-! ## A file that does not belong -/

/-- Fid 1 is opened, and then walked in place. -/
def walksOpen : List Op :=
  [.attach 1 noFid [] [], .open 1 ordwr, .walk 1 1 [lit "a"]]

/-- The event is the return of a call that may open a file for `d`. -/
def Event.opensFor (d : Nat) : Event → Bool
  | leave _ (.open d' _) _ | leave _ (.openDir d') _ => d' = d
  | leave _ (.create _ _ _ _) (d', _, _) => d' = some d
  | _ => false

theorem OpenedFor.any {d : Nat} {f : File} {mode : Flag} (h : OpenedFor log d f mode) :
    log.any (Event.opensFor d) = true := by
  rw [List.any_eq_true]
  obtain ⟨t, h | ⟨h, -⟩ | ⟨p, name, perm, h⟩⟩ := h
  · exact ⟨_, h, decide_eq_true rfl⟩
  · exact ⟨_, h, decide_eq_true rfl⟩
  · exact ⟨_, h, decide_eq_true rfl⟩

def Event.startsAuth : Event → Bool
  | invoked _ op => op.isAuth
  | _ => false

theorem IsAuthRef.any {ref : Nat} (h : IsAuthRef log ref) : log.any Event.startsAuth = true := by
  obtain ⟨t, fid, op, hop, hauth, -⟩ := h
  exact List.any_eq_true.mpr ⟨_, hop, hauth⟩

/-- Fid 1 stands for the `Dirent` that was walked to, for which no file was
opened, and `Read` reaches the file of the one that was attached. -/
theorem walksOpen_reads :
    ∃ u, Conc.exec serve unserved (agreeably walksOpen) = some u ∧
      u.store.refs 1 = some 0 ∧ (u.store.sfid 0).entry = ⟨some 6, some ⟨3, .readdir⟩, ordwr⟩ ∧
      OpenedFor u.store.log 0 ⟨3, .readdir⟩ ordwr ∧
      (∃ r s' n, run exec u.count (fun _ => agreeable) (Op.read 1 1 0).prog
        (start u.store u.count (.read 1 1 0)) 0 = .returned r s' n ∧
        .enter u.count (.read ⟨3, .readdir⟩ 1 0) ∈ s'.log.drop u.store.log.length) ∧
      ¬ FilesBelong u := by
  obtain ⟨u, hu⟩ : ∃ u, Conc.exec serve unserved (agreeably walksOpen) = some u := ⟨_, rfl⟩
  have href : u.store.refs 1 = some 0 := by
    cases hu
    rfl
  have hentry : (u.store.sfid 0).entry = ⟨some 6, some ⟨3, .readdir⟩, ordwr⟩ := by
    cases hu
    rfl
  have hlog : u.store.log.any (Event.opensFor 6) = false ∧
      u.store.log.any Event.startsAuth = false := by
    cases hu
    exact ⟨rfl, rfl⟩
  refine ⟨u, hu, href, hentry, ?_, ?_, fun h => ?_⟩
  · cases hu
    exact ⟨1, Or.inr (Or.inl ⟨List.mem_of_getElem? (i := 10) rfl, .open 1 ordwr,
      List.mem_of_getElem? (i := 6) rfl, rfl⟩)⟩
  · cases hu
    exact ⟨_, _, _, rfl, List.mem_of_getElem? (i := 1) rfl⟩
  · have hauth : ¬ IsAuthRef u.store.log 0 := fun h => Bool.eq_false_iff.mp hlog.2 h.any
    obtain ⟨d, hd, hopened⟩ := h.file href hauth (congrArg Entry.file hentry)
    cases (congrArg Entry.ent hentry).symm.trans hd
    exact Bool.eq_false_iff.mp hlog.1 hopened.any

end P9p.Session
