/-
# `P9p.ServeConn.Closing` — does the loop notice that the connection closed

The loop waits in four kinds of `select`.  Three of them have the branches
`<-c.ctx.Done()` and `<-c.closed`; the one that passes a completed response to
the writer has neither, only the context of the request it holds:

    select                      closed is noticed
    main                        yes
    Duptag answer               yes
    Rflush / ErrUnknownTag      yes
    completed response          no

When `c.closed` closes, the writer returns and receives nothing any more.  A
loop that holds a response at that moment then waits for a context that
nobody cancels: the cancel function of a registered request is called by the
loop itself only (`holding_forever`).

Proved: a closed connection leaves the loop without an enabled branch exactly
when it holds a response for a live request and the writer does not receive
(`notStuck_iff`), and a run passes through no such state exactly when none of
its steps strands the loop (`notStuck_along_iff`).  `stuck_after_close` is a
run that does.
-/
import P9p.ServeConn

namespace P9p.Conn

open State Conc

variable {s s' : State} {a : Act}

/-! ## The property -/

/-- The branches of the loop's own `select`s. -/
def Act.ofServe : Act → Bool
  | .accept | .complete _ | .handover | .abandon | .serveCtxDone | .serveClosed => true
  | _ => false

/-- If the connection is closed, the loop has returned or can take a branch of
the `select` it waits in. -/
def NotStuck (s : State) : Prop :=
  s.closed.isSome = true →
    (∃ err, s.serve = .returned err) ∨ ∃ a : Act, a.ofServe = true ∧ (step s a).isSome = true

/-- The loop holds a completed response whose request's context is not done. -/
def Holding (s : State) : Prop :=
  ∃ resp active src, s.serve = .handing resp active src ∧ s.done active = false

def Stranded (s : State) : Prop :=
  s.closed.isSome = true ∧ Holding s ∧ s.writer ≠ .select

theorem not_enabled_of_stranded (h : Stranded s) (ha : a.ofServe = true) : step s a = none := by
  obtain ⟨-, ⟨resp, active, src, hserve, hdone⟩, hw⟩ := h
  cases a with
  | accept => cases hr : s.reader <;> simp [step, hserve, hr]
  | complete i => simp [step, hserve]
  | handover =>
      cases hwr : s.writer with
      | select => exact absurd hwr hw
      | writing r => simp [step, hserve, hwr]
      | returned => simp [step, hserve, hwr]
  | abandon => simp [step, hserve, hdone]
  | serveCtxDone => cases hc : s.ctxErr <;> simp [step, hserve, hc, ServePc.watchesEnd]
  | serveClosed => cases hc : s.closed <;> simp [step, hserve, hc, ServePc.watchesEnd]
  | _ => cases ha

theorem notStuck_iff (s : State) : NotStuck s ↔ ¬ Stranded s := by
  constructor
  · intro h hs
    rcases h hs.1 with ⟨err, hret⟩ | ⟨a, ha, hen⟩
    · obtain ⟨-, ⟨resp, active, src, hserve, -⟩, -⟩ := hs
      rw [hserve] at hret
      cases hret
    · rw [not_enabled_of_stranded hs ha] at hen
      cases hen
  · intro h hclosed
    obtain ⟨err, hc⟩ := Option.isSome_iff_exists.mp hclosed
    have hend : s.serve.watchesEnd = true → (step s .serveClosed).isSome = true := by
      intro hwatch
      simp [step, hc, hwatch]
    cases hserve : s.serve with
    | returned e => exact Or.inl ⟨e, rfl⟩
    | select | refusing | flushing => exact Or.inr ⟨.serveClosed, rfl, hend (by rw [hserve]; rfl)⟩
    | handing resp active src =>
        by_cases hw : s.writer = .select
        · exact Or.inr ⟨.handover, rfl, by simp [step, hserve, hw]⟩
        · have hdone : s.done active = true := by
            by_contra hlive
            exact h ⟨hclosed, ⟨resp, active, src, hserve, Bool.eq_false_iff.mpr hlive⟩, hw⟩
          exact Or.inr ⟨.abandon, rfl, by simp [step, hserve, hdone]⟩

/-! ## Steps that strand the loop -/

/-- In state `s` the action takes the writer, or the connection, away from a
loop that holds a response; or the loop takes a response from `completed`
when they are gone. -/
def Strands (s : State) : Act → Prop
  | .close _ | .readFail _ => Holding s ∧ s.writer ≠ .select
  | .writeFail _ | .writerClosed => Holding s
  | .complete i => s.closed.isSome = true ∧ s.writer ≠ .select ∧
      ∃ req active, s.req? i = some req ∧ s.tags req.tag = some active ∧ s.done active = false
  | _ => False

theorem Holding.of_eq (h : Holding s) (hserve : s'.serve = s.serve)
    (hdone : ∀ i, s'.done i = s.done i) : Holding s' := by
  simpa only [Holding, hserve, hdone] using h

/-- A step that leaves the loop where it is strands it only by closing the
connection or by taking the writer away. -/
theorem Stranded.back (h : Stranded s') (hserve : s'.serve = s.serve)
    (hdone : ∀ i, s'.done i = s.done i) (hclosed : s'.closed = s.closed)
    (hw : s.writer = .select → s'.writer = .select) : Stranded s :=
  ⟨hclosed ▸ h.1, h.2.1.of_eq hserve.symm fun i => (hdone i).symm, fun hsel => h.2.2 (hw hsel)⟩

/-- Once the connection is closed, the loop is stranded if it holds a response
and nobody receives it. -/
theorem stranded_iff_of_closed (s : State) (hclosed : s'.closed.isSome = true)
    (hserve : s'.serve = s.serve) (hdone : ∀ i, s'.done i = s.done i) :
    Stranded s' ↔ Holding s ∧ s'.writer ≠ .select :=
  ⟨fun h => ⟨h.2.1.of_eq hserve.symm fun i => (hdone i).symm, h.2.2⟩,
    fun h => ⟨hclosed, h.1.of_eq hserve hdone, h.2⟩⟩

theorem not_holding_of_ctxErr {err : Err} (h : s.ctxErr = some err) : ¬ Holding s := by
  rintro ⟨resp, active, src, -, hdone⟩
  rw [done_of_ctxErr h] at hdone
  cases hdone

theorem not_holding_of_serve (h : ∀ resp active src, s.serve ≠ .handing resp active src) :
    ¬ Holding s := by
  rintro ⟨resp, active, src, hserve, -⟩
  exact h resp active src hserve

theorem stranded_step (h : ¬ Stranded s) (hstep : Step s a s') : Stranded s' ↔ Strands s a := by
  cases hstep with
  | readOk _ | readRetry _ | readerClosed _ _ =>
      exact ⟨fun hs => h (hs.back rfl (fun _ => rfl) rfl id), False.elim⟩
  | writeOk _ | writeRetry _ =>
      exact ⟨fun hs => h (hs.back rfl (fun _ => rfl) rfl fun _ => rfl), False.elim⟩
  | handled hi _ | handlerCtxDone hi _ _ _ | handlerClosed hi _ _ _ =>
      exact ⟨fun hs => h (hs.back rfl (setHandler_done hi rfl) rfl id), False.elim⟩
  | cancelCtx _ =>
      exact ⟨fun hs => absurd hs.2.1 (not_holding_of_ctxErr rfl), False.elim⟩
  | readerCtxDone _ herr | writerCtxDone _ herr =>
      exact ⟨fun hs => absurd hs.2.1
        (not_holding_of_ctxErr ((closeWithError_ctxErr _ _).trans herr)), False.elim⟩
  | refuse _ _ _ | flush _ _ _ _ _ | flushUnknown _ _ _ _ _ | sendRefusal _ _ | sendFlush _ _
  | send _ _ | abandon _ _ | serveCtxDone _ _ | serveClosed _ _ =>
      exact ⟨fun hs => absurd hs.2.1 (not_holding_of_serve (by simp [serveReturn])), False.elim⟩
  | start _ hserve _ _ =>
      exact ⟨fun hs => absurd hs.2.1 (not_holding_of_serve (by simp [State.start, hserve])),
        False.elim⟩
  | readFail _ | close =>
      refine (stranded_iff_of_closed s ?_ (closeWithError_serve s _)
        fun j => closeWithError_done s j _).trans ?_
      · exact closeWithError_closed s _
      · simp only [closeWithError_writer]
        exact Iff.rfl
  | writeFail _ =>
      refine Iff.trans (stranded_iff_of_closed s (closeWithError_closed s _)
        (closeWithError_serve s _) fun j => closeWithError_done s j _) (and_iff_left ?_)
      simp
  | writerClosed _ hc =>
      refine Iff.trans (stranded_iff_of_closed s (Option.isSome_of_eq_some hc) rfl fun _ => rfl)
        (and_iff_left ?_)
      simp
  | drop hserve hi hr _ htag =>
      constructor
      · intro hs
        exact absurd hs.2.1 (not_holding_of_serve (by simp [setHandler, hserve]))
      · rintro ⟨-, -, req, active, hreq, htag', -⟩
        rw [req?_of_getElem? hi] at hreq
        cases hreq
        rw [htag] at htag'
        cases htag'
  | @complete i active hd r hserve hi hr _ htag =>
      have hdone : ∀ j, (s.setHandler i { hd with gone := true }).done j = s.done j :=
        setHandler_done hi rfl
      constructor
      · rintro ⟨hc, ⟨resp, active', src, hs, hlive⟩, hw⟩
        cases hs
        exact ⟨hc, hw, hd.req, active, req?_of_getElem? hi, htag, (hdone active).symm.trans hlive⟩
      · rintro ⟨hc, hw, req, active', hreq, htag', hlive⟩
        rw [req?_of_getElem? hi] at hreq
        cases hreq
        rw [htag] at htag'
        cases htag'
        exact ⟨hc, ⟨_, active, i, rfl, (hdone active).trans hlive⟩, hw⟩

/-- In a run from the start, the loop of a closed connection has returned or
has an enabled branch in every state, exactly when no step strands it. -/
theorem notStuck_along_iff (acts : List Act) (s : State) (hrun : exec step init acts = some s) :
    Along step NotStuck init acts ↔ Guarded step (fun s a => ¬ Strands s a) init acts := by
  refine along_iff_guarded ?_ acts ?_ hrun
  · intro t a t' ht hstep
    rw [notStuck_iff] at ht ⊢
    exact not_congr (stranded_step ht (step_cases hstep))
  · intro hclosed
    cases hclosed

/-- The connection closes while the loop is at its main `select`. -/
def quietClose : List Act :=
  [.readOk (newFcall 1 (.tclunk 6)), .accept, .handled 0 (.ok .rclunk), .complete 0, .handover,
    .writeOk, .readFail .eof, .serveClosed]

theorem notStuck_quietClose :
    ∃ s, exec step init quietClose = some s ∧ s.serve = .returned
        (.other (lit "error reading fcall: " ++ Err.error .eof)) ∧
      Along step NotStuck init quietClose := by
  refine ⟨_, rfl, rfl, (notStuck_along_iff quietClose _ rfl).mpr ?_⟩
  -- only the completion and the failed read are steps that could strand it
  refine guarded_cons id rfl <| guarded_cons id rfl <| guarded_cons id rfl <|
    guarded_cons ?_ rfl <| guarded_cons id rfl <| guarded_cons id rfl <| guarded_cons ?_ rfl <|
    guarded_cons id rfl trivial
  · intro h
    cases h.1
  · intro h
    exact h.2 rfl

/-! ## Stuck for good -/

theorem holding_step (h : Holding s) (hw : s.writer = .returned)
    (hctx : ∀ err, a ≠ .cancelCtx err) (hstep : Step s a s') :
    s'.serve = s.serve ∧ Holding s' ∧ s'.writer = .returned := by
  -- no branch of the loop or the writer is enabled, and the others change neither
  cases hstep with
  | readOk _ | readRetry _ | readerClosed _ _ =>
      exact ⟨rfl, h.of_eq rfl fun _ => rfl, hw⟩
  | handled hi _ | handlerCtxDone hi _ _ _ | handlerClosed hi _ _ _ =>
      exact ⟨rfl, h.of_eq rfl (setHandler_done hi rfl), hw⟩
  | readFail _ | readerCtxDone _ _ | close =>
      exact ⟨closeWithError_serve s _, h.of_eq (closeWithError_serve s _)
        fun j => closeWithError_done s j _, (closeWithError_writer s _).trans hw⟩
  | cancelCtx _ => exact absurd rfl (hctx _)
  | writeOk hwr | writeRetry hwr | writeFail hwr | writerCtxDone hwr _ | writerClosed hwr _
  | sendRefusal _ hwr | sendFlush _ hwr | send _ hwr =>
      rw [hw] at hwr
      cases hwr
  | refuse _ hserve _ | flush _ hserve _ _ _ | flushUnknown _ hserve _ _ _ | start _ hserve _ _
  | complete hserve _ _ _ _ | drop hserve _ _ _ _ =>
      exact absurd h (not_holding_of_serve (by simp [hserve]))
  | serveCtxDone _ hwatch | serveClosed _ hwatch =>
      refine absurd h (not_holding_of_serve fun resp active src hserve => ?_)
      rw [hserve] at hwatch
      cases hwatch
  | abandon hserve hdone =>
      obtain ⟨resp, active, src, hserve', hlive⟩ := h
      rw [hserve] at hserve'
      cases hserve'
      rw [hdone] at hlive
      cases hlive

/-- Once the writer has returned, a loop that holds a response holds it
until `c.ctx` is cancelled from outside. -/
theorem holding_forever (acts : List Act) {t : State} (h : Holding s) (hw : s.writer = .returned)
    (hctx : ∀ err, .cancelCtx err ∉ acts) (hrun : exec step s acts = some t) :
    t.serve = s.serve ∧ Holding t := by
  induction acts generalizing s with
  | nil =>
      cases hrun
      exact ⟨rfl, h⟩
  | cons a acts ih =>
      obtain ⟨s', hs', hrun'⟩ := exec_cons_eq_some hrun
      obtain ⟨hserve, hh, hw'⟩ := holding_step h hw
        (fun err heq => hctx err (heq ▸ List.mem_cons_self)) (step_cases hs')
      obtain ⟨hserve', ht⟩ := ih hh hw' (fun err hm => hctx err (List.mem_cons_of_mem _ hm)) hrun'
      exact ⟨hserve'.trans hserve, ht⟩

/-- The connection closes while the loop holds the answer to the `Tclunk`. -/
def strandedRun : List Act :=
  [.readOk (newFcall 1 (.tclunk 6)), .accept, .handled 0 (.ok .rclunk), .complete 0,
    .readFail .eof, .writerClosed]

/-- The connection is closed, the writer has returned, `c.ctx` is not done,
and the loop has no enabled branch, whatever the other goroutines do. -/
theorem stuck_after_close :
    ∃ s, exec step init strandedRun = some s ∧ s.closed.isSome = true ∧ s.writer = .returned ∧
      s.ctxErr = none ∧ s.serve = .handing (newFcall 1 .rclunk) 0 0 ∧ ¬ NotStuck s ∧
      ∀ acts t, (∀ err, .cancelCtx err ∉ acts) → exec step s acts = some t →
        t.serve = .handing (newFcall 1 .rclunk) 0 0 := by
  refine ⟨_, rfl, rfl, rfl, rfl, rfl, ?_, ?_⟩
  · rw [notStuck_iff, not_not]
    exact ⟨rfl, ⟨_, 0, 0, rfl, rfl⟩, by simp⟩
  · intro acts t hctx hrun
    exact (holding_forever acts ⟨_, 0, 0, rfl, rfl⟩ rfl hctx hrun).1

end P9p.Conn
