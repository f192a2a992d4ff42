/-
# `P9p.ServeConn.Contexts` — who calls the cancel functions

The loop makes a context for every request that it registers, and keeps the
cancel function in the table.  A request leaves the table in three ways:

    flush         tags.remove          the cancel function is called
    loop exit     deferred function    the cancel functions are called
    completion    delete(tags, ..)     it is not

**One would have** that a context that was not cancelled belongs to a request in
the table.  After the first response it is not so: nobody has its cancel
function any more (`Leaked.step`), and the context lives as long as that of the
connection (`completed_leaks`).

**When it is** (`noneLeaked_iff`): as long as no completed response was passed on
or given up.
-/
import P9p.ServeConn

namespace P9p.Conn

open State Conc

/-! ## The property -/

/-- Whether the cancel function of request `i` has been called. -/
def State.cancelled? (s : State) (i : Nat) : Option Bool := s.handlers[i]?.map (·.cancelled)

/-- The context of request `i` was not cancelled by its cancel function. -/
def Live (s : State) (i : Nat) : Prop := s.cancelled? i = some false

/-- It was not, and the request is not in the table. -/
def Leaked (s : State) (i : Nat) : Prop := Live s i ∧ ∀ t, s.tags t ≠ some i

def NoneLeaked (s : State) : Prop := ∀ i, Live s i → ∃ t, s.tags t = some i

theorem noneLeaked_iff_forall {s : State} : NoneLeaked s ↔ ∀ i, ¬ Leaked s i := by
  refine forall_congr' fun i => ?_
  rw [Leaked, not_and]
  simp only [not_forall, not_not]

/-- The step takes a request out of the table because it is completed. -/
def Retires (s : State) : Act → Prop
  | .handover | .abandon => ∃ resp active src, s.serve = .handing resp active src
  | _ => False

instance (s : State) : DecidablePred (Retires s)
  | .handover | .abandon =>
      match h : s.serve with
      | .handing resp active src => isTrue ⟨resp, active, src, h⟩
      | .select | .refusing _ | .flushing _ _ | .returned _ =>
          isFalse fun ⟨_, _, _, heq⟩ => nomatch h.symm.trans heq
  | .readOk _ | .readRetry | .readFail _ | .readerCtxDone | .readerClosed | .accept | .complete _
  | .serveCtxDone | .serveClosed | .handled _ _ | .handlerCtxDone _ | .handlerClosed _ | .writeOk
  | .writeRetry | .writeFail _ | .writerCtxDone | .writerClosed | .cancelCtx _ | .close _ =>
      isFalse id

/-! ## The flags after an update -/

section Flags

variable {s : State} {i j : Nat}

theorem cancelled?_congr {s' : State} (h : s'.handlers = s.handlers) :
    s'.cancelled? j = s.cancelled? j := by
  rw [cancelled?, h, cancelled?]

theorem setHandler_cancelled? {h h' : Handler} (hi : s.handlers[i]? = some h)
    (hc : h'.cancelled = h.cancelled) : (s.setHandler i h').cancelled? j = s.cancelled? j := by
  obtain ⟨hlt, rfl⟩ := List.getElem?_eq_some_iff.mp hi
  by_cases hij : i = j
  · subst hij
    simp [cancelled?, setHandler, hlt, hc]
  · simp [cancelled?, setHandler, hij]

theorem live_cancel : Live (s.cancel i) j ↔ Live s j ∧ i ≠ j := by
  simp only [Live, cancelled?, State.cancel, List.getElem?_modify]
  by_cases hij : i = j <;> cases s.handlers[j]? <;> simp [hij]

theorem live_serveReturn {err : Err} :
    Live (s.serveReturn err) j ↔
      ∃ h, s.handlers[j]? = some h ∧ h.cancelled = false ∧ s.tags h.req.tag ≠ some j := by
  rw [Live, cancelled?, serveReturn_getElem?, Option.map_map]
  cases s.handlers[j]? with
  | none => simp
  | some h => simp

theorem live_start {req : Fcall} : Live (s.start req) j ↔ Live s j ∨ j = s.handlers.length := by
  rw [Live, cancelled?, start_getElem?]
  split
  · rename_i heq
    exact ⟨fun _ => Or.inr heq, fun _ => rfl⟩
  · rename_i hne
    exact ⟨Or.inl, fun h => h.resolve_right hne⟩

theorem live_lt (h : Live s j) : j < s.handlers.length := by
  by_contra hlt
  rw [Live, cancelled?, List.getElem?_eq_none (Nat.le_of_not_lt hlt)] at h
  cases h

end Flags

/-! ## The table -/

/-- A registered request has its own tag, and is not cancelled while the loop
runs; a completed response is that of a registered request. -/
structure Table (s : State) : Prop where
  tag : ∀ t i, s.tags t = some i → ∃ req, s.req? i = some req ∧ req.tag = t
  live : (∀ err, s.serve ≠ .returned err) → ∀ t i, s.tags t = some i → Live s i
  handing : ∀ resp active src, s.serve = .handing resp active src → s.tags resp.tag = some active

theorem table_init : Table init where
  tag := by intro t i h; cases h
  live := by intro _ t i h; cases h
  handing := by intro resp active src h; cases h

section Step

variable {s s' : State} {a : Act}

/-- A request is registered once. -/
theorem Table.unique (h : Table s) {t t' : Tag} {i : Nat} (ht : s.tags t = some i)
    (ht' : s.tags t' = some i) : t = t' := by
  obtain ⟨req, hreq, rfl⟩ := h.tag t i ht
  obtain ⟨req', hreq', rfl⟩ := h.tag t' i ht'
  rw [Option.some.inj (hreq.symm.trans hreq')]

/-- What a step does to the table and to the flags. -/
inductive Change (s : State) (a : Act) (s' : State) : Prop where
  | keep (tags : s'.tags = s.tags) (live : ∀ j, Live s' j ↔ Live s j) (retires : ¬ Retires s a)
      (running : ∀ err, s.serve = .returned err → s'.serve = .returned err)
      (handing : ∀ resp active src, s'.serve = .handing resp active src →
        s.serve = .handing resp active src ∨ s.tags resp.tag = some active)
  | start (req : Fcall) (tags : s'.tags = (s.start req).tags) (free : s.tags req.tag = none)
      (new : s'.req? s.handlers.length = some req)
      (live : ∀ j, Live s' j ↔ Live s j ∨ j = s.handlers.length) (serve : s'.serve = .select)
      (running : s.serve = .select) (retires : ¬ Retires s a)
  | flush (t : Tag) (i : Nat) (old : s.tags t = some i) (tags : s'.tags = (s.untag t).tags)
      (live : ∀ j, Live s' j ↔ Live s j ∧ i ≠ j) (running : s.serve = .select)
      (serve : ∀ resp active src, s'.serve ≠ .handing resp active src) (retires : ¬ Retires s a)
  | retire (resp : Fcall) (active src : Nat) (serve : s.serve = .handing resp active src)
      (tags : s'.tags = (s.untag resp.tag).tags) (live : ∀ j, Live s' j ↔ Live s j)
      (running : s'.serve = .select) (retires : Retires s a)
  | exit (tags : s'.tags = s.tags)
      (live : ∀ j, Live s' j ↔ ∃ h, s.handlers[j]? = some h ∧ h.cancelled = false ∧
        s.tags h.req.tag ≠ some j)
      (serve : ∃ err, s'.serve = .returned err) (retires : ¬ Retires s a)

theorem live_iff (h : ∀ j, s'.cancelled? j = s.cancelled? j) (j : Nat) : Live s' j ↔ Live s j := by
  rw [Live, h j, Live]

/-- A step that leaves the loop where it is, and the table and the flags alone. -/
theorem Change.still (htags : s'.tags = s.tags) (hc : ∀ j, s'.cancelled? j = s.cancelled? j)
    (hserve : s'.serve = s.serve) (hr : ¬ Retires s a) : Change s a s' :=
  .keep htags (live_iff hc) hr (fun _ h => hserve.trans h)
    fun _ _ _ h => Or.inl (hserve.symm.trans h)

theorem Step.change (hstep : Step s a s') : Change s a s' := by
  cases hstep with
  | readOk _ | readRetry _ | readerClosed _ _ | writeOk _ | writeRetry _ | writerClosed _ _
  | cancelCtx _ => exact .still rfl (fun _ => rfl) rfl nofun
  | readFail _ | readerCtxDone _ _ | writeFail _ | writerCtxDone _ _ | close =>
      exact .still (closeWithError_tags s _)
        (fun _ => cancelled?_congr (closeWithError_handlers s _)) (closeWithError_serve s _) nofun
  | handled hi _ | handlerCtxDone hi _ _ _ | handlerClosed hi _ _ _ | drop _ hi _ _ _ =>
      exact .still rfl (fun _ => setHandler_cancelled? hi rfl) rfl nofun
  | refuse _ hserve _ | flushUnknown _ hserve _ _ _ =>
      exact .keep rfl (fun _ => Iff.rfl) id (fun err h => nomatch hserve.symm.trans h)
        (by intro _ _ _ h; cases h)
  | sendRefusal hserve _ | sendFlush hserve _ =>
      refine .keep rfl (fun _ => Iff.rfl) ?_ (fun err h => nomatch hserve.symm.trans h)
        (by intro _ _ _ h; cases h)
      rintro ⟨resp, active, src, h⟩
      cases hserve.symm.trans h
  | @complete i active h r hserve hi _ _ htag =>
      refine .keep rfl (live_iff fun _ => setHandler_cancelled? hi rfl) nofun
        (fun err h => nomatch hserve.symm.trans h) ?_
      intro resp active' src heq
      cases heq
      exact Or.inr ((respond_tag h.req r).symm ▸ htag)
  | @start req _ hserve hfree _ =>
      have hnew := (start_req? s s.handlers.length req).trans (if_pos rfl)
      exact .start req rfl hfree hnew (fun _ => live_start) hserve hserve nofun
  | flush _ hserve _ _ hold =>
      exact .flush _ _ hold rfl (fun _ => live_cancel) hserve (by intro _ _ _ h; cases h) id
  | send hserve _ => exact .retire _ _ _ hserve rfl (fun _ => Iff.rfl) rfl ⟨_, _, _, hserve⟩
  | abandon hserve _ => exact .retire _ _ _ hserve rfl (fun _ => Iff.rfl) rfl ⟨_, _, _, hserve⟩
  | serveCtxDone _ _ | serveClosed _ _ =>
      exact .exit rfl (fun _ => live_serveReturn) ⟨_, rfl⟩ nofun

/-- The request of a goroutine stays. -/
theorem Step.req? (hstep : Step s a s') {i : Nat} {req : Fcall} (h : s.req? i = some req) :
    s'.req? i = some req := by
  have hlt := req?_eq_some_lt h
  cases hstep with
  | readFail _ | readerCtxDone _ _ | writeFail _ | writerCtxDone _ _ | close =>
      rwa [State.req?, closeWithError_handlers]
  | handled hi _ | handlerCtxDone hi _ _ _ | handlerClosed hi _ _ _ | drop _ hi _ _ _
  | complete _ hi _ _ _ => exact (setHandler_req? hi (by rfl) i).trans h
  | start _ _ _ _ => exact (start_req? s i _).trans ((if_neg (Nat.ne_of_lt hlt)).trans h)
  | flush _ _ _ _ _ => exact (cancel_req? s _ i).trans h
  | serveCtxDone _ _ | serveClosed _ _ => exact (serveReturn_req? s i _).trans h
  | _ => exact h

theorem start_eq_some {req : Fcall} {t : Tag} {i : Nat} (h : (s.start req).tags t = some i) :
    (t = req.tag ∧ i = s.handlers.length) ∨ s.tags t = some i := by
  rw [start_tags] at h
  split at h
  · cases h
    exact Or.inl ⟨‹_›, rfl⟩
  · exact Or.inr h

theorem Table.step (h : Table s) (hstep : Step s a s') : Table s' := by
  have htag : ∀ t i, s.tags t = some i → ∃ req, s'.req? i = some req ∧ req.tag = t := by
    intro t i ht
    obtain ⟨req, hreq, heq⟩ := h.tag t i ht
    exact ⟨req, hstep.req? hreq, heq⟩
  cases hstep.change with
  | keep tags live retires running handing =>
      refine ⟨fun t i ht => htag t i (tags ▸ ht), ?_, ?_⟩
      · intro hrun t i ht
        exact (live i).mpr (h.live (fun err he => hrun err (running err he)) t i (tags ▸ ht))
      · intro resp active src hserve
        rw [tags]
        exact (handing resp active src hserve).elim (h.handing resp active src) id
  | start req tags free new live serve running retires =>
      have hrun : ∀ err, s.serve ≠ .returned err := fun err he => nomatch running.symm.trans he
      refine ⟨?_, ?_, fun resp active src hserve => nomatch serve.symm.trans hserve⟩
      · intro t i ht
        rcases start_eq_some (tags ▸ ht) with ⟨rfl, rfl⟩ | ht
        · exact ⟨req, new, rfl⟩
        · exact htag t i ht
      · intro _ t i ht
        rcases start_eq_some (tags ▸ ht) with ⟨-, rfl⟩ | ht
        · exact (live _).mpr (Or.inr rfl)
        · exact (live i).mpr (Or.inl (h.live hrun t i ht))
  | flush t i old tags live running serve retires =>
      have hrun : ∀ err, s.serve ≠ .returned err := fun err he => nomatch running.symm.trans he
      refine ⟨?_, ?_, fun resp active src hserve => absurd hserve (serve resp active src)⟩
      · intro t' j ht
        exact htag t' j (untag_some (tags ▸ ht)).2
      · intro _ t' j ht
        obtain ⟨hne, ht⟩ := untag_some (tags ▸ ht)
        refine (live j).mpr ⟨h.live hrun t' j ht, ?_⟩
        rintro rfl
        exact hne (h.unique ht old)
  | retire resp active src serve tags live running retires =>
      have hrun : ∀ err, s.serve ≠ .returned err := fun err he => nomatch serve.symm.trans he
      refine ⟨?_, ?_, fun resp active src hserve => nomatch running.symm.trans hserve⟩
      · intro t' j ht
        exact htag t' j (untag_some (tags ▸ ht)).2
      · intro _ t' j ht
        exact (live j).mpr (h.live hrun t' j (untag_some (tags ▸ ht)).2)
  | exit tags live serve retires =>
      obtain ⟨err, serve⟩ := serve
      refine ⟨fun t i ht => htag t i (tags ▸ ht), fun hrun => absurd serve (hrun err), ?_⟩
      intro resp active src hserve
      cases serve.symm.trans hserve

/-! ## Leaks -/

/-- What is leaked stays so: only the loop calls cancel functions, and it takes
them from the table. -/
theorem Leaked.step {i : Nat} (h : Leaked s i) (hstep : Step s a s') : Leaked s' i := by
  obtain ⟨hlive, hout⟩ := h
  cases hstep.change with
  | keep tags live => exact ⟨(live i).mpr hlive, tags ▸ hout⟩
  | start req tags free new live =>
      refine ⟨(live i).mpr (Or.inl hlive), fun t ht => ?_⟩
      rcases start_eq_some (tags ▸ ht) with ⟨-, heq⟩ | ht
      · exact absurd (live_lt hlive) (heq ▸ Nat.lt_irrefl _)
      · exact hout t ht
  | flush t j old tags live =>
      refine ⟨(live i).mpr ⟨hlive, ?_⟩, fun t' ht => hout t' (untag_some (tags ▸ ht)).2⟩
      rintro rfl
      exact hout t old
  | retire resp active src serve tags live =>
      exact ⟨(live i).mpr hlive, fun t' ht => hout t' (untag_some (tags ▸ ht)).2⟩
  | exit tags live =>
      obtain ⟨h, hi, hc⟩ := Option.map_eq_some_iff.mp hlive
      exact ⟨(live i).mpr ⟨h, hi, hc, hout _⟩, tags ▸ hout⟩

/-- From a state without leaks, a step leads to one with a leak exactly if it
takes out a completed request. -/
theorem noneLeaked_step (ht : Table s) (h : NoneLeaked s) (hstep : Step s a s') :
    NoneLeaked s' ↔ ¬ Retires s a := by
  cases hstep.change with
  | keep tags live retires =>
      refine ⟨fun _ => retires, fun _ i hi => ?_⟩
      rw [tags]
      exact h i ((live i).mp hi)
  | start req tags free new live serve running retires =>
      refine ⟨fun _ => retires, fun _ i hi => ?_⟩
      rw [tags]
      rcases (live i).mp hi with hi | rfl
      · obtain ⟨t, ht'⟩ := h i hi
        refine ⟨t, (start_tags s req t).trans ((if_neg ?_).trans ht')⟩
        rintro rfl
        cases free.symm.trans ht'
      · exact ⟨req.tag, (start_tags s req _).trans (if_pos rfl)⟩
  | flush t j old tags live running serve retires =>
      refine ⟨fun _ => retires, fun _ i hi => ?_⟩
      obtain ⟨hi, hne⟩ := (live i).mp hi
      obtain ⟨t', ht'⟩ := h i hi
      refine ⟨t', ?_⟩
      rw [tags, untag_tags, if_neg ?_]
      · exact ht'
      · rintro rfl
        exact hne (Option.some.inj (old.symm.trans ht'))
  | retire resp active src serve tags live running retires =>
      refine ⟨fun hnone => ?_, fun hr => absurd retires hr⟩
      have hactive := ht.handing resp active src serve
      have hlive := ht.live (fun err he => nomatch serve.symm.trans he) _ _ hactive
      obtain ⟨t, hreg⟩ := hnone active ((live active).mpr hlive)
      obtain ⟨hne, hreg⟩ := untag_some (tags ▸ hreg)
      exact absurd (ht.unique hreg hactive) hne
  | exit tags live serve retires =>
      refine ⟨fun _ => retires, fun _ i hi => ?_⟩
      obtain ⟨hd, hi, hc, hout⟩ := (live i).mp hi
      obtain ⟨t, hreg⟩ := h i (Option.map_eq_some_iff.mpr ⟨hd, hi, hc⟩)
      obtain ⟨req, hreq, rfl⟩ := ht.tag t i hreg
      rw [req?_of_getElem? hi] at hreq
      cases hreq
      exact absurd hreg hout

end Step

/-- **Contexts and the table.**  After a run from the start, every context whose
cancel function was not called belongs to a request in the table, exactly if no
step of the run took out a completed request. -/
theorem noneLeaked_iff (acts : List Act) (s : State) (hrun : exec step init acts = some s) :
    NoneLeaked s ↔ Guarded step (fun s a => ¬ Retires s a) init acts := by
  refine exec_iff_guarded (I := Table) ?_ ?_ ?_ acts table_init (fun i hi => nomatch hi) hrun
  · exact fun h hs => h.step (step_cases hs)
  · exact fun htable h hs => noneLeaked_step htable h (step_cases hs)
  · intro s a s' h hs hnone
    rw [noneLeaked_iff_forall] at h hnone
    exact h fun i hi => hnone i (hi.step (step_cases hs))

/-- A request is flushed, and another one is waiting for its handler. -/
def flushedRun : List Act :=
  [.readOk (newFcall 1 (.tclunk 6)), .accept, .readOk (newFcall 2 (.tflush 1)), .accept, .handover,
    .readOk (newFcall 1 (.tclunk 7)), .accept]

theorem noneLeaked_flushed : ∃ s, exec step init flushedRun = some s ∧ NoneLeaked s :=
  ⟨_, rfl, (noneLeaked_iff flushedRun _ rfl).mpr (by decide)⟩

/-- The `Tclunk` of the connection's first request is answered. -/
def answeredRun : List Act :=
  [.readOk (newFcall 1 (.tclunk 6)), .accept, .handled 0 (.ok .rclunk), .complete 0, .handover]

/-- Its context is not cancelled, and it is not in the table; the loop runs on,
and whatever happens then, the cancel function is not called. -/
theorem completed_leaks :
    ∃ s, exec step init answeredRun = some s ∧ s.serve = .select ∧ ¬ NoneLeaked s ∧
      ∀ acts t, exec step s acts = some t → Live t 0 := by
  obtain ⟨s, hrun, hserve, hleaked⟩ :
      ∃ s, exec step init answeredRun = some s ∧ s.serve = .select ∧ Leaked s 0 := by
    refine ⟨_, rfl, rfl, rfl, fun t ht => ?_⟩
    obtain ⟨hne, ht⟩ := untag_some ht
    rcases start_eq_some ht with ⟨heq, -⟩ | ht
    · exact hne heq
    · cases ht
  refine ⟨s, hrun, hserve, fun h => noneLeaked_iff_forall.mp h 0 hleaked, fun acts t ht => ?_⟩
  exact (reachable_invariant (I := fun s => Leaked s 0) (fun hI hs => hI.step (step_cases hs))
    hleaked ⟨acts, ht⟩).1

end P9p.Conn
