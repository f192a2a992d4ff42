/-
# `P9p.ServeConn.Draining` — the work that the loop has before it

**Work.**  Every goroutine of a connection has so much left to do:

    a request's goroutine    `Handle` runs 8, has returned 7, ended 0
    the loop                 holds a response 7, main `select` 1, returned 0
    the reader               offers a request 10, reads 1, returned 0
    the writer               writes 6, waits 1, returned 0

Each step lowers the sum, but for those by which more comes in from outside:
a request that is read, a read that is tried again, a context that is
cancelled, a connection that is closed (`Step.work_lt`).

**Tidy.**  With a client that keeps its tags apart (`Calm`), nothing ends
before its time: a goroutine that has ended is still in the table only while
the loop holds its response, and the reader, the writer and the loop return
only once the connection is down.
-/
import P9p.Lib.Tally
import P9p.ServeConn.Calm
import P9p.ServeConn.Closing

namespace P9p.Conn

open State Conc

variable {s s' : State} {a : Act}
variable {i : Nat} {h : Handler}

/-! ## Work -/

def Handler.work (h : Handler) : Nat :=
  match h.result, h.gone with
  | none, _ => 8
  | some _, false => 7
  | some _, true => 0

def ServePc.work : ServePc → Nat
  | .select => 1
  | .refusing _ | .flushing _ _ | .handing _ _ _ => 7
  | .returned _ => 0

def ReaderPc.work : ReaderPc → Nat
  | .reading => 1
  | .offering _ => 10
  | .returned => 0

def WriterPc.work : WriterPc → Nat
  | .select => 1
  | .writing _ => 6
  | .returned => 0

def State.work (s : State) : Nat :=
  (s.handlers.map Handler.work).sum + s.serve.work + s.reader.work + s.writer.work

/-- What comes in from outside. -/
def Act.fromOutside : Act → Bool
  | .readOk _ | .readRetry | .cancelCtx _ | .close _ => true
  | _ => false

/-- A goroutine that has more to do before than after. -/
theorem setHandler_work {h' : Handler} (hi : s.handlers[i]? = some h) (hlt : h'.work < h.work) :
    ((s.setHandler i h').handlers.map Handler.work).sum < (s.handlers.map Handler.work).sum := by
  have hsum := Tally.sum_map_set Handler.work hi h'
  show ((s.handlers.set i h').map Handler.work).sum < _
  omega

theorem cancel_work (i : Nat) :
    ((s.cancel i).handlers.map Handler.work).sum = (s.handlers.map Handler.work).sum := by
  have heq : (s.cancel i).handlers.map Handler.work = s.handlers.map Handler.work := by
    refine List.ext_getElem? fun j => ?_
    rw [State.cancel, List.getElem?_map, List.getElem?_modify, List.getElem?_map]
    cases s.handlers[j]? with
    | none => rfl
    | some h => by_cases hij : i = j <;> simp [hij, Handler.work]
  rw [heq]

theorem serveReturn_work (err : Err) :
    ((s.serveReturn err).handlers.map Handler.work).sum = (s.handlers.map Handler.work).sum := by
  refine Tally.sum_map_mapIdx Handler.work fun i h => ?_
  split
  · rfl
  · rfl

theorem ServePc.work_pos_of_watchesEnd {pc : ServePc} (h : pc.watchesEnd = true) :
    0 < pc.work := by
  cases pc with
  | select | refusing _ | flushing _ _ => simp [ServePc.work]
  | handing _ _ _ | returned _ => cases h

/-- `Handle` returns. -/
theorem work_handled (hr : h.result = none) (r : Except Err Message) :
    ({ h with result := some r } : Handler).work < h.work := by
  cases hg : h.gone <;> simp [Handler.work, hr, hg]

/-- The goroutine ends. -/
theorem work_ended {r : Except Err Message} (hr : h.result = some r) (hgone : h.gone = false) :
    ({ h with gone := true } : Handler).work + 7 = h.work := by
  simp [Handler.work, hr, hgone]

theorem setHandler_ended_work {r : Except Err Message} (hi : s.handlers[i]? = some h)
    (hr : h.result = some r) (hgone : h.gone = false) :
    ((s.setHandler i { h with gone := true }).handlers.map Handler.work).sum + 7 =
      (s.handlers.map Handler.work).sum := by
  have hsum := Tally.sum_map_set Handler.work hi { h with gone := true }
  have hwork := work_ended hr hgone
  show ((s.handlers.set i _).map Handler.work).sum + 7 = _
  omega

/-- Whatever is not from outside is work done. -/
theorem Step.work_lt (hstep : Step s a s') (ha : a.fromOutside = false) : s'.work < s.work := by
  cases hstep with
  | readOk _ | readRetry _ | cancelCtx _ | close => cases ha
  | readFail hr => simp [State.work, ReaderPc.work, hr]
  | readerCtxDone hr _ | readerClosed hr _ => simp [State.work, ReaderPc.work, hr]
  | refuse hr hserve _ | flushUnknown hr hserve _ _ _ =>
      simp [State.work, ReaderPc.work, ServePc.work, hr, hserve]
  | @flush req oldtag i hr hserve _ _ _ =>
      have hcancel := cancel_work (s := s) i
      simp only [State.work, State.untag, ReaderPc.work, ServePc.work, hr, hserve, hcancel]
      show _ + s.writer.work < _
      omega
  | start hr hserve _ _ =>
      simp only [State.work, State.start, List.map_append, List.map_cons, List.map_nil,
        List.sum_append, List.sum_cons, List.sum_nil, ReaderPc.work, hr, hserve]
      show _ + (8 + 0) + _ + 1 + _ < _
      omega
  | complete hserve hi hr hgone _ =>
      have hsum := setHandler_ended_work hi hr hgone
      simp only [State.work, ServePc.work, hserve]
      show _ + 7 + s.reader.work + s.writer.work < _
      omega
  | drop hserve hi hr hgone _ =>
      have hsum := setHandler_ended_work hi hr hgone
      simp only [State.work]
      show _ + s.serve.work + s.reader.work + s.writer.work < _
      omega
  | handlerCtxDone hi hr hgone _ | handlerClosed hi hr hgone _ =>
      have hsum := setHandler_ended_work hi hr hgone
      simp only [State.work]
      show _ + s.serve.work + s.reader.work + s.writer.work < _
      omega
  | sendRefusal hserve hw | sendFlush hserve hw | send hserve hw =>
      simp only [State.work, State.untag, ServePc.work, WriterPc.work, hserve, hw]
      omega
  | abandon hserve _ => simp [State.work, State.untag, ServePc.work, hserve]
  | serveCtxDone _ hwatch | serveClosed _ hwatch =>
      have hpos := ServePc.work_pos_of_watchesEnd hwatch
      simp only [State.work, serveReturn_work]
      show _ + 0 + s.reader.work + s.writer.work < _
      omega
  | @handled i h r hi hr =>
      have hlt := setHandler_work hi (work_handled hr r)
      simp only [State.work]
      show _ + s.serve.work + s.reader.work + s.writer.work < _
      exact Nat.add_lt_add_right (Nat.add_lt_add_right (Nat.add_lt_add_right hlt _) _) _
  | writeOk hw | writeRetry hw | writeFail hw | writerClosed hw _ | writerCtxDone hw _ =>
      simp [State.work, WriterPc.work, hw]

/-! ## Nothing ends before its time -/

/-- The connection is closed, or its context is done. -/
def Down (s : State) : Prop := s.closed.isSome = true ∨ s.ctxErr.isSome = true

structure Tidy (s : State) : Prop where
  reader : s.reader = .returned → s.closed.isSome = true
  writer : s.writer = .returned → s.closed.isSome = true
  serve : ∀ err, s.serve = .returned err → Down s
  cancelled : ∀ (i : Nat) (h : Handler), s.handlers[i]? = some h → h.cancelled = true → Down s
  gone : ∀ t i h, s.tags t = some i → s.handlers[i]? = some h → h.gone = true →
    (∃ resp active, s.serve = .handing resp active i) ∨ Down s

theorem tidy_init : Tidy init where
  reader := by intro h; cases h
  writer := by intro h; cases h
  serve := by intro err h; cases h
  cancelled := by intro i h hi; cases hi
  gone := by intro t i h ht; cases ht

/-- A connection that is down stays down. -/
theorem Down.step (h : Down s) (hstep : Step s a s') : Down s' := by
  have hclose : ∀ err, s.closed.isSome = true ∨ s.ctxErr.isSome = true →
      (s.closeWithError err).closed.isSome = true ∨ (s.closeWithError err).ctxErr.isSome = true :=
    fun err _ => Or.inl (closeWithError_closed s err)
  cases hstep with
  | readFail _ | readerCtxDone _ _ | writeFail _ | writerCtxDone _ _ | close => exact hclose _ h
  | cancelCtx _ => exact Or.inr rfl
  | _ => exact h

/-- A context is done only because the connection is down. -/
theorem Tidy.down_of_done (h : Tidy s) (hdone : s.done i = true) : Down s := by
  unfold State.done at hdone
  cases hctx : s.ctxErr with
  | some err => exact Or.inr (by rw [hctx]; rfl)
  | none =>
      cases hi : s.handlers[i]? with
      | none => simp [hctx, hi] at hdone
      | some hd =>
          refine h.cancelled i hd hi ?_
          simpa [hctx, hi] using hdone

/-- Once the connection is down there is little to show. -/
theorem Tidy.of_down (h : Down s) (hreader : s.reader = .returned → s.closed.isSome = true)
    (hwriter : s.writer = .returned → s.closed.isSome = true) : Tidy s :=
  ⟨hreader, hwriter, fun _ _ => h, fun _ _ _ _ => h, fun _ _ _ _ _ _ => Or.inr h⟩

/-- A step of a loop that is not down, and leaves it so. -/
theorem Tidy.frame (h : Tidy s) (hreader : s'.reader = .returned → s'.closed.isSome = true)
    (hwriter : s'.writer = .returned → s'.closed.isSome = true)
    (hserve : ∀ err, s'.serve = .returned err → Down s')
    (hdown : Down s → Down s')
    (hcancelled : ∀ (i : Nat) (hd : Handler), s'.handlers[i]? = some hd → hd.cancelled = true →
      ∃ hd', s.handlers[i]? = some hd' ∧ hd'.cancelled = true)
    (hgone : ∀ t i hd, s'.tags t = some i → s'.handlers[i]? = some hd → hd.gone = true →
      (∃ resp active, s'.serve = .handing resp active i) ∨ Down s') : Tidy s' where
  reader := hreader
  writer := hwriter
  serve := hserve
  cancelled := by
    intro i hd hi hc
    obtain ⟨hd', hi', hc'⟩ := hcancelled i hd hi hc
    exact hdown (h.cancelled i hd' hi' hc')
  gone := hgone

theorem setHandler_cases {j : Nat} {w d : Handler} (hi : s.handlers[i]? = some h)
    (hj : (s.setHandler i w).handlers[j]? = some d) :
    j = i ∧ d = w ∨ j ≠ i ∧ s.handlers[j]? = some d := by
  obtain ⟨hlt, -⟩ := List.getElem?_eq_some_iff.mp hi
  have hget : (s.handlers.set i w)[j]? = some d := hj
  rw [List.getElem?_set, if_pos hlt] at hget
  split at hget
  · rename_i hij
    cases hget
    exact Or.inl ⟨hij.symm, rfl⟩
  · rename_i hij
    exact Or.inr ⟨Ne.symm hij, hget⟩

theorem setHandler_cancelled {j : Nat} {w d : Handler} (hi : s.handlers[i]? = some h)
    (hw : w.cancelled = h.cancelled) (hj : (s.setHandler i w).handlers[j]? = some d)
    (hc : d.cancelled = true) : ∃ d', s.handlers[j]? = some d' ∧ d'.cancelled = true := by
  rcases setHandler_cases hi hj with ⟨rfl, rfl⟩ | ⟨-, hj⟩
  · exact ⟨h, hi, hw ▸ hc⟩
  · exact ⟨d, hj, hc⟩

theorem Tidy.step (h : Tidy s) (hcalm : Calm s) (ho : Orderly s a) (hstep : Step s a s') :
    Tidy s' := by
  have hsame : ∀ (i : Nat) (hd : Handler), s.handlers[i]? = some hd → hd.cancelled = true →
      ∃ hd', s.handlers[i]? = some hd' ∧ hd'.cancelled = true := fun i hd hi hc => ⟨hd, hi, hc⟩
  have hdown : Down s → Down s' := fun hd => hd.step hstep
  -- while the loop waits in its main `select`, only the end of the connection
  -- takes a goroutine away from the table
  have hselect : s.serve = .select → ∀ t i hd, s.tags t = some i → s.handlers[i]? = some hd →
      hd.gone = true → Down s := by
    intro hserve t i hd ht hi hg
    rcases h.gone t i hd ht hi hg with ⟨resp, active, hs⟩ | hd
    · rw [hserve] at hs
      cases hs
    · exact hd
  -- and while it holds a response, only that of the response may be there
  have hhanding : ∀ resp active src, s.serve = .handing resp active src → ∀ t i hd,
      (s.untag resp.tag).tags t = some i → s.handlers[i]? = some hd → hd.gone = true →
      Down s := by
    intro resp active src hserve t i hd ht hi hg
    obtain ⟨hne, ht⟩ := untag_some ht
    rcases h.gone t i hd ht hi hg with ⟨resp', active', hs⟩ | hd
    · rw [hserve] at hs
      cases hs
      obtain ⟨htag, -⟩ := hcalm.inv.handing _ _ _ hserve
      obtain ⟨req, hreq, hreqtag, -⟩ := hcalm.inv.registered t src ht
      obtain ⟨req', hreq', hreqtag', -⟩ := hcalm.inv.registered resp.tag src htag
      rw [hreq] at hreq'
      cases hreq'
      exact absurd (hreqtag.symm.trans hreqtag') hne
    · exact hd
  cases hstep with
  | readOk hr =>
      exact h.frame (by intro hr'; cases hr') h.writer h.serve hdown hsame h.gone
  | readRetry _ => exact h
  | readFail _ =>
      refine .of_down (Or.inl (closeWithError_closed s _)) (fun _ => closeWithError_closed s _)
        (fun _ => closeWithError_closed s _)
  | readerCtxDone _ _ | writeFail _ | writerCtxDone _ _ | close =>
      exact .of_down (Or.inl (closeWithError_closed s _)) (fun _ => closeWithError_closed s _)
        (fun _ => closeWithError_closed s _)
  | readerClosed _ hc =>
      have hclosed : s.closed.isSome = true := Option.isSome_of_eq_some hc
      exact .of_down (Or.inl hclosed) (fun _ => hclosed) h.writer
  | writerClosed _ hc =>
      have hclosed : s.closed.isSome = true := Option.isSome_of_eq_some hc
      exact .of_down (Or.inl hclosed) h.reader (fun _ => hclosed)
  | refuse hr _ htag =>
      rw [(ho _ hr).1] at htag
      cases htag
  | flush hr _ _ hmsg _ | flushUnknown hr _ _ hmsg _ => exact absurd hmsg ((ho _ hr).2 _)
  | sendRefusal hserve _ => exact absurd hserve (hcalm.neverRefusing _)
  | sendFlush hserve _ => exact absurd hserve (hcalm.neverFlushing _ _)
  | @start req hr hserve htag _ =>
      refine h.frame (by intro hr'; cases hr') h.writer ?_ hdown ?_ ?_
      · intro err hs
        have hs' : s.serve = .returned err := hs
        rw [hserve] at hs'
        cases hs'
      · intro i hd hi hc
        have hi' := (start_getElem? s i req).symm.trans hi
        split at hi'
        · cases hi'
          cases hc
        · exact ⟨hd, hi', hc⟩
      · intro t i hd ht hi hg
        have hi' := (start_getElem? s i req).symm.trans hi
        have ht' := (start_tags s req t).symm.trans ht
        split at hi'
        · cases hi'
          cases hg
        · rename_i hne
          split at ht'
          · cases ht'
            exact absurd rfl hne
          · exact Or.inr (hdown (hselect hserve t i hd ht' hi' hg))
  | @complete i active hd r hserve hi _ _ _ =>
      refine h.frame h.reader h.writer (by intro err hs; cases hs) hdown
        (fun j d hj hc => setHandler_cancelled hi (by rfl) hj hc) ?_
      intro t j d ht hj hg
      rcases setHandler_cases hi hj with ⟨rfl, -⟩ | ⟨-, hj⟩
      · exact Or.inl ⟨_, _, rfl⟩
      · exact Or.inr (hdown (hselect hserve t j d ht hj hg))
  | @drop i hd r hserve hi _ hgone htag =>
      rw [hcalm.live i hd hi hgone] at htag
      cases htag
  | @send resp active src hserve _ =>
      exact h.frame h.reader (by intro hw; cases hw) (by intro err hs; cases hs) hdown hsame
        (fun t i d ht hi hg => Or.inr (hdown (hhanding resp active src hserve t i d ht hi hg)))
  | @abandon resp active src hserve _ =>
      exact h.frame h.reader h.writer (by intro err hs; cases hs) hdown hsame
        (fun t i d ht hi hg => Or.inr (hdown (hhanding resp active src hserve t i d ht hi hg)))
  | serveCtxDone hc _ =>
      exact .of_down (Or.inr (Option.isSome_of_eq_some hc)) h.reader h.writer
  | serveClosed hc _ =>
      exact .of_down (Or.inl (Option.isSome_of_eq_some hc)) h.reader h.writer
  | @handled i hd r hi _ =>
      refine h.frame h.reader h.writer h.serve hdown
        (fun j d hj hc => setHandler_cancelled hi (by rfl) hj hc) ?_
      intro t j d ht hj hg
      rcases setHandler_cases hi hj with ⟨rfl, rfl⟩ | ⟨-, hj⟩
      · exact h.gone t j hd ht hi hg
      · exact h.gone t j d ht hj hg
  | handlerCtxDone _ _ _ hdone => exact .of_down (h.down_of_done hdone) h.reader h.writer
  | handlerClosed _ _ _ hc =>
      exact .of_down (Or.inl (Option.isSome_of_eq_some hc)) h.reader h.writer
  | writeOk _ | writeRetry _ =>
      exact h.frame h.reader (by intro hw; cases hw) h.serve hdown hsame h.gone
  | cancelCtx _ => exact .of_down (Or.inr rfl) h.reader h.writer

end P9p.Conn
