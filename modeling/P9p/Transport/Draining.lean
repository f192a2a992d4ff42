/-
# `P9p.Transport.Draining` — the work that the client's side has before it

**Work**, as in `P9p.ServeConn.Draining`:

    a call of `send`    wants a tag 13, waits for its answer 1, returned 0
    `handle`            writes a request 12, main `select` 1, ended 0
    the reader          offers a response 4, reads 1, returned 0

**Heard.**  Who waits will hear: a request that waits with nothing in its
channels is outstanding under some tag, so that an answer to that tag is an
answer to it; a reader that has returned has told `handle` to end; and who has
returned had reason to.
-/
import P9p.Lib.Tally
import P9p.Transport

namespace P9p.Transport

open State Conc

variable {s s' : State} {a : Act}
variable {r : Nat} {q : Request}

/-! ## Work -/

def SendPc.work : SendPc → Nat
  | .dispatching => 13
  | .waiting => 1
  | .returned _ => 0

def HandlePc.work : HandlePc → Nat
  | .select => 1
  | .writing _ _ => 12
  | .returned | .panicked _ => 0

def ReaderPc.work : ReaderPc → Nat
  | .reading => 1
  | .offering _ => 4
  | .returned => 0

def requestsWork (l : List Request) : Nat := (l.map fun q => q.pc.work).sum

def State.work (s : State) : Nat := requestsWork s.requests + s.handle.work + s.reader.work

/-- What comes in from outside. -/
def Act.fromOutside : Act → Bool
  | .call _ | .cancel _ _ | .readOk _ | .readRetry | .cancelCtx _ | .close => true
  | _ => false

theorem requestsWork_set {l : List Request} (hq : l[r]? = some q) (w : Request) :
    requestsWork (l.set r w) + q.pc.work = requestsWork l + w.pc.work :=
  Tally.sum_map_set (fun q : Request => q.pc.work) hq w

/-- What is sent to a request changes nothing of what it has to do. -/
theorem requestsWork_modify (l : List Request) (r : Nat) {g : Request → Request}
    (hg : ∀ q, (g q).pc = q.pc) : requestsWork (l.modify r g) = requestsWork l := by
  cases hq : l[r]? with
  | none => rw [List.modify_eq_self (List.getElem?_eq_none_iff.mp hq)]
  | some q =>
      have hset := requestsWork_set hq (g q)
      rw [hg q] at hset
      rw [modify_eq_set hq]
      omega

theorem SendPc.work_pos {pc : SendPc} (h : ∀ o, pc ≠ .returned o) : 0 < pc.work := by
  cases pc with
  | dispatching | waiting => simp [SendPc.work]
  | returned o => exact absurd rfl (h o)

/-- A call of `send` returns. -/
theorem setRequest_work_lt (hq : s.requests[r]? = some q) (hpc : ∀ o, q.pc ≠ .returned o)
    (o : Outcome) : (s.setRequest r { q with pc := .returned o }).work < s.work := by
  have hset := requestsWork_set hq { q with pc := .returned o }
  have hpos := SendPc.work_pos hpc
  have hzero : (SendPc.returned o).work = 0 := rfl
  simp only [State.work, setRequest]
  rw [hzero] at hset
  omega

/-- Whatever is not from outside is work done. -/
theorem Step.work_lt (hstep : Step s a s') (ha : a.fromOutside = false) : s'.work < s.work := by
  cases hstep with
  | call | cancel _ _ | readOk _ | readRetry _ | cancelCtx _ | close => cases ha
  | sendClosed hq hpc _ | sendCtxDone hq hpc _ => exact setRequest_work_lt hq hpc _
  | sendErr hq hpc _ | sendResponse hq hpc _ =>
      exact setRequest_work_lt hq (by simp [hpc]) _
  | @depleted r q err hh hq hpc _ =>
      have hset := requestsWork_set hq { q with pc := .waiting }
      simp only [State.work, State.fail, setRequest]
      rw [requestsWork_modify _ _ (by intro q; rfl)]
      simp only [hpc, SendPc.work] at hset
      omega
  | @dispatch r q t hh hq hpc _ =>
      have hset := requestsWork_set hq { q with pc := .waiting }
      simp only [hpc, SendPc.work] at hset
      simp only [State.work, setRequest, HandlePc.work, hh]
      omega
  | writeOk hw => simp [State.work, HandlePc.work, hw]
  | writeFail hw =>
      simp only [State.work, State.fail, HandlePc.work, hw]
      rw [requestsWork_modify _ _ (by intro q; rfl)]
      omega
  | unknownTag hh hr _ =>
      simp only [State.work, HandlePc.work, ReaderPc.work, hh, hr]
      omega
  | deliver hh hr _ =>
      simp only [State.work, State.respond, ReaderPc.work, hr]
      rw [requestsWork_modify _ _ (by intro q; rfl)]
      omega
  | handleShutdown hh _ | handleCtxDone hh _ => simp [State.work, HandlePc.work, hh]
  | readFail hr => simp [State.work, readerReturn, ReaderPc.work, hr]
  | readerCtxDone hr _ | readerClosed hr _ => simp [State.work, readerReturn, ReaderPc.work, hr]

/-! ## Who waits will hear -/

/-- `handle` has been told to end, or has panicked. -/
def Gone (s : State) : Prop :=
  s.shutdown = true ∨ s.ctxErr.isSome = true ∨ ∃ b, s.handle = .panicked b

/-- Why a call of `send` ends with this outcome. -/
def Outcome.Reason (s : State) (q : Request) : Outcome → Prop
  | .closed => Gone s
  | .ctxDone e => q.ctxErr = some e
  | .err e => e ∈ q.err
  | .response resp => resp ∈ q.response

structure Heard (s : State) : Prop where
  reader : s.reader = .returned → s.shutdown = true
  handle : s.closed = true → Gone s
  waiting : ∀ (r : Nat) (q : Request), s.requests[r]? = some q → q.pc = .waiting →
    q.response = [] → q.err = [] → ∃ t, s.outstanding.lookup t = some r
  reason : ∀ (r : Nat) (q : Request) o, s.requests[r]? = some q → q.pc = .returned o →
    o.Reason s q

theorem heard_init : Heard init where
  reader := by intro h; cases h
  handle := by intro h; cases h
  waiting := by intro r q hq; cases hq
  reason := by intro r q o hq; cases hq

theorem Gone.step (h : Gone s) (hstep : Step s a s') : Gone s' := by
  -- a panicked `handle` takes no step
  have hpanic : s.handle = .select ∨ (∃ r f, s.handle = .writing r f) →
      s.shutdown = true ∨ s.ctxErr.isSome = true := by
    intro hh
    rcases h with hs | hc | ⟨b, hb⟩
    · exact Or.inl hs
    · exact Or.inr hc
    · rw [hb] at hh
      rcases hh with hh | ⟨r, f, hh⟩ <;> cases hh
  cases hstep with
  | depleted hh _ _ _ | dispatch hh _ _ _ | unknownTag hh _ _ | deliver hh _ _
  | handleShutdown hh _ | handleCtxDone hh _ => exact (hpanic (Or.inl hh)).imp id Or.inl
  | writeOk hw | writeFail hw => exact (hpanic (Or.inr ⟨_, _, hw⟩)).imp id Or.inl
  | readFail _ | readerCtxDone _ _ | readerClosed _ _ | close => exact Or.inl rfl
  | cancelCtx _ => exact Or.inr (Or.inl rfl)
  | _ => exact h

theorem Outcome.Reason.mono {q' : Request} {o : Outcome} (h : o.Reason s q)
    (hgone : Gone s → Gone s') (hctx : ∀ err, q.ctxErr = some err → q'.ctxErr = some err)
    (herr : q.err ⊆ q'.err) (hresp : q.response ⊆ q'.response) : o.Reason s' q' := by
  cases o with
  | closed => exact hgone h
  | ctxDone err => exact hctx err h
  | err err => exact herr h
  | response resp => exact hresp h

/-- One request changes.  It does not begin to wait, or has been answered, or
has a tag; the others keep theirs. -/
theorem Heard.set (h : Heard s) {w : Request} (hq : s.requests[r]? = some q)
    (hreq : s'.requests = s.requests.set r w)
    (hreader : s'.reader = .returned → s'.shutdown = true) (hhandle : s'.closed = true → Gone s')
    (hgone : Gone s → Gone s')
    (hkeep : ∀ t r', r' ≠ r → s.outstanding.lookup t = some r' →
      s'.outstanding.lookup t = some r')
    (hself : w.pc = .waiting → w.response = [] → w.err = [] →
      ∃ t, s'.outstanding.lookup t = some r) (hreason : ∀ o, w.pc = .returned o → o.Reason s' w) :
    Heard s' := by
  have hget : ∀ {r' p}, s'.requests[r']? = some p →
      r' = r ∧ p = w ∨ r' ≠ r ∧ s.requests[r']? = some p := by
    intro r' p hp
    have hif : s'.requests[r']? = if r = r' then some w else s.requests[r']? := by
      rw [hreq]
      exact setRequest_get hq w r'
    rw [hif] at hp
    split at hp
    · rename_i heq
      cases hp
      exact Or.inl ⟨heq.symm, rfl⟩
    · rename_i hne
      exact Or.inr ⟨Ne.symm hne, hp⟩
  refine ⟨hreader, hhandle, ?_, ?_⟩
  · intro r' p hp hpc hresp herr
    rcases hget hp with ⟨rfl, rfl⟩ | ⟨hne, hp⟩
    · exact hself hpc hresp herr
    · obtain ⟨t, ht⟩ := h.waiting r' p hp hpc hresp herr
      exact ⟨t, hkeep t r' hne ht⟩
  · intro r' p o hp hpc
    rcases hget hp with ⟨-, rfl⟩ | ⟨-, hp⟩
    · exact hreason o hpc
    · exact (h.reason r' p o hp hpc).mono hgone (fun _ hc => hc) (List.Subset.refl _)
        (List.Subset.refl _)

/-- The requests and their tags stay as they are. -/
theorem Heard.frame (h : Heard s) (hreq : s'.requests = s.requests)
    (hout : s'.outstanding = s.outstanding)
    (hreader : s'.reader = .returned → s'.shutdown = true) (hhandle : s'.closed = true → Gone s')
    (hgone : Gone s → Gone s') : Heard s' where
  reader := hreader
  handle := hhandle
  waiting := by
    rw [hreq, hout]
    exact h.waiting
  reason := by
    intro r q o hq hpc
    rw [hreq] at hq
    exact (h.reason r q o hq hpc).mono hgone (fun _ hc => hc) (List.Subset.refl _)
      (List.Subset.refl _)

theorem Heard.call (h : Heard s) (c : Call) :
    Heard { s with requests := s.requests ++ [⟨c, none, .dispatching, [], []⟩] } := by
  have hget : ∀ {r : Nat} {q : Request},
      (s.requests ++ [⟨c, none, .dispatching, [], []⟩])[r]? = some q →
      s.requests[r]? = some q ∨ q.pc = .dispatching := by
    intro r q hq
    by_cases hlt : r < s.requests.length
    · rw [List.getElem?_append_left hlt] at hq
      exact Or.inl hq
    · rw [List.getElem?_append_right (by omega)] at hq
      cases List.mem_singleton.mp (List.mem_of_getElem? hq)
      exact Or.inr rfl
  refine ⟨h.reader, h.handle, ?_, ?_⟩
  · intro r q hq hpc
    rcases hget hq with hq | hd
    · exact h.waiting r q hq hpc
    · rw [hd] at hpc
      cases hpc
  · intro r q o hq hpc
    rcases hget hq with hq | hd
    · exact h.reason r q o hq hpc
    · rw [hd] at hpc
      cases hpc

/-- The request that is answered gives its tag back; the others keep theirs. -/
theorem erase_keeps {t : Tag} (ht : s.outstanding.lookup t = some r) (t' : Tag) (r' : Nat)
    (hne : r' ≠ r) (ht' : s.outstanding.lookup t' = some r') :
    (s.outstanding.erase t).lookup t' = some r' := by
  rw [AList.lookup_erase_ne, ht']
  intro heq
  rw [heq, ht] at ht'
  cases ht'
  exact hne rfl

theorem Heard.step (h : Heard s) (hinv : Inv s) (hstep : Step s a s') : Heard s' := by
  have hgone : Gone s → Gone s' := fun hg => hg.step hstep
  have hreader := h.reader
  have hhandle : s.closed = true → Gone s' := fun hc => hgone (h.handle hc)
  cases hstep with
  | @call c => exact h.call c
  | @cancel r q err hq hnone =>
      refine h.set hq rfl hreader hhandle hgone (fun _ _ _ ht => ht)
        (fun hpc => h.waiting r q hq hpc) ?_
      intro o hpc
      refine (h.reason r q o hq hpc).mono hgone ?_ (List.Subset.refl _) (List.Subset.refl _)
      intro err' hc
      rw [hnone] at hc
      cases hc
  | sendClosed hq _ hc =>
      refine h.set hq rfl hreader hhandle hgone (fun _ _ _ ht => ht) (by intro hpc; cases hpc) ?_
      intro o hpc
      cases hpc
      exact hhandle hc
  | sendCtxDone hq _ hc =>
      refine h.set hq rfl hreader hhandle hgone (fun _ _ _ ht => ht) (by intro hpc; cases hpc) ?_
      intro o hpc
      cases hpc
      exact hc
  | sendErr hq _ he =>
      refine h.set hq rfl hreader hhandle hgone (fun _ _ _ ht => ht) (by intro hpc; cases hpc) ?_
      intro o hpc
      cases hpc
      simp [Outcome.Reason, he]
  | sendResponse hq _ he =>
      refine h.set hq rfl hreader hhandle hgone (fun _ _ _ ht => ht) (by intro hpc; cases hpc) ?_
      intro o hpc
      cases hpc
      simp [Outcome.Reason, he]
  | @depleted r q err hh hq hpc _ =>
      have hget : (s.requests.set r { q with pc := .waiting })[r]? =
          some { q with pc := .waiting } :=
        (setRequest_get hq { q with pc := .waiting } r).trans (if_pos rfl)
      refine h.set hq (w := { q with pc := .waiting, err := q.err ++ [err] }) ?_ hreader hhandle
        hgone (fun _ _ _ ht => ht) (by intro _ _ herr; simp at herr) (by intro o ho; cases ho)
      show (s.requests.set r { q with pc := .waiting }).modify r _ = _
      rw [modify_eq_set hget, List.set_set]
  | @dispatch r q t hh hq hpc halloc =>
      have hfree := allocateTag_free halloc
      refine h.set hq rfl hreader (by intro hc; cases hc) hgone ?_
        (fun _ _ _ => ⟨t, AList.lookup_insert _⟩) (by intro o ho; cases ho)
      intro t' r' _ ht'
      refine (AList.lookup_insert_ne ?_).trans ht'
      intro heq
      rw [heq, hfree] at ht'
      cases ht'
  | @writeFail r fcall err hw =>
      obtain ⟨hl, -⟩ := hinv.writing r fcall hw
      obtain ⟨q, hq, -⟩ := hinv.owned fcall.tag r hl
      refine h.set hq (modify_eq_set hq _) hreader (by intro hc; cases hc) hgone (erase_keeps hl)
        (by intro _ _ herr; simp at herr) ?_
      intro o hpc
      exact (h.reason r q o hq hpc).mono hgone (fun _ hc => hc) (List.subset_append_left _ _)
        (List.Subset.refl _)
  | @deliver b r hh hr hl =>
      obtain ⟨q, hq, -⟩ := hinv.owned b.tag r hl
      refine h.set hq (modify_eq_set hq _) (by intro hret; cases hret) hhandle hgone
        (erase_keeps hl) (by intro _ hresp; simp at hresp) ?_
      intro o hpc
      exact (h.reason r q o hq hpc).mono hgone (fun _ hc => hc) (List.Subset.refl _)
        (List.subset_append_left _ _)
  | writeOk _ => exact h.frame rfl rfl hreader (by intro hc; cases hc) hgone
  | handleShutdown _ hs => exact h.frame rfl rfl hreader (fun _ => Or.inl hs) hgone
  | handleCtxDone _ hc =>
      exact h.frame rfl rfl hreader
        (fun _ => Or.inr (Or.inl (Option.isSome_of_eq_some hc))) hgone
  | cancelCtx _ => exact h.frame rfl rfl hreader hhandle hgone
  | unknownTag _ _ _ =>
      exact h.frame rfl rfl (by intro hret; cases hret)
        (fun _ => Or.inr (Or.inr ⟨_, rfl⟩)) hgone
  | readOk _ => exact h.frame rfl rfl (by intro hret; cases hret) hhandle hgone
  | readFail _ | readerCtxDone _ _ | readerClosed _ _ | close =>
      exact h.frame rfl rfl (fun _ => rfl) hhandle hgone
  | readRetry _ => exact h

end P9p.Transport
