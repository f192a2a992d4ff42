/-
# `P9p.ServeConn.Calm` — the loop and a client that keeps its tags apart

What the loop does when no request it receives has a tag that is registered
and none is a `Tflush` (`Orderly`).  Then a request leaves the table only when
its own response has been received, so a goroutine that has not ended is still
registered under its tag, and nothing on `completed` is stale:

    Orderly steps   ⟹   Calm is kept   ⟹   NotStale   ⟹   the invariant of `Matching`

The first implication is `Calm.step`.  Whether the steps are orderly is up to
the client; for the client of this repository that is proved in
`P9p.EndToEnd`.
-/
import P9p.ServeConn.Matching

namespace P9p.Conn

open State Conc

variable {s s' : State}

/-- A request that is received has a free tag and is not a `Tflush`. -/
def Orderly (s : State) : Act → Prop
  | .accept => ∀ req, s.reader = .offering req →
      s.tags req.tag = none ∧ ∀ oldtag, req.message ≠ .value (.tflush oldtag)
  | _ => True

structure Calm (s : State) : Prop where
  inv : Inv s
  live : ∀ (i : Nat) (h : Handler), s.handlers[i]? = some h → h.gone = false →
    s.tags h.req.tag = some i
  ended : ∀ resp active src, s.serve = .handing resp active src →
    ∃ h, s.handlers[src]? = some h ∧ h.gone = true
  neverRefusing : ∀ resp, s.serve ≠ .refusing resp
  neverFlushing : ∀ resp victim, s.serve ≠ .flushing resp victim
  notRefused : ∀ resp, .refused resp ∉ s.log

theorem calm_init : Calm init where
  inv := inv_init
  live := by intro i h hi; cases hi
  ended := by intro resp active src hs; cases hs
  neverRefusing := by intro resp hs; cases hs
  neverFlushing := by intro resp victim hs; cases hs
  notRefused := by intro resp hm; cases hm

theorem Calm.notStale {a : Act} (h : Calm s) (hstep : Step s a s') : NotStale s a := by
  cases hstep with
  | @complete i active hd r _ hi _ hgone _ | @drop i hd r _ hi _ hgone _ =>
      intro req hreq
      rw [req?_of_getElem? hi] at hreq
      cases hreq
      exact Or.inr (h.live i hd hi hgone)
  | _ => trivial

/-- A goroutine's entry survives when another's tag is deleted. -/
theorem Calm.live_untag (h : Calm s) {resp : Fcall} {active src : Nat}
    (hserve : s.serve = .handing resp active src) {i : Nat} {hd : Handler}
    (hi : s.handlers[i]? = some hd) (hgone : hd.gone = false) :
    (s.untag resp.tag).tags hd.req.tag = some i := by
  obtain ⟨htag, -⟩ := h.inv.handing resp active src hserve
  obtain ⟨hd', hi', hgone'⟩ := h.ended resp active src hserve
  have hlive := h.live i hd hi hgone
  rw [untag_tags, if_neg, hlive]
  intro heq
  rw [heq, htag] at hlive
  cases hlive
  rw [hi] at hi'
  cases hi'
  rw [hgone] at hgone'
  cases hgone'

/-- The step ends goroutines or none, and takes no entry of a live one out of
the table. -/
theorem Calm.of_live (h : Calm s) (hinv : Inv s')
    (hlive : ∀ (i : Nat) (hd : Handler), s'.handlers[i]? = some hd → hd.gone = false →
      s'.tags hd.req.tag = some i)
    (hgone : ∀ (i : Nat) (hd : Handler), s.handlers[i]? = some hd → hd.gone = true →
      ∃ hd', s'.handlers[i]? = some hd' ∧ hd'.gone = true)
    (hserve : s'.serve = s.serve ∨ s'.serve = .select ∨ (∃ err, s'.serve = .returned err))
    (hlog : ∀ resp, .refused resp ∈ s'.log → .refused resp ∈ s.log) : Calm s' where
  inv := hinv
  live := hlive
  ended := by
    intro resp active src hs
    rcases hserve with heq | heq | ⟨err, heq⟩
    · obtain ⟨hd, hi, hg⟩ := h.ended resp active src (heq ▸ hs)
      exact hgone src hd hi hg
    · rw [heq] at hs
      cases hs
    · rw [heq] at hs
      cases hs
  neverRefusing := by
    intro resp hs
    rcases hserve with heq | heq | ⟨err, heq⟩
    · exact h.neverRefusing resp (heq ▸ hs)
    · rw [heq] at hs
      cases hs
    · rw [heq] at hs
      cases hs
  neverFlushing := by
    intro resp victim hs
    rcases hserve with heq | heq | ⟨err, heq⟩
    · exact h.neverFlushing resp victim (heq ▸ hs)
    · rw [heq] at hs
      cases hs
    · rw [heq] at hs
      cases hs
  notRefused := fun resp hm => h.notRefused resp (hlog resp hm)

/-- A goroutine replaced by `hd'` for the same request: live ones keep their
entries, and one that has ended has ended. -/
theorem Calm.setHandler_live (h : Calm s) {i : Nat} {hd w : Handler}
    (hi : s.handlers[i]? = some hd) (hreq : w.req = hd.req)
    (hgone : hd.gone = true → w.gone = true) :
    (∀ (j : Nat) (d : Handler), (s.setHandler i w).handlers[j]? = some d → d.gone = false →
      s.tags d.req.tag = some j) ∧
    ∀ (j : Nat) (d : Handler), s.handlers[j]? = some d → d.gone = true →
      ∃ d', (s.setHandler i w).handlers[j]? = some d' ∧ d'.gone = true := by
  obtain ⟨hlt, -⟩ := List.getElem?_eq_some_iff.mp hi
  have hget : ∀ j, (s.setHandler i w).handlers[j]? = if i = j then some w else s.handlers[j]? := by
    intro j
    rw [setHandler, List.getElem?_set, if_pos hlt]
  constructor
  · intro j d hj hlive
    rw [hget] at hj
    split at hj
    · rename_i hij
      subst hij
      cases hj
      rw [hreq]
      refine h.live i hd hi ?_
      by_contra hg
      rw [hgone (by simpa using hg)] at hlive
      cases hlive
    · exact h.live j d hj hlive
  · intro j d hj hg
    rw [hget]
    split
    · rename_i hij
      subst hij
      rw [hi] at hj
      cases hj
      exact ⟨w, rfl, hgone hg⟩
    · exact ⟨d, hj, hg⟩

theorem Calm.step {a : Act} (h : Calm s) (hstep : Step s a s') (ho : Orderly s a) : Calm s' := by
  have hinv : Inv s' := h.inv.step hstep (h.notStale hstep)
  have hsame : ∀ (i : Nat) (hd : Handler), s.handlers[i]? = some hd → hd.gone = true →
      ∃ hd', s.handlers[i]? = some hd' ∧ hd'.gone = true := fun i hd hi hg => ⟨hd, hi, hg⟩
  cases hstep with
  | readOk _ | readRetry _ | readerClosed _ _ | writeOk _ | writeRetry _ | writerClosed _ _
  | cancelCtx _ => exact h.of_live hinv h.live hsame (Or.inl rfl) fun _ hm => hm
  | readFail _ | readerCtxDone _ _ | writeFail _ | writerCtxDone _ _ | close =>
      exact h.of_live hinv (by simpa using h.live) (by simpa using hsame) (by simp) (by simp)
  | @handlerCtxDone _ hd _ hi _ _ _ | @handlerClosed _ hd _ _ hi _ _ _ | @drop _ hd _ _ hi _ _ _ =>
      obtain ⟨hlive, hgone⟩ := h.setHandler_live (w := { hd with gone := true }) hi rfl fun _ => rfl
      exact h.of_live hinv hlive hgone (Or.inl rfl) fun _ hm => hm
  | @handled i hd r hi hr =>
      obtain ⟨hlive, hgone⟩ := h.setHandler_live (w := { hd with result := some r }) hi rfl id
      exact h.of_live hinv hlive hgone (Or.inl rfl) (by simp [record, setHandler])
  | @complete i active hd r _ hi _ _ _ =>
      obtain ⟨hlive, -⟩ := h.setHandler_live (w := { hd with gone := true }) hi rfl fun _ => rfl
      obtain ⟨hlt, -⟩ := List.getElem?_eq_some_iff.mp hi
      refine ⟨hinv, hlive, ?_, ?_, ?_, h.notRefused⟩
      · intro resp active' src hs
        cases hs
        exact ⟨{ hd with gone := true }, by simp [setHandler, hlt], rfl⟩
      · intro resp hs
        cases hs
      · intro resp victim hs
        cases hs
  | start hr _ htag _ =>
      refine h.of_live hinv ?_ ?_ (Or.inl rfl) (by simp [State.start])
      · intro i hd hi hg
        have hi' := (start_getElem? s i _).symm.trans hi
        show (s.start _).tags _ = _
        rw [start_tags]
        split at hi'
        · rename_i heq
          cases hi'
          rw [if_pos rfl, heq]
        · have hlive := h.live i hd hi' hg
          rw [if_neg, hlive]
          intro heq
          rw [heq, htag] at hlive
          cases hlive
      · intro i hd hi hg
        refine ⟨hd, (start_getElem? s i _).trans ?_, hg⟩
        rw [if_neg (Nat.ne_of_lt (List.getElem?_eq_some_iff.mp hi).1), hi]
  | send hserve _ =>
      exact h.of_live hinv (fun i hd hi hg => h.live_untag hserve hi hg) hsame (Or.inr (Or.inl rfl))
        (by simp)
  | abandon hserve _ =>
      exact h.of_live hinv (fun i hd hi hg => h.live_untag hserve hi hg) hsame (Or.inr (Or.inl rfl))
        fun _ hm => hm
  | serveCtxDone _ _ | serveClosed _ _ =>
      refine h.of_live hinv ?_ ?_ (Or.inr (Or.inr ⟨_, rfl⟩)) fun _ hm => hm
      · intro i hd hi hg
        rw [serveReturn_getElem?] at hi
        obtain ⟨hd', hi', rfl⟩ := Option.map_eq_some_iff.mp hi
        exact h.live i hd' hi' hg
      · intro i hd hi hg
        rw [serveReturn_getElem?, hi]
        exact ⟨_, rfl, hg⟩
  | refuse hr _ htag =>
      rw [(ho _ hr).1] at htag
      cases htag
  | flush hr _ _ hmsg _ | flushUnknown hr _ _ hmsg _ => exact absurd hmsg ((ho _ hr).2 _)
  | sendRefusal hserve _ => exact absurd hserve (h.neverRefusing _)
  | sendFlush hserve _ => exact absurd hserve (h.neverFlushing _ _)

end P9p.Conn
