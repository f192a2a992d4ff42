/-
# `P9p.ServeConn.Matching` — whose answer goes out under a tag

The `completed` channel carries a response, and the loop looks its tag up in
the table.  The tag may belong to another request by then: a flushed request's
goroutine is cancelled, but it waits in a `select` that may still take the
send on `completed`, and meanwhile the client may have used the tag again.

    accept A (tag t), flush t, Rflush sent, accept B (tag t),
    A's goroutine sends on completed: the loop finds B under t

sends A's answer as B's (`stale_answer_sent`) and drops B's own.

What is proved of all runs: as long as the loop never receives on `completed`
from a goroutine whose tag is registered for another request (`NotStale`),
every answer sent is that of the request accepted last with its tag, and
nothing is sent for a request once its `Rflush` is out (`matched_of_notStale`).
The invariant ties each registered tag to the last acceptance in the history.
-/
import P9p.ServeConn
import Mathlib.Data.List.Induction

namespace P9p.Conn

open State Conc

variable {log : List Event} {i : Nat} {s s' : State}

/-! ## The property, on histories -/

/-- The request accepted last with tag `t`. -/
def lastAccepted (log : List Event) (t : Tag) : Option (Nat × Fcall) :=
  log.foldl (fun acc e =>
    match e with
    | .accepted i req => if req.tag = t then some (i, req) else acc
    | _ => acc) none

/-- After the history `pre`, sending `resp` from goroutine `i` is right: `i`
is the request accepted last with that tag, `resp` is what its handler
answered, and no `Rflush` has gone out for it. -/
def RightAnswer (pre : List Event) (i : Nat) (resp : Fcall) : Prop :=
  (∃ req r, lastAccepted pre resp.tag = some (i, req) ∧ .handled i r ∈ pre ∧
    resp = respond req r) ∧
  ∀ fresp, Event.sentFlush (some i) fresp ∉ pre

/-- Every answer to an ordinary request in the history was right when it was
handed to the writer. -/
def Matched (log : List Event) : Prop :=
  ∀ pre i resp post, log = pre ++ .sent i resp :: post → RightAnswer pre i resp

theorem matched_nil : Matched [] := by
  intro pre i resp post h
  exact absurd h.symm (List.append_ne_nil_of_right_ne_nil _ (List.cons_ne_nil _ _))

theorem matched_snoc {e : Event} (h : Matched log)
    (he : ∀ i resp, e = .sent i resp → RightAnswer log i resp) : Matched (log ++ [e]) := by
  intro pre i resp post heq
  rcases List.eq_nil_or_concat post with rfl | ⟨post', e', rfl⟩
  · obtain ⟨rfl, hlast⟩ := List.append_inj' heq rfl
    exact he i resp (List.singleton_inj.mp hlast)
  · rw [List.concat_eq_append, ← List.cons_append, ← List.append_assoc] at heq
    obtain ⟨hlog, -⟩ := List.append_inj' heq rfl
    exact h pre i resp post' hlog

theorem lastAccepted_snoc (log : List Event) (e : Event) (t : Tag) :
    lastAccepted (log ++ [e]) t =
      match e with
      | .accepted i req => if req.tag = t then some (i, req) else lastAccepted log t
      | _ => lastAccepted log t := by
  rw [lastAccepted, List.foldl_append]
  rfl

theorem lastAccepted_mem {t : Tag} {req : Fcall} (h : lastAccepted log t = some (i, req)) :
    .accepted i req ∈ log := by
  induction log using List.reverseRecOn with
  | nil => cases h
  | append_singleton log e ih =>
      rw [lastAccepted_snoc] at h
      split at h
      · split at h
        · cases h
          exact List.mem_append_right _ List.mem_cons_self
        · exact List.mem_append_left _ (ih h)
      · exact List.mem_append_left _ (ih h)

/-! ## The condition and the invariant -/

/-- A response received on `completed` has a tag that is no longer active, or
one registered for the request it answers. -/
def NotStale (s : State) : Act → Prop
  | .complete i => ∀ req, s.req? i = some req →
      s.tags req.tag = none ∨ s.tags req.tag = some i
  | _ => True

/-- Request `i` is out of the table for good. -/
def Unregistered (s : State) (i : Nat) : Prop :=
  i < s.handlers.length ∧ ∀ t, s.tags t ≠ some i

structure Inv (s : State) : Prop where
  registered : ∀ t i, s.tags t = some i →
    ∃ req, s.req? i = some req ∧ req.tag = t ∧ lastAccepted s.log t = some (i, req)
  handled : ∀ i r, s.result? i = some r → .handled i r ∈ s.log
  handing : ∀ resp active src, s.serve = .handing resp active src →
    s.tags resp.tag = some src ∧
      ∃ req r, s.req? src = some req ∧ s.result? src = some r ∧ resp = respond req r
  flushing : ∀ resp i, s.serve = .flushing resp (some i) → Unregistered s i
  flushed : ∀ i resp, .sentFlush (some i) resp ∈ s.log → Unregistered s i
  matched : Matched s.log

theorem inv_init : Inv init where
  registered := by intro t i h; cases h
  handled := by intro i r h; cases h
  handing := by intro resp active src h; cases h
  flushing := by intro resp i h; cases h
  flushed := by intro i resp h; cases h
  matched := matched_nil

theorem lastAccepted_append {new : List Event} (h : ∀ i req, .accepted i req ∉ new) (t : Tag) :
    lastAccepted (log ++ new) t = lastAccepted log t := by
  induction new using List.reverseRecOn with
  | nil => rw [List.append_nil]
  | append_singleton new e ih =>
      rw [← List.append_assoc, lastAccepted_snoc,
        ih fun i req hm => h i req (List.mem_append_left _ hm)]
      cases e with
      | accepted i req => exact absurd (List.mem_append_right _ List.mem_cons_self) (h i req)
      | _ => rfl

theorem Unregistered.mono (h : Unregistered s i)
    (htags : ∀ t j, s'.tags t = some j → s.tags t = some j)
    (hlen : s'.handlers.length = s.handlers.length) : Unregistered s' i :=
  ⟨hlen ▸ h.1, fun t ht => h.2 t (htags t i ht)⟩

/-- Every step but an acceptance leaves the requests alone and takes entries
out of the table only; what is left to show then is what it adds to the
history and where it leaves the loop. -/
theorem Inv.shrink (h : Inv s) (htags : ∀ t i, s'.tags t = some i → s.tags t = some i)
    (hlen : s'.handlers.length = s.handlers.length) (hreq : ∀ i, s'.req? i = s.req? i)
    (hres : ∀ i r, s'.result? i = some r → s.result? i = some r ∨ .handled i r ∈ s'.log)
    {l : List Event} (hlog : s'.log = s.log ++ l) (hnew : ∀ i req, .accepted i req ∉ l)
    (hflushed : ∀ i resp, .sentFlush (some i) resp ∈ l → Unregistered s i)
    (hmatched : Matched s'.log)
    (hhanding : ∀ resp active src, s'.serve = .handing resp active src →
      s'.tags resp.tag = some src ∧
        ∃ req r, s.req? src = some req ∧ s'.result? src = some r ∧ resp = respond req r)
    (hflushing : ∀ resp i, s'.serve = .flushing resp (some i) → Unregistered s' i) :
    Inv s' where
  registered := by
    intro t i ht
    obtain ⟨req, hr, htag, hlast⟩ := h.registered t i (htags t i ht)
    exact ⟨req, (hreq i).trans hr, htag, by rw [hlog, lastAccepted_append hnew, hlast]⟩
  handled := by
    intro i r hr
    rcases hres i r hr with hr | hr
    · rw [hlog]
      exact List.mem_append_left _ (h.handled i r hr)
    · exact hr
  handing := by
    intro resp active src hs
    obtain ⟨ht, req, r, hq, hr, hresp⟩ := hhanding resp active src hs
    exact ⟨ht, req, r, (hreq src).trans hq, hr, hresp⟩
  flushing := hflushing
  flushed := by
    intro i resp hm
    rw [hlog] at hm
    rcases List.mem_append.mp hm with hm | hm
    · exact (h.flushed i resp hm).mono htags hlen
    · exact (hflushed i resp hm).mono htags hlen
  matched := hmatched

/-- A step that adds nothing to the history and leaves the loop where it is,
or in a `select` that holds nothing of a request. -/
theorem Inv.frame (h : Inv s) (htags : s'.tags = s.tags)
    (hlen : s'.handlers.length = s.handlers.length) (hreq : ∀ i, s'.req? i = s.req? i)
    (hres : ∀ i, s'.result? i = s.result? i) (hlog : s'.log = s.log)
    (hserve : s'.serve = s.serve ∨ (∀ resp active src, s'.serve ≠ .handing resp active src) ∧
      ∀ resp i, s'.serve ≠ .flushing resp (some i)) : Inv s' := by
  refine h.shrink (l := []) ?_ hlen hreq ?_ ?_ ?_ ?_ ?_ ?_ ?_
  · intro t i ht
    rwa [htags] at ht
  · intro i r hr
    rw [hres] at hr
    exact Or.inl hr
  · rw [hlog, List.append_nil]
  · intro i req hm
    cases hm
  · intro i resp hm
    cases hm
  · rw [hlog]
    exact h.matched
  · intro resp active src hs
    rcases hserve with heq | ⟨hne, -⟩
    · rw [heq] at hs
      rw [htags]
      obtain ⟨ht, req, r, hq, hr, hresp⟩ := h.handing resp active src hs
      exact ⟨ht, req, r, hq, (hres src).trans hr, hresp⟩
    · exact absurd hs (hne resp active src)
  · intro resp i hs
    rcases hserve with heq | ⟨-, hne⟩
    · rw [heq] at hs
      exact (h.flushing resp i hs).mono (fun t j ht => by rwa [htags] at ht) hlen
    · exact absurd hs (hne resp i)

/-! ## Preservation -/

/-- A tag that is taken out of the table takes its request out with it. -/
theorem Inv.unregistered_of_untag (h : Inv s) {t : Tag} (ht : s.tags t = some i) :
    Unregistered (s.untag t) i := by
  obtain ⟨req, hreq, htag, -⟩ := h.registered t i ht
  refine ⟨req?_eq_some_lt hreq, fun t' ht' => ?_⟩
  obtain ⟨hne, ht'⟩ := untag_some ht'
  obtain ⟨req', hreq', htag', -⟩ := h.registered t' i ht'
  rw [hreq] at hreq'
  cases hreq'
  exact hne (htag'.symm.trans htag)

/-- A request is accepted under a tag that nothing is registered for. -/
theorem Inv.start (h : Inv s) {req : Fcall} (hserve : s.serve = .select) :
    Inv (s.start req) where
  registered := by
    intro t i ht
    have hlast := lastAccepted_snoc s.log (.accepted s.handlers.length req) t
    show ∃ req', (s.start req).req? i = some req' ∧ req'.tag = t ∧
      lastAccepted (s.log ++ [.accepted s.handlers.length req]) t = some (i, req')
    rw [hlast, start_req?]
    rw [start_tags] at ht
    split at ht
    · rename_i htag
      cases ht
      exact ⟨req, if_pos rfl, htag.symm, if_pos htag.symm⟩
    · rename_i htag
      obtain ⟨req', hreq', htag', hlast'⟩ := h.registered t i ht
      have hne : i ≠ s.handlers.length := Nat.ne_of_lt (req?_eq_some_lt hreq')
      exact ⟨req', (if_neg hne).trans hreq', htag', (if_neg (Ne.symm htag)).trans hlast'⟩
  handled := by
    intro i r hr
    rw [start_result?] at hr
    exact List.mem_append_left _ (h.handled i r hr)
  handing := by
    intro resp active src hs
    exact absurd (hserve.symm.trans hs) (by simp)
  flushing := by
    intro resp i hs
    exact absurd (hserve.symm.trans hs) (by simp)
  flushed := by
    intro i resp hm
    have hold : Unregistered s i := by
      rcases List.mem_append.mp hm with hm | hm
      · exact h.flushed i resp hm
      · cases List.mem_singleton.mp hm
    refine ⟨Nat.lt_of_lt_of_le hold.1 (by simp [State.start]), fun t ht => ?_⟩
    rw [start_tags] at ht
    split at ht
    · cases ht
      exact Nat.lt_irrefl _ hold.1
    · exact hold.2 t ht
  matched := matched_snoc h.matched (fun i resp heq => by cases heq)

/-- The answer the loop holds for a registered request is the right one. -/
theorem Inv.rightAnswer (h : Inv s) {resp : Fcall} {active src : Nat}
    (hserve : s.serve = .handing resp active src) : RightAnswer s.log src resp := by
  obtain ⟨htag, req, r, hreq, hres, hresp⟩ := h.handing resp active src hserve
  obtain ⟨req', hreq', -, hlast⟩ := h.registered resp.tag src htag
  rw [hreq] at hreq'
  cases hreq'
  refine ⟨⟨req, r, hlast, h.handled src r hres, hresp⟩, fun fresp hm => ?_⟩
  exact (h.flushed src fresp hm).2 resp.tag htag

theorem Inv.step {a : Act} (h : Inv s) (hstep : Step s a s') (hstale : NotStale s a) : Inv s' := by
  cases hstep with
  | readOk _ => exact h.frame rfl rfl (fun _ => rfl) (fun _ => rfl) rfl (Or.inl rfl)
  | readRetry _ => exact h
  | readFail _ | readerCtxDone _ _ | writeFail _ | writerCtxDone _ _ | close =>
      exact h.frame (by simp) (by simp) (by simp [req?]) (by simp [result?]) (by simp) (by simp)
  | readerClosed _ _ | writeOk _ | writeRetry _ | writerClosed _ _ | cancelCtx _ =>
      exact h.frame rfl rfl (fun _ => rfl) (fun _ => rfl) rfl (Or.inl rfl)
  | refuse _ _ _ | flushUnknown _ _ _ _ _ =>
      exact h.frame rfl rfl (fun _ => rfl) (fun _ => rfl) rfl (Or.inr (by simp))
  | serveCtxDone _ _ | serveClosed _ _ =>
      exact h.frame rfl (by simp [serveReturn]) (by simp) (by simp) rfl
        (Or.inr (by simp [serveReturn]))
  | handlerCtxDone hi _ _ _ | handlerClosed hi _ _ _ | drop _ hi _ _ _ =>
      exact h.frame rfl (by simp) (setHandler_req? hi rfl) (setHandler_gone_result? hi) rfl
        (Or.inl rfl)
  | @flush req oldtag i _ _ _ _ hold =>
      have hout := h.unregistered_of_untag hold
      refine h.shrink (fun t j ht => (untag_some (s := s.cancel i) ht).2) (cancel_length s i)
        (cancel_req? s i) (fun j r hr => Or.inl ((cancel_result? s i j).symm.trans hr))
        (List.append_nil _).symm (by simp) (by simp) h.matched (by simp) ?_
      intro resp j hs
      cases hs
      exact ⟨(cancel_length s i).symm ▸ hout.1, hout.2⟩
  | start _ hserve _ _ =>
      exact (h.start hserve).frame rfl rfl (fun _ => rfl) (fun _ => rfl) rfl (Or.inl rfl)
  | @complete i active hd r hserve hi hr _ htag =>
      refine h.shrink (fun _ _ ht => ht) (setHandler_length s i _) (setHandler_req? hi rfl)
        (fun j r hr => Or.inl ((setHandler_gone_result? hi j).symm.trans hr))
        (List.append_nil _).symm (by simp) (by simp) h.matched ?_ (by simp)
      intro resp active' src hs
      cases hs
      -- the tag is registered, and by the condition for this very request
      have hsrc : s.tags hd.req.tag = some i := by
        rcases hstale hd.req (req?_of_getElem? hi) with hnone | hsome
        · rw [hnone] at htag
          cases htag
        · exact hsome
      rw [respond_tag]
      exact ⟨hsrc, hd.req, r, req?_of_getElem? hi,
        (setHandler_gone_result? hi i).trans ((result?_of_getElem? hi).trans hr), rfl⟩
  | sendRefusal hserve _ =>
      exact h.shrink (fun _ _ ht => ht) rfl (fun _ => rfl) (fun _ _ hr => Or.inl hr) rfl
        (by simp) (by simp) (matched_snoc h.matched (by simp)) (by simp) (by simp)
  | @sendFlush resp victim hserve _ =>
      refine h.shrink (fun _ _ ht => ht) rfl (fun _ => rfl) (fun _ _ hr => Or.inl hr) rfl
        (by simp) ?_ (matched_snoc h.matched (by simp)) (by simp) (by simp)
      intro i resp' hm
      cases List.mem_singleton.mp hm
      exact h.flushing resp i hserve
  | send hserve _ =>
      refine h.shrink (fun t i ht => (untag_some ht).2) rfl (fun _ => rfl)
        (fun _ _ hr => Or.inl hr) rfl (by simp) (by simp) (matched_snoc h.matched ?_)
        (by simp) (by simp)
      intro i resp' heq
      cases heq
      exact h.rightAnswer hserve
  | abandon _ _ =>
      exact h.shrink (fun t i ht => (untag_some ht).2) rfl (fun _ => rfl)
        (fun _ _ hr => Or.inl hr) (List.append_nil _).symm (by simp) (by simp) h.matched
        (by simp) (by simp)
  | @handled i hd r hi hr =>
      refine h.shrink (fun _ _ ht => ht) (setHandler_length s i _) (setHandler_req? hi rfl) ?_ rfl
        (by simp) (by simp) (matched_snoc h.matched (by simp)) ?_ (fun resp j hs => ?_)
      · intro j r' hr'
        have hcase := (setHandler_result? hi { hd with result := some r } j).symm.trans hr'
        split at hcase
        · rename_i hij
          subst hij
          cases hcase
          exact Or.inr (List.mem_append_right _ List.mem_cons_self)
        · exact Or.inl hcase
      · intro resp active src hs
        obtain ⟨htag, req, r', hreq, hres, hresp⟩ := h.handing resp active src hs
        have hne : i ≠ src := by
          rintro rfl
          rw [result?_of_getElem? hi, hr] at hres
          cases hres
        exact ⟨htag, req, r', hreq, (setHandler_result? hi _ src).trans ((if_neg hne).trans hres),
          hresp⟩
      · exact (h.flushing resp j hs).mono (fun _ _ ht => ht) (setHandler_length s i _)

/-! ## Runs -/

/-- Along every run in which the loop receives no stale response, whatever
the requests, flushes, tag reuses and completions are: every answer sent is
the one of the request accepted last with its tag, and none is sent for a
request whose `Rflush` is out. -/
theorem matched_of_notStale (acts : List Act) (s : State) (hg : Guarded step NotStale init acts)
    (hrun : exec step init acts = some s) : Matched s.log :=
  (exec_invariant (I := Inv) (fun h hc hs => h.step (step_cases hs) hc) acts inv_init hg
    hrun).matched

/-- `Tremove` under tag 1 is flushed, and its response is received, and dropped,
before `Tclunk` comes under tag 1. -/
def orderlyRun : List Act :=
  [.readOk (newFcall 1 (.tremove 5)), .accept, .handled 0 (.ok .rremove),
    .readOk (newFcall 2 (.tflush 1)), .accept, .handover, .writeOk, .complete 0,
    .readOk (newFcall 1 (.tclunk 6)), .accept, .handled 1 (.ok .rclunk), .complete 1, .handover]

theorem matched_orderlyRun :
    ∃ s, exec step init orderlyRun = some s ∧ Matched s.log ∧
      s.log = [.accepted 0 (newFcall 1 (.tremove 5)), .handled 0 (.ok .rremove),
        .sentFlush (some 0) (newFcall 2 .rflush), .accepted 1 (newFcall 1 (.tclunk 6)),
        .handled 1 (.ok .rclunk), .sent 1 (newFcall 1 .rclunk)] := by
  refine ⟨_, rfl, matched_of_notStale orderlyRun _ ?_ rfl, rfl⟩
  refine guarded_cons trivial rfl <| guarded_cons trivial rfl <| guarded_cons trivial rfl <|
    guarded_cons trivial rfl <| guarded_cons trivial rfl <| guarded_cons trivial rfl <|
    guarded_cons trivial rfl <| guarded_cons ?_ rfl <| guarded_cons trivial rfl <|
    guarded_cons trivial rfl <| guarded_cons trivial rfl <| guarded_cons ?_ rfl <|
    guarded_cons trivial rfl trivial
  · rintro req ⟨⟩
    exact Or.inl rfl
  · rintro req ⟨⟩
    exact Or.inr rfl

/-- `Tremove` under tag 1 is flushed, its `Rflush` goes out, and `Tclunk`
comes under tag 1; only then is the flushed goroutine's response received. -/
def staleRun : List Act :=
  [.readOk (newFcall 1 (.tremove 5)), .accept, .handled 0 (.ok .rremove),
    .readOk (newFcall 2 (.tflush 1)), .accept, .handover, .writeOk,
    .readOk (newFcall 1 (.tclunk 6)), .accept, .complete 0, .handover]

/-- What an observer of the loop sees of it. -/
def staleLog : List Event :=
  [.accepted 0 (newFcall 1 (.tremove 5)), .handled 0 (.ok .rremove),
    .sentFlush (some 0) (newFcall 2 .rflush), .accepted 1 (newFcall 1 (.tclunk 6)),
    .sent 0 (newFcall 1 .rremove)]

/-- The `Tclunk` is answered with the `Rremove` of the flushed request. -/
theorem stale_answer_sent :
    (exec step init staleRun).map State.log = some staleLog ∧
      lastAccepted staleLog 1 = some (1, newFcall 1 (.tclunk 6)) ∧ ¬ Matched staleLog := by
  refine ⟨rfl, rfl, fun hm => ?_⟩
  have hright := hm (staleLog.take 4) 0 (newFcall 1 .rremove) [] rfl
  exact hright.2 (newFcall 2 .rflush) (by simp [staleLog])

end P9p.Conn
