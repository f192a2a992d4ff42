/-
# `P9p.Server.Version` — a second `Tversion`

By the README, a `Tversion` on a connection that is established deletes the
current session: all fids are clunked, outstanding requests are aborted, and a
new session starts after the version reply (`Reset`).

**It is not so.**  Neither the loop nor `Handle` knows it: it is an ordinary
request for the one and an unknown message for the other.  `fid_survives` is a
run in which a fid of the old session is used after it.

**Nor is it ever** (`version_never_resets`).  Whatever is going on when it is
received, the session and the other goroutines stay as they are, and the answer
is an error.  And no run comes to a reset later: what the loop sends for a
goroutine is made of what `Handle` has returned there, which is no `Rversion`.
-/
import P9p.Server.Goroutines

namespace P9p

open Conc

/-! ## No version reply -/

/-- `Handle` makes no `Rversion` of what an operation returns. -/
theorem Session.Op.answer_ne_rversion (op : Session.Op) (p : Bytes) (r : Session.Ret)
    (m : UInt32) (v : Bytes) : op.answer p r ≠ some (.ok (.rversion m v)) := by
  intro h
  unfold answer at h
  cases hr : r.err with
  | some err =>
      rw [hr] at h
      cases h
  | none =>
      rw [hr] at h
      dsimp only at h
      split at h
      all_goals try cases h
      split at h <;> cases h

namespace Server

variable {s : Server} {req : Fcall} {msize : Int}

theorem answer_ne_rversion (i : Nat) (message : MessageVal) (p : Bytes) (m : UInt32) (v : Bytes) :
    s.answer msize i message p ≠ some (.ok (.rversion m v)) := by
  intro h
  unfold answer at h
  split at h
  · cases h
  · split at h
    · exact Session.Op.answer_ne_rversion _ p _ m v h
    · cases h

/-- What is sent for a goroutine is the answer of its own thread. -/
theorem Inv.sent (h : Inv msize s) {i : Nat} {resp : Fcall} (hm : .sent i resp ∈ s.conn.log) :
    ∃ req p r, s.answer msize i req.message p = some r ∧ resp = Conn.respond req r := by
  obtain ⟨req, r, hreq, hr, rfl⟩ := h.logged.log _ hm
  obtain ⟨req', p, hreq', hans⟩ := h.returned i r hr
  cases hreq.symm.trans hreq'
  exact ⟨req, p, r, hans, rfl⟩

theorem Inv.not_sent_rversion (h : Inv msize s) (i : Nat) (t : Tag) (m : UInt32) (v : Bytes) :
    .sent i (newFcall t (.rversion m v)) ∉ s.conn.log := by
  intro hm
  obtain ⟨req, p, r, hans, hresp⟩ := h.sent hm
  have hmessage := congrArg Fcall.message hresp
  cases r with
  | error err => cases err <;> cases hmessage
  | ok msg =>
      cases hmessage
      exact answer_ne_rversion i req.message p m v hans

theorem Inv.run {u : Server} (h : Inv msize s) (hu : Reachable (Server.step msize) s u) :
    Inv msize u :=
  reachable_invariant (fun hi hs => hi.step (step_cases hs)) h hu

/-! ## A reset -/

/-- A request that was accepted and not answered yet. -/
def Outstanding (s : Server) (i : Nat) : Prop :=
  ∃ h, s.conn.handlers[i]? = some h ∧ s.conn.tags h.req.tag = some i

/-- The session of `s` was given up for the `Tversion` `req`: no fid is left, every
request that was outstanding is aborted, the version reply has been sent, and the
session is a new one. -/
structure Reset (s : Server) (req : Fcall) (s' : Server) : Prop where
  clunked : ∀ fid, s'.session.store.refs fid = none
  aborted : ∀ i, s.Outstanding i → s'.conn.done i
  replied : ∃ i m v, .sent i (newFcall req.tag (.rversion m v)) ∈ s'.conn.log
  restarted : s'.session = Session.initial

/-- The loop receives the request, and `Handle` returns.  If the tag is in use
it is refused. -/
def receipt (s : Server) (req : Fcall) : List Act :=
  match s.conn.tags req.tag with
  | some _ => [.loop .accept]
  | none => [.loop .accept, .handled s.conn.handlers.length []]

/-- The loop is about to receive `req`. -/
structure Receives (s : Server) (req : Fcall) : Prop where
  reader : s.conn.reader = .offering req
  serve : s.conn.serve = .select

/-- The session and the goroutines that have been started before stay as they
are. -/
structure Keeps (s s' : Server) : Prop where
  session : s'.session = s.session
  ctxErr : s'.conn.ctxErr = s.conn.ctxErr
  handlers : ∀ i, i < s.conn.handlers.length → s'.conn.handlers[i]? = s.conn.handlers[i]?

theorem step_accept (h : s.Receives req) :
    step msize s (.loop .accept) =
      some (s.follow msize (Conn.State.dispatch { s.conn with reader := .reading } req)) := by
  simp only [step, Conn.step, h.reader, h.serve, Option.map_some]

/-- A request whose tag is in use. -/
theorem accept_refused (h : s.Receives req) {j : Nat} (htag : s.conn.tags req.tag = some j) :
    ∃ s', step msize s (.loop .accept) = some s' ∧ Keeps s s' ∧
      s'.conn.serve = .refusing (newErrorFcall req.tag .duptag) := by
  refine ⟨_, step_accept h, ?_⟩
  simp only [Conn.State.dispatch, htag, follow, List.getElem?_length]
  exact ⟨⟨rfl, rfl, fun _ _ => rfl⟩, trivial⟩

/-- A request, not a `Tflush`, that is no operation of the session. -/
theorem accept_unknown (h : s.Receives req) (htag : s.conn.tags req.tag = none)
    (hflush : ∀ t, req.message ≠ .value (.tflush t)) (hop : req.message.op msize = none) :
    ∃ s', step msize s (.loop .accept) = some s' ∧ Keeps s s' ∧
      s'.conn.handlers[s.conn.handlers.length]? = some ⟨req, none, false, false⟩ := by
  have hdispatch : Conn.State.dispatch { s.conn with reader := .reading } req =
      Conn.State.start { s.conn with reader := .reading } req := by
    simp only [Conn.State.dispatch, htag]
  have hnew : (Conn.State.start { s.conn with reader := .reading }
      req).handlers[s.conn.handlers.length]? = some ⟨req, none, false, false⟩ :=
    List.getElem?_concat_length
  refine ⟨_, step_accept h, ?_⟩
  rw [hdispatch]
  simp only [follow, hnew, hop]
  exact ⟨⟨rfl, rfl, fun i hi => List.getElem?_append_left hi⟩, trivial⟩

/-- `Handle` returns its error at once. -/
theorem handled_unknown {i : Nat} (hi : s.conn.handlers[i]? = some ⟨req, none, false, false⟩)
    (hop : req.message.op msize = none) (p : Bytes) :
    ∃ s', step msize s (.handled i p) = some s' ∧ s'.session = s.session ∧
      s'.conn.ctxErr = s.conn.ctxErr ∧
      (∀ j, j ≠ i → s'.conn.handlers[j]? = s.conn.handlers[j]?) ∧
      s'.conn.result? i = some (.error .unknownMsg) := by
  have hlt := (List.getElem?_eq_some_iff.mp hi).1
  simp only [step, hi, answer, hop, Conn.step, Option.map_some]
  refine ⟨_, rfl, rfl, rfl, fun j hj => ?_, ?_⟩
  · exact List.getElem?_set_ne (Ne.symm hj)
  · rw [Conn.State.result?, Conn.State.record, Conn.State.setHandler]
    simp only [List.getElem?_set_self hlt, Option.bind_some]

/-- A `Tversion` that is received is answered with an error. -/
theorem receipt_version (h : s.Receives req) {m : UInt32} {v : Bytes}
    (hreq : req.message = .value (.tversion m v)) :
    ∃ s', exec (step msize) s (s.receipt req) = some s' ∧ Keeps s s' ∧
      (s'.conn.serve = .refusing (newErrorFcall req.tag .duptag) ∨
        s'.conn.result? s.conn.handlers.length = some (.error .unknownMsg)) := by
  cases htag : s.conn.tags req.tag with
  | some j =>
      obtain ⟨s', haccept, hkeeps, hserve⟩ : ∃ s', step msize s (.loop .accept) = some s' ∧ _ :=
        accept_refused h htag
      refine ⟨s', ?_, hkeeps, .inl hserve⟩
      rw [receipt, htag]
      exact Option.bind_eq_some_iff.mpr ⟨s', haccept, rfl⟩
  | none =>
      have hflush : ∀ t, req.message ≠ .value (.tflush t) := by
        rw [hreq]
        rintro t ⟨⟩
      have hop : req.message.op msize = none := by
        rw [hreq]
        rfl
      obtain ⟨s₁, haccept, hkeeps, hnew⟩ := accept_unknown h htag hflush hop
      obtain ⟨s', hhandled, hsession, hctx, hothers, hresult⟩ := handled_unknown hnew hop []
      refine ⟨s', ?_, ?_, .inr hresult⟩
      · rw [receipt, htag]
        exact Option.bind_eq_some_iff.mpr
          ⟨s₁, haccept, Option.bind_eq_some_iff.mpr ⟨s', hhandled, rfl⟩⟩
      · exact ⟨hsession.trans hkeeps.session, hctx.trans hkeeps.ctxErr,
          fun i hi => (hothers i hi.ne).trans (hkeeps.handlers i hi)⟩

/-- Whatever is going on, a `Tversion` that is received leaves the session as it
is and is answered with an error; and however the server goes on, the session is
never reset. -/
theorem version_never_resets (hs : Reachable (step msize) init s) (h : s.Receives req)
    {m : UInt32} {v : Bytes} (hreq : req.message = .value (.tversion m v)) :
    (∃ s', exec (step msize) s (s.receipt req) = some s' ∧ Keeps s s' ∧
      (s'.conn.serve = .refusing (newErrorFcall req.tag .duptag) ∨
        s'.conn.result? s.conn.handlers.length = some (.error .unknownMsg))) ∧
    ∀ u, Reachable (step msize) s u → ¬ Reset s req u := by
  refine ⟨receipt_version h hreq, fun u hu hreset => ?_⟩
  obtain ⟨i, m', v', hm⟩ := hreset.replied
  exact ((inv_init.run hs).run hu).not_sent_rversion i req.tag m' v' hm

/-- A `Tversion` with tag 7, offered to the loop of a new connection. -/
def offersVersion : Server :=
  { init with conn := { Conn.init with
      reader := .offering (newFcall 7 (.tversion 8192 (lit "9P2000"))) } }

theorem version_never_resets_offersVersion :
    (∃ s', exec (step 65536) offersVersion
        (offersVersion.receipt (newFcall 7 (.tversion 8192 (lit "9P2000")))) = some s' ∧
      Keeps offersVersion s' ∧
      (s'.conn.serve = .refusing (newErrorFcall 7 .duptag) ∨
        s'.conn.result? 0 = some (.error .unknownMsg))) ∧
    ∀ u, Reachable (step 65536) offersVersion u →
      ¬ Reset offersVersion (newFcall 7 (.tversion 8192 (lit "9P2000"))) u := by
  have hs : Reachable (step 65536) init offersVersion :=
    ⟨[.loop (.readOk (newFcall 7 (.tversion 8192 (lit "9P2000"))))], rfl⟩
  exact version_never_resets hs ⟨rfl, rfl⟩ rfl

/-! ## A fid that survives -/

/-- A request is read and accepted. -/
def arrives (tag : Tag) (m : Message) : List Act :=
  [.loop (.readOk (newFcall tag m)), .loop .accept]

/-- `n` commands of thread `t` of the session. -/
def works (t n : Nat) : List Act := List.replicate n (.session t Session.agreeable)

/-- Goroutine `i` returns and its response is written. -/
def responds (i : Nat) : List Act :=
  [.handled i [], .loop (.complete i), .loop .handover, .loop .writeOk]

/-- Fid 1 is bound, a `Tstat` on it is under way, and a `Tversion` arrives. -/
def beforeVersion : List Act :=
  arrives 1 (.tattach 1 noFid [] []) ++ works 0 7 ++ responds 0 ++
    arrives 2 (.tstat 1) ++ works 1 3 ++
    [.loop (.readOk (newFcall 3 (.tversion 8192 (lit "9P2000"))))]

/-- The `Tversion` is answered, the `Tstat` goes on, and a second one comes. -/
def afterVersion : List Act :=
  [.loop (.complete 2), .loop .handover, .loop .writeOk] ++ works 1 4 ++ responds 1 ++
    arrives 4 (.tstat 1) ++ works 2 7 ++ responds 3

/-- A fid that was bound before the `Tversion` is used after it, and a
request that was outstanding is not aborted. -/
theorem fid_survives :
    ∃ s s' u, exec (step 65536) init beforeVersion = some s ∧
      s.Receives (newFcall 3 (.tversion 8192 (lit "9P2000"))) ∧ s.Outstanding 1 ∧
      exec (step 65536) s
        (s.receipt (newFcall 3 (.tversion 8192 (lit "9P2000")))) = some s' ∧
      s'.conn.result? 2 = some (.error .unknownMsg) ∧ s'.conn.done 1 = false ∧
      s'.session.store.refs 1 = some 0 ∧
      ¬ Reset s (newFcall 3 (.tversion 8192 (lit "9P2000"))) s' ∧
      exec (step 65536) s' afterVersion = some u ∧
      u.conn.result? 1 = some (.ok (.rstat Dir.zero)) ∧
      u.conn.result? 3 = some (.ok (.rstat Dir.zero)) := by
  refine ⟨_, _, _, rfl, ⟨rfl, rfl⟩, ⟨_, rfl, rfl⟩, rfl, rfl, rfl, rfl, fun h => ?_, rfl, rfl, rfl⟩
  exact absurd (h.clunked 1) (by rintro ⟨⟩)

end Server

end P9p
