/-
# `P9p.Stack` — a client, a connection and a file server's session

The whole way of a call: the client's transport, the link, the server's loop
and its goroutines, and the operations of the session that the goroutines run,
in any interleaving.

    net        client transport, link and server loop     (`P9p.EndToEnd`)
    session    the operations on the fid table             (`P9p.Session`)
    thread     which goroutine runs which operation        (as in `P9p.Server`)

**Remote procedure calls.**  `Executes s r t` says that thread `t` of the
session executes the client's request `r`.  In every reachable state
(`remote_calls`):

    it is a partial bijection    a request is executed at most once, and a
                                 thread executes one request
    nothing is invented          the session was called for requests of the
                                 client only, with what arrived of their messages
    replies are truthful         what is delivered to a request is what arrives
                                 of the result its own thread has returned

Requests may be cancelled, contexts may end, reads and writes may fail, and
either end may close at any time; what a request then loses is its reply.
-/
import P9p.EndToEnd.Agreement
import P9p.Server.Goroutines

namespace P9p

open Conc

/-! ## What arrives of a call -/

/-- What arrives is a message of the type that was sent. -/
theorem Carried.message {wmsize rmsize : Nat} {f g : Fcall} (h : Carried wmsize rmsize f g) :
    ∃ m, g.message = .value m ∧ m.type = f.type := by
  obtain ⟨w, hon, hoff⟩ := h
  unfold offWire at hoff
  cases hu : unmarshal w.encode with
  | error e =>
      rw [hu] at hoff
      cases hoff
  | ok u =>
      rw [hu] at hoff
      obtain ⟨-, -, m, hm, htype⟩ := unmarshal_encode hu
      have hsent : m.type = f.type := htype.trans (maybeTruncate_type hon)
      rcases maybeTruncate_cases hoff with rfl | ⟨_, _, _, _, hu', rfl⟩ | ⟨_, _, _, _, hu', rfl⟩
      · exact ⟨m, hm, hsent⟩
      · rw [hm] at hu'
        cases hu'
        exact ⟨_, rfl, hsent⟩
      · rw [hm] at hu'
        cases hu'
        exact ⟨_, rfl, hsent⟩

/-- The types of the client's calls. -/
theorem Call.type_mem (c : Call) :
    c.message.type ∈ ([102, 104, 110, 112, 114, 116, 118, 120, 122, 124, 126] : List UInt8) := by
  cases c <;> simp [Call.message, Message.type]

/-- A message of the type of a client's call is an operation of the session. -/
theorem Call.op_of_type (c : Call) {m : Message} (h : m.type = c.message.type) (msize : Int) :
    ∃ op, (MessageVal.value m).op msize = some op := by
  have hmem := c.type_mem
  rw [← h] at hmem
  cases m with
  | tauth | tattach | twalk | topen | tcreate | tread | twrite | tclunk | tremove | tstat
  | twstat => exact ⟨_, rfl⟩
  | _ => simp [Message.type] at hmem

theorem Carried.op {wmsize rmsize : Nat} {c : Call} {t : Tag} {req : Fcall}
    (h : Carried wmsize rmsize (newFcall t c.message) req) (msize : Int) :
    ∃ op, req.message.op msize = some op := by
  obtain ⟨m, hm, htype⟩ := h.message
  rw [hm]
  exact c.op_of_type htype msize

/-! ## The requests of the goroutines -/

namespace EndToEnd

variable {cm sm : Nat} {s s' : State} {a : Act}

/-- The server's loop takes a step, or none. -/
theorem Step.server_cases (h : Step cm sm s a s') :
    s'.server = s.server ∨ ∃ b, Conn.Step s.server b s'.server ∧
      ∀ i r, b = .handled i r → a = .server (.handled i r) := by
  cases h with
  | client _ _ | clientWrite _ _ | clientRead _ _ _ | clientReadFail _ _ _ => exact Or.inl rfl
  | @server b v _ hv =>
      refine Or.inr ⟨b, hv, ?_⟩
      rintro i r rfl
      rfl
  | serverRead _ _ hr => exact Or.inr ⟨_, .readOk hr, by rintro i r ⟨⟩⟩
  | serverReadFail _ _ hv => exact Or.inr ⟨_, hv, by rintro i r ⟨⟩⟩
  | serverWrite hw _ => exact Or.inr ⟨_, .writeOk hw, by rintro i r ⟨⟩⟩

/-- A goroutine that is started works for the request that was offered. -/
theorem Step.origin_cases (h : Step cm sm s a s') :
    (s'.origin = s.origin ∧ ∀ i, s'.server.req? i = s.server.req? i) ∨
    ∃ req, s.server.reader = .offering req ∧ s'.origin = s.origin ++ [s.offered] ∧
      ∀ i, s'.server.req? i =
        if i = s.server.handlers.length then some req else s.server.req? i := by
  cases h with
  | client _ _ | clientWrite _ _ | clientRead _ _ _ | clientReadFail _ _ _ | serverRead _ _ _
  | serverWrite _ _ => exact Or.inl ⟨rfl, fun _ => rfl⟩
  | serverReadFail _ _ hv =>
      rcases hv.req?_cases with ⟨-, hsame⟩ | ⟨req, hact, -⟩
      · exact Or.inl ⟨rfl, hsame⟩
      · cases hact
  | server _ hv =>
      rcases hv.req?_cases with ⟨hlen, hsame⟩ | ⟨req, rfl, hreader, hlen, hnew⟩
      · exact Or.inl ⟨if_neg (by omega), hsame⟩
      · exact Or.inr ⟨req, hreader, if_pos (by omega), hnew⟩

/-- The calls of the client stay what they are. -/
theorem Step.calls (h : Step cm sm s a s') (hinv : Inv cm sm s) {r : Nat} {q : Transport.Request}
    (hq : s.client.requests[r]? = some q) :
    ∃ q', s'.client.requests[r]? = some q' ∧ q'.call = q.call := by
  cases h with
  | client _ hc =>
      obtain ⟨q', hq', hf⟩ := (hc.requests hinv.client).forward r q hq
      exact ⟨q', hq', hf.call⟩
  | server _ _ | clientWrite _ _ | serverRead _ _ _ | serverReadFail _ _ _ | serverWrite _ _
  | clientRead _ _ _ | clientReadFail _ _ _ => exact ⟨q, hq, rfl⟩

/-- Every goroutine has a request: what arrived of its origin's call. -/
def Asked (cm sm : Nat) (s : State) : Prop :=
  ∀ i r, s.origin[i]? = some r → ∃ q req, s.client.requests[r]? = some q ∧
    s.server.req? i = some req ∧ Carried cm sm (newFcall req.tag q.call.message) req

theorem asked_init : Asked cm sm init := by
  intro i r h
  cases h

theorem Asked.step (hasked : Asked cm sm s) (hinv : Inv cm sm s) (h : Step cm sm s a s') :
    Asked cm sm s' := by
  -- what a goroutine has been asked it has been asked for good
  have hold : ∀ i r, s.origin[i]? = some r → ∃ q req, s'.client.requests[r]? = some q ∧
      s.server.req? i = some req ∧ Carried cm sm (newFcall req.tag q.call.message) req := by
    intro i r hi
    obtain ⟨q, req, hq, hreq, hcarried⟩ := hasked i r hi
    obtain ⟨q', hq', hcall⟩ := h.calls hinv hq
    exact ⟨q', req, hq', hreq, hcall ▸ hcarried⟩
  intro i r hi
  rcases h.origin_cases with ⟨horigin, hreqs⟩ | ⟨req, hreader, horigin, hreqs⟩
  · rw [hreqs]
    exact hold i r (horigin ▸ hi)
  · rw [horigin] at hi
    rcases getElem?_snoc_cases hi with hi | ⟨rfl, rfl⟩
    · have hlt := (List.getElem?_eq_some_iff.mp hi).1
      rw [hreqs, if_neg (Nat.ne_of_lt (hinv.origins ▸ hlt))]
      exact hold i r hi
    · obtain ⟨-, q, hq, hcarried, -⟩ := hinv.tokens .offered s.offered req ⟨hreader, rfl⟩
      obtain ⟨q', hq', hcall⟩ := h.calls hinv hq
      refine ⟨q', req, hq', ?_, hcall ▸ hcarried⟩
      rw [hreqs, if_pos hinv.origins]

end EndToEnd

/-! ## The system -/

structure Stack where
  net : EndToEnd.State
  session : Session.State
  thread : Nat → Option Nat

namespace Stack

def init : Stack := ⟨EndToEnd.init, Session.initial, fun _ => none⟩

/-- The server's side of it. -/
def server (s : Stack) : Server := ⟨s.net.server, s.session, s.thread⟩

inductive Act where
  | net (a : EndToEnd.Act)
  | session (t : Nat) (env : Session.Env)
  | handled (i : Nat) (p : Bytes)

/-- The two ends have taken a step.  If the server has started a goroutine, that
calls the session. -/
def follow (msize : Int) (s : Stack) (net : EndToEnd.State) : Stack :=
  ⟨net, (s.server.follow msize net.server).session, (s.server.follow msize net.server).thread⟩

section System

-- the msizes of the client's and of the server's channel, and that of the session
variable (cm sm : Nat) (msize : Int)

/-- What `Handle` returns is not for the environment to choose here. -/
def step (s : Stack) : Act → Option Stack
  | .net (.server (.handled _ _)) => none
  | .net a => (EndToEnd.step cm sm s.net a).map (s.follow msize)
  | .session t env =>
      (Session.step s.session (.run t env)).map fun session => { s with session }
  | .handled i p =>
      match s.net.server.handlers[i]? with
      | none => none
      | some h =>
          match s.server.answer msize i h.req.message p with
          | none => none
          | some r =>
              (EndToEnd.step cm sm s.net (.server (.handled i r))).map fun net => { s with net }

inductive Step (s : Stack) : Act → Stack → Prop where
  | net {a : EndToEnd.Act} {net : EndToEnd.State} : EndToEnd.Step cm sm s.net a net →
      (∀ i r, a ≠ .server (.handled i r)) → Step s (.net a) (s.follow msize net)
  | session {t : Nat} {env : Session.Env} {session : Session.State} :
      Session.step s.session (.run t env) = some session →
      Step s (.session t env) { s with session }
  | handled {i : Nat} {p : Bytes} {req : Fcall} {r : Except Err Message} {net : EndToEnd.State} :
      s.net.server.req? i = some req → s.server.answer msize i req.message p = some r →
      EndToEnd.Step cm sm s.net (.server (.handled i r)) net →
      Step s (.handled i p) { s with net }

theorem step_cases {s s' : Stack} {a : Act} (h : step cm sm msize s a = some s') :
    Step cm sm msize s a s' := by
  cases a with
  | net a =>
      have ha : ∀ i r, a ≠ .server (.handled i r) := by
        rintro i r rfl
        cases h
      have hmap : step cm sm msize s (.net a) =
          (EndToEnd.step cm sm s.net a).map (s.follow msize) := by
        cases a with
        | server b =>
            cases b with
            | handled i r => exact absurd rfl (ha i r)
            | _ => rfl
        | _ => rfl
      rw [hmap] at h
      obtain ⟨net, hnet, rfl⟩ := Option.map_eq_some_iff.mp h
      exact .net (EndToEnd.step_cases cm sm hnet) ha
  | session t env =>
      obtain ⟨session, hs, rfl⟩ := Option.map_eq_some_iff.mp h
      exact .session hs
  | handled i p =>
      simp only [step] at h
      split at h
      · cases h
      · rename_i hd hi
        split at h
        · cases h
        · rename_i r hr
          obtain ⟨net, hnet, rfl⟩ := Option.map_eq_some_iff.mp h
          exact .handled (Conn.State.req?_of_getElem? hi) hr (EndToEnd.step_cases cm sm hnet)

end System

variable {cm sm : Nat} {msize : Int} {s s' : Stack} {a : Act}

theorem follow_server (s : Stack) (net : EndToEnd.State) :
    (s.follow msize net).server = s.server.follow msize net.server := by
  have hconn := Server.follow_conn msize s.server net.server
  rw [follow]
  cases hv : s.server.follow msize net.server with
  | mk conn session thread =>
      rw [hv] at hconn
      cases hconn
      rfl

/-- The server's side takes a step of its own, or none. -/
theorem Step.server (h : Step cm sm msize s a s') :
    s'.server = s.server ∨ ∃ b, Server.Step msize s.server b s'.server := by
  cases h with
  | @net a net hnet ha =>
      rw [follow_server]
      rcases hnet.server_cases with heq | ⟨b, hb, hhandled⟩
      · rw [heq]
        exact Or.inl (Server.follow_self s.server)
      · exact Or.inr ⟨_, Server.follow_cases hb fun i r hbr => ha i r (hhandled i r hbr)⟩
  | session hs => exact Or.inr ⟨_, .session hs⟩
  | @handled i p req r net hreq hans hnet =>
      rcases hnet with _ | ⟨-, hv⟩
      exact Or.inr ⟨_, .handled hreq hans hv⟩

structure Inv (cm sm : Nat) (msize : Int) (s : Stack) : Prop where
  net : EndToEnd.Inv cm sm s.net
  asked : EndToEnd.Asked cm sm s.net
  server : Server.Inv msize s.server

theorem inv_init : Inv cm sm msize init :=
  ⟨EndToEnd.inv_init, EndToEnd.asked_init, Server.inv_init⟩

theorem Inv.step (h : Inv cm sm msize s) (hstep : Step cm sm msize s a s') :
    Inv cm sm msize s' := by
  have hserver : Server.Inv msize s'.server := by
    rcases hstep.server with heq | ⟨b, hb⟩
    · rw [heq]
      exact h.server
    · exact h.server.step hb
  cases hstep with
  | net hnet _ => exact ⟨h.net.step hnet, h.asked.step h.net hnet, hserver⟩
  | session _ => exact ⟨h.net, h.asked, hserver⟩
  | handled _ _ hnet => exact ⟨h.net.step hnet, h.asked.step h.net hnet, hserver⟩

/-! ## Remote procedure calls -/

/-- Thread `t` of the session executes the client's request `r`. -/
def Executes (s : Stack) (r t : Nat) : Prop :=
  ∃ i : Nat, s.net.origin[i]? = some r ∧ s.thread i = some t

/-- What the server has of the request `q`, and the operation it is. -/
structure Arrived (cm sm : Nat) (msize : Int) (q : Transport.Request) (req : Fcall)
    (op : Session.Op) : Prop where
  carried : Carried cm sm (newFcall req.tag q.call.message) req
  op : req.message.op msize = some op

structure RemoteCalls (cm sm : Nat) (msize : Int) (s : Stack) : Prop where
  /-- What is delivered to a request is the result of its own execution. -/
  truthful : ∀ (r : Nat) (q : Transport.Request) b, s.net.client.requests[r]? = some q →
    b ∈ q.response → ∃ t req op p ret res, Executes s r t ∧ Arrived cm sm msize q req op ∧
      .invoked t op ∈ s.session.store.log ∧ s.session.threads[t]? = some (.ret ret) ∧
      op.answer p ret = some res ∧ Carried sm cm (Conn.respond req res) b
  /-- A request is executed at most once. -/
  once : ∀ {r t t'}, Executes s r t → Executes s r t' → t = t'
  /-- A thread of the session executes one request. -/
  apart : ∀ {r r' t}, Executes s r t → Executes s r' t → r = r'
  /-- The session has been called for requests of the client only. -/
  nothingElse : ∀ t op, .invoked t op ∈ s.session.store.log → ∃ (r : Nat) (q : _) (req : _),
    Executes s r t ∧ s.net.client.requests[r]? = some q ∧ Arrived cm sm msize q req op

/-- Every goroutine has an origin. -/
theorem Inv.origin (h : Inv cm sm msize s) {i : Nat} {req : Fcall}
    (hreq : s.net.server.req? i = some req) : ∃ r, s.net.origin[i]? = some r := by
  have hlt := Conn.State.req?_eq_some_lt hreq
  rw [← h.net.origins] at hlt
  exact ⟨_, List.getElem?_eq_getElem hlt⟩

theorem Inv.truthful (h : Inv cm sm msize s) {r : Nat} {q : Transport.Request} {b : Fcall}
    (hq : s.net.client.requests[r]? = some q) (hb : b ∈ q.response) :
    ∃ t req op p ret res, Executes s r t ∧ Arrived cm sm msize q req op ∧
      .invoked t op ∈ s.session.store.log ∧ s.session.threads[t]? = some (.ret ret) ∧
      op.answer p ret = some res ∧ Carried sm cm (Conn.respond req res) b := by
  obtain ⟨resp, ⟨i, req, res, hi, hcarried, haccepted, hhandled, rfl⟩, hback⟩ :=
    h.net.delivered r q b hq hb
  have hreq : s.net.server.req? i = some req := h.server.logged.log _ haccepted
  rw [Conn.respond_tag] at hcarried
  obtain ⟨req', p, hreq', hans⟩ := h.server.returned i res (h.server.logged.log _ hhandled)
  cases hreq.symm.trans hreq'
  obtain ⟨op, hop⟩ := hcarried.op msize
  obtain ⟨t, ht⟩ := h.server.called i req op hreq hop
  obtain ⟨-, req'', op', hreq'', hop', hinvoked⟩ := h.server.running i t ht
  cases hreq.symm.trans hreq''
  cases hop.symm.trans hop'
  -- the answer was made of what thread `t` has returned
  have hret : ∃ ret, s.session.threads[t]? = some (.ret ret) ∧ op.answer p ret = some res := by
    have hthread : s.thread i = some t := ht
    simp only [Server.answer, hop, Stack.server, hthread, Option.bind_some] at hans
    split at hans
    · rename_i ret hget
      exact ⟨ret, hget, hans⟩
    · cases hans
  obtain ⟨ret, hget, hanswer⟩ := hret
  exact ⟨t, req, op, p, ret, res, ⟨i, hi, ht⟩, ⟨hcarried, hop⟩, hinvoked, hget, hanswer, hback⟩

theorem Inv.once (h : Inv cm sm msize s) {r t t' : Nat} (he : Executes s r t)
    (he' : Executes s r t') : t = t' := by
  obtain ⟨i, hi, ht⟩ := he
  obtain ⟨j, hj, ht'⟩ := he'
  have hlt := (List.getElem?_eq_some_iff.mp hi).1
  obtain rfl : i = j := (List.getElem?_inj hlt h.net.nodup).mp (hi.trans hj.symm)
  exact Option.some.inj (ht.symm.trans ht')

theorem Inv.apart (h : Inv cm sm msize s) {r r' t : Nat} (he : Executes s r t)
    (he' : Executes s r' t) : r = r' := by
  obtain ⟨i, hi, ht⟩ := he
  obtain ⟨j, hj, ht'⟩ := he'
  obtain rfl := h.server.injective i j t ht ht'
  exact Option.some.inj (hi.symm.trans hj)

theorem Inv.nothingElse (h : Inv cm sm msize s) {t : Nat} {op : Session.Op}
    (hm : .invoked t op ∈ s.session.store.log) : ∃ (r : Nat) (q : _) (req : _),
      Executes s r t ∧ s.net.client.requests[r]? = some q ∧ Arrived cm sm msize q req op := by
  obtain ⟨i, req, ht, hreq, hop⟩ := h.server.invoked t op hm
  obtain ⟨r, hr⟩ := h.origin hreq
  obtain ⟨q, req', hq, hreq', hcarried⟩ := h.asked i r hr
  cases hreq.symm.trans hreq'
  exact ⟨r, q, req, ⟨i, hr, ht⟩, hq, hcarried, hop⟩

/-- After any run, the calls of the client and the operations of the session
correspond. -/
theorem remote_calls (cm sm : Nat) (msize : Int) (acts : List Act) (s : Stack)
    (hrun : exec (step cm sm msize) init acts = some s) : RemoteCalls cm sm msize s := by
  have h : Inv cm sm msize s :=
    reachable_invariant (fun hi hs => hi.step (step_cases cm sm msize hs)) inv_init ⟨acts, hrun⟩
  exact ⟨fun _ _ _ hq hb => h.truthful hq hb, h.once, h.apart, fun _ _ hm => h.nothingElse hm⟩

/-- The client makes a call. -/
def calls (c : Call) : List Act := [.net (.client (.call c))]

/-- Request `r` is given a tag, sent and accepted. -/
def sends (r : Nat) : List Act :=
  [.net (.client (.dispatch r)), .net .clientWrite, .net .serverRead, .net (.server .accept)]

/-- `n` commands of thread `t` of the session. -/
def works (t n : Nat) : List Act := List.replicate n (.session t Session.agreeable)

/-- Goroutine `i` returns, and its response is sent and delivered. -/
def answers (i : Nat) : List Act :=
  [.handled i [], .net (.server (.complete i)), .net (.server .handover), .net .serverWrite,
    .net .clientRead, .net (.client .deliver)]

/-- An `Attach` and a `Walk` from the fid it binds, answered in turn, while the
`Clunk` of another is cancelled and never answered. -/
def attachWalkRun : List Act :=
  calls (.attach 1 noFid [] []) ++ sends 0 ++ works 0 7 ++ answers 0 ++
    calls (.walk 1 3 [lit "a"]) ++ calls (.clunk 2) ++ sends 2 ++ sends 1 ++
    [.net (.client (.cancel 2 (.other (lit "context canceled"))))] ++ works 2 13 ++ answers 2

theorem remote_calls_attachWalkRun :
    ∃ s, exec (step 8192 8192 65536) init attachWalkRun = some s ∧
      s.net.client.requests.map (·.response) =
        [[newFcall 1 (.rattach ⟨qtdir, 0, 0⟩)], [newFcall 3 (.rwalk [⟨qtdir, 0, 0⟩])], []] ∧
      RemoteCalls 8192 8192 65536 s := by
  have hrun : (exec (step 8192 8192 65536) init attachWalkRun).map
      (fun s => s.net.client.requests.map (·.response)) =
        some [[newFcall 1 (.rattach ⟨qtdir, 0, 0⟩)], [newFcall 3 (.rwalk [⟨qtdir, 0, 0⟩])],
          []] := by
    decide +kernel
  obtain ⟨s, hs, hresponses⟩ := Option.map_eq_some_iff.mp hrun
  exact ⟨s, hs, hresponses, remote_calls 8192 8192 65536 attachWalkRun s hs⟩

end Stack

end P9p
