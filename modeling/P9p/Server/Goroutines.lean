/-
# `P9p.Server.Goroutines` — one operation for each request that is accepted

The loop starts a goroutine for each request that it accepts; `Handle` in it
calls a method of the session, and the goroutine answers with its result.  Here
that is stated of the loop and the session together, whatever the order of
their steps:

    running, called    a goroutine whose message is an operation has a thread of
                       the session, which was invoked with that operation
    injective, onto    no two have the same thread, and no thread is nobody's
    invoked            the session was called with nothing else
    returned           what `Handle` has returned in a goroutine is the answer
                       made of what its own thread has returned
    logged             what the loop has sent for a goroutine is made of that

A thread that has returned takes no step, so its answer survives whatever the
others do (`answer_mono`).
-/
import P9p.Server
import P9p.ServeConn.Contexts
import P9p.Session.Alone

namespace P9p

open Conc

variable {i : Nat} {conn : Conn.State}

/-! ## The goroutines of the loop -/

namespace Conn

open State

variable {s s' : State} {a : Act}

/-- A step starts a goroutine for the request that the reader offers, or none. -/
theorem Step.req?_cases (h : Step s a s') :
    (s'.handlers.length = s.handlers.length ∧ ∀ i, s'.req? i = s.req? i) ∨
    ∃ req, a = .accept ∧ s.reader = .offering req ∧
      s'.handlers.length = s.handlers.length + 1 ∧
      ∀ i, s'.req? i = if i = s.handlers.length then some req else s.req? i := by
  cases h with
  | @start req hreader _ _ _ =>
      refine Or.inr ⟨req, rfl, hreader, ?_, fun i => start_req? s i req⟩
      simp [State.start]
  | complete _ hi _ _ _ | drop _ hi _ _ _ | handlerCtxDone hi _ _ _ | handlerClosed hi _ _ _
  | handled hi _ =>
      exact Or.inl ⟨setHandler_length _ _ _, setHandler_req? hi rfl⟩
  | flush _ _ _ _ _ => exact Or.inl ⟨cancel_length _ _, cancel_req? s _⟩
  | serveCtxDone _ _ | serveClosed _ _ =>
      exact Or.inl ⟨List.length_mapIdx, fun i => serveReturn_req? s i _⟩
  | readFail _ | readerCtxDone _ _ | writeFail _ | writerCtxDone _ _ | close =>
      exact Or.inl ⟨by simp, by simp [Conn.State.req?]⟩
  | readOk _ | readRetry _ | readerClosed _ _ | refuse _ _ _ | flushUnknown _ _ _ _ _
  | sendRefusal _ _ | sendFlush _ _ | send _ _ | abandon _ _ | writeOk _ | writeRetry _
  | writerClosed _ _ | cancelCtx _ =>
      exact Or.inl ⟨rfl, fun _ => rfl⟩

/-- `Handle` returns in one goroutine, or in none. -/
theorem Step.result?_cases (h : Step s a s') :
    ((∀ i r, a ≠ .handled i r) ∧ ∀ i, s'.result? i = s.result? i) ∨
    ∃ i r, a = .handled i r ∧ i < s.handlers.length ∧ s.result? i = none ∧
      ∀ j, s'.result? j = if i = j then some r else s.result? j := by
  cases h with
  | @handled i hd r hi hnone =>
      refine Or.inr ⟨i, r, rfl, (List.getElem?_eq_some_iff.mp hi).1, ?_, fun j => ?_⟩
      · rw [result?_of_getElem? hi, hnone]
      · exact setHandler_result? hi _ j
  | start _ _ _ _ => exact Or.inl ⟨by rintro _ _ ⟨⟩, fun i => start_result? s i _⟩
  | complete _ hi _ _ _ | drop _ hi _ _ _ | handlerCtxDone hi _ _ _ | handlerClosed hi _ _ _ =>
      exact Or.inl ⟨by rintro _ _ ⟨⟩, setHandler_gone_result? hi⟩
  | flush _ _ _ _ _ => exact Or.inl ⟨by rintro _ _ ⟨⟩, cancel_result? s _⟩
  | serveCtxDone _ _ | serveClosed _ _ =>
      exact Or.inl ⟨by rintro _ _ ⟨⟩, fun i => serveReturn_result? s i _⟩
  | readFail _ | readerCtxDone _ _ | writeFail _ | writerCtxDone _ _ | close =>
      exact Or.inl ⟨by rintro _ _ ⟨⟩, by simp [Conn.State.result?]⟩
  | readOk _ | readRetry _ | readerClosed _ _ | refuse _ _ _ | flushUnknown _ _ _ _ _
  | sendRefusal _ _ | sendFlush _ _ | send _ _ | abandon _ _ | writeOk _ | writeRetry _
  | writerClosed _ _ | cancelCtx _ =>
      exact Or.inl ⟨by rintro _ _ ⟨⟩, fun _ => rfl⟩

theorem Step.result?_mono (h : Step s a s') {r : Except Err Message} (hi : s.result? i = some r) :
    s'.result? i = some r := by
  rcases h.result?_cases with ⟨-, hsame⟩ | ⟨j, r', -, -, hnone, hnew⟩
  · rw [hsame, hi]
  · rw [hnew, if_neg, hi]
    rintro rfl
    rw [hnone] at hi
    cases hi

/-- `resp` is made of what `Handle` has returned in goroutine `i`. -/
def Answers (s : State) (i : Nat) (resp : Fcall) : Prop :=
  ∃ req r, s.req? i = some req ∧ s.result? i = some r ∧ resp = respond req r

theorem Answers.step {resp : Fcall} (hans : Answers s i resp) (h : Step s a s') :
    Answers s' i resp := by
  obtain ⟨req, r, hreq, hr, rfl⟩ := hans
  exact ⟨req, r, h.req? hreq, h.result?_mono hr, rfl⟩

/-- The state bears out what the log says of a goroutine. -/
def Event.Holds (s : State) : Event → Prop
  | .accepted i req => s.req? i = some req
  | .handled i r => s.result? i = some r
  | .sent i resp => Answers s i resp
  | _ => True

/-- What is logged holds, and what is being handed on is an answer. -/
structure Logged (s : State) : Prop where
  log : ∀ e ∈ s.log, e.Holds s
  handing : ∀ {resp active src}, s.serve = .handing resp active src → Answers s src resp

theorem logged_init : Logged init where
  log := by intro e he; cases he
  handing := by rintro resp active src ⟨⟩

/-- A step records nothing that does not hold after it. -/
theorem Logged.log_cases (hl : Logged s) (h : Step s a s') : s'.log = s.log ∨
    ∃ e, s'.log = s.log ++ [e] ∧ e.Holds s' := by
  have hsent : ∀ {resp active src}, s.serve = .handing resp active src → Answers s' src resp :=
    fun hserve => (hl.handing hserve).step h
  cases h with
  | @start req _ _ _ _ =>
      refine Or.inr ⟨.accepted s.handlers.length req, rfl, ?_⟩
      exact (start_req? s _ req).trans (if_pos rfl)
  | @handled i hd r hi _ =>
      refine Or.inr ⟨.handled i r, rfl, ?_⟩
      exact (setHandler_result? hi _ i).trans (if_pos rfl)
  | @send resp _ src hserve _ => exact Or.inr ⟨.sent src resp, rfl, hsent hserve⟩
  | sendRefusal _ _ | sendFlush _ _ => exact Or.inr ⟨_, rfl, trivial⟩
  | readFail _ | readerCtxDone _ _ | writeFail _ | writerCtxDone _ _ | close =>
      exact Or.inl (by simp)
  | readOk _ | readRetry _ | readerClosed _ _ | refuse _ _ _ | flush _ _ _ _ _
  | flushUnknown _ _ _ _ _ | complete _ _ _ _ _ | drop _ _ _ _ _ | abandon _ _
  | serveCtxDone _ _ | serveClosed _ _ | handlerCtxDone _ _ _ _ | handlerClosed _ _ _ _
  | writeOk _ | writeRetry _ | writerClosed _ _ | cancelCtx _ =>
      exact Or.inl rfl

/-- The loop begins to hand on only what a goroutine has completed. -/
theorem Logged.handing_step (hl : Logged s) (h : Step s a s') {resp : Fcall} {active src : Nat}
    (hserve : s'.serve = .handing resp active src) : Answers s' src resp := by
  have hstep : Answers s src resp → Answers s' src resp := fun hans => hans.step h
  have hold : s'.serve = s.serve → Answers s' src resp :=
    fun heq => hstep (hl.handing (heq.symm.trans hserve))
  cases h with
  | @complete _ _ hd r _ hi hr _ _ =>
      cases hserve
      exact hstep ⟨hd.req, r, req?_of_getElem? hi, (result?_of_getElem? hi).trans hr, rfl⟩
  | refuse _ _ _ | flush _ _ _ _ _ | flushUnknown _ _ _ _ _ | sendRefusal _ _ | sendFlush _ _
  | send _ _ | abandon _ _ | serveCtxDone _ _ | serveClosed _ _ => cases hserve
  | readFail _ | readerCtxDone _ _ | writeFail _ | writerCtxDone _ _ | close =>
      exact hold (by simp)
  | readOk _ | readRetry _ | readerClosed _ _ | start _ _ _ _ | drop _ _ _ _ _ | handled _ _
  | handlerCtxDone _ _ _ _ | handlerClosed _ _ _ _ | writeOk _ | writeRetry _
  | writerClosed _ _ | cancelCtx _ =>
      exact hold rfl

theorem Logged.step (hl : Logged s) (h : Step s a s') : Logged s' := by
  refine ⟨?_, hl.handing_step h⟩
  have hold : ∀ e ∈ s.log, e.Holds s' := by
    intro e he
    have hs := hl.log e he
    cases e with
    | accepted i req => exact h.req? hs
    | handled i r => exact h.result?_mono hs
    | sent i resp => exact Answers.step hs h
    | sentFlush _ _ | refused _ => trivial
  intro e he
  rcases hl.log_cases h with heq | ⟨e', heq, hnew⟩
  · exact hold e (heq ▸ he)
  · rw [heq] at he
    rcases List.mem_append.mp he with he | he
    · exact hold e he
    · cases List.mem_singleton.mp he
      exact hnew

end Conn

/-! ## Commands invoke nothing -/

namespace Session

/-- Only an invocation is recorded as one. -/
theorem exec_invoked {s s' : Store} {t t' : Nat} {c : Cmd} {e : Env} {r : c.Res} {op : Op}
    (h : exec s t c e = some (r, s')) (hm : .invoked t' op ∈ s'.log) : .invoked t' op ∈ s.log := by
  have hsnoc : ∀ {l : List Event} {ev : Event}, (∀ op, ev ≠ .invoked t' op) →
      .invoked t' op ∈ l ++ [ev] → .invoked t' op ∈ l := by
    intro l ev hne hm
    rcases List.mem_append.mp hm with hm | hm
    · exact hm
    · exact absurd (List.mem_singleton.mp hm).symm (hne op)
  cases c with
  | storeNew fid =>
      rcases exec_storeNew h with ⟨-, rfl⟩ | ⟨-, -, rfl⟩
      · exact hm
      · exact hsnoc (by rintro _ ⟨⟩) hm
  | loadAndDelete fid =>
      rcases exec_loadAndDelete h with ⟨-, rfl⟩ | ⟨ref, -, -, rfl⟩
      · exact hm
      · exact hsnoc (by rintro _ ⟨⟩) hm
  | lock ref =>
      obtain ⟨-, rfl⟩ := exec_lock h
      exact hm
  | unlock ref =>
      obtain rfl := exec_unlock h
      exact hm
  | delete fid | enter c | leave c =>
      cases h
      exact hsnoc (by rintro _ ⟨⟩) hm
  | load fid | getEnt ref | setEnt ref ent | getFile ref | setFile ref file | getMode ref
  | setMode ref mode =>
      cases h
      exact hm

end Session

/-! ## What a step of the server can do -/

namespace Server

variable {msize : Int} {s s' : Server} {a : Act}

inductive Step (msize : Int) (s : Server) : Act → Server → Prop where
  | quiet {a : Conn.Act} {conn : Conn.State} : Conn.Step s.conn a conn →
      (∀ i r, a ≠ .handled i r) → (∀ i, conn.req? i = s.conn.req? i) →
      Step msize s (.loop a) { s with conn }
  | unknown {req : Fcall} {conn : Conn.State} : Conn.Step s.conn .accept conn →
      s.conn.reader = .offering req →
      (∀ i, conn.req? i = if i = s.conn.handlers.length then some req else s.conn.req? i) →
      req.message.op msize = none → Step msize s (.loop .accept) { s with conn }
  | invoke {req : Fcall} {conn : Conn.State} {op : Session.Op} : Conn.Step s.conn .accept conn →
      s.conn.reader = .offering req →
      (∀ i, conn.req? i = if i = s.conn.handlers.length then some req else s.conn.req? i) →
      req.message.op msize = some op →
      Step msize s (.loop .accept)
        { conn
          session := ⟨Session.start s.session.store s.session.threads.length op,
            s.session.threads ++ [op.prog]⟩
          thread := Function.update s.thread s.conn.handlers.length
            (some s.session.threads.length) }
  | session {t : Nat} {env : Session.Env} {session : Session.State} :
      Session.step s.session (.run t env) = some session →
      Step msize s (.session t env) { s with session }
  | handled {i : Nat} {p : Bytes} {req : Fcall} {r : Except Err Message} {conn : Conn.State} :
      s.conn.req? i = some req → s.answer msize i req.message p = some r →
      Conn.Step s.conn (.handled i r) conn → Step msize s (.handled i p) { s with conn }

theorem follow_conn (msize : Int) (s : Server) (conn : Conn.State) :
    (s.follow msize conn).conn = conn := by
  unfold follow
  split
  · rfl
  · split <;> rfl

/-- With no new goroutine the session is not called. -/
theorem follow_self (s : Server) : s.follow msize s.conn = s := by
  rw [follow, List.getElem?_length]

theorem follow_cases {a : Conn.Act} (hconn : Conn.Step s.conn a conn)
    (ha : ∀ i r, a ≠ .handled i r) : Step msize s (.loop a) (s.follow msize conn) := by
  rcases hconn.req?_cases with ⟨hlen, hsame⟩ | ⟨req, rfl, hreader, hlen, hnew⟩
  · rw [follow, List.getElem?_eq_none (Nat.le_of_eq hlen)]
    exact .quiet hconn ha hsame
  · have hlast : conn.req? s.conn.handlers.length = some req := by rw [hnew, if_pos rfl]
    obtain ⟨hd, hget, rfl⟩ := Option.map_eq_some_iff.mp hlast
    cases hop : hd.req.message.op msize with
    | none =>
        simp only [follow, hget, hop]
        exact .unknown hconn hreader hnew hop
    | some op =>
        simp only [follow, hget, hop]
        exact .invoke hconn hreader hnew hop

theorem step_cases (h : step msize s a = some s') : Step msize s a s' := by
  cases a with
  | loop a =>
      have ha : ∀ i r, a ≠ .handled i r := by
        rintro i r rfl
        cases h
      have hmap : step msize s (.loop a) = (Conn.step s.conn a).map (s.follow msize) := by
        cases a with
        | handled i r => exact absurd rfl (ha i r)
        | _ => rfl
      rw [hmap] at h
      obtain ⟨conn, hconn, rfl⟩ := Option.map_eq_some_iff.mp h
      exact follow_cases (Conn.step_cases hconn) ha
  | session t env =>
      obtain ⟨session, hs, rfl⟩ := Option.map_eq_some_iff.mp h
      exact .session hs
  | handled i p =>
      simp only [step] at h
      split at h
      · cases h
      · rename_i hd hi
        split at h
        · cases h
        · rename_i r hr
          obtain ⟨conn, hconn, rfl⟩ := Option.map_eq_some_iff.mp h
          exact .handled (Conn.State.req?_of_getElem? hi) hr (Conn.step_cases hconn)

/-! ## The invariant -/

structure Inv (msize : Int) (s : Server) : Prop where
  logged : Conn.Logged s.conn
  running : ∀ i t, s.thread i = some t → t < s.session.threads.length ∧
    ∃ req op, s.conn.req? i = some req ∧ req.message.op msize = some op ∧
      .invoked t op ∈ s.session.store.log
  called : ∀ i req op, s.conn.req? i = some req → req.message.op msize = some op →
    ∃ t, s.thread i = some t
  injective : ∀ i j t, s.thread i = some t → s.thread j = some t → i = j
  onto : ∀ t, t < s.session.threads.length → ∃ i, s.thread i = some t
  invoked : ∀ t op, .invoked t op ∈ s.session.store.log →
    ∃ i req, s.thread i = some t ∧ s.conn.req? i = some req ∧ req.message.op msize = some op
  returned : ∀ i r, s.conn.result? i = some r →
    ∃ req p, s.conn.req? i = some req ∧ s.answer msize i req.message p = some r

theorem inv_init : Inv msize init where
  logged := Conn.logged_init
  running := by intro i t h; cases h
  called := by intro i req op h; cases h
  injective := by intro i j t h; cases h
  onto := by intro t h; cases h
  invoked := by intro t op h; cases h
  returned := by intro i r h; cases h

/-- What a thread has returned stays so, and with it the answer. -/
theorem answer_mono {m : MessageVal} {p : Bytes} {r : Except Err Message}
    (h : s.answer msize i m p = some r)
    (hthread : ∀ t, s.thread i = some t → s'.thread i = some t)
    (hret : ∀ (t : Nat) ret, s.session.threads[t]? = some (.ret ret) →
      s'.session.threads[t]? = some (.ret ret)) : s'.answer msize i m p = some r := by
  unfold answer at h ⊢
  cases hop : m.op msize with
  | none =>
      rw [hop] at h
      exact h
  | some op =>
      rw [hop] at h
      simp only at h ⊢
      split at h
      · rename_i ret hbind
        obtain ⟨t, ht, hget⟩ := Option.bind_eq_some_iff.mp hbind
        rw [hthread t ht, Option.bind_some, hret t ret hget]
        exact h
      · cases h

/-- The loop takes a step that starts no goroutine and ends no `Handle`. -/
theorem Inv.loop {a : Conn.Act} (h : Inv msize s) (hconn : Conn.Step s.conn a conn)
    (hreqs : ∀ i, conn.req? i = s.conn.req? i)
    (hreturned : ∀ i r, conn.result? i = some r → s.conn.result? i = some r ∨
      ∃ req p, s.conn.req? i = some req ∧ s.answer msize i req.message p = some r) :
    Inv msize { s with conn } where
  logged := h.logged.step hconn
  running := by
    intro i t ht
    obtain ⟨hlt, req, op, hreq, hop, hm⟩ := h.running i t ht
    exact ⟨hlt, req, op, (hreqs i).trans hreq, hop, hm⟩
  called := fun i req op hreq hop => h.called i req op ((hreqs i).symm.trans hreq) hop
  injective := h.injective
  onto := h.onto
  invoked := by
    intro t op hm
    obtain ⟨i, req, ht, hreq, hop⟩ := h.invoked t op hm
    exact ⟨i, req, ht, (hreqs i).trans hreq, hop⟩
  returned := by
    intro i r hr
    have hold : ∃ req p, s.conn.req? i = some req ∧ s.answer msize i req.message p = some r := by
      rcases hreturned i r hr with hold | hnew
      · exact h.returned i r hold
      · exact hnew
    obtain ⟨req, p, hreq, hans⟩ := hold
    exact ⟨req, p, (hreqs i).trans hreq, hans⟩

/-- A goroutine is started for a message that is no operation. -/
theorem Inv.unknown {req : Fcall} (h : Inv msize s) (hconn : Conn.Step s.conn .accept conn)
    (hreqs : ∀ i, conn.req? i = if i = s.conn.handlers.length then some req else s.conn.req? i)
    (hop : req.message.op msize = none) : Inv msize { s with conn } where
  logged := h.logged.step hconn
  running := by
    intro i t ht
    obtain ⟨hlt, req', op, hreq, hop', hm⟩ := h.running i t ht
    exact ⟨hlt, req', op, hconn.req? hreq, hop', hm⟩
  called := by
    intro i req' op hreq hop'
    have hreq' := (hreqs i).symm.trans hreq
    split at hreq'
    · cases hreq'
      rw [hop] at hop'
      cases hop'
    · exact h.called i req' op hreq' hop'
  injective := h.injective
  onto := h.onto
  invoked := by
    intro t op hm
    obtain ⟨i, req', ht, hreq, hop'⟩ := h.invoked t op hm
    exact ⟨i, req', ht, hconn.req? hreq, hop'⟩
  returned := by
    intro i r hr
    rcases hconn.result?_cases with ⟨-, hsame⟩ | ⟨j, r', hact, -⟩
    · obtain ⟨req', p, hreq, hans⟩ := h.returned i r ((hsame i).symm.trans hr)
      exact ⟨req', p, hconn.req? hreq, hans⟩
    · cases hact

/-- A goroutine is started, and with it a thread of the session. -/
theorem Inv.invoke {req : Fcall} {op : Session.Op} (h : Inv msize s)
    (hconn : Conn.Step s.conn .accept conn)
    (hreqs : ∀ i, conn.req? i = if i = s.conn.handlers.length then some req else s.conn.req? i)
    (hop : req.message.op msize = some op) :
    Inv msize
      { conn
        session := ⟨Session.start s.session.store s.session.threads.length op,
          s.session.threads ++ [op.prog]⟩
        thread := Function.update s.thread s.conn.handlers.length
          (some s.session.threads.length) } := by
  have hnew : conn.req? s.conn.handlers.length = some req := (hreqs _).trans (if_pos rfl)
  have hfresh : ∀ {i t}, s.thread i = some t → i ≠ s.conn.handlers.length := by
    intro i t ht
    obtain ⟨-, req', op', hreq, -⟩ := h.running i t ht
    exact Nat.ne_of_lt (Conn.State.req?_eq_some_lt hreq)
  have hthread : ∀ {i t}, s.thread i = some t →
      Function.update s.thread s.conn.handlers.length (some s.session.threads.length) i =
        some t := by
    intro i t ht
    rw [Function.update_of_ne (hfresh ht), ht]
  have hcases : ∀ {i t},
      Function.update s.thread s.conn.handlers.length (some s.session.threads.length) i =
        some t →
      (i = s.conn.handlers.length ∧ t = s.session.threads.length) ∨ s.thread i = some t := by
    intro i t ht
    rw [Function.update_apply] at ht
    split at ht
    · rename_i hi
      cases ht
      exact Or.inl ⟨hi, rfl⟩
    · exact Or.inr ht
  refine ⟨h.logged.step hconn, ?_, ?_, ?_, ?_, ?_, ?_⟩
  · intro i t ht
    simp only [List.length_append, List.length_singleton]
    rcases hcases ht with ⟨rfl, rfl⟩ | ht
    · refine ⟨Nat.lt_succ_self _, req, op, hnew, hop, ?_⟩
      exact List.mem_append_right _ List.mem_cons_self
    · obtain ⟨hlt, req', op', hreq, hop', hm⟩ := h.running i t ht
      exact ⟨Nat.lt_succ_of_lt hlt, req', op', hconn.req? hreq, hop',
        List.mem_append_left _ hm⟩
  · intro i req' op' hreq hop'
    have hreq' := (hreqs i).symm.trans hreq
    split at hreq'
    · rename_i hi
      exact ⟨s.session.threads.length, hi ▸ Function.update_self ..⟩
    · obtain ⟨t, ht⟩ := h.called i req' op' hreq' hop'
      exact ⟨t, hthread ht⟩
  · intro i j t hi hj
    have hlt : ∀ {i}, s.thread i = some t → t < s.session.threads.length :=
      fun ht => (h.running _ t ht).1
    rcases hcases hi with ⟨rfl, rfl⟩ | hi
    · rcases hcases hj with ⟨rfl, -⟩ | hj
      · rfl
      · exact absurd (hlt hj) (Nat.lt_irrefl _)
    · rcases hcases hj with ⟨rfl, rfl⟩ | hj
      · exact absurd (hlt hi) (Nat.lt_irrefl _)
      · exact h.injective i j t hi hj
  · intro t ht
    simp only [List.length_append, List.length_singleton] at ht
    rcases Nat.lt_succ_iff_lt_or_eq.mp ht with hlt | rfl
    · obtain ⟨i, hi⟩ := h.onto t hlt
      exact ⟨i, hthread hi⟩
    · exact ⟨s.conn.handlers.length, Function.update_self ..⟩
  · intro t op' hm
    rcases List.mem_append.mp hm with hm | hm
    · obtain ⟨i, req', ht, hreq, hop'⟩ := h.invoked t op' hm
      exact ⟨i, req', hthread ht, hconn.req? hreq, hop'⟩
    · cases List.mem_singleton.mp hm
      exact ⟨s.conn.handlers.length, req, Function.update_self .., hnew, hop⟩
  · intro i r hr
    rcases hconn.result?_cases with ⟨-, hsame⟩ | ⟨j, r', hact, -⟩
    · obtain ⟨req', p, hreq, hans⟩ := h.returned i r ((hsame i).symm.trans hr)
      refine ⟨req', p, hconn.req? hreq, answer_mono hans (fun t ht => hthread ht) ?_⟩
      intro t ret hget
      rw [List.getElem?_append_left (List.getElem?_eq_some_iff.mp hget).1, hget]
    · cases hact

/-- A thread of the session executes a command. -/
theorem Inv.session {t : Nat} {env : Session.Env} {session : Session.State} (h : Inv msize s)
    (hstep : Session.step s.session (.run t env) = some session) :
    Inv msize { s with session } := by
  obtain ⟨c, k, r, st, hget, hexec, rfl⟩ := Pool.step_run hstep
  have hlen : (s.session.threads.set t (k r)).length = s.session.threads.length :=
    List.length_set
  refine ⟨h.logged, ?_, h.called, h.injective, ?_, ?_, ?_⟩
  · intro i t' ht
    obtain ⟨hlt, req, op, hreq, hop, hm⟩ := h.running i t' ht
    exact ⟨hlen.symm ▸ hlt, req, op, hreq, hop, Session.exec_log hexec hm⟩
  · intro t' ht
    exact h.onto t' (hlen ▸ ht)
  · intro t' op hm
    exact h.invoked t' op (Session.exec_invoked hexec hm)
  · intro i r' hr
    obtain ⟨req, p, hreq, hans⟩ := h.returned i r' hr
    refine ⟨req, p, hreq, answer_mono hans (fun _ ht => ht) ?_⟩
    intro t' ret hret
    have hne : t ≠ t' := by
      rintro rfl
      rw [hget] at hret
      cases hret
    exact (List.getElem?_set_ne hne).trans hret

theorem Inv.step (h : Inv msize s) (hstep : Step msize s a s') : Inv msize s' := by
  cases hstep with
  | quiet hconn ha hreqs =>
      refine h.loop hconn hreqs fun i r hr => ?_
      rcases hconn.result?_cases with ⟨-, hsame⟩ | ⟨j, r', hact, -⟩
      · exact Or.inl ((hsame i).symm.trans hr)
      · exact absurd hact (ha j r')
  | unknown hconn _ hreqs hop => exact h.unknown hconn hreqs hop
  | invoke hconn _ hreqs hop => exact h.invoke hconn hreqs hop
  | session hs => exact h.session hs
  | @handled i p req r conn hreq hans hconn =>
      rcases hconn.req?_cases with ⟨-, hreqs⟩ | ⟨req', hact, -⟩
      · refine h.loop hconn hreqs fun j r' hr => ?_
        rcases hconn.result?_cases with ⟨hne, -⟩ | ⟨i', r'', hact, -, -, hnew⟩
        · exact absurd rfl (hne i r)
        · cases hact
          rw [hnew] at hr
          split at hr
          · rename_i hij
            cases hr
            subst hij
            exact Or.inr ⟨req, p, hreq, hans⟩
          · exact Or.inl hr
      · cases hact

end Server

end P9p
