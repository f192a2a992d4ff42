/-
# `P9p.ServeConn` — the server loop as a system of goroutines

`serveconn.go`: `conn.serve` runs a loop over its tag table, next to a reader
goroutine, a writer goroutine and one goroutine per request.  They meet on
three unbuffered channels, `requests`, `completed` and `responses`, so a
communication is one step of both sides.

**Steps.**  The goroutines are sequential between two communications, and the
tag table belongs to the loop alone; what the loop does after a receive, up to
its next `select`, is therefore part of the step that receives.  An action
names the branch a `select` takes and whatever the environment decides: what
`ReadFcall` and `WriteFcall` return, what the handler answers, when the
connection's context is cancelled.  A `select` with several branches ready may
take any of them, and so may a run here.

**Requests by number.**  The loop creates one context and one goroutine for
each request it accepts.  They are numbered in order of acceptance; `tags`
maps a tag to the number of the request registered for it, which identifies
the `*activeRequest` with its `ctx` and `cancel`.

**History.**  `log` records what an observer of the loop sees.  For it the
program counters `flushing` and `handing` remember which request a `Tflush`
took out of the table and which goroutine a completed response came from.  No
step reads any of these; the code knows a completed response by its tag only.
-/
import P9p.Lib.Exec
import P9p.Messages

namespace P9p.Conn

/-- The goroutine of one request: `result` is what `Handle` returned, once it
has; `gone` says that the goroutine has ended, `cancelled` that the cancel
function of its context has been called. -/
structure Handler where
  req : Fcall
  result : Option (Except Err Message)
  gone : Bool
  cancelled : Bool

/-- Where the loop waits: in its main `select`, in the `select` that answers a
duplicate tag, in the one that answers a `Tflush`, in the one that passes a
completed response on for the registered request `active`; or it has returned. -/
inductive ServePc where
  | select
  | refusing (resp : Fcall)
  | flushing (resp : Fcall) (victim : Option Nat)
  | handing (resp : Fcall) (active src : Nat)
  | returned (err : Err)

inductive ReaderPc where
  | reading
  | offering (req : Fcall)
  | returned

inductive WriterPc where
  | select
  | writing (resp : Fcall)
  | returned

/-- What the loop accepted and what it handed to the writer. -/
inductive Event where
  | accepted (i : Nat) (req : Fcall)
  | handled (i : Nat) (r : Except Err Message)
  | sent (i : Nat) (resp : Fcall)
  | sentFlush (victim : Option Nat) (resp : Fcall)
  | refused (resp : Fcall)

structure State where
  tags : Tag → Option Nat
  handlers : List Handler
  serve : ServePc
  reader : ReaderPc
  writer : WriterPc
  ctxErr : Option Err
  closed : Option Err
  log : List Event

/-- `serve` when it enters its loop, with the two goroutines started. -/
def init : State where
  tags := fun _ => none
  handlers := []
  serve := .select
  reader := .reading
  writer := .select
  ctxErr := none
  closed := none
  log := []

inductive Act where
  -- conn.read
  | readOk (req : Fcall)
  | readRetry
  | readFail (err : Err)
  | readerCtxDone
  | readerClosed
  -- conn.serve
  | accept
  | complete (i : Nat)
  | handover
  | abandon
  | serveCtxDone
  | serveClosed
  -- the goroutine of a request
  | handled (i : Nat) (r : Except Err Message)
  | handlerCtxDone (i : Nat)
  | handlerClosed (i : Nat)
  -- conn.write
  | writeOk
  | writeRetry
  | writeFail (err : Err)
  | writerCtxDone
  | writerClosed
  -- from outside
  | cancelCtx (err : Err)
  | close (err : Option Err)

/-- The response a goroutine builds from the answer of `Handle`. -/
def respond (req : Fcall) : Except Err Message → Fcall
  | .ok msg => newFcall req.tag msg
  | .error err => newErrorFcall req.tag err

@[simp] theorem respond_tag (req : Fcall) (r : Except Err Message) :
    (respond req r).tag = req.tag := by
  cases r with
  | ok msg => rfl
  | error err => exact newErrorFcall_tag req.tag err

namespace State

/-- `CloseWithError`: the first call decides the terminal error. -/
def closeWithError (s : State) (err : Option Err) : State :=
  match s.closed with
  | some _ => s
  | none => { s with closed := some (err.getD Err.closed) }

/-- The context of request `i` is done: cancelled itself, or with the
connection's context. -/
def done (s : State) (i : Nat) : Bool :=
  s.ctxErr.isSome || s.handlers[i]?.any (·.cancelled)

/-- Calling the cancel function of request `i`. -/
def cancel (s : State) (i : Nat) : State :=
  { s with handlers := s.handlers.modify i fun h => { h with cancelled := true } }

def setHandler (s : State) (i : Nat) (h : Handler) : State :=
  { s with handlers := s.handlers.set i h }

/-- `delete(tags, t)`. -/
def untag (s : State) (t : Tag) : State :=
  { s with tags := Function.update s.tags t none }

def record (s : State) (e : Event) : State := { s with log := s.log ++ [e] }

/-- The loop returns, and its deferred function cancels what is registered. -/
def serveReturn (s : State) (err : Err) : State :=
  { s with
    serve := .returned err
    handlers := s.handlers.mapIdx fun i h =>
      if s.tags h.req.tag = some i then { h with cancelled := true } else h }

/-- `tags.remove(oldtag)` and the answer to the `Tflush` with tag `t`. -/
def flush (s : State) (t oldtag : Tag) : State :=
  match s.tags oldtag with
  | some i => { (s.cancel i).untag oldtag with serve := .flushing (newFcall t .rflush) (some i) }
  | none => { s with serve := .flushing (newErrorFcall t Err.unknownTag) none }

/-- An ordinary request is registered under its tag and its goroutine started. -/
def start (s : State) (req : Fcall) : State :=
  { s with
    tags := Function.update s.tags req.tag (some s.handlers.length)
    handlers := s.handlers ++ [⟨req, none, false, false⟩]
    log := s.log ++ [.accepted s.handlers.length req] }

/-- The branch of the main `select` that receives a request. -/
def dispatch (s : State) (req : Fcall) : State :=
  match s.tags req.tag with
  | some _ => { s with serve := .refusing (newErrorFcall req.tag Err.duptag) }
  | none =>
      match req.message with
      | .value (.tflush oldtag) => s.flush req.tag oldtag
      | _ => s.start req

/-- The branch of the main `select` that receives a completed response, from
goroutine `i`. -/
def completeWith (s : State) (i : Nat) (resp : Fcall) : State :=
  match s.tags resp.tag with
  | some active => { s with serve := .handing resp active i }
  | none => s

end State

open State

/-- The select branches that wait for the connection's end: all of the loop's
but the one for a completed response have them. -/
def ServePc.watchesEnd : ServePc → Bool
  | .select | .refusing _ | .flushing _ _ => true
  | .handing _ _ _ | .returned _ => false

def step (s : State) : Act → Option State
  | .readOk req =>
      match s.reader with
      | .reading => some { s with reader := .offering req }
      | _ => none
  | .readRetry =>
      match s.reader with
      | .reading => some s
      | _ => none
  | .readFail err =>
      match s.reader with
      | .reading =>
          some { s.closeWithError (some (.other (lit "error reading fcall: " ++ err.error))) with
            reader := .returned }
      | _ => none
  | .readerCtxDone =>
      match s.reader, s.ctxErr with
      | .offering _, some err => some { s.closeWithError (some err) with reader := .returned }
      | _, _ => none
  | .readerClosed =>
      match s.reader, s.closed with
      | .offering _, some _ => some { s with reader := .returned }
      | _, _ => none
  | .accept =>
      match s.reader, s.serve with
      | .offering req, .select => some (dispatch { s with reader := .reading } req)
      | _, _ => none
  | .complete i =>
      match s.serve, s.handlers[i]? with
      | .select, some h =>
          match h.result, h.gone with
          | some r, false => some ((s.setHandler i { h with gone := true }).completeWith i
              (respond h.req r))
          | _, _ => none
      | _, _ => none
  | .handover =>
      match s.serve, s.writer with
      | .refusing resp, .select =>
          some (record { s with serve := .select, writer := .writing resp } (.refused resp))
      | .flushing resp victim, .select =>
          some (record { s with serve := .select, writer := .writing resp }
            (.sentFlush victim resp))
      | .handing resp _ src, .select =>
          some (record (untag { s with serve := .select, writer := .writing resp } resp.tag)
            (.sent src resp))
      | _, _ => none
  | .abandon =>
      match s.serve with
      | .handing resp active _ =>
          if s.done active then some (untag { s with serve := .select } resp.tag) else none
      | _ => none
  | .serveCtxDone =>
      match s.ctxErr with
      | some err => if s.serve.watchesEnd then some (s.serveReturn err) else none
      | none => none
  | .serveClosed =>
      match s.closed with
      | some err => if s.serve.watchesEnd then some (s.serveReturn err) else none
      | none => none
  | .handled i r =>
      match s.handlers[i]? with
      | some h =>
          match h.result with
          | none => some ((s.setHandler i { h with result := some r }).record (.handled i r))
          | some _ => none
      | none => none
  | .handlerCtxDone i =>
      match s.handlers[i]? with
      | some h =>
          match h.result, h.gone with
          | some _, false =>
              if s.done i then some (s.setHandler i { h with gone := true }) else none
          | _, _ => none
      | none => none
  | .handlerClosed i =>
      match s.handlers[i]?, s.closed with
      | some h, some _ =>
          match h.result, h.gone with
          | some _, false => some (s.setHandler i { h with gone := true })
          | _, _ => none
      | _, _ => none
  | .writeOk =>
      match s.writer with
      | .writing _ => some { s with writer := .select }
      | _ => none
  | .writeRetry =>
      match s.writer with
      | .writing _ => some { s with writer := .select }
      | _ => none
  | .writeFail err =>
      match s.writer with
      | .writing _ =>
          some { s.closeWithError (some (.other (lit "error writing fcall: " ++ err.error))) with
            writer := .returned }
      | _ => none
  | .writerCtxDone =>
      match s.writer, s.ctxErr with
      | .select, some err => some { s.closeWithError (some err) with writer := .returned }
      | _, _ => none
  | .writerClosed =>
      match s.writer, s.closed with
      | .select, some _ => some { s with writer := .returned }
      | _, _ => none
  | .cancelCtx err =>
      match s.ctxErr with
      | none => some { s with ctxErr := some err }
      | some _ => none
  | .close err => some (s.closeWithError err)

/-! ## Reading the state after an update -/

namespace State

/-- The request of goroutine `i`, and the answer of its `Handle`. -/
def req? (s : State) (i : Nat) : Option Fcall := s.handlers[i]?.map (·.req)
def result? (s : State) (i : Nat) : Option (Except Err Message) := s.handlers[i]?.bind (·.result)

variable {s : State} {i : Nat} {h : Handler}

theorem req?_of_getElem? (hi : s.handlers[i]? = some h) : s.req? i = some h.req := by
  rw [req?, hi]; rfl

theorem result?_of_getElem? (hi : s.handlers[i]? = some h) : s.result? i = h.result := by
  rw [result?, hi]; rfl

theorem req?_eq_some_lt {req : Fcall} (h : s.req? i = some req) : i < s.handlers.length := by
  by_contra hlt
  rw [req?, List.getElem?_eq_none (by omega)] at h
  cases h

variable (s i) (j : Nat)

@[simp] theorem closeWithError_tags (err : Option Err) :
    (s.closeWithError err).tags = s.tags := by
  unfold closeWithError; split <;> rfl

@[simp] theorem closeWithError_handlers (err : Option Err) :
    (s.closeWithError err).handlers = s.handlers := by
  unfold closeWithError; split <;> rfl

@[simp] theorem closeWithError_serve (err : Option Err) :
    (s.closeWithError err).serve = s.serve := by
  unfold closeWithError; split <;> rfl

@[simp] theorem closeWithError_reader (err : Option Err) :
    (s.closeWithError err).reader = s.reader := by
  unfold closeWithError; split <;> rfl

@[simp] theorem closeWithError_writer (err : Option Err) :
    (s.closeWithError err).writer = s.writer := by
  unfold closeWithError; split <;> rfl

@[simp] theorem closeWithError_ctxErr (err : Option Err) :
    (s.closeWithError err).ctxErr = s.ctxErr := by
  unfold closeWithError; split <;> rfl

@[simp] theorem closeWithError_log (err : Option Err) :
    (s.closeWithError err).log = s.log := by
  unfold closeWithError; split <;> rfl

@[simp] theorem closeWithError_closed (err : Option Err) :
    (s.closeWithError err).closed.isSome = true := by
  unfold closeWithError
  cases hc : s.closed with
  | some e => simp [hc]
  | none => rfl

@[simp] theorem cancel_req? : (s.cancel i).req? j = s.req? j := by
  simp only [req?, cancel, List.getElem?_modify]
  cases s.handlers[j]? with
  | none => rfl
  | some h => by_cases hij : i = j <;> simp [hij]

@[simp] theorem cancel_result? : (s.cancel i).result? j = s.result? j := by
  simp only [result?, cancel, List.getElem?_modify]
  cases s.handlers[j]? with
  | none => rfl
  | some h => by_cases hij : i = j <;> simp [hij]

@[simp] theorem cancel_length : (s.cancel i).handlers.length = s.handlers.length := by
  simp [cancel]

@[simp] theorem setHandler_length (h : Handler) :
    (s.setHandler i h).handlers.length = s.handlers.length := by
  simp [setHandler]

section SetHandler

variable {s i}

theorem setHandler_req? {h' : Handler} (hi : s.handlers[i]? = some h) (hreq : h'.req = h.req)
    (j : Nat) : (s.setHandler i h').req? j = s.req? j := by
  obtain ⟨hlt, rfl⟩ := List.getElem?_eq_some_iff.mp hi
  by_cases hij : i = j
  · subst hij
    simp [req?, setHandler, hlt, hreq]
  · simp [req?, setHandler, hij]

theorem setHandler_result? (hi : s.handlers[i]? = some h) (h' : Handler) (j : Nat) :
    (s.setHandler i h').result? j = if i = j then h'.result else s.result? j := by
  obtain ⟨hlt, -⟩ := List.getElem?_eq_some_iff.mp hi
  by_cases hij : i = j
  · subst hij
    simp [result?, setHandler, hlt]
  · simp [result?, setHandler, hij]

/-- A goroutine that ends keeps its answer. -/
theorem setHandler_gone_result? (hi : s.handlers[i]? = some h) (j : Nat) :
    (s.setHandler i { h with gone := true }).result? j = s.result? j := by
  rw [setHandler_result? hi]
  split
  · rename_i hij
    subst hij
    exact (result?_of_getElem? hi).symm
  · rfl

theorem setHandler_done {h' : Handler} (hi : s.handlers[i]? = some h)
    (hc : h'.cancelled = h.cancelled) (j : Nat) : (s.setHandler i h').done j = s.done j := by
  obtain ⟨hlt, rfl⟩ := List.getElem?_eq_some_iff.mp hi
  by_cases hij : i = j
  · subst hij
    simp [done, setHandler, hlt, hc]
  · simp [done, setHandler, hij]

end SetHandler

@[simp] theorem closeWithError_done (err : Option Err) :
    (s.closeWithError err).done j = s.done j := by
  simp [done]

theorem done_of_ctxErr {s : State} {err : Err} (h : s.ctxErr = some err) (j : Nat) :
    s.done j = true := by
  simp [done, h]

/-- The deferred function touches nothing but the cancelled flags. -/
theorem serveReturn_getElem? (err : Err) :
    (s.serveReturn err).handlers[j]? = s.handlers[j]?.map fun h =>
      { h with cancelled := h.cancelled || decide (s.tags h.req.tag = some j) } := by
  rw [serveReturn, List.getElem?_mapIdx]
  refine congrArg (Option.map · s.handlers[j]?) (funext fun h => ?_)
  by_cases htag : s.tags h.req.tag = some j <;> simp [htag]

@[simp] theorem serveReturn_req? (err : Err) : (s.serveReturn err).req? j = s.req? j := by
  rw [req?, serveReturn_getElem?, Option.map_map]
  rfl

@[simp] theorem serveReturn_result? (err : Err) :
    (s.serveReturn err).result? j = s.result? j := by
  rw [result?, serveReturn_getElem?, Option.bind_map]
  rfl

theorem untag_tags (t t' : Tag) :
    (s.untag t).tags t' = if t' = t then none else s.tags t' := by
  show Function.update s.tags t none t' = _
  rw [Function.update_apply]

theorem start_tags (req : Fcall) (t : Tag) :
    (s.start req).tags t = if t = req.tag then some s.handlers.length else s.tags t := by
  show Function.update s.tags req.tag (some s.handlers.length) t = _
  rw [Function.update_apply]

theorem start_getElem? (req : Fcall) :
    (s.start req).handlers[j]? =
      if j = s.handlers.length then some ⟨req, none, false, false⟩ else s.handlers[j]? := by
  show (s.handlers ++ [_])[j]? = _
  rw [List.getElem?_append]
  by_cases hlt : j < s.handlers.length
  · rw [if_pos hlt, if_neg (Nat.ne_of_lt hlt)]
  · rw [if_neg hlt, List.getElem?_singleton, List.getElem?_eq_none (Nat.le_of_not_lt hlt)]
    exact if_congr (by omega) rfl rfl

theorem start_req? (req : Fcall) :
    (s.start req).req? j = if j = s.handlers.length then some req else s.req? j := by
  rw [req?, start_getElem?]
  split <;> rfl

theorem start_result? (req : Fcall) : (s.start req).result? j = s.result? j := by
  rw [result?, start_getElem?]
  split
  · rename_i heq
    rw [result?, List.getElem?_eq_none (Nat.le_of_eq heq.symm)]
    rfl
  · rfl

end State

theorem untag_some {s : State} {t t' : Tag} {i : Nat} (h : (s.untag t).tags t' = some i) :
    t' ≠ t ∧ s.tags t' = some i := by
  rw [untag_tags] at h
  split at h
  · cases h
  · exact ⟨‹_›, h⟩

/-! ## What a step can do

`Step` lists the branches of `step` with their guards, one constructor a
branch; proofs about runs split on it instead of unfolding `step`. -/

inductive Step (s : State) : Act → State → Prop where
  | readOk {req : Fcall} : s.reader = .reading →
      Step s (.readOk req) { s with reader := .offering req }
  | readRetry : s.reader = .reading → Step s .readRetry s
  | readFail {err : Err} : s.reader = .reading →
      Step s (.readFail err) { s.closeWithError
        (some (.other (lit "error reading fcall: " ++ err.error))) with reader := .returned }
  | readerCtxDone {req : Fcall} {err : Err} : s.reader = .offering req → s.ctxErr = some err →
      Step s .readerCtxDone { s.closeWithError (some err) with reader := .returned }
  | readerClosed {req : Fcall} {err : Err} : s.reader = .offering req → s.closed = some err →
      Step s .readerClosed { s with reader := .returned }
  | refuse {req : Fcall} {i : Nat} : s.reader = .offering req → s.serve = .select →
      s.tags req.tag = some i →
      Step s .accept { s with
        reader := .reading, serve := .refusing (newErrorFcall req.tag Err.duptag) }
  | flush {req : Fcall} {oldtag : Tag} {i : Nat} : s.reader = .offering req →
      s.serve = .select → s.tags req.tag = none → req.message = .value (.tflush oldtag) →
      s.tags oldtag = some i →
      Step s .accept { (s.cancel i).untag oldtag with
        reader := .reading, serve := .flushing (newFcall req.tag .rflush) (some i) }
  | flushUnknown {req : Fcall} {oldtag : Tag} : s.reader = .offering req →
      s.serve = .select → s.tags req.tag = none → req.message = .value (.tflush oldtag) →
      s.tags oldtag = none →
      Step s .accept { s with
        reader := .reading
        serve := .flushing (newErrorFcall req.tag Err.unknownTag) none }
  | start {req : Fcall} : s.reader = .offering req → s.serve = .select →
      s.tags req.tag = none → (∀ oldtag, req.message ≠ .value (.tflush oldtag)) →
      Step s .accept { s.start req with reader := .reading }
  | complete {i active : Nat} {h : Handler} {r : Except Err Message} : s.serve = .select →
      s.handlers[i]? = some h → h.result = some r → h.gone = false →
      s.tags h.req.tag = some active →
      Step s (.complete i) { s.setHandler i { h with gone := true } with
        serve := .handing (respond h.req r) active i }
  | drop {i : Nat} {h : Handler} {r : Except Err Message} : s.serve = .select →
      s.handlers[i]? = some h → h.result = some r → h.gone = false →
      s.tags h.req.tag = none →
      Step s (.complete i) (s.setHandler i { h with gone := true })
  | sendRefusal {resp : Fcall} : s.serve = .refusing resp → s.writer = .select →
      Step s .handover { s with
        serve := .select, writer := .writing resp, log := s.log ++ [.refused resp] }
  | sendFlush {resp : Fcall} {victim : Option Nat} : s.serve = .flushing resp victim →
      s.writer = .select →
      Step s .handover { s with
        serve := .select, writer := .writing resp, log := s.log ++ [.sentFlush victim resp] }
  | send {resp : Fcall} {active src : Nat} : s.serve = .handing resp active src →
      s.writer = .select →
      Step s .handover { s.untag resp.tag with
        serve := .select, writer := .writing resp, log := s.log ++ [.sent src resp] }
  | abandon {resp : Fcall} {active src : Nat} : s.serve = .handing resp active src →
      s.done active = true →
      Step s .abandon { s.untag resp.tag with serve := .select }
  | serveCtxDone {err : Err} : s.ctxErr = some err → s.serve.watchesEnd = true →
      Step s .serveCtxDone (s.serveReturn err)
  | serveClosed {err : Err} : s.closed = some err → s.serve.watchesEnd = true →
      Step s .serveClosed (s.serveReturn err)
  | handled {i : Nat} {h : Handler} {r : Except Err Message} : s.handlers[i]? = some h →
      h.result = none →
      Step s (.handled i r) ((s.setHandler i { h with result := some r }).record (.handled i r))
  | handlerCtxDone {i : Nat} {h : Handler} {r : Except Err Message} : s.handlers[i]? = some h →
      h.result = some r → h.gone = false → s.done i = true →
      Step s (.handlerCtxDone i) (s.setHandler i { h with gone := true })
  | handlerClosed {i : Nat} {h : Handler} {r : Except Err Message} {err : Err} :
      s.handlers[i]? = some h → h.result = some r → h.gone = false → s.closed = some err →
      Step s (.handlerClosed i) (s.setHandler i { h with gone := true })
  | writeOk {resp : Fcall} : s.writer = .writing resp →
      Step s .writeOk { s with writer := .select }
  | writeRetry {resp : Fcall} : s.writer = .writing resp →
      Step s .writeRetry { s with writer := .select }
  | writeFail {resp : Fcall} {err : Err} : s.writer = .writing resp →
      Step s (.writeFail err) { s.closeWithError
        (some (.other (lit "error writing fcall: " ++ err.error))) with writer := .returned }
  | writerCtxDone {err : Err} : s.writer = .select → s.ctxErr = some err →
      Step s .writerCtxDone { s.closeWithError (some err) with writer := .returned }
  | writerClosed {err : Err} : s.writer = .select → s.closed = some err →
      Step s .writerClosed { s with writer := .returned }
  | cancelCtx {err : Err} : s.ctxErr = none →
      Step s (.cancelCtx err) { s with ctxErr := some err }
  | close {err : Option Err} : Step s (.close err) (s.closeWithError err)

theorem dispatch_cases {s : State} {req : Fcall} (hreader : s.reader = .offering req)
    (hserve : s.serve = .select) : Step s .accept (dispatch { s with reader := .reading } req) := by
  unfold dispatch
  cases htag : s.tags req.tag with
  | some i => exact .refuse hreader hserve htag
  | none =>
      simp only []
      split
      · rename_i oldtag hmsg
        unfold State.flush
        cases hold : s.tags oldtag with
        | some i => exact .flush hreader hserve htag hmsg hold
        | none => exact .flushUnknown hreader hserve htag hmsg hold
      · rename_i hmsg
        exact .start hreader hserve htag hmsg

theorem complete_cases {s : State} {i : Nat} {h : Handler} {r : Except Err Message}
    (hserve : s.serve = .select) (hi : s.handlers[i]? = some h) (hr : h.result = some r)
    (hgone : h.gone = false) :
    Step s (.complete i)
      ((s.setHandler i { h with gone := true }).completeWith i (respond h.req r)) := by
  unfold completeWith
  rw [respond_tag]
  cases htag : s.tags h.req.tag with
  | some active =>
      have htag' : (s.setHandler i { h with gone := true }).tags h.req.tag = some active := htag
      rw [htag']
      exact .complete hserve hi hr hgone htag
  | none =>
      have htag' : (s.setHandler i { h with gone := true }).tags h.req.tag = none := htag
      rw [htag']
      exact .drop hserve hi hr hgone htag

theorem step_cases {s s' : State} {a : Act} (h : step s a = some s') : Step s a s' := by
  cases a <;> simp only [step] at h
  case complete i =>
    split at h
    · rename_i hserve hi
      split at h
      · rename_i r hr hgone
        cases h
        exact complete_cases hserve hi hr hgone
      · cases h
    · cases h
  case accept =>
    split at h
    · rename_i req hreader hserve
      cases h
      exact dispatch_cases hreader hserve
    · cases h
  all_goals
    repeat' split at h
    all_goals first
      | cases h; constructor <;> assumption
      | cases h

end P9p.Conn
