/-
# `P9p.Transport` — the client's side of a connection

`transport.go`: any number of goroutines call `send`; the goroutine `handle`
gives each request a tag, writes it, and passes every response to the request
its tag stands for; a third goroutine reads.

    send      dispatching ──requests──▸ waiting ──▸ returned
    handle    select ──▸ writing ──▸ select
    reader    reading ──▸ offering ──responses──▸ reading

**Steps** are those of `P9p.ServeConn`: a communication on an unbuffered
channel is one step of both sides, together with what `handle` does up to its
next blocking operation.  `WriteFcall` blocks `handle`, so `writing` is a
state of its own.

**Requests by number.**  A call of `send` makes one `fcallRequest`; the calls
are numbered in order, and `outstanding` maps a tag to a number.  `response`
and `err` list everything ever sent on the two channels of a request.  The
channels have room for one value; that this is enough, so that `handle` never
blocks there, is part of what is proved (`Transport.Inv.settled`).

**What is sent.**  `send` is called by the methods of `csession.go` only;
`Call` lists them with the message each builds.  (`Walk` refuses more than 16
names before it calls `send`; the messages here include those too.)
-/
import Mathlib.Data.List.AList
import P9p.Lib.Exec
import P9p.Messages

namespace P9p

variable {t : Tag} {r : Nat}

/-- A call of a `client` method, as far as it reaches `send`. -/
inductive Call where
  | auth (afid : Fid) (uname aname : Bytes)
  | attach (fid afid : Fid) (uname aname : Bytes)
  | clunk (fid : Fid)
  | remove (fid : Fid)
  | walk (fid newfid : Fid) (names : List Bytes)
  | read (fid : Fid) (p : Nat) (offset : UInt64)
  | write (fid : Fid) (p : Bytes) (offset : UInt64)
  | open (fid : Fid) (mode : Flag)
  | create (parent : Fid) (name : Bytes) (perm : UInt32) (mode : Flag)
  | stat (fid : Fid)
  | wstat (fid : Fid) (dir : Dir)

/-- The message of a call; of the buffer given to `Read` only its length
matters. -/
def Call.message : Call → Message
  | .auth afid uname aname => .tauth afid uname aname
  | .attach fid afid uname aname => .tattach fid afid uname aname
  | .clunk fid => .tclunk fid
  | .remove fid => .tremove fid
  | .walk fid newfid names => .twalk fid newfid names
  | .read fid p offset => .tread fid offset (UInt32.ofNat p)
  | .write fid p offset => .twrite fid offset p
  | .open fid mode => .topen fid mode
  | .create parent name perm mode => .tcreate parent name perm mode
  | .stat fid => .tstat fid
  | .wstat fid dir => .twstat fid dir

namespace Transport

/-! ## `allocateTag` -/

/-- The tag tried after `hint`. -/
def nextHint (hint : Tag) : Tag := if hint + 1 = noTag then 0 else hint + 1

/-- The loop of `allocateTag`, with the rounds it has left. -/
def searchTag {β : Type} (m : AList fun _ : Tag => β) : Nat → Tag → Option Tag
  | 0, _ => none
  | n + 1, hint =>
      if (m.lookup (nextHint hint)).isSome then searchTag m n (nextHint hint)
      else some (nextHint hint)

def allocateTag {β : Type} (m : AList fun _ : Tag => β) (hint : Tag) : Except Err Tag :=
  if m.entries.length ≥ 0xFFFF then .error (.other (lit "tag pool depleted"))
  else
    match searchTag m 0xFFFF hint with
    | some t => .ok t
    | none => .error (.other (lit "allocateTag: unexpected error"))

theorem searchTag_free {β : Type} {m : AList fun _ : Tag => β} {n : Nat} {hint : Tag}
    (h : searchTag m n hint = some t) : m.lookup t = none := by
  induction n generalizing hint with
  | zero => cases h
  | succ n ih =>
      rw [searchTag] at h
      split at h
      · exact ih h
      · rename_i hfree
        cases h
        exact Option.not_isSome_iff_eq_none.mp hfree

theorem allocateTag_free {β : Type} {m : AList fun _ : Tag => β} {hint : Tag}
    (h : allocateTag m hint = .ok t) : m.lookup t = none := by
  rw [allocateTag] at h
  split at h
  · cases h
  · split at h
    · rename_i hs
      cases h
      exact searchTag_free hs
    · cases h

/-! ## The goroutines -/

/-- The branch of its second `select`, or of its first, with which `send`
ends. -/
inductive Outcome where
  | closed
  | ctxDone (err : Err)
  | err (err : Err)
  | response (resp : Fcall)

inductive SendPc where
  | dispatching
  | waiting
  | returned (outcome : Outcome)

/-- A call of `send` with its `fcallRequest`. -/
structure Request where
  call : Call
  ctxErr : Option Err
  pc : SendPc
  response : List Fcall
  err : List Err

inductive HandlePc where
  | select
  | writing (r : Nat) (fcall : Fcall)
  | returned
  | panicked (resp : Fcall)

inductive ReaderPc where
  | reading
  | offering (fcall : Fcall)
  | returned

structure State where
  requests : List Request
  outstanding : AList fun _ : Tag => Nat
  selected : Tag
  handle : HandlePc
  reader : ReaderPc
  ctxErr : Option Err
  shutdown : Bool

/-- `newTransport`. -/
def init : State where
  requests := []
  outstanding := ∅
  selected := 0
  handle := .select
  reader := .reading
  ctxErr := none
  shutdown := false

inductive Act where
  -- the goroutines that call send
  | call (c : Call)
  | cancel (r : Nat) (err : Err)
  | sendClosed (r : Nat)
  | sendCtxDone (r : Nat)
  | sendErr (r : Nat)
  | sendResponse (r : Nat)
  -- transport.handle
  | dispatch (r : Nat)
  | writeOk
  | writeFail (err : Err)
  | deliver
  | handleShutdown
  | handleCtxDone
  -- its reader
  | readOk (fcall : Fcall)
  | readRetry
  | readFail (err : Err)
  | readerCtxDone
  | readerClosed
  -- from outside
  | cancelCtx (err : Err)
  | close

namespace State

def setRequest (s : State) (r : Nat) (q : Request) : State :=
  { s with requests := s.requests.set r q }

/-- `req.err <- err`. -/
def fail (s : State) (r : Nat) (err : Err) : State :=
  { s with requests := s.requests.modify r fun q => { q with err := q.err ++ [err] } }

/-- `req.response <- b`. -/
def respond (s : State) (r : Nat) (b : Fcall) : State :=
  { s with requests := s.requests.modify r fun q => { q with response := q.response ++ [b] } }

/-- `t.closed` is closed when `handle` ends, by a panic too. -/
def closed (s : State) : Bool :=
  match s.handle with
  | .returned | .panicked _ => true
  | .select | .writing _ _ => false

/-- The branch of `handle` that receives a request. -/
def accept (s : State) (r : Nat) (q : Request) : State :=
  let s := s.setRequest r { q with pc := .waiting }
  match allocateTag s.outstanding s.selected with
  | .error err => { s with selected := 0 }.fail r err
  | .ok t => { s with
      selected := t
      outstanding := s.outstanding.insert t r
      handle := .writing r (newFcall t q.call.message) }

/-- The branch of `handle` that receives a response. -/
def dispatchResponse (s : State) (b : Fcall) : State :=
  match s.outstanding.lookup b.tag with
  | none => { s with handle := .panicked b }
  | some r => { s with outstanding := s.outstanding.erase b.tag }.respond r b

/-- The reader's deferred `t.close()`. -/
def readerReturn (s : State) : State := { s with reader := .returned, shutdown := true }

end State

open State

def step (s : State) : Act → Option State
  | .call c => some { s with requests := s.requests ++ [⟨c, none, .dispatching, [], []⟩] }
  | .cancel r err =>
      match s.requests[r]? with
      | some q =>
          match q.ctxErr with
          | none => some (s.setRequest r { q with ctxErr := some err })
          | some _ => none
      | none => none
  | .sendClosed r =>
      match s.requests[r]?, s.closed with
      | some q, true =>
          match q.pc with
          | .returned _ => none
          | _ => some (s.setRequest r { q with pc := .returned .closed })
      | _, _ => none
  | .sendCtxDone r =>
      match s.requests[r]? with
      | some q =>
          match q.pc, q.ctxErr with
          | .returned _, _ => none
          | _, some err => some (s.setRequest r { q with pc := .returned (.ctxDone err) })
          | _, none => none
      | none => none
  | .sendErr r =>
      match s.requests[r]? with
      | some q =>
          match q.pc, q.err with
          | .waiting, err :: _ => some (s.setRequest r { q with pc := .returned (.err err) })
          | _, _ => none
      | none => none
  | .sendResponse r =>
      match s.requests[r]? with
      | some q =>
          match q.pc, q.response with
          | .waiting, resp :: _ =>
              some (s.setRequest r { q with pc := .returned (.response resp) })
          | _, _ => none
      | none => none
  | .dispatch r =>
      match s.handle, s.requests[r]? with
      | .select, some q =>
          match q.pc with
          | .dispatching => some (s.accept r q)
          | _ => none
      | _, _ => none
  | .writeOk =>
      match s.handle with
      | .writing _ _ => some { s with handle := .select }
      | _ => none
  | .writeFail err =>
      match s.handle with
      | .writing r fcall =>
          some ({ s with
            handle := .select, outstanding := s.outstanding.erase fcall.tag }.fail r err)
      | _ => none
  | .deliver =>
      match s.handle, s.reader with
      | .select, .offering b => some (dispatchResponse { s with reader := .reading } b)
      | _, _ => none
  | .handleShutdown =>
      match s.handle, s.shutdown with
      | .select, true => some { s with handle := .returned }
      | _, _ => none
  | .handleCtxDone =>
      match s.handle, s.ctxErr with
      | .select, some _ => some { s with handle := .returned }
      | _, _ => none
  | .readOk fcall =>
      match s.reader with
      | .reading => some { s with reader := .offering fcall }
      | _ => none
  | .readRetry =>
      match s.reader with
      | .reading => some s
      | _ => none
  | .readFail _ =>
      match s.reader with
      | .reading => some s.readerReturn
      | _ => none
  | .readerCtxDone =>
      match s.reader, s.ctxErr with
      | .offering _, some _ => some s.readerReturn
      | _, _ => none
  | .readerClosed =>
      match s.reader, s.closed with
      | .offering _, true => some s.readerReturn
      | _, _ => none
  | .cancelCtx err =>
      match s.ctxErr with
      | none => some { s with ctxErr := some err }
      | some _ => none
  | .close => some { s with shutdown := true }

/-! ## What a step can do -/

inductive Step (s : State) : Act → State → Prop where
  | call {c : Call} :
      Step s (.call c) { s with requests := s.requests ++ [⟨c, none, .dispatching, [], []⟩] }
  | cancel {r : Nat} {q : Request} {err : Err} : s.requests[r]? = some q → q.ctxErr = none →
      Step s (.cancel r err) (s.setRequest r { q with ctxErr := some err })
  | sendClosed {r : Nat} {q : Request} : s.requests[r]? = some q →
      (∀ o, q.pc ≠ .returned o) → s.closed = true →
      Step s (.sendClosed r) (s.setRequest r { q with pc := .returned .closed })
  | sendCtxDone {r : Nat} {q : Request} {err : Err} : s.requests[r]? = some q →
      (∀ o, q.pc ≠ .returned o) → q.ctxErr = some err →
      Step s (.sendCtxDone r) (s.setRequest r { q with pc := .returned (.ctxDone err) })
  | sendErr {r : Nat} {q : Request} {err : Err} {errs : List Err} : s.requests[r]? = some q →
      q.pc = .waiting → q.err = err :: errs →
      Step s (.sendErr r) (s.setRequest r { q with pc := .returned (.err err) })
  | sendResponse {r : Nat} {q : Request} {resp : Fcall} {resps : List Fcall} :
      s.requests[r]? = some q → q.pc = .waiting → q.response = resp :: resps →
      Step s (.sendResponse r) (s.setRequest r { q with pc := .returned (.response resp) })
  | depleted {r : Nat} {q : Request} {err : Err} : s.handle = .select →
      s.requests[r]? = some q → q.pc = .dispatching →
      allocateTag s.outstanding s.selected = .error err →
      Step s (.dispatch r)
        ({ s.setRequest r { q with pc := .waiting } with selected := 0 }.fail r err)
  | dispatch {r : Nat} {q : Request} {t : Tag} : s.handle = .select →
      s.requests[r]? = some q → q.pc = .dispatching →
      allocateTag s.outstanding s.selected = .ok t →
      Step s (.dispatch r) { s.setRequest r { q with pc := .waiting } with
        selected := t
        outstanding := s.outstanding.insert t r
        handle := .writing r (newFcall t q.call.message) }
  | writeOk {r : Nat} {fcall : Fcall} : s.handle = .writing r fcall →
      Step s .writeOk { s with handle := .select }
  | writeFail {r : Nat} {fcall : Fcall} {err : Err} : s.handle = .writing r fcall →
      Step s (.writeFail err) ({ s with
        handle := .select, outstanding := s.outstanding.erase fcall.tag }.fail r err)
  | unknownTag {b : Fcall} : s.handle = .select → s.reader = .offering b →
      s.outstanding.lookup b.tag = none →
      Step s .deliver { s with reader := .reading, handle := .panicked b }
  | deliver {b : Fcall} {r : Nat} : s.handle = .select → s.reader = .offering b →
      s.outstanding.lookup b.tag = some r →
      Step s .deliver ({ s with
        reader := .reading, outstanding := s.outstanding.erase b.tag }.respond r b)
  | handleShutdown : s.handle = .select → s.shutdown = true →
      Step s .handleShutdown { s with handle := .returned }
  | handleCtxDone {err : Err} : s.handle = .select → s.ctxErr = some err →
      Step s .handleCtxDone { s with handle := .returned }
  | readOk {fcall : Fcall} : s.reader = .reading →
      Step s (.readOk fcall) { s with reader := .offering fcall }
  | readRetry : s.reader = .reading → Step s .readRetry s
  | readFail {err : Err} : s.reader = .reading → Step s (.readFail err) s.readerReturn
  | readerCtxDone {fcall : Fcall} {err : Err} : s.reader = .offering fcall →
      s.ctxErr = some err → Step s .readerCtxDone s.readerReturn
  | readerClosed {fcall : Fcall} : s.reader = .offering fcall → s.closed = true →
      Step s .readerClosed s.readerReturn
  | cancelCtx {err : Err} : s.ctxErr = none →
      Step s (.cancelCtx err) { s with ctxErr := some err }
  | close : Step s .close { s with shutdown := true }

variable {q : Request} {s s' : State} {a : Act}

theorem accept_cases (hh : s.handle = .select) (hq : s.requests[r]? = some q)
    (hpc : q.pc = .dispatching) : Step s (.dispatch r) (s.accept r q) := by
  unfold accept
  have heq : allocateTag (s.setRequest r { q with pc := .waiting }).outstanding
      (s.setRequest r { q with pc := .waiting }).selected =
      allocateTag s.outstanding s.selected := rfl
  simp only [heq]
  cases halloc : allocateTag s.outstanding s.selected with
  | error err => exact .depleted hh hq hpc halloc
  | ok t => exact .dispatch hh hq hpc halloc

theorem dispatchResponse_cases {b : Fcall} (hh : s.handle = .select) (hr : s.reader = .offering b) :
    Step s .deliver (dispatchResponse { s with reader := .reading } b) := by
  unfold dispatchResponse
  cases hl : s.outstanding.lookup b.tag with
  | none => exact .unknownTag hh hr hl
  | some r => exact .deliver hh hr hl

theorem step_cases (h : step s a = some s') : Step s a s' := by
  cases a <;> simp only [step] at h
  case dispatch r =>
    repeat' split at h
    all_goals first
      | cases h; exact accept_cases ‹_› ‹_› ‹_›
      | cases h
  case deliver =>
    split at h
    · cases h
      exact dispatchResponse_cases ‹_› ‹_›
    · cases h
  all_goals
    repeat' split at h
    all_goals first
      | cases h; constructor <;> assumption
      | cases h

/-! ## One reply a request

A request is in one of four conditions: not dispatched, outstanding under one
tag, replied to, or abandoned by a `handle` that has ended.  The invariant
says that only the third has anything in its channels. -/

structure Inv (s : State) : Prop where
  owned : ∀ t r, s.outstanding.lookup t = some r →
    ∃ q, s.requests[r]? = some q ∧ q.pc ≠ .dispatching ∧ q.response = [] ∧ q.err = []
  injective : ∀ t t' r, s.outstanding.lookup t = some r → s.outstanding.lookup t' = some r → t = t'
  fresh : ∀ (r : Nat) (q : Request), s.requests[r]? = some q → q.pc = .dispatching → q.response =
    [] ∧ q.err = []
  settled : ∀ (r : Nat) (q : Request), s.requests[r]? = some q →
    q.response.length + q.err.length ≤ 1
  writing : ∀ r fcall, s.handle = .writing r fcall → s.outstanding.lookup fcall.tag = some r ∧
    ∃ q, s.requests[r]? = some q ∧ fcall = newFcall fcall.tag q.call.message

theorem inv_init : Inv init where
  owned := by intro t r h; cases h
  injective := by intro t t' r h; cases h
  fresh := by intro r q h; cases h
  settled := by intro r q h; cases h
  writing := by intro r fcall h; cases h

theorem setRequest_get (hq : s.requests[r]? = some q) (q' : Request) (r' : Nat) :
    (s.setRequest r q').requests[r']? = if r = r' then some q' else s.requests[r']? := by
  obtain ⟨hlt, -⟩ := List.getElem?_eq_some_iff.mp hq
  by_cases hr : r = r'
  · subst hr
    simp [setRequest, hlt]
  · simp [setRequest, hr]

/-- A step of a caller that keeps the call and the channels of its request. -/
theorem Inv.touch (h : Inv s) {w : Request} (hq : s.requests[r]? = some q)
    (hcall : w.call = q.call) (hresp : w.response = q.response) (herr : w.err = q.err)
    (hpc : w.pc = .dispatching → q.pc = .dispatching) :
    Inv (s.setRequest r w) where
  owned := by
    intro t r' ht
    obtain ⟨p, hp, hpc', hpr, hpe⟩ := h.owned t r' ht
    rw [setRequest_get hq]
    split
    · rename_i heq
      subst heq
      rw [hq] at hp
      cases hp
      exact ⟨w, rfl, fun hd => hpc' (hpc hd), hresp.trans hpr, herr.trans hpe⟩
    · exact ⟨p, hp, hpc', hpr, hpe⟩
  injective := h.injective
  fresh := by
    intro r' p hp hd
    rw [setRequest_get hq] at hp
    split at hp
    · cases hp
      rw [hresp, herr]
      exact h.fresh r q hq (hpc hd)
    · exact h.fresh r' p hp hd
  settled := by
    intro r' p hp
    rw [setRequest_get hq] at hp
    split at hp
    · cases hp
      rw [hresp, herr]
      exact h.settled r q hq
    · exact h.settled r' p hp
  writing := by
    intro r' fcall hw
    obtain ⟨hl, p, hp, hf⟩ := h.writing r' fcall hw
    refine ⟨hl, ?_⟩
    rw [setRequest_get hq]
    split
    · rename_i heq
      subst heq
      rw [hq] at hp
      cases hp
      exact ⟨w, rfl, hcall ▸ hf⟩
    · exact ⟨p, hp, hf⟩

/-- A request that is dispatched and not outstanding gets its one reply. -/
theorem Inv.reply (h : Inv s) {q' : Request} (hq : s.requests[r]? = some q)
    (hout : ∀ t, s.outstanding.lookup t ≠ some r) (hpc : q'.pc ≠ .dispatching)
    (hlen : q'.response.length + q'.err.length ≤ 1) :
    Inv (s.setRequest r q') where
  owned := by
    intro t r' ht
    have hne : r ≠ r' := fun heq => hout t (heq ▸ ht)
    rw [setRequest_get hq, if_neg hne]
    exact h.owned t r' ht
  injective := h.injective
  fresh := by
    intro r' p hp hd
    rw [setRequest_get hq] at hp
    split at hp
    · cases hp
      exact absurd hd hpc
    · exact h.fresh r' p hp hd
  settled := by
    intro r' p hp
    rw [setRequest_get hq] at hp
    split at hp
    · cases hp
      exact hlen
    · exact h.settled r' p hp
  writing := by
    intro r' fcall hw
    obtain ⟨hl, hex⟩ := h.writing r' fcall hw
    have hne : r ≠ r' := fun heq => hout fcall.tag (heq ▸ hl)
    rw [setRequest_get hq, if_neg hne]
    exact ⟨hl, hex⟩

theorem modify_eq_set {l : List Request} (hq : l[r]? = some q) (g : Request → Request) :
    l.modify r g = l.set r (g q) := by
  obtain ⟨hlt, rfl⟩ := List.getElem?_eq_some_iff.mp hq
  rw [List.modify_eq_set_getElem?, hq]
  rfl

theorem Inv.fail (h : Inv s) (hq : s.requests[r]? = some q)
    (hout : ∀ t, s.outstanding.lookup t ≠ some r) (hpc : q.pc ≠ .dispatching)
    (hresp : q.response = []) (herr : q.err = []) (err : Err) : Inv (s.fail r err) := by
  rw [State.fail, modify_eq_set hq]
  exact h.reply hq hout hpc (by simp [hresp, herr])

theorem Inv.respond (h : Inv s) (hq : s.requests[r]? = some q)
    (hout : ∀ t, s.outstanding.lookup t ≠ some r) (hpc : q.pc ≠ .dispatching)
    (hresp : q.response = []) (herr : q.err = []) (b : Fcall) : Inv (s.respond r b) := by
  rw [State.respond, modify_eq_set hq]
  exact h.reply hq hout hpc (by simp [hresp, herr])

/-- A request that is still dispatching is outstanding under no tag. -/
theorem Inv.unowned (h : Inv s) (hq : s.requests[r]? = some q) (hpc : q.pc = .dispatching)
    (t : Tag) : s.outstanding.lookup t ≠ some r := by
  intro hl
  obtain ⟨p, hp, hne, -⟩ := h.owned t r hl
  rw [hq] at hp
  cases hp
  exact hne hpc

theorem erase_lookup {t' : Tag} (h : (s.outstanding.erase t).lookup t' = some r) :
    t' ≠ t ∧ s.outstanding.lookup t' = some r := by
  by_cases heq : t' = t
  · subst heq
    rw [AList.lookup_erase] at h
    cases h
  · rw [AList.lookup_erase_ne heq] at h
    exact ⟨heq, h⟩

/-- Taking a tag out of `outstanding` while nothing is being written. -/
theorem Inv.erase (h : Inv s) (t : Tag) (reader : ReaderPc) :
    Inv { s with handle := .select, outstanding := s.outstanding.erase t, reader := reader } where
  owned := by
    intro t' r ht
    exact h.owned t' r (erase_lookup ht).2
  injective := by
    intro t₁ t₂ r h₁ h₂
    exact h.injective t₁ t₂ r (erase_lookup h₁).2 (erase_lookup h₂).2
  fresh := h.fresh
  settled := h.settled
  writing := by intro r fcall hw; cases hw

/-- The request that held the tag is in no condition to hold another. -/
theorem Inv.erased (h : Inv s) (ht : s.outstanding.lookup t = some r) (t' : Tag) :
    (s.outstanding.erase t).lookup t' ≠ some r := by
  intro ht'
  obtain ⟨hne, hold⟩ := erase_lookup ht'
  exact hne (h.injective t' t r hold ht)

/-- The step keeps what `outstanding` and `handle` depend on. -/
theorem Inv.frame (h : Inv s) (hreq : s'.requests = s.requests)
    (hout : s'.outstanding = s.outstanding)
    (hh : s'.handle = s.handle ∨ ∀ r fcall, s'.handle ≠ .writing r fcall) : Inv s' where
  owned := by rw [hreq, hout]; exact h.owned
  injective := by rw [hout]; exact h.injective
  fresh := by rw [hreq]; exact h.fresh
  settled := by rw [hreq]; exact h.settled
  writing := by
    intro r fcall hw
    rcases hh with heq | hne
    · rw [hreq, hout]
      exact h.writing r fcall (heq ▸ hw)
    · exact absurd hw (hne r fcall)

theorem Inv.call (h : Inv s) (c : Call) :
    Inv { s with requests := s.requests ++ [⟨c, none, .dispatching, [], []⟩] } := by
  have hold : ∀ {r : Nat} {q : Request}, s.requests[r]? = some q →
      (s.requests ++ [⟨c, none, .dispatching, [], []⟩])[r]? = some q := by
    intro r q hq
    rw [List.getElem?_append_left (List.getElem?_eq_some_iff.mp hq).1, hq]
  have hnew : ∀ {r : Nat} {q : Request},
      (s.requests ++ [⟨c, none, .dispatching, [], []⟩])[r]? = some q →
      s.requests[r]? = some q ∨ q = ⟨c, none, .dispatching, [], []⟩ := by
    intro r q hq
    rcases List.mem_append.mp (List.mem_of_getElem? hq) with hm | hm
    · by_cases hlt : r < s.requests.length
      · exact Or.inl (by rwa [List.getElem?_append_left hlt] at hq)
      · rw [List.getElem?_append_right (by omega)] at hq
        exact Or.inr (List.mem_singleton.mp (List.mem_of_getElem? hq))
    · exact Or.inr (List.mem_singleton.mp hm)
  constructor
  · intro t r ht
    obtain ⟨q, hq, hrest⟩ := h.owned t r ht
    exact ⟨q, hold hq, hrest⟩
  · exact h.injective
  · intro r q hq hpc
    rcases hnew hq with hq | rfl
    · exact h.fresh r q hq hpc
    · exact ⟨rfl, rfl⟩
  · intro r q hq
    rcases hnew hq with hq | rfl
    · exact h.settled r q hq
    · exact Nat.zero_le 1
  · intro r fcall hw
    obtain ⟨hl, q, hq, hf⟩ := h.writing r fcall hw
    exact ⟨hl, q, hold hq, hf⟩

/-- A request is given a free tag. -/
theorem Inv.allocate (h : Inv s) (hq : s.requests[r]? = some q) (hpc : q.pc = .dispatching)
    (ht : s.outstanding.lookup t = none) :
    Inv { s.setRequest r { q with pc := .waiting } with
      selected := t
      outstanding := s.outstanding.insert t r
      handle := .writing r (newFcall t q.call.message) } := by
  obtain ⟨hresp, herr⟩ := h.fresh r q hq hpc
  have h' := h.touch (w := { q with pc := .waiting }) hq rfl rfl rfl nofun
  have hget : (s.setRequest r { q with pc := .waiting }).requests[r]? =
      some { q with pc := .waiting } := by
    rw [setRequest_get hq, if_pos rfl]
  have hout := h.unowned hq hpc
  have hins : ∀ {t' r'}, (s.outstanding.insert t r).lookup t' = some r' →
      (t' = t ∧ r' = r) ∨ (t' ≠ t ∧ s.outstanding.lookup t' = some r') := by
    intro t' r' hl
    by_cases heq : t' = t
    · subst heq
      rw [AList.lookup_insert] at hl
      cases hl
      exact Or.inl ⟨rfl, rfl⟩
    · rw [AList.lookup_insert_ne heq] at hl
      exact Or.inr ⟨heq, hl⟩
  constructor
  · intro t' r' hl
    rcases hins hl with ⟨-, rfl⟩ | ⟨-, hl⟩
    · exact ⟨_, hget, nofun, hresp, herr⟩
    · exact h'.owned t' r' hl
  · intro t₁ t₂ r' h₁ h₂
    rcases hins h₁ with ⟨ht₁, hr₁⟩ | ⟨-, hl₁⟩ <;> rcases hins h₂ with ⟨ht₂, hr₂⟩ | ⟨-, hl₂⟩
    · exact ht₁.trans ht₂.symm
    · exact absurd (hr₁ ▸ hl₂) (hout t₂)
    · exact absurd (hr₂ ▸ hl₁) (hout t₁)
    · exact h.injective t₁ t₂ r' hl₁ hl₂
  · exact h'.fresh
  · exact h'.settled
  · intro r' fcall hw
    cases hw
    exact ⟨AList.lookup_insert _, _, hget, rfl⟩

theorem Inv.step (h : Inv s) (hstep : Step s a s') : Inv s' := by
  cases hstep with
  | call => exact h.call _
  | cancel hq _ => exact h.touch hq rfl rfl rfl id
  | sendClosed hq _ _ | sendCtxDone hq _ _ | sendErr hq _ _ | sendResponse hq _ _ =>
      exact h.touch hq rfl rfl rfl nofun
  | @depleted r q err hh hq hpc halloc =>
      obtain ⟨hresp, herr⟩ := h.fresh r q hq hpc
      have h' : Inv { s.setRequest r { q with pc := .waiting } with selected := 0 } :=
        (h.touch (w := { q with pc := .waiting }) hq rfl rfl rfl nofun).frame rfl rfl (Or.inl rfl)
      have hget : (s.setRequest r { q with pc := .waiting }).requests[r]? =
          some { q with pc := .waiting } := by
        rw [setRequest_get hq, if_pos rfl]
      exact h'.fail hget (h.unowned hq hpc) nofun hresp herr err
  | dispatch hh hq hpc halloc => exact h.allocate hq hpc (allocateTag_free halloc)
  | writeOk _ => exact h.frame rfl rfl (Or.inr fun _ _ hw => by cases hw)
  | @writeFail r fcall err hw =>
      obtain ⟨hl, -⟩ := h.writing r fcall hw
      obtain ⟨q, hq, hpc, hresp, herr⟩ := h.owned fcall.tag r hl
      have h' := h.erase fcall.tag s.reader
      exact h'.fail hq (h.erased hl) hpc hresp herr err
  | unknownTag _ _ _ => exact h.frame rfl rfl (Or.inr fun _ _ hw => by cases hw)
  | @deliver b r hh hr hl =>
      obtain ⟨q, hq, hpc, hresp, herr⟩ := h.owned b.tag r hl
      have h' : Inv { s with reader := .reading, outstanding := s.outstanding.erase b.tag } :=
        (h.erase b.tag .reading).frame rfl rfl (Or.inr (by simp [hh]))
      exact h'.respond hq (h.erased hl) hpc hresp herr b
  | handleShutdown _ _ | handleCtxDone _ _ =>
      exact h.frame rfl rfl (Or.inr fun _ _ hw => by cases hw)
  | readOk _ | readFail _ | readerCtxDone _ _ | readerClosed _ _ | cancelCtx _ | close =>
      exact h.frame rfl rfl (Or.inl rfl)
  | readRetry _ => exact h

/-! ## What a step leaves of a request -/

/-- `q'` is what has become of `q`: the same call, not dispatched again, and
in its response channel what was there and what satisfies `P`. -/
structure Request.Follows (P : Fcall → Prop) (q q' : Request) : Prop where
  call : q'.call = q.call
  pc : q'.pc = .dispatching → q.pc = .dispatching
  response : ∀ b ∈ q'.response, b ∈ q.response ∨ P b

theorem Request.Follows.refl (P : Fcall → Prop) (q : Request) : q.Follows P q :=
  ⟨rfl, id, fun _ hb => Or.inl hb⟩

/-- Every request of `l'` follows one of `l`, or is new, with nothing in its
channels; and every request of `l` is followed. -/
structure RequestsFollow (P : Nat → Fcall → Prop) (l l' : List Request) : Prop where
  forward : ∀ (r : Nat) (q : Request), l[r]? = some q →
    ∃ q' : Request, l'[r]? = some q' ∧ q.Follows (P r) q'
  backward : ∀ (r : Nat) (q' : Request), l'[r]? = some q' →
    q'.response = [] ∨ ∃ q : Request, l[r]? = some q ∧ q.Follows (P r) q'

theorem RequestsFollow.refl (P : Nat → Fcall → Prop) (l : List Request) : RequestsFollow P l l :=
  ⟨fun _ q hq => ⟨q, hq, .refl _ q⟩, fun _ q hq => Or.inr ⟨q, hq, .refl _ q⟩⟩

theorem requestsFollow_set {P : Nat → Fcall → Prop} {l : List Request} {q' : Request}
    (hq : l[r]? = some q) (hf : q.Follows (P r) q') : RequestsFollow P l (l.set r q') := by
  obtain ⟨hlt, -⟩ := List.getElem?_eq_some_iff.mp hq
  have hget : ∀ r', (l.set r q')[r']? = if r = r' then some q' else l[r']? := by
    intro r'
    rw [List.getElem?_set, if_pos hlt]
  constructor
  · intro r' p hp
    rw [hget]
    split
    · rename_i heq
      subst heq
      rw [hq] at hp
      cases hp
      exact ⟨q', rfl, hf⟩
    · exact ⟨p, hp, .refl _ p⟩
  · intro r' p hp
    rw [hget] at hp
    split at hp
    · rename_i heq
      subst heq
      cases hp
      exact Or.inr ⟨q, hq, hf⟩
    · exact Or.inr ⟨p, hp, .refl _ p⟩

theorem requestsFollow_append (P : Nat → Fcall → Prop) (l : List Request) (q : Request)
    (hq : q.response = []) : RequestsFollow P l (l ++ [q]) := by
  constructor
  · intro r p hp
    rw [List.getElem?_append_left (List.getElem?_eq_some_iff.mp hp).1]
    exact ⟨p, hp, .refl _ p⟩
  · intro r p hp
    by_cases hlt : r < l.length
    · rw [List.getElem?_append_left hlt] at hp
      exact Or.inr ⟨p, hp, .refl _ p⟩
    · rw [List.getElem?_append_right (by omega)] at hp
      obtain rfl := List.mem_singleton.mp (List.mem_of_getElem? hp)
      exact Or.inl hq

/-- Only `deliver` puts anything in a response channel: the response that was
offered, in that of the request outstanding under its tag. -/
theorem Step.requests (h : Inv s) (hstep : Step s a s') :
    RequestsFollow (fun r b => a = .deliver ∧ s.reader = .offering b ∧
      s.outstanding.lookup b.tag = some r) s.requests s'.requests := by
  cases hstep with
  | call => exact requestsFollow_append _ _ _ rfl
  | cancel hq _ => exact requestsFollow_set hq ⟨rfl, id, fun _ hb => Or.inl hb⟩
  | sendClosed hq _ _ | sendCtxDone hq _ _ | sendErr hq _ _ | sendResponse hq _ _
  | dispatch _ hq _ _ => exact requestsFollow_set hq ⟨rfl, nofun, fun _ hb => Or.inl hb⟩
  | @depleted r q err _ hq hpc _ =>
      have hget : (s.requests.set r { q with pc := .waiting })[r]? =
          some { q with pc := .waiting } := by
        rw [List.getElem?_set, if_pos rfl, if_pos (List.getElem?_eq_some_iff.mp hq).1]
      show RequestsFollow _ _ ((s.requests.set r { q with pc := .waiting }).modify r _)
      rw [modify_eq_set hget, List.set_set]
      exact requestsFollow_set hq ⟨rfl, nofun, fun _ hb => Or.inl hb⟩
  | @writeFail r fcall err hw =>
      obtain ⟨-, q, hq, -⟩ := h.writing r fcall hw
      show RequestsFollow _ _ (s.requests.modify r _)
      rw [modify_eq_set hq]
      exact requestsFollow_set hq ⟨rfl, id, fun _ hb => Or.inl hb⟩
  | @deliver b r _ hr hl =>
      obtain ⟨q, hq, -⟩ := h.owned b.tag r hl
      show RequestsFollow _ _ (s.requests.modify r _)
      rw [modify_eq_set hq]
      refine requestsFollow_set hq ⟨rfl, id, fun b' hb => ?_⟩
      rcases List.mem_append.mp hb with hb | hb
      · exact Or.inl hb
      · obtain rfl := List.mem_singleton.mp hb
        exact Or.inr ⟨rfl, hr, hl⟩
  | writeOk _ | unknownTag _ _ _ | handleShutdown _ _ | handleCtxDone _ _ | readOk _
  | readRetry _ | readFail _ | readerCtxDone _ _ | readerClosed _ _ | cancelCtx _ | close =>
      exact .refl _ _

end Transport

end P9p
