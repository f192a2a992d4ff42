/-
# `P9p.Client` — a session at the other end of a connection

`csession.go`: a `client` is a `Session` whose methods send a message and take
the response apart.  Here one call is made at a time.  Its request goes through
`WriteFcall` and `ReadFcall` to `Handle`, and the response comes back the same
way:

    client method ──▸ submit ──▸ serve ──▸ collect ──▸ response ──▸ client method
                      (bytes)   (Handle)   (bytes)      (send)

What the goroutines of both ends make of many calls at once is in `Transport`,
`ServeConn` and `EndToEnd`.

**The result.**  For whatever session is at the other end, the nine methods
that carry no file data do what the session's own do (`proxied`): the same
method is called, once, with the same arguments; what it returns is returned,
and of an error its text.
-/
import P9p.Handler
import P9p.ServeConn
import P9p.Transport
import P9p.Version

namespace P9p

variable {m : Message} {f : Fcall} {r : Except Err Message}

/-! ## The methods of a client -/

def Err.walkLimit : Err := .rerror (lit "too many wnames in walk")

/-- `io.ErrShortWrite`. -/
def Err.shortWrite : Err := .other (lit "short write")

/-- `roundTripper`: what `send` returns for a message. -/
abbrev RoundTripper (τ : Type) := Message → Handling τ MessageVal

namespace Client

section Methods

variable {τ : Type} (send : RoundTripper τ)

/-- Send a message and expect a response of one type. -/
def request {α : Type} (msg : Message) (expect : MessageVal → Option α) : Handling τ α := do
  let resp ← send msg
  match expect resp with
  | some a => return a
  | none => throw (.err .unexpectedMsg)

def auth (afid : Fid) (uname aname : Bytes) : Handling τ Qid :=
  request send (.tauth afid uname aname) fun
    | .value (.rauth qid) => some qid
    | _ => none

def attach (fid afid : Fid) (uname aname : Bytes) : Handling τ Qid :=
  request send (.tattach fid afid uname aname) fun
    | .value (.rattach qid) => some qid
    | _ => none

def clunk (fid : Fid) : Handling τ Unit :=
  request send (.tclunk fid) fun
    | .value .rclunk => some ()
    | _ => none

def remove (fid : Fid) : Handling τ Unit :=
  request send (.tremove fid) fun
    | .value .rremove => some ()
    | _ => none

def walk (fid newfid : Fid) (names : List Bytes) : Handling τ (List Qid) :=
  if names.length > 16 then throw (.err .walkLimit)
  else
    request send (.twalk fid newfid names) fun
      | .value (.rwalk qids) => some qids
      | _ => none

/-- `Read`: the count, what is in the buffer `p` then, and the error that comes
with them. -/
def read (fid : Fid) (p : Bytes) (offset : Int64) : Handling τ (Nat × Bytes × Option Err) := do
  let data ← request send (.tread fid offset.toUInt64 (UInt32.ofNat p.length)) fun
    | .value (.rread data) => some data
    | _ => none
  return (min p.length data.length, overwrite p data,
    if data.length = 0 then some .eof else none)

/-- `Write`: the count, and the error that comes with it. -/
def write (fid : Fid) (p : Bytes) (offset : Int64) : Handling τ (Nat × Option Err) := do
  let count ← request send (.twrite fid offset.toUInt64 p) fun
    | .value (.rwrite count) => some count
    | _ => none
  return (count.toNat, if count.toNat < p.length then some .shortWrite else none)

def «open» (fid : Fid) (mode : Flag) : Handling τ (Qid × UInt32) :=
  request send (.topen fid mode) fun
    | .value (.ropen qid iounit) => some (qid, iounit)
    | _ => none

def create (parent : Fid) (name : Bytes) (perm : UInt32) (mode : Flag) :
    Handling τ (Qid × UInt32) :=
  request send (.tcreate parent name perm mode) fun
    | .value (.rcreate qid iounit) => some (qid, iounit)
    | _ => none

def stat (fid : Fid) : Handling τ Dir :=
  request send (.tstat fid) fun
    | .value (.rstat stat) => some stat
    | _ => none

def wstat (fid : Fid) (dir : Dir) : Handling τ Unit :=
  request send (.twstat fid dir) fun
    | .value .rwstat => some ()
    | _ => none

end Methods

/-- The end of `send`.  The text of its own error goes on with the Fcall. -/
def response {τ : Type} (resp : Fcall) : Handling τ MessageVal :=
  if resp.type = 107 then
    match resp.message with
    | .value (.rerror ename) => throw (.err (.rerror ename))
    | _ => throw (.err (.other (lit "invalid error response: ")))
  else return resp.message

end Client

/-! ## The connection -/

/-- A connection: the channel at each end, the bytes on the way, the tag that
was used last, and the state of the session that is served. -/
structure Link (σ : Type) where
  client : Channel
  server : Channel
  up : Bytes
  down : Bytes
  selected : Tag
  state : σ

namespace Link

variable {σ : Type}

/-- The request is written by the client and read by the server.  A server that
cannot read closes the connection. -/
def submit (f : Fcall) : Handling (Link σ) Fcall := do
  let l ← get
  match l.client.writeFcall none f with
  | .error e => throw (.err e)
  | .ok frame =>
      match l.server.readFcall none (l.up ++ frame) with
      | .error _ => throw (.err .closed)
      | .ok ((req, server), up) =>
          set { l with server, up }
          return req

/-- The goroutine of the request calls `Handle`. -/
def serve (session : SessionOps σ) (msize : Int) (req : Fcall) : Handling (Link σ) Fcall := do
  let l ← get
  let (r, state) := handle session msize req.message l.state
  set { l with state }
  match r with
  | .ok msg => return Conn.respond req (.ok msg)
  | .error (.err err) => return Conn.respond req (.error err)
  | .error .panic => throw (.err .closed)

/-- The response is written by the server and read by the client, where it is
passed to the request its tag stands for. -/
def collect (tag : Tag) (f : Fcall) : Handling (Link σ) Fcall := do
  let l ← get
  match l.server.writeFcall none f with
  | .error _ => throw (.err .closed)
  | .ok frame =>
      match l.client.readFcall none (l.down ++ frame) with
      | .error .panic => throw .panic
      | .error (.err _) => throw (.err .closed)
      | .ok ((resp, client), down) =>
          set { l with client, down }
          if resp.tag ≠ tag then throw .panic
          return resp

/-- `transport.send` when no other request is outstanding, so that the tag after
the last one is free. -/
def send (session : SessionOps σ) (msize : Int) : RoundTripper (Link σ) := fun msg => do
  let tag := Transport.nextHint (← get).selected
  modify fun l => { l with selected := tag }
  let req ← submit (newFcall tag msg)
  let resp ← serve session msize req
  let resp ← collect tag resp
  Client.response resp

end Link

/-! ## What travels -/

/-- The values of a message: strings and lists that a 16-bit count can state,
times in whole seconds. -/
def Elem.Holds : Elem → Prop
  | .plain p => p.Encodable
  | .dir d => ∀ p ∈ d.fields, p.Encodable

instance : DecidablePred Elem.Holds
  | .plain p => inferInstanceAs (Decidable p.Encodable)
  | .dir d => inferInstanceAs (Decidable (∀ p ∈ d.fields, p.Encodable))

/-- A message that the wire format can hold and whose frame fits. -/
structure Message.Travels (msize : Nat) (m : Message) : Prop where
  holds : ∀ e ∈ m.fields, e.Holds
  fits : ∀ tag, (newFcall tag m).encode.length + 4 ≤ msize

instance (msize : Nat) : DecidablePred (Message.Travels msize) := fun m =>
  decidable_of_iff ((∀ e ∈ m.fields, e.Holds) ∧ (newFcall 0 m).encode.length + 4 ≤ msize)
    ⟨fun h => ⟨h.1, fun tag => (by
      have hlen := h.2
      rw [Fcall.encode_length rfl] at hlen ⊢
      exact hlen)⟩, fun h => ⟨h.holds, h.fits 0⟩⟩

/-- In a frame of this length every record has a body whose size 16 bits can
state. -/
theorem Message.Travels.encodable {msize : Nat} (h : m.Travels msize) (hmax : msize ≤ 65536) :
    m.Encodable := by
  intro e he
  have hfits := h.fits 0
  have hholds := h.holds e he
  rw [Fcall.encode_length rfl] at hfits
  cases e with
  | plain p => exact hholds
  | dir d =>
      refine ⟨hholds, ?_⟩
      cases m with
      | rstat stat =>
          obtain rfl : d = stat := by simpa [Message.fields] using he
          simp only [Message.encode, Message.fields, List.flatMap_cons, List.flatMap_nil,
            Elem.encode, List.append_nil, List.length_append, d.encode_length] at hfits
          omega
      | twstat fid stat =>
          obtain rfl : d = stat := by simpa [Message.fields] using he
          simp only [Message.encode, Message.fields, List.drop_succ_cons, List.drop_zero,
            List.flatMap_cons, List.flatMap_nil, Elem.encode, List.append_nil, List.length_append,
            d.encode_length] at hfits
          omega
      | _ => simp [Message.fields] at he

/-- An Fcall that arrives as it is. -/
structure Fcall.Stays (msize : Nat) (f : Fcall) : Prop where
  message : ∃ m, f.message = .value m ∧ f.type = m.type ∧ m.Encodable
  fits : f.encode.length + 4 ≤ msize
  same : maybeTruncate msize f = .ok f

theorem Message.Travels.stays {msize : Nat} (h : m.Travels msize) (hmax : msize ≤ 65536)
    (hcut : m.isCut = false) (tag : Tag) : (newFcall tag m).Stays msize :=
  ⟨⟨m, rfl, rfl, h.encodable hmax⟩, h.fits tag, maybeTruncate_same rfl hcut (h.fits tag)⟩

/-- What one end writes for `f` is read as it was written. -/
theorem Fcall.Stays.carried {msize : Nat} {g : Fcall} (h : g.Stays msize) (hmax : msize ≤ 65536)
    (hf : maybeTruncate msize f = .ok g) {w r : Channel} (hw : w.msize = msize)
    (hr : r.msize = msize) :
    w.writeFcall none f = .ok (sendmsg g.encode) ∧
      r.readFcall none (sendmsg g.encode) = .ok ((g, r.fill g.encode), []) := by
  subst hw
  obtain ⟨m, hm, htype, hok⟩ := h.message
  have hfits := h.fits
  constructor
  · rw [writeFcall_eq, onWire, hf]
    rfl
  · have hread := readFcall_sendmsg r hm htype hok (by omega) (by omega)
      (by rw [hr]; exact h.same) []
    rwa [List.append_nil] at hread

theorem Handling.get_bind {σ α : Type} (f : σ → Handling σ α) (s : σ) :
    ((get : Handling σ σ) >>= f) s = f s s := rfl

/-! ## A round trip -/

/-- The text that goes into a `MessageRerror`. -/
def Err.ename : Err → Bytes
  | .rerror ename => ename
  | err => err.error

/-- The message of a response. -/
def reply : Except Err Message → Message
  | .ok msg => msg
  | .error err => .rerror err.ename

theorem respond_eq (req : Fcall) (r : Except Err Message) :
    Conn.respond req r = newFcall req.tag (reply r) := by
  cases r with
  | ok msg => rfl
  | error err => cases err <;> rfl

namespace Link

variable {σ : Type}

/-- Both ends have negotiated `msize`, and nothing is on the way.  Both begin
with `DefaultMSize`. -/
structure Ready (msize : Nat) (l : Link σ) : Prop where
  client : l.client.msize = msize
  server : l.server.msize = msize
  max : msize ≤ 65536
  up : l.up = []
  down : l.down = []

variable {msize : Nat} {l : Link σ}

theorem submit_ready (h : l.Ready msize) {g : Fcall} (hf : maybeTruncate msize f = .ok g)
    (hg : g.Stays msize) :
    ∃ l', submit f l = (.ok g, l') ∧ l'.Ready msize ∧ l'.state = l.state := by
  obtain ⟨client, server, up, down, selected, state⟩ := l
  obtain ⟨hclient, hserver, hmax, rfl, rfl⟩ := h
  obtain ⟨hwrite, hread⟩ := hg.carried hmax hf hclient hserver
  refine ⟨⟨client, server.fill g.encode, [], [], selected, state⟩, ?_,
    ⟨hclient, hserver, hmax, rfl, rfl⟩, rfl⟩
  rw [submit, Handling.get_bind, hwrite]
  dsimp only
  rw [List.nil_append, hread]
  rfl

theorem collect_ready (h : l.Ready msize) (hf : f.Stays msize) :
    ∃ l', collect f.tag f l = (.ok f, l') ∧ l'.Ready msize ∧ l'.state = l.state := by
  obtain ⟨client, server, up, down, selected, state⟩ := l
  obtain ⟨hclient, hserver, hmax, rfl, rfl⟩ := h
  obtain ⟨hwrite, hread⟩ := hf.carried hmax hf.same hserver hclient
  refine ⟨⟨client.fill f.encode, server, [], [], selected, state⟩, ?_,
    ⟨hclient, hserver, hmax, rfl, rfl⟩, rfl⟩
  rw [collect, Handling.get_bind, hwrite]
  dsimp only
  rw [List.nil_append, hread]
  dsimp only
  rw [if_neg (not_not.mpr rfl)]
  rfl

theorem serve_ready (h : l.Ready msize) {session : SessionOps σ} {smsize : Int} (req : Fcall)
    {s' : σ} (hr : handle session smsize req.message l.state = (r.mapError .err, s')) :
    ∃ l', serve session smsize req l = (.ok (newFcall req.tag (reply r)), l') ∧ l'.Ready msize ∧
      l'.state = s' := by
  refine ⟨{ l with state := s' }, ?_, ⟨h.client, h.server, h.max, h.up, h.down⟩, rfl⟩
  rw [serve, Handling.get_bind, hr, ← respond_eq]
  cases r <;> rfl

/-- What `send` returns for a response. -/
def outcome : Except Err Message → Except Fault MessageVal
  | .ok msg => .ok (.value msg)
  | .error err => .error (.err (.rerror err.ename))

theorem response_reply {τ : Type} (hr : ∀ msg, r = .ok msg → msg.type ≠ 107) (tag : Tag) (t : τ) :
    Client.response (newFcall tag (reply r)) t = (outcome r, t) := by
  cases r with
  | ok msg => exact congrFun (if_neg (hr msg rfl)) t
  | error err => rfl

/-- **A round trip.**  The request is handled as it arrives, and the response
arrives as it was given. -/
theorem send_ready (h : l.Ready msize) {session : SessionOps σ} {smsize : Int} {msg : Message}
    (hf : ∀ tag, maybeTruncate msize (newFcall tag msg) = .ok (newFcall tag m))
    (hm : ∀ tag, (newFcall tag m).Stays msize) {s' : σ}
    (hhandle : handle session smsize (.value m) l.state = (r.mapError .err, s'))
    (hr : ∀ msg, r = .ok msg → msg.type ≠ 107)
    (hresp : ∀ tag, (newFcall tag (reply r)).Stays msize) :
    ∃ l', send session smsize msg l = (outcome r, l') ∧ l'.Ready msize ∧ l'.state = s' := by
  let tag := Transport.nextHint l.selected
  have h₀ : Ready msize { l with selected := tag } := ⟨h.client, h.server, h.max, h.up, h.down⟩
  obtain ⟨l₁, hsubmit, h₁, hstate⟩ := submit_ready h₀ (hf tag) (hm tag)
  rw [← show l₁.state = l.state from hstate] at hhandle
  obtain ⟨l₂, hserve, h₂, hstate⟩ := serve_ready h₁ (newFcall tag m) hhandle
  obtain ⟨l₃, hcollect, h₃, hstate'⟩ := collect_ready h₂ (hresp tag)
  refine ⟨l₃, ?_, h₃, hstate'.trans hstate⟩
  calc send session smsize msg l
      = (submit (newFcall tag msg) >>= fun req => serve session smsize req >>= fun resp =>
          collect tag resp >>= Client.response) { l with selected := tag } := rfl
    _ = (serve session smsize (newFcall tag m) >>= fun resp =>
          collect tag resp >>= Client.response) l₁ := Handling.bind_ok hsubmit _
    _ = (collect tag (newFcall tag (reply r)) >>= Client.response) l₂ := Handling.bind_ok hserve _
    _ = Client.response (newFcall tag (reply r)) l₃ := Handling.bind_ok hcollect _
    _ = (outcome r, l₃) := response_reply hr tag l₃

end Link

/-! ## The methods that carry no file data -/

/-- A call of one of the nine methods, with the type of its result. -/
inductive Proc : Type → Type where
  | auth (afid : Fid) (uname aname : Bytes) : Proc Qid
  | attach (fid afid : Fid) (uname aname : Bytes) : Proc Qid
  | clunk (fid : Fid) : Proc Unit
  | remove (fid : Fid) : Proc Unit
  | walk (fid newfid : Fid) (names : List Bytes) : Proc (List Qid)
  | open (fid : Fid) (mode : Flag) : Proc (Qid × UInt32)
  | create (parent : Fid) (name : Bytes) (perm : UInt32) (mode : Flag) : Proc (Qid × UInt32)
  | stat (fid : Fid) : Proc Dir
  | wstat (fid : Fid) (dir : Dir) : Proc Unit

namespace Proc

variable {σ τ α : Type}

/-- The call, with its arguments. -/
def toCall : Proc α → Call
  | auth afid uname aname => .auth afid uname aname
  | attach fid afid uname aname => .attach fid afid uname aname
  | clunk fid => .clunk fid
  | remove fid => .remove fid
  | walk fid newfid names => .walk fid newfid names
  | «open» fid mode => .open fid mode
  | create parent name perm mode => .create parent name perm mode
  | stat fid => .stat fid
  | wstat fid dir => .wstat fid dir

/-- The call on a session itself. -/
def onSession (session : SessionOps σ) : Proc α → Method σ α
  | auth afid uname aname => session.auth afid uname aname
  | attach fid afid uname aname => session.attach fid afid uname aname
  | clunk fid => session.clunk fid
  | remove fid => session.remove fid
  | walk fid newfid names => session.walk fid newfid names
  | «open» fid mode => session.open fid mode
  | create parent name perm mode => session.create parent name perm mode
  | stat fid => session.stat fid
  | wstat fid dir => session.wstat fid dir

/-- The call on a client. -/
def onClient (send : RoundTripper τ) : Proc α → Handling τ α
  | auth afid uname aname => Client.auth send afid uname aname
  | attach fid afid uname aname => Client.attach send fid afid uname aname
  | clunk fid => Client.clunk send fid
  | remove fid => Client.remove send fid
  | walk fid newfid names => Client.walk send fid newfid names
  | «open» fid mode => Client.open send fid mode
  | create parent name perm mode => Client.create send parent name perm mode
  | stat fid => Client.stat send fid
  | wstat fid dir => Client.wstat send fid dir

/-- The message that stands for a result. -/
def response : Proc α → α → Message
  | auth _ _ _, qid => .rauth qid
  | attach _ _ _ _, qid => .rattach qid
  | clunk _, _ => .rclunk
  | remove _, _ => .rremove
  | walk _ _ _, qids => .rwalk qids
  | «open» _ _, (qid, iounit) => .ropen qid iounit
  | create _ _ _ _, (qid, iounit) => .rcreate qid iounit
  | stat _, dir => .rstat dir
  | wstat _ _, _ => .rwstat

/-- `Walk` has at most 16 names. -/
def Short : Proc α → Prop
  | walk _ _ names => names.length ≤ 16
  | _ => True

theorem response_isCut (p : Proc α) (a : α) : (p.response a).isCut = false := by
  cases p <;> rfl

theorem response_type (p : Proc α) (a : α) : (p.response a).type ≠ 107 := by
  cases p <;> exact nofun

theorem request_isCut (p : Proc α) : p.toCall.message.isCut = false := by
  cases p <;> rfl

/-- `Handle` calls the same method with the same arguments. -/
theorem handle_eq (session : SessionOps σ) (smsize : Int) (p : Proc α) (s : σ) :
    handle session smsize (.value p.toCall.message) s =
      (((p.onSession session s).1.map p.response).mapError .err, (p.onSession session s).2) := by
  have hcall : ∀ {β : Type} (method : Method σ β) (f : β → Message),
      (do return f (← method.call) : Handling σ Message) s =
        (((method s).1.map f).mapError .err, (method s).2) := by
    intro β method f
    simp only [bind, ExceptT.bind, ExceptT.mk, StateT.bind, Method.call]
    obtain ⟨r, s'⟩ := method s
    cases r <;> rfl
  cases p <;> exact hcall _ _

theorem onClient_ok {send : RoundTripper τ} {p : Proc α} (hp : p.Short) {a : α} {t t' : τ}
    (h : send p.toCall.message t = (.ok (.value (p.response a)), t')) :
    p.onClient send t = (.ok a, t') := by
  cases p with
  | walk fid newfid names =>
      exact (congrFun (if_neg (Nat.not_lt.mpr hp)) t).trans (Handling.bind_ok h _)
  | _ => exact Handling.bind_ok h _

theorem onClient_error {send : RoundTripper τ} {p : Proc α} (hp : p.Short) {f : Fault} {t t' : τ}
    (h : send p.toCall.message t = (.error f, t')) : p.onClient send t = (.error f, t') := by
  have hrequest : ∀ {β : Type} (expect : MessageVal → Option β),
      Client.request send p.toCall.message expect t = (.error f, t') := by
    intro β expect
    simp only [Client.request, bind, ExceptT.bind, ExceptT.mk, StateT.bind, h]
    rfl
  cases p with
  | walk fid newfid names => exact (congrFun (if_neg (Nat.not_lt.mpr hp)) t).trans (hrequest _)
  | _ => exact hrequest _

end Proc

/-- The round trip of such a call. -/
theorem Link.send_proc {σ α : Type} {msize : Nat} {l : Link σ} (h : l.Ready msize)
    {session : SessionOps σ} (smsize : Int) {p : Proc α} {r : Except Err α} {s' : σ}
    (hcall : p.onSession session l.state = (r, s')) (hreq : p.toCall.message.Travels msize)
    (hresp : (reply (r.map p.response)).Travels msize) :
    ∃ l', send session smsize p.toCall.message l = (outcome (r.map p.response), l') ∧
      l'.Ready msize ∧ l'.state = s' := by
  have hhandle := p.handle_eq session smsize l.state
  rw [hcall] at hhandle
  have htype : ∀ msg, r.map p.response = .ok msg → msg.type ≠ 107 := by
    intro msg hmsg
    cases r with
    | ok a =>
        cases hmsg
        exact p.response_type a
    | error err => cases hmsg
  have hcut : (reply (r.map p.response)).isCut = false := by
    cases r with
    | ok a => exact p.response_isCut a
    | error err => rfl
  have hreq := hreq.stays h.max p.request_isCut
  exact send_ready h (fun tag => (hreq tag).same) hreq hhandle htype (hresp.stays h.max hcut)

/-! ## The proxy -/

/-- The session, with a record of the calls that are made on it. -/
def Method.recorded {σ α : Type} (c : Call) (method : Method σ α) : Method (σ × List Call) α :=
  fun s => ((method s.1).1, (method s.1).2, s.2 ++ [c])

def SessionOps.recorded {σ : Type} (session : SessionOps σ) : SessionOps (σ × List Call) where
  auth afid uname aname := (session.auth afid uname aname).recorded (.auth afid uname aname)
  attach fid afid uname aname :=
    (session.attach fid afid uname aname).recorded (.attach fid afid uname aname)
  clunk fid := (session.clunk fid).recorded (.clunk fid)
  remove fid := (session.remove fid).recorded (.remove fid)
  walk fid newfid names := (session.walk fid newfid names).recorded (.walk fid newfid names)
  read fid p offset := (session.read fid p offset).recorded (.read fid p.length offset.toUInt64)
  write fid p offset := (session.write fid p offset).recorded (.write fid p offset.toUInt64)
  «open» fid mode := (session.open fid mode).recorded (.open fid mode)
  create parent name perm mode :=
    (session.create parent name perm mode).recorded (.create parent name perm mode)
  stat fid := (session.stat fid).recorded (.stat fid)
  wstat fid dir := (session.wstat fid dir).recorded (.wstat fid dir)

theorem Proc.onSession_recorded {σ α : Type} (session : SessionOps σ) (p : Proc α)
    (s : σ × List Call) : p.onSession session.recorded s =
      ((p.onSession session s.1).1, (p.onSession session s.1).2, s.2 ++ [p.toCall]) := by
  cases p <;> rfl

/-- What the client returns for what the session returns. -/
def proxyResult {α : Type} : Except Err α → Except Fault α
  | .ok a => .ok a
  | .error err => .error (.err (.rerror err.ename))

/-- **The proxy.**  A call on the client is that call on the session, made once
with the same arguments.  Its result is the session's, its error a
`MessageRerror` with the session's text. -/
theorem proxied {σ α : Type} (session : SessionOps σ) (smsize : Int) {msize : Nat}
    (l : Link (σ × List Call)) (hl : l.Ready msize) (p : Proc α) (hp : p.Short)
    (hreq : p.toCall.message.Travels msize)
    (hresp : ∀ a, (p.onSession session l.state.1).1 = .ok a → (p.response a).Travels msize)
    (herr : ∀ err, (p.onSession session l.state.1).1 = .error err →
      (Message.rerror err.ename).Travels msize) :
    ∃ l', p.onClient (Link.send session.recorded smsize) l =
        (proxyResult (p.onSession session l.state.1).1, l') ∧
      l'.state = ((p.onSession session l.state.1).2, l.state.2 ++ [p.toCall]) ∧ l'.Ready msize := by
  have hcall := p.onSession_recorded session l.state
  generalize p.onSession session l.state.1 = result at *
  obtain ⟨r, s'⟩ := result
  have hreply : (reply (r.map p.response)).Travels msize := by
    cases r with
    | ok a => exact hresp a rfl
    | error err => exact herr err rfl
  obtain ⟨l', hsend, hl', hstate⟩ := Link.send_proc hl smsize hcall hreq hreply
  refine ⟨l', ?_, hstate, hl'⟩
  cases r with
  | ok a => exact Proc.onClient_ok hp hsend
  | error err => exact Proc.onClient_error hp hsend

/-- A session that knows one directory. -/
def oneDir : SessionOps Unit := { shortReads with stat := fun _ s => (.ok Dir.somedir, s) }

/-- `Stat` on a connection with an msize of 8192. -/
theorem proxied_stat :
    ∃ l', (Proc.stat 7).onClient (Link.send oneDir.recorded 65536)
        ⟨newChannel 8192, newChannel 8192, [], [], 0, ((), [])⟩ = (.ok Dir.somedir, l') ∧
      l'.state = ((), [.stat 7]) := by
  have htravels : (Message.tstat 7).Travels 8192 ∧ (Message.rstat Dir.somedir).Travels 8192 := by
    refine ⟨⟨List.forall_mem_singleton.mpr trivial, fun tag => ?_⟩,
      ⟨List.forall_mem_singleton.mpr (by decide), fun tag => ?_⟩⟩
    · rw [Fcall.encode_length rfl]
      decide
    · rw [Fcall.encode_length rfl]
      decide
  obtain ⟨l', hcall, hstate, -⟩ := proxied oneDir 65536
    ⟨newChannel 8192, newChannel 8192, [], [], 0, ((), [])⟩ ⟨rfl, rfl, by decide, rfl, rfl⟩
    (.stat 7) trivial htravels.1 (by rintro _ ⟨⟩; exact htravels.2) nofun
  exact ⟨l', hcall, hstate⟩

end P9p
