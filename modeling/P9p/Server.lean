/-
# `P9p.Server` — the loop, the handler and the session together

    conn         the loop and its goroutines      (`P9p.ServeConn`)
    session      the operations on the fid table  (`P9p.Session`)
    thread       which goroutine runs which operation

A goroutine that the loop starts calls `Handle`, which calls a method of the
session; that is a thread of the session, invoked when the goroutine starts.
When it has returned, `Handle` returns.  For any other message `Handle` returns
an error and the session is not called.
-/
import P9p.Handler
import P9p.ServeConn
import P9p.Session.World

namespace P9p

open Conc

/-- The operation that `Handle` calls for a message. -/
def MessageVal.op (msize : Int) : MessageVal → Option Session.Op
  | .value (.tauth afid uname aname) => some (.auth afid uname aname)
  | .value (.tattach fid afid uname aname) => some (.attach fid afid uname aname)
  | .value (.twalk fid newfid wnames) => some (.walk fid newfid wnames)
  | .value (.topen fid mode) => some (.open fid mode)
  | .value (.tcreate fid name perm mode) => some (.create fid name perm mode)
  | .value (.tread fid offset count) => some (.read fid (readBuffer msize count) offset.toInt64)
  | .value (.twrite fid offset data) => some (.write fid data offset.toInt64)
  | .value (.tclunk fid) => some (.clunk fid)
  | .value (.tremove fid) => some (.remove fid)
  | .value (.tstat fid) => some (.stat fid)
  | .value (.twstat fid stat) => some (.wstat fid stat)
  | _ => none

/-- What `Handle` makes of the result; `p` is the buffer after `Read`.  A count
that is not within the buffer panics. -/
def Session.Op.answer (p : Bytes) (op : Session.Op) (r : Session.Ret) :
    Option (Except Err Message) :=
  match r.err with
  | some err => some (.error err)
  | none =>
      match op, r with
      | .auth _ _ _, .qid qid _ => some (.ok (.rauth qid))
      | .attach _ _ _ _, .qid qid _ => some (.ok (.rattach qid))
      | .walk _ _ _, .qids qids _ => some (.ok (.rwalk qids))
      | .open _ _, .opened qid iounit _ => some (.ok (.ropen qid iounit))
      | .create _ _ _ _, .opened qid iounit _ => some (.ok (.rcreate qid iounit))
      | .read _ len _, .count n _ =>
          if p.length = len ∧ 0 ≤ n ∧ n ≤ len then some (.ok (.rread (p.take n.toNat))) else none
      | .write _ _ _, .count n _ => some (.ok (.rwrite (UInt32.ofInt n)))
      | .clunk _, .done _ => some (.ok .rclunk)
      | .remove _, .done _ => some (.ok .rremove)
      | .stat _, .stat dir _ => some (.ok (.rstat dir))
      | .wstat _ _, .done _ => some (.ok .rwstat)
      | _, _ => none

/-! ## One request, with nothing else going on -/

section Handles

variable {φ : Type} {F : Session.FileSys φ} {msize : Int} {w w' : Session.World φ}
  {message : MessageVal} {res : Except Err Message}

/-- The length of the buffer that `Handle` has made for the operation. -/
def Session.Op.buffer : Session.Op → Nat
  | .read _ len _ => len
  | _ => 0

/-- `Handle` returns: the operation does, and its result is one that `Handle`
can take. -/
def Handles (F : Session.FileSys φ) (msize : Int) (w : Session.World φ) (message : MessageVal)
    (res : Except Err Message) (w' : Session.World φ) : Prop :=
  ∃ op r, message.op msize = some op ∧ w.perform F op = some (r, w') ∧
    op.answer (overwrite (List.replicate op.buffer 0) w'.data) r = some res

theorem Method.call_error {σ α : Type} {method : Method σ α} {s s' : σ} {err : Err}
    (h : method s = (.error err, s')) : method.call s = (.error (.err err), s') := by
  rw [Method.call, h]

/-- A `Tread` is answered with the buffer, up to the count. -/
theorem handle_read {fid : Fid} {offset : UInt64} {count : UInt32} {n : Int}
    (h : w.perform F (.read fid (readBuffer msize count) offset.toInt64) =
      some (.count n none, w')) (hn : 0 ≤ n ∧ n ≤ readBuffer msize count) :
    handle (Session.sFileSys F) msize (.value (.tread fid offset count)) w =
      (.ok (.rread ((overwrite (List.replicate (readBuffer msize count) 0) w'.data).take n.toNat)),
        w') := by
  have hlen : (List.replicate (readBuffer msize count) (0 : UInt8)).length =
      readBuffer msize count := List.length_replicate ..
  rw [← hlen] at h
  refine handle_tread (Session.sFileSys_read h) ?_
  rw [overwrite_length, hlen]
  exact hn

/-- It is the `Handle` of `P9p.Handler` over `SFileSys`. -/
theorem Handles.handle (h : Handles F msize w message res w') :
    handle (Session.sFileSys F) msize message w = (res.mapError .err, w') := by
  obtain ⟨op, r, hop, hperform, hres⟩ := h
  cases message with
  | nil => cases hop
  | pointer m => cases hop
  | value m =>
      cases herr : r.err with
      | some err =>
          simp only [Session.Op.answer, herr, Option.some.injEq] at hres
          subst hres
          rw [show (Except.error err : Except Err Message).mapError Fault.err =
            .error (.err err) from rfl]
          cases m <;> cases hop <;> rw [P9p.handle] <;>
            refine Handling.bind_error (Method.call_error ?_) _ <;>
            simp only [Session.sFileSys, Session.World.method, List.length_replicate, hperform,
              herr]
      | none =>
          simp only [Session.Op.answer, herr] at hres
          -- a result of another operation's kind is no result
          cases m <;> cases hop <;> cases r <;> first
            | cases hres
              done
            | cases hres
              simp only [P9p.handle, Session.sFileSys, Session.World.method, Method.call, bind,
                ExceptT.bind, ExceptT.mk, StateT.bind, hperform, herr]
              rfl
            | obtain ⟨hn, ⟨⟩⟩ := Option.ite_none_right_eq_some.mp hres
              cases herr
              exact handle_read hperform hn.2

end Handles

structure Server where
  conn : Conn.State
  session : Session.State
  thread : Nat → Option Nat

namespace Server

def init : Server := ⟨Conn.init, Session.initial, fun _ => none⟩

inductive Act where
  | loop (a : Conn.Act)
  | session (t : Nat) (env : Session.Env)
  | handled (i : Nat) (p : Bytes)

/-- The loop has taken a step.  If it has started a goroutine, that calls the
session. -/
def follow (msize : Int) (s : Server) (conn : Conn.State) : Server :=
  match conn.handlers[s.conn.handlers.length]? with
  | none => { s with conn }
  | some h =>
      match h.req.message.op msize with
      | none => { s with conn }
      | some op =>
          { conn
            session := ⟨Session.start s.session.store s.session.threads.length op,
              s.session.threads ++ [op.prog]⟩
            thread := Function.update s.thread s.conn.handlers.length
              (some s.session.threads.length) }

/-- What `Handle` returns in goroutine `i`, if it returns. -/
def answer (msize : Int) (s : Server) (i : Nat) (message : MessageVal) (p : Bytes) :
    Option (Except Err Message) :=
  match message.op msize with
  | none => some (.error .unknownMsg)
  | some op =>
      match (s.thread i).bind fun t => s.session.threads[t]? with
      | some (.ret r) => op.answer p r
      | _ => none

def step (msize : Int) (s : Server) : Act → Option Server
  | .loop (.handled _ _) => none
  | .loop a => (Conn.step s.conn a).map (s.follow msize)
  | .session t env =>
      (Session.step s.session (.run t env)).map fun session => { s with session }
  | .handled i p =>
      match s.conn.handlers[i]? with
      | none => none
      | some h =>
          match s.answer msize i h.req.message p with
          | none => none
          | some r => (Conn.step s.conn (.handled i r)).map fun conn => { s with conn }

end Server

end P9p
