/-
# `P9p.EndToEnd` — a client transport and a server loop on one connection

`transport.handle` and `conn.serve` never meet except by messages.  This
module puts them at the two ends of a link and follows a request around:

    client                      up                      server
    sending ─────────────────▸ up ─────────────────▸ offered
                                                        │ accept
                                                      table
                                                        │ completed, hand-over
    received ◂────────────── down ◂─────────────── answering

**The link** is reliable and in order: what `WriteFcall` accepts arrives, as
`onWire` and `offWire` change it, and a `WriteFcall` that fails has sent
nothing.  Everything else is left to the two systems: any `send` call may be
cancelled at any time, either end may close, any read or write may fail, and
handlers answer what they like, when they like.

**Ghost fields.**  `origin`, `offered`, `answering` and `received` remember
which client request a message belongs to: the request of each server
goroutine, and of the message the server's reader, the server's writer and
the client's reader hold; the links carry the same number beside the message.
No step reads them.  They are there to say *whose* answer is delivered, where
tags and messages alone could not tell two equal requests apart.
-/
import P9p.Channel.Link
import P9p.ServeConn.Calm
import P9p.Transport

namespace P9p

/-- Actions that put a message on a link or take one off. -/
def Transport.Act.onLink : Transport.Act → Bool
  | .writeOk | .readOk _ => true
  | _ => false

def Conn.Act.onLink : Conn.Act → Bool
  | .writeOk | .readOk _ => true
  | _ => false

namespace EndToEnd

open Conc

structure State where
  client : Transport.State
  server : Conn.State
  up : List (Nat × Fcall)
  down : List (Nat × Fcall)
  origin : List Nat
  offered : Nat
  answering : Nat
  received : Nat

def init : State where
  client := Transport.init
  server := Conn.init
  up := []
  down := []
  origin := []
  offered := 0
  answering := 0
  received := 0

inductive Act where
  | client (a : Transport.Act)
  | server (a : Conn.Act)
  | clientWrite
  | serverRead
  | serverWrite
  | clientRead

/-- The server moves to `v` by an action of its own.  A new goroutine works
for the request that was offered; a response handed to the writer answers the
request of the goroutine it came from. -/
def State.serverStep (s : State) (a : Conn.Act) (v : Conn.State) : State :=
  { s with
    server := v
    origin := if s.server.handlers.length < v.handlers.length then s.origin ++ [s.offered]
      else s.origin
    answering :=
      match a, s.server.serve with
      | .handover, .handing _ _ src => s.origin.getD src 0
      | _, _ => s.answering }

section System

-- the msizes of the client's and of the server's channel
variable (cm sm : Nat)

def step (s : State) : Act → Option State
  | .client a =>
      if a.onLink then none else (Transport.step s.client a).map fun c => { s with client := c }
  | .server a =>
      if a.onLink then none else (Conn.step s.server a).map fun v => s.serverStep a v
  | .clientWrite =>
      match s.client.handle with
      | .writing r f =>
          match onWire cm f with
          | .ok w => (Transport.step s.client .writeOk).map fun c =>
              { s with client := c, up := s.up ++ [(r, w)] }
          | .error _ => none
      | _ => none
  | .serverRead =>
      match s.up with
      | (r, w) :: up =>
          match offWire sm w with
          | .ok req => (Conn.step s.server (.readOk req)).map fun v =>
              { s with server := v, up := up, offered := r }
          | .error err => (Conn.step s.server (.readFail err)).map fun v =>
              { s with server := v, up := up }
      | [] => none
  | .serverWrite =>
      match s.server.writer with
      | .writing resp =>
          match onWire sm resp with
          | .ok w => (Conn.step s.server .writeOk).map fun v =>
              { s with server := v, down := s.down ++ [(s.answering, w)] }
          | .error _ => none
      | _ => none
  | .clientRead =>
      match s.down with
      | (r, w) :: down =>
          match offWire cm w with
          | .ok resp => (Transport.step s.client (.readOk resp)).map fun c =>
              { s with client := c, down := down, received := r }
          | .error err => (Transport.step s.client (.readFail err)).map fun c =>
              { s with client := c, down := down }
      | [] => none

/-! ## What a step can do -/

inductive Step (s : State) : Act → State → Prop where
  | client {a : Transport.Act} {c : Transport.State} : a.onLink = false →
      Transport.Step s.client a c → Step s (.client a) { s with client := c }
  | server {a : Conn.Act} {v : Conn.State} : a.onLink = false → Conn.Step s.server a v →
      Step s (.server a) (s.serverStep a v)
  | clientWrite {r : Nat} {f w : Fcall} : s.client.handle = .writing r f → onWire cm f = .ok w →
      Step s .clientWrite { s with
        client := { s.client with handle := .select }, up := s.up ++ [(r, w)] }
  | serverRead {r : Nat} {w req : Fcall} {up : List (Nat × Fcall)} : s.up = (r, w) :: up →
      offWire sm w = .ok req → s.server.reader = .reading →
      Step s .serverRead { s with
        server := { s.server with reader := .offering req }, up := up, offered := r }
  | serverReadFail {r : Nat} {w : Fcall} {up : List (Nat × Fcall)} {err : Err} {v : Conn.State} :
      s.up = (r, w) :: up → offWire sm w = .error err → Conn.Step s.server (.readFail err) v →
      Step s .serverRead { s with server := v, up := up }
  | serverWrite {resp w : Fcall} : s.server.writer = .writing resp → onWire sm resp = .ok w →
      Step s .serverWrite { s with
        server := { s.server with writer := .select }, down := s.down ++ [(s.answering, w)] }
  | clientRead {r : Nat} {w resp : Fcall} {down : List (Nat × Fcall)} : s.down = (r, w) :: down →
      offWire cm w = .ok resp → s.client.reader = .reading →
      Step s .clientRead { s with
        client := { s.client with reader := .offering resp }, down := down, received := r }
  | clientReadFail {r : Nat} {w : Fcall} {down : List (Nat × Fcall)} {err : Err} :
      s.down = (r, w) :: down → offWire cm w = .error err → s.client.reader = .reading →
      Step s .clientRead { s with client := s.client.readerReturn, down := down }

theorem step_cases {s s' : State} {a : Act} (h : step cm sm s a = some s') :
    Step cm sm s a s' := by
  cases a with
  | client a =>
      simp only [step] at h
      split at h
      · cases h
      · rename_i hlink
        obtain ⟨c, hc, rfl⟩ := Option.map_eq_some_iff.mp h
        exact .client (Bool.eq_false_iff.mpr hlink) (Transport.step_cases hc)
  | server a =>
      simp only [step] at h
      split at h
      · cases h
      · rename_i hlink
        obtain ⟨v, hv, rfl⟩ := Option.map_eq_some_iff.mp h
        exact .server (Bool.eq_false_iff.mpr hlink) (Conn.step_cases hv)
  | clientWrite =>
      simp only [step] at h
      split at h
      · rename_i r f hw
        split at h
        · rename_i w hon
          simp only [Transport.step, hw, Option.map_some] at h
          cases h
          exact .clientWrite hw hon
        · cases h
      · cases h
  | serverRead =>
      simp only [step] at h
      split at h
      · rename_i r w up hup
        split at h
        · rename_i req hoff
          obtain ⟨v, hv, rfl⟩ := Option.map_eq_some_iff.mp h
          cases Conn.step_cases hv with
          | readOk hr => exact .serverRead hup hoff hr
        · rename_i err hoff
          obtain ⟨v, hv, rfl⟩ := Option.map_eq_some_iff.mp h
          exact .serverReadFail hup hoff (Conn.step_cases hv)
      · cases h
  | serverWrite =>
      simp only [step] at h
      split at h
      · rename_i resp hw
        split at h
        · rename_i w hon
          simp only [Conn.step, hw, Option.map_some] at h
          cases h
          exact .serverWrite hw hon
        · cases h
      · cases h
  | clientRead =>
      simp only [step] at h
      split at h
      · rename_i r w down hdown
        split at h
        · rename_i resp hoff
          obtain ⟨c, hc, rfl⟩ := Option.map_eq_some_iff.mp h
          cases Transport.step_cases hc with
          | readOk hr => exact .clientRead hdown hoff hr
        · rename_i err hoff
          obtain ⟨c, hc, rfl⟩ := Option.map_eq_some_iff.mp h
          cases Transport.step_cases hc with
          | readFail hr => exact .clientReadFail hdown hoff hr
      · cases h

end System

end EndToEnd

end P9p
