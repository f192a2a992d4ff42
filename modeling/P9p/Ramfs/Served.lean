/-
# The file tree as the file system of sessions

Every session has its own `FileSys`, with keys of its own for the handles and
files it is given; they share the server.  A `Walk` or `Create` that fails
returns `noHandle`, which is not nil.
-/
import P9p.Ramfs.Sequential
import P9p.Session.World

namespace P9p.Ramfs

open Conc

/-- The server; the `dirList`s that were returned by `OpenDir`, each empty once
it is done; and what clock and maps do in the calls to come. -/
structure Host where
  store : Store
  listings : Key → List Dir
  choices : Nat → Nat → Env
  turn : Nat

/-- A fresh server. -/
def Host.fresh (now : Time) (choices : Nat → Nat → Env) : Host :=
  ⟨init now, fun _ => [], choices, 0⟩

namespace Host

/-- Run an operation, and make an answer of what it returns. -/
def ask {α : Type} (h : Host) (op : Op) (answer : Ret → Option (α × Bytes)) :
    Option (α × Bytes × Host) :=
  match perform h.store op (h.choices h.turn) with
  | .returned r store _ =>
      (answer r).map fun (a, p) => (a, p, { h with store, turn := h.turn + 1 })
  | _ => none

/-- The `ReadNext` with key `k`. -/
def next (k : Key) : ReadNext Host := fun h =>
  (.ok (h.listings k), { h with listings := Function.update h.listings k [] })

/-- What most calls return. -/
def err? : Ret → Option (Option Err × Bytes)
  | .done err => some (err, [])
  | _ => none

/-- The answer to a call of session `i`. -/
def answer (i n : Nat) : (c : Session.Call) → Host → Option (c.Reply × Bytes × Host)
  | .requireAuth, h => some (false, [], h)
  | .auth _ _, h => some ((false, none), [], h)
  | .attach uname _ _, h => h.ask (α := Bool × Option Err) (.attach (i, n) uname) fun
      | .done err => some ((true, err), [])
      | _ => none
  | .qid e, h => h.ask (α := Qid) (.qid (i, e)) fun
      | .qid q => some (q, [])
      | _ => none
  | .openDir e, h =>
      match h.ask (.openDir (i, e)) fun | .dirs r => some (r, []) | _ => none with
      | some (.ok dirs, _, h) =>
          some ((none : Option Err), [],
            { h with listings := Function.update h.listings (i, n) dirs })
      | some (.error err, _, h) => some (some err, [], h)
      | none => none
  | .walk e names, h => h.ask (α := List Qid × Bool × Option Err) (.walk (i, e) (i, n) names) fun
      | .walked qids _ err => some ((qids, true, err), [])
      | _ => none
  | .create e name perm mode, h => h.ask (α := Bool × Option Session.FileKind × Option Err)
      (.create (i, e) (i, n) name perm mode) fun
      | .done err => some ((true, some .plain, err), [])
      | _ => none
  | .open e _, h => h.ask (α := Option Session.FileKind × Option Err) (.open (i, e) (i, n)) fun
      | .done err => some ((some .plain, err), [])
      | _ => none
  | .remove e, h => h.ask (α := Option Err) (.remove (i, e)) err?
  | .clunk e, h => h.ask (α := Option Err) (.clunk (i, e)) err?
  | .stat e, h => h.ask (α := Dir × Option Err) (.stat (i, e)) fun
      | .dir dir => some ((dir, none), [])
      | _ => none
  | .wstat e dir, h => h.ask (α := Option Err) (.wstat (i, e) dir) err?
  | .read f len offset, h => h.ask (α := Int × Option Err) (.read (i, f.id) len offset) fun
      | .data data err => some (((data.length : Int), err), data)
      | _ => none
  | .write f p offset, h => h.ask (α := Int × Option Err) (.write (i, f.id) p offset) fun
      | .count n err => some (((n : Int), err), [])
      | _ => none
  | .ioUnit _, h => some ((0 : Int), [], h)
  -- there is no `AuthFile`
  | .success _, _ => none

end Host

/-- The file system of session `i`. -/
def fileSys (i : Nat) : Session.FileSys Host where
  answer := Host.answer i
  next n := Host.next (i, n)

end P9p.Ramfs
