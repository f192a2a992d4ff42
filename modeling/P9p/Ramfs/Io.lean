/-
# A remote file is an array of bytes

`Io.model` is what `ReadAt` and `WriteAt` on an array of bytes would do, if at
most as much is transferred at a time as the msize allows.  The other side is a
client, whose `Read` and `Write` go over a connection to a session, and from
there to a file in memory.

    Client.read ──▸ Link.send ──▸ handle ──▸ sFileSys ──▸ fileSys ──▸ Node.read

**The result.**  Calls within the file agree with the array, one after the other
(`plays_alike`).  The buffers may be of any length that 32 bits can state, with
the header of the message: the code counts with 32 bits, and a `Read` into a
buffer of `2 ^ 32` bytes asks for none (`read_huge`).

**Requests from elsewhere** may have any offset.  Those from `2 ^ 63` on are
negative for `Read` and `Write`, which do not expect it: the slice expression
panics, and the server with it (`twrite_crashes`).  All others are answered, and
an error leaves the contents alone (`io_answered_iff`).
-/
import P9p.Client.Transfer
import P9p.Ramfs.Served
import P9p.Server

namespace P9p.Ramfs

open Conc

variable {disk : Session.Disk Host} {id c : Nat} {p : Bytes}

/-! ## An array of bytes -/

/-- A call of `Read`, with its buffer, or of `Write`. -/
inductive Io where
  | read (q : Bytes) (offset : Int64)
  | write (p : Bytes) (offset : Int64)

/-- What it returns: the count, what is in the buffer then, the error. -/
inductive Io.Outcome where
  | read (n : Nat) (q : Bytes) (err : Option Err)
  | wrote (n : Nat) (err : Option Err)
  deriving DecidableEq

namespace Io

/-- What the call does with the contents `D`, over a connection with msize
`m`. -/
def model (m : Nat) (D : Bytes) : Io → Outcome × Bytes
  | .read q offset =>
      let off := offset.toInt.toNat
      let k := min (min q.length (m - 11)) (D.length - off)
      (.read k (overwrite q ((D.drop off).take k)) (if k = 0 then some .eof else none), D)
  | .write p offset =>
      let off := offset.toInt.toNat
      let n := min p.length (m - 23)
      (.wrote n (if n < p.length then some .shortWrite else none),
        D.take off ++ p.take n ++ D.drop (off + n))

def offset : Io → Int64
  | .read _ offset | .write _ offset => offset

/-- The call begins in the file, or at its end. -/
def Within (D : Bytes) (io : Io) : Prop := 0 ≤ io.offset.toInt ∧ io.offset.toInt ≤ D.length

/-- Its message has a size that 32 bits can state. -/
def Small : Io → Prop
  | .read q _ => q.length < 2 ^ 32
  | .write p _ => 19 + p.length < 2 ^ 32

/-- The call on a client. -/
def call {τ : Type} (send : RoundTripper τ) (fid : Fid) : Io → Handling τ Outcome
  | .read q offset => do
      let (n, q, err) ← Client.read send fid q offset
      return .read n q err
  | .write p offset => do
      let (n, err) ← Client.write send fid p offset
      return .wrote n err

end Io

/-- Calls one after the other, on the array and on a client. -/
def playModel (m : Nat) : Bytes → List Io → List Io.Outcome × Bytes
  | D, [] => ([], D)
  | D, io :: ios =>
      ((io.model m D).1 :: (playModel m (io.model m D).2 ios).1,
        (playModel m (io.model m D).2 ios).2)

def play {τ : Type} (send : RoundTripper τ) (fid : Fid) : List Io → Handling τ (List Io.Outcome)
  | [] => return []
  | io :: ios => do
      let r ← io.call send fid
      return r :: (← play send fid ios)

/-- All calls are small and within the contents they find. -/
def Fair (m : Nat) : Bytes → List Io → Prop
  | _, [] => True
  | D, io :: ios => (io.Within D ∧ io.Small) ∧ Fair m (io.model m D).2 ios

/-! ## The file -/

/-- `Read` within the file. -/
theorem Node.read_within (f : Node) (len : Nat) {offset : Int64} (h₀ : 0 ≤ offset.toInt)
    (h : offset.toInt ≤ f.data.length) :
    f.read len offset = some ((f.data.drop offset.toInt.toNat).take len, none) := by
  rw [Node.read, if_neg (by omega), if_neg (by omega)]
  dsimp only
  split
  · -- to the end of the file
    rw [List.take_of_length_le (by rw [List.length_drop]),
      List.take_of_length_le (by rw [List.length_drop]; omega)]
  · rfl

/-- Both branches of `Write` put `p` in its place. -/
theorem Node.write_within (f : Node) (p : Bytes) {offset : Int64} (h₀ : 0 ≤ offset.toInt)
    (h : offset.toInt ≤ f.data.length) :
    ∃ f', f.write p offset = some ((p.length, none), f') ∧
      f'.data = f.data.take offset.toInt.toNat ++ p ++
        f.data.drop (offset.toInt.toNat + p.length) := by
  rw [Node.write, if_neg (by omega), if_neg (by omega)]
  refine ⟨_, rfl, ?_⟩
  dsimp only
  split
  · -- it is overwritten to its end, and the rest is appended
    rename_i hlong
    have htake : (p.take (f.data.length - offset.toInt.toNat)).length =
        f.data.length - offset.toInt.toNat := List.length_take_of_le (by omega)
    rw [splice, htake, List.drop_of_length_le (by omega), List.append_nil, List.append_assoc,
      List.take_append_drop, List.drop_of_length_le (by omega), List.append_nil]
  · rfl

/-! ## The client -/

section Client

variable {i n m : Nat} {fid : Fid} {l : Link (Session.World Host)} {D : Bytes}

/-- A session of ramfs at the other end, with the msize that `SFileSys` states. -/
abbrev remote (i : Nat) : RoundTripper (Link (Session.World Host)) :=
  Link.send (Session.sFileSys (fileSys i)) 65536

/-- In session `i` the fid is open for reading and writing, on a file that is
node `n`. -/
def OpenFile (w : Session.World Host) (i : Nat) (fid : Fid) (n : Nat) : Prop :=
  ∃ id mode, Session.OpenFid w.store fid ⟨id, .plain⟩ mode ∧ mode &&& oexec = ordwr ∧
    w.disk.fs.store.files (i, id) = some n

def contents (w : Session.World Host) (n : Nat) : Bytes := (w.disk.fs.store.node n).data

/-- A connection with msize `m` over which the file can be reached, whose
contents are `D`. -/
structure Reaches (i : Nat) (fid : Fid) (n m : Nat) (l : Link (Session.World Host)) (D : Bytes) :
    Prop where
  ready : l.Ready m
  min : 23 ≤ m
  file : OpenFile l.state i fid n
  contents : contents l.state n = D

theorem reply_read {len : Nat} {offset : Int64} {data : Bytes} {err : Option Err}
    (hfile : disk.fs.store.files (i, id) = some n)
    (hread : (disk.fs.store.node n).read len offset = some (data, err)) :
    (fileSys i).reply c (.read ⟨id, .plain⟩ len offset) disk =
      some (((data.length : Int), err), data,
        { disk with fs := { disk.fs with turn := disk.fs.turn + 1 } }) := by
  simp only [Session.FileSys.reply, fileSys, Host.answer, Host.ask, perform_read hfile hread]
  rfl

theorem reply_write {offset : Int64} {r : Nat × Option Err} {f : Node}
    (hfile : disk.fs.store.files (i, id) = some n)
    (hwrite : (disk.fs.store.node n).write p offset = some (r, f)) :
    (fileSys i).reply c (.write ⟨id, .plain⟩ p offset) disk =
      some (((r.1 : Int), r.2), [],
        { disk with
          fs := { disk.fs with store := disk.fs.store.set n f, turn := disk.fs.turn + 1 } }) := by
  simp only [Session.FileSys.reply, fileSys, Host.answer, Host.ask, perform_write hfile hwrite]
  rfl

/-- `Read` of the session. -/
theorem session_read {w : Session.World Host} (h : OpenFile w i fid n) {offset : Int64}
    (h₀ : 0 ≤ offset.toInt) (hoff : offset.toInt ≤ (contents w n).length) (p : Bytes) {data : Bytes}
    (hdata : data = ((contents w n).drop offset.toInt.toNat).take p.length) :
    ∃ w', (Session.sFileSys (fileSys i)).read fid p offset w =
        (.ok ((data.length : Int), ⟨overwrite p data, overwrite_length ..⟩), w') ∧
      OpenFile w' i fid n ∧ contents w' n = contents w n := by
  obtain ⟨id, mode, hopened, hmode, hfile⟩ := h
  have hnode := (w.disk.fs.store.node n).read_within p.length h₀ hoff
  rw [show ((w.disk.fs.store.node n).data.drop offset.toInt.toNat).take p.length = data from
    hdata.symm] at hnode
  obtain ⟨store, hperform, hopened'⟩ := Session.read_opened hopened
    (by rw [hmode]; decide) (reply_read hfile hnode)
  exact ⟨_, Session.sFileSys_read hperform, ⟨id, mode, hopened', hmode, hfile⟩, rfl⟩

/-- `Write` of the session. -/
theorem session_write {w : Session.World Host} (h : OpenFile w i fid n) {offset : Int64}
    (h₀ : 0 ≤ offset.toInt) (hoff : offset.toInt ≤ (contents w n).length) (p : Bytes) :
    ∃ w', (Session.sFileSys (fileSys i)).write fid p offset w = (.ok (p.length : Int), w') ∧
      OpenFile w' i fid n ∧ contents w' n = (contents w n).take offset.toInt.toNat ++ p ++
        (contents w n).drop (offset.toInt.toNat + p.length) := by
  obtain ⟨id, mode, hopened, hmode, hfile⟩ := h
  obtain ⟨f, hnode, hdata⟩ := (w.disk.fs.store.node n).write_within p h₀ hoff
  obtain ⟨store, hperform, hopened'⟩ := Session.write_opened hopened (Or.inr hmode)
    (reply_write hfile hnode)
  refine ⟨_, Session.sFileSys_write hperform, ⟨id, mode, hopened', hmode, hfile⟩, ?_⟩
  exact (congrArg Node.data (Store.set_node ..)).trans hdata

/-- `Read` of the client, into a buffer of any length. -/
theorem client_read (h : Reaches i fid n m l D) {offset : Int64} (h₀ : 0 ≤ offset.toInt)
    (hoff : offset.toInt ≤ D.length) (q : Bytes) {k : Nat}
    (hk : k = min (min (q.length % 2 ^ 32) (m - 11)) (D.length - offset.toInt.toNat)) :
    ∃ l', Client.read (remote i) fid q offset l =
        (.ok (k, overwrite q ((D.drop offset.toInt.toNat).take k),
          if k = 0 then some .eof else none), l') ∧
      Reaches i fid n m l' D := by
  obtain ⟨hready, hmin, hfile, rfl⟩ := h
  have hmax := hready.max
  generalize hc : min (q.length % 2 ^ 32) (m - 11) = c at hk
  have hlen : (((contents l.state n).drop offset.toInt.toNat).take k).length = k := by
    rw [List.length_take, List.length_drop]
    omega
  have hdata : ((contents l.state n).drop offset.toInt.toNat).take k =
      ((contents l.state n).drop offset.toInt.toNat).take
      (List.replicate c (0 : UInt8)).length := by
    rw [hk, List.length_replicate, ← List.length_drop, ← List.take_eq_take_min]
  obtain ⟨w', hread, hfile', hcontents⟩ := session_read hfile h₀ hoff (List.replicate c 0) hdata
  obtain ⟨l', hcall, hready', rfl⟩ := Client.read_ready hready hmin
    (show (m : Int) ≤ 65536 by omega) hc.symm (by omega) hread
  rw [hlen] at hcall
  exact ⟨l', hcall, hready', hmin, hfile', hcontents⟩

/-- `Write` of the client. -/
theorem client_write (h : Reaches i fid n m l D) {offset : Int64} (h₀ : 0 ≤ offset.toInt)
    (hoff : offset.toInt ≤ D.length) (hp : 19 + p.length < 2 ^ 32) {k : Nat}
    (hk : k = min p.length (m - 23)) :
    ∃ l', Client.write (remote i) fid p offset l =
        (.ok (k, if k < p.length then some .shortWrite else none), l') ∧
      Reaches i fid n m l' (D.take offset.toInt.toNat ++ p.take k ++
        D.drop (offset.toInt.toNat + k)) := by
  obtain ⟨hready, hmin, hfile, rfl⟩ := h
  have htake : p.take (m - 23) = p.take k := by
    rw [hk, Nat.min_comm, ← List.take_eq_take_min]
  have hlen : (p.take k).length = k := List.length_take_of_le (by omega)
  obtain ⟨w', hwrite, hfile', hcontents⟩ := session_write hfile h₀ hoff (p.take k)
  rw [hlen] at hwrite hcontents
  obtain ⟨l', hcall, hready', rfl⟩ : ∃ l', Client.write (remote i) fid p offset l = _ ∧ _ :=
    Client.write_ready hready hmin hp (htake ▸ hwrite) (by omega)
  exact ⟨l', hcall, hready', hmin, hfile', hcontents⟩

/-- **One call** on the client does what it does on the array. -/
theorem call_alike (h : Reaches i fid n m l D) {io : Io} (hio : io.Within D) (hsmall : io.Small) :
    ∃ l', io.call (remote i) fid l = (.ok (io.model m D).1, l') ∧
      Reaches i fid n m l' (io.model m D).2 := by
  obtain ⟨h₀, hoff⟩ := hio
  cases io with
  | read q offset =>
      have hmod : q.length % 2 ^ 32 = q.length := Nat.mod_eq_of_lt hsmall
      obtain ⟨l', hcall, hreaches⟩ := client_read h h₀ hoff q rfl
      rw [hmod] at hcall
      exact ⟨l', Handling.bind_ok hcall _, hreaches⟩
  | write p offset =>
      obtain ⟨l', hcall, hreaches⟩ := client_write h h₀ hoff hsmall rfl
      exact ⟨l', Handling.bind_ok hcall _, hreaches⟩

/-- **Any number of calls.**  As long as they are small and within the contents
they find, they return what they return on the array, and the file holds what
the array holds. -/
theorem plays_alike (h : Reaches i fid n m l D) (ios : List Io) (hios : Fair m D ios) :
    ∃ l', play (remote i) fid ios l = (.ok (playModel m D ios).1, l') ∧
      Reaches i fid n m l' (playModel m D ios).2 := by
  induction ios generalizing l D with
  | nil => exact ⟨l, rfl, h⟩
  | cons io ios ih =>
      obtain ⟨⟨hwithin, hsmall⟩, hrest⟩ := hios
      obtain ⟨l₁, hcall, h₁⟩ := call_alike h hwithin hsmall
      obtain ⟨l', hplay, h'⟩ := ih h₁ hrest
      refine ⟨l', ?_, h'⟩
      refine (Handling.bind_ok hcall _).trans ?_
      exact Handling.bind_ok hplay _

end Client

/-! ## Any request -/

section Requests

variable {i n : Nat} {fid : Fid} {w : Session.World Host} {msize : Int} {offset : UInt64}

theorem toInt64_neg_iff (offset : UInt64) : offset.toInt64.toInt < 0 ↔ ¬ offset.toNat < 2 ^ 63 := by
  have hint : offset.toInt64.toInt = offset.toBitVec.toInt := rfl
  have hlt := offset.toNat_lt
  rw [hint, BitVec.toInt_eq_toNat_cond, UInt64.toNat_toBitVec]
  split <;> omega

/-- A `Read` or `Write` that panics is not answered. -/
theorem reply_read_crash {len : Nat} {offset : Int64}
    (hfile : disk.fs.store.files (i, id) = some n)
    (hread : (disk.fs.store.node n).read len offset = none) :
    (fileSys i).reply c (.read ⟨id, .plain⟩ len offset) disk = none := by
  simp only [Session.FileSys.reply, fileSys, Host.answer, Host.ask, perform_read_crash hfile hread]

theorem reply_write_crash {offset : Int64} (hfile : disk.fs.store.files (i, id) = some n)
    (hwrite : (disk.fs.store.node n).write p offset = none) :
    (fileSys i).reply c (.write ⟨id, .plain⟩ p offset) disk = none := by
  simp only [Session.FileSys.reply, fileSys, Host.answer, Host.ask,
    perform_write_crash hfile hwrite]

/-- `Handle` answers the request, and if it answers with an error, the contents of
node `n` are what they were. -/
def Survives (w : Session.World Host) (i n : Nat) (msize : Int) (m : Message) : Prop :=
  ∃ res w', Handles (fileSys i) msize w (.value m) res w' ∧
    ∀ err, res = .error err → contents w' n = contents w n

theorem tread_survives (h : OpenFile w i fid n) (hoff : offset.toNat < 2 ^ 63) (count : UInt32) :
    Survives w i n msize (.tread fid offset count) := by
  obtain ⟨id, mode, hopened, hmode, hfile⟩ := h
  have h₀ := Int.not_lt.mp (mt (toInt64_neg_iff offset).mp (not_not_intro hoff))
  obtain ⟨data, err, hread, hlen⟩ :=
    (w.disk.fs.store.node n).read_total (readBuffer msize count) h₀
  obtain ⟨store, hperform, -⟩ := Session.read_opened hopened
    (by rw [hmode]; decide) (reply_read hfile hread)
  cases err with
  | some err => exact ⟨.error err, _, ⟨_, _, rfl, hperform, rfl⟩, fun _ _ => rfl⟩
  | none =>
      refine ⟨_, _, ⟨_, _, rfl, hperform, if_pos ⟨?_, ?_, ?_⟩⟩, fun _ _ => rfl⟩
      · rw [overwrite_length, List.length_replicate]
        rfl
      · exact Int.natCast_nonneg _
      · exact Int.ofNat_le.mpr hlen

theorem twrite_survives (h : OpenFile w i fid n) (hoff : offset.toNat < 2 ^ 63) (data : Bytes) :
    Survives w i n msize (.twrite fid offset data) := by
  obtain ⟨id, mode, hopened, hmode, hfile⟩ := h
  have h₀ := Int.not_lt.mp (mt (toInt64_neg_iff offset).mp (not_not_intro hoff))
  obtain ⟨⟨count, err⟩, f, hwrite, hdata⟩ := (w.disk.fs.store.node n).write_total data h₀
  obtain ⟨store, hperform, -⟩ := Session.write_opened hopened (Or.inr hmode)
    (reply_write hfile hwrite)
  cases err with
  | some err =>
      refine ⟨.error err, _, ⟨_, _, rfl, hperform, rfl⟩, fun _ _ => ?_⟩
      exact (congrArg Node.data (Store.set_node ..)).trans (hdata nofun)
  | none => exact ⟨.ok _, _, ⟨_, _, rfl, hperform, rfl⟩, nofun⟩

/-- The operation that `Handle` calls does not return. -/
theorem io_crashes (h : OpenFile w i fid n) (hoff : ¬ offset.toNat < 2 ^ 63) :
    (∀ len, w.perform (fileSys i) (.read fid len offset.toInt64) = none) ∧
      ∀ data, w.perform (fileSys i) (.write fid data offset.toInt64) = none := by
  obtain ⟨id, mode, hopened, hmode, hfile⟩ := h
  have hneg := (toInt64_neg_iff offset).mpr hoff
  constructor
  · intro len
    exact Session.read_hangs hopened (by rw [hmode]; decide)
      (reply_read_crash hfile ((w.disk.fs.store.node n).read_backward len hneg))
  · intro data
    exact Session.write_hangs hopened (Or.inr hmode)
      (reply_write_crash hfile ((w.disk.fs.store.node n).write_backward data hneg))

/-- **Any request** on an open file is answered exactly when its offset is below
`2 ^ 63`. -/
theorem io_answered_iff (h : OpenFile w i fid n) (msize : Int) (offset : UInt64) :
    (∀ count, Survives w i n msize (.tread fid offset count) ↔ offset.toNat < 2 ^ 63) ∧
      ∀ data, Survives w i n msize (.twrite fid offset data) ↔ offset.toNat < 2 ^ 63 := by
  constructor
  · intro count
    refine ⟨fun hsurvives => ?_, fun hoff => tread_survives h hoff count⟩
    obtain ⟨res, w', ⟨op, r, ⟨⟩, hperform, -⟩, -⟩ := hsurvives
    by_contra hoff
    rw [(io_crashes h hoff).1] at hperform
    cases hperform
  · intro data
    refine ⟨fun hsurvives => ?_, fun hoff => twrite_survives h hoff data⟩
    obtain ⟨res, w', ⟨op, r, ⟨⟩, hperform, -⟩, -⟩ := hsurvives
    by_contra hoff
    rw [(io_crashes h hoff).2] at hperform
    cases hperform

end Requests

/-! ## A file that was just created -/

/-- The session after `op`. -/
def served (w : Session.World Host) (op : Session.Op) : Option (Session.World Host) :=
  (w.perform (fileSys 0) op).map Prod.snd

/-- Fid 1 is attached, and `f` is created there for reading and writing. -/
def creates : List Session.Op :=
  [.attach 1 noFid (lit "u") [], .create 1 (lit "f") 0o644 ordwr]

/-- A connection to such a session. -/
def linked (m : Nat) (w : Session.World Host) : Link (Session.World Host) :=
  ⟨newChannel m, newChannel m, [], [], 0, w⟩

/-- A new session of a fresh server. -/
def begins : Session.World Host := .new (.fresh Time.zero fun _ _ => still)

/-- The request is answered with an error, and nothing is written. -/
theorem io_answered_iff_creates :
    ∃ w, Conc.exec served begins creates = some w ∧ OpenFile w 0 1 1 ∧
      Survives w 0 1 65536 (.twrite 1 5 [1, 2, 3]) := by
  obtain ⟨w, hw, hfile⟩ : ∃ w, Conc.exec served begins creates = some w ∧ OpenFile w 0 1 1 :=
    ⟨_, rfl, ⟨_, _, ⟨by decide, _, _, rfl, rfl⟩, by decide, rfl⟩⟩
  exact ⟨w, hw, hfile, ((io_answered_iff hfile 65536 5).2 [1, 2, 3]).mpr (by decide)⟩

/-- A `Twrite` with the offset `2 ^ 64 - 1` on a file that is empty: `Write` panics,
and `Handle` does not return. -/
theorem twrite_crashes :
    ∃ w op, Conc.exec served begins creates = some w ∧ OpenFile w 0 1 1 ∧
      MessageVal.op 65536 (.value (.twrite 1 0xFFFFFFFFFFFFFFFF [1])) = some op ∧
      (w.disk.fs.store.node 1).write [1] (0xFFFFFFFFFFFFFFFF : UInt64).toInt64 = none ∧
      w.perform (fileSys 0) op = none :=
  ⟨_, _, rfl, ⟨_, _, ⟨by decide, _, _, rfl, rfl⟩, by decide, rfl⟩, rfl, rfl, rfl⟩

/-- Of twenty bytes seventeen are written, and twelve of these are read; one is
put over the last, and one is appended. -/
def calls : List Io :=
  [.write (List.replicate 20 1) 0, .read (List.replicate 15 0) 5, .write [2] 16, .write [3] 17]

theorem plays_alike_calls :
    ∃ w l', Conc.exec served begins creates = some w ∧ Reaches 0 1 1 40 (linked 40 w) [] ∧
      play (remote 0) 1 calls (linked 40 w) =
        (.ok [.wrote 17 (some .shortWrite),
          .read 12 (List.replicate 12 1 ++ List.replicate 3 0) none, .wrote 1 none, .wrote 1 none],
          l') ∧
      Reaches 0 1 1 40 l' (List.replicate 16 1 ++ [2, 3]) := by
  obtain ⟨w, hw, hreaches⟩ : ∃ w, Conc.exec served begins creates = some w ∧
      Reaches 0 1 1 40 (linked 40 w) [] :=
    ⟨_, rfl, ⟨rfl, rfl, by decide, rfl, rfl⟩, by decide,
      ⟨_, _, ⟨by decide, _, _, rfl, rfl⟩, by decide, rfl⟩, rfl⟩
  have hfair : Fair 40 [] calls :=
    ⟨⟨⟨by decide, by decide⟩, show 19 + 20 < 2 ^ 32 by decide⟩,
      ⟨⟨by decide, by decide⟩, show 15 < 2 ^ 32 by decide⟩,
      ⟨⟨by decide, by decide⟩, show 19 + 1 < 2 ^ 32 by decide⟩,
      ⟨⟨by decide, by decide⟩, show 19 + 1 < 2 ^ 32 by decide⟩, trivial⟩
  obtain ⟨l', hplay, h'⟩ := plays_alike hreaches calls hfair
  exact ⟨w, l', hw, hreaches, hplay, h'⟩

/-- The count of a `Tread` has 32 bits: a buffer of `2 ^ 32` bytes asks for none,
and a file that is not empty seems to be at its end. -/
theorem read_huge :
    ∃ w l' q, Conc.exec served begins (creates ++ [.write 1 [7] 0]) = some w ∧
      Reaches 0 1 1 40 (linked 40 w) [7] ∧ q.length = 2 ^ 32 ∧ (Io.read q 0).Within [7] ∧
      (Io.read q 0).call (remote 0) 1 (linked 40 w) = (.ok (.read 0 q (some .eof)), l') ∧
      ((Io.read q 0).model 40 [7]).1 ≠ .read 0 q (some .eof) := by
  obtain ⟨w, hw, hreaches⟩ : ∃ w, Conc.exec served begins (creates ++ [.write 1 [7] 0]) = some w ∧
      Reaches 0 1 1 40 (linked 40 w) [7] :=
    ⟨_, rfl, ⟨rfl, rfl, by decide, rfl, rfl⟩, by decide,
      ⟨_, _, ⟨by decide, _, _, rfl, rfl⟩, by decide, rfl⟩, rfl⟩
  obtain ⟨q, hq⟩ : ∃ q : Bytes, q.length = 2 ^ 32 :=
    ⟨List.replicate (2 ^ 32) 0, List.length_replicate⟩
  have h₀ : 0 ≤ (0 : Int64).toInt ∧ (0 : Int64).toInt ≤ ([7] : Bytes).length := by decide
  obtain ⟨l', hcall, -⟩ := client_read hreaches h₀.1 h₀.2 q (k := 0) (by rw [hq]; decide)
  refine ⟨w, l', q, hw, hreaches, hq, h₀, ?_, fun heq => ?_⟩
  · refine (Handling.bind_ok hcall _).trans ?_
    rw [List.take_zero, overwrite, List.take_nil, List.nil_append, List.length_nil, List.drop_zero]
    rfl
  · have hcount : min (min q.length (40 - 11)) (1 - 0) = 0 := (Io.Outcome.read.inj heq).1
    rw [hq] at hcount
    exact absurd hcount (by decide)

end P9p.Ramfs
