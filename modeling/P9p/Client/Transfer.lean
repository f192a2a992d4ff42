/-
# `P9p.Client.Transfer` — `Read` and `Write` of a client

A `Tread` and a `Twrite` are cut to what the msize allows, at the client, and
the session at the other end is asked for that much:

    Read  p    min (len p mod 2 ^ 32) (msize - 11) bytes
    Write p    the first msize - 23 bytes of p

The count of a `Tread` has 32 bits, and so has the size of a `Twrite` by which
it is cut.  What the session returns is returned (`read_ready`, `write_ready`).
-/
import P9p.Client

namespace P9p

open Wire Wire.Reader

variable {data p : Bytes} {fid : Fid}

/-! ## The messages -/

section Messages

variable {msize : Nat}

/-- A `Tread` or `Twrite` whose size 32 bits can state is cut. -/
theorem maybeTruncate_isCut {m : Message} (hcut : m.isCut) (hmin : 23 ≤ msize)
    (hmax : msize ≤ 65536) (tag : Tag) (hsize : (newFcall tag m).encode.length < 2 ^ 32) :
    maybeTruncate msize (newFcall tag m) = .ok (newFcall tag (m.cut msize)) := by
  refine (maybeTruncate_cut rfl hmin (by omega) hsize).trans ((if_pos (Or.inl hcut)).trans ?_)
  cases m with
  | tread fid offset count => rfl
  | twrite fid offset data => rfl
  | _ => cases hcut

theorem newFcall_tread_length (tag : Tag) (fid : Fid) (offset : UInt64) (count : UInt32) :
    (newFcall tag (.tread fid offset count)).encode.length = 19 := by
  rw [Fcall.encode_length rfl, tread_length]

theorem newFcall_twrite_length (tag : Tag) (fid : Fid) (offset : UInt64) (data : Bytes) :
    (newFcall tag (.twrite fid offset data)).encode.length = 19 + data.length := by
  rw [Fcall.encode_length rfl, twrite_length]
  omega

theorem tread_stays (hmin : 23 ≤ msize) (hmax : msize ≤ 65536) (fid : Fid) (offset : UInt64)
    {count : UInt32} (hcount : count.toNat ≤ msize - 11) (tag : Tag) :
    (newFcall tag (.tread fid offset count)).Stays msize := by
  have hlen := newFcall_tread_length tag fid offset count
  refine ⟨⟨_, rfl, rfl, ?_⟩, by omega, ?_⟩
  · simp only [Message.Encodable, Message.fields, List.forall_mem_cons]
    exact ⟨trivial, trivial, trivial, List.forall_mem_nil _⟩
  · rw [maybeTruncate_isCut rfl hmin hmax tag (by omega), Message.cut, Nat.min_eq_left hcount,
      UInt32.ofNat_toNat]

theorem twrite_stays (hmin : 23 ≤ msize) (hmax : msize ≤ 65536) (fid : Fid) (offset : UInt64)
    (hdata : data.length ≤ msize - 23) (tag : Tag) :
    (newFcall tag (.twrite fid offset data)).Stays msize := by
  have hlen := newFcall_twrite_length tag fid offset data
  refine ⟨⟨_, rfl, rfl, ?_⟩, by omega, ?_⟩
  · simp only [Message.Encodable, Message.fields, List.forall_mem_cons]
    exact ⟨trivial, trivial, show data.length < 2 ^ 32 by omega, List.forall_mem_nil _⟩
  · rw [maybeTruncate_isCut rfl hmin hmax tag (by omega), Message.cut,
      List.take_of_length_le hdata]

theorem rread_stays (hmax : msize ≤ 65536) (hdata : 11 + data.length ≤ msize) (tag : Tag) :
    (newFcall tag (.rread data)).Stays msize := by
  have hlen : (newFcall tag (.rread data)).encode.length = 7 + data.length := by
    rw [Fcall.encode_length rfl]
    simp only [Message.encode, Message.fields, List.flatMap_cons, List.flatMap_nil, Elem.encode,
      Plain.encode, List.append_nil, List.length_append, putUint32, toLE_length]
    omega
  refine ⟨⟨_, rfl, rfl, ?_⟩, by omega, maybeTruncate_rread tag hdata⟩
  simp only [Message.Encodable, Message.fields, List.forall_mem_cons]
  exact ⟨show data.length < 2 ^ 32 by omega, List.forall_mem_nil _⟩

theorem rwrite_stays (hmin : 23 ≤ msize) (count : UInt32) (tag : Tag) :
    (newFcall tag (.rwrite count)).Stays msize := by
  have hlen : (newFcall tag (.rwrite count)).encode.length = 7 := by
    rw [Fcall.encode_length rfl]
    simp only [Message.encode, Message.fields, List.flatMap_cons, List.flatMap_nil, Elem.encode,
      Plain.encode, List.append_nil, putUint32, toLE_length]
  refine ⟨⟨_, rfl, rfl, ?_⟩, by omega, maybeTruncate_same rfl rfl (by omega)⟩
  simp only [Message.Encodable, Message.fields, List.forall_mem_cons]
  exact ⟨trivial, List.forall_mem_nil _⟩

end Messages

/-! ## The methods -/

namespace Client

variable {σ : Type} {session : SessionOps σ} {smsize : Int} {msize : Nat} {l : Link σ}

/-- The buffer of `Handle` has the length the `Tread` asks for, if the msize of
the session is not smaller. -/
theorem readBuffer_eq {count : UInt32} (hcount : count.toNat ≤ msize - 11) (hmin : 11 ≤ msize)
    (hs : (msize : Int) ≤ smsize) : readBuffer smsize count = count.toNat := by
  unfold readBuffer
  dsimp only
  rw [if_neg (by omega), Int.toNat_natCast]

theorem take_overwrite (h : data.length ≤ p.length) :
    (overwrite p data).take data.length = data := by
  rw [overwrite, List.take_of_length_le h, List.take_left]

/-- `Read`, of a session that reads `data`. -/
theorem read_ready (h : l.Ready msize) (hmin : 23 ≤ msize) (hs : (msize : Int) ≤ smsize)
    {offset : Int64} {c : Nat} (hc : c = min (p.length % 2 ^ 32) (msize - 11))
    (hdata : data.length ≤ c) {s' : σ}
    (hread : session.read fid (List.replicate c 0) offset l.state =
      (.ok ((data.length : Int), ⟨overwrite (List.replicate c 0) data, overwrite_length ..⟩), s')) :
    ∃ l', read (Link.send session smsize) fid p offset l =
        (.ok (data.length, overwrite p data, if data.length = 0 then some .eof else none), l') ∧
      l'.Ready msize ∧ l'.state = s' := by
  let m : Message := .tread fid offset.toUInt64 (UInt32.ofNat p.length)
  have hcut : ∀ tag, maybeTruncate msize (newFcall tag m) = .ok (newFcall tag (m.cut msize)) := by
    intro tag
    refine maybeTruncate_isCut rfl hmin h.max tag ?_
    rw [newFcall_tread_length]
    decide
  -- the count as it arrives
  obtain ⟨count, hm, hcount⟩ : ∃ count : UInt32, m.cut msize = .tread fid offset.toUInt64 count ∧
      count.toNat = c := by
    refine ⟨_, rfl, ?_⟩
    rw [UInt32.toNat_ofNat', UInt32.toNat_ofNat', hc]
    omega
  have hp : data.length ≤ p.length := by
    have := Nat.mod_le p.length (2 ^ 32)
    omega
  have hbuf : c = readBuffer smsize count := by
    rw [readBuffer_eq (by omega) (by omega) hs, hcount]
  subst hbuf
  have hlen : (List.replicate (readBuffer smsize count) (0 : UInt8)).length = count.toNat := by
    rw [List.length_replicate, hcount]
  have hhandle : handle session smsize (.value (m.cut msize)) l.state =
      ((Except.ok (.rread data) : Except Err Message).mapError .err, s') := by
    rw [← Int64.toInt64_toUInt64 offset] at hread
    have hread := handle_tread hread
      ⟨Int.natCast_nonneg data.length, by rw [overwrite_length]; omega⟩
    rwa [Int.toNat_natCast, take_overwrite (by omega), ← hm] at hread
  obtain ⟨l', hsend, hready, hstate⟩ := Link.send_ready h hcut
    (fun tag => hm ▸ tread_stays hmin h.max fid _ (by omega) tag) hhandle
    (by rintro _ ⟨⟩; exact nofun) (fun tag => rread_stays h.max (by omega) tag)
  refine ⟨l', (Handling.bind_ok (Handling.bind_ok hsend _) _).trans ?_, hready, hstate⟩
  rw [Nat.min_eq_right hp]
  rfl

/-- `Read`, of a session that fails. -/
theorem read_fails (h : l.Ready msize) (hmin : 23 ≤ msize) (hs : (msize : Int) ≤ smsize)
    {offset : Int64} {c : Nat} (hc : c = min (p.length % 2 ^ 32) (msize - 11)) {err : Err}
    {s' : σ} (herr : (Message.rerror err.ename).Travels msize)
    (hread : session.read fid (List.replicate c 0) offset l.state = (.error err, s')) :
    ∃ l', read (Link.send session smsize) fid p offset l =
        (.error (.err (.rerror err.ename)), l') ∧ l'.Ready msize ∧ l'.state = s' := by
  let m : Message := .tread fid offset.toUInt64 (UInt32.ofNat p.length)
  have hcut : ∀ tag, maybeTruncate msize (newFcall tag m) = .ok (newFcall tag (m.cut msize)) := by
    intro tag
    refine maybeTruncate_isCut rfl hmin h.max tag ?_
    rw [newFcall_tread_length]
    decide
  obtain ⟨count, hm, hcount⟩ : ∃ count : UInt32, m.cut msize = .tread fid offset.toUInt64 count ∧
      count.toNat = c := by
    refine ⟨_, rfl, ?_⟩
    rw [UInt32.toNat_ofNat', UInt32.toNat_ofNat', hc]
    omega
  have hbuf : c = readBuffer smsize count := by
    rw [readBuffer_eq (by omega) (by omega) hs, hcount]
  subst hbuf
  have hhandle : handle session smsize (.value (m.cut msize)) l.state =
      ((Except.error err : Except Err Message).mapError .err, s') := by
    have hcall : (session.read fid (List.replicate (readBuffer smsize count) 0)
        offset.toUInt64.toInt64).call l.state = (.error (.err err), s') := by
      rw [Method.call, Int64.toInt64_toUInt64, hread]
    rw [hm]
    exact Handling.bind_error hcall _
  obtain ⟨l', hsend, hready, hstate⟩ := Link.send_ready h hcut
    (fun tag => hm ▸ tread_stays hmin h.max fid _ (by omega) tag) hhandle
    (by rintro _ ⟨⟩) (herr.stays h.max rfl)
  refine ⟨l', ?_, hready, hstate⟩
  exact Handling.bind_error (Handling.bind_error hsend _) _

/-- `Write`, of a session that writes `n` bytes. -/
theorem write_ready (h : l.Ready msize) (hmin : 23 ≤ msize) {offset : Int64}
    (hsize : 19 + p.length < 2 ^ 32) {n : Nat} {s' : σ}
    (hwrite : session.write fid (p.take (msize - 23)) offset l.state = (.ok (n : Int), s'))
    (hn : n < 2 ^ 32) :
    ∃ l', write (Link.send session smsize) fid p offset l =
        (.ok (n, if n < p.length then some .shortWrite else none), l') ∧
      l'.Ready msize ∧ l'.state = s' := by
  let m : Message := .twrite fid offset.toUInt64 p
  have hcut : ∀ tag, maybeTruncate msize (newFcall tag m) = .ok (newFcall tag (m.cut msize)) := by
    intro tag
    refine maybeTruncate_isCut rfl hmin h.max tag ?_
    rw [newFcall_twrite_length]
    omega
  have hcount : (UInt32.ofInt (n : Int)).toNat = n :=
    Int.ofNat_inj.mp (ofInt_toNat (Int.natCast_nonneg n) (by omega))
  have hhandle : handle session smsize (.value (m.cut msize)) l.state =
      ((Except.ok (.rwrite (UInt32.ofInt n)) : Except Err Message).mapError .err, s') := by
    have hcall : (session.write fid (p.take (msize - 23)) offset.toUInt64.toInt64).call l.state =
        (.ok (n : Int), s') := by
      rw [Method.call, Int64.toInt64_toUInt64, hwrite]
    exact Handling.bind_ok hcall _
  have hstays : ∀ tag, (newFcall tag (m.cut msize)).Stays msize :=
    twrite_stays hmin h.max fid _ (List.length_take_le ..)
  obtain ⟨l', hsend, hready, hstate⟩ := Link.send_ready h hcut hstays hhandle
    (by rintro _ ⟨⟩ ⟨⟩) (rwrite_stays hmin _)
  refine ⟨l', (Handling.bind_ok (Handling.bind_ok hsend _) _).trans ?_, hready, hstate⟩
  rw [hcount]
  rfl

/-- `Write`, of a session that fails. -/
theorem write_fails (h : l.Ready msize) (hmin : 23 ≤ msize) {offset : Int64}
    (hsize : 19 + p.length < 2 ^ 32) {err : Err} {s' : σ}
    (herr : (Message.rerror err.ename).Travels msize)
    (hwrite : session.write fid (p.take (msize - 23)) offset l.state = (.error err, s')) :
    ∃ l', write (Link.send session smsize) fid p offset l =
        (.error (.err (.rerror err.ename)), l') ∧ l'.Ready msize ∧ l'.state = s' := by
  let m : Message := .twrite fid offset.toUInt64 p
  have hcut : ∀ tag, maybeTruncate msize (newFcall tag m) = .ok (newFcall tag (m.cut msize)) := by
    intro tag
    refine maybeTruncate_isCut rfl hmin h.max tag ?_
    rw [newFcall_twrite_length]
    omega
  have hhandle : handle session smsize (.value (m.cut msize)) l.state =
      ((Except.error err : Except Err Message).mapError .err, s') := by
    have hcall : (session.write fid (p.take (msize - 23)) offset.toUInt64.toInt64).call l.state =
        (.error (.err err), s') := by
      rw [Method.call, Int64.toInt64_toUInt64, hwrite]
    exact Handling.bind_error hcall _
  have hstays : ∀ tag, (newFcall tag (m.cut msize)).Stays msize :=
    twrite_stays hmin h.max fid _ (List.length_take_le ..)
  obtain ⟨l', hsend, hready, hstate⟩ := Link.send_ready h hcut hstays hhandle
    (by rintro _ ⟨⟩) (herr.stays h.max rfl)
  refine ⟨l', ?_, hready, hstate⟩
  exact Handling.bind_error (Handling.bind_error hsend _) _

end Client

end P9p
