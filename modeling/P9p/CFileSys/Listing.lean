/-
# `P9p.CFileSys.Listing` — directories over a connection

`OpenDir` of a client opens the fid and returns a function that reads it, buffer
by buffer, and decodes the entries.  At the other end a `Readdir` fills the
buffers.

    server    next ──▸ Readdir.read ──▸ Handle ──▸ Rread
    client    Rread ──▸ Client.read ──▸ decodeDirs ──▸ OpenDir.next

The offset that the client sends is what it has read, and the offset that the
`Readdir` expects is what it has given; both count the same bytes.  A buffer
holds whole entries only.  At the end of the directory it is empty, which is
`io.EOF` for the client.

**The result.**  If every entry fits into a buffer, the lists that the client
gets are the entries of the directory, in order (`listing_complete`).

**The limit of `DecodeDir`.**  The prefix of a record can state a body of 65535
bytes, but the buffer that `DecodeDir` makes for a body of 65534 or 65535 is too
short for the prefix (`decodeDir_largest`).  Up to 65533 bytes records come back
(`dirs_round_trip_iff`).
-/
import P9p.CFileSys
import P9p.Client.Transfer
import P9p.Session.World

namespace P9p

open Wire Wire.Reader

variable {d : Dir} {b : Bytes}

/-! ## `DecodeDir` -/

/-- `DecodeDir`.  The length of its buffer is counted in 16 bits, and must have
room for the size. -/
def decodeDir : Reader Fault Dir := do
  let ll ← getUint16.lift
  if (ll + 2).toNat < 2 then Reader.fail .panic
  else
    let p ← (readFull ll.toNat).lift
    Reader.within Dir.zero.decode.lift (putUint16 ll ++ p)

/-- `EncodeDir` to a writer that accepts all bytes. -/
def encodeDir (d : Dir) : Except Err Bytes := .ok d.encode

theorem encodes_lift {α : Type} {r : Decoder α} {w : Bytes} {a : α} (h : Encodes r w a) :
    Encodes r.lift w a := fun rest => lift_ok (h rest)

theorem encodes_decodeDir (hd : ∀ p ∈ d.fields, p.Encodable) (hlen : d.encode.length < 2 ^ 16) :
    Encodes decodeDir d.encode d := by
  rw [d.encode_length] at hlen
  have hok : d.Encodable := ⟨hd, by omega⟩
  have hll := Dir.fieldsSize_toUInt16 hok.2
  have hroom : ¬ (d.fieldsSize.toUInt16 + 2).toNat < 2 := by
    rw [UInt16.toNat_add, hll]
    show ¬ (d.body.length + 2) % 2 ^ 16 < 2
    omega
  refine Encodes.bind (encodes_lift (encodes_getUint16 d.fieldsSize.toUInt16)) ?_
  rw [if_neg hroom, hll]
  have hrest := (encodes_lift (encodes_readFull d.body)).bind
    (encodes_lift (encodes_dir hok)).within
    (f := fun p => Reader.within Dir.zero.decode.lift (putUint16 d.fieldsSize.toUInt16 ++ p))
  rwa [List.append_nil] at hrest

theorem consumes_lift {α : Type} {r : Decoder α} {n : Nat} (h : Consumes r n) :
    Consumes r.lift n := by
  intro b a rest hb
  unfold Decoder.lift at hb
  split at hb
  · rename_i hr
    cases hb
    exact h b a rest hr
  · cases hb

/-- A record that was read has taken bytes. -/
theorem decodeDir_lt {rest : Bytes} (h : decodeDir b = .ok (d, rest)) : rest.length < b.length := by
  obtain ⟨ll, mid, hll, h⟩ := bind_eq_ok h
  have hmid := consumes_lift ((Consumes.take Err.eof _ 2).map _) b ll mid hll
  split at h
  · cases h
  · obtain ⟨p, rest', hp, h⟩ := bind_eq_ok h
    have hrest := consumes_lift (Consumes.take Err.eof Err.unexpectedEOF ll.toNat) mid p rest' hp
    obtain ⟨rfl, -⟩ := within_eq_ok h
    omega

/-- The loop over `DecodeDir`: the entries, and the error it ends with. -/
def decodeDirs (b : Bytes) : List Dir × Fault :=
  match _h : decodeDir b with
  | .error f => ([], f)
  | .ok (d, rest) => ((d :: (decodeDirs rest).1), (decodeDirs rest).2)
termination_by b.length
decreasing_by all_goals exact decodeDir_lt _h

theorem decodeDirs_ok {rest : Bytes} (h : decodeDir b = .ok (d, rest)) :
    decodeDirs b = (d :: (decodeDirs rest).1, (decodeDirs rest).2) := by
  rw [decodeDirs]
  split
  · rename_i h'
    cases h.symm.trans h'
  · rename_i h'
    cases h.symm.trans h'
    rfl

theorem decodeDirs_error {f : Fault} (h : decodeDir b = .error f) : decodeDirs b = ([], f) := by
  rw [decodeDirs]
  split
  · rename_i h'
    cases h.symm.trans h'
    rfl
  · rename_i h'
    cases h.symm.trans h'

theorem decodeDirs_nil : decodeDirs [] = ([], .err .eof) := decodeDirs_error rfl

/-- A buffer of whole entries. -/
theorem decodeDirs_encoded {ds : List Dir}
    (h : ∀ d ∈ ds, (∀ p ∈ d.fields, p.Encodable) ∧ d.encode.length < 2 ^ 16) :
    decodeDirs (ds.flatMap Dir.encode) = (ds, .err .eof) := by
  induction ds with
  | nil => exact decodeDirs_nil
  | cons d ds ih =>
      obtain ⟨⟨hfields, hlen⟩, hds⟩ := List.forall_mem_cons.mp h
      rw [List.flatMap_cons, decodeDirs_ok (encodes_decodeDir hfields hlen _), ih hds]

/-! ## The largest records -/

/-- `ll+2` wraps to 0 or 1, and the size has no room in the buffer. -/
theorem decodeDir_panics (hmax : d.body.length ≤ 65535) (hbig : 65533 < d.body.length)
    (rest : Bytes) : decodeDir (d.encode ++ rest) = .error .panic := by
  have hll := Dir.fieldsSize_toUInt16 hmax
  have hroom : (d.fieldsSize.toUInt16 + 2).toNat < 2 := by
    rw [UInt16.toNat_add, hll]
    show (d.body.length + 2) % 2 ^ 16 < 2
    omega
  have hsize := encodes_lift (encodes_getUint16 d.fieldsSize.toUInt16) (d.body ++ rest)
  rw [Dir.encode, List.append_assoc, decodeDir, bind_apply, hsize]
  dsimp only
  rw [if_pos hroom]
  rfl

/-- A record comes back whatever stands behind it. -/
theorem decodeDir_encode_iff (hd : d.Encodable) :
    Encodes decodeDir d.encode d ↔ d.body.length ≤ 65533 := by
  constructor
  · intro h
    by_contra hbig
    have hpanic := decodeDir_panics hd.2 (Nat.not_le.mp hbig) []
    rw [h []] at hpanic
    cases hpanic
  · intro hle
    refine encodes_decodeDir hd.1 ?_
    rw [d.encode_length]
    omega

theorem decodeDirs_encode_iff {ds : List Dir} (hds : ∀ d ∈ ds, d.Encodable) :
    decodeDirs (ds.flatMap Dir.encode) = (ds, .err .eof) ↔ ∀ d ∈ ds, d.body.length ≤ 65533 := by
  constructor
  · intro h
    induction ds with
    | nil => exact List.forall_mem_nil _
    | cons d ds ih =>
        obtain ⟨hd, hds⟩ := List.forall_mem_cons.mp hds
        rw [List.flatMap_cons] at h
        by_cases hle : d.body.length ≤ 65533
        · rw [decodeDirs_ok ((decodeDir_encode_iff hd).mpr hle _)] at h
          obtain ⟨hfst, hsnd⟩ := Prod.mk.inj h
          exact List.forall_mem_cons.mpr
            ⟨hle, ih hds (Prod.ext (List.cons.inj hfst).2 hsnd)⟩
        · -- the loop ends with the panic, not with EOF
          have hpanic := decodeDir_panics hd.2 (Nat.not_le.mp hle) (ds.flatMap Dir.encode)
          rw [decodeDirs_error hpanic] at h
          cases h
  · intro hle
    refine decodeDirs_encoded fun d hd => ⟨(hds d hd).1, ?_⟩
    have hlen := hle d hd
    rw [d.encode_length]
    omega

/-- **Records come back** exactly when their bodies have at most 65533 bytes, one
by one and in a row. -/
theorem dirs_round_trip_iff (ds : List Dir) (hds : ∀ d ∈ ds, d.Encodable) :
    (∀ d ∈ ds, (∃ w, encodeDir d = .ok w ∧ ∀ rest, decodeDir (w ++ rest) = .ok (d, rest)) ↔
        d.body.length ≤ 65533) ∧
      ((∃ ws, ds.mapM encodeDir = .ok ws ∧ decodeDirs ws.flatten = (ds, .err .eof)) ↔
        ∀ d ∈ ds, d.body.length ≤ 65533) := by
  have hall : ds.mapM encodeDir = .ok (ds.map Dir.encode) := List.mapM_pure
  constructor
  · intro d hd
    rw [← decodeDir_encode_iff (hds d hd)]
    constructor
    · rintro ⟨w, ⟨⟩, h⟩
      exact h
    · exact fun h => ⟨d.encode, rfl, h⟩
  · rw [← decodeDirs_encode_iff hds, List.flatMap_def]
    constructor
    · rintro ⟨ws, hws, h⟩
      cases hall.symm.trans hws
      exact h
    · exact fun h => ⟨_, hall, h⟩

theorem dirs_round_trip_iff_somedir :
    ∃ ws, [Dir.somedir, Dir.somedir].mapM encodeDir = .ok ws ∧
      decodeDirs ws.flatten = ([Dir.somedir, Dir.somedir], .err .eof) :=
  (dirs_round_trip_iff [Dir.somedir, Dir.somedir] (by decide)).2.mpr (by decide)

/-- A name of 65488 bytes makes a body of 65535. -/
def largestDir : Dir :=
  ⟨0, 0, ⟨0, 0, 0⟩, 0, ⟨0, 0⟩, ⟨0, 0⟩, 0, List.replicate 65488 97, [], [], []⟩

theorem largestDir_body_length : largestDir.body.length = 65535 := by
  simp only [Dir.body, Dir.fields, largestDir, List.flatMap_cons, List.flatMap_nil, Plain.encode,
    encodeString, Qid.encode, List.length_append, putUint16, putUint32, putUint64, toLE_length,
    List.length_replicate, List.length_cons, List.length_nil]

/-- It is encoded, with the right size, and `DecodeDir` panics. -/
theorem decodeDir_largest :
    largestDir.Encodable ∧ encodeDir largestDir = .ok largestDir.encode ∧
      decodeDir (largestDir.encode ++ []) = .error .panic := by
  have hlen := largestDir_body_length
  refine ⟨⟨?_, hlen.le⟩, rfl, decodeDir_panics hlen.le (by omega) []⟩
  have htime : (⟨0, 0⟩ : Time).OnWire := by decide
  simp only [Dir.fields, largestDir, List.forall_mem_cons, Plain.Encodable, List.length_replicate]
  exact ⟨trivial, trivial, trivial, trivial, htime, htime, trivial, by decide, by decide, by decide,
    by decide, List.forall_mem_nil _⟩

namespace CFileSys

/-! ## `OpenDir` -/

section Model

variable {τ : Type}

/-- `fileRef`. -/
structure FileRef where
  ent : CEnt
  iounit : Int

/-- `Open`; the msize is that of the client. -/
def CEnt.open (send : RoundTripper τ) (msize : Int) (ent : CEnt) (mode : Flag) :
    Handling τ FileRef := do
  let (_, iounit) ← Client.open send ent.fid mode
  return ⟨ent, if iounit < 1 then msize - 11 else iounit.toNat⟩

/-- `openDir`. -/
structure OpenDir where
  fid : Fid
  done : Bool
  nread : Int64
  buf : Bytes

/-- `OpenDir`; the function that it returns is `OpenDir.next`. -/
def CEnt.openDir (send : RoundTripper τ) (msize : Int) (ent : CEnt) : Handling τ OpenDir := do
  let file ← ent.open send msize oread
  if file.iounit < 0 then throw .panic
  return ⟨ent.fid, false, 0, List.replicate file.iounit.toNat 0⟩

/-- An error of `Read`. -/
def OpenDir.fail (dir : OpenDir) (err : Err) : (List Dir × Option Err) × OpenDir :=
  if err = .eof then (([], none), { dir with done := true }) else (([], some err), dir)

/-- `Next`: the entries and the error. -/
def OpenDir.next (send : RoundTripper τ) : Handling (OpenDir × τ) (List Dir × Option Err) :=
  fun (dir, t) =>
    if dir.done then (.ok ([], none), dir, t)
    else
      match Client.read send dir.fid dir.buf dir.nread t with
      | (.error .panic, t) => (.error .panic, dir, t)
      | (.error (.err err), t) => (.ok (dir.fail err).1, (dir.fail err).2, t)
      | (.ok (_, buf, some err), t) =>
          let dir := { dir with buf }
          (.ok (dir.fail err).1, (dir.fail err).2, t)
      | (.ok (n, buf, none), t) =>
          let dir := { dir with buf, nread := dir.nread + Int64.ofNat n }
          match decodeDirs (buf.take n) with
          | (_, .panic) => (.error .panic, dir, t)
          | (ret, .err err) =>
              (.ok (ret, if err = .eof then none else some err), { dir with done := ret.isEmpty },
                t)

/-- `Next` is called until it returns an empty list; `batches` are the lists
before. -/
inductive Drains (send : RoundTripper τ) : OpenDir × τ → List (List Dir) → OpenDir × τ → Prop where
  | last {s s' : OpenDir × τ} : OpenDir.next send s = (.ok ([], none), s') → Drains send s [] s'
  | more {s s₁ s' : OpenDir × τ} {d : Dir} {ds : List Dir} {batches : List (List Dir)} :
      OpenDir.next send s = (.ok (d :: ds, none), s₁) → Drains send s₁ batches s' →
      Drains send s ((d :: ds) :: batches) s'

end Model

/-! ## The listing -/

section Listing

open Session

variable {φ : Type} {F : Session.FileSys φ} {m : Nat} {es : List Dir} {dir : OpenDir}
  {l : Link (World φ)}

/-- The server's end of an open directory: the entries `es` are left, and the
`Readdir` has come to `offset`. -/
def Stands (F : Session.FileSys φ) (w : World φ) (fid : Fid) (offset : Int64) (es : List Dir) :
    Prop :=
  ∃ id mode, OpenFid w.store fid ⟨id, .readdir⟩ mode ∧ mode &&& oexec ≠ owrite ∧
    (w.disk.readdirs id).offset = offset ∧ (w.disk.readdirs id).Left (F.next id) w.disk.fs es

/-- Both ends of an open directory. -/
structure Listing (F : Session.FileSys φ) (m : Nat) (es : List Dir) (dir : OpenDir)
    (l : Link (World φ)) : Prop where
  ready : l.Ready m
  done : dir.done = false
  buf : dir.buf.length = m - 11
  stands : Stands F l.state dir.fid dir.nread es

/-- An entry that can be sent, with msize `m`. -/
def Fits (m : Nat) (d : Dir) : Prop := (∀ p ∈ d.fields, p.Encodable) ∧ d.encode.length ≤ m - 11

/-- `Read` of the session gives the first entries. -/
theorem session_delivers {w : World φ} {fid : Fid} {offset : Int64}
    (h : Stands F w fid offset es) {p : Bytes} (hes : ∀ d ∈ es, d.encode.length ≤ p.length) :
    ∃ pre post w', (sFileSys F).read fid p offset w =
        (.ok (((pre.flatMap Dir.encode).length : Int),
          ⟨overwrite p (pre.flatMap Dir.encode), overwrite_length ..⟩), w') ∧
      es = pre ++ post ∧ (pre.flatMap Dir.encode).length ≤ p.length ∧ (pre = [] → es = []) ∧
      Stands F w' fid (offset + Int64.ofNat (pre.flatMap Dir.encode).length) post := by
  obtain ⟨id, mode, hopened, hmode, rfl, hleft⟩ := h
  obtain ⟨pre, post, rd', fs', hread, heq, hleft', hlen, hoffset, hnone⟩ :=
    Readdir.read_delivers p.length hleft hes
  have hreply : F.reply w.store.calls (.read ⟨id, .readdir⟩ p.length (w.disk.readdirs id).offset)
      w.disk = some ((((pre.flatMap Dir.encode).length : Int), none), pre.flatMap Dir.encode,
        ⟨fs', Function.update w.disk.readdirs id rd'⟩) := by
    rw [FileSys.reply, hread]
    rfl
  have hself : Function.update w.disk.readdirs id rd' id = rd' := Function.update_self ..
  obtain ⟨store, hperform, hopened'⟩ := read_opened hopened hmode hreply
  refine ⟨pre, post, _, sFileSys_read hperform, heq, hlen, hnone, id, mode, hopened', hmode,
    (congrArg Readdir.offset hself).trans hoffset, ?_⟩
  show Readdir.Left _ (Function.update w.disk.readdirs id rd' id) fs' post
  rwa [hself]

/-- **One call** of `Next` returns the first entries, at least one if there is
one. -/
theorem next_delivers (h : Listing F m es dir l) (hmin : 23 ≤ m) (hes : ∀ d ∈ es, Fits m d) :
    ∃ pre post dir' l', OpenDir.next (Link.send (sFileSys F) 65536) (dir, l) =
        (.ok (pre, none), dir', l') ∧
      es = pre ++ post ∧ (pre = [] → es = []) ∧ (pre ≠ [] → Listing F m post dir' l') := by
  obtain ⟨hready, hdone, hbuf, hstands⟩ := h
  have hmax := hready.max
  have hmod : min (dir.buf.length % 2 ^ 32) (m - 11) = m - 11 := by omega
  obtain ⟨pre, post, w', hread, heq, hlen, hnone, hstands'⟩ := session_delivers hstands
    (p := List.replicate (m - 11) 0) fun d hd => by
      rw [List.length_replicate]
      exact (hes d hd).2
  rw [List.length_replicate] at hlen
  obtain ⟨l', hcall, hready', rfl⟩ := Client.read_ready hready hmin
    (show (m : Int) ≤ 65536 by omega) hmod.symm hlen hread
  have hpre : ∀ d ∈ pre, (∀ p ∈ d.fields, p.Encodable) ∧ d.encode.length < 2 ^ 16 := by
    intro d hd
    obtain ⟨hfields, hd⟩ := hes d (heq ▸ List.mem_append_left post hd)
    exact ⟨hfields, by omega⟩
  cases pre with
  | nil =>
      refine ⟨[], post, { dir with buf := overwrite dir.buf [], done := true }, l', ?_, heq, hnone,
        fun h => absurd rfl h⟩
      simp only [OpenDir.next, hdone, Bool.false_eq_true, if_false, hcall]
      rfl
  | cons d ds =>
      have hpos : ((d :: ds).flatMap Dir.encode).length ≠ 0 := by
        rw [List.flatMap_cons, List.length_append, d.encode_length]
        omega
      have htake := Client.take_overwrite (p := dir.buf) (hlen.trans hbuf.ge)
      rw [if_neg hpos] at hcall
      refine ⟨d :: ds, post, { dir with
        buf := overwrite dir.buf ((d :: ds).flatMap Dir.encode)
        nread := dir.nread + Int64.ofNat ((d :: ds).flatMap Dir.encode).length }, l', ?_, heq,
        hnone, fun _ => ⟨hready', hdone, (overwrite_length ..).trans hbuf, hstands'⟩⟩
      simp only [OpenDir.next, hdone, Bool.false_eq_true, if_false, hcall, htake,
        decodeDirs_encoded hpre]
      rfl

/-- The lists that the client gets are the entries that were left, in order. -/
theorem drains_listing (h : Listing F m es dir l) (hmin : 23 ≤ m) (hes : ∀ d ∈ es, Fits m d) :
    ∃ batches s', Drains (Link.send (sFileSys F) 65536) (dir, l) batches s' ∧
      batches.flatten = es := by
  -- by induction on the number of entries that are left
  induction hk : es.length using Nat.strong_induction_on generalizing es dir l with
  | _ k ih =>
      obtain ⟨pre, post, dir', l', hnext, heq, hnone, hrest⟩ := next_delivers h hmin hes
      cases pre with
      | nil => exact ⟨[], (dir', l'), .last hnext, (hnone rfl).symm⟩
      | cons d ds =>
          have hlt : post.length < k := by
            rw [← hk, heq, List.length_append, List.length_cons]
            omega
          obtain ⟨batches, s', hdrains, hflat⟩ := ih post.length hlt (hrest (List.cons_ne_nil d ds))
            (fun d hd => hes d (heq ▸ List.mem_append_right _ hd)) rfl
          exact ⟨(d :: ds) :: batches, s',
            .more hnext hdrains, by rw [List.flatten_cons, hflat, heq]⟩

/-- **The listing is complete.**  A fid is open on a directory from which nothing
was read yet, and the client has the buffer that `OpenDir` makes.  The lists
that it gets are the entries of the directory, in order, whatever the lists are
in which the file system gives them. -/
theorem listing_complete (hl : l.Ready m) (hmin : 23 ≤ m) {fid : Fid} {id : Nat} {mode : Flag}
    (hopen : OpenFid l.state.store fid ⟨id, .readdir⟩ mode) (hmode : mode &&& oexec ≠ owrite)
    (hnew : l.state.disk.readdirs id = newReaddir)
    (hyields : Yields (F.next id) l.state.disk.fs es) (hes : ∀ d ∈ es, Fits m d) :
    ∃ batches s', Drains (Link.send (sFileSys F) 65536)
        (⟨fid, false, 0, List.replicate (m - 11) 0⟩, l) batches s' ∧
      batches.flatten = es := by
  refine drains_listing ⟨hl, rfl, List.length_replicate .., id, mode, hopen, hmode, ?_, ?_⟩ hmin hes
  · rw [hnew]
    rfl
  · rw [hnew]
    exact Readdir.left_new hyields

/-- `OpenDir` of the client leads there, if the `Ropen` fits. -/
theorem openDir_listing (hl : l.Ready m) (hmin : 24 ≤ m) {ent : CEnt} (hfid : ent.fid ≠ noFid)
    {ref d : Nat} {m₀ : Flag} (href : l.state.store.refs ent.fid = some ref)
    (hsfid : l.state.store.sfid ref = ⟨none, some d, none, m₀⟩) {disk : Disk φ} {q : Qid}
    (hopens : OpensDir F l.state.store.calls d l.state.disk disk q)
    (hnew : disk.readdirs (l.state.store.calls + 1) = newReaddir)
    (hyields : Yields (F.next (l.state.store.calls + 1)) disk.fs es) :
    ∃ dir l', ent.openDir (Link.send (sFileSys F) 65536) m l = (.ok dir, l') ∧
      Listing F m es dir l' := by
  obtain ⟨store, p, hperform, hopen⟩ :
      ∃ store p, l.state.perform F (.open ent.fid oread) =
        some (.opened q 0 none, ⟨store, disk, p⟩) ∧
        OpenFid store ent.fid ⟨l.state.store.calls + 1, .readdir⟩ oread :=
    open_directory hfid href hsfid hopens
  have hreq : (Message.topen ent.fid oread).Travels m := by
    refine ⟨?_, fun tag => ?_⟩
    · simp only [Message.fields, List.forall_mem_cons]
      exact ⟨trivial, trivial, List.forall_mem_nil _⟩
    · rw [Fcall.encode_length rfl]
      simp only [Message.encode, Message.fields, List.flatMap_cons, List.flatMap_nil, Elem.encode,
        Plain.encode, List.append_nil, List.length_append, List.length_singleton, putUint32,
        toLE_length]
      omega
  have hresp : (Message.ropen q 0).Travels m := by
    refine ⟨?_, fun tag => ?_⟩
    · simp only [Message.fields, List.forall_mem_cons]
      exact ⟨trivial, trivial, List.forall_mem_nil _⟩
    · rw [Fcall.encode_length rfl]
      simp only [Message.encode, Message.fields, List.flatMap_cons, List.flatMap_nil, Elem.encode,
        Plain.encode, List.append_nil, List.length_append, q.encode_length, putUint32, toLE_length]
      omega
  obtain ⟨l', hsend, hready, hstate⟩ := Link.send_proc hl 65536
    (show Proc.onSession (sFileSys F) (.open ent.fid oread) l.state = _ from sFileSys_open hperform)
    hreq hresp
  have hcall : Client.open (Link.send (sFileSys F) 65536) ent.fid oread l = (.ok (q, 0), l') :=
    Proc.onClient_ok (p := .open ent.fid oread) trivial hsend
  have hopenEnt : ent.open (Link.send (sFileSys F) 65536) m oread l =
      (.ok ⟨ent, (m : Int) - 11⟩, l') := Handling.bind_ok hcall _
  have hnonneg : ¬ (m : Int) - 11 < 0 := by omega
  refine ⟨⟨ent.fid, false, 0, List.replicate ((m : Int) - 11).toNat 0⟩, l', ?_, hready, rfl, ?_, ?_⟩
  · refine (Handling.bind_ok hopenEnt _).trans ?_
    simp only [hnonneg, if_false]
    rfl
  · rw [List.length_replicate]
    omega
  · rw [hstate]
    refine ⟨l.state.store.calls + 1, oread, hopen, by decide, ?_, ?_⟩
    · exact congrArg Readdir.offset hnew
    · rw [hnew]
      exact Readdir.left_new hyields

end Listing

/-! ## Three entries -/

/-- A file system of directories, all with the lists that are left. -/
def lists : Session.FileSys (List (List Dir)) where
  answer _ c bs := some (Session.agreeable c, [], bs)
  next _ bs := (.ok (bs.headD []), bs.tail)

def entry (name : Bytes) : Dir := { Dir.somedir with name }

/-- Fid 1 is attached and opened. -/
def opensRoot : List Session.Op := [.attach 1 noFid [] [], .open 1 oread]

/-- Three entries that are given in lists of two and one, with an msize of 160;
a buffer has room for two. -/
theorem listing_complete_lists :
    ∃ w batches s', Conc.exec (fun w op => (w.perform lists op).map Prod.snd)
        (Session.World.new [[entry [97], entry [98]], [entry [99]]]) opensRoot = some w ∧
      Drains (Link.send (Session.sFileSys lists) 65536)
        (⟨1, false, 0, List.replicate 149 0⟩, ⟨newChannel 160, newChannel 160, [], [], 0, w⟩)
        batches s' ∧
      batches.flatten = [entry [97], entry [98], entry [99]] := by
  obtain ⟨w, hw, hopen, hnew, hfs⟩ : ∃ w, Conc.exec (fun w op => (w.perform lists op).map Prod.snd)
        (Session.World.new [[entry [97], entry [98]], [entry [99]]]) opensRoot = some w ∧
      Session.OpenFid w.store 1 ⟨3, .readdir⟩ oread ∧ w.disk.readdirs 3 = newReaddir ∧
      w.disk.fs = [[entry [97], entry [98]], [entry [99]]] :=
    ⟨_, rfl, ⟨by decide, _, _, rfl, rfl⟩, rfl, rfl⟩
  have hyields : Yields (lists.next 3) w.disk.fs [entry [97], entry [98], entry [99]] := by
    have h₁ : lists.next 3 w.disk.fs = (.ok [entry [97], entry [98]], [[entry [99]]]) := by
      rw [hfs]
      rfl
    have h₂ : lists.next 3 [[entry [99]]] = (.ok [entry [99]], []) := rfl
    have h₃ : lists.next 3 [] = (.ok [], []) := rfl
    exact .batch h₁ (.batch h₂ (.last h₃))
  have hes : ∀ d ∈ [entry [97], entry [98], entry [99]], Fits 160 d := by
    simp only [List.forall_mem_cons]
    exact ⟨⟨by decide, by decide⟩, ⟨by decide, by decide⟩, ⟨by decide, by decide⟩,
      List.forall_mem_nil _⟩
  have hready : Link.Ready 160 ⟨newChannel 160, newChannel 160, [], [], 0, w⟩ :=
    ⟨rfl, rfl, by decide, rfl, rfl⟩
  obtain ⟨batches, s', hdrains, hflat⟩ := listing_complete hready (by decide) hopen (by decide) hnew
    hyields hes
  exact ⟨w, batches, s', hw, hdrains, hflat⟩

end CFileSys

end P9p
