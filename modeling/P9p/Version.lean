/-
# `P9p.Version` — negotiating version and msize

`version.go`.  The client sends a `Tversion` with its msize, the server answers
with a `Rversion` with the msize it has chosen, and both set it:

    client                        server
      | -- Tversion (uint32 mc) --> |   ms' = min ms (uint32 mc)
      | <-- Rversion ms' ---------- |
    mc' = min mc ms'

So both end up with the smaller of `ms` and `mc` modulo `2 ^ 32`
(`negotiate_msize`).  This is the smaller of the two if `mc` fits into 32 bits.

After that, whatever one side writes has a length that the other accepts, since
`WriteFcall` checks it, with one exception: the 23 bytes of a `Tread`.  The
negotiation allows an msize below that, down to the length of a `Rversion`.
`negotiation_agrees_iff` has both conditions.
-/
import P9p.Channel.Fit

namespace P9p

open Wire Wire.Reader

variable {ch ch' : Channel} {f : Fcall} {rest version : Bytes}

/-! ## The model -/

def Err.unexpectedMsg : Err := .rerror (lit "unexpected message")

/-- Both sides set the msize of the other if theirs is larger. -/
def Channel.lower (ch : Channel) (msize : UInt32) : Channel :=
  if msize.toNat < ch.msize then ch.setMSize msize.toNat else ch

/-- The request of `clientnegotiate`. -/
def versionRequest (ch : Channel) (version : Bytes) : Fcall :=
  newFcall noTag (.tversion (UInt32.ofNat ch.msize) version)

/-- `clientnegotiate`; `peer` is what comes back for what is sent. -/
def clientnegotiate (ch : Channel) (version : Bytes) (peer : Bytes → Bytes) :
    Except Fault (Bytes × Channel) :=
  match ch.writeFcall none (versionRequest ch version) with
  | .error e => .error (.err e)
  | .ok sent =>
      match ch.readFcall none (peer sent) with
      | .error e => .error e
      | .ok ((resp, ch), _) =>
          match resp.message with
          | .value (.rversion msize v) =>
              if v ≠ version then
                .error (.err (.other (lit "unsupported server version: " ++ version)))
              else .ok (v, ch.lower msize)
          | .value (.rerror ename) => .error (.err (.rerror ename))
          | _ => .error (.err .unexpectedMsg)

/-- The version of the response. -/
def versionResponse (version requested : Bytes) : Bytes :=
  if requested ≠ version then lit "9P2000" else version

/-- `servernegotiate` on what has come from the client, and what it sends.  The
text of its error has the zero `MessageTversion` in it. -/
def servernegotiate (ch : Channel) (version input : Bytes) : Except Fault Channel × Bytes :=
  match ch.readFcall none input with
  | .error e => (.error e, [])
  | .ok ((req, ch), _) =>
      match req.message with
      | .value (.tversion msize requested) =>
          let msize' := if msize.toNat < ch.msize then msize else UInt32.ofNat ch.msize
          let version' := versionResponse version requested
          match (ch.lower msize).writeFcall none (newFcall noTag (.rversion msize' version')) with
          | .error e => (.error (.err e), [])
          | .ok sent =>
              if version' = lit "unknown" then
                (.error (.err (.other (lit "bad version negotiation"))), sent)
              else (.ok (ch.lower msize), sent)
      | _ => (.error (.err (.other (lit "expected version message: \x7b0 \x7d"))), [])

/-- The two over a reliable link.  If the client sends nothing, the server finds
the connection at its end. -/
def negotiate (client server : Channel) (cversion sversion : Bytes) :
    Except Fault (Bytes × Channel) × Except Fault Channel :=
  let sent := match client.writeFcall none (versionRequest client cversion) with
    | .error _ => []
    | .ok sent => sent
  (clientnegotiate client cversion fun sent => (servernegotiate server sversion sent).2,
    (servernegotiate server sversion sent).1)

/-! ## The messages of the exchange -/

theorem setMSize_msize (ch : Channel) (msize : Nat) : (ch.setMSize msize).msize = msize := by
  unfold Channel.setMSize
  split <;> rfl

theorem Channel.lower_msize (ch : Channel) (msize : UInt32) :
    (ch.lower msize).msize = min msize.toNat ch.msize := by
  unfold Channel.lower
  split
  · rw [setMSize_msize]
    omega
  · omega

/-- A message that is not cut is written as it is. -/
theorem writeFcall_eq_ok {m : Message} {frame : Bytes} (hm : f.message = .value m)
    (hcut : m.isCut = false) (h : ch.writeFcall none f = .ok frame) : frame = sendmsg f.encode := by
  rw [writeFcall_eq, onWire, maybeTruncate_rest hm hcut] at h
  split at h
  · cases h
  · cases h
    rfl

/-- Such a message arrives as it is, if it arrives. -/
theorem readFcall_sent {g : Fcall} {m : Message} (hm : f.message = .value m)
    (htype : f.type = m.type) (hok : m.Encodable) (hcut : m.isCut = false)
    (hlt : f.encode.length + 4 < 2 ^ 32)
    (h : ch.readFcall none (sendmsg f.encode) = .ok ((g, ch'), rest)) : g = f := by
  by_cases hfit : f.encode.length + 4 ≤ ch.msize
  · have hread := readFcall_sendmsg ch hm htype hok hfit hlt (maybeTruncate_same hm hcut hfit) []
    rw [List.append_nil, h] at hread
    cases hread
    rfl
  · obtain ⟨f₀, hrecv, -⟩ := readFcall_eq_ok h
    have hover := receive_oversized ch (sendmsg_toNat hlt) (Nat.not_le.mp hfit) []
    rw [List.append_nil] at hover
    cases hrecv.symm.trans hover

theorem tversion_length (tag : Tag) (msize : UInt32) (version : Bytes) :
    (newFcall tag (.tversion msize version)).encode.length = 9 + version.length := by
  rw [Fcall.encode_length rfl]
  simp only [Message.encode, Message.fields, List.flatMap_cons, List.flatMap_nil, Elem.encode,
    Plain.encode, List.append_nil, List.length_append, putUint32, toLE_length, encodeString_length]
  omega

theorem rversion_length (tag : Tag) (msize : UInt32) (version : Bytes) :
    (newFcall tag (.rversion msize version)).encode.length = 9 + version.length :=
  tversion_length tag msize version

theorem tversion_encodable (msize : UInt32) (h : version.length < 2 ^ 16) :
    (Message.tversion msize version).Encodable := by
  intro e he
  rcases List.mem_cons.mp he with rfl | he
  · trivial
  · rw [List.mem_singleton.mp he]
    exact h

theorem rversion_encodable (msize : UInt32) (h : version.length < 2 ^ 16) :
    (Message.rversion msize version).Encodable := tversion_encodable msize h

/-- The version of a `Rversion` that was decoded is that short. -/
theorem decodeFcall_rversion_length {b : Bytes} {msize : UInt32}
    (h : decodeFcall b = .ok (f, rest)) (hf : f.message = .value (.rversion msize version)) :
    version.length < 2 ^ 16 := by
  obtain ⟨m, hm, hok, -⟩ := decodeFcall_accepts h
  cases (congrArg Fcall.message hm).symm.trans hf
  exact hok (.plain (.string version)) (List.mem_cons_of_mem _ List.mem_cons_self)

/-! ## The msize that is agreed on -/

theorem clientnegotiate_eq_ok {v : Bytes} {peer : Bytes → Bytes}
    (h : clientnegotiate ch version peer = .ok (v, ch')) :
    ∃ sent resp rest msize ch₁, ch.writeFcall none (versionRequest ch version) = .ok sent ∧
      ch.readFcall none (peer sent) = .ok ((resp, ch₁), rest) ∧
      resp.message = .value (.rversion msize version) ∧ v = version ∧
      ch'.msize = min msize.toNat ch.msize := by
  unfold clientnegotiate at h
  split at h
  · cases h
  · rename_i sent hsent
    split at h
    · cases h
    · rename_i resp ch₁ rest hread
      obtain ⟨-, -, -, hmsize⟩ := readFcall_eq_ok hread
      split at h
      · rename_i msize v' hresp
        split at h
        · cases h
        · rename_i hv
          have hv : v' = version := not_not.mp hv
          subst hv
          cases h
          exact ⟨sent, resp, rest, msize, ch₁, hsent, hread, hresp,
            rfl, by rw [ch₁.lower_msize, hmsize]⟩
      · cases h
      · cases h

theorem servernegotiate_eq_ok {input sent : Bytes}
    (h : servernegotiate ch version input = (.ok ch', sent)) :
    ∃ req rest msize requested ch₁, ch.readFcall none input = .ok ((req, ch₁), rest) ∧
      req.message = .value (.tversion msize requested) ∧
      ch'.msize = min msize.toNat ch.msize ∧
      ch'.writeFcall none (newFcall noTag (.rversion (UInt32.ofNat ch'.msize)
        (versionResponse version requested))) = .ok sent := by
  unfold servernegotiate at h
  split at h
  · cases h
  · rename_i req ch₁ rest hread
    obtain ⟨-, -, -, hmsize⟩ := readFcall_eq_ok hread
    split at h
    · rename_i msize requested hreq
      have hlower := ch₁.lower_msize msize
      have hmsize' : (if msize.toNat < ch₁.msize then msize else UInt32.ofNat ch₁.msize) =
          UInt32.ofNat (ch₁.lower msize).msize := by
        rw [hlower]
        split
        · rename_i hlt
          rw [Nat.min_eq_left (Nat.le_of_lt hlt), UInt32.ofNat_toNat]
        · rename_i hle
          rw [Nat.min_eq_right (Nat.not_lt.mp hle)]
      dsimp only at h
      rw [hmsize'] at h
      split at h
      · cases h
      · rename_i sent' hsent
        split at h
        · cases h
        · cases h
          exact ⟨req, rest, msize, requested, ch₁, hread, hreq, by rw [hlower, hmsize], hsent⟩
    · cases h

theorem versionResponse_length {requested : Bytes} (h : requested.length < 2 ^ 16) :
    (versionResponse version requested).length < 2 ^ 16 := by
  unfold versionResponse
  split
  · decide
  · rename_i heq
    rwa [← not_not.mp heq]

/-- Both sides have the smaller of the msize of the server and of what is left
of that of the client in 32 bits. -/
theorem negotiate_msize {client server client' server' : Channel} {cversion sversion v : Bytes}
    (h : negotiate client server cversion sversion = (.ok (v, client'), .ok server')) :
    v = cversion ∧ client'.msize = min (client.msize % 2 ^ 32) server.msize ∧
      server'.msize = min (client.msize % 2 ^ 32) server.msize := by
  obtain ⟨hclient, hserver⟩ := Prod.mk.inj h
  obtain ⟨sent, resp, rest, msize, ch₁, hsent, hresp, hrversion, rfl, hmsize⟩ :=
    clientnegotiate_eq_ok hclient
  rw [hsent] at hserver
  obtain ⟨reply, hreply⟩ : ∃ reply, servernegotiate server sversion sent = (.ok server', reply) :=
    ⟨_, Prod.ext hserver rfl⟩
  rw [hreply] at hresp
  -- the client has got back the version it asked for, so that is short
  have hshort : v.length < 2 ^ 16 := by
    obtain ⟨f₀, hrecv, htrunc, -⟩ := readFcall_eq_ok hresp
    obtain ⟨-, n, q, -, -, hdec, -⟩ := receive_eq_ok hrecv
    obtain ⟨rest', hdec⟩ := unmarshal_eq_ok hdec
    rcases maybeTruncate_cases htrunc with rfl | ⟨_, _, _, _, -, rfl⟩ | ⟨_, _, _, _, -, rfl⟩
    · exact decodeFcall_rversion_length hdec hrversion
    · cases hrversion
    · cases hrversion
  -- the request arrives
  obtain ⟨req, rest', msize', requested, ch₂, hreq, htversion, hmsize', hsent'⟩ :=
    servernegotiate_eq_ok hreply
  have hlen := tversion_length noTag (UInt32.ofNat client.msize) v
  rw [writeFcall_eq_ok rfl rfl hsent] at hreq
  have hreq := readFcall_sent rfl rfl (tversion_encodable _ hshort) rfl
    (by rw [versionRequest, hlen]; omega) hreq
  rw [hreq] at htversion
  cases htversion
  -- and so does the response
  have hshort' : (versionResponse sversion v).length < 2 ^ 16 := versionResponse_length hshort
  have hlen' := rversion_length noTag (UInt32.ofNat server'.msize) (versionResponse sversion v)
  rw [writeFcall_eq_ok rfl rfl hsent'] at hresp
  have hresp := readFcall_sent rfl rfl (rversion_encodable _ hshort') rfl
    (by rw [hlen']; omega) hresp
  rw [hresp] at hrversion
  obtain ⟨hagreed, -⟩ := Message.rversion.inj (MessageVal.value.inj hrversion)
  rw [← hagreed, UInt32.toNat_ofNat'] at hmsize
  rw [UInt32.toNat_ofNat'] at hmsize'
  refine ⟨rfl, ?_, hmsize'⟩
  omega

/-! ## Frames after the negotiation -/

/-- Every frame that `w` emits passes the length check of `r`: the count that
`readmsg` returns is not larger than the buffer. -/
def Accepts (r w : Channel) : Prop :=
  ∀ f frame, w.writeFcall none f = .ok frame → ∀ rest n q rest',
    readmsg r.rdbuf.length (frame ++ rest) = .ok ((n, q), rest') → n ≤ r.rdbuf.length

/-- The count that `readmsg` returns is the one in the header. -/
theorem readmsg_count {len n : Nat} {size : UInt32} {b q : Bytes}
    (h : readmsg len (putUint32 size ++ b) = .ok ((n, q), rest)) : n = size.toNat := by
  rw [readmsg, bind_apply, lift_ok (encodes_getUint32 size b)] at h
  dsimp only at h
  split at h
  · split at h
    · cases h
    · obtain ⟨q', mid, -, h⟩ := bind_eq_ok h
      cases h
      omega
  · obtain ⟨q', mid, -, h⟩ := bind_eq_ok h
    obtain ⟨d, mid', hdiscard, h⟩ := bind_eq_ok h
    cases h
    have hlen : d.length = ((size.toNat : Int) - 4).toNat - len := by
      unfold Decoder.lift discard at hdiscard
      split at hdiscard
      · rename_i p hp
        cases hdiscard
        exact (take_eq_ok hp).2
      · cases hdiscard
    omega

/-- The size that `WriteFcall` checks covers what the header will say, also if
both have wrapped. -/
theorem header_le_msgmsize (f : Fcall) :
    (UInt32.ofNat (f.encode.length + 4)).toNat ≤ msgmsize f := by
  rw [UInt32.toNat_ofNat', msgmsize, channelMessageHeaderSize]
  cases hm : f.message with
  | nil =>
      have hlen : f.encode.length = 3 := by
        simp only [Fcall.encode, hm, MessageVal.encode, List.length_append, List.length_singleton,
          putUint16, toLE_length, List.length_nil]
      have hsize : f.size.toNat = 3 := by
        simp only [Fcall.size, hm, MessageVal.size]
        rfl
      omega
  | value m =>
      rw [Fcall.size_toNat hm]
      omega
  | pointer m =>
      have hvalue := Fcall.size_toNat (f := { f with message := .value m }) rfl
      have hsame : f.encode.length = (Fcall.encode { f with message := .value m }).length := by
        simp only [Fcall.encode, hm, MessageVal.encode, List.length_append, m.encode_byRef_length]
      have hbyRef : f.size = Fcall.size { f with message := .value m } ∨
          f.size = Fcall.size { f with message := .value m } + 4 := by
        simp only [Fcall.size, hm, MessageVal.size]
        refine m.size_byRef.imp (congrArg (1 + 2 + ·)) fun h => ?_
        rw [h, UInt32.add_assoc (1 + 2)]
      rw [hsame]
      rcases hbyRef with h | h
      · rw [h, hvalue]
        omega
      · have hfour : (4 : UInt32).toNat = 4 := rfl
        rw [h, UInt32.toNat_add, hvalue, hfour]
        omega

/-- With an msize that leaves room for a `Tread`, the header states at most the
msize. -/
theorem writeFcall_header {frame : Bytes} (hmin : 23 ≤ ch.msize) (hmax : ch.msize < 2 ^ 32)
    (h : ch.writeFcall none f = .ok frame) :
    ∃ (size : UInt32) (body : Bytes), frame = putUint32 size ++ body ∧ size.toNat ≤ ch.msize := by
  have hfits : ∀ {w : Fcall}, msgmsize w ≤ ch.msize →
      (UInt32.ofNat (w.encode.length + 4)).toNat ≤ ch.msize := fun hle =>
    (header_le_msgmsize _).trans hle
  rw [writeFcall_eq, onWire] at h
  suffices hw : ∀ w, maybeTruncate ch.msize f = .ok w →
      (UInt32.ofNat (w.encode.length + 4)).toNat ≤ ch.msize by
    cases hon : maybeTruncate ch.msize f with
    | error e =>
        rw [hon] at h
        cases h
    | ok w =>
        rw [hon] at h
        cases h
        exact ⟨_, _, rfl, hw w hon⟩
  clear h
  intro w h
  cases hm : f.message with
  | nil | pointer m =>
      simp only [maybeTruncate, hm] at h
      split at h
      · cases h
      · rename_i hle
        cases h
        exact hfits (Nat.not_lt.mp hle)
  | value m =>
      obtain ⟨fid, offset, count, rfl⟩ | ⟨fid, offset, data, rfl⟩ | ⟨hcut, -⟩ := m.cut_cases
      · obtain ⟨count', hok, -⟩ := maybeTruncate_tread hm (by omega : 11 ≤ ch.msize)
        cases h.symm.trans hok
        rw [UInt32.toNat_ofNat', Fcall.encode_length rfl, tread_length]
        omega
      · have hlen : f.encode.length = 19 + data.length := by
          rw [Fcall.encode_length hm, twrite_length]
          omega
        have hmsg : msgmsize f = 4 + (19 + data.length) % 2 ^ 32 := by
          rw [msgmsize, channelMessageHeaderSize, Fcall.size_toNat hm, hlen]
        simp only [maybeTruncate, hm] at h
        split at h
        · rename_i hle
          cases h
          exact hfits hle
        · split at h
          · cases h
          · -- what is left is the msize, and some multiple of `2 ^ 32`
            cases h
            rw [UInt32.toNat_ofNat', Fcall.encode_length rfl, twrite_length, List.length_take]
            omega
      · rw [maybeTruncate_rest hm hcut] at h
        split at h
        · cases h
        · rename_i hle
          cases h
          exact hfits (Nat.not_lt.mp hle)

theorem accepts_of_msize {r w : Channel} (hmsize : w.msize = r.msize) (hmin : 23 ≤ r.msize)
    (hmax : r.msize < 2 ^ 32) : Accepts r w := by
  intro f frame hwrite rest n q rest' hread
  obtain ⟨size, body, rfl, hsize⟩ := writeFcall_header (by omega) (by omega) hwrite
  rw [List.append_assoc] at hread
  rw [readmsg_count hread, r.rdbuf_length]
  omega

/-- A `Tread` is written whatever the msize. -/
theorem not_accepts {r w : Channel} (hmin : r.msize < 23) : ¬ Accepts r w := by
  intro h
  obtain ⟨count, hok⟩ := maybeTruncate_tread_ok w.msize (f := newFcall 0 (.tread 0 0 0)) rfl
  have hlen : (newFcall 0 (.tread 0 0 count)).encode.length = 19 := by
    rw [Fcall.encode_length rfl, tread_length]
  have hsize : (UInt32.ofNat ((newFcall 0 (.tread 0 0 count)).encode.length + 4)).toNat =
      (newFcall 0 (.tread 0 0 count)).encode.length + 4 := by
    rw [hlen]
    rfl
  have hwrite : w.writeFcall none (newFcall 0 (.tread 0 0 0)) =
      .ok (sendmsg (newFcall 0 (.tread 0 0 count)).encode) := by
    rw [writeFcall_eq, onWire, hok]
    rfl
  have hle := h _ _ hwrite [] _ _ _ (readmsg_frame r.rdbuf.length hsize [])
  rw [hlen, r.rdbuf_length] at hle
  omega

/-! ## Agreement -/

/-- What the negotiation is for. -/
structure Agreed (client server client' server' : Channel) (cversion v : Bytes) : Prop where
  same : client'.msize = server'.msize
  least : client'.msize = min client.msize server.msize
  version : v = cversion
  toServer : Accepts server' client'
  toClient : Accepts client' server'

/-- If both sides return without an error, they agree exactly if the smaller
msize leaves room for a `Tread`, and the msize of the client fits into 32 bits
or what is left of it there is not smaller than that of the server. -/
theorem negotiation_agrees_iff (client server : Channel) (cversion sversion : Bytes)
    {client' server' : Channel} {v : Bytes}
    (h : negotiate client server cversion sversion = (.ok (v, client'), .ok server')) :
    Agreed client server client' server' cversion v ↔
      (client.msize < 2 ^ 32 ∨ server.msize ≤ client.msize % 2 ^ 32) ∧
        23 ≤ min client.msize server.msize := by
  obtain ⟨hv, hclient, hserver⟩ := negotiate_msize h
  constructor
  · intro hagreed
    have hleast := hagreed.least
    refine ⟨by omega, ?_⟩
    by_contra hsmall
    exact not_accepts (by omega) hagreed.toServer
  · rintro ⟨hfits, hmin⟩
    refine ⟨by omega, by omega, hv, accepts_of_msize (by omega) (by omega) (by omega),
      accepts_of_msize (by omega) (by omega) (by omega)⟩

theorem negotiation_agrees_iff_64 :
    ∃ v client' server', negotiate (newChannel 64) (newChannel 48) (lit "9P2000") (lit "9P2000") =
        (.ok (v, client'), .ok server') ∧
      (Agreed (newChannel 64) (newChannel 48) client' server' (lit "9P2000") v ↔
        (64 < 2 ^ 32 ∨ 48 ≤ 64 % 2 ^ 32) ∧ 23 ≤ min 64 48) :=
  ⟨_, _, _, rfl, negotiation_agrees_iff (newChannel 64) (newChannel 48) (lit "9P2000")
    (lit "9P2000") rfl⟩

/-- An msize of 19 is enough to negotiate, and too small for the `Tread` that
the client then sends. -/
theorem tread_overflows :
    ∃ v client' server' frame n q,
      negotiate (newChannel 64) (newChannel 19) (lit "9P2000") (lit "9P2000") =
        (.ok (v, client'), .ok server') ∧
      client'.writeFcall none (newFcall 0 (.tread 1 0 8)) = .ok frame ∧
      readmsg server'.rdbuf.length frame = .ok ((n, q), []) ∧ server'.rdbuf.length < n ∧
      ¬ Agreed (newChannel 64) (newChannel 19) client' server' (lit "9P2000") v := by
  obtain ⟨v, client', server', hneg⟩ : ∃ v client' server', negotiate (newChannel 64)
      (newChannel 19) (lit "9P2000") (lit "9P2000") = (.ok (v, client'), .ok server') :=
    ⟨_, _, _, rfl⟩
  obtain ⟨frame, hwrite⟩ : ∃ frame,
      client'.writeFcall none (newFcall 0 (.tread 1 0 8)) = .ok frame := by
    cases hneg
    exact ⟨_, rfl⟩
  obtain ⟨n, q, hread, hn⟩ : ∃ n q, readmsg server'.rdbuf.length frame = .ok ((n, q), []) ∧
      server'.rdbuf.length < n := by
    cases hneg
    cases hwrite
    exact ⟨_, _, rfl, by decide⟩
  refine ⟨v, client', server', frame, n, q, hneg, hwrite, hread, hn, fun h => ?_⟩
  have hle := h.toServer _ frame hwrite [] n q [] (by rw [List.append_nil, hread])
  exact absurd hn (Nat.not_lt.mpr hle)

end P9p
