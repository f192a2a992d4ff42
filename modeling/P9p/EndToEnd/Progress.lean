/-
# `P9p.EndToEnd.Progress` — every request comes back

`P9p.EndToEnd.Agreement` says that nothing wrong arrives.  Here: something
does.  Once the callers have made their calls, and nobody interferes, the two
systems run out of work, and then every call of `send` has returned.

**Smooth** steps are those that the goroutines take by themselves:

    a `Handle` that is running returns
    a message that fits is written, one that does not is refused
    what is on the link is read; the client reads the end of the connection
      when it has read everything and the server's loop has returned, since
      the program that calls `ServeConn` then closes the connection

What is left out comes from outside: more calls, cancellations, a connection
that is closed, reads and writes that fail for reasons of the network.  All of
these may have happened before, in any order, with one exception: a write of
the server's writer that fails for a time (`writeRetry`).  The writer goes on
after it, and the response is lost, with nobody to tell the client.

**Why.**  Each smooth step lowers the work (`Smooth.work_lt`): it takes a
message one place further on the way of `P9p.EndToEnd`.  While the connection
is up at both ends, no message leaves the way before it arrives (`Full`).  So
where no step is left, nobody waits for one (`Resting.ended`).

**The one exception** is a server that is stranded (`P9p.ServeConn.Closing`):
its connection is closed, its writer has returned, and its loop waits for it.
-/
import P9p.EndToEnd.Agreement
import P9p.ServeConn.Draining
import P9p.Transport.Draining

namespace P9p.EndToEnd

open Conc

variable {cm sm : Nat} {s s' : State}
variable {a : Conn.Act} {v : Conn.State}

/-! ## Smooth steps -/

section Smooth

variable (cm sm)

def Smooth (s : State) : Act → Prop
  | .client (.writeFail err) => ∃ r f, s.client.handle = .writing r f ∧ onWire cm f = .error err
  | .client (.readFail _) => s.down = [] ∧ ∃ err, s.server.serve = .returned err
  | .client a => a.fromOutside = false
  | .server (.writeFail err) =>
      ∃ resp, s.server.writer = .writing resp ∧ onWire sm resp = .error err
  | .server (.readFail _) => False
  | .server .writeRetry => False
  | .server a => a.fromOutside = false
  | .clientWrite | .serverRead | .serverWrite | .clientRead => True

/-- No smooth step is left. -/
def Resting (s : State) : Prop := ∀ a, Smooth cm sm s a → step cm sm s a = none

end Smooth

theorem Smooth.client {a : Transport.Act} (h : Smooth cm sm s (.client a)) :
    a.fromOutside = false := by
  cases a with
  | writeFail err | readFail err => rfl
  | _ => exact h

theorem Smooth.server (h : Smooth cm sm s (.server a)) : a.fromOutside = false := by
  cases a with
  | writeFail err => rfl
  | readFail err | writeRetry => exact h.elim
  | _ => exact h

/-- What is on the links counts for the steps it still has to go. -/
def work (s : State) : Nat :=
  s.client.work + 10 * s.up.length + s.server.work + 4 * s.down.length

theorem Smooth.work_lt {a : Act} (h : Smooth cm sm s a) (hstep : Step cm sm s a s') :
    work s' < work s := by
  cases hstep with
  | client _ hs =>
      have hlt := hs.work_lt h.client
      simp only [work]
      omega
  | @server a v _ hs =>
      have hlt := hs.work_lt h.server
      show s.client.work + 10 * s.up.length + v.work + 4 * s.down.length < work s
      simp only [work]
      omega
  | clientWrite hw _ =>
      simp only [work, Transport.State.work, Transport.HandlePc.work, hw, List.length_append,
        List.length_singleton]
      omega
  | serverRead hup _ hr =>
      simp only [work, Conn.State.work, Conn.ReaderPc.work, hr, hup, List.length_cons]
      omega
  | serverReadFail hup _ hs =>
      have hlt := hs.work_lt rfl
      simp only [work, hup, List.length_cons]
      omega
  | serverWrite hw _ =>
      simp only [work, Conn.State.work, Conn.WriterPc.work, hw, List.length_append,
        List.length_singleton]
      omega
  | clientRead hdown _ hr =>
      simp only [work, Transport.State.work, Transport.ReaderPc.work, hr, hdown, List.length_cons]
      omega
  | clientReadFail hdown _ hr =>
      simp only [work, Transport.State.work, Transport.State.readerReturn,
        Transport.ReaderPc.work, hr, hdown, List.length_cons]
      omega

/-! ## No message leaves the way -/

/-- The connection is up at both ends. -/
def Fine (s : State) : Prop := ¬ Conn.Down s.server ∧ s.client.shutdown = false

/-- While it is, there is a message on the way for each outstanding tag. -/
def Full (s : State) : Prop :=
  Fine s → ∀ t r, s.client.outstanding.lookup t = some r → 0 < load s t

theorem full_init : Full init := by
  intro _ t r h
  cases h

/-- Tags that stay outstanding keep their message, and new ones have one. -/
theorem Full.of_load (h : Full s) (hfine : Fine s' → Fine s)
    (hload : ∀ t r, s'.client.outstanding.lookup t = some r →
      (s.client.outstanding.lookup t = some r ∧ load s' t = load s t) ∨ 0 < load s' t) :
    Full s' := by
  intro hf t r ht
  rcases hload t r ht with ⟨hold, heq⟩ | hpos
  · rw [heq]
    exact h (hfine hf) t r hold
  · exact hpos

theorem full_of_down (h : Conn.Down s.server) : Full s := fun hf => absurd h hf.1

theorem full_of_shutdown (h : s.client.shutdown = true) : Full s := by
  intro hf
  have hno := hf.2
  rw [h] at hno
  cases hno

/-- The tag goes with the message. -/
theorem Full.erase (h : Full s) {f : Fcall} (hfine : Fine s' → Fine s)
    (hout : s'.client.outstanding = s.client.outstanding.erase f.tag)
    (hload : ∀ t, load s' t + hasTag t f = load s t) : Full s' := by
  refine h.of_load hfine ?_
  intro t r ht
  rw [hout] at ht
  obtain ⟨hne, hold⟩ := Transport.erase_lookup ht
  have hzero : hasTag t f = 0 := if_neg (Ne.symm hne)
  have hadd := hload t
  exact Or.inl ⟨hold, by omega⟩

theorem Full.clientStep (h : Full s) (hinv : Inv cm sm s) {a : Transport.Act}
    {c : Transport.State} (hlink : a.onLink = false) (hstep : Transport.Step s.client a c) :
    Full { s with client := c } := by
  cases hstep with
  | call | cancel _ _ | sendClosed _ _ _ | sendCtxDone _ _ _ | sendErr _ _ _ | sendResponse _ _ _
  | depleted _ _ _ _ | cancelCtx _ =>
      exact h.of_load id fun t r ht => Or.inl ⟨ht, rfl⟩
  | handleShutdown hh _ | handleCtxDone hh _ =>
      exact h.of_load id fun t r ht => Or.inl ⟨ht, by simp [load, placeLoad, handleLoad, hh]⟩
  | readRetry _ => exact h
  | readFail _ | readerCtxDone _ _ | readerClosed _ _ | close => exact full_of_shutdown rfl
  | writeOk _ | readOk _ => cases hlink
  | @dispatch r q t hh _ _ _ =>
      refine h.of_load id fun t' r' ht' => ?_
      by_cases heq : t' = t
      · refine Or.inr ?_
        have htag : hasTag t' (newFcall t q.call.message) = 1 := if_pos heq.symm
        simp only [load, placeLoad, handleLoad, htag]
        omega
      · have hzero : hasTag t' (newFcall t q.call.message) = 0 := if_neg (Ne.symm heq)
        refine Or.inl ⟨(AList.lookup_insert_ne heq).symm.trans ht', ?_⟩
        simp only [load, placeLoad, handleLoad, hzero, hh]
        rfl
  | @writeFail r f err hw =>
      refine h.erase (f := f) id rfl fun t => ?_
      simp only [load, placeLoad, handleLoad, hw, Transport.State.fail]
      omega
  | @deliver b r hh hr hl =>
      refine h.erase (f := b) id rfl fun t => ?_
      simp only [load, placeLoad, receivedLoad, hr, Transport.State.respond]
      omega
  | @unknownTag b hh hr hl =>
      obtain ⟨hown, -⟩ := hinv.tokens .received s.received b ⟨hr, rfl⟩
      rw [hl] at hown
      cases hown

/-- A step of the server that moves no message, or from one place to another. -/
theorem Full.serverMoves (h : Full s) (hdown : Conn.Down s.server → Conn.Down v)
    (hload : ∀ t, offeredLoad t v.reader + tableLoad t v + answeringLoad t v.writer =
      offeredLoad t s.server.reader + tableLoad t s.server + answeringLoad t s.server.writer) :
    Full (s.serverStep a v) := by
  refine h.of_load (fun hf => ⟨fun hd => hf.1 (hdown hd), hf.2⟩) fun t r ht => Or.inl ⟨ht, ?_⟩
  have hadd := hload t
  show handleLoad t s.client.handle + linkLoad t s.up + offeredLoad t v.reader + tableLoad t v +
    answeringLoad t v.writer + linkLoad t s.down + receivedLoad t s.client.reader = _
  simp only [load, placeLoad]
  omega

theorem tableLoad_start {req : Fcall} (htag : v.tags req.tag = none) (t : Tag) :
    tableLoad t (v.start req) = tableLoad t v + hasTag t req := by
  rw [tableLoad, tableLoad, Conn.State.start_tags]
  by_cases heq : t = req.tag
  · subst heq
    rw [if_pos rfl, htag, hasTag_self]
    rfl
  · rw [if_neg heq, hasTag, if_neg (Ne.symm heq), Nat.add_zero]

theorem tableLoad_untag {f : Fcall} {i : Nat} (htag : v.tags f.tag = some i) (t : Tag) :
    tableLoad t (v.untag f.tag) + hasTag t f = tableLoad t v := by
  rw [tableLoad, tableLoad, Conn.State.untag_tags]
  by_cases heq : t = f.tag
  · subst heq
    rw [if_pos rfl, htag, hasTag_self]
    rfl
  · rw [if_neg heq, hasTag, if_neg (Ne.symm heq), Nat.add_zero]

theorem Full.serverStep (h : Full s) (hinv : Inv cm sm s) (htidy : Conn.Tidy s.server)
    (hlink : a.onLink = false) (ha : a ≠ .writeRetry) (hstep : Conn.Step s.server a v) :
    Full (s.serverStep a v) := by
  have hdown : Conn.Down s.server → Conn.Down v := fun hd => hd.step hstep
  have hcases : Conn.Down v → Full (s.serverStep a v) := fun hd => full_of_down hd
  cases hstep with
  | readOk _ | writeOk _ => cases hlink
  | writeRetry _ => exact absurd rfl ha
  | readRetry _ => exact h.serverMoves hdown fun _ => rfl
  | readFail _ | readerCtxDone _ _ | writeFail _ | writerCtxDone _ _ | close =>
      exact hcases (Or.inl (Conn.State.closeWithError_closed _ _))
  | readerClosed _ hc | writerClosed _ hc | handlerClosed _ _ _ hc | serveClosed hc _ =>
      exact hcases (hdown (Or.inl (Option.isSome_of_eq_some hc)))
  | serveCtxDone hc _ => exact hcases (hdown (Or.inr (Option.isSome_of_eq_some hc)))
  | cancelCtx _ => exact hcases (Or.inr rfl)
  | handlerCtxDone _ _ _ hdone | abandon _ hdone =>
      exact hcases (hdown (htidy.down_of_done hdone))
  | refuse hr _ htag =>
      rw [(hinv.orderly .accept _ hr).1] at htag
      cases htag
  | flush hr _ _ hmsg _ | flushUnknown hr _ _ hmsg _ =>
      exact absurd hmsg ((hinv.orderly .accept _ hr).2 _)
  | sendRefusal hserve _ => exact absurd hserve (hinv.server.neverRefusing _)
  | sendFlush hserve _ => exact absurd hserve (hinv.server.neverFlushing _ _)
  | @start req hr _ htag _ =>
      refine h.serverMoves hdown fun t => ?_
      have htable := tableLoad_start htag t
      have hv : tableLoad t { s.server.start req with reader := .reading } =
        tableLoad t (s.server.start req) := rfl
      show 0 + _ + answeringLoad t s.server.writer = _
      rw [hv, htable, hr, offeredLoad]
      omega
  | complete _ _ _ _ _ | handled _ _ => exact h.serverMoves hdown fun _ => rfl
  | drop _ hi _ hgone htag =>
      rw [hinv.server.live _ _ hi hgone] at htag
      cases htag
  | @send resp active src hserve hw =>
      obtain ⟨htag, -⟩ := hinv.server.inv.handing resp active src hserve
      refine h.serverMoves hdown fun t => ?_
      have htable := tableLoad_untag htag t
      show offeredLoad t s.server.reader + tableLoad t (s.server.untag resp.tag) +
        hasTag t resp = _
      rw [hw, answeringLoad]
      · omega
      · rintro f ⟨⟩

/-! ## What holds in every reachable state -/

/-- The steps after which the client can still rely on an answer. -/
def Kept (a : Act) : Prop := a ≠ .server .writeRetry

structure Flowing (cm sm : Nat) (s : State) : Prop where
  inv : Inv cm sm s
  tidy : Conn.Tidy s.server
  heard : Transport.Heard s.client
  full : Full s

theorem flowing_init : Flowing cm sm init :=
  ⟨inv_init, Conn.tidy_init, Transport.heard_init, full_init⟩

theorem Flowing.step {a : Act} (h : Flowing cm sm s) (ha : Kept a)
    (hstep : EndToEnd.step cm sm s a = some s') : Flowing cm sm s' := by
  have hinv : Inv cm sm s' := h.inv.step (step_cases cm sm hstep)
  have htidy := h.tidy
  have hheard := h.heard
  cases step_cases cm sm hstep with
  | client hlink hs =>
      exact ⟨hinv, htidy, hheard.step h.inv.client hs, h.full.clientStep h.inv hlink hs⟩
  | @server a v hlink hs =>
      have hne : a ≠ .writeRetry := fun heq => ha (by rw [heq])
      exact ⟨hinv, htidy.step h.inv.server (h.inv.orderly a) hs, hheard,
        h.full.serverStep h.inv htidy hlink hne hs⟩
  | @clientWrite r f w hw hon =>
      refine ⟨hinv, htidy, hheard.step h.inv.client (.writeOk hw), ?_⟩
      refine h.full.of_load id fun t _ ht => Or.inl ⟨ht, ?_⟩
      simp only [load, placeLoad, hw, handleLoad, linkLoad_append,
        hasTag_congr (maybeTruncate_tag hon)]
      omega
  | @serverRead r w req up hup hoff hr =>
      refine ⟨hinv, htidy.step h.inv.server (h.inv.orderly _) (.readOk hr), hheard, ?_⟩
      refine h.full.of_load id fun t _ ht => Or.inl ⟨ht, ?_⟩
      simp only [load, placeLoad, hr, offeredLoad, hup, linkLoad_cons,
        hasTag_congr (offWire_tag hoff), tableLoad]
      omega
  | @serverReadFail r w up err v hup _ hs =>
      have hdown : Conn.Down v := by
        cases hs with
        | readFail _ => exact Or.inl (Conn.State.closeWithError_closed _ _)
      exact ⟨hinv, htidy.step h.inv.server (h.inv.orderly _) hs, hheard, full_of_down hdown⟩
  | @serverWrite resp w hw hon =>
      refine ⟨hinv, htidy.step h.inv.server (h.inv.orderly _) (.writeOk hw), hheard, ?_⟩
      refine h.full.of_load id fun t _ ht => Or.inl ⟨ht, ?_⟩
      simp only [load, placeLoad, hw, answeringLoad, linkLoad_append,
        hasTag_congr (maybeTruncate_tag hon), tableLoad]
      omega
  | @clientRead r w resp down hdown hoff hr =>
      refine ⟨hinv, htidy, hheard.step h.inv.client (.readOk hr), ?_⟩
      refine h.full.of_load id fun t _ ht => Or.inl ⟨ht, ?_⟩
      simp only [load, placeLoad, hr, receivedLoad, hdown, linkLoad_cons,
        hasTag_congr (offWire_tag hoff)]
      omega
  | @clientReadFail r w down err hdown _ hr =>
      have hread : Transport.Step s.client (.readFail err) s.client.readerReturn := .readFail hr
      exact ⟨hinv, htidy, hheard.step h.inv.client hread, full_of_shutdown rfl⟩

theorem Smooth.kept {a : Act} (h : Smooth cm sm s a) : Kept a := by
  rintro rfl
  exact h

/-! ## Where no step is left -/

theorem Resting.client (h : Resting cm sm s) {a : Transport.Act}
    (ha : Smooth cm sm s (.client a)) (hlink : a.onLink = false) :
    Transport.step s.client a = none := by
  have hnone := h _ ha
  rw [step, if_neg (by rw [hlink]; exact Bool.false_ne_true), Option.map_eq_none_iff] at hnone
  exact hnone

theorem Resting.server (h : Resting cm sm s) (ha : Smooth cm sm s (.server a))
    (hlink : a.onLink = false) : Conn.step s.server a = none := by
  have hnone := h _ ha
  rw [step, if_neg (by rw [hlink]; exact Bool.false_ne_true), Option.map_eq_none_iff] at hnone
  exact hnone

/-- A message that is to be written is written or refused. -/
theorem Resting.not_writing (h : Resting cm sm s) (r : Nat) (f : Fcall) :
    s.client.handle ≠ .writing r f := by
  intro hw
  cases hon : onWire cm f with
  | ok w =>
      have hnone := h .clientWrite trivial
      simp [step, hw, hon, Transport.step] at hnone
  | error err =>
      have hnone := h.client (a := .writeFail err) ⟨r, f, hw, hon⟩ rfl
      simp [Transport.step, hw] at hnone

theorem Resting.not_answering (h : Resting cm sm s) (f : Fcall) :
    s.server.writer ≠ .writing f := by
  intro hw
  cases hon : onWire sm f with
  | ok w =>
      have hnone := h .serverWrite trivial
      simp [step, hw, hon, Conn.step] at hnone
  | error err =>
      have hnone := h.server (a := .writeFail err) ⟨f, hw, hon⟩ rfl
      simp [Conn.step, hw] at hnone

/-- What is on a link is read, if there is a reader. -/
theorem Resting.down_nil (h : Resting cm sm s) (hr : s.client.reader = .reading) :
    s.down = [] := by
  cases hdown : s.down with
  | nil => rfl
  | cons p down =>
      have hnone := h .clientRead trivial
      cases hoff : offWire cm p.2 with
      | ok resp => simp [step, hdown, hoff, Transport.step, hr] at hnone
      | error err => simp [step, hdown, hoff, Transport.step, hr] at hnone

theorem Resting.up_nil (h : Resting cm sm s) (hr : s.server.reader = .reading) : s.up = [] := by
  cases hup : s.up with
  | nil => rfl
  | cons p up =>
      have hnone := h .serverRead trivial
      cases hoff : offWire sm p.2 with
      | ok req => simp [step, hup, hoff, Conn.step, hr] at hnone
      | error err => simp [step, hup, hoff, Conn.step, hr] at hnone

/-- A call that has not returned waits, for a `handle` that waits as well, and
whose connection is up at the client's end. -/
theorem Resting.waiting (h : Resting cm sm s) (hflow : Flowing cm sm s) {r : Nat}
    {q : Transport.Request} (hq : s.client.requests[r]? = some q)
    (hpc : ∀ o, q.pc ≠ .returned o) :
    s.client.handle = .select ∧ s.client.reader = .reading ∧ s.client.shutdown = false ∧
      ∃ t, s.client.outstanding.lookup t = some r := by
  have hhandle : s.client.handle = .select := by
    cases hh : s.client.handle with
    | select => rfl
    | writing r f => exact absurd hh (h.not_writing r f)
    | panicked b => exact absurd hh (hflow.inv.notPanicked b)
    | returned =>
        have hnone := h.client (a := .sendClosed r) rfl rfl
        cases hp : q.pc with
        | returned o => exact absurd hp (hpc o)
        | dispatching | waiting =>
            simp [Transport.step, hq, hp, Transport.State.closed, hh] at hnone
  have hshut : s.client.shutdown = false := by
    have hnone := h.client (a := .handleShutdown) rfl rfl
    cases hs : s.client.shutdown with
    | false => rfl
    | true => simp [Transport.step, hhandle, hs] at hnone
  have hreader : s.client.reader = .reading := by
    cases hr : s.client.reader with
    | reading => rfl
    | offering b =>
        have hnone := h.client (a := .deliver) rfl rfl
        simp [Transport.step, hhandle, hr] at hnone
    | returned =>
        have htrue := hflow.heard.reader hr
        rw [hshut] at htrue
        cases htrue
  refine ⟨hhandle, hreader, hshut, ?_⟩
  cases hp : q.pc with
  | returned o => exact absurd hp (hpc o)
  | dispatching =>
      have hnone := h.client (a := .dispatch r) rfl rfl
      simp [Transport.step, hhandle, hq, hp] at hnone
  | waiting =>
      refine hflow.heard.waiting r q hq hp ?_ ?_
      · cases hresp : q.response with
        | nil => rfl
        | cons b bs =>
            have hnone := h.client (a := .sendResponse r) rfl rfl
            simp [Transport.step, hq, hp, hresp] at hnone
      · cases herr : q.err with
        | nil => rfl
        | cons e es =>
            have hnone := h.client (a := .sendErr r) rfl rfl
            simp [Transport.step, hq, hp, herr] at hnone

/-- The loop has returned, or is stranded, or waits in its main `select` on a
connection that is up. -/
theorem Resting.serve_cases (h : Resting cm sm s) (hflow : Flowing cm sm s) :
    (∃ err, s.server.serve = .returned err) ∨ Conn.Stranded s.server ∨
      s.server.serve = .select ∧ ¬ Conn.Down s.server := by
  cases hserve : s.server.serve with
  | returned err => exact Or.inl ⟨err, rfl⟩
  | refusing resp => exact absurd hserve (hflow.inv.server.neverRefusing resp)
  | flushing resp v => exact absurd hserve (hflow.inv.server.neverFlushing resp v)
  | select =>
      refine Or.inr (Or.inr ⟨rfl, ?_⟩)
      rintro (hc | hc)
      · obtain ⟨err, hc⟩ := Option.isSome_iff_exists.mp hc
        have hnone := h.server (a := .serveClosed) rfl rfl
        simp [Conn.step, hc, hserve, Conn.ServePc.watchesEnd] at hnone
      · obtain ⟨err, hc⟩ := Option.isSome_iff_exists.mp hc
        have hnone := h.server (a := .serveCtxDone) rfl rfl
        simp [Conn.step, hc, hserve, Conn.ServePc.watchesEnd] at hnone
  | handing resp active src =>
      refine Or.inr (Or.inl ?_)
      have hdone : s.server.done active = false := by
        have hnone := h.server (a := .abandon) rfl rfl
        simpa [Conn.step, hserve] using hnone
      have hw : s.server.writer = .returned := by
        cases hw : s.server.writer with
        | returned => rfl
        | writing f => exact absurd hw (h.not_answering f)
        | select =>
            have hnone := h.server (a := .handover) rfl rfl
            simp [Conn.step, hserve, hw] at hnone
      exact ⟨hflow.tidy.writer hw, ⟨resp, active, src, hserve, hdone⟩, by rw [hw]; rintro ⟨⟩⟩

/-- A loop that waits on a connection that is up has no request. -/
theorem Resting.no_request (h : Resting cm sm s) (hflow : Flowing cm sm s)
    (hserve : s.server.serve = .select) (hup : ¬ Conn.Down s.server) :
    s.server.reader = .reading ∧ ∀ t, s.server.tags t = none := by
  constructor
  · cases hr : s.server.reader with
    | reading => rfl
    | returned => exact absurd (Or.inl (hflow.tidy.reader hr)) hup
    | offering req =>
        have hnone := h.server (a := .accept) rfl rfl
        simp [Conn.step, hr, hserve] at hnone
  · intro t
    cases ht : s.server.tags t with
    | none => rfl
    | some i =>
        obtain ⟨req, hreq, -⟩ := hflow.inv.server.inv.registered t i ht
        obtain ⟨hd, hi, -⟩ := Option.map_eq_some_iff.mp hreq
        have hgone : hd.gone = false := by
          cases hg : hd.gone with
          | false => rfl
          | true =>
              rcases hflow.tidy.gone t i hd ht hi hg with ⟨resp, active, hs⟩ | hdown
              · rw [hserve] at hs
                cases hs
              · exact absurd hdown hup
        cases hres : hd.result with
        | none =>
            have hnone := h.server (a := .handled i (.error Err.closed)) rfl rfl
            simp [Conn.step, hi, hres] at hnone
        | some res =>
            have hnone := h.server (a := .complete i) rfl rfl
            simp [Conn.step, hserve, hi, hres, hgone] at hnone

/-- Where no step is left, every call has returned, or the server is stranded. -/
theorem Resting.ended (h : Resting cm sm s) (hflow : Flowing cm sm s)
    (hstranded : ¬ Conn.Stranded s.server) {r : Nat} {q : Transport.Request}
    (hq : s.client.requests[r]? = some q) : ∃ o, q.pc = .returned o := by
  by_contra hnot
  obtain ⟨hhandle, hreader, hshut, t, ht⟩ :=
    h.waiting hflow hq fun o ho => hnot ⟨o, ho⟩
  have hdown := h.down_nil hreader
  rcases h.serve_cases hflow with ⟨err, hserve⟩ | hs | ⟨hserve, hup⟩
  · have hnone := h.client (a := .readFail Err.closed) ⟨hdown, err, hserve⟩ rfl
    simp [Transport.step, hreader] at hnone
  · exact hstranded hs
  · obtain ⟨hsreader, htags⟩ := h.no_request hflow hserve hup
    have hupnil := h.up_nil hsreader
    have hwriter : answeringLoad t s.server.writer = 0 := by
      cases hw : s.server.writer with
      | writing f => exact absurd hw (h.not_answering f)
      | select | returned => rfl
    -- the message of the tag is in none of the seven places
    have hpos := hflow.full ⟨hup, hshut⟩ t r ht
    simp [load, placeLoad, hhandle, handleLoad, hupnil, linkLoad, hsreader, offeredLoad,
      tableLoad, htags t, hwriter, hdown, hreader, receivedLoad] at hpos

/-! ## The result -/

/-- From whatever state, the two systems come to rest when left alone, after no
more steps than there is work; and then every call of `send` has returned, for
a reason of its own, unless the server is stranded. -/
theorem comes_back (cm sm : Nat) (acts more : List Act) (s s' : State)
    (hkept : ∀ a ∈ acts, Kept a) (hrun : exec (step cm sm) init acts = some s)
    (hsmooth : Guarded (step cm sm) (Smooth cm sm) s more)
    (hmore : exec (step cm sm) s more = some s') :
    more.length + work s' ≤ work s ∧ (Resting cm sm s' → ¬ Conn.Stranded s'.server →
      ∀ (r : Nat) q, s'.client.requests[r]? = some q →
        ∃ o, q.pc = .returned o ∧ o.Reason s'.client q) := by
  have hflow : Flowing cm sm s :=
    exec_invariant (C := fun _ => Kept) (fun h ha hs => h.step ha hs) acts flowing_init
      (guarded_of_mem (fun a ha _ => hkept a ha) init) hrun
  have hflow' : Flowing cm sm s' :=
    exec_invariant (fun h ha hs => h.step ha.kept hs) more hflow hsmooth hmore
  constructor
  · exact hsmooth.length_le work (fun ha hs => ha.work_lt (step_cases cm sm hs)) hmore
  · intro hrest hstranded r q hq
    obtain ⟨o, ho⟩ := hrest.ended hflow' hstranded hq
    exact ⟨o, ho, hflow'.heard.reason r q o hq ho⟩

/-! ## A state of rest -/

/-- Everybody waits in the `select` or the read in which they began, with
nothing left to do. -/
def idle (s : State) : Bool :=
  match s.client.handle, s.client.reader, s.server.serve, s.server.reader, s.server.writer with
  | .select, .reading, .select, .reading, .select =>
      s.up.isEmpty && s.down.isEmpty && !s.client.shutdown && s.client.ctxErr.isNone &&
        s.server.closed.isNone && s.server.ctxErr.isNone &&
        s.client.requests.all (fun q => q.pc.work == 0) &&
        s.server.handlers.all (fun h => h.work == 0)
  | _, _, _, _, _ => false

theorem resting_of_idle (h : idle s = true) : Resting cm sm s := by
  unfold idle at h
  split at h
  · rename_i hhandle hcreader hserve hsreader hwriter
    simp only [Bool.and_eq_true, Bool.not_eq_true', List.isEmpty_iff, Option.isNone_iff_eq_none,
      List.all_eq_true, beq_iff_eq] at h
    obtain ⟨⟨⟨⟨⟨⟨⟨hup, hdown⟩, hshut⟩, hcctx⟩, hclosed⟩, hsctx⟩, hreqs⟩, hhandlers⟩ := h
    have hret : ∀ {r : Nat} {q : Transport.Request}, s.client.requests[r]? = some q →
        ∃ o, q.pc = .returned o := by
      intro r q hq
      have hzero := hreqs q (List.mem_of_getElem? hq)
      cases hp : q.pc with
      | returned o => exact ⟨o, rfl⟩
      | dispatching | waiting => simp [hp, Transport.SendPc.work] at hzero
    have hend : ∀ {i : Nat} {hd : Conn.Handler}, s.server.handlers[i]? = some hd →
        hd.gone = true ∧ ∃ res, hd.result = some res := by
      intro i hd hi
      have hzero := hhandlers hd (List.mem_of_getElem? hi)
      cases hr : hd.result with
      | none => simp [Conn.Handler.work, hr] at hzero
      | some res =>
          cases hg : hd.gone with
          | true => exact ⟨rfl, res, rfl⟩
          | false => simp [Conn.Handler.work, hr, hg] at hzero
    intro a ha
    cases hs : step cm sm s a with
    | none => rfl
    | some s' =>
        exfalso
        cases step_cases cm sm hs with
        | clientWrite hw _ => simp [hhandle] at hw
        | serverRead hup' _ _ | serverReadFail hup' _ _ => simp [hup] at hup'
        | serverWrite hw _ => simp [hwriter] at hw
        | clientRead hdown' _ _ | clientReadFail hdown' _ _ => simp [hdown] at hdown'
        | client _ hstep =>
            cases hstep with
            | call | cancel _ _ | readOk _ | readRetry _ | cancelCtx _ | close => cases ha
            | sendClosed hq hpc _ | sendCtxDone hq hpc _ =>
                obtain ⟨o, ho⟩ := hret hq
                exact hpc o ho
            | sendErr hq hpc _ | sendResponse hq hpc _ | depleted _ hq hpc _
            | dispatch _ hq hpc _ =>
                obtain ⟨o, ho⟩ := hret hq
                simp [hpc] at ho
            | writeOk hw | writeFail hw => simp [hhandle] at hw
            | unknownTag _ hr _ | deliver _ hr _ | readerCtxDone hr _ | readerClosed hr _ =>
                simp [hcreader] at hr
            | handleShutdown _ ht => simp [hshut] at ht
            | handleCtxDone _ hc => simp [hcctx] at hc
            | readFail _ =>
                obtain ⟨-, err, hret'⟩ := ha
                simp [hserve] at hret'
        | server _ hstep =>
            cases hstep with
            | readOk _ | readRetry _ | cancelCtx _ | close | readFail _ | writeRetry _ => cases ha
            | readerCtxDone hr _ | readerClosed hr _ | refuse hr _ _ | flush hr _ _ _ _
            | flushUnknown hr _ _ _ _ | start hr _ _ _ => simp [hsreader] at hr
            | complete _ hi _ hg _ | drop _ hi _ hg _ | handlerCtxDone hi _ hg _
            | handlerClosed hi _ hg _ => simp [(hend hi).1] at hg
            | handled hi hn =>
                obtain ⟨-, res, hres⟩ := hend hi
                simp [hres] at hn
            | send hs' _ | sendRefusal hs' _ | sendFlush hs' _ | abandon hs' _ =>
                simp [hserve] at hs'
            | serveCtxDone hc _ | writerCtxDone _ hc => simp [hsctx] at hc
            | serveClosed hc _ | writerClosed _ hc => simp [hclosed] at hc
            | writeOk hw | writeFail hw => simp [hwriter] at hw
  · cases h

/-- The loop of an idle server holds no response. -/
theorem not_stranded_of_idle (h : idle s = true) : ¬ Conn.Stranded s.server := by
  rintro ⟨-, ⟨resp, active, src, hserve, -⟩, -⟩
  simp [idle, hserve] at h

/-- A `Clunk` and a `Remove` are called, and the `Remove` is given up. -/
def clunkBegins : List Act :=
  [.client (.call (.clunk 6)), .client (.call (.remove 7)), .client (.dispatch 0), .clientWrite,
    .client (.dispatch 1), .clientWrite, .client (.cancel 1 (.other (lit "context canceled")))]

/-- From there to the end. -/
def clunkEnds : List Act :=
  [.client (.sendCtxDone 1), .serverRead, .server .accept, .serverRead, .server .accept,
    .server (.handled 1 (.ok .rremove)), .server (.handled 0 (.ok .rclunk)),
    .server (.complete 1), .server .handover, .serverWrite,
    .server (.complete 0), .server .handover, .serverWrite,
    .clientRead, .client .deliver, .clientRead, .client .deliver, .client (.sendResponse 0)]

theorem comes_back_clunk :
    ∃ s s', exec (step 8192 8192) init clunkBegins = some s ∧
      exec (step 8192 8192) s clunkEnds = some s' ∧ Resting 8192 8192 s' ∧
      clunkEnds.length + work s' ≤ work s ∧
      ∀ (r : Nat) q, s'.client.requests[r]? = some q →
        ∃ o, q.pc = .returned o ∧ o.Reason s'.client q := by
  have hrun : ((exec (step 8192 8192) init clunkBegins).bind fun s =>
      (exec (step 8192 8192) s clunkEnds).map idle) = some true := by decide +kernel
  obtain ⟨s, hs, hmap⟩ := Option.bind_eq_some_iff.mp hrun
  obtain ⟨s', hs', hidle⟩ := Option.map_eq_some_iff.mp hmap
  have hkept : ∀ a ∈ clunkBegins, Kept a := by simp [clunkBegins, Kept]
  have hsmooth : Guarded (step 8192 8192) (Smooth 8192 8192) s clunkEnds :=
    guarded_of_mem (by simp [clunkEnds, Smooth, Transport.Act.fromOutside, Conn.Act.fromOutside]) s
  obtain ⟨hlen, hall⟩ := comes_back 8192 8192 clunkBegins clunkEnds s s' hkept hs hsmooth hs'
  have hrest : Resting 8192 8192 s' := resting_of_idle hidle
  exact ⟨s, s', hs, hs', hrest, hlen, hall hrest (not_stranded_of_idle hidle)⟩

end P9p.EndToEnd
