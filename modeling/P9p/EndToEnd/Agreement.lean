/-
# `P9p.EndToEnd.Agreement` — every answer reaches the request it answers

A request that the client has given a tag is, from then on, in at most one
place: being written, on the link, held by the server's reader, in the tag
table, held by the server's writer, on the link back, or held by the client's
reader (`Place`).  `Tok s p r f` says that place `p` holds message `f` of
request `r`.  The invariant has two parts:

    load    the places together hold at most one message with tag t, and none
            unless t is outstanding at the client
    tokens  a message in any place has the tag under which its request is
            outstanding, and is what that place should hold of that request

A step moves a message from one place to the next, or drops it.  Cancellation
moves nothing: the tag of a cancelled request stays outstanding, which is why
it cannot be given to another request while an answer may still be on its way.

From it (`agreement`): answers are delivered to the requests they answer; a
request gets one reply; the client never sees an unknown tag; the server never
sees a duplicate one.
-/
import P9p.EndToEnd

namespace P9p.EndToEnd

open Conc

variable {f w req resp : Fcall} {m : Message} {l l' up down : List (Nat × Fcall)} {x : Nat × Fcall}
  {r : Nat} {s s' : State} {P : Nat → Fcall → Prop} {c : Transport.State} {t : Tag}
  {a : Conn.Act} {v : Conn.State}

inductive Place where
  | sending
  | up
  | offered
  | table
  | answering
  | down
  | received

def Tok (s : State) : Place → Nat → Fcall → Prop
  | .sending, r, f => s.client.handle = .writing r f
  | .up, r, f => (r, f) ∈ s.up
  | .offered, r, f => s.server.reader = .offering f ∧ r = s.offered
  | .table, r, f => ∃ i, s.server.tags f.tag = some i ∧ s.server.req? i = some f ∧
      s.origin[i]? = some r
  | .answering, r, f => s.server.writer = .writing f ∧ r = s.answering
  | .down, r, f => (r, f) ∈ s.down
  | .received, r, f => s.client.reader = .offering f ∧ r = s.received

/-! ## Counting -/

/-- `1` if `f` has tag `t`. -/
def hasTag (t : Tag) (f : Fcall) : Nat := if f.tag = t then 1 else 0

def handleLoad (t : Tag) : Transport.HandlePc → Nat
  | .writing _ f => hasTag t f
  | _ => 0

def receivedLoad (t : Tag) : Transport.ReaderPc → Nat
  | .offering f => hasTag t f
  | _ => 0

def offeredLoad (t : Tag) : Conn.ReaderPc → Nat
  | .offering f => hasTag t f
  | _ => 0

def answeringLoad (t : Tag) : Conn.WriterPc → Nat
  | .writing f => hasTag t f
  | _ => 0

def linkLoad (t : Tag) (l : List (Nat × Fcall)) : Nat := (l.map fun p => hasTag t p.2).sum

def tableLoad (t : Tag) (s : Conn.State) : Nat := if (s.tags t).isSome then 1 else 0

def placeLoad (s : State) (t : Tag) : Place → Nat
  | .sending => handleLoad t s.client.handle
  | .up => linkLoad t s.up
  | .offered => offeredLoad t s.server.reader
  | .table => tableLoad t s.server
  | .answering => answeringLoad t s.server.writer
  | .down => linkLoad t s.down
  | .received => receivedLoad t s.client.reader

def load (s : State) (t : Tag) : Nat :=
  placeLoad s t .sending + placeLoad s t .up + placeLoad s t .offered + placeLoad s t .table +
    placeLoad s t .answering + placeLoad s t .down + placeLoad s t .received

@[simp] theorem hasTag_self (f : Fcall) : hasTag f.tag f = 1 := if_pos rfl

theorem hasTag_congr {g : Fcall} (h : g.tag = f.tag) (t : Tag) : hasTag t g = hasTag t f := by
  rw [hasTag, hasTag, h]

theorem linkLoad_append (t : Tag) (l : List (Nat × Fcall)) (r : Nat) (f : Fcall) :
    linkLoad t (l ++ [(r, f)]) = linkLoad t l + hasTag t f := by
  simp [linkLoad]

theorem linkLoad_cons (t : Tag) (l : List (Nat × Fcall)) (r : Nat) (f : Fcall) :
    linkLoad t ((r, f) :: l) = hasTag t f + linkLoad t l := by
  simp [linkLoad]

theorem linkLoad_pos (h : (r, f) ∈ l) : 0 < linkLoad f.tag l := by
  induction l with
  | nil => cases h
  | cons p l ih =>
      obtain ⟨r', f'⟩ := p
      rw [linkLoad_cons]
      rcases List.mem_cons.mp h with heq | hm
      · cases heq
        rw [hasTag_self]
        omega
      · have := ih hm
        omega

variable {p : Place}

/-- What is in some place counts. -/
theorem Tok.placeLoad_pos (h : Tok s p r f) : 0 < placeLoad s f.tag p := by
  cases p with
  | sending =>
      have hs : s.client.handle = .writing r f := h
      rw [placeLoad, hs, handleLoad, hasTag_self]
      exact Nat.one_pos
  | up | down => exact linkLoad_pos h
  | offered =>
      rw [placeLoad, h.1, offeredLoad, hasTag_self]
      exact Nat.one_pos
  | table =>
      obtain ⟨i, hi, -⟩ := h
      rw [placeLoad, tableLoad, hi]
      exact Nat.one_pos
  | answering =>
      rw [placeLoad, h.1, answeringLoad, hasTag_self]
      exact Nat.one_pos
  | received =>
      rw [placeLoad, h.1, receivedLoad, hasTag_self]
      exact Nat.one_pos

theorem placeLoad_le (s : State) (t : Tag) (p : Place) : placeLoad s t p ≤ load s t := by
  cases p <;> rw [load] <;> omega

theorem placeLoad_add_le (s : State) (t : Tag) {w : Place} (h : p ≠ w) :
    placeLoad s t p + placeLoad s t w ≤ load s t := by
  cases p <;> cases w <;> first | exact absurd rfl h | (rw [load]; omega)

theorem Tok.load_pos (h : Tok s p r f) : 0 < load s f.tag :=
  Nat.lt_of_lt_of_le h.placeLoad_pos (placeLoad_le s f.tag p)

/-! ## What a place should hold -/

section Invariant

variable (cm sm : Nat)

/-- `resp` is the response built from the answer of the handler that was
started for request `r` with message `m`, as the server received it. -/
def Served (s : State) (r : Nat) (m : Message) (resp : Fcall) : Prop :=
  ∃ i req res, s.origin[i]? = some r ∧ Carried cm sm (newFcall resp.tag m) req ∧
    .accepted i req ∈ s.server.log ∧ .handled i res ∈ s.server.log ∧ resp = Conn.respond req res

/-- Before the server has accepted it, no goroutine works for a request. -/
def Good (s : State) : Place → Nat → Message → Fcall → Prop
  | .sending, r, m, f => f = newFcall f.tag m ∧ r ∉ s.origin
  | .up, r, m, f => onWire cm (newFcall f.tag m) = .ok f ∧ r ∉ s.origin
  | .offered, r, m, f => Carried cm sm (newFcall f.tag m) f ∧ r ∉ s.origin
  | .table, _, m, f => Carried cm sm (newFcall f.tag m) f
  | .answering, r, m, f => Served cm sm s r m f
  | .down, r, m, f => ∃ resp, Served cm sm s r m resp ∧ onWire sm resp = .ok f
  | .received, r, m, f => ∃ resp, Served cm sm s r m resp ∧ Carried sm cm resp f

/-- The message in place `p` is that of the request outstanding under its tag. -/
def Owned (s : State) (p : Place) (r : Nat) (f : Fcall) : Prop :=
  s.client.outstanding.lookup f.tag = some r ∧
    ∃ q, s.client.requests[r]? = some q ∧ Good cm sm s p r q.call.message f

structure Inv (s : State) : Prop where
  client : Transport.Inv s.client
  server : Conn.Calm s.server
  origins : s.origin.length = s.server.handlers.length
  nodup : s.origin.Nodup
  dispatched : ∀ r ∈ s.origin, ∃ q, s.client.requests[r]? = some q ∧ q.pc ≠ .dispatching
  load : ∀ t, load s t ≤ if (s.client.outstanding.lookup t).isSome then 1 else 0
  tokens : ∀ p r f, Tok s p r f → Owned cm sm s p r f
  delivered : ∀ (r : Nat) (q : Transport.Request) b, s.client.requests[r]? = some q →
    b ∈ q.response → ∃ resp, Served cm sm s r q.call.message resp ∧ Carried sm cm resp b
  notPanicked : ∀ b, s.client.handle ≠ .panicked b

variable {cm sm}

theorem inv_init : Inv cm sm init where
  client := Transport.inv_init
  server := Conn.calm_init
  origins := rfl
  nodup := List.nodup_nil
  dispatched := by intro r hr; cases hr
  load := by intro t; exact Nat.zero_le _
  tokens := by
    intro p r f h
    cases p with
    | sending => cases h
    | up | down => cases h
    | offered | answering | received => cases h.1
    | table =>
        obtain ⟨i, hi, -⟩ := h
        cases hi
  delivered := by intro r q b hq; cases hq
  notPanicked := by intro b h; cases h

/-- Histories grow. -/
theorem Served.mono (h : Served cm sm s r m resp) (horigin : s.origin <+: s'.origin)
    (hlog : s.server.log ⊆ s'.server.log) : Served cm sm s' r m resp := by
  obtain ⟨i, req, res, hi, hc, ha, hh, heq⟩ := h
  obtain ⟨l, hl⟩ := horigin
  have hi' : s'.origin[i]? = some r := by
    rw [← hl, List.getElem?_append_left (List.getElem?_eq_some_iff.mp hi).1, hi]
  exact ⟨i, req, res, hi', hc, hlog ha, hlog hh, heq⟩

theorem Good.mono (h : Good cm sm s p r m f) (horigin : s'.origin = s.origin)
    (hlog : s.server.log ⊆ s'.server.log) : Good cm sm s' p r m f := by
  have hserved : ∀ {resp}, Served cm sm s r m resp → Served cm sm s' r m resp :=
    fun hs => hs.mono (horigin ▸ List.prefix_rfl) hlog
  cases p with
  | sending | up | offered => exact ⟨h.1, horigin ▸ h.2⟩
  | table => exact h
  | answering => exact hserved h
  | down | received =>
      obtain ⟨resp, hs, hrest⟩ := h
      exact ⟨resp, hserved hs, hrest⟩

/-- Every step but the acceptance of a request: no goroutine is started.  What
is left to show is where the messages are now, and that they are owned there
if they were not there before. -/
theorem Inv.advance (h : Inv cm sm s) (hclient : Transport.Inv s'.client)
    (hserver : Conn.Calm s'.server) (hlen : s'.server.handlers.length = s.server.handlers.length)
    (horigin : s'.origin = s.origin) (hlog : s.server.log ⊆ s'.server.log)
    (hreq : Transport.RequestsFollow P s.client.requests s'.client.requests)
    (hP : ∀ (r : Nat) q b, P r b → s.client.requests[r]? = some q →
      ∃ resp, Served cm sm s r q.call.message resp ∧ Carried sm cm resp b)
    (hload : ∀ t, EndToEnd.load s' t ≤ if (s'.client.outstanding.lookup t).isSome then 1 else 0)
    (htok : ∀ p r f, Tok s' p r f → (Tok s p r f ∧
      s'.client.outstanding.lookup f.tag = s.client.outstanding.lookup f.tag) ∨
        Owned cm sm s' p r f) (hpanic : ∀ b, s'.client.handle ≠ .panicked b) : Inv cm sm s' where
  client := hclient
  server := hserver
  origins := by rw [horigin, hlen, h.origins]
  nodup := horigin ▸ h.nodup
  dispatched := by
    intro r hr
    obtain ⟨q, hq, hpc⟩ := h.dispatched r (horigin ▸ hr)
    obtain ⟨q', hq', hf⟩ := hreq.forward r q hq
    exact ⟨q', hq', fun hd => hpc (hf.pc hd)⟩
  load := hload
  tokens := by
    intro p r f ht
    rcases htok p r f ht with ⟨hold, hlookup⟩ | hnew
    · obtain ⟨hl, q, hq, hgood⟩ := h.tokens p r f hold
      obtain ⟨q', hq', hf⟩ := hreq.forward r q hq
      refine ⟨hlookup.trans hl, q', hq', ?_⟩
      rw [hf.call]
      exact hgood.mono horigin hlog
    · exact hnew
  delivered := by
    intro r q' b hq' hb
    rcases hreq.backward r q' hq' with hnil | ⟨q, hq, hf⟩
    · rw [hnil] at hb
      cases hb
    · have hserved : ∃ resp, Served cm sm s r q.call.message resp ∧ Carried sm cm resp b := by
        rcases hf.response b hb with hold | hnew
        · exact h.delivered r q b hq hold
        · exact hP r q b hnew hq
      obtain ⟨resp, hs, hc⟩ := hserved
      rw [hf.call]
      exact ⟨resp, hs.mono (horigin ▸ List.prefix_rfl) hlog, hc⟩
  notPanicked := hpanic

/-! ## Steps of the client -/

theorem Inv.load_le (h : Inv cm sm s) (t : Tag) : EndToEnd.load s t ≤ 1 := by
  have := h.load t
  split at this <;> omega

/-- Messages in two places have different tags. -/
theorem Inv.tag_ne (h : Inv cm sm s) {p' : Place} {r' : Nat} {f' : Fcall} (hp : p ≠ p')
    (ht : Tok s p r f) (ht' : Tok s p' r' f') : f.tag ≠ f'.tag := by
  intro heq
  have h₁ := ht.placeLoad_pos
  have h₂ := ht'.placeLoad_pos
  have hle := h.load_le f.tag
  have hadd := placeLoad_add_le s f.tag hp
  rw [← heq] at h₂
  omega

/-- The client drops what it is sending or has received, or keeps it. -/
theorem Inv.clientShrink (h : Inv cm sm s) (hclient : Transport.Inv c)
    (hreq : Transport.RequestsFollow P s.client.requests c.requests)
    (hP : ∀ (r : Nat) q b, P r b → s.client.requests[r]? = some q →
      ∃ resp, Served cm sm s r q.call.message resp ∧ Carried sm cm resp b)
    (hhandle : ∀ r f, c.handle = .writing r f → s.client.handle = .writing r f)
    (hreader : ∀ f, c.reader = .offering f → s.client.reader = .offering f)
    (hload : ∀ t, EndToEnd.load { s with client := c } t ≤
      if (c.outstanding.lookup t).isSome then 1 else 0)
    (hlookup : ∀ t, 0 < EndToEnd.load { s with client := c } t →
      c.outstanding.lookup t = s.client.outstanding.lookup t)
    (hpanic : ∀ b, c.handle ≠ .panicked b) : Inv cm sm { s with client := c } := by
  refine h.advance hclient h.server rfl rfl (List.Subset.refl _) hreq hP hload ?_ hpanic
  intro p r f ht
  refine Or.inl ⟨?_, hlookup f.tag ht.load_pos⟩
  cases p with
  | sending => exact hhandle r f ht
  | received => exact ⟨hreader f ht.1, ht.2⟩
  | up | offered | table | answering | down => exact ht

theorem handleLoad_le {c c' : Transport.HandlePc}
    (h : ∀ r f, c' = .writing r f → c = .writing r f) : handleLoad t c' ≤ handleLoad t c := by
  cases hc : c' with
  | writing r f => rw [h r f hc]
  | select | returned | panicked => exact Nat.zero_le _

theorem receivedLoad_le {c c' : Transport.ReaderPc} (h : ∀ f, c' = .offering f → c = .offering f) :
    receivedLoad t c' ≤ receivedLoad t c := by
  cases hc : c' with
  | offering f => rw [h f hc]
  | reading | returned => exact Nat.zero_le _

/-- A step of the client that keeps `outstanding`. -/
theorem Inv.clientQuiet (h : Inv cm sm s) (hclient : Transport.Inv c)
    (hreq : Transport.RequestsFollow P s.client.requests c.requests) (hP : ∀ r b, ¬ P r b)
    (hout : c.outstanding = s.client.outstanding)
    (hhandle : ∀ r f, c.handle = .writing r f → s.client.handle = .writing r f)
    (hreader : ∀ f, c.reader = .offering f → s.client.reader = .offering f)
    (hpanic : ∀ b, c.handle ≠ .panicked b) : Inv cm sm { s with client := c } := by
  refine h.clientShrink hclient hreq (fun r q b hp => absurd hp (hP r b)) hhandle hreader ?_
    (fun t _ => by rw [hout]) hpanic
  intro t
  have hold := h.load t
  have h₁ := handleLoad_le (t := t) hhandle
  have h₂ := receivedLoad_le (t := t) hreader
  rw [hout]
  refine Nat.le_trans ?_ hold
  simp only [EndToEnd.load, placeLoad]
  omega

/-- A tag leaves `outstanding` together with the one message that had it. -/
theorem Inv.load_erase (h : Inv cm sm s) {n : Tag → Nat}
    (hn : ∀ t, n t + hasTag t f = EndToEnd.load s t) (t : Tag) :
    n t ≤ (if ((s.client.outstanding.erase f.tag).lookup t).isSome then 1 else 0) ∧
      (0 < n t → (s.client.outstanding.erase f.tag).lookup t = s.client.outstanding.lookup t) := by
  have hle := h.load_le t
  have hold := h.load t
  have heq := hn t
  by_cases ht : t = f.tag
  · subst ht
    rw [hasTag_self] at heq
    exact ⟨by omega, by omega⟩
  · rw [AList.lookup_erase_ne ht]
    exact ⟨by omega, fun _ => rfl⟩

/-- A free tag is given to a request that is dispatched. -/
theorem Inv.allocate (h : Inv cm sm s) (hclient : Transport.Inv c) {q : Transport.Request}
    (hh : s.client.handle = .select) (hq : s.client.requests[r]? = some q)
    (hpc : q.pc = .dispatching) (ht : s.client.outstanding.lookup t = none)
    (hout : c.outstanding = s.client.outstanding.insert t r)
    (hhandle : c.handle = .writing r (newFcall t q.call.message))
    (hreader : c.reader = s.client.reader)
    (hreq : Transport.RequestsFollow P s.client.requests c.requests) (hP : ∀ r b, ¬ P r b) :
    Inv cm sm { s with client := c } := by
  have hfresh : EndToEnd.load s t = 0 := by
    have := h.load t
    rw [ht] at this
    simpa using this
  have hload : ∀ t', EndToEnd.load { s with client := c } t' =
      EndToEnd.load s t' + hasTag t' (newFcall t q.call.message) := by
    intro t'
    simp only [EndToEnd.load, placeLoad, handleLoad, hh, hhandle, hreader]
    omega
  have htag : ∀ t', hasTag t' (newFcall t q.call.message) = if t = t' then 1 else 0 := fun _ => rfl
  have hkeep : ∀ {p r' f}, Tok s p r' f →
      c.outstanding.lookup f.tag = s.client.outstanding.lookup f.tag := by
    intro p r' f hold
    rw [hout]
    refine AList.lookup_insert_ne fun heq => ?_
    have := hold.load_pos
    rw [heq, hfresh] at this
    exact Nat.lt_irrefl 0 this
  refine h.advance hclient h.server rfl rfl (List.Subset.refl _) hreq
    (fun r q b hp => absurd hp (hP r b)) ?_ ?_ (by simp [hhandle])
  · intro t'
    have hold := h.load t'
    rw [hload, hout, htag]
    by_cases heq : t' = t
    · subst heq
      rw [hfresh, AList.lookup_insert]
      simp
    · rw [AList.lookup_insert_ne heq, if_neg (Ne.symm heq)]
      exact hold
  · intro p r' f htok
    suffices hcase : Tok s p r' f ∨ Owned cm sm { s with client := c } p r' f from
      hcase.imp_left fun hold => ⟨hold, hkeep hold⟩
    cases p with
    | sending =>
        cases hhandle.symm.trans htok
        obtain ⟨q', hq', hf⟩ := hreq.forward r q hq
        refine Or.inr ⟨?_, q', hq', by rw [hf.call]; rfl, fun hm => ?_⟩
        · rw [hout]
          exact AList.lookup_insert _
        · obtain ⟨p, hp, hne⟩ := h.dispatched r hm
          rw [hq] at hp
          cases hp
          exact hne hpc
    | received => exact Or.inl ⟨hreader.symm.trans htok.1, htok.2⟩
    | up | offered | table | answering | down => exact Or.inl htok

theorem Inv.clientStep {a : Transport.Act} (h : Inv cm sm s) (hlink : a.onLink = false)
    (hstep : Transport.Step s.client a c) : Inv cm sm { s with client := c } := by
  have hclient := h.client.step hstep
  have hreq := hstep.requests h.client
  have hpanic := h.notPanicked
  cases hstep with
  | call | cancel _ _ | sendClosed _ _ _ | sendCtxDone _ _ _ | sendErr _ _ _ | sendResponse _ _ _
  | depleted _ _ _ _ | cancelCtx _ | close | readRetry _ =>
      exact h.clientQuiet hclient hreq (by simp) rfl (fun _ _ hw => hw) (fun _ hr => hr) hpanic
  | handleShutdown _ _ | handleCtxDone _ _ =>
      exact h.clientQuiet hclient hreq (by simp) rfl (fun _ _ hw => by cases hw) (fun _ hr => hr)
        (fun _ hp => by cases hp)
  | readFail _ | readerCtxDone _ _ | readerClosed _ _ =>
      exact h.clientQuiet hclient hreq (by simp) rfl (fun _ _ hw => hw) (fun _ hr => by cases hr)
        hpanic
  | writeOk _ | readOk _ => cases hlink
  | dispatch hh hq hpc halloc =>
      exact h.allocate hclient hh hq hpc (Transport.allocateTag_free halloc) rfl rfl rfl hreq
        (by simp)
  | @writeFail r f err hw =>
      have hload : ∀ t, EndToEnd.load { s with client := { s.client with
          handle := .select, outstanding := s.client.outstanding.erase f.tag }.fail r err } t +
          hasTag t f = EndToEnd.load s t := by
        intro t
        simp only [EndToEnd.load, placeLoad, handleLoad, hw, Transport.State.fail]
        omega
      exact h.clientShrink hclient hreq (by simp) (fun _ _ hw => by cases hw) (fun _ hr => hr)
        (fun t => (h.load_erase hload t).1) (fun t => (h.load_erase hload t).2)
        (fun _ hp => by cases hp)
  | @deliver b r hh hr hl =>
      have hload : ∀ t, EndToEnd.load { s with client := { s.client with
          reader := .reading, outstanding := s.client.outstanding.erase b.tag }.respond r b } t +
          hasTag t b = EndToEnd.load s t := by
        intro t
        simp only [EndToEnd.load, placeLoad, receivedLoad, hr, Transport.State.respond]
        omega
      refine h.clientShrink hclient hreq ?_ (fun _ _ hw => hw) (fun _ hr => by cases hr)
        (fun t => (h.load_erase hload t).1) (fun t => (h.load_erase hload t).2) hpanic
      rintro r' q' b' ⟨-, hb, hl'⟩ hq'
      obtain ⟨hown, q, hq, hgood⟩ := h.tokens .received s.received b' ⟨hb, rfl⟩
      rw [hl'] at hown
      cases hown
      rw [hq'] at hq
      cases hq
      exact hgood
  | @unknownTag b hh hr hl =>
      obtain ⟨hown, -⟩ := h.tokens .received s.received b ⟨hr, rfl⟩
      rw [hl] at hown
      cases hown

/-! ## Steps of the server -/

theorem Call.message_type (c : Call) (t oldtag : Tag) :
    (newFcall t c.message).type ≠ (Message.tflush oldtag).type := by
  cases c <;> simp [newFcall, Call.message, Message.type]

/-- The client keeps its tags apart and sends no `Tflush`. -/
theorem Inv.orderly (h : Inv cm sm s) (a : Conn.Act) : Conn.Orderly s.server a := by
  cases a with
  | accept =>
      intro req hreader
      have htok : Tok s .offered s.offered req := ⟨hreader, rfl⟩
      obtain ⟨-, q, -, hcarried, -⟩ := h.tokens .offered s.offered req htok
      constructor
      · have h₁ := htok.placeLoad_pos
        have h₂ := placeLoad_add_le s req.tag (p := .offered) (w := .table) nofun
        have hle := h.load_le req.tag
        have hzero : tableLoad req.tag s.server = 0 := by
          simp only [placeLoad] at h₁ h₂
          omega
        rw [tableLoad] at hzero
        simpa using hzero
      · exact hcarried.not_tflush (Call.message_type q.call req.tag)
  | _ => trivial

theorem offeredLoad_le {c c' : Conn.ReaderPc} (h : ∀ f, c' = .offering f → c = .offering f) :
    offeredLoad t c' ≤ offeredLoad t c := by
  cases hc : c' with
  | offering f => rw [h f hc]
  | reading | returned => exact Nat.zero_le _

theorem answeringLoad_le {c c' : Conn.WriterPc} (h : ∀ f, c' = .writing f → c = .writing f) :
    answeringLoad t c' ≤ answeringLoad t c := by
  cases hc : c' with
  | writing f => rw [h f hc]
  | select | returned => exact Nat.zero_le _

theorem tableLoad_le {v' : Conn.State} (h : ∀ i, v'.tags t = some i → v.tags t = some i) :
    tableLoad t v' ≤ tableLoad t v := by
  rw [tableLoad, tableLoad]
  cases hv : v'.tags t with
  | none => exact Nat.zero_le _
  | some i => rw [h i hv]

/-- The server drops messages or keeps them, and the link to it may be shorter. -/
theorem Inv.serverShrink (h : Inv cm sm s) (hcalm : Conn.Calm v)
    (hlen : v.handlers.length = s.server.handlers.length)
    (hreqs : ∀ i, v.req? i = s.server.req? i)
    (htags : ∀ t i, v.tags t = some i → s.server.tags t = some i)
    (hreader : ∀ f, v.reader = .offering f → s.server.reader = .offering f)
    (hwriter : ∀ f, v.writer = .writing f → s.server.writer = .writing f)
    (hlog : s.server.log ⊆ v.log) (hup : up ⊆ s.up)
    (hupload : ∀ t, linkLoad t up ≤ linkLoad t s.up) :
    Inv cm sm { s with server := v, up := up } := by
  refine h.advance h.client hcalm hlen rfl hlog (.refl (fun _ _ => False) _)
    (fun _ _ _ hp => hp.elim) ?_ ?_ h.notPanicked
  · intro t
    refine Nat.le_trans ?_ (h.load t)
    have h₁ := offeredLoad_le (t := t) hreader
    have h₂ := answeringLoad_le (t := t) hwriter
    have h₃ := tableLoad_le (t := t) (htags t)
    have h₄ := hupload t
    simp only [EndToEnd.load, placeLoad]
    omega
  · intro p r f ht
    refine Or.inl ⟨?_, rfl⟩
    cases p with
    | up => exact hup ht
    | offered => exact ⟨hreader f ht.1, ht.2⟩
    | table =>
        obtain ⟨i, hi, hr, ho⟩ := ht
        exact ⟨i, htags f.tag i hi, (hreqs i).symm.trans hr, ho⟩
    | answering => exact ⟨hwriter f ht.1, ht.2⟩
    | sending | down | received => exact ht

theorem serverStep_eq (s : State) (hlen : v.handlers.length = s.server.handlers.length)
    (ha : a ≠ .handover) : s.serverStep a v = { s with server := v } := by
  unfold State.serverStep
  rw [if_neg (by omega)]
  cases a with
  | handover => exact absurd rfl ha
  | _ => rfl

theorem Inv.serverQuiet (h : Inv cm sm s) (hcalm : Conn.Calm v) (ha : a ≠ .handover)
    (hlen : v.handlers.length = s.server.handlers.length)
    (hreqs : ∀ i, v.req? i = s.server.req? i)
    (htags : ∀ t i, v.tags t = some i → s.server.tags t = some i)
    (hreader : ∀ f, v.reader = .offering f → s.server.reader = .offering f)
    (hwriter : ∀ f, v.writer = .writing f → s.server.writer = .writing f)
    (hlog : s.server.log ⊆ v.log) : Inv cm sm (s.serverStep a v) := by
  rw [serverStep_eq s hlen ha]
  exact h.serverShrink hcalm hlen hreqs htags hreader hwriter hlog (List.Subset.refl _)
    fun _ => Nat.le_refl _

/-- The loop hands an answer to the writer. -/
theorem Inv.send (h : Inv cm sm s) {active src : Nat}
    (hserve : s.server.serve = .handing resp active src) (hwriter : s.server.writer = .select)
    (hcalm : Conn.Calm v)
    (hv : v = { s.server.untag resp.tag with
      serve := .select, writer := .writing resp, log := s.server.log ++ [.sent src resp] }) :
    Inv cm sm (s.serverStep .handover v) := by
  obtain ⟨htag, req, res, hreq, hres, hresp⟩ := h.server.inv.handing resp active src hserve
  obtain ⟨req', hreq', -, hlast⟩ := h.server.inv.registered resp.tag src htag
  rw [hreq] at hreq'
  cases hreq'
  have htag' : req.tag = resp.tag := by rw [hresp, Conn.respond_tag]
  obtain ⟨r, hr⟩ : ∃ r, s.origin[src]? = some r := by
    have hlt := Conn.State.req?_eq_some_lt hreq
    rw [← h.origins] at hlt
    exact ⟨_, List.getElem?_eq_getElem hlt⟩
  obtain ⟨hown, q, hq, hcarried⟩ := h.tokens .table r req ⟨src, htag' ▸ htag, hreq, hr⟩
  have hlen : v.handlers.length = s.server.handlers.length := by rw [hv]; rfl
  have hstep : s.serverStep .handover v = { s with server := v, answering := r } := by
    unfold State.serverStep
    rw [if_neg (by omega), hserve]
    simp only [List.getD_eq_getElem?_getD, hr, Option.getD_some]
  rw [hstep]
  have hlog : s.server.log ⊆ v.log := by
    rw [hv]
    exact List.subset_append_left _ _
  refine h.advance h.client hcalm hlen rfl hlog (.refl (fun _ _ => False) _)
    (fun _ _ _ hp => hp.elim) ?_ ?_ h.notPanicked
  · intro t
    have htable : tableLoad t v + hasTag t resp = tableLoad t s.server := by
      have htags : v.tags t = if t = resp.tag then none else s.server.tags t := by
        rw [hv]
        exact Conn.State.untag_tags s.server resp.tag t
      rw [tableLoad, tableLoad, htags]
      by_cases heq : t = resp.tag
      · subst heq
        rw [if_pos rfl, htag, hasTag_self]
        rfl
      · rw [if_neg heq, hasTag, if_neg (Ne.symm heq), Nat.add_zero]
    have hold := h.load t
    have hreader : v.reader = s.server.reader := by rw [hv]; rfl
    have hwriter' : v.writer = .writing resp := by rw [hv]
    simp only [EndToEnd.load, placeLoad, hwriter, hwriter', hreader, answeringLoad] at hold ⊢
    omega
  · intro p r' f ht
    cases p with
    | answering =>
        obtain ⟨hw, hr'⟩ := ht
        have hf : Conn.WriterPc.writing resp = .writing f := by rw [← hw, hv]
        cases hf
        obtain rfl : r' = r := hr'
        refine Or.inr ⟨htag' ▸ hown, q, hq, src, req, res, hr, htag' ▸ hcarried, ?_, ?_, hresp⟩
        · exact hlog (Conn.lastAccepted_mem hlast)
        · exact hlog (h.server.inv.handled src res hres)
    | table =>
        obtain ⟨i, hi, hreqi, ho⟩ := ht
        have hi' : (s.server.untag resp.tag).tags f.tag = some i := by
          rw [← hi, hv]
        have hreqi' : s.server.req? i = some f := by
          rw [← hreqi, hv]
          rfl
        exact Or.inl ⟨⟨i, (Conn.untag_some hi').2, hreqi', ho⟩, rfl⟩
    | offered =>
        have hreader : v.reader = s.server.reader := by rw [hv]; rfl
        exact Or.inl ⟨⟨hreader.symm.trans ht.1, ht.2⟩, rfl⟩
    | sending | up | down | received => exact Or.inl ⟨ht, rfl⟩

/-- A request is accepted: it leaves the reader and enters the table. -/
theorem Inv.start (h : Inv cm sm s) (hreader : s.server.reader = .offering req)
    (htag : s.server.tags req.tag = none) (hcalm : Conn.Calm v)
    (hv : v = { s.server.start req with reader := .reading }) :
    Inv cm sm (s.serverStep .accept v) := by
  have htok : Tok s .offered s.offered req := ⟨hreader, rfl⟩
  obtain ⟨hown, q, hq, hcarried, hfresh⟩ := h.tokens .offered s.offered req htok
  have hlen : v.handlers.length = s.server.handlers.length + 1 := by
    rw [hv]
    simp [Conn.State.start]
  have hstep : s.serverStep .accept v =
      { s with server := v, origin := s.origin ++ [s.offered] } := by
    unfold State.serverStep
    rw [if_pos (by omega)]
  have hlog : s.server.log ⊆ v.log := by
    rw [hv]
    exact List.subset_append_left _ _
  have hserved : ∀ {r m resp}, Served cm sm s r m resp →
      Served cm sm { s with server := v, origin := s.origin ++ [s.offered] } r m resp :=
    fun hs => hs.mono (List.prefix_append _ _) hlog
  -- a request that waits elsewhere on the way to the server is another one
  have hother : ∀ {p r f}, p ≠ .offered → Tok s p r f → r ∉ s.origin →
      r ∉ s.origin ++ [s.offered] := by
    intro p r f hp ht hr hm
    rcases List.mem_append.mp hm with hm | hm
    · exact hr hm
    · cases List.mem_singleton.mp hm
      exact h.tag_ne hp ht htok (h.client.injective f.tag req.tag _ (h.tokens p _ f ht).1 hown)
  have htags : ∀ t, v.tags t = if t = req.tag then some s.server.handlers.length
      else s.server.tags t := by
    intro t
    rw [hv]
    exact Conn.State.start_tags s.server req t
  have hreqs : ∀ i, v.req? i = if i = s.server.handlers.length then some req
      else s.server.req? i := by
    intro i
    rw [hv]
    exact Conn.State.start_req? s.server i req
  rw [hstep]
  refine ⟨h.client, hcalm, ?_, ?_, ?_, ?_, ?_, ?_, h.notPanicked⟩
  · rw [List.length_append, hlen, h.origins]
    rfl
  · exact List.nodup_append.mpr ⟨h.nodup, List.nodup_singleton _, fun r hr r' hr' heq =>
      hfresh (List.mem_singleton.mp hr' ▸ heq ▸ hr)⟩
  · intro r hr
    rcases List.mem_append.mp hr with hr | hr
    · exact h.dispatched r hr
    · cases List.mem_singleton.mp hr
      obtain ⟨q', hq', hpc, -⟩ := h.client.owned req.tag s.offered hown
      exact ⟨q', hq', hpc⟩
  · intro t
    refine Nat.le_trans (Nat.le_of_eq ?_) (h.load t)
    have htable : tableLoad t v = tableLoad t s.server + hasTag t req := by
      rw [tableLoad, tableLoad, htags]
      by_cases heq : t = req.tag
      · subst heq
        rw [if_pos rfl, htag, hasTag_self]
        rfl
      · rw [if_neg heq, hasTag, if_neg (Ne.symm heq), Nat.add_zero]
    have hr : v.reader = .reading := by rw [hv]
    have hw : v.writer = s.server.writer := by rw [hv]; rfl
    simp only [EndToEnd.load, placeLoad, hreader, hr, hw, offeredLoad, htable]
    omega
  · intro p r f ht
    cases p with
    | sending =>
        obtain ⟨hl, q', hq', hgood, hr⟩ := h.tokens .sending r f ht
        exact ⟨hl, q', hq', hgood, hother (p := .sending) (by rintro ⟨⟩) ht hr⟩
    | up =>
        obtain ⟨hl, q', hq', hgood, hr⟩ := h.tokens .up r f ht
        exact ⟨hl, q', hq', hgood, hother (p := .up) (by rintro ⟨⟩) ht hr⟩
    | offered =>
        have hr : v.reader = .reading := by rw [hv]
        cases hr.symm.trans ht.1
    | table =>
        obtain ⟨i, hi, hr, ho⟩ := ht
        rw [htags] at hi
        rw [hreqs] at hr
        split at hi
        · cases hi
          rw [if_pos rfl] at hr
          cases hr
          rw [List.getElem?_append_right (Nat.le_of_eq h.origins), h.origins, Nat.sub_self] at ho
          cases ho
          exact ⟨hown, q, hq, hcarried⟩
        · have hlt : i < s.server.handlers.length := by
            obtain ⟨req', hreq', -⟩ := h.server.inv.registered f.tag i hi
            exact Conn.State.req?_eq_some_lt hreq'
          rw [if_neg (Nat.ne_of_lt hlt)] at hr
          rw [List.getElem?_append_left (h.origins ▸ hlt)] at ho
          exact h.tokens .table r f ⟨i, hi, hr, ho⟩
    | answering =>
        have hw : v.writer = s.server.writer := by rw [hv]; rfl
        obtain ⟨hl, q', hq', hgood⟩ := h.tokens .answering r f ⟨hw.symm.trans ht.1, ht.2⟩
        exact ⟨hl, q', hq', hserved hgood⟩
    | down =>
        obtain ⟨hl, q', hq', resp, hs, hgood⟩ := h.tokens .down r f ht
        exact ⟨hl, q', hq', resp, hserved hs, hgood⟩
    | received =>
        obtain ⟨hl, q', hq', resp, hs, hgood⟩ := h.tokens .received r f ht
        exact ⟨hl, q', hq', resp, hserved hs, hgood⟩
  · intro r q' b hq' hb
    obtain ⟨resp, hs, hc⟩ := h.delivered r q' b hq' hb
    exact ⟨resp, hserved hs, hc⟩

theorem Inv.serverStep (h : Inv cm sm s) (hlink : a.onLink = false)
    (hstep : Conn.Step s.server a v) : Inv cm sm (s.serverStep a v) := by
  have hcalm : Conn.Calm v := h.server.step hstep (h.orderly a)
  have hsub : s.server.log ⊆ s.server.log := List.Subset.refl _
  cases hstep with
  | readOk _ | writeOk _ => cases hlink
  | send hserve hwriter => exact h.send hserve hwriter hcalm rfl
  | start hr _ htag _ => exact h.start hr htag hcalm rfl
  | refuse hr _ htag =>
      rw [(h.orderly .accept _ hr).1] at htag
      cases htag
  | flush hr _ _ hmsg _ | flushUnknown hr _ _ hmsg _ =>
      exact absurd hmsg ((h.orderly .accept _ hr).2 _)
  | sendRefusal hserve _ => exact absurd hserve (h.server.neverRefusing _)
  | sendFlush hserve _ => exact absurd hserve (h.server.neverFlushing _ _)
  | readRetry _ | readerClosed _ _ | writeRetry _ | writerClosed _ _ | cancelCtx _ =>
      exact h.serverQuiet hcalm (by rintro ⟨⟩) rfl (fun _ => rfl) (fun _ _ ht => ht) (by simp)
        (by simp) hsub
  | readFail _ | readerCtxDone _ _ | writeFail _ | writerCtxDone _ _ | close =>
      exact h.serverQuiet hcalm (by rintro ⟨⟩) (by simp) (by simp [Conn.State.req?]) (by simp)
        (by simp) (by simp) (by simp)
  | abandon _ _ =>
      exact h.serverQuiet hcalm (by rintro ⟨⟩) rfl (fun _ => rfl)
        (fun _ _ ht => (Conn.untag_some ht).2) (fun _ hr => hr) (fun _ hw => hw) hsub
  | serveCtxDone _ _ | serveClosed _ _ =>
      exact h.serverQuiet hcalm (by rintro ⟨⟩) (by simp [Conn.State.serveReturn]) (by simp)
        (fun _ _ ht => ht) (fun _ hr => hr) (fun _ hw => hw) hsub
  | complete _ hi _ _ _ | drop _ hi _ _ _ | handlerCtxDone hi _ _ _ | handlerClosed hi _ _ _ =>
      exact h.serverQuiet hcalm (by rintro ⟨⟩) (Conn.State.setHandler_length _ _ _)
        (Conn.State.setHandler_req? hi rfl) (fun _ _ ht => ht) (fun _ hr => hr) (fun _ hw => hw)
        hsub
  | handled hi _ =>
      exact h.serverQuiet hcalm (by rintro ⟨⟩) (Conn.State.setHandler_length _ _ _)
        (Conn.State.setHandler_req? hi rfl) (fun _ _ ht => ht) (fun _ hr => hr) (fun _ hw => hw)
        (List.subset_append_left _ _)

/-! ## The link -/

theorem mem_of_eq_cons (h : l = x :: l') : x ∈ l := by
  rw [h]
  exact List.mem_cons_self

theorem subset_of_eq_cons (h : l = x :: l') : l' ⊆ l := by
  rw [h]
  exact List.subset_cons_self _ _

theorem Inv.clientWrite (h : Inv cm sm s) (hw : s.client.handle = .writing r f)
    (hon : onWire cm f = .ok w) :
    Inv cm sm { s with
      client := { s.client with handle := .select }, up := s.up ++ [(r, w)] } := by
  obtain ⟨hown, q, hq, hf, hfresh⟩ := h.tokens .sending r f hw
  have htag : w.tag = f.tag := maybeTruncate_tag hon
  have hframe : Transport.Inv { s.client with handle := .select } :=
    h.client.frame rfl rfl (Or.inr fun _ _ hp => by cases hp)
  refine h.advance hframe h.server rfl rfl (List.Subset.refl _)
    (.refl (fun _ _ => False) _) (fun _ _ _ hp => hp.elim) ?_ ?_ (fun _ hp => by cases hp)
  · intro t
    refine Nat.le_trans (Nat.le_of_eq ?_) (h.load t)
    simp only [EndToEnd.load, placeLoad, hw, handleLoad, linkLoad_append, hasTag_congr htag]
    omega
  · intro p r' f' ht
    cases p with
    | sending => cases ht
    | up =>
        rcases List.mem_append.mp ht with hold | hnew
        · exact Or.inl ⟨hold, rfl⟩
        · cases List.mem_singleton.mp hnew
          exact Or.inr ⟨htag ▸ hown, q, hq, by rw [htag, ← hf, hon], hfresh⟩
    | offered | table | answering | down | received => exact Or.inl ⟨ht, rfl⟩

theorem Inv.serverRead (h : Inv cm sm s) (hup : s.up = (r, w) :: up)
    (hoff : offWire sm w = .ok req) (hreader : s.server.reader = .reading) :
    Inv cm sm { s with
      server := { s.server with reader := .offering req }, up := up, offered := r } := by
  obtain ⟨hown, q, hq, hon, hfresh⟩ := h.tokens .up r w (mem_of_eq_cons hup)
  have htag : req.tag = w.tag := offWire_tag hoff
  refine h.advance h.client (h.server.step (.readOk hreader) trivial) rfl rfl (List.Subset.refl _)
    (.refl (fun _ _ => False) _) (fun _ _ _ hp => hp.elim) ?_ ?_ h.notPanicked
  · intro t
    refine Nat.le_trans (Nat.le_of_eq ?_) (h.load t)
    simp only [EndToEnd.load, placeLoad, hreader, offeredLoad, hup, linkLoad_cons,
      hasTag_congr htag, tableLoad]
    omega
  · intro p r' f' ht
    cases p with
    | up => exact Or.inl ⟨subset_of_eq_cons hup ht, rfl⟩
    | offered =>
        obtain ⟨heq, rfl⟩ := ht
        cases heq
        exact Or.inr ⟨htag ▸ hown, q, hq, ⟨w, htag ▸ hon, hoff⟩, hfresh⟩
    | sending | table | answering | down | received => exact Or.inl ⟨ht, rfl⟩

theorem Inv.serverReadFail (h : Inv cm sm s) {err : Err} (hup : s.up = (r, w) :: up)
    (hstep : Conn.Step s.server (.readFail err) v) :
    Inv cm sm { s with server := v, up := up } := by
  have hcalm := h.server.step hstep trivial
  cases hstep with
  | readFail _ =>
      refine h.serverShrink hcalm (by simp) (by simp [Conn.State.req?]) (by simp) (by simp)
        (by simp) (by simp) (subset_of_eq_cons hup) fun t => ?_
      rw [hup, linkLoad_cons]
      exact Nat.le_add_left _ _

theorem Inv.serverWrite (h : Inv cm sm s) (hw : s.server.writer = .writing resp)
    (hon : onWire sm resp = .ok w) :
    Inv cm sm { s with
      server := { s.server with writer := .select }, down := s.down ++ [(s.answering, w)] } := by
  obtain ⟨hown, q, hq, hserved⟩ := h.tokens .answering s.answering resp ⟨hw, rfl⟩
  have htag : w.tag = resp.tag := maybeTruncate_tag hon
  refine h.advance h.client (h.server.step (.writeOk hw) trivial) rfl rfl (List.Subset.refl _)
    (.refl (fun _ _ => False) _) (fun _ _ _ hp => hp.elim) ?_ ?_ h.notPanicked
  · intro t
    refine Nat.le_trans (Nat.le_of_eq ?_) (h.load t)
    simp only [EndToEnd.load, placeLoad, hw, answeringLoad, linkLoad_append, hasTag_congr htag,
      tableLoad]
    omega
  · intro p r' f' ht
    cases p with
    | answering => cases ht.1
    | down =>
        rcases List.mem_append.mp ht with hold | hnew
        · exact Or.inl ⟨hold, rfl⟩
        · cases List.mem_singleton.mp hnew
          exact Or.inr ⟨htag ▸ hown, q, hq, resp, hserved, hon⟩
    | sending | up | offered | table | received => exact Or.inl ⟨ht, rfl⟩

theorem Inv.clientRead (h : Inv cm sm s) (hdown : s.down = (r, w) :: down)
    (hoff : offWire cm w = .ok resp) (hreader : s.client.reader = .reading) :
    Inv cm sm { s with
      client := { s.client with reader := .offering resp }, down := down, received := r } := by
  obtain ⟨hown, q, hq, resp₀, hserved, hon⟩ := h.tokens .down r w (mem_of_eq_cons hdown)
  have htag : resp.tag = w.tag := offWire_tag hoff
  refine h.advance (h.client.frame rfl rfl (Or.inl rfl)) h.server rfl rfl (List.Subset.refl _)
    (.refl (fun _ _ => False) _) (fun _ _ _ hp => hp.elim) ?_ ?_ h.notPanicked
  · intro t
    refine Nat.le_trans (Nat.le_of_eq ?_) (h.load t)
    simp only [EndToEnd.load, placeLoad, hreader, receivedLoad, hdown, linkLoad_cons,
      hasTag_congr htag]
    omega
  · intro p r' f' ht
    cases p with
    | down => exact Or.inl ⟨subset_of_eq_cons hdown ht, rfl⟩
    | received =>
        obtain ⟨heq, rfl⟩ := ht
        cases heq
        exact Or.inr ⟨htag ▸ hown, q, hq, resp₀, hserved, w, hon, hoff⟩
    | sending | up | offered | table | answering => exact Or.inl ⟨ht, rfl⟩

theorem Inv.clientReadFail (h : Inv cm sm s) (hdown : s.down = (r, w) :: down)
    (hreader : s.client.reader = .reading) :
    Inv cm sm { s with client := s.client.readerReturn, down := down } := by
  refine h.advance (h.client.frame rfl rfl (Or.inl rfl)) h.server rfl rfl (List.Subset.refl _)
    (.refl (fun _ _ => False) _) (fun _ _ _ hp => hp.elim) ?_ ?_ h.notPanicked
  · intro t
    refine Nat.le_trans ?_ (h.load t)
    simp only [EndToEnd.load, placeLoad, hreader, receivedLoad, Transport.State.readerReturn,
      hdown, linkLoad_cons]
    omega
  · intro p r' f' ht
    cases p with
    | down => exact Or.inl ⟨subset_of_eq_cons hdown ht, rfl⟩
    | received => cases ht.1
    | sending | up | offered | table | answering => exact Or.inl ⟨ht, rfl⟩

/-! ## Runs -/

theorem Inv.step {a : Act} (h : Inv cm sm s) (hstep : Step cm sm s a s') : Inv cm sm s' := by
  cases hstep with
  | client hlink hc => exact h.clientStep hlink hc
  | server hlink hv => exact h.serverStep hlink hv
  | clientWrite hw hon => exact h.clientWrite hw hon
  | serverRead hup hoff hr => exact h.serverRead hup hoff hr
  | serverReadFail hup _ hv => exact h.serverReadFail hup hv
  | serverWrite hw hon => exact h.serverWrite hw hon
  | clientRead hdown hoff hr => exact h.clientRead hdown hoff hr
  | clientReadFail hdown _ hr => exact h.clientReadFail hdown hr

end Invariant

/-- What client and server agree on. -/
structure Agreement (cm sm : Nat) (s : State) : Prop where
  /-- A response delivered to request `r` is the response the server built from
  the answer of a handler started for `r`, with `r`'s message. -/
  answered : ∀ (r : Nat) (q : Transport.Request) b, s.client.requests[r]? = some q →
    b ∈ q.response → ∃ resp, Served cm sm s r q.call.message resp ∧ Carried sm cm resp b
  /-- At most one handler is started for a request. -/
  oneHandler : s.origin.Nodup
  /-- The two channels of a request together receive at most one value. -/
  oneReply : ∀ (r : Nat) (q : Transport.Request), s.client.requests[r]? = some q →
    q.response.length + q.err.length ≤ 1
  /-- The client's "unknown tag" panic is not reached. -/
  knownTag : ∀ b, s.client.handle ≠ .panicked b
  /-- The server has not answered `ErrDuptag`, and is not about to. -/
  noDuptag : ∀ resp, .refused resp ∉ s.server.log ∧ s.server.serve ≠ .refusing resp

/-- Client and server agree after every run: for any number of `send` calls,
cancelled at any point, and any order of the handlers' answers. -/
theorem agreement (cm sm : Nat) (acts : List Act) (s : State)
    (hrun : exec (step cm sm) init acts = some s) : Agreement cm sm s := by
  have h : Inv cm sm s :=
    reachable_invariant (fun hi hs => hi.step (step_cases cm sm hs)) inv_init ⟨acts, hrun⟩
  exact ⟨h.delivered, h.nodup, h.client.settled, h.notPanicked,
    fun resp => ⟨h.server.notRefused resp, h.server.neverRefusing resp⟩⟩

/-- A `Clunk`, from the call to its return, while a `Remove` is cancelled on
the way. -/
def clunkRun : List Act :=
  [.client (.call (.clunk 6)), .client (.call (.remove 7)), .client (.dispatch 0), .clientWrite,
    .client (.dispatch 1), .clientWrite, .client (.cancel 1 (.other (lit "context canceled"))),
    .client (.sendCtxDone 1), .serverRead, .server .accept, .serverRead, .server .accept,
    .server (.handled 1 (.ok .rremove)), .server (.handled 0 (.ok .rclunk)),
    .server (.complete 1), .server .handover, .serverWrite,
    .server (.complete 0), .server .handover, .serverWrite,
    .clientRead, .client .deliver, .clientRead, .client .deliver, .client (.sendResponse 0)]

theorem agreement_clunkRun :
    ∃ s, exec (step 8192 8192) init clunkRun = some s ∧
      s.client.requests.map (·.response) = [[newFcall 1 .rclunk], [newFcall 2 .rremove]] ∧
      Agreement 8192 8192 s :=
  ⟨_, rfl, rfl, agreement 8192 8192 clunkRun _ rfl⟩

end P9p.EndToEnd
