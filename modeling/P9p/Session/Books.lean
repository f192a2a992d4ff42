/-
# The fid table without mutexes

Mutexes do not matter to an operation that runs alone, except that it may lock
one twice.  So its commands are followed on the `Books`: the table without
mutexes, and the log.  No two fids of the books share an `SFid`; this is so in
every session, and the comment on `newRef` says it.

    Store  --books-->  Books  --Effect-->  Move
    exec               after               apply

`books_returns` takes a run of a program from the store to the books.  What a
program does there is said in terms of `Calls`, which leave the table alone,
and of an `Effect`, which is that of a move in the ledger.
-/
import P9p.Session.Handshake
import P9p.Session.Ledger

namespace P9p.Session

open Conc

variable {d : Nat} {f : File} {c : Cmd} {r : c.Res} {m : Move}

/-! ## Dirents obtained and released -/

/-- The `Dirent` that the session obtains with the return of a call: from a
successful `Attach` or `Create`, and from a `Walk` that is complete. -/
def Call.obtains : (c : Call) → c.Res → Option Nat
  | attach _ _ _, (e, none) => e
  | walk _ names, (qids, e, none) => if names = [] ∨ qids.length = names.length then e else none
  | create _ _ _ _, (some e, some _, none) => some e
  | _, _ => none

/-- The `Dirent` that a successful `Create` consumes: the one it is called
on. -/
def Call.consumes : (c : Call) → c.Res → Option Nat
  | create d _ _ _, (some _, some _, none) => some d
  | _, _ => none

def Event.obtains : Event → Option Nat
  | leave _ c r => c.obtains r
  | _ => none

def Event.releases : Event → Option Nat
  | enter _ (.clunk d) | enter _ (.remove d) => some d
  | leave _ c r => c.consumes r
  | _ => none

def obtained (log : List Event) : List Nat := log.filterMap Event.obtains

def released (log : List Event) : List Nat := log.filterMap Event.releases

theorem obtained_append (log es : List Event) :
    obtained (log ++ es) = obtained log ++ obtained es :=
  List.filterMap_append

theorem released_append (log es : List Event) :
    released (log ++ es) = released log ++ released es :=
  List.filterMap_append

/-- The mode of the request, if it opens a file. -/
def Op.openMode : Op → Option Flag
  | «open» _ mode | create _ _ _ mode => some mode
  | _ => none

/-- `f` was made by `Open`, `OpenDir` or `Create` for the `Dirent` `d`.  For
`OpenDir` the mode is that of the request that called it. -/
def OpenedFor (log : List Event) (d : Nat) (f : File) (mode : Flag) : Prop :=
  ∃ t, .leave t (.open d mode) (some f, none) ∈ log ∨
    (.leave t (.openDir d) (f, none) ∈ log ∧ ∃ op, .invoked t op ∈ log ∧ op.openMode = some mode) ∨
    ∃ p name perm, .leave t (.create p name perm mode) (some d, some f, none) ∈ log

theorem OpenedFor.mono {log log' : List Event} (hlog : log ⊆ log') {mode : Flag}
    (h : OpenedFor log d f mode) : OpenedFor log' d f mode := by
  obtain ⟨t, h | ⟨h, op, hop, hmode⟩ | ⟨p, name, perm, h⟩⟩ := h
  · exact ⟨t, Or.inl (hlog h)⟩
  · exact ⟨t, Or.inr (Or.inl ⟨hlog h, op, hlog hop, hmode⟩)⟩
  · exact ⟨t, Or.inr (Or.inr ⟨p, name, perm, hlog h⟩)⟩

theorem IsAuthRef.mono {log log' : List Event} {ref : Nat} (h : IsAuthRef log ref)
    (hlog : log ⊆ log') : IsAuthRef log' ref := by
  obtain ⟨t, fid, op, hop, hauth, hstored⟩ := h
  exact ⟨t, fid, op, hlog hop, hauth, hlog hstored⟩

/-! ## Books -/

def SFid.entry (f : SFid) : Entry := ⟨f.ent, f.file, f.mode⟩

/-- The map from fids to `(Ent, File, Mode)`. -/
def Table.entries (s : Table) : Entries := fun fid => (s.refs fid).map fun ref => (s.sfid ref).entry

/-- Each `SFid` corresponds to exactly one fid. -/
def Table.Distinct (s : Table) : Prop :=
  ∀ fid fid' ref, s.refs fid = some ref → s.refs fid' = some ref → fid = fid'

structure Books where
  refs : Fid → Option Nat
  cell : Nat → Entry
  next : Nat
  calls : Nat
  log : List Event
  bound : ∀ fid ref, refs fid = some ref → ref < next
  distinct : ∀ fid fid' ref, refs fid = some ref → refs fid' = some ref → fid = fid'

theorem Store.ref_lt_next (s : Store) (fid : Fid) (ref : Nat) (h : s.refs fid = some ref) :
    ref < s.next :=
  s.bound h

def Store.books (s : Store) (h : s.Distinct) : Books where
  refs := s.refs
  cell ref := (s.sfid ref).entry
  next := s.next
  calls := s.calls
  log := s.log
  bound := s.ref_lt_next
  distinct := h

namespace Books

def entries (b : Books) : Entries := fun fid => (b.refs fid).map b.cell

def record (b : Books) (ev : Event) : Books := { b with log := b.log ++ [ev] }

/-- Bind `fid` to a new `SFid`. -/
def reserve (b : Books) (fid : Fid) : Books :=
  { b with
    refs := Function.update b.refs fid (some b.next)
    cell := Function.update b.cell b.next ⟨none, none, 0⟩
    next := b.next + 1
    bound := by
      intro fid' ref h
      rcases Custody.of_update_eq_some h with ⟨-, h⟩ | ⟨-, h⟩
      · cases h
        exact Nat.lt_succ_self _
      · exact Nat.lt_succ_of_lt (b.bound fid' ref h)
    distinct := by
      intro fid₁ fid₂ ref h₁ h₂
      rcases Custody.of_update_eq_some h₁ with ⟨hf₁, he₁⟩ | ⟨-, hold₁⟩ <;>
        rcases Custody.of_update_eq_some h₂ with ⟨hf₂, he₂⟩ | ⟨-, hold₂⟩
      · exact hf₁.trans hf₂.symm
      · cases he₁
        exact absurd (b.bound fid₂ _ hold₂) (Nat.lt_irrefl _)
      · cases he₂
        exact absurd (b.bound fid₁ _ hold₁) (Nat.lt_irrefl _)
      · exact b.distinct fid₁ fid₂ ref hold₁ hold₂ }

def erase (b : Books) (fid : Fid) : Books :=
  { b with
    refs := Function.update b.refs fid none
    bound := by
      intro fid' ref h
      rcases Custody.of_update_eq_some h with ⟨-, h⟩ | ⟨-, h⟩
      · cases h
      · exact b.bound fid' ref h
    distinct := by
      intro fid₁ fid₂ ref h₁ h₂
      rcases Custody.of_update_eq_some h₁ with ⟨-, h⟩ | ⟨-, h₁⟩
      · cases h
      · rcases Custody.of_update_eq_some h₂ with ⟨-, h⟩ | ⟨-, h₂⟩
        · cases h
        · exact b.distinct fid₁ fid₂ ref h₁ h₂ }

def write (b : Books) (ref : Nat) (e : Entry) : Books :=
  { b with cell := Function.update b.cell ref e }

theorem write_self (b : Books) (ref : Nat) : b.write ref (b.cell ref) = b := by
  unfold write
  simp only [Function.update_eq_self]

/-- A call and its return. -/
def called (b : Books) (t : Nat) (c : Call) (r : c.Res) : Books :=
  { b with calls := b.calls + 1, log := b.log ++ [.enter t c] ++ [.leave t c r] }

/-- The books after a command that had the result `r`. -/
def after (b : Books) (t : Nat) : (c : Cmd) → c.Res → Books
  | .storeNew fid, some _ => (b.reserve fid).record (.stored t fid b.next)
  | .loadAndDelete fid, some ref => (b.erase fid).record (.took t fid ref)
  | .delete fid, _ => (b.erase fid).record (.deleted t fid (b.refs fid))
  | .setEnt ref ent, _ => b.write ref { b.cell ref with ent }
  | .setFile ref file, _ => b.write ref { b.cell ref with file }
  | .setMode ref mode, _ => b.write ref { b.cell ref with mode }
  | .enter c, _ => b.record (.enter t c)
  | .leave c, r => { b with calls := b.calls + 1, log := b.log ++ [.leave t c r] }
  | _, _ => b

/-- What the result of a command says about the books. -/
def Gives (b : Books) : (c : Cmd) → c.Res → Prop
  | .load fid, r => r = b.refs fid
  | .storeNew fid, r => r = none ∨ r = some b.next ∧ b.refs fid = none
  | .loadAndDelete fid, r => r = b.refs fid
  | .getEnt ref, r => r = (b.cell ref).ent
  | .getFile ref, r => r = (b.cell ref).file
  | .getMode ref, r => r = (b.cell ref).mode
  | .leave c, r => ∃ reply, r = c.answer b.calls reply
  | _, _ => True

end Books

/-! ## From the store to the books -/

variable {α β : Type} {s s' : Store} {t : Nat} {b b' : Books}

/-- An assignment to the fields of an `SFid`. -/
theorem Store.books_modify (s : Store) (h : s.Distinct) (ref : Nat) (g : SFid → SFid) :
    (s.modify ref g).books h = (s.books h).write ref (g (s.sfid ref)).entry := by
  have hcell : (fun ref' => ((s.modify ref g).sfid ref').entry) =
      Function.update (fun ref' => (s.sfid ref').entry) ref (g (s.sfid ref)).entry :=
    Function.comp_update SFid.entry ..
  unfold Store.books Books.write
  simp only [hcell]
  rfl

/-- In particular, a mutex is not in the books. -/
theorem Store.books_modify_owner (s : Store) (h : s.Distinct) (ref : Nat) (o : Option Nat) :
    (s.modify ref fun g => { g with owner := o }).books h = s.books h := by
  rw [s.books_modify h]
  exact (s.books h).write_self ref

theorem Store.books_bindNew (s : Store) (h : s.Distinct) (fid : Fid) :
    ∃ h', (s.bindNew t fid).books h' = (s.books h).reserve fid := by
  have hcell : (fun ref => ((s.bindNew t fid).sfid ref).entry) =
      Function.update (fun ref => (s.sfid ref).entry) s.next ⟨none, none, 0⟩ :=
    Function.comp_update SFid.entry ..
  refine ⟨((s.books h).reserve fid).distinct, ?_⟩
  unfold Store.books Books.reserve
  simp only [hcell]
  rfl

theorem exec_books {e : Env} (h : s.Distinct) (hexec : exec s t c e = some (r, s')) :
    ∃ h', (s.books h).Gives c r ∧ s'.books h' = (s.books h).after t c r := by
  cases c with
  | storeNew fid =>
      rcases exec_storeNew hexec with ⟨rfl, rfl⟩ | ⟨hfree, rfl, rfl⟩
      · exact ⟨h, Or.inl rfl, rfl⟩
      · obtain ⟨h', heq⟩ := s.books_bindNew h fid
        exact ⟨h', Or.inr ⟨rfl, hfree⟩, congrArg (Books.record · _) heq⟩
  | loadAndDelete fid =>
      simp only [exec] at hexec
      split at hexec
      · rename_i hnone
        cases hexec
        exact ⟨h, hnone.symm, rfl⟩
      · rename_i ref hsome
        cases hexec
        exact ⟨((s.books h).erase fid).distinct, hsome.symm, rfl⟩
  | delete fid =>
      cases hexec
      exact ⟨((s.books h).erase fid).distinct, trivial, rfl⟩
  | lock ref =>
      obtain ⟨-, rfl⟩ := exec_lock hexec
      exact ⟨h, trivial, s.books_modify_owner h ref (some t)⟩
  | unlock ref =>
      obtain rfl := exec_unlock hexec
      exact ⟨h, trivial, s.books_modify_owner h ref none⟩
  | setEnt ref ent | setFile ref file | setMode ref mode =>
      cases hexec
      exact ⟨h, trivial, s.books_modify h ref _⟩
  | load fid | getEnt ref | getFile ref | getMode ref =>
      cases hexec
      exact ⟨h, rfl, rfl⟩
  | enter c =>
      cases hexec
      exact ⟨h, trivial, rfl⟩
  | leave c =>
      cases hexec
      exact ⟨h, ⟨e c, rfl⟩, rfl⟩

/-- What a command does to the books. -/
def Books.Step (t : Nat) (b : Books) (c : Cmd) (r : c.Res) (b' : Books) : Prop :=
  b.Gives c r ∧ b' = b.after t c r

/-- `b` are the books of `s`. -/
def Store.HasBooks (s : Store) (b : Books) : Prop := ∃ hs : s.Distinct, b = s.books hs

theorem CanExec.books (hb : s.HasBooks b) (h : CanExec exec t s c r s') :
    ∃ b', Books.Step t b c r b' ∧ s'.HasBooks b' := by
  obtain ⟨hs, rfl⟩ := hb
  obtain ⟨e, hexec⟩ := h
  obtain ⟨hs', hgives, heq⟩ := exec_books hs hexec
  exact ⟨s'.books hs', ⟨hgives, heq⟩, hs', rfl⟩

theorem books_returns {p : M α} {a : α} (h : Returns (CanExec exec t) p s a s')
    (hs : s.Distinct) : ∃ hs', Returns (Books.Step t) p (s.books hs) a (s'.books hs') := by
  have hsim := h.simulate Store.HasBooks CanExec.books ⟨hs, rfl⟩
  obtain ⟨_, hret, hs', rfl⟩ := hsim
  exact ⟨hs', hret⟩

/-! ## The helpers of the operations, on the books -/

namespace Books

/-- From `b` to `b'` there were only calls; they obtained the `Dirent`s `g` and
released `l`. -/
structure Calls (g l : List Nat) (b b' : Books) : Prop where
  refs : b'.refs = b.refs
  cell : b'.cell = b.cell
  next : b'.next = b.next
  log : b.log ⊆ b'.log
  obtained : Session.obtained b'.log = Session.obtained b.log ++ g
  released : Session.released b'.log = Session.released b.log ++ l

variable {g l g' l' : List Nat} {b₁ : Books}

theorem Calls.refl (b : Books) : Calls [] [] b b :=
  ⟨rfl, rfl, rfl, fun _ => id, (List.append_nil _).symm, (List.append_nil _).symm⟩

theorem Calls.trans (h : Calls g l b b₁) (h' : Calls g' l' b₁ b') :
    Calls (g ++ g') (l ++ l') b b' where
  refs := h'.refs.trans h.refs
  cell := h'.cell.trans h.cell
  next := h'.next.trans h.next
  log := fun _ hm => h'.log (h.log hm)
  obtained := by rw [h'.obtained, h.obtained, List.append_assoc]
  released := by rw [h'.released, h.released, List.append_assoc]

theorem filterMap_one {ι κ : Type} (f : ι → Option κ) (x : ι) :
    [x].filterMap f = (f x).toList := by
  rw [List.filterMap_cons]
  cases f x <;> rfl

theorem calls_called (b : Books) (t : Nat) (c : Call) (r : c.Res) {l : List Nat}
    (hl : (Event.enter t c).releases.toList ++ (c.consumes r).toList = l) :
    Calls (c.obtains r).toList l b (b.called t c r) where
  refs := rfl
  cell := rfl
  next := rfl
  log := fun _ hm => List.mem_append_left _ (List.mem_append_left _ hm)
  obtained := by
    rw [called, obtained_append, obtained_append, List.append_assoc]
    exact congrArg (_ ++ ·) (filterMap_one Event.obtains _)
  released := by
    rw [called, released_append, released_append, List.append_assoc, ← hl]
    exact congrArg (_ ++ ·) (congrArg₂ (· ++ ·) (filterMap_one Event.releases _)
      (filterMap_one Event.releases _))

end Books

open Books

/-- The program can return `a` and take the books from `b` to `b'`. -/
abbrev Ran (t : Nat) (p : M α) (b : Books) (a : α) (b' : Books) : Prop :=
  Returns (Books.Step t) p b a b'

theorem ran_next {k : c.Res → M α} {a : α} (h : Ran t (issue c >>= k) b a b') :
    ∃ r, b.Gives c r ∧ Ran t (k r) (b.after t c r) a b' := by
  obtain ⟨r, _, ⟨hr, rfl⟩, hk⟩ := returns_next h
  exact ⟨r, hr, hk⟩

theorem ran_call {c : Call} {r : c.Res} (h : Ran t (call c) b r b') :
    (∃ reply, r = c.answer b.calls reply) ∧ b' = b.called t c r := by
  obtain ⟨_, -, h⟩ := ran_next h
  obtain ⟨⟨reply, hr⟩, rfl⟩ := returns_issue h
  exact ⟨⟨reply, hr⟩, rfl⟩

theorem ran_call_calls {c : Call} {r : c.Res} (h : Ran t (call c) b r b') :
    Calls (c.obtains r).toList ((Event.enter t c).releases.toList ++ (c.consumes r).toList) b
      b' := by
  rw [(ran_call h).2]
  exact b.calls_called t c r rfl

/-- A call that is no business of the ledger. -/
theorem ran_call_plain {c : Call} {r : c.Res} (h : Ran t (call c) b r b')
    (hg : c.obtains r = none)
    (hl : (Event.enter t c).releases.toList ++ (c.consumes r).toList = []) : Calls [] [] b b' := by
  have hc := ran_call_calls h
  rwa [hg, hl] at hc

theorem ran_deferUnlock {ref : Nat} {body : M α} {a : α} (h : Ran t (deferUnlock ref body) b a b') :
    Ran t body b a b' := by
  obtain ⟨a', b₁, hbody, h⟩ := returns_bind h
  obtain ⟨_, -, h⟩ := ran_next h
  obtain ⟨rfl, rfl⟩ := returns_ret h
  exact hbody

theorem ran_ent {ref : Nat} (h : Ran t (ent ref) b d b') : (b.cell ref).ent = some d ∧ b = b' := by
  obtain ⟨e, he, h⟩ := ran_next h
  cases e with
  | none => exact absurd h not_returns_crash
  | some d' =>
      obtain ⟨rfl, rfl⟩ := returns_ret h
      exact ⟨he.symm, rfl⟩

theorem ran_file {ref : Nat} (h : Ran t (file ref) b f b') :
    (b.cell ref).file = some f ∧ b = b' := by
  obtain ⟨e, he, h⟩ := ran_next h
  cases e with
  | none => exact absurd h not_returns_crash
  | some f' =>
      obtain ⟨rfl, rfl⟩ := returns_ret h
      exact ⟨he.symm, rfl⟩

theorem ran_isDir {dir : Bool} (h : Ran t (isDir d) b dir b') : Calls [] [] b b' := by
  obtain ⟨q, b₁, hcall, h⟩ := returns_bind h
  obtain ⟨-, rfl⟩ := returns_ret h
  exact ran_call_plain hcall rfl rfl

theorem ran_ioUnit {n : UInt32} (h : Ran t (ioUnit f) b n b') : Calls [] [] b b' := by
  unfold ioUnit at h
  split at h
  · obtain ⟨-, rfl⟩ := returns_ret h
    exact .refl _
  · obtain ⟨_, b₁, hcall, h⟩ := returns_bind h
    obtain ⟨-, rfl⟩ := returns_ret h
    exact ran_call_plain hcall rfl rfl

theorem ran_getRef {fid : Fid} {r : Except Err Nat} (h : Ran t (getRef fid) b r b') :
    b = b' ∧ ∀ ref, r = .ok ref → b.refs fid = some ref ∧ ∃ d, (b.cell ref).ent = some d := by
  unfold getRef at h
  split at h
  · obtain ⟨rfl, rfl⟩ := returns_ret h
    exact ⟨rfl, nofun⟩
  · obtain ⟨ref?, href, h⟩ := ran_next h
    cases ref? with
    | none =>
        obtain ⟨rfl, rfl⟩ := returns_ret h
        exact ⟨rfl, nofun⟩
    | some ref =>
        obtain ⟨_, -, h⟩ := ran_next h
        obtain ⟨e, he, h⟩ := ran_next h
        cases e with
        | none =>
            obtain ⟨_, -, h⟩ := ran_next h
            obtain ⟨rfl, rfl⟩ := returns_ret h
            exact ⟨rfl, nofun⟩
        | some d =>
            obtain ⟨rfl, rfl⟩ := returns_ret h
            refine ⟨rfl, ?_⟩
            rintro _ ⟨⟩
            exact ⟨href.symm, d, he.symm⟩

/-- The books once `newRef` has stored the placeholder. -/
def Books.reserved (b : Books) (t : Nat) (fid : Fid) : Books :=
  (b.reserve fid).record (.stored t fid b.next)

theorem ran_newRef {fid : Fid} {r : Except Err Nat} (h : Ran t (newRef fid) b r b') :
    (∃ err, r = .error err) ∧ b = b' ∨
      r = .ok b.next ∧ b.refs fid = none ∧ b' = b.reserved t fid := by
  unfold newRef at h
  split at h
  · obtain ⟨rfl, rfl⟩ := returns_ret h
    exact Or.inl ⟨⟨_, rfl⟩, rfl⟩
  · obtain ⟨ref?, href, h⟩ := ran_next h
    cases ref? with
    | none =>
        obtain ⟨rfl, rfl⟩ := returns_ret h
        exact Or.inl ⟨⟨_, rfl⟩, rfl⟩
    | some ref =>
        obtain ⟨rfl, rfl⟩ := returns_ret h
        rcases href with href | ⟨href, hfree⟩
        · cases href
        · cases href
          exact Or.inr ⟨rfl, hfree, rfl⟩

theorem ran_withRef {fid : Fid} {fail : Err → Ret} {body : Nat → M Ret} {r : Ret}
    (h : Ran t (withRef fid fail body) b r b') :
    (∃ err, r = fail err) ∧ b = b' ∨
      ∃ ref d, b.refs fid = some ref ∧ (b.cell ref).ent = some d ∧ Ran t (body ref) b r b' := by
  obtain ⟨res, _, hget, h⟩ := returns_bind h
  obtain ⟨rfl, hok⟩ := ran_getRef hget
  cases res with
  | error err =>
      obtain ⟨rfl, rfl⟩ := returns_ret h
      exact Or.inl ⟨⟨err, rfl⟩, rfl⟩
  | ok ref =>
      obtain ⟨href, d, hd⟩ := hok ref rfl
      exact Or.inr ⟨ref, d, href, hd, ran_deferUnlock h⟩

theorem ran_withNewRef {fid : Fid} {fail : Err → Ret} {body : Nat → M Ret} {r : Ret}
    (h : Ran t (withNewRef fid fail body) b r b') :
    (∃ err, r = fail err) ∧ b = b' ∨
      b.refs fid = none ∧ Ran t (body b.next) (b.reserved t fid) r b' := by
  obtain ⟨res, b₁, hnew, hbody⟩ := returns_bind h
  rcases ran_newRef hnew with ⟨⟨err, rfl⟩, rfl⟩ | ⟨rfl, hfree, rfl⟩
  · obtain ⟨rfl, rfl⟩ := returns_ret hbody
    exact Or.inl ⟨⟨err, rfl⟩, rfl⟩
  · exact Or.inr ⟨hfree, ran_deferUnlock hbody⟩

/-! ## Moves on the books -/

namespace Books

variable {fid : Fid} {ref : Nat} {e e' : Entry} {b₁ : Books}

theorem entries_congr (hrefs : b'.refs = b.refs) (hcell : b'.cell = b.cell) :
    b'.entries = b.entries := by
  unfold entries
  rw [hrefs, hcell]

theorem entries_write (href : b.refs fid = some ref) (e : Entry) :
    (b.write ref e).entries = Function.update b.entries fid (some e) := by
  funext fid'
  show (b.refs fid').map (Function.update b.cell ref e) = _
  rcases eq_or_ne fid' fid with rfl | hne
  · rw [href, Function.update_self, Option.map_some, Function.update_self]
  · rw [Function.update_of_ne hne]
    refine Option.map_congr fun ref' href' => Function.update_of_ne ?_ ..
    rintro rfl
    exact hne (b.distinct fid' fid ref' href' href)

/-- An `SFid` that no fid stands for. -/
theorem entries_write_of_unbound (hrefs : ∀ fid, b.refs fid ≠ some ref) (e : Entry) :
    (b.write ref e).entries = b.entries := by
  funext fid'
  refine Option.map_congr fun ref' href' => Function.update_of_ne ?_ ..
  rintro rfl
  exact hrefs fid' href'

theorem entries_erase (b : Books) (fid : Fid) :
    (b.erase fid).entries = Function.update b.entries fid none :=
  Function.comp_update (Option.map b.cell) ..

theorem entries_reserve (b : Books) (fid : Fid) :
    (b.reserve fid).entries = Function.update b.entries fid (some ⟨none, none, 0⟩) := by
  funext fid'
  show (Function.update b.refs fid (some b.next) fid').map (Function.update b.cell b.next _) = _
  rcases eq_or_ne fid' fid with rfl | hne
  · rw [Function.update_self, Function.update_self, Option.map_some, Function.update_self]
  · rw [Function.update_of_ne hne, Function.update_of_ne hne]
    refine Option.map_congr fun ref' href' => Function.update_of_ne ?_ ..
    rintro rfl
    exact absurd (b.bound fid' _ href') (Nat.lt_irrefl _)

@[simp] theorem write_cell_self (b : Books) (ref : Nat) (e : Entry) :
    (b.write ref e).cell ref = e :=
  Function.update_self ..

@[simp] theorem write_write (b : Books) (ref : Nat) (e e' : Entry) :
    (b.write ref e).write ref e' = b.write ref e' := by
  unfold write
  simp only [Function.update_idem]

def IsAuth (b : Books) (fid : Fid) : Prop := ∃ ref, b.refs fid = some ref ∧ IsAuthRef b.log ref

/-- The move `m` takes the books from `b` to `b'`. -/
structure Effect (b : Books) (m : Move) (b' : Books) : Prop where
  enabled : m.Enabled b.entries
  entries : b'.entries = m.apply b.entries
  obtained : Session.obtained b'.log = Session.obtained b.log ++ m.obtained
  released : Session.released b'.log = Session.released b.log ++ m.released
  log : b.log ⊆ b'.log
  refs : ∀ fid ref, b.refs fid = some ref → b'.refs fid = some ref ∨ b'.refs fid = none
  opens : ∀ d f mode, m.opens = some (d, f, mode) → OpenedFor b'.log d f mode
  auths : ∀ fid file, m = .auth fid file → b'.IsAuth fid

theorem Calls.entries {g l : List Nat} (h : Calls g l b b') : b'.entries = b.entries :=
  entries_congr h.refs h.cell

/-- Only calls: nothing changes. -/
theorem Calls.effect (h : Calls [] [] b b') : Effect b .keep b' where
  enabled := trivial
  entries := h.entries
  obtained := h.obtained
  released := h.released
  log := h.log
  refs fid ref href := Or.inl (by rw [h.refs, href])
  opens := nofun
  auths := nofun

theorem Effect.refl (b : Books) : Effect b .keep b := (Calls.refl b).effect

/-- Calls before a move. -/
theorem Calls.then (h : Calls [] [] b b₁) (he : Effect b₁ m b') : Effect b m b' where
  enabled := h.entries ▸ he.enabled
  entries := by rw [he.entries, h.entries]
  obtained := by rw [he.obtained, h.obtained, List.append_nil]
  released := by rw [he.released, h.released, List.append_nil]
  log := fun _ hm => he.log (h.log hm)
  refs fid ref href := he.refs fid ref (by rw [h.refs, href])
  opens := he.opens
  auths := he.auths

/-- Calls after it. -/
theorem Effect.then (he : Effect b m b₁) (h : Calls [] [] b₁ b') : Effect b m b' where
  enabled := he.enabled
  entries := by rw [h.entries, he.entries]
  obtained := by rw [h.obtained, he.obtained, List.append_nil]
  released := by rw [h.released, he.released, List.append_nil]
  log := fun _ hm => h.log (he.log hm)
  refs fid ref href := by
    rw [h.refs]
    exact he.refs fid ref href
  opens d f mode hm := (he.opens d f mode hm).mono h.log
  auths fid file hm := by
    obtain ⟨ref, href, t, fid', op, hop, hauth, hstored⟩ := he.auths fid file hm
    exact ⟨ref, by rw [h.refs, href], t, fid', op, h.log hop, hauth, h.log hstored⟩

/-- A move that assigns to the entry of `fid`. -/
theorem Effect.write (hen : m.Enabled b.entries) (href : b.refs fid = some ref)
    (hc : Calls m.obtained m.released b b₁)
    (happly : m.apply b.entries = Function.update b.entries fid (some e))
    (hopens : ∀ d f mode, m.opens = some (d, f, mode) → OpenedFor b₁.log d f mode)
    (hauths : ∀ fid file, m ≠ .auth fid file) : Effect b m (b₁.write ref e) where
  enabled := hen
  entries := by
    rw [entries_write (by rw [hc.refs, href]), hc.entries, happly]
  obtained := hc.obtained
  released := hc.released
  log := hc.log
  refs fid ref href := Or.inl (by rw [← href, ← hc.refs]; rfl)
  opens := hopens
  auths fid file hm := absurd hm (hauths fid file)

theorem obtained_record {ev : Event} (log : List Event) (h : ev.obtains = none) :
    Session.obtained (log ++ [ev]) = Session.obtained log := by
  have hone : Session.obtained [ev] = [] := List.filterMap_cons_none h
  rw [obtained_append, hone, List.append_nil]

theorem released_record {ev : Event} (log : List Event) (h : ev.releases = none) :
    Session.released (log ++ [ev]) = Session.released log := by
  have hone : Session.released [ev] = [] := List.filterMap_cons_none h
  rw [released_append, hone, List.append_nil]

section Reserved

variable (hfree : b.refs fid = none) {g l : List Nat} (hc : Calls g l (b.reserved t fid) b₁)
include hfree hc

theorem refs_reserved {fid' : Fid} {ref : Nat} (h : b.refs fid' = some ref) :
    b₁.refs fid' = some ref := by
  have hne : fid' ≠ fid := by
    rintro rfl
    cases hfree.symm.trans h
  rw [hc.refs]
  exact (Function.update_of_ne hne ..).trans h

/-- A placeholder becomes an entry. -/
theorem Effect.store (hg : g = m.obtained) (hl : l = m.released) (hen : m.Enabled b.entries)
    (happly : m.apply b.entries = Function.update b.entries fid (some e))
    (hopens : m.opens = none)
    (hauths : ∀ fid file, m = .auth fid file →
      (b₁.write b.next e).IsAuth fid) : Effect b m (b₁.write b.next e) where
  enabled := hen
  entries := by
    have href : b₁.refs fid = some b.next := by
      rw [hc.refs]
      exact Function.update_self ..
    have hres : (b.reserved t fid).entries = Function.update b.entries fid _ :=
      b.entries_reserve fid
    rw [entries_write href, hc.entries, hres, Function.update_idem, happly]
  obtained := by
    rw [← hg]
    exact hc.obtained.trans (congrArg (· ++ g) (obtained_record b.log rfl))
  released := by
    rw [← hl]
    exact hc.released.trans (congrArg (· ++ l) (released_record b.log rfl))
  log := fun _ hm => hc.log (List.mem_append_left _ hm)
  refs fid' ref href := Or.inl (refs_reserved hfree hc href)
  opens d f mode hm := by
    rw [hopens] at hm
    cases hm
  auths := hauths

end Reserved

/-- A placeholder is deleted. -/
theorem Effect.rollback (hfree : b.refs fid = none) (hc : Calls [] [] (b.reserved t fid) b₁) :
    Effect b .keep (b₁.after t (.delete fid) ()) where
  enabled := trivial
  entries := by
    have hres : (b.reserved t fid).entries = Function.update b.entries fid _ :=
      b.entries_reserve fid
    have hnone : b.entries fid = none := congrArg (Option.map b.cell) hfree
    refine (b₁.entries_erase fid).trans ?_
    rw [hc.entries, hres, Function.update_idem, ← hnone, Function.update_eq_self]
    rfl
  obtained := by
    refine (obtained_record b₁.log rfl).trans ?_
    rw [hc.obtained]
    exact congrArg (· ++ []) (obtained_record b.log rfl)
  released := by
    refine (released_record b₁.log rfl).trans ?_
    rw [hc.released]
    exact congrArg (· ++ []) (released_record b.log rfl)
  log := fun _ hm => List.mem_append_left _ (hc.log (List.mem_append_left _ hm))
  refs fid' ref href := by
    rcases eq_or_ne fid' fid with rfl | hne
    · cases hfree.symm.trans href
    · exact Or.inl ((Function.update_of_ne hne ..).trans (refs_reserved hfree hc href))
  opens := nofun
  auths := nofun

/-! ## The ledger of the books -/

def ledger (b : Books) : Ledger :=
  ⟨b.entries, Session.obtained b.log, Session.released b.log, OpenedFor b.log, b.IsAuth⟩

/-- The `Dirent`s obtained between `b` and `b'` are new. -/
structure Fresh (b b' : Books) : Prop where
  calls : b.calls ≤ b'.calls
  obtained : ∃ es, Session.obtained b'.log = Session.obtained b.log ++ es ∧
    ∀ d ∈ es, b.calls ≤ d ∧ d < b'.calls

theorem Fresh.refl (b : Books) : Fresh b b := ⟨Nat.le_refl _, [], (List.append_nil _).symm, nofun⟩

theorem Fresh.trans (h : Fresh b b₁) (h' : Fresh b₁ b') : Fresh b b' := by
  obtain ⟨es, heq, hes⟩ := h.obtained
  obtain ⟨es', heq', hes'⟩ := h'.obtained
  refine ⟨Nat.le_trans h.calls h'.calls, es ++ es', by rw [heq', heq, List.append_assoc], ?_⟩
  intro d hd
  rcases List.mem_append.mp hd with hd | hd
  · exact ⟨(hes d hd).1, Nat.lt_of_lt_of_le (hes d hd).2 h'.calls⟩
  · exact ⟨Nat.le_trans h.calls (hes' d hd).1, (hes' d hd).2⟩

/-- A `Dirent` is obtained from the call that makes it. -/
theorem newEnt_of_obtains {c : Call} {r : c.Res} (h : c.obtains r = some d) :
    c.newEnt r = some d := by
  cases c with
  | attach uname aname af =>
      obtain ⟨e, _ | err⟩ := r
      · exact h
      · cases h
  | walk d₀ names =>
      obtain ⟨qids, e, _ | err⟩ := r
      · exact (Option.ite_none_right_eq_some.mp h).2
      · cases h
  | create d₀ name perm mode =>
      obtain ⟨_ | e, _ | f, _ | err⟩ := r <;> cases h
      rfl
  | _ => cases h

theorem fresh_step (h : Books.Step t b c r b') : Fresh b b' := by
  obtain ⟨hgives, rfl⟩ := h
  have hsame : ∀ {b' : Books}, b'.calls = b.calls → b'.log = b.log → Fresh b b' := by
    intro b' hcalls hlog
    exact ⟨Nat.le_of_eq hcalls.symm, [], by rw [hlog, List.append_nil], nofun⟩
  -- an event with which nothing is obtained
  have hquiet : ∀ (ev : Event) {b' : Books}, ev.obtains = none → b'.calls = b.calls →
      b'.log = b.log ++ [ev] → Fresh b b' := by
    intro ev b' hev hcalls hlog
    refine ⟨Nat.le_of_eq hcalls.symm, [], ?_, nofun⟩
    rw [hlog, obtained_record b.log hev, List.append_nil]
  cases c with
  | storeNew fid =>
      cases r with
      | none => exact .refl _
      | some ref => exact hquiet (.stored t fid b.next) rfl rfl rfl
  | loadAndDelete fid =>
      cases r with
      | none => exact .refl _
      | some ref => exact hquiet (.took t fid ref) rfl rfl rfl
  | delete fid => exact hquiet (.deleted t fid (b.refs fid)) rfl rfl rfl
  | enter c => exact hquiet (.enter t c) rfl rfl rfl
  | leave c =>
      refine ⟨Nat.le_succ _, (c.obtains r).toList, ?_, ?_⟩
      · exact (obtained_append ..).trans (congrArg (_ ++ ·) (filterMap_one Event.obtains _))
      · intro d hd
        obtain ⟨reply, rfl⟩ := hgives
        obtain rfl := c.newEnt_answer (newEnt_of_obtains (Option.mem_toList.mp hd))
        exact ⟨Nat.le_refl _, Nat.lt_succ_self _⟩
  | _ => exact hsame rfl rfl

theorem ran_fresh {p : M α} {a : α} (h : Ran t p b a b') : Fresh b b' :=
  h.keeps Fresh .refl .trans fresh_step

/-- A move on the books is a step of the ledger. -/
theorem Effect.step (he : Effect b m b') (hf : Fresh b b')
    (hold : ∀ d ∈ Session.obtained b.log, d < b.calls) : b.ledger.Step m b'.ledger where
  enabled := he.enabled
  entries := he.entries
  obtained := he.obtained
  released := he.released
  fresh := by
    obtain ⟨es, heq, hes⟩ := hf.obtained
    have hes' : m.obtained = es := List.append_cancel_left (he.obtained.symm.trans heq)
    intro d hd hmem
    rw [hes'] at hd
    exact absurd (hold d hmem) (Nat.not_lt.mpr (hes d hd).1)
  opened _ _ _ h := h.mono he.log
  opens := he.opens
  auth := by
    rintro fid ⟨ref, href, hauth⟩ hbound
    refine ⟨ref, (he.refs fid ref href).resolve_right fun hnone => ?_, hauth.mono he.log⟩
    exact hbound (congrArg (Option.map b'.cell) hnone)
  auths := he.auths

end Books

end P9p.Session
