/-
# What a session asks of the server

A call of a session to its `FileSys` is one operation of the server, on handles
and files that belong to this session (`asks`).  What the session knows about
them is in its fid table.

    Backed     every `Dirent` in the table is a live handle, and no two fids
               have the same one; every `File` is that of a node which is not
               a directory, or a `Readdir`
    Spare      a `Dirent` that no fid has yet
    Quiet      a call that only adds handles

While a call consumes the `Dirent` of a fid, `Backed` makes an exception for it.

**Calls are answered** (`call_asks`): on what is in the table, and with what is
not there yet, the model never refuses a call.
-/
import P9p.Ramfs.Kinds
import P9p.Ramfs.Served
import P9p.Session.Discipline

namespace P9p.Ramfs

open Conc
open Session (World FileSys)

/-! ## Operations and answers -/

/-- The operation that a call of session `i` is. -/
def asks (i n : Nat) : Session.Call → Option Op
  | .attach uname _ _ => some (.attach (i, n) uname)
  | .qid e => some (.qid (i, e))
  | .openDir e => some (.openDir (i, e))
  | .walk e names => some (.walk (i, e) (i, n) names)
  | .create e name perm mode => some (.create (i, e) (i, n) name perm mode)
  | .open e _ => some (.open (i, e) (i, n))
  | .remove e => some (.remove (i, e))
  | .clunk e => some (.clunk (i, e))
  | .stat e => some (.stat (i, e))
  | .wstat e dir => some (.wstat (i, e) dir)
  | .read ⟨_, .readdir⟩ _ _ | .write ⟨_, .readdir⟩ _ _ => none
  | .read f len offset => some (.read (i, f.id) len offset)
  | .write f p offset => some (.write (i, f.id) p offset)
  | .requireAuth | .auth _ _ | .ioUnit _ | .success _ => none

/-- What is answered, for what the operation returns. -/
def Replies : (c : Session.Call) → Ret → c.Reply → Prop
  | .attach _ _ _, r, a => ∃ err, r = .done err ∧ a = (true, err)
  | .qid _, r, q => r = .qid q
  | .openDir _, r, err => ∃ dirs, r = .dirs dirs ∧ ((∃ l, dirs = .ok l) → err = none)
  | .walk _ _, r, a => ∃ qids complete err, r = .walked qids complete err ∧ a = (qids, true, err)
  | .create _ _ _ _, r, a => ∃ err, r = .done err ∧ a = (true, some .plain, err)
  | .open _ _, r, a => ∃ err, r = .done err ∧ a = (some .plain, err)
  | _, _, _ => True

section Asks

variable {i n : Nat} {c : Session.Call} {op : Op}

theorem asks_keys (h : asks i n c = some op) {k : Key} (hk : k ∈ op.keys) :
    k = (i, n) ∨ ∃ e, c.dirent = some e ∧ k = (i, e) := by
  cases c with
  | read f _ _ | write f _ _ => obtain ⟨_, _ | _ | _⟩ := f <;> cases h <;> cases hk
  | requireAuth | auth _ _ | ioUnit _ | success _ => cases h
  | attach _ _ _ =>
      cases h
      exact Or.inl (List.mem_singleton.mp hk)
  | walk e _ | create e _ _ _ =>
      cases h
      rcases List.mem_cons.mp hk with rfl | hk
      · exact Or.inr ⟨e, rfl, rfl⟩
      · exact Or.inl (List.mem_singleton.mp hk)
  | qid e | openDir e | «open» e _ | remove e | clunk e | stat e | wstat e _ =>
      cases h
      exact Or.inr ⟨e, rfl, List.mem_singleton.mp hk⟩

theorem asks_opens (h : asks i n c = some op) {k : Key} (hk : k ∈ op.opens) : k = (i, n) := by
  cases c with
  | read f _ _ | write f _ _ => obtain ⟨_, _ | _ | _⟩ := f <;> cases h <;> cases hk
  | requireAuth | auth _ _ | ioUnit _ | success _ => cases h
  | create _ _ _ _ | «open» _ _ =>
      cases h
      exact List.mem_singleton.mp hk
  | _ =>
      cases h
      cases hk

variable {k : Session.Disk Host}

theorem Sound.asked {h : Host} (hs : Sound h.store) (hop : Issued h.store op)
    (hkinds : KeepsKinds h.store op) : ∃ r h', Effect h.store op r h'.store ∧
      ∀ {α : Type} {answer : Ret → Option (α × Bytes)} {a : α} {p : Bytes},
        answer r = some (a, p) → h.ask op answer = some (a, p, h') := by
  obtain ⟨r, s', m, hrun, heff⟩ := hs.performs hop hkinds (h.choices h.turn)
  refine ⟨r, { h with store := s', turn := h.turn + 1 }, heff, fun {α answer a p} hr => ?_⟩
  simp only [Host.ask, hrun, hr]
  rfl

/-- Where the operation returns, the call is answered. -/
theorem reply_asks (hs : Sound k.fs.store) (hasks : asks i n c = some op)
    (hop : Issued k.fs.store op) (hkinds : KeepsKinds k.fs.store op) :
    ∃ r a p disk, (fileSys i).reply n c k = some (a, p, disk) ∧
      Effect k.fs.store op r disk.fs.store ∧ Replies c r a := by
  obtain ⟨r, fs, heff, hask⟩ := hs.asked hop hkinds
  have hreply : ∀ (a : c.Reply) (p : Bytes), c.Passed → Replies c r a →
      (fileSys i).answer n c k.fs = some (a, p, fs) →
      ∃ r a p disk, (fileSys i).reply n c k = some (a, p, disk) ∧
        Effect k.fs.store op r disk.fs.store ∧ Replies c r a := by
    intro a p hc hr h
    refine ⟨r, a, p, { k with fs }, ?_, heff, hr⟩
    rw [FileSys.reply_passed hc, h]
    rfl
  have hdoes := heff.does
  cases c with
  | requireAuth | auth _ _ | ioUnit _ | success _ => cases hasks
  | attach uname aname af =>
      cases hasks
      obtain ⟨rfl, -⟩ := hdoes
      exact hreply _ [] trivial ⟨none, rfl, rfl⟩ (hask rfl)
  | qid e =>
      cases hasks
      obtain ⟨h, -, -, rfl⟩ := hdoes
      exact hreply _ [] trivial rfl (hask rfl)
  | openDir e =>
      cases hasks
      obtain ⟨h, dirs, -, -, rfl, -⟩ := hdoes
      cases dirs with
      | error err =>
          refine hreply (some err) [] trivial ⟨_, rfl, fun ⟨l, hl⟩ => nomatch hl⟩ ?_
          simp only [fileSys, Host.answer]
          rw [hask rfl]
      | ok l =>
          -- the listing is put beside the server
          refine ⟨_, (none : Option Err), [],
            { k with fs := { fs with listings := Function.update fs.listings (i, n) l } }, ?_, heff,
            _, rfl, fun _ => rfl⟩
          rw [FileSys.reply_passed (show (Session.Call.openDir e).Passed from trivial)]
          simp only [fileSys, Host.answer]
          rw [hask rfl]
          rfl
  | walk e names =>
      cases hasks
      obtain ⟨h, qids, complete, err, -, -, rfl, -⟩ := hdoes
      exact hreply _ [] trivial ⟨_, _, _, rfl, rfl⟩ (hask rfl)
  | create e name perm mode =>
      cases hasks
      obtain ⟨h, err, -, rfl, -⟩ := hdoes
      exact hreply _ [] trivial ⟨_, rfl, rfl⟩ (hask rfl)
  | «open» e mode =>
      cases hasks
      obtain ⟨h, -, -, rfl, -⟩ := hdoes
      exact hreply _ [] trivial ⟨_, rfl, rfl⟩ (hask rfl)
  | remove e | clunk e =>
      cases hasks
      obtain ⟨err, rfl⟩ := hdoes
      exact hreply err [] trivial trivial (hask rfl)
  | stat e =>
      cases hasks
      obtain ⟨h, dir, -, -, rfl⟩ := hdoes
      exact hreply (dir, none) [] trivial trivial (hask rfl)
  | wstat e dir =>
      cases hasks
      obtain ⟨h, err, -, -, rfl⟩ := hdoes
      exact hreply err [] trivial trivial (hask rfl)
  | read f len offset =>
      obtain ⟨id, _ | _ | _⟩ := f <;> cases hasks <;> obtain ⟨data, err, rfl⟩ := hdoes <;>
        exact hreply ((data.length : Int), err) data trivial trivial (hask rfl)
  | write f p offset =>
      obtain ⟨id, _ | _ | _⟩ := f <;> cases hasks <;> obtain ⟨m, err, rfl⟩ := hdoes <;>
        exact hreply ((m : Int), err) [] trivial trivial (hask rfl)

theorem Host.ask_inv {α : Type} {h h' : Host} {answer : Ret → Option (α × Bytes)} {a : α}
    {p : Bytes} (hask : h.ask op answer = some (a, p, h')) :
    ∃ env r m, perform h.store op env = .returned r h'.store m := by
  unfold Host.ask at hask
  split at hask
  · rename_i r store m hrun
    obtain ⟨⟨a', p'⟩, -, heq⟩ := Option.map_eq_some_iff.mp hask
    cases heq
    exact ⟨_, r, m, hrun⟩
  · cases hask

/-- A call is no operation, or one that returns. -/
theorem reply_inv {a : c.Reply} {p : Bytes} {disk : Session.Disk Host}
    (h : (fileSys i).reply n c k = some (a, p, disk)) :
    disk.fs.store = k.fs.store ∨ ∃ op env r m, asks i n c = some op ∧
      perform k.fs.store op env = .returned r disk.fs.store m := by
  -- most calls are passed on
  have hanswer : ∀ {op}, c.Passed → asks i n c = some op →
      (∀ {fs}, (fileSys i).answer n c k.fs = some (a, p, fs) → ∃ env r m,
        perform k.fs.store op env = .returned r fs.store m) →
      ∃ op env r m, asks i n c = some op ∧
        perform k.fs.store op env = .returned r disk.fs.store m := by
    intro op hc hasks hperform
    rw [FileSys.reply_passed hc] at h
    obtain ⟨⟨a', p', fs⟩, hfs, heq⟩ := Option.map_eq_some_iff.mp h
    cases heq
    obtain ⟨env, r, m, hrun⟩ := hperform hfs
    exact ⟨op, env, r, m, hasks, hrun⟩
  cases c with
  | requireAuth | auth _ _ | ioUnit _ =>
      cases h
      exact Or.inl rfl
  | success _ => cases h
  | openDir e =>
      refine Or.inr (hanswer trivial rfl fun {fs} h => ?_)
      simp only [fileSys, Host.answer] at h
      split at h
      · rename_i dirs p' h' hask
        cases h
        obtain ⟨env, r, m, hrun⟩ := Host.ask_inv hask
        exact ⟨env, r, m, hrun⟩
      · rename_i err p' h' hask
        cases h
        exact Host.ask_inv hask
      · cases h
  | read f len offset =>
      obtain ⟨id, _ | _ | _⟩ := f
      · exact Or.inr (hanswer trivial rfl Host.ask_inv)
      · exact Or.inr (hanswer trivial rfl Host.ask_inv)
      · cases h
        refine Or.inl (Readdir.read_state (I := fun fs : Host => fs.store = k.fs.store) ?_ rfl)
        exact fun fs hfs => hfs
  | write f p offset =>
      obtain ⟨id, _ | _ | _⟩ := f
      · exact Or.inr (hanswer trivial rfl Host.ask_inv)
      · exact Or.inr (hanswer trivial rfl Host.ask_inv)
      · cases h
        exact Or.inl rfl
  | _ => exact Or.inr (hanswer trivial rfl Host.ask_inv)

end Asks

/-! ## What a session knows -/

abbrev ram (w : World Host) : Store := w.disk.fs.store

/-- The file is that of a node which is not a directory. -/
def Store.Fit (s : Store) (k : Key) : Prop :=
  ∃ n, s.files k = some n ∧ n < s.next ∧ ¬ (s.node n).IsDirectory

section Knows

variable {i d e n : Nat} {x : Option Nat} {w w' : World Host} {f : Session.File} {h : Handle}

/-- A `File` that may be put into the table. -/
structure Usable (i : Nat) (w : World Host) (f : Session.File) : Prop where
  kind : f.kind ≠ .auth
  plain : f.kind = .plain → f.id < w.store.calls ∧ (ram w).Fit (i, f.id)

/-- The server backs the fid table of session `i`.  A call is about to consume the
`Dirent` of `x`. -/
structure Backed (i : Nat) (x : Option Nat) (w : World Host) : Prop where
  sound : Sound (ram w)
  ents : ∀ ref d, some ref ≠ x → (w.store.sfid ref).ent = some d → ∃ h, (ram w).Live (i, d) h
  lone : ∀ ref ref' d, some ref ≠ x → some ref' ≠ x → (w.store.sfid ref).ent = some d →
    (w.store.sfid ref').ent = some d → ref = ref'
  files : ∀ ref f, (w.store.sfid ref).file = some f → Usable i w f
  fresh : ∀ n, w.store.calls ≤ n → (ram w).handles.lookup (i, n) = none

/-- `d` is a live handle, and no fid but `x` has it. -/
structure Spare (i : Nat) (x : Option Nat) (d : Nat) (w : World Host) : Prop where
  live : ∃ h, (ram w).Live (i, d) h
  unheld : ∀ ref, some ref ≠ x → (w.store.sfid ref).ent ≠ some d

/-- Nothing is taken away from the session. -/
structure Quiet (i : Nat) (w w' : World Host) : Prop where
  ents : ∀ ref, (w'.store.sfid ref).ent = (w.store.sfid ref).ent
  files : ∀ ref, (w'.store.sfid ref).file = (w.store.sfid ref).file
  calls : w.store.calls ≤ w'.store.calls
  grows : (ram w).Grows (ram w')
  handles : ∀ n, n < w.store.calls →
    (ram w').handles.lookup (i, n) = (ram w).handles.lookup (i, n)
  opened : ∀ n, n < w.store.calls → (ram w').files (i, n) = (ram w).files (i, n)

/-- The same, where nothing is asked of the server. -/
structure Still (w w' : World Host) : Prop where
  disk : w'.disk = w.disk
  calls : w'.store.calls = w.store.calls
  ents : ∀ ref, (w'.store.sfid ref).ent = (w.store.sfid ref).ent
  files : ∀ ref, (w'.store.sfid ref).file = (w.store.sfid ref).file

theorem Still.refl (w : World Host) : Still w w := ⟨rfl, rfl, fun _ => rfl, fun _ => rfl⟩

theorem Still.trans {w₁ w₂ w₃ : World Host} (h : Still w₁ w₂) (h' : Still w₂ w₃) : Still w₁ w₃ where
  disk := h'.disk.trans h.disk
  calls := h'.calls.trans h.calls
  ents ref := (h'.ents ref).trans (h.ents ref)
  files ref := (h'.files ref).trans (h.files ref)

theorem Still.quiet (h : Still w w') : Quiet i w w' := by
  have hram : ram w' = ram w := congrArg (·.fs.store) h.disk
  refine ⟨h.ents, h.files, Nat.le_of_eq h.calls.symm, ?_, fun n _ => ?_, fun n _ => ?_⟩
  · exact hram ▸ .refl _
  · rw [hram]
  · rw [hram]

theorem Quiet.trans {w₁ w₂ w₃ : World Host} (h : Quiet i w₁ w₂) (h' : Quiet i w₂ w₃) :
    Quiet i w₁ w₃ where
  ents ref := (h'.ents ref).trans (h.ents ref)
  files ref := (h'.files ref).trans (h.files ref)
  calls := Nat.le_trans h.calls h'.calls
  grows := h.grows.trans h'.grows
  handles n hn := (h'.handles n (Nat.lt_of_lt_of_le hn h.calls)).trans (h.handles n hn)
  opened n hn := (h'.opened n (Nat.lt_of_lt_of_le hn h.calls)).trans (h.opened n hn)

theorem Store.Fit.grows {s s' : Store} {k : Key} (h : s.Fit k) (hg : s.Grows s')
    (hk : s'.files k = s.files k) : s'.Fit k := by
  obtain ⟨n, hn, hlt, hdir⟩ := h
  refine ⟨n, hk.trans hn, Nat.lt_of_lt_of_le hlt hg.next, ?_⟩
  rwa [Node.IsDirectory, hg.type n hlt]

theorem Usable.quiet (h : Usable i w f) (hq : Quiet i w w') : Usable i w' f := by
  refine ⟨h.kind, fun hplain => ?_⟩
  obtain ⟨hlt, hfit⟩ := h.plain hplain
  exact ⟨Nat.lt_of_lt_of_le hlt hq.calls, hfit.grows hq.grows (hq.opened _ hlt)⟩

theorem Backed.still (h : Backed i x w) (hs : Still w w') : Backed i x w' := by
  have hram : ram w' = ram w := congrArg (·.fs.store) hs.disk
  refine ⟨hram ▸ h.sound, fun ref d hx hd => ?_, fun ref ref' d hx hx' hd hd' => ?_,
    fun ref f hf => ?_, fun n hn => ?_⟩
  · rw [hram]
    exact h.ents ref d hx ((hs.ents ref).symm.trans hd)
  · exact h.lone ref ref' d hx hx' ((hs.ents ref).symm.trans hd) ((hs.ents ref').symm.trans hd')
  · exact (h.files ref f ((hs.files ref).symm.trans hf)).quiet hs.quiet
  · rw [hram]
    exact h.fresh n (hs.calls ▸ hn)

theorem Backed.lt (h : Backed i x w) {hd : Handle} (hlive : (ram w).Live (i, d) hd) :
    d < w.store.calls := by
  by_contra hge
  cases (h.fresh d (Nat.le_of_not_lt hge)).symm.trans hlive

theorem Quiet.live (hq : Quiet i w w') (hd : d < w.store.calls) (hlive : (ram w).Live (i, d) h) :
    (ram w').Live (i, d) h :=
  (hq.handles d hd).trans hlive

theorem Spare.quiet (h : Spare i x d w) (hg : Backed i x w) (hq : Quiet i w w') :
    Spare i x d w' := by
  obtain ⟨hd, hlive⟩ := h.live
  exact ⟨⟨hd, hq.live (hg.lt hlive) hlive⟩, fun ref hx => hq.ents ref ▸ h.unheld ref hx⟩

/-- An exception more. -/
theorem Backed.except (h : Backed i none w) (ref : Nat) : Backed i (some ref) w :=
  ⟨h.sound, fun ref' d _ => h.ents ref' d nofun, fun r r' d _ _ => h.lone r r' d nofun nofun,
    h.files, h.fresh⟩

/-- The `Dirent` of a fid is its own. -/
theorem Backed.unheld (h : Backed i none w) {ref : Nat} (hd : (w.store.sfid ref).ent = some d)
    (ref' : Nat) (hx : some ref' ≠ some ref) : (w.store.sfid ref').ent ≠ some d := by
  intro hd'
  exact hx (congrArg some (h.lone ref' ref d nofun nofun hd' hd))

theorem Sound.ent_lt {s : Store} {k : Key} (hs : Sound s) (hk : s.Live k h) : h.ent < s.next :=
  (hs.inv.tree.chain hk).lt hs.inv.tree.pos _ (mem_chain_ent h)

end Knows

/-! ## Calls -/

section Calls

variable {i : Nat} {x : Option Nat} {w w' : World Host} {c : Session.Call} {op : Op} {r : Ret}

/-- The server has performed an operation for the session. -/
structure Answered (w : World Host) (op : Op) (r : Ret) (w' : World Host) : Prop where
  effect : Effect (ram w) op r (ram w')
  table : w'.store.toTable = w.store.toTable
  calls : w'.store.calls = w.store.calls + 1

theorem Answered.sfid (h : Answered w op r w') (ref : Nat) :
    w'.store.sfid ref = w.store.sfid ref :=
  congrArg (·.sfid ref) h.table

/-- Handles that the call is not made on stay. -/
theorem Answered.handle (h : Answered w op r w') (hasks : asks i w.store.calls c = some op)
    {n : Nat} (hn : n ≠ w.store.calls) (htarget : c.dirent ≠ some n) :
    (ram w').handles.lookup (i, n) = (ram w).handles.lookup (i, n) := by
  refine h.effect.handles (i, n) fun hmem => ?_
  rcases asks_keys hasks hmem with heq | ⟨e, he, heq⟩
  · exact hn (Prod.mk.inj heq).2
  · exact htarget ((Prod.mk.inj heq).2 ▸ he)

theorem Answered.file (h : Answered w op r w') (hasks : asks i w.store.calls c = some op) {n : Nat}
    (hn : n ≠ w.store.calls) : (ram w').files (i, n) = (ram w).files (i, n) :=
  h.effect.files (i, n) fun hmem => hn (Prod.mk.inj (asks_opens hasks hmem)).2

/-- The handle that the call is made on is live afterwards, or there is an
exception for the fid that has it. -/
theorem Answered.good (h : Answered w op r w') (hasks : asks i w.store.calls c = some op)
    (hg : Backed i x w)
    (htarget : ∀ e, c.dirent = some e → e < w.store.calls ∧ ((∃ h, (ram w').Live (i, e) h) ∨
      ∀ ref, some ref ≠ x → (w.store.sfid ref).ent ≠ some e)) : Backed i x w' := by
  refine ⟨h.effect.sound, fun ref d hx hd => ?_, fun ref ref' d hx hx' hd hd' => ?_,
    fun ref f hf => ?_, fun n hn => ?_⟩
  · rw [h.sfid] at hd
    obtain ⟨hd₀, hlive⟩ := hg.ents ref d hx hd
    by_cases he : c.dirent = some d
    · exact (htarget d he).2.resolve_right fun hnone => hnone ref hx hd
    · exact ⟨hd₀, (h.handle hasks (Nat.ne_of_lt (hg.lt hlive)) he).trans hlive⟩
  · rw [h.sfid] at hd hd'
    exact hg.lone ref ref' d hx hx' hd hd'
  · rw [h.sfid] at hf
    have hu := hg.files ref f hf
    refine ⟨hu.kind, fun hplain => ?_⟩
    obtain ⟨hlt, hfit⟩ := hu.plain hplain
    exact ⟨h.calls ▸ Nat.lt_succ_of_lt hlt,
      hfit.grows h.effect.grows (h.file hasks (Nat.ne_of_lt hlt))⟩
  · rw [h.calls] at hn
    have hne : c.dirent ≠ some n := fun he => by
      have := (htarget n he).1
      omega
    rw [h.handle hasks (Nat.ne_of_gt hn) hne]
    exact hg.fresh n (Nat.le_of_succ_le hn)

/-- A call that leaves the handle it is made on as it is. -/
theorem Answered.looks (h : Answered w op r w') (hasks : asks i w.store.calls c = some op) {d : Nat}
    {hd : Handle} (htarget : c.dirent = some d) (hg : Backed i x w)
    (hlive : (ram w).Live (i, d) hd) (hlive' : (ram w').Live (i, d) hd) :
    Backed i x w' ∧ Quiet i w w' := by
  refine ⟨h.good hasks hg fun e he => ?_, fun ref => ?_, fun ref => ?_, h.calls ▸ Nat.le_succ _,
    h.effect.grows, fun n hn => ?_, fun n hn => h.file hasks (Nat.ne_of_lt hn)⟩
  · cases htarget.symm.trans he
    exact ⟨hg.lt hlive, Or.inl ⟨hd, hlive'⟩⟩
  · rw [h.sfid]
  · rw [h.sfid]
  · by_cases he : c.dirent = some n
    · cases htarget.symm.trans he
      exact hlive'.trans hlive.symm
    · exact h.handle hasks (Nat.ne_of_lt hn) he

/-- Reading or writing before the beginning of a file. -/
def backward : Session.Call → Prop
  | .read _ _ offset | .write _ _ offset => offset.toInt < 0
  | _ => False

/-- What a session may do: it waits for a mutex only while its table is in order,
and calls are answered. -/
def mayIssue (i : Nat) (w : World Host) : Session.Cmd → Prop
  | .lock _ => Backed i none w
  | .leave c => backward c ∨ ((fileSys i).reply w.store.calls c w.disk).isSome
  | _ => True

abbrev Serves {α : Type} (i : Nat) (Q : α → World Host → Prop) (p : Session.M α) (w : World Host) :
    Prop :=
  Safe (mayIssue i) (fun w c r w' => World.exec (fileSys i) w 0 c () = some (r, w')) Q p w

/-- The next command, if it is known what it does. -/
theorem cmd_serves {α : Type} {Q : α → World Host → Prop} {c : Session.Cmd}
    {k : c.Res → Session.M α} {r : c.Res} (hpre : mayIssue i w c)
    (hexec : World.exec (fileSys i) w 0 c () = some (r, w')) (hk : Serves i Q (k r) w') :
    Serves i Q (Session.issue c >>= k) w := by
  refine Safe.cmd hpre fun r₁ w₁ hexec₁ => ?_
  cases hexec.symm.trans hexec₁
  exact hk

theorem call_serves {Q : c.Res → World Host → Prop}
    (hc : backward c ∨ ((fileSys i).reply w.store.calls c w.disk).isSome)
    (hQ : ∀ a p disk w', (fileSys i).reply w.store.calls c w.disk = some (a, p, disk) →
      w'.disk = disk → w'.store.toTable = w.store.toTable →
      w'.store.calls = w.store.calls + 1 → Q (c.answer w.store.calls a) w') :
    Serves i Q (Session.call c) w := by
  refine cmd_serves trivial rfl ⟨hc, ?_⟩
  intro res w' hexec
  simp only [World.exec] at hexec
  split at hexec
  · cases hexec
  · rename_i a p disk hreply
    cases hexec
    exact hQ a p disk _ hreply rfl rfl rfl

/-- A call that is an operation on what the session has. -/
theorem call_asks {Q : c.Res → World Host → Prop} (hg : Backed i x w)
    (hasks : asks i w.store.calls c = some op) (hop : Issued (ram w) op)
    (hkinds : KeepsKinds (ram w) op)
    (hQ : ∀ r a w', Answered w op r w' → Replies c r a → Q (c.answer w.store.calls a) w') :
    Serves i Q (Session.call c) w := by
  obtain ⟨r, a, p, disk, hreply, heff, hr⟩ := reply_asks (k := w.disk) hg.sound hasks hop hkinds
  refine call_serves (Or.inr (hreply ▸ rfl)) fun a' p' disk' w' hreply' hdisk htable hcalls => ?_
  cases hreply.symm.trans hreply'
  subst hdisk
  exact hQ r a w' ⟨heff, htable, hcalls⟩ hr

/-- A call that is answered without the server. -/
theorem call_apart {Q : c.Res → World Host → Prop} {a : c.Reply} {p : Bytes}
    {disk : Session.Disk Host}
    (hreply : (fileSys i).reply w.store.calls c w.disk = some (a, p, disk))
    (hdisk : disk.fs.store = ram w) (hg : Backed i x w)
    (hQ : ∀ w', Backed i x w' → Q (c.answer w.store.calls a) w') :
    Serves i Q (Session.call c) w := by
  refine call_serves (Or.inr (hreply ▸ rfl)) fun a' p' disk' w' hreply' hw' htable hcalls => ?_
  cases hreply.symm.trans hreply'
  have hram : ram w' = ram w := (congrArg (·.fs.store) hw').trans hdisk
  have hsfid : ∀ ref, w'.store.sfid ref = w.store.sfid ref :=
    fun ref => congrArg (·.sfid ref) htable
  refine hQ w' ⟨hram ▸ hg.sound, fun ref d hx hd => ?_, fun ref ref' d hx hx' hd hd' => ?_,
    fun ref f hf => ?_, fun n hn => ?_⟩
  · rw [hram]
    exact hg.ents ref d hx (hsfid ref ▸ hd)
  · exact hg.lone ref ref' d hx hx' (hsfid ref ▸ hd) (hsfid ref' ▸ hd')
  · have hu := hg.files ref f (hsfid ref ▸ hf)
    refine ⟨hu.kind, fun hplain => ?_⟩
    rw [hram, hcalls]
    exact ⟨Nat.lt_succ_of_lt (hu.plain hplain).1, (hu.plain hplain).2⟩
  · rw [hcalls] at hn
    rw [hram]
    exact hg.fresh n (Nat.le_of_succ_le hn)

end Calls

end P9p.Ramfs
