/-
# What an operation does to the fid table

An operation that runs alone and returns makes one move in the ledger
(`Op.effect`), and which move it is depends on the operation and on what it
returns (`Op.Explains`):

    Auth            auth
    Attach          bind
    Clunk, Remove   drop
    Walk            bind, rebind, or nothing if it stops short
    Open            open
    Create          replace
    the others      nothing

An operation that returns an error has made no move, unless it is `Clunk` or
`Remove`.  `Stop` sweeps the fids one by one (`sweep_effect`).
-/
import P9p.Session.Books

namespace P9p.Session

open Conc Books

variable {s s' : Store} {t : Nat} {b b' : Books}
variable {m : Move} {uname aname name : Bytes} {ref ref' d : Nat} {newref e : Option Nat}
  {log log' : List Event} {newfid : Fid} {f : File} {mode : Flag} {res : Except Err File}
  {refuses : Flag → Bool} {denied : Err} {io : File → M (Int × Option Err)}

/-! ## The operations -/

/-- The operation failed and changed nothing, or made one of the moves `ok`. -/
def Makes (b b' : Books) (r : Ret) (ok : Move → Prop) : Prop :=
  r.err ≠ none ∧ Effect b .keep b' ∨ r.err = none ∧ ∃ m, ok m ∧ Effect b m b'

section Operations

variable {b₁ : Books} {r : Ret} {ok : Move → Prop} {fid : Fid}

theorem Makes.fail (h : Effect b .keep b') (hr : r.err ≠ none) : Makes b b' r ok := Or.inl ⟨hr, h⟩

theorem Makes.move (h : Effect b m b') (hr : r.err = none) (hm : ok m) : Makes b b' r ok :=
  Or.inr ⟨hr, m, hm, h⟩

theorem Makes.mono {ok' : Move → Prop} (h : Makes b b' r ok) (hok : ∀ m, ok m → ok' m) :
    Makes b b' r ok' := by
  rcases h with h | ⟨hr, m, hm, he⟩
  · exact Or.inl h
  · exact Or.inr ⟨hr, m, hok m hm, he⟩

theorem Makes.after_calls (h : Makes b₁ b' r ok) (hc : Calls [] [] b b₁) : Makes b b' r ok := by
  rcases h with ⟨hr, he⟩ | ⟨hr, m, hm, he⟩
  · exact .fail (hc.then he) hr
  · exact .move (hc.then he) hr hm

theorem entries_none (h : b.refs fid = none) : b.entries fid = none :=
  congrArg (Option.map b.cell) h

theorem auth_effect {afid : Fid} (hop : .invoked t (.auth afid uname aname) ∈ b.log)
    (h : Ran t (auth afid uname aname) b r b') :
    Makes b b' r fun m => m = .keep ∧ afid = noFid ∨ ∃ f, m = .auth afid f := by
  unfold auth at h
  split at h
  · rename_i hafid
    obtain ⟨rfl, rfl⟩ := returns_ret h
    exact .move (.refl _) rfl (Or.inl ⟨rfl, hafid⟩)
  · obtain ⟨required, b₁, hcall, h⟩ := returns_bind h
    have hc := ran_call_plain hcall rfl rfl
    refine Makes.after_calls ?_ hc
    split at h
    · obtain ⟨rfl, rfl⟩ := returns_ret h
      exact .fail (.refl _) nofun
    · rcases ran_withNewRef h with ⟨⟨err, rfl⟩, rfl⟩ | ⟨hfree, hbody⟩
      · exact .fail (.refl _) nofun
      · obtain ⟨⟨afile, err⟩, b₂, hauth, hrest⟩ := returns_bind hbody
        have hc' := ran_call_plain hauth rfl rfl
        cases err with
        | some err =>
            obtain ⟨_, -, hret⟩ := ran_next hrest
            obtain ⟨rfl, rfl⟩ := returns_ret hret
            exact .fail (.rollback hfree hc') nofun
        | none =>
            obtain ⟨_, -, hret⟩ := ran_next hrest
            obtain ⟨rfl, rfl⟩ := returns_ret hret
            have hcell : b₂.cell b₁.next = ⟨none, none, 0⟩ := by
              rw [hc'.cell]
              exact Function.update_self ..
            refine .move (m := .auth afid afile) ?_ rfl (Or.inr ⟨afile, rfl⟩)
            show Effect b₁ _ (b₂.write b₁.next { b₂.cell b₁.next with file := afile })
            rw [hcell]
            refine .store hfree hc' rfl rfl (entries_none hfree) rfl rfl ?_
            rintro _ _ ⟨⟩
            have hstored : .stored t afid b₁.next ∈ b₂.log :=
              hc'.log (List.mem_append_right _ (List.mem_singleton_self _))
            have href : b₂.refs afid = some b₁.next := by
              rw [hc'.refs]
              exact Function.update_self ..
            exact ⟨b₁.next, href, t, afid, _, hc'.log (List.mem_append_left _ (hc.log hop)), rfl,
              hstored⟩

theorem attachWith_effect {af : Option File} (h : Ran t (attachWith fid uname aname af) b r b') :
    Makes b b' r fun m => ∃ d, m = .bind fid d := by
  rcases ran_withNewRef h with ⟨⟨err, rfl⟩, rfl⟩ | ⟨hfree, hbody⟩
  · exact .fail (.refl _) nofun
  · obtain ⟨⟨e, err⟩, b₁, hattach, hrest⟩ := returns_bind hbody
    obtain ⟨-, rfl⟩ := ran_call hattach
    have hc := (b.reserved t fid).calls_called t (.attach uname aname af) (e, err) rfl
    cases err with
    | some err =>
        obtain ⟨_, -, hret⟩ := ran_next hrest
        obtain ⟨rfl, rfl⟩ := returns_ret hret
        exact .fail (.rollback hfree hc) nofun
    | none =>
        obtain ⟨_, -, hret⟩ := ran_next hrest
        cases e with
        | none => exact absurd hret not_returns_crash
        | some d =>
            obtain ⟨q, b₂, hqid, hret⟩ := returns_bind hret
            obtain ⟨rfl, rfl⟩ := returns_ret hret
            refine .move (m := .bind fid d) (.then ?_ (ran_call_plain hqid rfl rfl)) rfl ⟨d, rfl⟩
            have hcell : (b.reserved t fid).cell b.next = ⟨none, none, 0⟩ := Function.update_self ..
            show Effect b _ (Books.write _ b.next
              { (b.reserved t fid).cell b.next with ent := some d })
            rw [hcell]
            exact .store hfree hc rfl rfl (entries_none hfree) rfl rfl nofun

theorem attach_effect {afid : Fid} (h : Ran t (attach fid afid uname aname) b r b') :
    Makes b b' r fun m => ∃ d, m = .bind fid d := by
  unfold attach at h
  split at h
  · exact attachWith_effect h
  · obtain ⟨res, _, hget, h⟩ := returns_bind h
    obtain ⟨rfl, -⟩ := ran_getRef hget
    cases res with
    | error err =>
        obtain ⟨rfl, rfl⟩ := returns_ret h
        exact .fail (.refl _) nofun
    | ok aref =>
        obtain ⟨f, -, h⟩ := ran_next h
        cases f with
        | none =>
            obtain ⟨rfl, rfl⟩ := returns_ret h
            exact .fail (.refl _) nofun
        | some f =>
            obtain ⟨f, -, h⟩ := ran_next (ran_deferUnlock h)
            rcases f with _ | ⟨id, _ | _ | _⟩
            · obtain ⟨rfl, rfl⟩ := returns_ret h
              exact .fail (.refl _) nofun
            · obtain ⟨rfl, rfl⟩ := returns_ret h
              exact .fail (.refl _) nofun
            · obtain ⟨ok, b₁, hcall, h⟩ := returns_bind h
              refine Makes.after_calls ?_ (ran_call_plain hcall rfl rfl)
              cases ok with
              | false =>
                  obtain ⟨rfl, rfl⟩ := returns_ret h
                  exact .fail (.refl _) nofun
              | true => exact attachWith_effect h
            · obtain ⟨rfl, rfl⟩ := returns_ret h
              exact .fail (.refl _) nofun

/-- `delRefAction` calls `Remove` or `Clunk` and clears the entry. -/
theorem ran_delRefAction {remove : Bool} {err : Option Err}
    (h : Ran t (delRefAction ref remove) b err b') :
    ∃ d b₁, (b.cell ref).ent = some d ∧ Calls [] [d] b b₁ ∧
      b' = b₁.write ref { b.cell ref with ent := none } := by
  obtain ⟨d, _, hent, h⟩ := returns_bind h
  obtain ⟨hd, rfl⟩ := ran_ent hent
  have hrest : ∀ {err2 : Option Err} {b₁ : Books}, Calls [] [d] b b₁ →
      Ran t (do issue (.setEnt ref none); return combineErrors none err2) b₁ err b' →
      ∃ d b₁, (b.cell ref).ent = some d ∧ Calls [] [d] b b₁ ∧
        b' = b₁.write ref { b.cell ref with ent := none } := by
    intro err2 b₁ hc h
    obtain ⟨_, -, h⟩ := ran_next h
    obtain ⟨-, rfl⟩ := returns_ret h
    refine ⟨d, b₁, hd, hc, ?_⟩
    show b₁.write ref { b₁.cell ref with ent := none } = _
    rw [hc.cell]
  cases remove with
  | true =>
      obtain ⟨err2, _, hcall, h⟩ := returns_bind h
      obtain ⟨-, rfl⟩ := ran_call hcall
      exact hrest (b.calls_called t (.remove d) err2 rfl) h
  | false =>
      obtain ⟨err2, _, hcall, h⟩ := returns_bind h
      obtain ⟨-, rfl⟩ := ran_call hcall
      exact hrest (b.calls_called t (.clunk d) err2 rfl) h

/-- The books once `LoadAndDelete` has taken `fid` out. -/
theorem Books.Effect.drop {d : Option Nat} (href : b.refs fid = some ref)
    (hd : (b.cell ref).ent = d)
    (hc : Calls [] d.toList ((b.erase fid).record (.took t fid ref)) b₁) (e : Entry) :
    Effect b (.drop fid d) (b₁.write ref e) where
  enabled := by
    show (b.entries fid).bind Entry.ent = d
    rw [show b.entries fid = some (b.cell ref) from congrArg (Option.map b.cell) href]
    exact hd
  entries := by
    have hunbound : ∀ fid', b₁.refs fid' ≠ some ref := by
      intro fid' h
      rw [hc.refs] at h
      rcases Custody.of_update_eq_some h with ⟨-, h⟩ | ⟨hne, h⟩
      · cases h
      · exact hne (b.distinct fid' fid ref h href)
    rw [entries_write_of_unbound hunbound, hc.entries]
    exact b.entries_erase fid
  obtained := hc.obtained.trans (congrArg (· ++ _) (obtained_record b.log rfl))
  released := hc.released.trans (congrArg (· ++ _) (released_record b.log rfl))
  log := fun _ hm => hc.log (List.mem_append_left _ hm)
  refs fid' ref' href' := by
    rcases eq_or_ne fid' fid with rfl | hne
    · right
      exact (congrFun hc.refs fid').trans (Function.update_self ..)
    · left
      exact (congrFun hc.refs fid').trans ((Function.update_of_ne hne ..).trans href')
  opens := nofun
  auths := nofun

theorem delRef_effect {remove : Bool} {err : Option Err} (h : Ran t (delRef fid remove) b err b') :
    ∃ d, Effect b (.drop fid d) b' := by
  obtain ⟨ref?, href, h⟩ := ran_next h
  have href : ref? = b.refs fid := href
  cases ref? with
  | none =>
      obtain ⟨rfl, rfl⟩ := returns_ret h
      have hnone : b.entries fid = none := entries_none href.symm
      have hkeep := Effect.refl b
      refine ⟨none, Ledger.ent_none hnone, ?_, hkeep.obtained, hkeep.released, hkeep.log,
        hkeep.refs, nofun, nofun⟩
      show b.entries = Function.update b.entries fid none
      rw [← hnone, Function.update_eq_self]
  | some ref =>
      obtain ⟨_, -, h⟩ := ran_next h
      obtain ⟨e, he, h⟩ := ran_next (ran_deferUnlock h)
      have he : e = (b.cell ref).ent := he
      cases e with
      | none =>
          obtain ⟨rfl, rfl⟩ := returns_ret h
          have heff := Effect.drop href.symm he.symm
            (.refl ((b.erase fid).record (.took t fid ref)))
            (((b.erase fid).record (.took t fid ref)).cell ref)
          rw [write_self] at heff
          exact ⟨none, heff⟩
      | some d =>
          obtain ⟨d', b₁, hd', hc, rfl⟩ := ran_delRefAction h
          cases he.trans hd'
          exact ⟨some d, .drop href.symm he.symm hc _⟩

/-- A `Walk` of the file system along `names` has returned the `Dirent` `d`. -/
def WalkedTo (log : List Event) (t : Nat) (names : List Bytes) (d : Nat) : Prop :=
  ∃ d₀ qids, .leave t (.walk d₀ names) (qids, some d, none) ∈ log

theorem WalkedTo.mono {names : List Bytes} (h : WalkedTo log t names d) (hlog : log ⊆ log') :
    WalkedTo log' t names d := by
  obtain ⟨d₀, qids, h⟩ := h
  exact ⟨d₀, qids, hlog h⟩

/-- The result `r` of a `Walk` that has not come to its end: an error, too few
qids, or nothing to do. -/
def Short (same : Bool) (names : List Bytes) (r : Ret) : Prop :=
  r.err ≠ none ∨ ∃ qs, r = .qids qs none ∧ (qs.length ≠ names.length ∨ same ∧ names = [])

/-- The outcome of `walkEnt`. -/
def WalkEnt (t : Nat) (same : Bool) (names : List Bytes) (b b' : Books) :
    Except Ret (List Qid × Nat) → Prop
  | .error r => Calls [] [] b b' ∧ Short same names r
  | .ok (qids, d) => WalkedTo b'.log t names d ∧ (same → names ≠ []) ∧
      (qids.length ≠ names.length ∧ Calls [] [] b b' ∨
        qids.length = names.length ∧ Calls [d] [] b b')

theorem ran_walkEnt {same : Bool} {names : List Bytes} {res : Except Ret (List Qid × Nat)}
    (h : Ran t (walkEnt ref same names) b res b') : WalkEnt t same names b b' res := by
  unfold walkEnt at h
  split at h
  · rename_i hnames
    subst hnames
    split at h
    · rename_i hsame
      obtain ⟨rfl, rfl⟩ := returns_ret h
      exact ⟨.refl _, Or.inr ⟨[], rfl, Or.inr ⟨hsame, rfl⟩⟩⟩
    · rename_i hsame
      obtain ⟨d₀, _, hent, h⟩ := returns_bind h
      obtain ⟨-, rfl⟩ := ran_ent hent
      obtain ⟨⟨qids, e, err⟩, _, hcall, h⟩ := returns_bind h
      obtain ⟨-, rfl⟩ := ran_call hcall
      have hc := b.calls_called t (.walk d₀ []) (qids, e, err) rfl
      rcases err with _ | err
      · rcases e with _ | d
        · obtain ⟨rfl, rfl⟩ := returns_ret h
          exact ⟨hc, Or.inl nofun⟩
        · obtain ⟨rfl, rfl⟩ := returns_ret h
          refine ⟨⟨d₀, qids, List.mem_append_right _ (List.mem_singleton_self _)⟩,
            fun hs => absurd hs hsame, Or.inr ⟨rfl, hc⟩⟩
      · obtain ⟨rfl, rfl⟩ := returns_ret h
        exact ⟨hc, Or.inl nofun⟩
  · rename_i hnames
    obtain ⟨d₀, _, hent, h⟩ := returns_bind h
    obtain ⟨-, rfl⟩ := ran_ent hent
    obtain ⟨dir, b₁, hdir, h⟩ := returns_bind h
    have hc₁ := ran_isDir hdir
    cases dir with
    | false =>
        obtain ⟨rfl, rfl⟩ := returns_ret h
        exact ⟨hc₁, Or.inl nofun⟩
    | true =>
        obtain ⟨d₀, _, hent, h⟩ := returns_bind h
        obtain ⟨-, rfl⟩ := ran_ent hent
        obtain ⟨⟨qids, e, err⟩, _, hcall, h⟩ := returns_bind h
        obtain ⟨-, rfl⟩ := ran_call hcall
        have hc := hc₁.trans (b₁.calls_called t (.walk d₀ names) (qids, e, err) rfl)
        rcases err with _ | err
        · rcases e with _ | d
          · obtain ⟨rfl, rfl⟩ := returns_ret h
            have hnone : Call.obtains (.walk d₀ names) (qids, none, none) = none := ite_self _
            rw [hnone] at hc
            exact ⟨hc, Or.inl nofun⟩
          · have hobtains : Call.obtains (.walk d₀ names) (qids, some d, none) =
                if qids.length = names.length then some d else none :=
              if_congr (or_iff_right hnames) rfl rfl
            rw [hobtains] at hc
            have hwalked : WalkedTo (b₁.called t (.walk d₀ names) (qids, some d, none)).log t
              names d :=
              ⟨d₀, qids, List.mem_append_right _ (List.mem_singleton_self _)⟩
            dsimp only [ensureNonNil] at h
            split at h
            · rename_i hzero
              obtain ⟨rfl, rfl⟩ := returns_ret h
              have hlen : 0 ≠ names.length :=
                fun heq => hnames (List.length_eq_zero_iff.mp heq.symm)
              rw [if_neg (by rw [hzero]; exact hlen)] at hc
              exact ⟨hc, Or.inr ⟨[], rfl, Or.inl hlen⟩⟩
            · obtain ⟨rfl, rfl⟩ := returns_ret h
              refine ⟨hwalked, fun _ => hnames, ?_⟩
              by_cases heq : qids.length = names.length
              · rw [if_pos heq] at hc
                exact Or.inr ⟨heq, hc⟩
              · rw [if_neg heq] at hc
                exact Or.inl ⟨heq, hc⟩
        · obtain ⟨rfl, rfl⟩ := returns_ret h
          exact ⟨hc, Or.inl nofun⟩

/-- What a `Walk` may do if it returns `r`, which is no error. -/
def Walks (t : Nat) (fid newfid : Fid) (names : List Bytes) (log : List Event) (r : Ret)
    (m : Move) :
    Prop :=
  ∃ qs, r = .qids qs none ∧
    ((qs.length ≠ names.length ∨ newfid = fid ∧ names = []) ∧ m = .keep ∨
      qs.length = names.length ∧ ∃ d, WalkedTo log t names d ∧
        (newfid ≠ fid ∧ m = .bind newfid d ∨ newfid = fid ∧ names ≠ [] ∧ ∃ d₀,
          m = .rebind fid d₀ d))

/-- A `Walk` that stops short leaves things as they were. -/
theorem Short.makes {names : List Bytes} {same : Bool} (h : Short same names r)
    (hsame : same → newfid = fid) (he : Effect b .keep b') :
    Makes b b' r (Walks t fid newfid names log r) := by
  rcases h with hr | ⟨qs, rfl, hqs⟩
  · exact .fail he hr
  · exact .move he rfl ⟨qs, rfl, Or.inl ⟨hqs.imp id (And.imp hsame id), rfl⟩⟩

/-- `Walk` in place. -/
theorem walkLocked_same {names : List Bytes} (href : b.refs fid = some ref)
    (h : Ran t (walkLocked ref none names) b (r, ref', newref) b') :
    newref = none ∧ Makes b b' r (Walks t fid fid names b'.log r) := by
  obtain ⟨res, b₁, hwalk, h⟩ := returns_bind h
  have hres := ran_walkEnt hwalk
  rcases res with r' | ⟨qids, d⟩
  · obtain ⟨heq, rfl⟩ := returns_ret h
    cases heq
    exact ⟨rfl, hres.2.makes (fun _ => rfl) hres.1.effect⟩
  · obtain ⟨hwalked, hnames, hcalls⟩ := hres
    dsimp only at h
    rcases hcalls with ⟨hne, hc⟩ | ⟨heq, hc⟩
    · rw [if_pos hne] at h
      obtain ⟨heq, rfl⟩ := returns_ret h
      cases heq
      exact ⟨rfl, .move hc.effect rfl ⟨qids, rfl, Or.inl ⟨Or.inl hne, rfl⟩⟩⟩
    · rw [if_neg (not_not_intro heq)] at h
      obtain ⟨d₀, _, hent, h⟩ := returns_bind h
      obtain ⟨hd₀, rfl⟩ := ran_ent hent
      obtain ⟨err, _, hclunk, h⟩ := returns_bind h
      obtain ⟨-, rfl⟩ := ran_call hclunk
      have hc' := hc.trans (b₁.calls_called t (.clunk d₀) err rfl)
      obtain ⟨_, -, h⟩ := ran_next h
      obtain ⟨heq', rfl⟩ := returns_ret h
      cases heq'
      have hentry : b.entries fid = some (b.cell ref) := congrArg (Option.map b.cell) href
      have hent₀ : b.entries.ent fid = some d₀ := by
        show (b.entries fid).bind Entry.ent = some d₀
        rw [hentry, ← hc.cell]
        exact hd₀
      refine ⟨rfl, .move (m := .rebind fid d₀ d) ?_ rfl
        ⟨qids, rfl, Or.inr ⟨heq, d, ?_, Or.inr ⟨rfl, hnames rfl, d₀, rfl⟩⟩⟩⟩
      · refine .write hent₀ href hc' ?_ nofun nofun
        show Function.update b.entries fid ((b.entries fid).map _) = _
        rw [hentry, hc'.cell]
        rfl
      · exact hwalked.mono fun _ hm => List.mem_append_left _ (List.mem_append_left _ hm)

/-- `Walk` to another fid, and the cleanup at its end. -/
theorem walkLocked_new {names : List Bytes} (hne : newfid ≠ fid) (hfree : b.refs newfid = none)
    (h : Ran t (walkLocked ref (some b.next) names) (b.reserved t newfid) (r, ref', newref) b₁)
    (hclean : Ran t (walkCleanup newfid ref' newref) b₁ () b') :
    Makes b b' r (Walks t fid newfid names b'.log r) := by
  obtain ⟨res, b₂, hwalk, h⟩ := returns_bind h
  have hres := ran_walkEnt hwalk
  -- the placeholder is deleted
  have hrollback : Calls [] [] (b.reserved t newfid) b₁ →
      Ran t (walkCleanup newfid ref' (some b.next)) b₁ () b' → Effect b .keep b' := by
    intro hc hclean
    obtain ⟨_, -, hclean⟩ := ran_next hclean
    obtain ⟨_, -, hclean⟩ := ran_next hclean
    obtain ⟨-, rfl⟩ := returns_issue hclean
    exact .rollback hfree hc
  rcases res with r' | ⟨qids, d⟩
  · obtain ⟨heq, rfl⟩ := returns_ret h
    cases heq
    exact hres.2.makes nofun (hrollback hres.1 hclean)
  · obtain ⟨hwalked, -, hcalls⟩ := hres
    dsimp only at h
    rcases hcalls with ⟨hlen, hc⟩ | ⟨hlen, hc⟩
    · rw [if_pos hlen] at h
      obtain ⟨heq, rfl⟩ := returns_ret h
      cases heq
      exact .move (hrollback hc hclean) rfl ⟨qids, rfl, Or.inl ⟨Or.inl hlen, rfl⟩⟩
    · rw [if_neg (not_not_intro hlen)] at h
      obtain ⟨_, -, h⟩ := ran_next h
      obtain ⟨_, -, h⟩ := ran_next h
      obtain ⟨heq, rfl⟩ := returns_ret h
      cases heq
      obtain ⟨-, rfl⟩ := returns_issue hclean
      refine .move (m := .bind newfid d) ?_ rfl
        ⟨qids, rfl, Or.inr ⟨hlen, d, hwalked, Or.inl ⟨hne, rfl⟩⟩⟩
      have hcell : b₂.cell b.next = ⟨none, none, 0⟩ := by
        rw [hc.cell]
        exact Function.update_self ..
      show Effect b _ (b₂.write b.next { b₂.cell b.next with ent := some d })
      rw [hcell]
      exact .store hfree hc rfl rfl (entries_none hfree) rfl rfl nofun

theorem walk_effect {names : List Bytes} (h : Ran t (walk fid newfid names) b r b') :
    Makes b b' r (Walks t fid newfid names b'.log r) := by
  unfold walk at h
  split at h
  · obtain ⟨rfl, rfl⟩ := returns_ret h
    exact .fail (.refl _) nofun
  · obtain ⟨res, _, hget, h⟩ := returns_bind h
    obtain ⟨rfl, hok⟩ := ran_getRef hget
    cases res with
    | error err =>
        obtain ⟨rfl, rfl⟩ := returns_ret h
        exact .fail (.refl _) nofun
    | ok ref =>
        obtain ⟨newref?, b₁, hnew, h⟩ := returns_bind h
        unfold walkRef at hnew
        split at hnew
        · rename_i hsame
          subst hsame
          obtain ⟨rfl, rfl⟩ := returns_ret hnew
          obtain ⟨⟨r', ref', newref⟩, b₂, hwalk, h⟩ := returns_bind h
          obtain ⟨rfl, hmakes⟩ := walkLocked_same (hok ref rfl).1 hwalk
          obtain ⟨_, -, h⟩ := ran_next h
          obtain ⟨rfl, rfl⟩ := returns_ret h
          exact hmakes
        · rename_i hne
          obtain ⟨res, b₂, hnewRef, hnew⟩ := returns_bind hnew
          rcases ran_newRef hnewRef with ⟨⟨err, rfl⟩, rfl⟩ | ⟨rfl, hfree, rfl⟩
          · obtain ⟨rfl, rfl⟩ := returns_ret hnew
            obtain ⟨_, -, h⟩ := ran_next h
            obtain ⟨rfl, rfl⟩ := returns_ret h
            exact .fail (.refl _) nofun
          · obtain ⟨rfl, rfl⟩ := returns_ret hnew
            obtain ⟨⟨r', ref', newref⟩, b₂, hwalk, h⟩ := returns_bind h
            obtain ⟨⟨⟩, b₃, hclean, h⟩ := returns_bind h
            obtain ⟨rfl, rfl⟩ := returns_ret h
            exact walkLocked_new hne hfree hwalk hclean

/-- `Read` and `Write` do what they do on the open file of the fid, or nothing. -/
theorem ran_transfer (h : Ran t (transfer fid refuses denied io) b r b') :
    b = b' ∨ ∃ f a, b.entries.file fid = some f ∧ Ran t (io f) b a b' := by
  rcases ran_withRef h with ⟨-, rfl⟩ | ⟨ref, d, href, -, hbody⟩
  · exact Or.inl rfl
  · obtain ⟨f, -, h⟩ := ran_next hbody
    cases f with
    | none =>
        obtain ⟨-, rfl⟩ := returns_ret h
        exact Or.inl rfl
    | some f =>
        obtain ⟨mode, -, h⟩ := ran_next h
        dsimp only at h
        split at h
        · obtain ⟨-, rfl⟩ := returns_ret h
          exact Or.inl rfl
        · obtain ⟨f, _, hfile, h⟩ := returns_bind h
          obtain ⟨hf, rfl⟩ := ran_file hfile
          obtain ⟨a, b₁, hcall, h⟩ := returns_bind h
          obtain ⟨-, rfl⟩ := returns_ret h
          refine Or.inr ⟨f, a, ?_, hcall⟩
          show ((b.refs fid).map b.cell).bind Entry.file = some f
          rw [href]
          exact hf

/-- The calls of `Read` and `Write` have no part in the ledger. -/
theorem transfer_effect (hio : ∀ {f b a b'}, Ran t (io f) b a b' → Calls [] [] b b')
    (h : Ran t (transfer fid refuses denied io) b r b') : Effect b .keep b' := by
  rcases ran_transfer h with rfl | ⟨f, a, -, hcall⟩
  · exact .refl _
  · exact (hio hcall).effect

/-- `Stat` and `WStat`. -/
theorem query_effect {fail : Err → Ret} {c : Nat → Call} {ret : (d : Nat) → (c d).Res → Ret}
    (hg : ∀ d r, (c d).obtains r = none)
    (hl : ∀ d r, (Event.enter t (c d)).releases.toList ++ ((c d).consumes r).toList = [])
    (h : Ran t (withRef fid fail fun ref => do
      let d ← ent ref
      return ret d (← call (c d))) b r b') : Effect b .keep b' := by
  rcases ran_withRef h with ⟨-, rfl⟩ | ⟨ref, d, -, -, hbody⟩
  · exact .refl _
  · obtain ⟨d, _, hent, h⟩ := returns_bind hbody
    obtain ⟨-, rfl⟩ := ran_ent hent
    obtain ⟨a, b₁, hcall, h⟩ := returns_bind h
    obtain ⟨-, rfl⟩ := returns_ret h
    exact (ran_call_plain hcall (hg d a) (hl d a)).effect

/-- `OpenDir` or `Open` has returned the file `f`. -/
def Made (log : List Event) (t d : Nat) (mode : Flag) (f : File) : Prop :=
  .leave t (.openDir d) (f, none) ∈ log ∨ .leave t (.open d mode) (some f, none) ∈ log

/-- A call of thread `t` has returned the file `f`. -/
def Gave (log : List Event) (t : Nat) (f : File) : Prop :=
  ∃ c r, .leave t c r ∈ log ∧ c.newFile r = some f

theorem Gave.mono (h : Gave log t f) (hlog : log ⊆ log') : Gave log' t f := by
  obtain ⟨c, r, hm, hf⟩ := h
  exact ⟨c, r, hlog hm, hf⟩

theorem Made.gave (h : Made log t d mode f) : Gave log t f := by
  rcases h with h | h
  · exact ⟨_, _, h, rfl⟩
  · exact ⟨_, _, h, rfl⟩

theorem Made.openedFor {op : Op} (h : Made log t d mode f) (hop : .invoked t op ∈ log)
    (hmode : op.openMode = some mode) : OpenedFor log d f mode :=
  ⟨t, h.symm.imp id fun h => Or.inl ⟨h, op, hop, hmode⟩⟩

theorem ran_openEnt {getEnt : M Nat}
    (hget : ∀ {b₀ d' b₁}, b₀.cell = b.cell → Ran t getEnt b₀ d' b₁ → d = d' ∧ b₀ = b₁)
    (h : Ran t (openEnt getEnt mode) b res b') :
    Calls [] [] b b' ∧ ∀ f, res = .ok f → Made b'.log t d mode f := by
  obtain ⟨d', b₀, hent, h⟩ := returns_bind h
  obtain ⟨rfl, rfl⟩ := hget rfl hent
  obtain ⟨dir, b₁, hdir, h⟩ := returns_bind h
  have hc := ran_isDir hdir
  cases dir with
  | true =>
      obtain ⟨d', b₀, hent, h⟩ := returns_bind h
      obtain ⟨rfl, rfl⟩ := hget hc.cell hent
      obtain ⟨⟨f, err⟩, b₂, hcall, h⟩ := returns_bind h
      have hc' := hc.trans (ran_call_plain hcall rfl rfl)
      obtain ⟨-, rfl⟩ := ran_call hcall
      cases err with
      | some err =>
          obtain ⟨rfl, rfl⟩ := returns_ret h
          exact ⟨hc', nofun⟩
      | none =>
          obtain ⟨rfl, rfl⟩ := returns_ret h
          refine ⟨hc', ?_⟩
          rintro _ ⟨⟩
          exact Or.inl (List.mem_append_right _ (List.mem_singleton_self _))
  | false =>
      obtain ⟨d', b₀, hent, h⟩ := returns_bind h
      obtain ⟨rfl, rfl⟩ := hget hc.cell hent
      obtain ⟨⟨f, err⟩, b₂, hcall, h⟩ := returns_bind h
      have hc' := hc.trans (ran_call_plain hcall rfl rfl)
      obtain ⟨-, rfl⟩ := ran_call hcall
      obtain ⟨rfl, rfl⟩ := returns_ret h
      refine ⟨hc', ?_⟩
      intro f' hf'
      rcases f with _ | f <;> rcases err with _ | err <;> cases hf'
      exact Or.inr (List.mem_append_right _ (List.mem_singleton_self _))

theorem open_effect (hop : .invoked t (.open fid mode) ∈ b.log)
    (h : Ran t («open» fid mode) b r b') :
    Makes b b' r fun m => ∃ d f, m = .open fid d f mode ∧ Gave b'.log t f := by
  rcases ran_withRef h with ⟨⟨err, rfl⟩, rfl⟩ | ⟨ref, d, href, hd, hbody⟩
  · exact .fail (.refl _) nofun
  · obtain ⟨err, b₁, hopen, h⟩ := returns_bind hbody
    obtain ⟨f, hf, hopen⟩ := ran_next hopen
    have hf : f = (b.cell ref).file := hf
    cases f with
    | some f =>
        obtain ⟨rfl, rfl⟩ := returns_ret hopen
        obtain ⟨rfl, rfl⟩ := returns_ret h
        exact .fail (.refl _) nofun
    | none =>
        obtain ⟨res, b₂, hopenEnt, hopen⟩ := returns_bind hopen
        have hget : ∀ {b₀ d' b₁}, b₀.cell = b.cell → Ran t (ent ref) b₀ d' b₁ →
            d = d' ∧ b₀ = b₁ := by
          intro b₀ d' b₁ hcell hent
          obtain ⟨hd', rfl⟩ := ran_ent hent
          rw [hcell] at hd'
          exact ⟨Option.some.inj (hd.symm.trans hd'), rfl⟩
        obtain ⟨hc, hmade⟩ := ran_openEnt hget hopenEnt
        cases res with
        | error err =>
            obtain ⟨rfl, rfl⟩ := returns_ret hopen
            obtain ⟨rfl, rfl⟩ := returns_ret h
            exact .fail hc.effect nofun
        | ok f =>
            obtain ⟨_, -, hopen⟩ := ran_next hopen
            obtain ⟨_, -, hopen⟩ := ran_next hopen
            obtain ⟨rfl, rfl⟩ := returns_ret hopen
            obtain ⟨d', _, hent, h⟩ := returns_bind h
            obtain ⟨-, rfl⟩ := ran_ent hent
            obtain ⟨q, b₃, hqid, h⟩ := returns_bind h
            obtain ⟨f', _, hfile, h⟩ := returns_bind h
            obtain ⟨-, rfl⟩ := ran_file hfile
            obtain ⟨n, b₄, hio, h⟩ := returns_bind h
            obtain ⟨rfl, rfl⟩ := returns_ret h
            have hcalls := (ran_call_plain hqid rfl rfl).trans (ran_ioUnit hio)
            have hgave : Gave b₂.log t f := (hmade f rfl).gave
            refine .move (m := .open fid d f mode) (.then ?_ hcalls) rfl
              ⟨d, f, rfl, hgave.mono hcalls.log⟩
            have hentry : b.entries fid = some (b.cell ref) := congrArg (Option.map b.cell) href
            have hopened := (hmade f rfl).openedFor (hc.log hop) rfl
            show Effect b _ ((b₂.write ref { b₂.cell ref with file := some f }).write ref
              { (b₂.write ref { b₂.cell ref with file := some f }).cell ref with mode })
            rw [write_write, write_cell_self]
            refine .write ⟨?_, ?_⟩ href hc ?_ ?_ nofun
            · exact (congrArg (·.bind Entry.ent) hentry).trans hd
            · exact (congrArg (·.bind Entry.file) hentry).trans hf.symm
            · show Function.update b.entries fid ((b.entries fid).map _) = _
              rw [hentry, hc.cell]
              rfl
            · rintro _ _ _ ⟨⟩
              exact hopened

/-! ## Create

`Create` may lock the mutex of its own `SFid` a second time, so it is followed
on the store: the rollback does not return.  -/

theorem ran_replaceEnt (h : Ran t (replaceEnt ref d f mode) b r b') :
    r.err = none ∧ Calls [] [] (b.write ref ⟨some d, some f, mode⟩) b' := by
  obtain ⟨_, -, h⟩ := ran_next h
  obtain ⟨_, -, h⟩ := ran_next h
  obtain ⟨_, -, h⟩ := ran_next h
  obtain ⟨_, -, h⟩ := ran_next h
  obtain ⟨_, -, h⟩ := ran_next h
  obtain ⟨d', _, hent, h⟩ := returns_bind h
  obtain ⟨-, rfl⟩ := ran_ent hent
  obtain ⟨q, b₁, hqid, h⟩ := returns_bind h
  obtain ⟨n, b₂, hio, h⟩ := returns_bind h
  obtain ⟨rfl, rfl⟩ := returns_ret h
  have hc := (ran_call_plain hqid rfl rfl).trans (ran_ioUnit hio)
  simp only [Books.after, write_write, write_cell_self] at hc
  exact ⟨rfl, hc⟩

theorem returns_call_table {c : Call} {res : c.Res}
    (h : Returns (CanExec exec t) (call c) s res s') :
    s'.toTable = s.toTable := by
  obtain ⟨_, _, ⟨_, henter⟩, h⟩ := returns_next h
  obtain ⟨_, hleave⟩ := returns_issue h
  cases henter
  cases hleave
  rfl

theorem returns_ent_store (h : Returns (CanExec exec t) (ent ref) s d s') : s = s' := by
  obtain ⟨e, _, ⟨_, hget⟩, hret⟩ := returns_next h
  cases hget
  cases he : (s.sfid ref).ent with
  | none =>
      rw [he] at hret
      exact absurd hret not_returns_crash
  | some d =>
      rw [he] at hret
      exact (returns_ret hret).2

theorem returns_isDir_table {dir : Bool} (h : Returns (CanExec exec t) (isDir d) s dir s') :
    s'.toTable = s.toTable := by
  obtain ⟨q, _, hcall, h⟩ := returns_bind h
  obtain ⟨-, rfl⟩ := returns_ret h
  exact returns_call_table hcall

theorem returns_openEnt_table (h : Returns (CanExec exec t) (openEnt (pure d) mode) s res s') :
    s'.toTable = s.toTable := by
  obtain ⟨dir, s₁, hdir, h⟩ := returns_bind (p := isDir d) h
  have htable := returns_isDir_table hdir
  cases dir with
  | true =>
      obtain ⟨⟨f, err⟩, s₂, hcall, h⟩ := returns_bind (p := call (.openDir d)) h
      have htable' := (returns_call_table hcall).trans htable
      cases err with
      | some err =>
          obtain ⟨-, rfl⟩ := returns_ret h
          exact htable'
      | none =>
          obtain ⟨-, rfl⟩ := returns_ret h
          exact htable'
  | false =>
      obtain ⟨res', s₂, hcall, h⟩ := returns_bind (p := call (.open d mode)) h
      obtain ⟨-, rfl⟩ := returns_ret h
      exact (returns_call_table hcall).trans htable

/-- A thread that holds the mutex of `ref` waits for it forever. -/
theorem not_returns_delRef {remove : Bool} {err : Option Err} (href : s.refs fid = some ref)
    (howner : (s.sfid ref).owner = some t) :
    ¬ Returns (CanExec exec t) (delRef fid remove) s err s' := by
  intro h
  obtain ⟨ref?, s₁, ⟨e, hexec⟩, h⟩ := returns_next h
  rcases exec_loadAndDelete hexec with ⟨rfl, rfl⟩ | ⟨ref', href', rfl, rfl⟩
  · simp only [exec, href] at hexec
    cases hexec
  · cases href.symm.trans href'
    obtain ⟨_, _, ⟨_, hlock⟩, -⟩ := returns_next h
    have hfree : (s.sfid ref).owner = none := (exec_lock hlock).1
    cases howner.symm.trans hfree

theorem created_error (d₀ : Nat) (name : Bytes) (perm : UInt32) (mode : Flag) {f : Option File}
    {err : Option Err} {err' : Err} (h : created e f err = .error err') :
    Call.obtains (.create d₀ name perm mode) (e, f, err) = none ∧
      Call.consumes (.create d₀ name perm mode) (e, f, err) = none := by
  rcases e with _ | d <;> rcases f with _ | f <;> rcases err with _ | err <;>
    first | exact ⟨rfl, rfl⟩ | cases h

theorem created_ok {f : Option File} {err : Option Err} {p : Nat × File}
    (h : created e f err = .ok p) : e = some p.1 ∧ f = some p.2 ∧ err = none := by
  rcases e with _ | d <;> rcases f with _ | f <;> rcases err with _ | err <;>
    first | (cases h; exact ⟨rfl, rfl, rfl⟩) | cases h

theorem createLocked_effect {parent : Fid} {perm : UInt32} (hs : s.Distinct)
    (href : s.refs parent = some ref) (howner : (s.sfid ref).owner = some t)
    (hop : .invoked t (.create parent name perm mode) ∈ s.log)
    (h : Returns (CanExec exec t) (createLocked ref parent name perm mode) s r s') :
    ∃ hs', Makes (s.books hs) (s'.books hs') r
      fun m => ∃ d d' f, m = .replace parent d d' f mode ∧ Gave s'.log t f := by
  obtain ⟨d₀, _, hent, h⟩ := returns_bind h
  obtain rfl := returns_ent_store hent
  obtain ⟨dir, s₁, hdir, h⟩ := returns_bind h
  obtain ⟨hs₁, hbooks₁⟩ := books_returns hdir hs
  have hc₁ := ran_isDir hbooks₁
  have htable₁ := returns_isDir_table hdir
  cases dir with
  | false =>
      obtain ⟨rfl, rfl⟩ := returns_ret h
      exact ⟨hs₁, .fail hc₁.effect nofun⟩
  | true =>
      obtain ⟨d₀, _, hent, h⟩ := returns_bind h
      obtain ⟨_, hent'⟩ := books_returns hent hs₁
      obtain ⟨hd₀, -⟩ := ran_ent hent'
      obtain rfl := returns_ent_store hent
      obtain ⟨⟨e, f, err⟩, s₂, hcall, h⟩ := returns_bind h
      have htable₂ := (returns_call_table hcall).trans htable₁
      obtain ⟨hs₂, hbooks₂⟩ := books_returns hcall hs₁
      have hc₂ := hc₁.trans (ran_call_calls hbooks₂)
      dsimp only at h
      cases hcr : created e f err with
      | error err' =>
          rw [hcr] at h
          obtain ⟨rfl, rfl⟩ := returns_ret h
          obtain ⟨hobtains, hconsumes⟩ := created_error d₀ name perm mode hcr
          rw [hobtains, hconsumes] at hc₂
          exact ⟨hs₂, .fail hc₂.effect nofun⟩
      | ok p =>
          obtain ⟨d, f'⟩ := p
          obtain ⟨rfl, rfl, rfl⟩ := created_ok hcr
          have hentry : (s.books hs).entries parent = some ((s.books hs).cell ref) :=
            congrArg (Option.map _) href
          have hen : (s.books hs).entries.ent parent = some d₀ := by
            show ((s.books hs).entries parent).bind Entry.ent = some d₀
            rw [hentry, ← hc₁.cell]
            exact hd₀
          -- the end of both branches, once the file is known
          have hreplace : ∀ {s₃ : Store} {f : File} (hs₃ : s₃.Distinct),
              Calls [d] [d₀] (s.books hs) (s₃.books hs₃) → OpenedFor s₃.log d f mode →
              Gave s₃.log t f → Returns (CanExec exec t) (replaceEnt ref d f mode) s₃ r s' →
              ∃ hs', Makes (s.books hs) (s'.books hs') r
                fun m => ∃ d d' f, m = .replace parent d d' f mode ∧ Gave s'.log t f := by
            intro s₃ f hs₃ hc₃ hopened hgave h
            obtain ⟨hs', hbooks⟩ := books_returns h hs₃
            obtain ⟨hr, hc⟩ := ran_replaceEnt hbooks
            refine ⟨hs', .move (m := .replace parent d₀ d f mode) (.then ?_ hc) hr
              ⟨d₀, d, f, rfl, hgave.mono hc.log⟩⟩
            refine .write hen href hc₃ rfl ?_ nofun
            rintro _ _ _ ⟨⟩
            exact hopened
          obtain ⟨dir, s₃, hdir, h⟩ := returns_bind h
          have htable₃ := (returns_isDir_table hdir).trans htable₂
          obtain ⟨hs₃, hbooks₃⟩ := books_returns hdir hs₂
          have hc₃ := hc₂.trans (ran_isDir hbooks₃)
          have hmade : .leave t (.create d₀ name perm mode) (some d, some f', none) ∈ s₃.log := by
            refine (ran_isDir hbooks₃).log ?_
            rw [(ran_call hbooks₂).2]
            exact List.mem_append_right _ (List.mem_singleton_self _)
          cases dir with
          | false =>
              exact hreplace hs₃ hc₃ ⟨t, Or.inr (Or.inr ⟨d₀, name, perm, hmade⟩)⟩
                ⟨_, _, hmade, rfl⟩ h
          | true =>
              obtain ⟨res, s₄, hopen, h⟩ := returns_bind h
              have htable₄ := (returns_openEnt_table hopen).trans htable₃
              obtain ⟨hs₄, hbooks₄⟩ := books_returns hopen hs₃
              obtain ⟨hc, hmade'⟩ := ran_openEnt (fun _ h => returns_ret h) hbooks₄
              have hc₄ := hc₃.trans hc
              cases res with
              | error err =>
                  obtain ⟨_, _, hdel, -⟩ := returns_bind h
                  refine absurd hdel (not_returns_delRef (?_ : _ = some ref) ?_)
                  · rw [htable₄, href]
                  · rw [htable₄, howner]
              | ok f =>
                  exact hreplace hs₄ hc₄ ((hmade' f rfl).openedFor (hc₄.log hop) rfl)
                    (hmade' f rfl).gave h

theorem returns_getRef_owner (h : Returns (CanExec exec t) (getRef fid) s (.ok ref) s') :
    s'.refs fid = some ref ∧ (s'.sfid ref).owner = some t ∧ s'.log = s.log := by
  unfold getRef at h
  split at h
  · cases (returns_ret h).1
  · obtain ⟨ref?, _, ⟨_, hload⟩, h⟩ := returns_next h
    cases hload
    cases href : s.refs fid with
    | none =>
        rw [href] at h
        cases (returns_ret h).1
    | some ref' =>
        rw [href] at h
        obtain ⟨_, s₁, ⟨_, hlock⟩, h⟩ := returns_next h
        obtain ⟨-, rfl⟩ := exec_lock hlock
        obtain ⟨e, _, ⟨_, hget⟩, h⟩ := returns_next h
        cases hget
        rw [Store.modify_sfid_self] at h
        dsimp only at h
        cases hent : (s.sfid ref').ent with
        | none =>
            rw [hent] at h
            obtain ⟨_, _, -, h⟩ := returns_next h
            cases (returns_ret h).1
        | some d =>
            rw [hent] at h
            obtain ⟨heq, rfl⟩ := returns_ret h
            cases heq
            exact ⟨href, by rw [Store.modify_sfid_self], rfl⟩

theorem create_effect {perm : UInt32} (hs : s.Distinct)
    (hop : .invoked t (.create fid name perm mode) ∈ s.log)
    (h : Returns (CanExec exec t) (create fid name perm mode) s r s') :
    ∃ hs', Makes (s.books hs) (s'.books hs') r
      fun m => ∃ d d' f, m = .replace fid d d' f mode ∧ Gave s'.log t f := by
  unfold create at h
  split at h
  · obtain ⟨rfl, rfl⟩ := returns_ret h
    exact ⟨hs, .fail (.refl _) nofun⟩
  · obtain ⟨res, s₁, hget, h⟩ := returns_bind h
    obtain ⟨hs₁, hbooks⟩ := books_returns hget hs
    obtain ⟨heq, -⟩ := ran_getRef hbooks
    rw [heq]
    cases res with
    | error err =>
        obtain ⟨rfl, rfl⟩ := returns_ret h
        exact ⟨hs₁, .fail (.refl _) nofun⟩
    | ok ref =>
        obtain ⟨href, howner, hlog⟩ := returns_getRef_owner hget
        obtain ⟨r', s₂, hbody, h⟩ := returns_bind h
        obtain ⟨_, s₃, ⟨_, hunlock⟩, h⟩ := returns_next h
        obtain rfl := exec_unlock hunlock
        obtain ⟨rfl, rfl⟩ := returns_ret h
        obtain ⟨hs₂, hmakes⟩ := createLocked_effect hs₁ href howner (hlog ▸ hop) hbody
        exact ⟨hs₂, (s₂.books_modify_owner hs₂ ref none).symm ▸ hmakes⟩

/-! ## All operations -/

/-- `Clunk` and `Remove`. -/
def Op.isDelete : Op → Bool
  | clunk _ | remove _ => true
  | _ => false

/-- The moves of an operation that does not fail. -/
def Op.Does (t : Nat) (log : List Event) (r : Ret) (m : Move) : Op → Prop
  | auth afid _ _ => m = .keep ∧ afid = noFid ∨ ∃ f, m = .auth afid f
  | attach fid _ _ _ => ∃ d, m = .bind fid d
  | clunk fid | remove fid => ∃ d, m = .drop fid d
  | walk fid newfid names => Walks t fid newfid names log r m
  | «open» fid mode => ∃ d f, m = .open fid d f mode
  | create parent _ _ mode => ∃ d d' f, m = .replace parent d d' f mode
  | read _ _ _ | write _ _ _ | stat _ | wstat _ _ => m = .keep

/-- `m` is what `op` does when it returns `r`.  `Clunk` and `Remove` do it
whatever they return. -/
def Op.Explains (op : Op) (t : Nat) (log : List Event) (r : Ret) (m : Move) : Prop :=
  r.err ≠ none ∧ op.isDelete = false ∧ m = .keep ∨
    (r.err = none ∨ op.isDelete) ∧ op.Does t log r m

/-- A call of thread `t` has returned the file that the move opens. -/
def Move.Gave (log : List Event) (t : Nat) (m : Move) : Prop :=
  ∀ d f mode, m.opens = some (d, f, mode) → Session.Gave log t f

/-- The fid that an operation opens, and the mode. -/
def Op.opens : Op → Option (Fid × Flag)
  | «open» fid mode | create fid _ _ mode => some (fid, mode)
  | _ => none

/-- The fid whose file a move opens, and the mode. -/
def Move.opensAt : Move → Option (Fid × Flag)
  | «open» fid _ _ mode | replace fid _ _ _ mode => some (fid, mode)
  | _ => none

theorem Op.Does.opensAt {op : Op} (h : op.Does t log r m) : m.opensAt = op.opens := by
  cases op with
  | «open» fid mode =>
      obtain ⟨d, f, rfl⟩ := h
      rfl
  | create parent name perm mode =>
      obtain ⟨d, d', f, rfl⟩ := h
      rfl
  | auth afid uname aname =>
      obtain ⟨rfl, -⟩ | ⟨f, rfl⟩ := h <;> rfl
  | attach fid afid uname aname =>
      obtain ⟨d, rfl⟩ := h
      rfl
  | clunk fid | remove fid =>
      obtain ⟨d, rfl⟩ := h
      rfl
  | walk fid newfid names =>
      obtain ⟨qs, -, ⟨-, rfl⟩ | ⟨-, d, -, ⟨-, rfl⟩ | ⟨-, -, d₀, rfl⟩⟩⟩ := h <;> rfl
  | read _ _ _ | write _ _ _ | stat _ | wstat _ _ =>
      cases h
      rfl

theorem Op.Does.opens {op : Op} (h : op.Does t log r m) (hop : op.opens = none) :
    m.opens = none := by
  have hat : m.opensAt = none := h.opensAt.trans hop
  cases m with
  | «open» _ _ _ _ | replace _ _ _ _ _ => cases hat
  | _ => rfl

theorem Makes.explains (op : Op)
    (h : Makes b b' r fun m => op.Does t b'.log r m ∧ m.Gave b'.log t)
    (hop : op.isDelete = false) :
    ∃ m, op.Explains t b'.log r m ∧ Effect b m b' ∧ m.Gave b'.log t := by
  rcases h with ⟨hr, he⟩ | ⟨hr, m, ⟨hm, hgave⟩, he⟩
  · exact ⟨.keep, Or.inl ⟨hr, hop, rfl⟩, he, nofun⟩
  · exact ⟨m, Or.inr ⟨Or.inl hr, hm⟩, he, hgave⟩

/-- An operation that opens no file. -/
theorem Makes.explains_shut (op : Op) (h : Makes b b' r fun m => op.Does t b'.log r m)
    (hop : op.isDelete = false) (hopens : op.opens = none) :
    ∃ m, op.Explains t b'.log r m ∧ Effect b m b' ∧ m.Gave b'.log t := by
  refine Makes.explains op (h.mono fun m hm => ⟨hm, fun d f mode hfile => ?_⟩) hop
  cases (hm.opens hopens).symm.trans hfile

/-- A query changes nothing, whether it fails or not. -/
theorem Books.Effect.makes {ok : Move → Prop} (h : Effect b .keep b') (hok : ok .keep) :
    Makes b b' r ok := by
  by_cases hr : r.err = none
  · exact .move h hr hok
  · exact .fail h hr

/-- An operation that runs alone and returns makes one move. -/
theorem Op.effect (op : Op) (hs : s.Distinct) (hop : .invoked t op ∈ s.log)
    (h : Returns (CanExec exec t) op.prog s r s') :
    ∃ hs' m, op.Explains t s'.log r m ∧ Effect (s.books hs) m (s'.books hs') ∧
      m.Gave s'.log t := by
  cases op with
  | create parent name perm mode =>
      obtain ⟨hs', hmakes⟩ := create_effect hs hop h
      refine ⟨hs', Makes.explains (.create parent name perm mode) (hmakes.mono ?_) rfl⟩
      rintro _ ⟨d, d', f, rfl, hgave⟩
      refine ⟨⟨d, d', f, rfl⟩, ?_⟩
      rintro _ _ _ ⟨⟩
      exact hgave
  | auth afid uname aname =>
      obtain ⟨hs', hran⟩ := books_returns h hs
      exact ⟨hs', Makes.explains_shut (.auth afid uname aname) (auth_effect hop hran) rfl rfl⟩
  | attach fid afid uname aname =>
      obtain ⟨hs', hran⟩ := books_returns h hs
      exact ⟨hs', Makes.explains_shut (.attach fid afid uname aname) (attach_effect hran) rfl rfl⟩
  | clunk fid =>
      obtain ⟨hs', hran⟩ := books_returns h hs
      obtain ⟨err, _, hdel, hret⟩ := returns_bind hran
      obtain ⟨-, rfl⟩ := returns_ret hret
      obtain ⟨d, he⟩ := delRef_effect hdel
      exact ⟨hs', .drop fid d, Or.inr ⟨Or.inr rfl, d, rfl⟩, he, nofun⟩
  | remove fid =>
      obtain ⟨hs', hran⟩ := books_returns h hs
      obtain ⟨err, _, hdel, hret⟩ := returns_bind hran
      obtain ⟨-, rfl⟩ := returns_ret hret
      obtain ⟨d, he⟩ := delRef_effect hdel
      exact ⟨hs', .drop fid d, Or.inr ⟨Or.inr rfl, d, rfl⟩, he, nofun⟩
  | walk fid newfid names =>
      obtain ⟨hs', hran⟩ := books_returns h hs
      exact ⟨hs', Makes.explains_shut (.walk fid newfid names) (walk_effect hran) rfl rfl⟩
  | read fid len offset =>
      obtain ⟨hs', hran⟩ := books_returns h hs
      have he := transfer_effect (fun hcall => ran_call_plain hcall rfl rfl) hran
      exact ⟨hs', Makes.explains_shut (.read fid len offset) (he.makes rfl) rfl rfl⟩
  | write fid p offset =>
      obtain ⟨hs', hran⟩ := books_returns h hs
      have he := transfer_effect (fun hcall => ran_call_plain hcall rfl rfl) hran
      exact ⟨hs', Makes.explains_shut (.write fid p offset) (he.makes rfl) rfl rfl⟩
  | «open» fid mode =>
      obtain ⟨hs', hran⟩ := books_returns h hs
      refine ⟨hs', Makes.explains (.open fid mode) ((open_effect hop hran).mono ?_) rfl⟩
      rintro _ ⟨d, f, rfl, hgave⟩
      refine ⟨⟨d, f, rfl⟩, ?_⟩
      rintro _ _ _ ⟨⟩
      exact hgave
  | stat fid =>
      obtain ⟨hs', hran⟩ := books_returns h hs
      have he := query_effect (c := Call.stat) (fun _ _ => rfl) (fun _ _ => rfl) hran
      exact ⟨hs', Makes.explains_shut (.stat fid) (he.makes rfl) rfl rfl⟩
  | wstat fid dir =>
      obtain ⟨hs', hran⟩ := books_returns h hs
      have he := query_effect (c := (Call.wstat · dir)) (fun _ _ => rfl) (fun _ _ => rfl) hran
      exact ⟨hs', Makes.explains_shut (.wstat fid dir) (he.makes rfl) rfl rfl⟩

/-! ## Stop -/

theorem sweep_effect (h : Ran t (sweep fid) b () b') :
    (∃ m, (m = .keep ∧ b.entries.ent fid = none ∨ ∃ d, m = .sweep fid d) ∧ Effect b m b') ∧
      b'.entries.ent fid = none := by
  obtain ⟨ref?, href, h⟩ := ran_next h
  have href : ref? = b.refs fid := href
  cases ref? with
  | none =>
      obtain ⟨-, rfl⟩ := returns_ret h
      have hnone := Ledger.ent_none (entries_none href.symm)
      exact ⟨⟨.keep, Or.inl ⟨rfl, hnone⟩, .refl _⟩, hnone⟩
  | some ref =>
      have hentry : b.entries fid = some (b.cell ref) := congrArg (Option.map b.cell) href.symm
      obtain ⟨e, he, h⟩ := ran_next h
      have he : e = (b.cell ref).ent := he
      cases e with
      | none =>
          obtain ⟨-, rfl⟩ := returns_ret h
          have hnone : b.entries.ent fid = none := by
            show (b.entries fid).bind Entry.ent = none
            rw [hentry]
            exact he.symm
          exact ⟨⟨.keep, Or.inl ⟨rfl, hnone⟩, .refl _⟩, hnone⟩
      | some d =>
          obtain ⟨err, _, hdel, h⟩ := returns_bind h
          obtain ⟨d', b₁, hd', hc, rfl⟩ := ran_delRefAction hdel
          obtain ⟨-, rfl⟩ := returns_ret h
          cases he.trans hd'
          have heff : Effect b (.sweep fid d) (b₁.write ref { b.cell ref with ent := none }) := by
            refine .write ?_ href.symm hc ?_ nofun nofun
            · exact (congrArg (·.bind Entry.ent) hentry).trans hd'
            · show Function.update b.entries fid ((b.entries fid).map _) = _
              rw [hentry]
              rfl
          have hent : Books.entries (b₁.write ref { b.cell ref with ent := none }) fid =
              some { b.cell ref with ent := none } := by
            rw [heff.entries, Move.apply, Function.update_self, hentry]
            rfl
          exact ⟨⟨_, Or.inr ⟨d, rfl⟩, heff⟩, congrArg (·.bind Entry.ent) hent⟩

end Operations

end P9p.Session
