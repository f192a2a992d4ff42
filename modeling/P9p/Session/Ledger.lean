/-
# What the fid table is for

The table as a client thinks of it: no `SFid`s, no mutexes, no programs.  A fid
has an entry `(Ent, File, Mode)` or none, and there is an account of the
`Dirent`s obtained from the file system and given back to it.  An operation
makes one move:

    keep       nothing changes: queries, and whatever fails
    auth       Auth: an entry with a File and no Ent
    bind       Attach, and Walk to another fid
    rebind     Walk in place
    open       Open
    replace    Create
    drop       Clunk and Remove
    sweep      Stop, one for each fid

**Conservation.**  Every move is a step of custody, with the fids as holders
(`Step.custody`).

**Files.**  An open file belongs to the `Dirent` of its entry, if no move walks
or sweeps an entry that is open (`Step.filesBelong`).

`P9p.Session.Effects` shows that the operations of the session make these
moves.
-/
import P9p.Lib.Custody
import P9p.Session

namespace P9p.Session

open Conc

/-- The fields of an `SFid` that its mutex protects. -/
structure Entry where
  ent : Option Nat
  file : Option File
  mode : Flag
  deriving DecidableEq, Repr

abbrev Entries := Fid → Option Entry

/-- `opened d f mode` says that `f` was made by opening or creating `d` in
`mode`, `auth fid` that `fid` is the fid of an `Auth`. -/
structure Ledger where
  entries : Entries
  obtained : List Nat
  released : List Nat
  opened : Nat → File → Flag → Prop
  auth : Fid → Prop

/-! ## Moves -/

inductive Move where
  | keep
  | auth (fid : Fid) (file : Option File)
  | bind (fid : Fid) (d : Nat)
  | rebind (fid : Fid) (d d' : Nat)
  | open (fid : Fid) (d : Nat) (file : File) (mode : Flag)
  | replace (fid : Fid) (d d' : Nat) (file : File) (mode : Flag)
  | drop (fid : Fid) (d : Option Nat)
  | sweep (fid : Fid) (d : Nat)

/-- The `Dirent` that a fid stands for. -/
def Entries.ent (E : Entries) : Fid → Option Nat := (·.bind Entry.ent) ∘ E

/-- The open file of a fid. -/
def Entries.file (E : Entries) : Fid → Option File := (·.bind Entry.file) ∘ E

namespace Move

def Enabled (E : Entries) : Move → Prop
  | keep => True
  | auth fid _ | bind fid _ => E fid = none
  | rebind fid d _ | replace fid d _ _ _ | sweep fid d => E.ent fid = some d
  | «open» fid d _ _ => E.ent fid = some d ∧ E.file fid = none
  | drop fid d => E.ent fid = d

def apply (E : Entries) : Move → Entries
  | keep => E
  | auth fid file => Function.update E fid (some ⟨none, file, 0⟩)
  | bind fid d => Function.update E fid (some ⟨some d, none, 0⟩)
  | rebind fid _ d => Function.update E fid ((E fid).map fun e => { e with ent := some d })
  | «open» fid _ f mode =>
      Function.update E fid ((E fid).map fun e => { e with file := some f, mode })
  | replace fid _ d f mode => Function.update E fid (some ⟨some d, some f, mode⟩)
  | drop fid _ => Function.update E fid none
  | sweep fid _ => Function.update E fid ((E fid).map fun e => { e with ent := none })

def obtained : Move → List Nat
  | bind _ d | rebind _ _ d | replace _ _ d _ _ => [d]
  | _ => []

def released : Move → List Nat
  | rebind _ d _ | replace _ d _ _ _ | sweep _ d => [d]
  | drop _ d => d.toList
  | _ => []

/-- The file that a move opens, for which `Dirent` and in which mode. -/
def opens : Move → Option (Nat × File × Flag)
  | «open» _ d f mode | replace _ _ d f mode => some (d, f, mode)
  | _ => none

/-- The move does not take the `Dirent` of an open file away. -/
def Lawful (E : Entries) : Move → Prop
  | rebind fid _ _ | sweep fid _ => E.file fid = none
  | _ => True

end Move

namespace Ledger

/-- The books before and after a move. -/
structure Step (L : Ledger) (m : Move) (L' : Ledger) : Prop where
  enabled : m.Enabled L.entries
  entries : L'.entries = m.apply L.entries
  obtained : L'.obtained = L.obtained ++ m.obtained
  released : L'.released = L.released ++ m.released
  fresh : ∀ d ∈ m.obtained, d ∉ L.obtained
  opened : ∀ d f mode, L.opened d f mode → L'.opened d f mode
  opens : ∀ d f mode, m.opens = some (d, f, mode) → L'.opened d f mode
  auth : ∀ fid, L.auth fid → L'.entries fid ≠ none → L'.auth fid
  auths : ∀ fid file, m = .auth fid file → L'.auth fid

variable {L L' : Ledger} {m : Move}

/-! ## Conservation -/

def custody (L : Ledger) : Custody Fid Nat := ⟨L.entries.ent, L.obtained, L.released⟩

theorem Step.custody_eq (h : L.Step m L') :
    L'.custody = ⟨(m.apply L.entries).ent, L.obtained ++ m.obtained, L.released ++ m.released⟩ := by
  rw [custody, h.entries, h.obtained, h.released]

theorem ent_update (E : Entries) (fid : Fid) (e : Option Entry) :
    Entries.ent (Function.update E fid e) = Function.update E.ent fid (e.bind Entry.ent) :=
  Function.comp_update ..

/-- An update that leaves the `Dirent` of `fid` as it was. -/
theorem ent_update_of_eq {E : Entries} {fid : Fid} {e : Option Entry}
    (h : e.bind Entry.ent = E.ent fid) : Entries.ent (Function.update E fid e) = E.ent := by
  rw [ent_update, h, Function.update_eq_self]

theorem ent_none {E : Entries} {fid : Fid} (h : E fid = none) : E.ent fid = none :=
  congrArg (·.bind Entry.ent) h

theorem Step.custody_eq_self (h : L.Step m L') (hent : (m.apply L.entries).ent = L.entries.ent)
    (hobtained : m.obtained = []) (hreleased : m.released = []) : L'.custody = L.custody := by
  rw [h.custody_eq, hent, hobtained, hreleased, List.append_nil, List.append_nil]
  rfl

/-- A move changes nothing about custody, or is a step. -/
theorem Step.custody (h : L.Step m L') :
    L'.custody = L.custody ∨ Custody.Step L.custody L'.custody := by
  have hen := h.enabled
  have hfresh := h.fresh
  have heq := h.custody_eq
  cases m with
  | keep => exact Or.inl (h.custody_eq_self rfl rfl rfl)
  | auth fid file =>
      have hsame : (none : Option Nat) = L.entries.ent fid := (ent_none hen).symm
      exact Or.inl (h.custody_eq_self (ent_update_of_eq hsame) rfl rfl)
  | bind fid d =>
      right
      rw [Move.apply, ent_update] at heq
      rw [heq, show (Move.bind fid d).released = [] from rfl, List.append_nil]
      exact .acquire L.custody (ent_none hen) (hfresh d (List.mem_singleton_self d))
  | rebind fid d d' =>
      right
      obtain ⟨e, he, -⟩ := Option.bind_eq_some_iff.mp hen
      rw [Move.apply, ent_update, he] at heq
      rw [heq]
      exact .exchange L.custody hen (hfresh d' (List.mem_singleton_self d'))
  | «open» fid d f mode =>
      obtain ⟨e, he, hd⟩ := Option.bind_eq_some_iff.mp hen.1
      have hsame : ((L.entries fid).map fun e => { e with file := some f, mode }).bind Entry.ent =
          L.entries.ent fid := by
        rw [he]
        exact hd.trans hen.1.symm
      exact Or.inl (h.custody_eq_self (ent_update_of_eq hsame) rfl rfl)
  | replace fid d d' f mode =>
      right
      rw [Move.apply, ent_update] at heq
      rw [heq]
      exact .exchange L.custody hen (hfresh d' (List.mem_singleton_self d'))
  | drop fid d =>
      cases d with
      | none =>
          have hsame : (none : Option Nat) = L.entries.ent fid := hen.symm
          exact Or.inl (h.custody_eq_self (ent_update_of_eq hsame) rfl rfl)
      | some d =>
          right
          rw [Move.apply, ent_update] at heq
          rw [heq, show (Move.drop fid (some d)).obtained = [] from rfl, List.append_nil]
          exact .release L.custody hen
  | sweep fid d =>
      right
      obtain ⟨e, he, -⟩ := Option.bind_eq_some_iff.mp hen
      rw [Move.apply, ent_update, he] at heq
      rw [heq, show (Move.sweep fid d).obtained = [] from rfl, List.append_nil]
      exact .release L.custody hen

theorem Step.sound (h : L.Step m L') (hs : L.custody.Sound) : L'.custody.Sound := by
  rcases h.custody with heq | hstep
  · rw [heq]
    exact hs
  · exact hstep.sound hs

/-! ## Files -/

/-- An open file belongs to its entry, unless its fid is that of an `Auth`. -/
def FilesBelong (L : Ledger) : Prop :=
  ∀ fid e f, L.entries fid = some e → e.file = some f →
    L.auth fid ∨ ∃ d, e.ent = some d ∧ L.opened d f e.mode

theorem Step.filesBelong (h : L.Step m L') (hm : m.Lawful L.entries) (hL : L.FilesBelong) :
    L'.FilesBelong := by
  have hen := h.enabled
  have hopens := h.opens
  have hauths := h.auths
  -- an entry that the move leaves alone
  have hold : ∀ {fid e f}, L'.entries fid = some e → L.entries fid = some e → e.file = some f →
      L'.auth fid ∨ ∃ d, e.ent = some d ∧ L'.opened d f e.mode := by
    intro fid e f he' he hf
    refine (hL fid e f he hf).imp (fun ha => h.auth fid ha (by rw [he']; exact nofun)) ?_
    rintro ⟨d, hd, ho⟩
    exact ⟨d, hd, h.opened d f e.mode ho⟩
  -- all moves but `keep` change one entry
  have hone : ∀ {fid₀ : Fid} {e₀ : Option Entry}, m.apply L.entries =
      Function.update L.entries fid₀ e₀ → (∀ e f, e₀ = some e → e.file = some f →
        L'.auth fid₀ ∨ ∃ d, e.ent = some d ∧ L'.opened d f e.mode) → L'.FilesBelong := by
    intro fid₀ e₀ happly hnew fid e f he hf
    have he' := he
    rw [h.entries, happly] at he
    rcases Custody.of_update_eq_some he with ⟨rfl, he₀⟩ | ⟨-, he⟩
    · exact hnew e f he₀ hf
    · exact hold he' he hf
  have hnofile : ∀ {fid e}, (L.entries fid).bind Entry.file = none → L.entries fid = some e →
      ∀ f, e.file ≠ some f := by
    intro fid e hnone he f hf
    rw [he] at hnone
    cases hf.symm.trans hnone
  cases m with
  | keep =>
      intro fid e f he hf
      have he' := he
      rw [h.entries] at he
      exact hold he' he hf
  | auth fid file => exact hone rfl fun _ _ _ _ => Or.inl (hauths fid file rfl)
  | bind fid d =>
      refine hone rfl ?_
      rintro _ f ⟨⟩ hf
      cases hf
  | rebind fid d d' =>
      obtain ⟨e, he, -⟩ := Option.bind_eq_some_iff.mp hen
      refine hone rfl ?_
      rintro e' f he' hf
      rw [he] at he'
      cases he'
      exact absurd hf (hnofile hm he f)
  | «open» fid d f mode =>
      obtain ⟨e, he, hd⟩ := Option.bind_eq_some_iff.mp hen.1
      refine hone rfl ?_
      rintro e' f' he' hf'
      rw [he] at he'
      cases he'
      cases hf'
      exact Or.inr ⟨d, hd, hopens d f mode rfl⟩
  | replace fid d d' f mode =>
      refine hone rfl ?_
      rintro _ f' ⟨⟩ ⟨⟩
      exact Or.inr ⟨d', rfl, hopens d' f mode rfl⟩
  | drop fid d => exact hone rfl nofun
  | sweep fid d =>
      obtain ⟨e, he, -⟩ := Option.bind_eq_some_iff.mp hen
      refine hone rfl ?_
      rintro e' f he' hf
      rw [he] at he'
      cases he'
      exact absurd hf (hnofile hm he f)

end Ledger

end P9p.Session
