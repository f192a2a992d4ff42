/-
# `P9p.Encoding.Pieces` — what the decoder reads at a time

The decoder reads a value in pieces: an integer is one, a string its length and
its bytes, a qid its three fields.  `pieces` lists them, and `Stepwise` says what
follows for the decoder (`P9p.Lib.Stepwise`): it accepts the encodings of values
that the format can hold and nothing else, and it reports `io.EOF` exactly if its
input stops between two pieces.

    Plain     stepwise_plain
    Dir       stepwise_fields, the record without its size

The targets are zero values, as a fresh Fcall or `Dir` has them.  A decoded value
has the kind of its target; `Kind` is what the type switch sees.
-/
import P9p.Encoding.RoundTrip
import P9p.Lib.Stepwise

namespace P9p

open Wire Wire.Reader

variable {α : Type} {n : Nat}

/-! ## Kinds -/

/-- The cases of the type switch. -/
inductive Kind where
  | uint8 | uint16 | uint32 | uint64 | bytes | string | strings | time | qid | qids | dir
  deriving DecidableEq

abbrev Kind.Val : Kind → Type
  | .uint8 => UInt8
  | .uint16 => UInt16
  | .uint32 => UInt32
  | .uint64 => UInt64
  | .bytes => Bytes
  | .string => Bytes
  | .strings => List Bytes
  | .time => Time
  | .qid => Qid
  | .qids => List Qid
  | .dir => Dir

def Kind.elem : (k : Kind) → k.Val → Elem
  | .uint8, n => .plain (.uint8 n)
  | .uint16, n => .plain (.uint16 n)
  | .uint32, n => .plain (.uint32 n)
  | .uint64, n => .plain (.uint64 n)
  | .bytes, b => .plain (.bytes b)
  | .string, s => .plain (.string s)
  | .strings, ss => .plain (.strings ss)
  | .time, t => .plain (.time t)
  | .qid, q => .plain (.qid q)
  | .qids, qs => .plain (.qids qs)
  | .dir, d => .dir d

def Plain.kind : Plain → Kind
  | .uint8 _ => .uint8
  | .uint16 _ => .uint16
  | .uint32 _ => .uint32
  | .uint64 _ => .uint64
  | .bytes _ => .bytes
  | .string _ => .string
  | .strings _ => .strings
  | .time _ => .time
  | .qid _ => .qid
  | .qids _ => .qids

def Elem.kind : Elem → Kind
  | .plain p => p.kind
  | .dir _ => .dir

theorem Elem.of_kind {e : Elem} {k : Kind} (h : e.kind = k) : ∃ v, e = k.elem v := by
  subst h
  cases e with
  | dir d => exact ⟨d, rfl⟩
  | plain p => cases p <;> exact ⟨_, rfl⟩

theorem Kind.elem_kind : ∀ (k : Kind) (v : k.Val), (k.elem v).kind = k := by
  rintro (_ | _) v <;> rfl

@[simp] theorem Plain.zero_kind (p : Plain) : p.zero.kind = p.kind := by
  cases p <;> rfl

/-! ## Pieces -/

def stringPieces (s : Bytes) : List Bytes := [putUint16 (UInt16.ofNat s.length), s]

def Qid.pieces (q : Qid) : List Bytes := [[q.type], putUint32 q.version, putUint64 q.path]

def Plain.pieces : Plain → List Bytes
  | .uint8 n => [[n]]
  | .uint16 n => [putUint16 n]
  | .uint32 n => [putUint32 n]
  | .uint64 n => [putUint64 n]
  | .bytes b => [putUint32 (UInt32.ofNat b.length), b]
  | .string s => stringPieces s
  | .strings ss => putUint16 (UInt16.ofNat ss.length) :: ss.flatMap stringPieces
  | .time t => [putUint32 (UInt32.ofInt t.unix)]
  | .qid q => q.pieces
  | .qids qs => putUint16 (UInt16.ofNat qs.length) :: qs.flatMap Qid.pieces

theorem stringPieces_flatten (s : Bytes) : (stringPieces s).flatten = encodeString s := by
  simp [stringPieces, encodeString]

theorem Qid.pieces_flatten (q : Qid) : q.pieces.flatten = q.encode := by
  simp [Qid.pieces, Qid.encode]

theorem flatten_flatMap {pieces : α → List Bytes} {enc : α → Bytes}
    (h : ∀ a, (pieces a).flatten = enc a) (as : List α) :
    (as.flatMap pieces).flatten = as.flatMap enc := by
  induction as with
  | nil => rfl
  | cons a as ih => rw [List.flatMap_cons, List.flatten_append, h, ih, List.flatMap_cons]

theorem Plain.pieces_flatten (p : Plain) : p.pieces.flatten = p.encode := by
  cases p with
  | string s => exact stringPieces_flatten s
  | strings ss =>
      rw [Plain.pieces, List.flatten_cons, flatten_flatMap stringPieces_flatten]
      rfl
  | qid q => exact q.pieces_flatten
  | qids qs =>
      rw [Plain.pieces, List.flatten_cons, flatten_flatMap Qid.pieces_flatten]
      rfl
  | _ => simp [Plain.pieces, Plain.encode]

/-! ## Numbers, strings and qids -/

theorem stepwise_readFull (n : Nat) :
    Stepwise Err.eof (readFull n) (fun bs => [bs]) (fun bs => bs.length = n) :=
  Stepwise.take Err.eof Err.unexpectedEOF nofun n

/-- A number of a fixed width. -/
theorem stepwise_number (g : Nat → α) (toNat : α → Nat) (hg : ∀ x, x < 256 ^ n → toNat (g x) = x)
    (hlt : ∀ a, toNat a < 256 ^ n) (hinv : ∀ a, g (toNat a) = a) :
    Stepwise Err.eof (do return g (ofLE (← readFull n)) : Decoder α) (fun a => [toLE n (toNat a)])
      (fun _ => True) := by
  refine (stepwise_readFull n).map (fun bs => g (ofLE bs)) ?_ (fun _ _ => trivial) ?_
  · rintro bs rfl
    rw [hg _ (ofLE_lt bs), toLE_ofLE]
  · intro a _
    refine ⟨toLE n (toNat a), toLE_length _ _, ?_⟩
    rw [ofLE_toLE_of_lt (hlt a), hinv]

theorem stepwise_getUint8 : Stepwise Err.eof getUint8 (fun n => [[n]]) (fun _ => True) := by
  refine (stepwise_number (n := 1) UInt8.ofNat UInt8.toNat ?_ UInt8.toNat_lt
    (fun _ => UInt8.ofNat_toNat)).congr (fun _ => Iff.rfl) fun n _ => ?_
  · exact fun x hx => UInt8.toNat_ofNat_of_lt' hx
  · rw [toLE, toLE, UInt8.ofNat_toNat]

theorem stepwise_getUint16 :
    Stepwise Err.eof getUint16 (fun n => [putUint16 n]) (fun _ => True) :=
  stepwise_number (n := 2) UInt16.ofNat UInt16.toNat (fun _ hx => UInt16.toNat_ofNat_of_lt' hx)
    UInt16.toNat_lt (fun _ => UInt16.ofNat_toNat)

theorem stepwise_getUint32 :
    Stepwise Err.eof getUint32 (fun n => [putUint32 n]) (fun _ => True) :=
  stepwise_number (n := 4) UInt32.ofNat UInt32.toNat (fun _ hx => UInt32.toNat_ofNat_of_lt' hx)
    UInt32.toNat_lt (fun _ => UInt32.ofNat_toNat)

theorem stepwise_getUint64 :
    Stepwise Err.eof getUint64 (fun n => [putUint64 n]) (fun _ => True) :=
  stepwise_number (n := 8) UInt64.ofNat UInt64.toNat (fun _ hx => UInt64.toNat_ofNat_of_lt' hx)
    UInt64.toNat_lt (fun _ => UInt64.ofNat_toNat)

/-- A length is what a 16-bit prefix says exactly if it fits and the prefix is its
own. -/
theorem eq_toNat_iff16 {ll : UInt16} : n = ll.toNat ↔ n < 2 ^ 16 ∧ UInt16.ofNat n = ll := by
  constructor
  · rintro rfl
    exact ⟨ll.toNat_lt, UInt16.ofNat_toNat⟩
  · rintro ⟨hlt, rfl⟩
    exact (UInt16.toNat_ofNat_of_lt' hlt).symm

theorem eq_toNat_iff32 {ll : UInt32} : n = ll.toNat ↔ n < 2 ^ 32 ∧ UInt32.ofNat n = ll := by
  constructor
  · rintro rfl
    exact ⟨ll.toNat_lt, UInt32.ofNat_toNat⟩
  · rintro ⟨hlt, rfl⟩
    exact (UInt32.toNat_ofNat_of_lt' hlt).symm

theorem stepwise_decodeString :
    Stepwise Err.eof decodeString stringPieces (fun s => s.length < 2 ^ 16) := by
  refine (stepwise_getUint16.bind (fun s => UInt16.ofNat s.length) fun ll _ =>
    (stepwise_readFull ll.toNat).congr (fun s => eq_toNat_iff16) fun _ _ => rfl).congr ?_ ?_
  · exact fun s => and_iff_right trivial
  · exact fun _ _ => rfl

theorem stepwise_decodeQid : Stepwise Err.eof decodeQid Qid.pieces (fun _ => True) := by
  have hpath : ∀ type version, Stepwise Err.eof
      (do let path ← getUint64; return ⟨type, version, path⟩ : Decoder Qid)
      (fun q => [putUint64 q.path]) (fun q => q.type = type ∧ q.version = version) := by
    intro type version
    refine stepwise_getUint64.map (Qid.mk type version) ?_ ?_ ?_
    · exact fun _ _ => rfl
    · exact fun _ _ => ⟨rfl, rfl⟩
    · rintro q ⟨rfl, rfl⟩
      exact ⟨q.path, trivial, rfl⟩
  have hversion := fun type => stepwise_getUint32.bind Qid.version fun version _ =>
    hpath type version
  refine (stepwise_getUint8.bind (Q := fun _ => True) Qid.type fun type _ => hversion type).congr
    (fun _ => and_iff_right trivial) ?_
  exact fun _ _ => rfl

/-- A 16-bit count followed by that many items. -/
theorem stepwise_counted {item : Decoder α} {pieces : α → List Bytes} {ok : α → Prop}
    (h : Stepwise Err.eof item pieces ok) :
    Stepwise Err.eof (do
        let ll ← getUint16
        (List.replicate ll.toNat ()).mapM fun _ => item : Decoder (List α))
      (fun xs => putUint16 (UInt16.ofNat xs.length) :: xs.flatMap pieces)
      (fun xs => xs.length < 2 ^ 16 ∧ ∀ x ∈ xs, ok x) := by
  refine (stepwise_getUint16.bind (fun xs => UInt16.ofNat xs.length) fun ll _ =>
    (h.replicate ll.toNat).congr (fun xs => ?_) fun _ _ => rfl).congr
      (fun _ => and_iff_right trivial) fun _ _ => rfl
  rw [eq_toNat_iff16]
  exact and_right_comm

/-! ## Plain values -/

/-- A plain value of one kind is read like the Go value it holds. -/
theorem stepwise_con (k : Kind) {r : Decoder k.Val} {pieces : k.Val → List Bytes}
    {ok : k.Val → Prop} (h : Stepwise Err.eof r pieces ok) (con : k.Val → Plain)
    (hcon : ∀ v, k.elem v = .plain (con v)) (hpieces : ∀ v, (con v).pieces = pieces v)
    (hok : ∀ v, (con v).Encodable ↔ ok v) :
    Stepwise Err.eof (r >>= fun v => pure (con v)) Plain.pieces
      (fun q => q.Encodable ∧ q.kind = k) := by
  have hkind : ∀ v, (con v).kind = k := by
    intro v
    have hv := k.elem_kind v
    rwa [hcon] at hv
  refine h.map con (fun v _ => hpieces v) (fun v hv => ⟨(hok v).mpr hv, hkind v⟩) ?_
  rintro q ⟨hq, hk⟩
  obtain ⟨v, hv⟩ := Elem.of_kind (e := .plain q) hk
  rw [hcon] at hv
  cases hv
  exact ⟨v, (hok v).mp hq, rfl⟩

theorem stepwise_bytes :
    Stepwise Err.eof (do
        let ll ← getUint32
        readFull (sliceFor ll []).length)
      (fun b => [putUint32 (UInt32.ofNat b.length), b]) (fun b => b.length < 2 ^ 32) := by
  refine (stepwise_getUint32.bind (fun b => UInt32.ofNat b.length) fun ll _ =>
    (stepwise_readFull _).congr (fun b => ?_) fun _ _ => rfl).congr
      (fun _ => and_iff_right trivial) fun _ _ => rfl
  rw [sliceFor_nil_length]
  exact eq_toNat_iff32

theorem stepwise_time :
    Stepwise Err.eof (do
        let epoch ← getUint32
        return ⟨epoch.toNat, 0⟩)
      (fun t => [putUint32 (UInt32.ofInt t.unix)]) Time.OnWire := by
  refine stepwise_getUint32.map (fun epoch => (⟨epoch.toNat, 0⟩ : Time)) ?_ ?_ ?_
  · intro epoch _
    have hepoch : UInt32.ofInt (epoch.toNat : Int) = epoch := by
      apply UInt32.toNat_inj.mp
      have hnat := ofInt_toNat (Int.natCast_nonneg epoch.toNat) (Int.ofNat_lt.mpr epoch.toNat_lt)
      exact_mod_cast hnat
    rw [hepoch]
  · intro epoch _
    exact ⟨rfl, Int.natCast_nonneg _, Int.ofNat_lt.mpr epoch.toNat_lt⟩
  · rintro ⟨unix, nsec⟩ ⟨rfl, h₀, h₁⟩
    exact ⟨UInt32.ofInt unix, trivial, congrArg (Time.mk · 0) (ofInt_toNat h₀ h₁)⟩

theorem stepwise_plain (p : Plain) :
    Stepwise Err.eof p.zero.decode Plain.pieces (fun q => q.Encodable ∧ q.kind = p.kind) := by
  cases p with
  | uint8 _ =>
      exact stepwise_con .uint8 stepwise_getUint8 .uint8 (fun _ => rfl) (fun _ => rfl)
        fun _ => Iff.rfl
  | uint16 _ =>
      exact stepwise_con .uint16 stepwise_getUint16 .uint16 (fun _ => rfl) (fun _ => rfl)
        fun _ => Iff.rfl
  | uint32 _ =>
      exact stepwise_con .uint32 stepwise_getUint32 .uint32 (fun _ => rfl) (fun _ => rfl)
        fun _ => Iff.rfl
  | uint64 _ =>
      exact stepwise_con .uint64 stepwise_getUint64 .uint64 (fun _ => rfl) (fun _ => rfl)
        fun _ => Iff.rfl
  | bytes _ =>
      have h := stepwise_con .bytes stepwise_bytes .bytes (fun _ => rfl) (fun _ => rfl)
        fun _ => Iff.rfl
      rwa [bind_assoc] at h
  | string _ =>
      exact stepwise_con .string stepwise_decodeString .string (fun _ => rfl) (fun _ => rfl)
        fun _ => Iff.rfl
  | strings _ =>
      have h := stepwise_con .strings (stepwise_counted stepwise_decodeString) .strings
        (fun _ => rfl) (fun _ => rfl) fun _ => Iff.rfl
      rwa [bind_assoc] at h
  | time _ =>
      have h := stepwise_con .time stepwise_time .time (fun _ => rfl) (fun _ => rfl)
        fun _ => Iff.rfl
      rwa [bind_assoc] at h
  | qid _ =>
      exact stepwise_con .qid stepwise_decodeQid .qid (fun _ => rfl) (fun _ => rfl)
        fun _ => Iff.rfl
  | qids _ =>
      have h := stepwise_con .qids (stepwise_counted stepwise_decodeQid) .qids
        (fun _ => rfl) (fun _ => rfl) fun _ => (and_iff_left fun _ _ => trivial).symm
      rwa [bind_assoc] at h

/-! ## The fields of a record -/

def Dir.pieces (d : Dir) : List Bytes := d.fields.flatMap Plain.pieces

theorem Dir.pieces_flatten (d : Dir) : d.pieces.flatten = d.body :=
  flatten_flatMap Plain.pieces_flatten d.fields

theorem kinds_cons {es : List Elem} {k : Kind} {ks : List Kind} (h : es.map Elem.kind = k :: ks) :
    ∃ v es', es = k.elem v :: es' ∧ es'.map Elem.kind = ks := by
  obtain ⟨e, es', rfl, he, hes⟩ := List.map_eq_cons_iff.mp h
  obtain ⟨v, rfl⟩ := Elem.of_kind he
  exact ⟨v, es', rfl, hes⟩

/-- Values of the kinds that a record has are the fields of one. -/
theorem Dir.of_kinds {fs : List Plain} (h : fs.map Plain.kind = Dir.zero.fields.map Plain.kind) :
    ∃ d : Dir, d.fields = fs := by
  have hes : (fs.map Elem.plain).map Elem.kind = Dir.zero.fields.map Plain.kind := by
    rw [List.map_map]
    exact h
  obtain ⟨type, es₁, h₁, hes⟩ := kinds_cons hes
  obtain ⟨dev, es₂, h₂, hes⟩ := kinds_cons hes
  obtain ⟨qid, es₃, h₃, hes⟩ := kinds_cons hes
  obtain ⟨mode, es₄, h₄, hes⟩ := kinds_cons hes
  obtain ⟨accessTime, es₅, h₅, hes⟩ := kinds_cons hes
  obtain ⟨modTime, es₆, h₆, hes⟩ := kinds_cons hes
  obtain ⟨length, es₇, h₇, hes⟩ := kinds_cons hes
  obtain ⟨name, es₈, h₈, hes⟩ := kinds_cons hes
  obtain ⟨uid, es₉, h₉, hes⟩ := kinds_cons hes
  obtain ⟨gid, es₁₀, h₁₀, hes⟩ := kinds_cons hes
  obtain ⟨muid, es₁₁, h₁₁, hes⟩ := kinds_cons hes
  obtain rfl := List.map_eq_nil_iff.mp hes
  rw [h₂, h₃, h₄, h₅, h₆, h₇, h₈, h₉, h₁₀, h₁₁] at h₁
  refine ⟨⟨type, dev, qid, mode, accessTime, modTime, length, name, uid, gid, muid⟩, ?_⟩
  exact (List.map_injective_iff.mpr fun _ _ => Elem.plain.inj) h₁.symm

theorem forall₂_kind_iff {kind : α → Kind} {P : α → Prop} :
    ∀ {as bs : List α}, List.Forall₂ (fun a b => P b ∧ kind b = kind a) as bs ↔
      (∀ b ∈ bs, P b) ∧ bs.map kind = as.map kind
  | [], bs => by
      rw [List.forall₂_nil_left_iff, List.map_nil, List.map_eq_nil_iff]
      exact (and_iff_right_of_imp (by rintro rfl; exact nofun)).symm
  | a :: as, [] => by simp
  | a :: as, b :: bs => by
      rw [List.forall₂_cons, forall₂_kind_iff, List.forall_mem_cons, List.map_cons, List.map_cons,
        List.cons.injEq]
      exact and_and_and_comm

theorem stepwise_fields :
    Stepwise Err.eof
      (do return Dir.zero.setFields (← Dir.zero.fields.mapM Plain.decode) : Decoder Dir)
      Dir.pieces (fun d => ∀ p ∈ d.fields, p.Encodable) := by
  have hzero : ∀ p ∈ Dir.zero.fields, p.zero = p := by decide
  have hfields : Stepwise Err.eof (Dir.zero.fields.mapM Plain.decode)
      (fun fs => fs.flatMap Plain.pieces)
      (fun fs => (∀ p ∈ fs, p.Encodable) ∧ fs.map Plain.kind = Dir.zero.fields.map Plain.kind) := by
    refine (Stepwise.mapM Dir.zero.fields fun p hp => ?_).congr (fun _ => forall₂_kind_iff)
      fun _ _ => rfl
    have h := stepwise_plain p
    rwa [hzero p hp] at h
  refine hfields.map Dir.zero.setFields ?_ ?_ ?_
  · rintro fs ⟨-, hkinds⟩
    obtain ⟨d, rfl⟩ := Dir.of_kinds hkinds
    rfl
  · rintro fs ⟨hfs, hkinds⟩
    obtain ⟨d, rfl⟩ := Dir.of_kinds hkinds
    exact hfs
  · exact fun d hd => ⟨d.fields, ⟨hd, rfl⟩, rfl⟩

end P9p
