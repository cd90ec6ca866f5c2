import Exchange.Lib.LittleEndian

/-!
# Byte readers

Readers that take fixed-width fields off the front of a buffer, and the formats they
decode. A read past the end of the buffer is `none`; an error leaves the buffer where the
reader stopped. `Exact r width F` says that `r` decodes the format `F`, and nothing else.
-/

namespace ByteReader

open LittleEndian

abbrev Buffer := List UInt8

/-- The result with what is left of the buffer. -/
abbrev Reader (ε α : Type) := ExceptT ε (StateT Buffer Option) α

variable {ε α β : Type}

namespace Reader

def run (r : Reader ε α) (b : Buffer) : Option (Except ε α × Buffer) := StateT.run (ExceptT.run r) b

theorem run_bind (r : Reader ε α) (k : α → Reader ε β) (b : Buffer) :
    (r >>= k).run b = match r.run b with
      | none => none
      | some (.error e, rest) => some (.error e, rest)
      | some (.ok a, rest) => (k a).run rest := by
  change (r.run b).bind _ = _
  rcases r.run b with _ | ⟨_ | a, rest⟩ <;> rfl

theorem run_map (f : α → β) (r : Reader ε α) (b : Buffer) :
    (f <$> r).run b = match r.run b with
      | none => none
      | some (.error e, rest) => some (.error e, rest)
      | some (.ok a, rest) => some (.ok (f a), rest) := by
  change (r.run b).bind _ = _
  rcases r.run b with _ | ⟨_ | a, rest⟩ <;> rfl

/-- Call after call on one buffer, whatever they return. -/
def runTimes (r : Reader ε α) : Nat → Buffer → Option (List (Except ε α) × Buffer)
  | 0, b => some ([], b)
  | n + 1, b => do
    let (x, b) ← r.run b
    let (xs, b) ← runTimes r n b
    return (x :: xs, b)

/-- A concatenation is decoded part by part. -/
theorem runTimes_flatMap {r : Reader ε α} {encode : α → Buffer}
    (hr : ∀ a rest, r.run (encode a ++ rest) = some (.ok a, rest)) (as : List α) (rest : Buffer) :
    r.runTimes as.length (as.flatMap encode ++ rest) = some (as.map .ok, rest) := by
  induction as with
  | nil => rfl
  | cons a as ih =>
    rw [List.flatMap_cons, List.append_assoc, List.length_cons, runTimes, hr a]
    simp [ih]

/-- What can be read off the front of a stream determines the stream's parts. -/
theorem flatMap_injective {r : Reader ε α} {encode : α → Buffer}
    (hr : ∀ a rest, r.run (encode a ++ rest) = some (.ok a, rest)) (hne : ∀ a, encode a ≠ []) :
    Function.Injective fun as : List α => as.flatMap encode := by
  intro as as' h
  dsimp only at h
  induction as generalizing as' with
  | nil =>
    cases as' with
    | nil => rfl
    | cons a' as' => exact absurd (List.append_eq_nil_iff.1 h.symm).1 (hne a')
  | cons a as ih =>
    cases as' with
    | nil => exact absurd (List.append_eq_nil_iff.1 h).1 (hne a)
    | cons a' as' =>
      have hrun := hr a (as.flatMap encode)
      rw [← List.flatMap_cons, h, List.flatMap_cons, hr a'] at hrun
      obtain ⟨hfirst, hrest⟩ := Prod.mk.inj (Option.some.inj hrun)
      cases hfirst
      rw [ih hrest.symm]

@[simp] theorem run_pure (a : α) (b : Buffer) : (pure a : Reader ε α).run b = some (.ok a, b) := rfl

@[simp] theorem run_throw (e : ε) (b : Buffer) :
    (throw e : Reader ε α).run b = some (.error e, b) := rfl

end Reader

/-! ## Fields -/

/-- How many bytes are left. -/
def remaining : Reader ε Nat := fun b => some (.ok b.length, b)

/-- Split off the next bytes. -/
def take (width : Nat) : Reader ε Buffer := fun b =>
  if b.length < width then none else some (.ok (b.take width), b.drop width)

def getU8 : Reader ε UInt8 := do return UInt8.ofNat (ofBytes (← take 1))

def getU32Le : Reader ε UInt32 := do return UInt32.ofNat (ofBytes (← take 4))

def getU64Le : Reader ε UInt64 := do return UInt64.ofNat (ofBytes (← take 8))

def getI64Le : Reader ε Int64 := do return (UInt64.ofNat (ofBytes (← take 8))).toInt64

/-! ## Formats -/

/-- Which bytes stand for a value. -/
abbrev Format (α : Type) := α → Buffer → Prop

namespace Format

/-- The values as they are encoded. -/
def encoded (encode : α → Buffer) : Format α := fun a bs => bs = encode a

/-- No bytes for one value. -/
def only (a : α) : Format α := fun a' bs => a' = a ∧ bs = []

/-- One format after another, which may depend on the value of the first. -/
def andThen (F : Format α) (G : α → Format β) : Format β := fun c bs =>
  ∃ a bs₁ bs₂, F a bs₁ ∧ G a c bs₂ ∧ bs = bs₁ ++ bs₂

/-- What a computation without a buffer yields, under no bytes. -/
def result (x : Except ε α) : Format α := fun a bs => x = .ok a ∧ bs = []

theorem andThen_encoded {encode : α → Buffer} {G : α → Format β} {c : β} {bs : Buffer} :
    (encoded encode).andThen G c bs ↔ ∃ a bs₂, G a c bs₂ ∧ bs = encode a ++ bs₂ := by
  constructor
  · rintro ⟨a, _, bs₂, rfl, h, rfl⟩
    exact ⟨a, bs₂, h, rfl⟩
  · rintro ⟨a, bs₂, h, rfl⟩
    exact ⟨a, _, bs₂, rfl, h, rfl⟩

theorem andThen_result {x : Except ε α} {G : α → Format β} {c : β} {bs : Buffer} :
    (result x).andThen G c bs ↔ ∃ a, x = .ok a ∧ G a c bs := by
  constructor
  · rintro ⟨a, _, bs₂, ⟨hx, rfl⟩, h, rfl⟩
    exact ⟨a, hx, h⟩
  · rintro ⟨a, hx, h⟩
    exact ⟨a, _, bs, ⟨hx, rfl⟩, h, rfl⟩

end Format

/-- The reader decodes what has the format, leaves what follows, and accepts nothing else.
It does not read past the end of a buffer that has `width` bytes. -/
structure Exact (r : Reader ε α) (width : Nat) (F : Format α) : Prop where
  length : ∀ {a bs}, F a bs → bs.length = width
  reads : ∀ {a bs}, F a bs → ∀ rest, r.run (bs ++ rest) = some (.ok a, rest)
  accepts : ∀ {b a rest}, r.run b = some (.ok a, rest) → ∃ bs, F a bs ∧ b = bs ++ rest
  total : ∀ {b}, width ≤ b.length → (r.run b).isSome

namespace Exact

theorem pure (a : α) : Exact (pure a : Reader ε α) 0 (.only a) where
  length := fun h => by rw [h.2]; rfl
  reads := by
    rintro a' bs ⟨rfl, rfl⟩ rest
    rfl
  accepts := by
    intro b a' rest h
    cases h
    exact ⟨[], ⟨rfl, rfl⟩, rfl⟩
  total := fun _ => rfl

/-- **Composition.** One exact reader after another. -/
theorem bind {r : Reader ε α} {k : α → Reader ε β} {width width' : Nat} {F : Format α}
    {G : α → Format β} (hr : Exact r width F) (hk : ∀ a, Exact (k a) width' (G a)) :
    Exact (r >>= k) (width + width') (F.andThen G) where
  length := by
    rintro c _ ⟨a, bs₁, bs₂, hF, hG, rfl⟩
    rw [List.length_append, hr.length hF, (hk a).length hG]
  reads := by
    rintro c _ ⟨a, bs₁, bs₂, hF, hG, rfl⟩ rest
    rw [Reader.run_bind, List.append_assoc, hr.reads hF]
    exact (hk a).reads hG rest
  accepts := by
    intro b c rest h
    rw [Reader.run_bind] at h
    split at h
    · cases h
    · cases h
    · next a rest₁ hrun =>
      obtain ⟨bs₁, hF, rfl⟩ := hr.accepts hrun
      obtain ⟨bs₂, hG, rfl⟩ := (hk a).accepts h
      exact ⟨bs₁ ++ bs₂, ⟨a, bs₁, bs₂, hF, hG, rfl⟩, (List.append_assoc _ _ _).symm⟩
  total := by
    intro b hlen
    have hsome := hr.total (show width ≤ b.length by omega)
    rw [Reader.run_bind]
    split
    · next hrun =>
      rw [hrun] at hsome
      cases hsome
    · rfl
    · next a rest hrun =>
      obtain ⟨bs, hF, rfl⟩ := hr.accepts hrun
      rw [List.length_append, hr.length hF] at hlen
      exact (hk a).total (by omega)

theorem congr {r : Reader ε α} {width : Nat} {F G : Format α} (hr : Exact r width F)
    (h : ∀ a bs, F a bs ↔ G a bs) : Exact r width G := by
  have hFG : F = G := funext fun a => funext fun bs => propext (h a bs)
  exact hFG ▸ hr

theorem lift (x : Except ε α) : Exact (liftM x : Reader ε α) 0 (.result x) where
  length := fun h => by rw [h.2]; rfl
  reads := by
    rintro a bs ⟨rfl, rfl⟩ rest
    rfl
  accepts := by
    intro b a rest h
    cases x with
    | error e => cases h
    | ok a' =>
      cases h
      exact ⟨[], ⟨rfl, rfl⟩, rfl⟩
  total := fun _ => rfl

end Exact

theorem exact_take (width : Nat) :
    Exact (take width : Reader ε Buffer) width fun a bs => bs = a ∧ a.length = width where
  length := fun h => h.1 ▸ h.2
  reads := by
    rintro a bs ⟨rfl, hlen⟩ rest
    subst hlen
    change (if _ then _ else _) = _
    rw [if_neg (by simp), List.take_left, List.drop_left]
  accepts := by
    intro b a rest h
    change (if _ then _ else _) = _ at h
    split at h
    · cases h
    · next hlen =>
      cases h
      exact ⟨b.take width, ⟨rfl, by simp; omega⟩, (List.take_append_drop width b).symm⟩
  total := by
    intro b hlen
    change (if _ then _ else _ : Option _).isSome = true
    rw [if_neg (Nat.not_lt.2 hlen)]
    rfl

/-- A field that holds the number of a value. -/
theorem exact_word {width : Nat} {f : Nat → α} {g : α → Nat} (hf : ∀ a, f (g a) = a)
    (hg : ∀ n < 256 ^ width, g (f n) = n) (hlt : ∀ a, g a < 256 ^ width) :
    Exact (do return f (ofBytes (← take width)) : Reader ε α) width
      (.encoded fun a => toBytes width (g a)) := by
  refine ((exact_take width).bind fun bs => Exact.pure (f (ofBytes bs))).congr fun a bs => ?_
  constructor
  · rintro ⟨_, bs', _, ⟨rfl, hlen⟩, ⟨rfl, rfl⟩, rfl⟩
    have hlt := ofBytes_lt bs'
    rw [hlen] at hlt
    rw [List.append_nil, Format.encoded, hg _ hlt, toBytes_ofBytes_of_length hlen]
  · rintro rfl
    refine ⟨_, _, [], ⟨rfl, length_toBytes _ _⟩, ⟨?_, rfl⟩, (List.append_nil _).symm⟩
    rw [ofBytes_toBytes_of_lt (hlt a), hf]

theorem exact_getU8 : Exact (getU8 : Reader ε UInt8) 1 (.encoded fun x => [x]) := by
  refine (exact_word (g := UInt8.toNat) (fun _ => UInt8.ofNat_toNat) (fun n hn => ?_)
    UInt8.toNat_lt).congr fun a bs => ?_
  · exact UInt8.toNat_ofNat_of_lt' hn
  · simp [Format.encoded, toBytes]

theorem exact_getU32Le :
    Exact (getU32Le : Reader ε UInt32) 4 (.encoded fun x => toBytes 4 x.toNat) :=
  exact_word (fun _ => UInt32.ofNat_toNat) (fun _ hn => UInt32.toNat_ofNat_of_lt' hn)
    UInt32.toNat_lt

theorem exact_getU64Le :
    Exact (getU64Le : Reader ε UInt64) 8 (.encoded fun x => toBytes 8 x.toNat) :=
  exact_word (fun _ => UInt64.ofNat_toNat) (fun _ hn => UInt64.toNat_ofNat_of_lt' hn)
    UInt64.toNat_lt

theorem exact_getI64Le :
    Exact (getI64Le : Reader ε Int64) 8 (.encoded fun x => toBytes 8 x.toUInt64.toNat) :=
  exact_word (f := fun n => (UInt64.ofNat n).toInt64) (fun x => by simp)
    (fun n hn => by simpa using UInt64.toNat_ofNat_of_lt' hn) fun x => x.toUInt64.toNat_lt

section Reads

@[simp] theorem run_getU8 (x : UInt8) (rest : Buffer) :
    (getU8 : Reader ε UInt8).run (x :: rest) = some (.ok x, rest) :=
  exact_getU8.reads rfl rest

@[simp] theorem run_getU64Le (x : UInt64) (rest : Buffer) :
    (getU64Le : Reader ε UInt64).run (toBytes 8 x.toNat ++ rest) = some (.ok x, rest) :=
  exact_getU64Le.reads rfl rest

@[simp] theorem run_getI64Le (x : Int64) (rest : Buffer) :
    (getI64Le : Reader ε Int64).run (toBytes 8 x.toUInt64.toNat ++ rest) = some (.ok x, rest) :=
  exact_getI64Le.reads rfl rest

end Reads

/-! ## A check of the length first -/

/-- Give up, before anything is read, on a buffer that is too short. -/
def ensure (width : Nat) (e : ε) : Reader ε Unit := do
  if (← remaining) < width then throw e

theorem run_ensure_bind (width : Nat) (e : ε) (r : Reader ε α) (b : Buffer) :
    (ensure width e >>= fun _ => r).run b =
      if b.length < width then some (.error e, b) else r.run b := by
  have hensure : (ensure width e).run b =
      if b.length < width then some (.error e, b) else some (.ok (), b) := by
    unfold ensure
    rw [Reader.run_bind]
    change (if b.length < width then throw e else pure () : Reader ε Unit).run b = _
    split <;> rfl
  rw [Reader.run_bind, hensure]
  by_cases h : b.length < width
  · rw [if_pos h, if_pos h]
  · rw [if_neg h, if_neg h]

/-! ## Errors -/

/-- The errors that a reader may end with. -/
def Raises (r : Reader ε α) (E : ε → Prop) : Prop :=
  ∀ b e rest, r.run b = some (.error e, rest) → E e

namespace Raises

variable {E : ε → Prop}

theorem pure (a : α) : Raises (pure a : Reader ε α) E := fun _ _ _ h => nomatch h

theorem lift {x : Except ε α} (hx : ∀ e, x = .error e → E e) : Raises (liftM x : Reader ε α) E := by
  intro b e rest h
  cases x with
  | error e' =>
    cases h
    exact hx e rfl
  | ok a => cases h

theorem bind {r : Reader ε α} {k : α → Reader ε β} (hr : Raises r E) (hk : ∀ a, Raises (k a) E) :
    Raises (r >>= k) E := by
  intro b e rest h
  rw [Reader.run_bind] at h
  split at h
  · cases h
  · next e' rest' hrun =>
    cases h
    exact hr b e rest hrun
  · next a rest' hrun => exact hk a rest' e rest h

theorem take (width : Nat) : Raises (take width : Reader ε Buffer) E := by
  intro b e rest h
  change (if _ then _ else _) = _ at h
  split at h
  · cases h
  · cases h

theorem word (width : Nat) (f : Nat → α) :
    Raises (do return f (ofBytes (← ByteReader.take width)) : Reader ε α) E :=
  (take width).bind fun _ => pure _

theorem getU8 : Raises (getU8 : Reader ε UInt8) E := word 1 _

theorem getU32Le : Raises (getU32Le : Reader ε UInt32) E := word 4 _

theorem getU64Le : Raises (getU64Le : Reader ε UInt64) E := word 8 _

theorem getI64Le : Raises (getI64Le : Reader ε Int64) E :=
  word 8 fun n => (UInt64.ofNat n).toInt64

end Raises

/-- A decoder of a format that gives up with `e` on exactly the buffers that are too short,
before it takes anything off them. -/
structure Guarded (r : Reader ε α) (width : Nat) (F : Format α) (e : ε) : Prop
    extends Exact r width F where
  short : ∀ {b left}, r.run b = some (.error e, left) ↔ b.length < width ∧ left = b
  safe : ∀ b, (r.run b).isSome

/-- The check makes an exact reader safe on every buffer. -/
theorem Exact.guarded {r : Reader ε α} {width : Nat} {F : Format α} {e : ε}
    (hr : Exact r width F) (hraises : Raises r (· ≠ e)) :
    Guarded (ensure width e >>= fun _ => r) width F e where
  length := hr.length
  reads := by
    intro a bs hF rest
    have hlen := hr.length hF
    rw [run_ensure_bind, if_neg (by simp; omega)]
    exact hr.reads hF rest
  accepts := by
    intro b a rest h
    rw [run_ensure_bind] at h
    split at h
    · cases h
    · exact hr.accepts h
  total := by
    intro b hlen
    rw [run_ensure_bind, if_neg (Nat.not_lt.2 hlen)]
    exact hr.total hlen
  short := by
    intro b left
    rw [run_ensure_bind]
    constructor
    · intro h
      split at h
      · next hlt =>
        cases h
        exact ⟨hlt, rfl⟩
      · exact absurd rfl (hraises b e left h)
    · rintro ⟨hlt, rfl⟩
      rw [if_pos hlt]
  safe := by
    intro b
    rw [run_ensure_bind]
    split
    · rfl
    · next hlen => exact hr.total (Nat.not_lt.1 hlen)

end ByteReader
