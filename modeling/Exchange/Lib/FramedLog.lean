import Mathlib.Data.List.Induction

/-!
# Logs of self-delimiting frames

A log is the concatenation of the frames of its records. It is read from the front,
frame by frame, until the bytes end or what is left is a torn frame. Reading the
first `cut` bytes of a log yields the records whose frames lie wholly within them.
-/

namespace FramedLog

variable {β ρ ε σ : Type}

/-- An encoding of records as byte strings, and how a decoder fails. -/
structure Codec (β ρ ε : Type) where
  encode : ρ → List β
  /-- The record at the front of the bytes, and the length of its frame. -/
  decode : List β → Except ε (ρ × Nat)
  /-- The error of bytes that end within a frame. -/
  torn : ε → Bool

namespace Codec

variable (c : Codec β ρ ε)

/-- What the reader relies on, for the records that `Valid` describes. -/
structure Lawful (Valid : ρ → Prop) : Prop where
  encode_pos : ∀ r, 0 < (c.encode r).length
  decode_encode : ∀ r rest, Valid r → c.decode (c.encode r ++ rest) = .ok (r, (c.encode r).length)
  decode_take : ∀ r n, Valid r → n < (c.encode r).length →
    ∃ e, c.decode ((c.encode r).take n) = .error e ∧ c.torn e = true

/-- The bytes of a log. -/
def encodeAll (rs : List ρ) : List β := rs.flatMap c.encode

/-- Read records into `f`, at most `fuel` of them. -/
def scan (f : σ → ρ → Except ε σ) : Nat → List β → σ → Except ε σ
  | 0, _, s => .ok s
  | fuel + 1, data, s =>
    if data.isEmpty then .ok s
    else
      match c.decode data with
      | .ok (r, consumed) => do
        let s ← f s r
        scan f fuel (data.drop consumed) s
      | .error e => if c.torn e then .ok s else .error e

/-- The records whose frames lie wholly within the first `cut` bytes of a log. -/
def within : Nat → List ρ → List ρ
  | _, [] => []
  | cut, r :: rs =>
    if (c.encode r).length ≤ cut then r :: within (cut - (c.encode r).length) rs else []

section Lemmas

variable {c}

@[simp] theorem encodeAll_nil : c.encodeAll [] = [] := rfl

@[simp] theorem encodeAll_cons (r : ρ) (rs : List ρ) :
    c.encodeAll (r :: rs) = c.encode r ++ c.encodeAll rs := rfl

@[simp] theorem encodeAll_append (rs rs' : List ρ) :
    c.encodeAll (rs ++ rs') = c.encodeAll rs ++ c.encodeAll rs' := by
  simp [encodeAll]

theorem isPrefix_within (cut : Nat) (rs : List ρ) : c.within cut rs <+: rs := by
  induction rs generalizing cut with
  | nil => exact List.nil_prefix
  | cons r rs ih =>
    unfold within
    split
    · exact (List.prefix_cons_inj r).2 (ih _)
    · exact List.nil_prefix

/-- Where the log is not cut, nothing is lost. -/
theorem within_of_le {cut : Nat} {rs : List ρ} (h : (c.encodeAll rs).length ≤ cut) :
    c.within cut rs = rs := by
  induction rs generalizing cut with
  | nil => rfl
  | cons r rs ih =>
    rw [encodeAll_cons, List.length_append] at h
    rw [within, if_pos (by omega), ih (by omega)]

/-- A cut behind the first records keeps them. -/
theorem within_append {cut : Nat} {rs : List ρ} (rs' : List ρ)
    (h : (c.encodeAll rs).length ≤ cut) :
    c.within cut (rs ++ rs') = rs ++ c.within (cut - (c.encodeAll rs).length) rs' := by
  induction rs generalizing cut with
  | nil => rfl
  | cons r rs ih =>
    rw [encodeAll_cons, List.length_append] at h ⊢
    rw [List.cons_append, within, if_pos (by omega), ih (by omega), Nat.sub_sub, List.cons_append]

/-- What a cut leaves behind the whole records is a torn frame. -/
theorem take_encodeAll (cut : Nat) (rs : List ρ) :
    ∃ tail, (c.encodeAll rs).take cut = c.encodeAll (c.within cut rs) ++ tail ∧
      (tail = [] ∨ ∃ r ∈ rs, ∃ n, n < (c.encode r).length ∧ tail = (c.encode r).take n) := by
  induction rs generalizing cut with
  | nil => exact ⟨[], by simp [within], .inl rfl⟩
  | cons r rs ih =>
    rw [encodeAll_cons, within]
    by_cases hcut : (c.encode r).length ≤ cut
    · obtain ⟨tail, htake, htail⟩ := ih (cut - (c.encode r).length)
      refine ⟨tail, ?_, ?_⟩
      · rw [List.take_append, List.take_of_length_le hcut, htake, if_pos hcut, encodeAll_cons,
          List.append_assoc]
      · exact htail.imp_right fun ⟨r', hr', h⟩ => ⟨r', List.mem_cons_of_mem _ hr', h⟩
    · refine ⟨(c.encode r).take cut, ?_, .inr ⟨r, List.mem_cons_self, cut, by omega, rfl⟩⟩
      rw [List.take_append_of_le_length (by omega), if_neg hcut]
      rfl

variable {Valid : ρ → Prop} {f : σ → ρ → Except ε σ}

/-- The reader gets the records at the front of a log whatever follows them. -/
theorem Lawful.scan_append (h : c.Lawful Valid) {rs : List ρ} (hrs : ∀ r ∈ rs, Valid r)
    (data : List β) {fuel : Nat} (hfuel : (c.encodeAll rs ++ data).length ≤ fuel) (s : σ) :
    ∃ fuel', data.length ≤ fuel' ∧
      c.scan f fuel (c.encodeAll rs ++ data) s = rs.foldlM f s >>= c.scan f fuel' data := by
  induction rs generalizing fuel s with
  | nil => exact ⟨fuel, hfuel, rfl⟩
  | cons r rs ih =>
    have hr := hrs r List.mem_cons_self
    have hpos := h.encode_pos r
    rw [encodeAll_cons, List.append_assoc] at hfuel ⊢
    rw [List.length_append] at hfuel
    obtain ⟨fuel, rfl⟩ : ∃ n, fuel = n + 1 := ⟨fuel - 1, by omega⟩
    have hne : (c.encode r ++ (c.encodeAll rs ++ data)).isEmpty = false := by
      cases hc : c.encode r with
      | nil => simp [hc] at hpos
      | cons => rfl
    rw [scan, hne, if_neg Bool.false_ne_true, h.decode_encode r _ hr, List.foldlM_cons]
    dsimp only
    rw [List.drop_left]
    cases hf : f s r with
    | error e => exact ⟨data.length, Nat.le_refl _, rfl⟩
    | ok s' => exact ih (fun x hx => hrs x (List.mem_cons_of_mem _ hx)) (by omega) s'

/-- What every record keeps, the scan keeps. -/
theorem scan_invariant {I : σ → Prop} (hstep : ∀ s r s', I s → f s r = .ok s' → I s') {fuel : Nat}
    {data : List β} {s s' : σ} (hs : I s) (h : c.scan f fuel data s = .ok s') : I s' := by
  induction fuel generalizing data s with
  | zero =>
    cases h
    exact hs
  | succ fuel ih =>
    unfold scan at h
    split at h
    · cases h
      exact hs
    · split at h
      · next r consumed _ =>
        cases hf : f s r with
        | error e =>
          rw [hf] at h
          cases h
        | ok s₁ =>
          rw [hf] at h
          exact ih (hstep s r s₁ hs hf) h
      · split at h
        · cases h
          exact hs
        · cases h

/-- A torn frame ends the scan. -/
theorem scan_torn {data : List β} {e : ε} (hdecode : c.decode data = .error e)
    (htorn : c.torn e = true) (fuel : Nat) (s : σ) : c.scan f fuel data s = .ok s := by
  cases fuel with
  | zero => rfl
  | succ fuel =>
    rw [scan, hdecode]
    dsimp only
    rw [htorn]
    split <;> rfl

/-- **Reading a torn log.** From the first `cut` bytes of a log the reader gets the
records that lie wholly within them, and it never fails by itself. -/
theorem Lawful.scan_take (h : c.Lawful Valid) {rs : List ρ} (hrs : ∀ r ∈ rs, Valid r)
    {cut fuel : Nat} (hfuel : ((c.encodeAll rs).take cut).length ≤ fuel) (s : σ) :
    c.scan f fuel ((c.encodeAll rs).take cut) s = (c.within cut rs).foldlM f s := by
  obtain ⟨tail, htake, htail⟩ := take_encodeAll (c := c) cut rs
  have hwithin : ∀ r ∈ c.within cut rs, Valid r :=
    fun r hr => hrs r ((isPrefix_within cut rs).subset hr)
  rw [htake] at hfuel ⊢
  obtain ⟨fuel', -, hscan⟩ := h.scan_append (f := f) hwithin tail hfuel s
  rw [hscan]
  have hend : c.scan f fuel' tail = pure := by
    funext s
    rcases htail with rfl | ⟨r, hr, n, hn, rfl⟩
    · cases fuel' with
      | zero => rfl
      | succ fuel' => rfl
    · obtain ⟨e, hdecode, htorn⟩ := h.decode_take r n (hrs r hr) hn
      exact scan_torn hdecode htorn fuel' s
  rw [hend, bind_pure]

end Lemmas

end Codec

/-! ## Rolling -/

/-- Add a record to the current segment; the segment is closed when it has reached
`size` bytes. -/
def roll (bytes : List ρ → Nat) (size : Nat) (st : List (List ρ) × List ρ) (r : ρ) :
    List (List ρ) × List ρ :=
  let current := st.2 ++ [r]
  if size ≤ bytes current then (st.1 ++ [current], []) else (st.1, current)

/-- The closed segments of a log and the current one. -/
def rolled (bytes : List ρ → Nat) (size : Nat) (rs : List ρ) : List (List ρ) × List ρ :=
  rs.foldl (roll bytes size) ([], [])

theorem rolled_snoc (bytes : List ρ → Nat) (size : Nat) (rs : List ρ) (r : ρ) :
    rolled bytes size (rs ++ [r]) = roll bytes size (rolled bytes size rs) r := by
  simp [rolled]

/-- The segments hold the records in order. -/
theorem rolled_flatten (bytes : List ρ → Nat) (size : Nat) (rs : List ρ) :
    (rolled bytes size rs).1.flatten ++ (rolled bytes size rs).2 = rs := by
  induction rs using List.reverseRecOn with
  | nil => rfl
  | append_singleton rs r ih =>
    rw [rolled_snoc]
    unfold roll
    dsimp only
    split
    · simp [← List.append_assoc, ih]
    · rw [← List.append_assoc, ih]

/-- A log goes on from a closed segment as one that starts. -/
theorem rolled_append {bytes : List ρ → Nat} {size : Nat} {rs : List ρ}
    (h : (rolled bytes size rs).2 = []) (rs' : List ρ) :
    rolled bytes size (rs ++ rs') =
      ((rolled bytes size rs).1 ++ (rolled bytes size rs').1, (rolled bytes size rs').2) := by
  induction rs' using List.reverseRecOn with
  | nil =>
    rw [List.append_nil]
    exact Prod.ext (List.append_nil _).symm h
  | append_singleton rs' r ih =>
    rw [← List.append_assoc, rolled_snoc, rolled_snoc, ih]
    unfold roll
    dsimp only
    split
    · rw [List.append_assoc]
    · rfl

end FramedLog
