import Std.Data.ExtTreeMap
import Mathlib.Algebra.Order.Ring.Nat

/-!
# Decimal numbers of a fixed width

Numbers written in decimal and padded with zeros on the left. Where the width
suffices, they compare as strings the way they compare as numbers; beyond it the
leading digits decide.
-/

namespace Decimal

/-- `n` in decimal, padded with zeros to `width` digits. -/
def padded (width n : Nat) : List Char := List.leftpad width '0' (Nat.toDigits 10 n)

/-- The number a string of digits stands for. -/
def value (digits : List Char) : Nat := Nat.ofDigitChars 10 digits 0

@[simp] theorem value_padded (width n : Nat) : value (padded width n) = n := by
  unfold value padded List.leftpad
  rw [Nat.ofDigitChars_append, Nat.ofDigitChars_replicate_zero, Nat.mul_zero]
  exact Nat.ofDigitChars_toDigits (by omega) (Nat.le_refl _)

theorem padded_injective {width m n : Nat} (h : padded width m = padded width n) : m = n := by
  have hv := congrArg value h
  rwa [value_padded, value_padded] at hv

theorem isDigit_of_mem_padded {width n : Nat} {c : Char} (h : c ∈ padded width n) :
    c.isDigit = true := by
  unfold padded List.leftpad at h
  rcases List.mem_append.1 h with h | h
  · rw [List.eq_of_mem_replicate h]
    rfl
  · exact Nat.isDigit_of_mem_toDigits (by omega) (Nat.le_refl _) h

theorem padded_ne_nil (width n : Nat) : padded width n ≠ [] := by
  intro h
  unfold padded List.leftpad at h
  have hnil := (List.append_eq_nil_iff.1 h).2
  exact Nat.toDigits_ne_nil hnil

theorem length_padded {width n : Nat} (hwidth : 0 < width) (h : n < 10 ^ width) :
    (padded width n).length = width := by
  have hle := (Nat.length_toDigits_le_iff (b := 10) (by omega) hwidth).2 h
  unfold padded List.leftpad
  rw [List.length_append, List.length_replicate]
  omega

theorem length_padded_mono {width m n : Nat} (h : m ≤ n) :
    (padded width m).length ≤ (padded width n).length := by
  have hpos : 0 < (Nat.toDigits 10 n).length := Nat.length_toDigits_pos
  have hn := (Nat.length_toDigits_le_iff (b := 10) (n := n) (by omega) hpos).1 (Nat.le_refl _)
  have hm := (Nat.length_toDigits_le_iff (b := 10) (n := m) (by omega) hpos).2
    (Nat.lt_of_le_of_lt h hn)
  unfold padded List.leftpad
  rw [List.length_append, List.length_append, List.length_replicate, List.length_replicate]
  omega

/-! ## The order of digit strings -/

theorem digit_bounds {c : Char} (h : c.isDigit = true) :
    '0'.toNat ≤ c.toNat ∧ c.toNat ≤ '9'.toNat := by
  simp only [Char.isDigit, Bool.and_eq_true, decide_eq_true_eq] at h
  exact ⟨h.1, h.2⟩

theorem ofDigitChars_bounds {digits : List Char} (h : ∀ c ∈ digits, c.isDigit = true) (init : Nat) :
    10 ^ digits.length * init ≤ Nat.ofDigitChars 10 digits init ∧
      Nat.ofDigitChars 10 digits init < 10 ^ digits.length * (init + 1) := by
  induction digits generalizing init with
  | nil => simp
  | cons c digits ih =>
    have hc := digit_bounds (h c List.mem_cons_self)
    have hpow : 10 ^ (digits.length + 1) = 10 ^ digits.length * 10 := pow_succ 10 digits.length
    obtain ⟨hlo, hhi⟩ := ih (fun c hc => h c (List.mem_cons_of_mem _ hc))
      (10 * init + (c.toNat - '0'.toNat))
    have hzero : '0'.toNat = 48 := rfl
    have hnine : '9'.toNat = 57 := rfl
    rw [Nat.ofDigitChars_cons, List.length_cons, hpow]
    constructor
    · refine Nat.le_trans ?_ hlo
      rw [Nat.mul_assoc]
      exact Nat.mul_le_mul_left _ (by omega)
    · refine Nat.lt_of_lt_of_le hhi ?_
      rw [Nat.mul_assoc]
      exact Nat.mul_le_mul_left _ (by omega)

/-- A smaller first digit outweighs the digits behind it. -/
theorem ofDigitChars_cons_lt {x y : Char} {xs ys : List Char} (hlen : xs.length = ys.length)
    (hx : ∀ c ∈ x :: xs, c.isDigit = true) (hy : ∀ c ∈ y :: ys, c.isDigit = true)
    (h : x.toNat < y.toNat) (init : Nat) :
    Nat.ofDigitChars 10 (x :: xs) init < Nat.ofDigitChars 10 (y :: ys) init := by
  have hhi := (ofDigitChars_bounds (fun c hc => hx c (List.mem_cons_of_mem _ hc))
    (10 * init + (x.toNat - '0'.toNat))).2
  have hlo := (ofDigitChars_bounds (fun c hc => hy c (List.mem_cons_of_mem _ hc))
    (10 * init + (y.toNat - '0'.toNat))).1
  have hxb := digit_bounds (hx x List.mem_cons_self)
  have hyb := digit_bounds (hy y List.mem_cons_self)
  have hmul : 10 ^ xs.length * (10 * init + (x.toNat - '0'.toNat) + 1) ≤
      10 ^ ys.length * (10 * init + (y.toNat - '0'.toNat)) := by
    rw [hlen]
    exact Nat.mul_le_mul_left _ (by omega)
  rw [Nat.ofDigitChars_cons, Nat.ofDigitChars_cons]
  omega

/-- Digit strings of one length are ordered by their values. -/
theorem compare_eq_compare_value {xs ys : List Char} (hlen : xs.length = ys.length)
    (hx : ∀ c ∈ xs, c.isDigit = true) (hy : ∀ c ∈ ys, c.isDigit = true) (init : Nat) :
    compare xs ys = compare (Nat.ofDigitChars 10 xs init) (Nat.ofDigitChars 10 ys init) := by
  induction xs generalizing ys init with
  | nil =>
    obtain rfl := List.length_eq_zero_iff.1 hlen.symm
    exact (Std.ReflCmp.compare_self).symm
  | cons x xs ih =>
    cases ys with
    | nil => cases hlen
    | cons y ys =>
      have hlen' : xs.length = ys.length := Nat.succ.inj hlen
      rw [List.compare_cons_cons]
      rcases Nat.lt_trichotomy x.toNat y.toNat with hlt | heq | hgt
      · have hcmp : compare x y = .lt := if_pos (Char.lt_def.2 (UInt32.lt_iff_toNat_lt.2 hlt))
        rw [hcmp, Nat.compare_eq_lt.2 (ofDigitChars_cons_lt hlen' hx hy hlt init)]
        rfl
      · obtain rfl := Char.toNat_inj.1 heq
        have hself : compare x x = .eq := Std.ReflCmp.compare_self
        rw [hself, Nat.ofDigitChars_cons, Nat.ofDigitChars_cons]
        exact ih hlen' (fun c hc => hx c (List.mem_cons_of_mem _ hc))
          (fun c hc => hy c (List.mem_cons_of_mem _ hc)) _
      · have hcmp : compare y x = .lt := if_pos (Char.lt_def.2 (UInt32.lt_iff_toNat_lt.2 hgt))
        have hgt' : compare x y = .gt := Std.OrientedCmp.gt_of_lt hcmp
        rw [hgt', Nat.compare_eq_gt.2 (ofDigitChars_cons_lt hlen'.symm hy hx hgt init)]
        rfl

theorem compare_append {xs ys : List Char} (hlen : xs.length = ys.length) (s t : List Char) :
    compare (xs ++ s) (ys ++ t) = (compare xs ys).then (compare s t) := by
  induction xs generalizing ys with
  | nil =>
    obtain rfl := List.length_eq_zero_iff.1 hlen.symm
    rfl
  | cons x xs ih =>
    cases ys with
    | nil => cases hlen
    | cons y ys =>
      rw [List.cons_append, List.cons_append, List.compare_cons_cons, List.compare_cons_cons,
        ih (Nat.succ.inj hlen), Ordering.then_assoc]

/-- The first digits of a number are the number divided by a power of ten. -/
theorem value_take {digits : List Char} (h : ∀ c ∈ digits, c.isDigit = true) (k : Nat) :
    value (digits.take k) = value digits / 10 ^ (digits.drop k).length := by
  have happ : value digits = Nat.ofDigitChars 10 (digits.drop k) (value (digits.take k)) := by
    unfold value
    rw [← Nat.ofDigitChars_append, List.take_append_drop]
  obtain ⟨hlo, hhi⟩ := ofDigitChars_bounds (fun c hc => h c (List.mem_of_mem_drop hc))
    (value (digits.take k))
  rw [happ]
  refine (Nat.div_eq_of_lt_le ?_ ?_).symm
  · rwa [Nat.mul_comm]
  · rwa [Nat.mul_comm]

theorem compare_padded {width m n : Nat} (hwidth : 0 < width) (h : m < n) (hn : n < 10 ^ width) :
    compare (padded width m) (padded width n) = .lt := by
  have hlen : (padded width m).length = (padded width n).length :=
    (length_padded hwidth (Nat.lt_trans h hn)).trans (length_padded hwidth hn).symm
  have hcmp := compare_eq_compare_value hlen (fun c => isDigit_of_mem_padded)
    (fun c => isDigit_of_mem_padded) 0
  rw [hcmp]
  exact (congrArg₂ compare (value_padded width m) (value_padded width n)).trans
    (Nat.compare_eq_lt.2 h)

/-- Numbers of any size, each followed by a character below the digits: the one with no more
digits comes first when it is at most as many leading digits of the other. -/
theorem isLE_compare_padded {width m n : Nat}
    (hlen : (padded width m).length ≤ (padded width n).length) {c : Char}
    (hc : c.toNat < '0'.toNat) (s : List Char) :
    (compare (padded width m ++ c :: s) (padded width n ++ c :: s)).isLE = true ↔
      m ≤ n / 10 ^ ((padded width n).length - (padded width m).length) := by
  generalize hk : (padded width m).length = k at hlen
  have hm : ∀ c ∈ padded width m, c.isDigit = true := fun c => isDigit_of_mem_padded
  have hn : ∀ c ∈ padded width n, c.isDigit = true := fun c => isDigit_of_mem_padded
  have htake : (padded width m).length = ((padded width n).take k).length := by
    rw [List.length_take]
    omega
  have hleading : compare (padded width m) ((padded width n).take k) =
      compare m (n / 10 ^ ((padded width n).length - k)) := by
    have hcmp := compare_eq_compare_value htake hm (fun c hc => hn c (List.mem_of_mem_take hc)) 0
    have hvalue := value_take hn k
    rw [value_padded, List.length_drop] at hvalue
    rw [hcmp]
    exact congrArg₂ compare (value_padded width m) hvalue
  have hrest : (compare (c :: s) ((padded width n).drop k ++ c :: s)).isLE = true := by
    cases hd : (padded width n).drop k with
    | nil =>
      have hself : compare (c :: s) (c :: s) = .eq := Std.ReflCmp.compare_self
      rw [List.nil_append, hself]
      rfl
    | cons d ds =>
      -- the shorter number ends where the longer one has another digit
      have hdigit := digit_bounds (hn d (List.mem_of_mem_drop (hd ▸ List.mem_cons_self)))
      have hcd : c.toNat < d.toNat := Nat.lt_of_lt_of_le hc hdigit.1
      have hcmp : compare c d = .lt := if_pos (Char.lt_def.2 (UInt32.lt_iff_toNat_lt.2 hcd))
      rw [List.cons_append, List.compare_cons_cons, hcmp]
      rfl
  have hsplit : padded width n ++ c :: s =
      (padded width n).take k ++ ((padded width n).drop k ++ c :: s) := by
    rw [← List.append_assoc, List.take_append_drop]
  rw [hsplit, compare_append htake, hleading, Ordering.isLE_then_iff_and, ← Nat.isLE_compare]
  exact ⟨fun h => h.1, fun h => ⟨h, .inr hrest⟩⟩

end Decimal
