import Mathlib.Algebra.Order.Field.Rat
import Mathlib.Computability.RegularExpressions
import Mathlib.Tactic.FieldSimp
import Mathlib.Tactic.IntervalCases
import Mathlib.Tactic.Ring
import Retype.Proofs.Decimal

/-!
# The plain text of a number is canonical

A decimal denotes a rational number (`Decimal.toRat`), and two decimals denote the same one exactly
when they have the same normal form (`toRat_eq_iff`). The plain text is written from the normal form,
and the normal form can be read from it, so texts are the same exactly for equal numbers.

Which texts are written is said by a pattern (`Decimal.plainForm`), an ordinary regular expression
over characters.

* **No zero too many in front.** The digits of a number other than 0 begin with another digit than 0
  (`exists_first_digit`). A single 0 is filled in only where no digit is left for the whole part.
* **No zero too many behind.** What `trim` leaves is not divisible by ten, so the digits of a normal
  form end in another digit than 0 (`exists_last_digit`), and these are the last of the fraction.
-/

namespace Retype

/-! ### Patterns of digits -/

namespace Pattern

open RegularExpression

/-- One of the characters. -/
def oneOf : List Char → RegularExpression Char
  | [] => 0
  | c :: cs => char c + oneOf cs

/-- What the pattern matches, or nothing. -/
def optional (p : RegularExpression Char) : RegularExpression Char := 1 + p

def digit : RegularExpression Char := oneOf ['0', '1', '2', '3', '4', '5', '6', '7', '8', '9']

/-- A digit other than 0. -/
def leading : RegularExpression Char := oneOf ['1', '2', '3', '4', '5', '6', '7', '8', '9']

theorem mem_oneOf {cs l : List Char} : l ∈ (oneOf cs).matches' ↔ ∃ c ∈ cs, l = [c] := by
  induction cs with
  | nil => simp [oneOf, matches'_zero, Language.notMem_zero]
  | cons c cs ih =>
    have hchar : l ∈ (char c).matches' ↔ l = [c] := Iff.rfl
    rw [oneOf, matches'_add, Language.mem_add, ih, hchar, List.exists_mem_cons_iff]

theorem mem_star_oneOf {cs l : List Char} :
    l ∈ (star (oneOf cs)).matches' ↔ ∀ c ∈ l, c ∈ cs := by
  rw [matches'_star, Language.mem_kstar]
  constructor
  · rintro ⟨parts, rfl, hparts⟩ c hc
    obtain ⟨part, hpart, hc⟩ := List.mem_flatten.mp hc
    obtain ⟨c', hc', rfl⟩ := mem_oneOf.mp (hparts part hpart)
    rwa [List.mem_singleton.mp hc]
  · intro h
    refine ⟨l.map ([·]), ?_, fun part hpart => ?_⟩
    · rw [← List.flatMap_def, List.flatMap_singleton']
    · obtain ⟨c, hc, rfl⟩ := List.mem_map.mp hpart
      exact mem_oneOf.mpr ⟨c, h c hc, rfl⟩

@[simp] theorem mem_optional {p : RegularExpression Char} {l : List Char} :
    l ∈ (optional p).matches' ↔ l = [] ∨ l ∈ p.matches' := by
  rw [optional, matches'_add, Language.mem_add, matches'_epsilon, Language.mem_one]

theorem isDigit_iff {c : Char} :
    c.isDigit = true ↔ c ∈ ['0', '1', '2', '3', '4', '5', '6', '7', '8', '9'] := by
  constructor
  · intro h
    simp only [Char.isDigit, Bool.and_eq_true, decide_eq_true_eq] at h
    have low : 48 ≤ c.toNat := UInt32.le_iff_toNat_le.mp h.1
    have high : c.toNat ≤ 57 := UInt32.le_iff_toNat_le.mp h.2
    rw [← Char.ofNat_toNat c]
    interval_cases c.toNat <;> decide
  · exact List.all_eq_true.mp (by decide) c

theorem mem_digit {l : List Char} : l ∈ digit.matches' ↔ ∃ c, c.isDigit = true ∧ l = [c] := by
  simp only [isDigit_iff]
  exact mem_oneOf

@[simp] theorem mem_star_digit {l : List Char} :
    l ∈ (star digit).matches' ↔ ∀ c ∈ l, c.isDigit = true := by
  simp only [isDigit_iff]
  exact mem_star_oneOf

theorem mem_leading {l : List Char} :
    l ∈ leading.matches' ↔ ∃ c, c.isDigit = true ∧ c ≠ '0' ∧ l = [c] := by
  rw [leading, mem_oneOf]
  refine exists_congr fun c => ?_
  rw [← and_assoc, isDigit_iff]
  refine and_congr_left fun _ => ?_
  constructor
  · intro h
    refine ⟨List.mem_cons_of_mem _ h, ?_⟩
    rintro rfl
    exact absurd h (by decide)
  · rintro ⟨h, hne⟩
    exact (List.mem_cons.mp h).resolve_left hne

end Pattern

namespace Decimal

/-! ### The number that a decimal denotes -/

def toRat (d : Decimal) : ℚ := d.digits * 10 ^ (-d.scale)

theorem toRat_mul_pow (m s : Int) (k : Nat) : toRat ⟨m * 10 ^ k, s⟩ = toRat ⟨m, s - k⟩ := by
  have hpow : (10 : ℚ) ^ (-(s - k)) = 10 ^ k * 10 ^ (-s) := by
    rw [neg_sub, sub_eq_add_neg, zpow_add₀ (by norm_num), zpow_natCast]
  simp only [toRat, hpow]
  push_cast
  ring

theorem toRat_normalize (d : Decimal) : d.normalize.toRat = d.toRat := by
  by_cases hd : d.digits = 0
  · simp [toRat, normalize, hd]
  · simp only [normalize, if_neg hd]
    rw [← toRat_mul_pow, sign_mul_trim_mul_pow]

/-- Decimals denote the same number exactly when they have the same normal form. -/
theorem toRat_eq_iff {a b : Decimal} : a.toRat = b.toRat ↔ a.normalize = b.normalize := by
  refine ⟨fun h => ?_, fun h => by rw [← toRat_normalize a, h, toRat_normalize]⟩
  wlog hscale : a.scale ≤ b.scale generalizing a b
  · exact (this h.symm (by omega)).symm
  -- with the places of the second, the first has the digits of the second
  obtain ⟨k, hk⟩ : ∃ k : Nat, a.scale = b.scale - k := ⟨(b.scale - a.scale).toNat, by omega⟩
  have ha : normalize ⟨a.digits * 10 ^ k, b.scale⟩ = a.normalize := by
    rw [normalize_mul_pow, ← hk]
  have hsame : toRat ⟨a.digits * 10 ^ k, b.scale⟩ = b.toRat := by
    rw [toRat_mul_pow, ← hk, ← h]
  have hpow : (10 : ℚ) ^ (-b.scale) ≠ 0 := zpow_ne_zero _ (by norm_num)
  have hdigits : a.digits * 10 ^ k = b.digits := by exact_mod_cast mul_right_cancel₀ hpow hsame
  rw [← ha, hdigits]

/-! ### The digits of a normal form -/

theorem trim_mod_ne_zero {n : Nat} (hn : n ≠ 0) : (trim n).1 % 10 ≠ 0 := by
  fun_induction trim n with
  | case1 => exact absurd rfl hn
  | case2 n _ hzero trimmed ih => exact ih (by omega)
  | case3 n _ hmod => exact hmod

/-- A normal form is 0, or does not end in a zero. -/
theorem normalize_cases (d : Decimal) :
    d.normalize = ⟨0, 0⟩ ∨ d.normalize.digits.natAbs % 10 ≠ 0 := by
  by_cases hd : d.digits = 0
  · exact .inl (by simp [normalize, hd])
  · refine .inr ?_
    have habs : d.normalize.digits.natAbs = (trim d.digits.natAbs).1 := by
      simp [normalize, hd, Int.natAbs_mul, Int.natAbs_sign_of_ne_zero]
    rw [habs]
    exact trim_mod_ne_zero (Int.natAbs_ne_zero.mpr hd)

theorem exists_first_digit {n : Nat} (hn : n ≠ 0) :
    ∃ c rest, Nat.toDigits 10 n = c :: rest ∧ c ≠ '0' := by
  induction n using Nat.strongRecOn with
  | ind n ih =>
    rw [Nat.toDigits_eq_if (by decide)]
    split
    · exact ⟨_, [], rfl, fun hzero => hn (Nat.digitChar_eq_zero.mp hzero)⟩
    · obtain ⟨c, rest, heq, hc⟩ := ih (n / 10) (by omega) (by omega)
      exact ⟨c, rest ++ [Nat.digitChar (n % 10)], by rw [heq, List.cons_append], hc⟩

theorem exists_last_digit {n : Nat} (hn : n % 10 ≠ 0) :
    ∃ front c, Nat.toDigits 10 n = front ++ [c] ∧ c ≠ '0' := by
  rw [Nat.toDigits_eq_if (by decide)]
  split
  · refine ⟨[], _, rfl, fun hzero => hn ?_⟩
    rw [Nat.digitChar_eq_zero.mp hzero]
  · exact ⟨_, _, rfl, fun hzero => hn (Nat.digitChar_eq_zero.mp hzero)⟩

/-! ### The form of the text -/

open RegularExpression Pattern

/-- A whole part without a zero too many: 0, or digits of which the first is not 0. -/
def wholePart : RegularExpression Char := char '0' + leading * star digit

/-- A point and a fraction without a zero too many. -/
def fractionPart : RegularExpression Char := char '.' * star digit * leading

/-- The pattern `-?(0|[1-9][0-9]*)(\.[0-9]*[1-9])?` of plain texts. -/
def plainForm : RegularExpression Char :=
  Pattern.optional (char '-') * wholePart * Pattern.optional fractionPart

theorem zero_mem_wholePart : ['0'] ∈ wholePart.matches' := Or.inl rfl

theorem mem_wholePart {c : Char} {rest : List Char} (hc : c ≠ '0')
    (hdigits : ∀ x ∈ c :: rest, x.isDigit = true) : c :: rest ∈ wholePart.matches' := by
  obtain ⟨hfirst, hrest⟩ := List.forall_mem_cons.mp hdigits
  have hleading : [c] ∈ leading.matches' := mem_leading.mpr ⟨c, hfirst, hc, rfl⟩
  exact Or.inr (Language.append_mem_mul hleading (mem_star_digit.mpr hrest))

theorem mem_fractionPart {c : Char} {front : List Char} (hc : c ≠ '0')
    (hdigits : ∀ x ∈ front ++ [c], x.isDigit = true) :
    '.' :: (front ++ [c]) ∈ fractionPart.matches' := by
  obtain ⟨hfront, hlast⟩ := List.forall_mem_append.mp hdigits
  have hleading : [c] ∈ leading.matches' :=
    mem_leading.mpr ⟨c, hlast c (List.mem_singleton_self c), hc, rfl⟩
  have hpoint : ['.'] ∈ (char '.' : RegularExpression Char).matches' := rfl
  rw [← List.cons_append]
  exact Language.append_mem_mul (Language.append_mem_mul hpoint (mem_star_digit.mpr hfront)) hleading

/-- A point among digits that neither begin nor end in a zero. -/
theorem withPoint_mem {digits : List Char} {places : Nat}
    (hdigits : ∀ c ∈ digits, c.isDigit = true) (first : ∃ c rest, digits = c :: rest ∧ c ≠ '0')
    (last : ∃ front c, digits = front ++ [c] ∧ c ≠ '0') (hplaces : 0 < places) :
    withPoint digits places ∈ (wholePart * Pattern.optional fractionPart).matches' := by
  rw [withPoint]
  generalize hzeros : List.replicate (places + 1 - digits.length) '0' = zeros
  have hlength : zeros.length = places + 1 - digits.length := by
    rw [← hzeros, List.length_replicate]
  have hpadded : ∀ c ∈ zeros ++ digits, c.isDigit = true :=
    List.forall_mem_append.mpr ⟨fun c hc => isDigit_of_mem_zeros (hzeros ▸ hc), hdigits⟩
  refine Language.append_mem_mul ?_ (mem_optional.mpr (.inr ?_))
  · by_cases hlong : places < digits.length
    · -- enough digits for a whole part
      obtain ⟨c, rest, rfl, hc⟩ := first
      obtain rfl : zeros = [] := List.eq_nil_of_length_eq_zero (by omega)
      obtain ⟨k, hk⟩ : ∃ k, (c :: rest).length - places = k + 1 :=
        ⟨(c :: rest).length - places - 1, by omega⟩
      rw [List.nil_append, hk, List.take_succ_cons]
      refine mem_wholePart hc fun x hx => hdigits x ?_
      exact List.mem_of_mem_take (List.take_succ_cons ▸ hx)
    · -- a single zero is filled in
      obtain ⟨k, hk⟩ : ∃ k, places + 1 - digits.length = k + 1 :=
        ⟨places - digits.length, by omega⟩
      have hone : (zeros ++ digits).length - places = 1 := by
        rw [List.length_append]
        omega
      rw [hone, ← hzeros, hk, List.replicate_succ, List.cons_append, List.take_succ_cons,
        List.take_zero]
      exact zero_mem_wholePart
  · -- the last digit is one of the places
    obtain ⟨front, c, rfl, hc⟩ := last
    have hinside : (zeros ++ (front ++ [c])).length - places ≤ (zeros ++ front).length := by
      simp only [List.length_append, List.length_singleton]
      omega
    rw [← List.append_assoc] at hpadded hinside ⊢
    rw [List.drop_append_of_le_length hinside]
    refine mem_fractionPart hc fun x hx => hpadded x ?_
    rw [← List.drop_append_of_le_length hinside] at hx
    exact List.mem_of_mem_drop hx

/-- Every plain text has the form. -/
theorem plain_mem_plainForm (d : Decimal) : d.plain.toList ∈ plainForm.matches' := by
  have hassoc : plainForm.matches' = (Pattern.optional (char '-')).matches' *
      (wholePart * Pattern.optional fractionPart).matches' := mul_assoc _ _ _
  rw [hassoc, plain_toList]
  generalize hbody : (if d.normalize.scale ≤ 0 then _ else _) = body
  have hmem : body ∈ (wholePart * Pattern.optional fractionPart).matches' := by
    subst hbody
    have hdigits : ∀ c ∈ Nat.toDigits 10 d.normalize.digits.natAbs, c.isDigit = true := fun c hc =>
      isDigit_of_mem_digits hc
    have hnothing : [] ∈ (Pattern.optional fractionPart).matches' := mem_optional.mpr (.inl rfl)
    rcases normalize_cases d with hzero | hmod
    · rw [hzero]
      exact Language.append_mem_mul zero_mem_wholePart hnothing
    obtain ⟨c, rest, hfirst, hc⟩ :=
      exists_first_digit (n := d.normalize.digits.natAbs) (by omega)
    split
    · rw [hfirst] at hdigits ⊢
      rw [← List.append_nil (_ ++ _), List.cons_append]
      refine Language.append_mem_mul (mem_wholePart hc ?_) hnothing
      rw [← List.cons_append]
      exact List.forall_mem_append.mpr ⟨hdigits, fun x hx => isDigit_of_mem_zeros hx⟩
    · exact withPoint_mem hdigits ⟨c, rest, hfirst, hc⟩ (exists_last_digit hmod) (by omega)
  have hsign : ['-'] ∈ (Pattern.optional (char '-')).matches' := mem_optional.mpr (Or.inr rfl)
  dsimp only
  split
  · exact Language.append_mem_mul hsign hmem
  · exact Language.append_mem_mul (mem_optional.mpr (.inl rfl)) hmem

/-- Zero has no sign: it would be read as 0, and that is written without. -/
theorem plain_ne_minus_zero (d : Decimal) : d.plain ≠ "-0" := by
  intro h
  obtain ⟨m, hm, hplaces, hnormal⟩ := exists_read_plain d
  rw [h] at hm hplaces
  obtain rfl : m = 0 := Option.some.inj (hm.symm.trans (by decide))
  have hzero : d.normalize = ⟨0, 0⟩ := by rw [← hnormal, normalize, if_pos rfl]
  have htext : d.plain = "0" := by
    rw [plain, hzero]
    decide
  rw [htext] at h
  exact absurd h (by decide)

theorem plain_eq_iff {a b : Decimal} : a.plain = b.plain ↔ a.toRat = b.toRat := by
  rw [toRat_eq_iff]
  exact ⟨normalize_eq_of_plain_eq, fun h => by rw [plain, h, ← plain]⟩

/-- **Plain text is canonical.** The text of a number is read as its normal form; it has no zero
too many in front or behind, and no sign without a number; and two numbers have the same text exactly
when they are equal. -/
theorem plain_canonical (d : Decimal) :
    (d.Representable → parse? d.plain = some d.normalize) ∧
      d.plain.toList ∈ plainForm.matches' ∧ d.plain ≠ "-0" ∧
      ∀ e : Decimal, d.plain = e.plain ↔ d.toRat = e.toRat :=
  ⟨parse?_plain, plain_mem_plainForm d, plain_ne_minus_zero d, fun _ => plain_eq_iff⟩

/-- Zeros in front of the digits are filled in, and those behind them are not written. -/
theorem plain_canonical_fraction :
    let d : Decimal := ⟨-1500, 6⟩
    d.Representable ∧ d.plain = "-0.0015" ∧ parse? d.plain = some ⟨-15, 4⟩ := by
  intro d
  have hnormal : d.normalize = ⟨-15, 4⟩ := by simp [d, normalize, trim]
  have h : d.Representable := by
    rw [Representable, hnormal]
    decide
  have htext : d.plain = "-0.0015" := by
    rw [plain, hnormal]
    decide
  exact ⟨h, htext, hnormal ▸ (plain_canonical d).1 h⟩

end Decimal

end Retype
