import Mathlib.Algebra.Ring.Int.Defs
import Mathlib.Algebra.Ring.Nat
import Mathlib.Data.List.TakeWhile
import Retype.Decimal.Literal
import Retype.Decimal.Plain

/-!
# The plain text of a number

Zeros behind the digits of a number can be moved into its scale without changing its normal form
(`normalize_mul_pow`), so a normal form is its own normal form (`normalize_normalize`).

The plain text of a number is a sign, if any, digits and at most one point. Read without its
point it is a whole number, and that number with as many places as stand behind the point has the
normal form of the one that was written (`exists_read_plain`). Hence numbers with the same text
are equal (`normalize_eq_of_plain_eq`), and a text is read back as the normal form (`parse?_plain`).
Scales are words of 64 bits, so this is so for numbers whose normal form has such a scale
(`Representable`): the two normal forms agree exactly on these (`normalized_eq_iff`). A number has
one if it is itself read from a text (`representable_of_parse?`), or if there is room for its text
(`representable_of_length`).
-/

namespace Retype.Decimal

/-! ### Normal forms -/

/-- A number is what is left of it, followed by the zeros that were taken away. -/
theorem trim_mul_pow (n : Nat) : (trim n).1 * 10 ^ (trim n).2 = n := by
  fun_induction trim n with
  | case1 => rfl
  | case2 n _ hzero trimmed ih =>
    rw [Nat.pow_succ, ← Nat.mul_assoc, ih]
    omega
  | case3 => simp

/-- The same of a number with a sign. -/
theorem sign_mul_trim_mul_pow (z : Int) :
    z.sign * (trim z.natAbs).1 * 10 ^ (trim z.natAbs).2 = z := by
  have habs : ((trim z.natAbs).1 : Int) * 10 ^ (trim z.natAbs).2 = z.natAbs := by
    exact_mod_cast trim_mul_pow z.natAbs
  rw [Int.mul_assoc, habs, Int.sign_mul_natAbs]

theorem trim_of_mul_pow {n : Nat} (hn : n ≠ 0) (k : Nat) :
    trim (n * 10 ^ k) = ((trim n).1, (trim n).2 + k) := by
  induction k with
  | zero => simp
  | succ k ih =>
    have hpos : 0 < n * 10 ^ k := Nat.mul_pos (Nat.pos_of_ne_zero hn) (Nat.pow_pos (by decide))
    rw [Nat.pow_succ, ← Nat.mul_assoc, trim, if_neg (by omega), if_pos (by omega),
      Nat.mul_div_cancel _ (by decide), ih]
    rfl

/-- Zeros behind the digits lower the scale. -/
theorem normalize_mul_pow (m s : Int) (k : Nat) :
    normalize ⟨m * 10 ^ k, s⟩ = normalize ⟨m, s - k⟩ := by
  have hten : (10 : Int) ^ k = ((10 ^ k : Nat) : Int) := by simp
  by_cases hm : m = 0
  · simp [normalize, hm]
  · have hprod : m * 10 ^ k ≠ 0 := Int.mul_ne_zero hm (Int.pow_ne_zero (by decide))
    have hsign : (m * 10 ^ k).sign = m.sign := by
      rw [Int.sign_mul, Int.sign_eq_one_of_pos (a := 10 ^ k) (Int.pow_pos (by decide)), Int.mul_one]
    have habs : (m * 10 ^ k).natAbs = m.natAbs * 10 ^ k := by
      rw [Int.natAbs_mul, hten, Int.natAbs_natCast]
    simp only [normalize, if_neg hm, if_neg hprod, hsign, habs,
      trim_of_mul_pow (Int.natAbs_ne_zero.mpr hm) k, mk.injEq, true_and]
    omega

@[simp] theorem normalize_normalize (d : Decimal) : d.normalize.normalize = d.normalize := by
  by_cases hd : d.digits = 0
  · simp [normalize, hd]
  · have hform : d.normalize = ⟨d.digits.sign * (trim d.digits.natAbs).1,
        d.scale - (trim d.digits.natAbs).2⟩ := by simp [normalize, hd]
    rw [hform, ← normalize_mul_pow, sign_mul_trim_mul_pow, ← hform]

/-! ### Reading digits -/

theorem natural?_of_digits {cs : List Char} (hne : cs ≠ []) (hdigits : ∀ c ∈ cs, c.isDigit = true) :
    natural? cs = some (Nat.ofDigitChars 10 cs 0) := by
  rw [natural?, if_neg]
  · rfl
  · simpa [hne] using hdigits

theorem integer?_of_digits {cs : List Char} (hne : cs ≠ []) (hdigits : ∀ c ∈ cs, c.isDigit = true) :
    integer? cs = some (Nat.ofDigitChars 10 cs 0 : Int) := by
  have hfirst : ∀ c, cs.head? = some c → c ≠ '+' ∧ c ≠ '-' := by
    rintro c hc
    have := hdigits c (List.mem_of_mem_head? hc)
    constructor <;> rintro rfl <;> cases this
  unfold integer?
  split
  · exact absurd rfl (hfirst '+' rfl).1
  · exact absurd rfl (hfirst '-' rfl).2
  · rw [natural?_of_digits hne hdigits]
    rfl

/-- Digits behind the sign of a number are read as that number, if they write its magnitude. -/
theorem integer?_signed {cs : List Char} {z : Int} (hne : cs ≠ [])
    (hdigits : ∀ c ∈ cs, c.isDigit = true) (hvalue : Nat.ofDigitChars 10 cs 0 = z.natAbs) :
    integer? (if z < 0 then '-' :: cs else cs) = some z := by
  split
  · have hread : integer? ('-' :: cs) = some (-(z.natAbs : Int)) := by
      rw [integer?, natural?_of_digits hne hdigits, hvalue]
      rfl
    rw [hread, Option.some.injEq]
    omega
  · rw [integer?_of_digits hne hdigits, hvalue, Option.some.injEq]
    omega

/-! ### The point -/

theorem dropPoint_of_not_mem {whole : List Char} (h : '.' ∉ whole) :
    dropPoint whole = (whole, 0) := by
  have hall : ∀ c ∈ whole, (c != '.') = true := fun c hc =>
    bne_iff_ne.mpr (ne_of_mem_of_not_mem hc h)
  simp [dropPoint, List.takeWhile_eq_self_iff.mpr hall, List.dropWhile_eq_nil_iff.mpr hall]

theorem dropPoint_append {whole fraction : List Char} (h : '.' ∉ whole) :
    dropPoint (whole ++ '.' :: fraction) = (whole ++ fraction, fraction.length) := by
  have hall : ∀ c ∈ whole, (c != '.') = true := fun c hc =>
    bne_iff_ne.mpr (ne_of_mem_of_not_mem hc h)
  simp [dropPoint, List.takeWhile_append_of_pos hall, List.dropWhile_append_of_pos hall]

/-- A point in front of the last places leaves digits and zeros in front of them. -/
theorem dropPoint_withPoint {digits : List Char} (h : '.' ∉ digits) (places : Nat) :
    dropPoint (withPoint digits places) =
      (List.replicate (places + 1 - digits.length) '0' ++ digits, places) := by
  generalize hpadded : List.replicate (places + 1 - digits.length) '0' ++ digits = padded
  have hpoint : '.' ∉ padded := by
    rw [← hpadded, List.mem_append, List.mem_replicate]
    rintro (⟨-, heq⟩ | hmem)
    · cases heq
    · exact h hmem
  have hlen : places ≤ padded.length := by
    rw [← hpadded, List.length_append, List.length_replicate]
    omega
  rw [withPoint, hpadded, dropPoint_append fun hmem => hpoint (List.mem_of_mem_take hmem),
    List.take_append_drop, List.length_drop]
  congr 1
  omega

/-! ### The text as a whole -/

theorem isDigit_of_mem_digits {n : Nat} {c : Char} (h : c ∈ Nat.toDigits 10 n) :
    c.isDigit = true :=
  Nat.isDigit_of_mem_toDigits (by decide) (by decide) h

theorem isDigit_of_mem_zeros {n : Nat} {c : Char} (h : c ∈ List.replicate n '0') :
    c.isDigit = true := by
  rw [(List.mem_replicate.mp h).2]
  rfl

theorem point_not_mem {cs : List Char} (h : ∀ c ∈ cs, c.isDigit = true) : '.' ∉ cs := by
  intro hmem
  cases h '.' hmem

/-- A sign in front stays in front when the point is dropped. -/
theorem dropPoint_sign (negative : Prop) [Decidable negative] (body : List Char) :
    dropPoint (if negative then '-' :: body else body) =
      (if negative then '-' :: (dropPoint body).1 else (dropPoint body).1, (dropPoint body).2) := by
  split
  · simp [dropPoint]
  · rfl

/-- The characters of a plain text. -/
theorem plain_toList (d : Decimal) :
    d.plain.toList =
      let body := if d.normalize.scale ≤ 0 then
          Nat.toDigits 10 d.normalize.digits.natAbs
            ++ List.replicate (-d.normalize.scale).toNat '0'
        else withPoint (Nat.toDigits 10 d.normalize.digits.natAbs) d.normalize.scale.toNat
      if d.normalize.digits < 0 then '-' :: body else body := by
  simp [plain, written]

/-- **Reading back.** Without its point the text of a number is a whole number, and that number
with as many places as the point had behind it has the normal form of the one that was written. -/
theorem exists_read_plain (d : Decimal) : ∃ m : Int,
    integer? (dropPoint d.plain.toList).1 = some m ∧
      (dropPoint d.plain.toList).2 = d.normalize.scale.toNat ∧
      normalize ⟨m, d.normalize.scale.toNat⟩ = d.normalize := by
  obtain ⟨n, hn⟩ : ∃ n, n = d.normalize := ⟨_, rfl⟩
  have hnormal : n.normalize = n := by rw [hn, normalize_normalize]
  rw [plain_toList, ← hn]
  dsimp only
  rw [dropPoint_sign]
  have hdigits : ∀ c ∈ Nat.toDigits 10 n.digits.natAbs, c.isDigit = true := fun c hc =>
    isDigit_of_mem_digits hc
  by_cases hscale : n.scale ≤ 0
  · -- a whole number, its zeros written out
    have hall : ∀ c ∈ Nat.toDigits 10 n.digits.natAbs ++ List.replicate (-n.scale).toNat '0',
        c.isDigit = true := by
      intro c hc
      rcases List.mem_append.mp hc with hc | hc
      · exact hdigits c hc
      · exact isDigit_of_mem_zeros hc
    refine ⟨n.digits * 10 ^ (-n.scale).toNat, ?_, ?_, ?_⟩
    · rw [if_pos hscale, dropPoint_of_not_mem (point_not_mem hall)]
      have hneg : n.digits < 0 ↔ n.digits * 10 ^ (-n.scale).toNat < 0 := by
        have hpos : (0 : Int) < 10 ^ (-n.scale).toNat := Int.pow_pos (by decide)
        rw [← Int.not_le, ← Int.not_le, not_iff_not]
        exact ⟨fun h => Int.mul_nonneg h (Int.le_of_lt hpos),
          fun h => Int.nonneg_of_mul_nonneg_left h hpos⟩
      simp only [hneg]
      refine integer?_signed (by simp [Nat.toDigits_ne_nil]) hall ?_
      rw [Nat.ofDigitChars_append, Nat.ofDigitChars_ten_toDigits, Nat.ofDigitChars_replicate_zero,
        Int.natAbs_mul, Int.natAbs_pow]
      exact Nat.mul_comm ..
    · rw [if_pos hscale, dropPoint_of_not_mem (point_not_mem hall)]
      dsimp only
      omega
    · rw [normalize_mul_pow]
      have hshift : (n.scale.toNat : Int) - (-n.scale).toNat = n.scale := by omega
      rw [hshift, hnormal]
  · -- a fraction, filled up with zeros in front
    rw [if_neg hscale, dropPoint_withPoint (point_not_mem hdigits)]
    refine ⟨n.digits, ?_, rfl, ?_⟩
    · refine integer?_signed (by simp [Nat.toDigits_ne_nil]) (fun c hc => ?_) ?_
      · rcases List.mem_append.mp hc with hc | hc
        · exact isDigit_of_mem_zeros hc
        · exact hdigits c hc
      · rw [Nat.ofDigitChars_append, Nat.ofDigitChars_replicate_zero, Nat.mul_zero,
          Nat.ofDigitChars_ten_toDigits]
    · rw [show (n.scale.toNat : Int) = n.scale by omega, hnormal]

/-- **Texts tell numbers apart.** -/
theorem normalize_eq_of_plain_eq {a b : Decimal} (h : a.plain = b.plain) :
    a.normalize = b.normalize := by
  obtain ⟨m, hm, hplaces, ha⟩ := exists_read_plain a
  obtain ⟨m', hm', hplaces', hb⟩ := exists_read_plain b
  rw [h] at hm hplaces
  obtain rfl : m = m' := Option.some.inj (hm.symm.trans hm')
  rw [← ha, ← hb, ← hplaces, ← hplaces']

/-- A plain text has digits, a point and a sign, and so no exponent. -/
theorem mem_plain {d : Decimal} {c : Char} (h : c ∈ d.plain.toList) :
    c = '-' ∨ c = '.' ∨ c.isDigit = true := by
  rw [plain_toList] at h
  dsimp only at h
  have hsign : c = '-' ∨ c ∈ if d.normalize.scale ≤ 0 then
      Nat.toDigits 10 d.normalize.digits.natAbs ++ List.replicate (-d.normalize.scale).toNat '0'
      else withPoint (Nat.toDigits 10 d.normalize.digits.natAbs) d.normalize.scale.toNat := by
    split at h
    · exact List.mem_cons.mp h
    · exact .inr h
  refine hsign.imp_right fun hbody => ?_
  split at hbody
  · rcases List.mem_append.mp hbody with hc | hc
    · exact .inr (isDigit_of_mem_digits hc)
    · exact .inr (isDigit_of_mem_zeros hc)
  · have hpadded : ∀ {k : Nat},
        c ∈ List.replicate k '0' ++ Nat.toDigits 10 d.normalize.digits.natAbs →
        c.isDigit = true := fun hc =>
      (List.mem_append.mp hc).elim isDigit_of_mem_zeros isDigit_of_mem_digits
    rcases List.mem_append.mp hbody with hc | hc
    · exact .inr (hpadded (List.mem_of_mem_take hc))
    · exact (List.mem_cons.mp hc).imp_right fun hc => hpadded (List.mem_of_mem_drop hc)

theorem not_mark_of_mem_plain {d : Decimal} {c : Char} (h : c ∈ d.plain.toList) :
    (!(c == 'e' || c == 'E')) = true := by
  rcases mem_plain h with rfl | rfl | hdigit
  · rfl
  · rfl
  · rw [Bool.not_eq_true', Bool.or_eq_false_iff, beq_eq_false_iff_ne, beq_eq_false_iff_ne]
    constructor <;> rintro rfl <;> cases hdigit

/-! ### Scales of 64 bits -/

/-- The scale of the normal form is a word of 64 bits. -/
def Representable (d : Decimal) : Prop := fits scaleBound d.normalize.scale = true

instance (d : Decimal) : Decidable d.Representable := inferInstanceAs (Decidable (_ = true))

/-- The two normal forms agree exactly on the numbers that are representable. -/
theorem normalized_eq_iff {d : Decimal} : d.normalized = d.normalize ↔ d.Representable :=
  wrapped_eq_iff

/-- The digits of a normal form are in normal form at every scale. -/
theorem scale_normalize_of_normal {d : Decimal} (h : d.normalize = d) (s : Int) :
    (normalize ⟨d.digits, s⟩).scale = 0 ∨ (normalize ⟨d.digits, s⟩).scale = s := by
  by_cases hd : d.digits = 0
  · exact .inl (by simp [normalize, hd])
  · have hscale : d.scale - (trim d.digits.natAbs).2 = d.scale := by
      simpa [normalize, hd] using congrArg scale h
    refine .inr ?_
    simp only [normalize, if_neg hd]
    omega

theorem representable_normalized (d : Decimal) : d.normalized.Representable := by
  rw [normalized, wrapped, Representable]
  rcases scale_normalize_of_normal (normalize_normalize d) (scaleWord d.normalize.scale) with
    hscale | hscale
  · rw [hscale]
    decide
  · rw [hscale]
    exact fits_scaleWord _

/-- Every zero that a number ends in, and every place that it has, is a character of its text. -/
theorem natAbs_scale_lt_length (d : Decimal) : d.normalize.scale.natAbs < d.plain.length := by
  have hdigits : 0 < (Nat.toDigits 10 d.normalize.digits.natAbs).length :=
    List.length_pos_iff.mpr Nat.toDigits_ne_nil
  rw [← String.length_toList, plain_toList]
  dsimp only
  generalize hbody : (if d.normalize.scale ≤ 0 then _ else _) = body
  have hlength : d.normalize.scale.natAbs < body.length := by
    rw [← hbody]
    split
    · rw [List.length_append, List.length_replicate]
      omega
    · simp only [withPoint, List.length_append, List.length_cons, List.length_take,
        List.length_drop, List.length_replicate]
      omega
  split
  · exact Nat.lt_succ_of_lt hlength
  · exact hlength

/-- A number is representable if there is room for its text. -/
theorem representable_of_length {d : Decimal} (h : d.plain.length < 2 ^ 63) : d.Representable := by
  have hscale := natAbs_scale_lt_length d
  refine fits_iff.mpr ⟨?_, ?_⟩ <;> unfold scaleBound <;> omega

/-- **One text.** The text of a number is that of either normal form, if there is room for it. -/
theorem written_normalized {d : Decimal} (h : d.plain.length < 2 ^ 63) :
    d.normalized.written = d.plain := by
  rw [normalized_eq_iff.mpr (representable_of_length h), plain]

/-- Numbers that are read are representable. -/
theorem representable_of_parse? {text : String} {d : Decimal} (h : parse? text = some d) :
    d.Representable := by
  simp only [parse?, bind, Option.bind_eq_some_iff] at h
  obtain ⟨exponent, -, h⟩ := h
  split at h
  · obtain ⟨digits, -, h⟩ := Option.bind_eq_some_iff.mp h
    cases h
    exact representable_normalized _
  · cases h

/-- **Round trip.** The text of a number is read as its normal form. -/
theorem parse?_plain {d : Decimal} (h : d.Representable) : parse? d.plain = some d.normalize := by
  obtain ⟨m, hm, hplaces, hnormal⟩ := exists_read_plain d
  obtain ⟨low, high⟩ := fits_iff.mp h
  have hfits : fits scaleBound ((d.normalize.scale.toNat : Int) - 0) = true := by
    refine fits_iff.mpr ⟨?_, by omega⟩
    unfold scaleBound
    omega
  have hbase : d.plain.toList.takeWhile (fun c => !(c == 'e' || c == 'E')) = d.plain.toList :=
    List.takeWhile_eq_self_iff.mpr fun c hc => not_mark_of_mem_plain hc
  have hrest : d.plain.toList.dropWhile (fun c => !(c == 'e' || c == 'E')) = [] :=
    List.dropWhile_eq_nil_iff.mpr fun c hc => not_mark_of_mem_plain hc
  have hread : normalized ⟨m, d.normalize.scale.toNat⟩ = d.normalize := by
    rw [normalized, hnormal, wrapped_eq_iff.mpr h]
  simp only [parse?, hbase, hrest, exponent?, hplaces, hm, bind, Option.bind, hfits, if_true]
  rw [Int.sub_zero, hread]
  rfl

end Retype.Decimal
