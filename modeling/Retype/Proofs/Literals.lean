import Retype.Proofs.PlainText

/-!
# Which texts are read as numbers

A literal is a sign, if any, digits with a point among them, and an exponent, if any, with at least
one digit in front of the exponent. `Numeral` is such a literal taken apart; the texts of numerals
are those of a pattern (`mem_literalForm`).

* **Literals are read for what they say** (`parse?_text`): one is accepted exactly when its exponent
  and its scale are within their bounds, and the result is the normal form of the number it denotes,
  except that the scale of a normal form may pass below its bound and wraps around then.
* **Other texts** (`numeral_of_parse?`). The point is dropped before the sign is read, and the
  characters behind it are counted, whatever they are. So a sign may stand directly behind a leading
  point, where it counts as a place; nothing else is accepted beside the literals.
-/

namespace Retype.Decimal

open RegularExpression Pattern

/-! ### Whole numbers with a sign -/

/-- The sign in front of digits, if any. -/
inductive Sign
  | none
  | plus
  | minus
deriving DecidableEq

def Sign.text : Sign → List Char
  | none => []
  | plus => ['+']
  | minus => ['-']

def Sign.factor : Sign → Int
  | none => 1
  | plus => 1
  | minus => -1

/-- A sign, if any, and at least one digit. -/
structure Signed where
  sign : Sign
  digits : List Char
  nonempty : digits ≠ []
  isDigit : ∀ c ∈ digits, c.isDigit = true

def Signed.text (n : Signed) : List Char := n.sign.text ++ n.digits

def Signed.value (n : Signed) : Int := n.sign.factor * ofDigits n.digits

theorem natural?_eq_some_iff {cs : List Char} {n : Nat} :
    natural? cs = some n ↔ cs ≠ [] ∧ (∀ c ∈ cs, c.isDigit = true) ∧ ofDigits cs = n := by
  simp [natural?, and_assoc]

theorem integer?_text (n : Signed) : integer? n.text = some n.value := by
  obtain ⟨sign, digits, hne, hdigits⟩ := n
  have hread : natural? digits = some (ofDigits digits) := natural?_of_digits hne hdigits
  cases sign with
  | none =>
    rw [Signed.value, Sign.factor, one_mul]
    exact integer?_of_digits hne hdigits
  | plus =>
    rw [Signed.value, Sign.factor, one_mul, Signed.text, Sign.text, List.singleton_append, integer?,
      hread]
    rfl
  | minus =>
    rw [Signed.value, Sign.factor, neg_one_mul, Signed.text, Sign.text, List.singleton_append,
      integer?, hread]
    rfl

theorem exists_signed_of_integer? {cs : List Char} {z : Int} (h : integer? cs = some z) :
    ∃ n : Signed, n.text = cs ∧ n.value = z := by
  unfold integer? at h
  split at h
  all_goals
    obtain ⟨_, hread, rfl⟩ := Option.map_eq_some_iff.mp h
    obtain ⟨n, hn, hcast⟩ := Option.bind_eq_some_iff.mp hread
    obtain ⟨hne, hdigits, rfl⟩ := natural?_eq_some_iff.mp hn
    cases hcast
  · exact ⟨⟨.plus, _, hne, hdigits⟩, rfl, one_mul _⟩
  · exact ⟨⟨.minus, _, hne, hdigits⟩, rfl, neg_one_mul _⟩
  · exact ⟨⟨.none, _, hne, hdigits⟩, rfl, one_mul _⟩

/-! ### Literals taken apart -/

/-- An exponent with its mark. -/
structure Exponent where
  mark : Char
  power : Signed
  isMark : mark = 'e' ∨ mark = 'E'

def Exponent.text (e : Exponent) : List Char := e.mark :: e.power.text

/-- A decimal literal: a sign, if any, digits in front of the point and behind it, at least one in
all, and an exponent, if any. Without a point there is no fraction. -/
structure Numeral where
  sign : Sign
  whole : List Char
  fraction : Option (List Char)
  exponent : Option Exponent
  nonempty : whole ++ fraction.getD [] ≠ []
  isDigit : ∀ c ∈ whole ++ fraction.getD [], c.isDigit = true

namespace Numeral

variable (n : Numeral)

/-- What stands in front of the exponent. -/
def base : List Char :=
  n.sign.text ++ n.whole ++ n.fraction.elim [] ('.' :: ·)

def text : List Char := n.base ++ n.exponent.elim [] Exponent.text

/-- The exponent; 0 if there is none. -/
def power : Int := n.exponent.elim 0 (·.power.value)

/-- The number of digits behind the point. -/
def places : Nat := (n.fraction.getD []).length

/-- The digits with their sign, without the point. -/
def signed : Signed := ⟨n.sign, n.whole ++ n.fraction.getD [], n.nonempty, n.isDigit⟩

/-- The number that the literal denotes. -/
def value : ℚ :=
  n.sign.factor * (ofDigits n.whole + ofDigits (n.fraction.getD []) / 10 ^ n.places) * 10 ^ n.power

/-- The same as a decimal with as many places as are written, less the exponent. -/
def decimal : Decimal := ⟨n.signed.value, n.places - n.power⟩

end Numeral

theorem ofDigits_append (a b : List Char) :
    ofDigits (a ++ b) = ofDigits a * 10 ^ b.length + ofDigits b := by
  have happend : ofDigits (a ++ b) = Nat.ofDigitChars 10 b (ofDigits a) := Nat.ofDigitChars_append 0
  rw [happend, Nat.ofDigitChars_eq_ofDigitChars_zero, Nat.mul_comm]
  rfl

theorem Numeral.toRat_decimal (n : Numeral) : n.decimal.toRat = n.value := by
  have hpow : (10 : ℚ) ^ (-((n.places : ℤ) - n.power)) = 10 ^ n.power / 10 ^ n.places := by
    rw [neg_sub, zpow_sub₀ (by norm_num), zpow_natCast]
  have hten : (10 : ℚ) ^ n.places ≠ 0 := by positivity
  simp only [toRat, decimal, hpow, signed, Signed.value, ofDigits_append, value]
  rw [← places]
  push_cast
  field_simp

/-! ### The pattern of literals -/

/-- The pattern `[+-]?`. -/
def signForm : RegularExpression Char := Pattern.optional (oneOf ['+', '-'])

/-- The pattern `[0-9]+`. -/
def digitsForm : RegularExpression Char := digit * star digit

/-- The pattern `[0-9]+(\.[0-9]*)?|\.[0-9]+`. -/
def pointForm : RegularExpression Char :=
  digitsForm * Pattern.optional (char '.' * star digit) + char '.' * digitsForm

/-- The pattern `[eE][+-]?[0-9]+`. -/
def exponentForm : RegularExpression Char := oneOf ['e', 'E'] * (signForm * digitsForm)

/-- The pattern `[+-]?([0-9]+(\.[0-9]*)?|\.[0-9]+)([eE][+-]?[0-9]+)?` of literals. -/
def literalForm : RegularExpression Char :=
  signForm * pointForm * Pattern.optional exponentForm

theorem mem_signForm {l : List Char} : l ∈ signForm.matches' ↔ ∃ s : Sign, s.text = l := by
  rw [signForm, mem_optional, mem_oneOf]
  constructor
  · rintro (rfl | ⟨c, hc, rfl⟩)
    · exact ⟨.none, rfl⟩
    · rcases List.mem_pair.mp hc with rfl | rfl
      · exact ⟨.plus, rfl⟩
      · exact ⟨.minus, rfl⟩
  · rintro ⟨s, rfl⟩
    cases s with
    | none => exact .inl rfl
    | plus => exact .inr ⟨'+', by simp, rfl⟩
    | minus => exact .inr ⟨'-', by simp, rfl⟩

theorem mem_digitsForm {l : List Char} :
    l ∈ digitsForm.matches' ↔ l ≠ [] ∧ ∀ c ∈ l, c.isDigit = true := by
  rw [digitsForm, matches'_mul, Language.mem_mul]
  constructor
  · rintro ⟨first, hfirst, rest, hrest, rfl⟩
    obtain ⟨c, hc, rfl⟩ := mem_digit.mp hfirst
    exact ⟨by simp, List.forall_mem_cons.mpr ⟨hc, mem_star_digit.mp hrest⟩⟩
  · rintro ⟨hne, hdigits⟩
    obtain ⟨c, rest, rfl⟩ := List.exists_cons_of_ne_nil hne
    obtain ⟨hc, hrest⟩ := List.forall_mem_cons.mp hdigits
    exact ⟨[c], mem_digit.mpr ⟨c, hc, rfl⟩, rest, mem_star_digit.mpr hrest, rfl⟩

theorem mem_pointForm {l : List Char} :
    l ∈ pointForm.matches' ↔ ∃ (whole : List Char) (fraction : Option (List Char)),
      whole ++ fraction.elim [] ('.' :: ·) = l ∧ whole ++ fraction.getD [] ≠ [] ∧
        ∀ c ∈ whole ++ fraction.getD [], c.isDigit = true := by
  have hpoint {l : List Char} : l ∈ (char '.').matches' ↔ l = ['.'] := Iff.rfl
  simp only [pointForm, matches'_add, Language.mem_add, matches'_mul, Language.mem_mul,
    mem_digitsForm, mem_optional, mem_star_digit, hpoint, List.forall_mem_append]
  constructor
  · rintro (⟨whole, ⟨hne, hwhole⟩, rest, rfl | ⟨_, rfl, fraction, hfraction, rfl⟩, rfl⟩ |
      ⟨_, rfl, fraction, ⟨hne, hfraction⟩, rfl⟩)
    · exact ⟨whole, none, rfl, by simpa using hne, hwhole, by simp⟩
    · exact ⟨whole, some fraction, rfl, by simp [hne], hwhole, hfraction⟩
    · exact ⟨[], some fraction, rfl, hne, by simp, hfraction⟩
  · rintro ⟨whole, fraction, rfl, hne, hwhole, hfraction⟩
    cases fraction with
    | none => exact .inl ⟨whole, ⟨by simpa using hne, hwhole⟩, [], .inl rfl, rfl⟩
    | some fraction =>
      by_cases hnil : whole = []
      · subst hnil
        exact .inr ⟨['.'], rfl, fraction, ⟨hne, hfraction⟩, rfl⟩
      · exact .inl ⟨whole, ⟨hnil, hwhole⟩, _, .inr ⟨['.'], rfl, fraction, hfraction, rfl⟩, rfl⟩

theorem mem_exponentForm {l : List Char} :
    l ∈ exponentForm.matches' ↔ ∃ e : Exponent, e.text = l := by
  simp only [exponentForm, matches'_mul, Language.mem_mul, mem_oneOf, mem_signForm, mem_digitsForm]
  constructor
  · rintro ⟨_, ⟨mark, hmark, rfl⟩, _, ⟨_, ⟨sign, rfl⟩, digits, ⟨hne, hdigits⟩, rfl⟩, rfl⟩
    exact ⟨⟨mark, ⟨sign, digits, hne, hdigits⟩, List.mem_pair.mp hmark⟩, rfl⟩
  · rintro ⟨⟨mark, power, hmark⟩, rfl⟩
    exact ⟨[mark], ⟨mark, List.mem_pair.mpr hmark, rfl⟩, _, ⟨_, ⟨power.sign, rfl⟩, power.digits,
      ⟨power.nonempty, power.isDigit⟩, rfl⟩, rfl⟩

/-- **The texts of numerals** are those of the pattern. -/
theorem mem_literalForm {l : List Char} :
    l ∈ literalForm.matches' ↔ ∃ n : Numeral, n.text = l := by
  simp only [literalForm, matches'_mul, Language.mem_mul, mem_signForm, mem_pointForm, mem_optional,
    mem_exponentForm]
  constructor
  · rintro ⟨_, ⟨_, ⟨sign, rfl⟩, _, ⟨whole, fraction, rfl, hne, hdigits⟩, rfl⟩, exponent, hexponent,
      rfl⟩
    rw [← List.append_assoc]
    rcases hexponent with rfl | ⟨e, rfl⟩
    · exact ⟨⟨sign, whole, fraction, none, hne, hdigits⟩, rfl⟩
    · exact ⟨⟨sign, whole, fraction, some e, hne, hdigits⟩, rfl⟩
  · rintro ⟨⟨sign, whole, fraction, exponent, hne, hdigits⟩, rfl⟩
    refine ⟨_, ⟨_, ⟨sign, rfl⟩, _, ⟨whole, fraction, rfl, hne, hdigits⟩, rfl⟩,
      exponent.elim [] Exponent.text, ?_, ?_⟩
    · cases exponent with
      | none => exact .inl rfl
      | some e => exact .inr ⟨e, rfl⟩
    · rw [← List.append_assoc]
      rfl

/-! ### How a text is split -/

def isMark (c : Char) : Bool := c == 'e' || c == 'E'

theorem isMark_iff {c : Char} : isMark c = true ↔ c = 'e' ∨ c = 'E' := by simp [isMark]

/-- Every text is a base without a mark, and an exponent that begins with one. -/
theorem exists_split (l : List Char) : ∃ base rest, l = base ++ rest ∧
    (∀ c ∈ base, (!isMark c) = true) ∧ ∀ c ∈ rest.head?, isMark c = true := by
  refine ⟨l.takeWhile (!isMark ·), l.dropWhile (!isMark ·), List.takeWhile_append_dropWhile.symm,
    fun c hc => List.mem_takeWhile_imp (p := (!isMark ·)) hc, fun c hc => ?_⟩
  have hmark := List.head?_dropWhile_not (!isMark ·) l
  rw [Option.mem_def.mp hc] at hmark
  simpa using hmark

theorem parse?_of_split {text : String} {base rest : List Char} (htext : text.toList = base ++ rest)
    (hbase : ∀ c ∈ base, (!isMark c) = true) (hrest : ∀ c ∈ rest.head?, isMark c = true) :
    parse? text = (exponent? rest).bind fun power =>
      if fits scaleBound ((dropPoint base).2 - power) then
        (integer? (dropPoint base).1).map fun digits =>
          (normalize ⟨digits, (dropPoint base).2 - power⟩).wrapped
      else none := by
  have hstop : rest.takeWhile (!isMark ·) = [] ∧ rest.dropWhile (!isMark ·) = rest := by
    cases rest with
    | nil => exact ⟨rfl, rfl⟩
    | cons c rest =>
      have hmark : ¬(!isMark c) = true := by simp [hrest c rfl]
      exact ⟨List.takeWhile_cons_of_neg hmark, List.dropWhile_cons_of_neg hmark⟩
  have htake : text.toList.takeWhile (!isMark ·) = base := by
    rw [htext, List.takeWhile_append_of_pos hbase, hstop.1, List.append_nil]
  have hdrop : text.toList.dropWhile (!isMark ·) = rest := by
    rw [htext, List.dropWhile_append_of_pos hbase, hstop.2]
  unfold isMark at htake hdrop
  simp only [parse?, htake, hdrop, bind]
  congr
  funext power
  split
  · cases integer? (dropPoint base).1 <;> rfl
  · rfl

theorem exponent?_text (e : Option Exponent) {z : Int} :
    exponent? (e.elim [] Exponent.text) = some z ↔
      fits exponentBound (e.elim 0 (·.power.value)) = true ∧ z = e.elim 0 (·.power.value) := by
  cases e with
  | none => simp [exponent?, show fits exponentBound 0 = true by decide, eq_comm]
  | some e =>
    simp only [Option.elim_some, Exponent.text, exponent?, integer?_text, Option.filter_eq_some_iff,
      Option.some.injEq]
    constructor
    · rintro ⟨rfl, hfits⟩
      exact ⟨hfits, rfl⟩
    · rintro ⟨hfits, rfl⟩
      exact ⟨rfl, hfits⟩

theorem exists_exponent_of_exponent? {rest : List Char} {z : Int} (h : exponent? rest = some z)
    (hrest : ∀ c ∈ rest.head?, isMark c = true) :
    ∃ e : Option Exponent, e.elim [] Exponent.text = rest := by
  cases rest with
  | nil => exact ⟨none, rfl⟩
  | cons mark rest =>
    obtain ⟨hread, -⟩ := Option.filter_eq_some_iff.mp h
    obtain ⟨power, rfl, -⟩ := exists_signed_of_integer? hread
    exact ⟨some ⟨mark, power, isMark_iff.mp (hrest mark rfl)⟩, rfl⟩

/-! ### What is read -/

/-- Both bounds are kept, with the given number of places. -/
def Numeral.Fits (n : Numeral) (places : Nat) : Prop :=
  fits exponentBound n.power = true ∧ fits scaleBound (places - n.power) = true

/-- A text whose base has the digits of a numeral, once its point is dropped. -/
theorem parse?_of_dropPoint {text : String} {base : List Char} {n : Numeral} {places : Nat}
    {d : Decimal} (htext : text.toList = base ++ n.exponent.elim [] Exponent.text)
    (hbase : ∀ c ∈ base, (!isMark c) = true)
    (hdrop : dropPoint base = (n.signed.text, places)) :
    parse? text = some d ↔
      n.Fits places ∧ d = (normalize ⟨n.signed.value, places - n.power⟩).wrapped := by
  have hrest : ∀ c ∈ (n.exponent.elim [] Exponent.text).head?, isMark c = true := by
    cases n.exponent with
    | none => simp
    | some e => simpa [Exponent.text] using isMark_iff.mpr e.isMark
  rw [parse?_of_split htext hbase hrest, hdrop, Option.bind_eq_some_iff]
  simp only [exponent?_text, integer?_text, Option.map_some, Numeral.Fits]
  constructor
  · rintro ⟨_, ⟨hpower, rfl⟩, h⟩
    split at h
    · rename_i hscale
      cases h
      exact ⟨⟨hpower, hscale⟩, rfl⟩
    · cases h
  · rintro ⟨⟨hpower, hscale⟩, rfl⟩
    exact ⟨n.power, ⟨hpower, rfl⟩, if_pos hscale⟩

theorem not_isMark_of_isDigit {c : Char} (h : c.isDigit = true) : (!isMark c) = true := by
  rw [Bool.not_eq_true', ← Bool.not_eq_true, isMark_iff]
  rintro (rfl | rfl) <;> cases h

theorem Signed.not_isMark (n : Signed) : ∀ c ∈ n.text, (!isMark c) = true := by
  rw [Signed.text, List.forall_mem_append]
  refine ⟨?_, fun c hc => not_isMark_of_isDigit (n.isDigit c hc)⟩
  cases n.sign <;> simp [Sign.text, isMark]

theorem Sign.point_not_mem (s : Sign) : '.' ∉ s.text := by
  cases s <;> decide

theorem Numeral.not_isMark (n : Numeral) : ∀ c ∈ n.base, (!isMark c) = true := by
  have hsigned := n.signed.not_isMark
  rw [Signed.text, List.forall_mem_append] at hsigned
  obtain ⟨hsign, hdigits⟩ := hsigned
  rw [signed, List.forall_mem_append] at hdigits
  rw [base, List.forall_mem_append, List.forall_mem_append]
  refine ⟨⟨hsign, hdigits.1⟩, ?_⟩
  cases hfraction : n.fraction with
  | none => simp
  | some fraction =>
    rw [hfraction] at hdigits
    exact List.forall_mem_cons.mpr ⟨by decide, hdigits.2⟩

/-- Without its point the base of a numeral is its digits with their sign. -/
theorem Numeral.dropPoint_base (n : Numeral) : dropPoint n.base = (n.signed.text, n.places) := by
  obtain ⟨sign, whole, fraction, exponent, hne, hdigits⟩ := n
  obtain ⟨hwhole, -⟩ := List.forall_mem_append.mp hdigits
  have hfront : '.' ∉ sign.text ++ whole := by
    rw [List.mem_append]
    exact fun h => h.elim sign.point_not_mem (point_not_mem hwhole)
  cases fraction with
  | none =>
    have hdrop := dropPoint_of_not_mem hfront
    simpa [base, signed, Signed.text, places] using hdrop
  | some fraction =>
    have hdrop : dropPoint ((sign.text ++ whole) ++ '.' :: fraction) = _ := dropPoint_append hfront
    simpa [base, signed, Signed.text, places] using hdrop

/-- **Literals.** One is read exactly when its exponent and its scale are within their bounds. -/
theorem parse?_text {text : String} {n : Numeral} {d : Decimal} (htext : n.text = text.toList) :
    parse? text = some d ↔ n.Fits n.places ∧ d = n.decimal.normalize.wrapped :=
  parse?_of_dropPoint htext.symm n.not_isMark n.dropPoint_base

/-- A point in front of a numeral with a sign and without a point. -/
structure Numeral.Misplaced (n : Numeral) (l : List Char) : Prop where
  whole : n.fraction = none
  signed : n.sign ≠ .none
  text : '.' :: n.text = l

/-- The sign counts as one of the places. -/
theorem parse?_misplaced {text : String} {n : Numeral} {d : Decimal}
    (h : n.Misplaced text.toList) :
    parse? text = some d ↔ n.Fits (n.whole.length + 1) ∧
      d = (normalize ⟨n.signed.value, (n.whole.length + 1 : Nat) - n.power⟩).wrapped := by
  have hbase : n.base = n.signed.text := by
    simp [Numeral.base, Numeral.signed, Signed.text, h.whole]
  have hlength : n.base.length = n.whole.length + 1 := by
    have hsign : n.sign.text.length = 1 := by
      have hsigned := h.signed
      cases hs : n.sign with
      | none => exact absurd hs hsigned
      | plus | minus => rfl
    simp only [Numeral.base, h.whole, Option.elim_none, List.length_append, hsign, List.length_nil]
    omega
  have hdrop : dropPoint ('.' :: n.base) = (n.signed.text, n.whole.length + 1) := by
    rw [← hlength, ← hbase]
    exact dropPoint_append List.not_mem_nil
  have hmarks : ∀ c ∈ '.' :: n.base, (!isMark c) = true :=
    List.forall_mem_cons.mpr ⟨by decide, n.not_isMark⟩
  exact parse?_of_dropPoint h.text.symm hmarks hdrop

/-- Digits and a sign that are left when the point is dropped are those of a numeral, or the point
stood in front of the sign. -/
theorem exists_numeral_of_dropPoint {base : List Char} {m : Signed} (e : Option Exponent)
    (h : m.text = (dropPoint base).1) : ∃ n : Numeral, n.exponent = e ∧
      (n.base = base ∨ n.fraction = none ∧ n.sign ≠ .none ∧ '.' :: n.base = base) := by
  obtain ⟨sign, digits, hne, hdigits⟩ := m
  by_cases hpoint : '.' ∈ base
  · obtain ⟨whole, fraction, rfl, hwhole⟩ := List.eq_append_cons_of_mem hpoint
    rw [dropPoint_append hwhole, Signed.text] at h
    obtain hnil | ⟨c, hc⟩ : sign.text = [] ∨ ∃ c, sign.text = [c] := by
      cases sign <;> simp [Sign.text]
    · rw [hnil, List.nil_append] at h
      subst h
      exact ⟨⟨sign, whole, some fraction, e, hne, hdigits⟩, rfl, .inl (by simp [Numeral.base, hnil])⟩
    · rw [hc, List.singleton_append] at h
      cases whole with
      | nil =>
        refine ⟨⟨sign, digits, none, e, by simpa using hne, by simpa using hdigits⟩, rfl, .inr
          ⟨rfl, ?_, ?_⟩⟩
        · rintro rfl
          cases hc
        · obtain rfl : c :: digits = fraction := h
          simp [Numeral.base, hc]
      | cons c' whole =>
        obtain ⟨rfl, rfl⟩ := List.cons.inj h
        exact ⟨⟨sign, whole, some fraction, e, hne, hdigits⟩, rfl, .inl (by simp [Numeral.base, hc])⟩
  · rw [dropPoint_of_not_mem hpoint, Signed.text] at h
    refine ⟨⟨sign, digits, none, e, by simpa using hne, by simpa using hdigits⟩, rfl, .inl ?_⟩
    simpa [Numeral.base] using h

/-- **Nothing else is read.** -/
theorem numeral_of_parse? {text : String} {d : Decimal} (h : parse? text = some d) :
    ∃ n : Numeral, n.text = text.toList ∨ n.Misplaced text.toList := by
  obtain ⟨base, rest, htext, hbase, hrest⟩ := exists_split text.toList
  rw [parse?_of_split htext hbase hrest] at h
  obtain ⟨power, hpower, h⟩ := Option.bind_eq_some_iff.mp h
  split at h
  · obtain ⟨z, hz, -⟩ := Option.map_eq_some_iff.mp h
    obtain ⟨m, hm, -⟩ := exists_signed_of_integer? hz
    obtain ⟨e, rfl⟩ := exists_exponent_of_exponent? hpower hrest
    obtain ⟨n, rfl, hn⟩ := exists_numeral_of_dropPoint e hm
    refine ⟨n, hn.imp (fun heq => ?_) fun ⟨whole, signed, heq⟩ => ⟨whole, signed, ?_⟩⟩
    · rw [htext, Numeral.text, heq]
    · rw [htext, Numeral.text, ← heq, List.cons_append]
  · cases h

/-- **Which texts are read as numbers.** The literals are the texts of the pattern. One is read
exactly when its exponent and its scale are within their bounds, and as the normal form of the number
it denotes, exactly if the scale of that is within its bound too. Of other texts, just those are read
that have a point in front of a sign, and the sign counts as a place. -/
theorem parse?_literals (text : String) :
    (text.toList ∈ literalForm.matches' ↔ ∃ n : Numeral, n.text = text.toList) ∧
      (∀ n : Numeral, n.text = text.toList →
        ((parse? text).isSome = true ↔ n.Fits n.places) ∧
        (parse? text = some n.decimal.normalize ↔ n.Fits n.places ∧ n.decimal.Representable) ∧
        n.decimal.toRat = n.value) ∧
      (text.toList ∉ literalForm.matches' → ∀ d : Decimal,
        parse? text = some d ↔ ∃ n : Numeral, n.Misplaced text.toList ∧
          n.Fits (n.whole.length + 1) ∧
          d = (normalize ⟨n.signed.value, (n.whole.length + 1 : Nat) - n.power⟩).wrapped) := by
  refine ⟨mem_literalForm, fun n hn => ⟨?_, ?_, n.toRat_decimal⟩, fun hother d => ⟨fun h => ?_, ?_⟩⟩
  · simp only [Option.isSome_iff_exists, parse?_text hn]
    exact ⟨fun ⟨_, hfits, _⟩ => hfits, fun hfits => ⟨_, hfits, rfl⟩⟩
  · rw [parse?_text hn, eq_comm, wrapped_eq_iff]
    rfl
  · obtain ⟨n, hn | hn⟩ := numeral_of_parse? h
    · exact absurd (mem_literalForm.mpr ⟨n, hn⟩) hother
    · exact ⟨n, hn, (parse?_misplaced hn).mp h⟩
  · rintro ⟨n, hn, h⟩
    exact (parse?_misplaced hn).mpr h

/-- A literal with all its parts. -/
theorem parse?_literals_all_parts :
    let n : Numeral := ⟨.minus, ['1'], some ['5', '0'],
      some ⟨'e', ⟨.plus, ['3'], by decide, List.all_eq_true.mp rfl⟩, .inl rfl⟩, by decide,
      List.all_eq_true.mp rfl⟩
    n.text = "-1.50e+3".toList ∧ parse? "-1.50e+3" = some ⟨-15, -2⟩ ∧ n.value = -1500 := by
  intro n
  have htext : n.text = "-1.50e+3".toList := by decide
  have hdecimal : n.decimal = ⟨-150, -1⟩ := by decide
  have hnormal : n.decimal.normalize = ⟨-15, -2⟩ := by simp [hdecimal, normalize, trim]
  have hrepresentable : n.decimal.Representable := by
    rw [Representable, hnormal]
    decide
  obtain ⟨-, hread, hvalue⟩ := (parse?_literals "-1.50e+3").2.1 n htext
  refine ⟨htext, ?_, ?_⟩
  · rw [← hnormal]
    exact hread.mpr ⟨⟨by decide, by decide⟩, hrepresentable⟩
  · rw [← hvalue, hdecimal, toRat]
    norm_num

/-- A sign behind a point is no part of a literal, yet it is read. -/
theorem parse?_sign_behind_point :
    ".-5".toList ∉ literalForm.matches' ∧ parse? ".-5" = some ⟨-5, 2⟩ := by
  let n : Numeral := ⟨.minus, ['5'], none, none, by decide, List.all_eq_true.mp rfl⟩
  have hplace : n.Misplaced ".-5".toList := ⟨rfl, by decide, by decide⟩
  have hnormal : normalize ⟨n.signed.value, (n.whole.length + 1 : Nat) - n.power⟩ = ⟨-5, 2⟩ := by
    rw [show n.signed.value = -5 by decide]
    simp [n, Numeral.power, normalize, trim]
  refine ⟨by decide, (parse?_misplaced hplace).mpr ⟨⟨by decide, by decide⟩, ?_⟩⟩
  rw [hnormal]
  decide

end Retype.Decimal
