import Mathlib.Algebra.Order.Field.Basic
import Mathlib.Data.Rat.Cast.Order
import Mathlib.Tactic.Positivity
import Mathlib.Tactic.Ring
import KeywordConfig.Json.Reader
import KeywordConfig.Json.Writer
import KeywordConfig.Proofs.Spelling

namespace KeywordConfig
open Token

namespace Decimal

def value (d : Decimal) : ℚ := d.coefficient * 10 ^ d.exponent

theorem digits_all (d : Decimal) : IsDigits d.digits :=
  ⟨fun _ member => Nat.isDigit_of_mem_toDigits (by decide) (by decide) member, Nat.toDigits_ne_nil⟩

theorem ofDigits_digits (d : Decimal) : ofDigits d.digits = d.coefficient := Nat.ofDigitChars_ten_toDigits

theorem toDigits_lead {n : Nat} (zero : (Nat.toDigits 10 n).head? = some '0') : n = 0 := by
  induction n using Nat.strongRecOn with
  | ind n ih =>
      rw [Nat.toDigits_eq_if (by decide)] at zero
      split at zero
      · rename_i small
        clear ih
        revert n
        decide
      · rw [List.head?_append_of_ne_nil _ Nat.toDigits_ne_nil] at zero
        have := ih (n / 10) (by omega) zero
        omega

theorem digits_lead {d : Decimal} (zero : d.digits.head? = some '0') : d.coefficient = 0 ∧ d.digits = ['0'] := by
  have none : d.coefficient = 0 := toDigits_lead zero
  exact ⟨none, by unfold digits; rw [none]; rfl⟩

theorem ofDigits_append (front back : List Char) :
    ofDigits (front ++ back) = 10 ^ back.length * ofDigits front + ofDigits back :=
  (Nat.ofDigitChars_append 0).trans (@Nat.ofDigitChars_eq_ofDigitChars_zero back (ofDigits front))

theorem ofDigits_zeros (n : Nat) : ofDigits (List.replicate n '0') = 0 := by
  have zero := @Nat.ofDigitChars_replicate_zero 10 0 n
  exact zero

end Decimal

namespace Json

def fractionChars : Option (List Char) → List Char
  | none => []
  | some digits => '.' :: digits

def exponentChars : Option (Bool × List Char) → List Char
  | none => []
  | some (negative, digits) => 'e' :: (if negative then '-' else '+') :: digits

def exponentValue (exponent : Option (Bool × List Char)) : Option Int :=
  exponent.map fun (negative, digits) =>
    if negative then -(Decimal.ofDigits digits : Int) else Decimal.ofDigits digits

theorem only_part {holds : α → Prop} (one : holds a) : ∀ part ∈ some a, holds part := by
  intro part member
  cases member
  exact one

-- What may stand behind the whole digits of a number, and what it says.
inductive Fraction : List Char → Option (List Char) → Prop where
  | absent : Fraction [] none
  | digits : IsDigits digits → Fraction ('.' :: digits) (some digits)

inductive Exponent : List Char → Option Int → Prop where
  | absent : Exponent [] none
  | plus : mark = 'e' ∨ mark = 'E' → front = [] ∨ front = ['+'] → IsDigits digits →
      Exponent (mark :: (front ++ digits)) (some (Decimal.ofDigits digits))
  | minus : mark = 'e' ∨ mark = 'E' → IsDigits digits →
      Exponent (mark :: '-' :: digits) (some (-(Decimal.ofDigits digits : Int)))

inductive Parts : List Char → List Char → Option (List Char) → Option Int → Prop where
  | parts : IsDigits whole → (whole.head? = some '0' → whole = ['0']) → Fraction fs fraction → Exponent es exponent →
      Parts (whole ++ (fs ++ es)) whole fraction exponent

structure Number where
  whole : List Char
  fraction : Option (List Char)
  exponent : Option (Bool × List Char)
  wholeDigits : IsDigits whole
  leads : whole.head? = some '0' → whole = ['0']
  fractionDigits : ∀ digits ∈ fraction, IsDigits digits
  exponentDigits : ∀ part ∈ exponent, IsDigits part.2

def Number.chars (n : Number) : List Char :=
  n.whole ++ (fractionChars n.fraction ++ exponentChars n.exponent)

def Number.decimal (n : Number) : Decimal :=
  ⟨Decimal.ofDigits (n.whole ++ n.fraction.getD []),
    (exponentValue n.exponent).getD 0 - (n.fraction.getD []).length⟩

-- How a float is spelled: with a point or an exponent, with few digits before them, and by its value.
structure Number.Spells (n : Number) (d : Decimal) : Prop where
  value : n.decimal.value = d.value
  marked : (n.fraction.isNone && n.exponent.isNone) = false
  short : n.whole.length ≤ 16

def Writes (cs : List Char) (d : Decimal) : Prop := ∃ n : Number, cs = n.chars ∧ n.Spells d

-- What comes behind a number or a word and goes on with neither.
def Stops (rest : List Char) : Prop := ∀ c ∈ rest.head?, c.isAlphanum = false ∧ c ≠ '.'

theorem Stops.noDigit (stops : Stops rest) : NoDigit rest := by
  intro c first
  have last := (stops c first).1
  simp [Char.isAlphanum] at last
  simp [last]

theorem fraction_spelled (all : ∀ digits ∈ fraction, IsDigits digits) : Fraction (fractionChars fraction) fraction := by
  cases fraction with
  | none => exact .absent
  | some digits => exact .digits (all _ rfl)

theorem exponent_spelled (all : ∀ part ∈ exponent, IsDigits part.2) :
    Exponent (exponentChars exponent) (exponentValue exponent) := by
  cases exponent with
  | none => exact .absent
  | some part =>
      obtain ⟨negative, digits⟩ := part
      have digits := all _ rfl
      cases negative with
      | false => exact @Exponent.plus 'e' ['+'] _ (.inl rfl) (.inr rfl) digits
      | true => exact .minus (.inl rfl) digits

theorem Number.parts (n : Number) : Parts n.chars n.whole n.fraction (exponentValue n.exponent) :=
  .parts n.wholeDigits n.leads (fraction_spelled n.fractionDigits) (exponent_spelled n.exponentDigits)

theorem readSign_digits {digits : List Char} (whole : IsDigits digits) (rest : List Char) :
    readSign (digits ++ rest) = (false, digits ++ rest) := by
  obtain ⟨c, others, rfl⟩ := List.exists_cons_of_ne_nil whole.some
  have digit : c.isDigit := whole.all c List.mem_cons_self
  unfold readSign
  split
  · rename_i same
    cases same
    cases digit
  · rename_i same
    cases same
    cases digit
  · rfl

theorem readExponent_append (spelled : Exponent es exponent) (stops : Stops rest) :
    readExponent (es ++ rest) = some (exponent, rest) := by
  cases spelled with
  | absent =>
      cases rest with
      | nil => rfl
      | cons c rest =>
          have mark : ¬(c = 'e' ∨ c = 'E') := by
            rintro (rfl | rfl) <;> exact absurd (stops _ rfl).1 (by decide)
          simp [readExponent, mark]
  | plus mark front digits =>
      obtain ⟨taken, left⟩ := digits_append digits.all stops.noDigit
      have filled : _ = false := List.isEmpty_eq_false_iff.mpr digits.some
      rcases front with rfl | rfl
      · simp [readExponent, mark, readSign_digits digits, taken, left, filled]
      · simp [readExponent, mark, readSign, taken, left, filled]
  | minus mark digits =>
      obtain ⟨taken, left⟩ := digits_append digits.all stops.noDigit
      have filled : _ = false := List.isEmpty_eq_false_iff.mpr digits.some
      simp [readExponent, mark, readSign, taken, left, filled]

theorem readFraction_append (spelled : Fraction fs fraction) (behind : NoDigit rest) (point : rest.head? ≠ some '.') :
    readFraction (fs ++ rest) = some (fraction, rest) := by
  cases spelled with
  | absent =>
      unfold readFraction
      split
      · rename_i same
        rw [List.nil_append] at same
        exact absurd (congrArg List.head? same) point
      · rfl
  | digits digits =>
      obtain ⟨taken, left⟩ := digits_append digits.all behind
      have filled : _ = false := List.isEmpty_eq_false_iff.mpr digits.some
      simp [readFraction, taken, left, filled]

theorem readNumber_parts (parts : Parts cs whole fraction exponent) (negative : Bool) (stops : Stops rest) :
    readNumber negative (cs ++ rest) = (number negative whole fraction exponent).map (·, rest) := by
  cases parts with
  | @parts _ fs _ es _ digits leads spelled power =>
  have behind : NoDigit (es ++ rest) ∧ (es ++ rest).head? ≠ some '.' := by
    cases power with
    | absent => exact ⟨stops.noDigit, fun first => (stops _ first).2 rfl⟩
    | plus mark => rcases mark with rfl | rfl <;> exact ⟨by rintro _ ⟨⟩; rfl, nofun⟩
    | minus mark => rcases mark with rfl | rfl <;> exact ⟨by rintro _ ⟨⟩; rfl, nofun⟩
  have after : NoDigit (fs ++ (es ++ rest)) := by
    cases spelled with
    | absent => exact behind.1
    | digits => rintro _ ⟨⟩; rfl
  obtain ⟨taken, left⟩ := digits_append digits.all after
  have filled : whole.isEmpty = false := List.isEmpty_eq_false_iff.mpr digits.some
  have leads : (whole.head? == some '0' && whole.length ≠ 1) = false := by
    by_cases zero : whole.head? = some '0'
    · simp [leads zero]
    · simp [zero]
  unfold readNumber
  simp only [List.append_assoc, taken, left, filled, leads, readFraction_append spelled behind.1 behind.2,
    readExponent_append power stops, Option.bind_some, Bool.or_false, Bool.false_eq_true, if_false]

theorem fraction_of_read {rest : List Char} (read : readFraction cs = some (fraction, rest)) :
    ∃ fs, cs = fs ++ rest ∧ Fraction fs fraction := by
  unfold readFraction at read
  split at read
  · rename_i after
    dsimp only at read
    split at read
    · cases read
    · rename_i filled
      cases read
      have digits : IsDigits (after.takeWhile Char.isDigit) := ⟨(digits_parts after).1, by simpa using filled⟩
      exact ⟨_, by rw [List.cons_append, List.takeWhile_append_dropWhile], .digits digits⟩
  · cases read
    exact ⟨[], rfl, .absent⟩

theorem readSign_parts (cs : List Char) : ∃ front, cs = front ++ (readSign cs).2 ∧
    if (readSign cs).1 then front = ['-'] else front = [] ∨ front = ['+'] := by
  unfold readSign
  split
  · exact ⟨['-'], rfl, rfl⟩
  · exact ⟨['+'], rfl, .inr rfl⟩
  · exact ⟨[], rfl, .inl rfl⟩

theorem exponent_of_read {rest : List Char} (read : readExponent cs = some (exponent, rest)) :
    ∃ es, cs = es ++ rest ∧ Exponent es exponent := by
  unfold readExponent at read
  split at read
  · cases read
    exact ⟨[], rfl, .absent⟩
  · rename_i c after
    split at read
    · rename_i mark
      obtain ⟨front, apart, kind⟩ := readSign_parts after
      dsimp only at read
      split at read
      · cases read
      · rename_i filled
        have digits : IsDigits ((readSign after).2.takeWhile Char.isDigit) :=
          ⟨(digits_parts _).1, by simpa using filled⟩
        cases read
        have whole : c :: after = c :: (front ++ (readSign after).2.takeWhile Char.isDigit) ++
            (readSign after).2.dropWhile Char.isDigit := by
          rw [List.cons_append, List.append_assoc, List.takeWhile_append_dropWhile, ← apart]
        refine ⟨_, whole, ?_⟩
        split at kind
        · rename_i negative
          rw [if_pos negative, kind]
          exact .minus mark digits
        · rename_i positive
          rw [if_neg positive]
          exact .plus mark kind digits
    · cases read
      exact ⟨[], rfl, .absent⟩

theorem parts_of_read {rest : List Char} (read : readNumber negative cs = some (json, rest)) :
    ∃ front whole fraction exponent, cs = front ++ rest ∧ Parts front whole fraction exponent ∧
      number negative whole fraction exponent = some json := by
  unfold readNumber at read
  dsimp only at read
  split at read
  · cases read
  · rename_i leads
    simp only [Bool.or_eq_true, Bool.and_eq_true, List.isEmpty_iff, beq_iff_eq, decide_eq_true_eq, not_or,
      not_and, Decidable.not_not] at leads
    obtain ⟨filled, leads⟩ := leads
    have digits : IsDigits (cs.takeWhile Char.isDigit) := ⟨(digits_parts cs).1, filled⟩
    have zero : (cs.takeWhile Char.isDigit).head? = some '0' → cs.takeWhile Char.isDigit = ['0'] := by
      intro first
      obtain ⟨c, same⟩ := List.length_eq_one_iff.mp (leads first)
      rw [same] at first ⊢
      cases first
      rfl
    obtain ⟨⟨fraction, middle⟩, first, read⟩ := Option.bind_eq_some_iff.mp read
    obtain ⟨⟨exponent, behind⟩, second, read⟩ := Option.bind_eq_some_iff.mp read
    obtain ⟨json, made, same⟩ := Option.map_eq_some_iff.mp read
    cases same
    obtain ⟨fs, left, spelled⟩ := fraction_of_read first
    obtain ⟨es, rfl, power⟩ := exponent_of_read second
    refine ⟨_, _, _, _, ?_, .parts digits zero spelled power, made⟩
    rw [List.append_assoc, List.append_assoc, ← left, List.takeWhile_append_dropWhile]

def Number.json (n : Number) (negative : Bool) : Option Json :=
  number negative n.whole n.fraction (exponentValue n.exponent)

theorem collect_all (fits : Nat.ofDigitChars 10 cs n < 2 ^ 64) : collect n cs = (Nat.ofDigitChars 10 cs n, []) := by
  induction cs generalizing n with
  | nil => simp [collect]
  | cons c cs ih =>
      rw [Nat.ofDigitChars_cons] at fits ⊢
      have least := @Nat.ofDigitChars_eq_ofDigitChars_zero cs (10 * n + (c.toNat - '0'.toNat))
      have first : 10 * n + (c.toNat - '0'.toNat) ≤ 10 ^ cs.length * (10 * n + (c.toNat - '0'.toNat)) :=
        Nat.le_mul_of_pos_left _ (Nat.pow_pos (by decide))
      have small : 10 * n + Decimal.digitValue c < Nat.pow 2 64 := by
        unfold Decimal.digitValue
        simp only [Nat.pow_eq]
        omega
      rw [collect, if_pos small]
      exact ih fits

theorem toString_chars (z : Int) : (toString z).toList = sign (z < 0) ++ Nat.toDigits 10 z.natAbs := by
  cases z with
  | ofNat n => exact Nat.toList_repr
  | negSucc n =>
      have negative : Int.negSucc n < 0 := Int.negSucc_lt_zero n
      simp only [sign, negative, decide_true, if_true, Int.natAbs_negSucc]
      have text : toString (Int.negSucc n) = "-" ++ Nat.repr (n + 1) := rfl
      rw [text, String.toList_append, Nat.toList_repr]
      rfl

theorem int_number (i : Int64) : ∃ n : Number, (toString i.toInt).toList = sign (i.toInt < 0) ++ n.chars ∧
    n.json (i.toInt < 0) = some (.int i) := by
  have low := i.minValue_le_toInt
  have high := i.toInt_le
  simp only [Int64.toInt_minValue, Int64.toInt_maxValue] at low high
  let d : Decimal := ⟨i.toInt.natAbs, 0⟩
  refine ⟨⟨d.digits, none, none, d.digits_all, fun zero => (Decimal.digits_lead zero).2, nofun, nofun⟩, ?_, ?_⟩
  · rw [toString_chars]
    simp [Number.chars, fractionChars, exponentChars, d, Decimal.digits]
  · have whole : collect 0 d.digits = (i.toInt.natAbs, []) := by
      have same : Nat.ofDigitChars 10 d.digits 0 = i.toInt.natAbs := d.ofDigits_digits
      have fits : Nat.ofDigitChars 10 d.digits 0 < 2 ^ 64 := by omega
      rw [collect_all fits, same]
    simp only [Number.json, number, exponentValue, whole, Option.map_none, Option.isNone_none, List.isEmpty_nil,
      Bool.and_self, if_true, wholeNumber, decide_eq_true_eq, Nat.pow_eq]
    split
    · rename_i negative
      rw [if_neg (by omega)]
      have same : -(i.toInt.natAbs : Int) = i.toInt := by omega
      rw [same, Int64.ofInt_toInt]
    · rename_i positive
      rw [if_pos (by omega)]
      have same : (i.toInt.natAbs : Int) = i.toInt := by omega
      rw [same, Int64.ofInt_toInt]

end Json

namespace Decimal
open Json

variable {d : Decimal}

theorem isDigits_zero : IsDigits ['0'] := ⟨List.forall_mem_singleton.mpr rfl, nofun⟩

theorem isDigits_zeros (n : Nat) : ∀ c ∈ List.replicate n '0', c.isDigit := by
  intro c member
  rw [List.eq_of_mem_replicate member]
  rfl

theorem isDigits_take (filled : 0 < n) (d : Decimal) : IsDigits (d.digits.take n) :=
  ⟨fun c member => d.digits_all.all c (List.mem_of_mem_take member), by
    simp [List.take_eq_nil_iff, d.digits_all.some]; omega⟩

theorem isDigits_drop (more : n < d.digits.length) : IsDigits (d.digits.drop n) :=
  ⟨fun c member => d.digits_all.all c (List.mem_of_mem_drop member), by
    simpa [List.drop_eq_nil_iff] using more⟩

theorem take_leads (filled : 0 < n) (more : n < d.digits.length) : (d.digits.take n).head? ≠ some '0' := by
  intro lead
  rw [List.head?_take, if_neg (by omega)] at lead
  rw [(digits_lead lead).2] at more
  simp at more
  omega

theorem whole_writes (whole : 0 ≤ d.exponent) (zero : d.coefficient = 0 → d.exponent = 0) (few : d.lead < 16) :
    Writes (d.digits ++ List.replicate d.exponent.toNat '0' ++ ['.', '0']) d := by
  obtain ⟨e, same⟩ := Int.eq_ofNat_of_zero_le whole
  have digits := d.digits_all
  refine ⟨⟨d.digits ++ List.replicate d.exponent.toNat '0', some ['0'], none,
    ⟨List.forall_mem_append.mpr ⟨digits.all, isDigits_zeros _⟩, by simp [digits.some]⟩, ?_,
    only_part isDigits_zero, nofun⟩, ?_, ?_, rfl, ?_⟩
  · rw [List.head?_append_of_ne_nil _ digits.some]
    intro lead
    obtain ⟨none, one⟩ := digits_lead lead
    simp [zero none, one]
  · simp [Number.chars, fractionChars, exponentChars]
  · have tenth : (10 : ℚ) ^ (-1 : ℤ) = 1 / 10 := by norm_num
    have last : ofDigits ['0'] = 0 := rfl
    simp only [Number.decimal, exponentValue, value, ofDigits_append, ofDigits_digits, ofDigits_zeros, same,
      Option.getD_some, last]
    simp
    ring
  · unfold lead at few
    rw [List.length_append, List.length_replicate]
    omega

theorem point_writes (filled : 0 < n) (more : n < d.digits.length) (places : d.exponent = n - d.digits.length)
    (few : n ≤ 16) : Writes (d.digits.take n ++ '.' :: d.digits.drop n) d := by
  refine ⟨⟨d.digits.take n, some (d.digits.drop n), none, isDigits_take filled d,
    fun lead => absurd lead (take_leads filled more), only_part (isDigits_drop more), nofun⟩, ?_, ?_, rfl, ?_⟩
  · simp [Number.chars, fractionChars, exponentChars]
  · simp only [Number.decimal, exponentValue, value, Option.getD_some, List.take_append_drop, ofDigits_digits,
      List.length_drop]
    congr 2
    simp
    omega
  · exact (List.length_take_le _ _).trans few

theorem small_writes (places : d.exponent = -(n + d.digits.length : Nat)) :
    Writes ('0' :: '.' :: List.replicate n '0' ++ d.digits) d := by
  have fraction : IsDigits (List.replicate n '0' ++ d.digits) :=
    ⟨List.forall_mem_append.mpr ⟨isDigits_zeros _, d.digits_all.all⟩, by simp [d.digits_all.some]⟩
  refine ⟨⟨['0'], some (List.replicate n '0' ++ d.digits), none, isDigits_zero, fun _ => rfl, only_part fraction,
    nofun⟩, ?_, ?_, rfl, ?_⟩
  · simp [Number.chars, fractionChars, exponentChars]
  · have zeros : ofDigits (['0'] ++ (List.replicate n '0' ++ d.digits)) = d.coefficient := by
      rw [ofDigits_append, ofDigits_append, ofDigits_zeros, ofDigits_digits]
      simp [ofDigits, digitValue]
    simp only [Number.decimal, exponentValue, value, Option.getD_some, zeros]
    congr 2
    simp [places]
  · exact (by decide : 1 ≤ 16)

theorem positional_writes (zero : d.coefficient = 0 → d.exponent = 0) (few : d.lead < 16) :
    Writes (d.positional true).toList d := by
  have filled : 0 < d.digits.length := List.length_pos_iff.mpr d.digits_all.some
  have lead : d.lead = d.digits.length + d.exponent - 1 := rfl
  unfold positional
  by_cases whole : 0 ≤ d.exponent
  · simpa [whole] using whole_writes whole zero few
  by_cases inside : 0 ≤ d.lead
  · have parts := point_writes (d := d) (n := (d.lead + 1).toNat) (by omega) (by omega) (by omega) (by omega)
    simpa [whole, inside] using parts
  · have parts := small_writes (d := d) (n := (-d.lead - 1).toNat) (by omega)
    simpa [whole, inside] using parts

theorem toString_digits (n : Nat) : IsDigits (toString n).toList ∧ ofDigits (toString n).toList = n := by
  rw [Nat.toString_eq_ofList_toDigits, String.toList_ofList]
  exact ⟨digits_all ⟨n, 0⟩, ofDigits_digits ⟨n, 0⟩⟩

theorem exponentValue_toString (e : Int) :
    exponentValue (some (decide (e < 0), (toString e.natAbs).toList)) = some e := by
  obtain ⟨_, same⟩ := toString_digits e.natAbs
  simp only [exponentValue, Option.map_some, same, decide_eq_true_eq, Option.some.injEq]
  split <;> omega

theorem scientific_writes (d : Decimal) : Writes d.scientific.toList d := by
  have exponent := exponentValue_toString d.lead
  have lead : d.lead = d.digits.length + d.exponent - 1 := rfl
  have leads : (d.digits.take 1).head? = some '0' → d.digits.take 1 = ['0'] := by
    intro lead
    rw [List.head?_take, if_neg (by decide)] at lead
    rw [(digits_lead lead).2, List.take_succ_cons, List.take_zero]
  by_cases more : 1 < d.digits.length
  · have filled : (d.digits.drop 1).isEmpty = false := List.isEmpty_eq_false_iff.mpr (isDigits_drop more).some
    refine ⟨⟨d.digits.take 1, some (d.digits.drop 1), some (decide (d.lead < 0), (toString d.lead.natAbs).toList),
      isDigits_take (by decide) d, leads, only_part (isDigits_drop more), only_part (toString_digits _).1⟩,
      ?_, ?_, rfl, ?_⟩
    · by_cases negative : d.lead < 0 <;>
        simp only [scientific, filled, Number.chars, fractionChars, exponentChars, negative] <;> simp
    · simp only [Number.decimal, exponent, value, Option.getD_some, List.take_append_drop, ofDigits_digits,
        List.length_drop]
      congr 2
      omega
    · exact (List.length_take_le _ _).trans (by decide)
  · have one : d.digits.length = 1 := by
      have := List.length_pos_iff.mpr d.digits_all.some
      omega
    have whole : d.digits.take 1 = d.digits := List.take_of_length_le (by omega)
    have none : d.digits.drop 1 = [] := List.drop_eq_nil_of_le (by omega)
    rw [whole] at leads
    refine ⟨⟨d.digits, .none, some (decide (d.lead < 0), (toString d.lead.natAbs).toList), d.digits_all, leads,
      nofun, only_part (toString_digits _).1⟩, ?_, ?_, rfl, ?_⟩
    · by_cases negative : d.lead < 0 <;>
        simp only [scientific, whole, none, Number.chars, fractionChars, exponentChars, negative] <;> simp
    · simp only [Number.decimal, exponent, value, Option.getD_none, Option.getD_some, List.append_nil, ofDigits_digits]
      congr 2
      simp
      omega
    · exact one.trans_le (by decide)

theorem pick_within {i : Interval} (picked : i.pick tie e = some c) (scale : 0 < i.scale)
    (low : i.low ≤ i.value) (high : i.value ≤ i.high) :
    i.low * 10 ^ (-e).toNat ≤ c * (10 ^ e.toNat * i.scale) ∧
      c * (10 ^ e.toNat * i.scale) ≤ i.high * 10 ^ (-e).toNat := by
  have positive : 0 < 10 ^ e.toNat * i.scale := Nat.mul_pos (Nat.pow_pos (by decide)) scale
  have least := Nat.mul_le_mul_right (10 ^ (-e).toNat) low
  have most := Nat.mul_le_mul_right (10 ^ (-e).toNat) high
  unfold Interval.pick at picked
  simp only [Nat.pow_eq] at picked
  generalize 10 ^ e.toNat * i.scale = unit at *
  generalize i.low * 10 ^ (-e).toNat = low at *
  generalize i.value * 10 ^ (-e).toNat = value at *
  generalize i.high * 10 ^ (-e).toNat = high at *
  have lower : value / unit * unit ≤ value := Nat.div_mul_le_self _ _
  have upper : value < (value / unit + 1) * unit := by
    have := Nat.lt_div_mul_add positive (a := value)
    rwa [Nat.succ_mul]
  split at picked
  · rename_i lowerFits upperFits
    have inside : low ≤ value / unit * unit ∧ (value / unit + 1) * unit ≤ high := by
      simp at lowerFits upperFits
      split at lowerFits <;> split at upperFits <;> omega
    repeat' split at picked
    all_goals cases picked; omega
  · rename_i lowerFits _
    simp at lowerFits
    cases picked
    split at lowerFits <;> omega
  · rename_i _ upperFits
    simp at upperFits
    cases picked
    split at upperFits <;> omega
  · cases picked

theorem interval_bounds (m : Nat) (q : Int) :
    (interval m q).low ≤ (interval m q).value ∧ (interval m q).value ≤ (interval m q).high ∧
      0 < (interval m q).scale ∧ (0 < m → 0 < (interval m q).low) := by
  have step : 0 < Nat.pow 2 q.toNat := Nat.pow_pos (by decide)
  have scale : 0 < Nat.pow 2 (-q).toNat := Nat.pow_pos (by decide)
  unfold interval
  dsimp only
  refine ⟨Nat.mul_le_mul_right _ (Nat.sub_le _ _), Nat.mul_le_mul_right _ (by omega), by omega, ?_⟩
  intro positive
  refine Nat.mul_pos ?_ step
  split <;> omega

theorem shortest_picked (positive : 0 < m) (tie : Tie) (q : Int) :
    (∃ c e, (interval m q).pick tie e = some c ∧ (shortest tie m q).value = value ⟨c, e⟩ ∧
      (c ≠ 0 → (shortest tie m q).coefficient ≠ 0)) ∨
    shortest tie m q = ⟨(interval m q).value / (interval m q).scale, 0⟩ := by
  unfold shortest
  rw [if_neg (by omega)]
  dsimp only
  generalize top (interval m q).value (interval m q).scale = above
  generalize search : List.findSome? _ _ = found
  cases found with
  | none => exact .inr rfl
  | some d =>
      obtain ⟨count, _, one⟩ := List.exists_of_findSome?_eq_some search
      obtain ⟨c, picked, same⟩ := Option.map_eq_some_iff.mp one
      refine .inl ⟨c, _, picked, ?_⟩
      subst same
      split
      · rename_i whole
        refine ⟨?_, fun _ => by simp⟩
        simp [value, whole]
        rw [← zpow_natCast, ← zpow_add₀ (by norm_num)]
        congr 1
        omega
      · exact ⟨rfl, id⟩

-- No nonzero number has zero in its interval, and what is picked does not exceed it.
theorem picked_filled (positive : 0 < m) (picked : (interval m q).pick tie e = some c) : c ≠ 0 := by
  obtain ⟨low, high, scale, least⟩ := interval_bounds m q
  obtain ⟨under, _⟩ := pick_within picked scale low high
  have room := Nat.mul_pos (least positive) (Nat.pow_pos (n := (-e).toNat) (a := 10) (by decide))
  rintro rfl
  rw [Nat.zero_mul] at under
  omega

theorem picked_bound (picked : (interval m q).pick tie e = some c) :
    value ⟨c, e⟩ * (interval m q).scale ≤ (interval m q).high := by
  obtain ⟨low, high, scale, _⟩ := interval_bounds m q
  obtain ⟨_, most⟩ := pick_within picked scale low high
  have exact : (10 : ℚ) ^ e * 10 ^ (-e).toNat = 10 ^ e.toNat := by
    rw [← zpow_natCast, ← zpow_natCast, ← zpow_add₀ (by norm_num)]
    congr 1
    omega
  have positive : (0 : ℚ) < 10 ^ (-e).toNat := by positivity
  have most : (c : ℚ) * (10 ^ e.toNat * (interval m q).scale) ≤ (interval m q).high * 10 ^ (-e).toNat := by
    exact_mod_cast most
  rw [← exact] at most
  refine le_of_mul_le_mul_right ?_ positive
  calc value ⟨c, e⟩ * (interval m q).scale * 10 ^ (-e).toNat
      = c * (10 ^ e * 10 ^ (-e).toNat * (interval m q).scale) := by rw [value]; ring
    _ ≤ _ := most

theorem shortest_within (positive : 0 < m) (tie : Tie) (q : Int) :
    (0 < (shortest tie m q).coefficient ∨ (shortest tie m q).exponent = 0) ∧
      (shortest tie m q).value * (interval m q).scale ≤ (interval m q).high := by
  rcases shortest_picked positive tie q with ⟨c, e, picked, same, filled⟩ | same
  · rw [same]
    exact ⟨.inl (Nat.pos_of_ne_zero (filled (picked_filled positive picked))), picked_bound picked⟩
  · rw [same]
    refine ⟨.inr rfl, ?_⟩
    have down := (Nat.div_mul_le_self (interval m q).value (interval m q).scale).trans (interval_bounds m q).2.1
    simp only [value, zpow_zero, mul_one]
    exact_mod_cast down

theorem shortest_zero (tie : Tie) (m : Nat) (q : Int) (zero : (shortest tie m q).coefficient = 0) :
    (shortest tie m q).exponent = 0 := by
  cases Nat.eq_zero_or_pos m with
  | inl none => rw [shortest, if_pos none]
  | inr positive => exact (shortest_within positive tie q).1.resolve_left (by omega)

end Decimal

namespace Json
open Decimal

theorem floatChars_writes (finite : magnitude x = .finite m q) :
    ∃ cs, floatChars x = sign (negative x) ++ cs ∧ Writes cs (shortest .even m q) := by
  unfold floatChars
  rw [finite]
  refine ⟨_, rfl, ?_⟩
  split
  · rename_i lead
    exact positional_writes (shortest_zero _ _ _) lead.2
  · exact scientific_writes _

end Json
end KeywordConfig
