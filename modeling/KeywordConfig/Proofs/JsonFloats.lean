import KeywordConfig.Proofs.FloatOperations
import KeywordConfig.Proofs.JsonTexts

namespace KeywordConfig.Json
open Token Decimal Rounding

theorem collect_parts (fits : n < 2 ^ 64) : ∃ taken, cs = taken ++ (collect n cs).2 ∧
    (collect n cs).1 = Nat.ofDigitChars 10 taken n ∧ (collect n cs).1 < 2 ^ 64 := by
  induction cs generalizing n with
  | nil => exact ⟨[], rfl, rfl, fits⟩
  | cons c cs ih =>
      rw [collect]
      split
      · rename_i small
        obtain ⟨taken, same, value, bound⟩ := ih small
        refine ⟨c :: taken, congrArg _ same, ?_, bound⟩
        rw [value, Nat.ofDigitChars_cons]
        rfl
      · exact ⟨[], rfl, rfl, fits⟩

theorem ofDigits_bound {cs : List Char} (digits : ∀ c ∈ cs, c.isDigit) : ofDigits cs < 10 ^ cs.length := by
  induction cs with
  | nil => exact Nat.one_pos
  | cons c cs ih =>
      obtain ⟨first, others⟩ := List.forall_mem_cons.mp digits
      have bound := ih others
      have digit : ofDigits [c] ≤ 9 := by
        obtain ⟨_, most⟩ := Char.isDigit_iff_toNat.mp first
        have most : c.toNat ≤ 57 := most
        change 10 * 0 + (c.toNat - 48) ≤ 9
        omega
      have split := ofDigits_append [c] cs
      have most := Nat.mul_le_mul_left (10 ^ cs.length) digit
      rw [List.singleton_append] at split
      rw [split, List.length_cons, Nat.pow_succ]
      omega

-- What a marked number scales is no more than the number, and less by the digits that do not fit.
theorem json_scaled {n : Number} {d : Decimal} (spells : n.Spells d) (negative : Bool) :
    ∃ (c : Nat) (power : Int), c < 2 ^ 64 ∧ (c : ℚ) * 10 ^ power ≤ d.value ∧
      n.json negative = (scale (floatOfNat c) power).map fun x => .float (signed negative x) := by
  obtain ⟨value, marked, short⟩ := spells
  have small : ofDigits n.whole < 2 ^ 64 := by
    calc ofDigits n.whole < 10 ^ n.whole.length := ofDigits_bound n.wholeDigits.all
      _ ≤ 10 ^ 16 := Nat.pow_le_pow_right (by decide) short
      _ < 2 ^ 64 := by decide
  have whole : collect 0 n.whole = (ofDigits n.whole, []) := collect_all small
  have unmarked : (n.fraction.isNone && (exponentValue n.exponent).isNone) = false := by
    rw [exponentValue, Option.isNone_map]
    exact marked
  obtain ⟨taken, places, digits, fits⟩ := @collect_parts _ (n.fraction.getD []) small
  generalize collected : collect (ofDigits n.whole) (n.fraction.getD []) = kept at *
  obtain ⟨c, unused⟩ := kept
  have first : c = ofDigits (n.whole ++ taken) := digits.trans (Nat.ofDigitChars_append 0).symm
  have all : ofDigits (n.whole ++ n.fraction.getD []) = 10 ^ unused.length * c + ofDigits unused := by
    rw [first, ← ofDigits_append, List.append_assoc, ← places]
  refine ⟨c, ([] : List Char).length - ((n.fraction.getD []).length - unused.length) +
    (exponentValue n.exponent).getD 0, fits, ?_, ?_⟩
  · have least : (c : ℚ) * 10 ^ unused.length ≤ ofDigits (n.whole ++ n.fraction.getD []) := by
      have : c * 10 ^ unused.length ≤ ofDigits (n.whole ++ n.fraction.getD []) := by
        rw [all, Nat.mul_comm]
        exact Nat.le_add_right _ _
      exact_mod_cast this
    have power : (10 : ℚ) ^ (([] : List Char).length - ((n.fraction.getD []).length - unused.length) +
        (exponentValue n.exponent).getD 0 : Int) =
        10 ^ unused.length * 10 ^ ((exponentValue n.exponent).getD 0 - (n.fraction.getD []).length) := by
      rw [← zpow_natCast, ← zpow_add₀ (by norm_num)]
      congr 1
      rw [List.length_nil]
      omega
    rw [← value, Decimal.value, Number.decimal, power, ← mul_assoc]
    exact mul_le_mul_of_nonneg_right least (by positivity)
  · simp only [Number.json, number, whole, unmarked, collected, Bool.false_and, Bool.false_eq_true, if_false]

-- Halfway between the two largest floats.
def ceiling : Nat := (2 ^ 54 - 3) * 2 ^ 970

-- The largest whole number of 64 bits that is times a power of ten below this.
def most (p : Nat) : Nat := min (2 ^ 64) (ceiling / 10 ^ p)

theorem roofs_bounded : ∀ p : Fin 309, roof (most p) < 2 ^ 53 ∧ roof (10 ^ (p : Nat)) < 2 ^ 53 ∧
    roof (most p) * roof (10 ^ (p : Nat)) * 2 ^ ((most p).log2 + (10 ^ (p : Nat)).log2) < beyond * 2 ^ 104 := by
  decide +kernel

theorem power_near (small : p ≤ maxPower) : Near (power p) (10 ^ p) ∧ ((10 : ℚ) ^ p) < beyond := by
  have near := @scaled_near p 1 Nat.one_pos (small.trans (by decide))
  rw [Nat.cast_one, one_mul] at near
  refine ⟨near, ?_⟩
  have bound : 10 ^ p < beyond := by
    calc 10 ^ p ≤ 10 ^ maxPower := Nat.pow_le_pow_right (by decide) small
      _ < beyond := by decide +kernel
  exact_mod_cast bound

theorem roofs_scaled (k l : ℚ) (a b : Nat) :
    k * 2 ^ ((a : Int) - 52) * (l * 2 ^ ((b : Int) - 52)) * 2 ^ 104 = k * l * 2 ^ (a + b) := by
  have powers : (2 : ℚ) ^ ((a : Int) - 52) * 2 ^ ((b : Int) - 52) * 2 ^ 104 = 2 ^ (a + b) := by
    rw [← zpow_natCast, ← zpow_natCast, ← zpow_add₀ (by norm_num), ← zpow_add₀ (by norm_num)]
    congr 1
    omega
  rw [← powers]
  ring

-- Each factor is rounded to its roof at most, and so is their product to a float.
theorem product_isFinite {n : Nat} (filled : 0 < n) (small : p ≤ maxPower) (bound : n ≤ most p) :
    (floatOfNat n * power p).isFinite := by
  have least : (1 : ℚ) ≤ n := by exact_mod_cast filled
  have large : (n : ℚ) ≤ 2 ^ 64 := by exact_mod_cast bound.trans (Nat.min_le_left _ _)
  have bound : (n : ℚ) ≤ most p := by exact_mod_cast bound
  have roofs : (0 : ℚ) ≤ roof (most p) * 2 ^ (((most p).log2 : Int) - 52) :=
    mul_nonneg (Nat.cast_nonneg _) (zpow_nonneg zero_le_two _)
  obtain ⟨near, fits⟩ := power_near small
  obtain ⟨held, held', product⟩ := roofs_bounded ⟨p, Nat.lt_succ_of_le small⟩
  obtain ⟨w, normal, above⟩ := (whole_near filled).roofed least (beyond_large large) bound held
  have same : (10 : ℚ) ^ p ≤ (10 ^ p : Nat) := (Nat.cast_pow 10 p).ge
  obtain ⟨w', normal', above'⟩ := near.roofed (one_le_pow₀ (by norm_num)) fits same held'
  refine (mul_near normal normal').isFinite.mpr ?_
  refine (mul_le_mul above above' normal'.nonneg roofs).trans_lt ?_
  refine lt_of_mul_lt_mul_right ?_ (pow_nonneg zero_le_two 104)
  rw [roofs_scaled]
  exact_mod_cast product

theorem isFinite_not_infinite (finite : x.isFinite) : magnitude x ≠ .infinite := by
  obtain ⟨m, q, same⟩ := isFinite_iff.mp finite
  rw [same]
  exact nofun

theorem scaleUp_some {n p : Nat} (small : n < 2 ^ 64) (bound : n * 10 ^ p ≤ ceiling) :
    ∃ y, scaleUp (floatOfNat n) p = some y := by
  unfold scaleUp
  cases Nat.eq_zero_or_pos n with
  | inl none =>
      subst none
      have zero : (floatOfNat 0).toModel.unpack = .zero .positive := rfl
      split
      · rename_i short
        obtain ⟨near, fits⟩ := power_near short
        obtain ⟨w, normal, _⟩ := near.normal (one_le_pow₀ (by norm_num)) fits
        have finite := zero_mul_isFinite zero normal
        exact ⟨_, if_neg (isFinite_not_infinite finite)⟩
      · exact ⟨_, rfl⟩
  | inr filled =>
      have short : p ≤ maxPower := by
        by_contra long
        have large : ceiling < 10 ^ p := by
          calc ceiling < 10 ^ (maxPower + 1) := by decide +kernel
            _ ≤ 10 ^ p := Nat.pow_le_pow_right (by decide) (Nat.lt_of_not_le long)
        exact absurd bound (Nat.not_le.mpr (large.trans_le (Nat.le_mul_of_pos_left _ filled)))
      have most : n ≤ most p := Nat.le_min.mpr ⟨small.le, (Nat.le_div_iff_mul_le (Nat.pow_pos (by decide))).mpr bound⟩
      rw [if_pos short]
      exact ⟨_, if_neg (isFinite_not_infinite (product_isFinite filled short most))⟩

theorem scale_some {n : Nat} {power : Int} (small : n < 2 ^ 64) (bound : (n : ℚ) * 10 ^ power ≤ ceiling) :
    ∃ y, scale (floatOfNat n) power = some y := by
  unfold scale
  split
  · rename_i up
    obtain ⟨p, rfl⟩ := Int.eq_ofNat_of_zero_le up
    rw [zpow_natCast] at bound
    exact scaleUp_some small (by exact_mod_cast bound)
  · exact ⟨_, rfl⟩

theorem shortest_bound (finite : magnitude x = .finite m q) (inner : ¬(m = 2 ^ 53 - 1 ∧ q = 971)) :
    (shortest .even m q).value ≤ ceiling := by
  obtain ⟨small, _, last⟩ := magnitude_bounds finite
  cases Nat.eq_zero_or_pos m with
  | inl none =>
      have zero : shortest .even m q = ⟨0, 0⟩ := by rw [shortest, if_pos none]
      rw [zero, Decimal.value, Nat.cast_zero, zero_mul]
      exact Nat.cast_nonneg _
  | inr positive =>
      have within := (shortest_within positive .even q).2
      have scale : 0 < (interval m q).scale := (interval_bounds m q).2.2.1
      have high : (interval m q).high ≤ ceiling * (interval m q).scale := by
        change (4 * m + 2) * 2 ^ q.toNat ≤ ceiling * (4 * 2 ^ (-q).toNat)
        have scaled : ceiling * 4 ≤ ceiling * (4 * 2 ^ (-q).toNat) :=
          Nat.mul_le_mul_left _ (Nat.le_mul_of_pos_right _ (Nat.two_pow_pos _))
        refine le_trans ?_ scaled
        rcases Int.lt_or_eq_of_le last with below | rfl
        · calc (4 * m + 2) * 2 ^ q.toNat ≤ (2 ^ 55 - 2) * 2 ^ 970 :=
                Nat.mul_le_mul (by omega) (Nat.pow_le_pow_right (by decide) (by omega))
            _ ≤ ceiling * 4 := by decide +kernel
        · calc (4 * m + 2) * 2 ^ (971 : Int).toNat ≤ (2 ^ 55 - 6) * 2 ^ (971 : Int).toNat := Nat.mul_le_mul_right _ (by omega)
            _ ≤ ceiling * 4 := by decide +kernel
      have scale : (0 : ℚ) < (interval m q).scale := by exact_mod_cast scale
      refine le_of_mul_le_mul_right (within.trans ?_) scale
      exact_mod_cast high

-- The largest float is written above the ceiling, and read all the same.
theorem largest_reads (largest : magnitude x = .finite (2 ^ 53 - 1) 971) :
    ∃ n : Number, floatChars x = sign (negative x) ++ n.chars ∧ ∃ y, n.json (negative x) = some (.float y) := by
  have decimal : shortest .even (2 ^ 53 - 1) 971 = ⟨17976931348623157, 292⟩ := by decide +kernel
  have whole : IsDigits ['1'] := ⟨List.all_eq_true.mp rfl, nofun⟩
  have fraction : IsDigits "7976931348623157".toList := ⟨List.all_eq_true.mp rfl, nofun⟩
  have exponent : IsDigits "308".toList := ⟨List.all_eq_true.mp rfl, nofun⟩
  let n : Number := ⟨['1'], some "7976931348623157".toList, some (false, "308".toList), whole, nofun,
    only_part fraction, only_part exponent⟩
  have json : n.json (negative x) = (scale (floatOfNat 17976931348623157) 292).map
      fun y => .float (signed (negative x) y) := rfl
  have scaled : (scale (floatOfNat 17976931348623157) 292).isSome := by decide +kernel
  obtain ⟨y, scaled⟩ := Option.isSome_iff_exists.mp scaled
  refine ⟨n, ?_, signed (negative x) y, ?_⟩
  · unfold floatChars
    rw [largest]
    dsimp only
    rw [decimal]
    rfl
  · rw [json, scaled]
    rfl

theorem floatChars_reads (finite : x.isFinite) :
    ∃ n : Number, floatChars x = sign (negative x) ++ n.chars ∧ ∃ y, n.json (negative x) = some (.float y) := by
  obtain ⟨m, q, same⟩ := isFinite_iff.mp finite
  by_cases largest : m = 2 ^ 53 - 1 ∧ q = 971
  · obtain ⟨rfl, rfl⟩ := largest
    exact largest_reads same
  · obtain ⟨_, text, n, rfl, spells⟩ := floatChars_writes same
    obtain ⟨c, power, small, less, json⟩ := json_scaled spells (negative x)
    obtain ⟨y, scaled⟩ := scale_some small (less.trans (shortest_bound same largest))
    refine ⟨n, text, signed (negative x) y, ?_⟩
    rw [json, scaled]
    rfl

theorem floatChars_null (infinite : ¬ x.isFinite) : floatChars x = "null".toList := by
  unfold floatChars
  cases magnitude : magnitude x with
  | finite m q => exact absurd (isFinite_iff.mpr ⟨m, q, magnitude⟩) infinite
  | _ => rfl

theorem carries_some (x : Float) : ∃ v, Carries (fun _ => v) x ∧
    ((x.isFinite ∧ ∃ y, v = .float y) ∨ (¬ x.isFinite ∧ v = .null)) := by
  by_cases finite : x.isFinite
  · obtain ⟨n, text, y, json⟩ := floatChars_reads finite
    refine ⟨.float y, ?_, .inl ⟨finite, y, rfl⟩⟩
    intro rest stops
    rw [text]
    exact number_cuts n _ stops json
  · refine ⟨.null, ?_, .inr ⟨finite, rfl⟩⟩
    intro rest stops
    rw [floatChars_null finite]
    exact word_cuts (List.all_eq_true.mp rfl) stops rfl

end KeywordConfig.Json
