import KeywordConfig.Proofs.JsonFloats

namespace KeywordConfig.Json
open Decimal Rounding
open Float.Model Float.Model.UnpackedFloat

-- Whatever is too large to be packed is packed as an infinity.
theorem pack_large (positive : 0 < m) (large : ¬q ≤ 971) :
    (Float.Model.pack (.finite sign m q positive)).unpack = .infinity sign := by
  have room : 2 ^ Format.binary64.exponentBits ≤ (q + Format.binary64.exponentBias +
      Format.binary64.mantissaBitsWithoutImplicit).toNat + 1 := by
    change 2048 ≤ (q + 1023 + 52).toNat + 1
    omega
  have packed : UnpackedFloat.pack .binary64 (.finite sign m q positive) = packedInfinity .binary64 sign := by
    unfold UnpackedFloat.pack
    dsimp only
    rw [if_pos room]
  change UnpackedFloat.unpack .binary64 (UnpackedFloat.pack .binary64 (.finite sign m q positive)) = _
  rw [packed]
  cases sign <;> rfl

theorem made_cases (sign : Sign) (r : Nat) (t : Int) :
    Fits (made sign r t) ∨ ∃ m q, ∃ positive : 0 < m, made sign r t = .finite sign m q positive ∧ ¬q ≤ 971 := by
  have whole (m : Nat) (q : Int) (positive : 0 < m) (same : made sign r t = .finite sign m q positive) :
      Fits (made sign r t) ∨ ∃ m q, ∃ positive : 0 < m, made sign r t = .finite sign m q positive ∧ ¬q ≤ 971 := by
    by_cases fits : q ≤ 971
    · exact .inl (by rw [same]; exact fits)
    · exact .inr ⟨m, q, positive, same, fits⟩
  by_cases zero : r = 0
  · exact .inl (by rw [made, dif_pos zero]; trivial)
  by_cases small : r < 2 ^ 53
  · exact whole r t (Nat.pos_of_ne_zero zero) (by rw [made, dif_neg zero, if_pos small])
  · exact whole (2 ^ 52) (t + 1) (by decide) (by rw [made, dif_neg zero, if_neg small])

theorem near_cases (near : Near x v) : x.isFinite ∨ magnitude x = .infinite := by
  obtain ⟨sign, u, ⟨t, r, _, _, _, _, rfl⟩, packed⟩ := near
  rcases made_cases sign r t with fits | ⟨m, q, positive, same, large⟩
  · left
    rw [← pack_isFinite, ← packed] at fits
    exact fits
  · right
    rw [magnitude_unpack, packed, same, pack_large positive large]
    rfl

theorem floatOfNat_isFinite (small : n < 2 ^ 64) : (floatOfNat n).isFinite := by
  cases Nat.eq_zero_or_pos n with
  | inl none =>
      subst none
      rfl
  | inr filled => exact (whole_near filled).isFinite.mpr (beyond_large (by exact_mod_cast small.le))

theorem power_normal (small : p ≤ maxPower) : ∃ w, Normal (power p) w ∧ 1 ≤ w := by
  obtain ⟨near, fits⟩ := power_near small
  obtain ⟨w, normal, least, _⟩ := near.normal (one_le_pow₀ (by norm_num)) fits
  exact ⟨w, normal, least⟩

theorem scaleUp_finite (small : n < 2 ^ 64) (scaled : scaleUp (floatOfNat n) p = some x) : x.isFinite := by
  unfold scaleUp at scaled
  split at scaled
  · rename_i short
    dsimp only at scaled
    split at scaled
    · cases scaled
    · rename_i kept
      cases scaled
      obtain ⟨w, normal, _⟩ := power_normal short
      cases Nat.eq_zero_or_pos n with
      | inl none =>
          subst none
          exact zero_mul_isFinite rfl normal
      | inr filled =>
          have large : (n : ℚ) ≤ 2 ^ 64 := by exact_mod_cast small.le
          obtain ⟨v, whole, _⟩ := (whole_near filled).normal (by exact_mod_cast filled) (beyond_large large)
          exact (near_cases (mul_near whole normal)).resolve_right kept
  · split at scaled
    · cases scaled
      exact floatOfNat_isFinite small
    · cases scaled

theorem finite_beyond {m : Nat} {q : Int} (small : m < 2 ^ 53) (low : q ≤ 971) : (m : ℚ) * 2 ^ q < beyond := by
  have most : (m : ℚ) ≤ 2 ^ 53 - 1 := by
    have : (m : ℚ) + 1 ≤ 2 ^ 53 := by exact_mod_cast Nat.succ_le_of_lt small
    linarith
  have top : (2 : ℚ) ^ q ≤ 2 ^ (971 : Int) := zpow_le_zpow_right₀ one_le_two low
  have last : (2 : ℚ) ^ (971 : Int) = 2 * 2 ^ (970 : Int) := by
    rw [show (971 : Int) = 1 + 970 from rfl, zpow_add₀ (by norm_num), zpow_one]
  have positive : (0 : ℚ) < 2 ^ (970 : Int) := by positivity
  calc (m : ℚ) * 2 ^ q ≤ (2 ^ 53 - 1) * 2 ^ (971 : Int) := mul_le_mul most top (by positivity) (by norm_num)
    _ < beyond := by
      rw [beyond_eq, last]
      generalize (2 : ℚ) ^ (970 : Int) = unit at positive
      linarith only [positive]

theorem quotient_isFinite {x y : Float} (finite : x.isFinite) (normal : Normal y w) (least : 1 ≤ w) :
    (x / y).isFinite := by
  obtain ⟨s', m', q', positive', second, _, rfl⟩ := normal.unpack
  have fits : (x / y).isFinite ↔ Fits (UnpackedFloat.div .binary64 x.toModel.unpack y.toModel.unpack) := pack_isFinite _
  rw [fits, second]
  obtain ⟨m, q, magnitude⟩ := isFinite_iff.mp finite
  obtain ⟨small, _, low⟩ := magnitude_bounds magnitude
  rw [magnitude_unpack] at magnitude
  cases unpacked : x.toModel.unpack with
  | finite s n e positive =>
      rw [unpacked] at magnitude
      cases magnitude
      obtain ⟨_, _, _, core, rounds⟩ := quotient_rounds (s / s') positive positive' q q'
      rw [UnpackedFloat.div, core]
      refine rounds.fits.mpr ((div_le_self (by positivity) least).trans_lt ?_)
      exact finite_beyond small low
  | zero => trivial
  | _ =>
      rw [unpacked] at magnitude
      cases magnitude

theorem scaleDown_finite (finite : x.isFinite) : (scaleDown x p).isFinite := by
  fun_induction scaleDown x p with
  | case1 x p short =>
      obtain ⟨w, normal, least⟩ := power_normal short
      exact quotient_isFinite finite normal least
  | case2 => exact finite
  | case3 x p _ _ ih =>
      obtain ⟨w, normal, least⟩ := power_normal (le_refl maxPower)
      exact ih (quotient_isFinite finite normal least)

theorem scale_finite {power : Int} (small : n < 2 ^ 64) (scaled : scale (floatOfNat n) power = some x) : x.isFinite := by
  unfold scale at scaled
  split at scaled
  · exact scaleUp_finite small scaled
  · cases scaled
    exact scaleDown_finite (floatOfNat_isFinite small)

theorem number_finite {negative : Bool} {exponent : Option Int}
    (made : number negative whole fraction exponent = some (.float x)) : x.isFinite := by
  have first : (collect 0 whole).1 < 2 ^ 64 := by
    obtain ⟨_, _, _, small⟩ := @collect_parts 0 whole (by decide)
    exact small
  unfold number at made
  dsimp only at made
  split at made
  · have same := Option.some.inj made
    unfold wholeNumber at same
    split at same
    · split at same
      · cases same
        exact (neg_isFinite _).mpr (floatOfNat_isFinite first)
      · cases same
    · split at same
      · cases same
      · cases same
  · obtain ⟨y, scaled, same⟩ := Option.map_eq_some_iff.mp made
    cases same
    obtain ⟨_, _, _, small⟩ := @collect_parts _ (fraction.getD []) first
    have finite := scale_finite small scaled
    cases negative with
    | false => exact finite
    | true => exact (neg_isFinite _).mpr finite

end KeywordConfig.Json
