import KeywordConfig.Proofs.Binary64

namespace KeywordConfig.Rounding
open Float.Model Float.Model.UnpackedFloat Decimal

-- The whole number nearest to a rational, and the even one of two that are equally near.
structure Nearest (x : ℚ) (r : Nat) : Prop where
  low : x ≤ r + 1 / 2
  high : (r : ℚ) ≤ x + 1 / 2
  even : x = r + 1 / 2 ∨ x + 1 / 2 = r → r % 2 = 0

theorem Nearest.le {k : Nat} (nearest : Nearest x r) (bound : x < k + 1 / 2) : r ≤ k := by
  have close := nearest.high
  have below : (r : ℚ) < (k + 1 : Nat) := by push_cast; linarith
  exact Nat.lt_succ_iff.mp (by exact_mod_cast below)

theorem Nearest.ge {k : Nat} (nearest : Nearest x r) (bound : k ≤ x) : k ≤ r := by
  have close := nearest.low
  have below : (k : ℚ) < (r + 1 : Nat) := by push_cast; linarith
  exact Nat.lt_succ_iff.mp (by exact_mod_cast below)

theorem Nearest.up {k : Nat} (nearest : Nearest x r) (bound : k + 1 / 2 ≤ x) (odd : k % 2 = 1) : k + 1 ≤ r := by
  have least : k ≤ r := nearest.ge (by linarith)
  rcases Nat.lt_or_eq_of_le least with less | rfl
  · exact less
  · have even := nearest.even (.inl (le_antisymm nearest.low bound))
    omega

-- A rational by the digits of it that were kept: its whole part, the next bit, and whether anything follows.
def Tracks (kept : ExtendedMantissa) (x : ℚ) : Prop :=
  match kept.roundBit, kept.stickyBit with
  | false, false => x = kept.mantissa
  | false, true => kept.mantissa < x ∧ x < kept.mantissa + 1 / 2
  | true, false => x = kept.mantissa + 1 / 2
  | true, true => kept.mantissa + 1 / 2 < x ∧ x < kept.mantissa + 1

theorem Tracks.nearest (tracks : Tracks kept x) : Nearest x kept.roundedMantissa := by
  obtain ⟨m, round, sticky⟩ := kept
  cases round <;> cases sticky <;>
    simp only [Tracks, ExtendedMantissa.roundedMantissa, ExtendedMantissa.accuracy,
      Accuracy.roundToNearestEven] at tracks ⊢
  · subst tracks
    refine ⟨by linarith, by linarith, ?_⟩
    rintro (tie | tie) <;> linarith
  · refine ⟨by linarith, by linarith, ?_⟩
    rintro (tie | tie) <;> linarith
  · subst tracks
    rcases Nat.mod_two_eq_zero_or_one m with parity | parity <;> rw [parity]
    · exact ⟨by push_cast; linarith, by push_cast; linarith, fun _ => parity⟩
    · exact ⟨by push_cast; linarith, by push_cast; linarith, fun _ => by omega⟩
  · refine ⟨by push_cast; linarith, by push_cast; linarith, ?_⟩
    push_cast
    rintro (tie | tie) <;> linarith

theorem Tracks.half (tracks : Tracks kept x) : Tracks kept.shiftRightOne (x / 2) := by
  obtain ⟨m, round, sticky⟩ := kept
  have whole : (m : ℚ) = 2 * (m / 2 : Nat) + (m % 2 : Nat) := by exact_mod_cast (Nat.div_add_mod m 2).symm
  rcases Nat.mod_two_eq_zero_or_one m with parity | parity <;> rw [parity] at whole <;> push_cast at whole <;>
    cases round <;> cases sticky <;> simp [Tracks, ExtendedMantissa.shiftRightOne, parity] at tracks ⊢
  · linarith
  · constructor <;> linarith
  · constructor <;> linarith
  · constructor <;> linarith
  · linarith
  · constructor <;> linarith
  · constructor <;> linarith
  · constructor <;> linarith

theorem Tracks.shift (tracks : Tracks kept x) (n : Nat) : Tracks (kept >>> n) (x / 2 ^ n) := by
  change Tracks (Nat.repeat ExtendedMantissa.shiftRightOne n kept) _
  induction n with
  | zero => simpa [Nat.repeat] using tracks
  | succ n ih =>
      have next := ih.half
      rwa [div_div, ← pow_succ] at next

theorem tracks_exact (m : Nat) : Tracks (.ofMantissaAndAccuracy m .exact) m := rfl

theorem shift_tracks {m : Nat} {e t : Int} (tracks : Tracks (.ofMantissaAndAccuracy m accuracy) y) (up : e ≤ t) :
    (shiftToExponent m e accuracy t).2 = t ∧ Tracks (shiftToExponent m e accuracy t).1 (y * 2 ^ e / 2 ^ t) := by
  have amount : e + ((t - e).toNat : Int) = t := by omega
  refine ⟨amount, ?_⟩
  have shifted := tracks.shift (t - e).toNat
  have same : y * 2 ^ e / 2 ^ t = y / 2 ^ (t - e).toNat := by
    have power : (2 : ℚ) ^ t = 2 ^ e * 2 ^ (t - e).toNat := by
      rw [← zpow_natCast, ← zpow_add₀ (by norm_num), amount]
    rw [power]
    field_simp
  rw [same]
  exact shifted

-- A rounded mantissa at an exponent. One that takes a bit too many is a power of two.
def made (sign : Sign) (r : Nat) (t : Int) : UnpackedFloat :=
  if zero : r = 0 then .zero sign
  else if r < 2 ^ 53 then .finite sign r t (Nat.pos_of_ne_zero zero)
  else .finite sign (2 ^ 52) (t + 1) (by decide)

-- What a rational is rounded to: as many of the 53 bits are used as the least exponent allows.
def Rounds (sign : Sign) (v : ℚ) (u : UnpackedFloat) : Prop :=
  ∃ (t : Int) (r : Nat), -1074 ≤ t ∧ v < 2 ^ 53 * 2 ^ t ∧ (t = -1074 ∨ 2 ^ 52 * 2 ^ t ≤ v) ∧
    Nearest (v / 2 ^ t) r ∧ u = made sign r t

theorem target_eq (m : Nat) (e : Int) :
    Format.binary64.targetExponent (totalExponent m e) = max (m.log2 + e - 52) (-1074) := by
  have least : Format.binary64.minExponent = -1074 := rfl
  have bits : Format.binary64.mantissaBits = 53 := rfl
  unfold Format.targetExponent totalExponent
  rw [least, bits]
  omega

theorem Tracks.bounds (tracks : Tracks (.ofMantissaAndAccuracy m accuracy) y) : (m : ℚ) ≤ y ∧ y < m + 1 := by
  cases accuracy with
  | exact =>
      simp only [Tracks, ExtendedMantissa.ofMantissaAndAccuracy] at tracks
      constructor <;> linarith
  | inexact order =>
      cases order <;> simp only [Tracks, ExtendedMantissa.ofMantissaAndAccuracy] at tracks <;> constructor <;> linarith

-- The mantissa that is left after the first rounding is shifted once more when it has grown by a bit.
theorem carry_made (sign : Sign) (small : r ≤ 2 ^ 53) (least : -1074 ≤ t) :
    (let (kept, e) := shiftToTargetExponent .binary64 r t .exact
      if h : kept.mantissa = 0 then UnpackedFloat.zero sign
      else .finite sign kept.mantissa e (Nat.pos_of_ne_zero h)) = made sign r t := by
  unfold shiftToTargetExponent made
  rw [target_eq]
  rcases Nat.lt_or_eq_of_le small with less | rfl
  · have bits : r.log2 ≤ 52 := by
      by_cases zero : r = 0
      · simp [zero]
      · exact Nat.lt_succ_iff.mp ((Nat.log2_lt zero).mpr less)
    have none : (max ((r.log2 : Int) + t - 52) (-1074) - t).toNat = 0 := by omega
    simp only [shiftToExponent, none]
    by_cases zero : r = 0
    · subst zero
      rfl
    · rw [dif_neg zero, if_pos less]
      simp [HShiftRight.hShiftRight, Nat.repeat, ExtendedMantissa.ofMantissaAndAccuracy, zero]
  · have one : (max (((2 ^ 53).log2 : Int) + t - 52) (-1074) - t).toNat = 1 := by
      rw [Nat.log2_two_pow]
      omega
    simp only [shiftToExponent, one]
    rfl

theorem Rounds.small {t : Int} (under : v < 2 ^ 53 * 2 ^ t) (nearest : Nearest (v / 2 ^ t) r) : r ≤ 2 ^ 53 := by
  apply nearest.le
  have room : v / 2 ^ t < 2 ^ 53 := (div_lt_iff₀ (by positivity)).mpr under
  push_cast
  linarith

theorem Nearest.filled {t : Int} (nearest : Nearest (v / 2 ^ t) r) (enough : 2 ^ 52 * 2 ^ t ≤ v) : 2 ^ 52 ≤ r := by
  apply nearest.ge
  rw [le_div_iff₀ (by positivity)]
  push_cast
  exact enough

theorem power_shift (n : Nat) (e : Int) : (2 : ℚ) ^ n * 2 ^ e = 2 ^ ((n : Int) + e) := by
  rw [← zpow_natCast, ← zpow_add₀ (by norm_num)]

-- The exponent that is chosen leaves no more than 53 bits, and fewer at the least exponent only.
theorem Tracks.under {e t : Int} (tracks : Tracks (.ofMantissaAndAccuracy m accuracy) y)
    (target : max (m.log2 + e - 52) (-1074) = t) : y * 2 ^ e < 2 ^ 53 * 2 ^ t := by
  have whole : (m : ℚ) + 1 ≤ 2 ^ (m.log2 + 1) := by exact_mod_cast Nat.lt_log2_self
  calc y * 2 ^ e < 2 ^ (m.log2 + 1) * 2 ^ e := by
        apply mul_lt_mul_of_pos_right _ (by positivity)
        exact tracks.bounds.2.trans_le whole
    _ = 2 ^ (((m.log2 + 1 : Nat) : Int) + e) := power_shift _ _
    _ ≤ 2 ^ (((53 : Nat) : Int) + t) := by
        apply zpow_le_zpow_right₀ (by norm_num)
        push_cast
        omega
    _ = 2 ^ 53 * 2 ^ t := (power_shift 53 t).symm

theorem Tracks.enough {e t : Int} (tracks : Tracks (.ofMantissaAndAccuracy m accuracy) y) (up : e ≤ t)
    (target : max (m.log2 + e - 52) (-1074) = t) : t = -1074 ∨ 2 ^ 52 * 2 ^ t ≤ y * 2 ^ e := by
  by_cases least : t = -1074
  · exact .inl least
  · refine .inr ?_
    have filled : m ≠ 0 := by
      rintro rfl
      simp at target
      omega
    have whole : (2 : ℚ) ^ m.log2 ≤ m := by exact_mod_cast Nat.log2_self_le filled
    calc (2 : ℚ) ^ 52 * 2 ^ t = 2 ^ (((52 : Nat) : Int) + t) := power_shift 52 t
      _ = 2 ^ ((m.log2 : Int) + e) := by congr 1; omega
      _ = 2 ^ m.log2 * 2 ^ e := (power_shift _ _).symm
      _ ≤ y * 2 ^ e := by
          apply mul_le_mul_of_nonneg_right _ (by positivity)
          exact whole.trans tracks.bounds.1

theorem round_rounds {m : Nat} {e : Int} (sign : Sign) (tracks : Tracks (.ofMantissaAndAccuracy m accuracy) y)
    (up : e ≤ max (m.log2 + e - 52) (-1074)) :
    Rounds sign (y * 2 ^ e) (roundWithAccuracy .binary64 sign m e accuracy) := by
  generalize target : max ((m.log2 : Int) + e - 52) (-1074) = t at up
  obtain ⟨exponent, kept⟩ := shift_tracks tracks up
  have under := tracks.under target
  have small := Rounds.small under kept.nearest
  refine ⟨t, _, by omega, under, tracks.enough up target, kept.nearest, ?_⟩
  rw [← carry_made sign small (by omega)]
  unfold roundWithAccuracy
  have first : shiftToTargetExponent .binary64 m e accuracy = ((shiftToExponent m e accuracy t).1, t) := by
    unfold shiftToTargetExponent
    rw [target_eq, target]
    exact Prod.ext rfl exponent
  rw [first]

def size : UnpackedFloat → ℚ
  | .finite _ m q _ => m * 2 ^ q
  | _ => 0

-- Half way between the largest float and the power of two above it.
def beyond : Nat := (2 ^ 54 - 1) * 2 ^ 970

theorem beyond_eq : (beyond : ℚ) = (2 ^ 54 - 1) * 2 ^ (970 : Int) := by
  have bits : ((2 ^ 54 - 1 : Nat) : ℚ) = 2 ^ 54 - 1 := by norm_num
  have power : ((2 ^ 970 : Nat) : ℚ) = 2 ^ (970 : Int) := Nat.cast_pow 2 970
  rw [beyond, Nat.cast_mul, bits, power]

theorem made_size (sign : Sign) (small : r ≤ 2 ^ 53) (t : Int) : size (made sign r t) = r * 2 ^ t := by
  unfold made
  split
  · rename_i zero
    simp [size, zero]
  · split
    · rfl
    · have same : r = 2 ^ 53 := by omega
      simp only [size, same]
      rw [zpow_add₀ (by norm_num)]
      push_cast
      ring

theorem double_le {t f : Int} (less : t < f) : (2 : ℚ) * 2 ^ t ≤ 2 ^ f := by
  have next : (2 : ℚ) * 2 ^ t = 2 ^ (t + 1) := by
    rw [zpow_add₀ (by norm_num)]
    norm_num
    ring
  rw [next]
  exact zpow_le_zpow_right₀ (by norm_num) less

theorem made_fits (sign : Sign) (r : Nat) (t : Int) :
    Fits (made sign r t) ↔ r = 0 ∨ r < 2 ^ 53 ∧ t ≤ 971 ∨ t ≤ 970 := by
  unfold made
  split
  · exact iff_of_true trivial (by omega)
  · split <;> simp only [Fits] <;> omega

theorem Rounds.fits (rounds : Rounds sign v u) : Fits u ↔ v < beyond := by
  obtain ⟨t, r, least, under, enough, nearest, rfl⟩ := rounds
  have positive : (0 : ℚ) < 2 ^ t := by positivity
  obtain ⟨unit, top, last⟩ : ∃ unit : ℚ, (beyond : ℚ) = (2 ^ 53 - 1 / 2) * unit ∧ unit = 2 ^ (971 : Int) := by
    refine ⟨2 ^ (971 : Int), ?_, rfl⟩
    rw [beyond_eq, show (971 : Int) = 970 + 1 from rfl, zpow_add₀ (by norm_num)]
    ring
  rw [top, made_fits]
  rcases lt_trichotomy t 971 with below | rfl | above
  · refine iff_of_true (by omega) ?_
    have half := double_le below
    rw [← last] at half
    linarith only [under, half, positive]
  · -- at the greatest exponent the mantissa is compared with the one that is half a unit too large
    rw [← last] at nearest positive
    have bound : ((2 ^ 53 - 1 : Nat) : ℚ) + 1 / 2 = 2 ^ 53 - 1 / 2 := by norm_num
    rw [← bound, ← div_lt_iff₀ positive]
    constructor
    · intro fits
      by_contra large
      have up := nearest.up (not_lt.mp large) rfl
      omega
    · intro less
      have down := nearest.le less
      omega
  · have large := enough.resolve_left (by omega)
    have filled := nearest.filled large
    refine iff_of_false (by omega) ?_
    have power := double_le above
    rw [← last] at power
    intro less
    linarith only [large, less, power, positive]

theorem Rounds.least (rounds : Rounds sign v u) (least : 1 ≤ v) : 1 ≤ size u := by
  obtain ⟨t, r, _, under, enough, nearest, rfl⟩ := rounds
  have positive : (0 : ℚ) < 2 ^ t := by positivity
  rw [made_size sign (Rounds.small under nearest) t, ← div_le_iff₀ positive]
  rcases le_or_gt t 0 with below | above
  · -- the power of two that is taken out is a whole number
    obtain ⟨n, same⟩ := Int.eq_ofNat_of_zero_le (Int.neg_nonneg_of_nonpos below)
    have power : (1 : ℚ) / 2 ^ t = (2 ^ n : Nat) := by
      rw [one_div, ← zpow_neg, same, zpow_natCast, Nat.cast_pow, Nat.cast_ofNat]
    have bound : ((2 ^ n : Nat) : ℚ) ≤ v / 2 ^ t := by
      rw [← power]
      exact div_le_div_of_nonneg_right least positive.le
    rw [power]
    exact_mod_cast nearest.ge bound
  · have filled := nearest.filled (enough.resolve_left (by omega))
    have large : (1 : ℚ) ≤ 2 ^ t := one_le_zpow₀ (by norm_num) above.le
    have many : (1 : ℚ) ≤ r := by exact_mod_cast (by omega : 1 ≤ r)
    exact (div_le_one_of_le₀ large positive.le).trans many

-- A bound with 53 bits bounds what is rounded, also when the rational lies above it by less than half.
theorem Rounds.le {k : Nat} {f : Int} (rounds : Rounds sign v u) (bound : v < (k + 1 / 2) * 2 ^ f)
    (least : 2 ^ 52 ≤ k) (most : k < 2 ^ 53) (large : -1074 ≤ f) : size u ≤ k * 2 ^ f := by
  obtain ⟨t, r, _, under, enough, nearest, rfl⟩ := rounds
  have small := Rounds.small under nearest
  have positive : (0 : ℚ) < 2 ^ t ∧ (0 : ℚ) < 2 ^ f := ⟨by positivity, by positivity⟩
  have least : (2 : ℚ) ^ 52 ≤ k := by exact_mod_cast least
  have most : (k : ℚ) + 1 ≤ 2 ^ 53 := by exact_mod_cast most
  rw [made_size sign small]
  rcases lt_trichotomy t f with below | rfl | above
  · have small : (r : ℚ) ≤ 2 ^ 53 := by exact_mod_cast small
    calc (r : ℚ) * 2 ^ t ≤ 2 ^ 53 * 2 ^ t := by gcongr
      _ = 2 ^ 52 * (2 * 2 ^ t) := by ring
      _ ≤ 2 ^ 52 * 2 ^ f := by
          have := double_le below
          gcongr
      _ ≤ k * 2 ^ f := by gcongr
  · have down : r ≤ k := nearest.le ((div_lt_iff₀ positive.1).mpr bound)
    have down : (r : ℚ) ≤ k := by exact_mod_cast down
    gcongr
  · have enough := enough.resolve_left (by omega)
    have next := double_le above
    exfalso
    nlinarith

theorem Rounds.exact {k : Nat} {f : Int} (rounds : Rounds sign (k * 2 ^ f) u) (most : k < 2 ^ 53) (large : -1074 ≤ f) :
    size u = k * 2 ^ f := by
  obtain ⟨t, r, least, under, enough, nearest, rfl⟩ := rounds
  have small := Rounds.small under nearest
  have most : (k : ℚ) < 2 ^ 53 := by exact_mod_cast most
  have positive : (0 : ℚ) < 2 ^ t ∧ (0 : ℚ) < 2 ^ f := ⟨by positivity, by positivity⟩
  have order : t ≤ f := by
    by_contra above
    have enough := enough.resolve_left (by omega)
    have next := double_le (not_le.mp above)
    nlinarith
  -- the mantissa at the lower exponent is whole, so it is what is nearest
  obtain ⟨n, rfl⟩ := Int.le.dest order
  have whole : (k : ℚ) * 2 ^ (t + n) / 2 ^ t = (k * 2 ^ n : Nat) := by
    rw [zpow_add₀ (by norm_num), zpow_natCast]
    push_cast
    field_simp
  rw [whole] at nearest
  have same : r = k * 2 ^ n := le_antisymm (nearest.le (by linarith)) (nearest.ge le_rfl)
  rw [made_size sign small, same, zpow_add₀ (by norm_num), zpow_natCast]
  push_cast
  ring

end KeywordConfig.Rounding
