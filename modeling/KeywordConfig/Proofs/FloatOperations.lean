import KeywordConfig.Proofs.Rounding

namespace KeywordConfig.Rounding
open Float.Model Float.Model.UnpackedFloat Decimal

-- The float that a rational is rounded to.
def Near (x : Float) (v : ℚ) : Prop := ∃ sign u, Rounds sign v u ∧ x.toModel = .pack u

-- A float that uses all of its 53 bits, without its sign.
def Normal (x : Float) (v : ℚ) : Prop := ∃ m q, magnitude x = .finite m q ∧ 2 ^ 52 ≤ m ∧ v = m * 2 ^ q

theorem Near.isFinite (near : Near x v) : x.isFinite ↔ v < beyond := by
  obtain ⟨sign, u, rounds, packed⟩ := near
  rw [← rounds.fits, ← pack_isFinite, ← packed]
  rfl

theorem Normal.nonneg (normal : Normal x v) : 0 ≤ v := by
  obtain ⟨m, q, _, _, rfl⟩ := normal
  positivity

theorem Normal.unpack (normal : Normal x v) : ∃ sign m q, ∃ positive : 0 < m,
    x.toModel.unpack = .finite sign m q positive ∧ 2 ^ 52 ≤ m ∧ v = m * 2 ^ q := by
  obtain ⟨m, q, magnitude, least, rfl⟩ := normal
  rw [magnitude_unpack] at magnitude
  cases unpacked : x.toModel.unpack with
  | finite sign n e positive =>
      rw [unpacked] at magnitude
      cases magnitude
      exact ⟨sign, m, q, positive, rfl, least, rfl⟩
  | zero =>
      rw [unpacked] at magnitude
      cases magnitude
      omega
  | _ => rw [unpacked] at magnitude; cases magnitude

-- A mantissa of 53 bits is held as it is, one of 54 bits by the exponent above.
theorem made_normal (packed : x.toModel = .pack (made sign r t)) (fits : Fits (made sign r t)) (filled : 2 ^ 52 ≤ r)
    (low : -1074 ≤ t) : Normal x (size (made sign r t)) := by
  have held (m : Nat) (q : Int) (positive : 0 < m) (same : made sign r t = .finite sign m q positive)
      (least : 2 ^ 52 ≤ m) (most : m < 2 ^ 53) (low : -1074 ≤ q) : Normal x (size (made sign r t)) := by
    rw [same] at packed fits ⊢
    refine ⟨m, q, ?_, least, rfl⟩
    rw [magnitude_unpack, packed, unpack_pack sign positive least most low fits]
    rfl
  have zero : r ≠ 0 := by omega
  by_cases more : r < 2 ^ 53
  · exact held r t (Nat.pos_of_ne_zero zero) (by rw [made, dif_neg zero, if_pos more]) filled more low
  · exact held (2 ^ 52) (t + 1) (by decide) (by rw [made, dif_neg zero, if_neg more]) le_rfl (by decide) (by omega)

theorem Near.normal (near : Near x v) (least : 1 ≤ v) (most : v < beyond) : ∃ w, Normal x w ∧ 1 ≤ w ∧
    (∀ (k : Nat) (f : Int), v < (k + 1 / 2) * 2 ^ f → 2 ^ 52 ≤ k → k < 2 ^ 53 → -1074 ≤ f → w ≤ k * 2 ^ f) ∧
    (∀ (k : Nat) (f : Int), v = k * 2 ^ f → k < 2 ^ 53 → -1074 ≤ f → w = v) := by
  obtain ⟨sign, u, rounds, packed⟩ := near
  have fits := rounds.fits.mpr most
  have normal : Normal x (size u) := by
    obtain ⟨t, r, low, under, enough, nearest, rfl⟩ := rounds
    have large : t ≠ -1074 := by
      rintro rfl
      have tiny : (2 : ℚ) ^ (-1074 : Int) ≤ 2 ^ (-53 : Int) := zpow_le_zpow_right₀ (by norm_num) (by norm_num)
      have small : (2 : ℚ) ^ (-53 : Int) = 1 / 2 ^ 53 := by norm_num
      rw [small] at tiny
      linarith
    exact made_normal packed fits (nearest.filled (enough.resolve_left large)) low
  refine ⟨size u, normal, rounds.least least, ?_, ?_⟩
  · intro k f bound least most large
    exact rounds.le bound least most large
  · rintro k f rfl most large
    exact rounds.exact most large

theorem product_rounds (s s' : Sign) {m m' : Nat} (positive : 0 < m) (positive' : 0 < m') (q q' : Int) (least : 2 ^ 52 ≤ m) :
    Rounds (s * s') (m * 2 ^ q * (m' * 2 ^ q'))
      (UnpackedFloat.mul .binary64 (.finite s m q positive) (.finite s' m' q' positive')) := by
  change Rounds _ _ (roundWithAccuracy .binary64 (s * s') (m * m') (q + q') .exact)
  have value : (m : ℚ) * 2 ^ q * (m' * 2 ^ q') = (m * m' : Nat) * 2 ^ (q + q') := by
    rw [zpow_add₀ (by norm_num)]
    push_cast
    ring
  rw [value]
  apply round_rounds _ (tracks_exact _)
  have bits : 52 ≤ (m * m').log2 := by
    apply (Nat.le_log2 (Nat.mul_ne_zero positive.ne' positive'.ne')).mpr
    exact least.trans (Nat.le_mul_of_pos_right _ positive')
  omega

theorem mul_near (left : Normal x v) (right : Normal y w) : Near (x * y) (v * w) := by
  obtain ⟨s, m, q, positive, first, least, rfl⟩ := left.unpack
  obtain ⟨s', m', q', positive', second, _, rfl⟩ := right.unpack
  refine ⟨s * s', _, product_rounds s s' positive positive' q q' least, ?_⟩
  change Float.Model.pack (UnpackedFloat.mul .binary64 x.toModel.unpack y.toModel.unpack) = _
  rw [first, second]

theorem fraction_tracks {d : Nat} (filled : 0 < d) (n : Nat) :
    Tracks (.ofMantissaAndAccuracy (n / d) (accuracyOfFraction (n % d) d)) (n / d : ℚ) := by
  have positive : (0 : ℚ) < d := by exact_mod_cast filled
  have whole : (n : ℚ) = d * (n / d : Nat) + (n % d : Nat) := by exact_mod_cast (Nat.div_add_mod n d).symm
  have less : ((n % d : Nat) : ℚ) < d := by exact_mod_cast Nat.mod_lt n filled
  have value : (n / d : ℚ) = (n / d : Nat) + (n % d : Nat) / d := by
    field_simp
    linarith
  rw [value]
  generalize n / d = quotient
  unfold accuracyOfFraction
  split
  · rename_i zero
    simp [Tracks, ExtendedMantissa.ofMantissaAndAccuracy, zero]
  · rename_i some
    have least : (0 : ℚ) < (n % d : Nat) := by exact_mod_cast Nat.pos_of_ne_zero some
    generalize n % d = rest at *
    rcases lt_trichotomy (2 * rest) d with below | half | above
    · have half : (rest : ℚ) / d < 1 / 2 := by
        rw [div_lt_div_iff₀ positive (by norm_num)]
        exact_mod_cast (by omega : rest * 2 < 1 * d)
      rw [Nat.compare_eq_lt.mpr below]
      simp only [Tracks, ExtendedMantissa.ofMantissaAndAccuracy]
      have := div_pos least positive
      constructor <;> linarith
    · have half : (rest : ℚ) / d = 1 / 2 := by
        rw [div_eq_div_iff positive.ne' (by norm_num)]
        exact_mod_cast (by omega : rest * 2 = 1 * d)
      rw [Nat.compare_eq_eq.mpr ‹_›]
      simp only [Tracks, ExtendedMantissa.ofMantissaAndAccuracy]
      linarith
    · have half : 1 / 2 < (rest : ℚ) / d := by
        rw [div_lt_div_iff₀ (by norm_num) positive]
        exact_mod_cast (by omega : 1 * d < rest * 2)
      rw [Nat.compare_eq_gt.mpr above]
      simp only [Tracks, ExtendedMantissa.ofMantissaAndAccuracy]
      have := (div_lt_one positive).mpr less
      constructor <;> linarith

theorem target_of (total : Int) : Format.binary64.targetExponent total = max (total - 53) (-1074) := by
  have least : Format.binary64.minExponent = -1074 := rfl
  have bits : Format.binary64.mantissaBits = 53 := rfl
  unfold Format.targetExponent
  rw [least, bits]
  rfl

theorem quotient_bits {m m' : Nat} (positive : 0 < m) (positive' : 0 < m') (more : 53 + m'.log2 ≤ m.log2 + n) :
    52 ≤ (m * 2 ^ n / m').log2 := by
  have filled : 2 ^ 52 ≤ m * 2 ^ n / m' := by
    rw [Nat.le_div_iff_mul_le positive']
    calc 2 ^ 52 * m' ≤ 2 ^ 52 * 2 ^ (m'.log2 + 1) := Nat.mul_le_mul_left _ Nat.lt_log2_self.le
      _ = 2 ^ (53 + m'.log2) := by rw [← Nat.pow_add]; congr 1; omega
      _ ≤ 2 ^ (m.log2 + n) := Nat.pow_le_pow_right (by decide) more
      _ = 2 ^ m.log2 * 2 ^ n := Nat.pow_add ..
      _ ≤ m * 2 ^ n := Nat.mul_le_mul_right _ (Nat.log2_self_le positive.ne')
  exact (Nat.le_log2 (by omega)).mpr filled

-- The quotient of two unpacked floats has enough bits to be rounded.
theorem quotient_rounds (sign : Sign) (positive : 0 < m) (positive' : 0 < m') (q q' : Int) :
    ∃ n e accuracy, divCore .binary64 m q m' q' = (n, e, accuracy) ∧
      Rounds sign (m * 2 ^ q / (m' * 2 ^ q')) (roundWithAccuracy .binary64 sign n e accuracy) := by
  refine ⟨_, _, _, rfl, ?_⟩
  rw [target_of]
  generalize target : min (q - q') (max (totalExponent m q - totalExponent m' q' - 53) (-1074)) = t
  obtain ⟨n, shift⟩ : ∃ n : Nat, q - q' = t + n := ⟨(q - q' - t).toNat, by omega⟩
  have amount : (q - q' - t).toNat = n := by omega
  rw [amount, Nat.shiftLeft_eq]
  have value : (m : ℚ) * 2 ^ q / (m' * 2 ^ q') = ((m * 2 ^ n : Nat) : ℚ) / m' * 2 ^ t := by
    have power : (2 : ℚ) ^ q = 2 ^ q' * (2 ^ t * 2 ^ n) := by
      rw [← zpow_natCast, ← zpow_add₀ (by norm_num), ← zpow_add₀ (by norm_num)]
      congr 1
      omega
    rw [power]
    push_cast
    field_simp
  rw [value]
  apply round_rounds sign (fraction_tracks positive' (m * 2 ^ n))
  by_cases least : t ≤ -1074
  · omega
  · have bits : 52 ≤ (m * 2 ^ n / m').log2 := by
      apply quotient_bits positive positive'
      unfold totalExponent at target
      omega
    omega

theorem div_near (left : Normal x v) (right : Normal y w) : Near (x / y) (v / w) := by
  obtain ⟨s, m, q, positive, first, _, rfl⟩ := left.unpack
  obtain ⟨s', m', q', positive', second, _, rfl⟩ := right.unpack
  obtain ⟨n, e, accuracy, core, rounds⟩ := quotient_rounds (s / s') positive positive' q q'
  refine ⟨s / s', _, rounds, ?_⟩
  change Float.Model.pack (UnpackedFloat.div .binary64 x.toModel.unpack y.toModel.unpack) = _
  rw [first, second, UnpackedFloat.div, core]

theorem log2_shift (filled : 0 < n) (shift : Nat) : (n * 2 ^ shift).log2 = n.log2 + shift := by
  refine (Nat.log2_eq_iff (by positivity)).mpr ⟨?_, ?_⟩
  · rw [Nat.pow_add]
    exact Nat.mul_le_mul_right _ (Nat.log2_self_le filled.ne')
  · have above := Nat.mul_lt_mul_of_pos_right (Nat.lt_log2_self (n := n)) (Nat.two_pow_pos shift)
    rwa [← Nat.pow_add, Nat.add_right_comm] at above

theorem nat_rounds {n : Nat} (filled : 0 < n) : Rounds .positive n (UnpackedFloat.ofNat .binary64 n) := by
  have normalized : UnpackedFloat.ofNat .binary64 n = UnpackedFloat.round .binary64 .positive n 0 := by
    have above : compare (n : Int) 0 = .gt := compare_gt_iff_gt.mpr (by omega)
    unfold UnpackedFloat.ofNat UnpackedFloat.ofInt UnpackedFloat.normalize
    rw [above]
    rfl
  rw [normalized]
  unfold UnpackedFloat.round decreaseExponent
  rw [target_eq]
  dsimp only
  generalize amount : (0 - max ((n.log2 : Int) + 0 - 52) (-1074)).toNat = shift
  rw [Nat.shiftLeft_eq]
  have value : (n : ℚ) = (n * 2 ^ shift : Nat) * 2 ^ (0 - shift : Int) := by
    push_cast
    rw [zero_sub, zpow_neg, zpow_natCast]
    field_simp
  rw [value]
  apply round_rounds .positive (tracks_exact _)
  rw [log2_shift filled]
  omega

theorem powers_held : ∀ e : Fin Float.exactlyRepresentablePowersOfTen.size,
    magnitude Float.exactlyRepresentablePowersOfTen[e] =
      .finite (10 ^ (e : Nat) * 2 ^ 52 / 2 ^ (10 ^ (e : Nat)).log2) ((10 ^ (e : Nat)).log2 - 52) ∧
    2 ^ 52 ≤ 10 ^ (e : Nat) * 2 ^ 52 / 2 ^ (10 ^ (e : Nat)).log2 ∧
    10 ^ (e : Nat) * 2 ^ 52 / 2 ^ (10 ^ (e : Nat)).log2 * 2 ^ (10 ^ (e : Nat)).log2 = 10 ^ (e : Nat) * 2 ^ 52 := by
  decide +kernel

theorem powers_normal (small : e < Float.exactlyRepresentablePowersOfTen.size) :
    Normal Float.exactlyRepresentablePowersOfTen[e] (10 ^ e) := by
  obtain ⟨held, least, value⟩ := powers_held ⟨e, small⟩
  refine ⟨_, _, held, least, ?_⟩
  have value : (((10 ^ e * 2 ^ 52 / 2 ^ (10 ^ e).log2 : Nat) : ℚ)) * 2 ^ (10 ^ e).log2 = 10 ^ e * 2 ^ 52 := by
    exact_mod_cast value
  rw [zpow_sub₀ (by norm_num), zpow_natCast, ← mul_div_assoc, eq_div_iff (by norm_num)]
  exact value.symm

theorem beyond_large (bound : v ≤ 2 ^ 64) : v < (beyond : ℚ) := by
  have large : ((2 ^ 64 : Nat) : ℚ) < beyond := by exact_mod_cast (by decide +kernel : 2 ^ 64 < beyond)
  push_cast at large
  linarith

theorem small_normal {n : Nat} (filled : 0 < n) (small : n < 2 ^ 53) : Normal n.toUInt64.toFloat n := by
  have near : Near n.toUInt64.toFloat n := by
    refine ⟨.positive, _, nat_rounds filled, ?_⟩
    change Float.Model.pack (UnpackedFloat.ofNat .binary64 n.toUInt64.toNat) = _
    rw [Nat.toUInt64_eq, UInt64.toNat_ofNat_of_lt' (by rw [UInt64.size]; omega)]
  have bound : (n : ℚ) ≤ 2 ^ 64 := by exact_mod_cast (by omega : n ≤ 2 ^ 64)
  have least : (1 : ℚ) ≤ n := by exact_mod_cast filled
  obtain ⟨w, normal, _, _, exact⟩ := near.normal least (beyond_large bound)
  rwa [exact n 0 (by norm_num) small (by norm_num)] at normal

theorem exponentBits_eq : (2 : Int) ^ Format.binary64.exponentBits = 2048 := rfl

theorem scaled_near {n : Nat} (filled : 0 < n) (small : e ≤ 2048) :
    Near (Float.ofScientific n false e) (n * 10 ^ e) := by
  unfold Float.ofScientific
  split
  · rename_i fast
    exact mul_near (small_normal filled fast.1) (powers_normal (by change e < 23; omega))
  · have bits : Format.binary64.mantissaBits = 53 := rfl
    have shifted : n <<< 53 = n * 2 ^ 53 := Nat.shiftLeft_eq ..
    refine ⟨.positive, UnpackedFloat.ofScientific .binary64 n e, ?_, rfl⟩
    unfold UnpackedFloat.ofScientific
    rw [dif_neg filled.ne', if_neg (by rw [exponentBits_eq]; omega), if_neg (by rw [exponentBits_eq]; omega),
      if_pos (Int.natCast_nonneg e)]
    simp only [bits, Int.toNat_natCast]
    have positive : 0 < n <<< 53 ∧ 2 ^ 52 ≤ n <<< 53 := by
      rw [shifted]
      omega
    have power : 0 < 10 ^ e := Nat.pow_pos (by decide)
    have rounds := product_rounds .positive .positive positive.1 power (-53) 0 positive.2
    have value : ((n <<< 53 : Nat) : ℚ) * 2 ^ (-53 : Int) * ((10 ^ e : Nat) * 2 ^ (0 : Int)) = n * 10 ^ e := by
      rw [shifted]
      push_cast
      norm_num
      field_simp
    rwa [value] at rounds

theorem whole_near {n : Nat} (filled : 0 < n) : Near (Float.ofScientific n false 0) n := by
  have near := @scaled_near 0 n filled (by decide)
  rwa [pow_zero, mul_one] at near

theorem tiny_rounds (sign : Sign) (positive : 0 ≤ v) (tiny : v ≤ 2 ^ (-1075 : Int)) : Rounds sign v (.zero sign) := by
  have half : (2 : ℚ) ^ (-1075 : Int) = 1 / 2 * 2 ^ (-1074 : Int) := by
    rw [show (-1075 : Int) = -1 + -1074 from rfl, zpow_add₀ (by norm_num), zpow_neg_one, one_div]
  have unit : (0 : ℚ) < 2 ^ (-1074 : Int) := by positivity
  rw [half] at tiny
  refine ⟨-1074, 0, le_rfl, ?_, .inl rfl, ⟨?_, ?_, fun _ => rfl⟩, rfl⟩
  · linarith only [tiny, unit]
  · rw [div_le_iff₀ unit]
    rw [Nat.cast_zero, zero_add]
    exact tiny
  · rw [Nat.cast_zero]
    positivity

-- Digits behind so many places that little is left of them.
theorem quotient_tiny {n : Nat} (far : k + n.log2 < e) : (n : ℚ) / 10 ^ e ≤ 2 ^ (-(k : Int)) := by
  rw [zpow_neg, zpow_natCast, ← one_div, div_le_div_iff₀ (by positivity) (by positivity), one_mul]
  have bound : n * 2 ^ k ≤ 10 ^ e := by
    calc n * 2 ^ k ≤ 2 ^ (n.log2 + 1) * 2 ^ k := Nat.mul_le_mul_right _ Nat.lt_log2_self.le
      _ = 2 ^ (n.log2 + 1 + k) := (Nat.pow_add ..).symm
      _ ≤ 2 ^ e := Nat.pow_le_pow_right (by decide) (by omega)
      _ ≤ 10 ^ e := Nat.pow_le_pow_left (by decide) e
  exact_mod_cast bound

theorem quotient_near {n : Nat} (filled : 0 < n) (more : 0 < e) : Near (Float.ofScientific n true e) (n / 10 ^ e) := by
  unfold Float.ofScientific
  split
  · rename_i fast
    exact div_near (small_normal filled fast.1) (powers_normal (by change e < 23; omega))
  · have negative : Int.negOfNat e = -(e : Int) := Int.negOfNat_eq
    refine ⟨.positive, UnpackedFloat.ofScientific .binary64 n (Int.negOfNat e), ?_, rfl⟩
    rw [negative]
    unfold UnpackedFloat.ofScientific
    rw [dif_neg filled.ne', exponentBits_eq, if_neg (by omega)]
    split
    · exact tiny_rounds _ (by positivity) (quotient_tiny (k := 1075) (by omega))
    · rw [if_neg (by omega)]
      have places : (- -(e : Int)).toNat = e := by omega
      have power : 0 < 10 ^ e := by positivity
      obtain ⟨m, q, accuracy, core, rounds⟩ := quotient_rounds .positive filled power 0 0
      simp only [UnpackedFloat.div, places, core]
      have same : Sign.positive / Sign.positive = .positive := rfl
      rw [same]
      simpa using rounds

-- The 53 bits of a whole number, rounded up from a half. No smaller number is rounded to more.
def roof (n : Nat) : Nat := (n * 2 ^ 53 + 2 ^ n.log2) / (2 * 2 ^ n.log2)

theorem roof_bounds {n : Nat} (filled : 0 < n) :
    2 ^ 52 ≤ roof n ∧ (n : ℚ) < (roof n + 1 / 2) * 2 ^ ((n.log2 : Int) - 52) := by
  have unit : 0 < 2 * 2 ^ n.log2 := by positivity
  have least := Nat.log2_self_le filled.ne'
  constructor
  · unfold roof
    rw [Nat.le_div_iff_mul_le unit]
    omega
  · have above : n * 2 ^ 53 + 2 ^ n.log2 < (roof n + 1) * (2 * 2 ^ n.log2) := by
      have := Nat.lt_div_mul_add unit (a := n * 2 ^ 53 + 2 ^ n.log2)
      rw [roof, Nat.succ_mul]
      exact this
    have above : (n : ℚ) * 2 ^ 53 + 2 ^ n.log2 < (roof n + 1) * (2 * 2 ^ n.log2) := by exact_mod_cast above
    rw [zpow_sub₀ (by norm_num), zpow_natCast, ← mul_div_assoc, lt_div_iff₀ (by norm_num)]
    norm_num
    linarith

theorem Near.roofed {n : Nat} (near : Near x v) (least : 1 ≤ v) (fits : v < beyond) (bound : v ≤ n)
    (held : roof n < 2 ^ 53) : ∃ w, Normal x w ∧ w ≤ roof n * 2 ^ ((n.log2 : Int) - 52) := by
  have filled : 0 < n := by exact_mod_cast (by linarith : (0 : ℚ) < n)
  obtain ⟨most, above⟩ := roof_bounds filled
  obtain ⟨w, normal, _, ceiling, _⟩ := near.normal least fits
  exact ⟨w, normal, ceiling _ _ (bound.trans_lt above) most held (by omega)⟩

theorem neg_isFinite (x : Float) : (-x).isFinite ↔ x.isFinite := by
  have fits : (-x).isFinite ↔ Fits x.toModel.unpack.neg := pack_isFinite _
  rw [fits, isFinite_iff, magnitude_unpack]
  cases unpacked : x.toModel.unpack with
  | finite sign m q positive =>
      have magnitude : magnitude x = .finite m q := by
        rw [magnitude_unpack, unpacked]
        rfl
      exact iff_of_true (magnitude_bounds magnitude).2.2 ⟨m, q, rfl⟩
  | zero => exact iff_of_true trivial ⟨0, -1074, rfl⟩
  | _ => exact iff_of_false id (by rintro ⟨_, _, other⟩; cases other)

theorem zero_mul_isFinite (zero : x.toModel.unpack = .zero .positive) (normal : Normal y w) : (x * y).isFinite := by
  obtain ⟨sign, m, q, positive, second, _⟩ := normal.unpack
  have fits : (x * y).isFinite ↔ Fits (UnpackedFloat.mul .binary64 x.toModel.unpack y.toModel.unpack) := pack_isFinite _
  rw [fits, zero, second]
  trivial

theorem zero_near (e : Nat) : Near (Float.ofScientific 0 true e) 0 := by
  refine ⟨.positive, .zero .positive, tiny_rounds _ (by norm_num) (by positivity), ?_⟩
  unfold Float.ofScientific
  split
  · rename_i fast
    have small : ∀ e : Fin 23,
        ((0 : Nat).toUInt64.toFloat / Float.exactlyRepresentablePowersOfTen[e]).toModel = .pack (.zero .positive) := by
      decide +kernel
    exact small ⟨e, by omega⟩
  · show Float.Model.pack (UnpackedFloat.ofScientific .binary64 0 _) = _
    unfold UnpackedFloat.ofScientific
    rw [dif_pos rfl]

end KeywordConfig.Rounding
