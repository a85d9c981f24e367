import Mathlib
import KeywordConfig.Decimal

namespace KeywordConfig.Decimal
open Float.Model Float.Model.UnpackedFloat

-- An unpacked float without its sign. A zero has the exponent of the smallest floats.
def Magnitude.ofUnpacked : UnpackedFloat → Magnitude
  | .infinity _ => .infinite
  | .notANumber => .undefined
  | .zero _ => .finite 0 (-1074)
  | .finite _ m q _ => .finite m q

variable {x : Float}

theorem exponent_field (x : Float) : x.toBits.toNat / 2 ^ 52 % 2 ^ 11 =
    (@unpackExponent .binary64 x.toBits.toBitVec).toNat := by
  simp [unpackExponent, Nat.shiftRight_eq_div_pow]

theorem mantissa_field (x : Float) : x.toBits.toNat % 2 ^ 52 =
    (@unpackMantissa .binary64 x.toBits.toBitVec).toNat := by
  simp [unpackMantissa]

-- The fields of a float are compared as numbers in the one and as bits in the other.
theorem magnitude_unpack (x : Float) : magnitude x = .ofUnpacked x.toModel.unpack := by
  have full (field : BitVec 11) : field.toNat = 2047 ↔ field = -1#11 := BitVec.toNat_inj (y := -1#11)
  have empty (field : BitVec 11) : field.toNat = 0 ↔ field = 0#11 := BitVec.toNat_inj (y := 0#11)
  have none (fraction : BitVec 52) : fraction.toNat = 0 ↔ fraction = 0#52 := BitVec.toNat_inj (y := 0#52)
  have whole (fraction : BitVec 52) : (1#1 ++ fraction).toNat = 2 ^ 52 + fraction.toNat := by
    rw [BitVec.toNat_append, Nat.shiftLeft_eq]
    exact (Nat.two_pow_add_eq_or_of_lt fraction.isLt 1).symm
  unfold magnitude Float.Model.unpack UnpackedFloat.unpack
  simp only [Nat.pow_eq, exponent_field, mantissa_field, full, empty, none]
  change _ = Magnitude.ofUnpacked
    (if @unpackExponent .binary64 x.toBits.toBitVec = -1#11 then _ else _)
  split
  · change _ = Magnitude.ofUnpacked
      (if @unpackMantissa .binary64 x.toBits.toBitVec = 0#52 then _ else _)
    split <;> rfl
  · change _ = Magnitude.ofUnpacked
      (if @unpackExponent .binary64 x.toBits.toBitVec = 0#11 then _ else _)
    split
    · rename_i zero
      have least : (((@unpackExponent .binary64 x.toBits.toBitVec).toNat : Int) -
          ((Format.binary64.exponentBias : Int) + (52 : Nat)) + 1) = -1074 := by
        rw [zero]
        rfl
      split
      · rename_i same
        have same : (@unpackMantissa .binary64 x.toBits.toBitVec).toNat = 0 := (none _).mpr same
        rw [same]
        rfl
      · exact congrArg _ least.symm
    · exact congrArg (Magnitude.finite · _) (whole _).symm

theorem isFinite_iff : x.isFinite ↔ ∃ m q, magnitude x = .finite m q := by
  rw [magnitude_unpack]
  change x.toModel.unpack.isFinite = true ↔ _
  cases x.toModel.unpack <;> simp [UnpackedFloat.isFinite, Magnitude.ofUnpacked]

theorem isFinite_beq (finite : x.isFinite) : (x == x) = true := by
  change UnpackedFloat.beq x.toModel.unpack x.toModel.unpack = true
  obtain ⟨m, q, magnitude⟩ := isFinite_iff.mp finite
  rw [magnitude_unpack] at magnitude
  cases unpacked : x.toModel.unpack with
  | finite sign m q positive => cases sign <;> simp [UnpackedFloat.beq, UnpackedFloat.compare]
  | zero sign => cases sign <;> rfl
  | _ => rw [unpacked] at magnitude; cases magnitude

theorem magnitude_bounds (finite : magnitude x = .finite m q) : m < 2 ^ 53 ∧ -1074 ≤ q ∧ q ≤ 971 := by
  unfold magnitude at finite
  simp only [Nat.pow_eq] at finite
  split at finite
  · split at finite <;> cases finite
  · split at finite
    · cases finite
      omega
    · cases finite
      omega

-- The floats whose exponent is small enough to be packed.
def Fits : UnpackedFloat → Prop
  | .zero _ => True
  | .finite _ _ q _ => q ≤ 971
  | _ => False

theorem unpack_isFinite (bits : BitVec 64) :
    (UnpackedFloat.unpack .binary64 bits).isFinite ↔ @unpackExponent .binary64 bits ≠ -1#11 := by
  unfold UnpackedFloat.unpack
  change (UnpackedFloat.isFinite (if @unpackExponent .binary64 bits = -1#11 then _ else _)) = true ↔ _
  split
  · rename_i full
    refine iff_of_false ?_ (fun other => other full)
    split <;> simp [UnpackedFloat.isFinite]
  · rename_i other
    refine iff_of_true ?_ other
    split
    · split <;> rfl
    · rfl

theorem pack_isFinite (u : UnpackedFloat) : (Float.Model.pack u).isFinite ↔ Fits u := by
  change (UnpackedFloat.unpack .binary64 (UnpackedFloat.pack .binary64 u)).isFinite = true ↔ _
  rw [unpack_isFinite]
  cases u with
  | infinity => exact iff_of_false (fun other => other (unpackExponent_packComponents)) id
  | notANumber => exact iff_of_false (fun other => other (unpackExponent_packComponents)) id
  | zero =>
      refine iff_of_true ?_ trivial
      rw [UnpackedFloat.pack, packedZero, unpackExponent_packComponents]
      decide
  | finite sign m q positive =>
      have room : 2 ^ Format.binary64.exponentBits ≤ (q + Format.binary64.exponentBias +
          Format.binary64.mantissaBitsWithoutImplicit).toNat + 1 ↔ ¬q ≤ 971 := by
        change 2048 ≤ (q + 1023 + 52).toNat + 1 ↔ _
        omega
      unfold UnpackedFloat.pack
      dsimp only
      simp only [room]
      by_cases fits : q ≤ 971
      · rw [if_neg (Decidable.not_not.mpr fits)]
        refine iff_of_true ?_ fits
        split
        · rw [unpackExponent_packComponents]
          intro full
          have value := congrArg BitVec.toNat full
          change (q + 1023 + 52).toNat % 2048 = 2047 at value
          omega
        · rw [unpackExponent_packComponents]
          decide
      · rw [if_pos fits]
        refine iff_of_false (fun other => other ?_) fits
        exact unpackExponent_packComponents

theorem unpack_pack {m : Nat} {q : Int} (sign : Sign) (positive : 0 < m) (normal : 2 ^ 52 ≤ m) (small : m < 2 ^ 53)
    (least : -1074 ≤ q) (fits : q ≤ 971) :
    (Float.Model.pack (.finite sign m q positive)).unpack = .finite sign m q positive := by
  have bits : m.log2 + 1 = 53 := by
    have := (Nat.log2_eq_iff (by omega)).mpr ⟨normal, small⟩
    omega
  have field : (BitVec.ofNat 11 (q + 1023 + 52).toNat).toNat = (q + 1075).toNat := by
    rw [BitVec.toNat_ofNat]
    omega
  have whole : (1#1 ++ BitVec.ofNat 52 m).toNat = m := by
    rw [BitVec.toNat_append, Nat.shiftLeft_eq]
    have split := Nat.two_pow_add_eq_or_of_lt (BitVec.ofNat 52 m).isLt 1
    change 1 * 2 ^ 52 ||| _ = _
    rw [Nat.mul_comm, ← split, BitVec.toNat_ofNat]
    omega
  have packed : UnpackedFloat.pack .binary64 (.finite sign m q positive) =
      packComponents .binary64 sign (BitVec.ofNat 11 (q + 1023 + 52).toNat) (BitVec.ofNat 52 m) := by
    have room : ¬2 ^ 11 ≤ (q + 1023 + 52).toNat + 1 := by omega
    change (if 2 ^ 11 ≤ (q + 1023 + 52).toNat + 1 then _ else if m.log2 + 1 = 53 then _ else _) = _
    rw [if_neg room, if_pos bits]
    rfl
  have other : BitVec.ofNat 11 (q + 1023 + 52).toNat ≠ -1#11 ∧ BitVec.ofNat 11 (q + 1023 + 52).toNat ≠ 0#11 := by
    constructor <;> intro same <;> have value := congrArg BitVec.toNat same <;> rw [field] at value
    · change _ = 2047 at value
      omega
    · change _ = 0 at value
      omega
  change UnpackedFloat.unpack .binary64 (UnpackedFloat.pack .binary64 (.finite sign m q positive)) = _
  rw [packed]
  unfold UnpackedFloat.unpack
  simp only [unpackMantissa_packComponents, unpackExponent_packComponents, unpackSign_packComponents,
    Sign.ofBitVec_toBitVec]
  rw [if_neg other.1, if_neg other.2]
  have exponent : ((BitVec.ofNat 11 (q + 1023 + 52).toNat).toNat : Int) - ((1023 : Nat) + (52 : Nat)) = q := by
    rw [field]
    omega
  congr 1

end KeywordConfig.Decimal
