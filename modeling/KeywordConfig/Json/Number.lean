import KeywordConfig.Json

namespace KeywordConfig.Json

-- The digits that fit 64 bits behind those already in `n`, and the ones that do not.
def collect (n : Nat) : List Char → Nat × List Char
  | [] => (n, [])
  | c :: rest =>
      let next := 10 * n + Decimal.digitValue c
      if next < Nat.pow 2 64 then collect next rest else (n, c :: rest)

def maxPower : Nat := 308

def power (n : Nat) : Float := Float.ofScientific 1 false n

def scaleUp (x : Float) (exponent : Nat) : Option Float :=
  if exponent ≤ maxPower then
    let scaled := x * power exponent
    if Decimal.magnitude scaled = .infinite then none else some scaled
  else if x == 0 then some x
  else none

def scaleDown (x : Float) (exponent : Nat) : Float :=
  if exponent ≤ maxPower then x / power exponent
  else if x == 0 then x
  else scaleDown (x / power maxPower) (exponent - maxPower)
termination_by exponent
decreasing_by simp only [maxPower] at *; omega

def scale (x : Float) (exponent : Int) : Option Float :=
  if 0 ≤ exponent then scaleUp x exponent.toNat else some (scaleDown x exponent.natAbs)

def signed (negative : Bool) (x : Float) : Float := if negative then -x else x

-- A whole number; minus zero is no integer.
def wholeNumber (negative : Bool) (n : Nat) : Json :=
  if negative then
    if n = 0 ∨ Nat.pow 2 63 < n then .float (-floatOfNat n) else .int (Int64.ofInt (-n))
  else if n < Nat.pow 2 63 then .int (Int64.ofInt n)
  else .large (UInt64.ofNat n)

-- A number from its digits: before the point, behind it, and the exponent, if they are there.
def number (negative : Bool) (whole : List Char) (fraction : Option (List Char))
    (exponent : Option Int) : Option Json :=
  let (n, beyond) := collect 0 whole
  if fraction.isNone && exponent.isNone && beyond.isEmpty then some (wholeNumber negative n)
  else
    let places := fraction.getD []
    let (n, unused) := collect n places
    let power : Int := beyond.length - (places.length - unused.length) + exponent.getD 0
    (scale (floatOfNat n) power).map fun x => .float (signed negative x)

-- A part is absent when its mark is; behind its mark it needs a digit.
def readFraction : List Char → Option (Option (List Char) × List Char)
  | '.' :: rest =>
      let digits := rest.takeWhile Char.isDigit
      if digits.isEmpty then none else some (some digits, rest.dropWhile Char.isDigit)
  | cs => some (none, cs)

def readSign : List Char → Bool × List Char
  | '-' :: rest => (true, rest)
  | '+' :: rest => (false, rest)
  | cs => (false, cs)

def readExponent : List Char → Option (Option Int × List Char)
  | [] => some (none, [])
  | c :: cs =>
      if c = 'e' ∨ c = 'E' then
        let (negative, rest) := readSign cs
        let digits := rest.takeWhile Char.isDigit
        let value : Int := Decimal.ofDigits digits
        if digits.isEmpty then none
        else some (some (if negative then -value else value), rest.dropWhile Char.isDigit)
      else some (none, c :: cs)

-- A zero leads only a number that has no other digit before the point.
def readNumber (negative : Bool) (cs : List Char) : Option (Json × List Char) :=
  let whole := cs.takeWhile Char.isDigit
  if whole.isEmpty || (whole.head? == some '0' && whole.length ≠ 1) then none
  else
    (readFraction (cs.dropWhile Char.isDigit)).bind fun (fraction, rest) =>
      (readExponent rest).bind fun (exponent, rest) =>
        (number negative whole fraction exponent).map fun json => (json, rest)

theorem readFraction_suffix {rest : List Char} (equal : readFraction cs = some (part, rest)) :
    rest <:+ cs := by
  unfold readFraction at equal
  split at equal
  · dsimp only at equal
    split at equal
    · cases equal
    · cases equal
      exact (List.dropWhile_suffix _).trans (List.suffix_cons _ _)
  · cases equal
    exact List.suffix_rfl

theorem readSign_suffix (cs : List Char) : (readSign cs).2 <:+ cs := by
  unfold readSign
  split
  · exact List.suffix_cons _ _
  · exact List.suffix_cons _ _
  · exact List.suffix_rfl

theorem readExponent_suffix {rest : List Char} (equal : readExponent cs = some (part, rest)) :
    rest <:+ cs := by
  unfold readExponent at equal
  split at equal
  · cases equal
    exact List.suffix_rfl
  · rename_i c cs
    split at equal
    · dsimp only at equal
      split at equal
      · cases equal
      · cases equal
        exact (List.dropWhile_suffix _).trans ((readSign_suffix cs).trans (List.suffix_cons _ _))
    · cases equal
      exact List.suffix_rfl

-- A number has a digit, so what is left of a text that starts with one is shorter.
theorem readNumber_suffix {rest : List Char} (equal : readNumber negative cs = some (json, rest)) :
    rest <:+ cs.dropWhile Char.isDigit := by
  unfold readNumber at equal
  dsimp only at equal
  split at equal
  · cases equal
  · simp only [Option.bind_eq_some_iff, Option.map_eq_some_iff] at equal
    obtain ⟨⟨_, middle⟩, first, ⟨_, behind⟩, second, _, _, same⟩ := equal
    cases same
    exact (readExponent_suffix second).trans (readFraction_suffix first)

end KeywordConfig.Json
