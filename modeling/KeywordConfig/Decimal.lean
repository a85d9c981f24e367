namespace KeywordConfig

structure Decimal where
  coefficient : Nat
  exponent : Int
deriving DecidableEq, Repr

namespace Decimal

-- A float without its sign.
inductive Magnitude where
  | finite (mantissa : Nat) (exponent : Int)
  | infinite
  | undefined
deriving DecidableEq, Repr

def negative (x : Float) : Bool := Nat.pow 2 63 ≤ x.toBits.toNat

def magnitude (x : Float) : Magnitude :=
  let field : Nat := x.toBits.toNat / Nat.pow 2 52 % Nat.pow 2 11
  let fraction : Nat := x.toBits.toNat % Nat.pow 2 52
  if field = 2047 then (if fraction = 0 then .infinite else .undefined)
  else if field = 0 then .finite fraction (-1074)
  else .finite (Nat.pow 2 52 + fraction) ((field : Int) - 1075)

-- The reals that round to one float, over a common denominator. The bounds themselves round to it
-- when its mantissa is even. Just below a power of two the floats lie twice as close.
structure Interval where
  low : Nat
  value : Nat
  high : Nat
  scale : Nat
  closed : Bool
deriving Repr

def interval (mantissa : Nat) (exponent : Int) : Interval :=
  let step := Nat.pow 2 exponent.toNat
  let below := if mantissa = Nat.pow 2 52 ∧ -1074 < exponent then 1 else 2
  { low := (4 * mantissa - below) * step
    value := 4 * mantissa * step
    high := (4 * mantissa + 2) * step
    scale := 4 * Nat.pow 2 (-exponent).toNat
    closed := mantissa % 2 = 0 }

-- Which of two equally near decimals is taken.
inductive Tie where
  | up | even
deriving DecidableEq, Repr

def Tie.takesUpper : Tie → Nat → Bool
  | .up, _ => true
  | .even, lower => lower % 2 = 1

-- The multiple of `10 ^ exponent` in the interval that lies nearest to the value: only the two
-- neighbours of the value can be it.
def Interval.pick (i : Interval) (tie : Tie) (exponent : Int) : Option Nat :=
  let widen := Nat.pow 10 (-exponent).toNat
  let unit := Nat.pow 10 exponent.toNat * i.scale
  let low := i.low * widen
  let value := i.value * widen
  let high := i.high * widen
  let lower := value / unit
  let upper := lower + 1
  let lowerFits := if i.closed then low ≤ lower * unit else low < lower * unit
  let upperFits := if i.closed then upper * unit ≤ high else upper * unit < high
  match decide lowerFits, decide upperFits with
  | true, true =>
      let down := value - lower * unit
      let up := upper * unit - value
      if down < up then some lower
      else if up < down then some upper
      else some (if tie.takesUpper lower then upper else lower)
  | true, false => some lower
  | false, true => some upper
  | false, false => none

def digitValue (c : Char) : Nat := c.toNat - '0'.toNat

def ofDigits (digits : List Char) : Nat :=
  digits.foldl (fun n c => 10 * n + digitValue c) 0

def digitCount (n : Nat) : Nat := (Nat.toDigits 10 n).length

-- The least `t` with `num / den < 10 ^ t`, for a positive quotient.
def top (num den : Nat) : Int :=
  if den ≤ num then digitCount (num / den)
  else 1 - digitCount ((den + num - 1) / num - 1)

-- Seventeen digits identify every float.
def shortest (tie : Tie) (mantissa : Nat) (exponent : Int) : Decimal :=
  if mantissa = 0 then ⟨0, 0⟩ else
  let i := interval mantissa exponent
  let above := top i.value i.scale
  let found := (List.range' 1 17).findSome? fun (count : Nat) =>
    (i.pick tie (above - count)).map fun coefficient =>
      if coefficient = Nat.pow 10 count then ⟨1, above⟩ else ⟨coefficient, above - count⟩
  found.getD ⟨i.value / i.scale, 0⟩

def digits (d : Decimal) : List Char := Nat.toDigits 10 d.coefficient

-- The power of ten of the leading digit.
def lead (d : Decimal) : Int := d.digits.length + d.exponent - 1

-- The digits around a decimal point, without an exponent. A whole number gets a zero after the
-- point when `fraction` asks for one.
def positional (d : Decimal) (fraction : Bool) : String :=
  let zeros (n : Int) : List Char := List.replicate n.toNat '0'
  let text :=
    if 0 ≤ d.exponent then
      d.digits ++ zeros d.exponent ++ (if fraction then ['.', '0'] else [])
    else if 0 ≤ d.lead then
      d.digits.take (d.lead + 1).toNat ++ '.' :: d.digits.drop (d.lead + 1).toNat
    else '0' :: '.' :: zeros (-d.lead - 1) ++ d.digits
  String.ofList text

-- One digit before the point, none after it unless there are more, and a signed exponent.
def scientific (d : Decimal) : String :=
  let rest := d.digits.drop 1
  let text := d.digits.take 1 ++ (if rest.isEmpty then [] else '.' :: rest)
  let sign := if d.lead < 0 then "e-" else "e+"
  String.ofList text ++ sign ++ toString d.lead.natAbs

-- A float by its sign and the text of its magnitude.
def floatText (x : Float) (finite : Nat → Int → String) : String :=
  let sign := if negative x then "-" else ""
  match magnitude x with
  | .undefined => "NaN"
  | .infinite => sign ++ "inf"
  | .finite mantissa exponent => sign ++ finite mantissa exponent

def toFloat (d : Decimal) : Float :=
  Float.ofScientific d.coefficient (d.exponent < 0) d.exponent.natAbs

end Decimal

end KeywordConfig
