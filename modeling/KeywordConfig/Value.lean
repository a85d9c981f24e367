import KeywordConfig.Keyed
import KeywordConfig.Decimal

namespace KeywordConfig

inductive Value where
  | null
  | bool (b : Bool)
  | int (i : Int64)
  | float (x : Float)
  | str (s : String)
  | list (items : List Value)
  | map (entries : List (String × Value))
deriving Inhabited

abbrev Mapping := Keyed Value

namespace Value

def isMap : Value → Bool
  | .map _ => true
  | _ => false

def typeName : Value → String
  | .null => "nil"
  | .bool _ => "boolean"
  | .int _ => "integer"
  | .float _ => "float"
  | .str _ => "string"
  | .list _ => "list"
  | .map _ => "mapping"

-- Equality by content. Numbers of different types differ, floats compare as numbers, and
-- mappings are equal when they hold equal values under the same keys in any order.
mutual

def same : Value → Value → Bool
  | .null, .null => true
  | .bool a, .bool b => a == b
  | .int a, .int b => a == b
  | .float a, .float b => a == b
  | .str a, .str b => a == b
  | .list a, .list b => sameItems a b
  | .map a, .map b => a.length == b.length && sameEntries a b
  | _, _ => false

def sameItems : List Value → List Value → Bool
  | [], [] => true
  | a :: as, b :: bs => same a b && sameItems as bs
  | _, _ => false

def sameEntries : List (String × Value) → List (String × Value) → Bool
  | [], _ => true
  | (key, value) :: rest, other =>
      (match Keyed.get? other key with
        | some found => same value found
        | none => false) && sameEntries rest other

end

-- Floats are written without an exponent: a whole one exactly and with a zero after the point,
-- any other with the fewest digits that read back.
def floatText (x : Float) : String :=
  Decimal.floatText x fun mantissa exponent =>
    let step := Nat.pow 2 (-exponent).toNat
    if mantissa % step = 0 then toString (mantissa / step * Nat.pow 2 exponent.toNat) ++ ".0"
    else (Decimal.shortest .up mantissa exponent).positional false

mutual

def text : Value → String
  | .null => ""
  | .bool b => if b then "true" else "false"
  | .int i => toString i.toInt
  | .float x => floatText x
  | .str s => s
  | .list items => "[" ++ ", ".intercalate (itemTexts items) ++ "]"
  | .map entries => "\x7b" ++ ", ".intercalate (entryTexts entries) ++ "\x7d"

def itemTexts : List Value → List String
  | [] => []
  | item :: rest => text item :: itemTexts rest

def entryTexts : List (String × Value) → List String
  | [] => []
  | (key, value) :: rest => (key ++ " => " ++ text value) :: entryTexts rest

end

-- No mapping inside holds a key twice. Values that are read or written keep to this.
inductive Proper : Value → Prop where
  | null : Proper .null
  | bool : Proper (.bool b)
  | int : Proper (.int i)
  | float : Proper (.float x)
  | str : Proper (.str s)
  | list : (∀ item ∈ items, Proper item) → Proper (.list items)
  | map : Keyed.Distinct entries → (∀ entry ∈ entries, Proper entry.2) → Proper (.map entries)

end Value

end KeywordConfig
