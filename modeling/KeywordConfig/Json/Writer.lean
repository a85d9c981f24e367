import KeywordConfig.Json

namespace KeywordConfig.Json

-- Positional when the leading digit stands between five places behind the point and sixteen before it.
def floatChars (x : Float) : List Char :=
  match Decimal.magnitude x with
  | .undefined => "null".toList
  | .infinite => "null".toList
  | .finite mantissa exponent =>
      let digits := Decimal.shortest .even mantissa exponent
      let text :=
        if -5 ≤ digits.lead ∧ digits.lead < 16 then digits.positional true else digits.scientific
      (if Decimal.negative x then ['-'] else []) ++ text.toList

def escape (c : Char) : List Char :=
  if c = '"' ∨ c = '\\' then ['\\', c]
  else if c = '\x08' then ['\\', 'b']
  else if c = '\t' then ['\\', 't']
  else if c = '\n' then ['\\', 'n']
  else if c = '\x0c' then ['\\', 'f']
  else if c = '\r' then ['\\', 'r']
  else if c.toNat < 0x20 then
    '\\' :: 'u' :: '0' :: '0' :: [Nat.digitChar (c.toNat / 16), Nat.digitChar (c.toNat % 16)]
  else [c]

def stringChars (s : String) : List Char := '"' :: s.toList.flatMap escape ++ ['"']

inductive Style where
  | compact | pretty
deriving DecidableEq, Repr

-- What stands before an item or a closing bracket at a depth of nesting.
def Style.break : Style → Nat → List Char
  | .compact, _ => []
  | .pretty, depth => '\n' :: List.replicate (2 * depth) ' '

def Style.colon : Style → List Char
  | .compact => [':']
  | .pretty => [':', ' ']

mutual

def chars (style : Style) (depth : Nat) : Json → List Char
  | .null => "null".toList
  | .bool b => if b then "true".toList else "false".toList
  | .int i => (toString i.toInt).toList
  | .large n => (toString n.toNat).toList
  | .float x => floatChars x
  | .str s => stringChars s
  | .array [] => ['[', ']']
  | .array (item :: rest) =>
      '[' :: style.break (depth + 1) ++ chars style (depth + 1) item ++
        moreItems style (depth + 1) rest ++ style.break depth ++ [']']
  | .object [] => ['\x7b', '\x7d']
  | .object ((name, member) :: rest) =>
      '\x7b' :: style.break (depth + 1) ++ stringChars name ++ style.colon ++
        chars style (depth + 1) member ++ moreMembers style (depth + 1) rest ++
        style.break depth ++ ['\x7d']

def moreItems (style : Style) (depth : Nat) : List Json → List Char
  | [] => []
  | item :: rest => ',' :: style.break depth ++ chars style depth item ++ moreItems style depth rest

def moreMembers (style : Style) (depth : Nat) : List (String × Json) → List Char
  | [] => []
  | (name, member) :: rest =>
      ',' :: style.break depth ++ stringChars name ++ style.colon ++ chars style depth member ++
        moreMembers style depth rest

end

def render (style : Style) (json : Json) : String := String.ofList (chars style 0 json)

end KeywordConfig.Json
