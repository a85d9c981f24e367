import KeywordConfig.Decimal
import KeywordConfig.Quoted

namespace KeywordConfig

inductive Token where
  | ident (name : String)
  -- a name with a colon after it, which names the value that follows
  | label (name : String)
  -- a name with a colon before it, which is text without quotes
  | symbol (name : String)
  | str (text : String)
  | int (i : Int64)
  | float (x : Float)
  | leftParen | rightParen
  | leftBrace | rightBrace
  | leftBracket | rightBracket
  | comma | dot | pipe | arrow | semicolon
  | newline
  | endOfScript

namespace Token

-- The fewest digits that read back, positionally and without a zero after the point.
def floatText (x : Float) : String :=
  Decimal.floatText x fun mantissa exponent =>
    (Decimal.shortest .up mantissa exponent).positional false

def text : Token → String
  | .ident name => s!"`{name}`"
  | .label name => s!"`{name}:`"
  | .symbol name => s!"`:{name}`"
  | .str s => "string " ++ Quoted.string s
  | .int i => s!"`{i.toInt}`"
  | .float x => s!"`{floatText x}`"
  | .leftParen => "`(`"
  | .rightParen => "`)`"
  | .leftBrace => "`\x7b`"
  | .rightBrace => "`\x7d`"
  | .leftBracket => "`[`"
  | .rightBracket => "`]`"
  | .comma => "`,`"
  | .dot => "`.`"
  | .pipe => "`|`"
  | .arrow => "`=>`"
  | .semicolon => "`;`"
  | .newline => "end of line"
  | .endOfScript => "end of script"

end Token

-- A token and the line on which it begins, counted from one.
structure Located where
  token : Token
  line : Nat

end KeywordConfig
