import KeywordConfig.Token
import KeywordConfig.Registry

namespace KeywordConfig

-- What ends the calls of a block.
inductive Closer where
  | brace | word
deriving DecidableEq, Repr

def Closer.text : Closer → String
  | .brace => "`\x7d`"
  | .word => "`end`"

-- What stands in a place where another token was found.
inductive Expected where
  | keyword
  | keywordAfterDot
  | value
  | blockParameter
  | token (t : Token)
  | commaOr (closing : Token)

def Expected.text : Expected → String
  | .keyword => "a keyword"
  | .keywordAfterDot => "a keyword after `.`"
  | .value => "a value"
  | .blockParameter => "a block parameter"
  | .token t => t.text
  | .commaOr closing => s!"`,` or {closing.text}"

inductive Cause where
  -- of the text
  | symbolWithoutName
  | minusWithoutNumber
  | unexpectedCharacter (c : Char)
  | unterminatedString (quote : Char)
  | integerOutOfRange (written : String)
  -- of the order of tokens
  | mismatch (wanted : Expected) (found : Token)
  | unexpectedAfter (found : Token) (keyword : String)
  | unexpectedEnd (closer : Closer)
  | positionalAfterPairs
  | nestingTooDeep
  -- of a call and its surroundings
  | undefinedReceiver (receiver keyword : String)
  | unknownKeyword (keyword : String) (parent : Option String)
  | misplaced (keyword : String) (allowed : List String)
  | blockNotAllowed (keyword : String)
  | wrongArguments (keyword : String) (kind : Kind)
  | rejected (violations : List Violation)
  -- of what the document holds already
  | occupied (keyword : String) (found : Value) (wanted : ValueKind)
  | cannotNest (keyword : String) (found : Option Value)
  | scopeNotMapping (keyword : String)

namespace Cause

def shape : Kind → String
  | .base => "takes any arguments"
  | .map => "takes a mapping (and only a mapping)"
  | .scalar => "takes only one non-mapping option"
  | .scalarPlusMap => "takes a value and an optional mapping"

def typeOf (found : Option Value) : String := (found.map Value.typeName).getD "nothing"

def message : Cause → String
  | .symbolWithoutName => "expected a symbol name after ':'"
  | .minusWithoutNumber => "expected a number after '-'"
  | .unexpectedCharacter c => s!"unexpected character {Quoted.character c}"
  | .unterminatedString quote => s!"unterminated string, no closing {quote} found"
  | .integerOutOfRange written => s!"integer out of range: {written}"
  | .mismatch wanted found => s!"expected {wanted.text}, found {found.text}"
  | .unexpectedAfter found keyword => s!"unexpected {found.text} after `{keyword}`"
  | .unexpectedEnd closer => s!"unexpected end of script, expected {closer.text}"
  | .positionalAfterPairs => "positional argument after `key => value` pairs"
  | .nestingTooDeep => "nesting too deep"
  | .undefinedReceiver receiver keyword => s!"undefined receiver '{receiver}' for '{keyword}'"
  | .unknownKeyword keyword (some parent) => s!"unknown keyword '{keyword}' inside '{parent}'"
  | .unknownKeyword keyword none => s!"unknown keyword '{keyword}'"
  | .misplaced keyword allowed =>
      let parents := " or ".intercalate allowed
      s!"'{keyword}' only allowed inside {parents}"
  | .blockNotAllowed keyword => s!"'{keyword}' is not allowed a block"
  | .wrongArguments keyword kind => s!"'{keyword}' {shape kind}"
  | .rejected violations => Constraint.message violations
  | .occupied keyword found wanted =>
      s!"'{keyword}' already holds a {found.typeName}, expected {wanted.text}"
  | .cannotNest keyword found =>
      s!"'{keyword}' cannot hold nested entries, its value is a {typeOf found}"
  | .scopeNotMapping keyword => s!"'{keyword}' is inside a value that is not a mapping"

end Cause

structure ConfigError where
  cause : Cause
  line : Option Nat

namespace ConfigError

def suffix : Option Nat → String
  | some n => s!" (line {n})"
  | none => ""

def message (e : ConfigError) : String := e.cause.message ++ suffix e.line

end ConfigError

end KeywordConfig
