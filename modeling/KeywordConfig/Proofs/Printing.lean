import KeywordConfig.Proofs.Grammar
import KeywordConfig.Proofs.Lexemes
import KeywordConfig.Proofs.Relining

namespace KeywordConfig

inductive Quote where
  | single | double

def Quote.char : Quote → Char
  | .single => '\''
  | .double => '"'

inductive Separator where
  | newline | semicolon

def Separator.char : Separator → Char
  | .newline => '\n'
  | .semicolon => ';'

structure Separation where
  first : Separator
  others : List Separator := []

def Separation.text (s : Separation) : List Char := (s.first :: s.others).map Separator.char

-- What is open at one position.
structure Choice where
  quote : Quote
  closer : Closer
  between : Separation

-- Positions are reached by halves: a row has its first part in front and the others behind, and a
-- call has its arguments in front and its block behind. So no two choices of a kind share a position.
abbrev Style := List Bool → Choice

namespace Style

def here (style : Style) : Choice := style []

def front (style : Style) : Style := fun way => style (false :: way)

def back (style : Style) : Style := fun way => style (true :: way)

end Style

namespace Printer
open Grammar

def escape (quote c : Char) : List Char := if c = quote ∨ c = '\\' then ['\\', c] else [c]

def quoted (quote : Quote) (text : String) : List Char :=
  quote.char :: (text.toList.flatMap (escape quote.char) ++ [quote.char])

def intText (i : Int64) : List Char := Token.sign (i.toInt < 0) ++ Nat.toDigits 10 i.toInt.natAbs

def commas (texts : List (List Char)) : List Char := [',', ' '].intercalate texts

def pair (quote : Quote) (key : String) (value : List Char) : List Char :=
  quoted quote key ++ (" => ".toList ++ value)

mutual

def valueText (style : Style) : Value → List Char
  | .null => "nil".toList
  | .bool b => if b then "true".toList else "false".toList
  | .int i => intText i
  | .float x => (Value.floatText x).toList
  | .str text => quoted style.here.quote text
  | .list items => '[' :: (commas (itemTexts style items) ++ [']'])
  | .map entries => '\x7b' :: ' ' :: (commas (entryTexts style entries) ++ [' ', '\x7d'])

def itemTexts (style : Style) : List Value → List (List Char)
  | [] => []
  | item :: rest => valueText style.front item :: itemTexts style.back rest

def entryTexts (style : Style) : List (String × Value) → List (List Char)
  | [] => []
  | (key, value) :: rest =>
      pair style.here.quote key (valueText style.front value) :: entryTexts style.back rest

end

-- A mapping that comes last is written as named arguments, if it has entries.
def arguments : List Value → List Argument
  | [] => []
  | [.map (entry :: entries)] => (entry :: entries).map fun e => .named e.1 e.2
  | value :: rest => .positional value :: arguments rest

def argumentText (style : Style) : Argument → List Char
  | .positional value => valueText style.front value
  | .named key value => pair style.here.quote key (valueText style.front value)

def argumentTexts (style : Style) : List Argument → List (List Char)
  | [] => []
  | argument :: rest => argumentText style argument :: argumentTexts style.back rest

def argumentList (style : Style) (args : List Value) : List Char :=
  '(' :: (commas (argumentTexts style (arguments args)) ++ [')'])

def headText (head : Head) : List Char :=
  match head.receiver with
  | none => head.keyword.toList
  | some receiver => receiver.toList ++ '.' :: head.keyword.toList

def opening : Closer → List Char
  | .brace => ['\x7b']
  | .word => "do".toList

def closing : Closer → List Char
  | .brace => ['\x7d']
  | .word => "end".toList

def paramText : Option String → List Char
  | none => []
  | some name => ' ' :: '|' :: (name.toList ++ ['|'])

-- A call with a block, up to the calls of the block.
def blockFront (style : Style) (head : Head) (args : List Value) (param : Option String) : List Char :=
  headText head ++ (argumentList style.front args ++ ' ' :: (opening style.here.closer ++ paramText param))

mutual

def callText (style : Style) : Call → List Char
  | .bare head => headText head
  | .plain head args => headText head ++ argumentList style.front args
  | .block head args param body =>
      blockFront style head args param ++ ' ' :: (bodyText style.back body ++ ' ' :: closing style.here.closer)

def bodyText (style : Style) : List Call → List Char
  | [] => []
  | [call] => callText style.front call
  | call :: rest => callText style.front call ++ (style.here.between.text ++ bodyText style.back rest)

end

end Printer

def Script.print (style : Style) (calls : List Call) : String := String.ofList (Printer.bodyText style calls)

namespace Value

mutual

def nesting : Value → Nat
  | .list items => itemsNesting items + 1
  | .map entries => entriesNesting entries + 1
  | _ => 0

def itemsNesting : List Value → Nat
  | [] => 0
  | item :: rest => max item.nesting (itemsNesting rest)

def entriesNesting : List (String × Value) → Nat
  | [] => 0
  | (_, value) :: rest => max value.nesting (entriesNesting rest)

end

-- Without a float. As everywhere, no mapping holds a key twice.
inductive Printable : Value → Prop where
  | null : Printable .null
  | bool : Printable (.bool b)
  | int : Printable (.int i)
  | str : Printable (.str s)
  | list : (∀ item ∈ items, Printable item) → Printable (.list items)
  | map {entries : List (String × Value)} : Keyed.Distinct entries → (∀ entry ∈ entries, Printable entry.2) →
      Printable (.map entries)

end Value

namespace Grammar.Argument

def value : Argument → Value
  | .positional value => value
  | .named _ value => value

-- Named arguments are not a mapping in the text of a call.
def nesting (arguments : List Argument) : Nat := (arguments.map fun a => a.value.nesting).foldr max 0

end Grammar.Argument

-- The names of a head are those of the lexer, and the first of them neither opens nor closes a block.
structure Head.Printable (head : Head) : Prop where
  keyword : Token.IsName head.keyword.toList
  receiver : ∀ name ∈ head.receiver, Token.IsName name.toList
  first : head.receiver.getD head.keyword ∉ ["do", "end"]

namespace Call

inductive Printable : Call → Prop where
  | bare {head : Head} : head.Printable → Printable (.bare head)
  | plain {head : Head} {args : List Value} : head.Printable → (∀ arg ∈ args, arg.Printable) →
      Printable (.plain head args)
  | block {head : Head} {args : List Value} : head.Printable → (∀ arg ∈ args, arg.Printable) →
      (∀ name ∈ param, Token.IsName name.toList) → (∀ call ∈ body, Printable call) →
      Printable (.block head args param body)

mutual

def nesting : Call → Nat
  | .bare _ => 0
  | .plain _ args => Grammar.Argument.nesting (Printer.arguments args)
  | .block _ args _ body => max (Grammar.Argument.nesting (Printer.arguments args)) (nestingAll body + 1)

def nestingAll : List Call → Nat
  | [] => 0
  | call :: rest => max call.nesting (nestingAll rest)

end

open Printer

mutual

-- On the line on which the call is written, if its text begins on `line`.
def printed (style : Style) (line : Nat) : Call → Call
  | .bare head => .bare { head with line }
  | .plain head args => .plain { head with line } args
  | .block head args param body =>
      .block { head with line } args param
        (printedAll style.back (line + (blockFront style head args param).count '\n') body)

def printedAll (style : Style) (line : Nat) : List Call → List Call
  | [] => []
  | call :: rest =>
      call.printed style.front line ::
        printedAll style.back (line + (callText style.front call ++ style.here.between.text).count '\n') rest

end

mutual

theorem printed_relined (style : Style) (line : Nat) :
    (call : Call) → (call.printed style line).relined (fun _ => 0) = call.relined fun _ => 0
  | .bare _ => rfl
  | .plain _ _ => rfl
  | .block _ _ _ body => by
      simp only [printed, relined, printedAll_relined _ _ body]
      rfl

theorem printedAll_relined (style : Style) (line : Nat) :
    (calls : List Call) → relinedAll (fun _ => 0) (printedAll style line calls) = relinedAll (fun _ => 0) calls
  | [] => rfl
  | call :: rest => by simp only [printedAll, relinedAll, printed_relined _ _ call, printedAll_relined _ _ rest]

end

end Call

end KeywordConfig
