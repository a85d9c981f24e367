import KeywordConfig.Call
import KeywordConfig.Token.Stream

namespace KeywordConfig

-- A list of calls that is being read; the calls stand last first.
inductive Body where
  | script (calls : List Call)
  | block (closer : Closer) (param : Option String) (calls : List Call)
      (around : Body) (head : Head) (args : List Value)

namespace Body

def depth : Body → Nat
  | .script _ => 0
  | .block _ _ _ around _ _ => around.depth + 1

def push (call : Call) : Body → Body
  | .script calls => .script (call :: calls)
  | .block closer param calls around head args =>
      .block closer param (call :: calls) around head args

end Body

-- A block that has been opened behind the arguments of a call, without any of its calls.
structure Opening where
  closer : Closer
  around : Body
  head : Head
  args : List Value

def Opening.body (o : Opening) (param : Option String) : Body :=
  .block o.closer param [] o.around o.head o.args

-- The arguments of a call that are being read, last first, and the named ones among them.
structure Arguments where
  body : Body
  head : Head
  parens : Bool
  values : List Value := []
  pairs : Mapping := []

-- Named arguments make up one mapping, which comes last.
def Arguments.all (a : Arguments) : List Value :=
  a.values.reverse ++ (if a.pairs.isEmpty then [] else [.map a.pairs])

-- Where a value goes.
inductive Hole where
  | argument (a : Arguments) (line : Nat)
  | pair (a : Arguments) (key : String)
  | item (items : List Value) (around : Hole)
  | key (entries : Mapping) (around : Hole)
  | entry (entries : Mapping) (key : String) (around : Hole)

def Hole.depth : Hole → Nat
  | .argument a _ => a.body.depth
  | .pair a _ => a.body.depth
  | .item _ around => around.depth + 1
  | .key _ around => around.depth + 1
  | .entry _ _ around => around.depth + 1

-- What may come next.
inductive Place where
  -- a call, or what closes the body
  | statement (body : Body)
  -- the end of a statement, or what closes the body
  | separator (body : Body) (keyword : String)
  -- behind the first name of a call, which is its keyword unless a dot follows
  | name (body : Body) (head : Head)
  | dot (body : Body) (receiver : String) (line : Nat)
  -- arguments, a block, or the end of the call
  | keyword (body : Body) (head : Head)
  -- a block, or the end of the call
  | arguments (body : Body) (head : Head) (args : List Value)
  -- the parameter of a block between its pipes
  | blockStart (o : Opening)
  | blockParam (o : Opening)
  | blockPipe (o : Opening) (param : String)
  -- behind an opening parenthesis
  | firstArgument (a : Arguments)
  | argument (a : Arguments)
  -- behind an argument that names a key if an arrow follows
  | positional (a : Arguments) (value : Value) (line : Nat)
  | afterArgument (a : Arguments)
  | value (hole : Hole)
  | item (items : List Value) (around : Hole)
  | afterItem (items : List Value) (around : Hole)
  | key (entries : Mapping) (around : Hole)
  | afterKey (entries : Mapping) (key : String) (around : Hole)
  | entry (entries : Mapping) (key : String) (around : Hole)
  | afterEntry (entries : Mapping) (around : Hole)

inductive Progress where
  | next (place : Place)
  | finished (calls : List Call)

namespace Script

def maxNesting : Nat := 256

abbrev Step := Except ConfigError Progress

def fail (cause : Cause) (line : Nat) : Step := .error ⟨cause, some line⟩

def mismatch (wanted : Expected) (t : Located) : Step := fail (.mismatch wanted t.token) t.line

def goto (place : Place) : Step := .ok (.next place)

-- Opens one more construct inside `depth` others.
def enter (limit : Option Nat) (depth line : Nat) (place : Place) : Step :=
  if limit.any (· ≤ depth) then fail .nestingTooDeep line else goto place

def fill : Hole → Value → Place
  | .argument a line, value => .positional a value line
  | .pair a key, value => .afterArgument { a with pairs := Keyed.insert a.pairs key value }
  | .item items around, value => .afterItem (value :: items) around
  | .key entries around, value => .afterKey entries value.text around
  | .entry entries key around, value => .afterEntry (Keyed.insert entries key value) around

def closes : Closer → Token → Bool
  | .brace, .rightBrace => true
  | .word, .ident name => name == "end"
  | _, _ => false

-- The body is complete: it becomes the block of its call, and the call is complete.
def close : Body → Progress
  | .script calls => .finished calls.reverse
  | .block _ param calls around head args =>
      .next (.separator (around.push (.block head args param calls.reverse)) head.keyword)

def closedBy : Body → Token → Bool
  | .script _, .endOfScript => true
  | .script _, _ => false
  | .block closer _ _ _ _ _, token => closes closer token

def atStatement (body : Body) (t : Located) : Step :=
  if closedBy body t.token then .ok (close body)
  else
    match t.token, body with
    | .newline, _ => goto (.statement body)
    | .semicolon, _ => goto (.statement body)
    | .endOfScript, .block closer _ _ _ _ _ => fail (.unexpectedEnd closer) t.line
    | .ident name, _ =>
        if name = "end" ∨ name = "do" then mismatch .keyword t
        else goto (.name body { keyword := name, line := t.line })
    | _, _ => mismatch .keyword t

def atSeparator (body : Body) (keyword : String) (t : Located) : Step :=
  if closedBy body t.token then .ok (close body)
  else
    match t.token with
    | .newline => goto (.statement body)
    | .semicolon => goto (.statement body)
    | found => fail (.unexpectedAfter found keyword) t.line

def blockCloser? : Token → Option Closer
  | .leftBrace => some .brace
  | .ident name => if name = "do" then some .word else none
  | _ => none

-- Behind the arguments: a block opens, or `call` has none and is complete.
def atBlock (limit : Option Nat) (body : Body) (head : Head) (args : List Value) (call : Call)
    (t : Located) : Step :=
  match blockCloser? t.token with
  | some closer =>
      enter limit body.depth t.line (.blockStart { closer, around := body, head, args })
  | none => atSeparator (body.push call) head.keyword t

def literal? : Token → Option Value
  | .str text => some (.str text)
  | .symbol name => some (.str name)
  | .int i => some (.int i)
  | .float x => some (.float x)
  | .ident name =>
      some (if name = "true" then .bool true else if name = "false" then .bool false
        else if name = "nil" then .null else .str name)
  | _ => none

def atValue (limit : Option Nat) (hole : Hole) (t : Located) : Step :=
  match literal? t.token with
  | some value => goto (fill hole value)
  | none =>
      match t.token with
      | .leftBracket => enter limit hole.depth t.line (.item [] hole)
      | .leftBrace => enter limit hole.depth t.line (.key [] hole)
      | _ => mismatch .value t

def atArgument (limit : Option Nat) (a : Arguments) (t : Located) : Step :=
  match t.token with
  | .newline => goto (.argument a)
  | .label key => goto (.value (.pair a key))
  | _ => atValue limit (.argument a t.line) t

def atAfterArgument (limit : Option Nat) (a : Arguments) (t : Located) : Step :=
  match t.token with
  | .comma => goto (.argument a)
  | _ =>
      if a.parens then
        match t.token with
        | .newline => goto (.afterArgument a)
        | .rightParen => goto (.arguments a.body a.head a.all)
        | _ => mismatch (.token .rightParen) t
      else atBlock limit a.body a.head a.all (.plain a.head a.all) t

-- What may open an argument list without parentheses: a brace opens a block there.
def startsArgument : Token → Bool
  | .str _ => true
  | .int _ => true
  | .float _ => true
  | .symbol _ => true
  | .label _ => true
  | .leftBracket => true
  | .ident name => name ≠ "do" ∧ name ≠ "end"
  | _ => false

def atKeyword (limit : Option Nat) (body : Body) (head : Head) (t : Located) : Step :=
  match t.token with
  | .leftParen => goto (.firstArgument { body, head, parens := true })
  | token =>
      if startsArgument token then atArgument limit { body, head, parens := false } t
      else atBlock limit body head [] (.bare head) t

def step (limit : Option Nat) (place : Place) (t : Located) : Step :=
  match place with
  | .statement body => atStatement body t
  | .separator body keyword => atSeparator body keyword t
  | .name body head =>
      match t.token with
      | .dot => goto (.dot body head.keyword head.line)
      | _ => atKeyword limit body head t
  | .dot body receiver line =>
      match t.token with
      | .ident keyword => goto (.keyword body { keyword, receiver, line })
      | _ => mismatch .keywordAfterDot t
  | .keyword body head => atKeyword limit body head t
  | .arguments body head args => atBlock limit body head args (.plain head args) t
  | .blockStart o =>
      match t.token with
      | .pipe => goto (.blockParam o)
      | _ => atStatement (o.body none) t
  | .blockParam o =>
      match t.token with
      | .ident name => goto (.blockPipe o name)
      | _ => mismatch .blockParameter t
  | .blockPipe o param =>
      match t.token with
      | .pipe => goto (.statement (o.body param))
      | _ => mismatch (.token .pipe) t
  | .firstArgument a =>
      match t.token with
      | .newline => goto (.firstArgument a)
      | .rightParen => goto (.arguments a.body a.head [])
      | _ => atArgument limit a t
  | .argument a => atArgument limit a t
  | .positional a value line =>
      match t.token with
      | .arrow => goto (.value (.pair a value.text))
      | _ =>
          if a.pairs.isEmpty then atAfterArgument limit { a with values := value :: a.values } t
          else fail .positionalAfterPairs line
  | .afterArgument a => atAfterArgument limit a t
  | .value hole => atValue limit hole t
  | .item items around =>
      match t.token with
      | .newline => goto (.item items around)
      | .rightBracket => goto (fill around (.list items.reverse))
      | _ => atValue limit (.item items around) t
  | .afterItem items around =>
      match t.token with
      | .newline => goto (.afterItem items around)
      | .comma => goto (.item items around)
      | .rightBracket => goto (fill around (.list items.reverse))
      | _ => mismatch (.commaOr .rightBracket) t
  | .key entries around =>
      match t.token with
      | .newline => goto (.key entries around)
      | .rightBrace => goto (fill around (.map entries))
      | .label key => goto (.entry entries key around)
      | _ => atValue limit (.key entries around) t
  | .afterKey entries key around =>
      match t.token with
      | .arrow => goto (.entry entries key around)
      | _ => mismatch (.token .arrow) t
  | .entry entries key around =>
      match t.token with
      | .newline => goto (.entry entries key around)
      | _ => atValue limit (.entry entries key around) t
  | .afterEntry entries around =>
      match t.token with
      | .newline => goto (.afterEntry entries around)
      | .comma => goto (.key entries around)
      | .rightBrace => goto (fill around (.map entries))
      | _ => mismatch (.commaOr .rightBrace) t

-- The end of the script is the last token that is read.
def Ends : Step → Prop
  | .ok (.next _) => False
  | _ => True

theorem close_ends (body : Body) (closed : closedBy body .endOfScript) : Ends (.ok (close body)) := by
  cases body with
  | script => trivial
  | block closer => cases closer <;> cases closed

theorem atSeparator_ends (body : Body) (keyword : String) (line : Nat) :
    Ends (atSeparator body keyword ⟨.endOfScript, line⟩) := by
  unfold atSeparator
  split
  · rename_i closed; exact close_ends body closed
  · trivial

theorem atStatement_ends (body : Body) (line : Nat) : Ends (atStatement body ⟨.endOfScript, line⟩) := by
  unfold atStatement
  split
  · rename_i closed; exact close_ends body closed
  · cases body <;> trivial

theorem atAfterArgument_ends (limit : Option Nat) (a : Arguments) (line : Nat) :
    Ends (atAfterArgument limit a ⟨.endOfScript, line⟩) := by
  cases parens : a.parens
  · simp only [atAfterArgument, parens]
    exact atSeparator_ends _ _ _
  · simp [atAfterArgument, parens, mismatch, fail, Ends]

theorem step_ends (limit : Option Nat) (place : Place) (line : Nat) :
    Ends (step limit place ⟨.endOfScript, line⟩) := by
  cases place with
  | statement => exact atStatement_ends _ _
  | separator => exact atSeparator_ends _ _ _
  | name => exact atSeparator_ends _ _ _
  | keyword => exact atSeparator_ends _ _ _
  | arguments => exact atSeparator_ends _ _ _
  | blockStart => exact atStatement_ends _ _
  | positional a value start =>
      simp only [step]
      split
      · exact atAfterArgument_ends _ _ _
      · trivial
  | afterArgument => exact atAfterArgument_ends _ _ _
  | _ => trivial

-- What `step` makes of the end of the script.
def finish (limit : Option Nat) (place : Place) (line : Nat) : Except ConfigError (List Call) :=
  match ended : step limit place ⟨.endOfScript, line⟩ with
  | .error e => .error e
  | .ok (.finished calls) => .ok calls
  | .ok (.next _) => absurd (step_ends limit place line) (by rw [ended]; exact id)

-- Reads items until the script is finished or an error is met. `line` is the line of the item
-- before; items that stop short of the end of the script are taken to end there.
def run (limit : Option Nat) (place : Place) (line : Nat) : List Token.Item → Except ConfigError (List Call)
  | [] => finish limit place line
  | .error e :: _ => .error e
  | .ok t :: rest =>
      match step limit place t with
      | .error e => .error e
      | .ok (.finished calls) => .ok calls
      | .ok (.next place) => run limit place t.line rest

def parseWithin (limit : Option Nat) (text : String) : Except ConfigError (List Call) :=
  run limit (.statement (.script [])) 1 (Token.items text)

def parse (text : String) : Except ConfigError (List Call) := parseWithin (some maxNesting) text

end Script

end KeywordConfig
