import KeywordConfig.Value

namespace KeywordConfig

-- The names of a call and the line of the first of them. A receiver stands before a dot and names
-- the parameter of the block around the call.
structure Head where
  keyword : String
  receiver : Option String := none
  line : Nat
deriving DecidableEq, Repr

-- A lone name is kept apart from a call with an empty argument list.
inductive Call where
  | bare (head : Head)
  | plain (head : Head) (args : List Value)
  | block (head : Head) (args : List Value) (param : Option String) (body : List Call)

structure Block where
  param : Option String
  body : List Call

namespace Call

def head : Call → Head
  | .bare head => head
  | .plain head _ => head
  | .block head _ _ _ => head

def keyword (call : Call) : String := call.head.keyword

def args : Call → List Value
  | .bare _ => []
  | .plain _ args => args
  | .block _ args _ _ => args

def block? : Call → Option Block
  | .bare _ => none
  | .plain _ _ => none
  | .block _ _ param body => some ⟨param, body⟩

def isBare : Call → Bool
  | .bare _ => true
  | _ => false

end Call

end KeywordConfig
