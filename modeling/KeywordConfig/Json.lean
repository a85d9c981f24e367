import KeywordConfig.Value

namespace KeywordConfig

inductive Json where
  | null
  | bool (b : Bool)
  | int (i : Int64)
  -- beyond the largest `int`
  | large (n : UInt64)
  | float (x : Float)
  | str (s : String)
  | array (items : List Json)
  | object (members : List (String × Json))
deriving Inhabited

namespace Json

def floatOfNat (n : Nat) : Float := Float.ofScientific n false 0

mutual

def toValue : Json → Value
  | .null => .null
  | .bool b => .bool b
  | .int i => .int i
  | .large n => .float (floatOfNat n.toNat)
  | .float x => .float x
  | .str s => .str s
  | .array items => .list (toValues items)
  | .object members => .map (Keyed.ofList (toEntries members))

def toValues : List Json → List Value
  | [] => []
  | item :: rest => toValue item :: toValues rest

def toEntries : List (String × Json) → List (String × Value)
  | [] => []
  | (name, member) :: rest => (name, toValue member) :: toEntries rest

end

mutual

def ofValue : Value → Json
  | .null => .null
  | .bool b => .bool b
  | .int i => .int i
  | .float x => .float x
  | .str s => .str s
  | .list items => .array (ofValues items)
  | .map entries => .object (ofEntries entries)

def ofValues : List Value → List Json
  | [] => []
  | item :: rest => ofValue item :: ofValues rest

def ofEntries : List (String × Value) → List (String × Json)
  | [] => []
  | (key, value) :: rest => (key, ofValue value) :: ofEntries rest

end

def sortInto (members : List (String × Json)) (name : String) (member : Json) : List (String × Json) :=
  match members with
  | [] => [(name, member)]
  | (other, old) :: rest =>
      if name = other then (name, member) :: rest
      else if name < other then (name, member) :: (other, old) :: rest
      else (other, old) :: sortInto rest name member

mutual

def sorted : Json → Json
  | .array items => .array (sortedItems items)
  | .object members => .object (sortedMembers [] members)
  | json => json

def sortedItems : List Json → List Json
  | [] => []
  | item :: rest => sorted item :: sortedItems rest

-- Later members replace earlier ones of the same name.
def sortedMembers (done : List (String × Json)) : List (String × Json) → List (String × Json)
  | [] => done
  | (name, member) :: rest => sortedMembers (sortInto done name (sorted member)) rest

end

end Json

end KeywordConfig
