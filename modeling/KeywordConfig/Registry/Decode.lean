import KeywordConfig.Json.Writer
import KeywordConfig.Quoted
import KeywordConfig.Registry

namespace KeywordConfig

inductive Malformed where
  | wrongType (found : Json) (wanted : String)
  | notOneMember
  | unknownVariant (found : String) (known : List String)
  | unknownMember (found : String) (known : List String)
  | missingMember (name : String)
  | repeatedMember (name : String)
  | wrongLength (found : Nat) (wanted : String)
  | notRule

namespace Malformed

def describe : Json → String
  | .null => "null"
  | .bool b => if b then "boolean `true`" else "boolean `false`"
  | .int i => s!"integer `{i.toInt}`"
  | .large n => s!"integer `{n.toNat}`"
  | .float x =>
      let text := String.ofList (Json.floatChars x)
      s!"floating point `{text}`"
  | .str s => "string " ++ Quoted.string s
  | .array _ => "sequence"
  | .object _ => "map"

def oneOf (known : List String) : String :=
  "one of " ++ ", ".intercalate (known.map fun name => s!"`{name}`")

def message : Malformed → String
  | .wrongType found wanted => s!"invalid type: {describe found}, expected {wanted}"
  | .notOneMember => "invalid value: map, expected map with a single key"
  | .unknownVariant found known => s!"unknown variant `{found}`, expected {oneOf known}"
  | .unknownMember found known => s!"unknown field `{found}`, expected {oneOf known}"
  | .missingMember name => s!"missing field `{name}`"
  | .repeatedMember name => s!"duplicate field `{name}`"
  | .wrongLength found wanted => s!"invalid length {found}, expected {wanted}"
  | .notRule => "data did not match any variant of untagged enum RawRule"

end Malformed

namespace Decode

abbrev Decoder (α : Type) := Json → Except Malformed α

def bool : Decoder Bool
  | .bool b => .ok b
  | json => .error (.wrongType json "a boolean")

def string : Decoder String
  | .str s => .ok s
  | json => .error (.wrongType json "a string")

def value : Decoder Value := fun json => .ok json.toValue

def list (item : Decoder α) : Decoder (List α)
  | .array items => items.mapM item
  | json => .error (.wrongType json "a sequence")

def nullable (decode : Decoder α) : Decoder (Option α)
  | .null => .ok none
  | json => (decode json).map some

-- A constant, by its name alone or as an object that gives the name `null`. The name comes first.
def variant (known : Keyed α) : Decoder α
  | .str name => named name
  | .object [(name, content)] =>
      match named name, content with
      | .ok a, .null => .ok a
      | .ok _, other => .error (.wrongType other "unit")
      | .error why, _ => .error why
  | .object _ => .error .notOneMember
  | json => .error (.wrongType json "string or map")
where
  named (name : String) : Except Malformed α :=
    match Keyed.get? known name with
    | some a => .ok a
    | none => .error (.unknownVariant name (Keyed.keys known))

structure Member (σ : Type) where
  name : String
  change : Decoder (σ → σ)

def member (name : String) (decode : Decoder α) (set : α → σ → σ) : Member σ :=
  ⟨name, fun json => (decode json).map set⟩

-- A record from an object, behind the members `seen`. A member of a name that was there is refused unread.
def ofMembers (known : List (Member σ)) (record : σ) (seen : List String) :
    List (String × Json) → Except Malformed σ
  | [] => .ok record
  | (name, json) :: rest =>
      match known.find? (·.name == name) with
      | none => .error (.unknownMember name (known.map Member.name))
      | some m =>
          if seen.contains name then .error (.repeatedMember name)
          else
            match m.change json with
            | .ok change => ofMembers known (change record) (name :: seen) rest
            | .error why => .error why

-- A record from the values of its first members. Members behind them are left as they are.
def ofItems (known : List (Member σ)) (record : σ) (length : Nat) : List Json → Except Malformed σ
  | [] => .ok record
  | json :: rest =>
      match known with
      | [] => .error (.wrongLength length "fewer elements in array")
      | m :: later =>
          match m.change json with
          | .ok change => ofItems later (change record) length rest
          | .error why => .error why

def record (what : String) (known : List (Member σ)) (start : σ) : Decoder σ
  | .object members => ofMembers known start [] members
  | .array items => ofItems known start items.length items
  | json => .error (.wrongType json what)

def valueKinds : Keyed ValueKind :=
  [("string", .string), ("integer", .integer), ("float", .float), ("number", .number),
    ("boolean", .boolean), ("list", .list), ("map", .map)]

def kinds : Keyed Kind :=
  [("base", .base), ("map", .map), ("scalar", .scalar), ("scalar_plus_map", .scalarPlusMap)]

def ruleMembers : List (Member Rule) :=
  [member "name" string fun name r => { r with name },
    member "one_of" (nullable (list value)) fun oneOf r => { r with oneOf },
    member "kind" (nullable (variant valueKinds)) fun kind r => { r with kind }]

-- Whatever is wrong with a rule, it is no rule.
def rule : Decoder Rule
  | .str name => .ok { name }
  | .object members =>
      match Keyed.get? members "name" with
      | some (.str name) =>
          let known := members.filter fun entry => (ruleMembers.map Member.name).contains entry.1
          (ofMembers ruleMembers { name } [] known).mapError fun _ => .notRule
      | _ => .error .notRule
  | _ => .error .notRule

def constraintMembers : List (Member Constraint) :=
  [member "required" (list rule) fun required c => { c with required },
    member "optional" (list rule) fun optional c => { c with optional },
    member "one_of" (nullable (list value)) fun oneOf c => { c with oneOf },
    member "kind" (nullable (variant valueKinds)) fun kind c => { c with kind }]

def constraint : Decoder Constraint := record "struct Constraint" constraintMembers {}

-- A declaration of which the kind may not be known yet.
structure Draft extends Options where
  kind : Option Kind := none

def declarationMembers : List (Member Draft) :=
  [member "kind" (variant kinds) fun kind d => { d with kind := some kind },
    member "allow_block" bool fun allowBlock d => { d with allowBlock },
    member "cumulative" bool fun cumulative d => { d with cumulative },
    member "nested" bool fun nested d => { d with nested },
    member "require_parent" (list string) fun requireParent d => { d with requireParent },
    member "validate" (nullable constraint) fun validate d => { d with validate }]

-- An array without a kind is empty.
def kindless : Json → Malformed
  | .array _ => .wrongLength 0 "struct RawSpec with 6 elements"
  | _ => .missingMember "kind"

def declaration : Decoder Declaration := fun json =>
  match record "struct RawSpec" declarationMembers {} json with
  | .error why => .error why
  | .ok draft =>
      match draft.kind with
      | some kind => .ok { toOptions := draft.toOptions, kind }
      | none => .error (kindless json)

end Decode

end KeywordConfig
