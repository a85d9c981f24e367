import KeywordConfig.Value

namespace KeywordConfig

inductive ValueKind where
  | string | integer | float | number | boolean | list | map
deriving DecidableEq, Repr

namespace ValueKind

def accepts : ValueKind → Value → Bool
  | .string, .str _ => true
  | .integer, .int _ => true
  | .float, .float _ => true
  | .number, .int _ => true
  | .number, .float _ => true
  | .boolean, .bool _ => true
  | .list, .list _ => true
  | .map, .map _ => true
  | _, _ => false

def text : ValueKind → String
  | .string => "a string"
  | .integer => "an integer"
  | .float => "a float"
  | .number => "a number"
  | .boolean => "a boolean"
  | .list => "a list"
  | .map => "a mapping"

end ValueKind

-- One option of a mapping, with what its value may be.
structure Rule where
  name : String
  oneOf : Option (List Value) := none
  kind : Option ValueKind := none

structure Predicate where
  description : String
  test : Value → Bool

structure Constraint where
  required : List Rule := []
  optional : List Rule := []
  oneOf : Option (List Value) := none
  kind : Option ValueKind := none
  predicate : Option Predicate := none

-- What a restriction is about: a whole value or one of its options.
inductive Target where
  | value (field : String)
  | option (name field : String)

def Target.text : Target → String
  | .value field => s!"'{field}'"
  | .option name field => s!"`{name}` of '{field}'"

inductive Violation where
  | notOptions (field : String) (found : Value)
  | missing (option field : String)
  | unknown (key field : String) (valid : List String)
  | wrongKind (target : Target) (found : Value) (expected : ValueKind)
  | notListed (target : Target) (found : Value) (allowed : List Value)
  | refused (target : Target) (found : Value) (expected : String)

namespace Violation

def notValid (found : Value) (target : Target) (expected : String) : String :=
  s!"`{found.text}` is not a valid value for {target.text}; expected {expected}"

def message : Violation → String
  | .notOptions field found => s!"'{field}' expects a mapping of options, got {found.typeName}"
  | .missing option field => s!"option `{option}` is required for '{field}'"
  | .unknown key field valid =>
      let names := ", ".intercalate valid
      s!"`{key}` is not a valid option for '{field}'; valid options are: {names}"
  | .wrongKind target found expected =>
      notValid found target s!"{expected.text}, got {found.typeName}"
  | .notListed target found allowed =>
      let texts := ", ".intercalate (allowed.map Value.text)
      notValid found target s!"one of: {texts}"
  | .refused target found expected => notValid found target expected

end Violation

-- A value of the wrong kind is not also compared with the allowed values.
def restriction (target : Target) (value : Value) (kind : Option ValueKind)
    (oneOf : Option (List Value)) : Option Violation :=
  match kind.filter (fun expected => !expected.accepts value) with
  | some expected => some (.wrongKind target value expected)
  | none =>
      match oneOf.filter (fun allowed => !allowed.any (fun one => one.same value)) with
      | some allowed => some (.notListed target value allowed)
      | none => none

namespace Constraint

def rules (c : Constraint) : List Rule := c.required ++ c.optional

-- The first rule of a name holds.
def rule? (c : Constraint) (name : String) : Option Rule := c.rules.find? (·.name == name)

def missing (c : Constraint) (field : String) (options : Mapping) : List Violation :=
  (c.required.filter (fun rule => !Keyed.has options rule.name)).map
    fun rule => .missing rule.name field

def optionViolation (c : Constraint) (field : String) (option : String × Value) : Option Violation :=
  match c.rule? option.1 with
  | some rule => restriction (.option rule.name field) option.2 rule.kind rule.oneOf
  | none => some (.unknown option.1 field (c.rules.map Rule.name))

-- Naming any option makes the value a mapping of options.
def optionViolations (c : Constraint) (field : String) (value : Value) : List Violation :=
  if c.rules.isEmpty then []
  else
    match value with
    | .map options => c.missing field options ++ options.filterMap (c.optionViolation field)
    | other => [.notOptions field other]

def predicateViolation (c : Constraint) (field : String) (value : Value) : Option Violation :=
  (c.predicate.filter (fun predicate => !predicate.test value)).map
    fun predicate => .refused (.value field) value predicate.description

def violations (c : Constraint) (field : String) (value : Value) : List Violation :=
  c.optionViolations field value ++
    (restriction (.value field) value c.kind c.oneOf).toList ++
    (c.predicateViolation field value).toList

def accepts (c : Constraint) (field : String) (value : Value) : Bool :=
  (c.violations field value).isEmpty

def message (violations : List Violation) : String :=
  ", ".intercalate (violations.map Violation.message)

end Constraint

end KeywordConfig
