import KeywordConfig.Json.Reader
import KeywordConfig.Registry.Decode

namespace KeywordConfig

inductive LoadError where
  | notJson
  | notObject
  | malformed (keyword : String) (why : Malformed)

namespace LoadError

def message : LoadError → String
  | .notJson => "registry is not valid JSON"
  | .notObject => "registry must be a JSON object of keyword declarations"
  | .malformed keyword _ => s!"invalid declaration for keyword `{keyword}`"

-- The message and what lies behind it. `complaint` is what the reader of JSON texts says of the text.
def causes (complaint : String) : LoadError → List String
  | .notJson => [message .notJson, complaint]
  | .notObject => [message .notObject]
  | .malformed keyword why => [message (.malformed keyword why), why.message]

end LoadError

namespace Registry

def ofMembers (r : Registry) : List (String × Json) → Except LoadError Registry
  | [] => .ok r
  | (keyword, json) :: rest =>
      match Decode.declaration json with
      | .ok declaration => ofMembers (r.insert keyword declaration) rest
      | .error why => .error (.malformed keyword why)

def ofJson : Json → Except LoadError Registry
  | .object members => ofMembers {} members
  | _ => .error .notObject

def ofText (text : String) : Except LoadError Registry :=
  match Json.parse text with
  | some json => ofJson json
  | none => .error .notJson

def load (text : String) : Except LoadError Registry :=
  match Json.parse text with
  | some json => ofJson json.sorted
  | none => .error .notJson

end Registry

end KeywordConfig
