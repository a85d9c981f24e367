import KeywordConfig.Document
import KeywordConfig.Script

namespace KeywordConfig

abbrev Evaluation := ExceptT ConfigError (StateM Document)

structure Frame where
  parents : List String := []
  scope : Slot := []
  receiver : Option String := none

-- The arguments of a call, once they have the shape that its keyword takes.
inductive Content where
  | nothing
  | mapping (entries : Mapping)
  | scalar (value : Value)
  | keyed (value : Value) (entries : Mapping)

namespace Content

def ofArgs : Kind → List Value → Option Content
  | .base, _ => some .nothing
  | .map, [.map entries] => some (.mapping entries)
  | .scalar, [value] => if value.isMap then none else some (.scalar value)
  | .scalarPlusMap, [value] => if value.isMap then none else some (.keyed value [])
  | .scalarPlusMap, [value, .map entries] => if value.isMap then none else some (.keyed value entries)
  | _, _ => none

-- What the constraint of the keyword is about.
def checked : Content → Option Value
  | .nothing => none
  | .mapping entries => some (.map entries)
  | .scalar value => some value
  | .keyed _ entries => some (.map entries)

-- A value that is in the way, and what stands there otherwise.
structure Obstacle where
  found : Value
  wanted : ValueKind

def mergeInto (entries : Mapping) : Value → Except Obstacle Unit × Value
  | .map old => (.ok (), .map (Keyed.merge old entries))
  | other => (.error ⟨other, .map⟩, other)

def append (value : Value) (entries : Mapping) : Value → Except Obstacle Nat × Value
  | .list items => (.ok items.length, .list (items ++ [.list [.str value.text, .map entries]]))
  | other => (.error ⟨other, .list⟩, other)

def mergeUnder (value : Value) (entries : Mapping) : Value → Except Obstacle Unit × Value
  | .map old =>
      let (result, new) := Value.visit old value.text (.map []) (mergeInto entries)
      (result, .map new)
  | other => (.error ⟨other, .map⟩, other)

-- Writes under `name` into the mapping of the scope. The slot of what was written starts there.
-- The value of a cumulative keyword starts as a list, that of any other as a mapping.
def write (name : String) (cumulative : Bool) (content : Content) (scope : Mapping) :
    Except Obstacle Slot × Mapping :=
  let start : Value := if cumulative then .list [] else .map []
  match content with
  | .nothing => (.ok [], scope)
  | .mapping entries =>
      let (result, scope) := Value.visit scope name start (mergeInto entries)
      (result.map fun _ => [.key name], scope)
  | .scalar value => (.ok [.key name], Keyed.insert scope name (.str value.text))
  | .keyed value entries =>
      if cumulative then
        let (result, scope) := Value.visit scope name start (append value entries)
        (result.map fun i => [.key name, .index i, .index 1], scope)
      else
        let (result, scope) := Value.visit scope name start (mergeUnder value entries)
        (result.map fun _ => [.key name, .key value.text], scope)

end Content

-- A keyword in use, where its parents allow it.
structure Entry where
  name : String
  declaration : Declaration
  parents : List String
  scope : Slot
  line : Option Nat

namespace Entry

def fail (e : Entry) (cause : Cause) : Evaluation α := throw ⟨cause, e.line⟩

def enter (name : String) (declaration : Declaration) (frame : Frame) (line : Option Nat) :
    Except ConfigError Entry :=
  let allowed := declaration.requireParent
  if allowed.isEmpty || allowed.any frame.parents.contains then
    .ok { name, declaration, parents := frame.parents, scope := frame.scope, line }
  else .error ⟨.misplaced name allowed, line⟩

def inScope (e : Entry) (change : Mapping → α × Mapping) : Evaluation α := do
  match ← modifyGet (Document.updateScope change e.scope) with
  | some a => return a
  | none => e.fail (.scopeNotMapping e.name)

def own (e : Entry) : Evaluation Value :=
  e.inScope (Value.obtain e.name e.declaration.cumulative)

def check (e : Entry) (value : Value) : Evaluation Unit :=
  match e.declaration.validate with
  | none => return
  | some c =>
      let violations := c.violations e.name value
      if violations.isEmpty then return else e.fail (.rejected violations)

-- Writes the arguments, and gives the slot of what they have become. Content of no kind leaves the
-- document alone, and the block of such a keyword stays in its scope.
def takeArgs (e : Entry) (args : List Value) : Evaluation Slot := do
  match Content.ofArgs e.declaration.kind args with
  | none => e.fail (.wrongArguments e.name e.declaration.kind)
  | some .nothing => return e.scope
  | some content =>
      if let some value := content.checked then e.check value
      match ← e.inScope (content.write e.name e.declaration.cumulative) with
      | .ok slot => return e.scope ++ slot
      | .error obstacle => e.fail (.occupied e.name obstacle.found obstacle.wanted)

-- The calls of a block, as what they do in a frame.
structure Inside where
  param : Option String
  evaluate : Frame → Evaluation Unit

-- Where the calls of a block write: beside the entry, or into what its arguments have become.
def blockScope (e : Entry) (current : Slot) : Evaluation Slot := do
  if e.declaration.nested then
    let node := (← get).node? current
    if current.isEmpty || node.any Value.isMap then return current
    else e.fail (.cannotNest e.name node)
  else return e.scope

def evalInside (e : Entry) (inside : Inside) (current : Slot) : Evaluation Unit := do
  let scope ← e.blockScope current
  inside.evaluate { parents := e.parents ++ [e.name], scope, receiver := inside.param }

def evaluate (e : Entry) (args : List Value) (block : Option Inside) : Evaluation Unit := do
  if block.isSome && !e.declaration.allowBlock then e.fail (.blockNotAllowed e.name)
  let current ← e.takeArgs args
  match block with
  | some inside => e.evalInside inside current
  | none => return

end Entry

-- The entry of a call, or none for a lone name at the top level that is no keyword: that is inert.
def Frame.enter? (frame : Frame) (registry : Registry) (call : Call) : Except ConfigError (Option Entry) :=
  let head := call.head
  if head.receiver.any (fun receiver => frame.receiver != some receiver) then
    .error ⟨.undefinedReceiver (head.receiver.getD "") head.keyword, some head.line⟩
  else
    match registry.resolve head.keyword with
    | some declaration => (Entry.enter head.keyword declaration frame head.line).map some
    | none =>
        if call.isBare && head.receiver.isNone && frame.parents.isEmpty then .ok none
        else .error ⟨.unknownKeyword head.keyword frame.parents.getLast?, some head.line⟩

def Frame.perform (frame : Frame) (registry : Registry) (call : Call) (block : Option Entry.Inside) :
    Evaluation Unit := do
  match ← frame.enter? registry call with
  | some entry => entry.evaluate call.args block
  | none => return

mutual

def evalCall (registry : Registry) (frame : Frame) : Call → Evaluation Unit
  | .bare head => frame.perform registry (.bare head) none
  | .plain head args => frame.perform registry (.plain head args) none
  | .block head args param body =>
      frame.perform registry (.block head args param body)
        (some ⟨param, fun inner => evalCalls registry inner body⟩)

def evalCalls (registry : Registry) (frame : Frame) : List Call → Evaluation Unit
  | [] => return
  | call :: rest => do
      evalCall registry frame call
      evalCalls registry frame rest

end

def Block.inside (registry : Registry) (block : Block) : Entry.Inside where
  param := block.param
  evaluate := fun frame => evalCalls registry frame block.body

-- The document of a script, if there is no error in it.
def interpret (script : String) (registry : Registry) : Except ConfigError Document :=
  match Script.parse script with
  | .error e => .error e
  | .ok calls =>
      match evalCalls registry {} calls {} with
      | (.ok (), document) => .ok document
      | (.error e, _) => .error e

end KeywordConfig
