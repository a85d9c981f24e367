import KeywordConfig.Json.Writer

namespace KeywordConfig

inductive Segment where
  | key (name : String)
  | index (i : Nat)
deriving DecidableEq, Repr

abbrev Slot := List Segment

namespace Value

def node? : Value → Slot → Option Value
  | value, [] => some value
  | .map entries, .key name :: rest => (Keyed.get? entries name).bind (node? · rest)
  | .list items, .index i :: rest => items[i]?.bind (node? · rest)
  | _, _ => none

-- Changes the value under a key, which is `missing` when there is none.
def visit (entries : Mapping) (name : String) (missing : Value) (change : Value → α × Value) :
    α × Mapping :=
  let (a, value) := change ((Keyed.get? entries name).getD missing)
  (a, Keyed.insert entries name value)

-- Changes what `slot` holds inside a value.
def update (change : Value → α × Value) : Slot → Value → Option α × Value
  | [], value =>
      let (a, value) := change value
      (some a, value)
  | .key name :: rest, .map entries =>
      let (a, entries) := visit entries name (.map []) (update change rest)
      (a, .map entries)
  | .index i :: rest, .list items =>
      match items[i]? with
      | some item =>
          let (a, item) := update change rest item
          (a, .list (items.set i item))
      | none => (none, .list items)
  | _, value => (none, value)

-- The value under a key, which is added as an empty list or mapping when there is none.
def obtain (name : String) (list : Bool) (entries : Mapping) : Value × Mapping :=
  visit entries name (if list then .list [] else .map []) fun value => (value, value)

end Value

structure Document where
  root : Mapping := []

namespace Document

def get? (d : Document) (name : String) : Option Value := Keyed.get? d.root name

def obtain (d : Document) (name : String) : Value × Document :=
  let (value, root) := Value.obtain name false d.root
  (value, ⟨root⟩)

-- The root itself is no node.
def node? (d : Document) : Slot → Option Value
  | [] => none
  | slot => (Value.map d.root).node? slot

def update (change : Value → α × Value) (slot : Slot) (d : Document) : Option α × Document :=
  match slot with
  | .key name :: rest =>
      let (a, root) := Value.visit d.root name (.map []) (Value.update change rest)
      (a, ⟨root⟩)
  | _ => (none, d)

def updateScope (change : Mapping → α × Mapping) (slot : Slot) (d : Document) : Option α × Document :=
  match slot with
  | [] =>
      let (a, root) := change d.root
      (some a, ⟨root⟩)
  | slot =>
      let (a, d) := d.update (fun
        | .map entries =>
            let (a, entries) := change entries
            (some a, .map entries)
        | value => (none, value)) slot
      (a.join, d)

def render (style : Json.Style) (d : Document) : String :=
  (Json.ofValue (.map d.root)).render style

end Document

end KeywordConfig
