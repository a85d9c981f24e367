import KeywordConfig.Document

namespace KeywordConfig

namespace Keyed

theorem insert_get? {entries : Keyed α} (found : get? entries key = some value) :
    insert entries key value = entries := by
  induction entries with
  | nil => cases found
  | cons entry rest ih =>
      obtain ⟨name, old⟩ := entry
      by_cases same : name = key
      · simp only [get?, same, if_true, Option.some.injEq] at found
        simp [insert, same, found]
      · simp only [get?, same, if_false] at found
        simp [insert, same, ih found]

theorem insert_insert (entries : Keyed α) (key : String) (first second : α) :
    insert (insert entries key first) key second = insert entries key second := by
  induction entries with
  | nil => simp [insert]
  | cons entry rest ih =>
      obtain ⟨name, old⟩ := entry
      by_cases same : name = key <;> simp [insert, same, ih]

end Keyed

namespace Value

def entries : Value → Mapping
  | .map entries => entries
  | _ => []

-- Puts `new` where `slot` leads. A slot that leads nowhere changes nothing.
def replace (new : Value) : Slot → Value → Value
  | [], _ => new
  | .key name :: rest, .map entries =>
      match Keyed.get? entries name with
      | some value => .map (Keyed.insert entries name (replace new rest value))
      | none => .map entries
  | .index i :: rest, .list items =>
      match items[i]? with
      | some item => .list (items.set i (replace new rest item))
      | none => .list items
  | _, value => value

theorem node?_key {value node : Value} (found : value.node? (.key name :: rest) = some node) :
    ∃ entries inner, value = .map entries ∧ Keyed.get? entries name = some inner ∧
      inner.node? rest = some node := by
  cases value with
  | map entries =>
      obtain ⟨inner, here, below⟩ := Option.bind_eq_some_iff.mp found
      exact ⟨entries, inner, rfl, here, below⟩
  | _ => cases found

theorem node?_index {value node : Value} (found : value.node? (.index i :: rest) = some node) :
    ∃ items inner, value = .list items ∧ items[i]? = some inner ∧ inner.node? rest = some node := by
  cases value with
  | list items =>
      obtain ⟨inner, here, below⟩ := Option.bind_eq_some_iff.mp found
      exact ⟨items, inner, rfl, here, below⟩
  | _ => cases found

theorem node?_append (value : Value) (front back : Slot) :
    value.node? (front ++ back) = (value.node? front).bind (node? · back) := by
  induction front generalizing value with
  | nil => simp [node?]
  | cons segment rest ih =>
      cases segment with
      | key name => cases value <;> simp [node?, Option.bind_assoc, ih]
      | index i => cases value <;> simp [node?, Option.bind_assoc, ih]

theorem node?_replace (new : Value) (below : Slot) {value node : Value} (found : value.node? slot = some node) :
    (replace new slot value).node? (slot ++ below) = new.node? below := by
  induction slot generalizing value with
  | nil => rfl
  | cons segment rest ih =>
      cases segment with
      | key name =>
          obtain ⟨entries, inner, rfl, here, deeper⟩ := node?_key found
          simp [replace, node?, here, Keyed.get?_insert, ih deeper]
      | index i =>
          obtain ⟨items, inner, rfl, here, deeper⟩ := node?_index found
          obtain ⟨bound, rfl⟩ := List.getElem?_eq_some_iff.mp here
          simp [replace, node?, bound, ih deeper]

theorem node?_replace_apart (value : Value) (above : ¬ slot <+: other) (beneath : ¬ other <+: slot) :
    (replace new slot value).node? other = value.node? other := by
  induction slot generalizing value other with
  | nil => exact absurd List.nil_prefix above
  | cons segment rest ih =>
      cases other with
      | nil => exact absurd List.nil_prefix beneath
      | cons first deeper =>
          -- Only two slots with the same first step can still meet.
          have inside (same : segment = first) (inner : Value) :
              (replace new rest inner).node? deeper = inner.node? deeper := by
            subst same
            exact ih inner (by simpa [List.cons_prefix_cons] using above)
              (by simpa [List.cons_prefix_cons] using beneath)
          cases segment with
          | key name =>
              cases value with
              | map entries =>
                  cases here : Keyed.get? entries name with
                  | none => simp [replace, here]
                  | some inner =>
                      cases first with
                      | index i => simp [replace, here, node?]
                      | key other =>
                          by_cases same : name = other
                          · subst same
                            simp [replace, node?, here, Keyed.get?_insert, inside rfl]
                          · simp [replace, node?, here, Keyed.get?_insert, same]
              | _ => rfl
          | index i =>
              cases value with
              | list items =>
                  cases here : items[i]? with
                  | none => simp [replace, here]
                  | some inner =>
                      cases first with
                      | key name => simp [replace, here, node?]
                      | index j =>
                          by_cases same : i = j
                          · subst same
                            obtain ⟨bound, _⟩ := List.getElem?_eq_some_iff.mp here
                            simp [replace, node?, bound, inside rfl]
                          · simp [replace, node?, here, List.getElem?_set_ne same]
              | _ => rfl

theorem replace_node? {value node : Value} (found : value.node? slot = some node) :
    replace node slot value = value := by
  induction slot generalizing value with
  | nil => cases found; rfl
  | cons segment rest ih =>
      cases segment with
      | key name =>
          obtain ⟨entries, inner, rfl, here, deeper⟩ := node?_key found
          simp [replace, here, ih deeper, Keyed.insert_get? here]
      | index i =>
          obtain ⟨items, inner, rfl, here, deeper⟩ := node?_index found
          obtain ⟨bound, rfl⟩ := List.getElem?_eq_some_iff.mp here
          simp [replace, bound, ih deeper]

theorem replace_replace (value : Value) (slot : Slot) (first second : Value) :
    replace second slot (replace first slot value) = replace second slot value := by
  induction slot generalizing value with
  | nil => rfl
  | cons segment rest ih =>
      cases segment with
      | key name =>
          cases value with
          | map entries =>
              cases here : Keyed.get? entries name with
              | none => simp [replace, here]
              | some inner => simp [replace, here, Keyed.get?_insert, Keyed.insert_insert, ih]
          | _ => rfl
      | index i =>
          cases value with
          | list items =>
              cases here : items[i]? with
              | none => simp [replace, here]
              | some inner =>
                  obtain ⟨bound, _⟩ := List.getElem?_eq_some_iff.mp here
                  simp [replace, bound, ih]
          | _ => rfl

theorem update_append {value node : Value} (found : value.node? front = some node) :
    update change (front ++ back) value =
      ((update change back node).1, replace (update change back node).2 front value) := by
  induction front generalizing value with
  | nil => cases found; rfl
  | cons segment rest ih =>
      cases segment with
      | key name =>
          obtain ⟨entries, inner, rfl, here, deeper⟩ := node?_key found
          simp [update, visit, replace, here, ih deeper]
      | index i =>
          obtain ⟨items, inner, rfl, here, deeper⟩ := node?_index found
          simp [update, replace, here, ih deeper]

theorem replace_append (new : Value) (back : Slot) {value node : Value} (found : value.node? front = some node) :
    replace new (front ++ back) value = replace (replace new back node) front value := by
  induction front generalizing value with
  | nil => cases found; rfl
  | cons segment rest ih =>
      cases segment with
      | key name =>
          obtain ⟨entries, inner, rfl, here, deeper⟩ := node?_key found
          simp [replace, here, ih deeper]
      | index i =>
          obtain ⟨items, inner, rfl, here, deeper⟩ := node?_index found
          simp [replace, here, ih deeper]

-- A change of mappings, as a change of values that leaves the others alone.
def onMapping (change : Mapping → α × Mapping) : Value → Option α × Value
  | .map entries =>
      let (a, entries) := change entries
      (some a, .map entries)
  | value => (none, value)

theorem update_onMapping_map (change : Mapping → α × Mapping) (slot : Slot) (old : Mapping) :
    ∃ new, (update (onMapping change) slot (.map old)).2 = .map new := by
  match slot with
  | [] => exact ⟨_, rfl⟩
  | .key name :: rest => exact ⟨_, rfl⟩
  | .index i :: rest => exact ⟨_, rfl⟩

end Value

namespace Document

-- The mapping that stands at a slot. At the empty slot that is the root.
def Holds (d : Document) (slot : Slot) (entries : Mapping) : Prop :=
  (Value.map d.root).node? slot = some (.map entries)

def replace (slot : Slot) (entries : Mapping) (d : Document) : Document :=
  ⟨(Value.replace (.map entries) slot (.map d.root)).entries⟩

theorem map_replace (slot : Slot) (entries : Mapping) (d : Document) :
    .map (d.replace slot entries).root = Value.replace (.map entries) slot (.map d.root) := by
  match slot with
  | [] => rfl
  | .index i :: rest => rfl
  | .key name :: rest =>
      cases here : Keyed.get? d.root name <;> simp [replace, Value.replace, here, Value.entries]

theorem replace_holds (held : Holds d slot entries) : d.replace slot entries = d := by
  unfold replace
  rw [Value.replace_node? held]
  rfl

theorem replace_replace (d : Document) (slot : Slot) (first second : Mapping) :
    (d.replace slot first).replace slot second = d.replace slot second := by
  show Document.mk (Value.replace (.map second) slot (.map (d.replace slot first).root)).entries = _
  rw [map_replace, Value.replace_replace]
  rfl

theorem replace_append (held : Holds d front entries) (back : Slot) (new : Mapping) :
    d.replace (front ++ back) new = d.replace front (replace back new ⟨entries⟩).root := by
  show Document.mk (Value.replace (.map new) (front ++ back) (.map d.root)).entries =
    ⟨(Value.replace (.map (replace back new ⟨entries⟩).root) front (.map d.root)).entries⟩
  rw [map_replace, Value.replace_append _ _ held]

theorem holds_replace (held : Holds d slot entries) : (d.replace slot new).Holds slot new := by
  unfold Holds
  rw [map_replace]
  simpa [Value.node?] using Value.node?_replace (.map new) [] held

theorem node?_eq (d : Document) (nonempty : slot ≠ []) : d.node? slot = (Value.map d.root).node? slot := by
  cases slot with
  | nil => exact absurd rfl nonempty
  | cons => rfl

theorem any_isMap (d : Document) (nonempty : slot ≠ []) :
    (d.node? slot).any Value.isMap = true ↔ ∃ entries, d.Holds slot entries := by
  rw [node?_eq d nonempty]
  unfold Holds
  cases (Value.map d.root).node? slot with
  | none => simp
  | some node => cases node <;> simp [Value.isMap]

theorem node?_append (held : Holds d front entries) (nonempty : back ≠ []) :
    d.node? (front ++ back) = node? ⟨entries⟩ back := by
  rw [node?_eq d (by simp [nonempty]), node?_eq _ nonempty, Value.node?_append, held]
  rfl

-- Another mapping at a slot is seen from the slots that lead to it, and below it under the names
-- whose values differ.
theorem node?_replace_confined {names : List String} (held : Holds d slot entries)
    (same : ∀ name ∉ names, Keyed.get? new name = Keyed.get? entries name) (above : ¬ other <+: slot)
    (free : ∀ name ∈ names, ¬ slot ++ [.key name] <+: other) :
    (d.replace slot new).node? other = d.node? other := by
  have nonempty : other ≠ [] := fun empty => above (empty ▸ List.nil_prefix)
  rw [node?_eq _ nonempty, node?_eq _ nonempty, map_replace]
  by_cases inside : slot <+: other
  · obtain ⟨below, rfl⟩ := inside
    rw [Value.node?_replace _ below held, Value.node?_append, held, Option.bind_some]
    match below with
    | [] => exact absurd (by simp) above
    | .index i :: rest => rfl
    | .key name :: rest =>
        have unlisted : name ∉ names := fun member => free name member ⟨rest, by simp⟩
        show (Keyed.get? new name).bind _ = (Keyed.get? entries name).bind _
        rw [same name unlisted]
  · exact Value.node?_replace_apart _ inside above

theorem updateScope_root (change : Mapping → α × Mapping) (d : Document) :
    d.updateScope change [] = (some (change d.root).1, ⟨(change d.root).2⟩) := rfl

theorem updateScope_eq (change : Mapping → α × Mapping) (slot : Slot) (d : Document) :
    d.updateScope change slot =
      ((Value.update (Value.onMapping change) slot (.map d.root)).1.join,
        ⟨(Value.update (Value.onMapping change) slot (.map d.root)).2.entries⟩) := by
  match slot with
  | [] => rfl
  | .key name :: rest => rfl
  | .index i :: rest => rfl

theorem updateScope_append (held : Holds d front entries) :
    d.updateScope change (front ++ back) =
      ((updateScope change back ⟨entries⟩).1,
        d.replace front (updateScope change back ⟨entries⟩).2.root) := by
  obtain ⟨new, changed⟩ := Value.update_onMapping_map change back entries
  rw [updateScope_eq, updateScope_eq, Value.update_append held]
  simp only [changed]
  rfl

end Document

end KeywordConfig
