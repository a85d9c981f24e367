import KeywordConfig.Proofs.Slots

namespace KeywordConfig

-- The walk along a slot arrives at a node. A missing key counts as an empty mapping.
inductive Value.Leads : Value → Slot → Value → Prop where
  | here : Leads value [] value
  | key {entries : Mapping} : Leads ((Keyed.get? entries name).getD (.map [])) rest node →
      Leads (.map entries) (.key name :: rest) node
  | index : items[i]? = some item → Leads item rest node → Leads (.list items) (.index i :: rest) node

-- The walk cannot go on: the node has the wrong type, or the index is out of range.
inductive Value.Stuck : Value → Segment → Prop where
  | key : (∀ entries, node ≠ .map entries) → Stuck node (.key name)
  | index : (∀ items, node ≠ .list items) → Stuck node (.index i)
  | range : items.length ≤ i → Stuck (.list items) (.index i)

-- The walk along a slot ends before the slot does.
def Value.EndsEarly (value : Value) (slot : Slot) : Prop :=
  ∃ front segment back node, slot = front ++ segment :: back ∧ value.Leads front node ∧ node.Stuck segment

-- The same value, but for keys that a slot needs and that were added to it.
inductive Value.Grown : Slot → Value → Value → Prop where
  | same : Grown slot value value
  | key {entries : Mapping} : Keyed.get? entries name = some old → Grown rest old new →
      Grown (.key name :: rest) (.map entries) (.map (Keyed.insert entries name new))
  | added {entries : Mapping} : name ∉ Keyed.keys entries → Grown rest (.map []) new →
      Grown (.key name :: rest) (.map entries) (.map (entries ++ [(name, new)]))
  | index : items[i]? = some old → Grown rest old new →
      Grown (.index i :: rest) (.list items) (.list (items.set i new))

-- What stands at a slot, for writing. The keys that are missing on the way are added.
def Value.reach (slot : Slot) (value : Value) : Option Value × Value := value.update (fun node => (node, node)) slot

namespace Document

def reach (slot : Slot) (d : Document) : Option Value × Document := d.update (fun node => (node, node)) slot

def scope (slot : Slot) (d : Document) : Option Mapping × Document :=
  d.updateScope (fun entries => (entries, entries)) slot

-- What holds of reading and writing at one slot of a document. What is written is any change of the node reached.
structure Lawful (d : Document) (slot : Slot) : Prop where
  -- A node that stands there is reached, with nothing added. One that is reached stands there afterwards.
  found : ∀ node, d.node? slot = some node → d.reach slot = (some node, d)
  reached : ∀ node, (d.reach slot).1 = some node → (d.reach slot).2.node? slot = some node
  -- What is written is read there. Slots that lead elsewhere are read as before.
  written : ∀ {α : Type} (change : Value → α × Value) node, (d.reach slot).1 = some node →
    (d.update change slot).1 = some (change node).1 ∧ (d.update change slot).2.node? slot = some (change node).2
  apart : ∀ {α : Type} (change : Value → α × Value) other, ¬ slot <+: other → ¬ other <+: slot →
    (d.update change slot).2.node? other = d.node? other
  -- A mapping on the way gains at most the key that is needed, at its end. A list gains nothing.
  keys : ∀ {α : Type} (change : Value → α × Value) front name back entries, slot = front ++ .key name :: back →
    (Value.map d.root).Leads front (.map entries) → ∃ later, (d.update change slot).2.Holds front later ∧
      Keyed.keys later = (if name ∈ Keyed.keys entries then Keyed.keys entries else Keyed.keys entries ++ [name]) ∧
      ∀ other, other ≠ name → Keyed.get? later other = Keyed.get? entries other
  items : ∀ {α : Type} (change : Value → α × Value) front i back items, slot = front ++ .index i :: back →
    (Value.map d.root).Leads front (.list items) → ∃ later,
      (d.update change slot).2.node? front = some (.list later) ∧
      later.length = items.length ∧ ∀ j, j ≠ i → later[j]? = items[j]?
  -- Nothing is reached by the empty slot, by one that starts with an index, and where the walk ends early.
  nothing : (d.reach slot).1 = none ↔
    slot = [] ∨ (∃ i rest, slot = .index i :: rest) ∨ (Value.map d.root).EndsEarly slot
  -- Then nothing is written either. Every node that stood keeps its value, but for keys that were added on the way.
  unwritten : ∀ {α : Type} (change : Value → α × Value), (d.reach slot).1 = none →
    d.update change slot = (none, (d.reach slot).2)
  grown : ∀ other node, d.node? other = some node → ∃ later, (d.reach slot).2.node? other = some later ∧
    (∀ back, slot = other ++ back → Value.Grown back node later) ∧ (¬ other <+: slot → later = node)
  unchanged : (d.reach slot).1 = none → (∀ segment ∈ slot, ∃ name, segment = .key name) → (d.reach slot).2 = d
  -- Below the root, a scope is a node that is a mapping.
  scope : slot ≠ [] → (d.scope slot).2 = (d.reach slot).2 ∧
    ∀ entries, (d.scope slot).1 = some entries ↔ (d.reach slot).1 = some (.map entries)
  rewritten : ∀ {α : Type} (change : Mapping → α × Mapping) entries, slot ≠ [] →
    (d.reach slot).1 = some (.map entries) → d.updateScope change slot =
      (some (change entries).1, (d.update (fun _ => ((), .map (change entries).2)) slot).2)

end Document

namespace Value

variable {change : Value → α × Value} {other : Value → β × Value}

theorem Stuck.update {node : Value} {segment : Segment} (stuck : node.Stuck segment) :
    node.update change (segment :: rest) = (none, node) := by
  cases stuck with
  | key other => cases node <;> first | rfl | exact absurd rfl (other _)
  | index other => cases node <;> first | rfl | exact absurd rfl (other _)
  | range short => simp [Value.update, List.getElem?_eq_none short]

theorem update_leads (change : Value → α × Value) (back : Slot) (leads : Leads value front node) : ∃ after,
    update change (front ++ back) value = ((update change back node).1, after) ∧
      after.node? front = some (update change back node).2 := by
  induction leads with
  | here => exact ⟨_, rfl, rfl⟩
  | @key name rest node entries _ ih =>
      obtain ⟨after, changed, stands⟩ := ih
      refine ⟨.map (Keyed.insert entries name after), ?_, ?_⟩
      · simp [update, visit, changed]
      · simp [node?, Keyed.get?_insert, stands]
  | @index items i item rest node here _ ih =>
      obtain ⟨after, changed, stands⟩ := ih
      obtain ⟨bound, _⟩ := List.getElem?_eq_some_iff.mp here
      refine ⟨.list (items.set i after), ?_, ?_⟩
      · simp [update, here, changed]
      · simp [node?, bound, stands]

theorem update_arrives (leads : Leads value slot node) :
    (update change slot value).1 = some (change node).1 ∧
      (update change slot value).2.node? slot = some (change node).2 := by
  obtain ⟨after, changed, stands⟩ := update_leads change [] leads
  rw [List.append_nil] at changed
  rw [changed]
  exact ⟨rfl, stands⟩

theorem EndsEarly.step {value inner : Value} {segment : Segment}
    (step : ∀ slot node, Leads inner slot node → Leads value (segment :: slot) node) (early : inner.EndsEarly rest) :
    value.EndsEarly (segment :: rest) := by
  obtain ⟨front, other, back, node, rfl, leads, stuck⟩ := early
  exact ⟨segment :: front, other, back, node, rfl, step _ _ leads, stuck⟩

theorem Stuck.endsEarly {value : Value} {segment : Segment} (stuck : value.Stuck segment) (rest : Slot) :
    value.EndsEarly (segment :: rest) :=
  ⟨[], segment, rest, value, rfl, .here, stuck⟩

theorem leads_or_ends (slot : Slot) (value : Value) : (∃ node, Leads value slot node) ∨ EndsEarly value slot := by
  induction slot generalizing value with
  | nil => exact .inl ⟨value, .here⟩
  | cons segment rest ih =>
      cases segment with
      | key name =>
          cases value with
          | map entries =>
              refine (ih ((Keyed.get? entries name).getD (.map []))).imp ?_ (.step fun _ _ => .key)
              exact fun ⟨node, leads⟩ => ⟨node, .key leads⟩
          | _ =>
              refine .inr (Stuck.endsEarly ?_ rest)
              exact .key nofun
      | index i =>
          cases value with
          | list items =>
              cases here : items[i]? with
              | none => exact .inr (Stuck.endsEarly (.range (List.getElem?_eq_none_iff.mp here)) rest)
              | some item =>
                  refine (ih item).imp ?_ (.step fun _ _ => .index here)
                  exact fun ⟨node, leads⟩ => ⟨node, .index here leads⟩
          | _ =>
              refine .inr (Stuck.endsEarly ?_ rest)
              exact .index nofun

theorem Leads.of_node? {value node : Value} (found : value.node? slot = some node) : value.Leads slot node := by
  induction slot generalizing value with
  | nil => cases found; exact .here
  | cons segment rest ih =>
      cases segment with
      | key name =>
          obtain ⟨entries, inner, rfl, here, deeper⟩ := node?_key found
          refine .key ?_
          rw [here]
          exact ih deeper
      | index i =>
          obtain ⟨items, inner, rfl, here, deeper⟩ := node?_index found
          exact .index here (ih deeper)

theorem node?_empty (nonempty : slot ≠ []) : (Value.map []).node? slot = none := by
  match slot with
  | .key name :: rest => rfl
  | .index i :: rest => rfl

-- A node that the walk arrives at and that does not stand there is an empty mapping.
theorem Leads.node_or_empty (leads : Leads value slot node) : value.node? slot = some node ∨ node = .map [] := by
  induction leads with
  | here => exact .inl rfl
  | @key name rest node entries leads ih =>
      cases here : Keyed.get? entries name with
      | some inner => simpa [node?, here] using ih
      | none =>
          rw [here] at ih
          refine .inr (ih.elim ?_ id)
          intro stands
          by_cases last : rest = []
          · subst last
            exact (Option.some_inj.mp stands).symm
          · rw [Option.getD_none, node?_empty last] at stands
            cases stands
  | index here _ ih => simpa [node?, here] using ih

theorem reach_node? {value node : Value} (found : value.node? slot = some node) :
    value.reach slot = (some node, value) := by
  have changed : value.reach (slot ++ []) = _ := update_append found
  rw [List.append_nil] at changed
  rw [changed]
  simp [update, replace_node? found]

theorem update_eq_none : (update change slot value).1 = none ↔ EndsEarly value slot := by
  constructor
  · intro nothing
    rcases leads_or_ends slot value with ⟨node, leads⟩ | early
    · rw [(update_arrives leads).1] at nothing
      cases nothing
    · exact early
  · rintro ⟨front, segment, back, node, rfl, leads, stuck⟩
    obtain ⟨after, changed, _⟩ := update_leads _ (segment :: back) leads
    rw [changed, stuck.update]

theorem reach_eq_some : (reach slot value).1 = some node ↔ Leads value slot node := by
  constructor
  · intro reached
    rcases leads_or_ends slot value with ⟨other, leads⟩ | early
    · rw [reach, (update_arrives leads).1] at reached
      cases reached
      exact leads
    · rw [reach, update_eq_none.mpr early] at reached
      cases reached
  · intro leads
    exact (update_arrives leads).1

theorem Leads.unique {value node : Value} (leads : value.Leads slot node) (other : value.Leads slot found) :
    node = found :=
  Option.some_inj.mp ((reach_eq_some.mpr leads).symm.trans (reach_eq_some.mpr other))

theorem update_snd (same : ∀ node, Leads value slot node → (change node).2 = (other node).2) :
    (update change slot value).2 = (update other slot value).2 := by
  induction slot generalizing value with
  | nil => exact same value .here
  | cons segment rest ih =>
      cases segment with
      | key name =>
          cases value with
          | map entries => simp [update, visit, ih fun node leads => same node (.key leads)]
          | _ => rfl
      | index i =>
          cases value with
          | list items =>
              cases here : items[i]? with
              | none => simp [update, here]
              | some item => simp [update, here, ih fun node leads => same node (.index here leads)]
          | _ => rfl

theorem update_nothing (nothing : (update change slot value).1 = none) (other : Value → β × Value) :
    update other slot value = (none, (update change slot value).2) := by
  refine Prod.ext (update_eq_none.mpr (update_eq_none.mp nothing)) (update_snd fun node leads => ?_)
  rw [(update_arrives leads).1] at nothing
  cases nothing

theorem update_stuck {value node : Value} {segment : Segment} (stands : value.node? front = some node)
    (stuck : node.Stuck segment) :
    update change (front ++ segment :: back) value = (none, value) := by
  rw [update_append stands, stuck.update, replace_node? stands]

theorem update_apart {other : Slot} (value : Value) (above : ¬ slot <+: other) (beneath : ¬ other <+: slot) :
    (update change slot value).2.node? other = value.node? other := by
  induction slot generalizing value other with
  | nil => exact absurd List.nil_prefix above
  | cons segment rest ih =>
      cases other with
      | nil => exact absurd List.nil_prefix beneath
      | cons first deeper =>
          -- Only two slots with the same first step can still meet.
          have inside (same : segment = first) (inner : Value) :
              (update change rest inner).2.node? deeper = inner.node? deeper := by
            subst same
            exact ih inner (by simpa [List.cons_prefix_cons] using above)
              (by simpa [List.cons_prefix_cons] using beneath)
          cases segment with
          | key name =>
              cases value with
              | map entries =>
                  cases first with
                  | index i => rfl
                  | key other =>
                      by_cases same : name = other
                      · subst same
                        have nonempty : deeper ≠ [] := by
                          rintro rfl
                          exact beneath (by simp [List.cons_prefix_cons])
                        cases here : Keyed.get? entries name with
                        | some inner => simp [update, visit, node?, here, Keyed.get?_insert, inside rfl]
                        | none => simp [update, visit, node?, here, Keyed.get?_insert, inside rfl, node?_empty nonempty]
                      · simp [update, visit, node?, Keyed.get?_insert, same]
              | _ => rfl
          | index i =>
              cases value with
              | list items =>
                  cases here : items[i]? with
                  | none => simp [update, here]
                  | some item =>
                      cases first with
                      | key name => simp [update, here, node?]
                      | index j =>
                          by_cases same : i = j
                          · subst same
                            obtain ⟨bound, _⟩ := List.getElem?_eq_some_iff.mp here
                            simp [update, node?, bound, inside rfl]
                          · simp [update, node?, here, List.getElem?_set_ne same]
              | _ => rfl

theorem reach_grown (slot : Slot) (value : Value) : Grown slot value (reach slot value).2 := by
  induction slot generalizing value with
  | nil => exact .same
  | cons segment rest ih =>
      cases segment with
      | key name =>
          cases value with
          | map entries =>
              have inner := ih ((Keyed.get? entries name).getD (.map []))
              cases here : Keyed.get? entries name with
              | some old =>
                  rw [here] at inner
                  simpa [reach, update, visit, here] using Grown.key here inner
              | none =>
                  rw [here] at inner
                  have absent := (Keyed.get?_eq_none _ _).mp here
                  simpa [reach, update, visit, here, Keyed.insert_new absent] using Grown.added absent inner
          | _ => exact .same
      | index i =>
          cases value with
          | list items =>
              cases here : items[i]? with
              | none => simpa [reach, update, here] using Grown.same
              | some old => simpa [reach, update, here] using Grown.index here (ih old)
          | _ => exact .same

theorem update_key (change : Value → α × Value) (entries : Mapping) : ∃ later,
    (update change (.key name :: rest) (.map entries)).2 = .map later ∧
      Keyed.keys later = (if name ∈ Keyed.keys entries then Keyed.keys entries else Keyed.keys entries ++ [name]) ∧
      ∀ other, other ≠ name → Keyed.get? later other = Keyed.get? entries other := by
  refine ⟨_, rfl, Keyed.keys_insert _ _ _, ?_⟩
  intro other apart
  rw [Keyed.get?_insert, if_neg apart.symm]

theorem update_index (change : Value → α × Value) (items : List Value) : ∃ later,
    (update change (.index i :: rest) (.list items)).2 = .list later ∧
      later.length = items.length ∧ ∀ j, j ≠ i → later[j]? = items[j]? := by
  cases here : items[i]? with
  | none => exact ⟨items, by simp [update, here], rfl, fun _ _ => rfl⟩
  | some item =>
      refine ⟨items.set i (update change rest item).2, by simp [update, here], List.length_set, ?_⟩
      intro j apart
      exact List.getElem?_set_ne apart.symm

end Value

namespace Document

variable {d : Document}

theorem update_root (change : Value → α × Value) (d : Document) (nonempty : slot ≠ []) :
    (d.update change slot).1 = (Value.update change slot (.map d.root)).1 ∧
      Value.map (d.update change slot).2.root = (Value.update change slot (.map d.root)).2 := by
  match slot with
  | .key name :: rest => exact ⟨rfl, rfl⟩
  | .index i :: rest => exact ⟨rfl, rfl⟩

theorem reach_root (d : Document) (nonempty : slot ≠ []) :
    (d.reach slot).1 = ((Value.map d.root).reach slot).1 ∧
      Value.map (d.reach slot).2.root = ((Value.map d.root).reach slot).2 :=
  d.update_root _ nonempty

theorem eq_of_root {d e : Document} (same : Value.map d.root = .map e.root) : d = e := by
  cases d
  cases e
  cases same
  rfl

theorem reach_found (found : d.node? slot = some node) : d.reach slot = (some node, d) := by
  have nonempty : slot ≠ [] := by
    rintro rfl
    cases found
  obtain ⟨fst, root⟩ := d.reach_root nonempty
  rw [node?_eq d nonempty] at found
  rw [Value.reach_node? found] at fst root
  exact Prod.ext fst (eq_of_root root)

theorem update_written (change : Value → α × Value) (reached : (d.reach slot).1 = some node) :
    (d.update change slot).1 = some (change node).1 ∧ (d.update change slot).2.node? slot = some (change node).2 := by
  have nonempty : slot ≠ [] := by
    rintro rfl
    cases reached
  rw [(d.reach_root nonempty).1, Value.reach_eq_some] at reached
  rw [node?_eq _ nonempty, (d.update_root change nonempty).1, (d.update_root change nonempty).2]
  exact Value.update_arrives reached

theorem update_unwritten (change : Value → α × Value) (nothing : (d.reach slot).1 = none) :
    d.update change slot = (none, (d.reach slot).2) := by
  by_cases nonempty : slot = []
  · subst nonempty
    rfl
  obtain ⟨fst, root⟩ := d.update_root change nonempty
  obtain ⟨reached, after⟩ := d.reach_root nonempty
  rw [Value.update_nothing (reached.symm.trans nothing) change] at fst root
  exact Prod.ext fst (eq_of_root (root.trans after.symm))

theorem reach_grown (slot : Slot) (stands : d.node? other = some node) :
    ∃ later, (d.reach slot).2.node? other = some later ∧
      (∀ back, slot = other ++ back → Value.Grown back node later) ∧ (¬ other <+: slot → later = node) := by
  have named : other ≠ [] := by
    rintro rfl
    cases stands
  by_cases nonempty : slot = []
  · subst nonempty
    exact ⟨node, stands, fun back split => absurd (List.append_eq_nil_iff.mp split.symm).1 named, fun _ => rfl⟩
  by_cases beneath : other <+: slot
  · obtain ⟨back, rfl⟩ := beneath
    rw [node?_eq d named] at stands
    obtain ⟨after, changed, later⟩ := Value.update_leads (fun node => (node, node)) back (.of_node? stands)
    rw [node?_eq _ named, (d.reach_root nonempty).2, Value.reach, changed]
    refine ⟨_, later, ?_, fun apart => absurd (List.prefix_append _ _) apart⟩
    intro rest split
    cases List.append_cancel_left split
    exact Value.reach_grown back node
  · suffices kept : (d.reach slot).2.node? other = d.node? other from
      ⟨node, kept.trans stands, fun back split => absurd ⟨back, split.symm⟩ beneath, fun _ => rfl⟩
    by_cases above : slot <+: other
    · -- What stands below a slot stands at the end of a walk that adds nothing.
      obtain ⟨rest, rfl⟩ := above
      rw [node?_eq d named, Value.node?_append] at stands
      obtain ⟨there, found, _⟩ := Option.bind_eq_some_iff.mp stands
      rw [← node?_eq d nonempty] at found
      rw [reach_found found]
    · rw [node?_eq _ named, node?_eq _ named, (d.reach_root nonempty).2]
      exact Value.update_apart _ above beneath

-- The mapping at a slot is changed as the node there is, and is none where that is another value.
theorem updateScope_update (change : Mapping → α × Mapping) (d : Document) (nonempty : slot ≠ []) :
    d.updateScope change slot =
      ((d.update (Value.onMapping change) slot).1.join, (d.update (Value.onMapping change) slot).2) := by
  obtain ⟨fst, root⟩ := d.update_root (Value.onMapping change) nonempty
  rw [updateScope_eq, ← fst, ← root]
  rfl

theorem update_scope (change : Mapping → α × Mapping) (nonempty : slot ≠ [])
    (reached : (d.reach slot).1 = some (.map entries)) : d.updateScope change slot =
      (some (change entries).1, (d.update (fun _ => ((), .map (change entries).2)) slot).2) := by
  have leads := reached
  rw [(d.reach_root nonempty).1, Value.reach_eq_some] at leads
  rw [updateScope_update change d nonempty, (update_written _ reached).1]
  refine Prod.ext rfl (eq_of_root ?_)
  rw [(d.update_root _ nonempty).2, (d.update_root _ nonempty).2]
  refine Value.update_snd fun node other => ?_
  rw [other.unique leads]
  rfl

theorem scope_reach (nonempty : slot ≠ []) : (d.scope slot).2 = (d.reach slot).2 ∧
    ∀ entries, (d.scope slot).1 = some entries ↔ (d.reach slot).1 = some (.map entries) := by
  rw [scope, updateScope_update _ d nonempty]
  constructor
  · refine eq_of_root ?_
    rw [(d.reach_root nonempty).2, (d.update_root _ nonempty).2]
    exact Value.update_snd fun node _ => by cases node <;> rfl
  · intro entries
    cases reached : (d.reach slot).1 with
    | none => simp [update_unwritten _ reached]
    | some node =>
        rw [(update_written _ reached).1, Option.join_some, Option.some_inj]
        cases node <;> simp [Value.onMapping]

theorem slots_lawful (d : Document) (slot : Slot) : d.Lawful slot where
  found _ := reach_found
  reached _ reached := (update_written _ reached).2
  written change _ := update_written change
  apart change other above beneath := by
    have nonempty : slot ≠ [] := fun empty => above (empty ▸ List.nil_prefix)
    have named : other ≠ [] := fun empty => beneath (empty ▸ List.nil_prefix)
    rw [node?_eq _ named, node?_eq _ named, (d.update_root change nonempty).2]
    exact Value.update_apart _ above beneath
  keys change front name back entries := by
    rintro rfl leads
    obtain ⟨later, held, grown⟩ := Value.update_key change entries
    obtain ⟨after, changed, stands⟩ := Value.update_leads change (.key name :: back) leads
    refine ⟨later, ?_, grown⟩
    rw [Holds, (d.update_root change (by simp)).2, changed, stands, held]
  items change front i back items := by
    rintro rfl leads
    have nonempty : front ≠ [] := by
      rintro rfl
      cases leads
    obtain ⟨later, held, grown⟩ := Value.update_index change items
    obtain ⟨after, changed, stands⟩ := Value.update_leads change (.index i :: back) leads
    refine ⟨later, ?_, grown⟩
    rw [node?_eq _ nonempty, (d.update_root change (by simp)).2, changed, stands, held]
  nothing := by
    by_cases nonempty : slot = []
    · exact iff_of_true (nonempty ▸ rfl) (.inl nonempty)
    rw [(d.reach_root nonempty).1, Value.reach, Value.update_eq_none]
    constructor
    · exact fun early => .inr (.inr early)
    · rintro (empty | ⟨i, rest, rfl⟩ | early)
      · exact absurd empty nonempty
      · refine Value.Stuck.endsEarly ?_ rest
        exact .index nofun
      · exact early
  unwritten := update_unwritten
  grown other node := reach_grown slot
  unchanged nothing keys := by
    by_cases nonempty : slot = []
    · subst nonempty
      rfl
    obtain ⟨reached, after⟩ := d.reach_root nonempty
    rw [reached, Value.reach, Value.update_eq_none] at nothing
    obtain ⟨front, segment, back, node, rfl, leads, stuck⟩ := nothing
    obtain ⟨name, rfl⟩ := keys segment (by simp)
    -- A key is missing nowhere before the walk ends: it could go on through the mapping added there.
    have stands : (Value.map d.root).node? front = some node := by
      refine leads.node_or_empty.resolve_right ?_
      rintro rfl
      cases stuck with | key other => exact other _ rfl
    rw [Value.reach, Value.update_stuck stands stuck] at after
    exact eq_of_root after
  scope := scope_reach
  rewritten change entries := update_scope change

-- A slot that asks for an item of a mapping adds the keys before it all the same.
example : reach [.key "jobs", .key "queue", .index 0] ⟨[("web", .null)]⟩ =
    (none, ⟨[("web", .null), ("jobs", .map [("queue", .map [])])]⟩) := rfl

end Document

end KeywordConfig
