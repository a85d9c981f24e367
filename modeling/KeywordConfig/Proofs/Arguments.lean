import KeywordConfig.Proofs.Evaluation
import KeywordConfig.Proofs.Acceptance
import KeywordConfig.Proofs.Gathering

namespace KeywordConfig

def Declaration.Admits (d : Declaration) (keyword : String) (value : Value) : Prop :=
  ∀ c ∈ d.validate, c.accepts keyword value = true

-- The mapping that is found, or an empty one where nothing is.
def Value.MappingAt (found : Option Value) (entries : Mapping) : Prop :=
  found = some (.map entries) ∨ found = none ∧ entries = []

def Value.ListAt (found : Option Value) (items : List Value) : Prop :=
  found = some (.list items) ∨ found = none ∧ items = []

-- A value that is no mapping, and the mapping behind it, which may be left out.
inductive Value.Pairs : List Value → Value → Mapping → Prop where
  | lone : value.isMap = false → Pairs [value] value []
  | both : value.isMap = false → Pairs [value, .map given] value given

-- Arguments of a kind are taken where `old` stands under the keyword: the slot of what they have become,
-- from the scope on, and the new value under the keyword. A base keyword writes nothing.
inductive Entry.Effect (e : Entry) (old : Option Value) : Kind → List Value → Slot → Option Value → Prop where
  | base : Effect e old .base args [] none
  | map : e.declaration.Admits e.name (.map given) → Value.MappingAt old entries →
      (old = none → e.declaration.cumulative = false) →
      Effect e old .map [.map given] [.key e.name] (some (.map (Keyed.merge entries given)))
  | scalar : value.isMap = false → e.declaration.Admits e.name value →
      Effect e old .scalar [value] [.key e.name] (some (.str value.text))
  | appended : e.declaration.cumulative = true → Value.Pairs args value given →
      e.declaration.Admits e.name (.map given) → Value.ListAt old items →
      Effect e old .scalarPlusMap args [.key e.name, .index items.length, .index 1]
        (some (.list (items ++ [.list [.str value.text, .map given]])))
  | keyed : e.declaration.cumulative = false → Value.Pairs args value given →
      e.declaration.Admits e.name (.map given) → Value.MappingAt old entries →
      Value.MappingAt (Keyed.get? entries value.text) kept →
      Effect e old .scalarPlusMap args [.key e.name, .key value.text]
        (some (.map (Keyed.insert entries value.text (.map (Keyed.merge kept given)))))

theorem Document.updateScope_held {d : Document} (held : d.Holds slot entries) (change : Mapping → α × Mapping) :
    d.updateScope change slot = (some (change entries).1, d.replace slot (change entries).2) := by
  have changed : d.updateScope change (slot ++ []) = _ := updateScope_append held
  rwa [List.append_nil, updateScope_root] at changed

namespace Content

inductive Shapes : Kind → List Value → Content → Prop where
  | nothing : Shapes .base args .nothing
  | mapping : Shapes .map [.map given] (.mapping given)
  | scalar : value.isMap = false → Shapes .scalar [value] (.scalar value)
  | keyed : Value.Pairs args value given → Shapes .scalarPlusMap args (.keyed value given)

theorem ofArgs_iff {kind : Kind} : ofArgs kind args = some content ↔ Shapes kind args content := by
  constructor
  · intro shaped
    unfold ofArgs at shaped
    split at shaped
    · cases shaped; exact .nothing
    · cases shaped; exact .mapping
    · split at shaped <;> cases shaped
      rename_i plain
      exact .scalar (Bool.eq_false_iff.mpr plain)
    · split at shaped <;> cases shaped
      rename_i plain
      exact .keyed (.lone (Bool.eq_false_iff.mpr plain))
    · split at shaped <;> cases shaped
      rename_i plain
      exact .keyed (.both (Bool.eq_false_iff.mpr plain))
    · cases shaped
  · intro shapes
    cases shapes with
    | nothing => rfl
    | mapping => rfl
    | scalar plain => simp [ofArgs, plain]
    | keyed pairs => cases pairs <;> simp_all [ofArgs]

section

variable {value : Value} {given : Mapping}

theorem mergeInto_ok : mergeInto given (found.getD (if cumulative then .list [] else .map [])) = (.ok (), new) ↔
    ∃ entries, Value.MappingAt found entries ∧ (found = none → cumulative = false) ∧
      new = .map (Keyed.merge entries given) := by
  unfold Value.MappingAt
  cases found with
  | none => cases cumulative <;> simp [mergeInto, eq_comm]
  | some old => cases old <;> simp [mergeInto, eq_comm]

theorem append_ok : append value given (found.getD (.list [])) = (.ok i, new) ↔
    ∃ items, Value.ListAt found items ∧ i = items.length ∧
      new = .list (items ++ [.list [.str value.text, .map given]]) := by
  unfold Value.ListAt
  cases found with
  | none => simp [append, eq_comm]
  | some old => cases old <;> simp [append, eq_comm]

theorem mergeUnder_map : mergeUnder value given (.map entries) = (.ok (), new) ↔
    ∃ kept, Value.MappingAt (Keyed.get? entries value.text) kept ∧
      new = .map (Keyed.insert entries value.text (.map (Keyed.merge kept given))) := by
  unfold mergeUnder Value.visit Value.MappingAt
  dsimp only
  cases Keyed.get? entries value.text with
  | none => simp [mergeInto, eq_comm]
  | some old => cases old <;> simp [mergeInto, eq_comm]

theorem mergeUnder_ok : mergeUnder value given (found.getD (.map [])) = (.ok (), new) ↔
    ∃ entries kept, Value.MappingAt found entries ∧ Value.MappingAt (Keyed.get? entries value.text) kept ∧
      new = .map (Keyed.insert entries value.text (.map (Keyed.merge kept given))) := by
  cases found with
  | none => simp [mergeUnder_map, Value.MappingAt]
  | some old =>
      cases old with
      | map entries => simp [mergeUnder_map, Value.MappingAt]
      | _ => simp [mergeUnder, Value.MappingAt]

end

theorem visit_ok (scope : Mapping) (name : String) (start : Value) (change : Value → Except Obstacle α × Value)
    (place : α → Slot) :
    ((Value.visit scope name start change).1.map place, (Value.visit scope name start change).2) =
        (.ok slot, after) ↔
      ∃ a new, change ((Keyed.get? scope name).getD start) = (.ok a, new) ∧ slot = place a ∧
        after = Keyed.insert scope name new := by
  unfold Value.visit
  generalize change ((Keyed.get? scope name).getD start) = changed
  obtain ⟨result, new⟩ := changed
  cases result with
  | error => simp [Except.map]
  | ok a =>
      constructor
      · intro same
        cases same
        exact ⟨a, new, rfl, rfl, rfl⟩
      · intro found
        obtain ⟨_, _, same, rfl, rfl⟩ := found
        cases same
        rfl

theorem write_mapping_ok : write name cumulative (.mapping given) scope = (.ok slot, after) ↔
    ∃ entries, Value.MappingAt (Keyed.get? scope name) entries ∧ (Keyed.get? scope name = none → cumulative = false) ∧
      slot = [.key name] ∧ after = Keyed.insert scope name (.map (Keyed.merge entries given)) := by
  refine (visit_ok scope name _ (mergeInto given) fun _ => [.key name]).trans ?_
  constructor
  · rintro ⟨_, _, merged, rfl, rfl⟩
    obtain ⟨entries, found, starts, rfl⟩ := mergeInto_ok.mp merged
    exact ⟨entries, found, starts, rfl, rfl⟩
  · rintro ⟨entries, found, starts, rfl, rfl⟩
    exact ⟨(), _, mergeInto_ok.mpr ⟨entries, found, starts, rfl⟩, rfl, rfl⟩

theorem write_pair_ok : write name true (.keyed value given) scope = (.ok slot, after) ↔
    ∃ items, Value.ListAt (Keyed.get? scope name) items ∧ slot = [.key name, .index items.length, .index 1] ∧
      after = Keyed.insert scope name (.list (items ++ [.list [.str value.text, .map given]])) := by
  refine (visit_ok scope name _ (append value given) fun i => [.key name, .index i, .index 1]).trans ?_
  constructor
  · rintro ⟨_, _, appended, rfl, rfl⟩
    obtain ⟨items, found, rfl, rfl⟩ := append_ok.mp appended
    exact ⟨items, found, rfl, rfl⟩
  · rintro ⟨items, found, rfl, rfl⟩
    exact ⟨_, _, append_ok.mpr ⟨items, found, rfl, rfl⟩, rfl, rfl⟩

theorem write_keyed_ok : write name false (.keyed value given) scope = (.ok slot, after) ↔
    ∃ entries kept, Value.MappingAt (Keyed.get? scope name) entries ∧
      Value.MappingAt (Keyed.get? entries value.text) kept ∧ slot = [.key name, .key value.text] ∧
      after = Keyed.insert scope name (.map (Keyed.insert entries value.text (.map (Keyed.merge kept given)))) := by
  refine (visit_ok scope name _ (mergeUnder value given) fun _ => [.key name, .key value.text]).trans ?_
  constructor
  · rintro ⟨_, _, merged, rfl, rfl⟩
    obtain ⟨entries, kept, found, below, rfl⟩ := mergeUnder_ok.mp merged
    exact ⟨entries, kept, found, below, rfl, rfl⟩
  · rintro ⟨entries, kept, found, below, rfl, rfl⟩
    exact ⟨(), _, mergeUnder_ok.mpr ⟨entries, kept, found, below, rfl⟩, rfl, rfl⟩

-- A change that gives back whatever is in its way.
def Refuses (change : Value → Except Obstacle α × Value) : Prop :=
  ∀ old obstacle new, change old = (.error obstacle, new) → new = old

theorem visit_error {change : Value → Except Obstacle α × Value} (refuses : Refuses change)
    (failed : Value.visit scope name start change = (.error obstacle, after)) :
    after = scope ∨ Keyed.get? scope name = none ∧ after = scope ++ [(name, start)] ∧
      ∃ new, change start = (.error obstacle, new) := by
  unfold Value.visit at failed
  cases changed : change ((Keyed.get? scope name).getD start) with
  | mk result new =>
      rw [changed] at failed
      cases failed
      obtain rfl := refuses _ _ _ changed
      cases found : Keyed.get? scope name with
      | none =>
          rw [found] at changed
          exact .inr ⟨rfl, Keyed.insert_new ((Keyed.get?_eq_none _ _).mp found) _, _, changed⟩
      | some old => exact .inl (Keyed.insert_get? found)

theorem mergeInto_refuses (given : Mapping) : Refuses (mergeInto given) := by
  intro old obstacle new failed
  cases old <;> cases failed <;> rfl

theorem append_refuses (value : Value) (given : Mapping) : Refuses (append value given) := by
  intro old obstacle new failed
  cases old <;> cases failed <;> rfl

theorem mergeUnder_refuses (value : Value) (given : Mapping) : Refuses (mergeUnder value given) := by
  intro old obstacle new failed
  cases old with
  | map entries =>
      cases merged : Value.visit entries value.text (.map []) (mergeInto given) with
      | mk result filled =>
          simp only [mergeUnder, merged] at failed
          cases failed
          rcases visit_error (mergeInto_refuses given) merged with rfl | ⟨_, _, _, impossible⟩
          · rfl
          · cases impossible
  | _ => cases failed; rfl

theorem visited_error (visited : Except Obstacle α × Mapping) (place : α → Slot)
    (failed : (visited.1.map place, visited.2) = (.error obstacle, after)) : visited = (.error obstacle, after) := by
  obtain ⟨result, root⟩ := visited
  cases result <;> cases failed
  rfl

-- What stays behind when something is in the way: nothing, but for the list that a cumulative keyword
-- starts as where it takes a mapping.
theorem write_error (failed : write name cumulative content scope = (.error obstacle, after)) :
    after = scope ∨ (∃ given, content = .mapping given) ∧ cumulative = true ∧ Keyed.get? scope name = none ∧
      after = scope ++ [(name, .list [])] := by
  cases content with
  | nothing | scalar => cases failed
  | mapping given =>
      have visited := visited_error (Value.visit scope name _ (mergeInto given)) _ failed
      rcases visit_error (mergeInto_refuses given) visited with rfl | ⟨absent, rfl, _, starts⟩
      · exact .inl rfl
      · cases cumulative with
        | true => exact .inr ⟨⟨given, rfl⟩, rfl, absent, rfl⟩
        | false => cases starts
  | keyed value given =>
      left
      cases cumulative with
      | true =>
          have visited := visited_error (Value.visit scope name _ (append value given)) _ failed
          rcases visit_error (append_refuses value given) visited with rfl | ⟨_, _, _, starts⟩
          · rfl
          · cases starts
      | false =>
          have visited := visited_error (Value.visit scope name _ (mergeUnder value given)) _ failed
          rcases visit_error (mergeUnder_refuses value given) visited with rfl | ⟨_, _, _, starts⟩
          · rfl
          · cases starts

theorem write_stranded (absent : Keyed.get? scope name = none) : write name true (.mapping given) scope =
    (.error ⟨.list [], .map⟩, scope ++ [(name, .list [])]) := by
  simp [write, Value.visit, absent, mergeInto, Except.map, Keyed.insert_new ((Keyed.get?_eq_none _ _).mp absent)]

end Content

theorem Declaration.broken_eq_nil {d : Declaration} (checked : content.checked = some value) :
    d.broken keyword content = [] ↔ d.Admits keyword value := by
  unfold broken Admits Constraint.accepts
  rw [checked]
  cases d.validate <;> simp

namespace Entry

theorem effect_iff (e : Entry) (kind : Kind) (scope : Mapping) :
    (∃ content, (Content.Shapes kind args content ∧ e.declaration.broken e.name content = []) ∧
      content.write e.name e.declaration.cumulative scope = (.ok slot, after)) ↔
    ∃ new, e.Effect (Keyed.get? scope e.name) kind args slot new ∧
      after = new.elim scope (Keyed.insert scope e.name) := by
  constructor
  · rintro ⟨content, ⟨shapes, sound⟩, written⟩
    cases shapes with
    | nothing =>
        cases written
        exact ⟨none, .base, rfl⟩
    | mapping =>
        obtain ⟨entries, found, starts, rfl, rfl⟩ := Content.write_mapping_ok.mp written
        exact ⟨some _, .map ((Declaration.broken_eq_nil rfl).mp sound) found starts, rfl⟩
    | scalar plain =>
        cases written
        exact ⟨some _, .scalar plain ((Declaration.broken_eq_nil rfl).mp sound), rfl⟩
    | keyed pairs =>
        have admits := (Declaration.broken_eq_nil rfl).mp sound
        cases cumulative : e.declaration.cumulative with
        | true =>
            rw [cumulative] at written
            obtain ⟨items, found, rfl, rfl⟩ := Content.write_pair_ok.mp written
            exact ⟨some _, .appended cumulative pairs admits found, rfl⟩
        | false =>
            rw [cumulative] at written
            obtain ⟨entries, kept, found, below, rfl, rfl⟩ := Content.write_keyed_ok.mp written
            exact ⟨some _, .keyed cumulative pairs admits found below, rfl⟩
  · rintro ⟨new, effect, rfl⟩
    cases effect with
    | base =>
        refine ⟨.nothing, ⟨.nothing, ?_⟩, rfl⟩
        unfold Declaration.broken
        cases e.declaration.validate <;> rfl
    | map admits found starts =>
        exact ⟨_, ⟨.mapping, (Declaration.broken_eq_nil rfl).mpr admits⟩,
          Content.write_mapping_ok.mpr ⟨_, found, starts, rfl, rfl⟩⟩
    | scalar plain admits => exact ⟨_, ⟨.scalar plain, (Declaration.broken_eq_nil rfl).mpr admits⟩, rfl⟩
    | appended cumulative pairs admits found =>
        refine ⟨_, ⟨.keyed pairs, (Declaration.broken_eq_nil rfl).mpr admits⟩, ?_⟩
        rw [cumulative]
        exact Content.write_pair_ok.mpr ⟨_, found, rfl, rfl⟩
    | keyed cumulative pairs admits found below =>
        refine ⟨_, ⟨.keyed pairs, (Declaration.broken_eq_nil rfl).mpr admits⟩, ?_⟩
        rw [cumulative]
        exact Content.write_keyed_ok.mpr ⟨_, _, found, below, rfl, rfl⟩

def Passes (e : Entry) (args : List Value) (content : Content) : Prop :=
  Content.Shapes e.declaration.kind args content ∧ e.declaration.broken e.name content = []

theorem store_held (e : Entry) (held : d.Holds e.scope entries) (content : Content) :
    e.store content d = match content.write e.name e.declaration.cumulative entries with
      | (.ok slot, new) => (.ok (e.scope ++ slot), d.replace e.scope new)
      | (.error obstacle, new) =>
          (.error ⟨.occupied e.name obstacle.found obstacle.wanted, e.line⟩, d.replace e.scope new) := by
  by_cases nothing : content = .nothing
  · subst nothing
    show (Except.ok e.scope, d) = (Except.ok (e.scope ++ []), d.replace e.scope entries)
    rw [Document.replace_holds held, List.append_nil]
  · rw [store_eq e nothing, Evaluation.bind_apply, inScope_apply, Document.updateScope_held held]
    unfold settle
    cases content.write e.name e.declaration.cumulative entries with
    | mk result new => cases result <;> rfl

theorem takeArgs_passed (e : Entry) (held : d.Holds e.scope entries) (passes : e.Passes args content) :
    e.takeArgs args d = match content.write e.name e.declaration.cumulative entries with
      | (.ok slot, new) => (.ok (e.scope ++ slot), d.replace e.scope new)
      | (.error obstacle, new) =>
          (.error ⟨.occupied e.name obstacle.found obstacle.wanted, e.line⟩, d.replace e.scope new) := by
  rw [takeArgs_eq]
  simp only [Content.ofArgs_iff.mpr passes.1, passes.2, List.isEmpty_nil, if_true]
  exact e.store_held held content

theorem takeArgs_stopped (e : Entry) (stopped : ∀ content, ¬ e.Passes args content) (d : Document) :
    ∃ err, e.takeArgs args d = (.error err, d) := by
  rw [takeArgs_eq]
  cases shaped : Content.ofArgs e.declaration.kind args with
  | none => exact ⟨_, rfl⟩
  | some content =>
      have broken : ¬ (e.declaration.broken e.name content).isEmpty = true := fun sound =>
        stopped content ⟨Content.ofArgs_iff.mp shaped, List.isEmpty_iff.mp sound⟩
      simp only [if_neg broken]
      exact ⟨_, rfl⟩

theorem takeArgs_ok (e : Entry) (held : d.Holds e.scope entries) : e.takeArgs args d = (.ok slot, after) ↔
    ∃ below written, (∃ content, e.Passes args content ∧
        content.write e.name e.declaration.cumulative entries = (.ok below, written)) ∧
      slot = e.scope ++ below ∧ after = d.replace e.scope written := by
  constructor
  · intro taken
    by_cases passed : ∃ content, e.Passes args content
    · obtain ⟨content, passes⟩ := passed
      rw [e.takeArgs_passed held passes] at taken
      cases write : content.write e.name e.declaration.cumulative entries with
      | mk result new =>
          rw [write] at taken
          cases result with
          | error => cases taken
          | ok below =>
              cases taken
              exact ⟨below, new, ⟨content, passes, write⟩, rfl, rfl⟩
    · obtain ⟨_, failed⟩ := e.takeArgs_stopped (not_exists.mp passed) d
      cases failed.symm.trans taken
  · rintro ⟨below, new, ⟨content, passes, write⟩, rfl, rfl⟩
    rw [e.takeArgs_passed held passes, write]

theorem takeArgs_error (e : Entry) (held : d.Holds e.scope entries)
    (refused : e.takeArgs args d = (.error err, after)) :
    after = d ∨ ∃ content obstacle new, e.Passes args content ∧
      content.write e.name e.declaration.cumulative entries = (.error obstacle, new) ∧
      after = d.replace e.scope new := by
  by_cases passed : ∃ content, e.Passes args content
  · obtain ⟨content, passes⟩ := passed
    rw [e.takeArgs_passed held passes] at refused
    cases write : content.write e.name e.declaration.cumulative entries with
    | mk result new =>
        rw [write] at refused
        cases result with
        | ok => cases refused
        | error obstacle =>
            cases refused
            exact .inr ⟨content, obstacle, new, passes, write, rfl⟩
  · obtain ⟨_, failed⟩ := e.takeArgs_stopped (not_exists.mp passed) d
    cases failed.symm.trans refused
    exact .inl rfl

theorem node?_keyword (e : Entry) {d : Document} (held : d.Holds e.scope entries) :
    d.node? (e.scope ++ [.key e.name]) = Keyed.get? entries e.name := by
  rw [Document.node?_append held (by simp)]
  simp [Document.node?, Value.node?]

-- A value under a keyword is seen from the slots that lead to its scope, and from the keyword on.
theorem node?_beside (e : Entry) {d : Document} (held : d.Holds e.scope entries) (value : Value)
    (above : ¬ other <+: e.scope) (beside : ¬ e.scope ++ [.key e.name] <+: other) :
    (d.replace e.scope (Keyed.insert entries e.name value)).node? other = d.node? other := by
  refine Document.node?_replace_confined held ?_ above (List.forall_mem_singleton.mpr beside)
  intro name apart
  rw [Keyed.get?_insert, if_neg]
  simpa [eq_comm] using apart

-- The arguments of a call are taken exactly where they have an effect, and the effect is all they have: the
-- value under the keyword changes, and nothing that stands beside it.
theorem takeArgs_exact (e : Entry) (args : List Value) (held : d.Holds e.scope entries) :
    (∀ slot after, e.takeArgs args d = (.ok slot, after) ↔
      ∃ below new, e.Effect (d.node? (e.scope ++ [.key e.name])) e.declaration.kind args below new ∧
        slot = e.scope ++ below ∧
        after = new.elim d fun value => d.replace e.scope (Keyed.insert entries e.name value)) ∧
    ∀ slot after, e.takeArgs args d = (.ok slot, after) →
      ∀ other, ¬ other <+: e.scope → ¬ e.scope ++ [.key e.name] <+: other → after.node? other = d.node? other := by
  have effects (slot : Slot) (after : Document) : e.takeArgs args d = (.ok slot, after) ↔
      ∃ below new, e.Effect (d.node? (e.scope ++ [.key e.name])) e.declaration.kind args below new ∧
        slot = e.scope ++ below ∧
        after = new.elim d fun value => d.replace e.scope (Keyed.insert entries e.name value) := by
    have put (new : Option Value) : d.replace e.scope (new.elim entries (Keyed.insert entries e.name)) =
        new.elim d fun value => d.replace e.scope (Keyed.insert entries e.name value) := by
      cases new with
      | none => exact Document.replace_holds held
      | some => rfl
    rw [e.node?_keyword held, e.takeArgs_ok held]
    constructor
    · rintro ⟨below, written, writes, rfl, rfl⟩
      obtain ⟨new, effect, rfl⟩ := (e.effect_iff _ entries).mp writes
      exact ⟨below, new, effect, rfl, put new⟩
    · rintro ⟨below, new, effect, rfl, rfl⟩
      exact ⟨below, _, (e.effect_iff _ entries).mpr ⟨new, effect, rfl⟩, rfl, (put new).symm⟩
  refine ⟨effects, ?_⟩
  intro slot after taken other above beside
  obtain ⟨below, new, _, _, rfl⟩ := (effects slot after).mp taken
  cases new with
  | none => rfl
  | some value => exact e.node?_beside held value above beside

theorem takeArgs_exact_in_pair :
    let d : Document := ⟨[("job", .list [.list [.str "mail",
      .map [("queue", .map [("slow", .map [("size", .int 1)])])]]]), ("env", .null)]⟩
    let e : Entry := {
      name := "queue", declaration := { kind := .scalarPlusMap }, parents := ["job"]
      scope := [.key "job", .index 0, .index 1], line := some 2 }
    let given : Mapping := [("size", .int 2), ("keep", .bool true)]
    d.Holds e.scope [("queue", .map [("slow", .map [("size", .int 1)])])] ∧
    ∃ after, e.takeArgs [.str "slow", .map given] d = (.ok (e.scope ++ [.key "queue", .key "slow"]), after) ∧
      after = d.replace e.scope [("queue", .map [("slow", .map given)])] ∧
      after.node? [.key "env"] = d.node? [.key "env"] := by
  intro d e given
  have held : d.Holds e.scope [("queue", .map [("slow", .map [("size", .int 1)])])] := rfl
  obtain ⟨exact, beside⟩ := takeArgs_exact e [.str "slow", .map given] held
  have free : e.declaration.Admits e.name (.map given) := fun _ none => by cases none
  have found : Value.MappingAt (d.node? (e.scope ++ [.key e.name])) [("slow", .map [("size", .int 1)])] := .inl rfl
  have taken := (exact _ _).mpr ⟨_, _, .keyed rfl (.both rfl) free found (.inl rfl), rfl, rfl⟩
  exact ⟨held, _, taken, rfl, beside _ _ taken [.key "env"] (by decide) (by decide)⟩

-- A keyword that takes a mapping but starts as a list, where nothing stands under it yet. Its arguments
-- pass every check.
structure Stranded (e : Entry) (args : List Value) (d : Document) : Prop where
  kind : e.declaration.kind = .map
  cumulative : e.declaration.cumulative = true
  absent : d.node? (e.scope ++ [.key e.name]) = none
  accepted : ∃ given, args = [.map given] ∧ e.declaration.Admits e.name (.map given)

-- Arguments that are refused leave the document as it was. The value under a stranded keyword is the
-- exception: it is there from its first reading on, and then in the way of what it was read for.
theorem takeArgs_refused (e : Entry) (held : d.Holds e.scope entries)
    (refused : e.takeArgs args d = (.error err, after)) :
    (¬ e.Stranded args d → after = d) ∧
      (e.Stranded args d → err = ⟨.occupied e.name (.list []) .map, e.line⟩ ∧
        after = d.replace e.scope (entries ++ [(e.name, .list [])])) := by
  have absent : d.node? (e.scope ++ [.key e.name]) = none ↔ Keyed.get? entries e.name = none := by
    rw [e.node?_keyword held]
  constructor
  · intro free
    rcases e.takeArgs_error held refused with same | ⟨content, obstacle, new, ⟨shapes, sound⟩, write, rfl⟩
    · exact same
    · rcases Content.write_error write with rfl | ⟨⟨given, rfl⟩, cumulative, missing, _⟩
      · exact Document.replace_holds held
      · generalize kind : e.declaration.kind = kind at shapes
        cases shapes
        have admits := (Declaration.broken_eq_nil rfl).mp sound
        exact absurd ⟨kind, cumulative, absent.mpr missing, given, rfl, admits⟩ free
  · rintro ⟨kind, cumulative, missing, given, rfl, admits⟩
    have passes : e.Passes [.map given] (.mapping given) :=
      ⟨kind ▸ .mapping, (Declaration.broken_eq_nil rfl).mpr admits⟩
    rw [e.takeArgs_passed held passes, cumulative, Content.write_stranded (absent.mp missing)] at refused
    cases refused
    exact ⟨rfl, rfl⟩

-- A text is in the way, below a scope in a list. Where nothing is, the keyword's own list is in the way.
theorem takeArgs_refused_by_text :
    let holding (below : Mapping) : Document := ⟨[("job", .list [.list [.str "mail", .map below]])]⟩
    let d : Document := holding [("queue", .str "slow")]
    let e : Entry := {
      name := "queue", declaration := { kind := .map, cumulative := true }, parents := ["job"]
      scope := [.key "job", .index 0, .index 1], line := some 2 }
    let args : List Value := [.map [("size", .int 1)]]
    d.Holds e.scope [("queue", .str "slow")] ∧
    (∃ err after, e.takeArgs args d = (.error err, after) ∧ ¬ e.Stranded args d ∧ after = d) ∧
    e.Stranded args (holding []) ∧
    ∃ err after, e.takeArgs args (holding []) = (.error err, after) ∧
      err.cause = .occupied "queue" (.list []) .map ∧ err.line = some 2 ∧ after = holding [("queue", .list [])] := by
  intro holding d e args
  have held : d.Holds e.scope [("queue", .str "slow")] := rfl
  have refused : e.takeArgs args d = (.error ⟨.occupied "queue" (.str "slow") .map, some 2⟩, d) := rfl
  have stands : ¬ e.Stranded args d := by
    intro stranded
    cases stranded.absent
  have stranded : e.Stranded args (holding []) := ⟨rfl, rfl, rfl, _, rfl, nofun⟩
  have below : (holding []).Holds e.scope [] := rfl
  have failed : e.takeArgs args (holding []) =
      (.error ⟨.occupied "queue" (.list []) .map, some 2⟩, holding [("queue", .list [])]) := rfl
  obtain ⟨same, left⟩ := (takeArgs_refused e below failed).2 stranded
  exact ⟨held, ⟨_, _, refused, stands, (takeArgs_refused e held refused).1 stands⟩, stranded, _, _, failed,
    congrArg ConfigError.cause same, congrArg ConfigError.line same, left⟩

-- Nothing is written under the keyword, but the list it starts as stays behind.
theorem stranded_list_left : ¬ ∀ (e : Entry) (args : List Value) (d after : Document) (entries : Mapping)
    (err : ConfigError), d.Holds e.scope entries → e.takeArgs args d = (.error err, after) → after = d := by
  intro unchanged
  let e : Entry := {
    name := "web", declaration := { kind := .map, cumulative := true }, parents := [], scope := [], line := some 7 }
  have left : (⟨[("web", .list [])]⟩ : Document) = {} :=
    unchanged e [.map [("host", .str "a")]] {} _ [] ⟨.occupied "web" (.list []) .map, some 7⟩ rfl rfl
  cases left

end Entry

end KeywordConfig
