import KeywordConfig.Proofs.Acceptance
import KeywordConfig.Proofs.Admission

namespace KeywordConfig

-- The mapping of every pair is accepted.
def Constraint.AcceptsPairs (c : Constraint) (field : String) (value : Value) : Prop :=
  ∃ items, value = .list items ∧ ∀ item ∈ items, ∃ text options,
    item = .list [.str text, .map options] ∧ c.accepts field (.map options) = true

-- The mapping under every name is accepted.
def Constraint.AcceptsInner (c : Constraint) (field : String) (value : Value) : Prop :=
  ∃ inner, value = .map inner ∧ ∀ entry ∈ inner, ∃ options,
    entry.2 = .map options ∧ c.accepts field (.map options) = true

-- What the value under a keyword keeps of the constraint of its declaration.
structure Declaration.Stores (d : Declaration) (c : Constraint) (field : String) (value : Value) : Prop where
  whole : d.kind = .map → c.Piecewise → c.accepts field value = true
  inner : d.kind = .scalarPlusMap → d.cumulative = false → c.Piecewise → c.AcceptsInner field value
  pairs : d.kind = .scalarPlusMap → d.cumulative = true → c.AcceptsPairs field value

namespace Declaration.Stores

-- Each of the three is about declarations of its own.
variable {d : Declaration} {c : Constraint}

theorem ofWhole (kind : d.kind = .map) (accepted : c.Piecewise → c.accepts field value = true) :
    d.Stores c field value :=
  ⟨fun _ => accepted, by simp [kind], by simp [kind]⟩

theorem ofInner (kind : d.kind = .scalarPlusMap) (single : d.cumulative = false)
    (accepted : c.Piecewise → c.AcceptsInner field value) : d.Stores c field value :=
  ⟨by simp [kind], fun _ _ => accepted, by simp [single]⟩

theorem ofPairs (kind : d.kind = .scalarPlusMap) (cumulative : d.cumulative = true)
    (accepted : c.AcceptsPairs field value) : d.Stores c field value :=
  ⟨by simp [kind], by simp [cumulative], fun _ _ => accepted⟩

end Declaration.Stores

theorem Value.visit_ok {change : Value → Except ε α × Value}
    (visited : visit before name start change = (.ok a, after)) :
    ∃ old new, (old = start ∨ Keyed.get? before name = some old) ∧ change old = (.ok a, new) ∧
      after = Keyed.insert before name new := by
  cases changed : change ((Keyed.get? before name).getD start) with
  | mk result new =>
      simp only [visit, changed] at visited
      cases visited
      refine ⟨_, new, ?_, changed, rfl⟩
      cases Keyed.get? before name with
      | none => exact .inl rfl
      | some value => exact .inr rfl

namespace Content

theorem visit_merge (visited : Value.visit before name start (mergeInto source) = (.ok done, after))
    (empty : ∀ options, start = .map options → options = []) :
    ∃ options, (options = [] ∨ Keyed.get? before name = some (.map options)) ∧
      after = Keyed.insert before name (.map (Keyed.merge options source)) := by
  obtain ⟨old, new, found, merged, rfl⟩ := Value.visit_ok visited
  cases old with
  | map options =>
      cases merged
      exact ⟨options, found.imp_left fun same => empty options same.symm, rfl⟩
  | _ => cases merged

theorem visited_of_slot (visited : Except Obstacle α × Mapping) (place : α → Slot)
    (written : (visited.1.map place, visited.2) = (.ok slot, after)) : ∃ a, visited = (.ok a, after) := by
  obtain ⟨result, root⟩ := visited
  cases result with
  | error => cases written
  | ok a => cases written; exact ⟨a, rfl⟩

theorem write_mapping (written : write name cumulative (.mapping source) before = (.ok slot, after)) :
    ∃ options, (options = [] ∨ Keyed.get? before name = some (.map options)) ∧
      after = Keyed.insert before name (.map (Keyed.merge options source)) := by
  obtain ⟨_, visited⟩ := visited_of_slot (Value.visit before name _ (mergeInto source)) _ written
  refine visit_merge visited ?_
  intro options
  cases cumulative <;> intro same <;> cases same
  rfl

theorem write_pair (written : write name true (.keyed value source) before = (.ok slot, after)) :
    ∃ items, (items = [] ∨ Keyed.get? before name = some (.list items)) ∧
      after = Keyed.insert before name (.list (items ++ [.list [.str value.text, .map source]])) := by
  obtain ⟨i, visited⟩ := visited_of_slot (Value.visit before name _ (append value source)) _ written
  obtain ⟨old, new, found, appended, rfl⟩ := Value.visit_ok visited
  cases old with
  | list items =>
      cases appended
      exact ⟨items, found.imp_left fun same => by cases same; rfl, rfl⟩
  | _ => cases appended

theorem write_inner (written : write name false (.keyed value source) before = (.ok slot, after)) :
    ∃ inner options, (inner = [] ∨ Keyed.get? before name = some (.map inner)) ∧
      (options = [] ∨ Keyed.get? inner value.text = some (.map options)) ∧
      after = Keyed.insert before name
        (.map (Keyed.insert inner value.text (.map (Keyed.merge options source)))) := by
  obtain ⟨_, visited⟩ := visited_of_slot (Value.visit before name _ (mergeUnder value source)) _ written
  obtain ⟨old, new, found, merged, rfl⟩ := Value.visit_ok visited
  cases old with
  | map inner =>
      cases below : Value.visit inner value.text (.map []) (mergeInto source) with
      | mk result filled =>
          simp only [mergeUnder, below] at merged
          cases merged
          obtain ⟨options, stood, rfl⟩ := visit_merge below fun options same => by cases same; rfl
          exact ⟨inner, options, found.imp_left fun same => by cases same; rfl, stood, rfl⟩
  | _ => cases merged

end Content

section

variable {registry : Registry} {keyword : String} {d : Declaration} {c : Constraint}

-- Whatever stands under the keyword keeps to the constraint.
def Kept (d : Declaration) (c : Constraint) (keyword : String) (root : Mapping) : Prop :=
  ∀ value, Keyed.get? root keyword = some value → d.Stores c keyword value

theorem Kept.insert (stored : d.Stores c keyword value) : Kept d c keyword (Keyed.insert before keyword value) := by
  intro other there
  simp only [Keyed.get?_insert, if_true, Option.some.injEq] at there
  exact there ▸ stored

section

variable (kept : Kept d c keyword before)

include kept

theorem Kept.mapping (kind : d.kind = .map)
    (written : Content.write keyword d.cumulative (.mapping source) before = (.ok slot, after))
    (given : c.accepts keyword (.map source) = true) : Kept d c keyword after := by
  obtain ⟨options, found, rfl⟩ := Content.write_mapping written
  refine insert (.ofWhole kind ?_)
  intro piecewise
  refine Constraint.accepts_merge piecewise ?_ given
  exact found.imp_right fun stood => (kept _ stood).whole kind piecewise

theorem Kept.pair (kind : d.kind = .scalarPlusMap) (cumulative : d.cumulative = true)
    (written : Content.write keyword d.cumulative (.keyed value source) before = (.ok slot, after))
    (given : c.accepts keyword (.map source) = true) : Kept d c keyword after := by
  rw [cumulative] at written
  obtain ⟨items, found, rfl⟩ := Content.write_pair written
  have earlier : ∀ item ∈ items, ∃ text options,
      item = .list [.str text, .map options] ∧ c.accepts keyword (.map options) = true := by
    rcases found with rfl | stood
    · exact nofun
    · obtain ⟨_, same, accepted⟩ := (kept _ stood).pairs kind cumulative
      cases same
      exact accepted
  refine insert (.ofPairs kind cumulative ⟨_, rfl, ?_⟩)
  refine List.forall_mem_append.mpr ⟨earlier, ?_⟩
  exact List.forall_mem_singleton.mpr ⟨_, _, rfl, given⟩

theorem Kept.inner (kind : d.kind = .scalarPlusMap) (single : d.cumulative = false)
    (written : Content.write keyword d.cumulative (.keyed value source) before = (.ok slot, after))
    (given : c.accepts keyword (.map source) = true) : Kept d c keyword after := by
  rw [single] at written
  obtain ⟨inner, options, found, below, rfl⟩ := Content.write_inner written
  refine insert (.ofInner kind single ?_)
  intro piecewise
  have earlier : ∀ entry ∈ inner, ∃ options,
      entry.2 = .map options ∧ c.accepts keyword (.map options) = true := by
    rcases found with rfl | stood
    · exact nofun
    · obtain ⟨_, same, accepted⟩ := (kept _ stood).inner kind single piecewise
      cases same
      exact accepted
  have before : options = [] ∨ c.accepts keyword (.map options) = true := by
    refine below.imp_right fun stood => ?_
    obtain ⟨_, same, accepted⟩ := earlier _ (Keyed.mem_of_get? stood)
    cases same
    exact accepted
  refine ⟨_, rfl, ?_⟩
  intro entry member
  rcases Keyed.mem_insert member with old | rfl
  · exact earlier entry old
  · exact ⟨_, rfl, Constraint.accepts_merge piecewise before given⟩

end

theorem Visit.Writes.kept {v : Visit} (writes : v.Writes registry other content slot before after)
    (known : registry.resolve keyword = some d) (constrained : d.validate = some c)
    (kept : Kept d c keyword before) : Kept d c keyword after := by
  have ⟨resolved, sound, shaped, written⟩ := writes
  by_cases same : v.keyword = keyword
  · subst same
    cases known.symm.trans resolved
    obtain ⟨_, _, _, _, rejected⟩ := checks_of_known sound known
    have kind := (Content.ofArgs_kind shaped).symm
    cases content with
    | nothing =>
        cases written
        exact kept
    | scalar value =>
        intro stored _
        exact ⟨by simp [kind, Content.kind], by simp [kind, Content.kind], by simp [kind, Content.kind]⟩
    | mapping source =>
        exact kept.mapping kind written (accepts_of_unbroken shaped rejected constrained rfl)
    | keyed value source =>
        have given := accepts_of_unbroken shaped rejected constrained rfl
        cases cumulative : d.cumulative with
        | true => exact kept.pair kind cumulative written given
        | false => exact kept.inner kind cumulative written given
  · intro value stored
    exact kept value ((writes.confined.same keyword (by simpa using Ne.symm same)).symm.trans stored)

def Registry.Level (registry : Registry) : Prop :=
  ∀ keyword d, registry.resolve keyword = some d → d.nested = false

theorem runs_kept (runs : Runs registry parents receiver calls before after) (level : registry.Level)
    (known : registry.resolve keyword = some d) (constrained : d.validate = some c)
    (kept : Kept d c keyword before) : Kept d c keyword after := by
  induction runs with
  | done => exact kept
  | inert _ _ ih => exact ih kept
  | alone writes _ _ ih => exact ih (writes.kept known constrained kept)
  | beside writes _ _ _ _ inner ih => exact ih (inner (writes.kept known constrained kept))
  | inside writes _ moves => simp [Declaration.moves, level _ _ writes.known] at moves

end

-- In the document of a script, the constraint of a keyword accepts the mappings under the keyword.
theorem stored_accepted {registry : Registry} (level : registry.Level)
    (known : registry.resolve keyword = some d) (constrained : d.validate = some c)
    (interpreted : interpret script registry = .ok document)
    (stored : document.get? keyword = some value) : d.Stores c keyword value := by
  obtain ⟨_, _, runs⟩ := interpret_exact.mp interpreted
  have start : Kept d c keyword [] := nofun
  exact runs_kept runs level known constrained start value stored

-- No call gives all that stands under the first two keywords. The constraint of the last one is about
-- the whole mapping, and it accepts both of those that are given.
theorem stored_accepted_merged :
    let port : Constraint := { required := [⟨"host", none, some .string⟩], optional := [⟨"port", some [.int 1], none⟩] }
    let size : Constraint := { optional := [⟨"size", none, some .integer⟩], kind := some .map }
    let mode : Constraint := { oneOf := some [.map [], .map [("fast", .bool true)]] }
    let web : Declaration := { kind := .map, allowBlock := true, validate := some port }
    let pool : Declaration := { kind := .scalarPlusMap, validate := some size }
    let job : Declaration := { kind := .scalarPlusMap, cumulative := true, validate := some mode }
    let registry : Registry := ⟨[("web", web), ("pool", pool), ("job", job)]⟩
    let script := "web 'host' => 'a', port: 1\nweb('host' => 'b') do\n pool 'x', size: 1\n job 'm'\nend\njob 'm', fast: true\npool 'y'\npool 'x'"
    let hosts : Value := .map [("host", .str "b"), ("port", .int 1)]
    let pools : Value := .map [("x", .map [("size", .int 1)]), ("y", .map [])]
    let jobs : Value := .list [.list [.str "m", .map []], .list [.str "m", .map [("fast", .bool true)]]]
    registry.Level ∧ interpret script registry = .ok ⟨[("web", hosts), ("pool", pools), ("job", jobs)]⟩ ∧
      web.Stores port "web" hosts ∧ pool.Stores size "pool" pools ∧ job.Stores mode "job" jobs := by
  intro port size mode web pool job registry script hosts pools jobs
  have level : registry.Level := by
    intro keyword d resolved
    have listed := Keyed.mem_of_get? resolved
    simp only [registry, List.mem_cons, List.not_mem_nil, Prod.mk.injEq, or_false] at listed
    rcases listed with ⟨_, rfl⟩ | ⟨_, rfl⟩ | ⟨_, rfl⟩ <;> rfl
  have interpreted : interpret script registry =
      .ok ⟨[("web", hosts), ("pool", pools), ("job", jobs)]⟩ := by
    subst hosts pools jobs registry web pool job port size mode script
    cbv
  exact ⟨level, interpreted, stored_accepted level rfl rfl interpreted rfl,
    stored_accepted level rfl rfl interpreted rfl, stored_accepted level rfl rfl interpreted rfl⟩

end KeywordConfig
