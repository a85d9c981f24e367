import KeywordConfig.Proofs.Acceptance
import KeywordConfig.Proofs.Equality

namespace KeywordConfig

-- A value of the kind that is asked for, and equal to one of those that are listed.
structure Value.Fits (value : Value) (kind : Option ValueKind) (oneOf : Option (List Value)) : Prop where
  kind : ∀ expected ∈ kind, expected.accepts value = true
  listed : ∀ allowed ∈ oneOf, ∃ one ∈ allowed, Value.Equal one value

-- How a restriction is broken. A value of another kind is not also looked for in the list.
inductive Value.Breaks (value : Value) (target : Target) (kind : Option ValueKind) (oneOf : Option (List Value)) :
    Violation → Prop where
  | kind : expected ∈ kind → expected.accepts value = false →
      Breaks value target kind oneOf (.wrongKind target value expected)
  | listed : (∀ expected ∈ kind, expected.accepts value = true) → allowed ∈ oneOf →
      (∀ one ∈ allowed, ¬ Value.Equal one value) → Breaks value target kind oneOf (.notListed target value allowed)

-- One report for each check that fails, in the order of the checks.
inductive Reported (fails : α → β → Prop) : List α → List β → Prop where
  | nil : Reported fails [] []
  | passed : (∀ report, ¬ fails check report) → Reported fails checks reports →
      Reported fails (check :: checks) reports
  | failed : (∀ other, fails check other ↔ other = report) → Reported fails checks reports →
      Reported fails (check :: checks) (report :: reports)

namespace Reported

variable {fails : α → β → Prop}

theorem append (first : Reported fails front reports) (second : Reported fails back others) :
    Reported fails (front ++ back) (reports ++ others) := by
  induction first with
  | nil => exact second
  | passed free _ ih => exact .passed free ih
  | failed exact _ ih => exact .failed exact ih

theorem single {found : Option β} (exact : ∀ report, fails check report ↔ found = some report) :
    Reported fails [check] found.toList := by
  cases found with
  | none => exact .passed (fun report broken => nomatch (exact report).mp broken) .nil
  | some report => exact .failed (fun other => by simpa [eq_comm] using exact other) .nil

theorem filterMap {find : γ → Option β} {checkOf : γ → α} {sources : List γ}
    (exact : ∀ c ∈ sources, ∀ report, fails (checkOf c) report ↔ find c = some report) :
    Reported fails (sources.map checkOf) (sources.filterMap find) := by
  induction sources with
  | nil => exact .nil
  | cons c sources ih =>
      obtain ⟨here, later⟩ := List.forall_mem_cons.mp exact
      cases found : find c with
      | none =>
          rw [List.filterMap_cons_none found]
          exact .passed (fun report broken => by simpa [found] using (here report).mp broken) (ih later)
      | some report =>
          rw [List.filterMap_cons_some found]
          exact .failed (fun other => by simpa [found, eq_comm] using here other) (ih later)

end Reported

namespace Constraint

-- The first rule of a name. Those for options that are required stand before the others.
def First (c : Constraint) (name : String) (rule : Rule) : Prop :=
  ∃ before after, c.required ++ c.optional = before ++ rule :: after ∧ rule.name = name ∧
    ∀ earlier ∈ before, earlier.name ≠ name

-- The options that are required are there, and each of them all fits the first rule of its name.
structure Covers (c : Constraint) (options : Mapping) : Prop where
  present : ∀ rule ∈ c.required, rule.name ∈ Keyed.keys options
  allowed : ∀ option ∈ options, ∃ rule, c.First option.1 rule ∧ option.2.Fits rule.kind rule.oneOf

-- What a constraint asks of a value.
structure Fulfilled (c : Constraint) (value : Value) : Prop where
  options : c.required ≠ [] ∨ c.optional ≠ [] → ∃ options, value = .map options ∧ c.Covers options
  whole : value.Fits c.kind c.oneOf
  predicate : ∀ predicate ∈ c.predicate, predicate.test value = true

inductive Check where
  | mapping
  | required (rule : Rule)
  | option (entry : String × Value)
  | whole
  | predicate (predicate : Predicate)

def optionChecks (c : Constraint) (value : Value) : List Check :=
  if c.required = [] ∧ c.optional = [] then []
  else match value with
    | .map options => c.required.map .required ++ options.map .option
    | _ => [.mapping]

-- The checks in their order.
def checks (c : Constraint) (value : Value) : List Check :=
  c.optionChecks value ++ [.whole] ++ c.predicate.toList.map .predicate

inductive Check.Fails (c : Constraint) (field : String) (value : Value) : Check → Violation → Prop where
  | mapping : value.isMap = false → Fails c field value .mapping (.notOptions field value)
  | required : value = .map options → rule.name ∉ Keyed.keys options →
      Fails c field value (.required rule) (.missing rule.name field)
  | unknown : (∀ rule ∈ c.required ++ c.optional, rule.name ≠ entry.1) →
      Fails c field value (.option entry) (.unknown entry.1 field ((c.required ++ c.optional).map Rule.name))
  | option : c.First entry.1 rule → entry.2.Breaks (.option entry.1 field) rule.kind rule.oneOf violation →
      Fails c field value (.option entry) violation
  | whole : value.Breaks (.value field) c.kind c.oneOf violation → Fails c field value .whole violation
  | refused : p.test value = false → Fails c field value (.predicate p) (.refused (.value field) value p.description)

theorem First.iff {c : Constraint} : c.First name rule ↔ c.rule? name = some rule := by
  unfold First rule? rules
  rw [List.find?_eq_some_iff_append]
  simp [and_left_comm, exists_and_left]

theorem rule?_none {c : Constraint} : c.rule? name = none ↔ ∀ rule ∈ c.required ++ c.optional, rule.name ≠ name := by
  unfold rule? rules
  rw [List.find?_eq_none]
  simp only [beq_iff_eq, ne_eq]

end Constraint

-- No mapping among the listed values holds a key twice.
def ProperLists (oneOf : Option (List Value)) : Prop := ∀ allowed ∈ oneOf, ∀ one ∈ allowed, one.Proper

structure Constraint.Proper (c : Constraint) : Prop where
  whole : ProperLists c.oneOf
  rules : ∀ rule ∈ c.required ++ c.optional, ProperLists rule.oneOf

theorem any_same {allowed : List Value} (listed : ∀ one ∈ allowed, one.Proper) (proper : value.Proper) :
    allowed.any (fun one => one.same value) = true ↔ ∃ one ∈ allowed, Value.Equal one value := by
  rw [List.any_eq_true]
  exact exists_congr fun one => and_congr_right fun member => Value.same_iff (listed one member) proper

theorem fits_iff (listed : ProperLists oneOf) (proper : value.Proper) :
    restriction target value kind oneOf = none ↔ value.Fits kind oneOf := by
  have found : (∀ allowed ∈ oneOf, allowed.any (fun one => one.same value) = true) ↔
      ∀ allowed ∈ oneOf, ∃ one ∈ allowed, Value.Equal one value :=
    forall₂_congr fun allowed member => any_same (listed allowed member) proper
  rw [restriction_eq_none, found]
  exact ⟨fun both => ⟨both.1, both.2⟩, fun fits => ⟨fits.kind, fits.listed⟩⟩

theorem breaks_iff (listed : ProperLists oneOf) (proper : value.Proper) :
    value.Breaks target kind oneOf violation ↔ restriction target value kind oneOf = some violation := by
  have missed (allowed) (member : allowed ∈ oneOf) : allowed.any (fun one => one.same value) = false ↔
      ∀ one ∈ allowed, ¬ Value.Equal one value := by
    rw [Bool.eq_false_iff, ne_eq, any_same (listed allowed member) proper]
    simp
  constructor
  · intro breaks
    cases breaks with
    | kind asked other =>
        cases asked
        simp [restriction, Option.filter, other]
    | listed fits asked apart =>
        have free : kind.filter (fun expected => !expected.accepts value) = none := by
          simpa [Option.filter_eq_none_iff] using fits
        have absent : oneOf.filter (fun allowed => !allowed.any (fun one => one.same value)) = some _ :=
          Option.filter_eq_some_iff.mpr ⟨asked, by simpa using (missed _ asked).mpr apart⟩
        simp only [restriction, free, absent]
  · intro found
    unfold restriction at found
    split at found
    · rename_i expected wrong
      cases found
      obtain ⟨asked, other⟩ := Option.filter_eq_some_iff.mp wrong
      exact .kind asked (by simpa using other)
    · rename_i right
      split at found
      · rename_i allowed absent
        cases found
        obtain ⟨asked, unlisted⟩ := Option.filter_eq_some_iff.mp absent
        have fits : ∀ expected ∈ kind, expected.accepts value = true := by
          simpa [Option.filter_eq_none_iff] using right
        exact .listed fits asked ((missed allowed asked).mp (by simpa using unlisted))
      · cases found

theorem Keyed.has_iff {entries : Keyed α} : has entries key = true ↔ key ∈ keys entries := by
  unfold has
  rw [Option.isSome_iff_ne_none, ne_eq, get?_eq_none, not_not]

namespace Constraint

variable {c : Constraint}

theorem optionViolation_none (sound : c.Proper) (proper : entry.2.Proper) : c.optionViolation field entry = none ↔
    ∃ rule, c.First entry.1 rule ∧ entry.2.Fits rule.kind rule.oneOf := by
  unfold optionViolation
  cases found : c.rule? entry.1 with
  | none => simp [First.iff, found]
  | some rule =>
      have member := List.mem_of_find?_eq_some found
      simp [First.iff, found, fits_iff (sound.rules rule member) proper]

theorem optionViolation_some (sound : c.Proper) (proper : entry.2.Proper) :
    Check.Fails c field value (.option entry) violation ↔ c.optionViolation field entry = some violation := by
  unfold optionViolation
  cases found : c.rule? entry.1 with
  | none =>
      have unnamed := rule?_none.mp found
      constructor
      · intro fails
        cases fails with
        | unknown => rfl
        | option first =>
          rw [First.iff, found] at first
          cases first
      · intro same
        cases same
        exact .unknown unnamed
  | some rule =>
      have member := List.mem_of_find?_eq_some found
      have named : rule.name = entry.1 := by simpa using List.find?_some found
      simp only [named, ← breaks_iff (sound.rules rule member) proper]
      constructor
      · intro fails
        cases fails with
        | unknown unnamed => exact absurd named (unnamed rule member)
        | option first breaks =>
            rw [First.iff, found] at first
            cases first
            exact breaks
      · exact .option (First.iff.mpr found)

theorem meets_iff (sound : c.Proper) (proper : (Value.map options).Proper) :
    c.Meets field options ↔ c.Covers options := by
  have each (option) (member : option ∈ options) : c.optionViolation field option = none ↔ _ :=
    optionViolation_none sound ((Value.proper_map.mp proper).2 option member)
  constructor
  · intro meets
    exact ⟨fun rule required => Keyed.has_iff.mp (meets.present rule required),
      fun option member => (each option member).mp (meets.allowed option member)⟩
  · intro covers
    exact ⟨fun rule required => Keyed.has_iff.mpr (covers.present rule required),
      fun option member => (each option member).mpr (covers.allowed option member)⟩

theorem optionViolations_nil (sound : c.Proper) (proper : value.Proper) : c.optionViolations field value = [] ↔
    (c.required ≠ [] ∨ c.optional ≠ [] → ∃ options, value = .map options ∧ c.Covers options) := by
  have named : c.required ≠ [] ∨ c.optional ≠ [] ↔ ¬ c.rules.isEmpty = true := by
    simp [rules, Classical.or_iff_not_imp_left]
  rw [named]
  cases value with
  | map options => simp [optionViolations_map, meets_iff sound proper, Classical.or_iff_not_imp_left]
  | _ => simp [optionViolations]

theorem accepts_fulfilled (sound : c.Proper) (proper : value.Proper) :
    c.accepts field value = true ↔ c.Fulfilled value := by
  have fits : (∀ expected ∈ c.kind, expected.accepts value = true) ∧
      (∀ allowed ∈ c.oneOf, allowed.any (fun one => one.same value) = true) ↔ value.Fits c.kind c.oneOf :=
    (@restriction_eq_none (.value field) value c.kind c.oneOf).symm.trans (fits_iff sound.whole proper)
  rw [accepts_iff, optionViolations_nil sound proper, ← and_assoc (c := ∀ _ ∈ c.predicate, _), fits]
  exact ⟨fun parts => ⟨parts.1, parts.2.1, parts.2.2⟩, fun held => ⟨held.options, held.whole, held.predicate⟩⟩

theorem missing_reported (field : String) (options : Mapping) :
    Reported (Check.Fails c field (.map options)) (c.required.map .required) (c.missing field options) := by
  have found : c.missing field options = c.required.filterMap fun rule =>
      if Keyed.has options rule.name then none else some (.missing rule.name field) := by
    unfold missing
    rw [← List.filterMap_eq_map, List.filterMap_filter]
    exact List.filterMap_congr fun rule _ => by cases Keyed.has options rule.name <;> rfl
  rw [found]
  refine .filterMap fun rule _ report => ?_
  by_cases present : Keyed.has options rule.name = true
  · rw [if_pos present]
    constructor
    · intro fails
      cases fails with
      | required same absent =>
          cases same
          exact absurd (Keyed.has_iff.mp present) absent
    · nofun
  · rw [if_neg present, Option.some_inj]
    constructor
    · intro fails
      cases fails
      rfl
    · rintro rfl
      exact .required rfl (mt Keyed.has_iff.mpr present)

theorem optionViolations_reported (sound : c.Proper) (proper : value.Proper) (field : String) :
    Reported (Check.Fails c field value) (c.optionChecks value) (c.optionViolations field value) := by
  have free : c.rules.isEmpty = true ↔ c.required = [] ∧ c.optional = [] := by simp [rules]
  unfold optionChecks optionViolations
  simp only [free]
  split
  · exact .nil
  · cases value with
    | map options =>
        have values := (Value.proper_map.mp proper).2
        exact (missing_reported field options).append
          (.filterMap fun option member violation => optionViolation_some sound (values option member))
    | _ =>
        refine .failed (fun other => ?_) .nil
        constructor
        · intro fails
          cases fails
          rfl
        · rintro rfl
          exact .mapping rfl

theorem predicateViolation_reported (c : Constraint) (field : String) (value : Value) :
    Reported (Check.Fails c field value) (c.predicate.toList.map .predicate)
      (c.predicateViolation field value).toList := by
  unfold predicateViolation
  cases c.predicate with
  | none => exact .nil
  | some p =>
      refine .single fun report => ?_
      constructor
      · intro fails
        cases fails with | refused broken => simp [Option.filter, broken]
      · intro found
        cases held : p.test value with
        | true => simp [Option.filter, held] at found
        | false =>
            simp only [Option.filter, held, Bool.not_false, if_true, Option.map_some, Option.some_inj] at found
            exact found ▸ .refused held

theorem violations_reported (sound : c.Proper) (proper : value.Proper) (field : String) :
    Reported (Check.Fails c field value) (c.checks value) (c.violations field value) := by
  have whole : Reported (Check.Fails c field value) [.whole]
      (restriction (.value field) value c.kind c.oneOf).toList := by
    refine .single fun report => ?_
    rw [← breaks_iff sound.whole proper]
    constructor
    · intro fails
      cases fails with | whole breaks => exact breaks
    · exact .whole
  exact ((optionViolations_reported sound proper field).append whole).append (c.predicateViolation_reported field value)

end Constraint

theorem Violation.message_ne (v : Violation) : v.message ≠ "" := by
  cases v <;> simp [message, notValid, toString]

namespace Constraint

theorem message_eq_empty : message found = "" ↔ found = [] := by
  unfold message
  match found with
  | [] => simp
  | [violation] => simpa using violation.message_ne
  | first :: second :: rest => simp [String.intercalate_cons_cons]

-- A constraint decides what it says, and reports each failing check once: the options that are missing, then those
-- that are given and wrong, then what is wrong with the whole value.
theorem verdict_exact {c : Constraint} (sound : c.Proper) (proper : value.Proper) (field : String) :
    (c.accepts field value = true ↔ c.Fulfilled value) ∧
    (∃ found, Reported (Check.Fails c field value) (c.checks value) found ∧
      message (c.violations field value) = ", ".intercalate (found.map Violation.message)) ∧
    (message (c.violations field value) = "" ↔ c.accepts field value = true) := by
  refine ⟨accepts_fulfilled sound proper, ⟨_, violations_reported sound proper field, rfl⟩, ?_⟩
  rw [message_eq_empty, accepts, List.isEmpty_iff]

-- One name is required twice, and the keys of the listed mapping stand in another order. A value of the wrong kind is
-- not compared with what is listed for it.
theorem verdict_exact_of_options :
    let mode : Value := .map [("fast", .int 1), ("safe", .null)]
    let c : Constraint := {
      required := [{ name := "host" }, { name := "host", kind := some .integer }]
      optional := [{ name := "mode", oneOf := some [mode] },
        { name := "port", kind := some .integer, oneOf := some [.int 80] }]
      kind := some .map }
    let value : Value := .map [("mode", .map [("safe", .null), ("fast", .int 1)]), ("hots", .null), ("port", .str "80")]
    let text := "option `host` is required for 'web', option `host` is required for 'web', " ++
      "`hots` is not a valid option for 'web'; valid options are: host, host, mode, port, " ++
      "`80` is not a valid value for `port` of 'web'; expected an integer, got string"
    c.Proper ∧ value.Proper ∧ ¬ c.Fulfilled value ∧
      ∃ found, Reported (Check.Fails c "web" value) (c.checks value) found ∧
        ", ".intercalate (found.map Violation.message) = text := by
  intro mode c value text
  have modes : mode.Proper := .map (by unfold Keyed.Distinct; decide) (by simp [Value.Proper.int, Value.Proper.null])
  have sound : c.Proper := by
    refine ⟨nofun, ?_⟩
    simp [c, ProperLists, modes, Value.Proper.int]
  have moved : (Value.map [("safe", .null), ("fast", .int 1)]).Proper :=
    .map (by unfold Keyed.Distinct; decide) (by simp [Value.Proper.int, Value.Proper.null])
  have proper : value.Proper :=
    .map (by unfold Keyed.Distinct; decide) (by simp [moved, Value.Proper.str, Value.Proper.null])
  have told : message (c.violations "web" value) = text := by decide +kernel
  obtain ⟨decides, ⟨found, reported, joined⟩, silent⟩ := verdict_exact sound proper "web"
  have refused : ¬ c.Fulfilled value := by
    rw [← decides, ← silent, told]
    decide
  exact ⟨sound, proper, refused, found, reported, joined.symm.trans told⟩

theorem First.of_append {c : Constraint} (split : c.required ++ c.optional = before ++ rule :: after)
    (first : c.First rule.name chosen) (fresh : ∀ earlier ∈ before, earlier.name ≠ rule.name) : chosen = rule := by
  have here : c.First rule.name rule := ⟨before, after, split, rfl, fresh⟩
  rw [First.iff] at first here
  exact Option.some_inj.mp (first.symm.trans here)

-- An option that is accepted fits the first rule of its name, and so every rule that no other of the name precedes.
theorem restriction_kept {c : Constraint} (sound : c.Proper) (proper : (Value.map options).Proper)
    (accepted : c.accepts field (.map options) = true) (split : c.required ++ c.optional = before ++ rule :: after)
    (given : Keyed.get? options rule.name = some value) :
    ∃ first, c.First rule.name first ∧ value.Fits first.kind first.oneOf ∧
      ((∀ earlier ∈ before, earlier.name ≠ rule.name) → first = rule) := by
  have named : c.required ≠ [] ∨ c.optional ≠ [] := by
    rw [← not_and_or, ← List.append_eq_nil_iff, split]
    simp
  obtain ⟨_, same, covers⟩ := ((accepts_fulfilled sound proper).mp accepted).options named
  cases same
  obtain ⟨first, found, fits⟩ := covers.allowed _ (Keyed.mem_of_get? given)
  exact ⟨first, found, fits, First.of_append split found⟩

theorem restriction_kept_of_mode :
    let rule : Rule := { name := "mode", oneOf := some [.str "jvm", .str "native"] }
    let c : Constraint := {
      required := [{ name := "host" }], optional := [rule, { name := "mode", kind := some .integer }] }
    let options : Mapping := [("mode", .str "jvm"), ("host", .null)]
    c.Proper ∧ (Value.map options).Proper ∧ c.accepts "web" (.map options) = true ∧
      (Value.str "jvm").Fits rule.kind rule.oneOf := by
  intro rule c options
  have sound : c.Proper := by
    refine ⟨nofun, ?_⟩
    simp [c, rule, ProperLists, Value.Proper.str]
  have proper : (Value.map options).Proper :=
    .map (by unfold Keyed.Distinct; decide) (by simp [options, Value.Proper.str, Value.Proper.null])
  have accepted : c.accepts "web" (.map options) = true := rfl
  have split : c.required ++ c.optional =
      [{ name := "host" }] ++ rule :: [{ name := "mode", kind := some .integer }] := rfl
  obtain ⟨first, _, fits, same⟩ := restriction_kept sound proper accepted split rfl
  exact ⟨sound, proper, accepted, same (by simp [rule]) ▸ fits⟩

-- A name that is required without more hides what another rule says of it.
theorem later_restriction_lost : ¬ ∀ (c : Constraint) (field : String) (options : Mapping) (rule : Rule)
    (value : Value),
    c.accepts field (.map options) = true → rule ∈ c.required ++ c.optional →
    Keyed.get? options rule.name = some value → value.Fits rule.kind rule.oneOf := by
  intro kept
  let rule : Rule := { name := "mode", kind := some .integer }
  let c : Constraint := { required := [{ name := "mode" }], optional := [rule] }
  have fits := kept c "web" [("mode", .str "x")] rule (.str "x") rfl (by simp [c]) rfl
  cases fits.kind .integer rfl

end Constraint

end KeywordConfig
