import KeywordConfig.Constraint

namespace KeywordConfig

theorem ValueKind.accepts_map (kind : ValueKind) (options others : Mapping) :
    kind.accepts (.map options) = kind.accepts (.map others) := by
  cases kind <;> rfl

theorem restriction_eq_none : restriction target value kind oneOf = none ↔
    (∀ expected ∈ kind, expected.accepts value = true) ∧
      ∀ allowed ∈ oneOf, allowed.any (fun one => one.same value) = true := by
  have kinds : kind.filter (fun expected => !expected.accepts value) = none ↔
      ∀ expected ∈ kind, expected.accepts value = true := by
    simp [Option.filter_eq_none_iff]
  have listed : oneOf.filter (fun allowed => !allowed.any (fun one => one.same value)) = none ↔
      ∀ allowed ∈ oneOf, allowed.any (fun one => one.same value) = true := by
    simp [Option.filter_eq_none_iff]
  unfold restriction
  rw [← kinds, ← listed]
  cases kind.filter (fun expected => !expected.accepts value) with
  | some expected => simp
  | none => cases oneOf.filter (fun allowed => !allowed.any (fun one => one.same value)) <;> simp

namespace Constraint

theorem predicateViolation_eq_none {c : Constraint} (field : String) : c.predicateViolation field value = none ↔
    ∀ predicate ∈ c.predicate, predicate.test value = true := by
  unfold predicateViolation
  cases c.predicate <;> simp [Option.filter]

theorem accepts_iff {c : Constraint} : c.accepts field value = true ↔ c.optionViolations field value = [] ∧
    (∀ expected ∈ c.kind, expected.accepts value = true) ∧
    (∀ allowed ∈ c.oneOf, allowed.any (fun one => one.same value) = true) ∧
    ∀ predicate ∈ c.predicate, predicate.test value = true := by
  rw [← predicateViolation_eq_none field]
  simp [accepts, violations, List.isEmpty_iff, restriction_eq_none, and_assoc]

-- Nothing is said about the whole value but of what kind it is.
structure Piecewise (c : Constraint) : Prop where
  unlisted : c.oneOf = none
  free : c.predicate = none

structure Meets (c : Constraint) (field : String) (options : Mapping) : Prop where
  present : ∀ rule ∈ c.required, Keyed.has options rule.name = true
  allowed : ∀ option ∈ options, c.optionViolation field option = none

theorem optionViolations_map {c : Constraint} : c.optionViolations field (.map options) = [] ↔
    (c.rules.isEmpty = true ∨ c.Meets field options) := by
  unfold optionViolations missing
  by_cases free : c.rules.isEmpty
  · simp [free]
  · simp only [free, Bool.false_eq_true, if_false, false_or, List.append_eq_nil_iff, List.map_eq_nil_iff,
      List.filter_eq_nil_iff, List.filterMap_eq_nil_iff]
    constructor
    · intro unbroken
      obtain ⟨present, allowed⟩ := unbroken
      exact ⟨fun rule member => by simpa using present rule member, allowed⟩
    · intro meets
      obtain ⟨present, allowed⟩ := meets
      exact ⟨fun rule member => by simp [present rule member], allowed⟩

theorem accepts_map {c : Constraint} (piecewise : c.Piecewise) : c.accepts field (.map options) = true ↔
    (c.rules.isEmpty = true ∨ c.Meets field options) ∧ ∀ kind ∈ c.kind, kind.accepts (.map []) = true := by
  rw [accepts_iff, optionViolations_map, piecewise.unlisted, piecewise.free]
  simp only [Option.not_mem_none, false_implies, implies_true, and_true,
    fun kind : ValueKind => kind.accepts_map options []]

theorem Meets.merge {c : Constraint} (before : ∀ option ∈ into, c.optionViolation field option = none)
    (given : c.Meets field source) : c.Meets field (Keyed.merge into source) := by
  constructor
  · intro rule required
    simp [Keyed.has_merge, given.present rule required]
  · intro option member
    rcases Keyed.mem_merge member with old | new
    · exact before option old
    · exact given.allowed option new

theorem accepts_merge {c : Constraint} (piecewise : c.Piecewise)
    (before : into = [] ∨ c.accepts field (.map into) = true) (given : c.accepts field (.map source) = true) :
    c.accepts field (.map (Keyed.merge into source)) = true := by
  rw [accepts_map piecewise] at given before ⊢
  obtain ⟨options, kind⟩ := given
  refine ⟨?_, kind⟩
  rcases options with free | meets
  · exact .inl free
  · by_cases free : c.rules.isEmpty = true
    · exact .inl free
    · refine .inr (meets.merge ?_)
      rcases before with rfl | ⟨old, _⟩
      · exact nofun
      · exact (old.resolve_left free).allowed

end Constraint

end KeywordConfig
