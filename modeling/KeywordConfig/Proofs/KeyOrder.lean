import KeywordConfig.Proofs.Verdicts

namespace KeywordConfig

structure Rule.Reordered (rule other : Rule) : Prop where
  name : rule.name = other.name
  kind : rule.kind = other.kind
  oneOf : Option.Rel (List.Forall₂ Value.Reordered) rule.oneOf other.oneOf

structure Constraint.Reordered (c d : Constraint) : Prop where
  required : List.Forall₂ Rule.Reordered c.required d.required
  optional : List.Forall₂ Rule.Reordered c.optional d.optional
  kind : c.kind = d.kind
  oneOf : Option.Rel (List.Forall₂ Value.Reordered) c.oneOf d.oneOf
  predicate : c.predicate = d.predicate

theorem forall₂_symm {r : α → α → Prop} (back : ∀ a b, r a b → r b a) (related : List.Forall₂ r as bs) :
    List.Forall₂ r bs as :=
  List.Forall₂.flip (related.imp back)

theorem forall₂_find? {r : α → β → Prop} (same : ∀ a b, r a b → p a = q b) (related : List.Forall₂ r as bs) :
    Option.Rel r (as.find? p) (bs.find? q) := by
  induction related with
  | nil => exact .none
  | @cons a b _ _ here _ ih =>
      rw [List.find?_cons, List.find?_cons, ← same a b here]
      split
      · exact .some here
      · exact ih

namespace Value.Reordered

theorem list_symm (listed : Option.Rel (List.Forall₂ Value.Reordered) given other) :
    Option.Rel (List.Forall₂ Value.Reordered) other given := by
  cases listed with
  | some related => exact .some (forall₂_symm (fun _ _ => symm) related)
  | none => exact .none

theorem listed (related : Option.Rel (List.Forall₂ Value.Reordered) given other) (sound : ProperLists given) :
    ProperLists other := by
  cases related with
  | none => exact nofun
  | some related =>
      rintro _ ⟨⟩ one member
      obtain ⟨old, inside, moved⟩ := forall₂_left (forall₂_symm (fun _ _ => symm) related) member
      exact moved.proper (sound _ rfl old inside)

theorem accepts (reordered : Value.Reordered v w) (kind : ValueKind) : kind.accepts v = kind.accepts w := by
  cases reordered <;> cases kind <;> rfl

theorem fits (reordered : Value.Reordered v w) (related : Option.Rel (List.Forall₂ Value.Reordered) given other)
    (held : v.Fits kind given) : w.Fits kind other := by
  refine ⟨fun expected asked => reordered.accepts expected ▸ held.kind expected asked, ?_⟩
  cases related with
  | none => exact nofun
  | some related =>
      rintro _ ⟨⟩
      obtain ⟨one, member, equal⟩ := held.listed _ rfl
      obtain ⟨moved, inside, order⟩ := forall₂_left related member
      exact ⟨moved, inside, order.equal reordered equal⟩

end Value.Reordered

theorem Rule.Reordered.symm (reordered : Rule.Reordered rule other) : other.Reordered rule :=
  ⟨reordered.name.symm, reordered.kind.symm, Value.Reordered.list_symm reordered.oneOf⟩

namespace Constraint

variable {c d : Constraint}

theorem Reordered.symm (reordered : c.Reordered d) : d.Reordered c where
  required := forall₂_symm (fun _ _ => Rule.Reordered.symm) reordered.required
  optional := forall₂_symm (fun _ _ => Rule.Reordered.symm) reordered.optional
  kind := reordered.kind.symm
  oneOf := Value.Reordered.list_symm reordered.oneOf
  predicate := reordered.predicate.symm

theorem Reordered.rules (reordered : c.Reordered d) :
    List.Forall₂ Rule.Reordered (c.required ++ c.optional) (d.required ++ d.optional) :=
  List.rel_append reordered.required reordered.optional

theorem Reordered.proper (reordered : c.Reordered d) (sound : c.Proper) : d.Proper := by
  refine ⟨Value.Reordered.listed reordered.oneOf sound.whole, ?_⟩
  intro rule member
  obtain ⟨old, inside, same⟩ := forall₂_left reordered.symm.rules member
  exact Value.Reordered.listed same.symm.oneOf (sound.rules old inside)

theorem Reordered.first (reordered : c.Reordered d) (first : c.First name rule) :
    ∃ other, d.First name other ∧ rule.Reordered other := by
  have both : Option.Rel Rule.Reordered (c.rule? name) (d.rule? name) := by
    refine forall₂_find? ?_ reordered.rules
    intro old new same
    rw [same.name]
  rw [First.iff.mp first] at both
  generalize found : d.rule? name = chosen at both
  cases both with
  | some same => exact ⟨_, First.iff.mpr found, same⟩

theorem Covers.reordered (constraints : c.Reordered d) (values : Value.Reordered (.map options) (.map others))
    (covers : c.Covers options) : d.Covers others := by
  obtain ⟨moved, related, moves⟩ := Value.alike_map.mp values.symm
  have keys : (Keyed.keys others).Perm (Keyed.keys options) := by
    rw [(Keyed.under_iff.mp related).1]
    exact moves.map Prod.fst
  constructor
  · intro rule required
    obtain ⟨old, inside, same⟩ := forall₂_left constraints.symm.required required
    exact same.name ▸ keys.mem_iff.mpr (covers.present old inside)
  · intro option member
    obtain ⟨old, inside, key, value⟩ := forall₂_left related member
    obtain ⟨rule, first, fits⟩ := covers.allowed old (moves.mem_iff.mp inside)
    obtain ⟨other, found, same⟩ := constraints.first first
    refine ⟨other, key ▸ found, ?_⟩
    exact same.kind ▸ (Value.Reordered.symm value).fits same.oneOf fits

theorem Fulfilled.reordered (constraints : c.Reordered d) (free : c.predicate = none) (values : Value.Reordered v w)
    (held : c.Fulfilled v) : d.Fulfilled w := by
  refine ⟨?_, constraints.kind ▸ values.fits constraints.oneOf held.whole, ?_⟩
  · intro named
    have asked : c.required ≠ [] ∨ c.optional ≠ [] := by
      rwa [← List.length_pos_iff, ← List.length_pos_iff, constraints.required.length_eq,
        constraints.optional.length_eq, List.length_pos_iff, List.length_pos_iff]
    obtain ⟨options, rfl, covers⟩ := held.options asked
    cases values with
    | map keys related moves => exact ⟨_, rfl, covers.reordered constraints (.map keys related moves)⟩
  · rw [← constraints.predicate, free]
    exact nofun

-- A script may write the keys of an argument in any order, and a registry those of the values that it lists.
theorem accepts_reordered {c d : Constraint} (constraints : c.Reordered d) (free : c.predicate = none)
    (values : Value.Reordered v w) (sound : c.Proper) (proper : v.Proper) (field : String) :
    c.accepts field v = d.accepts field w := by
  have moved := constraints.predicate.symm.trans free
  rw [Bool.eq_iff_iff, accepts_fulfilled sound proper,
    accepts_fulfilled (constraints.proper sound) (values.symm.proper proper)]
  exact ⟨.reordered constraints free values, .reordered constraints.symm moved values.symm⟩

-- The keys of the argument, of a mapping in a list that it holds, and of a listed mapping are moved.
theorem accepts_reordered_of_mode :
    let mode : Value := .map [("fast", .int 1), ("safe", .null)]
    let moved : Value := .map [("safe", .null), ("fast", .int 1)]
    let c : Constraint := { required := [{ name := "mode", oneOf := some [mode] }], optional := [{ name := "tags" }] }
    let d : Constraint := { required := [{ name := "mode", oneOf := some [moved] }], optional := [{ name := "tags" }] }
    let v : Value := .map [("tags", .list [moved, .null]), ("mode", moved)]
    let w : Value := .map [("mode", moved), ("tags", .list [mode, .null])]
    c.Reordered d ∧ Value.Reordered v w ∧ c.accepts "web" v = true ∧ d.accepts "web" w = true := by
  intro mode moved c d v w
  have turned : Value.Reordered mode moved := .map rfl (.cons .int (.cons .null .nil)) (.swap _ _ _)
  have kept : Value.Reordered moved moved := .map rfl (.cons .null (.cons .int .nil)) (.refl _)
  have constraints : c.Reordered d :=
    ⟨.cons ⟨rfl, rfl, .some (.cons turned .nil)⟩ .nil, .cons ⟨rfl, rfl, .none⟩ .nil, rfl, .none, rfl⟩
  have items : Value.Reordered (.list [moved, .null]) (.list [mode, .null]) :=
    .list (.cons turned.symm (.cons .null .nil))
  have values : Value.Reordered v w := Value.alike_map.mpr
    ⟨[("tags", .list [mode, .null]), ("mode", moved)], .cons ⟨rfl, items⟩ (.cons ⟨rfl, kept⟩ .nil), .swap _ _ _⟩
  have modes : mode.Proper := .map (by unfold Keyed.Distinct; decide) (by simp [Value.Proper.int, Value.Proper.null])
  have sound : c.Proper := by
    refine ⟨nofun, ?_⟩
    simp [c, ProperLists, modes]
  have tags : (Value.list [moved, .null]).Proper := .list (by simp [turned.symm.proper modes, Value.Proper.null])
  have proper : v.Proper := .map (by unfold Keyed.Distinct; decide) (by simp [tags, turned.symm.proper modes])
  have accepted : c.accepts "web" v = true := rfl
  exact ⟨constraints, values, accepted, accepts_reordered constraints rfl values sound proper "web" ▸ accepted⟩

end Constraint

end KeywordConfig
