import KeywordConfig.Proofs.Runs

namespace KeywordConfig

inductive Kind.Takes : Kind → List Value → Option Value → Prop where
  | base : Kind.base.Takes args none
  | map : Kind.map.Takes [.map entries] (some (.map entries))
  | scalar : value.isMap = false → Kind.scalar.Takes [value] (some value)
  | lone : value.isMap = false → Kind.scalarPlusMap.Takes [value] (some (.map []))
  | keyed : value.isMap = false → Kind.scalarPlusMap.Takes [value, .map entries] (some (.map entries))

-- What the declaration of its keyword asks of a call.
structure Visit.Obeys (d : Declaration) (v : Visit) : Prop where
  placed : d.requireParent ≠ [] → ∃ parent ∈ d.requireParent, parent ∈ v.parents
  allowed : v.call.block?.isSome → d.allowBlock = true
  shaped : ∃ checked, d.kind.Takes v.call.args checked ∧
    ∀ c value, d.validate = some c → checked = some value → c.accepts v.keyword value = true
  nestable : v.call.block?.isSome → d.nested = true → d.kind ≠ .scalar

structure Visit.Admitted (registry : Registry) (v : Visit) : Prop where
  addressed : ∀ receiver, v.call.head.receiver = some receiver → v.receiver = some receiver
  known : registry.resolve v.keyword = none →
    v.call.isBare = true ∧ v.call.head.receiver = none ∧ v.parents = []
  obeys : ∀ d, registry.resolve v.keyword = some d → v.Obeys d

theorem Kind.operands?_takes {kind : Kind} (read : kind.operands? args = some given) :
    kind.Takes args (given.asked kind) := by
  unfold operands? at read
  split at read
  · cases read; exact .base
  · cases read; exact .map
  · split at read <;> cases read
    rename_i other
    exact .scalar (Bool.eq_false_iff.mpr other)
  · split at read <;> cases read
    rename_i other
    exact .lone (Bool.eq_false_iff.mpr other)
  · split at read <;> cases read
    rename_i other
    exact .keyed (Bool.eq_false_iff.mpr other)
  · cases read

theorem Content.ofArgs_takes {kind : Kind} (shaped : ofArgs kind args = some content) :
    kind.Takes args content.checked := by
  rw [← operands_asked shaped]
  apply Kind.operands?_takes
  rw [operands?_eq, shaped]
  rfl

namespace Visit

theorem inert_admitted {v : Visit} (inert : v.inert registry = true) : v.Admitted registry := by
  obtain ⟨bare, _, unknown⟩ := inert_free inert
  simp only [Visit.inert, Bool.and_eq_true, Option.isNone_iff_eq_none, List.isEmpty_iff] at inert
  obtain ⟨⟨⟨top, _⟩, alone⟩, _⟩ := inert
  refine ⟨?_, fun _ => ⟨bare, alone, top⟩, ?_⟩
  · intro receiver named
    cases alone.symm.trans named
  · intro d known
    cases unknown.symm.trans known

theorem strange?_eq_none {v : Visit} : v.strange? = none ↔
    ∀ receiver, v.call.head.receiver = some receiver → v.receiver = some receiver := by
  unfold strange?
  cases v.call.head.receiver with
  | none => simp
  | some receiver => by_cases known : v.receiver = some receiver <;> simp [known]

theorem misplaced?_eq_none {v : Visit} : v.misplaced? d = none ↔
    (d.requireParent ≠ [] → ∃ parent ∈ d.requireParent, parent ∈ v.parents) := by
  unfold misplaced?
  by_cases free : d.requireParent = [] <;> simp [free]

theorem blocked?_eq_none {v : Visit} :
    v.blocked? d = none ↔ (v.call.block?.isSome → d.allowBlock = true) := by
  unfold blocked?
  cases v.call.block?.isSome <;> simp

theorem accepts_of_unbroken {v : Visit} (shaped : Content.ofArgs d.kind v.call.args = some content)
    (sound : v.rejected? d = none) (constrained : d.validate = some c) (checked : content.checked = some value) :
    c.accepts v.keyword value = true := by
  rw [rejected?_eq shaped] at sound
  by_cases unbroken : d.broken v.keyword content = []
  · rw [Declaration.broken, constrained, checked] at unbroken
    exact List.isEmpty_iff.mpr unbroken
  · simp [unbroken] at sound

theorem Writes.admitted {v : Visit} (writes : v.Writes registry d content slot before after)
    (nestable : v.call.block?.isSome → d.nested = true → d.kind ≠ .scalar) : v.Admitted registry := by
  obtain ⟨known, sound, shaped, _⟩ := writes
  obtain ⟨strange, misplaced, blocked, _, rejected⟩ := checks_of_known sound known
  refine ⟨strange?_eq_none.mp strange, ?_, ?_⟩
  · intro unknown
    cases unknown.symm.trans known
  · intro other same
    cases known.symm.trans same
    refine ⟨misplaced?_eq_none.mp misplaced, blocked?_eq_none.mp blocked, ?_, nestable⟩
    refine ⟨content.checked, Content.ofArgs_takes shaped, ?_⟩
    intro c value constrained checked
    exact accepts_of_unbroken shaped rejected constrained checked

theorem Writes.not_scalar {v : Visit} (writes : v.Writes registry d content slot before after)
    (held : Document.Holds ⟨after⟩ slot entries) : d.kind ≠ .scalar := by
  intro scalar
  obtain ⟨_, _, shaped, written⟩ := writes
  have kind := (Content.ofArgs_kind shaped).trans scalar
  cases content with
  | scalar value =>
      cases written
      simp [Document.Holds, Value.node?, Keyed.get?_insert] at held
  | _ => cases kind

end Visit

theorem runs_admitted (runs : Runs registry parents receiver calls before after) :
    ∀ v ∈ Call.visitsOf parents receiver calls, v.Admitted registry := by
  induction runs with
  | done => exact nofun
  | inert inert _ ih =>
      rw [Call.visitsOf_alone _ _ _ (Call.block?_of_bare (Visit.inert_free inert).1)]
      exact List.forall_mem_cons.mpr ⟨Visit.inert_admitted inert, ih⟩
  | alone writes none _ ih =>
      rw [Call.visitsOf_alone _ _ _ none]
      exact List.forall_mem_cons.mpr ⟨writes.admitted (by simp [none]), ih⟩
  | beside writes same stays _ _ inner ih =>
      rw [Call.visitsOf_block _ _ _ same]
      refine List.forall_mem_cons.mpr ⟨writes.admitted ?_, List.forall_mem_append.mpr ⟨inner, ih⟩⟩
      intro _ nested scalar
      simp [Declaration.moves, nested, scalar] at stays
  | inside writes same _ held _ _ inner ih =>
      rw [Call.visitsOf_block _ _ _ same]
      refine List.forall_mem_cons.mpr ⟨writes.admitted ?_, List.forall_mem_append.mpr ⟨inner, ih⟩⟩
      exact fun _ _ => writes.not_scalar held

-- Every call of a script that succeeds, at any depth, is admitted: it passes all the checks that its
-- keyword asks for, and has a keyword unless it is inert.
theorem interpret_admits (interpreted : interpret script registry = .ok document) :
    ∃ calls, Script.parse script = .ok calls ∧
      ∀ v ∈ Call.visitsOf [] none calls, v.Admitted registry := by
  obtain ⟨calls, parsed, runs⟩ := interpret_exact.mp interpreted
  exact ⟨calls, parsed, runs_admitted runs⟩

theorem interpret_admits_nested :
    let registry : Registry := ⟨[
      ("web", {
        kind := .map, allowBlock := true, nested := true
        validate := some { required := [⟨"host", none, none⟩] } }),
      ("ssl", { kind := .scalar, requireParent := ["web"] }),
      ("job", {
        kind := .scalarPlusMap, allowBlock := true, cumulative := true, nested := true
        requireParent := ["web"], validate := some { optional := [⟨"retries", none, some .integer⟩] } }),
      ("queue", { kind := .scalar, requireParent := ["task", "job"] })]⟩
    let script := "web('host' => 'a') do |w|\n w.ssl 'x'\n job 'mail', retries: 3 do\n  queue 'slow'\n end\nend\nProduction"
    interpret script registry = .ok ⟨[("web", .map [("host", .str "a"), ("ssl", .str "x"),
      ("job", .list [.list [.str "mail", .map [("retries", .int 3), ("queue", .str "slow")]]])])]⟩ ∧
    ∃ calls, Script.parse script = .ok calls ∧ ∀ v ∈ Call.visitsOf [] none calls, v.Admitted registry := by
  intro registry script
  have interpreted : interpret script registry = .ok ⟨[("web", .map [("host", .str "a"), ("ssl", .str "x"),
      ("job", .list [.list [.str "mail", .map [("retries", .int 3), ("queue", .str "slow")]]])])]⟩ := by
    subst registry script
    cbv
  exact ⟨interpreted, interpret_admits interpreted⟩

end KeywordConfig
