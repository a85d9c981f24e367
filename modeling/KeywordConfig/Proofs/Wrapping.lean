import KeywordConfig.Proofs.Admission

namespace KeywordConfig

variable {registry : Registry} {parents others : List String} {receiver : Option String} {call : Call}

theorem more_parents (more : parents ⊆ others) (name : String) : parents ++ [name] ⊆ others ++ [name] :=
  List.append_subset.mpr ⟨fun _ member => List.mem_append_left _ (more member), List.subset_append_right _ _⟩

theorem Visit.sound_under (known : registry.resolve call.keyword = some d)
    (sound : Visit.fault? registry ⟨call, parents, receiver⟩ = none) (more : parents ⊆ others) :
    Visit.fault? registry ⟨call, others, receiver⟩ = none := by
  obtain ⟨strange, misplaced, others⟩ := checks_of_known sound known
  refine sound_of_checks known ⟨strange, misplaced?_eq_none.mpr fun asks => ?_, others⟩
  obtain ⟨parent, listed, around⟩ := misplaced?_eq_none.mp misplaced asks
  exact ⟨parent, listed, more around⟩

theorem Visit.Writes.under (writes : Visit.Writes registry ⟨call, parents, receiver⟩ d content slot before after)
    (more : parents ⊆ others) : Visit.Writes registry ⟨call, others, receiver⟩ d content slot before after :=
  ⟨writes.known, sound_under writes.known writes.sound more, writes.shaped, writes.written⟩

-- Only at the top level can a name be inert. So only there the calls are asked to have keywords.
theorem runs_under (runs : Runs registry parents receiver calls before after) (more : parents ⊆ others)
    (own : parents = [] → ∀ call ∈ calls, (registry.resolve call.keyword).isSome) :
    Runs registry others receiver calls before after := by
  have inner {parents : List String} (name : String) (calls : List Call) :
      parents ++ [name] = [] → ∀ call ∈ calls, (registry.resolve call.keyword).isSome := by simp
  induction runs generalizing others with
  | done => exact .done
  | @inert call parents receiver rest before after inert _ ih =>
      have unknown := (Visit.inert_free inert).2.2
      simp only [Visit.inert, Bool.and_eq_true, List.isEmpty_iff] at inert
      have known := own inert.1.1.1 call List.mem_cons_self
      rw [Visit.keyword] at unknown
      simp [unknown] at known
  | alone writes none _ ih =>
      exact .alone (writes.under more) none
        (ih more fun top call member => own top call (List.mem_cons_of_mem _ member))
  | beside writes same stays _ _ block ih =>
      exact .beside (writes.under more) same stays (block (more_parents more _) (inner _ _))
        (ih more fun top call member => own top call (List.mem_cons_of_mem _ member))
  | inside writes same moves held _ _ block ih =>
      exact .inside (writes.under more) same moves held (block (more_parents more _) (inner _ _))
        (ih more fun top call member => own top call (List.mem_cons_of_mem _ member))

theorem evalCalls_exact_at (held : d.Holds scope entries) :
    evalCalls registry { parents, scope, receiver } calls d = (.ok (), after) ↔
      ∃ filled, Runs registry parents receiver calls entries filled ∧ after = d.replace scope filled := by
  obtain ⟨written⟩ := d
  obtain ⟨after⟩ := after
  have roots (x : Document) : Document.mk after = x ↔ after = x.root := by
    cases x
    exact Document.mk.injEq _ _ ▸ Iff.rfl
  have taken (filled : Mapping) : (Block.inside registry ⟨receiver, calls⟩).Takes parents entries filled ↔
      Runs registry parents receiver calls entries filled := evalCalls_exact
  simp only [roots, ← taken]
  exact Entry.Inside.evaluate_below (Block.inside_movable registry ⟨receiver, calls⟩ scope) parents held

theorem Visit.writes_base {v : Visit} (known : registry.resolve v.keyword = some d) (base : d.kind = .base)
    (allowed : d.allowBlock = true) (free : d.requireParent = []) (unaddressed : v.call.head.receiver = none)
    (entries : Mapping) : v.Writes registry d .nothing [] entries entries := by
  have shaped : Content.ofArgs d.kind v.call.args = some .nothing := by
    rw [base]
    rfl
  have unbroken : d.broken v.keyword .nothing = [] := by
    unfold Declaration.broken
    cases d.validate <;> rfl
  have strange : v.strange? = none := strange?_eq_none.mpr (by simp [unaddressed])
  have misplaced : v.misplaced? d = none := misplaced?_eq_none.mpr fun asks => absurd free asks
  have blocked : v.blocked? d = none := blocked?_eq_none.mpr fun _ => allowed
  have misshapen : v.misshapen? d = none := by rw [misshapen?_eq, shaped]
  have rejected : v.rejected? d = none := by rw [rejected?_eq shaped, if_pos unbroken]
  exact ⟨known, sound_of_checks known ⟨strange, misplaced, blocked, misshapen, rejected⟩, shaped, rfl⟩

-- Calls that succeed do the same in the block of a base keyword, which is nested or not, and under any
-- other keywords besides those around them.
theorem base_block_transparent {calls : List Call} (known : registry.resolve keyword = some declaration)
    (base : declaration.kind = .base) (allowed : declaration.allowBlock = true) (free : declaration.requireParent = [])
    (frame : Frame) (unaddressed : frame.receiver = none) (held : d.Holds frame.scope entries)
    (own : ∀ call ∈ calls, (registry.resolve call.keyword).isSome)
    (ran : evalCalls registry frame calls d = (.ok (), after)) :
    (∀ line args, evalCalls registry frame [.block ⟨keyword, none, line⟩ args none calls] d = (.ok (), after)) ∧
      ∀ others, frame.parents ⊆ others →
        evalCalls registry { frame with parents := others } calls d = (.ok (), after) := by
  obtain ⟨parents, scope, receiver⟩ := frame
  cases unaddressed
  obtain ⟨filled, runs, rfl⟩ := (evalCalls_exact_at held).mp ran
  have under (others : List String) (more : parents ⊆ others) : Runs registry others none calls entries filled :=
    runs_under runs more fun _ => own
  constructor
  · intro line args
    have stays : declaration.moves = false := by simp [Declaration.moves, base]
    have wrapped := under (parents ++ [keyword]) (List.subset_append_left _ _)
    exact (evalCalls_exact_at held).mpr
      ⟨filled, .beside (Visit.writes_base known base allowed free rfl entries) rfl stays wrapped .done, rfl⟩
  · intro others more
    exact (evalCalls_exact_at held).mpr ⟨filled, under others more, rfl⟩

theorem base_block_transparent_in_pair :
    let group : Declaration := { kind := .base, allowBlock := true, nested := true }
    let registry : Registry := ⟨[("group", group),
      ("opts", { kind := .map, allowBlock := true, nested := true, requireParent := ["job"] }),
      ("retries", { kind := .scalar, requireParent := ["task", "opts"] })]⟩
    let frame : Frame := { parents := ["job"], scope := [.key "job", .index 0, .index 1] }
    let calls : List Call := [.block ⟨"opts", none, 3⟩ [.map [("queue", .str "slow")]] (some "o")
      [.plain ⟨"retries", some "o", 4⟩ [.str "3"]]]
    let d : Document := ⟨[("job", .list [.list [.str "mail", .map []]])]⟩
    let after : Document := ⟨[("job", .list [.list [.str "mail",
      .map [("opts", .map [("queue", .str "slow"), ("retries", .str "3")])]]])]⟩
    registry.resolve "group" = some group ∧ d.Holds frame.scope [] ∧
      (∀ call ∈ calls, (registry.resolve call.keyword).isSome) ∧ evalCalls registry frame calls d = (.ok (), after) ∧
      (∀ line args, evalCalls registry frame [.block ⟨"group", none, line⟩ args none calls] d = (.ok (), after)) ∧
      ∀ others, frame.parents ⊆ others →
        evalCalls registry { frame with parents := others } calls d = (.ok (), after) := by
  intro group registry frame calls d after
  have known : registry.resolve "group" = some group := rfl
  have held : d.Holds frame.scope [] := rfl
  have own : ∀ call ∈ calls, (registry.resolve call.keyword).isSome := List.forall_mem_singleton.mpr rfl
  have ran : evalCalls registry frame calls d = (.ok (), after) := rfl
  exact ⟨known, held, own, ran, base_block_transparent known rfl rfl rfl frame rfl held own ran⟩

end KeywordConfig
