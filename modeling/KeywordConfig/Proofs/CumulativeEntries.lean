import KeywordConfig.Proofs.Runs

namespace KeywordConfig

def Registry.moves (registry : Registry) (keyword : String) : Bool :=
  (registry.resolve keyword).any Declaration.moves

def Visit.surfaces (registry : Registry) (keyword : String) (v : Visit) : Bool :=
  v.keyword = keyword && v.parents.all fun parent => !registry.moves parent

def Call.options (call : Call) : Mapping :=
  match call.args with
  | [_, .map entries] => entries
  | _ => []

-- The pair of a call. Its mapping is that of the call, to which a block that moves may have added.
def Visit.KeptAs (d : Declaration) (v : Visit) (item : Value) : Prop :=
  ∃ value entries, v.call.args.head? = some value ∧ item = .list [.str value.text, .map entries] ∧
    Keyed.keys v.call.options <+: Keyed.keys entries ∧
    (d.nested = false ∨ v.call.block? = none → entries = v.call.options)

-- The list under a keyword, which is not there as long as it is empty.
def Listed (keyword : String) (items : List Value) (root : Mapping) : Prop :=
  Keyed.get? root keyword = if items.isEmpty then none else some (.list items)

theorem Listed.confined (listed : Listed keyword items before) (confined : Confined names before after)
    (free : keyword ∉ names) : Listed keyword items after :=
  (confined.same keyword free).trans listed

theorem Content.ofArgs_keyed {kind : Kind} {call : Call} (shaped : ofArgs kind call.args = some content)
    (keyed : kind = .scalarPlusMap) :
    ∃ value, call.args.head? = some value ∧ content = .keyed value call.options := by
  unfold Call.options
  generalize call.args = args at shaped
  unfold ofArgs at shaped
  split at shaped
  · cases keyed
  · cases keyed
  · cases keyed
  · split at shaped <;> cases shaped
    exact ⟨_, rfl, rfl⟩
  · split at shaped <;> cases shaped
    exact ⟨_, rfl, rfl⟩
  · cases shaped

theorem Listed.append (listed : Listed keyword items before)
    (written : Content.write keyword true (.keyed value entries) before = (.ok slot, after)) :
    slot = [.key keyword, .index items.length, .index 1] ∧
      Keyed.get? after keyword = some (.list (items ++ [.list [.str value.text, .map entries]])) := by
  have start : (Keyed.get? before keyword).getD (.list []) = .list items := by
    rw [listed]
    cases items <;> rfl
  simp only [Content.write, Value.visit, start, Content.append, if_true] at written
  cases written
  exact ⟨rfl, by simp [Keyed.get?_insert]⟩

mutual

theorem Call.visits_parents (parents : List String) (receiver : Option String) (call : Call) :
    ∀ v ∈ visits parents receiver call, parents <+: v.parents := by
  match call with
  | .bare head | .plain head args => simp [visits]
  | .block head args param body =>
      refine List.forall_mem_cons.mpr ⟨List.prefix_rfl, ?_⟩
      intro v member
      exact (List.prefix_append _ _).trans (visitsOf_parents (parents ++ [head.keyword]) param body v member)

theorem Call.visitsOf_parents (parents : List String) (receiver : Option String) (calls : List Call) :
    ∀ v ∈ visitsOf parents receiver calls, parents <+: v.parents := by
  match calls with
  | [] => exact nofun
  | call :: rest =>
      exact List.forall_mem_append.mpr
        ⟨visits_parents parents receiver call, visitsOf_parents parents receiver rest⟩

end

section

variable {registry : Registry} {keyword : String} {d : Declaration} {before written : Mapping}

-- No call in a block that moves writes into the document itself.
theorem not_surfaces_below (moves : registry.moves parent = true) (receiver : Option String) (calls : List Call) :
    (Call.visitsOf (parents ++ [parent]) receiver calls).filter (Visit.surfaces registry keyword) = [] := by
  refine List.filter_eq_nil_iff.mpr ?_
  intro v member surfaces
  have around : parent ∈ v.parents := (Call.visitsOf_parents _ receiver calls v member).subset (by simp)
  simp only [Visit.surfaces, Bool.and_eq_true, List.all_eq_true] at surfaces
  simpa [moves] using surfaces.2 parent around

variable (known : registry.resolve keyword = some d) (kind : d.kind = .scalarPlusMap) (cumulative : d.cumulative = true)

include known kind cumulative

theorem Visit.Writes.appends {v : Visit} (writes : v.Writes registry other content slot before written)
    (same : v.keyword = keyword) (listed : Listed keyword items before) :
    other = d ∧ slot = [.key keyword, .index items.length, .index 1] ∧
      ∃ value, v.call.args.head? = some value ∧
        Keyed.get? written keyword = some (.list (items ++ [.list [.str value.text, .map v.call.options]])) := by
  obtain ⟨resolved, _, shaped, write⟩ := writes
  subst same
  cases known.symm.trans resolved
  obtain ⟨value, first, rfl⟩ := Content.ofArgs_keyed shaped kind
  rw [cumulative] at write
  obtain ⟨rfl, stored⟩ := listed.append write
  exact ⟨rfl, rfl, value, first, stored⟩

theorem Visit.Writes.listed {v : Visit} (writes : v.Writes registry other content slot before written)
    (free : ∀ parent ∈ v.parents, registry.moves parent = false) (listed : Listed keyword items before) :
    ∃ first, Listed keyword (items ++ first) written ∧
      List.Forall₂ (Visit.KeptAs d) ([v].filter (Visit.surfaces registry keyword)) first := by
  by_cases same : v.keyword = keyword
  · obtain ⟨rfl, _, value, first, stored⟩ := writes.appends known kind cumulative same listed
    have surfaces : v.surfaces registry keyword = true := by simpa [Visit.surfaces, same] using free
    refine ⟨[.list [.str value.text, .map v.call.options]], ?_, ?_⟩
    · simpa [Listed] using stored
    · simp only [List.filter_cons_of_pos surfaces, List.filter_nil]
      exact .cons ⟨value, _, first, rfl, List.prefix_rfl, fun _ => rfl⟩ .nil
  · have surfaces : v.surfaces registry keyword = false := by simp [Visit.surfaces, same]
    refine ⟨[], ?_, ?_⟩
    · rw [List.append_nil]
      exact listed.confined writes.confined (by simpa using Ne.symm same)
    · simp [surfaces]

theorem Visit.Writes.refilled {v : Visit} (writes : v.Writes registry other content slot before written)
    (block : v.call.block? = some opened) (moves : other.moves = true) (held : Document.Holds ⟨written⟩ slot entries)
    (grown : Keyed.keys entries <+: Keyed.keys filled)
    (free : ∀ parent ∈ v.parents, registry.moves parent = false) (listed : Listed keyword items before) :
    ∃ first, Listed keyword (items ++ first) (Document.replace slot filled ⟨written⟩).root ∧
      List.Forall₂ (Visit.KeptAs d) ([v].filter (Visit.surfaces registry keyword)) first := by
  by_cases same : v.keyword = keyword
  · obtain ⟨rfl, rfl, value, first, stored⟩ := writes.appends known kind cumulative same listed
    have surfaces : v.surfaces registry keyword = true := by simpa [Visit.surfaces, same] using free
    have options : entries = v.call.options := by
      simpa [Document.Holds, Value.node?, stored, eq_comm] using held
    refine ⟨[.list [.str value.text, .map filled]], ?_, ?_⟩
    · simp [Listed, Document.replace, Value.replace, stored, Value.entries, Keyed.get?_insert]
    · simp only [List.filter_cons_of_pos surfaces, List.filter_nil]
      refine .cons ⟨value, filled, first, rfl, options ▸ grown, ?_⟩ .nil
      intro plain
      rcases plain with flat | none
      · simp [Declaration.moves, flat] at moves
      · cases none.symm.trans block
  · have surfaces : v.surfaces registry keyword = false := by simp [Visit.surfaces, same]
    obtain ⟨rest, rfl⟩ := writes.below moves
    have replaced := Confined.replace ⟨written⟩ v.keyword rest filled
    refine ⟨[], ?_, ?_⟩
    · rw [List.append_nil]
      exact listed.confined (writes.confined.trans replaced) (by simpa using Ne.symm same)
    · simp [surfaces]

theorem runs_listed (runs : Runs registry parents receiver calls before after)
    (free : ∀ parent ∈ parents, registry.moves parent = false) (listed : Listed keyword items before) :
    ∃ added, Listed keyword (items ++ added) after ∧ List.Forall₂ (Visit.KeptAs d)
      ((Call.visitsOf parents receiver calls).filter (Visit.surfaces registry keyword)) added := by
  induction runs generalizing items with
  | done => exact ⟨[], by simpa using listed, .nil⟩
  | @inert call parents receiver rest before after inert _ ih =>
      obtain ⟨bare, _, unknown⟩ := Visit.inert_free inert
      have other : call.keyword ≠ keyword := by
        intro same
        subst same
        cases known.symm.trans unknown
      rw [Call.visitsOf_alone _ _ _ (Call.block?_of_bare bare), List.filter_cons_of_neg]
      · exact ih free listed
      · simp [Visit.surfaces, Visit.keyword, other]
  | alone writes none _ ih =>
      obtain ⟨first, listed, kept⟩ := writes.listed known kind cumulative free listed
      obtain ⟨later, listed, others⟩ := ih free listed
      refine ⟨first ++ later, by simpa using listed, ?_⟩
      rw [Call.visitsOf_alone _ _ _ none, ← List.singleton_append, List.filter_append]
      exact List.rel_append kept others
  | @beside call parents receiver d' _ _ _ _ _ _ _ _ writes same stays _ _ inner ih =>
      have around : ∀ parent ∈ parents ++ [call.keyword], registry.moves parent = false := by
        have resolved : registry.resolve call.keyword = some d' := writes.known
        exact List.forall_mem_append.mpr ⟨free, by simpa [Registry.moves, resolved] using stays⟩
      obtain ⟨first, listed, kept⟩ := writes.listed known kind cumulative free listed
      obtain ⟨second, listed, below⟩ := inner around listed
      obtain ⟨later, listed, others⟩ := ih free listed
      refine ⟨first ++ (second ++ later), by simpa using listed, ?_⟩
      rw [Call.visitsOf_block _ _ _ same, ← List.singleton_append, List.filter_append, List.filter_append]
      exact List.rel_append kept (List.rel_append below others)
  | @inside call _ _ d' _ _ _ _ _ _ _ _ _ writes same moves held runs _ _ ih =>
      have resolved : registry.resolve call.keyword = some d' := writes.known
      have around : registry.moves call.keyword = true := by simpa [Registry.moves, resolved] using moves
      obtain ⟨_, grown, _⟩ := (runs_confined runs).grown
      obtain ⟨first, listed, kept⟩ :=
        writes.refilled known kind cumulative same moves held ⟨_, grown.symm⟩ free listed
      obtain ⟨later, listed, others⟩ := ih free listed
      refine ⟨first ++ later, by simpa using listed, ?_⟩
      rw [Call.visitsOf_block _ _ _ same, ← List.singleton_append, List.filter_append, List.filter_append,
        not_surfaces_below around, List.nil_append]
      exact List.rel_append kept others

end

-- The list of a cumulative keyword holds one pair for each call to it that writes into the document
-- itself, in the order of the calls, and is not there when there is no such call.
theorem cumulative_kept (known : registry.resolve keyword = some d) (kind : d.kind = .scalarPlusMap)
    (cumulative : d.cumulative = true) (interpreted : interpret script registry = .ok document) :
    ∃ calls, Script.parse script = .ok calls ∧
      let kept := (Call.visitsOf [] none calls).filter (Visit.surfaces registry keyword)
      (kept = [] → document.get? keyword = none) ∧
      (kept ≠ [] → ∃ items, document.get? keyword = some (.list items) ∧
        List.Forall₂ (Visit.KeptAs d) kept items) := by
  obtain ⟨calls, parsed, runs⟩ := interpret_exact.mp interpreted
  have empty : Listed keyword [] [] := rfl
  obtain ⟨items, listed, kept⟩ := runs_listed known kind cumulative runs nofun empty
  rw [List.nil_append] at listed
  refine ⟨calls, parsed, ?_, ?_⟩
  · intro none
    rw [none] at kept
    cases kept
    exact listed
  · intro some
    have full : items ≠ [] := by
      intro none
      subst none
      exact some (List.forall₂_nil_right_iff.mp kept)
    exact ⟨items, listed.trans (by simp [full]), kept⟩

-- A call in the block of another one to the same keyword, one in a block that moves, and one in a
-- block of a base keyword. The first two write elsewhere.
theorem cumulative_kept_nested :
    let job : Declaration := {
      kind := .scalarPlusMap, allowBlock := true, cumulative := true, nested := true }
    let registry : Registry := ⟨[("job", job), ("web", { kind := .map, allowBlock := true, nested := true }),
      ("group", { kind := .base, allowBlock := true, nested := true }), ("retries", { kind := .scalar })]⟩
    let script := "job 'a', x: 1 do\n job 'inner'\n retries 2\nend\ngroup do\n job 'b'\nend\nweb({}) do\n job 'c'\nend\njob 'd'"
    let document : Document := ⟨[
      ("job", .list [
        .list [.str "a", .map [("x", .int 1), ("job", .list [.list [.str "inner", .map []]]), ("retries", .str "2")]],
        .list [.str "b", .map []], .list [.str "d", .map []]]),
      ("web", .map [("job", .list [.list [.str "c", .map []]])])]⟩
    registry.resolve "job" = some job ∧ interpret script registry = .ok document ∧
      ∃ calls, Script.parse script = .ok calls ∧
        let kept := (Call.visitsOf [] none calls).filter (Visit.surfaces registry "job")
        (kept = [] → document.get? "job" = none) ∧
        (kept ≠ [] → ∃ items, document.get? "job" = some (.list items) ∧
          List.Forall₂ (Visit.KeptAs job) kept items) := by
  intro job registry script document
  have interpreted : interpret script registry = .ok document := by
    subst job registry script document
    cbv
  exact ⟨rfl, interpreted, cumulative_kept rfl rfl rfl interpreted⟩

end KeywordConfig
