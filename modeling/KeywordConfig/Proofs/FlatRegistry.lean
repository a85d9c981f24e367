import Mathlib
import KeywordConfig.Proofs.Grouping
import KeywordConfig.Proofs.Visits

namespace KeywordConfig

-- Blocks write beside their calls, and the value of a mapping starts as a mapping.
def Registry.Flat (registry : Registry) : Prop :=
  ∀ keyword d, registry.resolve keyword = some d →
    d.nested = false ∧ (d.kind = .map → d.cumulative = false)

-- What the mappings given for one value add up to.
def gathered (_ : String) (mappings : List Mapping) : Value := .map (Keyed.ofList mappings.flatten)

def Declaration.total (d : Declaration) (calls : List Operands) : Value :=
  match d.kind with
  -- nothing is ever written
  | .base => .null
  -- later entries win and keep the place of the first
  | .map => .map (Keyed.ofList (calls.flatMap Operands.mapping))
  -- the last call
  | .scalar => .str ((calls.getLast?.map fun given => given.value.text).getD "")
  | .scalarPlusMap =>
      -- all calls
      if d.cumulative then .list (calls.map fun given => .list [.str given.value.text, .map given.mapping])
      -- for each value what its mappings add up to
      else .map (Keyed.grouped gathered (calls.map fun given => (given.value.text, given.mapping)))

def Registry.total (registry : Registry) (keyword : String) (calls : List Operands) : Value :=
  match registry.resolve keyword with
  | some d => d.total calls
  | none => .null

def Visit.written? (registry : Registry) (v : Visit) : Option (String × Operands) :=
  match registry.resolve v.keyword with
  | none => none
  | some d => if d.kind = .base then none else (d.kind.operands? v.call.args).map (v.keyword, ·)

-- The document of visits that pass their checks.
def outcome (registry : Registry) (visits : List Visit) : Mapping :=
  Keyed.grouped registry.total (visits.filterMap (Visit.written? registry))

theorem Keyed.ofList_append (first second : List (String × α)) :
    ofList (first ++ second) = merge (ofList first) second := List.foldl_append

namespace Content

theorem mergeInto_ofList (source : Mapping) (before : List (String × Value)) :
    mergeInto source (.map (Keyed.ofList before)) = (.ok (), .map (Keyed.ofList (before ++ source))) := by
  rw [Keyed.ofList_append]
  rfl

theorem mergeUnder_grouped (value : Value) (source : Mapping) (before : List (String × Mapping)) :
    mergeUnder value source (.map (Keyed.grouped gathered before)) =
      (.ok (), .map (Keyed.grouped gathered (before ++ [(value.text, source)]))) := by
  have merged (mappings : List Mapping) : mergeInto source (gathered value.text mappings) =
      (.ok (), gathered value.text (mappings ++ [source])) := by
    simp [gathered, mergeInto_ofList]
  have missing : gathered value.text [] = .map [] := rfl
  simp only [mergeUnder, Value.visit_grouped missing (merged _)]

theorem write_total {registry : Registry} {content : Content} (flat : registry.Flat)
    (resolved : registry.resolve name = some d) (kind : content.kind = d.kind) (writes : content ≠ .nothing)
    (pairs : List (String × Operands)) :
    ∃ slot, content.write name d.cumulative (Keyed.grouped registry.total pairs) =
      (.ok slot, Keyed.grouped registry.total (pairs ++ [(name, content.operands)])) := by
  have total : registry.total name = d.total := by
    funext calls
    simp [Registry.total, resolved]
  cases content with
  | nothing => exact absurd rfl writes
  | scalar value =>
      have last : d.total (Keyed.allUnder pairs name ++ [(scalar value).operands]) = .str value.text := by
        simp [Declaration.total, ← kind, Content.kind, operands]
      exact ⟨[.key name], by rw [Keyed.grouped_concat, total, last]; rfl⟩
  | mapping source =>
      have start : d.cumulative = false := (flat name d resolved).2 kind.symm
      have missing : registry.total name [] = .map [] := by
        simp [total, Declaration.total, ← kind, Content.kind, Keyed.ofList, Keyed.merge]
      have changed (before : List Operands) : mergeInto source (registry.total name before) =
          (.ok (), registry.total name (before ++ [{ mapping := source }])) := by
        simp [total, Declaration.total, ← kind, Content.kind, mergeInto_ofList]
      refine ⟨[.key name], ?_⟩
      simp only [write, start, Bool.false_eq_true, if_false, Value.visit_grouped missing (changed _)]
      rfl
  | keyed value source =>
      cases cumulative : d.cumulative with
      | true =>
          have missing : registry.total name [] = .list [] := by
            simp [total, Declaration.total, ← kind, Content.kind, cumulative]
          have changed (before : List Operands) : append value source (registry.total name before) =
              (.ok before.length, registry.total name (before ++ [{ value, mapping := source }])) := by
            simp [total, Declaration.total, ← kind, Content.kind, cumulative, append]
          refine ⟨[.key name, .index (Keyed.allUnder pairs name).length, .index 1], ?_⟩
          simp only [write, if_true, Value.visit_grouped missing (changed _)]
          rfl
      | false =>
          have missing : registry.total name [] = .map [] := by
            simp [total, Declaration.total, ← kind, Content.kind, cumulative, Keyed.grouped]
          have changed (before : List Operands) : mergeUnder value source (registry.total name before) =
              (.ok (), registry.total name (before ++ [{ value, mapping := source }])) := by
            simp [total, Declaration.total, ← kind, Content.kind, cumulative, mergeUnder_grouped]
          refine ⟨[.key name, .key value.text], ?_⟩
          simp only [write, Bool.false_eq_true, if_false, Value.visit_grouped missing (changed _)]
          rfl

end Content

theorem outcome_concat (registry : Registry) (earlier : List Visit) (v : Visit) :
    outcome registry (earlier ++ [v]) =
      Keyed.grouped registry.total
        (earlier.filterMap (Visit.written? registry) ++ (v.written? registry).toList) := by
  cases written : v.written? registry <;> simp [outcome, List.filterMap_append, written]

theorem Frame.store_outcome {registry : Registry} (flat : registry.Flat) (frame : Frame)
    (atRoot : frame.scope = []) {call : Call} (resolved : registry.resolve call.keyword = some d)
    (shaped : Content.ofArgs d.kind call.args = some content) (earlier : List Visit) :
    ∃ slot, (frame.entry call d).store content ⟨outcome registry earlier⟩ =
      (.ok slot, ⟨outcome registry (earlier ++ [frame.visit call])⟩) := by
  have kind := Content.ofArgs_kind shaped
  have written : (frame.visit call).written? registry =
      if d.kind = .base then none else some (call.keyword, content.operands) := by
    have read : d.kind.operands? (frame.visit call).call.args = some content.operands := by
      rw [Content.operands?_eq, show Content.ofArgs d.kind (frame.visit call).call.args = _ from shaped]
      rfl
    unfold Visit.written?
    rw [show registry.resolve (frame.visit call).keyword = some d from resolved]
    simp only [read]
    rfl
  rw [outcome_concat, written, ← kind]
  by_cases writes : content = .nothing
  · subst writes
    exact ⟨frame.scope, by simp [outcome, Content.kind]; rfl⟩
  · obtain ⟨slot, stored⟩ := Content.write_total flat resolved kind writes
      (earlier.filterMap (Visit.written? registry))
    have kept : content.write (frame.entry call d).name (frame.entry call d).declaration.cumulative
        (outcome registry earlier) = _ := stored
    refine ⟨slot, ?_⟩
    rw [Entry.store_root _ atRoot]
    simp only [kept]
    cases content with
    | nothing => exact absurd rfl writes
    | _ => rfl

-- An evaluation at the root that makes these visits: it fails with the first fault among them, and
-- it adds all of them to the outcome when there is none.
def Makes (registry : Registry) (visits : List Visit) (x : Evaluation Unit) : Prop :=
  ∀ earlier, match visits.findSome? (Visit.fault? registry) with
    | some e => (x ⟨outcome registry earlier⟩).1 = .error e
    | none => x ⟨outcome registry earlier⟩ = (.ok (), ⟨outcome registry (earlier ++ visits)⟩)

theorem Makes.bind (first : Makes registry visits x) (second : Makes registry more y) :
    Makes registry (visits ++ more) (x >>= fun _ => y) := by
  intro earlier
  have started := first earlier
  rw [Evaluation.bind_apply, List.findSome?_append]
  cases fault : visits.findSome? (Visit.fault? registry) with
  | some e =>
      rw [fault] at started
      dsimp only [Option.some_or] at started ⊢
      generalize x ⟨outcome registry earlier⟩ = ran at started
      obtain ⟨result, d⟩ := ran
      cases started
      rfl
  | none =>
      rw [fault] at started
      dsimp only at started
      rw [started, Option.none_or, ← List.append_assoc]
      exact second (earlier ++ visits)

theorem Entry.evalBlock_flat (e : Entry) (flat : e.declaration.nested = false) (inside : Inside)
    (current : Slot) : e.evalBlock (some inside) current = inside.evaluate
      { parents := e.parents ++ [e.name], scope := e.scope, receiver := inside.param } := by
  funext d
  show e.evalInside inside current d = _
  unfold evalInside
  rw [Evaluation.bind_apply, blockScope_apply, flat]
  rfl

theorem Frame.carryOut_flat {registry : Registry} (flat : registry.Flat) (frame : Frame)
    (atRoot : frame.scope = []) {call : Call} (sound : (frame.visit call).fault? registry = none)
    (block : Option Entry.Inside) (same : block.isSome = call.block?.isSome) (earlier : List Visit) :
    frame.carryOut registry call block ⟨outcome registry earlier⟩ =
      (block.elim (pure ()) fun inside => inside.evaluate
        { parents := frame.parents ++ [call.keyword], scope := [], receiver := inside.param } : Evaluation Unit)
        ⟨outcome registry (earlier ++ [frame.visit call])⟩ := by
  unfold carryOut
  cases resolved : registry.resolve call.keyword with
  | none =>
      have bare := (Visit.inert_free (Visit.inert_of_unknown sound resolved)).1
      have silent : (frame.visit call).written? registry = none := by
        unfold Visit.written?
        rw [show registry.resolve (frame.visit call).keyword = none from resolved]
      cases call with
      | bare head =>
          cases block with
          | some inside => cases same
          | none => simp [silent, outcome]
      | _ => cases bare
  | some d =>
      obtain ⟨content, shaped⟩ := Visit.shaped_of_known sound resolved
      replace shaped : Content.ofArgs d.kind call.args = some content := shaped
      obtain ⟨slot, stored⟩ := frame.store_outcome flat atRoot resolved shaped earlier
      simp only [shaped]
      rw [Evaluation.bind_apply, stored]
      cases block with
      | none => rfl
      | some inside =>
          have beside := (frame.entry call d).evalBlock_flat (flat _ d resolved).1 inside slot
          rw [show (frame.entry call d).scope = [] from atRoot] at beside
          exact congrFun beside _

theorem Frame.perform_makes {registry : Registry} (flat : registry.Flat) (frame : Frame)
    (atRoot : frame.scope = []) (call : Call) (block : Option Entry.Inside)
    (same : block.isSome = call.block?.isSome) (alone : block = none → visits = [])
    (inside : ∀ inside, block = some inside → Makes registry visits (inside.evaluate
      { parents := frame.parents ++ [call.keyword], scope := [], receiver := inside.param })) :
    Makes registry (frame.visit call :: visits) (frame.perform registry call block) := by
  intro earlier
  rw [perform_checked frame registry call block same, List.findSome?_cons]
  cases sound : (frame.visit call).fault? registry with
  | some e => rfl
  | none =>
      simp only [frame.carryOut_flat flat atRoot sound block same]
      cases block with
      | none => rw [alone rfl]; rfl
      | some block =>
          have onward := inside block rfl (earlier ++ [frame.visit call])
          rwa [List.append_assoc, List.singleton_append] at onward

mutual

theorem evalCall_makes {registry : Registry} (flat : registry.Flat) (frame : Frame)
    (atRoot : frame.scope = []) (call : Call) :
    Makes registry (call.visits frame.parents frame.receiver) (evalCall registry frame call) := by
  match call with
  | .bare head => exact frame.perform_makes flat atRoot (.bare head) none rfl (fun _ => rfl) (by simp)
  | .plain head args =>
      exact frame.perform_makes flat atRoot (.plain head args) none rfl (fun _ => rfl) (by simp)
  | .block head args param body =>
      refine frame.perform_makes flat atRoot (.block head args param body) (some _) rfl (by simp) ?_
      intro inside same
      cases same
      exact evalCalls_makes flat { parents := frame.parents ++ [head.keyword], receiver := param } rfl body

theorem evalCalls_makes {registry : Registry} (flat : registry.Flat) (frame : Frame)
    (atRoot : frame.scope = []) (calls : List Call) :
    Makes registry (Call.visitsOf frame.parents frame.receiver calls) (evalCalls registry frame calls) := by
  match calls with
  | [] => exact fun earlier => by simp [Call.visitsOf]; rfl
  | call :: rest => exact (evalCall_makes flat frame atRoot call).bind (evalCalls_makes flat frame atRoot rest)

end

-- A script succeeds exactly when each of its calls is inert or passes its checks. Its error is the
-- first that fails, and its document is what the calls to each keyword add up to.
theorem interpret_flat {registry : Registry} (flat : registry.Flat) (parsed : Script.parse script = .ok calls) :
    ((∃ d, interpret script registry = .ok d) ↔
      ∀ v ∈ Call.visitsOf [] none calls, v.inert registry ∨ ∀ check ∈ v.checks registry, check = none) ∧
    interpret script registry =
      match (Call.visitsOf [] none calls).findSome? (Visit.fault? registry) with
      | some e => .error e
      | none => .ok ⟨outcome registry (Call.visitsOf [] none calls)⟩ := by
  have made := evalCalls_makes flat {} rfl calls []
  have equal : interpret script registry =
      match (Call.visitsOf [] none calls).findSome? (Visit.fault? registry) with
      | some e => .error e
      | none => .ok ⟨outcome registry (Call.visitsOf [] none calls)⟩ := by
    unfold interpret
    rw [parsed]
    -- Before the first call the document is empty, which is the outcome of no visits.
    replace made : match (Call.visitsOf [] none calls).findSome? (Visit.fault? registry) with
        | some e => (evalCalls registry {} calls {}).1 = .error e
        | none => evalCalls registry {} calls {} = (.ok (), ⟨outcome registry (Call.visitsOf [] none calls)⟩) := made
    cases fault : (Call.visitsOf [] none calls).findSome? (Visit.fault? registry) with
    | some e =>
        rw [fault] at made
        dsimp only at made ⊢
        generalize evalCalls registry {} calls {} = ran at made
        obtain ⟨result, d⟩ := ran
        cases made
        rfl
    | none =>
        rw [fault] at made
        dsimp only at made ⊢
        rw [made]
  have sound : (∀ v ∈ Call.visitsOf [] none calls, v.inert registry ∨ ∀ check ∈ v.checks registry, check = none) ↔
      (Call.visitsOf [] none calls).findSome? (Visit.fault? registry) = none := by
    rw [List.findSome?_eq_none_iff]
    exact ⟨fun held v member => Visit.fault?_eq_none.mpr (held v member),
      fun held v member => Visit.fault?_eq_none.mp (held v member)⟩
  refine ⟨?_, equal⟩
  rw [sound, equal]
  cases (Call.visitsOf [] none calls).findSome? (Visit.fault? registry) <;> simp

-- A block with a receiver, a value written twice, an inert name, and two calls that are kept apart. The
-- second of them has no mapping, and an empty one is what its constraint is asked about.
theorem interpret_flat_of_block :
    let registry : Registry := ⟨[("web", { kind := .map, allowBlock := true }),
      ("item", { kind := .scalar, requireParent := ["web"], validate := some { kind := some .string } }),
      ("job", { kind := .scalarPlusMap, cumulative := true, validate := some { optional := [{ name := "b" }] } })]⟩
    let script := "web('a' => 'b') do |w|\n  w.item 'x'\n  item 'y'\nend\nProduction\njob 'a', b: 'c'\njob 'a'"
    let calls : List Call := [
      .block ⟨"web", none, 1⟩ [.map [("a", .str "b")]] (some "w")
        [.plain ⟨"item", some "w", 2⟩ [.str "x"], .plain ⟨"item", none, 3⟩ [.str "y"]],
      .bare ⟨"Production", none, 5⟩,
      .plain ⟨"job", none, 6⟩ [.str "a", .map [("b", .str "c")]],
      .plain ⟨"job", none, 7⟩ [.str "a"]]
    registry.Flat ∧ Script.parse script = .ok calls ∧
      interpret script registry = .ok ⟨[("web", .map [("a", .str "b")]), ("item", .str "y"),
        ("job", .list [.list [.str "a", .map [("b", .str "c")]], .list [.str "a", .map []]])]⟩ := by
  intro registry script calls
  have flat : registry.Flat := by
    intro keyword d resolved
    simp only [Registry.resolve, registry, Keyed.get?] at resolved
    split at resolved
    · cases resolved; exact ⟨rfl, fun _ => rfl⟩
    split at resolved
    · cases resolved; exact ⟨rfl, fun _ => rfl⟩
    split at resolved
    · cases resolved; exact ⟨rfl, fun kind => by cases kind⟩
    · cases resolved
  have parsed : Script.parse script = .ok calls := by
    subst calls script
    cbv
  refine ⟨flat, parsed, (interpret_flat flat parsed).2.trans ?_⟩
  cbv

end KeywordConfig
