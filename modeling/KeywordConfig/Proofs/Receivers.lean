import KeywordConfig.Proofs.Admission

namespace KeywordConfig

def Head.unaddressed (head : Head) : Head := { head with receiver := none }

namespace Call

mutual

def unaddressed : Call → Call
  | .bare head => .bare head.unaddressed
  | .plain head args => .plain head.unaddressed args
  | .block head args param body => .block head.unaddressed args param (unaddressedAll body)

def unaddressedAll : List Call → List Call
  | [] => []
  | call :: rest => call.unaddressed :: unaddressedAll rest

end

-- Every receiver, at any depth, is the parameter of the block around its call.
def Addressed (calls : List Call) : Prop :=
  ∀ v ∈ visitsOf [] none calls, ∀ receiver, v.call.head.receiver = some receiver → v.receiver = some receiver

variable (call : Call)

@[simp] theorem unaddressed_keyword : call.unaddressed.keyword = call.keyword := by cases call <;> rfl

@[simp] theorem unaddressed_line : call.unaddressed.head.line = call.head.line := by cases call <;> rfl

@[simp] theorem unaddressed_receiver : call.unaddressed.head.receiver = none := by cases call <;> rfl

@[simp] theorem unaddressed_args : call.unaddressed.args = call.args := by cases call <;> rfl

@[simp] theorem unaddressed_isBare : call.unaddressed.isBare = call.isBare := by cases call <;> rfl

theorem unaddressed_block? :
    call.unaddressed.block? = call.block?.map fun block => ⟨block.param, unaddressedAll block.body⟩ := by
  cases call <;> rfl

end Call

def Frame.Enclosed (frame : Frame) : Prop := frame.receiver ≠ none → frame.parents ≠ []

namespace Frame

theorem inert_unaddressed {frame : Frame} (enclosed : frame.Enclosed) (addressed : (frame.visit call).strange? = none) :
    (frame.visit call.unaddressed).inert registry = (frame.visit call).inert registry := by
  unfold visit Visit.inert Visit.keyword
  simp only [Call.unaddressed_keyword, Call.unaddressed_isBare, Call.unaddressed_receiver]
  cases named : call.head.receiver with
  | none => rfl
  | some receiver =>
      have known : frame.receiver = some receiver := Visit.strange?_eq_none.mp addressed receiver named
      have inner : frame.parents ≠ [] := enclosed (by simp [known])
      simp [inner]

theorem fault?_unaddressed {frame : Frame} (enclosed : frame.Enclosed) (addressed : (frame.visit call).strange? = none) :
    (frame.visit call.unaddressed).fault? registry = (frame.visit call).fault? registry := by
  have strange : (frame.visit call.unaddressed).strange? = none :=
    Visit.strange?_eq_none.mpr (by simp [visit])
  have blocks : call.unaddressed.block?.isSome = call.block?.isSome := by
    rw [Call.unaddressed_block?, Option.isSome_map]
  unfold Visit.fault? Visit.checks
  rw [inert_unaddressed enclosed addressed, strange, addressed]
  simp only [visit, Visit.keyword, Visit.misplaced?, Visit.blocked?, Visit.misshapen?, Visit.rejected?,
    Call.unaddressed_keyword, Call.unaddressed_line, Call.unaddressed_args, blocks]
  rfl

end Frame

-- A block is run in no other frames than those of its call.
theorem Entry.evalBlock_congr (e : Entry) {first second : Option Inside} (same : first.map Inside.param = second.map Inside.param)
    (alike : ∀ a ∈ first, ∀ b ∈ second, ∀ scope, a.evaluate (e.frame scope a.param) = b.evaluate (e.frame scope a.param)) :
    e.evalBlock first = e.evalBlock second := by
  cases first with
  | none =>
      cases second with
      | none => rfl
      | some => cases same
  | some a =>
      cases second with
      | none => cases same
      | some b =>
          have params : a.param = b.param := Option.some.inj same
          funext current
          unfold evalBlock evalInside
          refine congrArg (e.blockScope current >>= ·) (funext fun scope => ?_)
          have runs := alike a rfl b rfl scope
          rw [params] at runs ⊢
          exact runs

theorem evalCall_unaddressed_of {frame : Frame} (enclosed : frame.Enclosed) (addressed : (frame.visit call).strange? = none)
    (inner : ∀ block ∈ call.block?, ∀ scope,
      evalCalls registry ⟨frame.parents ++ [call.keyword], scope, block.param⟩ (Call.unaddressedAll block.body) =
        evalCalls registry ⟨frame.parents ++ [call.keyword], scope, block.param⟩ block.body) :
    evalCall registry frame call.unaddressed = evalCall registry frame call := by
  have entries (d : Declaration) : frame.entry call.unaddressed d = frame.entry call d := by
    simp [Frame.entry]
  have blocks (d : Declaration) : (frame.entry call d).evalBlock (call.unaddressed.block?.map (Block.inside registry)) =
      (frame.entry call d).evalBlock (call.block?.map (Block.inside registry)) := by
    apply Entry.evalBlock_congr
    · rw [Call.unaddressed_block?]
      cases call.block? <;> rfl
    · rw [Call.unaddressed_block?]
      intro a erased b kept scope
      obtain ⟨block, found, rfl⟩ := Option.map_eq_some_iff.mp kept
      rw [found] at erased
      cases erased
      exact inner block found scope
  rw [evalCall_perform, evalCall_perform, Frame.perform_checked _ _ _ _ (by simp),
    Frame.perform_checked _ _ _ _ (by simp), Frame.fault?_unaddressed enclosed addressed]
  unfold Frame.carryOut
  simp only [Call.unaddressed_keyword, Call.unaddressed_args, entries, blocks]

mutual

theorem evalCall_unaddressed (registry : Registry) {frame : Frame} (enclosed : frame.Enclosed) (call : Call)
    (addressed : ∀ v ∈ call.visits frame.parents frame.receiver, v.strange? = none) :
    evalCall registry frame call.unaddressed = evalCall registry frame call := by
  match call with
  | .bare head | .plain head args =>
      exact evalCall_unaddressed_of enclosed (addressed _ List.mem_cons_self) nofun
  | .block head args param body =>
      obtain ⟨first, others⟩ := List.forall_mem_cons.mp addressed
      refine evalCall_unaddressed_of enclosed first fun block same scope => ?_
      cases same
      exact evalCalls_unaddressed registry (fun _ => by simp) body others

theorem evalCalls_unaddressed (registry : Registry) {frame : Frame} (enclosed : frame.Enclosed) (calls : List Call)
    (addressed : ∀ v ∈ Call.visitsOf frame.parents frame.receiver calls, v.strange? = none) :
    evalCalls registry frame (Call.unaddressedAll calls) = evalCalls registry frame calls := by
  match calls with
  | [] => rfl
  | call :: rest =>
      obtain ⟨first, others⟩ := List.forall_mem_append.mp addressed
      rw [Call.unaddressedAll, evalCalls, evalCalls, evalCall_unaddressed registry enclosed call first,
        evalCalls_unaddressed registry enclosed rest others]

end

theorem Call.addressed_iff : Addressed calls ↔ ∀ v ∈ visitsOf [] none calls, v.strange? = none :=
  forall₂_congr fun _ _ => Visit.strange?_eq_none.symm

-- Calls that address the blocks they stand in do what they would do without receivers, whether they succeed
-- or fail. A script with any other receiver has no document.
theorem receivers_transparent (registry : Registry) (calls : List Call) :
    (Call.Addressed calls → ∀ d, evalCalls registry {} calls d = evalCalls registry {} (Call.unaddressedAll calls) d) ∧
      (¬ Call.Addressed calls → ∀ script, Script.parse script = .ok calls → ∃ e, interpret script registry = .error e) := by
  constructor
  · intro addressed d
    rw [evalCalls_unaddressed registry (fun _ => by contradiction) calls (Call.addressed_iff.mp addressed)]
  · intro strange script parsed
    cases interpreted : interpret script registry with
    | error e => exact ⟨e, rfl⟩
    | ok document =>
        obtain ⟨_, same, runs⟩ := interpret_exact.mp interpreted
        cases parsed.symm.trans same
        exact absurd (fun v member => (runs_admitted runs v member).addressed) strange

theorem receivers_transparent_of_inner :
    let registry : Registry := ⟨[
      ("web", { kind := .map, allowBlock := true, nested := true }), ("job", { kind := .base, allowBlock := true }),
      ("ssl", { kind := .scalar })]⟩
    let calls (receiver : String) : List Call := [
      .block ⟨"web", none, 1⟩ [.map [("host", .str "a")]] (some "w") [
        .plain ⟨"ssl", some "w", 2⟩ [.str "x"],
        .block ⟨"job", some "w", 3⟩ [] (some "v") [.plain ⟨"ssl", some receiver, 3⟩ [.str "y"]]]]
    let script (receiver : String) := "web(host: 'a') do |w|\n w.ssl 'x'\n w.job() \x7b |v| " ++ receiver ++ ".ssl 'y' \x7d\nend"
    (Script.parse (script "v") = .ok (calls "v") ∧ Call.Addressed (calls "v") ∧
      ∀ d, evalCalls registry {} (calls "v") d = evalCalls registry {} (Call.unaddressedAll (calls "v")) d) ∧
    (Script.parse (script "w") = .ok (calls "w") ∧ ¬ Call.Addressed (calls "w") ∧
      ∃ e, interpret (script "w") registry = .error e) := by
  intro registry calls script
  have right : Script.parse (script "v") = .ok (calls "v") := by
    subst script calls
    cbv
  have wrong : Script.parse (script "w") = .ok (calls "w") := by
    subst script calls
    cbv
  have addressed : Call.Addressed (calls "v") := by
    simp [Call.Addressed, Call.visitsOf, Call.visits, Call.head, calls]
  have strange : ¬ Call.Addressed (calls "w") := by
    simp [Call.Addressed, Call.visitsOf, Call.visits, Call.head, calls]
  exact ⟨⟨right, addressed, (receivers_transparent registry _).1 addressed⟩,
    wrong, strange, (receivers_transparent registry _).2 strange _ wrong⟩

end KeywordConfig
