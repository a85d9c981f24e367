import KeywordConfig.Proofs.Evaluation

namespace KeywordConfig

-- What the arguments of a call hold: a value, a mapping or both, as its keyword takes them.
structure Operands where
  value : Value := .null
  mapping : Mapping := []

-- Arguments read by the kind of the keyword. The mapping behind a value may be left out.
def Kind.operands? : Kind → List Value → Option Operands
  | .base, _ => some {}
  | .map, [.map mapping] => some { mapping }
  | .scalar, [value] => if value.isMap then none else some { value }
  | .scalarPlusMap, [value] => if value.isMap then none else some { value }
  | .scalarPlusMap, [value, .map mapping] => if value.isMap then none else some { value, mapping }
  | _, _ => none

-- What a constraint is asked about.
def Operands.asked (given : Operands) : Kind → Option Value
  | .base => none
  | .map => some (.map given.mapping)
  | .scalar => some given.value
  | .scalarPlusMap => some (.map given.mapping)

namespace Content

def kind : Content → Kind
  | .nothing => .base
  | .mapping _ => .map
  | .scalar _ => .scalar
  | .keyed _ _ => .scalarPlusMap

def operands : Content → Operands
  | .nothing => {}
  | .mapping entries => { mapping := entries }
  | .scalar value => { value }
  | .keyed value entries => { value, mapping := entries }

theorem ofArgs_kind {k : Kind} (shaped : ofArgs k args = some content) : content.kind = k := by
  unfold ofArgs at shaped
  split at shaped
  · cases shaped; rfl
  · cases shaped; rfl
  · split at shaped <;> cases shaped; rfl
  · split at shaped <;> cases shaped; rfl
  · split at shaped <;> cases shaped; rfl
  · cases shaped

theorem operands?_eq (kind : Kind) (args : List Value) : kind.operands? args = (ofArgs kind args).map operands := by
  fun_cases ofArgs kind args <;> simp_all [Kind.operands?, operands]

theorem operands_asked {k : Kind} (shaped : ofArgs k args = some content) :
    content.operands.asked k = content.checked := by
  rw [← ofArgs_kind shaped]
  cases content <;> rfl

end Content

structure Visit where
  call : Call
  -- the keywords of the calls around it, outermost first
  parents : List String
  -- the parameter of the block it stands in
  receiver : Option String

namespace Call

mutual

def visits (parents : List String) (receiver : Option String) : Call → List Visit
  | .bare head => [⟨.bare head, parents, receiver⟩]
  | .plain head args => [⟨.plain head args, parents, receiver⟩]
  | .block head args param body =>
      ⟨.block head args param body, parents, receiver⟩ ::
        visitsOf (parents ++ [head.keyword]) param body

def visitsOf (parents : List String) (receiver : Option String) : List Call → List Visit
  | [] => []
  | call :: rest => visits parents receiver call ++ visitsOf parents receiver rest

end

theorem block?_of_bare {call : Call} (lone : call.isBare = true) : call.block? = none := by
  cases call with
  | bare head => rfl
  | _ => cases lone

section

variable (parents : List String) (receiver : Option String) {call : Call} (rest : List Call)

theorem visitsOf_alone (none : call.block? = none) :
    visitsOf parents receiver (call :: rest) = ⟨call, parents, receiver⟩ :: visitsOf parents receiver rest := by
  cases call with
  | bare head | plain head args => rfl
  | block => cases none

theorem visitsOf_block {inner : Block} (same : call.block? = some inner) :
    visitsOf parents receiver (call :: rest) = ⟨call, parents, receiver⟩ ::
      (visitsOf (parents ++ [call.keyword]) inner.param inner.body ++ visitsOf parents receiver rest) := by
  cases call with
  | bare head | plain head args => cases same
  | block => cases same; rfl

end

end Call

namespace Visit

def keyword (v : Visit) : String := v.call.keyword

def inert (registry : Registry) (v : Visit) : Bool :=
  v.parents.isEmpty && v.call.isBare && v.call.head.receiver.isNone &&
    (registry.resolve v.keyword).isNone

-- A receiver has to be the parameter of the block.
def strange? (v : Visit) : Option Cause :=
  match v.call.head.receiver with
  | some receiver =>
      if v.receiver = some receiver then none else some (.undefinedReceiver receiver v.keyword)
  | none => none

def misplaced? (d : Declaration) (v : Visit) : Option Cause :=
  if d.requireParent = [] ∨ ∃ parent ∈ d.requireParent, parent ∈ v.parents then none
  else some (.misplaced v.keyword d.requireParent)

def blocked? (d : Declaration) (v : Visit) : Option Cause :=
  if v.call.block?.isSome && !d.allowBlock then some (.blockNotAllowed v.keyword) else none

def misshapen? (d : Declaration) (v : Visit) : Option Cause :=
  match d.kind.operands? v.call.args with
  | some _ => none
  | none => some (.wrongArguments v.keyword d.kind)

def rejected? (d : Declaration) (v : Visit) : Option Cause :=
  match d.validate, (d.kind.operands? v.call.args).bind (·.asked d.kind) with
  | some c, some value =>
      if c.violations v.keyword value = [] then none else some (.rejected (c.violations v.keyword value))
  | _, _ => none

-- What is checked about a call, in this order.
def checks (registry : Registry) (v : Visit) : List (Option Cause) :=
  v.strange? :: match registry.resolve v.keyword with
    | none => [some (.unknownKeyword v.keyword v.parents.getLast?)]
    | some d => [v.misplaced? d, v.blocked? d, v.misshapen? d, v.rejected? d]

-- The first check that fails.
def fault? (registry : Registry) (v : Visit) : Option ConfigError :=
  if v.inert registry then none
  else ((v.checks registry).findSome? id).map (⟨·, some v.call.head.line⟩)

theorem misshapen?_eq (d : Declaration) (v : Visit) : v.misshapen? d =
    match Content.ofArgs d.kind v.call.args with
    | some _ => none
    | none => some (.wrongArguments v.keyword d.kind) := by
  unfold misshapen?
  rw [Content.operands?_eq]
  cases Content.ofArgs d.kind v.call.args <;> rfl

theorem rejected?_eq {v : Visit} (shaped : Content.ofArgs d.kind v.call.args = some content) : v.rejected? d =
    if d.broken v.keyword content = [] then none else some (.rejected (d.broken v.keyword content)) := by
  have asked : (d.kind.operands? v.call.args).bind (·.asked d.kind) = content.checked := by
    rw [Content.operands?_eq, shaped]
    exact Content.operands_asked shaped
  unfold rejected? Declaration.broken
  rw [asked]
  cases d.validate with
  | none => rfl
  | some c => cases content.checked <;> rfl

theorem inert_free {v : Visit} (inert : v.inert registry = true) :
    v.call.isBare = true ∧ v.strange? = none ∧ registry.resolve v.keyword = none := by
  simp only [Visit.inert, Bool.and_eq_true, Option.isNone_iff_eq_none] at inert
  obtain ⟨⟨⟨_, bare⟩, addressed⟩, unknown⟩ := inert
  exact ⟨bare, by simp [strange?, addressed], unknown⟩

theorem fault?_eq_none {v : Visit} :
    v.fault? registry = none ↔ v.inert registry ∨ ∀ check ∈ v.checks registry, check = none := by
  unfold fault?
  by_cases inert : v.inert registry
  · simp [inert]
  · simp [inert]

theorem inert_of_unknown {v : Visit} (sound : v.fault? registry = none)
    (unknown : registry.resolve v.keyword = none) : v.inert registry = true := by
  rcases fault?_eq_none.mp sound with inert | passed
  · exact inert
  · have listed : some (.unknownKeyword v.keyword v.parents.getLast?) ∈ v.checks registry := by
      simp [checks, unknown]
    cases passed _ listed

theorem checks_of_known {v : Visit} (sound : v.fault? registry = none)
    (known : registry.resolve v.keyword = some d) : v.strange? = none ∧ v.misplaced? d = none ∧
      v.blocked? d = none ∧ v.misshapen? d = none ∧ v.rejected? d = none := by
  rcases fault?_eq_none.mp sound with inert | passed
  · rw [(inert_free inert).2.2] at known
    cases known
  · simpa [checks, known] using passed

theorem sound_of_checks {v : Visit} (known : registry.resolve v.keyword = some d)
    (passed : v.strange? = none ∧ v.misplaced? d = none ∧ v.blocked? d = none ∧ v.misshapen? d = none ∧
      v.rejected? d = none) : v.fault? registry = none :=
  fault?_eq_none.mpr (.inr (by simpa [checks, known] using passed))

theorem shaped_of_known {v : Visit} (sound : v.fault? registry = none)
    (known : registry.resolve v.keyword = some d) :
    ∃ content, Content.ofArgs d.kind v.call.args = some content := by
  obtain ⟨_, _, _, passed, _⟩ := checks_of_known sound known
  rw [misshapen?_eq] at passed
  split at passed
  · exact ⟨_, ‹_›⟩
  · cases passed

end Visit

namespace Frame

def visit (frame : Frame) (call : Call) : Visit := ⟨call, frame.parents, frame.receiver⟩

def entry (frame : Frame) (call : Call) (d : Declaration) : Entry where
  name := call.keyword
  declaration := d
  parents := frame.parents
  scope := frame.scope
  line := some call.head.line

-- What a call does once its checks hold. One that is inert does nothing.
def carryOut (frame : Frame) (registry : Registry) (call : Call) (block : Option Entry.Inside) :
    Evaluation Unit :=
  match registry.resolve call.keyword with
  | none => pure ()
  | some d =>
      match Content.ofArgs d.kind call.args with
      | none => pure ()
      | some content => (frame.entry call d).store content >>= (frame.entry call d).evalBlock block

theorem strange?_eq (frame : Frame) (call : Call) :
    (frame.visit call).strange? =
      if call.head.receiver.any (fun receiver => frame.receiver != some receiver) then
        some (.undefinedReceiver (call.head.receiver.getD "") call.keyword)
      else none := by
  unfold Visit.strange? visit
  cases call.head.receiver with
  | none => rfl
  | some receiver => by_cases known : frame.receiver = some receiver <;> simp [known, Visit.keyword]

theorem misplaced?_eq (frame : Frame) (call : Call) (d : Declaration) :
    (frame.visit call).misplaced? d =
      if d.requireParent.isEmpty || d.requireParent.any frame.parents.contains then none
      else some (.misplaced call.keyword d.requireParent) := by
  have same : (d.requireParent = [] ∨ ∃ parent ∈ d.requireParent, parent ∈ frame.parents) ↔
      (d.requireParent.isEmpty || d.requireParent.any frame.parents.contains) = true := by
    simp
  unfold Visit.misplaced? visit
  by_cases placed : (d.requireParent.isEmpty || d.requireParent.any frame.parents.contains) = true
  · rw [if_pos (same.mpr placed), if_pos placed]
  · rw [if_neg fun held => placed (same.mp held), if_neg placed]
    rfl

theorem inert_eq (frame : Frame) (call : Call) (unknown : registry.resolve call.keyword = none) :
    (frame.visit call).inert registry =
      (call.isBare && call.head.receiver.isNone && frame.parents.isEmpty) := by
  unfold Visit.inert visit Visit.keyword
  rw [unknown, Option.isNone_none, Bool.and_true, Bool.and_assoc, Bool.and_comm]

theorem enter?_eq (frame : Frame) (registry : Registry) (call : Call) :
    frame.enter? registry call = match (frame.visit call).strange? with
      | some cause => .error ⟨cause, some call.head.line⟩
      | none =>
          match registry.resolve call.keyword with
          | none =>
              if (frame.visit call).inert registry then .ok none
              else .error ⟨.unknownKeyword call.keyword frame.parents.getLast?, some call.head.line⟩
          | some d =>
              match (frame.visit call).misplaced? d with
              | some cause => .error ⟨cause, some call.head.line⟩
              | none => .ok (some (frame.entry call d)) := by
  unfold enter? Entry.enter
  dsimp only
  rw [strange?_eq]
  split
  · rfl
  · dsimp only
    have head : registry.resolve call.head.keyword = registry.resolve call.keyword := rfl
    rw [head]
    cases resolved : registry.resolve call.keyword with
    | none =>
        simp only [inert_eq frame call resolved]
        rfl
    | some d =>
        simp only [misplaced?_eq]
        split <;> rfl

theorem evaluate_checked (frame : Frame) (call : Call) (d : Declaration) (block : Option Entry.Inside)
    (same : block.isSome = call.block?.isSome) :
    (frame.entry call d).evaluate call.args block =
      match [(frame.visit call).blocked? d, (frame.visit call).misshapen? d,
          (frame.visit call).rejected? d].findSome? id with
      | some cause => throw ⟨cause, some call.head.line⟩
      | none =>
          match Content.ofArgs d.kind call.args with
          | none => pure ()
          | some content =>
              (frame.entry call d).store content >>= (frame.entry call d).evalBlock block := by
  have name : (frame.entry call d).name = call.keyword := rfl
  have declaration : (frame.entry call d).declaration = d := rfl
  have blocked : (frame.visit call).blocked? d =
      if call.block?.isSome && !d.allowBlock then some (.blockNotAllowed call.keyword) else none := rfl
  have misshapen : (frame.visit call).misshapen? d = match Content.ofArgs d.kind call.args with
      | some _ => none
      | none => some (.wrongArguments call.keyword d.kind) := Visit.misshapen?_eq d (frame.visit call)
  rw [Entry.evaluate_eq, Entry.takeArgs_eq, same, name, declaration, blocked, misshapen]
  cases call.block?.isSome && !d.allowBlock with
  | true => rfl
  | false =>
      simp only [Bool.false_eq_true, if_false]
      cases shaped : Content.ofArgs d.kind call.args with
      | none => exact Evaluation.throw_bind _ _
      | some content =>
          have rejected : (frame.visit call).rejected? d = if d.broken call.keyword content = [] then none
              else some (.rejected (d.broken call.keyword content)) := Visit.rejected?_eq shaped
          rw [rejected]
          by_cases sound : d.broken call.keyword content = []
          · simp [sound]
          · simp only [if_neg sound, List.isEmpty_iff]
            exact Evaluation.throw_bind _ _

theorem perform_checked (frame : Frame) (registry : Registry) (call : Call) (block : Option Entry.Inside)
    (same : block.isSome = call.block?.isSome) :
    frame.perform registry call block = match (frame.visit call).fault? registry with
      | some e => throw e
      | none => frame.carryOut registry call block := by
  have keyword : (frame.visit call).keyword = call.keyword := rfl
  have line : (frame.visit call).call.head.line = call.head.line := rfl
  rw [perform_eq, enter?_eq]
  unfold Visit.fault? Visit.checks carryOut
  rw [keyword, line]
  cases inert : (frame.visit call).inert registry with
  | true =>
      obtain ⟨_, addressed, unknown⟩ := Visit.inert_free inert
      rw [keyword] at unknown
      simp [addressed, unknown]
  | false =>
      cases (frame.visit call).strange? with
      | some cause => rfl
      | none =>
          cases registry.resolve call.keyword with
          | none => rfl
          | some d =>
              cases placed : (frame.visit call).misplaced? d with
              | some cause => simp only [placed]; rfl
              | none =>
                  have passed (rest : List (Option Cause)) :
                      (none :: none :: rest).findSome? id = rest.findSome? id := rfl
                  simp only [evaluate_checked frame call d block same, placed, passed, Bool.false_eq_true, if_false]
                  cases List.findSome? id [(frame.visit call).blocked? d, (frame.visit call).misshapen? d,
                    (frame.visit call).rejected? d] <;> rfl

end Frame

end KeywordConfig
