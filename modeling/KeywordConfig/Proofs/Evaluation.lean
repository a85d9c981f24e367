import KeywordConfig.Evaluation
import KeywordConfig.Proofs.Slots

namespace KeywordConfig

theorem Evaluation.bind_apply (x : Evaluation α) (f : α → Evaluation β) (d : Document) :
    (x >>= f) d = match x d with
      | (.ok a, d) => f a d
      | (.error e, d) => (.error e, d) := by
  show (match x d with | (result, d) => ExceptT.bindCont f result d) = _
  cases x d with
  | mk result d => cases result <;> rfl

theorem Evaluation.bind_ok {x : Evaluation α} {f : α → Evaluation β} :
    (x >>= f) d = (.ok b, after) ↔ ∃ a middle, x d = (.ok a, middle) ∧ f a middle = (.ok b, after) := by
  rw [bind_apply]
  cases x d with
  | mk result middle =>
      cases result with
      | error e => exact ⟨nofun, nofun⟩
      | ok a =>
          constructor
          · intro ran
            exact ⟨a, middle, rfl, ran⟩
          · rintro ⟨_, _, same, ran⟩
            cases same
            exact ran

theorem Evaluation.throw_bind (e : ConfigError) (f : α → Evaluation β) :
    (throw e : Evaluation α) >>= f = throw e := by
  funext d
  rw [bind_apply]
  rfl

theorem mapped_ok {result : Except ε α} (mapped : result.map f = .ok b) : ∃ a, result = .ok a ∧ f a = b := by
  cases result with
  | error e => cases mapped
  | ok a => cases mapped; exact ⟨a, rfl, rfl⟩

def Declaration.broken (declaration : Declaration) (keyword : String) (content : Content) :
    List Violation :=
  match declaration.validate, content.checked with
  | some c, some value => c.violations keyword value
  | _, _ => []

namespace Entry

theorem inScope_apply (e : Entry) (change : Mapping → α × Mapping) (d : Document) :
    e.inScope change d = match d.updateScope change e.scope with
      | (some a, d) => (.ok a, d)
      | (none, d) => (.error ⟨.scopeNotMapping e.name, e.line⟩, d) := by
  unfold inScope
  rw [Evaluation.bind_apply]
  have changed : (modifyGet (Document.updateScope change e.scope) : Evaluation (Option α)) d =
      (.ok (d.updateScope change e.scope).1, (d.updateScope change e.scope).2) := rfl
  rw [changed]
  cases d.updateScope change e.scope with
  | mk result d => cases result <;> rfl

-- What a write comes to: the slot it reached, or an error.
def settle (e : Entry) : Except Content.Obstacle Slot → Evaluation Slot
  | .ok slot => return e.scope ++ slot
  | .error obstacle => e.fail (.occupied e.name obstacle.found obstacle.wanted)

def store (e : Entry) (content : Content) : Evaluation Slot :=
  match content with
  | .nothing => return e.scope
  | content => e.inScope (content.write e.name e.declaration.cumulative) >>= e.settle

theorem store_eq (e : Entry) (written : content ≠ .nothing) :
    e.store content = e.inScope (content.write e.name e.declaration.cumulative) >>= e.settle := by
  cases content with
  | nothing => exact absurd rfl written
  | mapping | scalar | keyed => rfl

-- At the root there is always a mapping to write into.
theorem store_root (e : Entry) (atRoot : e.scope = []) (content : Content) (d : Document) :
    e.store content d = match content.write e.name e.declaration.cumulative d.root with
      | (.ok slot, root) => (.ok slot, ⟨root⟩)
      | (.error obstacle, root) =>
          (.error ⟨.occupied e.name obstacle.found obstacle.wanted, e.line⟩, ⟨root⟩) := by
  by_cases nothing : content = .nothing
  · subst nothing
    show (Except.ok e.scope, d) = _
    rw [atRoot]
    rfl
  · rw [store_eq e nothing, Evaluation.bind_apply, inScope_apply, atRoot, Document.updateScope_root]
    unfold settle
    rw [atRoot]
    cases content.write e.name e.declaration.cumulative d.root with
    | mk result root => cases result <;> rfl

theorem check_eq (e : Entry) (value : Value) :
    e.check value = match e.declaration.validate with
      | none => pure ()
      | some c =>
          if (c.violations e.name value).isEmpty then pure ()
          else e.fail (.rejected (c.violations e.name value)) := by
  unfold check
  cases e.declaration.validate <;> rfl

theorem check_bind (e : Entry) (checked : content.checked = some value) (next : Evaluation α) :
    (e.check value >>= fun _ => next) =
      if (e.declaration.broken e.name content).isEmpty then next
      else e.fail (.rejected (e.declaration.broken e.name content)) := by
  rw [check_eq]
  cases validate : e.declaration.validate with
  | none => simp [Declaration.broken, validate]
  | some c =>
      simp only [Declaration.broken, validate, checked]
      by_cases sound : (c.violations e.name value).isEmpty
      · simp [sound]
      · simp only [sound, Bool.false_eq_true, if_false]
        exact Evaluation.throw_bind _ _

theorem takeArgs_eq (e : Entry) (args : List Value) :
    e.takeArgs args = match Content.ofArgs e.declaration.kind args with
      | none => e.fail (.wrongArguments e.name e.declaration.kind)
      | some content =>
          if (e.declaration.broken e.name content).isEmpty then e.store content
          else e.fail (.rejected (e.declaration.broken e.name content)) := by
  unfold takeArgs
  cases Content.ofArgs e.declaration.kind args with
  | none => rfl
  | some content =>
      cases content with
      | nothing =>
          have unchecked : e.declaration.broken e.name .nothing = [] := by
            unfold Declaration.broken
            cases e.declaration.validate <;> rfl
          simp only [unchecked, List.isEmpty_nil, if_true]
          rfl
      | mapping entries => exact e.check_bind rfl _
      | scalar value => exact e.check_bind rfl _
      | keyed value entries => exact e.check_bind rfl _

def evalBlock (e : Entry) (block : Option Inside) (current : Slot) : Evaluation Unit :=
  match block with
  | some inside => e.evalInside inside current
  | none => pure ()

theorem evaluate_eq (e : Entry) (args : List Value) (block : Option Inside) :
    e.evaluate args block =
      if block.isSome && !e.declaration.allowBlock then e.fail (.blockNotAllowed e.name)
      else e.takeArgs args >>= e.evalBlock block := by
  unfold evaluate
  by_cases refused : (block.isSome && !e.declaration.allowBlock) = true
  · simp only [if_pos refused]
    exact Evaluation.throw_bind _ _
  · simp only [if_neg refused]
    rfl

theorem blockScope_apply (e : Entry) (current : Slot) (d : Document) :
    e.blockScope current d =
      if e.declaration.nested then
        if current.isEmpty || (d.node? current).any Value.isMap then (.ok current, d)
        else (.error ⟨.cannotNest e.name (d.node? current), e.line⟩, d)
      else (.ok e.scope, d) := by
  unfold blockScope
  split
  · rw [Evaluation.bind_apply]
    show (if _ then (pure current : Evaluation Slot) else e.fail _) d = _
    split <;> rfl
  · rfl

end Entry

theorem Entry.enter_ok {frame : Frame} {d : Declaration} (entered : enter keyword d frame number = .ok entry) :
    entry.name = keyword ∧ entry.scope = frame.scope := by
  unfold enter at entered
  dsimp only at entered
  split at entered
  · cases entered; exact ⟨rfl, rfl⟩
  · cases entered

theorem Frame.enter?_some {frame : Frame} (entered : frame.enter? registry call = .ok (some entry)) :
    entry.name = call.keyword ∧ entry.scope = frame.scope := by
  unfold enter? at entered
  dsimp only at entered
  split at entered
  · cases entered
  · split at entered
    · obtain ⟨_, entered, same⟩ := mapped_ok entered
      cases same
      exact Entry.enter_ok entered
    · split at entered <;> cases entered

theorem Frame.perform_eq (frame : Frame) (registry : Registry) (call : Call)
    (block : Option Entry.Inside) :
    frame.perform registry call block = match frame.enter? registry call with
      | .error e => throw e
      | .ok none => pure ()
      | .ok (some entry) => entry.evaluate call.args block := by
  unfold perform
  cases frame.enter? registry call with
  | error e => exact Evaluation.throw_bind _ _
  | ok entry => cases entry <;> rfl

end KeywordConfig
