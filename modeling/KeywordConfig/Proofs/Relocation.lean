import KeywordConfig.Proofs.Evaluation

namespace KeywordConfig

-- `outer` does to the mapping at `slot` what `inner` does to the root, and gives the same result.
-- Slots among the results differ by the way to the mapping, which is what `f` adds.
def Relocates (slot : Slot) (f : α → β) (outer : Evaluation β) (inner : Evaluation α) : Prop :=
  ∀ d entries, d.Holds slot entries →
    outer d = ((inner ⟨entries⟩).1.map f, d.replace slot (inner ⟨entries⟩).2.root)

namespace Relocates

theorem pure (slot : Slot) (f : α → β) (a : α) :
    Relocates slot f (Pure.pure (f a)) (Pure.pure a) := by
  intro d entries held
  show (Except.ok (f a), d) = (Except.ok (f a), d.replace slot entries)
  rw [Document.replace_holds held]

theorem throw (slot : Slot) (f : α → β) (e : ConfigError) :
    Relocates slot f (MonadExcept.throw e) (MonadExcept.throw e) := by
  intro d entries held
  show (Except.error e, d) = (Except.error e, d.replace slot entries)
  rw [Document.replace_holds held]

theorem bind {outer : Evaluation β} {inner : Evaluation α}
    {after : β → Evaluation δ} {next : α → Evaluation γ} (first : Relocates slot f outer inner)
    (rest : ∀ a, Relocates slot g (after (f a)) (next a)) :
    Relocates slot g (outer >>= after) (inner >>= next) := by
  intro d entries held
  rw [Evaluation.bind_apply, Evaluation.bind_apply, first d entries held]
  cases inner ⟨entries⟩ with
  | mk result changed =>
      cases result with
      | error e => rfl
      | ok a =>
          have finished := rest a (d.replace slot changed.root) changed.root (Document.holds_replace held)
          rwa [Document.replace_replace] at finished

end Relocates

def Entry.below (slot : Slot) (e : Entry) : Entry := { e with scope := slot ++ e.scope }

def Frame.below (slot : Slot) (frame : Frame) : Frame := { frame with scope := slot ++ frame.scope }

namespace Entry

@[simp] theorem below_name (slot : Slot) (e : Entry) : (e.below slot).name = e.name := rfl

@[simp] theorem below_declaration (slot : Slot) (e : Entry) :
    (e.below slot).declaration = e.declaration := rfl

@[simp] theorem below_scope (slot : Slot) (e : Entry) : (e.below slot).scope = slot ++ e.scope := rfl

theorem fail_relocates (slot : Slot) (f : α → β) (e : Entry) (cause : Cause) :
    Relocates slot f ((e.below slot).fail cause) (e.fail cause) := .throw slot f _

theorem inScope_relocates (slot : Slot) (e : Entry) (change : Mapping → α × Mapping) :
    Relocates slot id ((e.below slot).inScope change) (e.inScope change) := by
  intro d entries held
  rw [inScope_apply, inScope_apply, below_scope, Document.updateScope_append held]
  cases Document.updateScope change e.scope ⟨entries⟩ with
  | mk result changed => cases result <;> rfl

theorem settle_relocates (slot : Slot) (e : Entry) (result : Except Content.Obstacle Slot) :
    Relocates slot (slot ++ ·) ((e.below slot).settle result) (e.settle result) := by
  cases result with
  | ok inner =>
      show Relocates slot _ (Pure.pure (slot ++ e.scope ++ inner)) _
      rw [List.append_assoc]
      exact .pure slot (slot ++ ·) (e.scope ++ inner)
  | error obstacle => exact fail_relocates _ _ _ _

theorem store_relocates (slot : Slot) (e : Entry) (content : Content) :
    Relocates slot (slot ++ ·) ((e.below slot).store content) (e.store content) := by
  by_cases nothing : content = .nothing
  · subst nothing
    exact .pure slot (slot ++ ·) e.scope
  · rw [store_eq _ nothing, store_eq _ nothing]
    exact (inScope_relocates slot e _).bind (settle_relocates slot e)

theorem takeArgs_relocates (slot : Slot) (e : Entry) (args : List Value) :
    Relocates slot (slot ++ ·) ((e.below slot).takeArgs args) (e.takeArgs args) := by
  rw [takeArgs_eq, takeArgs_eq, below_name, below_declaration]
  cases Content.ofArgs e.declaration.kind args with
  | none => exact fail_relocates _ _ _ _
  | some content =>
      by_cases sound : (e.declaration.broken e.name content).isEmpty
      · simpa only [if_pos sound] using store_relocates slot e content
      · simpa only [if_neg sound] using fail_relocates _ _ _ _

theorem blockScope_relocates (slot : Slot) (e : Entry) (current : Slot) :
    Relocates slot (slot ++ ·) ((e.below slot).blockScope (slot ++ current)) (e.blockScope current) := by
  intro d entries held
  rw [blockScope_apply, blockScope_apply]
  show (if e.declaration.nested then _ else (Except.ok (slot ++ e.scope), d)) = _
  by_cases nested : e.declaration.nested
  · simp only [if_pos nested]
    -- An empty slot is the root, which is a mapping. Moved, it is the slot where one stands.
    by_cases empty : current = []
    · subst empty
      have isMap : ((slot ++ []).isEmpty || (d.node? (slot ++ [])).any Value.isMap) = true := by
        cases slot with
        | nil => rfl
        | cons segment rest =>
            rw [List.append_nil, Document.node?_eq d (by simp), held]
            rfl
      simp only [if_pos isMap]
      show _ = (Except.ok (slot ++ []), d.replace slot entries)
      rw [Document.replace_holds held]
    · have nonempty : (slot ++ current).isEmpty = current.isEmpty := by
        cases current with
        | nil => exact absurd rfl empty
        | cons => cases slot <;> rfl
      rw [Document.node?_append held empty, nonempty]
      split
      · show _ = (Except.ok (slot ++ current), d.replace slot entries)
        rw [Document.replace_holds held]
      · show _ = (Except.error _, d.replace slot entries)
        rw [Document.replace_holds held]
        rfl
  · simp only [if_neg nested]
    show _ = (Except.ok (slot ++ e.scope), d.replace slot entries)
    rw [Document.replace_holds held]

def Inside.Movable (inside : Inside) (slot : Slot) : Prop :=
  ∀ frame : Frame, Relocates slot id (inside.evaluate (frame.below slot)) (inside.evaluate frame)

theorem evaluate_relocates (slot : Slot) (e : Entry) (args : List Value) (block : Option Inside)
    (movable : ∀ inside, block = some inside → inside.Movable slot) :
    Relocates slot id ((e.below slot).evaluate args block) (e.evaluate args block) := by
  rw [evaluate_eq, evaluate_eq, below_name, below_declaration]
  by_cases refused : (block.isSome && !e.declaration.allowBlock) = true
  · simpa only [if_pos refused] using fail_relocates _ _ _ _
  · simp only [if_neg refused]
    refine (takeArgs_relocates slot e args).bind fun current => ?_
    cases block with
    | none => exact .pure slot id ()
    | some inside =>
        exact (blockScope_relocates slot e current).bind fun scope =>
          movable inside rfl ⟨e.parents ++ [e.name], scope, inside.param⟩

end Entry

theorem Frame.enter?_below (frame : Frame) (slot : Slot) (registry : Registry) (call : Call) :
    (frame.below slot).enter? registry call =
      (frame.enter? registry call).map (Option.map (Entry.below slot)) := by
  unfold enter? Entry.enter below
  dsimp only
  split
  · rfl
  · cases registry.resolve call.head.keyword with
    | none => dsimp only; split <;> rfl
    | some declaration => dsimp only; split <;> rfl

theorem Frame.perform_relocates (frame : Frame) (slot : Slot) (registry : Registry) (call : Call)
    (block : Option Entry.Inside) (movable : ∀ inside, block = some inside → inside.Movable slot) :
    Relocates slot id ((frame.below slot).perform registry call block)
      (frame.perform registry call block) := by
  rw [perform_eq, perform_eq, enter?_below]
  cases frame.enter? registry call with
  | error e => exact .throw _ _ _
  | ok entry =>
      cases entry with
      | none => exact .pure slot id ()
      | some entry => exact entry.evaluate_relocates slot call.args block movable

mutual

theorem evalCall_relocates (registry : Registry) (slot : Slot) (frame : Frame) (call : Call) :
    Relocates slot id (evalCall registry (frame.below slot) call) (evalCall registry frame call) := by
  match call with
  | .bare head => exact frame.perform_relocates slot registry _ none (by simp)
  | .plain head args => exact frame.perform_relocates slot registry _ none (by simp)
  | .block head args param body =>
      refine frame.perform_relocates slot registry _ (some _) fun inside same => ?_
      cases same
      exact fun inner => evalCalls_relocates registry slot inner body

theorem evalCalls_relocates (registry : Registry) (slot : Slot) (frame : Frame) (calls : List Call) :
    Relocates slot id (evalCalls registry (frame.below slot) calls) (evalCalls registry frame calls) := by
  match calls with
  | [] => exact .pure slot id ()
  | call :: rest =>
      exact (evalCall_relocates registry slot frame call).bind fun _ =>
        evalCalls_relocates registry slot frame rest

end

-- Calls work in a mapping of a document as they would if it were the document: with the same
-- result, the error included, and with the same mapping left behind in its place.
theorem evalCalls_at_scope (registry : Registry) (parents : List String) (receiver : Option String)
    (calls : List Call) (held : d.Holds scope entries) :
    evalCalls registry { parents, scope, receiver } calls d =
      ((evalCalls registry { parents, scope := [], receiver } calls ⟨entries⟩).1,
        d.replace scope (evalCalls registry { parents, scope := [], receiver } calls ⟨entries⟩).2.root) := by
  have moved := evalCalls_relocates registry scope { parents, scope := [], receiver } calls d entries held
  simpa [Frame.below, Except.map_id] using moved

theorem evalCalls_at_scope_of_pair :
    let d : Document := ⟨[("job", .list [.list [.str "mail", .map []]])]⟩
    let scope : Slot := [.key "job", .index 0, .index 1]
    let registry : Registry := ⟨[("retries", { kind := .scalar })]⟩
    let calls : List Call := [.plain ⟨"retries", none, 2⟩ [.str "3"], .bare ⟨"retry", none, 3⟩]
    d.Holds scope [] ∧
      evalCalls registry { parents := ["job"], scope } calls d =
        (.error ⟨.unknownKeyword "retry" (some "job"), some 3⟩,
          ⟨[("job", .list [.list [.str "mail", .map [("retries", .str "3")]]])]⟩) := by
  intro d scope registry calls
  have held : d.Holds scope [] := rfl
  exact ⟨held, (evalCalls_at_scope registry ["job"] none calls held).trans rfl⟩

end KeywordConfig
