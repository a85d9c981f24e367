import Mathlib
import KeywordConfig.Proofs.Relocation
import KeywordConfig.Proofs.ReadingErrors

namespace KeywordConfig

theorem Entry.below_root (e : Entry) : ({ e with scope := [] } : Entry).below e.scope = e := by
  simp [below]

theorem Frame.below_root (frame : Frame) : ({ frame with scope := [] } : Frame).below frame.scope = frame := by
  simp [below]

-- The frame of the calls of a block.
def Entry.frame (e : Entry) (scope : Slot) (param : Option String) : Frame :=
  ⟨e.parents ++ [e.name], scope, param⟩

theorem evalCall_perform (registry : Registry) (frame : Frame) (call : Call) :
    evalCall registry frame call = frame.perform registry call (call.block?.map (Block.inside registry)) := by
  cases call <;> rfl

theorem evalCalls_cons (registry : Registry) (frame : Frame) (call : Call) (rest : List Call) (d : Document) :
    evalCalls registry frame (call :: rest) d = match evalCall registry frame call d with
      | (.ok (), d) => evalCalls registry frame rest d
      | (.error e, d) => (.error e, d) := by
  rw [evalCalls, Evaluation.bind_apply]
  cases evalCall registry frame call d with
  | mk result d => cases result <;> rfl

-- The moments of a run: which frames are active, the innermost first, and what the document is.
inductive Reaches (registry : Registry) : Frame → List Call → Document → List Frame → Document → Prop where
  -- the frame is entered, or the calls before have been finished
  | here : Reaches registry frame calls d [frame] d
  -- the arguments of a call have been written, or were refused
  | written : frame.enter? registry call = .ok (some entry) →
      (call.block?.isSome && !entry.declaration.allowBlock) = false →
      entry.takeArgs call.args d = (result, after) → Reaches registry frame (call :: rest) d [frame] after
  -- among the calls of a block
  | inside : frame.enter? registry call = .ok (some entry) →
      (call.block?.isSome && !entry.declaration.allowBlock) = false →
      entry.takeArgs call.args d = (.ok current, after) → call.block? = some block →
      entry.blockScope current after = (.ok scope, after) →
      Reaches registry (entry.frame scope block.param) block.body after frames now →
      Reaches registry frame (call :: rest) d (frames ++ [frame]) now
  -- a call has ended
  | ended : evalCall registry frame call d = (result, after) → Reaches registry frame (call :: rest) d [frame] after
  | later : evalCall registry frame call d = (.ok (), after) → Reaches registry frame rest after frames now →
      Reaches registry frame (call :: rest) d frames now

def Frame.Stands (frame : Frame) (d : Document) : Prop := ∃ entries, d.Holds frame.scope entries

namespace Entry

theorem takeArgs_within (e : Entry) (args : List Value) (held : d.Holds e.scope entries) :
    (∃ new, (e.takeArgs args d).2 = d.replace e.scope new) ∧
      ∀ current, (e.takeArgs args d).1 = .ok current → ∃ below, current = e.scope ++ below := by
  have moved := takeArgs_relocates e.scope { e with scope := [] } args d entries held
  rw [below_root] at moved
  rw [moved]
  refine ⟨⟨_, rfl⟩, ?_⟩
  intro current taken
  obtain ⟨below, _, rfl⟩ := mapped_ok taken
  exact ⟨below, rfl⟩

theorem blockScope_within (e : Entry) {below scope : Slot} (stands : ∃ entries, d.Holds e.scope entries)
    (opened : e.blockScope (e.scope ++ below) d = (.ok scope, after)) :
    after = d ∧ (∃ entries, d.Holds scope entries) ∧ ∃ below, scope = e.scope ++ below := by
  rw [blockScope_apply] at opened
  split at opened
  · split at opened
    · rename_i isMap
      cases opened
      refine ⟨rfl, ?_, below, rfl⟩
      by_cases empty : e.scope ++ below = []
      · rw [empty]
        exact ⟨d.root, rfl⟩
      · have some : (d.node? (e.scope ++ below)).any Value.isMap = true := by
          simpa [List.isEmpty_iff, empty] using isMap
        exact (d.any_isMap empty).mp some
    · cases opened
  · cases opened
    exact ⟨rfl, stands, [], by simp⟩

end Entry

theorem evalCall_within (frame : Frame) (registry : Registry) (call : Call) (held : d.Holds frame.scope entries) :
    ∃ new, (evalCall registry frame call d).2 = d.replace frame.scope new := by
  have moved := evalCall_relocates registry frame.scope { frame with scope := [] } call d entries held
  rw [frame.below_root] at moved
  exact ⟨_, congrArg Prod.snd moved⟩

theorem Frame.stands_replace {frame : Frame} {d : Document} (held : d.Holds frame.scope entries) (new : Mapping) :
    ∀ active ∈ [frame], active.Stands (d.replace frame.scope new) := by
  intro active member
  rw [List.mem_singleton.mp member]
  exact ⟨new, Document.holds_replace held⟩

theorem reaches_holds (reaches : Reaches registry frame calls d frames now)
    (held : d.Holds frame.scope entries) :
    (∃ new, now = d.replace frame.scope new) ∧ ∀ active ∈ frames, active.Stands now := by
  induction reaches generalizing entries with
  | here =>
      have alone := Frame.stands_replace held entries
      rw [Document.replace_holds held] at alone
      exact ⟨⟨entries, (Document.replace_holds held).symm⟩, alone⟩
  | @written result after frame call rest d entry entered _ taken =>
      obtain ⟨_, placed⟩ := Frame.enter?_some entered
      obtain ⟨⟨new, changed⟩, _⟩ := entry.takeArgs_within call.args (placed ▸ held)
      rw [taken, placed] at changed
      obtain rfl : after = d.replace frame.scope new := changed
      exact ⟨⟨new, rfl⟩, Frame.stands_replace held new⟩
  | @inside after block frames now frame call rest d entry current scope entered _ taken _ opened _ ih =>
      obtain ⟨_, placed⟩ := Frame.enter?_some entered
      obtain ⟨⟨middle, changed⟩, at_⟩ := entry.takeArgs_within call.args (placed ▸ held)
      rw [taken] at changed at_
      obtain ⟨below, rfl⟩ := at_ current rfl
      obtain rfl : after = d.replace entry.scope middle := changed
      have stands : (d.replace entry.scope middle).Holds entry.scope middle :=
        Document.holds_replace (placed ▸ held)
      obtain ⟨_, ⟨inner, holds⟩, deeper, rfl⟩ := entry.blockScope_within ⟨middle, stands⟩ opened
      obtain ⟨⟨new, rfl⟩, active⟩ := ih holds
      have outer : (d.replace entry.scope middle).replace (entry.frame (entry.scope ++ deeper) block.param).scope new =
          d.replace frame.scope (Document.replace deeper new ⟨middle⟩).root := by
        show (d.replace entry.scope middle).replace (entry.scope ++ deeper) new = _
        rw [Document.replace_append stands, Document.replace_replace, placed]
      rw [outer] at active ⊢
      exact ⟨⟨_, rfl⟩, List.forall_mem_append.mpr ⟨active, Frame.stands_replace held _⟩⟩
  | @ended frame call d result after rest called =>
      obtain ⟨new, changed⟩ := evalCall_within frame registry call held
      rw [called] at changed
      obtain rfl : after = d.replace frame.scope new := changed
      exact ⟨⟨new, rfl⟩, Frame.stands_replace held new⟩
  | @later frame call d after rest frames now called _ ih =>
      obtain ⟨new, changed⟩ := evalCall_within frame registry call held
      rw [called] at changed
      obtain rfl : after = d.replace frame.scope new := changed
      obtain ⟨⟨last, rfl⟩, active⟩ := ih (Document.holds_replace held)
      exact ⟨⟨last, Document.replace_replace _ _ _ _⟩, active⟩

def FindsScope (result : Except ConfigError α) : Prop :=
  ∀ e, result = .error e → ∀ keyword, e.cause ≠ .scopeNotMapping keyword

theorem FindsScope.ok (a : α) : FindsScope (.ok a) := by
  intro e same
  cases same

theorem FindsScope.map {result : Except ConfigError α} (finds : FindsScope result) (f : α → β) :
    FindsScope (result.map f) := by
  intro e failed
  cases result with
  | ok => cases failed
  | error => cases failed; exact finds _ rfl

theorem Frame.enter?_finds (frame : Frame) (registry : Registry) (call : Call) :
    FindsScope (frame.enter? registry call) := by
  intro e failed
  unfold enter? Entry.enter at failed
  dsimp only at failed
  split at failed
  · cases failed; exact nofun
  · split at failed
    · split at failed <;> cases failed
      exact nofun
    · split at failed <;> cases failed
      exact nofun

namespace Entry

theorem takeArgs_root_finds (e : Entry) (atRoot : e.scope = []) (args : List Value) (d : Document) :
    FindsScope (e.takeArgs args d).1 := by
  have failed (cause : Cause) (other : ∀ keyword, cause ≠ .scopeNotMapping keyword) :
      FindsScope ((e.fail cause : Evaluation Slot) d).1 := by
    intro error same
    cases same
    exact other
  rw [takeArgs_eq]
  cases Content.ofArgs e.declaration.kind args with
  | none => exact failed _ nofun
  | some content =>
      by_cases sound : (e.declaration.broken e.name content).isEmpty
      · simp only [if_pos sound, e.store_root atRoot]
        cases content.write e.name e.declaration.cumulative d.root with
        | mk result root =>
            cases result with
            | ok => exact .ok _
            | error => exact failed (.occupied _ _ _) nofun
      · simp only [if_neg sound]
        exact failed _ nofun

theorem takeArgs_finds (e : Entry) (args : List Value) (held : d.Holds e.scope entries) :
    FindsScope (e.takeArgs args d).1 := by
  have moved := takeArgs_relocates e.scope { e with scope := [] } args d entries held
  rw [below_root] at moved
  rw [moved]
  exact (takeArgs_root_finds _ rfl args ⟨entries⟩).map _

theorem blockScope_finds (e : Entry) (current : Slot) (d : Document) :
    FindsScope (e.blockScope current d).1 := by
  rw [blockScope_apply]
  intro error failed
  split at failed
  · split at failed <;> cases failed
    exact nofun
  · cases failed

end Entry

theorem FindsScope.bind {x : Evaluation α} {f : α → Evaluation β} (first : FindsScope (x d).1)
    (rest : ∀ a after, x d = (.ok a, after) → FindsScope (f a after).1) : FindsScope ((x >>= f) d).1 := by
  rw [Evaluation.bind_apply]
  cases made : x d with
  | mk result after =>
      rw [made] at first
      cases result with
      | ok a => exact rest a after made
      | error e => exact fun error failed => by cases failed; exact first _ rfl

-- The calls of a block find the scope of every frame that has one.
def Block.Finds (registry : Registry) (block : Block) : Prop :=
  ∀ (frame : Frame) (d : Document) (entries : Mapping), d.Holds frame.scope entries →
    FindsScope (evalCalls registry frame block.body d).1

theorem Entry.evaluate_finds (e : Entry) (registry : Registry) (args : List Value) (block : Option Block)
    (inner : ∀ b, block = some b → b.Finds registry) (held : d.Holds e.scope entries) :
    FindsScope (e.evaluate args (block.map (Block.inside registry)) d).1 := by
  rw [evaluate_eq]
  split
  · intro error failed
    cases failed
    exact nofun
  · refine (e.takeArgs_finds args held).bind ?_
    intro current after taken
    obtain ⟨⟨middle, changed⟩, lies⟩ := e.takeArgs_within args held
    rw [taken] at changed lies
    obtain rfl : after = d.replace e.scope middle := changed
    obtain ⟨below, rfl⟩ := lies current rfl
    have stands : (d.replace e.scope middle).Holds e.scope middle := Document.holds_replace held
    cases block with
    | none => exact .ok _
    | some block =>
        refine (e.blockScope_finds (e.scope ++ below) _).bind ?_
        intro scope last opened
        obtain ⟨rfl, ⟨entries, holds⟩, _⟩ := e.blockScope_within ⟨middle, stands⟩ opened
        exact inner block rfl (e.frame scope block.param) _ entries holds

theorem evalCall_finds_of (registry : Registry) (frame : Frame) (call : Call) (held : d.Holds frame.scope entries)
    (inner : ∀ b, call.block? = some b → b.Finds registry) : FindsScope (evalCall registry frame call d).1 := by
  have entered := frame.enter?_finds registry call
  rw [evalCall_perform, Frame.perform_eq]
  cases found : frame.enter? registry call with
  | error e =>
      rw [found] at entered
      exact fun error failed => by cases failed; exact entered _ rfl
  | ok entry =>
      cases entry with
      | none => exact .ok _
      | some entry =>
          obtain ⟨_, placed⟩ := Frame.enter?_some found
          exact entry.evaluate_finds registry call.args call.block? inner (placed ▸ held)

mutual

theorem evalCall_finds (registry : Registry) (frame : Frame) (call : Call) (d : Document)
    (held : d.Holds frame.scope entries) : FindsScope (evalCall registry frame call d).1 := by
  match call with
  | .bare head => exact evalCall_finds_of registry frame _ held nofun
  | .plain head args => exact evalCall_finds_of registry frame _ held nofun
  | .block head args param body =>
      refine evalCall_finds_of registry frame _ held ?_
      intro block same inner d entries held
      cases same
      exact evalCalls_finds registry inner body d held

theorem evalCalls_finds (registry : Registry) (frame : Frame) (calls : List Call) (d : Document)
    (held : d.Holds frame.scope entries) : FindsScope (evalCalls registry frame calls d).1 := by
  match calls with
  | [] => exact .ok _
  | call :: rest =>
      obtain ⟨new, changed⟩ := evalCall_within frame registry call held
      have first := evalCall_finds registry frame call d held
      rw [evalCalls_cons]
      cases called : evalCall registry frame call d with
      | mk result after =>
          rw [called] at changed first
          obtain rfl : after = d.replace frame.scope new := changed
          cases result with
          | error => exact first
          | ok => exact evalCalls_finds registry frame rest _ (Document.holds_replace held)

end

-- In a run of a script every frame that is active has a mapping at its scope, whatever has been
-- written since, so that a change at the scope finds it and adds no keys on the way. The error of a
-- scope that is no mapping is never given.
theorem scopes_stand (script : String) (registry : Registry) :
    (∀ calls frames now, Script.parse script = .ok calls → Reaches registry {} calls {} frames now →
      ∀ active ∈ frames, ∃ entries, now.Holds active.scope entries ∧
        ∀ (α : Type) (change : Mapping → α × Mapping), now.updateScope change active.scope =
          (some (change entries).1, now.replace active.scope (change entries).2)) ∧
    ∀ keyword line, interpret script registry ≠ .error ⟨.scopeNotMapping keyword, line⟩ := by
  have atRoot : ({} : Document).Holds ({} : Frame).scope [] := rfl
  constructor
  · intro calls frames now _ reaches active member
    obtain ⟨_, stands⟩ := reaches_holds reaches atRoot
    obtain ⟨entries, held⟩ := stands active member
    refine ⟨entries, held, ?_⟩
    intro α change
    have found : now.updateScope change (active.scope ++ []) = _ := Document.updateScope_append held
    rwa [List.append_nil] at found
  · intro keyword line failed
    unfold interpret at failed
    cases parsed : Script.parse script with
    | error e =>
        rw [parsed] at failed
        cases failed
        have ofScript := Script.parse_fails script _ parsed
        cases ofScript
    | ok calls =>
        have finds := evalCalls_finds registry {} calls {} atRoot
        simp only [parsed] at failed
        cases run : evalCalls registry {} calls {} with
        | mk result after =>
            rw [run] at failed finds
            cases result with
            | ok => cases failed
            | error e => cases failed; exact finds _ rfl keyword rfl

theorem scopes_stand_in_pair :
    let script := "job 'mail' do\n retries '3'\nend"
    let registry : Registry := ⟨[
      ("job", { kind := .scalarPlusMap, allowBlock := true, cumulative := true, nested := true }),
      ("retries", { kind := .scalar })]⟩
    let calls : List Call := [.block ⟨"job", none, 1⟩ [.str "mail"] none [.plain ⟨"retries", none, 2⟩ [.str "3"]]]
    let inner : Frame := ⟨["job"], [.key "job", .index 0, .index 1], none⟩
    let now : Document := ⟨[("job", .list [.list [.str "mail", .map [("retries", .str "3")]]])]⟩
    Script.parse script = .ok calls ∧ Reaches registry {} calls {} [inner, {}] now ∧
      ∃ entries, now.Holds inner.scope entries := by
  intro script registry calls inner now
  have parsed : Script.parse script = .ok calls := by
    subst script calls
    cbv
  let entered : Document := ⟨[("job", .list [.list [.str "mail", .map []]])]⟩
  have written : Reaches registry inner [.plain ⟨"retries", none, 2⟩ [.str "3"]] entered [inner] now :=
    .written rfl rfl rfl
  have reached : Reaches registry {} calls {} ([inner] ++ [({} : Frame)]) now := .inside rfl rfl rfl rfl rfl written
  obtain ⟨entries, held, _⟩ := (scopes_stand script registry).1 calls _ now parsed reached inner List.mem_cons_self
  exact ⟨parsed, reached, entries, held⟩

end KeywordConfig
