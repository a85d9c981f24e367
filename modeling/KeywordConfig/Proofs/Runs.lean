import KeywordConfig.Proofs.Confinement
import KeywordConfig.Proofs.ActiveScopes
import KeywordConfig.Proofs.Visits

namespace KeywordConfig

-- The calls of a block write into the value of its call. A base keyword has none.
def Declaration.moves (d : Declaration) : Bool := d.nested && d.kind ≠ .base

-- A call that has passed its checks writes its arguments.
structure Visit.Writes (registry : Registry) (v : Visit) (d : Declaration) (content : Content) (slot : Slot)
    (before after : Mapping) : Prop where
  known : registry.resolve v.keyword = some d
  sound : v.fault? registry = none
  shaped : Content.ofArgs d.kind v.call.args = some content
  written : content.write v.keyword d.cumulative before = (.ok slot, after)

-- The parents and the receiver are those of the calls' frame.
inductive Runs (registry : Registry) :
    List String → Option String → List Call → Mapping → Mapping → Prop where
  | done : Runs registry parents receiver [] root root
  | inert : Visit.inert registry ⟨call, parents, receiver⟩ = true →
      Runs registry parents receiver rest before after →
      Runs registry parents receiver (call :: rest) before after
  | alone : Visit.Writes registry ⟨call, parents, receiver⟩ d content slot before written →
      call.block? = none →
      Runs registry parents receiver rest written after →
      Runs registry parents receiver (call :: rest) before after
  | beside : Visit.Writes registry ⟨call, parents, receiver⟩ d content slot before written →
      call.block? = some block → d.moves = false →
      Runs registry (parents ++ [call.keyword]) block.param block.body written left →
      Runs registry parents receiver rest left after →
      Runs registry parents receiver (call :: rest) before after
  | inside : Visit.Writes registry ⟨call, parents, receiver⟩ d content slot before written →
      call.block? = some block → d.moves = true → Document.Holds ⟨written⟩ slot entries →
      Runs registry (parents ++ [call.keyword]) block.param block.body entries filled →
      Runs registry parents receiver rest (Document.replace slot filled ⟨written⟩).root after →
      Runs registry parents receiver (call :: rest) before after

namespace Content

theorem ofArgs_nothing (shaped : ofArgs declared args = some content) : content = .nothing ↔ declared = .base := by
  rw [← ofArgs_kind shaped]
  cases content with
  | nothing => exact ⟨fun _ => rfl, fun _ => rfl⟩
  | _ => exact ⟨nofun, nofun⟩

theorem write_root (written : (write name cumulative content before).1 = .ok slot) :
    slot = [] ↔ content = .nothing := by
  by_cases nothing : content = .nothing
  · subst nothing
    cases written
    exact ⟨fun _ => rfl, fun _ => rfl⟩
  · obtain ⟨rest, rfl⟩ := write_key nothing written
    exact ⟨nofun, fun same => absurd same nothing⟩

end Content

-- What a block makes of the mapping that its call has written. `run` is what its calls do to the
-- mapping they write into.
inductive Fills (d : Declaration) (slot : Slot) (run : Mapping → Mapping → Prop) (written : Mapping) :
    Mapping → Prop where
  | beside : d.moves = false → run written left → Fills d slot run written left
  | inside : d.moves = true → Document.Holds ⟨written⟩ slot entries → run entries filled →
      Fills d slot run written (Document.replace slot filled ⟨written⟩).root

-- The calls of a block, as what they do to a mapping they all write into.
def Entry.Inside.Takes (inside : Inside) (parents : List String) (before after : Mapping) : Prop :=
  inside.evaluate { parents, scope := [], receiver := inside.param } ⟨before⟩ = (.ok (), ⟨after⟩)

theorem Entry.Inside.evaluate_below {inside : Inside} (movable : inside.Movable slot) (parents : List String)
    (held : Document.Holds ⟨written⟩ slot entries) :
    inside.evaluate { parents, scope := slot, receiver := inside.param } ⟨written⟩ = (.ok (), ⟨after⟩) ↔
      ∃ filled, inside.Takes parents entries filled ∧
        after = (Document.replace slot filled ⟨written⟩).root := by
  have moved := movable { parents, scope := [], receiver := inside.param } ⟨written⟩ entries held
  simp only [Frame.below, List.append_nil] at moved
  rw [moved]
  unfold Takes
  cases inside.evaluate { parents, scope := [], receiver := inside.param } ⟨entries⟩ with
  | mk result left =>
      cases result with
      | error e =>
          constructor
          · intro same
            cases same
          · intro ran
            obtain ⟨_, same, _⟩ := ran
            cases same
      | ok =>
          constructor
          · intro same
            cases same
            exact ⟨left.root, rfl, rfl⟩
          · intro ran
            obtain ⟨filled, same, rfl⟩ := ran
            cases same
            rfl

namespace Entry

theorem blockScope_stays (e : Entry) (atRoot : e.scope = []) (base : slot = [] ↔ e.declaration.kind = .base)
    (stays : e.declaration.moves = false) (d : Document) : e.blockScope slot d = (.ok [], d) := by
  rw [blockScope_apply, atRoot]
  cases nested : e.declaration.nested with
  | false => rfl
  | true =>
      have root : slot = [] := base.mpr (by simpa [Declaration.moves, nested] using stays)
      subst root
      rfl

theorem blockScope_moves (e : Entry) {place : Slot} (base : slot = [] ↔ e.declaration.kind = .base)
    (moves : e.declaration.moves = true) :
    e.blockScope slot d = (.ok place, after) ↔
      after = d ∧ place = slot ∧ ∃ entries, d.Holds slot entries := by
  obtain ⟨nested, other⟩ : e.declaration.nested = true ∧ e.declaration.kind ≠ .base := by
    simpa [Declaration.moves] using moves
  have below : slot ≠ [] := fun root => other (base.mp root)
  have nonempty : slot.isEmpty = false := by simpa using below
  rw [blockScope_apply, ← Document.any_isMap d below]
  simp only [nested, if_true, nonempty, Bool.false_or]
  split
  · rename_i isMap
    constructor
    · intro same
      cases same
      exact ⟨rfl, rfl, isMap⟩
    · intro held
      obtain ⟨rfl, rfl, _⟩ := held
      rfl
  · rename_i isNone
    exact ⟨nofun, fun parts => absurd parts.2.2 isNone⟩

theorem evalInside_exact (e : Entry) (atRoot : e.scope = []) {inside : Inside}
    (movable : inside.Movable slot) (base : slot = [] ↔ e.declaration.kind = .base) :
    e.evalInside inside slot ⟨written⟩ = (.ok (), ⟨after⟩) ↔
      Fills e.declaration slot (inside.Takes (e.parents ++ [e.name])) written after := by
  unfold evalInside
  cases moves : e.declaration.moves with
  | false =>
      rw [Evaluation.bind_apply, e.blockScope_stays atRoot base moves]
      constructor
      · intro taken
        exact .beside moves taken
      · intro fills
        cases fills with
        | beside _ taken => exact taken
        | inside goes => cases moves.symm.trans goes
  | true =>
      rw [Evaluation.bind_ok]
      constructor
      · intro ran
        obtain ⟨place, middle, opened, ran⟩ := ran
        obtain ⟨rfl, rfl, entries, held⟩ := (e.blockScope_moves base moves).mp opened
        obtain ⟨filled, taken, rfl⟩ := (Inside.evaluate_below movable _ held).mp ran
        exact .inside moves held taken
      · intro fills
        cases fills with
        | beside stays => cases moves.symm.trans stays
        | inside _ held taken =>
            exact ⟨slot, _, (e.blockScope_moves base moves).mpr ⟨rfl, rfl, _, held⟩,
              (Inside.evaluate_below movable _ held).mpr ⟨_, taken, rfl⟩⟩

theorem store_exact (e : Entry) (atRoot : e.scope = []) (content : Content) {slot : Slot} :
    e.store content ⟨before⟩ = (.ok slot, ⟨written⟩) ↔
      content.write e.name e.declaration.cumulative before = (.ok slot, written) := by
  rw [e.store_root atRoot]
  cases content.write e.name e.declaration.cumulative before with
  | mk result root =>
      cases result with
      | error obstacle => exact ⟨nofun, nofun⟩
      | ok reached =>
          constructor
          · intro same
            cases same
            rfl
          · intro same
            cases same
            rfl

end Entry

-- What becomes of the mapping that a call has written.
def Visit.Leaves (registry : Registry) (v : Visit) (d : Declaration) (slot : Slot) (written after : Mapping) : Prop :=
  match v.call.block? with
  | none => after = written
  | some block =>
      Fills d slot ((block.inside registry).Takes (v.parents ++ [v.keyword])) written after

theorem Block.inside_movable (registry : Registry) (block : Block) (slot : Slot) :
    (block.inside registry).Movable slot :=
  fun frame => evalCalls_relocates registry slot frame block.body

section

variable {registry : Registry} {parents : List String} {receiver : Option String} {call : Call}

theorem Visit.leaves_alone (none : call.block? = none) :
    Visit.Leaves registry ⟨call, parents, receiver⟩ d slot written after ↔ after = written := by
  unfold Leaves
  rw [none]

theorem Visit.leaves_block (same : call.block? = some block) :
    Visit.Leaves registry ⟨call, parents, receiver⟩ d slot written after ↔
      Fills d slot ((block.inside registry).Takes (parents ++ [call.keyword])) written after := by
  unfold Leaves
  rw [same]
  rfl

theorem Visit.known_not_inert {v : Visit} (known : registry.resolve v.keyword = some d) : ¬ v.inert registry = true := by
  intro inert
  cases known.symm.trans (inert_free inert).2.2

theorem Frame.carryOut_exact (known : registry.resolve call.keyword = some d)
    (shaped : Content.ofArgs d.kind call.args = some content) :
    Frame.carryOut { parents, scope := [], receiver } registry call (call.block?.map (Block.inside registry))
        ⟨before⟩ = (.ok (), ⟨after⟩) ↔
      ∃ slot written, content.write call.keyword d.cumulative before = (.ok slot, written) ∧
        Visit.Leaves registry ⟨call, parents, receiver⟩ d slot written after := by
  let entry := Frame.entry { parents, scope := [], receiver } call d
  have block (slot : Slot) (written : Mapping) (write : content.write call.keyword d.cumulative before = (.ok slot, written)) :
      entry.evalBlock (call.block?.map (Block.inside registry)) slot ⟨written⟩ = (.ok (), ⟨after⟩) ↔
        Visit.Leaves registry ⟨call, parents, receiver⟩ d slot written after := by
    have base : slot = [] ↔ d.kind = .base :=
      (Content.write_root (congrArg Prod.fst write)).trans (Content.ofArgs_nothing shaped)
    cases same : call.block? with
    | none =>
        rw [Visit.leaves_alone same]
        exact ⟨fun ran => by cases ran; rfl, fun ran => by cases ran; rfl⟩
    | some block =>
        rw [Visit.leaves_block same]
        exact entry.evalInside_exact rfl (block.inside_movable registry slot) base
  unfold carryOut
  simp only [known, shaped]
  rw [Evaluation.bind_ok]
  constructor
  · intro ran
    obtain ⟨slot, ⟨written⟩, stored, ran⟩ := ran
    have write := (entry.store_exact rfl content).mp stored
    exact ⟨slot, written, write, (block slot written write).mp ran⟩
  · intro ran
    obtain ⟨slot, written, write, leaves⟩ := ran
    exact ⟨slot, ⟨written⟩, (entry.store_exact rfl content).mpr write, (block slot written write).mpr leaves⟩

-- A call at the root succeeds when it is inert, or when it writes its arguments and its block succeeds.
theorem evalCall_exact :
    evalCall registry { parents, scope := [], receiver } call ⟨before⟩ = (.ok (), ⟨after⟩) ↔
      (Visit.inert registry ⟨call, parents, receiver⟩ = true ∧ after = before) ∨
        ∃ d content slot written, Visit.Writes registry ⟨call, parents, receiver⟩ d content slot before written ∧
          Visit.Leaves registry ⟨call, parents, receiver⟩ d slot written after := by
  have same : (call.block?.map (Block.inside registry)).isSome = call.block?.isSome := by simp
  have visit : Frame.visit { parents, scope := [], receiver } call = ⟨call, parents, receiver⟩ := rfl
  rw [evalCall_perform, Frame.perform_checked _ registry call _ same, visit]
  cases sound : Visit.fault? registry ⟨call, parents, receiver⟩ with
  | some e =>
      refine ⟨nofun, ?_⟩
      intro ran
      rcases ran with ⟨inert, _⟩ | ⟨d, content, slot, written, writes, _⟩
      · cases sound.symm.trans (Visit.fault?_eq_none.mpr (.inl inert))
      · cases sound.symm.trans writes.sound
  | none =>
      dsimp only
      cases known : registry.resolve call.keyword with
      | none =>
          have inert := Visit.inert_of_unknown sound known
          unfold Frame.carryOut
          rw [known]
          constructor
          · intro same
            cases same
            exact .inl ⟨inert, rfl⟩
          · intro ran
            rcases ran with ⟨_, rfl⟩ | ⟨d, content, slot, written, writes, _⟩
            · rfl
            · cases known.symm.trans writes.known
      | some d =>
          obtain ⟨content, shaped⟩ := Visit.shaped_of_known sound known
          rw [Frame.carryOut_exact known shaped]
          constructor
          · intro ran
            obtain ⟨slot, written, write, leaves⟩ := ran
            exact .inr ⟨d, content, slot, written, ⟨known, sound, shaped, write⟩, leaves⟩
          · intro ran
            rcases ran with ⟨inert, _⟩ | ⟨d, content, slot, written, writes, leaves⟩
            · exact absurd inert (Visit.known_not_inert known)
            · cases known.symm.trans writes.known
              cases shaped.symm.trans writes.shaped
              exact ⟨slot, written, writes.written, leaves⟩

end

mutual

theorem evalBlock_runs (registry : Registry) (parents : List String) (call : Call) :
    ∀ block, call.block? = some block → ∀ before after, (block.inside registry).Takes parents before after →
      Runs registry parents block.param block.body before after := by
  match call with
  | .bare head | .plain head args => exact nofun
  | .block head args param body =>
      intro block same before after taken
      cases same
      exact evalCalls_runs registry parents param body before after taken

theorem evalCalls_runs (registry : Registry) (parents : List String) (receiver : Option String) (calls : List Call) :
    ∀ before after, evalCalls registry { parents, scope := [], receiver } calls ⟨before⟩ = (.ok (), ⟨after⟩) →
      Runs registry parents receiver calls before after := by
  intro before after ran
  match calls with
  | [] => cases ran; exact .done
  | call :: rest =>
      unfold evalCalls at ran
      obtain ⟨_, ⟨left⟩, first, others⟩ := Evaluation.bind_ok.mp ran
      have later := evalCalls_runs registry parents receiver rest left after others
      rcases evalCall_exact.mp first with ⟨inert, rfl⟩ | ⟨d, content, slot, written, writes, leaves⟩
      · exact .inert inert later
      · cases same : call.block? with
        | none =>
            obtain rfl := (Visit.leaves_alone same).mp leaves
            exact .alone writes same later
        | some block =>
            have runs := evalBlock_runs registry (parents ++ [call.keyword]) call block same
            cases (Visit.leaves_block same).mp leaves with
            | beside stays taken => exact .beside writes same stays (runs _ _ taken) later
            | inside moves held taken => exact .inside writes same moves held (runs _ _ taken) later

end

theorem evalCalls_exact :
    evalCalls registry { parents, scope := [], receiver } calls ⟨before⟩ = (.ok (), ⟨after⟩) ↔
      Runs registry parents receiver calls before after := by
  constructor
  · exact evalCalls_runs registry parents receiver calls before after
  · intro runs
    induction runs with
    | done => rfl
    | inert inert _ ih => exact Evaluation.bind_ok.mpr ⟨(), _, evalCall_exact.mpr (.inl ⟨inert, rfl⟩), ih⟩
    | alone writes same _ ih =>
        refine Evaluation.bind_ok.mpr ⟨(), _, evalCall_exact.mpr (.inr ⟨_, _, _, _, writes, ?_⟩), ih⟩
        exact (Visit.leaves_alone same).mpr rfl
    | beside writes same stays _ _ inner ih =>
        refine Evaluation.bind_ok.mpr ⟨(), _, evalCall_exact.mpr (.inr ⟨_, _, _, _, writes, ?_⟩), ih⟩
        exact (Visit.leaves_block same).mpr (.beside stays inner)
    | inside writes same moves held _ _ inner ih =>
        refine Evaluation.bind_ok.mpr ⟨(), _, evalCall_exact.mpr (.inr ⟨_, _, _, _, writes, ?_⟩), ih⟩
        exact (Visit.leaves_block same).mpr (.inside moves held inner)

theorem runs_confined (runs : Runs registry parents receiver calls before after) :
    Confined (Call.keywordsOf calls) before after := by
  have confined := evalCalls_root_confined registry { parents, receiver } rfl calls ⟨before⟩
  rwa [evalCalls_exact.mpr runs] at confined

theorem Visit.Writes.confined {v : Visit} (writes : v.Writes registry d content slot before after) :
    Confined [v.keyword] before after := by
  have confined := Confined.write v.keyword d.cumulative content before
  rwa [writes.written] at confined

-- A call whose block moves has a slot to move to.
theorem Visit.Writes.below {v : Visit} (writes : v.Writes registry d content slot before after)
    (moves : d.moves = true) : ∃ rest, slot = .key v.keyword :: rest := by
  refine Content.write_key ?_ (congrArg Prod.fst writes.written)
  intro nothing
  have base := (Content.ofArgs_nothing writes.shaped).mp nothing
  simp [Declaration.moves, base] at moves

theorem interpret_exact : interpret script registry = .ok document ↔
    ∃ calls, Script.parse script = .ok calls ∧ Runs registry [] none calls [] document.root := by
  have start (calls : List Call) : evalCalls registry {} calls {} = (.ok (), document) ↔
      Runs registry [] none calls [] document.root := evalCalls_exact
  unfold interpret
  cases Script.parse script with
  | error e =>
      constructor
      · intro interpreted
        cases interpreted
      · intro ran
        obtain ⟨_, same, _⟩ := ran
        cases same
  | ok calls =>
      simp only [Except.ok.injEq, exists_eq_left', ← start]
      cases evalCalls registry {} calls {} with
      | mk result after =>
          cases result with
          | error e => exact ⟨nofun, nofun⟩
          | ok => exact ⟨fun same => by cases same; rfl, fun same => by cases same; rfl⟩

end KeywordConfig
