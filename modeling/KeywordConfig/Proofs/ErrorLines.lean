import KeywordConfig.Proofs.Concatenation
import KeywordConfig.Proofs.ReadingLines
import KeywordConfig.Proofs.Visits

namespace KeywordConfig
open Token
open scoped List

def Blames (lines : List Nat) (result : Except ConfigError α) : Prop :=
  ∀ e, result = .error e → ∃ n ∈ lines, e.line = some n

namespace Blames

theorem ok (a : α) : Blames lines (.ok a) := nofun

theorem mono {result : Except ConfigError α} (blames : Blames less result) (wider : less ⊆ more) : Blames more result := by
  intro e failed
  obtain ⟨n, member, same⟩ := blames e failed
  exact ⟨n, wider member, same⟩

theorem bind {x : Evaluation α} {f : α → Evaluation β} (first : Blames lines (x d).1)
    (rest : ∀ a after, Blames lines (f a after).1) : Blames lines ((x >>= f) d).1 := by
  rw [Evaluation.bind_apply]
  cases made : x d with
  | mk result after =>
      rw [made] at first
      cases result with
      | ok a => exact rest a after
      | error e =>
          intro error failed
          cases failed
          exact first e rfl

end Blames

namespace Entry

variable {lines : List Nat} {line : Nat} (e : Entry) (own : e.line = some line) (listed : line ∈ lines)

include own listed

theorem fail_blames (cause : Cause) (d : Document) : Blames lines ((e.fail cause : Evaluation α) d).1 := by
  intro error failed
  cases failed
  exact ⟨line, listed, own⟩

theorem store_blames (content : Content) (d : Document) : Blames lines (e.store content d).1 := by
  by_cases nothing : content = .nothing
  · subst nothing
    exact .ok _
  · rw [e.store_eq nothing]
    apply Blames.bind
    · rw [inScope_apply]
      cases d.updateScope (content.write e.name e.declaration.cumulative) e.scope with
      | mk result after =>
          cases result with
          | some a => exact .ok _
          | none => exact e.fail_blames own listed (.scopeNotMapping e.name) after
    · intro result after
      cases result with
      | ok slot => exact .ok _
      | error obstacle => exact e.fail_blames own listed _ after

theorem blockScope_blames (current : Slot) (d : Document) : Blames lines (e.blockScope current d).1 := by
  rw [blockScope_apply]
  split
  · split
    · exact .ok _
    · exact e.fail_blames own listed (.cannotNest e.name _) d
  · exact .ok _

theorem evalBlock_blames (block : Option Inside)
    (inner : ∀ inside, block = some inside → ∀ frame d, Blames lines (inside.evaluate frame d).1)
    (current : Slot) (d : Document) : Blames lines (e.evalBlock block current d).1 := by
  cases block with
  | none => exact .ok _
  | some inside => exact (e.blockScope_blames own listed current d).bind fun scope after => inner inside rfl _ after

end Entry

theorem Call.line_mem (call : Call) : call.head.line ∈ call.lines := by
  cases call <;> exact List.mem_cons_self

-- A check that fails is that of the call, and so is a write; the calls of a block fail on their own lines.
theorem evalCall_blames_of (registry : Registry) (frame : Frame) (call : Call) (d : Document)
    (inner : ∀ block, call.block? = some block → ∀ frame d, Blames call.lines (evalCalls registry frame block.body d).1) :
    Blames call.lines (evalCall registry frame call d).1 := by
  have same : (call.block?.map (Block.inside registry)).isSome = call.block?.isSome := by simp
  rw [evalCall_perform, frame.perform_checked registry call _ same]
  cases fault : (frame.visit call).fault? registry with
  | some e =>
      intro error failed
      cases failed
      unfold Visit.fault? at fault
      split at fault
      · cases fault
      · obtain ⟨cause, _, rfl⟩ := Option.map_eq_some_iff.mp fault
        exact ⟨_, call.line_mem, rfl⟩
  | none =>
      dsimp only
      unfold Frame.carryOut
      split
      · exact .ok _
      · split
        · exact .ok _
        · apply Blames.bind
          · exact Entry.store_blames _ rfl call.line_mem _ d
          · apply Entry.evalBlock_blames _ rfl call.line_mem
            intro inside opened
            obtain ⟨block, found, rfl⟩ := Option.map_eq_some_iff.mp opened
            exact inner block found

mutual

theorem evalCall_blames (registry : Registry) (frame : Frame) (call : Call) (d : Document) :
    Blames call.lines (evalCall registry frame call d).1 := by
  match call with
  | .bare head => exact evalCall_blames_of registry frame _ d nofun
  | .plain head args => exact evalCall_blames_of registry frame _ d nofun
  | .block head args param body =>
      apply evalCall_blames_of
      intro block same inner d
      cases same
      exact (evalCalls_blames registry inner body d).mono (List.subset_cons_self _ _)

theorem evalCalls_blames (registry : Registry) (frame : Frame) (calls : List Call) (d : Document) :
    Blames (Call.linesOf calls) (evalCalls registry frame calls d).1 := by
  match calls with
  | [] => exact .ok _
  | call :: rest =>
      unfold evalCalls
      apply Blames.bind
      · exact (evalCall_blames registry frame call d).mono (List.subset_append_left _ _)
      · exact fun _ after => (evalCalls_blames registry frame rest after).mono (List.subset_append_right _ _)

end

theorem interpret_failed (failed : interpret script registry = .error e) : Script.parse script = .error e ∨
    ∃ calls, Script.parse script = .ok calls ∧ (evalCalls registry {} calls {}).1 = .error e := by
  unfold interpret at failed
  cases parsed : Script.parse script with
  | error other =>
      rw [parsed] at failed
      cases failed
      exact .inl rfl
  | ok calls =>
      simp only [parsed] at failed
      cases ran : evalCalls registry {} calls {} with
      | mk result document =>
          rw [ran] at failed
          cases result with
          | ok => cases failed
          | error other =>
              cases failed
              exact .inr ⟨calls, rfl, by rw [ran]⟩

theorem le_last {lines : List Nat} (rising : lines.Pairwise (· ≤ ·)) (ends : lines.getLast? = some last) :
    ∀ n ∈ lines, n ≤ last := by
  obtain ⟨front, rfl⟩ := List.getLast?_eq_some_iff.mp ends
  obtain ⟨_, _, before⟩ := List.pairwise_append.mp rising
  intro n member
  rcases List.mem_append.mp member with earlier | here
  · exact before n earlier last List.mem_cons_self
  · exact Nat.le_of_eq (List.mem_singleton.mp here)

-- An error of a script is on a line of its text: one of a call, or where there are no calls, one of a token
-- or of the characters that are no token. The calls of a script stand on the lines of its tokens in order.
theorem errors_located (script : String) (registry : Registry) :
    (∀ e, interpret script registry = .error e → ∃ n, e.line = some n ∧
      1 ≤ n ∧ n ≤ 1 + script.toList.count '\n' ∧
      (∀ calls, Script.parse script = .ok calls → n ∈ Call.linesOf calls) ∧
      (∀ other, Script.parse script = .error other →
        (∃ t, .ok t ∈ items script ∧ t.line = n) ∨ .error e ∈ items script)) ∧
    ∀ calls, Script.parse script = .ok calls →
      ∃ last, (items script).getLast? = some (.ok ⟨.endOfScript, last⟩) ∧
        (Call.linesOf calls).Pairwise (· ≤ ·) ∧ ∀ n ∈ Call.linesOf calls, 1 ≤ n ∧ n ≤ last := by
  obtain ⟨lines, stamped, rising, within⟩ := itemsFrom_rise 1 script.toList
  obtain ⟨above, rising⟩ := List.pairwise_cons.mp rising
  have tokens := tokenLines_sublist stamped
  have kept := Script.parse_keeps script
  have bounds (n : Nat) (member : n ∈ lines) : 1 ≤ n ∧ n ≤ 1 + script.toList.count '\n' :=
    ⟨above n member, within n member⟩
  constructor
  · intro e failed
    rcases interpret_failed failed with unread | ⟨calls, parsed, ran⟩
    · rw [unread] at kept ⊢
      rcases kept with listed | ⟨n, member, same⟩
      · have line : e.line ∈ lines.map some := stamped ▸ List.mem_map_of_mem listed
        obtain ⟨n, member, same⟩ := List.mem_map.mp line
        obtain ⟨low, high⟩ := bounds n member
        exact ⟨n, same.symm, low, high, nofun, fun _ _ => .inr listed⟩
      · obtain ⟨low, high⟩ := bounds n (tokens.subset member)
        obtain ⟨t, read, rfl⟩ := List.mem_map.mp member
        obtain ⟨item, listed, some⟩ := List.mem_filterMap.mp read
        cases item with
        | error => cases some
        | ok t => cases some; exact ⟨t.line, same, low, high, nofun, fun _ _ => .inl ⟨t, listed, rfl⟩⟩
    · rw [parsed] at kept ⊢
      obtain ⟨n, member, same⟩ := evalCalls_blames registry {} calls {} e ran
      obtain ⟨low, high⟩ := bounds n (tokens.subset (kept.subset member))
      refine ⟨n, same, low, high, ?_, nofun⟩
      intro other again
      cases again
      exact member
  · intro calls parsed
    obtain ⟨last, ends, _⟩ := Script.parse_concat parsed
    rw [parsed] at kept
    have placed : Call.linesOf calls <+ lines := kept.trans tokens
    have final : lines.getLast? = some last := by
      have mapped := congrArg List.getLast? stamped
      have read : (itemsFrom [] 1 script.toList).getLast? = _ := ends
      simpa [List.getLast?_map, read, Item.line?, eq_comm] using mapped
    refine ⟨last, ends, rising.sublist placed, ?_⟩
    intro n member
    exact ⟨above n (placed.subset member), le_last rising final n (placed.subset member)⟩

-- One text is no script, and its error is behind a line end in quotes. The other one fails in its second
-- call inside a block.
theorem errors_located_in_block :
    let registry : Registry := ⟨[("web", { kind := .map, allowBlock := true }), ("ssl", { kind := .scalar })]⟩
    let broken := "web 'a\nb'\n)"
    let script := "web(a: 1) do\n ssl 1\n\n ssl 1, 2\nend"
    let calls : List Call := [.block ⟨"web", none, 1⟩ [.map [("a", .int 1)]] none
      [.plain ⟨"ssl", none, 2⟩ [.int 1], .plain ⟨"ssl", none, 4⟩ [.int 1, .int 2]]]
    let unread : ConfigError := ⟨.mismatch .keyword .rightParen, some 3⟩
    interpret broken registry = .error unread ∧ 3 ≤ 1 + broken.toList.count '\n' ∧
      ((∃ t, .ok t ∈ items broken ∧ t.line = 3) ∨ .error unread ∈ items broken) ∧
      interpret script registry = .error ⟨.wrongArguments "ssl" .scalar, some 4⟩ ∧
      Script.parse script = .ok calls ∧ 4 ∈ Call.linesOf calls ∧
      ∃ last, (items script).getLast? = some (.ok ⟨.endOfScript, last⟩) ∧
        (Call.linesOf calls).Pairwise (· ≤ ·) ∧ ∀ n ∈ Call.linesOf calls, 1 ≤ n ∧ n ≤ last := by
  intro registry broken script calls unread
  have refused : Script.parse broken = .error unread := by
    subst broken unread
    cbv
  have parsed : Script.parse script = .ok calls := by
    subst script calls
    cbv
  have first : interpret broken registry = .error unread := by
    subst broken unread registry
    cbv
  have second : interpret script registry = .error ⟨.wrongArguments "ssl" .scalar, some 4⟩ := by
    subst script registry
    cbv
  obtain ⟨n, same, _, bound, _, found⟩ := (errors_located broken registry).1 unread first
  obtain ⟨m, same', _, _, listed, _⟩ := (errors_located script registry).1 _ second
  cases same
  cases same'
  exact ⟨first, bound, found unread refused, second, parsed, listed calls parsed,
    (errors_located script registry).2 calls parsed⟩

end KeywordConfig
