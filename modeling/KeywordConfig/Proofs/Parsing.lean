import Mathlib
import KeywordConfig.Proofs.Completeness

namespace KeywordConfig
open Grammar

namespace Token

-- Items as a text has them: the last one ends the script or is an error, and no other is.
inductive Whole : List Item → Prop where
  | last : Whole [.ok ⟨.endOfScript, line⟩]
  | error : Whole [.error e]
  | more : t.token ≠ .endOfScript → Whole rest → Whole (.ok t :: rest)

theorem intToken_visible (equal : intToken negative digits = .ok token) : token ≠ .endOfScript := by
  intro same
  subst same
  unfold intToken at equal
  dsimp only at equal
  split at equal <;> split at equal <;> cases equal

theorem readNumber_visible (equal : readNumber negative cs = .ok lexeme) :
    lexeme.token ≠ .endOfScript := by
  unfold readNumber at equal
  dsimp only at equal
  split at equal
  · cases equal
    exact nofun
  · cases whole : intToken negative (cs.takeWhile Char.isDigit) with
    | error => simp [whole, Except.map] at equal
    | ok token =>
        simp only [whole, Except.map, Except.ok.injEq] at equal
        subst equal
        exact intToken_visible whole

theorem readWord_visible (c : Char) (cs : List Char) : (readWord c cs).token ≠ .endOfScript := by
  unfold readWord
  split
  split <;> exact nofun

theorem mark_visible (found : mark? c = some token) : token ≠ .endOfScript := by
  intro same
  subst same
  unfold mark? at found
  split at found <;> cases found

theorem read_visible (equal : read c cs = .ok lexeme) : lexeme.token ≠ .endOfScript := by
  unfold read at equal
  split at equal
  · cases equal; exact nofun
  split at equal
  · split at equal
    · cases equal; exact nofun
    · cases equal
  split at equal
  · split at equal
    · cases equal
    · split at equal
      · cases equal; exact nofun
      · cases equal
  split at equal
  · split at equal
    · cases equal; exact nofun
    · cases equal
  split at equal
  · split at equal
    · cases equal
    · split at equal
      · exact readNumber_visible equal
      · cases equal
  split at equal
  · exact readNumber_visible equal
  split at equal
  · cases equal; exact readWord_visible _ _
  · split at equal
    · rename_i found
      cases equal
      exact mark_visible found
    · cases equal

theorem itemsFrom_whole (line : Nat) (cs : List Char) : Whole (itemsFrom [] line cs) := by
  rw [itemsFrom_unfold]
  cases blank : skipBlank cs with
  | nil => exact .last
  | cons c rest =>
      cases token : read c rest with
      | error =>
          simp only [token]
          exact .error
      | ok lexeme =>
          have shorter := rest_shorter blank token
          simp only [token]
          exact .more (read_visible token) (itemsFrom_whole _ _)
termination_by cs.length

end Token

namespace Script

theorem close_finished (closed : closedBy body token) (finished : close body = .finished calls) :
    token = .endOfScript := by
  cases body with
  | script => exact closedBy_script.mp closed
  | block => cases finished

theorem enter_unfinished : enter limit depth line place ≠ .ok (.finished calls) := by
  unfold enter
  split <;> exact nofun

theorem atSeparator_finished (finished : atSeparator body keyword t = .ok (.finished calls)) :
    t.token = .endOfScript := by
  unfold atSeparator at finished
  split at finished
  · rename_i closed
    exact close_finished closed (Except.ok.inj finished)
  · split at finished <;> cases finished

theorem atStatement_finished (finished : atStatement body t = .ok (.finished calls)) :
    t.token = .endOfScript := by
  unfold atStatement at finished
  split at finished
  · rename_i closed
    exact close_finished closed (Except.ok.inj finished)
  · split at finished
    · cases finished
    · cases finished
    · cases finished
    · split at finished <;> cases finished
    · cases finished

theorem atBlock_finished (finished : atBlock limit body head args call t = .ok (.finished calls)) :
    t.token = .endOfScript := by
  unfold atBlock at finished
  split at finished
  · exact absurd finished enter_unfinished
  · exact atSeparator_finished finished

theorem atValue_unfinished : atValue limit hole t ≠ .ok (.finished calls) := by
  unfold atValue
  split
  · exact nofun
  · split
    · exact enter_unfinished
    · exact enter_unfinished
    · exact nofun

theorem atArgument_unfinished : atArgument limit a t ≠ .ok (.finished calls) := by
  unfold atArgument
  split
  · exact nofun
  · exact nofun
  · exact atValue_unfinished

theorem atAfterArgument_finished (finished : atAfterArgument limit a t = .ok (.finished calls)) :
    t.token = .endOfScript := by
  unfold atAfterArgument at finished
  split at finished
  · cases finished
  · split at finished
    · split at finished <;> cases finished
    · exact atBlock_finished finished

theorem atKeyword_finished (finished : atKeyword limit body head t = .ok (.finished calls)) :
    t.token = .endOfScript := by
  unfold atKeyword at finished
  split at finished
  · cases finished
  · split at finished
    · exact absurd finished atArgument_unfinished
    · exact atBlock_finished finished

theorem step_finished (finished : step limit place t = .ok (.finished calls)) :
    t.token = .endOfScript := by
  cases place with
  | statement => exact atStatement_finished finished
  | separator => exact atSeparator_finished finished
  | name =>
      simp only [step] at finished
      split at finished
      · cases finished
      · exact atKeyword_finished finished
  | keyword => exact atKeyword_finished finished
  | arguments => exact atBlock_finished finished
  | blockStart =>
      simp only [step] at finished
      split at finished
      · cases finished
      · exact atStatement_finished finished
  | firstArgument =>
      simp only [step] at finished
      split at finished
      · cases finished
      · cases finished
      · exact absurd finished atArgument_unfinished
  | argument => exact absurd finished atArgument_unfinished
  | positional =>
      simp only [step] at finished
      split at finished
      · cases finished
      · split at finished
        · exact atAfterArgument_finished finished
        · cases finished
  | afterArgument => exact atAfterArgument_finished finished
  | value => exact absurd finished atValue_unfinished
  | item | key | entry =>
      simp only [step] at finished
      split at finished <;> first | cases finished | exact absurd finished atValue_unfinished
  | _ =>
      simp only [step] at finished
      split at finished <;> cases finished

theorem mapped_cons {items : List Token.Item} {holds : List Located → Prop} :
    (∃ tokens, .ok t :: items = tokens.map .ok ∧ holds tokens) ↔
      ∃ tokens, items = tokens.map .ok ∧ holds (t :: tokens) := by
  constructor
  · intro found
    obtain ⟨tokens, same, held⟩ := found
    cases tokens with
    | nil => cases same
    | cons first rest => cases same; exact ⟨rest, rfl, held⟩
  · intro found
    obtain ⟨tokens, rfl, held⟩ := found
    exact ⟨t :: tokens, rfl, held⟩

theorem run_iff (whole : Token.Whole items) : run (some limit) place line items = .ok calls ↔
    ∃ tokens, items = tokens.map .ok ∧ Accepts limit place tokens calls := by
  induction whole generalizing place line with
  | error =>
      constructor
      · exact nofun
      · intro found
        obtain ⟨tokens, same, _⟩ := found
        cases tokens <;> cases same
  | last =>
      rename_i stop
      have ends := step_ends (some limit) place stop
      simp only [mapped_cons, accepts_cons, run]
      cases made : step (some limit) place ⟨.endOfScript, stop⟩ with
      | error => simp [Continues]
      | ok progress =>
          cases progress with
          | next => rw [made] at ends; cases ends
          | finished => simp [Continues]
  | more inner rest ih =>
      rename_i others t
      simp only [mapped_cons, accepts_cons, run]
      cases made : step (some limit) place t with
      | error => simp [Continues]
      | ok progress =>
          cases progress with
          | next => exact ih
          | finished => exact absurd (step_finished made) inner

theorem script_unique (first : IsScript room tokens a) (second : IsScript other tokens b) : a = b :=
  accepts_unique (script_complete first (Nat.le_max_left room other))
    (script_complete second (Nat.le_max_right room other))

end Script

-- A text is read when its items are all tokens that make up a script of the grammar with the room
-- there is, and the calls are those of the script, of which there is one at most.
theorem parse_iff_isScript (text : String) (calls : List Call) :
    (Script.parse text = .ok calls ↔
      ∃ tokens, Token.items text = tokens.map .ok ∧ IsScript Script.maxNesting tokens calls) ∧
    ∀ room other tokens a b, IsScript room tokens a → IsScript other tokens b → a = b := by
  refine ⟨?_, fun _ _ _ _ _ first second => Script.script_unique first second⟩
  have whole : Token.Whole (Token.items text) := Token.itemsFrom_whole _ _
  refine (Script.run_iff whole).trans ⟨?_, ?_⟩
  · intro accepted
    obtain ⟨tokens, same, accepts⟩ := accepted
    exact ⟨tokens, same, Script.script_sound accepts⟩
  · intro derived
    obtain ⟨tokens, same, form⟩ := derived
    exact ⟨tokens, same, Script.script_complete form (Nat.le_refl _)⟩

theorem parse_iff_isScript_of_block :
    let text := "web 'a', b: [1, \x7b\n k: nil, \x7d] do |w|\n  w.item(x => y)\nend"
    let calls : List Call := [
      .block ⟨"web", none, 1⟩ [.str "a", .map [("b", .list [.int 1, .map [("k", .null)]])]] (some "w")
        [.plain ⟨"item", some "w", 3⟩ [.map [("x", .str "y")]]]]
    Script.parse text = .ok calls ∧
      ∃ tokens, Token.items text = tokens.map .ok ∧ IsScript Script.maxNesting tokens calls := by
  intro text calls
  have parsed : Script.parse text = .ok calls := by
    subst text calls
    cbv
  exact ⟨parsed, (parse_iff_isScript text calls).1.mp parsed⟩

end KeywordConfig
