import KeywordConfig.Script

namespace KeywordConfig

-- A cause that lies in the script alone, and not in what it is about.
def Cause.ofScript : Cause → Bool
  | .symbolWithoutName => true
  | .minusWithoutNumber => true
  | .unexpectedCharacter _ => true
  | .unterminatedString _ => true
  | .integerOutOfRange _ => true
  | .mismatch _ _ => true
  | .unexpectedAfter _ _ => true
  | .unexpectedEnd _ => true
  | .positionalAfterPairs => true
  | .nestingTooDeep => true
  | _ => false

namespace Token

theorem intToken_cause (failed : intToken negative digits = .error cause) : cause.ofScript := by
  unfold intToken at failed
  dsimp only at failed
  split at failed <;> split at failed <;> cases failed <;> rfl

theorem readNumber_cause (failed : readNumber negative cs = .error cause) : cause.ofScript := by
  unfold readNumber at failed
  dsimp only at failed
  split at failed
  · cases failed
  · cases whole : intToken negative (cs.takeWhile Char.isDigit) with
    | error =>
        simp only [whole, Except.map, Except.error.injEq] at failed
        exact failed ▸ intToken_cause whole
    | ok => simp [whole, Except.map] at failed

theorem read_cause (failed : read c cs = .error cause) : cause.ofScript := by
  unfold read at failed
  split at failed
  · cases failed
  split at failed
  · split at failed <;> cases failed
    rfl
  split at failed
  · split at failed
    · cases failed; rfl
    · split at failed <;> cases failed
      rfl
  split at failed
  · split at failed <;> cases failed
    rfl
  split at failed
  · split at failed
    · cases failed; rfl
    · split at failed
      · exact readNumber_cause failed
      · cases failed; rfl
  split at failed
  · exact readNumber_cause failed
  split at failed
  · cases failed
  · split at failed <;> cases failed
    rfl

theorem itemsFrom_cause (line : Nat) (cs : List Char) :
    ∀ e, .error e ∈ itemsFrom [] line cs → e.cause.ofScript := by
  intro e member
  rw [itemsFrom_unfold] at member
  cases blank : skipBlank cs with
  | nil => simp [blank] at member
  | cons c rest =>
      cases token : read c rest with
      | error cause =>
          simp only [blank, token, List.mem_singleton] at member
          cases member
          exact read_cause token
      | ok lexeme =>
          have shorter := rest_shorter blank token
          simp only [blank, token, List.mem_cons, reduceCtorEq, false_or] at member
          exact itemsFrom_cause _ _ e member
termination_by cs.length

end Token

namespace Script

def FailsAsScript (made : Except ConfigError α) : Prop := ∀ e, made = .error e → e.cause.ofScript

theorem ok_fails (a : α) : FailsAsScript (.ok a) := nofun

theorem fail_fails (ofScript : cause.ofScript) : FailsAsScript (fail cause line) := by
  intro e failed
  cases failed
  exact ofScript

theorem enter_fails : FailsAsScript (enter limit depth line place) := by
  unfold enter
  split
  · exact fail_fails rfl
  · exact ok_fails _

theorem atStatement_fails (body : Body) (t : Located) : FailsAsScript (atStatement body t) := by
  unfold atStatement
  split
  · exact ok_fails _
  · split
    · exact ok_fails _
    · exact ok_fails _
    · exact fail_fails rfl
    · split
      · exact fail_fails rfl
      · exact ok_fails _
    · exact fail_fails rfl

theorem atSeparator_fails (body : Body) (keyword : String) (t : Located) :
    FailsAsScript (atSeparator body keyword t) := by
  unfold atSeparator
  split
  · exact ok_fails _
  · split
    · exact ok_fails _
    · exact ok_fails _
    · exact fail_fails rfl

theorem atBlock_fails : FailsAsScript (atBlock limit body head args call t) := by
  unfold atBlock
  split
  · exact enter_fails
  · exact atSeparator_fails _ _ _

theorem atValue_fails : FailsAsScript (atValue limit hole t) := by
  unfold atValue
  split
  · exact ok_fails _
  · split
    · exact enter_fails
    · exact enter_fails
    · exact fail_fails rfl

theorem atArgument_fails : FailsAsScript (atArgument limit a t) := by
  unfold atArgument
  split
  · exact ok_fails _
  · exact ok_fails _
  · exact atValue_fails

theorem atAfterArgument_fails : FailsAsScript (atAfterArgument limit a t) := by
  unfold atAfterArgument
  split
  · exact ok_fails _
  · split
    · split
      · exact ok_fails _
      · exact ok_fails _
      · exact fail_fails rfl
    · exact atBlock_fails

theorem atKeyword_fails : FailsAsScript (atKeyword limit body head t) := by
  unfold atKeyword
  split
  · exact ok_fails _
  · split
    · exact atArgument_fails
    · exact atBlock_fails

theorem step_fails (limit : Option Nat) (place : Place) (t : Located) : FailsAsScript (step limit place t) := by
  cases place with
  | statement => exact atStatement_fails _ _
  | separator => exact atSeparator_fails _ _ _
  | keyword => exact atKeyword_fails
  | arguments => exact atBlock_fails
  | argument => exact atArgument_fails
  | afterArgument => exact atAfterArgument_fails
  | value => exact atValue_fails
  | name =>
      simp only [step]
      split
      · exact ok_fails _
      · exact atKeyword_fails
  | blockStart =>
      simp only [step]
      split
      · exact ok_fails _
      · exact atStatement_fails _ _
  | firstArgument =>
      simp only [step]
      split
      · exact ok_fails _
      · exact ok_fails _
      · exact atArgument_fails
  | positional =>
      simp only [step]
      split
      · exact ok_fails _
      · split
        · exact atAfterArgument_fails
        · exact fail_fails rfl
  | item | key | entry =>
      simp only [step]
      split <;> first | exact ok_fails _ | exact atValue_fails
  | dot | blockParam | blockPipe | afterItem | afterKey | afterEntry =>
      simp only [step]
      split <;> first | exact ok_fails _ | exact fail_fails rfl

theorem run_fails (limit : Option Nat) (place : Place) (line : Nat) (items : List Token.Item)
    (causes : ∀ e, .error e ∈ items → e.cause.ofScript) : FailsAsScript (run limit place line items) := by
  induction items generalizing place line with
  | nil =>
      intro e failed
      unfold run finish at failed
      split at failed
      · rename_i made
        cases failed
        exact step_fails _ _ _ e made
      · cases failed
      · rename_i made
        have ends := step_ends limit place line
        rw [made] at ends
        cases ends
  | cons item rest ih =>
      have others : ∀ e, .error e ∈ rest → e.cause.ofScript := fun e member => causes e (List.mem_cons_of_mem _ member)
      cases item with
      | error e =>
          intro e failed
          cases failed
          exact causes e List.mem_cons_self
      | ok t =>
          intro e failed
          unfold run at failed
          split at failed
          · rename_i made
            cases failed
            exact step_fails _ _ _ e made
          · cases failed
          · exact ih _ _ others e failed

theorem parse_fails (text : String) : FailsAsScript (parse text) :=
  run_fails _ _ _ _ (Token.itemsFrom_cause _ _)

end Script

end KeywordConfig
