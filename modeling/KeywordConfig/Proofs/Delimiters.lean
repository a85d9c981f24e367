import Mathlib.Data.List.Induction
import KeywordConfig.Proofs.Reading

namespace KeywordConfig
open Grammar

inductive Delimiter where
  | paren | bracket | brace
  | block (closer : Closer)

def Body.opened : Body → List Delimiter
  | .script _ => []
  | .block closer _ _ around _ _ => .block closer :: around.opened

def Arguments.opened (a : Arguments) : List Delimiter :=
  if a.parens then .paren :: a.body.opened else a.body.opened

def Hole.opened : Hole → List Delimiter
  | .argument a _ => a.opened
  | .pair a _ => a.opened
  | .item _ around => .bracket :: around.opened
  | .key _ around => .brace :: around.opened
  | .entry _ _ around => .brace :: around.opened

def Opening.opened (o : Opening) : List Delimiter := .block o.closer :: o.around.opened

def Place.opened : Place → List Delimiter
  | .statement body => body.opened
  | .separator body _ => body.opened
  | .name body _ => body.opened
  | .dot body _ _ => body.opened
  | .keyword body _ => body.opened
  | .arguments body _ _ => body.opened
  | .blockStart o => o.opened
  | .blockParam o => o.opened
  | .blockPipe o _ => o.opened
  | .firstArgument a => a.opened
  | .argument a => a.opened
  | .positional a _ _ => a.opened
  | .afterArgument a => a.opened
  | .value hole => hole.opened
  | .item _ around => .bracket :: around.opened
  | .afterItem _ around => .bracket :: around.opened
  | .key _ around => .brace :: around.opened
  | .afterKey _ _ around => .brace :: around.opened
  | .entry _ _ around => .brace :: around.opened
  | .afterEntry _ around => .brace :: around.opened

def Token.isDelimiter : Token → Bool
  | .leftParen => true
  | .rightParen => true
  | .leftBracket => true
  | .rightBracket => true
  | .leftBrace => true
  | .rightBrace => true
  | _ => false

def Token.isKey : Token → Bool
  | .label _ => true
  | .arrow => true
  | _ => false

-- What a token makes of the open delimiters. Braces are those of a mapping or of a block, and `do`
-- and `end` may be names as well.
inductive Turns : Token → List Delimiter → List Delimiter → Prop where
  | leftParen : Turns .leftParen opened (.paren :: opened)
  | rightParen : Turns .rightParen (.paren :: opened) opened
  | leftBracket : Turns .leftBracket opened (.bracket :: opened)
  | rightBracket : Turns .rightBracket (.bracket :: opened) opened
  | leftBrace : Turns .leftBrace opened (.brace :: opened)
  | rightBrace : Turns .rightBrace (.brace :: opened) opened
  | opens : Opens token closer → Turns token opened (.block closer :: opened)
  | shuts : Shuts token closer → Turns token (.block closer :: opened) opened
  | other : token.isDelimiter = false → Turns token opened opened

namespace Script

-- What the token before a place says of the place: behind an opening parenthesis there are arguments
-- in parentheses, and behind a label or an arrow in parentheses, and nowhere else, a value has to come
-- next.
def Sound (token : Token) : Place → Prop
  | .firstArgument a => a.parens ∧ token.isKey = false
  | .value hole => token.isKey ∧ ∃ a key, hole = .pair a key
  | place => token.isKey = false ∨ place.opened.head? ≠ some .paren

theorem push_opened (body : Body) (call : Call) : (body.push call).opened = body.opened := by
  cases body <;> rfl

theorem fill_opened (hole : Hole) (value : Value) : (fill hole value).opened = hole.opened := by
  cases hole <;> rfl

theorem fill_sound (hole : Hole) (value : Value) (other : token.isKey = false) : Sound token (fill hole value) := by
  cases hole <;> exact .inl other

-- A token that leads from some delimiters to a place, whether it turns them as it should.
def Leads (token : Token) (opened : List Delimiter) (made : Step) : Prop :=
  ∀ place, made = .ok (.next place) → Turns token opened place.opened ∧ Sound token place

theorem leads_goto (turns : Turns token opened place.opened) (sound : Sound token place) :
    Leads token opened (goto place) := by
  intro next made
  cases made
  exact ⟨turns, sound⟩

theorem leads_fail : Leads token opened (fail cause line) := by
  intro next made
  cases made

theorem leads_enter (turns : Turns token opened place.opened) (sound : Sound token place) :
    Leads token opened (enter limit depth line place) := by
  unfold enter
  split
  · exact leads_fail
  · exact leads_goto turns sound

theorem leads_fill (hole : Hole) (value : Value) (turns : Turns token opened hole.opened)
    (other : token.isKey = false) : Leads token opened (goto (fill hole value)) := by
  refine leads_goto ?_ (fill_sound _ _ other)
  rwa [fill_opened]

theorem leads_close (closed : closedBy body token) : Leads token body.opened (.ok (close body)) := by
  intro next made
  cases body with
  | script => cases made
  | block =>
      cases made
      have shuts := closedBy_block.mp closed
      refine ⟨?_, .inl (by cases shuts <;> rfl)⟩
      rw [Place.opened, push_opened]
      exact .shuts shuts

theorem atStatement_leads (body : Body) (t : Located) : Leads t.token body.opened (atStatement body t) := by
  obtain ⟨token, line⟩ := t
  unfold atStatement
  split
  · rename_i closed
    exact leads_close closed
  · cases token with
    | newline | semicolon => exact leads_goto (.other rfl) (.inl rfl)
    | endOfScript => cases body <;> exact leads_fail
    | ident name =>
        dsimp only
        split
        · exact leads_fail
        · exact leads_goto (.other rfl) (.inl rfl)
    | _ => exact leads_fail

theorem atSeparator_leads (body : Body) (keyword : String) (t : Located) :
    Leads t.token body.opened (atSeparator body keyword t) := by
  obtain ⟨token, line⟩ := t
  unfold atSeparator
  split
  · rename_i closed
    exact leads_close closed
  · cases token with
    | newline | semicolon => exact leads_goto (.other rfl) (.inl rfl)
    | _ => exact leads_fail

theorem atBlock_leads (limit : Option Nat) (body : Body) (head : Head) (args : List Value) (call : Call)
    (t : Located) : Leads t.token body.opened (atBlock limit body head args call t) := by
  have separator := atSeparator_leads (body.push call) head.keyword t
  rw [push_opened] at separator
  obtain ⟨token, line⟩ := t
  unfold atBlock
  split
  · rename_i opened
    have opens := opens_iff.mp opened
    exact leads_enter (.opens opens) (.inl (by cases opens <;> rfl))
  · exact separator

theorem atValue_leads (limit : Option Nat) (hole : Hole) (t : Located) :
    Leads t.token hole.opened (atValue limit hole t) := by
  obtain ⟨token, line⟩ := t
  cases token with
  | str | symbol | int | float | ident => exact leads_fill hole _ (.other rfl) rfl
  | leftBracket => exact leads_enter .leftBracket (.inl rfl)
  | leftBrace => exact leads_enter .leftBrace (.inl rfl)
  | _ => exact leads_fail

theorem atArgument_leads (limit : Option Nat) (a : Arguments) (t : Located) :
    Leads t.token a.opened (atArgument limit a t) := by
  have value := atValue_leads limit (.argument a t.line) t
  obtain ⟨token, line⟩ := t
  cases token with
  | newline => exact leads_goto (.other rfl) (.inl rfl)
  | label => exact leads_goto (.other rfl) ⟨rfl, _, _, rfl⟩
  | _ => exact value

theorem atAfterArgument_leads (limit : Option Nat) (a : Arguments) (t : Located) :
    Leads t.token a.opened (atAfterArgument limit a t) := by
  have block := atBlock_leads limit a.body a.head a.all (.plain a.head a.all) t
  obtain ⟨token, line⟩ := t
  obtain ⟨body, head, parens, values, pairs⟩ := a
  cases parens with
  | true =>
      cases token with
      | comma | newline => exact leads_goto (.other rfl) (.inl rfl)
      | rightParen => exact leads_goto .rightParen (.inl rfl)
      | _ => exact leads_fail
  | false =>
      cases token with
      | comma => exact leads_goto (.other rfl) (.inl rfl)
      | _ => exact block

theorem atKeyword_leads (limit : Option Nat) (body : Body) (head : Head) (t : Located) :
    Leads t.token body.opened (atKeyword limit body head t) := by
  have block := atBlock_leads limit body head [] (.bare head) t
  have argument := atArgument_leads limit { body, head, parens := false } t
  obtain ⟨token, line⟩ := t
  cases token with
  | leftParen => exact leads_goto .leftParen ⟨rfl, rfl⟩
  | ident name =>
      unfold atKeyword
      dsimp only
      split
      · exact argument
      · exact block
  | str | int | float | symbol | label | leftBracket => exact argument
  | _ => exact block

theorem step_leads (sound : Sound before place) (limit : Option Nat) (t : Located) :
    Leads t.token place.opened (step limit place t) := by
  cases place with
  | statement body => exact atStatement_leads body t
  | separator body keyword => exact atSeparator_leads body keyword t
  | name body head =>
      have keyword := atKeyword_leads limit body head t
      obtain ⟨token, line⟩ := t
      cases token with
      | dot => exact leads_goto (.other rfl) (.inl rfl)
      | _ => exact keyword
  | keyword body head => exact atKeyword_leads limit body head t
  | arguments body head args => exact atBlock_leads limit body head args (.plain head args) t
  | blockStart o =>
      have statement := atStatement_leads (o.body none) t
      obtain ⟨token, line⟩ := t
      cases token with
      | pipe => exact leads_goto (.other rfl) (.inl rfl)
      | _ => exact statement
  | firstArgument a =>
      have argument := atArgument_leads limit a t
      obtain ⟨token, line⟩ := t
      obtain ⟨body, head, parens, values, pairs⟩ := a
      cases sound.1
      cases token with
      | newline => exact leads_goto (.other rfl) ⟨rfl, rfl⟩
      | rightParen => exact leads_goto .rightParen (.inl rfl)
      | _ => exact argument
  | argument a => exact atArgument_leads limit a t
  | positional a value start =>
      have after := atAfterArgument_leads limit { a with values := value :: a.values } t
      obtain ⟨token, line⟩ := t
      obtain ⟨body, head, parens, values, pairs⟩ := a
      cases pairs with
      | nil =>
          cases token with
          | arrow => exact leads_goto (.other rfl) ⟨rfl, _, _, rfl⟩
          | _ => exact after
      | cons =>
          cases token with
          | arrow => exact leads_goto (.other rfl) ⟨rfl, _, _, rfl⟩
          | _ => exact leads_fail
  | afterArgument a => exact atAfterArgument_leads limit a t
  | value hole => exact atValue_leads limit hole t
  | item items around =>
      have value := atValue_leads limit (.item items around) t
      obtain ⟨token, line⟩ := t
      cases token with
      | newline => exact leads_goto (.other rfl) (.inl rfl)
      | rightBracket => exact leads_fill around _ .rightBracket rfl
      | _ => exact value
  | afterItem items around =>
      obtain ⟨token, line⟩ := t
      cases token with
      | newline | comma => exact leads_goto (.other rfl) (.inl rfl)
      | rightBracket => exact leads_fill around _ .rightBracket rfl
      | _ => exact leads_fail
  | key entries around =>
      have value := atValue_leads limit (.key entries around) t
      obtain ⟨token, line⟩ := t
      cases token with
      | newline => exact leads_goto (.other rfl) (.inl rfl)
      | label => exact leads_goto (.other rfl) (.inr nofun)
      | rightBrace => exact leads_fill around _ .rightBrace rfl
      | _ => exact value
  | entry entries key around =>
      have value := atValue_leads limit (.entry entries key around) t
      obtain ⟨token, line⟩ := t
      cases token with
      | newline => exact leads_goto (.other rfl) (.inl rfl)
      | _ => exact value
  | afterEntry entries around =>
      obtain ⟨token, line⟩ := t
      cases token with
      | newline | comma => exact leads_goto (.other rfl) (.inl rfl)
      | rightBrace => exact leads_fill around _ .rightBrace rfl
      | _ => exact leads_fail
  | afterKey =>
      obtain ⟨token, line⟩ := t
      cases token with
      | arrow => exact leads_goto (.other rfl) (.inr nofun)
      | _ => exact leads_fail
  | dot | blockParam | blockPipe =>
      obtain ⟨token, line⟩ := t
      cases token <;> first | exact leads_goto (.other rfl) (.inl rfl) | exact leads_fail

def next? (limit : Nat) (place : Place) (t : Located) : Option Place :=
  match step (some limit) place t with
  | .ok (.next next) => some next
  | _ => none

def reach? (limit : Nat) (place : Place) (tokens : List Located) : Option Place :=
  tokens.foldlM (next? limit) place

theorem next?_iff : next? limit place t = some next ↔ step (some limit) place t = .ok (.next next) := by
  unfold next?
  cases step (some limit) place t with
  | error => exact ⟨nofun, nofun⟩
  | ok progress => cases progress <;> simp

theorem reach?_concat : reach? limit place (tokens ++ [t]) = some last ↔
    ∃ middle, reach? limit place tokens = some middle ∧ next? limit middle t = some last := by
  simp [reach?, List.foldlM_append, Option.bind_eq_some_iff]

end Script

-- The delimiters that are open behind some tokens.
inductive Opened : List Located → List Delimiter → Prop where
  | none : Opened [] []
  | more : Opened tokens opened → Turns t.token opened after → Opened (tokens ++ [t]) after

namespace Script

def lastToken (tokens : List Located) : Token := (tokens.getLast?.map Located.token).getD .newline

theorem reach_opened (reached : reach? limit (.statement (.script [])) tokens = some place) :
    Opened tokens place.opened ∧ Sound (lastToken tokens) place := by
  induction tokens using List.reverseRecOn generalizing place with
  | nil => cases reached; exact ⟨.none, .inl rfl⟩
  | append_singleton tokens t ih =>
      obtain ⟨middle, before, last⟩ := reach?_concat.mp reached
      obtain ⟨opened, sound⟩ := ih before
      obtain ⟨turns, sound⟩ := step_leads sound (some limit) t place (next?_iff.mp last)
      have same : lastToken (tokens ++ [t]) = t.token := by simp [lastToken]
      exact ⟨.more opened turns, same ▸ sound⟩

end Script

end KeywordConfig
