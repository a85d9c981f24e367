import KeywordConfig.Script

namespace KeywordConfig.Grammar

inductive Many (kind : Token → Prop) : List Located → List Located → Prop where
  | none : Many kind tokens tokens
  | more : kind token → Many kind tokens rest → Many kind (⟨token, line⟩ :: tokens) rest

def IsSeparator (token : Token) : Prop := token = .newline ∨ token = .semicolon

abbrev Newlines := Many (· = .newline)

abbrev Separators := Many IsSeparator

-- What may stand before a comma between arguments: line ends, but only in parentheses.
abbrev Gap (parens : Bool) := Many fun token => parens ∧ token = .newline

theorem gap_parens : Gap true tokens rest ↔ Newlines tokens rest := by
  simp only [Gap, true_and]

theorem gap_plain : Gap false tokens rest ↔ rest = tokens := by
  constructor
  · intro gap
    cases gap with
    | none => rfl
    | more within => cases within.1
  · intro same
    subst same
    exact .none

inductive Literal : Token → Value → Prop where
  | str : Literal (.str text) (.str text)
  | symbol : Literal (.symbol name) (.str name)
  | int : Literal (.int i) (.int i)
  | float : Literal (.float x) (.float x)
  | yes : Literal (.ident "true") (.bool true)
  | no : Literal (.ident "false") (.bool false)
  | nil : Literal (.ident "nil") .null
  -- every other name stands for itself, `do` and `end` too
  | name : name ∉ ["true", "false", "nil"] → Literal (.ident name) (.str name)

mutual

inductive IsValue : Nat → List Located → Value → List Located → Prop where
  | literal : Literal token value → IsValue room (⟨token, line⟩ :: rest) value rest
  | list : IsElements room tokens items rest →
      IsValue (room + 1) (⟨.leftBracket, line⟩ :: tokens) (.list items) rest
  | map : IsEntries room tokens entries rest →
      IsValue (room + 1) (⟨.leftBrace, line⟩ :: tokens) (.map (Keyed.ofList entries)) rest

-- The values of a list and its closing bracket. A comma may stand behind the last value.
inductive IsElements : Nat → List Located → List Value → List Located → Prop where
  | none : Newlines tokens (⟨.rightBracket, line⟩ :: rest) → IsElements room tokens [] rest
  | last : Newlines tokens start → IsValue room start value after →
      Newlines after (⟨.rightBracket, line⟩ :: rest) → IsElements room tokens [value] rest
  | more : Newlines tokens start → IsValue room start value after →
      Newlines after (⟨.comma, line⟩ :: next) → IsElements room next items rest →
      IsElements room tokens (value :: items) rest

inductive IsEntry : Nat → List Located → String × Value → List Located → Prop where
  | label : Newlines tokens start → IsValue room start value rest →
      IsEntry room (⟨.label key, line⟩ :: tokens) (key, value) rest
  | arrow : IsValue room tokens key (⟨.arrow, line⟩ :: after) → Newlines after start →
      IsValue room start value rest → IsEntry room tokens (key.text, value) rest

inductive IsEntries : Nat → List Located → List (String × Value) → List Located → Prop where
  | none : Newlines tokens (⟨.rightBrace, line⟩ :: rest) → IsEntries room tokens [] rest
  | last : Newlines tokens start → IsEntry room start entry after →
      Newlines after (⟨.rightBrace, line⟩ :: rest) → IsEntries room tokens [entry] rest
  | more : Newlines tokens start → IsEntry room start entry after →
      Newlines after (⟨.comma, line⟩ :: next) → IsEntries room next entries rest →
      IsEntries room tokens (entry :: entries) rest

end

inductive Argument where
  | positional (value : Value)
  | named (key : String) (value : Value)

inductive IsArgument : Nat → List Located → Argument → List Located → Prop where
  | value : IsValue room tokens value rest → IsArgument room tokens (.positional value) rest
  | label : IsValue room tokens value rest →
      IsArgument room (⟨.label key, line⟩ :: tokens) (.named key value) rest
  | arrow : IsValue room tokens key (⟨.arrow, line⟩ :: after) → IsValue room after value rest →
      IsArgument room tokens (.named key.text value) rest

inductive IsArguments (parens : Bool) (room : Nat) :
    List Located → List Argument → List Located → Prop where
  | last : IsArgument room tokens argument rest → IsArguments parens room tokens [argument] rest
  | more : IsArgument room tokens argument after → Gap parens after (⟨.comma, line⟩ :: next) →
      Newlines next start → IsArguments parens room start arguments rest →
      IsArguments parens room tokens (argument :: arguments) rest

-- The named arguments stand last, and make up one mapping behind the others.
def Gathers (arguments : List Argument) (args : List Value) : Prop :=
  ∃ values pairs,
    arguments = values.map .positional ++ pairs.map (fun pair => .named pair.1 pair.2) ∧
      args = if pairs = [] then values else values ++ [.map (Keyed.ofList pairs)]

-- What may stand behind the names of a call; `none` is nothing.
inductive IsTail : Nat → List Located → Option (List Value) → List Located → Prop where
  | nothing : IsTail room tokens none tokens
  | empty : Newlines tokens (⟨.rightParen, close⟩ :: rest) →
      IsTail room (⟨.leftParen, line⟩ :: tokens) (some []) rest
  | parens : Newlines tokens start → IsArguments true room start arguments after →
      Newlines after (⟨.rightParen, close⟩ :: rest) → Gathers arguments args →
      IsTail room (⟨.leftParen, line⟩ :: tokens) (some args) rest
  | plain : token ≠ .leftBrace → token ≠ .ident "do" → token ≠ .ident "end" →
      IsArguments false room (⟨token, line⟩ :: tokens) arguments rest → Gathers arguments args →
      IsTail room (⟨token, line⟩ :: tokens) (some args) rest

inductive IsHead : List Located → Head → List Located → Prop where
  | keyword : name ≠ "do" → name ≠ "end" →
      IsHead (⟨.ident name, line⟩ :: rest) { keyword := name, line } rest
  | dotted : name ≠ "do" → name ≠ "end" →
      IsHead (⟨.ident name, line⟩ :: ⟨.dot, dot⟩ :: ⟨.ident keyword, last⟩ :: rest)
        { keyword, receiver := some name, line } rest

theorem IsHead.first (isHead : IsHead (⟨token, line⟩ :: tokens) head rest) :
    ∃ name, token = .ident name ∧ name ≠ "do" ∧ name ≠ "end" := by
  cases isHead with
  | keyword apart other => exact ⟨_, rfl, apart, other⟩
  | dotted apart other => exact ⟨_, rfl, apart, other⟩

inductive IsParam : List Located → Option String → List Located → Prop where
  | nothing : IsParam tokens none tokens
  | name : IsParam (⟨.pipe, first⟩ :: ⟨.ident name, line⟩ :: ⟨.pipe, last⟩ :: rest) (some name) rest

def unblocked (head : Head) : Option (List Value) → Call
  | none => .bare head
  | some args => .plain head args

inductive Opens : Token → Closer → Prop where
  | brace : Opens .leftBrace .brace
  | word : Opens (.ident "do") .word

inductive Shuts : Token → Closer → Prop where
  | brace : Shuts .rightBrace .brace
  | word : Shuts (.ident "end") .word

mutual

inductive IsCall : Nat → List Located → Call → List Located → Prop where
  | unblocked : IsHead tokens head after → IsTail room after tail rest →
      IsCall room tokens (unblocked head tail) rest
  | block : IsHead tokens head after → IsTail (room + 1) after tail (⟨opener, line⟩ :: inside) →
      Opens opener closer → IsParam inside param start →
      IsBody room start body (⟨last, close⟩ :: rest) → Shuts last closer →
      IsCall (room + 1) tokens (.block head (tail.getD []) param body) rest

inductive IsBody : Nat → List Located → List Call → List Located → Prop where
  | none : Separators tokens rest → IsBody room tokens [] rest
  | last : Separators tokens start → IsCall room start call rest → IsBody room tokens [call] rest
  | more : Separators tokens start → IsCall room start call (⟨token, line⟩ :: after) →
      IsSeparator token → IsBody room after calls rest → IsBody room tokens (call :: calls) rest

end

theorem Many.trans (first : Many kind tokens middle) (second : Many kind middle rest) :
    Many kind tokens rest := by
  induction first with
  | none => exact second
  | more token _ ih => exact .more token (ih second)

theorem Many.length_le (many : Many kind tokens rest) : rest.length ≤ tokens.length := by
  induction many with
  | none => exact Nat.le_refl _
  | more _ _ ih => exact Nat.le_succ_of_le ih

mutual

theorem IsValue.shorter : IsValue room tokens value rest → rest.length < tokens.length
  | .literal _ => Nat.lt_succ_self _
  | .list elements => Nat.lt_succ_of_lt elements.shorter
  | .map entries => Nat.lt_succ_of_lt entries.shorter

theorem IsElements.shorter : IsElements room tokens items rest → rest.length < tokens.length
  | .none newlines => newlines.length_le
  | .last newlines value gap => by
      have first := newlines.length_le
      have second := value.shorter
      have third := gap.length_le
      exact Nat.lt_of_lt_of_le (Nat.lt_of_lt_of_le third (Nat.le_of_lt second)) first
  | .more newlines value gap elements => by
      have first := newlines.length_le
      have second := value.shorter
      have third := gap.length_le
      have fourth := elements.shorter
      rw [List.length_cons] at third
      omega

theorem IsEntry.shorter : IsEntry room tokens entry rest → rest.length < tokens.length
  | .label newlines value => by
      have first := newlines.length_le
      have second := value.shorter
      rw [List.length_cons]
      omega
  | .arrow key newlines value => by
      have first := key.shorter
      have second := newlines.length_le
      have third := value.shorter
      rw [List.length_cons] at first
      omega

theorem IsEntries.shorter : IsEntries room tokens entries rest → rest.length < tokens.length
  | .none newlines => newlines.length_le
  | .last newlines entry gap => by
      have first := newlines.length_le
      have second := entry.shorter
      have third := gap.length_le
      exact Nat.lt_of_lt_of_le (Nat.lt_of_lt_of_le third (Nat.le_of_lt second)) first
  | .more newlines entry gap entries => by
      have first := newlines.length_le
      have second := entry.shorter
      have third := gap.length_le
      have fourth := entries.shorter
      rw [List.length_cons] at third
      omega

end

theorem IsArgument.shorter (form : IsArgument room tokens argument rest) :
    rest.length < tokens.length := by
  cases form with
  | value value => exact value.shorter
  | label value => exact Nat.lt_succ_of_lt value.shorter
  | arrow key value =>
      have first := key.shorter
      have second := value.shorter
      rw [List.length_cons] at first
      omega

theorem IsArguments.shorter (form : IsArguments parens room tokens arguments rest) :
    rest.length < tokens.length := by
  induction form with
  | last argument => exact argument.shorter
  | more argument gap newlines _ ih =>
      have first := argument.shorter
      have second := gap.length_le
      have third := newlines.length_le
      rw [List.length_cons] at second
      omega

theorem IsTail.length_le (form : IsTail room tokens tail rest) : rest.length ≤ tokens.length := by
  cases form with
  | nothing => exact Nat.le_refl _
  | empty newlines =>
      have first := newlines.length_le
      simp only [List.length_cons] at first ⊢
      omega
  | parens newlines arguments close =>
      have first := newlines.length_le
      have second := arguments.shorter
      have third := close.length_le
      simp only [List.length_cons] at third ⊢
      omega
  | plain _ _ _ arguments => exact Nat.le_of_lt arguments.shorter

theorem IsHead.shorter (form : IsHead tokens head rest) : rest.length < tokens.length := by
  cases form with
  | keyword => exact Nat.lt_succ_self _
  | dotted =>
      simp only [List.length_cons]
      omega

theorem IsParam.length_le (form : IsParam tokens param rest) : rest.length ≤ tokens.length := by
  cases form with
  | nothing => exact Nat.le_refl _
  | name =>
      simp only [List.length_cons]
      omega

mutual

theorem IsCall.shorter : IsCall room tokens call rest → rest.length < tokens.length
  | .unblocked head tail => Nat.lt_of_le_of_lt tail.length_le head.shorter
  | .block head tail _ param body _ => by
      have first := head.shorter
      have second := tail.length_le
      have third := param.length_le
      have fourth := body.length_le
      rw [List.length_cons] at second fourth
      omega

theorem IsBody.length_le : IsBody room tokens calls rest → rest.length ≤ tokens.length
  | .none separators => separators.length_le
  | .last separators call => Nat.le_trans (Nat.le_of_lt call.shorter) separators.length_le
  | .more separators call _ body => by
      have first := separators.length_le
      have second := call.shorter
      have third := body.length_le
      rw [List.length_cons] at second
      omega

end

def IsScript (room : Nat) (tokens : List Located) (calls : List Call) : Prop :=
  ∃ line, IsBody room tokens calls [⟨.endOfScript, line⟩]

end KeywordConfig.Grammar
