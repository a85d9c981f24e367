import KeywordConfig.Proofs.Partition
import KeywordConfig.Proofs.Spelling

namespace KeywordConfig
open Token

inductive Blank where
  | space | tab | carriageReturn

def Blank.char : Blank → Char
  | .space => ' '
  | .tab => '\t'
  | .carriageReturn => '\r'

-- What stands before a token or behind the last one.
structure Spacing where
  blanks : List Blank
  comment : Option (List Char) := none

def Spacing.text (s : Spacing) : List Char :=
  s.blanks.map Blank.char ++ (s.comment.map ('#' :: ·)).getD []

-- The tokens that are printed. Floats are left out, and the end of a script is not written.
def Token.Printable : Token → Prop
  | .ident name => IsName name.toList
  | .label name => IsName name.toList
  | .symbol name => IsName name.toList
  | .float _ => False
  | .endOfScript => False
  | _ => True

def Printer.tokenText (quote : Quote) : Token → List Char
  | .ident name => name.toList
  | .label name => name.toList ++ [':']
  | .symbol name => ':' :: name.toList
  | .str text => quoted quote text
  | .int i => intText i
  | .float x => (Token.floatText x).toList
  | .leftParen => ['(']
  | .rightParen => [')']
  | .leftBrace => ['\x7b']
  | .rightBrace => ['\x7d']
  | .leftBracket => ['[']
  | .rightBracket => [']']
  | .comma => [',']
  | .dot => ['.']
  | .pipe => ['|']
  | .arrow => ['=', '>']
  | .semicolon => [';']
  | .newline => ['\n']
  | .endOfScript => []

-- A token with the spacing before it and the quotes it is written in if it is a text.
structure Placed where
  before : Spacing
  quote : Quote
  token : Token

def Placed.text (p : Placed) : List Char := Printer.tokenText p.quote p.token

-- A comment ends where a line does.
structure Placed.Sound (p : Placed) : Prop where
  printable : p.token.Printable
  comment : ∀ body ∈ p.before.comment, p.token = .newline ∧ '\n' ∉ body

def layout (last : Spacing) : List Placed → List Char
  | [] => last.text
  | p :: rest => p.before.text ++ (p.text ++ layout last rest)

def Placed.word (p : Placed) : Word := ⟨p.before.text, p.text, p.token⟩

theorem joined_layout (last : Spacing) (placed : List Placed) :
    joined last.text (placed.map Placed.word) = layout last placed := by
  induction placed with
  | nil => rfl
  | cons p rest ih =>
      rw [List.map_cons, joined, ih]
      rfl

theorem Printer.tokenText_denotes (quote : Quote) (printable : Token.Printable token) :
    Denotes (tokenText quote token) token := by
  cases token with
  | ident name => simpa [tokenText] using Denotes.ident printable
  | label name => simpa [tokenText] using Denotes.label printable
  | symbol name => simpa [tokenText] using Denotes.symbol printable
  | str text => exact quoted_denotes quote text
  | int i => exact int_denotes i
  | float => cases printable
  | arrow => exact .arrow
  | newline => exact .newline
  | endOfScript => cases printable
  | _ => exact .mark (by constructor)

namespace Spacing

theorem isGap (s : Spacing) (closes : ∀ body ∈ s.comment, '\n' ∉ body ∧ (rest = [] ∨ rest.head? = some '\n')) :
    IsGap rest s.text := by
  obtain ⟨blanks, comment⟩ := s
  have back : IsGap rest ((comment.map ('#' :: ·)).getD []) := by
    cases comment with
    | none => exact .none
    | some body =>
        obtain ⟨inside, ends⟩ := closes body rfl
        exact .comment (fun c member same => inside (same ▸ member)) ends
  unfold text
  induction blanks with
  | nil => exact back
  | cons b blanks ih => exact .blank (by cases b <;> decide) (ih closes)

theorem head_ends (s : Spacing) : ∀ c ∈ s.text.head?, ends c := by
  obtain ⟨blanks, comment⟩ := s
  intro c first
  cases blanks with
  | cons b blanks => cases first; cases b <;> decide
  | nil =>
      cases comment with
      | none => cases first
      | some body => cases first; decide

end Spacing

section

variable {placed : List Placed} {last : Spacing}

-- Spacing goes on with no token, so the one before it has ended.
theorem stops_layout (apart : ∀ p ∈ placed.head?, p.before.text ≠ []) : Stops (layout last placed) := by
  cases placed with
  | nil => exact last.head_ends
  | cons p rest =>
      obtain ⟨c, cs, same⟩ := List.exists_cons_of_ne_nil (apart p rfl)
      have ended := p.before.head_ends c (by rw [same]; rfl)
      rw [layout, same]
      exact stops_cons ended

theorem lexed_layout (sound : ∀ p ∈ placed, p.Sound) (apart : ∀ p ∈ placed.tail, p.before.text ≠ [])
    (closed : ∀ body ∈ last.comment, '\n' ∉ body) : Lexed last.text (placed.map Placed.word) := by
  induction placed with
  | nil => exact .none (last.isGap fun body member => ⟨closed body member, .inl rfl⟩)
  | cons p rest ih =>
      obtain ⟨⟨printable, comment⟩, others⟩ := List.forall_mem_cons.mp sound
      have stops : Stops (layout last rest) := stops_layout fun q first => apart q (List.mem_of_mem_head? first)
      have denotes := Printer.tokenText_denotes p.quote printable
      refine .word (p.before.isGap ?_) denotes ?_ (ih others fun q member => apart q (List.mem_of_mem_tail member))
      · intro body member
        obtain ⟨lineEnd, inside⟩ := comment body member
        have newline : p.text = ['\n'] := by rw [Placed.text, lineEnd]; rfl
        exact ⟨inside, .inr (by rw [newline]; rfl)⟩
      · rw [joined_layout]
        exact stops.behind p.token

end

-- Tokens with at least a blank between any two of them are read as they were written, whatever blanks
-- and comments those are.
theorem layout_read (placed : List Placed) (last : Spacing) (sound : ∀ p ∈ placed, p.Sound)
    (apart : ∀ p ∈ placed.tail, p.before.text ≠ []) (closed : ∀ body ∈ last.comment, '\n' ∉ body) :
    (items (String.ofList (layout last placed))).map (Except.map Located.token) =
      (placed.map Placed.token ++ [Token.endOfScript]).map .ok := by
  have same : (String.ofList (layout last placed)).toList = joined last.text (placed.map Placed.word) := by
    rw [String.toList_ofList, joined_layout]
  rw [(lexed_layout sound apart closed).tokens same, List.map_map]
  rfl

-- The least integer, a path, a label, a symbol and a point next to one another, a quote, a backslash, a hash
-- and a line end in quotes, and a comment that ends a line and one that ends the text.
theorem layout_read_apart :
    let placed : List Placed := [
      ⟨⟨[], none⟩, .single, .ident "a::b"⟩, ⟨⟨[.tab], none⟩, .single, .label "c::d"⟩,
      ⟨⟨[.space, .carriageReturn], none⟩, .single, .symbol "e"⟩, ⟨⟨[.space], none⟩, .single, .int Int64.minValue⟩,
      ⟨⟨[.space], none⟩, .single, .dot⟩, ⟨⟨[.space], some "it's".toList⟩, .single, .newline⟩,
      ⟨⟨[.space], none⟩, .single, .str "'\\#\n\""⟩]
    let last : Spacing := ⟨[], some "# end".toList⟩
    let text := "a::b\tc::d: \r:e -9223372036854775808 . #it's\n '\\'\\\\#\n\"'## end"
    (∀ p ∈ placed, p.Sound) ∧ (∀ p ∈ placed.tail, p.before.text ≠ []) ∧ (∀ body ∈ last.comment, '\n' ∉ body) ∧
      String.ofList (layout last placed) = text ∧
      (items text).map (Except.map Located.token) = (placed.map Placed.token ++ [Token.endOfScript]).map .ok := by
  intro placed last text
  have path {first second : Char} (start : isNameStart first) (again : isNameStart second) :
      IsName [first, ':', ':', second] := .start start (.path again .done)
  have sound : ∀ p ∈ placed, p.Sound := by
    simp only [placed, List.forall_mem_cons]
    exact ⟨⟨path rfl rfl, nofun⟩, ⟨path rfl rfl, nofun⟩, ⟨isName_plain rfl rfl, nofun⟩, ⟨trivial, nofun⟩,
      ⟨trivial, nofun⟩, ⟨trivial, by rintro _ ⟨⟩; exact ⟨rfl, by decide⟩⟩, ⟨trivial, nofun⟩, nofun⟩
  have apart : ∀ p ∈ placed.tail, p.before.text ≠ [] := by
    simp [placed, Spacing.text]
  have closed : ∀ body ∈ last.comment, '\n' ∉ body := by
    rintro _ ⟨⟩
    decide
  have written : String.ofList (layout last placed) = text := by
    subst placed last text
    cbv
  have read := layout_read placed last sound apart closed
  rw [written] at read
  exact ⟨sound, apart, closed, written, read⟩

end KeywordConfig
