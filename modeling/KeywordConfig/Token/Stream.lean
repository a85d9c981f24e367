import KeywordConfig.Error

namespace KeywordConfig.Token

abbrev Item := Except ConfigError Located

-- Names are made of the letters, digits and underscore of ASCII.
def isNameStart (c : Char) : Bool := c.isAlpha || c = '_'

def isNameChar (c : Char) : Bool := c.isAlphanum || c = '_'

-- The rest of a name, after `done` in reverse, and what follows. A name goes on over `::` when
-- another name stands behind it.
def readName (done : List Char) : List Char → List Char × List Char
  | [] => (done.reverse, [])
  | ':' :: ':' :: c :: rest =>
      if isNameStart c then readName (c :: ':' :: ':' :: done) rest
      else (done.reverse, ':' :: ':' :: c :: rest)
  | c :: rest => if isNameChar c then readName (c :: done) rest else (done.reverse, c :: rest)

def unescape (c : Char) : Char :=
  if c = 'n' then '\n' else if c = 't' then '\t' else if c = 'r' then '\r' else c

-- The rest of a quoted text, the line ends it counts, and what follows the closing quote. A line
-- end behind a backslash is part of the text, but is not counted.
def readQuoted (quote : Char) (done : List Char) (lines : Nat) :
    List Char → Option (List Char × Nat × List Char)
  | [] => none
  | c :: rest =>
      if c = quote then some (done.reverse, lines, rest)
      else if c = '\\' then
        match rest with
        | [] => none
        | escaped :: rest => readQuoted quote (unescape escaped :: done) lines rest
      else readQuoted quote (c :: done) (if c = '\n' then lines + 1 else lines) rest

def intToken (negative : Bool) (digits : List Char) : Except Cause Token :=
  let value : Int := if negative then -Decimal.ofDigits digits else Decimal.ofDigits digits
  if Int64.minValue.toInt ≤ value ∧ value ≤ Int64.maxValue.toInt then .ok (.int (Int64.ofInt value))
  else .error (.integerOutOfRange (String.ofList (if negative then '-' :: digits else digits)))

def floatToken (negative : Bool) (whole fraction : List Char) : Token :=
  let x := (Decimal.mk (Decimal.ofDigits (whole ++ fraction)) (-fraction.length)).toFloat
  .float (if negative then -x else x)

-- A token as it is read: the line ends inside it, and the text behind it.
structure Lexeme where
  token : Token
  lines : Nat
  rest : List Char

-- The digits behind a point, which are part of a number when there is at least one.
def fraction? : List Char → Option (List Char × List Char)
  | '.' :: c :: rest =>
      if c.isDigit then some (c :: rest.takeWhile Char.isDigit, rest.dropWhile Char.isDigit) else none
  | _ => none

def readNumber (negative : Bool) (cs : List Char) : Except Cause Lexeme :=
  let whole := cs.takeWhile Char.isDigit
  let rest := cs.dropWhile Char.isDigit
  match fraction? rest with
  | some (fraction, after) => .ok ⟨floatToken negative whole fraction, 0, after⟩
  | none => (intToken negative whole).map (⟨·, 0, rest⟩)

-- A colon makes a label of a name, unless a second colon follows it.
def readWord (c : Char) (cs : List Char) : Lexeme :=
  let (name, rest) := readName [c] cs
  match rest with
  | ':' :: ':' :: _ => ⟨.ident (String.ofList name), 0, rest⟩
  | ':' :: after => ⟨.label (String.ofList name), 0, after⟩
  | _ => ⟨.ident (String.ofList name), 0, rest⟩

def mark? (c : Char) : Option Token :=
  match c with
  | '(' => some .leftParen
  | ')' => some .rightParen
  | '\x7b' => some .leftBrace
  | '\x7d' => some .rightBrace
  | '[' => some .leftBracket
  | ']' => some .rightBracket
  | ',' => some .comma
  | '.' => some .dot
  | '|' => some .pipe
  | ';' => some .semicolon
  | _ => none

def read (c : Char) (cs : List Char) : Except Cause Lexeme :=
  if c = '\n' then .ok ⟨.newline, 1, cs⟩
  else if c = '=' then
    match cs with
    | '>' :: rest => .ok ⟨.arrow, 0, rest⟩
    | _ => .error (.unexpectedCharacter c)
  else if c = ':' then
    match cs with
    | [] => .error .symbolWithoutName
    | first :: rest =>
        if isNameStart first then
          let (name, after) := readName [first] rest
          .ok ⟨.symbol (String.ofList name), 0, after⟩
        else .error .symbolWithoutName
  else if c = '"' ∨ c = '\'' then
    match readQuoted c [] 0 cs with
    | some (text, lines, rest) => .ok ⟨.str (String.ofList text), lines, rest⟩
    | none => .error (.unterminatedString c)
  else if c = '-' then
    match cs with
    | [] => .error .minusWithoutNumber
    | first :: _ => if first.isDigit then readNumber true cs else .error .minusWithoutNumber
  else if c.isDigit then readNumber false (c :: cs)
  else if isNameStart c then .ok (readWord c cs)
  else
    match mark? c with
    | some mark => .ok ⟨mark, 0, cs⟩
    | none => .error (.unexpectedCharacter c)

-- Blanks and comments separate tokens. A comment ends before the line end, which is a token.
def skipBlank : List Char → List Char
  | [] => []
  | c :: rest =>
      if c = ' ' ∨ c = '\t' ∨ c = '\r' then skipBlank rest
      else if c = '#' then rest.dropWhile (· ≠ '\n')
      else c :: rest

theorem skipBlank_suffix (cs : List Char) : skipBlank cs <:+ cs := by
  induction cs with
  | nil => exact List.suffix_rfl
  | cons c rest ih =>
      unfold skipBlank
      split
      · exact ih.trans (List.suffix_cons _ _)
      · split
        · exact (List.dropWhile_suffix _).trans (List.suffix_cons _ _)
        · exact List.suffix_rfl

theorem readName_suffix (done cs : List Char) : (readName done cs).2 <:+ cs := by
  fun_induction readName done cs with
  | case1 => exact List.suffix_rfl
  | case2 done c rest start ih => exact ih.trans (by simp [List.suffix_cons_iff])
  | case3 => exact List.suffix_rfl
  | case4 _ _ _ _ _ ih => exact ih.trans (List.suffix_cons _ _)
  | case5 => exact List.suffix_rfl

theorem readQuoted_suffix {body rest : List Char}
    (equal : readQuoted quote done lines cs = some (body, count, rest)) : rest <:+ cs := by
  fun_induction readQuoted quote done lines cs with
  | case1 => cases equal
  | case2 => cases equal; exact List.suffix_cons _ _
  | case3 => cases equal
  | case4 _ _ _ _ _ ih =>
      exact (ih equal).trans ((List.suffix_cons _ _).trans (List.suffix_cons _ _))
  | case5 done lines c after _ _ ih => exact (ih equal).trans (List.suffix_cons _ _)

theorem fraction_suffix {digits rest : List Char} (equal : fraction? cs = some (digits, rest)) :
    rest <:+ cs := by
  unfold fraction? at equal
  split at equal
  · split at equal
    · cases equal
      exact (List.dropWhile_suffix _).trans ((List.suffix_cons _ _).trans (List.suffix_cons _ _))
    · cases equal
  · cases equal

theorem readNumber_suffix (digit : first.isDigit) (equal : readNumber negative (first :: cs) = .ok lexeme) :
    lexeme.rest <:+ cs := by
  have whole : cs.dropWhile Char.isDigit <:+ cs := List.dropWhile_suffix _
  unfold readNumber at equal
  simp only [List.dropWhile_cons, digit, if_true] at equal
  split at equal
  · rename_i found
    cases equal
    exact (fraction_suffix found).trans whole
  · cases token : intToken negative (List.takeWhile Char.isDigit (first :: cs)) with
    | error => simp [token, Except.map] at equal
    | ok => simp only [token, Except.map, Except.ok.injEq] at equal; subst equal; exact whole

theorem readWord_suffix (c : Char) (cs : List Char) : (readWord c cs).rest <:+ cs := by
  have rest := readName_suffix [c] cs
  unfold readWord
  split
  rename_i equal
  rw [equal] at rest
  split
  · exact rest
  · exact (List.suffix_cons _ _).trans rest
  · exact rest

theorem read_suffix (equal : read c cs = .ok lexeme) : lexeme.rest <:+ cs := by
  unfold read at equal
  split at equal
  · cases equal; exact List.suffix_rfl
  split at equal
  · split at equal
    · cases equal; exact List.suffix_cons _ _
    · cases equal
  split at equal
  · split at equal
    · cases equal
    · split at equal
      · cases equal; exact (readName_suffix _ _).trans (List.suffix_cons _ _)
      · cases equal
  split at equal
  · split at equal
    · rename_i found; cases equal; exact readQuoted_suffix found
    · cases equal
  split at equal
  · split at equal
    · cases equal
    · split at equal
      · rename_i digit; exact (readNumber_suffix digit equal).trans (List.suffix_cons _ _)
      · cases equal
  split at equal
  · rename_i digit; exact readNumber_suffix digit equal
  split at equal
  · cases equal; exact readWord_suffix _ _
  · split at equal
    · cases equal; exact List.suffix_rfl
    · cases equal

theorem rest_shorter {cs : List Char} {lexeme : Lexeme} (blank : skipBlank cs = c :: rest)
    (token : read c rest = .ok lexeme) : lexeme.rest.length < cs.length := by
  have bound := (skipBlank_suffix cs).length_le
  have shorter := (read_suffix token).length_le
  rw [blank, List.length_cons] at bound
  omega

def itemsFrom (done : List Item) (line : Nat) (cs : List Char) : List Item :=
  match _blank : skipBlank cs with
  | [] => (.ok ⟨.endOfScript, line⟩ :: done).reverse
  | c :: rest =>
      match _token : read c rest with
      | .error cause => (.error ⟨cause, some line⟩ :: done).reverse
      | .ok lexeme =>
          itemsFrom (.ok ⟨lexeme.token, line⟩ :: done) (line + lexeme.lines) lexeme.rest
termination_by cs.length
decreasing_by exact rest_shorter _blank _token

def items (text : String) : List Item := itemsFrom [] 1 text.toList

theorem itemsFrom_done (done : List Item) (line : Nat) (cs : List Char) :
    itemsFrom done line cs = done.reverse ++ itemsFrom [] line cs := by
  rw [itemsFrom.eq_def done, itemsFrom.eq_def []]
  split
  · simp
  · rename_i c rest blank
    split
    · simp
    · rename_i lexeme token
      have shorter := rest_shorter blank token
      rw [itemsFrom_done (_ :: done), itemsFrom_done [_]]
      simp
termination_by cs.length

-- The first item, and those of what is left behind it.
theorem itemsFrom_unfold (line : Nat) (cs : List Char) :
    itemsFrom [] line cs =
      match skipBlank cs with
      | [] => [.ok ⟨.endOfScript, line⟩]
      | c :: rest =>
          match read c rest with
          | .error cause => [.error ⟨cause, some line⟩]
          | .ok lexeme =>
              .ok ⟨lexeme.token, line⟩ :: itemsFrom [] (line + lexeme.lines) lexeme.rest := by
  rw [itemsFrom]
  split <;> rename_i blank <;> simp only [blank]
  · rfl
  · split <;> rename_i token <;> simp only [token]
    · rfl
    · rw [itemsFrom_done]
      rfl

end KeywordConfig.Token
