import KeywordConfig.Token.Stream

namespace KeywordConfig.Token

-- What may follow the first character of a name.
inductive IsNameTail : List Char → Prop where
  | done : IsNameTail []
  | char : (c.isAlphanum || c = '_') → IsNameTail cs → IsNameTail (c :: cs)
  | path : (c.isAlpha || c = '_') → IsNameTail cs → IsNameTail (':' :: ':' :: c :: cs)

inductive IsName : List Char → Prop where
  | start : (c.isAlpha || c = '_') → IsNameTail cs → IsName (c :: cs)

-- A character behind a backslash and the one that the two stand for.
inductive Escapes : Char → Char → Prop where
  | lineEnd : Escapes 'n' '\n'
  | tab : Escapes 't' '\t'
  | carriageReturn : Escapes 'r' '\r'
  | itself : c ≠ 'n' → c ≠ 't' → c ≠ 'r' → Escapes c c

inductive IsQuoted (quote : Char) : List Char → List Char → Prop where
  | done : IsQuoted quote [] []
  | escape : Escapes c d → IsQuoted quote body content →
      IsQuoted quote ('\\' :: c :: body) (d :: content)
  | char : c ≠ quote → c ≠ '\\' → IsQuoted quote body content →
      IsQuoted quote (c :: body) (c :: content)

structure IsDigits (digits : List Char) : Prop where
  all : ∀ c ∈ digits, c.isDigit
  some : digits ≠ []

def IsQuote (c : Char) : Prop := c = '"' ∨ c = '\''

def sign (negative : Bool) : List Char := if negative then ['-'] else []

inductive IsMark : Char → Token → Prop where
  | leftParen : IsMark '(' .leftParen
  | rightParen : IsMark ')' .rightParen
  | leftBrace : IsMark '\x7b' .leftBrace
  | rightBrace : IsMark '\x7d' .rightBrace
  | leftBracket : IsMark '[' .leftBracket
  | rightBracket : IsMark ']' .rightBracket
  | comma : IsMark ',' .comma
  | dot : IsMark '.' .dot
  | pipe : IsMark '|' .pipe
  | semicolon : IsMark ';' .semicolon

inductive Denotes : List Char → Token → Prop where
  | newline : Denotes ['\n'] .newline
  | mark : IsMark c token → Denotes [c] token
  | arrow : Denotes ['=', '>'] .arrow
  | ident : IsName word → Denotes word (.ident (String.ofList word))
  | label : IsName word → Denotes (word ++ [':']) (.label (String.ofList word))
  | symbol : IsName word → Denotes (':' :: word) (.symbol (String.ofList word))
  | str : IsQuote quote → IsQuoted quote body content →
      Denotes (quote :: (body ++ [quote])) (.str (String.ofList content))
  | int : IsDigits digits →
      Int64.toInt i = (if negative then -(Nat.ofDigitChars 10 digits 0 : Int) else Nat.ofDigitChars 10 digits 0) →
      Denotes (sign negative ++ digits) (.int i)
  | float : IsDigits whole → IsDigits fraction →
      Denotes (sign negative ++ (whole ++ '.' :: fraction)) (floatToken negative whole fraction)

-- The text goes on with more of a name.
inductive Extends : List Char → Prop where
  | char : (c.isAlphanum || c = '_') → Extends (c :: rest)
  | path : (c.isAlpha || c = '_') → Extends (':' :: ':' :: c :: rest)

-- A single colon, which makes a label of the name before it.
inductive Labels : List Char → Prop where
  | colon : rest.head? ≠ some ':' → Labels (':' :: rest)

-- Whole and fractional digits go on as long as there are more of them.
def NoDigit (rest : List Char) : Prop := ∀ c ∈ rest.head?, c.isDigit = false

def Behind : Token → List Char → Prop
  | .ident _, rest => ¬ Extends rest ∧ ¬ Labels rest
  | .label _, rest => rest.head? ≠ some ':'
  | .symbol _, rest => ¬ Extends rest
  | .int _, rest => NoDigit rest ∧ ∀ after, rest = '.' :: after → NoDigit after
  | .float _, rest => NoDigit rest
  | _, _ => True

inductive Region where
  | code
  | comment
  | quoted (quote : Char)
  -- behind a backslash
  | escape (quote : Char)

namespace Region

def next : Region → Char → Region
  | .code, c => if c = '#' then .comment else if c = '"' ∨ c = '\'' then .quoted c else .code
  | .comment, c => if c = '\n' then .code else .comment
  | .quoted quote, c => if c = quote then .code else if c = '\\' then .escape quote else .quoted quote
  | .escape quote, _ => .quoted quote

def after (region : Region) (cs : List Char) : Region := cs.foldl next region

theorem after_append (region : Region) (front back : List Char) :
    region.after (front ++ back) = (region.after front).after back := List.foldl_append

def escapes : Region → Char → Bool
  | .escape _, c => c = '\n'
  | _, _ => false

end Region

def escapedLineEnds (region : Region) : List Char → Nat
  | [] => 0
  | c :: cs => (region.escapes c).toNat + escapedLineEnds (region.next c) cs

theorem escapedLineEnds_append (region : Region) (front back : List Char) :
    escapedLineEnds region (front ++ back) =
      escapedLineEnds region front + escapedLineEnds (region.after front) back := by
  induction front generalizing region with
  | nil => exact (Nat.zero_add _).symm
  | cons c front ih =>
      simp only [List.cons_append, escapedLineEnds, ih, Nat.add_assoc]
      rfl

theorem escapes_iff : Escapes c d ↔ unescape c = d := by
  constructor
  · intro escapes
    cases escapes with
    | itself newline tab carriage => simp [unescape, newline, tab, carriage]
    | _ => rfl
  · intro same
    unfold unescape at same
    split at same
    · subst c d; exact .lineEnd
    split at same
    · subst c d; exact .tab
    split at same
    · subst c d; exact .carriageReturn
    · subst d; exact .itself ‹_› ‹_› ‹_›

theorem mark?_iff : mark? c = some token ↔ IsMark c token := by
  constructor
  · intro found
    unfold mark? at found
    split at found <;> cases found <;> constructor
  · intro mark
    cases mark <;> rfl

theorem intToken_iff {negative : Bool} : intToken negative digits = .ok token ↔ ∃ i : Int64, token = .int i ∧
    i.toInt = if negative then -(Nat.ofDigitChars 10 digits 0 : Int) else Nat.ofDigitChars 10 digits 0 := by
  have number : Decimal.ofDigits digits = Nat.ofDigitChars 10 digits 0 := rfl
  unfold intToken
  rw [number]
  generalize (if negative then -(Nat.ofDigitChars 10 digits 0 : Int) else Nat.ofDigitChars 10 digits 0) = value
  constructor
  · intro read
    by_cases range : Int64.minValue.toInt ≤ value ∧ value ≤ Int64.maxValue.toInt
    · rw [if_pos range] at read
      cases read
      exact ⟨_, rfl, Int64.toInt_ofInt_of_le range.1 (Int.lt_add_one_of_le range.2)⟩
    · rw [if_neg range] at read
      cases read
  · rintro ⟨i, rfl, rfl⟩
    have range : Int64.minValue.toInt ≤ i.toInt ∧ i.toInt ≤ Int64.maxValue.toInt := ⟨i.minValue_le_toInt, i.toInt_le⟩
    rw [if_pos range, Int64.ofInt_toInt]

theorem readName_stop (stop : ¬ Extends rest) : readName done rest = (done.reverse, rest) := by
  unfold readName
  split
  · rfl
  · exact if_neg fun start => stop (.path start)
  · exact if_neg fun more => stop (.char more)

theorem char_no_path (more : isNameChar c) (cs : List Char) :
    ∀ d after, c = ':' → cs = ':' :: d :: after → False := by
  intro d after colon _
  subst colon
  cases more

theorem readName_append (name : IsNameTail tail) (stop : ¬ Extends rest) :
    readName done (tail ++ rest) = (done.reverse ++ tail, rest) := by
  induction name generalizing done with
  | done => simpa using readName_stop stop
  | @char c _ more _ ih =>
      have plain := char_no_path more
      have word : isNameChar c := more
      rw [List.cons_append, readName.eq_3 _ _ _ (plain _), if_pos word, ih]
      simp
  | @path c _ start _ ih =>
      have begins : isNameStart c := start
      simp [readName, begins, ih]

theorem readName_parts (done cs : List Char) : ∃ tail rest, cs = tail ++ rest ∧ IsNameTail tail ∧
    ¬ Extends rest ∧ readName done cs = (done.reverse ++ tail, rest) := by
  fun_induction readName done cs with
  | case1 =>
      refine ⟨[], [], rfl, .done, ?_, by simp⟩
      intro goes
      cases goes
  | case2 done c rest start ih =>
      obtain ⟨tail, rest, rfl, name, stop, equal⟩ := ih
      exact ⟨_, rest, rfl, .path start name, stop, by simp [equal]⟩
  | case3 done c rest start =>
      refine ⟨[], _, rfl, .done, ?_, by simp⟩
      intro goes
      cases goes with
      | char more => cases more
      | path more => exact start more
  | case4 done c rest path more ih =>
      obtain ⟨tail, rest, rfl, name, stop, equal⟩ := ih
      exact ⟨_, rest, rfl, .char more name, stop, by simp [equal]⟩
  | case5 done c rest path less =>
      refine ⟨[], _, rfl, .done, ?_, by simp⟩
      intro goes
      cases goes with
      | char more => exact less more
      | path => exact path _ _ rfl rfl

-- Letters are no digits, and neither is any of the characters that begin other tokens.
theorem start_no_digit (start : isNameStart c) : c.isDigit = false := by
  by_cases underscore : c = '_'
  · subst underscore
    rfl
  · unfold isNameStart Char.isAlpha Char.isUpper Char.isLower at start
    unfold Char.isDigit
    grind

theorem read_name (start : isNameStart c) : read c cs = .ok (readWord c cs) := by
  have apart : c ≠ '\n' ∧ c ≠ '=' ∧ c ≠ ':' ∧ c ≠ '"' ∧ c ≠ '\'' ∧ c ≠ '-' := by
    refine ⟨?_, ?_, ?_, ?_, ?_, ?_⟩ <;> rintro rfl <;> cases start
  simp [read, apart, start_no_digit start, start]

theorem read_digit (digit : c.isDigit) : read c cs = readNumber false (c :: cs) := by
  have apart : c ≠ '\n' ∧ c ≠ '=' ∧ c ≠ ':' ∧ c ≠ '"' ∧ c ≠ '\'' ∧ c ≠ '-' := by
    refine ⟨?_, ?_, ?_, ?_, ?_, ?_⟩ <;> rintro rfl <;> cases digit
  simp [read, apart, digit]

theorem read_quote (quote : IsQuote c) : read c cs =
    match readQuoted c [] 0 cs with
    | some (content, lines, rest) => .ok ⟨.str (String.ofList content), lines, rest⟩
    | none => .error (.unterminatedString c) := by
  rcases quote with rfl | rfl <;> rfl

theorem readWord_append (name : IsNameTail tail) (behind : Behind (.ident word) rest) :
    readWord c (tail ++ rest) = ⟨.ident (String.ofList (c :: tail)), 0, rest⟩ := by
  unfold readWord
  rw [readName_append name behind.1]
  dsimp only
  split
  · rfl
  · rename_i after path
    exact absurd (.colon (by
      intro head
      obtain ⟨more, rfl⟩ := List.head?_eq_some_iff.mp head
      exact path _ rfl)) behind.2
  · rfl

theorem readWord_label (name : IsNameTail tail) (apart : rest.head? ≠ some ':') :
    readWord c (tail ++ ':' :: rest) = ⟨.label (String.ofList (c :: tail)), 0, rest⟩ := by
  have stop : ¬ Extends (':' :: rest) := by
    intro goes
    cases goes with
    | char more => cases more
    | path => exact apart rfl
  unfold readWord
  rw [readName_append name stop]
  dsimp only
  split
  · rename_i same
    cases same
    exact absurd rfl apart
  · rename_i same
    cases same
    rfl
  · rename_i label
    exact absurd rfl (label _)

theorem readWord_parts (start : isNameStart c) (cs : List Char) : ∃ tail, cs = tail ++ (readWord c cs).rest ∧
    Denotes (c :: tail) (readWord c cs).token ∧ Behind (readWord c cs).token (readWord c cs).rest := by
  obtain ⟨tail, rest, rfl, name, stop, equal⟩ := readName_parts [c] cs
  by_cases labels : Labels rest
  · cases labels with
    | colon apart =>
        rename_i rest
        rw [readWord_label name apart]
        exact ⟨tail ++ [':'], by simp, .label (.start start name), apart⟩
  · have behind : Behind (.ident "") rest := ⟨stop, labels⟩
    rw [readWord_append name behind]
    exact ⟨tail, rfl, .ident (.start start name), behind⟩

theorem readQuoted_append (other : quote ≠ '\\') (quoted : IsQuoted quote body content)
    (done : List Char) (lines : Nat) (rest : List Char) :
    ∃ counted, readQuoted quote done lines (body ++ quote :: rest) =
        some (done.reverse ++ content, lines + counted, rest) ∧
      counted + escapedLineEnds (.quoted quote) body = body.count '\n' ∧
      Region.after (.quoted quote) body = .quoted quote := by
  induction quoted generalizing done lines with
  | done =>
      refine ⟨0, ?_, rfl, rfl⟩
      rw [readQuoted.eq_def]
      simp
  | @escape c d body content escapes _ ih =>
      obtain ⟨counted, equal, total, region⟩ := ih (d :: done) lines
      have behind : Region.next (.quoted quote) '\\' = .escape quote := by simp [Region.next, other.symm]
      refine ⟨counted, ?_, ?_, ?_⟩
      · rw [readQuoted.eq_def]
        simp [other.symm, escapes_iff.mp escapes, equal]
      · simp only [escapedLineEnds, behind]
        by_cases lineEnd : c = '\n' <;> simp [Region.escapes, Region.next, lineEnd] <;> omega
      · show Region.after ((Region.next (.quoted quote) '\\').next c) body = _
        rw [behind]
        exact region
  | @char c body content apart plain _ ih =>
      obtain ⟨counted, equal, total, region⟩ := ih (c :: done) (if c = '\n' then lines + 1 else lines)
      have inside : Region.next (.quoted quote) c = .quoted quote := by simp [Region.next, apart, plain]
      refine ⟨(if c = '\n' then 1 else 0) + counted, ?_, ?_, ?_⟩
      · rw [readQuoted.eq_def]
        simp only [List.cons_append, apart, plain, if_false, equal]
        by_cases lineEnd : c = '\n' <;> simp [lineEnd]
        omega
      · simp only [escapedLineEnds, inside]
        by_cases lineEnd : c = '\n' <;> simp [Region.escapes, lineEnd] <;> omega
      · show Region.after (Region.next (.quoted quote) c) body = _
        rw [inside]
        exact region

theorem readQuoted_parts (equal : readQuoted quote done lines cs = some (content, counted, rest)) :
    ∃ body inner, cs = body ++ quote :: rest ∧ IsQuoted quote body inner ∧
      content = done.reverse ++ inner := by
  fun_induction readQuoted quote done lines cs with
  | case1 => cases equal
  | case2 =>
      cases equal
      exact ⟨[], [], rfl, .done, by simp⟩
  | case3 => cases equal
  | case4 done lines escaped rest _ ih =>
      obtain ⟨body, inner, rfl, quoted, rfl⟩ := ih equal
      exact ⟨_, _, rfl, .escape (escapes_iff.mpr rfl) quoted, by simp⟩
  | case5 done lines c after other plain ih =>
      obtain ⟨body, inner, rfl, quoted, rfl⟩ := ih equal
      exact ⟨_, _, rfl, .char other plain quoted, by simp⟩

theorem noDigit_takeWhile (stop : NoDigit rest) :
    rest.takeWhile Char.isDigit = [] ∧ rest.dropWhile Char.isDigit = rest := by
  cases rest with
  | nil => exact ⟨rfl, rfl⟩
  | cons c rest =>
      have first : c.isDigit = false := stop c rfl
      simp [first]

theorem digits_append {digits : List Char} (all : ∀ c ∈ digits, c.isDigit) (stop : NoDigit rest) :
    (digits ++ rest).takeWhile Char.isDigit = digits ∧ (digits ++ rest).dropWhile Char.isDigit = rest := by
  obtain ⟨taken, left⟩ := noDigit_takeWhile stop
  rw [List.takeWhile_append_of_pos all, List.dropWhile_append_of_pos all, taken, left]
  exact ⟨List.append_nil _, rfl⟩

theorem digits_parts (cs : List Char) :
    (∀ c ∈ cs.takeWhile Char.isDigit, c.isDigit) ∧ NoDigit (cs.dropWhile Char.isDigit) := by
  refine ⟨List.all_eq_true.mp List.all_takeWhile, ?_⟩
  intro c first
  have stops := List.head?_dropWhile_not Char.isDigit cs
  rw [Option.mem_def.mp first] at stops
  exact stops

theorem fraction_append (fraction : IsDigits digits) (stop : NoDigit rest) :
    fraction? ('.' :: (digits ++ rest)) = some (digits, rest) := by
  cases digits with
  | nil => exact absurd rfl fraction.some
  | cons d ds =>
      have first := fraction.all d List.mem_cons_self
      obtain ⟨taken, left⟩ := digits_append (fun c member => fraction.all c (List.mem_cons_of_mem _ member)) stop
      simp [fraction?, first, taken, left]

theorem fraction_parts (found : fraction? cs = some (digits, rest)) :
    cs = '.' :: (digits ++ rest) ∧ IsDigits digits ∧ NoDigit rest := by
  unfold fraction? at found
  split at found
  · split at found
    · rename_i c after digit
      cases found
      obtain ⟨all, stop⟩ := digits_parts after
      refine ⟨by simp, ⟨?_, nofun⟩, stop⟩
      intro d member
      rcases List.mem_cons.mp member with rfl | member
      · exact digit
      · exact all d member
    · cases found
  · cases found

theorem fraction_none : fraction? rest = none ↔ ∀ after, rest = '.' :: after → NoDigit after := by
  unfold fraction?
  split
  · rename_i c after
    by_cases digit : c.isDigit <;> simp [digit, NoDigit]
  · rename_i apart
    refine iff_of_true rfl ?_
    rintro after rfl c first
    obtain ⟨rest, rfl⟩ := List.head?_eq_some_iff.mp first
    exact absurd rfl (apart _ _)

theorem readNumber_int (whole : IsDigits digits) (token : intToken negative digits = .ok (.int i))
    (behind : Behind (.int i) rest) : readNumber negative (digits ++ rest) = .ok ⟨.int i, 0, rest⟩ := by
  obtain ⟨taken, left⟩ := digits_append whole.all behind.1
  unfold readNumber
  simp only [taken, left, fraction_none.mpr behind.2, token]
  rfl

theorem readNumber_float (whole : IsDigits digits) (fraction : IsDigits decimals) (behind : NoDigit rest) :
    readNumber negative (digits ++ '.' :: (decimals ++ rest)) =
      .ok ⟨floatToken negative digits decimals, 0, rest⟩ := by
  have point : NoDigit ('.' :: (decimals ++ rest)) := by
    rintro c first
    cases first
    rfl
  obtain ⟨taken, left⟩ := digits_append whole.all point
  unfold readNumber
  simp only [taken, left, fraction_append fraction behind]

theorem readNumber_parts (digit : c.isDigit) (equal : readNumber negative (c :: cs) = .ok lexeme) :
    ∃ tail, cs = tail ++ lexeme.rest ∧ Denotes (sign negative ++ c :: tail) lexeme.token ∧
      Behind lexeme.token lexeme.rest := by
  obtain ⟨all, stop⟩ := digits_parts cs
  have whole : IsDigits (c :: cs.takeWhile Char.isDigit) := by
    refine ⟨?_, nofun⟩
    intro d member
    rcases List.mem_cons.mp member with rfl | member
    · exact digit
    · exact all d member
  have together : cs = cs.takeWhile Char.isDigit ++ cs.dropWhile Char.isDigit :=
    List.takeWhile_append_dropWhile.symm
  unfold readNumber at equal
  simp only [List.takeWhile_cons, List.dropWhile_cons, digit, if_true] at equal
  split at equal
  · rename_i fraction after found
    cases equal
    obtain ⟨point, decimals, behind⟩ := fraction_parts found
    refine ⟨cs.takeWhile Char.isDigit ++ '.' :: fraction, ?_, .float whole decimals, behind⟩
    rw [point] at together
    simpa using together
  · rename_i none
    cases token : intToken negative (c :: cs.takeWhile Char.isDigit) with
    | error => simp [token, Except.map] at equal
    | ok t =>
        simp only [token, Except.map, Except.ok.injEq] at equal
        subst equal
        obtain ⟨i, rfl, value⟩ := intToken_iff.mp token
        exact ⟨_, together, .int whole value, stop, fraction_none.mp none⟩

-- Characters of the code that end no line. Every token but a line end and a quoted text has no other.
abbrev Plain (c : Char) : Prop := c ≠ '\n' ∧ c ≠ '#' ∧ c ≠ '"' ∧ c ≠ '\''

theorem plain_name (name : isNameChar c) : Plain c := by
  refine ⟨?_, ?_, ?_, ?_⟩ <;> rintro rfl <;> cases name

theorem plain_start (start : isNameStart c) : Plain c := by
  refine ⟨?_, ?_, ?_, ?_⟩ <;> rintro rfl <;> cases start

theorem plain_digit (digit : c.isDigit) : Plain c := by
  refine ⟨?_, ?_, ?_, ?_⟩ <;> rintro rfl <;> cases digit

theorem plain_lines {word : List Char} (plain : ∀ c ∈ word, Plain c) :
    0 + escapedLineEnds .code word = word.count '\n' ∧ Region.after .code word = .code := by
  induction word with
  | nil => exact ⟨rfl, rfl⟩
  | cons c word ih =>
      obtain ⟨⟨lineEnd, comment, double, single⟩, others⟩ := List.forall_mem_cons.mp plain
      obtain ⟨total, region⟩ := ih others
      have inside : Region.next .code c = .code := by simp [Region.next, comment, double, single]
      constructor
      · rw [escapedLineEnds, inside, List.count_cons_of_ne lineEnd, ← total]
        simp [Region.escapes]
      · show Region.after (Region.next .code c) word = _
        rw [inside, region]

theorem plain_tail (name : IsNameTail cs) : ∀ c ∈ cs, Plain c := by
  induction name with
  | done => exact nofun
  | char more _ ih => exact List.forall_mem_cons.mpr ⟨plain_name more, ih⟩
  | path start _ ih =>
      have colon : Plain ':' := by decide
      simp only [List.forall_mem_cons]
      exact ⟨colon, colon, plain_start start, ih⟩

theorem plain_word (name : IsName word) : ∀ c ∈ word, Plain c := by
  cases name with
  | start start tail => exact List.forall_mem_cons.mpr ⟨plain_start start, plain_tail tail⟩

theorem plain_sign (negative : Bool) : ∀ c ∈ sign negative, Plain c := by
  cases negative <;> simp [sign, Plain]

theorem plain_digits (whole : IsDigits digits) : ∀ c ∈ digits, Plain c :=
  fun c member => plain_digit (whole.all c member)

theorem read_signed (whole : IsDigits digits) (negative : Bool) (more : List Char) :
    ∃ c tail, sign negative ++ (digits ++ more) = c :: tail ∧
      ∀ rest, read c (tail ++ rest) = readNumber negative (digits ++ (more ++ rest)) := by
  obtain ⟨c, cs, rfl⟩ := List.exists_cons_of_ne_nil whole.some
  have digit := whole.all c List.mem_cons_self
  cases negative with
  | false => exact ⟨c, cs ++ more, rfl, fun rest => by simp [read_digit digit]⟩
  | true => exact ⟨'-', c :: (cs ++ more), rfl, fun rest => by simp [read, digit]⟩

theorem denotes_read (denotes : Denotes word token) (behind : Behind token rest) :
    ∃ c tail lines, word = c :: tail ∧ read c (tail ++ rest) = .ok ⟨token, lines, rest⟩ ∧
      lines + escapedLineEnds .code word = word.count '\n' ∧ Region.after .code word = .code := by
  cases denotes with
  | newline => exact ⟨_, [], 1, rfl, rfl, rfl, rfl⟩
  | mark mark => cases mark <;> exact ⟨_, [], 0, rfl, rfl, rfl, rfl⟩
  | arrow => exact ⟨_, ['>'], 0, rfl, rfl, rfl, rfl⟩
  | ident name =>
      have plain := plain_word name
      cases name with
      | start start name =>
          refine ⟨_, _, 0, rfl, ?_, plain_lines plain⟩
          rw [read_name start, readWord_append name behind]
  | label name =>
      have plain : ∀ c ∈ _ ++ [':'], Plain c :=
        List.forall_mem_append.mpr ⟨plain_word name, by simp [Plain]⟩
      cases name with
      | start start name =>
          refine ⟨_, _ ++ [':'], 0, rfl, ?_, plain_lines plain⟩
          rw [List.append_assoc, read_name start]
          exact congrArg Except.ok (readWord_label name behind)
  | symbol name =>
      have plain : ∀ c ∈ ':' :: _, Plain c := List.forall_mem_cons.mpr ⟨by decide, plain_word name⟩
      cases name with
      | @start c _ start name =>
          have begins : isNameStart c := start
          refine ⟨':', _ :: _, 0, rfl, ?_, plain_lines plain⟩
          simp [read, begins, readName_append name behind]
  | @str quote body content isQuote quoted =>
      have other : quote ≠ '\\' := by rcases isQuote with rfl | rfl <;> decide
      have ends : quote ≠ '\n' := by rcases isQuote with rfl | rfl <;> decide
      have opens : Region.next .code quote = .quoted quote := by rcases isQuote with rfl | rfl <;> rfl
      have shuts : Region.next (.quoted quote) quote = .code := if_pos rfl
      obtain ⟨counted, equal, total, region⟩ := readQuoted_append other quoted [] 0 rest
      refine ⟨quote, body ++ [quote], counted, rfl, ?_, ?_, ?_⟩
      · rw [List.append_assoc, List.singleton_append, read_quote isQuote, equal]
        simp
      · rw [escapedLineEnds, opens, escapedLineEnds_append, region]
        simp [escapedLineEnds, Region.escapes, ends, total]
      · show Region.after (Region.next .code quote) (body ++ [quote]) = _
        rw [opens, Region.after_append, region]
        exact shuts
  | @int digits i negative whole value =>
      have plain : ∀ c ∈ sign negative ++ digits, Plain c :=
        List.forall_mem_append.mpr ⟨plain_sign negative, plain_digits whole⟩
      obtain ⟨c, tail, same, equal⟩ := read_signed whole negative []
      rw [List.append_nil] at same
      refine ⟨c, tail, 0, same, ?_, plain_lines plain⟩
      rw [equal, List.nil_append, readNumber_int whole (intToken_iff.mpr ⟨i, rfl, value⟩) behind]
  | @float digits decimals negative whole fraction =>
      have point : ∀ c ∈ '.' :: decimals, Plain c :=
        List.forall_mem_cons.mpr ⟨by decide, plain_digits fraction⟩
      have plain : ∀ c ∈ sign negative ++ (digits ++ '.' :: decimals), Plain c :=
        List.forall_mem_append.mpr ⟨plain_sign negative,
          List.forall_mem_append.mpr ⟨plain_digits whole, point⟩⟩
      obtain ⟨c, tail, same, equal⟩ := read_signed whole negative ('.' :: decimals)
      refine ⟨c, tail, 0, same, ?_, plain_lines plain⟩
      rw [equal, List.cons_append, readNumber_float whole fraction behind]

theorem mark_behind (mark : IsMark c token) (rest : List Char) : Behind token rest := by
  cases mark <;> trivial

theorem read_denotes (equal : read c cs = .ok lexeme) : ∃ tail, cs = tail ++ lexeme.rest ∧
    Denotes (c :: tail) lexeme.token ∧ Behind lexeme.token lexeme.rest := by
  unfold read at equal
  split at equal
  · rename_i same
    subst same
    cases equal
    exact ⟨[], rfl, .newline, trivial⟩
  split at equal
  · rename_i same
    subst same
    split at equal
    · cases equal; exact ⟨['>'], rfl, .arrow, trivial⟩
    · cases equal
  split at equal
  · rename_i same
    subst same
    split at equal
    · cases equal
    · split at equal
      · rename_i first rest start
        obtain ⟨tail, after, rfl, name, stop, read⟩ := readName_parts [first] rest
        rw [read] at equal
        cases equal
        exact ⟨first :: tail, rfl, .symbol (.start start name), stop⟩
      · cases equal
  split at equal
  · rename_i quote
    split at equal
    · rename_i found
      cases equal
      obtain ⟨body, inner, rfl, quoted, rfl⟩ := readQuoted_parts found
      exact ⟨body ++ [c], by simp, .str quote quoted, trivial⟩
    · cases equal
  split at equal
  · rename_i same
    subst same
    split at equal
    · cases equal
    · split at equal
      · rename_i digit
        obtain ⟨tail, rfl, denotes, behind⟩ := readNumber_parts digit equal
        exact ⟨_ :: tail, rfl, denotes, behind⟩
      · cases equal
  split at equal
  · rename_i digit
    obtain ⟨tail, rfl, denotes, behind⟩ := readNumber_parts digit equal
    exact ⟨tail, rfl, denotes, behind⟩
  split at equal
  · rename_i start
    cases equal
    exact readWord_parts start cs
  · split at equal
    · rename_i found
      cases equal
      have mark := mark?_iff.mp found
      exact ⟨[], rfl, .mark mark, mark_behind mark _⟩
    · cases equal

-- A token is read from the characters that denote it, and of its line ends it counts those that
-- are not escaped.
theorem read_iff : read c cs = .ok ⟨token, lines, rest⟩ ↔ ∃ tail, cs = tail ++ rest ∧
    Denotes (c :: tail) token ∧ Behind token rest ∧
      lines + escapedLineEnds .code (c :: tail) = (c :: tail).count '\n' := by
  constructor
  · intro equal
    obtain ⟨tail, rfl, denotes, behind⟩ := read_denotes equal
    obtain ⟨_, _, counted, same, again, total, _⟩ := denotes_read denotes behind
    cases same
    rw [equal] at again
    cases again
    exact ⟨tail, rfl, denotes, behind, total⟩
  · intro parts
    obtain ⟨tail, rfl, denotes, behind, total⟩ := parts
    obtain ⟨_, _, counted, same, equal, again, _⟩ := denotes_read denotes behind
    cases same
    have same : counted = lines := by omega
    rw [equal, same]

end KeywordConfig.Token
