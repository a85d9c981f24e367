import KeywordConfig.Json.Number

namespace KeywordConfig.Json

inductive Lexeme where
  | openArray | closeArray
  | openObject | closeObject
  | comma | colon
  | scalar (json : Json)

def hexDigit? (c : Char) : Option Nat :=
  if c.isDigit then some (c.toNat - '0'.toNat)
  else if 'a' ≤ c ∧ c ≤ 'f' then some (c.toNat - 'a'.toNat + 10)
  else if 'A' ≤ c ∧ c ≤ 'F' then some (c.toNat - 'A'.toNat + 10)
  else none

def hexUnit? (a b c d : Char) : Option Nat :=
  (hexDigit? a).bind fun a => (hexDigit? b).bind fun b =>
    (hexDigit? c).bind fun c => (hexDigit? d).map fun d => 4096 * a + 256 * b + 16 * c + d

def isHighSurrogate (n : Nat) : Bool := 0xd800 ≤ n && n < 0xdc00

def isLowSurrogate (n : Nat) : Bool := 0xdc00 ≤ n && n < 0xe000

def unescape? (c : Char) : Option Char :=
  if c = '"' ∨ c = '\\' ∨ c = '/' then some c
  else if c = 'b' then some '\x08'
  else if c = 'f' then some '\x0c'
  else if c = 'n' then some '\n'
  else if c = 'r' then some '\r'
  else if c = 't' then some '\t'
  else none

def readString (done : List Char) : List Char → Option (List Char × List Char)
  | [] => none
  | '"' :: rest => some (done.reverse, rest)
  | '\\' :: 'u' :: a :: b :: c :: d :: rest =>
      match hexUnit? a b c d with
      | none => none
      | some unit =>
          if isHighSurrogate unit then
            match rest with
            | '\\' :: 'u' :: a :: b :: c :: d :: rest =>
                match hexUnit? a b c d with
                | none => none
                | some low =>
                    if isLowSurrogate low then
                      let code := 0x10000 + 1024 * (unit - 0xd800) + (low - 0xdc00)
                      readString (Char.ofNat code :: done) rest
                    else none
            | _ => none
          else if isLowSurrogate unit then none
          else readString (Char.ofNat unit :: done) rest
  | '\\' :: c :: rest =>
      match unescape? c with
      | some escaped => readString (escaped :: done) rest
      | none => none
  | c :: rest => if c.toNat < 0x20 then none else readString (c :: done) rest

def isSpace (c : Char) : Bool := c = ' ' || c = '\t' || c = '\n' || c = '\r'

def word? (cs : List Char) : Option Json :=
  if cs = "null".toList then some .null
  else if cs = "true".toList then some (.bool true)
  else if cs = "false".toList then some (.bool false)
  else none

def readLexeme (c : Char) (cs : List Char) : Option (Lexeme × List Char) :=
  match c with
  | '[' => some (.openArray, cs)
  | ']' => some (.closeArray, cs)
  | '\x7b' => some (.openObject, cs)
  | '\x7d' => some (.closeObject, cs)
  | ',' => some (.comma, cs)
  | ':' => some (.colon, cs)
  | '"' => (readString [] cs).map fun (text, rest) => (.scalar (.str (String.ofList text)), rest)
  | '-' => (readNumber true cs).map fun (json, rest) => (.scalar json, rest)
  | _ =>
      if c.isDigit then
        (readNumber false (c :: cs)).map fun (json, rest) => (.scalar json, rest)
      else
        (word? (c :: cs.takeWhile Char.isAlpha)).map fun json =>
          (.scalar json, cs.dropWhile Char.isAlpha)

theorem readString_suffix {text rest : List Char} (equal : readString done cs = some (text, rest)) :
    rest <:+ cs := by
  fun_induction readString done cs with
  | case1 | case3 | case4 | case6 | case7 | case8 | case11 | case12 => cases equal
  | case2 => cases equal; exact List.suffix_cons _ _
  | case5 => rename_i ih; exact (ih equal).trans ⟨[_, _, _, _, _, _, _, _, _, _, _, _], rfl⟩
  | case9 => rename_i ih; exact (ih equal).trans ⟨[_, _, _, _, _, _], rfl⟩
  | case10 => rename_i ih; exact (ih equal).trans ⟨[_, _], rfl⟩
  | case13 => rename_i ih; exact (ih equal).trans (List.suffix_cons _ _)

theorem readLexeme_suffix {rest : List Char} (equal : readLexeme c cs = some (lexeme, rest)) :
    rest <:+ cs := by
  have digits : cs.dropWhile Char.isDigit <:+ cs := List.dropWhile_suffix _
  unfold readLexeme at equal
  split at equal
  · cases equal; exact List.suffix_rfl
  · cases equal; exact List.suffix_rfl
  · cases equal; exact List.suffix_rfl
  · cases equal; exact List.suffix_rfl
  · cases equal; exact List.suffix_rfl
  · cases equal; exact List.suffix_rfl
  · obtain ⟨⟨_, _⟩, found, same⟩ := Option.map_eq_some_iff.mp equal
    cases same
    exact readString_suffix found
  · obtain ⟨⟨_, _⟩, found, same⟩ := Option.map_eq_some_iff.mp equal
    cases same
    exact (readNumber_suffix found).trans digits
  · split at equal
    · rename_i digit
      obtain ⟨⟨_, _⟩, found, same⟩ := Option.map_eq_some_iff.mp equal
      cases same
      have behind := readNumber_suffix found
      rw [List.dropWhile_cons, if_pos digit] at behind
      exact behind.trans digits
    · obtain ⟨_, _, same⟩ := Option.map_eq_some_iff.mp equal
      cases same
      exact List.dropWhile_suffix _

theorem rest_shorter {cs rest after : List Char} (space : cs.dropWhile isSpace = c :: rest)
    (lexeme : readLexeme c rest = some (first, after)) : after.length < cs.length := by
  have bound : (cs.dropWhile isSpace).length ≤ cs.length := (List.dropWhile_suffix _).length_le
  have shorter := (readLexeme_suffix lexeme).length_le
  rw [space, List.length_cons] at bound
  omega

def lexemesFrom (done : List Lexeme) (cs : List Char) : Option (List Lexeme) :=
  match _space : cs.dropWhile isSpace with
  | [] => some done.reverse
  | c :: rest =>
      match _lexeme : readLexeme c rest with
      | none => none
      | some (lexeme, rest) => lexemesFrom (lexeme :: done) rest
termination_by cs.length
decreasing_by exact rest_shorter _space _lexeme

def lexemes (text : String) : Option (List Lexeme) := lexemesFrom [] text.toList

theorem lexemesFrom_done (done : List Lexeme) (cs : List Char) :
    lexemesFrom done cs = (lexemesFrom [] cs).map (done.reverse ++ ·) := by
  rw [lexemesFrom.eq_def done, lexemesFrom.eq_def []]
  split
  · simp
  · rename_i space
    split
    · simp
    · rename_i lexeme
      have shorter := rest_shorter space lexeme
      rw [lexemesFrom_done (_ :: done), lexemesFrom_done [_]]
      simp [Function.comp_def]
termination_by cs.length

inductive Around where
  | top
  | array (items : List Json) (around : Around)
  | object (members : List (String × Json)) (name : String) (around : Around)

def Around.depth : Around → Nat
  | .top => 0
  | .array _ around => around.depth + 1
  | .object _ _ around => around.depth + 1

inductive Spot where
  | value (around : Around)
  | firstItem (around : Around)
  | afterItem (items : List Json) (around : Around)
  | firstName (around : Around)
  | name (members : List (String × Json)) (around : Around)
  | colon (members : List (String × Json)) (name : String) (around : Around)
  | afterMember (members : List (String × Json)) (around : Around)
  | finished (json : Json)

def put (json : Json) : Around → Spot
  | .top => .finished json
  | .array items around => .afterItem (json :: items) around
  | .object members name around => .afterMember ((name, json) :: members) around

-- Opens an array or object, unless `limit` of them are open.
def enter (limit : Option Nat) (around : Around) (spot : Spot) : Option Spot :=
  if limit.any (· ≤ around.depth) then none else some spot

def readValue (limit : Option Nat) (around : Around) : Lexeme → Option Spot
  | .scalar json => some (put json around)
  | .openArray => enter limit around (.firstItem around)
  | .openObject => enter limit around (.firstName around)
  | _ => none

def readName (members : List (String × Json)) (around : Around) : Lexeme → Option Spot
  | .scalar (.str name) => some (.colon members name around)
  | _ => none

def step (limit : Option Nat) (spot : Spot) (lexeme : Lexeme) : Option Spot :=
  match spot with
  | .value around => readValue limit around lexeme
  | .firstItem around =>
      match lexeme with
      | .closeArray => some (put (.array []) around)
      | _ => readValue limit (.array [] around) lexeme
  | .afterItem items around =>
      match lexeme with
      | .comma => some (.value (.array items around))
      | .closeArray => some (put (.array items.reverse) around)
      | _ => none
  | .firstName around =>
      match lexeme with
      | .closeObject => some (put (.object []) around)
      | _ => readName [] around lexeme
  | .name members around => readName members around lexeme
  | .colon members name around =>
      match lexeme with
      | .colon => some (.value (.object members name around))
      | _ => none
  | .afterMember members around =>
      match lexeme with
      | .comma => some (.name members around)
      | .closeObject => some (put (.object members.reverse) around)
      | _ => none
  | .finished _ => none

def build (limit : Option Nat) (spot : Spot) : List Lexeme → Option Json
  | [] =>
      match spot with
      | .finished json => some json
      | _ => none
  | lexeme :: rest => (step limit spot lexeme).bind fun spot => build limit spot rest

def maxNesting : Nat := 127

def parseWithin (limit : Option Nat) (text : String) : Option Json :=
  (lexemes text).bind (build limit (.value .top))

def parse (text : String) : Option Json := parseWithin (some maxNesting) text

end KeywordConfig.Json
