import KeywordConfig.Proofs.JsonNumbers
import KeywordConfig.Document

namespace KeywordConfig
open Token

namespace Value

mutual

def floats : Value → List Float
  | .float x => [x]
  | .list items => itemFloats items
  | .map entries => entryFloats entries
  | _ => []

def itemFloats : List Value → List Float
  | [] => []
  | item :: rest => floats item ++ itemFloats rest

def entryFloats : List (String × Value) → List Float
  | [] => []
  | (_, value) :: rest => floats value ++ entryFloats rest

end

mutual

-- The value with something else in the place of each float.
def carried (carry : Float → Value) : Value → Value
  | .float x => carry x
  | .list items => .list (carriedItems carry items)
  | .map entries => .map (carriedEntries carry entries)
  | value => value

def carriedItems (carry : Float → Value) : List Value → List Value
  | [] => []
  | item :: rest => carried carry item :: carriedItems carry rest

def carriedEntries (carry : Float → Value) : List (String × Value) → List (String × Value)
  | [] => []
  | (key, value) :: rest => (key, carried carry value) :: carriedEntries carry rest

end

end Value

namespace Json
open Value

mutual

def words : Json → List Lexeme
  | .array [] => [.openArray, .closeArray]
  | .array (item :: rest) => .openArray :: (words item ++ (itemWords rest ++ [.closeArray]))
  | .object [] => [.openObject, .closeObject]
  | .object ((name, member) :: rest) =>
      .openObject :: .scalar (.str name) :: .colon :: (words member ++ (memberWords rest ++ [.closeObject]))
  | json => [.scalar json]

def itemWords : List Json → List Lexeme
  | [] => []
  | item :: rest => .comma :: (words item ++ itemWords rest)

def memberWords : List (String × Json) → List Lexeme
  | [] => []
  | (name, member) :: rest => .comma :: .scalar (.str name) :: .colon :: (words member ++ memberWords rest)

end

mutual

def nesting : Json → Nat
  | .array items => itemsNesting items + 1
  | .object members => membersNesting members + 1
  | _ => 0

def itemsNesting : List Json → Nat
  | [] => 0
  | item :: rest => max item.nesting (itemsNesting rest)

def membersNesting : List (String × Json) → Nat
  | [] => 0
  | (_, member) :: rest => max member.nesting (membersNesting rest)

end

def Cuts (cs rest : List Char) (words : List Lexeme) : Prop :=
  lexemesFrom [] (cs ++ rest) = (lexemesFrom [] rest).map (words ++ ·)

theorem Cuts.nil : Cuts [] rest [] := by
  unfold Cuts
  simp

theorem Cuts.append (first : Cuts cs (others ++ rest) front) (second : Cuts others rest back) :
    Cuts (cs ++ others) rest (front ++ back) := by
  unfold Cuts at *
  rw [List.append_assoc, first, second, Option.map_map]
  simp [Function.comp_def]

theorem lexemesFrom_unfold (cs : List Char) :
    lexemesFrom [] cs =
      match cs.dropWhile isSpace with
      | [] => some []
      | c :: rest => (readLexeme c rest).bind fun (lexeme, rest) => (lexemesFrom [] rest).map (lexeme :: ·) := by
  rw [lexemesFrom]
  split <;> rename_i space <;> simp only [space]
  · rfl
  · split <;> rename_i word <;> simp only [word]
    · rfl
    · rw [lexemesFrom_done]
      rfl

theorem Cuts.space (space : isSpace c) : Cuts [c] rest [] := by
  unfold Cuts
  rw [lexemesFrom_unfold, lexemesFrom_unfold rest, List.singleton_append, List.dropWhile_cons, if_pos space]
  simp

theorem Cuts.spaces (spaces : ∀ c ∈ cs, isSpace c) : Cuts cs rest [] := by
  induction cs with
  | nil => exact .nil
  | cons c cs ih =>
      exact (Cuts.space (spaces c List.mem_cons_self)).append
        (ih fun d member => spaces d (List.mem_cons_of_mem _ member))

theorem Cuts.single (visible : isSpace c = false) (equal : readLexeme c (cs ++ rest) = some (lexeme, rest)) :
    Cuts (c :: cs) rest [lexeme] := by
  unfold Cuts
  have space : (c :: (cs ++ rest)).dropWhile isSpace = c :: (cs ++ rest) := by simp [visible]
  rw [List.cons_append, lexemesFrom_unfold, space]
  simp only [equal]
  rfl

theorem Cuts.mark (visible : isSpace c = false) (equal : ∀ rest, readLexeme c rest = some (lexeme, rest)) :
    Cuts [c] rest [lexeme] :=
  .single visible (equal rest)

theorem escape_read (c : Char) (done rest : List Char) :
    readString done (escape c ++ rest) = readString (c :: done) rest := by
  unfold escape
  split
  · rename_i special
    rcases special with rfl | rfl <;> rfl
  split
  · subst c
    rfl
  split
  · subst c
    rfl
  split
  · subst c
    rfl
  split
  · subst c
    rfl
  split
  · subst c
    rfl
  split
  · rename_i control
    have unit : hexUnit? '0' '0' (Nat.digitChar (c.toNat / 16)) (Nat.digitChar (c.toNat % 16)) = some c.toNat := by
      generalize c.toNat = n at control
      revert n
      decide
    have high : isHighSurrogate c.toNat = false := by simp [isHighSurrogate]; omega
    have low : isLowSurrogate c.toNat = false := by simp [isLowSurrogate]; omega
    simp [readString, unit, high, low]
  · rename_i special _ _ _ _ _ plain
    obtain ⟨quote, backslash⟩ := not_or.mp special
    rw [List.singleton_append, readString.eq_def]
    split <;> simp_all

theorem string_read (text done rest : List Char) :
    readString done (text.flatMap escape ++ '"' :: rest) = some (done.reverse ++ text, rest) := by
  induction text generalizing done with
  | nil => simp [readString]
  | cons c cs ih =>
      rw [List.flatMap_cons, List.append_assoc, escape_read, ih]
      simp

theorem string_cuts (s : String) : Cuts (stringChars s) rest [.scalar (.str s)] := by
  have text : stringChars s = '"' :: (s.toList.flatMap escape ++ ['"']) := rfl
  have inside := string_read s.toList [] rest
  rw [text]
  apply Cuts.single rfl
  simp [readLexeme, inside]

theorem readLexeme_plain (plain : c.isAlphanum) (cs : List Char) : isSpace c = false ∧ readLexeme c cs =
    if c.isDigit then (readNumber false (c :: cs)).map fun (json, rest) => (.scalar json, rest)
    else (word? (c :: cs.takeWhile Char.isAlpha)).map fun json => (.scalar json, cs.dropWhile Char.isAlpha) := by
  constructor
  · simp only [isSpace, Bool.or_eq_false_iff, decide_eq_false_iff_not]
    refine ⟨⟨⟨?_, ?_⟩, ?_⟩, ?_⟩ <;> (rintro rfl; cases plain)
  · unfold readLexeme
    split
    iterate 8 cases plain
    rfl

theorem word_cuts {word : List Char} (all : ∀ d ∈ c :: word, d.isAlpha) (stops : Stops rest)
    (found : word? (c :: word) = some json) : Cuts (c :: word) rest [.scalar json] := by
  obtain ⟨first, others⟩ := List.forall_mem_cons.mp all
  have noDigit : c.isDigit = false := start_no_digit (by simp [isNameStart, first])
  have last : rest.takeWhile Char.isAlpha = [] ∧ rest.dropWhile Char.isAlpha = rest := by
    cases rest with
    | nil => exact ⟨rfl, rfl⟩
    | cons d rest =>
        have other := (stops d rfl).1
        simp [Char.isAlphanum] at other
        simp [other]
  obtain ⟨visible, reads⟩ := readLexeme_plain (c := c) (by simp [Char.isAlphanum, first]) (word ++ rest)
  refine .single visible ?_
  rw [reads, noDigit, List.takeWhile_append_of_pos others, List.dropWhile_append_of_pos others, last.1, last.2,
    List.append_nil, found]
  rfl

theorem parts_lexemes (parts : Parts cs whole fraction exponent) (negative : Bool) (stops : Stops rest) :
    lexemesFrom [] (sign negative ++ cs ++ rest) =
      (number negative whole fraction exponent).bind fun json => (lexemesFrom [] rest).map (.scalar json :: ·) := by
  have numbers := readNumber_parts parts negative stops
  rw [lexemesFrom_unfold]
  cases negative with
  | true =>
      have read : readLexeme '-' (cs ++ rest) =
          (number true whole fraction exponent).map fun json => (.scalar json, rest) := by
        simp only [readLexeme, numbers, Option.map_map]
        rfl
      have space : (sign true ++ cs ++ rest).dropWhile isSpace = '-' :: (cs ++ rest) := rfl
      simp only [space, read, Option.bind_map]
      rfl
  | false =>
      obtain ⟨c, tail, rfl, digit⟩ : ∃ c tail, cs = c :: tail ∧ c.isDigit := by
        cases parts with
        | parts digits =>
            obtain ⟨c, tail, rfl⟩ := List.exists_cons_of_ne_nil digits.some
            exact ⟨c, _, rfl, digits.all c List.mem_cons_self⟩
      obtain ⟨visible, reads⟩ := readLexeme_plain (c := c) (by simp [Char.isAlphanum, digit]) (tail ++ rest)
      have space : (sign false ++ (c :: tail) ++ rest).dropWhile isSpace = c :: (tail ++ rest) := by
        rw [show sign false ++ (c :: tail) ++ rest = c :: (tail ++ rest) from rfl, List.dropWhile_cons, visible]
        rfl
      rw [if_pos digit, ← List.cons_append, numbers] at reads
      simp only [space, reads, Option.map_map, Option.bind_map]
      rfl

theorem number_lexemes (n : Number) (negative : Bool) (stops : Stops rest) :
    lexemesFrom [] (sign negative ++ n.chars ++ rest) =
      (n.json negative).bind fun json => (lexemesFrom [] rest).map (.scalar json :: ·) :=
  parts_lexemes n.parts negative stops

theorem parts_cuts (parts : Parts cs whole fraction exponent) (stops : Stops rest)
    (found : number negative whole fraction exponent = some json) : Cuts (sign negative ++ cs) rest [.scalar json] := by
  unfold Cuts
  rw [parts_lexemes parts negative stops, found]
  rfl

theorem number_cuts (n : Number) (negative : Bool) (stops : Stops rest) (found : n.json negative = some json) :
    Cuts (sign negative ++ n.chars) rest [.scalar json] :=
  parts_cuts n.parts stops found

theorem parse_number (n : Number) (negative : Bool) (limit : Option Nat) :
    parseWithin limit (String.ofList (sign negative ++ n.chars)) = n.json negative := by
  have cut := number_lexemes n negative (nofun : Stops [])
  rw [List.append_nil, lexemesFrom_unfold []] at cut
  unfold parseWithin lexemes
  rw [String.toList_ofList, cut]
  cases n.json negative <;> rfl

-- The text of a float is read as `carry` says, whatever stands behind it.
def Carries (carry : Float → Value) (x : Float) : Prop :=
  ∀ rest, Stops rest → Cuts (floatChars x) rest (words (ofValue (carry x)))

theorem stops_mark (mark : c.isAlphanum = false ∧ c ≠ '.') : Stops (c :: rest) := by
  rintro d ⟨⟩
  exact mark

theorem stops_break (style : Style) (depth : Nat) (stops : Stops rest) : Stops (style.break depth ++ rest) := by
  cases style with
  | compact => exact stops
  | pretty => exact stops_mark (by decide)

theorem stops_items (style : Style) (depth : Nat) (items : List Json) (stops : Stops rest) :
    Stops (moreItems style depth items ++ rest) := by
  cases items with
  | nil => exact stops
  | cons => exact stops_mark (by decide)

theorem stops_members (style : Style) (depth : Nat) (members : List (String × Json)) (stops : Stops rest) :
    Stops (moreMembers style depth members ++ rest) := by
  cases members with
  | nil => exact stops
  | cons => exact stops_mark (by decide)

theorem break_cuts (style : Style) (depth : Nat) : Cuts (style.break depth) rest [] := by
  cases style with
  | compact => exact .nil
  | pretty =>
      refine .spaces ?_
      intro c member
      rcases List.mem_cons.mp member with rfl | blank
      · rfl
      · rw [List.eq_of_mem_replicate blank]
        rfl

theorem colon_cuts (style : Style) : Cuts style.colon rest [.colon] := by
  cases style with
  | compact => exact .mark rfl fun _ => rfl
  | pretty => exact (Cuts.mark rfl fun _ => rfl).append (.space rfl)

theorem int_cuts (i : Int64) (stops : Stops rest) : Cuts (toString i.toInt).toList rest [.scalar (.int i)] := by
  obtain ⟨n, text, found⟩ := int_number i
  rw [text]
  exact number_cuts n _ stops found

mutual

theorem chars_cuts (style : Style) (depth : Nat) : (v : Value) → (∀ x ∈ v.floats, Carries carry x) → Stops rest →
    Cuts (chars style depth (ofValue v)) rest (words (ofValue (v.carried carry)))
  | .null, _, stops => word_cuts (List.all_eq_true.mp rfl) stops rfl
  | .bool true, _, stops => word_cuts (List.all_eq_true.mp rfl) stops rfl
  | .bool false, _, stops => word_cuts (List.all_eq_true.mp rfl) stops rfl
  | .int i, _, stops => int_cuts i stops
  | .float x, carries, stops => carries x List.mem_cons_self _ stops
  | .str s, _, _ => string_cuts s
  | .list [], _, _ => (Cuts.mark rfl fun _ => rfl).append (.mark rfl fun _ => rfl)
  | .list (item :: items), carries, stops => by
      obtain ⟨first, others⟩ := List.forall_mem_append.mp carries
      have close : Stops (style.break depth ++ ([']'] ++ rest)) := stops_break style depth (stops_mark (by decide))
      have text : chars style depth (ofValue (.list (item :: items))) =
          ['['] ++ (style.break (depth + 1) ++ (chars style (depth + 1) (ofValue item) ++
            (moreItems style (depth + 1) (ofValues items) ++ (style.break depth ++ [']'])))) := by
        simp [ofValue, ofValues, chars]
      rw [text]
      apply Cuts.append (.mark rfl fun _ => rfl)
      apply Cuts.append (break_cuts style _)
      apply Cuts.append (chars_cuts style _ item first ?_)
      · apply Cuts.append (items_cuts style _ items others ?_)
        · apply Cuts.append (break_cuts style _)
          exact .mark rfl fun _ => rfl
        · rwa [List.append_assoc]
      · rw [List.append_assoc, List.append_assoc]
        exact stops_items style _ _ close
  | .map [], _, _ => (Cuts.mark rfl fun _ => rfl).append (.mark rfl fun _ => rfl)
  | .map ((key, value) :: entries), carries, _ => by
      obtain ⟨first, others⟩ := List.forall_mem_append.mp carries
      have close : Stops (style.break depth ++ (['\x7d'] ++ rest)) := stops_break style depth (stops_mark (by decide))
      have text : chars style depth (ofValue (.map ((key, value) :: entries))) =
          ['\x7b'] ++ (style.break (depth + 1) ++ (stringChars key ++ (style.colon ++
            (chars style (depth + 1) (ofValue value) ++ (moreMembers style (depth + 1) (ofEntries entries) ++
              (style.break depth ++ ['\x7d'])))))) := by
        simp [ofValue, ofEntries, chars]
      rw [text]
      apply Cuts.append (.mark rfl fun _ => rfl)
      apply Cuts.append (break_cuts style _)
      apply Cuts.append (string_cuts key)
      apply Cuts.append (colon_cuts style)
      apply Cuts.append (chars_cuts style _ value first ?_)
      · apply Cuts.append (members_cuts style _ entries others ?_)
        · apply Cuts.append (break_cuts style _)
          exact .mark rfl fun _ => rfl
        · rwa [List.append_assoc]
      · rw [List.append_assoc, List.append_assoc]
        exact stops_members style _ _ close

theorem items_cuts (style : Style) (depth : Nat) : (items : List Value) → (∀ x ∈ itemFloats items, Carries carry x) →
    Stops rest → Cuts (moreItems style depth (ofValues items)) rest (itemWords (ofValues (carriedItems carry items)))
  | [], _, _ => .nil
  | item :: items, carries, stops => by
      obtain ⟨first, others⟩ := List.forall_mem_append.mp carries
      have text : moreItems style depth (ofValues (item :: items)) =
          [','] ++ (style.break depth ++ (chars style depth (ofValue item) ++ moreItems style depth (ofValues items))) := by
        simp [ofValues, moreItems]
      rw [text]
      apply Cuts.append (.mark rfl fun _ => rfl)
      apply Cuts.append (break_cuts style _)
      apply Cuts.append (chars_cuts style _ item first ?_)
      · exact items_cuts style _ items others stops
      · exact stops_items style _ _ stops

theorem members_cuts (style : Style) (depth : Nat) : (entries : List (String × Value)) →
    (∀ x ∈ entryFloats entries, Carries carry x) → Stops rest →
    Cuts (moreMembers style depth (ofEntries entries)) rest (memberWords (ofEntries (carriedEntries carry entries)))
  | [], _, _ => .nil
  | (key, value) :: entries, carries, stops => by
      obtain ⟨first, others⟩ := List.forall_mem_append.mp carries
      have text : moreMembers style depth (ofEntries ((key, value) :: entries)) =
          [','] ++ (style.break depth ++ (stringChars key ++ (style.colon ++ (chars style depth (ofValue value) ++
            moreMembers style depth (ofEntries entries))))) := by
        simp [ofEntries, moreMembers]
      rw [text]
      apply Cuts.append (.mark rfl fun _ => rfl)
      apply Cuts.append (break_cuts style _)
      apply Cuts.append (string_cuts key)
      apply Cuts.append (colon_cuts style)
      apply Cuts.append (chars_cuts style _ value first ?_)
      · exact members_cuts style _ entries others stops
      · exact stops_members style _ _ stops

end

end Json

end KeywordConfig
