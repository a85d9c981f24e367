import KeywordConfig.Proofs.JsonRange
import KeywordConfig.Proofs.JsonTrees

namespace KeywordConfig
open Token (sign)

namespace Json

-- A character behind a backslash and the one that the two stand for.
inductive Escapes : Char → Char → Prop where
  | quote : Escapes '"' '"'
  | backslash : Escapes '\\' '\\'
  | slash : Escapes '/' '/'
  | backspace : Escapes 'b' '\x08'
  | formFeed : Escapes 'f' '\x0c'
  | lineEnd : Escapes 'n' '\n'
  | carriageReturn : Escapes 'r' '\r'
  | tab : Escapes 't' '\t'

theorem escapes_iff : Escapes c d ↔ unescape? c = some d := by
  constructor
  · intro escapes
    cases escapes <;> rfl
  · intro found
    unfold unescape? at found
    split at found
    · rename_i itself
      cases found
      rcases itself with rfl | rfl | rfl
      · exact .quote
      · exact .backslash
      · exact .slash
    repeat
      split at found
      · subst c
        cases found
        constructor
    cases found

inductive Quotes : List Char → List Char → Prop where
  | nil : Quotes [] []
  | plain : c ≠ '"' → c ≠ '\\' → 0x20 ≤ c.toNat → Quotes cs text → Quotes (c :: cs) (c :: text)
  | escape : Escapes c d → Quotes cs text → Quotes ('\\' :: c :: cs) (d :: text)
  | unit : hexUnit? a b c d = some n → isHighSurrogate n = false → isLowSurrogate n = false → Quotes cs text →
      Quotes ('\\' :: 'u' :: a :: b :: c :: d :: cs) (Char.ofNat n :: text)
  | pair : hexUnit? a b c d = some high → isHighSurrogate high → hexUnit? e f g h = some low → isLowSurrogate low →
      Quotes cs text →
      Quotes ('\\' :: 'u' :: a :: b :: c :: d :: '\\' :: 'u' :: e :: f :: g :: h :: cs)
        (Char.ofNat (0x10000 + 1024 * (high - 0xd800) + (low - 0xdc00)) :: text)

-- The value of a number, which is infinite when no float is large enough.
def numeral (negative : Bool) (whole : List Char) (fraction : Option (List Char)) (exponent : Option Int) : Json :=
  (number negative whole fraction exponent).getD (.float (signed negative (1 / 0)))

inductive Spells : List Char → Lexeme → Prop where
  | openArray : Spells ['['] .openArray
  | closeArray : Spells [']'] .closeArray
  | openObject : Spells ['\x7b'] .openObject
  | closeObject : Spells ['\x7d'] .closeObject
  | comma : Spells [','] .comma
  | colon : Spells [':'] .colon
  | null : Spells "null".toList (.scalar .null)
  | bool (b : Bool) : Spells (if b then "true".toList else "false".toList) (.scalar (.bool b))
  | string : Quotes cs text → Spells ('"' :: (cs ++ ['"'])) (.scalar (.str (String.ofList text)))
  | number (negative : Bool) : Parts cs whole fraction exponent →
      Spells (sign negative ++ cs) (.scalar (numeral negative whole fraction exponent))

inductive Cut : List Char → List Lexeme → Prop where
  | done : (∀ c ∈ space, isSpace c) → Cut space []
  | next : (∀ c ∈ space, isSpace c) → Spells cs lexeme → Cut rest tail → Cut (space ++ (cs ++ rest)) (lexeme :: tail)

def Written (text : String) (json : Json) : Prop := Cut text.toList (words json)

def Lexeme.Finite (lexeme : Lexeme) : Prop := ∀ x, lexeme = .scalar (.float x) → x.isFinite

-- What the reader demands of a tree beside the grammar.
structure Within (json : Json) : Prop where
  shallow : json.nesting ≤ maxNesting
  finite : ∀ lexeme ∈ words json, lexeme.Finite

theorem quotes_read (quotes : Quotes cs text) (done rest : List Char) :
    readString done (cs ++ '"' :: rest) = some (done.reverse ++ text, rest) := by
  induction quotes generalizing done with
  | nil => simp [readString]
  | plain quote backslash visible _ ih =>
      rw [List.cons_append, readString.eq_def]
      split <;> simp_all
  | @escape c d cs text escapes _ ih =>
      have unmarked : c ≠ 'u' := by cases escapes <;> decide
      simp [readString, escapes_iff.mp escapes, unmarked, ih]
  | unit found high low _ ih => simp [readString, found, high, low, ih]
  | pair first high second low _ ih => simp [readString, first, high, second, low, ih]

theorem readString_quotes {rest : List Char} (read : readString done cs = some (text, rest)) :
    ∃ front inner, cs = front ++ '"' :: rest ∧ Quotes front inner ∧ text = done.reverse ++ inner := by
  fun_induction readString done cs with
  | case1 | case3 | case4 | case6 | case7 | case8 | case11 | case12 => cases read
  | case2 =>
      cases read
      exact ⟨[], [], rfl, .nil, by simp⟩
  | case5 =>
      rename_i ih
      obtain ⟨front, inner, rfl, quotes, rfl⟩ := ih read
      exact ⟨_, _, rfl, .pair ‹_› ‹_› ‹_› ‹_› quotes, by rw [List.reverse_cons, List.append_assoc]; rfl⟩
  | case9 =>
      rename_i high low ih
      obtain ⟨front, inner, rfl, quotes, rfl⟩ := ih read
      exact ⟨_, _, rfl, .unit ‹_› (Bool.eq_false_iff.mpr high) (Bool.eq_false_iff.mpr low) quotes, by simp⟩
  | case10 =>
      rename_i ih
      obtain ⟨front, inner, rfl, quotes, rfl⟩ := ih read
      exact ⟨_, _, rfl, .escape (escapes_iff.mpr ‹_›) quotes, by simp⟩
  | case13 =>
      rename_i quote long short visible ih
      obtain ⟨front, inner, rfl, quotes, rfl⟩ := ih read
      obtain ⟨next, tail, follows⟩ : ∃ next tail, front ++ '"' :: rest = next :: tail :=
        List.exists_cons_of_ne_nil (by simp)
      exact ⟨_, _, rfl, .plain quote (short next tail · follows) (Nat.not_lt.mp visible) quotes, by simp⟩

-- What is read from the front of a text, how it is spelled there, and that it is finite.
def Found (cs rest : List Char) (lexeme : Lexeme) : Prop :=
  ∃ front, cs = front ++ rest ∧ Spells front lexeme ∧ lexeme.Finite

theorem found_word (found : word? (c :: cs.takeWhile Char.isAlpha) = some json) :
    Found (c :: cs) (cs.dropWhile Char.isAlpha) (.scalar json) := by
  refine ⟨c :: cs.takeWhile Char.isAlpha, by rw [List.cons_append, List.takeWhile_append_dropWhile], ?_⟩
  unfold word? at found
  split at found
  · rename_i same
    cases found
    exact ⟨same ▸ .null, nofun⟩
  split at found
  · rename_i same
    cases found
    exact ⟨same ▸ .bool true, nofun⟩
  split at found
  · rename_i same
    cases found
    exact ⟨same ▸ .bool false, nofun⟩
  · cases found

theorem found_number {rest : List Char} (read : readNumber negative cs = some (json, rest)) :
    Found (sign negative ++ cs) rest (.scalar json) := by
  obtain ⟨front, whole, fraction, exponent, rfl, parts, made⟩ := parts_of_read read
  have spelled := Spells.number negative parts
  rw [numeral, made, Option.getD_some] at spelled
  refine ⟨sign negative ++ front, (List.append_assoc ..).symm, spelled, ?_⟩
  rintro x same
  cases same
  exact number_finite made

theorem readLexeme_found {rest : List Char} (read : readLexeme c cs = some (lexeme, rest)) :
    Found (c :: cs) rest lexeme := by
  unfold readLexeme at read
  split at read
  · cases read
    exact ⟨['['], rfl, .openArray, nofun⟩
  · cases read
    exact ⟨[']'], rfl, .closeArray, nofun⟩
  · cases read
    exact ⟨['\x7b'], rfl, .openObject, nofun⟩
  · cases read
    exact ⟨['\x7d'], rfl, .closeObject, nofun⟩
  · cases read
    exact ⟨[','], rfl, .comma, nofun⟩
  · cases read
    exact ⟨[':'], rfl, .colon, nofun⟩
  · obtain ⟨⟨_, _⟩, found, same⟩ := Option.map_eq_some_iff.mp read
    cases same
    obtain ⟨front, inner, rfl, quotes, rfl⟩ := readString_quotes found
    exact ⟨_, by simp, .string quotes, nofun⟩
  · obtain ⟨⟨_, _⟩, found, same⟩ := Option.map_eq_some_iff.mp read
    cases same
    exact @found_number true _ _ _ found
  · split at read
    · obtain ⟨⟨_, _⟩, found, same⟩ := Option.map_eq_some_iff.mp read
      cases same
      exact @found_number false _ _ _ found
    · obtain ⟨_, found, same⟩ := Option.map_eq_some_iff.mp read
      cases same
      exact found_word found

theorem cut_lexemes (found : lexemesFrom [] cs = some tokens) : Cut cs tokens ∧ ∀ lexeme ∈ tokens, lexeme.Finite := by
  have split := (List.takeWhile_append_dropWhile (p := isSpace) (l := cs)).symm
  have space : ∀ c ∈ cs.takeWhile isSpace, isSpace c := List.all_eq_true.mp List.all_takeWhile
  rw [lexemesFrom_unfold] at found
  split at found
  · rename_i none
    cases found
    rw [none, List.append_nil] at split
    exact ⟨.done (split ▸ space), nofun⟩
  · rename_i c behind some
    obtain ⟨⟨lexeme, rest⟩, read, found⟩ := Option.bind_eq_some_iff.mp found
    obtain ⟨tail, later, same⟩ := Option.map_eq_some_iff.mp found
    cases same
    have shorter := rest_shorter some read
    obtain ⟨front, same, spelled, first⟩ := readLexeme_found read
    obtain ⟨cut, others⟩ := cut_lexemes later
    rw [some, same] at split
    rw [split]
    exact ⟨.next space spelled cut, List.forall_mem_cons.mpr ⟨first, others⟩⟩
termination_by cs.length

def Lexeme.Mark (lexeme : Lexeme) : Prop := ∀ json, lexeme ≠ .scalar json

-- What comes first in a text whose first lexeme, if any, is a mark goes on with no number and no word.
theorem Cut.stops (cut : Cut cs tokens) (mark : ∀ lexeme ∈ tokens.head?, lexeme.Mark) : Stops cs := by
  have blank {space : List Char} {c : Char} (all : ∀ c ∈ space, isSpace c) (first : space.head? = some c) :
      c.isAlphanum = false ∧ c ≠ '.' := by
    have kind := all c (List.mem_of_head? first)
    simp only [isSpace, Bool.or_eq_true, decide_eq_true_eq] at kind
    rcases kind with ((rfl | rfl) | rfl) | rfl <;> decide
  intro c first
  cases cut with
  | done all => exact blank all first
  | @next space cs lexeme rest tail all spelled later =>
      cases space with
      | cons => exact blank all first
      | nil =>
          have apart := mark lexeme rfl
          cases spelled with
          | null => exact absurd rfl (apart _)
          | bool => exact absurd rfl (apart _)
          | string => exact absurd rfl (apart _)
          | number => exact absurd rfl (apart _)
          | _ => cases first; decide

theorem Spells.cuts (spelled : Spells cs lexeme) (finite : lexeme.Finite)
    (stops : ∀ json, lexeme = .scalar json → Stops rest) : Cuts cs rest [lexeme] := by
  cases spelled with
  | null => exact word_cuts (List.all_eq_true.mp rfl) (stops _ rfl) rfl
  | bool b => cases b <;> exact word_cuts (List.all_eq_true.mp rfl) (stops _ rfl) rfl
  | @string cs text quotes =>
      refine .single rfl ?_
      have inside := quotes_read quotes [] rest
      simp [readLexeme, inside]
  | @number cs whole fraction exponent negative parts =>
      cases made : Json.number negative whole fraction exponent with
      | some json =>
          have cut := parts_cuts parts (stops _ rfl) made
          rwa [numeral, made, Option.getD_some]
      | none =>
          have largest := finite (signed negative (1 / 0)) (by rw [numeral, made, Option.getD_none])
          cases negative <;> exact absurd largest (by decide +kernel)
  | _ => exact .mark rfl fun _ => rfl

theorem Spells.refused (spelled : Spells cs lexeme) (infinite : ¬lexeme.Finite)
    (stops : ∀ json, lexeme = .scalar json → Stops rest) : lexemesFrom [] (cs ++ rest) = none := by
  cases spelled with
  | @number cs whole fraction exponent negative parts =>
      cases made : Json.number negative whole fraction exponent with
      | some json =>
          refine absurd ?_ infinite
          intro x same
          rw [numeral, made, Option.getD_some] at same
          cases same
          exact number_finite made
      | none => rw [parts_lexemes parts negative (stops _ rfl), made, Option.bind_none]
  | _ => exact absurd nofun infinite

-- Of two lexemes that stand side by side one is a mark.
def Apart (tokens : List Lexeme) : Prop := tokens.IsChain fun first second => first.Mark ∨ second.Mark

theorem Cut.behind (cut : Cut rest tail) (apart : Apart (lexeme :: tail)) : Apart tail ∧
    ∀ json, lexeme = .scalar json → Stops rest := by
  obtain ⟨first, others⟩ := List.isChain_cons.mp apart
  refine ⟨others, fun json same => cut.stops fun next found => ?_⟩
  exact (first next found).resolve_left fun mark => mark json same

theorem Cut.lexemes (cut : Cut cs tokens) (apart : Apart tokens) (finite : ∀ lexeme ∈ tokens, lexeme.Finite) :
    lexemesFrom [] cs = some tokens := by
  induction cut with
  | done all =>
      have blank : Cuts _ [] [] := .spaces all
      unfold Cuts at blank
      rwa [List.append_nil, lexemesFrom_unfold []] at blank
  | next all spelled later ih =>
      obtain ⟨first, others⟩ := List.forall_mem_cons.mp finite
      obtain ⟨apart, stops⟩ := later.behind apart
      have whole := (Cuts.spaces all).append (spelled.cuts first stops)
      unfold Cuts at whole
      rw [List.append_assoc] at whole
      rw [whole, ih apart others]
      rfl

theorem Cut.refused (cut : Cut cs tokens) (apart : Apart tokens) (infinite : ¬∀ lexeme ∈ tokens, lexeme.Finite) :
    lexemesFrom [] cs = none := by
  induction cut with
  | done => exact absurd nofun infinite
  | @next space cs lexeme rest tail all spelled later ih =>
      obtain ⟨apart, stops⟩ := later.behind apart
      have blank : Cuts space (cs ++ rest) [] := .spaces all
      unfold Cuts at blank
      rw [blank]
      by_cases first : lexeme.Finite
      · have one := spelled.cuts first stops
        unfold Cuts at one
        rw [one, ih apart fun others => infinite (List.forall_mem_cons.mpr ⟨first, others⟩)]
        rfl
      · rw [spelled.refused first stops]
        rfl

theorem apart_mark {mark : Lexeme} (kind : mark.Mark) (apart : Apart rest) : Apart (mark :: rest) :=
  List.isChain_cons.mpr ⟨fun _ _ => .inl kind, apart⟩

theorem apart_scalar (apart : Apart rest) (mark : ∀ lexeme ∈ rest.head?, lexeme.Mark) : Apart (.scalar json :: rest) :=
  List.isChain_cons.mpr ⟨fun next first => .inr (mark next first), apart⟩

def Marked (tokens : List Lexeme) : Prop := ∀ lexeme ∈ tokens.head?, lexeme.Mark

theorem marked_cons {mark : Lexeme} (kind : mark.Mark) : Marked (mark :: rest) := by
  rintro _ ⟨⟩
  exact kind

mutual

theorem words_apart : (json : Json) → Apart rest → Marked rest → Apart (words json ++ rest)
  | .null, apart, marked => apart_scalar apart marked
  | .bool _, apart, marked => apart_scalar apart marked
  | .int _, apart, marked => apart_scalar apart marked
  | .large _, apart, marked => apart_scalar apart marked
  | .float _, apart, marked => apart_scalar apart marked
  | .str _, apart, marked => apart_scalar apart marked
  | .array [], apart, _ => apart_mark nofun (apart_mark nofun apart)
  | .array (item :: items), apart, _ => by
      simp only [words, List.cons_append, List.append_assoc, List.nil_append]
      have close : Apart (.closeArray :: _) := apart_mark nofun apart
      have others := items_apart items close (marked_cons nofun)
      exact apart_mark nofun (words_apart item others.1 others.2)
  | .object [], apart, _ => apart_mark nofun (apart_mark nofun apart)
  | .object ((_, member) :: members), apart, _ => by
      simp only [words, List.cons_append, List.append_assoc, List.nil_append]
      have close : Apart (.closeObject :: _) := apart_mark nofun apart
      have others := members_apart members close (marked_cons nofun)
      exact apart_mark nofun (apart_scalar (apart_mark nofun (words_apart member others.1 others.2)) (marked_cons nofun))

theorem items_apart : (items : List Json) → Apart rest → Marked rest →
    Apart (itemWords items ++ rest) ∧ Marked (itemWords items ++ rest)
  | [], apart, marked => ⟨apart, marked⟩
  | item :: items, apart, marked => by
      simp only [itemWords, List.cons_append, List.append_assoc]
      have others := items_apart items apart marked
      exact ⟨apart_mark nofun (words_apart item others.1 others.2), marked_cons nofun⟩

theorem members_apart : (members : List (String × Json)) → Apart rest → Marked rest →
    Apart (memberWords members ++ rest) ∧ Marked (memberWords members ++ rest)
  | [], apart, marked => ⟨apart, marked⟩
  | (_, member) :: members, apart, marked => by
      simp only [memberWords, List.cons_append, List.append_assoc]
      have others := members_apart members apart marked
      refine ⟨?_, marked_cons nofun⟩
      exact apart_mark nofun (apart_scalar (apart_mark nofun (words_apart member others.1 others.2)) (marked_cons nofun))

end

theorem scalar_number (made : number negative whole fraction exponent = some json) : Scalar json := by
  unfold number at made
  dsimp only at made
  split at made
  · cases made
    unfold wholeNumber
    split
    · split
      · exact .float
      · exact .int
    · split
      · exact .int
      · exact .large
  · obtain ⟨x, _, rfl⟩ := Option.map_eq_some_iff.mp made
    exact .float

theorem Spells.plain (spelled : Spells cs lexeme) : lexeme.Plain := by
  cases spelled with
  | null => exact .null
  | bool => exact .bool
  | string => exact .str
  | @number _ whole fraction exponent negative parts =>
      unfold Lexeme.Plain numeral
      cases made : Json.number negative whole fraction exponent with
      | some json => exact scalar_number made
      | none => exact .float
  | _ => trivial

theorem Cut.plain (cut : Cut cs tokens) : ∀ lexeme ∈ tokens, lexeme.Plain := by
  induction cut with
  | done => exact nofun
  | next _ spelled _ ih => exact List.forall_mem_cons.mpr ⟨spelled.plain, ih⟩

theorem apart_words (json : Json) : Apart (words json) := by
  have apart := @words_apart [] json .nil nofun
  rwa [List.append_nil] at apart

theorem words_injective (same : words json = words other) : json = other := by
  have built := @build_words none json .top nofun []
  have again := @build_words none other .top nofun []
  rw [same, again] at built
  exact (Option.some.inj built).symm

theorem parse_iff : parse text = some json ↔ Written text json ∧ json.Within := by
  unfold parse parseWithin
  rw [Option.bind_eq_some_iff]
  constructor
  · rintro ⟨tokens, cut, built⟩
    obtain ⟨cut, finite⟩ := cut_lexemes cut
    obtain ⟨same, shallow⟩ := @build_front tokens maxNesting (.value .top) json trivial cut.plain built
    rw [show tokens = words json from same.symm] at cut finite
    exact ⟨cut, shallow, finite⟩
  · rintro ⟨cut, shallow, finite⟩
    refine ⟨words json, cut.lexemes (apart_words json) finite, ?_⟩
    have built := @build_words (some maxNesting) json .top (by rintro _ ⟨⟩; exact shallow) []
    rw [List.append_nil] at built
    exact built

theorem Written.unique (written : Written text json) (read : parse text = some other) : json = other := by
  obtain ⟨cut, _, finite⟩ := parse_iff.mp read
  have found := cut.lexemes (apart_words other) finite
  apply words_injective
  by_cases held : ∀ lexeme ∈ words json, lexeme.Finite
  · rw [Cut.lexemes written (apart_words json) held] at found
    exact Option.some.inj found
  · rw [Cut.refused written (apart_words json) held] at found
    cases found

end Json

end KeywordConfig
