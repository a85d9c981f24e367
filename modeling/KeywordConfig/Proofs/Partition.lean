import KeywordConfig.Proofs.Literals
import KeywordConfig.Proofs.Parsing

namespace KeywordConfig.Token
open Rounding

-- A token as it is written, and the gap before it.
structure Word where
  gap : List Char
  chars : List Char
  token : Token

-- `last` is the gap behind all words.
def joined (last : List Char) : List Word → List Char
  | [] => last
  | word :: rest => word.gap ++ (word.chars ++ joined last rest)

inductive Lexed (last : List Char) : List Word → Prop where
  | none : IsGap [] last → Lexed last []
  | word : IsGap (chars ++ joined last rest) gap → Denotes chars token → Behind token (joined last rest) →
      Lexed last rest → Lexed last (⟨gap, chars, token⟩ :: rest)

-- The number that a word spells is the number that its token has: an integer as it is, and a float
-- rounded to nearest.
def Word.Valued (word : Word) : Prop :=
  match word.token with
  | .int i => ∃ negative digits, word.chars = sign negative ++ digits ∧ IsDigits digits ∧
      i.toInt = if negative then -(Nat.ofDigitChars 10 digits 0 : Int) else Nat.ofDigitChars 10 digits 0
  | .float x => ∃ negative whole fraction y, word.chars = sign negative ++ (whole ++ '.' :: fraction) ∧
      IsDigits whole ∧ IsDigits fraction ∧ x = (if negative then -y else y) ∧
      y = Decimal.toFloat ⟨Decimal.ofDigits (whole ++ fraction), -fraction.length⟩ ∧
      Near y (Nat.ofDigitChars 10 (whole ++ fraction) 0 / 10 ^ fraction.length)
  | _ => True

theorem denotes_valued {word : Word} (denotes : Denotes word.chars word.token) : word.Valued := by
  obtain ⟨gap, chars, token⟩ := word
  unfold Word.Valued
  cases token with
  | int i =>
      obtain ⟨negative, digits, written, all, value⟩ := denotes_int denotes
      exact ⟨negative, digits, written, all, value⟩
  | float x =>
      obtain ⟨negative, whole, fraction, written, digits, places, read⟩ := denotes_float denotes
      have signed := Token.float.inj read
      exact ⟨negative, whole, fraction, _, written, digits, places, signed.symm, rfl,
        toFloat_near _ (List.length_pos_iff.mpr places.some)⟩
  | _ => trivial

theorem Lexed.valued (lexed : Lexed last words) : ∀ word ∈ words, word.Valued := by
  induction lexed with
  | none => exact nofun
  | word _ denotes _ _ ih => exact List.forall_mem_cons.mpr ⟨denotes_valued denotes, ih⟩

theorem Cuts.lexed (cuts : Cuts front cs pieces rest) (ends : skipBlank rest = []) :
    ∃ words, cs = joined rest words ∧ Lexed rest words ∧ words.map Word.token = pieces.map Piece.token := by
  induction cuts with
  | none => exact ⟨[], rfl, .none (isGap_of_skipped (by simpa using ends)), rfl⟩
  | @more gap chars after token front pieces rest blank denotes behind _ ih =>
      obtain ⟨words, rfl, lexed, same⟩ := ih ends
      exact ⟨⟨gap, chars, token⟩ :: words, rfl, .word (isGap_of_skipped blank) denotes behind lexed,
        congrArg (token :: ·) same⟩

theorem denotes_bare (denotes : Denotes chars token) (behind : Behind token rest) :
    skipBlank (chars ++ rest) = chars ++ rest := by
  obtain ⟨c, tail, _, rfl, read, _⟩ := denotes_read denotes behind
  exact unblank read

theorem Lexed.cuts (lexed : Lexed last words) (front : List Char) :
    ∃ pieces, Cuts front (joined last words) pieces last ∧ pieces.map Piece.token = words.map Word.token := by
  induction lexed generalizing front with
  | none => exact ⟨[], .none, rfl⟩
  | @word chars rest gap token isGap denotes behind _ ih =>
      obtain ⟨pieces, cuts, same⟩ := ih (front ++ gap ++ chars)
      exact ⟨_, .more (isGap.skipped (denotes_bare denotes behind)) denotes behind cuts,
        congrArg (token :: ·) same⟩

theorem Lexed.ends (lexed : Lexed last words) : skipBlank last = [] := by
  induction lexed with
  | none gap => simpa using gap.skipped rfl
  | word _ _ _ _ ih => exact ih

theorem Cuts.tokens {text : String} (cuts : Cuts [] text.toList pieces rest) (ends : skipBlank rest = []) :
    (items text).map (Except.map Located.token) = (pieces.map Piece.token ++ [Token.endOfScript]).map .ok := by
  rw [cuts.items_end ends, List.map_append, List.map_append, List.map_map, List.map_map]
  rfl

theorem Lexed.tokens {text : String} (lexed : Lexed last words) (same : text.toList = joined last words) :
    (items text).map (Except.map Located.token) = (words.map Word.token ++ [Token.endOfScript]).map .ok := by
  obtain ⟨pieces, cuts, tokens⟩ := lexed.cuts []
  rw [← same] at cuts
  rw [cuts.tokens lexed.ends, tokens]

theorem tokens_lexed {text : String} (ends : (items text).getLast? = some (.ok ⟨.endOfScript, line⟩)) :
    ∃ words last, text.toList = joined last words ∧ Lexed last words := by
  obtain ⟨pieces, rest, cuts, stops | ⟨c, after, cause, blank, token⟩⟩ := cuts_all [] text.toList
  · obtain ⟨words, same, lexed, _⟩ := cuts.lexed stops
    exact ⟨words, rest, same, lexed⟩
  · obtain ⟨e, read⟩ := cuts.items_fail blank token
    rw [read, List.getLast?_append] at ends
    cases ends

theorem itemsFrom_length (line : Nat) (cs : List Char) : (itemsFrom [] line cs).length ≤ cs.length + 1 := by
  rw [itemsFrom_unfold]
  cases blank : skipBlank cs with
  | nil => simp
  | cons c rest =>
      cases token : read c rest with
      | error => simp [token]
      | ok lexeme =>
          have shorter := rest_shorter blank token
          have others := itemsFrom_length (line + lexeme.lines) lexeme.rest
          simp only [token, List.length_cons]
          omega
termination_by cs.length

-- Reading a text gives at most one item more than it has characters, and the last of them alone is an
-- end or an error. A text that is read up to its end is made up of words with gaps between them, one for
-- each token, and any text that is so made up is read as the tokens of its words.
theorem text_partition (text : String) :
    (items text).length ≤ text.length + 1 ∧ Whole (items text) ∧
    (∀ line, (items text).getLast? = some (.ok ⟨.endOfScript, line⟩) → ∃ words last,
      text.toList = joined last words ∧ Lexed last words ∧ (∀ word ∈ words, word.Valued) ∧
        (items text).map (Except.map Located.token) = (words.map Word.token ++ [Token.endOfScript]).map .ok) ∧
    ∀ words last, text.toList = joined last words → Lexed last words →
      (items text).map (Except.map Located.token) = (words.map Word.token ++ [Token.endOfScript]).map .ok := by
  refine ⟨?_, itemsFrom_whole _ _, ?_, ?_⟩
  · rw [← String.length_toList]
    exact itemsFrom_length 1 text.toList
  · intro line ends
    obtain ⟨words, last, same, lexed⟩ := tokens_lexed ends
    exact ⟨words, last, same, lexed, lexed.valued, lexed.tokens same⟩
  · intro words last same lexed
    exact lexed.tokens same

-- Colons in a name, behind a label and before a symbol, a hash in quotes and one that begins a comment,
-- and a point behind a number that is not part of it.
theorem text_partition_of_colons :
    let text := "a::b c: :d '#\\n'\n-05.e # it's"
    (items text).getLast? = some (.ok ⟨.endOfScript, 2⟩) ∧ ∃ words last,
      text.toList = joined last words ∧ Lexed last words ∧ (∀ word ∈ words, word.Valued) ∧
        (items text).map (Except.map Located.token) = (words.map Word.token ++ [Token.endOfScript]).map .ok := by
  intro text
  have ends : (items text).getLast? = some (.ok ⟨.endOfScript, 2⟩) := by
    subst text
    cbv
  exact ⟨ends, (text_partition text).2.2.1 2 ends⟩

end KeywordConfig.Token
