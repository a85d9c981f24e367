import KeywordConfig.Proofs.Printing
import KeywordConfig.Proofs.LineEnds

namespace KeywordConfig
open Grammar

namespace Token

def Reads (line : Nat) (cs rest : List Char) (tokens : List Located) : Prop :=
  itemsFrom [] line (cs ++ rest) = tokens.map .ok ++ itemsFrom [] (line + cs.count '\n') rest

theorem Reads.nil : Reads line [] rest [] := rfl

theorem Reads.append (first : Reads line cs (others ++ rest) tokens)
    (second : Reads (line + cs.count '\n') others rest more) :
    Reads line (cs ++ others) rest (tokens ++ more) := by
  unfold Reads at *
  rw [List.append_assoc, first, second, List.count_append, List.map_append, List.append_assoc, Nat.add_assoc]

theorem Reads.blank (reads : Reads line cs rest tokens) : Reads line (' ' :: cs) rest tokens := by
  unfold Reads at *
  rw [List.count_cons_of_ne (by decide), ← reads]
  exact itemsFrom_blank line rfl

theorem Reads.single (denotes : Denotes word token) (behind : Behind token rest)
    (unescaped : escapedLineEnds .code word = 0) : Reads line word rest [⟨token, line⟩] := by
  obtain ⟨c, tail, lines, rfl, read, total, _⟩ := denotes_read denotes behind
  unfold Reads
  rw [List.cons_append, itemsFrom_unfold, unblank read, ← total, unescaped]
  simp [read]

-- None of these characters goes on with a token.
def ends (c : Char) : Bool := !(isNameChar c) && c ≠ ':' && c ≠ '.'

def Stops (rest : List Char) : Prop := ∀ c ∈ rest.head?, ends c

theorem stops_nil : Stops [] := nofun

theorem stops_cons (last : ends c) : Stops (c :: rest) := by
  rintro d first
  cases first
  exact last

theorem Stops.behind (stops : Stops rest) (token : Token) : Behind token rest := by
  have digit : NoDigit rest := by
    intro c first
    have last := stops c first
    simp [ends, isNameChar, Char.isAlphanum] at last
    simp [last]
  have point (after : List Char) (same : rest = '.' :: after) : False := by
    subst same
    exact absurd (stops '.' rfl) (by decide)
  have goes (more : Extends rest) : False := by
    cases more with
    | @char c _ more =>
        have word : isNameChar c := more
        have last := stops c rfl
        simp [ends, word] at last
    | path => exact absurd (stops ':' rfl) (by decide)
  have labels (colon : Labels rest) : False := by
    cases colon with
    | colon => exact absurd (stops ':' rfl) (by decide)
  cases token with
  | ident => exact ⟨goes, labels⟩
  | label =>
      intro colon
      exact absurd (stops ':' colon) (by decide)
  | symbol => exact goes
  | int => exact ⟨digit, fun after same => (point after same).elim⟩
  | float => exact digit
  | _ => trivial

theorem plain_unescaped (plain : ∀ c ∈ word, Plain c) : escapedLineEnds .code word = 0 := by
  have none : word.count '\n' = 0 := List.count_eq_zero.mpr fun member => (plain _ member).1 rfl
  have total := (plain_lines plain).1
  omega

theorem Reads.newline : Reads line ['\n'] rest [⟨.newline, line⟩] := .single .newline trivial rfl

theorem Reads.mark (found : mark? c = some token) : Reads line [c] rest [⟨token, line⟩] :=
  .single (.mark (mark?_iff.mp found)) (mark_behind (mark?_iff.mp found) rest) rfl

theorem isName_plain (start : isNameStart c) (all : cs.all isNameChar) : IsName (c :: cs) := by
  refine .start start ?_
  induction cs with
  | nil => exact .done
  | cons d cs ih =>
      obtain ⟨first, others⟩ := Bool.and_eq_true_iff.mp all
      exact .char first (ih others)

theorem Reads.name {name : String} (named : IsName name.toList) (behind : Behind (.ident name) rest) :
    Reads line name.toList rest [⟨.ident name, line⟩] := by
  have denotes : Denotes name.toList (.ident name) := by simpa using Denotes.ident named
  exact .single denotes behind (plain_unescaped (plain_word named))

end Token

namespace Printer
open Token

theorem int_denotes (i : Int64) : Denotes (intText i) (.int i) := by
  have whole : IsDigits (Nat.toDigits 10 i.toInt.natAbs) :=
    ⟨fun c member => Nat.isDigit_of_mem_toDigits (by decide) (by decide) member, Nat.toDigits_ne_nil⟩
  have signed : (if decide (i.toInt < 0) then -(i.toInt.natAbs : Int) else i.toInt.natAbs) = i.toInt := by
    split <;> rename_i negative <;> simp at negative <;> omega
  refine .int whole ?_
  rw [Nat.ofDigitChars_ten_toDigits]
  exact signed.symm

theorem int_read (i : Int64) (behind : Behind (.int i) rest) : Reads line (intText i) rest [⟨.int i, line⟩] := by
  have plain : ∀ c ∈ intText i, Plain c := by
    refine List.forall_mem_append.mpr ⟨plain_sign _, fun c member => plain_digit ?_⟩
    exact Nat.isDigit_of_mem_toDigits (by decide) (by decide) member
  exact .single (int_denotes i) behind (plain_unescaped plain)

theorem escaped_quoted (quote : Quote) (cs : List Char) :
    IsQuoted quote.char (cs.flatMap (escape quote.char)) cs ∧
      escapedLineEnds (.quoted quote.char) (cs.flatMap (escape quote.char)) = 0 := by
  induction cs with
  | nil => exact ⟨.done, rfl⟩
  | cons c cs ih =>
      obtain ⟨quoted, unescaped⟩ := ih
      have other : '\\' ≠ quote.char := by cases quote <;> decide
      rw [List.flatMap_cons]
      by_cases special : c = quote.char ∨ c = '\\'
      · have apart : c ≠ 'n' ∧ c ≠ 't' ∧ c ≠ 'r' ∧ c ≠ '\n' := by
          rcases special with rfl | rfl
          · cases quote <;> decide
          · decide
        obtain ⟨newline, tab, carriage, plain⟩ := apart
        have written : escape quote.char c = ['\\', c] := if_pos special
        rw [written]
        constructor
        · exact .escape (.itself newline tab carriage) quoted
        · simp [escapedLineEnds, Region.next, Region.escapes, other, plain, unescaped]
      · have written : escape quote.char c = [c] := if_neg special
        obtain ⟨apart, plain⟩ := not_or.mp special
        rw [written]
        constructor
        · exact .char apart plain quoted
        · simp [escapedLineEnds, Region.next, Region.escapes, apart, plain, unescaped]

theorem isQuote (quote : Quote) : IsQuote quote.char := by
  cases quote with
  | single => exact .inr rfl
  | double => exact .inl rfl

theorem quoted_denotes (quote : Quote) (text : String) : Denotes (quoted quote text) (.str text) := by
  obtain ⟨body, _⟩ := escaped_quoted quote text.toList
  simpa [quoted] using Denotes.str (isQuote quote) body

-- A literal is read as the text it is made of. Its line ends are all counted, as none is escaped.
theorem quoted_read (quote : Quote) (text : String) :
    Reads line (quoted quote text) rest [⟨.str text, line⟩] := by
  obtain ⟨body, unescaped⟩ := escaped_quoted quote text.toList
  have opens : Region.next .code quote.char = .quoted quote.char := by cases quote <;> rfl
  have other : quote.char ≠ '\\' := by cases quote <;> decide
  obtain ⟨_, _, _, inside⟩ := readQuoted_append other body [] 0 []
  refine .single (quoted_denotes quote text) trivial ?_
  rw [quoted, escapedLineEnds, opens, escapedLineEnds_append, unescaped, inside]
  rfl

end Printer

end KeywordConfig
