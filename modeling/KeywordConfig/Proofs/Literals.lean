import KeywordConfig.Proofs.FloatOperations
import KeywordConfig.Proofs.Pieces

namespace KeywordConfig.Token
open Rounding

-- So large a number that no float is near it.
def TooLarge (whole fraction : List Char) : Prop := beyond * 10 ^ fraction.length ≤ Decimal.ofDigits (whole ++ fraction)

theorem toFloat_near {places : Nat} (c : Nat) (filled : 0 < places) :
    Near (Decimal.toFloat ⟨c, -(places : Int)⟩) (c / 10 ^ places) := by
  have below : decide (-(places : Int) < 0) = true := by simpa using filled
  unfold Decimal.toFloat
  rw [below, Int.natAbs_neg, Int.natAbs_natCast]
  rcases Nat.eq_zero_or_pos c with rfl | positive
  · simpa using zero_near places
  · exact quotient_near positive filled

theorem toFloat_isFinite {places : Nat} (c : Nat) (filled : 0 < places) :
    (Decimal.toFloat ⟨c, -(places : Int)⟩).isFinite ↔ c < beyond * 10 ^ places := by
  rw [(toFloat_near c filled).isFinite, div_lt_iff₀ (by positivity)]
  exact_mod_cast Iff.rfl

theorem floatToken_isFinite {negative : Bool} (digits : IsDigits fraction)
    (read : floatToken negative whole fraction = .float x) :
    x.isFinite ↔ ¬ TooLarge whole fraction := by
  have places : 0 < fraction.length := List.length_pos_iff.mpr digits.some
  have finite := toFloat_isFinite (Decimal.ofDigits (whole ++ fraction)) places
  unfold TooLarge
  rw [Nat.not_le, ← finite]
  unfold floatToken at read
  cases negative with
  | true => cases read; exact neg_isFinite _
  | false => cases read; exact Iff.rfl

theorem denotes_int (denotes : Denotes word (.int i)) : ∃ negative digits, word = sign negative ++ digits ∧
    IsDigits digits ∧ i.toInt =
      if negative then -(Nat.ofDigitChars 10 digits 0 : Int) else Nat.ofDigitChars 10 digits 0 := by
  generalize same : Token.int i = token at denotes
  cases denotes with
  | int digits value =>
      cases same
      exact ⟨_, _, rfl, digits, value⟩
  | mark mark =>
      subst same
      cases mark
  | float =>
      unfold floatToken at same
      cases same
  | _ => cases same

theorem denotes_float (denotes : Denotes word (.float x)) : ∃ negative whole fraction,
    word = sign negative ++ (whole ++ '.' :: fraction) ∧ IsDigits whole ∧ IsDigits fraction ∧
      floatToken negative whole fraction = .float x := by
  generalize same : Token.float x = token at denotes
  cases denotes with
  | float whole fraction => exact ⟨_, _, _, rfl, whole, fraction, rfl⟩
  | mark mark =>
      subst same
      cases mark
  | _ => cases same

theorem Cuts.words (cuts : Cuts front cs pieces rest) :
    ∀ p ∈ pieces, ∃ word, Denotes word p.token ∧ p.front ++ word <+: front ++ cs := by
  induction cuts with
  | none => exact nofun
  | @more gap word after token front pieces rest _ denotes _ _ ih =>
      have joined : front ++ (gap ++ (word ++ after)) = front ++ gap ++ word ++ after := by simp
      refine List.forall_mem_cons.mpr ⟨⟨word, denotes, ?_⟩, joined ▸ ih⟩
      rw [joined]
      exact List.prefix_append _ _

theorem Cut.words {text : List Char} (cut : Cut text pieces) :
    ∀ p ∈ pieces, p.token = .endOfScript ∨ ∃ word, Denotes word p.token ∧ p.front ++ word <+: text := by
  cases cut with
  | ends cuts =>
      intro p member
      rcases List.mem_append.mp member with before | last
      · exact .inr (cuts.words p before)
      · exact .inl (congrArg Piece.token (List.mem_singleton.mp last))
  | fails cuts => exact fun p member => .inr (cuts.words p member)

theorem Cut.item {text : String} (cut : Cut text.toList pieces) (member : .ok t ∈ items text) :
    ∃ p ∈ pieces, p.located = t := by
  have found : t ∈ (items text).filterMap Except.toOption := List.mem_filterMap.mpr ⟨_, member, rfl⟩
  rw [items_cut cut] at found
  exact List.mem_map.mp found

structure FloatLiteral (text : List Char) (p : Piece) (whole fraction : List Char) : Prop where
  before : IsDigits whole
  behind : IsDigits fraction
  stands : ∃ negative, p.token = floatToken negative whole fraction ∧
    p.front ++ (sign negative ++ (whole ++ '.' :: fraction)) <+: text

theorem FloatLiteral.isFinite {text : List Char} (literal : FloatLiteral text p whole fraction)
    (token : p.token = .float x) :
    x.isFinite ↔ ¬ TooLarge whole fraction := by
  obtain ⟨_, read, _⟩ := literal.stands
  exact floatToken_isFinite literal.behind (read.symm.trans token)

theorem Cut.float {text : List Char} (cut : Cut text pieces) (member : p ∈ pieces) (token : p.token = .float x) :
    ∃ whole fraction, FloatLiteral text p whole fraction := by
  rcases cut.words p member with other | ⟨word, denotes, stands⟩
  · cases token.symm.trans other
  · rw [token] at denotes
    obtain ⟨negative, whole, fraction, rfl, digits, places, read⟩ := denotes_float denotes
    exact ⟨whole, fraction, digits, places, negative, token.trans read.symm, stands⟩

structure IntLiteral (text : List Char) (p : Piece) (digits : List Char) (i : Int64) : Prop where
  all : IsDigits digits
  stands : ∃ negative, i.toInt = (if negative then -(Decimal.ofDigits digits : Int) else Decimal.ofDigits digits) ∧
    p.front ++ (sign negative ++ digits) <+: text

theorem Cut.int {text : List Char} (cut : Cut text pieces) (member : p ∈ pieces) (token : p.token = .int i) :
    ∃ digits, IntLiteral text p digits i := by
  rcases cut.words p member with other | ⟨word, denotes, stands⟩
  · cases token.symm.trans other
  · rw [token] at denotes
    obtain ⟨negative, digits, rfl, all, value⟩ := denotes_int denotes
    exact ⟨digits, all, negative, value, stands⟩

end KeywordConfig.Token
