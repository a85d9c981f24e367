import KeywordConfig.Proofs.Pieces
import KeywordConfig.Proofs.Relining

namespace KeywordConfig
open Token Grammar Script

def Token.Piece.placed (p : Piece) : Located := ⟨p.token, p.front.length⟩

theorem placed_relined {text : List Char} (p : Piece) (front : p.front <+: text) :
    p.placed.relined (fun offset => lineAt (text.take offset)) = p.located := by
  simp only [Located.relined, Piece.placed, Piece.located, ← List.prefix_iff_eq_take.mp front]

theorem mapped_tokens (tokens : List Located) :
    (tokens.map (.ok : Located → Item)).filterMap Except.toOption = tokens := by
  rw [List.filterMap_map]
  exact List.filterMap_some

theorem parse_placed {text : String} (cut : Cut text.toList pieces) (parsed : parse text = .ok calls) :
    ∃ placed, IsScript maxNesting (pieces.map Piece.placed) placed ∧
      calls = Call.relinedAll (fun offset => lineAt (text.toList.take offset)) placed := by
  obtain ⟨tokens, same, accepts⟩ := (run_iff (itemsFrom_whole _ _)).mp parsed
  have read := items_cut cut
  rw [items, same, mapped_tokens] at read
  have located : pieces.map Piece.located =
      (pieces.map Piece.placed).map (Located.relined fun offset => lineAt (text.toList.take offset)) := by
    rw [List.map_map]
    exact List.map_congr_left fun p member => (placed_relined p (cut.fronts p member)).symm
  rw [read, located] at accepts
  obtain ⟨placed, inner, rfl⟩ := (accepts_resumed _ [] _ (.statement (.script [])) _ _).mp accepts
  exact ⟨placed, script_sound inner, rfl⟩

-- Every token of a text, and with it every call, is on the line of its first character, where a
-- line end that is escaped in a quoted text does not begin a line.
theorem lines_counted (text : String) :
    (∃ pieces, Cut text.toList pieces) ∧ ∀ pieces, Cut text.toList pieces →
      (items text).filterMap Except.toOption = pieces.map Piece.located ∧
      (∀ p ∈ pieces, p.located.line + escapedLineEnds .code p.front = 1 + p.front.count '\n') ∧
      ∀ calls, parse text = .ok calls → ∃ placed, IsScript maxNesting (pieces.map Piece.placed) placed ∧
        calls = Call.relinedAll (fun offset => lineAt (text.toList.take offset)) placed := by
  refine ⟨cut_total _, ?_⟩
  intro pieces cut
  refine ⟨items_cut cut, ?_, ?_⟩
  · intro p _
    exact lineAt_escaped p.front
  · intro calls parsed
    exact parse_placed cut parsed

theorem lines_counted_of_escape :
    let text := "a '\\\n'\nb"
    let calls : List Call := [.plain ⟨"a", none, 1⟩ [.str "\n"], .bare ⟨"b", none, 2⟩]
    parse text = .ok calls ∧ ∃ pieces, Cut text.toList pieces ∧
      (items text).filterMap Except.toOption = pieces.map Piece.located ∧
      (∀ p ∈ pieces, p.located.line + escapedLineEnds .code p.front = 1 + p.front.count '\n') ∧
      ∃ placed, IsScript maxNesting (pieces.map Piece.placed) placed ∧
        calls = Call.relinedAll (fun offset => lineAt (text.toList.take offset)) placed := by
  intro text calls
  have parsed : parse text = .ok calls := by
    subst text calls
    cbv
  obtain ⟨pieces, cut⟩ := (lines_counted text).1
  obtain ⟨tokens, lines, scripts⟩ := (lines_counted text).2 pieces cut
  exact ⟨parsed, pieces, cut, tokens, lines, scripts calls parsed⟩

-- In that text two line ends stand before the second call, and it is not on line 3.
theorem escaped_line_end_uncounted :
    let text := "a '\\\n'\nb"
    ∃ pieces, Cut text.toList pieces ∧ (items text).filterMap Except.toOption = pieces.map Piece.located ∧
      pieces.map (·.located.line) = [1, 1, 1, 2, 2] ∧
      pieces.map (fun p => 1 + p.front.count '\n') = [1, 1, 2, 3, 3] ∧
      parse text = .ok [.plain ⟨"a", none, 1⟩ [.str "\n"], .bare ⟨"b", none, 2⟩] := by
  intro text
  have gap (cs rest : List Char) (c : Char) (blank : skipBlank (cs ++ ([c] ++ rest)) = [c] ++ rest) := blank
  have name (c : Char) (start : isNameStart c) : Denotes [c] _ := .ident (.start start .done)
  have quoted : IsQuoted '\'' ['\\', '\n'] ['\n'] := .escape (.itself (by decide) (by decide) (by decide)) .done
  have fourth : Cuts "a '\\\n'\n".toList ['b'] _ [] :=
    .more (gap [] [] 'b' rfl) (name 'b' rfl) ⟨nofun, nofun⟩ .none
  have third : Cuts "a '\\\n'".toList ['\n', 'b'] _ [] :=
    .more (gap [] ['b'] '\n' rfl) .newline trivial fourth
  have blank : skipBlank ([' '] ++ ("'\\\n'".toList ++ ['\n', 'b'])) = "'\\\n'".toList ++ ['\n', 'b'] := rfl
  have second : Cuts ['a'] " '\\\n'\nb".toList _ [] :=
    .more blank (.str (.inr rfl) quoted) trivial third
  have first : Cuts [] "a '\\\n'\nb".toList _ [] :=
    .more (gap [] " '\\\n'\nb".toList 'a' rfl) (name 'a' rfl) ⟨nofun, nofun⟩ second
  have parsed : parse text = .ok [.plain ⟨"a", none, 1⟩ [.str "\n"], .bare ⟨"b", none, 2⟩] := by
    subst text
    cbv
  refine ⟨_, .ends first rfl, items_cut (.ends first rfl), ?_, ?_, parsed⟩ <;> decide

end KeywordConfig
