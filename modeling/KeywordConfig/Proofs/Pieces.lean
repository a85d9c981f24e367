import KeywordConfig.Proofs.Lexemes

namespace KeywordConfig.Token

structure Piece where
  front : List Char
  token : Token

inductive Cuts : List Char → List Char → List Piece → List Char → Prop where
  | none : Cuts front rest [] rest
  | more : skipBlank (gap ++ (word ++ after)) = word ++ after → Denotes word token → Behind token after →
      Cuts (front ++ gap ++ word) after pieces rest →
      Cuts front (gap ++ (word ++ after)) (⟨front ++ gap, token⟩ :: pieces) rest

-- All pieces of a text, up to its end or to the first characters that are no token.
inductive Cut (text : List Char) : List Piece → Prop where
  | ends : Cuts [] text pieces rest → skipBlank rest = [] → Cut text (pieces ++ [⟨text, .endOfScript⟩])
  | fails : Cuts [] text pieces rest → skipBlank rest = c :: after → read c after = .error cause →
      Cut text pieces

def lineAt (front : List Char) : Nat := 1 + front.count '\n' - escapedLineEnds .code front

def Piece.located (p : Piece) : Located := ⟨p.token, lineAt p.front⟩

theorem Cuts.suffix (cuts : Cuts front cs pieces rest) : ∃ consumed, cs = consumed ++ rest := by
  induction cuts with
  | none => exact ⟨[], rfl⟩
  | more _ _ _ _ ih =>
      rename_i gap word after token front pieces rest _ _ _ _
      obtain ⟨consumed, rfl⟩ := ih
      exact ⟨gap ++ (word ++ consumed), by simp⟩

theorem escapedLineEnds_le (region : Region) (cs : List Char) :
    escapedLineEnds region cs ≤ cs.count '\n' := by
  induction cs generalizing region with
  | nil => exact Nat.le_refl _
  | cons c cs ih =>
      have others := ih (region.next c)
      have first : (region.escapes c).toNat ≤ if c = '\n' then 1 else 0 := by
        cases region with
        | escape quote => by_cases lineEnd : c = '\n' <;> simp [Region.escapes, lineEnd]
        | _ => exact Nat.zero_le _
      rw [escapedLineEnds, List.count_cons]
      simp only [beq_iff_eq]
      omega

theorem lineAt_escaped (front : List Char) :
    lineAt front + escapedLineEnds .code front = 1 + front.count '\n' := by
  have bound := escapedLineEnds_le .code front
  unfold lineAt
  omega

-- Reading stands in the code, or in a comment that the next line end closes.
def Stands (front rest : List Char) : Prop :=
  Region.after .code front = .code ∨
    Region.after .code front = .comment ∧ (rest = [] ∨ rest.head? = some '\n')

theorem comment_region {cs : List Char} (inside : ∀ c ∈ cs, c ≠ '\n') :
    Region.after .comment cs = .comment ∧ escapedLineEnds .comment cs = 0 ∧ cs.count '\n' = 0 := by
  induction cs with
  | nil => exact ⟨rfl, rfl, rfl⟩
  | cons c cs ih =>
      obtain ⟨first, others⟩ := List.forall_mem_cons.mp inside
      have stays : Region.next .comment c = .comment := if_neg first
      obtain ⟨region, escaped, count⟩ := ih others
      refine ⟨?_, ?_, ?_⟩
      · show Region.after (Region.next .comment c) cs = _
        rw [stays, region]
      · rw [escapedLineEnds, stays, escaped]
        rfl
      · rw [List.count_cons_of_ne first, count]

theorem comment_parts (blank : (cs ++ rest).dropWhile (· ≠ '\n') = rest) :
    (∀ c ∈ cs, c ≠ '\n') ∧ (rest = [] ∨ rest.head? = some '\n') := by
  have whole := List.takeWhile_append_dropWhile (p := (· ≠ '\n')) (l := cs ++ rest)
  rw [blank] at whole
  have taken := List.append_cancel_right whole
  constructor
  · intro c member
    rw [← taken] at member
    simpa using List.all_eq_true.mp List.all_takeWhile c member
  · cases rest with
    | nil => exact .inl rfl
    | cons c rest =>
        have stops := List.head?_dropWhile_not (· ≠ '\n') (cs ++ c :: rest)
        rw [blank] at stops
        exact .inr (by simpa using stops)

-- What may stand before `rest` and is passed over: blanks, and then perhaps a comment, which goes on up
-- to the next line end or to the end of the text.
inductive IsGap (rest : List Char) : List Char → Prop where
  | none : IsGap rest []
  | blank : c = ' ' ∨ c = '\t' ∨ c = '\r' → IsGap rest gap → IsGap rest (c :: gap)
  | comment : (∀ c ∈ body, c ≠ '\n') → rest = [] ∨ rest.head? = some '\n' → IsGap rest ('#' :: body)

theorem isGap_of_skipped (blank : skipBlank (gap ++ rest) = rest) : IsGap rest gap := by
  induction gap with
  | nil => exact .none
  | cons c gap ih =>
      rw [List.cons_append, skipBlank] at blank
      split at blank
      · rename_i space
        exact .blank space (ih blank)
      · split at blank
        · rename_i hash
          subst hash
          obtain ⟨inside, closes⟩ := comment_parts blank
          exact .comment inside closes
        · have longer := congrArg List.length blank
          simp at longer
          omega

theorem IsGap.skipped (gap : IsGap rest cs) (bare : skipBlank rest = rest) : skipBlank (cs ++ rest) = rest := by
  induction gap with
  | none => exact bare
  | blank space _ ih => rw [List.cons_append, skipBlank, if_pos space, ih]
  | @comment body inside closes =>
      have apart : ¬ ('#' = ' ' ∨ '#' = '\t' ∨ '#' = '\r') := by decide
      rw [List.cons_append, skipBlank, if_neg apart, if_pos rfl,
        List.dropWhile_append_of_pos fun c member => decide_eq_true (inside c member)]
      rcases closes with rfl | lineEnd
      · rfl
      · obtain ⟨more, rfl⟩ := List.head?_eq_some_iff.mp lineEnd
        rfl

theorem unblank (token : read c cs = .ok lexeme) : skipBlank (c :: cs) = c :: cs := by
  have apart : c ≠ ' ' ∧ c ≠ '\t' ∧ c ≠ '\r' ∧ c ≠ '#' := by
    refine ⟨?_, ?_, ?_, ?_⟩ <;> rintro rfl <;> cases token
  simp [skipBlank, apart]

theorem gap_region (blank : skipBlank (gap ++ rest) = rest) :
    escapedLineEnds .code gap = 0 ∧ gap.count '\n' = 0 ∧ Stands gap rest := by
  induction isGap_of_skipped blank with
  | none => exact ⟨rfl, rfl, .inl rfl⟩
  | @blank c gap space _ ih =>
      rw [List.cons_append, skipBlank, if_pos space] at blank
      obtain ⟨escaped, count, stands⟩ := ih blank
      have code : Region.next .code c = .code := by rcases space with rfl | rfl | rfl <;> rfl
      have lineEnd : c ≠ '\n' := by rcases space with rfl | rfl | rfl <;> decide
      refine ⟨?_, ?_, ?_⟩
      · rw [escapedLineEnds, code, escaped]
        rfl
      · rw [List.count_cons_of_ne lineEnd, count]
      · unfold Stands Region.after at *
        rwa [List.foldl_cons, code]
  | @comment body inside closes =>
      obtain ⟨region, escaped, count⟩ := comment_region inside
      refine ⟨?_, count, .inr ⟨region, closes⟩⟩
      show 0 + escapedLineEnds .comment body = 0
      rw [escaped]

-- A token begins in the code and ends there. Behind a comment it is the line end that closes it.
theorem word_region (stands : Stands front (word ++ after)) (denotes : Denotes word token)
    (behind : Behind token after) :
    escapedLineEnds (Region.after .code front) word = escapedLineEnds .code word ∧
      Region.after .code (front ++ word) = .code := by
  obtain ⟨c, tail, lines, rfl, read, _, region⟩ := denotes_read denotes behind
  rw [Region.after_append]
  rcases stands with code | ⟨comment, closes⟩
  · rw [code]
    exact ⟨rfl, region⟩
  · have lineEnd : c = '\n' := by simpa using closes
    subst lineEnd
    cases tail with
    | nil =>
        rw [comment]
        exact ⟨rfl, rfl⟩
    | cons d tail =>
        have longer : d :: tail ++ after = after := congrArg (·.rest) (Except.ok.inj read)
        have length := congrArg List.length longer
        simp only [List.length_append, List.length_cons] at length
        omega

theorem lineAt_append (counted : lines + escapedLineEnds (Region.after .code front) cs = cs.count '\n') :
    lineAt (front ++ cs) = lineAt front + lines := by
  have before := lineAt_escaped front
  have behind := lineAt_escaped (front ++ cs)
  rw [escapedLineEnds_append, List.count_append] at behind
  omega

theorem lineAt_gap (code : Region.after .code front = .code) (blank : skipBlank (gap ++ rest) = rest) :
    lineAt (front ++ gap) = lineAt front := by
  obtain ⟨escaped, count, _⟩ := gap_region blank
  have counted : 0 + escapedLineEnds (Region.after .code front) gap = gap.count '\n' := by
    rw [code, escaped, count]
  exact lineAt_append counted

theorem itemsFrom_cuts (cuts : Cuts front (consumed ++ rest) pieces rest)
    (code : Region.after .code front = .code) :
    itemsFrom [] (lineAt front) (consumed ++ rest) =
        pieces.map (fun p => .ok p.located) ++ itemsFrom [] (lineAt (front ++ consumed)) rest ∧
      Region.after .code (front ++ consumed) = .code := by
  generalize whole : consumed ++ rest = cs at cuts ⊢
  induction cuts generalizing consumed with
  | none =>
      have empty : consumed = [] := by simpa using whole
      subst empty
      rw [List.append_nil]
      exact ⟨rfl, code⟩
  | @more gap word after token front pieces rest blank denotes behind cuts ih =>
      obtain ⟨inner, rfl⟩ := cuts.suffix
      have same : consumed = gap ++ (word ++ inner) := List.append_cancel_right (by simpa using whole)
      subst same
      obtain ⟨_, _, stands⟩ := gap_region blank
      have here := lineAt_gap code blank
      have stands : Stands (front ++ gap) (word ++ (inner ++ rest)) := by
        unfold Stands
        rwa [Region.after_append, code]
      obtain ⟨c, tail, lines, rfl, read, total, _⟩ := denotes_read denotes behind
      obtain ⟨inside, region⟩ := word_region stands denotes behind
      have there : lineAt (front ++ gap ++ c :: tail) = lineAt front + lines := by
        rw [← here]
        exact lineAt_append (by rw [inside, total])
      obtain ⟨items, region⟩ := ih region rfl
      have joined : front ++ (gap ++ (c :: tail ++ inner)) = front ++ gap ++ c :: tail ++ inner := by simp
      rw [joined, itemsFrom_unfold, blank]
      refine ⟨?_, region⟩
      simp only [List.cons_append, read]
      rw [← there, items, List.map_cons, Piece.located, here]
      rfl

theorem cuts_all (front cs : List Char) : ∃ pieces rest, Cuts front cs pieces rest ∧
    (skipBlank rest = [] ∨ ∃ c after cause, skipBlank rest = c :: after ∧ read c after = .error cause) := by
  cases blank : skipBlank cs with
  | nil => exact ⟨[], cs, .none, .inl blank⟩
  | cons c after =>
      cases token : read c after with
      | error cause => exact ⟨[], cs, .none, .inr ⟨c, after, cause, blank, token⟩⟩
      | ok lexeme =>
          have shorter := rest_shorter blank token
          obtain ⟨gap, whole⟩ := skipBlank_suffix cs
          obtain ⟨tail, rfl, denotes, behind⟩ := read_denotes token
          rw [blank] at whole
          obtain ⟨pieces, rest, cuts, stops⟩ := cuts_all (front ++ gap ++ c :: tail) lexeme.rest
          rw [← whole] at blank ⊢
          exact ⟨_, rest, .more blank denotes behind cuts, stops⟩
termination_by cs.length

theorem itemsFrom_ends (code : Region.after .code front = .code) (ends : skipBlank rest = []) :
    itemsFrom [] (lineAt front) rest = [.ok (Piece.located ⟨front ++ rest, .endOfScript⟩)] := by
  have blank : skipBlank (rest ++ []) = [] := by rwa [List.append_nil]
  rw [itemsFrom_unfold, ends, Piece.located, lineAt_gap code blank]

theorem cut_total (text : List Char) : ∃ pieces, Cut text pieces := by
  obtain ⟨pieces, rest, cuts, ends | ⟨c, after, cause, blank, token⟩⟩ := cuts_all [] text
  · exact ⟨_, .ends cuts ends⟩
  · exact ⟨_, .fails cuts blank token⟩

theorem Cuts.items_end {text : String} (cuts : Cuts [] text.toList pieces rest) (ends : skipBlank rest = []) :
    items text = (pieces.map fun p => .ok p.located) ++ [.ok (Piece.located ⟨text.toList, .endOfScript⟩)] := by
  unfold items
  generalize text.toList = cs at cuts ⊢
  obtain ⟨consumed, rfl⟩ := cuts.suffix
  obtain ⟨read, region⟩ := itemsFrom_cuts cuts rfl
  rw [List.nil_append] at read region
  have start : lineAt [] = 1 := rfl
  rw [← start, read, itemsFrom_ends region ends]

theorem Cuts.items_fail {text : String} (cuts : Cuts [] text.toList pieces rest) (blank : skipBlank rest = c :: after)
    (token : read c after = .error cause) :
    ∃ e, items text = (pieces.map fun p => .ok p.located) ++ [.error e] := by
  unfold items
  generalize text.toList = cs at cuts ⊢
  obtain ⟨consumed, rfl⟩ := cuts.suffix
  obtain ⟨read, _⟩ := itemsFrom_cuts cuts rfl
  have start : lineAt [] = 1 := rfl
  rw [← start, read, itemsFrom_unfold, blank]
  simp only [token]
  exact ⟨_, rfl⟩

theorem items_cut {text : String} (cut : Cut text.toList pieces) :
    (items text).filterMap Except.toOption = pieces.map Piece.located := by
  have passed (pieces : List Piece) :
      (pieces.map fun p => (.ok p.located : Item)).filterMap Except.toOption = pieces.map Piece.located := by
    rw [List.filterMap_map]
    exact congrFun List.filterMap_eq_map pieces
  generalize same : text.toList = cs at cut
  cases cut with
  | ends cuts ends =>
      subst same
      rw [cuts.items_end ends, List.filterMap_append, passed, List.map_append]
      rfl
  | fails cuts blank token =>
      subst same
      obtain ⟨e, read⟩ := cuts.items_fail blank token
      rw [read, List.filterMap_append, passed]
      exact List.append_nil _

theorem Cuts.fronts (cuts : Cuts front cs pieces rest) : ∀ p ∈ pieces, p.front <+: front ++ cs := by
  induction cuts with
  | none => exact nofun
  | @more gap word after token front pieces rest _ _ _ _ ih =>
      have joined : front ++ (gap ++ (word ++ after)) = front ++ gap ++ word ++ after := by simp
      refine List.forall_mem_cons.mpr ⟨?_, joined ▸ ih⟩
      rw [joined, List.append_assoc _ word]
      exact List.prefix_append _ _

theorem Cut.fronts {text : List Char} (cut : Cut text pieces) : ∀ p ∈ pieces, p.front <+: text := by
  cases cut with
  | ends cuts =>
      have whole : ∀ p ∈ [(⟨text, .endOfScript⟩ : Piece)], p.front <+: text := by simp
      exact List.forall_mem_append.mpr ⟨cuts.fronts, whole⟩
  | fails cuts => exact cuts.fronts

end KeywordConfig.Token
