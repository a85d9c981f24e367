import KeywordConfig.Proofs.Pieces
import KeywordConfig.Proofs.Relining
import KeywordConfig.Proofs.Delimiters

namespace KeywordConfig
open Grammar Token

namespace Token

theorem skipBlank_cons (c : Char) : (∀ rest, skipBlank (c :: rest) = skipBlank rest) ∨
    (∀ rest, skipBlank (c :: rest) = rest.dropWhile (· ≠ '\n')) ∨
    ∀ rest, skipBlank (c :: rest) = c :: rest := by
  by_cases space : c = ' ' ∨ c = '\t' ∨ c = '\r'
  · exact .inl fun rest => by rw [skipBlank, if_pos space]
  · by_cases hash : c = '#'
    · exact .inr (.inl fun rest => by rw [skipBlank, if_neg space, if_pos hash])
    · exact .inr (.inr fun rest => by rw [skipBlank, if_neg space, if_neg hash])

-- Where a blank ends depends on the first character behind it alone.
theorem skipBlank_head (blank : skipBlank (gap ++ c :: rest) = c :: rest) (other : List Char) :
    skipBlank (gap ++ c :: other) = c :: other := by
  induction gap with
  | nil =>
      rw [List.nil_append] at blank ⊢
      have shorter := (skipBlank_suffix rest).length_le
      have comment := (List.dropWhile_suffix (l := rest) (· ≠ '\n')).length_le
      rcases skipBlank_cons c with space | hash | stops
      · rw [← space, blank, List.length_cons] at shorter
        omega
      · rw [← hash, blank, List.length_cons] at comment
        omega
      · exact stops other
  | cons g gap ih =>
      rw [List.cons_append] at blank ⊢
      rcases skipBlank_cons g with space | hash | stops
      · rw [space] at blank ⊢
        exact ih blank
      · rw [hash] at blank ⊢
        obtain ⟨inside, closes⟩ := comment_parts blank
        have lineEnd : c = '\n' := by simpa using closes
        have inside : ∀ c ∈ gap, decide (c ≠ '\n') := by simpa using inside
        rw [List.dropWhile_append_of_pos inside, lineEnd]
        rfl
      · rw [stops] at blank
        have longer := congrArg List.length blank
        simp at longer
        omega

theorem skipBlank_lineEnd (blank : skipBlank (gap ++ back) = skipBlank back) :
    skipBlank (gap ++ '\n' :: other) = '\n' :: other := by
  have kept := (skipBlank_suffix back).length_le
  induction gap with
  | nil => rfl
  | cons g gap ih =>
      rw [List.cons_append] at blank ⊢
      rcases skipBlank_cons g with space | hash | stops
      · rw [space] at blank ⊢
        exact ih blank
      · rw [hash, List.dropWhile_append] at blank ⊢
        by_cases inside : (gap.dropWhile (· ≠ '\n')).isEmpty
        · rw [if_pos inside]
          rfl
        · rw [if_neg inside] at blank
          have some := List.length_pos_iff.mpr fun empty => inside (List.isEmpty_iff.mpr empty)
          rw [← blank, List.length_append] at kept
          omega
      · rw [stops] at blank
        rw [← blank, List.length_cons, List.length_append] at kept
        omega

theorem noDigit_lineEnd (front : List Char) (stop : NoDigit (front ++ back)) :
    NoDigit (front ++ '\n' :: other) := by
  cases front with
  | nil =>
      intro c first
      cases first
      rfl
  | cons c front => exact stop

-- A line end further behind does not make a token longer. Only behind a colon of its own it could
-- make a label of a name.
theorem behind_lineEnd {front : List Char} (apart : front ≠ [':']) (behind : Behind token (front ++ back)) :
    Behind token (front ++ '\n' :: other) := by
  have extends_ (goes : Extends (front ++ '\n' :: other)) : Extends (front ++ back) := by
    generalize whole : front ++ '\n' :: other = cs at goes
    cases goes with
    | char more =>
        cases front with
        | nil => cases whole; cases more
        | cons c front => cases whole; exact .char more
    | path start =>
        rcases front with _ | ⟨c, _ | ⟨d, _ | ⟨e, front⟩⟩⟩
        · cases whole
        · cases whole
        · cases whole; cases start
        · cases whole; exact .path start
  have head (first : (front ++ '\n' :: other).head? = some ':') : (front ++ back).head? = some ':' := by
    cases front with
    | nil => cases first
    | cons c front => exact first
  have labels (labels : Labels (front ++ '\n' :: other)) : Labels (front ++ back) := by
    generalize whole : front ++ '\n' :: other = cs at labels
    cases labels with
    | colon other =>
        rcases front with _ | ⟨c, _ | ⟨d, front⟩⟩
        · cases whole
        · cases whole; exact absurd rfl apart
        · cases whole; exact .colon other
  cases token with
  | ident => exact ⟨fun goes => behind.1 (extends_ goes), fun made => behind.2 (labels made)⟩
  | label => exact fun first => behind (head first)
  | symbol => exact fun goes => behind (extends_ goes)
  | float => exact noDigit_lineEnd front behind
  | int =>
      refine ⟨noDigit_lineEnd front behind.1, ?_⟩
      intro after point
      cases front with
      | nil => cases point
      | cons c front => cases point; exact noDigit_lineEnd front (behind.2 _ rfl)
  | _ => trivial

theorem denotes_cons (denotes : Denotes word token) : ∃ c tail, word = c :: tail := by
  cases denotes with
  | ident name => cases name with | start => exact ⟨_, _, rfl⟩
  | label name => cases name with | start => exact ⟨_, _, rfl⟩
  | int whole =>
      obtain ⟨c, cs, rfl⟩ := List.exists_cons_of_ne_nil whole.some
      exact List.exists_cons_of_ne_nil (by simp)
  | float whole => exact List.exists_cons_of_ne_nil (by simp)
  | _ => exact ⟨_, _, rfl⟩

theorem not_denotes_colon : ¬ Denotes [':'] token := by
  intro denotes
  generalize same : [':'] = word at denotes
  cases denotes with
  | newline | arrow => cases same
  | mark found => cases same; cases found
  | ident name => cases name with | start start => cases same; cases start
  | label name => cases name with | start => simp at same
  | symbol name => cases name with | start => cases same
  | str => simp at same
  | @int digits _ negative whole =>
      obtain ⟨c, cs, rfl⟩ := List.exists_cons_of_ne_nil whole.some
      have digit := whole.all c List.mem_cons_self
      cases negative <;> cases same
      cases digit
  | @float digits decimals negative whole fraction =>
      have length := congrArg List.length same
      have some := List.length_pos_iff.mpr fraction.some
      simp at length
      omega

theorem Cuts.ne_colon (cuts : Cuts front (consumed ++ rest) pieces rest) : consumed ≠ [':'] := by
  rintro rfl
  generalize whole : [':'] ++ rest = cs at cuts
  cases cuts with
  | none => simpa using congrArg List.length whole
  | more blank denotes behind cuts =>
      rename_i gap word after token pieces
      obtain ⟨inner, rfl⟩ := cuts.suffix
      obtain ⟨c, tail, rfl⟩ := denotes_cons denotes
      have same : [':'] = gap ++ (c :: tail ++ inner) := List.append_cancel_right (by simpa using whole)
      cases gap with
      | nil =>
          obtain ⟨rfl, none⟩ := List.cons_eq_cons.mp same
          obtain ⟨rfl, _⟩ := List.append_eq_nil_iff.mp none.symm
          exact not_denotes_colon denotes
      | cons g gap => simpa using congrArg List.length same

theorem Cuts.lineEnd (cuts : Cuts front (consumed ++ (gap ++ back)) pieces (gap ++ back))
    (blank : skipBlank (gap ++ back) = skipBlank back) :
    Cuts front (consumed ++ (gap ++ '\n' :: other)) pieces (gap ++ '\n' :: other) := by
  generalize last : gap ++ back = rest at cuts
  generalize whole : consumed ++ rest = cs at cuts
  induction cuts generalizing consumed with
  | none =>
      have empty : consumed = [] := by simpa using whole
      subst empty
      exact .none
  | @more first word after token front pieces rest passed denotes behind cuts ih =>
      subst last
      obtain ⟨inner, rfl⟩ := cuts.suffix
      obtain ⟨c, tail, rfl⟩ := denotes_cons denotes
      have same : consumed = first ++ (c :: tail ++ inner) := List.append_cancel_right (by simpa using whole)
      subst same
      have apart : inner ++ gap ≠ [':'] := by
        intro colon
        rcases List.append_eq_singleton_iff.mp colon with ⟨rfl, rfl⟩ | ⟨rfl, rfl⟩
        · have shorter := (skipBlank_suffix back).length_le
          have stays : skipBlank ([':'] ++ back) = ':' :: back := rfl
          rw [← blank, stays, List.length_cons] at shorter
          omega
        · exact cuts.ne_colon rfl
      have ahead : Behind token (inner ++ (gap ++ '\n' :: other)) := by
        rw [← List.append_assoc] at behind ⊢
        exact behind_lineEnd apart behind
      have joined : first ++ (c :: tail ++ inner) ++ (gap ++ '\n' :: other) =
          first ++ (c :: tail ++ (inner ++ (gap ++ '\n' :: other))) := by simp
      rw [joined]
      exact .more (skipBlank_head passed _) denotes ahead (ih rfl rfl)

theorem itemsFrom_blank (line : Nat) (same : skipBlank cs = skipBlank others) :
    itemsFrom [] line cs = itemsFrom [] line others := by
  rw [itemsFrom_unfold, itemsFrom_unfold, same]

theorem itemsFrom_tokens {tokens : List Located} (all : itemsFrom [] line cs = tokens.map .ok) :
    (skipBlank cs = [] ∧ tokens = [⟨.endOfScript, line⟩]) ∨
      ∃ c rest lexeme others, skipBlank cs = c :: rest ∧ read c rest = .ok lexeme ∧
        tokens = ⟨lexeme.token, line⟩ :: others ∧
        itemsFrom [] (line + lexeme.lines) lexeme.rest = others.map .ok := by
  rw [itemsFrom_unfold] at all
  cases blank : skipBlank cs with
  | nil =>
      simp only [blank] at all
      obtain ⟨t, rest, rfl, first, none⟩ := List.map_eq_cons_iff.mp all.symm
      cases first
      exact .inl ⟨rfl, congrArg _ (List.map_eq_nil_iff.mp none)⟩
  | cons c rest =>
      cases token : read c rest with
      | error =>
          simp only [blank, token] at all
          obtain ⟨t, rest, rfl, first, _⟩ := List.map_eq_cons_iff.mp all.symm
          cases first
      | ok lexeme =>
          simp only [blank, token] at all
          obtain ⟨t, others, rfl, first, behind⟩ := List.map_eq_cons_iff.mp all.symm
          cases first
          exact .inr ⟨c, rest, lexeme, others, rfl, token, rfl, behind.symm⟩

theorem itemsFrom_later (lines line : Nat) (cs : List Char) : itemsFrom [] (line + lines) cs =
    (itemsFrom [] line cs).map (Script.relinedBy (· + lines) (Located.relined (· + lines))) := by
  rw [itemsFrom_unfold, itemsFrom_unfold line]
  cases blank : skipBlank cs with
  | nil => rfl
  | cons c rest =>
      cases token : read c rest with
      | error => simp only [token]; rfl
      | ok lexeme =>
          have shorter := rest_shorter blank token
          have later := itemsFrom_later lines (line + lexeme.lines) lexeme.rest
          rw [Nat.add_right_comm] at later
          simp only [token, later]
          rfl
termination_by cs.length

theorem itemsFrom_unlined {tokens : List Located} (other : Nat) (all : itemsFrom [] line cs = tokens.map .ok) :
    ∃ others : List Located, itemsFrom [] other cs = others.map .ok ∧
      others.map (Located.relined fun _ => 0) = tokens.map (Located.relined fun _ => 0) := by
  rw [itemsFrom_unfold]
  rcases itemsFrom_tokens all with ⟨blank, rfl⟩ | ⟨c, rest, lexeme, behind, blank, token, rfl, inner⟩
  · simp only [blank]
    exact ⟨[⟨.endOfScript, other⟩], rfl, rfl⟩
  · have shorter := rest_shorter blank token
    obtain ⟨others, again, same⟩ := itemsFrom_unlined (other + lexeme.lines) inner
    simp only [blank, token, again]
    refine ⟨⟨lexeme.token, other⟩ :: others, rfl, ?_⟩
    rw [List.map_cons, List.map_cons, same]
    rfl
termination_by cs.length

end Token

namespace Script

theorem body_opened (body : Body) : body.opened.head? = some d → ∃ closer, d = .block closer := by
  intro first
  cases body with
  | script => cases first
  | block => cases first; exact ⟨_, rfl⟩

theorem parens_of_opened {a : Arguments} (inside : a.opened.head? = some d)
    (value : ∀ closer, d ≠ .block closer) : a.parens ∧ d = .paren := by
  unfold Arguments.opened at inside
  split at inside
  · rename_i parens
    cases inside
    exact ⟨parens, rfl⟩
  · obtain ⟨closer, block⟩ := body_opened a.body inside
    exact absurd block (value closer)

def ArrowAhead (tokens : List Located) : Prop := Starts (· = .arrow) (fun _ => True) tokens

theorem not_closedBy_arrow (body : Body) : closedBy body .arrow = false := by
  cases body with
  | script => rfl
  | block closer => cases closer <;> rfl

-- An arrow may stand behind a value that can be a key, and nowhere else.
theorem not_accepts_arrow (argument : ∀ a value line, place ≠ .positional a value line)
    (key : ∀ entries name around, place ≠ .afterKey entries name around) (ahead : ArrowAhead tokens) :
    ¬ Accepts limit place tokens calls := by
  obtain ⟨_, line, rest, rfl, rfl, _⟩ := ahead
  rw [accepts_cons]
  cases place with
  | positional a value start => exact absurd rfl (argument a value start)
  | afterKey entries name around => exact absurd rfl (key entries name around)
  | afterArgument a =>
      cases parens : a.parens <;>
        simp [step, atAfterArgument, parens, atBlock, blockCloser?, atSeparator, not_closedBy_arrow]
  | statement | blockStart => simp [step, atStatement, not_closedBy_arrow]
  | separator | arguments => simp [step, atBlock, blockCloser?, atSeparator, not_closedBy_arrow]
  | name | keyword =>
      simp [step, atKeyword, startsArgument, atBlock, blockCloser?, atSeparator, not_closedBy_arrow]
  | firstArgument | argument => simp [step, atArgument, atValue, literal?]
  | value | item | key | entry => simp [step, atValue, literal?]
  | _ => simp [step]

theorem afterArgument_lineEnd (parens : a.parens) :
    Accepts limit (.afterArgument a) (⟨.newline, line⟩ :: rest) calls ↔
      Accepts limit (.afterArgument a) rest calls := by
  simp [accepts_cons, step, atAfterArgument, parens]

-- Between the tokens of an argument list in parentheses, of a list and of a mapping a line end is
-- passed over, but for two kinds of places: before a value that has to come next, and before an arrow.
theorem accepts_lineEnd (inside : place.opened.head? = some d) (value : ∀ closer, d ≠ .block closer) :
    Accepts limit place (⟨.newline, line⟩ :: rest) calls ↔
      (∀ hole, place ≠ .value hole) ∧ ¬ ArrowAhead rest ∧ Accepts limit place rest calls := by
  have passed (passes : Accepts limit place (⟨.newline, line⟩ :: rest) calls ↔ Accepts limit place rest calls)
      (argument : ∀ a value line, place ≠ .positional a value line)
      (key : ∀ entries name around, place ≠ .afterKey entries name around)
      (other : ∀ hole, place ≠ .value hole) :
      Accepts limit place (⟨.newline, line⟩ :: rest) calls ↔
        (∀ hole, place ≠ .value hole) ∧ ¬ ArrowAhead rest ∧ Accepts limit place rest calls := by
    rw [passes]
    constructor
    · intro accepts
      exact ⟨other, fun ahead => not_accepts_arrow argument key ahead accepts, accepts⟩
    · exact fun parts => parts.2.2
  cases place with
  | firstArgument a => exact passed Iff.rfl nofun nofun nofun
  | argument a => exact passed Iff.rfl nofun nofun nofun
  | item items around => exact passed Iff.rfl nofun nofun nofun
  | afterItem items around => exact passed Iff.rfl nofun nofun nofun
  | key entries around => exact passed Iff.rfl nofun nofun nofun
  | entry entries key around => exact passed Iff.rfl nofun nofun nofun
  | afterEntry entries around => exact passed Iff.rfl nofun nofun nofun
  | afterArgument a =>
      obtain ⟨parens, _⟩ := parens_of_opened inside value
      exact passed (afterArgument_lineEnd parens) nofun nofun nofun
  | positional a start begin =>
      obtain ⟨parens, _⟩ := parens_of_opened inside value
      have later (more : Arguments) (added : a.add (.positional start) = some more) : more.parens :=
        (Arguments.add_around added).2.2.trans parens
      constructor
      · intro accepts
        rcases positional_iff.mp accepts with arrow | ⟨more, added, accepts⟩
        · simp at arrow
        · have behind := (afterArgument_lineEnd (later more added)).mp accepts
          refine ⟨nofun, ?_, positional_iff.mpr (.inr ⟨more, added, behind⟩)⟩
          exact fun ahead => absurd behind (not_accepts_arrow nofun nofun ahead)
      · rintro ⟨_, none, accepts⟩
        rcases positional_iff.mp accepts with ⟨token, line, after, same, arrow, _⟩ | ⟨more, added, accepts⟩
        · exact absurd ⟨token, line, after, same, arrow, trivial⟩ none
        · have parens := later more added
          exact positional_iff.mpr (.inr ⟨more, added, (afterArgument_lineEnd parens).mpr accepts⟩)
  | value hole =>
      have refused : ¬ Accepts limit (.value hole) (⟨.newline, line⟩ :: rest) calls := by
        simp [accepts_cons, step, atValue, literal?]
      exact iff_of_false refused fun parts => parts.1 hole rfl
  | afterKey entries key around =>
      have refused : ¬ Accepts limit (.afterKey entries key around) (⟨.newline, line⟩ :: rest) calls := by
        simp [accepts_cons, step]
      refine iff_of_false refused ?_
      rintro ⟨_, none, accepts⟩
      obtain ⟨token, line, after, same, arrow, _⟩ := afterKey_iff.mp accepts
      exact none ⟨token, line, after, same, arrow, trivial⟩
  | statement body | separator body | name body | dot body | keyword body | arguments body =>
      obtain ⟨closer, block⟩ := body_opened body inside
      exact absurd block (value closer)
  | blockStart | blockParam | blockPipe =>
      cases inside
      exact absurd rfl (value _)

theorem accepts_reached (reached : reach? limit place front = some middle) :
    Accepts limit place (front ++ back) calls ↔ Accepts limit middle back calls := by
  induction front generalizing place with
  | nil => cases reached; exact Iff.rfl
  | cons t front ih =>
      simp only [reach?, List.foldlM_cons, Option.bind_eq_bind, Option.bind_eq_some_iff] at reached
      obtain ⟨next, first, others⟩ := reached
      rw [List.cons_append, accepts_cons, next?_iff.mp first]
      exact ih others

theorem accepts_unlined {tokens others : List Located} {calls : List Call}
    (same : others.map (Located.relined fun _ => 0) = tokens.map (Located.relined fun _ => 0))
    (accepts : Accepts limit place tokens calls) : ∃ all, Accepts limit place others all ∧
      Call.relinedAll (fun _ => 0) all = Call.relinedAll (fun _ => 0) calls := by
  have first := (accepts_resumed (fun _ => 0) [] limit place tokens _).mpr ⟨calls, accepts, rfl⟩
  rw [← same] at first
  obtain ⟨all, second, equal⟩ := (accepts_resumed (fun _ => 0) [] limit place others _).mp first
  exact ⟨all, second, equal.symm⟩

def tree? (text : List Char) : Option (List Call) :=
  (parse (String.ofList text)).toOption.map (Call.relinedAll fun _ => 0)

theorem tree?_some {text : List Char} : tree? text = some tree ↔
    ∃ calls, parse (String.ofList text) = .ok calls ∧ Call.relinedAll (fun _ => 0) calls = tree := by
  unfold tree?
  cases parse (String.ofList text) with
  | error => simp [Except.toOption]
  | ok calls => simp [Except.toOption]

theorem parse_reached {text : List Char} {front : List Located}
    (read : Token.itemsFrom [] 1 text = front.map .ok ++ others)
    (reached : reach? maxNesting (.statement (.script [])) front = some place) :
    parse (String.ofList text) = .ok calls ↔
      ∃ tokens, others = tokens.map .ok ∧ Accepts maxNesting place tokens calls := by
  have whole : Token.Whole (Token.items (String.ofList text)) := Token.itemsFrom_whole _ _
  refine (run_iff whole).trans ?_
  rw [Token.items, String.toList_ofList, read]
  constructor
  · rintro ⟨tokens, same, accepts⟩
    obtain ⟨first, second, rfl, one, two⟩ := List.append_eq_map_iff.mp same
    have one : first = front := List.map_injective_iff.mpr (fun _ _ => Except.ok.inj) one
    rw [one, accepts_reached reached] at accepts
    exact ⟨second, two.symm, accepts⟩
  · rintro ⟨tokens, rfl, accepts⟩
    refine ⟨front ++ tokens, by simp, ?_⟩
    rwa [accepts_reached reached]

-- The value of a key in parentheses has to come next, or an arrow does.
def Tight (d : Delimiter) (last : Token) (back : List Char) : Prop :=
  (d = .paren ∧ last.isKey) ∨ ['=', '>'] <+: skipBlank back

theorem waits_iff (sound : Sound last place) (inside : place.opened.head? = some d)
    (value : ∀ closer, d ≠ .block closer) : (∃ hole, place = .value hole) ↔ d = .paren ∧ last.isKey := by
  constructor
  · rintro ⟨hole, rfl⟩
    obtain ⟨key, a, name, rfl⟩ := sound
    exact ⟨(parens_of_opened inside value).2, key⟩
  · rintro ⟨rfl, key⟩
    cases place with
    | value hole => exact ⟨hole, rfl⟩
    | firstArgument => simp [Sound, key] at sound
    | _ => exact absurd sound (by simp [Sound, key, inside])

theorem denotes_arrow : Denotes word .arrow → word = ['=', '>'] := by
  intro denotes
  generalize same : Token.arrow = token at denotes
  cases denotes with
  | arrow => rfl
  | mark mark =>
      subst same
      cases mark
  | _ => cases same

theorem arrowAhead_iff (all : itemsFrom [] line back = tokens.map .ok) :
    ArrowAhead tokens ↔ ['=', '>'] <+: skipBlank back := by
  rcases itemsFrom_tokens all with ⟨blank, rfl⟩ | ⟨c, rest, lexeme, others, blank, token, rfl, _⟩
  · simp [ArrowAhead, blank]
  · simp only [ArrowAhead, starts_cons, and_true, blank]
    constructor
    · intro arrow
      obtain ⟨tail, rfl, denotes, _⟩ := read_denotes token
      rw [arrow] at denotes
      have whole := denotes_arrow denotes
      exact ⟨lexeme.rest, by rw [← whole]; rfl⟩
    · rintro ⟨after, same⟩
      cases same
      cases token
      rfl

section

variable {consumed gap back : List Char} {pieces : List Piece} {place : Place}

theorem parse_front (cuts : Cuts [] (consumed ++ (gap ++ back)) pieces (gap ++ back))
    (reached : reach? maxNesting (.statement (.script [])) (pieces.map Piece.located) = some place) :
    parse (String.ofList (consumed ++ (gap ++ back))) = .ok calls ↔
      ∃ tokens, itemsFrom [] (lineAt consumed) (gap ++ back) = tokens.map .ok ∧
        Accepts maxNesting place tokens calls := by
  have start : lineAt [] = 1 := rfl
  have mapped : pieces.map (fun p => (.ok p.located : Item)) = (pieces.map Piece.located).map .ok := by simp
  obtain ⟨read, _⟩ := itemsFrom_cuts cuts rfl
  rw [start, mapped] at read
  exact parse_reached read reached

theorem parse_lineEnd (cuts : Cuts [] (consumed ++ (gap ++ back)) pieces (gap ++ back))
    (blank : skipBlank (gap ++ back) = skipBlank back)
    (reached : reach? maxNesting (.statement (.script [])) (pieces.map Piece.located) = some place)
    (inside : place.opened.head? = some d) (value : ∀ closer, d ≠ .block closer) :
    parse (String.ofList (consumed ++ (gap ++ '\n' :: back))) = .ok calls ↔
      ¬ Tight d (lastToken (pieces.map Piece.located)) back ∧
        ∃ tokens, itemsFrom [] (lineAt consumed + 1) back = tokens.map .ok ∧
          Accepts maxNesting place tokens calls := by
  obtain ⟨_, sound⟩ := reach_opened reached
  have waits := waits_iff sound inside value
  have read : itemsFrom [] (lineAt consumed) (gap ++ '\n' :: back) =
      .ok ⟨.newline, lineAt consumed⟩ :: itemsFrom [] (lineAt consumed + 1) back := by
    rw [itemsFrom_unfold, skipBlank_lineEnd blank]
    rfl
  rw [parse_front (cuts.lineEnd blank) reached, read, mapped_cons]
  simp only [accepts_lineEnd inside value]
  constructor
  · rintro ⟨tokens, same, apart, none, accepts⟩
    refine ⟨?_, tokens, same, accepts⟩
    rintro (key | arrow)
    · obtain ⟨hole, waiting⟩ := waits.mpr key
      exact apart hole waiting
    · exact none ((arrowAhead_iff same).mpr arrow)
  · rintro ⟨loose, tokens, same, accepts⟩
    refine ⟨tokens, same, ?_, ?_, accepts⟩
    · exact fun hole waiting => loose (.inl (waits.mp ⟨hole, waiting⟩))
    · exact fun ahead => loose (.inr ((arrowAhead_iff same).mp ahead))

end

-- A line end between two tokens of an argument list in parentheses, of a list or of a mapping changes
-- no call, but for two kinds of positions, where it makes an error: behind a label or an arrow in
-- parentheses, and before an arrow.
theorem lineEnd_within (cuts : Cuts [] (consumed ++ (gap ++ back)) pieces (gap ++ back))
    (blank : skipBlank (gap ++ back) = skipBlank back)
    (reached : reach? maxNesting (.statement (.script [])) (pieces.map Piece.located) = some place)
    (inside : place.opened.head? = some d) (value : ∀ closer, d ≠ .block closer) :
    (Tight d (lastToken (pieces.map Piece.located)) back →
      tree? (consumed ++ (gap ++ '\n' :: back)) = none) ∧
    (¬ Tight d (lastToken (pieces.map Piece.located)) back →
      tree? (consumed ++ (gap ++ '\n' :: back)) = tree? (consumed ++ (gap ++ back))) := by
  constructor
  · intro tight
    refine Option.eq_none_iff_forall_ne_some.mpr ?_
    intro tree some
    obtain ⟨calls, parsed, _⟩ := tree?_some.mp some
    exact ((parse_lineEnd cuts blank reached inside value).mp parsed).1 tight
  · intro loose
    ext tree
    simp only [tree?_some, parse_front cuts reached, parse_lineEnd cuts blank reached inside value,
      itemsFrom_blank _ blank]
    constructor
    · rintro ⟨calls, ⟨_, tokens, read, accepts⟩, rfl⟩
      obtain ⟨others, again, same⟩ := itemsFrom_unlined (lineAt consumed) read
      obtain ⟨all, accepts, equal⟩ := accepts_unlined same accepts
      exact ⟨all, ⟨others, again, accepts⟩, equal⟩
    · rintro ⟨calls, ⟨tokens, read, accepts⟩, rfl⟩
      obtain ⟨others, again, same⟩ := itemsFrom_unlined (lineAt consumed + 1) read
      obtain ⟨all, accepts, equal⟩ := accepts_unlined same accepts
      exact ⟨all, ⟨loose, others, again, accepts⟩, equal⟩

theorem lineEnd_within_list :
    let calls : List Call := [.plain ⟨"f", none, 1⟩ [.list [.int 1]]]
    parse "f([1])" = .ok calls ∧
      tree? ("f([".toList ++ ([] ++ '\n' :: "1])".toList)) = tree? ("f([".toList ++ ([] ++ "1])".toList)) := by
  intro calls
  have parsed : parse "f([1])" = .ok calls := by
    subst calls
    cbv
  have third : Cuts ['f', '('] ("[".toList ++ "1])".toList) [⟨['f', '('], .leftBracket⟩] "1])".toList :=
    .more (show skipBlank ([] ++ (['['] ++ "1])".toList)) = ['['] ++ "1])".toList from rfl) (.mark .leftBracket) trivial .none
  have second : Cuts ['f'] ("([".toList ++ "1])".toList) (⟨['f'], .leftParen⟩ :: _) "1])".toList :=
    .more (show skipBlank ([] ++ (['('] ++ "[1])".toList)) = ['('] ++ "[1])".toList from rfl) (.mark .leftParen)
      trivial third
  have alone : Behind (.ident "f") "([1])".toList := by
    constructor
    · intro goes
      cases goes with
      | char more => cases more
    · intro labels
      cases labels
  have first : Cuts [] ("f([".toList ++ ([] ++ "1])".toList)) (⟨[], .ident "f"⟩ :: _) ([] ++ "1])".toList) :=
    .more (show skipBlank ([] ++ (['f'] ++ "([1])".toList)) = ['f'] ++ "([1])".toList from rfl)
      (.ident (.start rfl .done)) alone second
  have loose : ¬ Tight .bracket .leftBracket "1])".toList := by
    rintro (⟨other, _⟩ | arrow)
    · cases other
    · exact absurd arrow (by decide)
  have bracket (closer : Closer) : Delimiter.bracket ≠ .block closer := by
    intro same
    cases same
  exact ⟨parsed, (lineEnd_within first rfl rfl rfl bracket).2 loose⟩

theorem lineEnd_behind_label :
    ∃ pieces place, Cuts [] ("f(a:".toList ++ "1)".toList) pieces "1)".toList ∧
      reach? maxNesting (.statement (.script [])) (pieces.map Piece.located) = some place ∧
      place.opened.head? = some .paren ∧
      parse "f(a:1)" = .ok [.plain ⟨"f", none, 1⟩ [.map [("a", .int 1)]]] ∧
      parse "f(a:\n1)" = .error ⟨.mismatch .value .newline, some 1⟩ := by
  have third : Cuts ['f', '('] ("a:".toList ++ "1)".toList) [⟨['f', '('], .label "a"⟩] "1)".toList :=
    .more (show skipBlank ([] ++ ((['a'] ++ [':']) ++ "1)".toList)) = (['a'] ++ [':']) ++ "1)".toList from rfl)
      (.label (.start rfl .done)) nofun .none
  have second : Cuts ['f'] ("(a:".toList ++ "1)".toList) (⟨['f'], .leftParen⟩ :: _) "1)".toList :=
    .more (show skipBlank ([] ++ (['('] ++ "a:1)".toList)) = ['('] ++ "a:1)".toList from rfl) (.mark .leftParen)
      trivial third
  have first : Cuts [] ("f(a:".toList ++ "1)".toList) (⟨[], .ident "f"⟩ :: _) "1)".toList :=
    .more (show skipBlank ([] ++ (['f'] ++ "(a:1)".toList)) = ['f'] ++ "(a:1)".toList from rfl)
      (.ident (.start rfl .done)) ⟨nofun, nofun⟩ second
  refine ⟨_, _, first, rfl, rfl, ?_, ?_⟩ <;> cbv

end Script

end KeywordConfig
