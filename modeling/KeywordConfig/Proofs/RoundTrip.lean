import KeywordConfig.Proofs.Spelling

namespace KeywordConfig
open Grammar Token

-- The line on which tokens begin, the tokens, and those behind the ones that are meant.
abbrev Form := Nat → List Located → List Located → Prop

-- On any line, and before any text that ends their last token, the characters are read as a form.
def Spells (form : Form) (cs : List Char) : Prop :=
  ∀ line rest, Stops rest →
    ∃ tokens, Reads line cs rest tokens ∧ ∀ behind, form line (tokens ++ behind) behind

abbrev Single (token : Token) : Form := fun line tokens rest => tokens = ⟨token, line⟩ :: rest

namespace Spells

variable {form first second : Form} {cs others : List Char}

theorem mono (spells : Spells first cs)
    (implies : ∀ {line tokens rest}, first line tokens rest → second line tokens rest) : Spells second cs := by
  intro line rest stops
  obtain ⟨tokens, reads, derived⟩ := spells line rest stops
  exact ⟨tokens, reads, fun behind => implies (derived behind)⟩

theorem single {token : Token} (reads : ∀ {line rest}, Stops rest → Reads line cs rest [⟨token, line⟩]) :
    Spells (Single token) cs :=
  fun _ _ stops => ⟨_, reads stops, fun _ => rfl⟩

theorem blank (spells : Spells form cs) : Spells form (' ' :: cs) := by
  intro line rest stops
  obtain ⟨tokens, reads, derived⟩ := spells line rest stops
  exact ⟨tokens, reads.blank, derived⟩

-- A token of one character, which needs nothing behind it to end.
theorem mark {token : Token} (found : mark? c = some token) (spells : Spells form cs) :
    Spells (fun line tokens rest => ∃ after, Single token line tokens after ∧ form line after rest)
      (c :: cs) := by
  intro line rest stops
  have same : line + [c].count '\n' = line := by
    rw [List.count_cons_of_ne (by rintro rfl; cases found)]
    rfl
  obtain ⟨tokens, reads, derived⟩ := spells line rest stops
  rw [← same] at reads
  exact ⟨_, (Reads.mark found).append reads, fun behind => ⟨_, rfl, derived behind⟩⟩

theorem append (front : Spells first cs) (back : Spells second others)
    (stops : ∀ {rest}, Stops rest → Stops (others ++ rest)) :
    Spells (fun line tokens rest => ∃ middle, first line tokens middle ∧
      second (line + cs.count '\n') middle rest) (cs ++ others) := by
  intro line rest stopped
  obtain ⟨tokens, reads, one⟩ := front line _ (stops stopped)
  obtain ⟨more, again, two⟩ := back (line + cs.count '\n') rest stopped
  refine ⟨_, reads.append again, fun behind => ⟨more ++ behind, ?_, two behind⟩⟩
  rw [List.append_assoc]
  exact one _

end Spells

abbrev SpellsValue (room : Nat) (value : Value) : List Char → Prop :=
  Spells fun _ tokens rest => IsValue room tokens value rest

abbrev SpellsEach (one : α → List Located → List Located → Prop) : List (List Char) → List α → Prop :=
  List.Forall₂ fun cs a => Spells (fun _ => one a) cs

namespace Printer

theorem commas_spelled {one : α → List Located → List Located → Prop}
    (row : List α → List Located → List Located → Prop) {closing : List Char} {closer : Token}
    (closes : Spells (Single closer) closing) (stops : ∀ rest, Stops (closing ++ rest))
    (none : ∀ {line rest}, row [] (⟨closer, line⟩ :: rest) rest)
    (last : ∀ {line a tokens rest}, one a tokens (⟨closer, line⟩ :: rest) → row [a] tokens rest)
    (more : ∀ {line a b others tokens next rest}, one a tokens (⟨.comma, line⟩ :: next) →
      row (b :: others) next rest → row (a :: b :: others) tokens rest)
    (all : SpellsEach one texts as) : Spells (fun _ => row as) (commas texts ++ closing) := by
  induction all with
  | nil => exact closes.mono fun same => same ▸ none
  | @cons cs a texts as first others ih =>
      cases others with
      | nil =>
          rw [commas, List.intercalate_singleton]
          refine (first.append closes fun _ => stops _).mono ?_
          intro line tokens rest parts
          obtain ⟨_, derived, rfl⟩ := parts
          exact last derived
      | cons =>
          rw [commas, List.intercalate_cons_cons, List.append_assoc, List.append_assoc]
          refine (first.append (Spells.mark (c := ',') rfl ih.blank) fun _ => stops_cons rfl).mono ?_
          intro line tokens rest parts
          obtain ⟨_, derived, _, rfl, rows⟩ := parts
          exact more derived rows

theorem literal_spelled (literal : Literal token value) (spells : Spells (Single token) cs) :
    SpellsValue room value cs :=
  spells.mono fun same => same ▸ .literal literal

theorem name_spelled {name : String} (named : IsName name.toList) :
    Spells (Single (.ident name)) name.toList :=
  .single fun stops => .name named (stops.behind _)

theorem quoted_spelled (quote : Quote) (text : String) :
    Spells (Single (.str text)) (quoted quote text) :=
  .single fun _ => quoted_read quote text

theorem pair_spelled (quote : Quote) (key : String) (value : SpellsValue room v cs) :
    Spells (fun _ tokens rest => ∃ line after, IsValue room tokens (.str key) (⟨.arrow, line⟩ :: after) ∧
      IsValue room after v rest) (pair quote key cs) := by
  have arrow : Spells (Single .arrow) ['=', '>'] := .single fun _ => .single .arrow trivial rfl
  have behind := (arrow.append value.blank fun _ => stops_cons rfl).blank
  refine ((quoted_spelled quote key).append behind fun _ => stops_cons rfl).mono ?_
  intro line tokens rest parts
  obtain ⟨_, rfl, after, rfl, derived⟩ := parts
  exact ⟨_, after, .literal .str, derived⟩

theorem elements_spelled {items : List Value}
    (all : SpellsEach (fun item tokens rest => IsValue room tokens item rest) texts items) :
    Spells (fun _ tokens rest => IsElements room tokens items rest) (commas texts ++ [']']) :=
  commas_spelled (fun items tokens rest => IsElements room tokens items rest) (.single fun _ => .mark rfl)
    (fun _ => stops_cons rfl) (.none .none) (fun value => .last .none value .none)
    (fun value rest => .more .none value .none rest) all

theorem entries_spelled {entries : List (String × Value)}
    (all : SpellsEach (fun entry tokens rest => IsEntry room tokens entry rest) texts entries) :
    Spells (fun _ tokens rest => IsEntries room tokens entries rest) (commas texts ++ [' ', '\x7d']) :=
  commas_spelled (fun entries tokens rest => IsEntries room tokens entries rest)
    (Spells.single fun _ => .mark rfl).blank (fun _ => stops_cons rfl) (.none .none)
    (fun entry => .last .none entry .none) (fun entry rest => .more .none entry .none rest) all

theorem itemTexts_spelled {items : List Value} (fits : Value.itemsNesting items ≤ room) (style : Style)
    (each : ∀ item ∈ items, ∀ style, item.nesting ≤ room → SpellsValue room item (valueText style item)) :
    SpellsEach (fun item tokens rest => IsValue room tokens item rest) (itemTexts style items) items := by
  induction items generalizing style with
  | nil => exact .nil
  | cons item rest ih =>
      obtain ⟨first, others⟩ := Nat.max_le.mp fits
      obtain ⟨here, behind⟩ := List.forall_mem_cons.mp each
      exact .cons (here style.front first) (ih others style.back behind)

theorem entryTexts_spelled {entries : List (String × Value)} (fits : Value.entriesNesting entries ≤ room)
    (style : Style) (each : ∀ entry ∈ entries, ∀ style, entry.2.nesting ≤ room →
      SpellsValue room entry.2 (valueText style entry.2)) :
    SpellsEach (fun entry tokens rest => IsEntry room tokens entry rest) (entryTexts style entries) entries := by
  induction entries generalizing style with
  | nil => exact .nil
  | cons entry rest ih =>
      obtain ⟨first, others⟩ := Nat.max_le.mp fits
      obtain ⟨here, behind⟩ := List.forall_mem_cons.mp each
      refine .cons ?_ (ih others style.back behind)
      refine (pair_spelled style.here.quote entry.1 (here style.front first)).mono ?_
      intro line tokens rest parts
      obtain ⟨_, _, key, value⟩ := parts
      exact .arrow key .none value

theorem value_spelled (printable : Value.Printable v) (style : Style) (fits : v.nesting ≤ room) :
    SpellsValue room v (valueText style v) := by
  induction printable generalizing style room with
  | null => exact literal_spelled .nil (name_spelled (isName_plain rfl rfl))
  | @bool b =>
      cases b with
      | false => exact literal_spelled .no (name_spelled (isName_plain rfl rfl))
      | true => exact literal_spelled .yes (name_spelled (isName_plain rfl rfl))
  | int => exact literal_spelled .int (.single fun stops => int_read _ (stops.behind _))
  | str => exact literal_spelled .str (quoted_spelled _ _)
  | list _ each =>
      cases room with
      | zero => exact absurd fits (Nat.not_succ_le_zero _)
      | succ room =>
          have all := itemTexts_spelled (Nat.le_of_succ_le_succ fits) style fun item member style =>
            each item member style
          refine (Spells.mark (c := '[') rfl (elements_spelled all)).mono ?_
          intro line tokens rest parts
          obtain ⟨after, rfl, elements⟩ := parts
          exact .list elements
  | map distinct _ each =>
      cases room with
      | zero => exact absurd fits (Nat.not_succ_le_zero _)
      | succ room =>
          have all := entryTexts_spelled (Nat.le_of_succ_le_succ fits) style fun entry member style =>
            each entry member style
          refine (Spells.mark (c := '\x7b') rfl (entries_spelled all).blank).mono ?_
          intro line tokens rest parts
          obtain ⟨after, rfl, entries⟩ := parts
          rw [← Keyed.ofList_eq distinct]
          exact .map entries

theorem arguments_gathers (printable : ∀ arg ∈ args, Value.Printable arg) :
    Gathers (arguments args) args ∧ ∀ argument ∈ arguments args, argument.value.Printable := by
  fun_induction arguments args with
  | case1 => exact ⟨⟨[], [], rfl, rfl⟩, nofun⟩
  | case2 entry entries =>
      cases printable _ List.mem_cons_self with
      | map distinct inside =>
          refine ⟨⟨[], entry :: entries, rfl, ?_⟩, List.forall_mem_map.mpr inside⟩
          rw [Keyed.ofList_eq distinct]
          rfl
  | case3 value rest last ih =>
      obtain ⟨first, others⟩ := List.forall_mem_cons.mp printable
      obtain ⟨⟨values, pairs, same, made⟩, inside⟩ := ih others
      refine ⟨⟨value :: values, pairs, ?_, ?_⟩, List.forall_mem_cons.mpr ⟨first, inside⟩⟩
      · rw [same]
        rfl
      · rw [made]
        split <;> rfl

theorem argument_spelled (printable : argument.value.Printable) (fits : argument.value.nesting ≤ room)
    (style : Style) :
    Spells (fun _ tokens rest => IsArgument room tokens argument rest) (argumentText style argument) := by
  have inside := value_spelled printable style.front fits
  cases argument with
  | positional => exact inside.mono .value
  | named key =>
      refine (pair_spelled style.here.quote key inside).mono ?_
      intro line tokens rest parts
      obtain ⟨_, _, name, value⟩ := parts
      exact .arrow name value

theorem argumentTexts_spelled {arguments : List Argument} (fits : Argument.nesting arguments ≤ room)
    (style : Style) (printable : ∀ argument ∈ arguments, argument.value.Printable) :
    SpellsEach (fun argument tokens rest => IsArgument room tokens argument rest)
      (argumentTexts style arguments) arguments := by
  induction arguments generalizing style with
  | nil => exact .nil
  | cons argument rest ih =>
      obtain ⟨first, others⟩ := Nat.max_le.mp fits
      obtain ⟨here, behind⟩ := List.forall_mem_cons.mp printable
      exact .cons (argument_spelled here first style) (ih others style.back behind)

-- What stands behind the opening parenthesis of no arguments, or of some.
def Row (room : Nat) (arguments : List Argument) (tokens rest : List Located) : Prop :=
  ∃ close, arguments = [] ∧ tokens = ⟨.rightParen, close⟩ :: rest ∨
    IsArguments true room tokens arguments (⟨.rightParen, close⟩ :: rest)

theorem row_spelled {arguments : List Argument}
    (all : SpellsEach (fun argument tokens rest => IsArgument room tokens argument rest) texts arguments) :
    Spells (fun _ => Row room arguments) (commas texts ++ [')']) := by
  refine commas_spelled (Row room) (.single fun _ => .mark rfl) (fun _ => stops_cons rfl)
    ⟨_, .inl ⟨rfl, rfl⟩⟩ (fun argument => ⟨_, .inr (.last argument)⟩) ?_ all
  intro line a b others tokens next rest argument parts
  obtain ⟨close, ⟨none, _⟩ | others⟩ := parts
  · cases none
  · exact ⟨close, .inr (.more argument .none .none others)⟩

theorem argumentList_spelled (printable : ∀ arg ∈ args, Value.Printable arg)
    (fits : Argument.nesting (arguments args) ≤ room) (style : Style) :
    Spells (fun _ tokens rest => IsTail room tokens (some args) rest) (argumentList style args) := by
  obtain ⟨gathers, inside⟩ := arguments_gathers printable
  have row := row_spelled (argumentTexts_spelled fits style inside)
  refine (Spells.mark (c := '(') rfl row).mono ?_
  intro line tokens rest parts
  obtain ⟨after, rfl, close, ⟨none, rfl⟩ | some⟩ := parts
  · obtain ⟨values, pairs, same, made⟩ := gathers
    obtain ⟨novalue, nopair⟩ := List.append_eq_nil_iff.mp (same.symm.trans none)
    rw [made, List.map_eq_nil_iff.mp novalue, List.map_eq_nil_iff.mp nopair]
    exact .empty .none
  · exact .parens .none some .none gathers

theorem head_spelled {head : Head} (printable : head.Printable) :
    Spells (fun line tokens rest => IsHead tokens { head with line } rest) (headText head) := by
  obtain ⟨keyword, receiver, _⟩ := head
  obtain ⟨named, receives, first⟩ := printable
  simp only [List.mem_cons, List.not_mem_nil, or_false, not_or] at first
  obtain ⟨opens, shuts⟩ := first
  cases receiver with
  | none =>
      refine (name_spelled named).mono ?_
      intro line tokens rest same
      obtain rfl := same
      exact .keyword opens shuts
  | some receiver =>
      intro line rest stops
      -- a dot ends names but no numbers, so that the receiver does not end by `Stops`
      have dot (after : List Char) : Behind (.ident receiver) ('.' :: after) := ⟨nofun, nofun⟩
      have behind {line : Nat} : Reads line (['.'] ++ keyword.toList) rest _ :=
        (Reads.mark rfl).append (.name named (stops.behind _))
      exact ⟨_, (Reads.name (receives _ rfl) (dot _)).append behind, fun _ => .dotted opens shuts⟩

theorem opening_spelled (closer : Closer) :
    Spells (fun line tokens rest => ∃ token, Opens token closer ∧ Single token line tokens rest)
      (opening closer) := by
  cases closer with
  | brace => exact (Spells.single fun _ => .mark rfl).mono fun same => ⟨_, .brace, same⟩
  | word =>
      have named : IsName "do".toList := isName_plain rfl rfl
      exact (name_spelled named).mono fun same => ⟨_, .word, same⟩

theorem closing_spelled (closer : Closer) :
    Spells (fun line tokens rest => ∃ token, Shuts token closer ∧ Single token line tokens rest)
      (closing closer) := by
  cases closer with
  | brace => exact (Spells.single fun _ => .mark rfl).mono fun same => ⟨_, .brace, same⟩
  | word =>
      have named : IsName "end".toList := isName_plain rfl rfl
      exact (name_spelled named).mono fun same => ⟨_, .word, same⟩

theorem param_spelled (named : ∀ name ∈ param, IsName name.toList) :
    Spells (fun _ tokens rest => IsParam tokens param rest) (paramText param) := by
  cases param with
  | none => exact fun _ _ _ => ⟨[], .nil, fun _ => .nothing⟩
  | some name =>
      have pipe : Spells (Single .pipe) ['|'] := .single fun _ => .mark rfl
      have inside := (name_spelled (named _ rfl)).append pipe fun _ => stops_cons rfl
      refine (Spells.mark (c := '|') rfl inside).blank.mono ?_
      intro line tokens rest parts
      obtain ⟨_, rfl, _, rfl, rfl⟩ := parts
      exact .name

theorem stops_param (param : Option String) (stops : Stops rest) : Stops (paramText param ++ rest) := by
  cases param with
  | none => exact stops
  | some => exact stops_cons rfl

theorem blockFront_spelled {head : Head} (names : head.Printable)
    (printable : ∀ arg ∈ args, Value.Printable arg) (fits : Argument.nesting (arguments args) ≤ room)
    (named : ∀ name ∈ param, IsName name.toList) (style : Style) :
    Spells (fun line tokens rest => ∃ after token start inside, IsHead tokens { head with line } after ∧
      IsTail room after (some args) (⟨token, start⟩ :: inside) ∧ Opens token style.here.closer ∧
      IsParam inside param rest) (blockFront style head args param) := by
  have opens := ((opening_spelled style.here.closer).append (param_spelled named) (stops_param param)).blank
  have behind := (argumentList_spelled printable fits style.front).append opens fun _ => stops_cons rfl
  refine ((head_spelled names).append behind fun _ => stops_cons rfl).mono ?_
  intro line tokens rest parts
  obtain ⟨after, isHead, _, tail, inside, ⟨token, opens, rfl⟩, isParam⟩ := parts
  exact ⟨after, token, _, inside, isHead, tail, opens, isParam⟩

theorem separator_spelled (separator : Separator) (spells : Spells form cs) :
    Spells (fun line tokens rest => ∃ token after, Single token line tokens after ∧ IsSeparator token ∧
      form (line + [separator.char].count '\n') after rest) (separator.char :: cs) := by
  intro line rest stops
  obtain ⟨tokens, reads, derived⟩ := spells (line + [separator.char].count '\n') rest stops
  cases separator with
  | newline =>
      exact ⟨_, Reads.newline.append reads, fun behind => ⟨_, _, rfl, .inl rfl, derived behind⟩⟩
  | semicolon =>
      exact ⟨_, (Reads.mark rfl).append reads, fun behind => ⟨_, _, rfl, .inr rfl, derived behind⟩⟩

theorem separators_spelled (separators : List Separator) (spells : Spells form cs) :
    Spells (fun line tokens rest => ∃ start, Separators tokens start ∧
      form (line + (separators.map Separator.char).count '\n') start rest)
      (separators.map Separator.char ++ cs) := by
  induction separators with
  | nil => exact spells.mono fun derived => ⟨_, .none, derived⟩
  | cons separator others ih =>
      refine (separator_spelled separator ih).mono ?_
      intro line tokens rest parts
      obtain ⟨token, after, rfl, isSeparator, start, more, derived⟩ := parts
      rw [Nat.add_assoc, ← List.count_append] at derived
      exact ⟨start, .more isSeparator more, derived⟩

theorem between_spelled (between : Separation) (spells : Spells form cs) :
    Spells (fun line tokens rest => ∃ token after start, Single token line tokens after ∧ IsSeparator token ∧
      Separators after start ∧ form (line + between.text.count '\n') start rest) (between.text ++ cs) := by
  refine (separator_spelled between.first (separators_spelled between.others spells)).mono ?_
  intro line tokens rest parts
  obtain ⟨token, after, rfl, isSeparator, start, more, derived⟩ := parts
  rw [Nat.add_assoc, ← List.count_append] at derived
  exact ⟨token, after, start, rfl, isSeparator, more, derived⟩

theorem stops_between (between : Separation) : Stops (between.text ++ rest) := by
  obtain ⟨first, others⟩ := between
  cases first <;> exact stops_cons rfl

theorem body_separated (separators : Separators tokens start) (body : IsBody room start calls rest) :
    IsBody room tokens calls rest := by
  cases body with
  | none others => exact .none (separators.trans others)
  | last others call => exact .last (separators.trans others) call
  | more others call separator body => exact .more (separators.trans others) call separator body

theorem body_spelled {calls : List Call} (fits : Call.nestingAll calls ≤ room) (style : Style)
    (each : ∀ call ∈ calls, ∀ style, call.nesting ≤ room →
      Spells (fun line tokens rest => IsCall room tokens (call.printed style line) rest) (callText style call)) :
    Spells (fun line tokens rest => IsBody room tokens (Call.printedAll style line calls) rest)
      (bodyText style calls) := by
  induction calls generalizing style with
  | nil => exact fun _ _ _ => ⟨[], .nil, fun _ => .none .none⟩
  | cons call rest ih =>
      obtain ⟨first, others⟩ := Nat.max_le.mp fits
      obtain ⟨here, behind⟩ := List.forall_mem_cons.mp each
      cases rest with
      | nil => exact (here style.front first).mono fun call => .last .none call
      | cons next rest =>
          have behind := between_spelled style.here.between (ih others style.back behind)
          refine ((here style.front first).append behind fun _ => ?_).mono ?_
          · rw [List.append_assoc]
            exact stops_between _
          · intro line tokens after parts
            obtain ⟨_, call, token, _, start, rfl, isSeparator, separators, body⟩ := parts
            rw [Nat.add_assoc, ← List.count_append] at body
            exact .more .none call isSeparator (body_separated separators body)

theorem call_spelled {call : Call} (printable : call.Printable) (style : Style) (fits : call.nesting ≤ room) :
    Spells (fun line tokens rest => IsCall room tokens (call.printed style line) rest) (callText style call) := by
  induction printable generalizing style room with
  | bare names => exact (head_spelled names).mono fun head => .unblocked head .nothing
  | plain names printable =>
      have inside := argumentList_spelled printable fits style.front
      refine ((head_spelled names).append inside fun _ => stops_cons rfl).mono ?_
      intro line tokens rest parts
      obtain ⟨after, head, tail⟩ := parts
      exact .unblocked head tail
  | @block param body head args names printable named _ each =>
      obtain ⟨arguments, calls⟩ := Nat.max_le.mp fits
      cases room with
      | zero => exact absurd calls (Nat.not_succ_le_zero _)
      | succ room =>
          have front := blockFront_spelled names printable arguments named style
          have inside := body_spelled (Nat.le_of_succ_le_succ calls) style.back fun call member style =>
            each call member style
          have closes := (inside.append (closing_spelled style.here.closer).blank fun _ => stops_cons rfl).blank
          refine (front.append closes fun _ => stops_cons rfl).mono ?_
          intro line tokens rest parts
          obtain ⟨start, ⟨_, _, _, _, head, tail, opens, param⟩, _, body, _, shuts, rfl⟩ := parts
          exact .block head tail opens param body shuts

end Printer

open Script

-- A script that is printed is read, and its calls are those that were printed, on the lines on which
-- they are printed.
theorem parse_print (style : Style) (calls : List Call) (printable : ∀ call ∈ calls, call.Printable)
    (fits : Call.nestingAll calls ≤ maxNesting) :
    parse (print style calls) = .ok (Call.printedAll style 1 calls) ∧
      Call.relinedAll (fun _ => 0) (Call.printedAll style 1 calls) = Call.relinedAll (fun _ => 0) calls := by
  have spelled := Printer.body_spelled fits style fun call member style =>
    Printer.call_spelled (printable call member) style
  obtain ⟨tokens, reads, derived⟩ := spelled 1 [] stops_nil
  refine ⟨?_, Call.printedAll_relined style 1 calls⟩
  have ends (line : Nat) : itemsFrom [] line [] = [⟨.endOfScript, line⟩].map .ok := by
    rw [itemsFrom_unfold]
    rfl
  have same : items (print style calls) = itemsFrom [] 1 (Printer.bodyText style calls) := by
    rw [items, print, String.toList_ofList]
  rw [Reads, List.append_nil, ends, ← List.map_append, ← same] at reads
  exact (run_iff (itemsFrom_whole _ _)).mpr ⟨_, reads, script_complete ⟨_, derived _⟩ (Nat.le_refl _)⟩

-- A block with a parameter, a list and a mapping among the arguments, a keyword that would close the
-- block without its receiver, and a quote and a backslash in texts between quotes.
theorem parse_print_of_block :
    let style : Style := fun way =>
      ⟨if way.length % 2 = 0 then .double else .single, .word, ⟨.newline, [.semicolon]⟩⟩
    let script (a b c d : Nat) : List Call := [
      .block ⟨"web", none, a⟩ [.str "it's", .map [("\\", .list [.int (-1), .map [("k", .null)]])]] (some "w")
        [.bare ⟨"end", some "w", b⟩, .plain ⟨"item", none, c⟩ []],
      .bare ⟨"web", none, d⟩]
    let text := "web('it\\'s', '\\\\' => [-1, \x7b \"k\" => nil \x7d]) do |w| w.end\n;item() end\n;web"
    (∀ call ∈ script 0 0 0 0, call.Printable) ∧ Call.nestingAll (script 0 0 0 0) ≤ maxNesting ∧
      print style (script 0 0 0 0) = text ∧ parse text = .ok (script 1 1 2 3) ∧
      Call.relinedAll (fun _ => 0) (script 1 1 2 3) = Call.relinedAll (fun _ => 0) (script 0 0 0 0) := by
  intro style script text
  have w : IsName "w".toList := isName_plain rfl rfl
  have receives : ∀ name ∈ some "w", IsName name.toList := by
    intro name same
    cases same
    exact w
  have web : Head.Printable ⟨"web", none, 0⟩ := ⟨isName_plain rfl rfl, nofun, by decide⟩
  have ends : Head.Printable ⟨"end", some "w", 0⟩ := ⟨isName_plain rfl rfl, receives, by decide⟩
  have item : Head.Printable ⟨"item", none, 0⟩ := ⟨isName_plain rfl rfl, nofun, by decide⟩
  have inner : Value.Printable (.map [("k", .null)]) :=
    .map (List.nodup_singleton _) (by simp [Value.Printable.null])
  have list : Value.Printable (.list [.int (-1), .map [("k", .null)]]) :=
    .list (by simp [Value.Printable.int, inner])
  have outer : Value.Printable (.map [("\\", .list [.int (-1), .map [("k", .null)]])]) :=
    .map (List.nodup_singleton _) (by simp [list])
  have args : ∀ arg ∈ [Value.str "it's", .map [("\\", .list [.int (-1), .map [("k", .null)]])]],
      arg.Printable := by simp [Value.Printable.str, outer]
  have printable : ∀ call ∈ script 0 0 0 0, call.Printable := by
    have body : ∀ call ∈ [Call.bare ⟨"end", some "w", 0⟩, .plain ⟨"item", none, 0⟩ []], call.Printable := by
      simp [Call.Printable.bare ends, Call.Printable.plain item]
    simp [script, Call.Printable.block web args receives body, Call.Printable.bare web]
  have fits : Call.nestingAll (script 0 0 0 0) ≤ maxNesting := by decide
  have written : print style (script 0 0 0 0) = text := by
    subst style script text
    cbv
  have lines : Call.printedAll style 1 (script 0 0 0 0) = script 1 1 2 3 := by
    subst style script
    cbv
  have read := parse_print style (script 0 0 0 0) printable fits
  rw [written, lines] at read
  exact ⟨printable, fits, written, read⟩

end KeywordConfig
