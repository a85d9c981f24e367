import KeywordConfig.Proofs.Parsing
import KeywordConfig.Proofs.Pieces

namespace KeywordConfig
open Token
open scoped List

namespace Call

mutual

-- The lines of a call and of all calls inside it, in the order of the text.
def lines : Call → List Nat
  | .bare head => [head.line]
  | .plain head _ => [head.line]
  | .block head _ _ body => head.line :: linesOf body

def linesOf : List Call → List Nat
  | [] => []
  | call :: rest => lines call ++ linesOf rest

end

theorem linesOf_append (calls more : List Call) : linesOf (calls ++ more) = linesOf calls ++ linesOf more := by
  induction calls with
  | nil => rfl
  | cons call rest ih => simp [linesOf, ih]

end Call

namespace Token

-- The line of a token, or the one that an error names.
def Item.line? : Item → Option Nat
  | .ok t => some t.line
  | .error e => e.line

theorem read_lines (read : read c cs = .ok lexeme) :
    lexeme.lines + lexeme.rest.count '\n' ≤ (c :: cs).count '\n' := by
  obtain ⟨token, lines, rest⟩ := lexeme
  obtain ⟨tail, rfl, _, _, total⟩ := read_iff.mp read
  show lines + rest.count '\n' ≤ (c :: tail ++ rest).count '\n'
  rw [List.count_append]
  omega

theorem skipBlank_count (cs : List Char) : (skipBlank cs).count '\n' ≤ cs.count '\n' :=
  (skipBlank_suffix cs).sublist.count_le '\n'

theorem itemsFrom_rise (line : Nat) (cs : List Char) : ∃ lines : List Nat,
    (itemsFrom [] line cs).map Item.line? = lines.map some ∧ (line :: lines).Pairwise (· ≤ ·) ∧
      ∀ n ∈ lines, n ≤ line + cs.count '\n' := by
  have alone : ([line, line] : List Nat).Pairwise (· ≤ ·) := by simp
  rw [itemsFrom_unfold]
  cases blank : skipBlank cs with
  | nil => exact ⟨[line], rfl, alone, by simp⟩
  | cons c rest =>
      cases token : read c rest with
      | error cause => exact ⟨[line], by simp [token, Item.line?], alone, by simp⟩
      | ok lexeme =>
          have shorter := rest_shorter blank token
          have ends := skipBlank_count cs
          have counted := read_lines token
          rw [blank] at ends
          obtain ⟨lines, same, rising, within⟩ := itemsFrom_rise (line + lexeme.lines) lexeme.rest
          obtain ⟨above, later⟩ := List.pairwise_cons.mp rising
          refine ⟨line :: lines, by simp [token, same, Item.line?], ?_, ?_⟩
          · refine List.pairwise_cons.mpr ⟨?_, List.pairwise_cons.mpr ⟨?_, later⟩⟩
            · intro n member
              rcases List.mem_cons.mp member with rfl | further
              · exact Nat.le_refl _
              · exact Nat.le_trans (Nat.le_add_right _ _) (above n further)
            · intro n member
              exact Nat.le_trans (Nat.le_add_right _ _) (above n member)
          · intro n member
            rcases List.mem_cons.mp member with rfl | further
            · exact Nat.le_add_right _ _
            · have bound := within n further
              omega
termination_by cs.length

end Token

-- The lines that are remembered, in the order of the text.
def Body.lines : Body → List Nat
  | .script calls => Call.linesOf calls.reverse
  | .block _ _ calls around head _ => lines around ++ head.line :: Call.linesOf calls.reverse

def Arguments.lines (a : Arguments) : List Nat := a.body.lines ++ [a.head.line]

def Opening.lines (o : Opening) : List Nat := o.around.lines ++ [o.head.line]

def Hole.lines : Hole → List Nat
  | .argument a line => a.lines ++ [line]
  | .pair a _ => a.lines
  | .item _ around => around.lines
  | .key _ around => around.lines
  | .entry _ _ around => around.lines

def Place.lines : Place → List Nat
  | .statement body => body.lines
  | .separator body _ => body.lines
  | .name body head => body.lines ++ [head.line]
  | .dot body _ line => body.lines ++ [line]
  | .keyword body head => body.lines ++ [head.line]
  | .arguments body head _ => body.lines ++ [head.line]
  | .blockStart o => o.lines
  | .blockParam o => o.lines
  | .blockPipe o _ => o.lines
  | .firstArgument a => a.lines
  | .argument a => a.lines
  | .positional a _ line => a.lines ++ [line]
  | .afterArgument a => a.lines
  | .value hole => hole.lines
  | .item _ around => around.lines
  | .afterItem _ around => around.lines
  | .key _ around => around.lines
  | .afterKey _ _ around => around.lines
  | .entry _ _ around => around.lines
  | .afterEntry _ around => around.lines

def Token.tokenLines (items : List Item) : List Nat := (items.filterMap Except.toOption).map (·.line)

theorem Token.tokenLines_sublist {read : List Item} {lines : List Nat} (stamped : read.map Item.line? = lines.map some) :
    tokenLines read <+ lines := by
  induction read generalizing lines with
  | nil => exact List.nil_sublist _
  | cons item rest ih =>
      cases lines with
      | nil => cases stamped
      | cons n lines =>
          obtain ⟨here, later⟩ := List.cons_eq_cons.mp stamped
          cases item with
          | error e => exact (ih later).cons n
          | ok t =>
              cases here
              exact (ih later).cons_cons t.line

namespace Script

theorem push_lines (body : Body) (call : Call) : (body.push call).lines = body.lines ++ call.lines := by
  cases body <;> simp [Body.push, Body.lines, Call.linesOf_append, Call.linesOf]

-- Filled, a hole is as good as closed: only the line of an argument may be left behind it.
theorem fill_lines (hole : Hole) (value : Value) : (fill hole value).lines = hole.lines := by
  cases hole <;> rfl

-- What a step leads to remembers some of the lines, in their order, or fails on one of them.
def Keeps (lines : List Nat) : Step → Prop
  | .ok (.next place) => place.lines <+ lines
  | .ok (.finished calls) => Call.linesOf calls <+ lines
  | .error e => ∃ n ∈ lines, e.line = some n

section

variable {lines : List Nat}

theorem fail_keeps (here : line ∈ lines) : Keeps lines (fail cause line) := ⟨line, here, rfl⟩

theorem enter_keeps (held : place.lines <+ lines) (here : line ∈ lines) :
    Keeps lines (enter limit depth line place) := by
  unfold enter
  split
  · exact fail_keeps here
  · exact held

theorem fill_keeps (held : hole.lines <+ lines) : Keeps lines (goto (fill hole value)) := by
  show (fill hole value).lines <+ lines
  rwa [fill_lines]

theorem close_keeps (held : body.lines <+ lines) : Keeps lines (.ok (close body)) := by
  cases body with
  | script => exact held
  | block closer param calls around head args =>
      show (around.push _).lines <+ lines
      rwa [push_lines]

variable {t : Located}

theorem atStatement_keeps (body : Body) (held : body.lines ++ [t.line] <+ lines) :
    Keeps lines (atStatement body t) := by
  have earlier : body.lines <+ lines := (List.sublist_append_left _ _).trans held
  have here : t.line ∈ lines := held.subset (by simp)
  unfold atStatement
  split
  · exact close_keeps earlier
  · split
    · exact earlier
    · exact earlier
    · exact fail_keeps here
    · split
      · exact fail_keeps here
      · exact held
    · exact fail_keeps here

theorem atSeparator_keeps (body : Body) (keyword : String) (held : body.lines <+ lines) (here : t.line ∈ lines) :
    Keeps lines (atSeparator body keyword t) := by
  unfold atSeparator
  split
  · exact close_keeps held
  · split
    · exact held
    · exact held
    · exact fail_keeps here

theorem atBlock_keeps (single : call.lines = [head.line]) (held : body.lines ++ [head.line] <+ lines)
    (here : t.line ∈ lines) : Keeps lines (atBlock limit body head args call t) := by
  unfold atBlock
  split
  · exact enter_keeps held here
  · apply atSeparator_keeps _ _ _ here
    rwa [push_lines, single]

theorem atValue_keeps (held : hole.lines <+ lines) (here : t.line ∈ lines) :
    Keeps lines (atValue limit hole t) := by
  unfold atValue
  split
  · exact fill_keeps held
  · split
    · exact enter_keeps held here
    · exact enter_keeps held here
    · exact fail_keeps here

theorem atArgument_keeps (held : a.lines ++ [t.line] <+ lines) : Keeps lines (atArgument limit a t) := by
  have earlier : a.lines <+ lines := (List.sublist_append_left _ _).trans held
  unfold atArgument
  split
  · exact earlier
  · exact earlier
  · exact atValue_keeps held (held.subset (by simp))

theorem atAfterArgument_keeps (held : a.lines <+ lines) (here : t.line ∈ lines) :
    Keeps lines (atAfterArgument limit a t) := by
  unfold atAfterArgument
  split
  · exact held
  · split
    · split
      · exact held
      · exact held
      · exact fail_keeps here
    · exact atBlock_keeps rfl held here

theorem atKeyword_keeps (held : body.lines ++ [head.line] ++ [t.line] <+ lines) :
    Keeps lines (atKeyword limit body head t) := by
  have earlier : body.lines ++ [head.line] <+ lines := (List.sublist_append_left _ _).trans held
  unfold atKeyword
  split
  · exact earlier
  · split
    · exact atArgument_keeps held
    · exact atBlock_keeps rfl earlier (held.subset (by simp))

theorem step_keeps (limit : Option Nat) (place : Place) (held : place.lines ++ [t.line] <+ lines) :
    Keeps lines (step limit place t) := by
  have earlier : place.lines <+ lines := (List.sublist_append_left _ _).trans held
  have here : t.line ∈ lines := held.subset (by simp)
  cases place with
  | statement body => exact atStatement_keeps body held
  | separator body keyword => exact atSeparator_keeps body keyword earlier here
  | keyword => exact atKeyword_keeps held
  | arguments => exact atBlock_keeps rfl earlier here
  | argument => exact atArgument_keeps held
  | afterArgument => exact atAfterArgument_keeps earlier here
  | value => exact atValue_keeps earlier here
  | name =>
      simp only [step]
      split
      · exact earlier
      · exact atKeyword_keeps held
  | blockStart o =>
      simp only [step]
      split
      · exact earlier
      · exact atStatement_keeps (o.body none) held
  | firstArgument =>
      simp only [step]
      split
      · exact earlier
      · exact earlier
      · exact atArgument_keeps held
  | positional a value line =>
      have arguments : a.lines <+ lines := (List.sublist_append_left _ _).trans earlier
      simp only [step]
      split
      · exact arguments
      · split
        · exact atAfterArgument_keeps arguments here
        · exact fail_keeps (earlier.subset (by simp [Place.lines]))
  | item | key | entry =>
      simp only [step]
      split <;> first | exact earlier | exact fill_keeps earlier | exact atValue_keeps earlier here
  | afterItem | afterEntry =>
      simp only [step]
      split <;> first | exact earlier | exact fill_keeps earlier | exact fail_keeps here
  | dot | blockParam | blockPipe | afterKey =>
      simp only [step]
      split <;> first | exact earlier | exact fail_keeps here

end

-- A script that is read has its calls on lines of its tokens, in their order. One that is not has an
-- error among its items, or fails on the line of one of its tokens.
def OnLines (lines : List Nat) (read : List Item) : Except ConfigError (List Call) → Prop
  | .ok calls => Call.linesOf calls <+ lines
  | .error e => .error e ∈ read ∨ ∃ n ∈ lines, e.line = some n

theorem OnLines.later {rest : List Item} (on : OnLines less rest made) (wider : less <+ more) (item : Item) :
    OnLines more (item :: rest) made := by
  cases made with
  | ok calls => exact List.Sublist.trans on wider
  | error e =>
      rcases on with listed | ⟨n, member, same⟩
      · exact .inl (List.mem_cons_of_mem _ listed)
      · exact .inr ⟨n, wider.subset member, same⟩

theorem run_keeps {read : List Item} (whole : Whole read) (limit : Option Nat) (place : Place) (line : Nat) :
    OnLines (place.lines ++ tokenLines read) read (run limit place line read) := by
  induction whole generalizing place line with
  | error => exact .inl List.mem_cons_self
  | last =>
      rename_i stop
      have kept := step_keeps limit place (t := ⟨.endOfScript, stop⟩) (List.Sublist.refl _)
      have ends := step_ends limit place stop
      unfold run
      cases made : step limit place ⟨.endOfScript, stop⟩ with
      | error e =>
          rw [made] at kept
          exact .inr kept
      | ok progress =>
          rw [made] at kept ends
          cases progress with
          | next => cases ends
          | finished => exact kept
  | @more rest t _ _ ih =>
      have kept := step_keeps limit place (t := t) (List.Sublist.refl _)
      have split : place.lines ++ tokenLines (.ok t :: rest) = place.lines ++ [t.line] ++ tokenLines rest := by
        rw [List.append_assoc]
        rfl
      rw [split]
      unfold run
      cases made : step limit place t with
      | error e =>
          rw [made] at kept
          obtain ⟨n, member, same⟩ := kept
          exact .inr ⟨n, List.mem_append_left _ member, same⟩
      | ok progress =>
          rw [made] at kept
          cases progress with
          | finished => exact kept.trans (List.sublist_append_left _ _)
          | next place => exact (ih place t.line).later (kept.append_right _) _

theorem parse_keeps (text : String) : OnLines (tokenLines (items text)) (items text) (parse text) :=
  run_keeps (itemsFrom_whole _ _) (some maxNesting) (.statement (.script [])) 1

end Script

end KeywordConfig
