import KeywordConfig.Proofs.Soundness

namespace KeywordConfig

-- How many blocks, lists and mappings are open at a place.
def Place.depth : Place → Nat
  | .statement body => body.depth
  | .separator body _ => body.depth
  | .name body _ => body.depth
  | .dot body _ _ => body.depth
  | .keyword body _ => body.depth
  | .arguments body _ _ => body.depth
  | .blockStart o => o.around.depth + 1
  | .blockParam o => o.around.depth + 1
  | .blockPipe o _ => o.around.depth + 1
  | .firstArgument a => a.body.depth
  | .argument a => a.body.depth
  | .positional a _ _ => a.body.depth
  | .afterArgument a => a.body.depth
  | .value hole => hole.depth
  | .item _ around => around.depth + 1
  | .afterItem _ around => around.depth + 1
  | .key _ around => around.depth + 1
  | .afterKey _ _ around => around.depth + 1
  | .entry _ _ around => around.depth + 1
  | .afterEntry _ around => around.depth + 1

def Token.opensValue : Token → Bool
  | .leftBracket => true
  | .leftBrace => true
  | _ => false

def Token.opensBlock (token : Token) : Bool := (Script.blockCloser? token).isSome

-- The token opens a block, a list or a mapping. Behind the names of a call a bracket opens a list, and a
-- brace a block.
def Place.opens : Place → Token → Bool
  | .name _ _, token => token.opensBlock || token.opensValue
  | .keyword _ _, token => token.opensBlock || token.opensValue
  | .arguments _ _ _, token => token.opensBlock
  | .positional a _ _, token => a.pairs.isEmpty && !a.parens && token.opensBlock
  | .afterArgument a, token => !a.parens && token.opensBlock
  | .firstArgument _, token => token.opensValue
  | .argument _, token => token.opensValue
  | .value _, token => token.opensValue
  | .item _ _, token => token.opensValue
  | .key _ _, token => token.opensValue
  | .entry _ _ _, token => token.opensValue
  | _, _ => false

-- The token closes the innermost block, list or mapping.
def Place.closes : Place → Token → Bool
  | .statement body, token => Script.closedBy body token
  | .separator body _, token => Script.closedBy body token
  | .name body _, token => Script.closedBy body token
  | .keyword body _, token => Script.closedBy body token
  | .arguments body _ _, token => Script.closedBy body token
  | .blockStart o, token => Script.closes o.closer token
  | .positional a _ _, token => a.pairs.isEmpty && !a.parens && Script.closedBy a.body token
  | .afterArgument a, token => !a.parens && Script.closedBy a.body token
  | .item _ _, .rightBracket => true
  | .afterItem _ _, .rightBracket => true
  | .key _ _, .rightBrace => true
  | .afterEntry _ _, .rightBrace => true
  | _, _ => false

namespace Script

theorem fill_depth (hole : Hole) (value : Value) : (fill hole value).depth = hole.depth := by
  cases hole <;> rfl

def counter (up down : Bool) (n : Nat) : Nat := if up then n + 1 else if down then n - 1 else n

-- A token at a depth. It is refused for the limit alone when it opens something and there is no room for it,
-- and otherwise no limit is looked at; it leads to the depth that a counter says.
structure Counts (up down : Bool) (depth line : Nat) (made : Option Nat → Step) : Prop where
  limited : ∀ limit, made limit = if up && limit.any (· ≤ depth) then fail .nestingTooDeep line else made none
  counted : ∀ next, made none = .ok (.next next) → next.depth = counter up down depth
  enters : up → ∃ next, made none = .ok (.next next)

theorem counts_goto (same : place.depth = counter false down depth) :
    Counts false down depth line fun _ => goto place := by
  refine ⟨fun _ => rfl, ?_, nofun⟩
  intro next made
  cases made
  exact same

theorem counts_stay (opens : up = false) (stays : down = false) (same : place.depth = depth) :
    Counts up down depth line fun _ => goto place := by
  subst opens stays
  exact counts_goto same

theorem counts_fail : Counts false down depth line fun _ => fail cause other :=
  ⟨fun _ => rfl, nofun, nofun⟩

theorem counts_enter (deeper : place.depth = depth + 1) :
    Counts true down depth line fun limit => enter limit depth line place := by
  refine ⟨fun _ => rfl, ?_, fun _ => ⟨place, rfl⟩⟩
  intro next made
  cases made
  exact deeper

theorem counts_fill (hole : Hole) (value : Value) (same : hole.depth = counter false down depth) :
    Counts false down depth line fun _ => goto (fill hole value) :=
  counts_goto ((fill_depth hole value).trans same)

theorem counts_close (body : Body) : Counts false true body.depth line fun _ => .ok (close body) := by
  refine ⟨fun _ => rfl, ?_, nofun⟩
  intro next made
  cases body with
  | script => cases made
  | block =>
      cases made
      exact Body.depth_push _ _

theorem closedBy_push (body : Body) (call : Call) (token : Token) :
    closedBy (body.push call) token = closedBy body token := by
  cases body with
  | script => cases token <;> rfl
  | block => rfl

theorem not_closedBy (ends : token ≠ .endOfScript) (brace : token ≠ .rightBrace) (word : token ≠ .ident "end") :
    closedBy body token = false := by
  rw [Bool.eq_false_iff]
  intro closed
  rcases closedBy_cases closed with same | same | same
  · exact ends same
  · exact brace same
  · exact word same

theorem atStatement_counts (body : Body) (t : Located) :
    Counts false (closedBy body t.token) body.depth t.line fun _ => atStatement body t := by
  obtain ⟨token, line⟩ := t
  unfold atStatement
  cases closed : closedBy body token with
  | true => exact counts_close body
  | false =>
      simp only [Bool.false_eq_true, if_false]
      cases token with
      | newline | semicolon => exact counts_goto rfl
      | endOfScript => cases body <;> exact counts_fail
      | ident name =>
          dsimp only
          split
          · exact counts_fail
          · exact counts_goto rfl
      | _ => exact counts_fail

theorem atSeparator_counts (body : Body) (keyword : String) (t : Located) :
    Counts false (closedBy body t.token) body.depth t.line fun _ => atSeparator body keyword t := by
  obtain ⟨token, line⟩ := t
  unfold atSeparator
  cases closed : closedBy body token with
  | true => exact counts_close body
  | false =>
      simp only [Bool.false_eq_true, if_false]
      cases token with
      | newline | semicolon => exact counts_goto rfl
      | _ => exact counts_fail

theorem atBlock_counts (body : Body) (head : Head) (args : List Value) (call : Call) (t : Located) :
    Counts t.token.opensBlock (closedBy body t.token) body.depth t.line
      fun limit => atBlock limit body head args call t := by
  have separator := atSeparator_counts (body.push call) head.keyword t
  rw [closedBy_push, Body.depth_push] at separator
  unfold atBlock Token.opensBlock
  cases blockCloser? t.token with
  | none => exact separator
  | some closer => exact counts_enter rfl

theorem atValue_counts (hole : Hole) (t : Located) :
    Counts t.token.opensValue false hole.depth t.line fun limit => atValue limit hole t := by
  obtain ⟨token, line⟩ := t
  cases token with
  | str | symbol | int | float | ident => exact counts_fill hole _ rfl
  | leftBracket | leftBrace => exact counts_enter rfl
  | _ => exact counts_fail

theorem atArgument_counts (a : Arguments) (t : Located) :
    Counts t.token.opensValue false a.body.depth t.line fun limit => atArgument limit a t := by
  have value := atValue_counts (.argument a t.line) t
  obtain ⟨token, line⟩ := t
  cases token with
  | newline | label => exact counts_goto rfl
  | _ => exact value

theorem atAfterArgument_counts (a : Arguments) (t : Located) :
    Counts (!a.parens && t.token.opensBlock) (!a.parens && closedBy a.body t.token) a.body.depth t.line
      fun limit => atAfterArgument limit a t := by
  have block := atBlock_counts a.body a.head a.all (.plain a.head a.all) t
  obtain ⟨token, line⟩ := t
  obtain ⟨body, head, parens, values, pairs⟩ := a
  cases parens with
  | true =>
      cases token with
      | comma | newline | rightParen => exact counts_goto rfl
      | _ => exact counts_fail
  | false =>
      cases token with
      | comma => exact counts_stay rfl (not_closedBy (by simp) (by simp) (by simp)) rfl
      | _ => exact block

theorem starts_plain (body : Body) (starts : startsArgument token = true) :
    token.opensBlock = false ∧ closedBy body token = false := by
  constructor
  · cases token with
    | ident name =>
        obtain ⟨apart, _⟩ : name ≠ "do" ∧ name ≠ "end" := by simpa [startsArgument] using starts
        simp [Token.opensBlock, blockCloser?, apart]
    | leftBrace => cases starts
    | _ => rfl
  · refine not_closedBy ?_ ?_ ?_ <;> intro same <;> subst same <;> simp [startsArgument] at starts

theorem atKeyword_counts (body : Body) (head : Head) (t : Located) :
    Counts (t.token.opensBlock || t.token.opensValue) (closedBy body t.token) body.depth t.line
      fun limit => atKeyword limit body head t := by
  have block := atBlock_counts body head [] (.bare head) t
  have argument := atArgument_counts { body, head, parens := false } t
  obtain ⟨token, line⟩ := t
  cases starts : startsArgument token with
  | true =>
      obtain ⟨noBlock, stays⟩ := starts_plain body starts
      rw [noBlock, stays]
      cases token with
      | leftParen => cases starts
      | _ => simpa only [atKeyword, starts, if_true, Bool.false_or] using argument
  | false =>
      cases token with
      | leftParen => exact counts_stay rfl (not_closedBy (by simp) (by simp) (by simp)) rfl
      | leftBracket => cases starts
      | leftBrace => exact block
      | _ =>
          simp only [atKeyword, starts, Bool.false_eq_true, if_false, Token.opensValue, Bool.or_false]
          exact block

theorem step_counts (place : Place) (t : Located) :
    Counts (place.opens t.token) (place.closes t.token) place.depth t.line fun limit => step limit place t := by
  cases place with
  | statement body => exact atStatement_counts body t
  | separator body keyword => exact atSeparator_counts body keyword t
  | name body head =>
      have keyword := atKeyword_counts body head t
      obtain ⟨token, line⟩ := t
      cases token with
      | dot => exact counts_stay rfl (not_closedBy (by simp) (by simp) (by simp)) rfl
      | _ => exact keyword
  | keyword body head => exact atKeyword_counts body head t
  | arguments body head args => exact atBlock_counts body head args (.plain head args) t
  | blockStart o =>
      have statement := atStatement_counts (o.body none) t
      obtain ⟨token, line⟩ := t
      cases token with
      | pipe =>
          obtain ⟨closer, around, head, args⟩ := o
          cases closer <;> exact counts_goto rfl
      | _ => exact statement
  | firstArgument a =>
      have argument := atArgument_counts a t
      obtain ⟨token, line⟩ := t
      cases token with
      | newline | rightParen => exact counts_goto rfl
      | _ => exact argument
  | argument a => exact atArgument_counts a t
  | positional a value start =>
      have after := atAfterArgument_counts { a with values := value :: a.values } t
      obtain ⟨token, line⟩ := t
      obtain ⟨body, head, parens, values, pairs⟩ := a
      cases pairs with
      | nil =>
          cases token with
          | arrow =>
              have stays : closedBy body .arrow = false := not_closedBy (by simp) (by simp) (by simp)
              refine counts_stay (by cases parens <;> rfl) ?_ rfl
              simp only [Place.closes, stays, Bool.and_false]
          | _ => exact after
      | cons =>
          cases token with
          | arrow => exact counts_goto rfl
          | _ => exact counts_fail
  | afterArgument a => exact atAfterArgument_counts a t
  | value hole => exact atValue_counts hole t
  | item items around =>
      have value := atValue_counts (.item items around) t
      obtain ⟨token, line⟩ := t
      cases token with
      | newline => exact counts_goto rfl
      | rightBracket => exact counts_fill around _ rfl
      | _ => exact value
  | afterItem items around =>
      obtain ⟨token, line⟩ := t
      cases token with
      | newline | comma => exact counts_goto rfl
      | rightBracket => exact counts_fill around _ rfl
      | _ => exact counts_fail
  | key entries around =>
      have value := atValue_counts (.key entries around) t
      obtain ⟨token, line⟩ := t
      cases token with
      | newline | label => exact counts_goto rfl
      | rightBrace => exact counts_fill around _ rfl
      | _ => exact value
  | afterKey =>
      obtain ⟨token, line⟩ := t
      cases token with
      | arrow => exact counts_goto rfl
      | _ => exact counts_fail
  | entry entries key around =>
      have value := atValue_counts (.entry entries key around) t
      obtain ⟨token, line⟩ := t
      cases token with
      | newline => exact counts_goto rfl
      | _ => exact value
  | afterEntry entries around =>
      obtain ⟨token, line⟩ := t
      cases token with
      | newline | comma => exact counts_goto rfl
      | rightBrace => exact counts_fill around _ rfl
      | _ => exact counts_fail
  | dot | blockParam | blockPipe =>
      obtain ⟨token, line⟩ := t
      cases token <;> first | exact counts_goto rfl | exact counts_fail

abbrev Tally := Place × Nat

def start : Tally := (.statement (.script []), 0)

def trail (limit : Option Nat) : Tally → List Located → Option Tally
  | tally, [] => some tally
  | (place, n), t :: rest =>
      match step limit place t with
      | .ok (.next next) => trail limit (next, counter (place.opens t.token) (place.closes t.token) n) rest
      | _ => none

-- A limit refuses tokens, and leads to no other place.
theorem step_next (made : step limit place t = .ok (.next next)) :
    step none place t = .ok (.next next) := by
  rw [(step_counts place t).limited limit] at made
  split at made
  · cases made
  · exact made

theorem next_depth (made : step limit place t = .ok (.next next)) :
    next.depth = counter (place.opens t.token) (place.closes t.token) place.depth :=
  (step_counts place t).counted next (step_next made)

theorem trail_depth (reached : trail limit (place, place.depth) tokens = some (last, n)) : n = last.depth := by
  induction tokens generalizing place with
  | nil =>
      cases reached
      rfl
  | cons t rest ih =>
      unfold trail at reached
      split at reached
      · rename_i next made
        rw [← next_depth made] at reached
        exact ih reached
      · cases reached

theorem opens_token {place : Place} {token : Token} (opens : place.opens token) :
    token = .leftBrace ∨ token = .ident "do" ∨ token = .leftBracket := by
  cases token with
  | leftBrace | leftBracket => simp
  | ident name =>
      have opener : (Token.ident name).opensBlock := by
        cases place <;> simp_all [Place.opens, Token.opensValue]
      have same : name = "do" := by simpa [Token.opensBlock, blockCloser?] using opener
      exact .inr (.inl (congrArg Token.ident same))
  | _ => cases place <;> simp [Place.opens, Token.opensValue, Token.opensBlock, blockCloser?] at opens

def Room (limit : Nat) (tally : Tally) (items : List Token.Item) : Prop :=
  ∀ front last n, front.map .ok <+: items → trail none tally front = some (last, n) → n ≤ limit

-- A token of the items opens one more construct than there is room for, and none before it does.
def Overflows (limit : Nat) (tally : Tally) (items : List Token.Item) (t : Located) : Prop :=
  ∃ front rest last next, items = front.map .ok ++ .ok t :: rest ∧ Room limit tally (front.map .ok) ∧
    trail none tally front = some (last, limit) ∧ last.opens t.token ∧
    trail none tally (front ++ [t]) = some (next, limit + 1)

theorem finish_limited (limit : Option Nat) (place : Place) (line : Nat) :
    finish limit place line = finish none place line := by
  have shut : place.opens .endOfScript = false := by
    rw [Bool.eq_false_iff]
    intro opens
    rcases opens_token opens with same | same | same <;> cases same
  have same : step limit place ⟨.endOfScript, line⟩ = step none place ⟨.endOfScript, line⟩ := by
    rw [(step_counts place ⟨.endOfScript, line⟩).limited limit, shut]
    rfl
  unfold finish
  split <;> split <;> simp_all

theorem trail_cons (made : step none place t = .ok (.next next)) :
    trail none (place, place.depth) (t :: rest) = trail none (next, next.depth) rest := by
  rw [next_depth made]
  simp only [trail, made]

theorem room_here (fits : place.depth ≤ limit)
    (ahead : ∀ t more last n, (t :: more).map .ok <+: items →
      trail none (place, place.depth) (t :: more) = some (last, n) → n ≤ limit) :
    Room limit (place, place.depth) items := by
  intro front last n ofItems reached
  cases front with
  | nil =>
      cases reached
      exact fits
  | cons t more => exact ahead t more last n ofItems reached

theorem room_stuck (fits : place.depth ≤ limit) (stuck : ∀ next, step none place t ≠ .ok (.next next)) :
    Room limit (place, place.depth) (.ok t :: rest) := by
  refine room_here fits ?_
  intro u more last n ofItems reached
  obtain ⟨same, _⟩ := List.cons_prefix_cons.mp ofItems
  cases same
  unfold trail at reached
  split at reached
  · rename_i next made
    exact absurd made (stuck next)
  · cases reached

theorem room_next (fits : place.depth ≤ limit) (made : step none place t = .ok (.next next))
    (room : Room limit (next, next.depth) rest) : Room limit (place, place.depth) (.ok t :: rest) := by
  refine room_here fits ?_
  intro u more last n ofItems reached
  obtain ⟨same, ofRest⟩ := List.cons_prefix_cons.mp ofItems
  cases same
  rw [trail_cons made] at reached
  exact room more last n ofRest reached

theorem overflows_next (fits : place.depth ≤ limit) (made : step none place t = .ok (.next next))
    (overflows : Overflows limit (next, next.depth) rest deep) :
    Overflows limit (place, place.depth) (.ok t :: rest) deep := by
  obtain ⟨front, others, last, inside, same, room, reached, opens, entered⟩ := overflows
  refine ⟨t :: front, others, last, inside, ?_, room_next fits made room, ?_, opens, ?_⟩
  · rw [same]
    rfl
  · rwa [trail_cons made]
  · rwa [List.cons_append, trail_cons made]

theorem overflows_here (full : place.depth = limit) (opens : place.opens t.token) :
    Overflows limit (place, place.depth) (.ok t :: rest) t := by
  obtain ⟨next, made⟩ := (step_counts place t).enters opens
  have deeper : next.depth = limit + 1 := by
    rw [next_depth made, opens, full]
    rfl
  refine ⟨[], rest, place, next, rfl, ?_, ?_, opens, ?_⟩
  · refine room_here (Nat.le_of_eq full) ?_
    intro u more last n ofItems
    cases List.prefix_nil.mp ofItems
  · rw [trail, full]
  · rw [List.nil_append, trail_cons made, trail, deeper]

theorem run_limited (limit : Nat) (items : List Token.Item) (place : Place) (line : Nat)
    (fits : place.depth ≤ limit) :
    (Room limit (place, place.depth) items ∧ run (some limit) place line items = run none place line items) ∨
    ∃ t, Overflows limit (place, place.depth) items t ∧
      run (some limit) place line items = .error ⟨.nestingTooDeep, some t.line⟩ := by
  induction items generalizing place line with
  | nil =>
      refine .inl ⟨room_here fits ?_, finish_limited _ _ _⟩
      intro t more last n ofItems
      cases List.prefix_nil.mp ofItems
  | cons item rest ih =>
      cases item with
      | error e =>
          refine .inl ⟨room_here fits ?_, rfl⟩
          intro t more last n ofItems
          cases (List.cons_prefix_cons.mp ofItems).1
      | ok t =>
          have limited := (step_counts place t).limited (some limit)
          -- the limit decides only where the token opens something and as much is open as may be
          by_cases crowded : place.opens t.token ∧ limit ≤ place.depth
          · have refused : step (some limit) place t = fail .nestingTooDeep t.line := by
              rw [limited]
              simp [crowded.1, crowded.2]
            refine .inr ⟨t, overflows_here (Nat.le_antisymm fits crowded.2) crowded.1, ?_⟩
            simp only [run, refused, fail]
          · have free : step (some limit) place t = step none place t := by
              rw [limited, if_neg]
              simpa using crowded
            cases made : step none place t with
            | error e =>
                refine .inl ⟨room_stuck fits (by simp [made]), ?_⟩
                simp only [run, free, made]
            | ok progress =>
                cases progress with
                | finished calls =>
                    refine .inl ⟨room_stuck fits (by simp [made]), ?_⟩
                    simp only [run, free, made]
                | next next =>
                    have inside : next.depth ≤ limit := by
                      rw [next_depth made, counter]
                      split
                      · rename_i opens
                        have apart : ¬ limit ≤ place.depth := fun full => crowded ⟨opens, full⟩
                        omega
                      · split <;> omega
                    simp only [run, free, made]
                    rcases ih next t.line inside with ⟨room, same⟩ | ⟨deep, overflows, failed⟩
                    · exact .inl ⟨room_next fits made room, same⟩
                    · exact .inr ⟨deep, overflows_next fits made overflows, failed⟩

-- A value may come next, and goes into the hole.
inductive Awaits : Place → Hole → Prop where
  | value : Awaits (.value hole) hole
  | item : Awaits (.item items around) (.item items around)
  | key : Awaits (.key entries around) (.key entries around)
  | entry : Awaits (.entry entries key around) (.entry entries key around)
  | argument : Awaits (.argument a) (.argument a line)
  | firstArgument : Awaits (.firstArgument a) (.argument a line)
  | name : Awaits (.name body head) (.argument { body, head, parens := false } line)
  | keyword : Awaits (.keyword body head) (.argument { body, head, parens := false } line)

inductive InCall : Place → Body → Head → Prop where
  | name : InCall (.name body head) body head
  | keyword : InCall (.keyword body head) body head
  | firstArgument : InCall (.firstArgument a) a.body a.head
  | argument : InCall (.argument a) a.body a.head
  | positional : InCall (.positional a value line) a.body a.head
  | afterArgument : InCall (.afterArgument a) a.body a.head
  | arguments : InCall (.arguments body head args) body head

-- A call may come next, and goes into the body.
inductive Begins : Place → Body → Prop where
  | statement : Begins (.statement body) body
  | blockStart : Begins (.blockStart o) (o.body none)

-- The places before and behind one value, argument list, block or call. A call that has no block may end
-- without a token of its own.
inductive Spans : Place → Place → Prop where
  | value (awaits : Awaits place hole) (v : Value) : Spans place (fill hole v)
  | arguments (before : InCall place body head) (behind : InCall next body head) : Spans place next
  | block (before : InCall place body head) (call : Call) : Spans place (.separator (body.push call) head.keyword)
  | call (before : Begins place body) (call : Call) : Spans place (.separator (body.push call) keyword)
  | line (before : Begins place body) (call : Call) : Spans place (.statement (body.push call))
  | unblocked (before : Begins place body) (behind : InCall next body head) : Spans place next

theorem Awaits.depth (awaits : Awaits place hole) : hole.depth = place.depth := by
  cases awaits <;> rfl

theorem InCall.depth (inCall : InCall place body head) : place.depth = body.depth := by
  cases inCall <;> rfl

theorem Begins.depth (begins : Begins place body) : place.depth = body.depth := by
  cases begins <;> rfl

theorem Spans.depth (spans : Spans place next) : next.depth = place.depth := by
  cases spans with
  | value awaits v => exact (fill_depth _ _).trans awaits.depth
  | arguments before behind => exact behind.depth.trans before.depth.symm
  | block before call => exact (Body.depth_push _ _).trans before.depth.symm
  | call before call => exact (Body.depth_push _ _).trans before.depth.symm
  | line before call => exact (Body.depth_push _ _).trans before.depth.symm
  | unblocked before behind => exact behind.depth.trans before.depth.symm

theorem itemsFrom_brackets (line n : Nat) :
    Token.itemsFrom [] line (List.replicate n '[') =
      (List.replicate n ⟨.leftBracket, line⟩).map .ok ++ [.ok ⟨.endOfScript, line⟩] := by
  induction n with
  | zero =>
      rw [Token.itemsFrom_unfold]
      rfl
  | succ n ih =>
      rw [List.replicate_succ, Token.itemsFrom_unfold]
      exact congrArg (.ok ⟨.leftBracket, line⟩ :: ·) ih

theorem trail_brackets (awaits : Awaits place hole) (n k line : Nat) :
    ∃ next, trail none (place, n) (List.replicate k ⟨.leftBracket, line⟩) = some (next, n + k) := by
  induction k generalizing place hole n with
  | zero => exact ⟨place, rfl⟩
  | succ k ih =>
      have opened (inner : Hole) : ∃ next, trail none (.item [] inner, n + 1) (List.replicate k ⟨.leftBracket, line⟩) =
          some (next, n + (k + 1)) := by
        rw [Nat.add_comm k, ← Nat.add_assoc]
        exact ih .item (n + 1)
      cases awaits <;> exact opened _

-- A block with a call in it, and brackets that are never closed.
def deepCall (n : Nat) : String := String.ofList ("\na do b".toList ++ List.replicate n '[')

def deepTokens (n : Nat) : List Located :=
  [⟨.newline, 1⟩, ⟨.ident "a", 2⟩, ⟨.ident "do", 2⟩, ⟨.ident "b", 2⟩] ++ List.replicate n ⟨.leftBracket, 2⟩

theorem deepCall_items (n : Nat) :
    Token.items (deepCall (n + 1)) = (deepTokens (n + 1)).map .ok ++ [.ok ⟨.endOfScript, 2⟩] := by
  unfold Token.items deepCall deepTokens
  rw [String.toList_ofList, List.map_append, List.append_assoc, ← itemsFrom_brackets, List.replicate_succ]
  rw [Token.itemsFrom_unfold]
  refine congrArg (_ :: ·) ?_
  rw [Token.itemsFrom_unfold]
  refine congrArg (_ :: ·) ?_
  rw [Token.itemsFrom_unfold]
  refine congrArg (_ :: ·) ?_
  rw [Token.itemsFrom_unfold]
  exact congrArg (_ :: ·) rfl

theorem deepTokens_trail (n : Nat) : ∃ next, trail none start (deepTokens n) = some (next, n + 1) := by
  have awaits (body : Body) (head : Head) : Awaits (.name body head) (.argument { body, head, parens := false } 2) :=
    .name
  obtain ⟨next, reached⟩ := trail_brackets (awaits _ _) 1 n 2
  exact ⟨next, reached.trans (congrArg _ (congrArg _ (Nat.add_comm 1 n)))⟩

theorem deepCall_crowded (n : Nat) : ¬ Room (n + 1) start (Token.items (deepCall (n + 1))) := by
  intro room
  obtain ⟨next, reached⟩ := deepTokens_trail (n + 1)
  rw [deepCall_items] at room
  exact absurd (room _ next _ (List.prefix_append _ _) reached) (Nat.not_succ_le_self _)

theorem deepCall_line (inText : .ok t ∈ Token.items (deepCall (n + 1))) (opener : t.token ≠ .newline) :
    t.line = 2 := by
  rw [deepCall_items] at inText
  simp only [deepTokens, List.map_cons, List.map_replicate, List.cons_append, List.nil_append, List.mem_cons,
    List.mem_append, List.mem_replicate, List.not_mem_nil, or_false] at inText
  rcases inText with same | same | same | same | ⟨_, same⟩ | same <;> cases same
  · exact absurd rfl opener
  all_goals rfl

end Script

-- Either the limit is never met and changes nothing, or the first token that opens one construct too many is
-- refused on its line. Whatever is read as a whole is closed again, so what stands side by side does not add up.
open Script in
theorem nesting_limited (text : String) :
    ((Room maxNesting start (Token.items text) ∧ parse text = parseWithin none text) ∨
      ∃ t e, Overflows maxNesting start (Token.items text) t ∧
        (t.token = .leftBrace ∨ t.token = .ident "do" ∨ t.token = .leftBracket) ∧
        parse text = .error e ∧ e.cause.message = "nesting too deep" ∧ e.line = some t.line) ∧
    ∀ limit front before n, trail limit start front = some (before, n) →
      n = before.depth ∧
      ∀ more behind m, trail limit (before, n) more = some (behind, m) → Spans before behind → m = n := by
  constructor
  · rcases run_limited maxNesting (Token.items text) (.statement (.script [])) 1 (Nat.zero_le _) with
      ⟨room, same⟩ | ⟨t, ⟨front, rest, last, next, text, room, reached, opens, entered⟩, failed⟩
    · exact .inl ⟨room, same⟩
    · exact .inr ⟨t, _, ⟨front, rest, last, next, text, room, reached, opens, entered⟩, opens_token opens,
        failed, rfl, rfl⟩
  · intro limit front before n reached
    have counted : n = before.depth := trail_depth reached
    refine ⟨counted, ?_⟩
    subst counted
    intro more behind m spanned spans
    exact (trail_depth spanned).trans spans.depth

-- The call in the block opens one construct more than may be open, or has lists and a mapping side by side.
open Script in
theorem nesting_limited_in_block :
    (∃ e, parse (deepCall maxNesting) = .error e ∧ e.cause.message = "nesting too deep" ∧ e.line = some 2) ∧
    ∃ before behind m,
      trail (some maxNesting) start [⟨.ident "a", 1⟩, ⟨.leftBrace, 1⟩, ⟨.newline, 1⟩, ⟨.ident "b", 2⟩] =
        some (before, 1) ∧
      trail (some maxNesting) (before, 1) [⟨.leftBracket, 2⟩, ⟨.leftBracket, 2⟩, ⟨.rightBracket, 2⟩, ⟨.comma, 2⟩,
        ⟨.leftBrace, 2⟩, ⟨.label "x", 2⟩, ⟨.int 1, 2⟩, ⟨.rightBrace, 2⟩, ⟨.rightBracket, 2⟩] = some (behind, m) ∧
      Spans before behind ∧ before.depth = 1 ∧ m = 1 := by
  obtain ⟨limited, counted⟩ := nesting_limited (deepCall maxNesting)
  constructor
  · rcases limited with ⟨room, _⟩ | ⟨t, e, ⟨front, rest, last, next, inText, _⟩, opener, failed, message, line⟩
    · exact absurd room (deepCall_crowded 255)
    · have member : .ok t ∈ Token.items (deepCall maxNesting) := by
        rw [inText]
        exact List.mem_append_right _ List.mem_cons_self
      have apart : t.token ≠ .newline := by
        intro same
        rw [same] at opener
        simp at opener
      exact ⟨e, failed, message, line.trans (congrArg some (deepCall_line member apart))⟩
  · let body : Body := .block .brace none [] (.script []) { keyword := "a", line := 1 } []
    let head : Head := { keyword := "b", line := 2 }
    have reached : trail (some maxNesting) start
        [⟨.ident "a", 1⟩, ⟨.leftBrace, 1⟩, ⟨.newline, 1⟩, ⟨.ident "b", 2⟩] = some (.name body head, 1) := rfl
    have spanned : trail (some maxNesting) (.name body head, 1) [⟨.leftBracket, 2⟩, ⟨.leftBracket, 2⟩,
        ⟨.rightBracket, 2⟩, ⟨.comma, 2⟩, ⟨.leftBrace, 2⟩, ⟨.label "x", 2⟩, ⟨.int 1, 2⟩, ⟨.rightBrace, 2⟩,
        ⟨.rightBracket, 2⟩] = some (fill (.argument { body, head, parens := false } 2)
          (.list [.list [], .map [("x", .int 1)]]), 1) := rfl
    obtain ⟨depth, kept⟩ := counted _ _ _ _ reached
    exact ⟨_, _, _, reached, spanned, .value .name _, depth.symm, kept _ _ _ spanned (.value .name _)⟩

end KeywordConfig
