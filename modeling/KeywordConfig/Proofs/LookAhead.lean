import Mathlib
import KeywordConfig.Proofs.Partition

namespace KeywordConfig.LookAhead
open Script

abbrev Answer := Except ConfigError (List Call)

-- What becomes of a token that is looked at.
inductive Move where
  -- it is taken, and `Script.step` says what comes next
  | take
  -- it stays where it is, for another place to look at
  | look (place : Place)
  -- it stays where it is for good
  | stop (answer : Answer)

def refuse (cause : Cause) (line : Nat) : Move := .stop (.error ⟨cause, some line⟩)

-- Behind the arguments: what opens a block is taken, and all else is left to the end of the statement.
def behind (body : Body) (head : Head) (call : Call) (t : Located) : Move :=
  match blockCloser? t.token with
  | some _ => .take
  | none => .look (.separator (body.push call) head.keyword)

def glance (place : Place) (t : Located) : Move :=
  match place with
  | .statement body =>
      match t.token, body with
      | .endOfScript, .script calls => .stop (.ok calls.reverse)
      | .endOfScript, .block closer _ _ _ _ _ => refuse (.unexpectedEnd closer) t.line
      | _, _ => .take
  | .separator body keyword =>
      if closedBy body t.token then .look (.statement body)
      else
        match t.token with
        | .newline => .look (.statement body)
        | .semicolon => .look (.statement body)
        | found => refuse (.unexpectedAfter found keyword) t.line
  | .name body head =>
      match t.token with
      | .dot => .take
      | _ => .look (.keyword body head)
  | .keyword body head =>
      match t.token with
      | .leftParen => .take
      | token =>
          if startsArgument token then .look (.argument { body, head, parens := false })
          else behind body head (.bare head) t
  | .arguments body head args => behind body head (.plain head args) t
  | .blockStart o =>
      match t.token with
      | .pipe => .take
      | _ => .look (.statement (o.body none))
  | .firstArgument a =>
      match t.token with
      | .newline => .take
      | .rightParen => .take
      | _ => .look (.argument a)
  | .argument a =>
      match t.token with
      | .newline => .take
      | .label _ => .take
      | _ => .look (.value (.argument a t.line))
  | .positional a value line =>
      match t.token with
      | .arrow => .take
      | _ =>
          if a.pairs.isEmpty then .look (.afterArgument { a with values := value :: a.values })
          else refuse .positionalAfterPairs line
  | .afterArgument a =>
      match t.token with
      | .comma => .take
      | _ => if a.parens then .take else behind a.body a.head (.plain a.head a.all) t
  | .item items around =>
      match t.token with
      | .newline => .take
      | .rightBracket => .take
      | _ => .look (.value (.item items around))
  -- the closing bracket is taken where the next item would stand
  | .afterItem items around =>
      match t.token with
      | .newline => .take
      | .comma => .take
      | .rightBracket => .look (.item items around)
      | found => refuse (.mismatch (.commaOr .rightBracket) found) t.line
  | .key entries around =>
      match t.token with
      | .newline => .take
      | .rightBrace => .take
      | .label _ => .take
      | _ => .look (.value (.key entries around))
  | .entry entries key around =>
      match t.token with
      | .newline => .take
      | _ => .look (.value (.entry entries key around))
  | .afterEntry entries around =>
      match t.token with
      | .newline => .take
      | .comma => .take
      | .rightBrace => .look (.key entries around)
      | found => refuse (.mismatch (.commaOr .rightBrace) found) t.line
  -- nothing else can stand here, so the token is taken without a look
  | .dot _ _ _ => .take
  | .blockParam _ => .take
  | .blockPipe _ _ => .take
  | .value _ => .take
  | .afterKey _ _ _ => .take

-- Places where the next item is taken without a look, an error too.
def unseen : Place → Bool
  | .dot _ _ _ => true
  | .blockParam _ => true
  | .blockPipe _ _ => true
  | .value _ => true
  | .afterKey _ _ _ => true
  | _ => false

-- How many more places may look at an item that is looked at here. It is the same for all places of a kind.
def height : Place → Nat
  | .dot _ _ _ => 0
  | .blockParam _ => 0
  | .blockPipe _ _ => 0
  | .value _ => 0
  | .afterKey _ _ _ => 0
  | .statement _ => 0
  | .separator _ _ => 1
  | .blockStart _ => 1
  | .argument _ => 1
  | .item _ _ => 1
  | .key _ _ => 1
  | .entry _ _ _ => 1
  | .arguments _ _ _ => 2
  | .keyword _ _ => 2
  | .firstArgument _ => 2
  | .afterArgument _ => 2
  | .afterItem _ _ => 2
  | .afterEntry _ _ => 2
  | .name _ _ => 3
  | .positional _ _ _ => 3

structure State where
  place : Place
  line : Nat
  items : List Token.Item

-- What a look finds: beyond the last item, the end of the script.
def State.ahead (s : State) : Token.Item := s.items.headD (.ok ⟨.endOfScript, s.line⟩)

def State.potential (s : State) : Nat := 4 * s.items.length + height s.place

inductive Outcome where
  | next (s : State)
  -- with the items that are left
  | ended (rest : List Token.Item) (answer : Answer)

def turn (limit : Option Nat) (s : State) : Outcome :=
  match s.ahead with
  | .error e => .ended (if unseen s.place then s.items.tail else s.items) (.error e)
  | .ok t =>
      match glance s.place t with
      | .look place => .next { s with place }
      | .stop answer => .ended s.items answer
      | .take =>
          match step limit s.place t with
          | .ok (.next place) => .next ⟨place, t.line, s.items.tail⟩
          | .ok (.finished calls) => .ended s.items.tail (.ok calls)
          | .error e => .ended s.items.tail (.error e)

inductive Trail (limit : Option Nat) : State → List State → List Token.Item → Answer → Prop where
  | last : turn limit s = .ended rest answer → Trail limit s [s] rest answer
  | more : turn limit s = .next s' → Trail limit s' states rest answer →
      Trail limit s (s :: states) rest answer

-- What is taken from one state to a later one: tokens that are neither an error nor the end of the script,
-- and one at least unless the place is of less height than it was.
def Later (s s' : State) : Prop :=
  ∃ taken : List Located, s.items = taken.map .ok ++ s'.items ∧ (∀ t ∈ taken, t.token ≠ .endOfScript) ∧
    (height s.place ≤ height s'.place → taken ≠ [])

variable {s s' s'' : State}

-- What a look comes to is what `Script.step` says: another place goes on as this one would have, and has
-- less height.
def Settled (limit : Option Nat) (place : Place) (t : Located) : Move → Prop
  | .take => True
  | .look next => height next < height place ∧ step limit place t = step limit next t
  | .stop answer => step limit place t = answer.map .finished

theorem behind_settled (args : List Value) (higher : 1 < height place)
    (same : step limit place t = atBlock limit body head args call t) :
    Settled limit place t (behind body head call t) := by
  unfold behind
  split
  · trivial
  · rename_i closed
    rw [Settled, same]
    exact ⟨higher, by simp only [atBlock, closed, step]⟩

-- What closes the body and what ends the statement is left to the place where a statement would stand.
theorem separator_settled (limit : Option Nat) (body : Body) (keyword : String) (t : Located) :
    Settled limit (.separator body keyword) t (glance (.separator body keyword) t) := by
  simp only [glance]
  split
  · rename_i closed
    exact ⟨by simp [height], by simp only [step, atSeparator, atStatement, closed, if_true]⟩
  · rename_i going
    split
    · rename_i newline
      exact ⟨by simp [height], by simp [step, atSeparator, atStatement, newline]⟩
    · rename_i semicolon
      exact ⟨by simp [height], by simp [step, atSeparator, atStatement, semicolon]⟩
    · simp [refuse, Settled, step, atSeparator, going, Script.fail, Except.map]

theorem glance_settled (limit : Option Nat) (place : Place) (t : Located) :
    Settled limit place t (glance place t) := by
  cases place with
  | statement body =>
      simp only [glance]
      split
      · rename_i ends
        simp [Settled, step, atStatement, ends, closedBy, close, Except.map]
      · rename_i closer _ _ _ _ _ ends
        cases closer <;>
          simp [refuse, Settled, step, atStatement, ends, closedBy, closes, Script.fail, Except.map]
      · trivial
  | separator => exact separator_settled _ _ _ _
  | keyword body head =>
      simp only [glance]
      split
      · trivial
      · split
        · rename_i starts
          exact ⟨by simp [height], by simp [step, atKeyword, starts]⟩
        · rename_i starts
          exact behind_settled [] (by simp [height]) (by simp [step, atKeyword, starts])
  | arguments body head args => exact behind_settled args (by simp [height]) rfl
  | positional a value line =>
      simp only [glance]
      split
      · trivial
      · split
        · rename_i unnamed
          exact ⟨by simp [height], by simp [step, unnamed]⟩
        · rename_i named
          simp [refuse, Settled, step, named, Script.fail, Except.map]
  | afterArgument a =>
      simp only [glance]
      split
      · trivial
      · split
        · trivial
        · rename_i bare
          exact behind_settled a.all (by simp [height]) (by simp [step, atAfterArgument, bare])
  | afterItem | afterEntry =>
      simp only [glance]
      split
      · trivial
      · trivial
      · rename_i bracket
        exact ⟨by simp [height], by simp [step, bracket]⟩
      · simp [refuse, Settled, step, mismatch, Script.fail, Except.map]
  | name | blockStart | firstArgument | argument | item | key | entry =>
      simp only [glance]
      split <;> first | trivial | exact ⟨by simp [height], by simp [step, atArgument]⟩
  | dot | blockParam | blockPipe | value | afterKey => trivial

theorem height_le (place : Place) : height place ≤ 3 := by
  cases place <;> simp [height]

theorem Later.trans (first : Later s s') (second : Later s' s'') : Later s s'' := by
  obtain ⟨early, before, inner, back⟩ := first
  obtain ⟨late, after, others, again⟩ := second
  refine ⟨early ++ late, by rw [before, after, List.map_append, List.append_assoc], ?_, ?_⟩
  · intro t taken
    exact (List.mem_append.mp taken).elim (inner t) (others t)
  · -- Were nothing taken, the place would have lost height twice.
    intro least none
    obtain ⟨rfl, rfl⟩ := List.append_eq_nil_iff.mp none
    have down : height s'.place < height s.place := Nat.lt_of_not_le fun least => back least rfl
    have lower : height s''.place < height s'.place := Nat.lt_of_not_le fun least => again least rfl
    omega

instance : IsTrans State Later := ⟨fun _ _ _ => Later.trans⟩

theorem whole_behind {taken : List Located} (whole : Token.Whole (taken.map .ok ++ rest))
    (inner : ∀ t ∈ taken, t.token ≠ .endOfScript) : Token.Whole rest := by
  induction taken with
  | nil => exact whole
  | cons t others ih =>
      rw [List.map_cons, List.cons_append] at whole
      generalize left : others.map .ok ++ rest = items at whole
      cases whole with
      | last => exact absurd rfl (inner _ List.mem_cons_self)
      | more _ goes => exact ih (left ▸ goes) fun t taken => inner t (List.mem_cons_of_mem _ taken)

theorem Later.whole (later : Later s s') (whole : Token.Whole s.items) : Token.Whole s'.items := by
  obtain ⟨taken, same, inner, -⟩ := later
  exact whole_behind (same ▸ whole) inner

-- A token that is taken to go on is not the end of the script, so it is one of the items.
theorem ahead_taken (found : s.ahead = .ok t) (going : step limit s.place t = .ok (.next place)) :
    s.items = .ok t :: s.items.tail ∧ t.token ≠ .endOfScript := by
  have inner : t.token ≠ .endOfScript := by
    intro last
    obtain ⟨token, line⟩ := t
    cases last
    have ends := step_ends limit s.place line
    rw [going] at ends
    exact ends
  cases items : s.items with
  | nil =>
      rw [State.ahead, items] at found
      cases found
      exact absurd rfl inner
  | cons item rest =>
      rw [State.ahead, items] at found
      cases found
      exact ⟨rfl, inner⟩

-- A turn goes on with the same item at a place of less height, or behind a token that it has taken.
theorem turn_next (made : turn limit s = .next s') :
    (∃ t, s.ahead = .ok t ∧ s'.items = s.items ∧ s'.line = s.line ∧ height s'.place < height s.place ∧
      step limit s.place t = step limit s'.place t) ∨
    (∃ t, s.items = .ok t :: s'.items ∧ t.token ≠ .endOfScript ∧ s'.line = t.line ∧
      step limit s.place t = .ok (.next s'.place)) := by
  unfold turn at made
  split at made
  · cases made
  · rename_i t found
    split at made
    · rename_i next seen
      cases made
      have settled := glance_settled limit s.place t
      rw [seen] at settled
      exact .inl ⟨t, found, rfl, rfl, settled⟩
    · cases made
    · split at made
      · rename_i going
        cases made
        obtain ⟨taken, inner⟩ := ahead_taken found going
        exact .inr ⟨t, taken, inner, rfl, going⟩
      · cases made
      · cases made

theorem turn_later (made : turn limit s = .next s') : Later s s' := by
  obtain ⟨t, -, stays, -, lower, -⟩ | ⟨t, taken, inner, -⟩ := turn_next made
  · exact ⟨[], stays.symm, nofun, fun least => absurd lower (Nat.not_lt_of_le least)⟩
  · exact ⟨[t], taken, by simpa using inner, fun _ => List.cons_ne_nil _ _⟩

theorem turn_potential (made : turn limit s = .next s') : s'.potential < s.potential := by
  have bound := height_le s'.place
  obtain ⟨t, -, stays, -, lower, -⟩ | ⟨t, taken, -⟩ := turn_next made
  · simp only [State.potential, stays]
    omega
  · simp only [State.potential, taken, List.length_cons]
    omega

theorem whole_ne_nil (whole : Token.Whole items) : items ≠ [] := by
  cases whole <;> exact nofun

theorem whole_ahead (whole : Token.Whole s.items) : s.items = s.ahead :: s.items.tail := by
  unfold State.ahead
  cases items : s.items with
  | nil => exact absurd items (whole_ne_nil whole)
  | cons => rfl

theorem run_ahead (whole : Token.Whole s.items) (found : s.ahead = .ok t) :
    run limit s.place s.line s.items =
      match step limit s.place t with
      | .error e => .error e
      | .ok (.finished calls) => .ok calls
      | .ok (.next place) => run limit place t.line s.items.tail := by
  rw [whole_ahead whole, found]
  rfl

theorem turn_run (whole : Token.Whole s.items) (made : turn limit s = .next s') :
    run limit s'.place s'.line s'.items = run limit s.place s.line s.items := by
  obtain ⟨t, found, stays, -, -, same⟩ | ⟨t, taken, -, line, going⟩ := turn_next made
  · have after : s'.ahead = .ok t := by
      rw [whole_ahead whole, found] at stays
      rw [State.ahead, stays]
      rfl
    rw [run_ahead whole found, run_ahead (stays ▸ whole) after, same, stays]
  · rw [taken, run, going, line]

theorem turn_ended (whole : Token.Whole s.items) (made : turn limit s = .ended rest answer) :
    run limit s.place s.line s.items = answer ∧ rest <:+ s.items := by
  unfold turn at made
  split at made
  · rename_i e found
    cases made
    refine ⟨by rw [whole_ahead whole, found]; rfl, ?_⟩
    split
    · exact List.tail_suffix _
    · exact List.suffix_refl _
  · rename_i t found
    rw [run_ahead whole found]
    split at made
    · cases made
    · rename_i seen
      cases made
      have settled := glance_settled limit s.place t
      rw [seen] at settled
      refine ⟨?_, List.suffix_refl _⟩
      rw [show step limit s.place t = _ from settled]
      cases answer <;> rfl
    · split at made
      · cases made
      · rename_i done
        cases made
        exact ⟨by rw [done], List.tail_suffix _⟩
      · rename_i failed
        cases made
        exact ⟨by rw [failed], List.tail_suffix _⟩

theorem trail_exists (s : State) (whole : Token.Whole s.items) :
    ∃ states rest, Trail limit s states rest (run limit s.place s.line s.items) ∧
      states.length + 3 ≤ s.potential ∧ rest <:+ s.items := by
  cases made : turn limit s with
  | ended rest answer =>
      obtain ⟨result, suffix⟩ := turn_ended whole made
      refine ⟨[s], rest, result ▸ .last made, ?_, suffix⟩
      have held := List.length_pos_iff.mpr (whole_ne_nil whole)
      simp only [State.potential, List.length_singleton]
      omega
  | next s' =>
      have later := turn_later made
      have lower := turn_potential made
      obtain ⟨states, rest, inner, bound, suffix⟩ := trail_exists s' (later.whole whole)
      refine ⟨s :: states, rest, .more made (turn_run whole made ▸ inner), ?_, ?_⟩
      · simp only [List.length_cons]
        omega
      · obtain ⟨taken, same, -⟩ := later
        rw [same]
        exact suffix.trans (List.suffix_append _ _)
termination_by s.potential

theorem Trail.unique (path : Trail limit s states rest answer) (other : Trail limit s visited left found) :
    visited = states ∧ left = rest ∧ found = answer := by
  induction path generalizing visited with
  | last made =>
      cases other with
      | last again => cases made.symm.trans again; exact ⟨rfl, rfl, rfl⟩
      | more again => cases made.symm.trans again
  | more made _ ih =>
      cases other with
      | last again => cases made.symm.trans again
      | more again inner =>
          cases made.symm.trans again
          obtain ⟨rfl, rfl, rfl⟩ := ih inner
          exact ⟨rfl, rfl, rfl⟩

theorem Trail.chain (path : Trail limit s states rest answer) : states.IsChain Later := by
  induction path with
  | last => exact .singleton _
  | more made inner ih =>
      cases inner with
      | last => exact .cons_cons (turn_later made) ih
      | more => exact .cons_cons (turn_later made) ih

theorem Trail.whole (path : Trail limit s states rest answer) (whole : Token.Whole s.items) :
    ∀ visited ∈ states, Token.Whole visited.items := by
  induction path with
  | last => simpa using whole
  | more made _ ih =>
      intro visited present
      rcases List.mem_cons.mp present with rfl | after
      · exact whole
      · exact ih ((turn_later made).whole whole) visited after

-- Any text is read to an answer, and in one way: in turns, at most four for each of its items, of which
-- there is at most one more than there are characters. From one turn to a later one nothing is taken but
-- tokens other than the end of the script, and one of them at least when the later turn is at a place of the
-- same kind. Each turn has an item of the text to look at, and the items that are left are the last ones.
theorem parse_progress (limit : Option Nat) (text : String) :
    ∃ states rest,
      (∀ path left answer, Trail limit ⟨.statement (.script []), 1, Token.items text⟩ path left answer ↔
        path = states ∧ left = rest ∧ answer = parseWithin limit text) ∧
      states.length ≤ 4 * (Token.items text).length ∧ (Token.items text).length ≤ text.length + 1 ∧
      states.Pairwise Later ∧ (∀ s ∈ states, s.items ≠ []) ∧ rest <:+ Token.items text := by
  have whole : Token.Whole (Token.items text) := Token.itemsFrom_whole _ _
  obtain ⟨states, rest, path, bound, suffix⟩ :=
    trail_exists ⟨.statement (.script []), 1, Token.items text⟩ whole
  refine ⟨states, rest, fun _ _ _ => ⟨path.unique, ?_⟩, ?_, ?_, path.chain.pairwise,
    fun s visited => whole_ne_nil (path.whole whole s visited), suffix⟩
  · rintro ⟨rfl, rfl, rfl⟩
    exact path
  · simp only [State.potential, height] at bound
    omega
  · rw [← String.length_toList]
    exact Token.itemsFrom_length 1 text.toList

end KeywordConfig.LookAhead
