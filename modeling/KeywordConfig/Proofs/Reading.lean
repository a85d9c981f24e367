import KeywordConfig.Proofs.Gathering

namespace KeywordConfig.Script
open Grammar

-- Reading goes on from `place` over all of the tokens, and ends with the calls.
def Accepts (limit : Nat) (place : Place) : List Located → List Call → Prop
  | [], _ => False
  | t :: rest, calls =>
      match step (some limit) place t with
      | .ok (.next place) => Accepts limit place rest calls
      | .ok (.finished all) => rest = [] ∧ all = calls
      | .error _ => False

def Continues (limit : Nat) (rest : List Located) (calls : List Call) : Step → Prop
  | .ok (.next place) => Accepts limit place rest calls
  | .ok (.finished all) => rest = [] ∧ all = calls
  | .error _ => False

theorem accepts_cons : Accepts limit place (t :: rest) calls ↔
    Continues limit rest calls (step (some limit) place t) := by
  rw [Accepts]
  cases step (some limit) place t with
  | error => rfl
  | ok progress => cases progress <;> rfl

-- Reading makes no choice, so it ends with one list of calls at most.
theorem accepts_unique (first : Accepts limit place tokens a) (second : Accepts limit place tokens b) :
    a = b := by
  induction tokens generalizing place with
  | nil => cases first
  | cons t rest ih =>
      rw [accepts_cons] at first second
      cases made : step (some limit) place t with
      | error => rw [made] at first; cases first
      | ok progress =>
          rw [made] at first second
          cases progress with
          | next place => exact ih first second
          | finished calls => exact first.2.symm.trans second.2

section

variable {limit : Nat} {rest : List Located} {calls : List Call}

@[simp] theorem continues_goto : Continues limit rest calls (goto place) ↔ Accepts limit place rest calls :=
  Iff.rfl

@[simp] theorem continues_fail : ¬ Continues limit rest calls (fail cause line) := id

@[simp] theorem continues_mismatch : ¬ Continues limit rest calls (mismatch wanted t) := id

@[simp] theorem continues_enter : Continues limit rest calls (enter (some limit) depth line place) ↔
    depth < limit ∧ Accepts limit place rest calls := by
  by_cases full : limit ≤ depth
  · have closed : ¬ depth < limit := Nat.not_lt.mpr full
    simp [enter, full, closed]
  · have free : depth < limit := Nat.lt_of_not_le full
    simp [enter, full, free]

end

@[simp] theorem not_accepts_nil : ¬ Accepts limit place [] calls := id

-- The first token is of one kind, and `behind` holds of those behind it.
def Starts (kind : Token → Prop) (behind : List Located → Prop) (tokens : List Located) : Prop :=
  ∃ token line rest, tokens = ⟨token, line⟩ :: rest ∧ kind token ∧ behind rest

@[simp] theorem not_starts_nil : ¬ Starts kind behind [] := by
  intro starts
  obtain ⟨_, _, _, same, _⟩ := starts
  cases same

@[simp] theorem starts_cons : Starts kind behind (⟨token, line⟩ :: rest) ↔
    kind token ∧ behind rest := by
  constructor
  · intro starts
    obtain ⟨_, _, _, same, holds⟩ := starts
    cases same
    exact holds
  · exact fun holds => ⟨_, _, _, rfl, holds⟩

-- A place that passes over tokens of one kind accepts what it accepts behind all of them.
theorem accepts_many {there : List Located → Prop} (nothing : ¬ there [])
    (first : ∀ t rest, Accepts limit place (t :: rest) calls ↔
      (kind t.token ∧ Accepts limit place rest calls) ∨ there (t :: rest)) :
    Accepts limit place tokens calls ↔ ∃ after, Many kind tokens after ∧ there after := by
  constructor
  · intro holds
    induction tokens with
    | nil => cases holds
    | cons t rest ih =>
        rcases (first t rest).mp holds with ⟨passed, behind⟩ | stops
        · obtain ⟨after, many, stops⟩ := ih behind
          exact ⟨after, .more passed many, stops⟩
        · exact ⟨_, .none, stops⟩
  · intro found
    obtain ⟨after, many, stops⟩ := found
    induction many with
    | none =>
        rename_i tokens
        cases tokens with
        | nil => exact absurd stops nothing
        | cons t rest => exact (first t rest).mpr (.inr stops)
    | more passed _ ih => exact (first _ _).mpr (.inl ⟨passed, ih stops⟩)

theorem literal?_iff : literal? token = some value ↔ Literal token value := by
  constructor
  · intro read
    cases token with
    | ident name =>
        simp only [literal?, Option.some.injEq] at read
        subst read
        split
        · subst name; exact .yes
        · split
          · subst name; exact .no
          · split
            · subst name; exact .nil
            · exact .name (by simp_all)
    | str | symbol | int | float => cases read; constructor
    | _ => cases read
  · intro literal
    cases literal with
    | name other =>
        simp only [List.mem_cons, List.not_mem_nil, or_false, not_or] at other
        simp [literal?, other]
    | _ => rfl

theorem value_iff : Accepts limit (.value hole) tokens calls ↔
    (∃ value, Starts (Literal · value) (Accepts limit (fill hole value) · calls) tokens) ∨
    Starts (· = .leftBracket) (fun rest => hole.depth < limit ∧
      Accepts limit (.item [] hole) rest calls) tokens ∨
    Starts (· = .leftBrace) (fun rest => hole.depth < limit ∧
      Accepts limit (.key [] hole) rest calls) tokens := by
  cases tokens with
  | nil => simp
  | cons t rest =>
      obtain ⟨token, line⟩ := t
      simp only [accepts_cons, step, atValue, ← literal?_iff]
      cases token <;> simp [literal?]

theorem item_iff : Accepts limit (.item items hole) tokens calls ↔ ∃ after, Newlines tokens after ∧
    (Starts (· = .rightBracket) (Accepts limit (fill hole (.list items.reverse)) · calls) after ∨
      Accepts limit (.value (.item items hole)) after calls) := by
  apply accepts_many (by simp)
  intro t rest
  obtain ⟨token, line⟩ := t
  simp only [accepts_cons, step]
  cases token <;> simp [atValue, literal?]

theorem afterItem_iff : Accepts limit (.afterItem items hole) tokens calls ↔
    ∃ after, Newlines tokens after ∧
      (Starts (· = .comma) (Accepts limit (.item items hole) · calls) after ∨
        Starts (· = .rightBracket) (Accepts limit (fill hole (.list items.reverse)) · calls) after) := by
  apply accepts_many (by simp)
  intro t rest
  obtain ⟨token, line⟩ := t
  simp only [accepts_cons, step]
  cases token <;> simp

theorem key_iff : Accepts limit (.key entries hole) tokens calls ↔ ∃ after, Newlines tokens after ∧
    (Starts (· = .rightBrace) (Accepts limit (fill hole (.map entries)) · calls) after ∨
      (∃ key, Starts (· = .label key) (Accepts limit (.entry entries key hole) · calls) after) ∨
        Accepts limit (.value (.key entries hole)) after calls) := by
  apply accepts_many (by simp)
  intro t rest
  obtain ⟨token, line⟩ := t
  simp only [accepts_cons, step]
  cases token <;> simp [atValue, literal?]

theorem afterKey_iff : Accepts limit (.afterKey entries key hole) tokens calls ↔
    Starts (· = .arrow) (Accepts limit (.entry entries key hole) · calls) tokens := by
  cases tokens with
  | nil => simp
  | cons t rest =>
      obtain ⟨token, line⟩ := t
      simp only [accepts_cons, step]
      cases token <;> simp

theorem entry_iff : Accepts limit (.entry entries key hole) tokens calls ↔
    ∃ after, Newlines tokens after ∧ Accepts limit (.value (.entry entries key hole)) after calls := by
  apply accepts_many (by simp)
  intro t rest
  obtain ⟨token, line⟩ := t
  simp only [accepts_cons, step]
  cases token <;> simp [atValue, literal?]

theorem afterEntry_iff : Accepts limit (.afterEntry entries hole) tokens calls ↔
    ∃ after, Newlines tokens after ∧
      (Starts (· = .comma) (Accepts limit (.key entries hole) · calls) after ∨
        Starts (· = .rightBrace) (Accepts limit (fill hole (.map entries)) · calls) after) := by
  apply accepts_many (by simp)
  intro t rest
  obtain ⟨token, line⟩ := t
  simp only [accepts_cons, step]
  cases token <;> simp

def lineOf : List Located → Nat
  | [] => 0
  | t :: _ => t.line

def AcceptsArgument (limit : Nat) (a : Arguments) (tokens : List Located) (calls : List Call) : Prop :=
  (∃ key, Starts (· = .label key) (Accepts limit (.value (.pair a key)) · calls) tokens) ∨
    Accepts limit (.value (.argument a (lineOf tokens))) tokens calls

theorem argument_iff : Accepts limit (.argument a) tokens calls ↔
    ∃ after, Newlines tokens after ∧ AcceptsArgument limit a after calls := by
  apply accepts_many (by simp [AcceptsArgument])
  intro t rest
  obtain ⟨token, line⟩ := t
  simp only [AcceptsArgument, accepts_cons, step, atArgument]
  cases token <;> simp [atValue, literal?, lineOf]

theorem firstArgument_iff : Accepts limit (.firstArgument a) tokens calls ↔
    ∃ after, Newlines tokens after ∧
      (Starts (· = .rightParen) (Accepts limit (.arguments a.body a.head []) · calls) after ∨
        AcceptsArgument limit a after calls) := by
  apply accepts_many (by simp [AcceptsArgument])
  intro t rest
  obtain ⟨token, line⟩ := t
  simp only [AcceptsArgument, accepts_cons, step, atArgument]
  cases token <;> simp [atValue, literal?, lineOf]

theorem closedBy_script : closedBy (.script done) token ↔ token = .endOfScript := by
  cases token <;> simp [closedBy]

theorem closedBy_block : closedBy (.block closer param done around head args) token ↔
    Shuts token closer := by
  constructor
  · intro closed
    cases closer <;> cases token <;> simp [closedBy, closes] at closed
    · exact .brace
    · subst closed
      exact .word
  · intro shuts
    cases shuts <;> rfl

theorem closedBy_cases (closed : closedBy body token) :
    token = .endOfScript ∨ token = .rightBrace ∨ token = .ident "end" := by
  cases body with
  | script => exact .inl (closedBy_script.mp closed)
  | block => cases closedBy_block.mp closed <;> simp

theorem not_closedBy_separator (separator : IsSeparator token) : ¬ closedBy body token := by
  intro closed
  rcases separator with rfl | rfl <;> simpa using closedBy_cases closed

def Completes (limit : Nat) (body : Body) (tokens : List Located) (calls : List Call) : Prop :=
  Starts (closedBy body ·) (Continues limit · calls (.ok (close body))) tokens

theorem completes_script : Completes limit (.script done) tokens calls ↔
    Starts (· = .endOfScript) (fun rest => rest = [] ∧ done.reverse = calls) tokens := by
  simp only [Completes, closedBy_script]
  rfl

theorem completes_block : Completes limit (.block closer param done around head args) tokens calls ↔
    Starts (Shuts · closer) (Accepts limit
      (.separator (around.push (.block head args param done.reverse)) head.keyword) · calls) tokens := by
  simp only [Completes, closedBy_block]
  rfl

theorem separator_iff : Accepts limit (.separator body keyword) tokens calls ↔
    Completes limit body tokens calls ∨
      Starts IsSeparator (Accepts limit (.statement body) · calls) tokens := by
  cases tokens with
  | nil => simp [Completes]
  | cons t rest =>
      obtain ⟨token, line⟩ := t
      simp only [accepts_cons, step, atSeparator, Completes, starts_cons]
      by_cases closed : closedBy body token
      · have apart : ¬ IsSeparator token := fun separator => not_closedBy_separator separator closed
        simp [closed, apart]
      · simp only [closed]
        cases token <;> simp [IsSeparator]

theorem opens_iff : blockCloser? token = some closer ↔ Opens token closer := by
  constructor
  · intro opened
    cases token with
    | leftBrace => cases opened; exact .brace
    | ident name =>
        simp only [blockCloser?] at opened
        split at opened
        · subst name
          cases opened
          exact .word
        · cases opened
    | _ => cases opened
  · intro opens
    cases opens <;> rfl

-- Behind what may follow the names of a call: a block, or the end of the call.
def AcceptsBlock (limit : Nat) (body : Body) (head : Head) (tail : Option (List Value))
    (tokens : List Located) (calls : List Call) : Prop :=
  (∃ closer, Starts (Opens · closer) (fun rest => body.depth < limit ∧
    Accepts limit (.blockStart ⟨closer, body, head, tail.getD []⟩) rest calls) tokens) ∨
  Accepts limit (.separator (body.push (unblocked head tail)) head.keyword) tokens calls

-- Besides what opens a block, closes a body or separates calls, no token may stand there.
theorem acceptsBlock_first (accepts : AcceptsBlock limit body head tail (⟨token, line⟩ :: rest) calls) :
    token = .leftBrace ∨ token = .ident "do" ∨ token = .endOfScript ∨ token = .rightBrace ∨
      token = .ident "end" ∨ token = .newline ∨ token = .semicolon := by
  simp only [AcceptsBlock, separator_iff, Completes, starts_cons] at accepts
  rcases accepts with ⟨closer, opens, _⟩ | ⟨closed, _⟩ | ⟨separator, _⟩
  · cases opens <;> simp
  · rcases closedBy_cases closed with same | same | same <;> simp [same]
  · rcases separator with same | same <;> simp [same]

theorem atBlock_iff (tail : Option (List Value)) :
    Continues limit rest calls
      (atBlock (some limit) body head (tail.getD []) (unblocked head tail) ⟨token, line⟩) ↔
    AcceptsBlock limit body head tail (⟨token, line⟩ :: rest) calls := by
  simp only [AcceptsBlock, starts_cons, ← opens_iff, atBlock]
  cases opened : blockCloser? token with
  | none => simp [accepts_cons, step]
  | some closer =>
      have opens := opens_iff.mp opened
      have apart : ¬ IsSeparator token := by
        intro separator
        rcases separator with rfl | rfl <;> cases opens
      have inside : ¬ closedBy (body.push (unblocked head tail)) token := by
        intro closed
        cases opens <;> simpa using closedBy_cases closed
      simp [separator_iff, Completes, inside, apart]

theorem arguments_iff : Accepts limit (.arguments body head args) tokens calls ↔
    AcceptsBlock limit body head (some args) tokens calls := by
  cases tokens with
  | nil => simp [AcceptsBlock]
  | cons t rest => exact accepts_cons.trans (atBlock_iff (some args))

-- The last argument has been read: a parenthesis closes them, or the call goes on.
def AcceptsEnd (limit : Nat) (a : Arguments) (tokens : List Located) (calls : List Call) : Prop :=
  if a.parens then
    Starts (· = .rightParen) (Accepts limit (.arguments a.body a.head a.all) · calls) tokens
  else AcceptsBlock limit a.body a.head (some a.all) tokens calls

theorem afterArgument_iff : Accepts limit (.afterArgument a) tokens calls ↔
    ∃ after, Gap a.parens tokens after ∧
      (Starts (· = .comma) (Accepts limit (.argument a) · calls) after ∨
        AcceptsEnd limit a after calls) := by
  apply accepts_many (by simp [AcceptsEnd, AcceptsBlock])
  intro t rest
  obtain ⟨token, line⟩ := t
  unfold AcceptsEnd
  cases parens : a.parens with
  | true =>
      simp only [accepts_cons, step, atAfterArgument, parens]
      cases token <;> simp
  | false =>
      have block : Continues limit rest calls (atBlock (some limit) a.body a.head a.all
          (.plain a.head a.all) ⟨token, line⟩) ↔
          AcceptsBlock limit a.body a.head (some a.all) (⟨token, line⟩ :: rest) calls :=
        atBlock_iff (some a.all)
      simp only [accepts_cons, step, atAfterArgument, parens]
      cases token with
      | comma =>
          have apart : ¬ AcceptsBlock limit a.body a.head (some a.all) (⟨.comma, line⟩ :: rest) calls :=
            fun accepts => by simpa using acceptsBlock_first accepts
          simp [apart]
      | _ => simpa using block

theorem positional_iff : Accepts limit (.positional a value line) tokens calls ↔
    Starts (· = .arrow) (Accepts limit (.value (.pair a value.text)) · calls) tokens ∨
      ∃ more, a.add (.positional value) = some more ∧
        Accepts limit (.afterArgument more) tokens calls := by
  cases tokens with
  | nil => simp
  | cons t rest =>
      obtain ⟨token, first⟩ := t
      simp only [Arguments.add_positional, starts_cons]
      cases token with
      | arrow =>
          -- an arrow stands behind no argument that is complete
          have apart (more : Arguments) :
              ¬ Accepts limit (.afterArgument more) (⟨.arrow, first⟩ :: rest) calls := by
            rw [accepts_cons]
            cases parens : more.parens with
            | true => simp [step, atAfterArgument, parens]
            | false =>
                simp only [step, atAfterArgument, parens, Bool.false_eq_true, if_false]
                intro accepts
                simpa using acceptsBlock_first ((atBlock_iff (some more.all)).mp accepts)
          simp [accepts_cons, step, apart]
      | _ =>
          by_cases empty : a.pairs = [] <;> simp [accepts_cons, step, empty]

theorem atArgument_iff (visible : token ≠ .newline) :
    Continues limit rest calls (atArgument (some limit) a ⟨token, line⟩) ↔
      AcceptsArgument limit a (⟨token, line⟩ :: rest) calls := by
  simp only [AcceptsArgument, accepts_cons, step, atArgument]
  cases token <;> simp_all [atValue, literal?, lineOf]

-- A token may begin an argument without parentheses when it begins an argument at all and could
-- not stand behind the names of a call otherwise.
theorem startsArgument_iff (accepts : AcceptsArgument limit a (⟨token, line⟩ :: rest) calls) :
    startsArgument token ↔ token ≠ .leftBrace ∧ token ≠ .ident "do" ∧ token ≠ .ident "end" := by
  simp only [AcceptsArgument, value_iff, starts_cons] at accepts
  rcases accepts with ⟨_, rfl, _⟩ | ⟨_, literal, _⟩ | ⟨rfl, _⟩ | ⟨rfl, _⟩
  · simp [startsArgument]
  · cases literal <;> simp [startsArgument]
  · simp [startsArgument]
  · simp [startsArgument]

theorem keyword_iff : Accepts limit (.keyword body head) tokens calls ↔
    Starts (· = .leftParen) (Accepts limit (.firstArgument { body, head, parens := true }) · calls) tokens ∨
      (Starts (fun token => token ≠ .leftBrace ∧ token ≠ .ident "do" ∧ token ≠ .ident "end")
        (fun _ => AcceptsArgument limit { body, head, parens := false } tokens calls) tokens ∨
        AcceptsBlock limit body head none tokens calls) := by
  cases tokens with
  | nil => simp [AcceptsBlock]
  | cons t rest =>
      obtain ⟨token, line⟩ := t
      have block : Continues limit rest calls (atBlock (some limit) body head [] (.bare head)
          ⟨token, line⟩) ↔ AcceptsBlock limit body head none (⟨token, line⟩ :: rest) calls :=
        atBlock_iff none
      have argument : (token ≠ .leftBrace ∧ token ≠ .ident "do" ∧ token ≠ .ident "end") ∧
          AcceptsArgument limit { body, head, parens := false } (⟨token, line⟩ :: rest) calls ↔
          startsArgument token ∧
          AcceptsArgument limit { body, head, parens := false } (⟨token, line⟩ :: rest) calls :=
        and_congr_left fun accepts => (startsArgument_iff accepts).symm
      simp only [starts_cons, argument]
      by_cases opens : startsArgument token
      · have apart : ¬ AcceptsBlock limit body head none (⟨token, line⟩ :: rest) calls := by
          intro accepts
          rcases acceptsBlock_first accepts with rfl | rfl | rfl | rfl | rfl | rfl | rfl <;>
            simp [startsArgument] at opens
        have visible : token ≠ .newline ∧ token ≠ .leftParen := by
          constructor <;> rintro rfl <;> cases opens
        simp [accepts_cons, step, atKeyword, opens, visible, apart, atArgument_iff visible.1]
      · by_cases parens : token = .leftParen
        · subst parens
          have apart : ¬ AcceptsBlock limit body head none (⟨.leftParen, line⟩ :: rest) calls :=
            fun accepts => by simpa using acceptsBlock_first accepts
          simp [accepts_cons, step, atKeyword, opens, apart]
        · simp [accepts_cons, step, atKeyword, opens, parens, block]

theorem name_iff (apart : name ≠ "do" ∧ name ≠ "end") :
    Accepts limit (.name body { keyword := name, line }) rest calls ↔
      ∃ head behind, IsHead (⟨.ident name, line⟩ :: rest) head behind ∧
        Accepts limit (.keyword body head) behind calls := by
  constructor
  · intro accepts
    cases rest with
    | nil => cases accepts
    | cons t rest =>
        obtain ⟨token, dot⟩ := t
        cases token with
        | dot =>
            cases rest with
            | nil => cases accepts
            | cons t rest =>
                obtain ⟨token, last⟩ := t
                cases token with
                | ident keyword => exact ⟨_, _, .dotted apart.1 apart.2, accepts⟩
                | _ => cases accepts
        | _ => exact ⟨_, _, .keyword apart.1 apart.2, accepts⟩
  · intro found
    obtain ⟨head, behind, isHead, accepts⟩ := found
    cases isHead with
    | dotted => exact accepts
    | keyword =>
        cases rest with
        | nil => cases accepts
        | cons t rest =>
            obtain ⟨token, dot⟩ := t
            cases token with
            | dot =>
                -- behind a lone name a dot is neither an argument nor what may follow the call
                have block : ¬ AcceptsBlock limit body { keyword := name, line } none
                    (⟨.dot, dot⟩ :: rest) calls := fun holds => by simpa using acceptsBlock_first holds
                have literal : ∀ value, ¬ Literal .dot value := nofun
                simp [keyword_iff, AcceptsArgument, value_iff, block, literal] at accepts
            | _ => exact accepts

theorem statement_iff : Accepts limit (.statement body) tokens calls ↔
    ∃ after, Separators tokens after ∧
      (Completes limit body after calls ∨
        ∃ head behind, IsHead after head behind ∧ Accepts limit (.keyword body head) behind calls) := by
  refine accepts_many ?_ fun t rest => ?_
  · intro stops
    rcases stops with completes | ⟨_, _, isHead, _⟩
    · exact not_starts_nil completes
    · cases isHead
  obtain ⟨token, line⟩ := t
  simp only [accepts_cons, step, atStatement, Completes, starts_cons]
  by_cases closed : closedBy body token
  · have apart : ¬ IsSeparator token := fun separator => not_closedBy_separator separator closed
    have nameless : ∀ head behind, ¬ IsHead (⟨token, line⟩ :: rest) head behind := by
      intro head behind isHead
      obtain ⟨name, rfl, _, other⟩ := isHead.first
      rcases closedBy_cases closed with same | same | same <;> cases same
      exact other rfl
    simp [closed, apart, nameless]
  · have nameless : (∀ name, token = .ident name → name = "end" ∨ name = "do") →
        ∀ head behind, ¬ IsHead (⟨token, line⟩ :: rest) head behind := by
      intro reserved head behind isHead
      obtain ⟨name, same, free, other⟩ := isHead.first
      exact (reserved name same).elim other free
    simp only [closed]
    cases token with
    | ident name =>
        by_cases reserved : name = "end" ∨ name = "do"
        · simp [IsSeparator, reserved, nameless]
        · have free : name ≠ "do" ∧ name ≠ "end" := ⟨fun same => reserved (.inr same),
            fun same => reserved (.inl same)⟩
          simp [IsSeparator, reserved, name_iff free]
    | endOfScript => cases body <;> simp [IsSeparator, nameless]
    | _ => simp [IsSeparator, nameless]

theorem blockStart_iff : Accepts limit (.blockStart o) tokens calls ↔
    ∃ param start, IsParam tokens param start ∧ Accepts limit (.statement (o.body param)) start calls := by
  constructor
  · intro accepts
    cases tokens with
    | nil => cases accepts
    | cons t rest =>
        obtain ⟨token, first⟩ := t
        cases token with
        | pipe =>
            cases rest with
            | nil => cases accepts
            | cons t rest =>
                obtain ⟨token, line⟩ := t
                cases token with
                | ident name =>
                    cases rest with
                    | nil => cases accepts
                    | cons t rest =>
                        obtain ⟨token, last⟩ := t
                        cases token with
                        | pipe => exact ⟨_, _, .name, accepts⟩
                        | _ => cases accepts
                | _ => cases accepts
        | _ => exact ⟨_, _, .nothing, accepts⟩
  · intro found
    obtain ⟨param, start, isParam, accepts⟩ := found
    cases isParam with
    | name => exact accepts
    | nothing =>
        cases tokens with
        | nil => cases accepts
        | cons t rest =>
            obtain ⟨token, first⟩ := t
            cases token with
            | pipe =>
                obtain ⟨closer, around, head, args⟩ := o
                cases closer <;> cases accepts
            | _ => exact accepts

end KeywordConfig.Script
