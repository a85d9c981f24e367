import KeywordConfig.Proofs.Parsing

namespace KeywordConfig

def Located.relined (f : Nat → Nat) (t : Located) : Located := { t with line := f t.line }

def ConfigError.relined (f : Nat → Nat) (e : ConfigError) : ConfigError := { e with line := e.line.map f }

def Head.relined (f : Nat → Nat) (head : Head) : Head := { head with line := f head.line }

namespace Call

mutual

def relined (f : Nat → Nat) : Call → Call
  | .bare head => .bare (head.relined f)
  | .plain head args => .plain (head.relined f) args
  | .block head args param body => .block (head.relined f) args param (relinedAll f body)

def relinedAll (f : Nat → Nat) : List Call → List Call
  | [] => []
  | call :: rest => call.relined f :: relinedAll f rest

end

theorem relinedAll_eq_map (f : Nat → Nat) (calls : List Call) : relinedAll f calls = calls.map (relined f) := by
  induction calls with
  | nil => rfl
  | cons call rest ih => simp [relinedAll, ih]

end Call

-- Where reading stands when the lines are others and some calls, last first, stand before those of the
-- script.
def Body.resumed (f : Nat → Nat) (earlier : List Call) : Body → Body
  | .script calls => .script (Call.relinedAll f calls ++ earlier)
  | .block closer param calls around head args =>
      .block closer param (Call.relinedAll f calls) (around.resumed f earlier) (head.relined f) args

def Opening.resumed (f : Nat → Nat) (earlier : List Call) (o : Opening) : Opening :=
  { o with around := o.around.resumed f earlier, head := o.head.relined f }

def Arguments.resumed (f : Nat → Nat) (earlier : List Call) (a : Arguments) : Arguments :=
  { a with body := a.body.resumed f earlier, head := a.head.relined f }

def Hole.resumed (f : Nat → Nat) (earlier : List Call) : Hole → Hole
  | .argument a line => .argument (a.resumed f earlier) (f line)
  | .pair a name => .pair (a.resumed f earlier) name
  | .item items around => .item items (around.resumed f earlier)
  | .key entries around => .key entries (around.resumed f earlier)
  | .entry entries name around => .entry entries name (around.resumed f earlier)

def Place.resumed (f : Nat → Nat) (earlier : List Call) : Place → Place
  | .statement body => .statement (body.resumed f earlier)
  | .separator body word => .separator (body.resumed f earlier) word
  | .name body head => .name (body.resumed f earlier) (head.relined f)
  | .dot body receiver line => .dot (body.resumed f earlier) receiver (f line)
  | .keyword body head => .keyword (body.resumed f earlier) (head.relined f)
  | .arguments body head args => .arguments (body.resumed f earlier) (head.relined f) args
  | .blockStart o => .blockStart (o.resumed f earlier)
  | .blockParam o => .blockParam (o.resumed f earlier)
  | .blockPipe o param => .blockPipe (o.resumed f earlier) param
  | .firstArgument a => .firstArgument (a.resumed f earlier)
  | .argument a => .argument (a.resumed f earlier)
  | .positional a v line => .positional (a.resumed f earlier) v (f line)
  | .afterArgument a => .afterArgument (a.resumed f earlier)
  | .value hole => .value (hole.resumed f earlier)
  | .item items around => .item items (around.resumed f earlier)
  | .afterItem items around => .afterItem items (around.resumed f earlier)
  | .key entries around => .key entries (around.resumed f earlier)
  | .afterKey entries word around => .afterKey entries word (around.resumed f earlier)
  | .entry entries word around => .entry entries word (around.resumed f earlier)
  | .afterEntry entries around => .afterEntry entries (around.resumed f earlier)

def Call.resumed (f : Nat → Nat) (earlier calls : List Call) : List Call :=
  earlier.reverse ++ Call.relinedAll f calls

def Progress.resumed (f : Nat → Nat) (earlier : List Call) : Progress → Progress
  | .next place => .next (place.resumed f earlier)
  | .finished calls => .finished (Call.resumed f earlier calls)

namespace Script

-- An outcome with other lines, in its error or in what it gives.
def relinedBy (f : Nat → Nat) (g : α → α) : Except ConfigError α → Except ConfigError α
  | .error e => .error (e.relined f)
  | .ok a => .ok (g a)

section

variable (f : Nat → Nat) (earlier : List Call)

@[simp] theorem depth_resumed (body : Body) : (body.resumed f earlier).depth = body.depth := by
  induction body with
  | script => rfl
  | block _ _ _ _ _ _ ih => exact congrArg (· + 1) ih

@[simp] theorem hole_depth_resumed (hole : Hole) : (hole.resumed f earlier).depth = hole.depth := by
  induction hole with
  | argument a => exact depth_resumed f earlier a.body
  | pair a => exact depth_resumed f earlier a.body
  | item _ _ ih | key _ _ ih | entry _ _ _ ih => exact congrArg (· + 1) ih

theorem push_resumed (call : Call) (body : Body) :
    (body.push call).resumed f earlier = (body.resumed f earlier).push (call.relined f) := by
  cases body <;> rfl

theorem close_resumed (body : Body) : close (body.resumed f earlier) = (close body).resumed f earlier := by
  cases body with
  | script calls => simp [Body.resumed, close, Progress.resumed, Call.resumed, Call.relinedAll_eq_map]
  | block closer param calls around head args =>
      simp [Body.resumed, close, Progress.resumed, Place.resumed, push_resumed, Call.relined,
        Call.relinedAll_eq_map, Head.relined]

theorem closedBy_resumed (body : Body) : closedBy (body.resumed f earlier) = closedBy body := by
  funext token
  cases body with
  | script => cases token <;> rfl
  | block => rfl

theorem enter_resumed (limit : Option Nat) (depth line : Nat) (place : Place) :
    enter limit depth (f line) (place.resumed f earlier) =
      relinedBy f (Progress.resumed f earlier) (enter limit depth line place) := by
  unfold enter
  split <;> rfl

theorem fill_resumed (hole : Hole) (value : Value) :
    fill (hole.resumed f earlier) value = (fill hole value).resumed f earlier := by
  cases hole <;> rfl

theorem atStatement_resumed (body : Body) (t : Located) :
    atStatement (body.resumed f earlier) (t.relined f) =
      relinedBy f (Progress.resumed f earlier) (atStatement body t) := by
  obtain ⟨token, line⟩ := t
  simp only [atStatement, closedBy_resumed, close_resumed, Located.relined]
  split
  · rfl
  · cases token with
    | ident name => dsimp only; split <;> rfl
    | endOfScript => cases body <;> rfl
    | _ => rfl

theorem atSeparator_resumed (body : Body) (keyword : String) (t : Located) :
    atSeparator (body.resumed f earlier) keyword (t.relined f) =
      relinedBy f (Progress.resumed f earlier) (atSeparator body keyword t) := by
  obtain ⟨token, line⟩ := t
  simp only [atSeparator, closedBy_resumed, close_resumed, Located.relined]
  split
  · rfl
  · cases token <;> rfl

theorem atBlock_resumed (limit : Option Nat) (body : Body) (head : Head) (args : List Value) (call : Call)
    (t : Located) :
    atBlock limit (body.resumed f earlier) (head.relined f) args (call.relined f) (t.relined f) =
      relinedBy f (Progress.resumed f earlier) (atBlock limit body head args call t) := by
  simp only [atBlock, Located.relined, depth_resumed, ← push_resumed]
  split
  · rename_i closer _
    exact enter_resumed f earlier limit body.depth t.line (.blockStart ⟨closer, body, head, args⟩)
  · exact atSeparator_resumed f earlier (body.push call) head.keyword t

theorem atValue_resumed (limit : Option Nat) (hole : Hole) (t : Located) :
    atValue limit (hole.resumed f earlier) (t.relined f) =
      relinedBy f (Progress.resumed f earlier) (atValue limit hole t) := by
  obtain ⟨token, line⟩ := t
  simp only [atValue, Located.relined, hole_depth_resumed, fill_resumed]
  split
  · rfl
  · cases token with
    | leftBracket => exact enter_resumed f earlier limit hole.depth line (.item [] hole)
    | leftBrace => exact enter_resumed f earlier limit hole.depth line (.key [] hole)
    | _ => rfl

theorem atArgument_resumed (limit : Option Nat) (a : Arguments) (t : Located) :
    atArgument limit (a.resumed f earlier) (t.relined f) =
      relinedBy f (Progress.resumed f earlier) (atArgument limit a t) := by
  have value := atValue_resumed f earlier limit (.argument a t.line) t
  obtain ⟨token, line⟩ := t
  cases token <;> first | rfl | exact value

theorem atAfterArgument_resumed (limit : Option Nat) (a : Arguments) (t : Located) :
    atAfterArgument limit (a.resumed f earlier) (t.relined f) =
      relinedBy f (Progress.resumed f earlier) (atAfterArgument limit a t) := by
  have block := atBlock_resumed f earlier limit a.body a.head a.all (.plain a.head a.all) t
  obtain ⟨token, line⟩ := t
  obtain ⟨body, head, parens, values, pairs⟩ := a
  cases parens with
  | true => cases token <;> rfl
  | false => cases token <;> first | rfl | exact block

theorem atKeyword_resumed (limit : Option Nat) (body : Body) (head : Head) (t : Located) :
    atKeyword limit (body.resumed f earlier) (head.relined f) (t.relined f) =
      relinedBy f (Progress.resumed f earlier) (atKeyword limit body head t) := by
  have block := atBlock_resumed f earlier limit body head [] (.bare head) t
  have argument := atArgument_resumed f earlier limit { body, head, parens := false } t
  obtain ⟨token, line⟩ := t
  unfold atKeyword
  simp only [Located.relined]
  split
  · rfl
  · split
    · exact argument
    · exact block

theorem step_resumed (limit : Option Nat) (place : Place) (t : Located) :
    step limit (place.resumed f earlier) (t.relined f) =
      relinedBy f (Progress.resumed f earlier) (step limit place t) := by
  cases place with
  | statement body => exact atStatement_resumed f earlier body t
  | separator body keyword => exact atSeparator_resumed f earlier body keyword t
  | name body head =>
      have keyword := atKeyword_resumed f earlier limit body head t
      obtain ⟨token, line⟩ := t
      cases token <;> first | rfl | exact keyword
  | keyword body head => exact atKeyword_resumed f earlier limit body head t
  | arguments body head args => exact atBlock_resumed f earlier limit body head args (.plain head args) t
  | blockStart o =>
      have statement := atStatement_resumed f earlier (o.body none) t
      obtain ⟨token, line⟩ := t
      cases token <;> first | rfl | exact statement
  | firstArgument a =>
      have argument := atArgument_resumed f earlier limit a t
      obtain ⟨token, line⟩ := t
      cases token <;> first | rfl | exact argument
  | argument a => exact atArgument_resumed f earlier limit a t
  | positional a value start =>
      have after := atAfterArgument_resumed f earlier limit { a with values := value :: a.values } t
      obtain ⟨token, line⟩ := t
      obtain ⟨body, head, parens, values, pairs⟩ := a
      cases pairs with
      | nil => cases token <;> first | rfl | exact after
      | cons => cases token <;> rfl
  | afterArgument a => exact atAfterArgument_resumed f earlier limit a t
  | value hole => exact atValue_resumed f earlier limit hole t
  | item items around =>
      have value := atValue_resumed f earlier limit (.item items around) t
      have filled := fill_resumed f earlier around (.list items.reverse)
      obtain ⟨token, line⟩ := t
      cases token <;> first | rfl | exact value | exact congrArg goto filled
  | afterItem items around =>
      have filled := fill_resumed f earlier around (.list items.reverse)
      obtain ⟨token, line⟩ := t
      cases token <;> first | rfl | exact congrArg goto filled
  | key entries around =>
      have value := atValue_resumed f earlier limit (.key entries around) t
      have filled := fill_resumed f earlier around (.map entries)
      obtain ⟨token, line⟩ := t
      cases token <;> first | rfl | exact value | exact congrArg goto filled
  | entry entries key around =>
      have value := atValue_resumed f earlier limit (.entry entries key around) t
      obtain ⟨token, line⟩ := t
      cases token <;> first | rfl | exact value
  | afterEntry entries around =>
      have filled := fill_resumed f earlier around (.map entries)
      obtain ⟨token, line⟩ := t
      cases token <;> first | rfl | exact congrArg goto filled
  | dot | blockParam | blockPipe | afterKey =>
      obtain ⟨token, line⟩ := t
      cases token <;> rfl

end

theorem accepts_resumed (f : Nat → Nat) (earlier : List Call) (limit : Nat) (place : Place)
    (tokens : List Located) (calls : List Call) :
    Accepts limit (place.resumed f earlier) (tokens.map (Located.relined f)) calls ↔
      ∃ before, Accepts limit place tokens before ∧ calls = Call.resumed f earlier before := by
  induction tokens generalizing place with
  | nil => simp
  | cons t rest ih =>
      rw [List.map_cons, accepts_cons, step_resumed]
      simp only [accepts_cons]
      cases step (some limit) place t with
      | error => simp [relinedBy, Continues]
      | ok progress =>
          cases progress with
          | next next => exact ih next
          | finished all =>
              simp only [relinedBy, Progress.resumed, Continues, List.map_eq_nil_iff]
              constructor
              · rintro ⟨none, rfl⟩
                exact ⟨all, ⟨none, rfl⟩, rfl⟩
              · rintro ⟨_, ⟨none, rfl⟩, rfl⟩
                exact ⟨none, rfl⟩

end Script

end KeywordConfig
