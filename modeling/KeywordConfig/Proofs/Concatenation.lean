import KeywordConfig.Proofs.LineEnds
import KeywordConfig.Proofs.ActiveScopes

namespace KeywordConfig
open Token

namespace Token

theorem items_concat {first : List Char} {tokens : List Located} (all : itemsFrom [] 1 first = tokens.map .ok) :
    ∃ front line, tokens = front ++ [⟨.endOfScript, line⟩] ∧ ∀ second,
      itemsFrom [] 1 (first ++ '\n' :: second) =
        front.map .ok ++ .ok ⟨.newline, line⟩ :: itemsFrom [] (line + 1) second := by
  obtain ⟨pieces, rest, cuts, stops⟩ := cuts_all [] first
  obtain ⟨consumed, rfl⟩ := cuts.suffix
  have start : lineAt [] = 1 := rfl
  obtain ⟨read, _⟩ := itemsFrom_cuts cuts rfl
  rw [start, all] at read
  obtain ⟨front, last, rfl, before, ends⟩ := List.map_eq_append_iff.mp read
  rcases itemsFrom_tokens ends.symm with ⟨blank, rfl⟩ | ⟨c, after, lexeme, _, blank, token, _⟩
  · refine ⟨front, _, rfl, ?_⟩
    intro second
    have cuts : Cuts [] (consumed ++ (rest ++ [])) pieces (rest ++ []) := by simpa using cuts
    have blank : skipBlank (rest ++ []) = skipBlank [] := by rwa [List.append_nil]
    have lined : Cuts [] (consumed ++ (rest ++ '\n' :: second)) pieces (rest ++ '\n' :: second) := cuts.lineEnd blank
    obtain ⟨read, _⟩ := itemsFrom_cuts lined rfl
    rw [start, ← before, itemsFrom_unfold _ (rest ++ _), skipBlank_lineEnd blank] at read
    rw [List.append_assoc, read]
    rfl
  · rcases stops with ends | ⟨_, _, cause, again, failed⟩
    · cases blank.symm.trans ends
    · cases blank.symm.trans again
      cases token.symm.trans failed

end Token

namespace Script

theorem accepts_concat : Accepts limit place (front ++ [t]) calls ↔
    ∃ last, reach? limit place front = some last ∧ step (some limit) last t = .ok (.finished calls) := by
  induction front generalizing place with
  | nil =>
      simp only [List.nil_append, accepts_cons, reach?, List.foldlM_nil, Option.pure_def, Option.some.injEq,
        exists_eq_left']
      cases step (some limit) place t with
      | error => simp [Continues]
      | ok progress => cases progress <;> simp [Continues]
  | cons next front ih =>
      simp only [List.cons_append, accepts_cons, reach?, List.foldlM_cons, next?]
      cases step (some limit) place next with
      | error => simp [Continues]
      | ok progress =>
          cases progress with
          | next place => exact ih
          | finished => simp [Continues]

-- A step that finishes the script at its end goes on to the next call at a line end.
def GoesOn (atEnd atLineEnd : Step) : Prop :=
  ∀ calls, atEnd = .ok (.finished calls) → atLineEnd = goto (.statement (.script calls.reverse))

theorem script_goes_on (before : List Call) :
    GoesOn (.ok (close (.script before))) (goto (.statement (.script before))) := by
  intro calls finished
  cases finished
  rw [List.reverse_reverse]

section

variable (line : Nat)

theorem atStatement_goes_on (body : Body) :
    GoesOn (atStatement body ⟨.endOfScript, line⟩) (atStatement body ⟨.newline, line⟩) := by
  cases body with
  | script before => exact script_goes_on before
  | block closer =>
      intro calls finished
      cases closer <;> cases finished

theorem atSeparator_goes_on (body : Body) (keyword : String) :
    GoesOn (atSeparator body keyword ⟨.endOfScript, line⟩) (atSeparator body keyword ⟨.newline, line⟩) := by
  cases body with
  | script before => exact script_goes_on before
  | block closer =>
      intro calls finished
      cases closer <;> cases finished

theorem atAfterArgument_goes_on (limit : Option Nat) (a : Arguments) :
    GoesOn (atAfterArgument limit a ⟨.endOfScript, line⟩) (atAfterArgument limit a ⟨.newline, line⟩) := by
  have separator := atSeparator_goes_on line (a.body.push (.plain a.head a.all)) a.head.keyword
  intro calls finished
  cases parens : a.parens with
  | true => simp [atAfterArgument, parens, mismatch, fail] at finished
  | false =>
      simp only [atAfterArgument, parens, Bool.false_eq_true, if_false] at finished ⊢
      exact separator calls finished

theorem step_goes_on (limit : Option Nat) (place : Place) :
    GoesOn (step limit place ⟨.endOfScript, line⟩) (step limit place ⟨.newline, line⟩) := by
  cases place with
  | statement body => exact atStatement_goes_on line body
  | separator body keyword => exact atSeparator_goes_on line body keyword
  | name body head | keyword body head => exact atSeparator_goes_on line _ head.keyword
  | arguments body head args => exact atSeparator_goes_on line _ head.keyword
  | blockStart o => exact atStatement_goes_on line (o.body none)
  | afterArgument a => exact atAfterArgument_goes_on line limit a
  | positional a value start =>
      have after := atAfterArgument_goes_on line limit { a with values := value :: a.values }
      intro calls finished
      cases none : a.pairs.isEmpty with
      | true =>
          simp only [step, none, if_true] at finished ⊢
          exact after calls finished
      | false => simp [step, none, fail] at finished
  | _ =>
      intro calls finished
      cases finished

end

-- The line before an item is not looked at, so it may be any.
theorem run_reached (reached : reach? limit place front = some last) (item : Item) (rest : List Item) :
    run (some limit) place line (front.map .ok ++ item :: rest) = run (some limit) last line (item :: rest) := by
  induction front generalizing place line with
  | nil => cases reached; rfl
  | cons t front ih =>
      simp only [reach?, List.foldlM_cons, Option.bind_eq_bind, Option.bind_eq_some_iff] at reached
      obtain ⟨next, first, others⟩ := reached
      simp only [List.map_cons, List.cons_append, run, next?_iff.mp first]
      rw [ih others]
      cases item <;> rfl

-- Items on other lines are read behind the earlier calls as they are read without them. Items that stop
-- short of the end of the script would end on the line before, which is why they have to be whole.
theorem run_resumed (f : Nat → Nat) (earlier : List Call) {read : List Item} (whole : Whole read) :
    run limit (place.resumed f earlier) line (read.map (relinedBy f (Located.relined f))) =
      relinedBy f (Call.resumed f earlier) (run limit place other read) := by
  induction whole generalizing place line other with
  | error => rfl
  | last =>
      rename_i stop
      have ends := step_ends limit place stop
      have resumed := step_resumed f earlier limit place ⟨.endOfScript, stop⟩
      simp only [List.map_cons, relinedBy, run]
      rw [resumed]
      cases made : step limit place ⟨.endOfScript, stop⟩ with
      | error => rfl
      | ok progress =>
          cases progress with
          | next => rw [made] at ends; cases ends
          | finished => rfl
  | more inner rest ih =>
      rename_i others t
      have resumed := step_resumed f earlier limit place t
      simp only [List.map_cons, relinedBy, run]
      rw [resumed]
      cases step limit place t with
      | error => rfl
      | ok progress =>
          cases progress with
          | next => exact ih
          | finished => rfl

theorem parse_concat (parsed : parse first = .ok calls) :
    ∃ lines, (items first).getLast? = some (.ok ⟨.endOfScript, lines⟩) ∧
      ∀ second, parse (first ++ "\n" ++ second) =
        relinedBy (· + lines) (fun more => calls ++ Call.relinedAll (· + lines) more) (parse second) := by
  obtain ⟨tokens, all, accepts⟩ := (run_iff (itemsFrom_whole _ _)).mp parsed
  obtain ⟨front, lines, rfl, joined⟩ := items_concat all
  obtain ⟨last, reached, finished⟩ := accepts_concat.mp accepts
  refine ⟨lines, by simp [items, all], ?_⟩
  intro second
  have text : (first ++ "\n" ++ second).toList = first.toList ++ '\n' :: second.toList := by simp
  have behind : Call.resumed (· + lines) calls.reverse = fun more => calls ++ Call.relinedAll (· + lines) more := by
    funext more
    rw [Call.resumed, List.reverse_reverse]
  unfold parse parseWithin
  rw [items, text, joined, run_reached reached, run, step_goes_on lines _ last calls finished, ← behind,
    Nat.add_comm lines, itemsFrom_later]
  have whole : Whole (items second) := itemsFrom_whole _ _
  have start : (Place.statement (.script [])).resumed (· + lines) calls.reverse = .statement (.script calls.reverse) := rfl
  rw [← start]
  exact run_resumed _ _ whole

end Script

theorem evalCalls_append (registry : Registry) (frame : Frame) (calls more : List Call) (d : Document) :
    evalCalls registry frame (calls ++ more) d = match evalCalls registry frame calls d with
      | (.ok (), d) => evalCalls registry frame more d
      | (.error e, d) => (.error e, d) := by
  induction calls generalizing d with
  | nil => rfl
  | cons call rest ih =>
      rw [List.cons_append, evalCalls_cons, evalCalls_cons]
      cases evalCall registry frame call d with
      | mk result after =>
          cases result with
          | error e => rfl
          | ok => exact ih after

-- The document that calls leave, if there is no error in them.
def Evaluation.document (x : Evaluation Unit) (d : Document) : Except ConfigError Document :=
  match x d with
  | (.ok (), document) => .ok document
  | (.error e, _) => .error e

theorem interpret_parsed (parsed : Script.parse script = .ok calls) (registry : Registry) :
    interpret script registry = (evalCalls registry {} calls).document {} := by
  unfold interpret
  rw [parsed]
  rfl

-- A script and another one on the lines behind it are read and evaluated one after the other. What
-- the second one is by itself is found on later lines, in its calls or in its error.
theorem script_concat (parsed : Script.parse first = .ok calls) :
    ∃ lines, (items first).getLast? = some (.ok ⟨.endOfScript, lines⟩) ∧
      (∀ second, Script.parse (first ++ "\n" ++ second) = match Script.parse second with
        | .ok more => .ok (calls ++ Call.relinedAll (· + lines) more)
        | .error e => .error (e.relined (· + lines))) ∧
      ∀ registry second more, Script.parse second = .ok more →
        interpret (first ++ "\n" ++ second) registry = match interpret first registry with
          | .ok document => (evalCalls registry {} (Call.relinedAll (· + lines) more)).document document
          | .error e => .error e := by
  obtain ⟨lines, ends, concat⟩ := Script.parse_concat parsed
  refine ⟨lines, ends, ?_, ?_⟩
  · intro second
    rw [concat]
    cases Script.parse second <;> rfl
  · intro registry second more read
    have joined : Script.parse (first ++ "\n" ++ second) = .ok (calls ++ Call.relinedAll (· + lines) more) := by
      rw [concat, read]
      rfl
    rw [interpret_parsed joined, interpret_parsed parsed]
    unfold Evaluation.document
    rw [evalCalls_append]
    cases evalCalls registry {} calls {} with
    | mk result document => cases result <;> rfl

-- The first script ends on its second line, in a comment. Behind it stands a block, or an error on the
-- second line of the other script.
theorem script_concat_behind_comment :
    let registry : Registry := ⟨[("web", { kind := .map }), ("group", { kind := .base, allowBlock := true }),
      ("item", { kind := .scalar, requireParent := ["group"] })]⟩
    let first := "web host: 'a',\n  port: 1 # one"
    let block := "group do\n  item x\nend"
    let broken := "group do\n  )"
    let calls : List Call := [.plain ⟨"web", none, 1⟩ [.map [("host", .str "a"), ("port", .int 1)]]]
    let more (line : Nat) : Call :=
      .block ⟨"group", none, line⟩ [] none [.plain ⟨"item", none, line + 1⟩ [.str "x"]]
    Script.parse first = .ok calls ∧ (items first).getLast? = some (.ok ⟨.endOfScript, 2⟩) ∧
      Script.parse block = .ok [more 1] ∧
      Script.parse (first ++ "\n" ++ block) = .ok (calls ++ [more 3]) ∧
      Script.parse broken = .error ⟨.mismatch .keyword .rightParen, some 2⟩ ∧
      Script.parse (first ++ "\n" ++ broken) = .error ⟨.mismatch .keyword .rightParen, some 4⟩ ∧
      interpret first registry = .ok ⟨[("web", .map [("host", .str "a"), ("port", .int 1)])]⟩ ∧
      interpret (first ++ "\n" ++ block) registry =
        (evalCalls registry {} [more 3]).document ⟨[("web", .map [("host", .str "a"), ("port", .int 1)])]⟩ := by
  intro registry first block broken calls more
  have parsed : Script.parse first = .ok calls := by
    subst first calls
    cbv
  have stamped : (items first).getLast? = some (.ok ⟨.endOfScript, 2⟩) := by
    subst first
    cbv
  have read : Script.parse block = .ok [more 1] := by
    subst block more
    cbv
  have failed : Script.parse broken = .error ⟨.mismatch .keyword .rightParen, some 2⟩ := by
    subst broken
    cbv
  have interpreted : interpret first registry = .ok ⟨[("web", .map [("host", .str "a"), ("port", .int 1)])]⟩ := by
    subst first registry
    cbv
  obtain ⟨lines, ends, concat, run⟩ := script_concat parsed
  cases stamped.symm.trans ends
  have behind := concat block
  rw [read] at behind
  have refused := concat broken
  rw [failed] at refused
  have evaluated := run registry block [more 1] read
  rw [interpreted] at evaluated
  exact ⟨parsed, stamped, read, behind, failed, refused, interpreted, evaluated⟩

end KeywordConfig
