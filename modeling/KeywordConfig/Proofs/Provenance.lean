import KeywordConfig.Proofs.JsonTexts
import KeywordConfig.Proofs.Parsing
import KeywordConfig.Proofs.StoredMappings

namespace KeywordConfig

namespace Value

structure MadeOf (given : Float → Prop) (v : Value) : Prop where
  proper : v.Proper
  floats : ∀ x ∈ v.floats, given x

theorem mem_itemFloats : x ∈ itemFloats items ↔ ∃ item ∈ items, x ∈ floats item := by
  induction items with
  | nil => simp [itemFloats]
  | cons item items ih => simp [itemFloats, ih]

theorem mem_entryFloats {entries : Mapping} : x ∈ entryFloats entries ↔ ∃ entry ∈ entries, x ∈ floats entry.2 := by
  induction entries with
  | nil => simp [entryFloats]
  | cons entry entries ih => simp [entryFloats, ih]

variable {given : Float → Prop} {entries : Mapping}

theorem madeOf_str : (Value.str s).MadeOf given := ⟨.str, nofun⟩

theorem madeOf_list : (Value.list items).MadeOf given ↔ ∀ item ∈ items, item.MadeOf given := by
  constructor
  · intro made item member
    obtain ⟨proper, floats⟩ := made
    cases proper with | list proper =>
    exact ⟨proper item member, fun x inside => floats x (mem_itemFloats.mpr ⟨item, member, inside⟩)⟩
  · intro made
    refine ⟨.list fun item member => (made item member).proper, ?_⟩
    intro x inside
    obtain ⟨item, member, inside⟩ := mem_itemFloats.mp inside
    exact (made item member).floats x inside

theorem madeOf_map : (Value.map entries).MadeOf given ↔
    Keyed.Distinct entries ∧ ∀ entry ∈ entries, entry.2.MadeOf given := by
  constructor
  · intro made
    obtain ⟨proper, floats⟩ := made
    cases proper with | map distinct proper =>
    refine ⟨distinct, ?_⟩
    intro entry member
    exact ⟨proper entry member, fun x inside => floats x (mem_entryFloats.mpr ⟨entry, member, inside⟩)⟩
  · intro both
    obtain ⟨distinct, made⟩ := both
    refine ⟨.map distinct fun entry member => (made entry member).proper, ?_⟩
    intro x inside
    obtain ⟨entry, member, inside⟩ := mem_entryFloats.mp inside
    exact (made entry member).floats x inside

namespace MadeOf

theorem empty : (Value.map []).MadeOf given := madeOf_map.mpr ⟨List.nodup_nil, nofun⟩

theorem merge (into : (Value.map entries).MadeOf given) (source : ∀ entry ∈ others, entry.2.MadeOf given) :
    (Value.map (Keyed.merge entries others)).MadeOf given := by
  obtain ⟨distinct, made⟩ := madeOf_map.mp into
  refine madeOf_map.mpr ⟨Keyed.merge_distinct _ _ distinct, ?_⟩
  intro entry member
  exact (Keyed.mem_merge member).elim (made entry) (source entry)

theorem insert (into : (Value.map entries).MadeOf given) (made : value.MadeOf given) :
    (Value.map (Keyed.insert entries name value)).MadeOf given :=
  into.merge (List.forall_mem_singleton.mpr made : ∀ entry ∈ [(name, value)], _)

theorem get? (made : (Value.map entries).MadeOf given) (found : Keyed.get? entries name = some value) :
    value.MadeOf given :=
  (madeOf_map.mp made).2 _ (Keyed.mem_of_get? found)

theorem node? {value node : Value} (made : value.MadeOf given) (found : value.node? slot = some node) :
    node.MadeOf given := by
  induction slot generalizing value with
  | nil => cases found; exact made
  | cons segment rest ih =>
      cases segment with
      | key name =>
          obtain ⟨entries, inner, rfl, here, deeper⟩ := node?_key found
          exact ih (made.get? here) deeper
      | index i =>
          obtain ⟨items, inner, rfl, here, deeper⟩ := node?_index found
          exact ih (madeOf_list.mp made inner (List.mem_of_getElem? here)) deeper

theorem replace {value new : Value} (made : value.MadeOf given) (other : new.MadeOf given) :
    (Value.replace new slot value).MadeOf given := by
  induction slot generalizing value with
  | nil => exact other
  | cons segment rest ih =>
      cases segment with
      | key name =>
          cases value with
          | map entries =>
              unfold Value.replace
              split
              · rename_i here
                exact made.insert (ih (made.get? here))
              · exact made
          | _ => exact made
      | index i =>
          cases value with
          | list items =>
              unfold Value.replace
              split
              · rename_i item here
                refine madeOf_list.mpr ?_
                intro changed member
                rcases List.mem_or_eq_of_mem_set member with old | rfl
                · exact madeOf_list.mp made changed old
                · exact ih (madeOf_list.mp made item (List.mem_of_getElem? here))
              · exact made
          | _ => exact made

end MadeOf

end Value

namespace Grammar
open Value

variable {given : Float → Prop}

-- The floats among the tokens are given.
def Held (given : Float → Prop) (tokens : List Located) : Prop :=
  ∀ t ∈ tokens, ∀ x, t.token = .float x → given x

theorem Held.cons (held : Held given (t :: tokens)) : Held given tokens :=
  fun other member => held other (List.mem_cons_of_mem _ member)

theorem Many.held (many : Many kind tokens rest) (held : Held given tokens) : Held given rest := by
  induction many with
  | none => exact held
  | more _ _ ih => exact ih held.cons

theorem Literal.madeOf (literal : Literal token value) (held : Held given (⟨token, line⟩ :: rest)) :
    value.MadeOf given := by
  cases literal with
  | float => exact ⟨.float, List.forall_mem_singleton.mpr (held _ List.mem_cons_self _ rfl)⟩
  | str | symbol | name => exact madeOf_str
  | int => exact ⟨.int, nofun⟩
  | yes | no => exact ⟨.bool, nofun⟩
  | nil => exact ⟨.null, nofun⟩

mutual

theorem IsValue.madeOf : IsValue room tokens value rest → Held given tokens → value.MadeOf given ∧ Held given rest
  | .literal literal, held => ⟨literal.madeOf held, held.cons⟩
  | .list elements, held => by
      obtain ⟨made, behind⟩ := elements.madeOf held.cons
      exact ⟨madeOf_list.mpr made, behind⟩
  | .map entries, held => by
      obtain ⟨made, behind⟩ := entries.madeOf held.cons
      exact ⟨MadeOf.empty.merge made, behind⟩

theorem IsElements.madeOf : IsElements room tokens items rest → Held given tokens →
    (∀ item ∈ items, item.MadeOf given) ∧ Held given rest
  | .none newlines, held => ⟨nofun, (newlines.held held).cons⟩
  | .last newlines value gap, held => by
      obtain ⟨made, behind⟩ := value.madeOf (newlines.held held)
      exact ⟨List.forall_mem_singleton.mpr made, (gap.held behind).cons⟩
  | .more newlines value gap elements, held => by
      obtain ⟨made, behind⟩ := value.madeOf (newlines.held held)
      obtain ⟨others, last⟩ := elements.madeOf (gap.held behind).cons
      exact ⟨List.forall_mem_cons.mpr ⟨made, others⟩, last⟩

theorem IsEntry.madeOf : IsEntry room tokens entry rest → Held given tokens →
    entry.2.MadeOf given ∧ Held given rest
  | .label newlines value, held => value.madeOf (newlines.held held.cons)
  | .arrow key newlines value, held => value.madeOf (newlines.held (key.madeOf held).2.cons)

theorem IsEntries.madeOf {entries : List (String × Value)} : IsEntries room tokens entries rest → Held given tokens →
    (∀ entry ∈ entries, entry.2.MadeOf given) ∧ Held given rest
  | .none newlines, held => ⟨nofun, (newlines.held held).cons⟩
  | .last newlines entry gap, held => by
      obtain ⟨made, behind⟩ := entry.madeOf (newlines.held held)
      exact ⟨List.forall_mem_singleton.mpr made, (gap.held behind).cons⟩
  | .more newlines entry gap entries, held => by
      obtain ⟨made, behind⟩ := entry.madeOf (newlines.held held)
      obtain ⟨others, last⟩ := entries.madeOf (gap.held behind).cons
      exact ⟨List.forall_mem_cons.mpr ⟨made, others⟩, last⟩

end

theorem IsArgument.madeOf (form : IsArgument room tokens argument rest) (held : Held given tokens) :
    argument.value.MadeOf given ∧ Held given rest := by
  cases form with
  | value value => exact value.madeOf held
  | label value => exact value.madeOf held.cons
  | arrow key value => exact value.madeOf (key.madeOf held).2.cons

theorem IsArguments.madeOf (form : IsArguments parens room tokens arguments rest) (held : Held given tokens) :
    (∀ argument ∈ arguments, argument.value.MadeOf given) ∧ Held given rest := by
  induction form with
  | last argument =>
      obtain ⟨made, behind⟩ := argument.madeOf held
      exact ⟨List.forall_mem_singleton.mpr made, behind⟩
  | more argument gap newlines _ ih =>
      obtain ⟨made, behind⟩ := argument.madeOf held
      obtain ⟨others, last⟩ := ih (newlines.held (gap.held behind).cons)
      exact ⟨List.forall_mem_cons.mpr ⟨made, others⟩, last⟩

theorem Gathers.madeOf (gathers : Gathers arguments args)
    (made : ∀ argument ∈ arguments, argument.value.MadeOf given) : ∀ arg ∈ args, arg.MadeOf given := by
  obtain ⟨values, pairs, rfl, rfl⟩ := gathers
  obtain ⟨first, named⟩ := List.forall_mem_append.mp made
  have positional : ∀ value ∈ values, value.MadeOf given :=
    fun value member => first _ (List.mem_map_of_mem member)
  split
  · exact positional
  · refine List.forall_mem_append.mpr ⟨positional, List.forall_mem_singleton.mpr ?_⟩
    exact MadeOf.empty.merge fun pair member => named _ (List.mem_map_of_mem member)

theorem IsTail.madeOf (form : IsTail room tokens tail rest) (held : Held given tokens) :
    (∀ arg ∈ tail.getD [], arg.MadeOf given) ∧ Held given rest := by
  cases form with
  | nothing => exact ⟨nofun, held⟩
  | empty newlines => exact ⟨nofun, (newlines.held held.cons).cons⟩
  | parens newlines arguments gap gathers =>
      obtain ⟨made, behind⟩ := arguments.madeOf (newlines.held held.cons)
      exact ⟨gathers.madeOf made, (gap.held behind).cons⟩
  | plain _ _ _ arguments gathers =>
      obtain ⟨made, behind⟩ := arguments.madeOf held
      exact ⟨gathers.madeOf made, behind⟩

theorem IsHead.held (form : IsHead tokens head rest) (held : Held given tokens) : Held given rest := by
  cases form with
  | keyword => exact held.cons
  | dotted => exact held.cons.cons.cons

theorem IsParam.held (form : IsParam tokens param rest) (held : Held given tokens) : Held given rest := by
  cases form with
  | nothing => exact held
  | name => exact held.cons.cons.cons

def Supplied (given : Float → Prop) (visits : List Visit) : Prop :=
  ∀ v ∈ visits, ∀ arg ∈ v.call.args, arg.MadeOf given

theorem unblocked_supplied (made : ∀ arg ∈ tail.getD [], arg.MadeOf given) :
    Supplied given ((unblocked head tail).visits parents receiver) := by
  cases tail with
  | none =>
      refine List.forall_mem_singleton.mpr ?_
      exact made
  | some args =>
      refine List.forall_mem_singleton.mpr ?_
      exact made

mutual

theorem IsCall.supplied (parents : List String) (receiver : Option String) :
    IsCall room tokens call rest → Held given tokens →
      Supplied given (call.visits parents receiver) ∧ Held given rest
  | .unblocked head tail, held => by
      obtain ⟨made, behind⟩ := tail.madeOf (head.held held)
      exact ⟨unblocked_supplied made, behind⟩
  | .block head tail _ param body _, held => by
      obtain ⟨made, opened⟩ := tail.madeOf (head.held held)
      obtain ⟨inside, behind⟩ := body.supplied _ _ (param.held opened.cons)
      exact ⟨List.forall_mem_cons.mpr ⟨made, inside⟩, behind.cons⟩

theorem IsBody.supplied (parents : List String) (receiver : Option String) :
    IsBody room tokens calls rest → Held given tokens →
      Supplied given (Call.visitsOf parents receiver calls) ∧ Held given rest
  | .none separators, held => ⟨nofun, separators.held held⟩
  | .last separators call, held => by
      obtain ⟨made, behind⟩ := call.supplied parents receiver (separators.held held)
      exact ⟨List.forall_mem_append.mpr ⟨made, nofun⟩, behind⟩
  | .more separators call _ body, held => by
      obtain ⟨made, behind⟩ := call.supplied parents receiver (separators.held held)
      obtain ⟨others, last⟩ := body.supplied parents receiver behind.cons
      exact ⟨List.forall_mem_append.mpr ⟨made, others⟩, last⟩

end

end Grammar

section
open Value Grammar

variable {given : Float → Prop}

theorem Content.ofArgs_madeOf {kind : Kind} (shaped : ofArgs kind args = some content)
    (made : ∀ arg ∈ args, arg.MadeOf given) : (Value.map content.operands.mapping).MadeOf given := by
  unfold ofArgs at shaped
  split at shaped
  · cases shaped; exact .empty
  · cases shaped; exact made _ List.mem_cons_self
  · split at shaped <;> cases shaped; exact .empty
  · split at shaped <;> cases shaped; exact .empty
  · split at shaped <;> cases shaped; exact made _ (List.mem_cons_of_mem _ List.mem_cons_self)
  · cases shaped

theorem Visit.Writes.madeOf {v : Visit} (writes : v.Writes registry d content slot before after)
    (supplied : ∀ arg ∈ v.call.args, arg.MadeOf given) (made : (Value.map before).MadeOf given) :
    (Value.map after).MadeOf given := by
  obtain ⟨_, _, shaped, written⟩ := writes
  have source := Content.ofArgs_madeOf shaped supplied
  have merged (options : Mapping) (found : options = [] ∨ (Value.map options).MadeOf given) :
      (Value.map (Keyed.merge options content.operands.mapping)).MadeOf given := by
    have options := found.elim (fun none => none ▸ MadeOf.empty) id
    exact options.merge (madeOf_map.mp source).2
  cases content with
  | nothing => cases written; exact made
  | scalar => cases written; exact made.insert madeOf_str
  | mapping =>
      obtain ⟨options, found, rfl⟩ := Content.write_mapping written
      exact made.insert (merged _ (found.imp_right made.get?))
  | keyed =>
      cases cumulative : d.cumulative with
      | true =>
          rw [cumulative] at written
          obtain ⟨items, found, rfl⟩ := Content.write_pair written
          have earlier : ∀ item ∈ items, item.MadeOf given := by
            rcases found with rfl | stood
            · exact nofun
            · exact madeOf_list.mp (made.get? stood)
          refine made.insert (madeOf_list.mpr (List.forall_mem_append.mpr ⟨earlier, ?_⟩))
          refine List.forall_mem_singleton.mpr (madeOf_list.mpr ?_)
          exact List.forall_mem_cons.mpr ⟨madeOf_str, List.forall_mem_singleton.mpr source⟩
      | false =>
          rw [cumulative] at written
          obtain ⟨inner, options, found, below, rfl⟩ := Content.write_inner written
          have inner : (Value.map inner).MadeOf given := found.elim (fun none => none ▸ MadeOf.empty) made.get?
          exact made.insert (inner.insert (merged _ (below.imp_right inner.get?)))

theorem runs_madeOf (runs : Runs registry parents receiver calls before after)
    (supplied : Supplied given (Call.visitsOf parents receiver calls)) (made : (Value.map before).MadeOf given) :
    (Value.map after).MadeOf given := by
  induction runs with
  | done => exact made
  | inert inert _ ih =>
      rw [Call.visitsOf_alone _ _ _ (Call.block?_of_bare (Visit.inert_free inert).1)] at supplied
      exact ih (List.forall_mem_cons.mp supplied).2 made
  | alone writes none _ ih =>
      rw [Call.visitsOf_alone _ _ _ none] at supplied
      obtain ⟨args, others⟩ := List.forall_mem_cons.mp supplied
      exact ih others (writes.madeOf args made)
  | beside writes same _ _ _ inner ih =>
      rw [Call.visitsOf_block _ _ _ same] at supplied
      obtain ⟨args, others⟩ := List.forall_mem_cons.mp supplied
      obtain ⟨inside, others⟩ := List.forall_mem_append.mp others
      exact ih others (inner inside (writes.madeOf args made))
  | inside writes same _ held _ _ inner ih =>
      rw [Call.visitsOf_block _ _ _ same] at supplied
      obtain ⟨args, others⟩ := List.forall_mem_cons.mp supplied
      obtain ⟨inside, others⟩ := List.forall_mem_append.mp others
      have written := writes.madeOf args made
      refine ih others ?_
      rw [Document.map_replace]
      exact written.replace (inner inside (written.node? held))

theorem interpret_madeOf (interpreted : interpret script registry = .ok document) :
    (Value.map document.root).MadeOf fun x => ∃ line, .ok ⟨.float x, line⟩ ∈ Token.items script := by
  obtain ⟨calls, parsed, runs⟩ := interpret_exact.mp interpreted
  obtain ⟨tokens, same, accepts⟩ := (Script.run_iff (Token.itemsFrom_whole _ _)).mp parsed
  obtain ⟨_, body⟩ := Script.script_sound accepts
  refine runs_madeOf runs (body.supplied [] none ?_).1 .empty
  intro t member x token
  obtain ⟨_, line⟩ := t
  cases token
  refine ⟨line, ?_⟩
  rw [Token.items, same]
  exact List.mem_map_of_mem member

end

end KeywordConfig
