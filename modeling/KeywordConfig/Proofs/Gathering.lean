import KeywordConfig.Proofs.Grammar

namespace KeywordConfig

namespace Keyed

theorem insert_ne_nil (entries : Keyed α) (key : String) (value : α) : insert entries key value ≠ [] := by
  cases entries with
  | nil => exact List.cons_ne_nil _ _
  | cons entry rest =>
      unfold insert
      split <;> exact List.cons_ne_nil _ _

theorem merge_ne_nil (into source : Keyed α) (filled : into ≠ []) : merge into source ≠ [] := by
  induction source generalizing into with
  | nil => exact filled
  | cons entry rest ih => exact ih _ (insert_ne_nil _ _ _)

theorem ofList_eq_nil (entries : List (String × α)) : ofList entries = [] ↔ entries = [] := by
  cases entries with
  | nil => exact Iff.rfl
  | cons entry rest =>
      have filled := merge_ne_nil _ rest (insert_ne_nil [] entry.1 entry.2)
      exact ⟨fun empty => absurd empty filled, fun empty => absurd empty (List.cons_ne_nil _ _)⟩

theorem merge_disjoint {into source : Keyed α} (distinct : Distinct (into ++ source)) :
    merge into source = into ++ source := by
  induction source generalizing into with
  | nil => exact (List.append_nil into).symm
  | cons entry rest ih =>
      have joined : into ++ entry :: rest = into ++ [entry] ++ rest := by simp
      have absent : entry.1 ∉ keys into := by
        intro present
        rw [Distinct, keys, List.map_append] at distinct
        exact (List.nodup_append.mp distinct).2.2 _ present _ List.mem_cons_self rfl
      rw [joined] at distinct ⊢
      rw [← ih distinct, ← insert_new absent]
      rfl

theorem ofList_eq {entries : List (String × α)} (distinct : Distinct entries) : ofList entries = entries :=
  merge_disjoint distinct

end Keyed

open Grammar

namespace Arguments

variable {a more : Arguments} {argument : Argument} {arguments : List Argument}

-- With one more argument; none without a name may stand behind a named one.
def add (a : Arguments) : Argument → Option Arguments
  | .positional value => if a.pairs = [] then some { a with values := value :: a.values } else none
  | .named key value => some { a with pairs := Keyed.insert a.pairs key value }

def addAll (a : Arguments) (arguments : List Argument) : Option Arguments := arguments.foldlM add a

theorem add_positional : a.add (.positional value) = some more ↔
    a.pairs = [] ∧ more = { a with values := value :: a.values } := by
  by_cases empty : a.pairs = [] <;> simp [add, empty, eq_comm]

theorem add_around (added : a.add argument = some more) :
    more.body = a.body ∧ more.head = a.head ∧ more.parens = a.parens := by
  cases argument with
  | positional =>
      obtain ⟨_, rfl⟩ := add_positional.mp added
      exact ⟨rfl, rfl, rfl⟩
  | named => cases added; exact ⟨rfl, rfl, rfl⟩

theorem addAll_cons : a.addAll (argument :: arguments) = (a.add argument).bind (·.addAll arguments) :=
  List.foldlM_cons

theorem addAll_around (added : a.addAll arguments = some more) :
    more.body = a.body ∧ more.head = a.head ∧ more.parens = a.parens := by
  induction arguments generalizing a with
  | nil => cases added; exact ⟨rfl, rfl, rfl⟩
  | cons argument rest ih =>
      rw [addAll_cons] at added
      obtain ⟨next, one, others⟩ := Option.bind_eq_some_iff.mp added
      obtain ⟨body, head, parens⟩ := add_around one
      obtain ⟨body', head', parens'⟩ := ih others
      exact ⟨body'.trans body, head'.trans head, parens'.trans parens⟩

theorem addAll_iff : a.addAll arguments = some more ↔
    ∃ values pairs, arguments = values.map .positional ++ pairs.map (fun pair => .named pair.1 pair.2) ∧
      (values = [] ∨ a.pairs = []) ∧
      more = { a with values := values.reverse ++ a.values, pairs := Keyed.merge a.pairs pairs } := by
  constructor
  · intro added
    induction arguments generalizing a with
    | nil => cases added; exact ⟨[], [], rfl, .inl rfl, rfl⟩
    | cons argument rest ih =>
        rw [addAll_cons] at added
        obtain ⟨next, one, others⟩ := Option.bind_eq_some_iff.mp added
        obtain ⟨values, pairs, rfl, free, rfl⟩ := ih others
        cases argument with
        | positional value =>
            obtain ⟨empty, rfl⟩ := add_positional.mp one
            exact ⟨value :: values, pairs, rfl, .inr empty, by simp⟩
        | named key value =>
            cases one
            rcases free with rfl | filled
            · exact ⟨[], (key, value) :: pairs, rfl, .inl rfl, rfl⟩
            · exact absurd filled (Keyed.insert_ne_nil _ _ _)
  · intro parts
    obtain ⟨values, pairs, rfl, free, rfl⟩ := parts
    induction values generalizing a with
    | nil =>
        induction pairs generalizing a with
        | nil => rfl
        | cons pair rest ih => exact ih (.inl rfl)
    | cons value rest ih =>
        have empty : a.pairs = [] := free.resolve_left (List.cons_ne_nil _ _)
        have others := ih (a := { a with values := value :: a.values }) (.inr empty)
        simp only [List.map_cons, List.cons_append, addAll_cons, add_positional.mpr ⟨empty, rfl⟩]
        simpa using others

end Arguments

theorem gathers_iff (body : Body) (head : Head) (parens : Bool) : Gathers arguments args ↔
    ∃ more, Arguments.addAll { body, head, parens } arguments = some more ∧ more.all = args := by
  have read (values : List Value) (pairs : List (String × Value)) :
      Arguments.all ⟨body, head, parens, values.reverse ++ [], Keyed.merge [] pairs⟩ =
      if pairs = [] then values else values ++ [.map (Keyed.ofList pairs)] := by
    have empty := Keyed.ofList_eq_nil pairs
    by_cases none : pairs = []
    · simp [Arguments.all, none, Keyed.merge]
    · have filled : Keyed.merge [] pairs ≠ [] := fun absent => none (empty.mp absent)
      simp [Arguments.all, none, filled, Keyed.ofList]
  constructor
  · intro parts
    obtain ⟨values, pairs, rfl, rfl⟩ := parts
    exact ⟨_, Arguments.addAll_iff.mpr ⟨values, pairs, rfl, .inr rfl, rfl⟩, read values pairs⟩
  · intro read
    obtain ⟨more, added, rfl⟩ := read
    obtain ⟨values, pairs, rfl, _, rfl⟩ := Arguments.addAll_iff.mp added
    exact ⟨values, pairs, rfl, read values pairs⟩

end KeywordConfig
