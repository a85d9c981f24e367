import KeywordConfig.Proofs.Relocation

namespace KeywordConfig

namespace Call

mutual

def keywords : Call → List String
  | .bare head => [head.keyword]
  | .plain head _ => [head.keyword]
  | .block head _ _ body => head.keyword :: keywordsOf body

def keywordsOf : List Call → List String
  | [] => []
  | call :: rest => keywords call ++ keywordsOf rest

end

end Call

-- What `before` may become when only the names of a list are written.
structure Confined (names : List String) (before after : Mapping) : Prop where
  same : ∀ name ∉ names, Keyed.get? after name = Keyed.get? before name
  grown : ∃ added, Keyed.keys after = Keyed.keys before ++ added ∧ ∀ name ∈ added, name ∈ names

namespace Confined

theorem refl (names : List String) (entries : Mapping) : Confined names entries entries :=
  ⟨fun _ _ => rfl, [], by simp, by simp⟩

theorem trans (first : Confined names before middle) (second : Confined names middle after) :
    Confined names before after := by
  obtain ⟨earlier, keys, listed⟩ := first.grown
  obtain ⟨later, keys', listed'⟩ := second.grown
  refine ⟨fun name free => (second.same name free).trans (first.same name free), earlier ++ later, ?_, ?_⟩
  · rw [keys', keys, List.append_assoc]
  · intro name member
    rcases List.mem_append.mp member with old | new
    · exact listed name old
    · exact listed' name new

theorem mono (confined : Confined names before after) (wider : ∀ name ∈ names, name ∈ more) :
    Confined more before after := by
  obtain ⟨added, keys, listed⟩ := confined.grown
  exact ⟨fun name free => confined.same name fun member => free (wider name member),
    added, keys, fun name member => wider name (listed name member)⟩

theorem insert (entries : Mapping) (name : String) (value : Value) :
    Confined [name] entries (Keyed.insert entries name value) := by
  refine ⟨fun other free => ?_, ?_⟩
  · have apart : name ≠ other := by simpa [eq_comm] using free
    rw [Keyed.get?_insert, if_neg apart]
  · rw [Keyed.keys_insert]
    split
    · exact ⟨[], by simp, by simp⟩
    · exact ⟨[name], rfl, by simp⟩

theorem write (name : String) (cumulative : Bool) (content : Content) (entries : Mapping) :
    Confined [name] entries (content.write name cumulative entries).2 := by
  cases content with
  | nothing => exact refl _ _
  | mapping => exact insert _ _ _
  | scalar => exact insert _ _ _
  | keyed => cases cumulative <;> exact insert _ _ _

theorem replace (d : Document) (name : String) (rest : Slot) (new : Mapping) :
    Confined [name] d.root (d.replace (.key name :: rest) new).root := by
  unfold Document.replace Value.replace
  cases Keyed.get? d.root name with
  | none => exact refl _ _
  | some value => exact insert _ _ _

end Confined

namespace Content

theorem write_key (writes : content ≠ .nothing) (written : (write name cumulative content before).1 = .ok slot) :
    ∃ rest, slot = .key name :: rest := by
  cases content with
  | nothing => exact absurd rfl writes
  | mapping source =>
      obtain ⟨_, _, rfl⟩ := mapped_ok written
      exact ⟨_, rfl⟩
  | scalar value => cases written; exact ⟨_, rfl⟩
  | keyed value source =>
      cases cumulative with
      | true =>
          obtain ⟨_, _, rfl⟩ := mapped_ok written
          exact ⟨_, rfl⟩
      | false =>
          obtain ⟨_, _, rfl⟩ := mapped_ok written
          exact ⟨_, rfl⟩

theorem write_slot (written : (write name cumulative content before).1 = .ok slot) :
    slot = [] ∨ ∃ rest, slot = .key name :: rest := by
  by_cases nothing : content = .nothing
  · subst nothing
    cases written
    exact .inl rfl
  · exact .inr (write_key nothing written)

end Content

namespace Entry

theorem takeArgs_root (e : Entry) (atRoot : e.scope = []) (args : List Value) (d : Document) :
    Confined [e.name] d.root (e.takeArgs args d).2.root ∧
      ∀ slot, (e.takeArgs args d).1 = .ok slot → slot = [] ∨ ∃ rest, slot = .key e.name :: rest := by
  have failed (cause : Cause) : Confined [e.name] d.root ((e.fail cause : Evaluation Slot) d).2.root ∧
      ∀ slot, ((e.fail cause : Evaluation Slot) d).1 = .ok slot →
        slot = [] ∨ ∃ rest, slot = .key e.name :: rest :=
    ⟨.refl _ _, fun _ impossible => by cases impossible⟩
  rw [takeArgs_eq]
  cases Content.ofArgs e.declaration.kind args with
  | none => exact failed _
  | some content =>
      by_cases sound : (e.declaration.broken e.name content).isEmpty
      · simp only [if_pos sound, e.store_root atRoot]
        have confined := Confined.write e.name e.declaration.cumulative content d.root
        cases written : content.write e.name e.declaration.cumulative d.root with
        | mk result root =>
            rw [written] at confined
            cases result with
            | error obstacle => exact ⟨confined, fun _ impossible => by cases impossible⟩
            | ok slot =>
                refine ⟨confined, fun _ same => ?_⟩
                cases same
                exact Content.write_slot (congrArg Prod.fst written)
      · simp only [if_neg sound]
        exact failed _

def Inside.Confined (inside : Inside) (names : List String) : Prop :=
  ∀ parents d, KeywordConfig.Confined names d.root
    (inside.evaluate { parents, scope := [], receiver := inside.param } d).2.root

theorem evalInside_root (e : Entry) (atRoot : e.scope = []) (inside : Inside)
    (movable : ∀ slot, inside.Movable slot) (confined : inside.Confined names)
    (place : current = [] ∨ ∃ rest, current = .key e.name :: rest) (d : Document) :
    KeywordConfig.Confined (e.name :: names) d.root (e.evalInside inside current d).2.root := by
  have beside (parents : List String) : KeywordConfig.Confined (e.name :: names) d.root
      (inside.evaluate { parents, scope := [], receiver := inside.param } d).2.root :=
    (confined parents d).mono fun _ => List.mem_cons_of_mem _
  unfold evalInside
  rw [Evaluation.bind_apply, blockScope_apply, atRoot]
  by_cases nested : e.declaration.nested
  · simp only [if_pos nested]
    rcases place with rfl | ⟨rest, rfl⟩
    · exact beside _
    · cases found : d.node? (.key e.name :: rest) with
      | none => exact .refl _ _
      | some node =>
          cases node with
          | map entries =>
              have moved := movable (.key e.name :: rest)
                { parents := e.parents ++ [e.name], scope := [], receiver := inside.param } d entries found
              simp only [Frame.below, List.append_nil] at moved
              simp only [Option.any_some, Value.isMap, Bool.or_true, if_true, moved]
              exact (Confined.replace d e.name rest _).mono (by simp)
          | _ => exact .refl _ _
  · simp only [if_neg nested]
    exact beside _

theorem evaluate_root (e : Entry) (atRoot : e.scope = []) (args : List Value) (block : Option Inside)
    (movable : ∀ inside, block = some inside → ∀ slot, inside.Movable slot)
    (confined : ∀ inside, block = some inside → inside.Confined names) (d : Document) :
    KeywordConfig.Confined (e.name :: names) d.root (e.evaluate args block d).2.root := by
  obtain ⟨written, place⟩ := e.takeArgs_root atRoot args d
  replace written : KeywordConfig.Confined (e.name :: names) d.root (e.takeArgs args d).2.root :=
    written.mono (by simp)
  rw [evaluate_eq]
  split
  · exact .refl _ _
  · rw [Evaluation.bind_apply]
    cases taken : e.takeArgs args d with
    | mk result after =>
        rw [taken] at written place
        cases result with
        | error => exact written
        | ok current =>
            cases block with
            | none => exact written
            | some inside =>
                exact written.trans (e.evalInside_root atRoot inside (movable inside rfl)
                  (confined inside rfl) (place current rfl) after)

end Entry

theorem Frame.perform_root (frame : Frame) (atRoot : frame.scope = []) (registry : Registry) (call : Call)
    (block : Option Entry.Inside)
    (movable : ∀ inside, block = some inside → ∀ slot, inside.Movable slot)
    (confined : ∀ inside, block = some inside → inside.Confined names) (d : Document) :
    Confined (call.keyword :: names) d.root (frame.perform registry call block d).2.root := by
  rw [perform_eq]
  cases entered : frame.enter? registry call with
  | error => exact .refl _ _
  | ok entry =>
      cases entry with
      | none => exact .refl _ _
      | some entry =>
          obtain ⟨named, placed⟩ := frame.enter?_some entered
          rw [← named]
          exact entry.evaluate_root (placed.trans atRoot) call.args block movable confined d

mutual

theorem evalCall_root_confined (registry : Registry) (frame : Frame) (atRoot : frame.scope = [])
    (call : Call) (d : Document) :
    Confined call.keywords d.root (evalCall registry frame call d).2.root := by
  match call with
  | .bare head => exact frame.perform_root atRoot registry (.bare head) none (by simp) (by simp) d
  | .plain head args => exact frame.perform_root atRoot registry (.plain head args) none (by simp) (by simp) d
  | .block head args param body =>
      refine frame.perform_root atRoot registry (.block head args param body) (some _) ?_ ?_ d
      · intro inside same slot inner
        cases same
        exact evalCalls_relocates registry slot inner body
      · intro inside same parents d
        cases same
        exact evalCalls_root_confined registry _ rfl body d

theorem evalCalls_root_confined (registry : Registry) (frame : Frame) (atRoot : frame.scope = [])
    (calls : List Call) (d : Document) :
    Confined (Call.keywordsOf calls) d.root (evalCalls registry frame calls d).2.root := by
  match calls with
  | [] => exact .refl _ _
  | call :: rest =>
      have first : Confined (Call.keywordsOf (call :: rest)) d.root (evalCall registry frame call d).2.root :=
        (evalCall_root_confined registry frame atRoot call d).mono fun _ => List.mem_append_left _
      unfold evalCalls
      rw [Evaluation.bind_apply]
      cases called : evalCall registry frame call d with
      | mk result after =>
          rw [called] at first
          cases result with
          | error => exact first
          | ok =>
              exact first.trans ((evalCalls_root_confined registry frame atRoot rest after).mono
                fun _ => List.mem_append_right _)

end

-- Calls in a mapping of a document leave everything else in it alone. The mapping keeps its names
-- in their order, and what is added are keywords of the calls.
theorem evalCalls_confined (registry : Registry) (parents : List String) (receiver : Option String)
    (calls : List Call) (held : d.Holds scope entries) :
    (∀ slot, ¬ slot <+: scope → (∀ keyword ∈ Call.keywordsOf calls, ¬ scope ++ [.key keyword] <+: slot) →
      (evalCalls registry { parents, scope, receiver } calls d).2.node? slot = d.node? slot) ∧
    ∃ new added, (evalCalls registry { parents, scope, receiver } calls d).2.Holds scope new ∧
      Keyed.keys new = Keyed.keys entries ++ added ∧ ∀ name ∈ added, name ∈ Call.keywordsOf calls := by
  have moved := evalCalls_relocates registry scope { parents, scope := [], receiver } calls d entries held
  simp only [Frame.below, List.append_nil] at moved
  rw [moved]
  have confined := evalCalls_root_confined registry { parents, scope := [], receiver } rfl calls ⟨entries⟩
  generalize (evalCalls registry { parents, scope := [], receiver } calls ⟨entries⟩).2.root = new at confined
  obtain ⟨added, keys, listed⟩ := confined.grown
  refine ⟨fun slot above free => ?_, new, added, Document.holds_replace held, keys, listed⟩
  exact Document.node?_replace_confined held confined.same above free

theorem evalCalls_confined_in_pair :
    let d : Document := ⟨[("job", .list [.list [.str "mail", .map [("retries", .str "1")]]]), ("env", .null)]⟩
    let scope : Slot := [.key "job", .index 0, .index 1]
    let registry : Registry := ⟨[("retries", { kind := .scalar }), ("queue", { kind := .scalar })]⟩
    let calls : List Call := [.plain ⟨"queue", none, 2⟩ [.str "slow"], .plain ⟨"retries", none, 3⟩ [.str "3"]]
    let after := (evalCalls registry { parents := ["job"], scope } calls d).2
    d.Holds scope [("retries", .str "1")] ∧ after.node? [.key "env"] = some .null ∧
      ∃ new added, after.Holds scope new ∧ Keyed.keys new = "retries" :: added ∧
        ∀ name ∈ added, name ∈ ["queue", "retries"] := by
  intro d scope registry calls after
  have held : d.Holds scope [("retries", .str "1")] := rfl
  obtain ⟨untouched, grown⟩ := evalCalls_confined registry ["job"] none calls held
  exact ⟨held, untouched [.key "env"] (by decide) (by decide), grown⟩

end KeywordConfig
