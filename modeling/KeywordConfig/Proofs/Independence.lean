import KeywordConfig.Proofs.Concatenation
import KeywordConfig.Proofs.Runs

namespace KeywordConfig

theorem Confined.listed (confined : Confined names before after) (keys : Keyed.keys after = Keyed.keys before ++ added) :
    ∀ name ∈ added, name ∈ names := by
  obtain ⟨grown, same, within⟩ := confined.grown
  obtain rfl : grown = added := List.append_cancel_left (same.symm.trans keys)
  exact within

def Agree (names : List String) (left right : Mapping) : Prop :=
  ∀ name ∈ names, Keyed.get? left name = Keyed.get? right name

-- Two changes that agree on some names and add the same ones.
structure Parallel (names : List String) (before after before' after' : Mapping) : Prop where
  values : Agree names after after'
  grown : ∃ added, Keyed.keys after = Keyed.keys before ++ added ∧ Keyed.keys after' = Keyed.keys before' ++ added

namespace Parallel

theorem refl (agree : Agree names before before') : Parallel names before before before' before' :=
  ⟨agree, [], by simp, by simp⟩

theorem trans (first : Parallel names before middle before' middle')
    (second : Parallel names middle after middle' after') : Parallel names before after before' after' := by
  obtain ⟨earlier, keys, keys'⟩ := first.grown
  obtain ⟨later, more, more'⟩ := second.grown
  refine ⟨second.values, earlier ++ later, ?_, ?_⟩
  · rw [more, keys, List.append_assoc]
  · rw [more', keys', List.append_assoc]

theorem insert (agree : Agree names before before') (listed : name ∈ names) (value : Value) :
    Parallel names before (Keyed.insert before name value) before' (Keyed.insert before' name value) := by
  have present : name ∈ Keyed.keys before ↔ name ∈ Keyed.keys before' := by
    have absent := Keyed.get?_eq_none before name
    rw [agree name listed, Keyed.get?_eq_none] at absent
    exact (not_iff_not.mp absent).symm
  refine ⟨?_, ?_⟩
  · intro other member
    rw [Keyed.get?_insert, Keyed.get?_insert, agree other member]
  · rw [Keyed.keys_insert, Keyed.keys_insert]
    by_cases known : name ∈ Keyed.keys before
    · rw [if_pos known, if_pos (present.mp known)]
      exact ⟨[], by simp, by simp⟩
    · rw [if_neg known, if_neg (known ∘ present.mpr)]
      exact ⟨[name], rfl, rfl⟩

theorem visit (agree : Agree names before before') (listed : name ∈ names) (missing : Value)
    (change : Value → α × Value) :
    (Value.visit before name missing change).1 = (Value.visit before' name missing change).1 ∧
      Parallel names before (Value.visit before name missing change).2
        before' (Value.visit before' name missing change).2 := by
  unfold Value.visit
  rw [agree name listed]
  exact ⟨rfl, insert agree listed _⟩

-- The arguments of a call look at what stands under its keyword and at nothing else.
theorem write (agree : Agree names before before') (listed : name ∈ names) (cumulative : Bool) (content : Content) :
    (content.write name cumulative before).1 = (content.write name cumulative before').1 ∧
      Parallel names before (content.write name cumulative before).2
        before' (content.write name cumulative before').2 := by
  cases content with
  | nothing => exact ⟨rfl, refl agree⟩
  | scalar value => exact ⟨rfl, insert agree listed _⟩
  | mapping source =>
      obtain ⟨result, parallel⟩ := visit agree listed (if cumulative then .list [] else .map []) (Content.mergeInto source)
      exact ⟨congrArg (Except.map _) result, parallel⟩
  | keyed value source =>
      cases cumulative with
      | true =>
          obtain ⟨result, parallel⟩ := visit agree listed (.list []) (Content.append value source)
          exact ⟨congrArg (Except.map _) result, parallel⟩
      | false =>
          obtain ⟨result, parallel⟩ := visit agree listed (.map []) (Content.mergeUnder value source)
          exact ⟨congrArg (Except.map _) result, parallel⟩

theorem replace (agree : Agree names before before') (listed : name ∈ names) (rest : Slot) (filled : Mapping) :
    Parallel names before (Document.replace (.key name :: rest) filled ⟨before⟩).root
      before' (Document.replace (.key name :: rest) filled ⟨before'⟩).root := by
  unfold Document.replace Value.replace
  rw [← agree name listed]
  cases Keyed.get? before name with
  | none => exact refl agree
  | some value => exact insert agree listed _

end Parallel

theorem Agree.holds (agree : Agree names before before') (listed : name ∈ names)
    (held : Document.Holds ⟨before⟩ (.key name :: rest) entries) :
    Document.Holds ⟨before'⟩ (.key name :: rest) entries := by
  unfold Document.Holds Value.node? at *
  rwa [← agree name listed]

theorem Visit.Writes.parallel {v : Visit} (writes : v.Writes registry d content slot before after)
    (agree : Agree names before before') (listed : v.keyword ∈ names) :
    ∃ after', v.Writes registry d content slot before' after' ∧ Parallel names before after before' after' := by
  obtain ⟨result, parallel⟩ := Parallel.write agree listed d.cumulative content
  rw [writes.written] at result parallel
  refine ⟨_, ⟨writes.known, writes.sound, writes.shaped, ?_⟩, parallel⟩
  exact Prod.ext result.symm rfl

theorem Call.keyword_mem (call : Call) : call.keyword ∈ call.keywords := by
  cases call <;> exact List.mem_cons_self

theorem Call.block_keywords {call : Call} {inner : Block} (same : call.block? = some inner) :
    ∀ name ∈ keywordsOf inner.body, name ∈ call.keywords := by
  cases call with
  | bare | plain => cases same
  | block => cases same; exact fun _ => List.mem_cons_of_mem _

theorem runs_parallel (runs : Runs registry parents receiver calls before after)
    (listed : ∀ name ∈ Call.keywordsOf calls, name ∈ names) (agree : Agree names before before') :
    ∃ after', Runs registry parents receiver calls before' after' ∧ Parallel names before after before' after' := by
  induction runs generalizing before' with
  | done => exact ⟨before', .done, .refl agree⟩
  | inert inert _ ih =>
      obtain ⟨_, others⟩ := List.forall_mem_append.mp listed
      obtain ⟨after', later, parallel⟩ := ih others agree
      exact ⟨after', .inert inert later, parallel⟩
  | @alone call _ _ _ _ _ _ _ _ _ writes single _ ih =>
      obtain ⟨own, others⟩ := List.forall_mem_append.mp listed
      obtain ⟨written', writes', first⟩ := writes.parallel agree (own _ call.keyword_mem)
      obtain ⟨after', later, second⟩ := ih others first.values
      exact ⟨after', .alone writes' single later, first.trans second⟩
  | @beside call _ _ _ _ _ _ _ _ _ _ _ writes same stays _ _ inner ih =>
      obtain ⟨own, others⟩ := List.forall_mem_append.mp listed
      have below := fun name member => own name (Call.block_keywords same name member)
      obtain ⟨written', writes', first⟩ := writes.parallel agree (own _ call.keyword_mem)
      obtain ⟨left', within, second⟩ := inner below first.values
      obtain ⟨after', later, third⟩ := ih others second.values
      exact ⟨after', .beside writes' same stays within later, (first.trans second).trans third⟩
  | @inside call _ _ _ _ _ _ written _ _ filled _ _ writes same moves held within _ _ ih =>
      obtain ⟨own, others⟩ := List.forall_mem_append.mp listed
      have keyword : call.keyword ∈ names := own _ call.keyword_mem
      obtain ⟨written', writes', first⟩ := writes.parallel agree keyword
      obtain ⟨rest, rfl⟩ := writes.below moves
      -- The block runs in what both mappings hold there, so it is the same run.
      have second := Parallel.replace first.values keyword rest filled
      obtain ⟨after', later, third⟩ := ih others second.values
      exact ⟨after', .inside writes' same moves (first.values.holds keyword held) within later,
        (first.trans second).trans third⟩

theorem runs_append : Runs registry parents receiver (calls ++ more) before after ↔
    ∃ middle, Runs registry parents receiver calls before middle ∧ Runs registry parents receiver more middle after := by
  simp only [← evalCalls_exact]
  rw [evalCalls_append]
  cases evalCalls registry { parents, scope := [], receiver } calls ⟨before⟩ with
  | mk result left =>
      cases result with
      | error e => exact ⟨nofun, fun ran => by obtain ⟨_, same, _⟩ := ran; cases same⟩
      | ok =>
          constructor
          · intro ran
            exact ⟨left.root, rfl, ran⟩
          · rintro ⟨middle, same, ran⟩
            cases same
            exact ran

-- Where two orders of calls lead. The names that each of the two lists adds are added together.
structure Swapped (first second : List String) (before after after' : Mapping) : Prop where
  values : ∀ name, Keyed.get? after' name = Keyed.get? after name
  keys : ∃ earlier later, (∀ name ∈ earlier, name ∈ first) ∧ (∀ name ∈ later, name ∈ second) ∧
    Keyed.keys after = Keyed.keys before ++ earlier ++ later ∧
    Keyed.keys after' = Keyed.keys before ++ later ++ earlier

theorem runs_swapped (apart : ∀ name ∈ Call.keywordsOf first, name ∉ Call.keywordsOf second)
    (runs : Runs registry parents receiver (first ++ second) before after) :
    ∃ after', Runs registry parents receiver (second ++ first) before after' ∧
      Swapped (Call.keywordsOf first) (Call.keywordsOf second) before after after' := by
  obtain ⟨middle, earlier, later⟩ := runs_append.mp runs
  have confined := runs_confined earlier
  have confined' := runs_confined later
  -- The second calls find what stood under their keywords before the first ones ran.
  have untouched : Agree (Call.keywordsOf second) middle before :=
    fun name member => confined.same name fun shared => apart name shared member
  obtain ⟨middle', later', parallel'⟩ := runs_parallel later (fun _ => id) untouched
  have swapped := runs_confined later'
  have untouched' : Agree (Call.keywordsOf first) before middle' :=
    fun name member => (swapped.same name (apart name member)).symm
  obtain ⟨after', earlier', parallel⟩ := runs_parallel earlier (fun _ => id) untouched'
  have swapped' := runs_confined earlier'
  refine ⟨after', runs_append.mpr ⟨middle', later', earlier'⟩, ?_, ?_⟩
  · intro name
    by_cases own : name ∈ Call.keywordsOf first
    · rw [← parallel.values name own, confined'.same name (apart name own)]
    · rw [swapped'.same name own]
      by_cases other : name ∈ Call.keywordsOf second
      · exact (parallel'.values name other).symm
      · rw [swapped.same name other, confined'.same name other, confined.same name own]
  · obtain ⟨added, keys, keys'⟩ := parallel.grown
    obtain ⟨more, keysLater, keysLater'⟩ := parallel'.grown
    refine ⟨added, more, confined.listed keys, confined'.listed keysLater, ?_, ?_⟩
    · rw [keysLater, keys]
    · rw [keys', keysLater']

-- Two calls that share no keyword, in either order: both orders succeed or neither does, and then
-- every top-level name holds the same value. The names that the calls add change places with them.
theorem independent_commute (registry : Registry) (a b : Call) (d : Document)
    (apart : ∀ keyword ∈ a.keywords, keyword ∉ b.keywords) :
    ((evalCalls registry {} [a, b] d).1 = .ok () ↔ (evalCalls registry {} [b, a] d).1 = .ok ()) ∧
      ∀ ab ba, evalCalls registry {} [a, b] d = (.ok (), ab) → evalCalls registry {} [b, a] d = (.ok (), ba) →
        Swapped a.keywords b.keywords d.root ab.root ba.root := by
  have alone (call : Call) : Call.keywordsOf [call] = call.keywords := List.append_nil _
  have swap (first second : Call) (apart : ∀ keyword ∈ first.keywords, keyword ∉ second.keywords) (after : Document)
      (ran : evalCalls registry {} [first, second] d = (.ok (), after)) :
      ∃ after', evalCalls registry {} [second, first] d = (.ok (), after') ∧
        Swapped first.keywords second.keywords d.root after.root after'.root := by
    have free : ∀ name ∈ Call.keywordsOf [first], name ∉ Call.keywordsOf [second] := by
      simpa only [alone] using apart
    obtain ⟨root, runs, swapped⟩ := runs_swapped free (evalCalls_exact.mp ran)
    rw [alone, alone] at swapped
    exact ⟨⟨root⟩, evalCalls_exact.mpr runs, swapped⟩
  refine ⟨⟨?_, ?_⟩, ?_⟩
  · intro succeeds
    obtain ⟨after', ran, _⟩ := swap a b apart _ (Prod.ext succeeds rfl)
    rw [ran]
  · intro succeeds
    obtain ⟨after', ran, _⟩ := swap b a (fun keyword own shared => apart keyword shared own) _ (Prod.ext succeeds rfl)
    rw [ran]
  · intro ab ba ran ran'
    obtain ⟨after', same, swapped⟩ := swap a b apart ab ran
    cases ran'.symm.trans same
    exact swapped

theorem independent_commute_of_blocks :
    let registry : Registry := ⟨[("web", { kind := .map, allowBlock := true }), ("ssl", { kind := .scalar }),
      ("job", { kind := .scalarPlusMap, allowBlock := true, cumulative := true, nested := true }),
      ("retries", { kind := .scalar })]⟩
    let d : Document := ⟨[("env", .str "prod"), ("ssl", .str "false")]⟩
    let web : Call := .block ⟨"web", none, 1⟩ [.map [("port", .int 1)]] none [.plain ⟨"ssl", none, 2⟩ [.bool true]]
    let job : Call := .block ⟨"job", none, 4⟩ [.str "mail"] none [.plain ⟨"retries", none, 5⟩ [.int 3]]
    let old : Mapping := [("env", .str "prod"), ("ssl", .str "true")]
    let webs : String × Value := ("web", .map [("port", .int 1)])
    let jobs : String × Value := ("job", .list [.list [.str "mail", .map [("retries", .str "3")]]])
    (∀ keyword ∈ web.keywords, keyword ∉ job.keywords) ∧
      evalCalls registry {} [web, job] d = (.ok (), ⟨old ++ [webs, jobs]⟩) ∧
      evalCalls registry {} [job, web] d = (.ok (), ⟨old ++ [jobs, webs]⟩) ∧
      Swapped web.keywords job.keywords d.root (old ++ [webs, jobs]) (old ++ [jobs, webs]) := by
  intro registry d web job old webs jobs
  have apart : ∀ keyword ∈ web.keywords, keyword ∉ job.keywords := by decide
  have ran : evalCalls registry {} [web, job] d = (.ok (), ⟨old ++ [webs, jobs]⟩) := rfl
  have ran' : evalCalls registry {} [job, web] d = (.ok (), ⟨old ++ [jobs, webs]⟩) := rfl
  exact ⟨apart, ran, ran', (independent_commute registry web job d apart).2 _ _ ran ran'⟩

end KeywordConfig
