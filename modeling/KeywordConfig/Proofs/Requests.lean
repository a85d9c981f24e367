import KeywordConfig.CommandLine

namespace KeywordConfig.CommandLine

-- It is no option. A dash alone is none either.
def Operand (arg : String) : Prop := arg = "-" ∨ arg.toList.head? ≠ some '-'

inductive NamesOutput : List String → String → Prop where
  | apart : word = "-o" ∨ word = "--output" → Operand value → NamesOutput [word, value] value
  | joined : value ≠ "" → value.toList.head? ≠ some '=' → NamesOutput ["-o" ++ value] value
  | equal : word = "-o=" ∨ word = "--output=" → NamesOutput [word ++ value] value

-- Arguments with the operands among them, the output they name and whether the document is to be compact.
inductive Layout : List String → List String → Option String → Bool → Prop where
  | none : Layout [] [] none false
  | operands : Layout ("--" :: operands) operands none false
  | operand : Operand arg → Layout args operands out compact → Layout (arg :: args) (arg :: operands) out compact
  | output : NamesOutput front value → Layout args operands none compact →
      Layout (front ++ args) operands (some value) compact
  | compact : Layout args operands out false → Layout ("--compact" :: args) operands out true

namespace Argument

theorem ofString_operand (operand : Operand arg) : ofString arg = .positional arg := by
  rcases operand with rfl | head
  · rfl
  · unfold ofString
    split <;> simp_all

theorem ofString_joined (given : value ≠ "") (apart : value.toList.head? ≠ some '=') :
    ofString ("-o" ++ value) = .output value := by
  have letters : ("-o" ++ value).toList = '-' :: 'o' :: value.toList := by simp
  have short : ofShort ('o' :: value.toList) = .output value := by
    cases cs : value.toList with
    | nil => exact absurd (by simpa using cs) given
    | cons c rest =>
        have other : c ≠ '=' := by simpa [cs] using apart
        have same : value = String.ofList (c :: rest) := by rw [← cs, String.ofList_toList]
        simp [ofShort, other, same]
  unfold ofString
  rw [letters]
  exact short

theorem ofString_equal (isWord : word = "-o=" ∨ word = "--output=") :
    ofString (word ++ value) = .output value := by
  rcases isWord with rfl | rfl
  · have letters : ("-o=" ++ value).toList = '-' :: 'o' :: '=' :: value.toList := by simp
    have short : ofShort ('o' :: '=' :: value.toList) = .output value := by simp [ofShort]
    unfold ofString
    rw [letters]
    exact short
  · have letters : ("--output=" ++ value).toList = '-' :: '-' :: ("output=".toList ++ value.toList) := by simp
    have long : ofLong ("output=".toList ++ value.toList) = .output value := by simp [ofLong]
    unfold ofString
    rw [letters]
    exact long

-- An argument is spelled as what it is taken for.
def Fits (arg : String) : Argument → Prop
  | .positional value => value = arg ∧ Operand arg
  | .compact => arg = "--compact"
  | .output none => arg = "-o" ∨ arg = "--output"
  | .output (some value) => NamesOutput [arg] value
  | _ => True

theorem ofShort_fits (letters : List Char) : Fits (String.ofList ('-' :: letters)) (ofShort letters) := by
  unfold ofShort
  split
  · trivial
  · trivial
  · exact .inl rfl
  · rename_i value
    have same : String.ofList ('-' :: 'o' :: '=' :: value) = "-o=" ++ String.ofList value :=
      String.toList_inj.mp (by simp)
    rw [same]
    exact .equal (.inl rfl)
  · rename_i value given plain
    have same : String.ofList ('-' :: 'o' :: value) = "-o" ++ String.ofList value := String.toList_inj.mp (by simp)
    rw [same]
    refine .joined (by simpa using given) ?_
    intro sign
    obtain ⟨rest, equal⟩ := List.head?_eq_some_iff.mp sign
    exact plain rest (by simpa using equal)
  · trivial

theorem ofLong_fits (name : List Char) : Fits (String.ofList ('-' :: '-' :: name)) (ofLong name) := by
  have parts : name.takeWhile (· ≠ '=') ++ name.dropWhile (· ≠ '=') = name := List.takeWhile_append_dropWhile
  have front : (String.ofList (name.takeWhile (· ≠ '='))).toList = name.takeWhile (· ≠ '=') := String.toList_ofList
  unfold ofLong
  dsimp only
  split
  · trivial
  · trivial
  · rename_i word behind
    rw [word] at front
    rw [← parts, ← front, behind]
    rfl
  · rename_i word behind
    rw [word] at front
    rw [← parts, ← front, behind]
    exact .inr rfl
  · rename_i c value word behind
    have sign : c = '=' := by
      have stopped := List.head?_dropWhile_not (fun c => decide (c ≠ '=')) name
      rw [behind] at stopped
      simpa using stopped
    have same : String.ofList ('-' :: '-' :: name) = "--output=" ++ String.ofList value := by
      rw [word] at front
      rw [← parts, ← front, behind, sign]
      exact String.toList_inj.mp (by simp)
    rw [same]
    exact .equal (.inr rfl)
  · trivial

theorem ofString_fits (arg : String) : Fits arg (ofString arg) := by
  have back : String.ofList arg.toList = arg := String.ofList_toList
  unfold ofString
  split
  · rename_i name letters
    rw [← back, letters]
    exact ofLong_fits name
  · rename_i letters
    refine ⟨rfl, .inl ?_⟩
    rw [← back, letters]
  · rename_i letters _ _ same
    rw [← back, same]
    exact ofShort_fits letters
  · rename_i other
    refine ⟨rfl, .inr ?_⟩
    intro dash
    obtain ⟨letters, same⟩ := List.head?_eq_some_iff.mp dash
    exact other letters same

theorem fits_of_read (read : ofString arg = made) : Fits arg made := by
  rw [← read]
  exact ofString_fits arg

end Argument

namespace Request

-- What arguments with these operands and options still add to what has been seen makes up an invocation.
structure Adds (g : Given) (operands : List String) (out : Option String) (compact : Bool) (i : Invocation) : Prop where
  positionals : g.positionals ++ operands = [i.script, i.registry]
  visible : ∀ arg ∈ operands, arg ≠ ""
  output : i.output = g.output.or out
  once : g.output = none ∨ out = none
  named : out ≠ some ""
  style : i.compact = (g.compact || compact)
  single : g.compact = false ∨ compact = false

theorem adds_nothing : g.request = .run i ↔ Adds g [] none false i := by
  obtain ⟨positionals, out, compact⟩ := g
  obtain ⟨script, registry, output, style⟩ := i
  constructor
  · intro made
    unfold Given.request at made
    split at made
    · rename_i given
      dsimp only at given
      cases made
      subst given
      exact ⟨rfl, by simp, by simp, .inr rfl, by simp, by simp, .inr rfl⟩
    · cases made
  · rintro ⟨given, _, made, _, _, style, _⟩
    simp_all [Given.request]

theorem adds_operand : Adds g (arg :: operands) out compact i ↔
    ∃ more, g.addPositional arg = some more ∧ Adds more operands out compact i := by
  constructor
  · intro adds
    have few : g.positionals.length < 2 := by
      have length := congrArg List.length adds.positionals
      simp only [List.length_append, List.length_cons, List.length_nil] at length
      omega
    have given : arg ≠ "" := adds.visible arg List.mem_cons_self
    refine ⟨{ g with positionals := g.positionals ++ [arg] }, by simp [Given.addPositional, given, few], ?_⟩
    exact { adds with
      positionals := by simpa using adds.positionals
      visible := fun other member => adds.visible other (List.mem_cons_of_mem _ member) }
  · rintro ⟨more, added, adds⟩
    unfold Given.addPositional at added
    split at added
    · cases added
    · rename_i free
      cases added
      have given : arg ≠ "" := by
        intro empty
        simp [empty] at free
      exact { adds with
        positionals := by simpa using adds.positionals
        visible := List.forall_mem_cons.mpr ⟨given, adds.visible⟩ }

theorem adds_output : Adds g operands (some value) compact i ↔
    ∃ more, g.addOutput value = some more ∧ Adds more operands none compact i := by
  constructor
  · intro adds
    have first : g.output = none := adds.once.resolve_right (by simp)
    have given : value ≠ "" := fun empty => adds.named (congrArg some empty)
    refine ⟨{ g with output := value }, by simp [Given.addOutput, given, first], ?_⟩
    exact { adds with
      output := by simpa [first] using adds.output
      once := .inr rfl
      named := by simp }
  · rintro ⟨more, added, adds⟩
    unfold Given.addOutput at added
    split at added
    · cases added
    · rename_i free
      cases added
      obtain ⟨given, first⟩ : value ≠ "" ∧ g.output = none := by simpa using free
      exact { adds with
        output := by simpa [first] using adds.output
        once := .inl first
        named := by simpa using given }

theorem adds_compact : Adds g operands out true i ↔
    ∃ more, g.addCompact = some more ∧ Adds more operands out false i := by
  constructor
  · intro adds
    have first : g.compact = false := adds.single.resolve_right (by simp)
    refine ⟨{ g with compact := true }, by simp [Given.addCompact, first], ?_⟩
    exact { adds with
      style := by simpa using adds.style
      single := .inr rfl }
  · rintro ⟨more, added, adds⟩
    unfold Given.addCompact at added
    split at added
    · cases added
    · rename_i free
      cases added
      have first : g.compact = false := by simpa using free
      exact { adds with
        style := by simpa using adds.style
        single := .inl first }

theorem ofPositionals_iff : ofPositionals g args = .run i ↔ Adds g args none false i := by
  induction args generalizing g with
  | nil => exact adds_nothing
  | cons arg rest ih =>
      rw [adds_operand, ofPositionals]
      cases g.addPositional arg with
      | none => simp
      | some more => simp [ih]

theorem ofArgsAfter_joined (joined : Argument.ofString arg = .output (some value)) :
    ofArgsAfter g (arg :: args) = match g.addOutput value with
      | some g => ofArgsAfter g args
      | none => .misuse := by
  have word : arg ≠ "--" := by
    rintro rfl
    cases joined
  rw [ofArgsAfter.eq_def]
  cases added : g.addOutput value <;> simp only [word, if_false, joined, added]

theorem ofArgsAfter_layout (layout : Layout args operands out compact) (g : Given) :
    ofArgsAfter g args = .run i ↔ Adds g operands out compact i := by
  induction layout generalizing g with
  | none => exact adds_nothing
  | operands => exact ofPositionals_iff
  | operand operand layout ih =>
      rename_i arg args operands out compact
      have word : arg ≠ "--" := by
        rintro rfl
        simp [Operand] at operand
      unfold ofArgsAfter
      rw [adds_operand, if_neg word, Argument.ofString_operand operand]
      dsimp only
      cases g.addPositional arg with
      | none => simp
      | some more => simp [ih]
  | output names layout ih =>
      rename_i front value args operands compact
      rw [adds_output]
      cases names with
      | apart isWord operand =>
          rename_i word
          have other : word ≠ "--" := by rcases isWord with rfl | rfl <;> decide
          have option : Argument.ofString word = .output none := by rcases isWord with rfl | rfl <;> rfl
          rw [List.cons_append]
          unfold ofArgsAfter
          rw [if_neg other, option]
          dsimp only [List.cons_append, List.nil_append]
          rw [Argument.ofString_operand operand]
          dsimp only
          cases g.addOutput value with
          | none => simp
          | some more => simp [ih]
      | joined given apart =>
          rw [List.cons_append, ofArgsAfter_joined (Argument.ofString_joined given apart)]
          cases g.addOutput value with
          | none => simp
          | some more => simp [ih]
      | equal isWord =>
          rw [List.cons_append, ofArgsAfter_joined (Argument.ofString_equal isWord)]
          cases g.addOutput value with
          | none => simp
          | some more => simp [ih]
  | compact layout ih =>
      rename_i args operands out
      rw [adds_compact]
      unfold ofArgsAfter
      have word : Argument.ofString "--compact" = .compact := rfl
      rw [if_neg (by decide), word]
      dsimp only
      cases g.addCompact with
      | none => simp
      | some more => simp [ih]

theorem layout_output (names : NamesOutput front value) (added : Given.addOutput g value = some more)
    (behind : ∃ operands out compact, Layout args operands out compact ∧ Adds more operands out compact i) :
    ∃ operands out compact, Layout (front ++ args) operands out compact ∧ Adds g operands out compact i := by
  obtain ⟨operands, out, compact, layout, adds⟩ := behind
  have taken : more.output ≠ none := by
    unfold Given.addOutput at added
    split at added <;> cases added
    simp
  obtain rfl : out = none := adds.once.resolve_left taken
  exact ⟨operands, some value, compact, .output names layout, adds_output.mpr ⟨more, added, adds⟩⟩

theorem layout_compact (added : Given.addCompact g = some more)
    (behind : ∃ operands out compact, Layout args operands out compact ∧ Adds more operands out compact i) :
    ∃ operands out compact, Layout ("--compact" :: args) operands out compact ∧ Adds g operands out compact i := by
  obtain ⟨operands, out, compact, layout, adds⟩ := behind
  have taken : more.compact ≠ false := by
    unfold Given.addCompact at added
    split at added <;> cases added
    simp
  obtain rfl : compact = false := adds.single.resolve_left taken
  exact ⟨operands, out, true, .compact layout, adds_compact.mpr ⟨more, added, adds⟩⟩

theorem layout_of_run (made : ofArgsAfter g args = .run i) :
    ∃ operands out compact, Layout args operands out compact ∧ Adds g operands out compact i := by
  fun_induction ofArgsAfter g args with
  | case1 g => exact ⟨[], none, false, .none, adds_nothing.mp made⟩
  | case2 g operands => exact ⟨operands, none, false, .operands, ofPositionals_iff.mp made⟩
  | case6 g arg rest word read more added ih =>
      obtain rfl : arg = "--compact" := Argument.fits_of_read read
      exact layout_compact added (ih made)
  | case8 g arg rest word value read more added ih =>
      obtain ⟨rfl, operand⟩ : value = arg ∧ Operand arg := Argument.fits_of_read read
      obtain ⟨operands, out, compact, layout, adds⟩ := ih made
      exact ⟨value :: operands, out, compact, .operand operand layout, adds_operand.mpr ⟨more, added, adds⟩⟩
  | case10 g arg rest word value read more added ih =>
      exact layout_output (Argument.fits_of_read read) added (ih made)
  | case13 g arg word read next rest value isValue more added ih =>
      have names : arg = "-o" ∨ arg = "--output" := Argument.fits_of_read read
      obtain ⟨rfl, operand⟩ : value = next ∧ Operand next := Argument.fits_of_read isValue
      exact layout_output (.apart names operand) added (ih made)
  | _ => cases made

-- A script and a registry, and options that are given once at most.
def Asks (args : List String) (i : Invocation) : Prop :=
  Layout args [i.script, i.registry] i.output i.compact ∧ i.script ≠ "" ∧ i.registry ≠ "" ∧ i.output ≠ some ""

theorem ofArgs_iff : ofArgs args = .run i ↔ Asks args i := by
  constructor
  · intro made
    obtain ⟨operands, out, compact, layout, adds⟩ := layout_of_run made
    obtain ⟨rfl, visible, output, _, named, style, _⟩ := adds
    rw [Option.none_or] at output
    rw [Bool.false_or] at style
    subst output style
    exact ⟨layout, visible _ (by simp), visible _ (by simp), named⟩
  · rintro ⟨layout, script, registry, output⟩
    refine (ofArgsAfter_layout layout {}).mpr ⟨rfl, ?_, by simp, .inl rfl, output, by simp, .inl rfl⟩
    simp [script, registry]

end Request

end KeywordConfig.CommandLine
