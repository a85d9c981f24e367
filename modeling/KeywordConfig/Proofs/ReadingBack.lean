import KeywordConfig.Proofs.Binary64
import KeywordConfig.Proofs.Gathering
import KeywordConfig.Proofs.JsonTexts

namespace KeywordConfig
open Token Value

namespace Json

theorem build_cons (moved : step limit spot word = some next) :
    build limit spot (word :: rest) = build limit next rest := by
  rw [build, moved]
  rfl

theorem enter_within (room : ∀ most ∈ limit, around.depth + 1 ≤ most) (spot : Spot) :
    enter limit around spot = some spot := by
  unfold enter
  cases limit with
  | none => rfl
  | some most =>
      have enough := room most rfl
      rw [if_neg]
      simp only [Option.any_some, decide_eq_true_eq]
      omega

theorem build_array (room : ∀ most ∈ limit, around.depth + 1 ≤ most) :
    build limit (.value around) (.openArray :: rest) = build limit (.firstItem around) rest :=
  build_cons (enter_within room _)

theorem build_object (room : ∀ most ∈ limit, around.depth + 1 ≤ most) :
    build limit (.value around) (.openObject :: rest) = build limit (.firstName around) rest :=
  build_cons (enter_within room _)

-- A tree begins with no closing bracket, so an array's first item is read like any other value.
theorem first_item (json : Json) (rest : List Lexeme) : build limit (.firstItem around) (words json ++ rest) =
    build limit (.value (.array [] around)) (words json ++ rest) := by
  cases json with
  | array items => cases items <;> rfl
  | object members => cases members <;> rfl
  | _ => rfl

mutual

theorem build_words : (json : Json) → (around : Around) → (∀ most ∈ limit, json.nesting + around.depth ≤ most) →
    ∀ rest, build limit (.value around) (words json ++ rest) = build limit (put json around) rest
  | .null, _, _, _ => rfl
  | .bool _, _, _, _ => rfl
  | .int _, _, _, _ => rfl
  | .large _, _, _, _ => rfl
  | .float _, _, _, _ => rfl
  | .str _, _, _, _ => rfl
  | .array [], around, room, rest => by
      have enters : ∀ most ∈ limit, around.depth + 1 ≤ most := by
        intro most found
        have := room most found
        simp only [nesting, itemsNesting] at this
        omega
      exact (build_array enters).trans (build_cons rfl)
  | .array (item :: items), around, room, rest => by
      have inside : ∀ most ∈ limit, item.nesting + (around.depth + 1) ≤ most ∧
          itemsNesting items + around.depth + 1 ≤ most ∧ around.depth + 1 ≤ most := by
        intro most found
        have := room most found
        simp only [nesting, itemsNesting] at this
        omega
      simp only [words, List.cons_append, List.append_assoc, List.nil_append]
      rw [build_array fun most found => (inside most found).2.2, first_item,
        build_words item (.array [] around) fun most found => (inside most found).1]
      exact build_items items around [item] (fun most found => (inside most found).2.1) rest
  | .object [], around, room, rest => by
      have enters : ∀ most ∈ limit, around.depth + 1 ≤ most := by
        intro most found
        have := room most found
        simp only [nesting, membersNesting] at this
        omega
      exact (build_object enters).trans (build_cons rfl)
  | .object ((name, member) :: members), around, room, rest => by
      have inside : ∀ most ∈ limit, member.nesting + (around.depth + 1) ≤ most ∧
          membersNesting members + around.depth + 1 ≤ most ∧ around.depth + 1 ≤ most := by
        intro most found
        have := room most found
        simp only [nesting, membersNesting] at this
        omega
      simp only [words, List.cons_append, List.append_assoc, List.nil_append]
      rw [build_object fun most found => (inside most found).2.2, build_cons rfl, build_cons rfl,
        build_words member (.object [] name around) fun most found => (inside most found).1]
      exact build_members members around [(name, member)] (fun most found => (inside most found).2.1) rest

theorem build_items : (items : List Json) → (around : Around) → (done : List Json) →
    (∀ most ∈ limit, itemsNesting items + around.depth + 1 ≤ most) → ∀ rest,
    build limit (.afterItem done around) (itemWords items ++ (.closeArray :: rest)) =
      build limit (put (.array (done.reverse ++ items)) around) rest
  | [], around, done, _, rest => by
      rw [List.append_nil]
      exact build_cons rfl
  | item :: items, around, done, room, rest => by
      have inside : ∀ most ∈ limit, item.nesting + (around.depth + 1) ≤ most ∧
          itemsNesting items + around.depth + 1 ≤ most := by
        intro most found
        have := room most found
        simp only [itemsNesting] at this
        omega
      simp only [itemWords, List.cons_append, List.append_assoc]
      rw [build_cons rfl, build_words item (.array done around) fun most found => (inside most found).1]
      have others := build_items items around (item :: done) (fun most found => (inside most found).2) rest
      rwa [List.reverse_cons, List.append_assoc] at others

theorem build_members : (members : List (String × Json)) → (around : Around) → (done : List (String × Json)) →
    (∀ most ∈ limit, membersNesting members + around.depth + 1 ≤ most) → ∀ rest,
    build limit (.afterMember done around) (memberWords members ++ (.closeObject :: rest)) =
      build limit (put (.object (done.reverse ++ members)) around) rest
  | [], around, done, _, rest => by
      rw [List.append_nil]
      exact build_cons rfl
  | (name, member) :: members, around, done, room, rest => by
      have inside : ∀ most ∈ limit, member.nesting + (around.depth + 1) ≤ most ∧
          membersNesting members + around.depth + 1 ≤ most := by
        intro most found
        have := room most found
        simp only [membersNesting] at this
        omega
      simp only [memberWords, List.cons_append, List.append_assoc]
      rw [build_cons rfl, build_cons rfl, build_cons rfl,
        build_words member (.object done name around) fun most found => (inside most found).1]
      have others := build_members members around ((name, member) :: done)
        (fun most found => (inside most found).2) rest
      rwa [List.reverse_cons, List.append_assoc] at others

end

mutual

theorem nesting_ofValue : (v : Value) → (ofValue v).nesting = v.nesting
  | .null => rfl
  | .bool _ => rfl
  | .int _ => rfl
  | .float _ => rfl
  | .str _ => rfl
  | .list items => congrArg (· + 1) (itemsNesting_ofValues items)
  | .map entries => congrArg (· + 1) (membersNesting_ofEntries entries)

theorem itemsNesting_ofValues : (items : List Value) → itemsNesting (ofValues items) = Value.itemsNesting items
  | [] => rfl
  | item :: items => congrArg₂ max (nesting_ofValue item) (itemsNesting_ofValues items)

theorem membersNesting_ofEntries : (entries : List (String × Value)) →
    membersNesting (ofEntries entries) = entriesNesting entries
  | [] => rfl
  | (_, value) :: entries => congrArg₂ max (nesting_ofValue value) (membersNesting_ofEntries entries)

end

theorem parse_render (style : Style) (carries : ∀ x ∈ v.floats, Carries carry x)
    (shallow : ∀ most ∈ limit, (v.carried carry).nesting ≤ most) :
    parseWithin limit ((ofValue v).render style) = some (ofValue (v.carried carry)) := by
  have cut := chars_cuts style 0 v carries (nofun : Stops [])
  unfold Cuts at cut
  rw [List.append_nil, lexemesFrom_unfold []] at cut
  have built := build_words (ofValue (v.carried carry)) .top ((nesting_ofValue _).symm ▸ shallow) []
  unfold parseWithin lexemes render
  rw [String.toList_ofList, cut]
  exact built

mutual

theorem toValue_ofValue : (v : Value) → v.Proper → toValue (ofValue v) = v
  | .null, _ => rfl
  | .bool _, _ => rfl
  | .int _, _ => rfl
  | .float _, _ => rfl
  | .str _, _ => rfl
  | .list items, .list all => by rw [ofValue, toValue, toValues_ofValues items all]
  | .map entries, .map distinct all => by
      rw [ofValue, toValue, toEntries_ofEntries entries all, Keyed.ofList_eq distinct]

theorem toValues_ofValues : (items : List Value) → (∀ item ∈ items, item.Proper) → toValues (ofValues items) = items
  | [], _ => rfl
  | item :: items, all => by
      obtain ⟨first, others⟩ := List.forall_mem_cons.mp all
      rw [ofValues, toValues, toValue_ofValue item first, toValues_ofValues items others]

theorem toEntries_ofEntries : (entries : List (String × Value)) → (∀ entry ∈ entries, entry.2.Proper) →
    toEntries (ofEntries entries) = entries
  | [], _ => rfl
  | (key, value) :: entries, all => by
      obtain ⟨first, others⟩ := List.forall_mem_cons.mp all
      rw [ofEntries, toEntries, toValue_ofValue value first, toEntries_ofEntries entries others]

end

end Json

namespace Value

mutual

theorem carried_float : (v : Value) → v.carried .float = v
  | .null => rfl
  | .bool _ => rfl
  | .int _ => rfl
  | .float _ => rfl
  | .str _ => rfl
  | .list items => congrArg Value.list (carriedItems_float items)
  | .map entries => congrArg Value.map (carriedEntries_float entries)

theorem carriedItems_float : (items : List Value) → carriedItems .float items = items
  | [] => rfl
  | item :: items => by rw [carriedItems, carried_float item, carriedItems_float items]

theorem carriedEntries_float : (entries : List (String × Value)) → carriedEntries .float entries = entries
  | [] => rfl
  | (key, value) :: entries => by rw [carriedEntries, carried_float value, carriedEntries_float entries]

end

end Value

namespace Json

theorem parse_float (n : Number) (text : floatChars x = sign negative ++ n.chars) :
    parse ((Json.float x).render .compact) = n.json negative := by
  have rendered : (Json.float x).render .compact = String.ofList (sign negative ++ n.chars) := by
    unfold render chars
    rw [text]
  unfold parse
  rw [rendered, parse_number]

theorem carries_float {x : Float} (finite : x.isFinite)
    (rereads : parse ((Json.float x).render .compact) = some (.float x)) : Carries .float x := by
  obtain ⟨m, q, magnitude⟩ := Decimal.isFinite_iff.mp finite
  obtain ⟨_, text, n, rfl, _⟩ := floatChars_writes magnitude
  intro rest stops
  rw [text]
  exact number_cuts n _ stops ((parse_float n text).symm.trans rereads)

end Json

namespace Document

-- The document that a text is read as. Its arrays and objects may nest as deep as `limit`, if there is one.
def readWithin (limit : Option Nat) (text : String) : Option Document :=
  (Json.parseWithin limit text).bind fun json =>
    match json.toValue with
    | .map root => some ⟨root⟩
    | _ => none

def read (text : String) : Option Document := readWithin (some Json.maxNesting) text

theorem readWithin_render {d back : Document} (proper : (Value.map back.root).Proper)
    (same : (Value.map d.root).carried carry = .map back.root)
    (carries : ∀ x ∈ (Value.map d.root).floats, Json.Carries carry x)
    (shallow : ∀ most ∈ limit, (Value.map back.root).nesting ≤ most) (style : Json.Style) :
    readWithin limit (d.render style) = some back := by
  rw [← same] at shallow
  have parsed := Json.parse_render style carries shallow
  unfold readWithin render
  rw [parsed, same, Option.bind_some, Json.toValue_ofValue _ proper]

-- A document of finite floats, each of which is written as a text that reads back, is read back from its text.
theorem read_render (d : Document) (proper : (Value.map d.root).Proper) (shallow : (Value.map d.root).nesting ≤ 127)
    (finite : ∀ x ∈ (Value.map d.root).floats, x.isFinite)
    (rereads : ∀ x ∈ (Value.map d.root).floats, x.isFinite →
      Json.parse ((Json.float x).render .compact) = some (.float x)) (style : Json.Style) :
    read (d.render style) = some d := by
  refine readWithin_render proper (carried_float _) ?_ ?_ style
  · intro x member
    exact Json.carries_float (finite x member) (rereads x member (finite x member))
  · rintro _ ⟨⟩
    exact shallow

theorem read_render_of_nested :
    read (render .pretty ⟨[("name", .str "\"\\\n\x01é"), ("x", .float 1.5), ("list", .list [.null, .bool true, .list []]),
      ("map", .map [("b", .int (-9223372036854775808)), ("a", .map [])])]⟩) =
      some ⟨[("name", .str "\"\\\n\x01é"), ("x", .float 1.5), ("list", .list [.null, .bool true, .list []]),
        ("map", .map [("b", .int (-9223372036854775808)), ("a", .map [])])]⟩ := by
  have text : Json.floatChars 1.5 = "1.5".toList := by decide +kernel
  have scaled : Json.scale (Json.floatOfNat 15) (-1) = some 1.5 := by decide +kernel
  have digit (c : Char) (digit : c.isDigit) : IsDigits [c] := ⟨List.forall_mem_singleton.mpr digit, nofun⟩
  let n : Json.Number := ⟨['1'], some ['5'], none, digit _ rfl, nofun, Json.only_part (digit _ rfl), nofun⟩
  have number : n.json false = (Json.scale (Json.floatOfNat 15) (-1)).map fun x => .float (Json.signed false x) := rfl
  have rereads : Json.parse ((Json.float 1.5).render .compact) = some (.float 1.5) := by
    rw [@Json.parse_float _ false n text, number, scaled]
    rfl
  apply read_render
  · refine .map (by unfold Keyed.Distinct; decide) ?_
    simp only [List.forall_mem_cons]
    refine ⟨.str, .float, .list ?_, .map (by unfold Keyed.Distinct; decide) ?_, nofun⟩
    · simp only [List.forall_mem_cons]
      exact ⟨.null, .bool, .list nofun, nofun⟩
    · simp only [List.forall_mem_cons]
      exact ⟨.int, .map List.nodup_nil nofun, nofun⟩
  · decide
  · intro x member
    simp only [floats, itemFloats, entryFloats, List.nil_append, List.append_nil, List.mem_singleton] at member
    subst member
    decide
  · intro x member _
    simp only [floats, itemFloats, entryFloats, List.nil_append, List.append_nil, List.mem_singleton] at member
    subst member
    exact rereads

end Document

end KeywordConfig
