import KeywordConfig.Proofs.JsonFloats
import KeywordConfig.Proofs.Literals
import KeywordConfig.Proofs.Provenance
import KeywordConfig.Proofs.ReadingBack
import KeywordConfig.Proofs.Spelling

namespace KeywordConfig
open Token

namespace Value

-- What may be read in the place of a float.
def Plain (carry : Float → Value) : Prop := ∀ x, carry x = .null ∨ ∃ y, carry x = .float y

theorem carriedItems_map (carry : Float → Value) (items : List Value) :
    carriedItems carry items = items.map (carried carry) := by
  induction items with
  | nil => rfl
  | cons item items ih => rw [carriedItems, ih, List.map_cons]

theorem carriedEntries_map (carry : Float → Value) (entries : Mapping) :
    carriedEntries carry entries = entries.map fun entry => (entry.1, entry.2.carried carry) := by
  induction entries with
  | nil => rfl
  | cons entry entries ih => rw [carriedEntries, ih, List.map_cons]

theorem get?_carriedEntries (carry : Float → Value) (entries : Mapping) (name : String) :
    Keyed.get? (carriedEntries carry entries) name = (Keyed.get? entries name).map (carried carry) := by
  induction entries with
  | nil => rfl
  | cons entry entries ih =>
      obtain ⟨key, value⟩ := entry
      by_cases same : key = name <;> simp [carriedEntries, Keyed.get?, same, ih]

theorem Proper.carried {v : Value} (plain : Plain carry) (proper : v.Proper) : (v.carried carry).Proper := by
  induction proper with
  | float =>
      rename_i x
      rcases plain x with null | ⟨y, float⟩
      · rw [Value.carried, null]
        exact .null
      · rw [Value.carried, float]
        exact .float
  | list _ ih =>
      rw [Value.carried, carriedItems_map]
      exact .list (List.forall_mem_map.mpr ih)
  | map distinct _ ih =>
      rw [Value.carried, carriedEntries_map]
      refine .map ?_ (List.forall_mem_map.mpr ih)
      unfold Keyed.Distinct Keyed.keys at *
      rwa [List.map_map]
  | null => exact .null
  | bool => exact .bool
  | int => exact .int
  | str => exact .str

theorem node?_carried (plain : Plain carry) (v : Value) (slot : Slot) :
    (v.carried carry).node? slot = (v.node? slot).map (carried carry) := by
  induction slot generalizing v with
  | nil => simp [node?]
  | cons segment rest ih =>
      cases v with
      | float x => rcases plain x with same | ⟨y, same⟩ <;> rw [carried, same] <;> cases segment <;> rfl
      | list items =>
          cases segment with
          | key => rfl
          | index i =>
              rw [carried, carriedItems_map, node?, node?, List.getElem?_map]
              cases items[i]? with
              | none => rfl
              | some item => exact ih item
      | map entries =>
          cases segment with
          | index => rfl
          | key name =>
              rw [carried, node?, node?, get?_carriedEntries]
              cases Keyed.get? entries name with
              | none => rfl
              | some value => exact ih value
      | _ => cases segment <;> rfl

end Value

namespace Document

theorem node?_carried (plain : Value.Plain carry) (d : Document) (slot : Slot) :
    node? ⟨Value.carriedEntries carry d.root⟩ slot = (d.node? slot).map (Value.carried carry) := by
  cases slot with
  | nil => rfl
  | cons segment rest => exact Value.node?_carried plain (.map d.root) (segment :: rest)

theorem nulls_read (d : Document) (proper : (Value.map d.root).Proper) (style : Json.Style) :
    ∃ back, readWithin none (d.render style) = some back ∧ ∀ slot, back.node? slot = some .null ↔
      d.node? slot = some .null ∨ ∃ x, d.node? slot = some (.float x) ∧ ¬ x.isFinite := by
  choose carry reads leaf using Json.carries_some
  have plain : Value.Plain carry := fun x => (leaf x).symm.imp And.right And.right
  refine ⟨⟨Value.carriedEntries carry d.root⟩, readWithin_render (proper.carried plain) rfl ?_ (by simp) style, ?_⟩
  · exact fun x _ => reads x
  · intro slot
    rw [node?_carried plain]
    cases d.node? slot with
    | none => simp
    | some node =>
        cases node with
        | float x =>
            rcases leaf x with ⟨finite, y, same⟩ | ⟨infinite, same⟩
            · simp [Value.carried, same, finite]
            · simp [Value.carried, same, infinite]
        | _ => simp [Value.carried]

end Document

-- Every number of a script is read as itself, and every float that is finite is written as a number. Only a
-- literal too large for a float is lost: where it stands, null is written, although the document holds no nil.
theorem nulls_written (script : String) :
    (∃ pieces, Cut script.toList pieces) ∧ ∀ pieces, Cut script.toList pieces →
      (∀ p ∈ pieces, ∀ i, p.token = .int i → ∃ digits, IntLiteral script.toList p digits i) ∧
      (∀ p ∈ pieces, ∀ x, p.token = .float x → ∃ whole fraction,
        FloatLiteral script.toList p whole fraction ∧ (x.isFinite ↔ ¬ TooLarge whole fraction)) ∧
      ∀ registry d style, interpret script registry = .ok d →
        ∃ back, Document.readWithin none (d.render style) = some back ∧ ∀ slot, back.node? slot = some .null ↔
          d.node? slot = some .null ∨ ∃ p ∈ pieces, ∃ x whole fraction, d.node? slot = some (.float x) ∧
            p.token = .float x ∧ FloatLiteral script.toList p whole fraction ∧ TooLarge whole fraction := by
  refine ⟨cut_total _, ?_⟩
  intro pieces cut
  refine ⟨fun p member i token => cut.int member token, ?_, ?_⟩
  · intro p member x token
    obtain ⟨whole, fraction, literal⟩ := cut.float member token
    exact ⟨whole, fraction, literal, literal.isFinite token⟩
  · intro registry d style interpreted
    have made := interpret_madeOf interpreted
    obtain ⟨back, read, nulls⟩ := Document.nulls_read d made.proper style
    refine ⟨back, read, ?_⟩
    intro slot
    rw [nulls]
    refine or_congr_right ⟨?_, ?_⟩
    · intro held
      obtain ⟨x, stands, infinite⟩ := held
      have given : ∃ line, .ok ⟨.float x, line⟩ ∈ items script := by
        cases slot with
        | nil => cases stands
        | cons segment rest => exact (made.node? stands).floats x List.mem_cons_self
      obtain ⟨line, item⟩ := given
      obtain ⟨p, member, located⟩ := cut.item item
      have token : p.token = .float x := congrArg Located.token located
      obtain ⟨whole, fraction, literal⟩ := cut.float member token
      have large := not_not.mp (mt (literal.isFinite token).mpr infinite)
      exact ⟨p, member, x, whole, fraction, stands, token, literal, large⟩
    · intro held
      obtain ⟨p, _, x, whole, fraction, stands, token, literal, large⟩ := held
      exact ⟨x, stands, fun finite => (literal.isFinite token).mp finite large⟩

def literalCall (whole fraction : List Char) : String :=
  String.ofList (['a'] ++ (['('] ++ (['x', ':'] ++ ([' '] ++ (whole ++ '.' :: fraction) ++ [')']))))

theorem interpret_literal (before : IsDigits whole) (behind : IsDigits fraction)
    (read : floatToken false whole fraction = .float x) :
    interpret (literalCall whole fraction) ⟨[("a", { kind := .map })]⟩ = .ok ⟨[("a", .map [("x", .float x)])]⟩ := by
  have name (c : Char) (start : isNameStart c) : IsName [c] := .start start .done
  have literal : Denotes (whole ++ '.' :: fraction) (.float x) := by
    have := @Denotes.float whole fraction false before behind
    rwa [read] at this
  have plain : ∀ c ∈ whole ++ '.' :: fraction, Plain c := by
    refine List.forall_mem_append.mpr ⟨plain_digits before, List.forall_mem_cons.mpr ⟨?_, plain_digits behind⟩⟩
    decide
  have digits : Reads 1 ([' '] ++ (whole ++ '.' :: fraction)) [')'] [⟨.float x, 1⟩] :=
    Reads.blank (.single literal (by rintro _ ⟨⟩; rfl) (plain_unescaped plain))
  have reads : Reads 1 (['a'] ++ (['('] ++ (['x', ':'] ++ ([' '] ++ (whole ++ '.' :: fraction) ++ [')'])))) [] _ :=
    Reads.append (.single (.ident (name 'a' rfl)) ⟨nofun, nofun⟩ rfl)
      (Reads.append (.mark rfl) (Reads.append (.single (.label (name 'x' rfl)) nofun rfl)
        (Reads.append digits (.mark rfl))))
  have ends (line : Nat) : itemsFrom [] line [] = [.ok ⟨.endOfScript, line⟩] := by
    rw [itemsFrom_unfold]
    rfl
  unfold Reads at reads
  rw [List.append_nil, ends] at reads
  unfold interpret Script.parse Script.parseWithin literalCall items
  rw [String.toList_ofList, reads]
  cbv

theorem nulls_written_of_literal :
    let script := literalCall ['1'] ['5']
    let registry : Registry := ⟨[("a", { kind := .map })]⟩
    ∃ d pieces, interpret script registry = .ok d ∧ Cut script.toList pieces ∧
      (∀ p ∈ pieces, ∀ x, p.token = .float x → ∃ whole fraction,
        FloatLiteral script.toList p whole fraction ∧ (x.isFinite ↔ ¬ TooLarge whole fraction)) ∧
      ∀ style, ∃ back, Document.readWithin none (d.render style) = some back ∧ ∀ slot, back.node? slot = some .null ↔
        d.node? slot = some .null ∨ ∃ p ∈ pieces, ∃ x whole fraction, d.node? slot = some (.float x) ∧
          p.token = .float x ∧ FloatLiteral script.toList p whole fraction ∧ TooLarge whole fraction := by
  intro script registry
  have digit (c : Char) (digit : c.isDigit) : IsDigits [c] := ⟨List.forall_mem_singleton.mpr digit, nofun⟩
  have interpreted := interpret_literal (digit '1' rfl) (digit '5' rfl) rfl
  obtain ⟨⟨pieces, cut⟩, numbers⟩ := nulls_written script
  obtain ⟨_, floats, documents⟩ := numbers pieces cut
  exact ⟨_, pieces, interpreted, cut, floats, fun style => documents registry _ style interpreted⟩

-- The literal is read as an infinity and written as null, where the document holds no nil.
theorem large_literal_lost :
    let script := literalCall ('2' :: List.replicate 308 '0') ['0']
    let slot : Slot := [.key "a", .key "x"]
    ∃ x d, interpret script ⟨[("a", { kind := .map })]⟩ = .ok d ∧ d.node? slot = some (.float x) ∧ ¬ x.isFinite ∧
      ∀ style, ∃ back, Document.readWithin none (d.render style) = some back ∧ back.node? slot = some .null := by
  intro script slot
  have before : IsDigits ('2' :: List.replicate 308 '0') :=
    ⟨List.forall_mem_cons.mpr ⟨rfl, Decimal.isDigits_zeros 308⟩, nofun⟩
  have behind : IsDigits ['0'] := Decimal.isDigits_zero
  obtain ⟨x, read⟩ : ∃ x, floatToken false ('2' :: List.replicate 308 '0') ['0'] = .float x := ⟨_, rfl⟩
  have interpreted := interpret_literal before behind read
  have large : TooLarge ('2' :: List.replicate 308 '0') ['0'] := by
    unfold TooLarge
    decide +kernel
  have infinite := fun finite => (floatToken_isFinite behind read).mp finite large
  refine ⟨x, _, interpreted, rfl, infinite, ?_⟩
  intro style
  obtain ⟨back, rereads, nulls⟩ := Document.nulls_read _ (interpret_madeOf interpreted).proper style
  exact ⟨back, rereads, (nulls slot).mpr (.inr ⟨x, rfl, infinite⟩)⟩

end KeywordConfig
