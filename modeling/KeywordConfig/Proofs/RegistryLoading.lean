import KeywordConfig.Proofs.ByteOrder
import KeywordConfig.Proofs.TreeLimits
import KeywordConfig.Registry.Load
import Mathlib.Data.List.Dedup

namespace KeywordConfig
open Keyed

structure Registry.Same (r s : Registry) : Prop where
  size : r.size = s.size
  resolve : ∀ keyword, Option.Rel Declaration.Same (r.resolve keyword) (s.resolve keyword)

namespace Registry
open Json

def Decodes (json : Json) (d : Declaration) : Prop := Decode.declaration json = .ok d

theorem ofMembers_decodes (loaded : ofMembers r members = .ok s) :
    ∃ decoded, List.Forall₂ (Under Decodes) members decoded ∧ s.declarations = merge r.declarations decoded := by
  induction members generalizing r with
  | nil =>
      cases loaded
      exact ⟨[], .nil, rfl⟩
  | cons member rest ih =>
      obtain ⟨keyword, json⟩ := member
      rw [ofMembers] at loaded
      split at loaded
      · rename_i d decoded
        obtain ⟨more, related, same⟩ := ih loaded
        exact ⟨(keyword, d) :: more, .cons ⟨rfl, decoded⟩ related, same⟩
      · cases loaded

theorem ofMembers_blames (failed : ofMembers r members = .error why) :
    ∃ before keyword json cause after, members = before ++ (keyword, json) :: after ∧
      (∀ entry ∈ before, ∃ d, Decodes entry.2 d) ∧ Decode.declaration json = .error cause ∧
      why = .malformed keyword cause := by
  induction members generalizing r with
  | nil => cases failed
  | cons member rest ih =>
      obtain ⟨keyword, json⟩ := member
      rw [ofMembers] at failed
      split at failed
      · rename_i d decoded
        obtain ⟨before, name, other, cause, after, rfl, first, broken, same⟩ := ih failed
        exact ⟨(keyword, json) :: before, name, other, cause, after, rfl, List.forall_mem_cons.mpr ⟨⟨d, decoded⟩, first⟩,
          broken, same⟩
      · rename_i cause broken
        cases failed
        exact ⟨[], keyword, json, cause, rest, rfl, nofun, broken, rfl⟩

theorem ofMembers_distinct (distinct : Distinct members) (loaded : ofMembers {} members = .ok r) :
    List.Forall₂ (Under Decodes) members r.declarations := by
  obtain ⟨decoded, related, same⟩ := ofMembers_decodes loaded
  unfold Distinct at distinct
  rw [(under_iff.mp related).1] at distinct
  rw [same, show merge ({} : Registry).declarations decoded = ofList decoded from rfl, ofList_eq distinct]
  exact related

-- Members of two objects that stand for one another: the values under each name are the same but for the
-- order of members.
def Paired (members others : Keyed Json) : Prop :=
  ∃ moved, List.Forall₂ (Under Json.Reordered) members moved ∧ moved.Perm others

variable {members others : Keyed Json}

theorem Paired.distinct (paired : Paired members others) (distinct : Distinct members) : Distinct others := by
  obtain ⟨moved, related, moves⟩ := paired
  unfold Distinct at distinct
  rw [(under_iff.mp related).1] at distinct
  exact Distinct.perm moves distinct

theorem Paired.member (paired : Paired members others) (distinct : Distinct members) (keyword : String) :
    Option.Rel Json.Reordered (get? members keyword) (get? others keyword) := by
  have after := paired.distinct distinct
  obtain ⟨moved, related, moves⟩ := paired
  rw [← get?_perm moves (Distinct.perm moves.symm after)]
  exact get?_under related keyword

theorem decodes_reordered (tame : json.Tame) (reordered : json.Reordered other) :
    (∃ d, Decodes json d) ↔ ∃ d, Decodes other d :=
  (Decode.declaration_blind json other tame reordered).ok_iff

theorem ofMembers_ok_iff : (∃ s, ofMembers r members = .ok s) ↔ ∀ entry ∈ members, ∃ d, Decodes entry.2 d := by
  constructor
  · rintro ⟨s, loaded⟩ entry inside
    obtain ⟨decoded, related, _⟩ := ofMembers_decodes loaded
    obtain ⟨other, _, _, decodes⟩ := forall₂_left related inside
    exact ⟨other.2, decodes⟩
  · intro each
    cases result : ofMembers r members with
    | ok s => exact ⟨s, rfl⟩
    | error why =>
        obtain ⟨before, keyword, json, cause, after, rfl, _, broken, _⟩ := ofMembers_blames result
        obtain ⟨d, decodes⟩ := each (keyword, json) (List.mem_append_right _ List.mem_cons_self)
        cases broken.symm.trans decodes

theorem Paired.decodes (paired : Paired members others) (tame : ∀ member ∈ members, member.2.Tame) :
    (∀ entry ∈ members, ∃ d, Decodes entry.2 d) ↔ ∀ entry ∈ others, ∃ d, Decodes entry.2 d := by
  obtain ⟨moved, related, moves⟩ := paired
  constructor
  · intro each entry inside
    obtain ⟨old, there, _, reordered⟩ := forall₂_left (List.Forall₂.flip related) (moves.mem_iff.mpr inside)
    exact (decodes_reordered (tame old there) reordered).mp (each old there)
  · intro each entry inside
    obtain ⟨new, there, _, reordered⟩ := forall₂_left related inside
    exact (decodes_reordered (tame entry inside) reordered).mpr (each new (moves.mem_iff.mp there))

theorem ofMembers_resolve (distinct : Distinct members) (loaded : ofMembers {} members = .ok r) (keyword : String) :
    Option.Rel Decodes (get? members keyword) (r.resolve keyword) :=
  get?_under (ofMembers_distinct distinct loaded) keyword

theorem ofMembers_size (distinct : Distinct members) (loaded : ofMembers {} members = .ok r) : r.size = members.length :=
  (ofMembers_distinct distinct loaded).length_eq.symm

theorem Paired.resolve (paired : Paired members others) (tame : ∀ member ∈ members, member.2.Tame)
    (distinct : Distinct members) (loaded : ofMembers {} others = .ok r) (keyword : String) :
    Option.Rel (fun json d => ∃ spec, Decodes json spec ∧ spec.Same d) (get? members keyword) (r.resolve keyword) := by
  have pair := paired.member distinct keyword
  have found := ofMembers_resolve (paired.distinct distinct) loaded keyword
  cases first : get? members keyword with
  | none =>
      rw [first] at pair
      cases second : get? others keyword with
      | some => rw [second] at pair; cases pair
      | none =>
          rw [second] at found
          generalize r.resolve keyword = third at found
          cases found
          exact .none
  | some json =>
      rw [first] at pair
      cases second : get? others keyword with
      | none => rw [second] at pair; cases pair
      | some other =>
          rw [second] at pair found
          generalize r.resolve keyword = third at found
          cases pair with | some reordered =>
          cases found with | some decodes =>
          have tame := tame _ (mem_of_get? first)
          obtain ⟨spec, same⟩ := (decodes_reordered tame reordered).mpr ⟨_, decodes⟩
          have agree := Decode.declaration_blind json other tame reordered
          rw [same, decodes] at agree
          exact .some ⟨spec, same, agree⟩

theorem ofMembers_same (tame : ∀ member ∈ members, member.2.Tame) (distinct : Distinct members)
    (paired : Paired members others) (loaded : ofMembers {} members = .ok r) (again : ofMembers {} others = .ok s) :
    r.Same s := by
  constructor
  · rw [ofMembers_size distinct loaded, ofMembers_size (paired.distinct distinct) again]
    obtain ⟨moved, related, moves⟩ := paired
    exact related.length_eq.trans moves.length_eq
  · intro keyword
    have first := ofMembers_resolve distinct loaded keyword
    have second := paired.resolve tame distinct again keyword
    generalize get? members keyword = json at first second
    generalize r.resolve keyword = one at first ⊢
    generalize s.resolve keyword = other at second ⊢
    cases first with
    | none =>
        cases second
        exact .none
    | some decodes =>
        cases second with
        | some found =>
            obtain ⟨spec, decoded, same⟩ := found
            cases decodes.symm.trans decoded
            exact .some same

-- Members that are sorted, or taken as they are written, are accepted or refused alike and declare the same.
theorem load_agrees (written : Written text json) (single : json.Single) :
    ((∃ r, ofText text = .ok r) ↔ ∃ s, load text = .ok s) ∧
      ∀ r s, ofText text = .ok r → load text = .ok s → r.Same s := by
  unfold ofText load
  cases parsed : parse text with
  | none => exact ⟨iff_of_false nofun nofun, nofun⟩
  | some found =>
      obtain rfl := written.unique parsed
      have tame := settled_tame (parse_iff.mp parsed).2.finite
      rw [settled_eq single] at tame
      have reordered := reordered_sorted single
      cases reordered with
      | object names values moves =>
          have paired : Paired _ _ := reordered_object.mp (.object names values moves)
          obtain ⟨distinct, all⟩ := tame_object.mp tame
          refine ⟨?_, fun r s loaded again => ofMembers_same all distinct paired loaded again⟩
          exact ofMembers_ok_iff.trans ((paired.decodes all).trans ofMembers_ok_iff.symm)
      | _ => exact ⟨iff_of_false nofun nofun, nofun⟩

theorem parse_plain {v : Value} (plain : v.floats = []) (shallow : v.nesting ≤ maxNesting) :
    parse ((ofValue v).render .compact) = some (ofValue v) := by
  have read := @parse_render .float (some maxNesting) v .compact
  rw [Value.carried_float, plain] at read
  exact read nofun (by rintro _ ⟨⟩; exact shallow)

theorem load_agrees_of_web : ∃ r s,
    ofText ((ofValue (.map [("web", .map [("kind", .str "map"), ("allow_block", .bool true)])])).render .compact) = .ok r ∧
    load ((ofValue (.map [("web", .map [("kind", .str "map"), ("allow_block", .bool true)])])).render .compact) = .ok s ∧
    r.Same s := by
  have parsed := @parse_plain (.map [("web", .map [("kind", .str "map"), ("allow_block", .bool true)])]) rfl (by decide)
  have single : (ofValue (.map [("web", .map [("kind", .str "map"), ("allow_block", .bool true)])])).Single := by
    refine .object (by unfold Distinct; decide) (List.forall_mem_singleton.mpr ?_)
    refine .object (by unfold Distinct; decide) ?_
    exact List.forall_mem_cons.mpr ⟨.str, List.forall_mem_singleton.mpr .bool⟩
  obtain ⟨accepts, same⟩ := load_agrees (parse_iff.mp parsed).1 single
  obtain ⟨r, taken⟩ : ∃ r, ofText ((ofValue (.map [("web", .map [("kind", .str "map"),
      ("allow_block", .bool true)])])).render .compact) = .ok r := by
    unfold ofText
    rw [parsed]
    exact ⟨_, rfl⟩
  obtain ⟨s, loaded⟩ := accepts.mp ⟨r, taken⟩
  exact ⟨r, s, taken, loaded, same r s taken loaded⟩

-- The last declaration of a keyword, with the last member of each name inside of it.
def lastOf (members : Keyed Json) (keyword : String) : Option Json := (get? members.reverse keyword).map settled

-- A keyword whose last declaration is none.
def Broken (members : Keyed Json) (keyword : String) : Prop :=
  ∃ json, lastOf members keyword = some json ∧ ∀ d, Decode.declaration json ≠ .ok d

structure Blamed (members : Keyed Json) (keyword : String) : Prop where
  broken : Broken members keyword
  least : ∀ other, Broken members other → utf8 keyword ≤ utf8 other

def Refuses (text message : String) : Prop := ∃ why, load text = .error why ∧ why.message = message

theorem keys_settledMembers (members : Keyed Json) : keys (settledMembers members) = (keys members).dedup := by
  induction members with
  | nil => rfl
  | cons member rest ih =>
      obtain ⟨name, json⟩ := member
      rw [settledMembers]
      split
      · rename_i again
        rw [ih]
        exact (List.dedup_cons_of_mem ((any_name rest name).mp again)).symm
      · rename_i last
        have fresh : name ∉ keys rest := fun inside => last ((any_name rest name).mpr inside)
        have whole : (keys ((name, json) :: rest)).dedup = name :: (keys rest).dedup := List.dedup_cons_of_notMem fresh
        rw [whole, ← ih]
        rfl

theorem paired_sorted (members : Keyed Json) : Paired (settledMembers members) (sortedMembers [] members) := by
  have same : sortedMembers [] (settledMembers members) = sortedMembers [] members :=
    Json.object.inj (sorted_settled (.object members))
  have paired : Paired _ _ := reordered_object.mp (reordered_sorted (settled_single (.object members)))
  rwa [same] at paired

theorem ascending_before {before after : Keyed Json} (ascending : Ascending (before ++ entry :: after))
    (inside : other ∈ before ++ entry :: after) : other ∈ before ∨ entry.1 ≤ other.1 := by
  rcases List.mem_append.mp inside with first | later
  · exact .inl first
  · right
    rcases List.mem_cons.mp later with rfl | later
    · exact le_rfl
    · have behind := (List.pairwise_append.mp ascending).2.1
      exact ((List.pairwise_cons.mp behind).1 other later).le

theorem lastOf_eq (members : Keyed Json) (keyword : String) :
    lastOf members keyword = get? (settledMembers members) keyword :=
  (get?_settledMembers members keyword).symm

theorem broken_iff (tame : ∀ member ∈ settledMembers members, member.2.Tame) : Broken members keyword ↔
    ∃ json, get? (sortedMembers [] members) keyword = some json ∧ ∀ d, Decode.declaration json ≠ .ok d := by
  have pair := (paired_sorted members).member (settledMembers_distinct members) keyword
  unfold Broken
  rw [lastOf_eq]
  generalize get? (sortedMembers [] members) keyword = other at pair ⊢
  cases found : get? (settledMembers members) keyword with
  | none =>
      rw [found] at pair
      cases pair
      exact iff_of_false nofun nofun
  | some json =>
      rw [found] at pair
      cases pair with
      | some reordered =>
          have decodes := not_congr (decodes_reordered (tame _ (mem_of_get? found)) reordered)
          simpa [Decodes] using decodes

theorem load_members (parsed : parse text = some (.object members)) :
    (∃ keyword cause, load text = .error (.malformed keyword cause) ∧ Blamed members keyword) ∨
    ∃ r, load text = .ok r ∧ (∀ keyword, ¬Broken members keyword) ∧ r.size = (keys members).dedup.length ∧
      ∀ keyword, Option.Rel (fun json d => ∃ spec, Decode.declaration json = .ok spec ∧ spec.Same d)
        (lastOf members keyword) (r.resolve keyword) := by
  have loads : load text = ofMembers {} (sortedMembers [] members) := by
    unfold load
    rw [parsed]
    rfl
  obtain ⟨distinct, tame⟩ := tame_object.mp (settled_tame (parse_iff.mp parsed).2.finite)
  have paired := paired_sorted members
  have ascending : Ascending (sortedMembers [] members) := sortedMembers_ascending .nil members
  rw [loads]
  cases result : ofMembers {} (sortedMembers [] members) with
  | ok r =>
      right
      have declared := ofMembers_resolve ascending.distinct result
      refine ⟨r, rfl, ?_, ?_, fun keyword => lastOf_eq members keyword ▸ paired.resolve tame distinct result keyword⟩
      · intro keyword bad
        obtain ⟨json, found, refused⟩ := (broken_iff tame).mp bad
        have decodes := declared keyword
        rw [found] at decodes
        generalize r.resolve keyword = spec at decodes
        cases decodes with
        | some decodes => exact refused _ decodes
      · obtain ⟨moved, related, moves⟩ := paired
        rw [ofMembers_size ascending.distinct result, ← moves.length_eq, ← related.length_eq, ← keys_settledMembers]
        exact (List.length_map _).symm
  | error why =>
      left
      obtain ⟨before, keyword, json, cause, after, split, first, broken, rfl⟩ := ofMembers_blames result
      refine ⟨keyword, cause, rfl, (broken_iff tame).mpr ⟨json, ?_, fun d decoded => ?_⟩, ?_⟩
      · rw [get?_eq_some ascending.distinct, split]
        exact List.mem_append_right _ List.mem_cons_self
      · cases broken.symm.trans decoded
      · intro other bad
        obtain ⟨found, there, refused⟩ := (broken_iff tame).mp bad
        have inside := mem_of_get? there
        rw [split] at ascending inside
        rcases ascending_before ascending inside with early | late
        · obtain ⟨d, decodes⟩ := first _ early
          exact absurd decodes (refused d)
        · exact le_bytes.mp late

theorem malformed_message (other : text.toList.head? ≠ some 'i') (keyword : String) (cause : Malformed) :
    (LoadError.malformed keyword cause).message ≠ text := by
  intro same
  have whole : text = "invalid declaration for keyword `" ++ keyword ++ "`" := same.symm
  rw [whole, String.toList_append, String.toList_append] at other
  exact other rfl

theorem message_notJson {why : LoadError} : why.message = "registry is not valid JSON" ↔ why = .notJson := by
  cases why with
  | notJson => exact iff_of_true rfl rfl
  | notObject => exact iff_of_false (by decide) nofun
  | malformed => exact iff_of_false (malformed_message (by decide) _ _) nofun

theorem message_notObject {why : LoadError} :
    why.message = "registry must be a JSON object of keyword declarations" ↔ why = .notObject := by
  cases why with
  | notJson => exact iff_of_false (by decide) nofun
  | notObject => exact iff_of_true rfl rfl
  | malformed => exact iff_of_false (malformed_message (by decide) _ _) nofun

theorem ofMembers_malformed (failed : ofMembers r members = .error why) :
    ∃ keyword cause, why = .malformed keyword cause := by
  obtain ⟨_, keyword, _, cause, _, _, _, _, same⟩ := ofMembers_blames failed
  exact ⟨keyword, cause, same⟩

theorem load_notJson : load text = .error .notJson ↔ parse text = none := by
  unfold load
  cases parsed : parse text with
  | none => exact iff_of_true rfl rfl
  | some json =>
      refine iff_of_false ?_ nofun
      cases json with
      | object members =>
          intro failed
          obtain ⟨_, _, other⟩ := ofMembers_malformed failed
          cases other
      | _ => nofun

theorem load_notObject : load text = .error .notObject ↔
    ∃ json, parse text = some json ∧ ∀ members, json ≠ .object members := by
  unfold load
  cases parsed : parse text with
  | none => exact iff_of_false nofun nofun
  | some json =>
      cases json with
      | object members =>
          refine iff_of_false (fun failed => ?_) ?_
          · obtain ⟨_, _, other⟩ := ofMembers_malformed failed
            cases other
          · rintro ⟨_, ⟨⟩, other⟩
            exact other members rfl
      | _ => exact iff_of_true rfl ⟨_, rfl, nofun⟩

theorem load_reordered (written : Written text json) (single : json.Single) (reordered : json.Reordered moved)
    (other : Written text' moved) : load text' = load text := by
  have same : (parse text').map sorted = (parse text).map sorted := by
    cases parsed : parse text with
    | some found =>
        obtain rfl := written.unique parsed
        rw [parse_iff.mpr ⟨other, reordered.within (parse_iff.mp parsed).2⟩]
        exact congrArg some (sorted_eq reordered single).symm
    | none =>
        cases again : parse text' with
        | none => rfl
        | some found =>
            obtain rfl := other.unique again
            have back := parse_iff.mpr ⟨written, reordered.symm.within (parse_iff.mp again).2⟩
            rw [parsed] at back
            cases back
  have loads (text : String) : load text = ((parse text).map sorted).elim (.error .notJson) ofJson := by
    unfold load
    cases parse text <;> rfl
  rw [loads, loads, same]

-- Which texts are refused and why, what is made of the others, and that the order of members is nothing to it.
theorem load_exact (text : String) :
    (Refuses text "registry is not valid JSON" ↔ ¬∃ json, Written text json ∧ json.Within) ∧
    (Refuses text "registry must be a JSON object of keyword declarations" ↔
      ∃ json, (Written text json ∧ json.Within) ∧ ∀ members, json ≠ .object members) ∧
    (∀ members, Written text (.object members) → (object members).Within →
      ((∃ keyword, Broken members keyword) → ∃ keyword, Blamed members keyword ∧
        Refuses text s!"invalid declaration for keyword `{keyword}`") ∧
      ((∀ keyword, ¬Broken members keyword) → ∃ r, load text = .ok r ∧ r.size = (keys members).dedup.length ∧
        ∀ keyword, Option.Rel (fun json d => ∃ spec, Decode.declaration json = .ok spec ∧ spec.Same d)
          (lastOf members keyword) (r.resolve keyword))) ∧
    ∀ json moved other, Written text json → json.Single → json.Reordered moved → Written other moved →
      load other = load text := by
  refine ⟨?_, ?_, ?_, fun json moved other written single reordered again =>
    load_reordered written single reordered again⟩
  · have refused : Refuses text "registry is not valid JSON" ↔ load text = .error .notJson := by
      unfold Refuses
      simp only [message_notJson, exists_eq_right]
    rw [refused, load_notJson, Option.eq_none_iff_forall_ne_some]
    simp only [ne_eq, parse_iff, not_exists]
  · have refused : Refuses text "registry must be a JSON object of keyword declarations" ↔
        load text = .error .notObject := by
      unfold Refuses
      simp only [message_notObject, exists_eq_right]
    rw [refused, load_notObject]
    simp only [parse_iff]
  · intro members written within
    rcases load_members (parse_iff.mpr ⟨written, within⟩) with ⟨keyword, cause, failed, blamed⟩ | ⟨r, loaded, sound, rest⟩
    · refine ⟨fun _ => ⟨keyword, blamed, _, failed, rfl⟩, fun sound => absurd blamed.broken (sound keyword)⟩
    · exact ⟨fun ⟨keyword, broken⟩ => absurd broken (sound keyword), fun _ => ⟨r, loaded, rest⟩⟩

theorem load_exact_of_repeated :
    Refuses ((ofValue (.map [("web", .null), ("host", .map [("kind", .str "tree")]), ("alias", .int 1),
      ("web", .map [("kind", .str "map")])])).render .compact) "invalid declaration for keyword `alias`" ∧
    ∃ r, load ((ofValue (.map [("web", .null), ("web", .map [("kind", .str "map")])])).render .compact) = .ok r ∧
      r.size = 1 := by
  constructor
  · have parsed := @parse_plain (.map [("web", .null), ("host", .map [("kind", .str "tree")]), ("alias", .int 1),
      ("web", .map [("kind", .str "map")])]) rfl (by decide)
    obtain ⟨written, within⟩ := parse_iff.mp parsed
    obtain ⟨bad, _⟩ := (load_exact _).2.2.1 _ written within
    have first : Broken (ofEntries [("web", .null), ("host", .map [("kind", .str "tree")]), ("alias", .int 1),
      ("web", .map [("kind", .str "map")])]) "alias" := ⟨_, rfl, nofun⟩
    obtain ⟨keyword, ⟨⟨json, found, refused⟩, least⟩, refuses⟩ := bad ⟨"alias", first⟩
    have order := le_bytes.mpr (least "alias" first)
    -- of the keywords that stand there, one is declared and another comes later
    by_cases web : "web" = keyword
    · subst web
      cases found
      exact absurd rfl (refused _)
    by_cases host : "host" = keyword
    · subst host
      exact absurd order (by decide)
    by_cases same : "alias" = keyword
    · subst same
      exact refuses
    · simp [lastOf, ofEntries, get?, web, host, same] at found
  · have parsed := @parse_plain (.map [("web", .null), ("web", .map [("kind", .str "map")])]) rfl (by decide)
    obtain ⟨written, within⟩ := parse_iff.mp parsed
    obtain ⟨_, sound⟩ := (load_exact _).2.2.1 _ written within
    obtain ⟨r, loaded, size, _⟩ := sound (by
      rintro keyword ⟨json, found, refused⟩
      by_cases same : "web" = keyword
      · subst same
        cases found
        exact refused _ rfl
      · simp [lastOf, ofEntries, get?, same] at found)
    exact ⟨r, loaded, size⟩

end Registry

end KeywordConfig
