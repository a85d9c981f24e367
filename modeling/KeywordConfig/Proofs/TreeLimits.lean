import KeywordConfig.Proofs.Decoding
import KeywordConfig.Proofs.JsonGrammar

namespace KeywordConfig
open Keyed

namespace Json

theorem separated_subset {word : α → List Lexeme} (inside : part ∈ parts) : word part ⊆ separated word parts := by
  intro lexeme found
  cases parts with
  | nil => cases inside
  | cons first rest =>
      rcases List.mem_cons.mp inside with rfl | later
      · exact List.mem_append_left _ found
      · exact List.mem_append_right _ (List.mem_flatMap.mpr ⟨part, later, List.mem_cons_of_mem _ found⟩)

theorem item_words (inside : item ∈ items) : words item ⊆ words (.array items) := by
  intro lexeme found
  rw [words_array]
  exact List.mem_cons_of_mem _ (List.mem_append_left _ (separated_subset inside found))

theorem member_words (inside : member ∈ members) : words member.2 ⊆ words (.object members) := by
  intro lexeme found
  rw [words_object]
  refine List.mem_cons_of_mem _ (List.mem_append_left _ (separated_subset inside ?_))
  exact List.mem_cons_of_mem _ (List.mem_cons_of_mem _ found)

-- Finite floats are equal to themselves, so what is kept of a tree that is read is tame.
theorem settled_tame (finite : ∀ lexeme ∈ words json, lexeme.Finite) : json.settled.Tame := by
  induction json using inner_induction with
  | float x => exact .float (Decimal.isFinite_beq (finite _ (List.mem_singleton_self _) x rfl))
  | large n => exact .large (Decimal.isFinite_beq (floatOfNat_isFinite n.toNat_lt))
  | array items ih =>
      rw [settled, settledItems_map]
      refine .array (List.forall_mem_map.mpr ?_)
      exact fun item inside => ih item inside fun lexeme found => finite lexeme (item_words inside found)
  | object members ih =>
      refine .object (settledMembers_distinct members) ?_
      intro entry inside
      obtain ⟨member, there, rfl⟩ := mem_settledMembers inside
      exact ih member there fun lexeme found => finite lexeme (member_words there found)
  | _ => constructor

theorem mem_separated {word : α → List Lexeme} (inside : lexeme ∈ separated word parts) :
    lexeme = .comma ∨ ∃ part ∈ parts, lexeme ∈ word part := by
  cases parts with
  | nil => cases inside
  | cons first rest =>
      rcases List.mem_append.mp inside with here | later
      · exact .inr ⟨first, List.mem_cons_self, here⟩
      · obtain ⟨part, there, found⟩ := List.mem_flatMap.mp later
        rcases List.mem_cons.mp found with comma | found
        · exact .inl comma
        · exact .inr ⟨part, List.mem_cons_of_mem _ there, found⟩

theorem finite_array (each : ∀ item ∈ items, ∀ lexeme ∈ words item, lexeme.Finite) :
    ∀ lexeme ∈ words (.array items), lexeme.Finite := by
  rw [words_array, List.forall_mem_cons, List.forall_mem_append]
  refine ⟨nofun, fun lexeme inside => ?_, List.forall_mem_singleton.mpr nofun⟩
  rcases mem_separated inside with rfl | ⟨item, there, found⟩
  · exact nofun
  · exact each item there lexeme found

theorem finite_object (each : ∀ member ∈ members, ∀ lexeme ∈ words member.2, lexeme.Finite) :
    ∀ lexeme ∈ words (.object members), lexeme.Finite := by
  rw [words_object, List.forall_mem_cons, List.forall_mem_append]
  refine ⟨nofun, fun lexeme inside => ?_, List.forall_mem_singleton.mpr nofun⟩
  rcases mem_separated inside with rfl | ⟨member, there, found⟩
  · exact nofun
  · rcases List.mem_cons.mp found with rfl | found
    · exact nofun
    rcases List.mem_cons.mp found with rfl | found
    · exact nofun
    · exact each member there lexeme found

theorem Reordered.finite (reordered : Reordered json other) (finite : ∀ lexeme ∈ words json, lexeme.Finite) :
    ∀ lexeme ∈ words other, lexeme.Finite := by
  induction json using inner_induction generalizing other with
  | array items ih =>
      cases reordered with
      | array related =>
          refine finite_array fun item inside => ?_
          obtain ⟨old, there, moved⟩ := forall₂_left (List.Forall₂.flip related) inside
          exact ih old there moved fun lexeme found => finite lexeme (item_words there found)
  | object members ih =>
      cases reordered with
      | object names values moves =>
          refine finite_object fun member inside => ?_
          obtain ⟨old, there, moved⟩ := forall₂_left (List.Forall₂.flip values) (moves.mem_iff.mpr inside)
          exact ih old there moved fun lexeme found => finite lexeme (member_words there found)
  | _ => cases reordered; exact finite

theorem itemsNesting_eq (related : List.Forall₂ (fun item other => item.nesting = other.nesting) items others) :
    itemsNesting items = itemsNesting others := by
  induction related with
  | nil => rfl
  | cons here _ ih => rw [itemsNesting, itemsNesting, here, ih]

theorem membersNesting_eq
    (related : List.Forall₂ (fun member other => member.2.nesting = other.2.nesting) members moved)
    (moves : moved.Perm others) : membersNesting members = membersNesting others := by
  have same : membersNesting members = membersNesting moved := by
    induction related generalizing others with
    | nil => rfl
    | cons here _ ih => rw [membersNesting, membersNesting, here, ih (.refl _)]
  rw [same]
  clear related same
  induction moves with
  | nil => rfl
  | cons _ _ ih => rw [membersNesting, membersNesting, ih]
  | swap =>
      simp only [membersNesting]
      omega
  | trans _ _ ih ih' => exact ih.trans ih'

theorem Reordered.nesting (reordered : Reordered json other) : json.nesting = other.nesting := by
  induction json using inner_induction generalizing other with
  | array items ih =>
      cases reordered with
      | array related =>
          exact congrArg (· + 1) (itemsNesting_eq (forall₂_step (fun item inside _ _ => ih item inside) related))
  | object members ih =>
      cases reordered with
      | object names values moves =>
          have related := forall₂_step (fun member inside _ _ moved => ih member inside moved) values
          exact congrArg (· + 1) (membersNesting_eq related moves)
  | _ => cases reordered; rfl

theorem Reordered.within (reordered : Reordered json other) (within : json.Within) : other.Within :=
  ⟨reordered.nesting ▸ within.shallow, reordered.finite within.finite⟩

end Json

end KeywordConfig
