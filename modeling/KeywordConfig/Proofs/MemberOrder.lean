import KeywordConfig.Json
import KeywordConfig.Proofs.Equality
import KeywordConfig.Proofs.Gathering
import Mathlib.Data.String.Basic

namespace KeywordConfig

namespace Keyed

theorem get?_append (entries others : Keyed α) (key : String) :
    get? (entries ++ others) key = (get? entries key).or (get? others key) := by
  induction entries with
  | nil => rfl
  | cons entry rest ih =>
      obtain ⟨name, value⟩ := entry
      by_cases same : name = key <;> simp [get?, same, ih]

theorem get?_values (f : α → β) (entries : Keyed α) (key : String) :
    get? (entries.map fun entry => (entry.1, f entry.2)) key = (get? entries key).map f := by
  induction entries with
  | nil => rfl
  | cons entry rest ih =>
      obtain ⟨name, value⟩ := entry
      by_cases same : name = key <;> simp [get?, same, ih]

theorem any_name (entries : Keyed α) (name : String) : entries.any (·.1 == name) = true ↔ name ∈ keys entries := by
  simp [keys]

theorem Distinct.perm {entries others : Keyed α} (moves : entries.Perm others) (distinct : Distinct entries) :
    Distinct others :=
  (moves.map Prod.fst).nodup_iff.mp distinct

theorem get?_perm {entries others : Keyed α} (moves : entries.Perm others) (distinct : Distinct entries)
    (key : String) : get? entries key = get? others key := by
  apply Option.ext
  intro value
  rw [get?_eq_some distinct, get?_eq_some (distinct.perm moves), moves.mem_iff]

theorem get?_under {r : α → β → Prop} {entries : Keyed α} {others : Keyed β}
    (related : List.Forall₂ (Under r) entries others) (key : String) :
    Option.Rel r (get? entries key) (get? others key) := by
  induction related with
  | nil => exact .none
  | @cons entry other _ _ here _ ih =>
      obtain ⟨name, value⟩ := entry
      obtain ⟨_, found⟩ := other
      obtain ⟨rfl, here⟩ := here
      by_cases same : name = key
      · simpa [get?, same] using here
      · simpa [get?, same] using ih

def Ascending (entries : Keyed α) : Prop := entries.Pairwise fun entry other => entry.1 < other.1

theorem Ascending.distinct {entries : Keyed α} (ascending : Ascending entries) : Distinct entries :=
  (List.pairwise_map.mpr ascending).imp fun less => ne_of_lt less

-- What is found under each name determines a list in ascending order.
theorem Ascending.ext {entries others : Keyed α} (ascending : Ascending entries) (ascends : Ascending others)
    (same : ∀ key, get? entries key = get? others key) : entries = others := by
  have members : ∀ entry, entry ∈ entries ↔ entry ∈ others := by
    rintro ⟨key, value⟩
    rw [← get?_eq_some ascending.distinct, ← get?_eq_some ascends.distinct, same]
  have apart : entries.Nodup := List.Nodup.of_map Prod.fst ascending.distinct
  have apart' : others.Nodup := List.Nodup.of_map Prod.fst ascends.distinct
  refine List.Perm.eq_of_pairwise ?_ ascending ascends ((List.perm_ext_iff_of_nodup apart apart').mpr members)
  intro entry other _ _ less more
  exact absurd less (lt_asymm more)

end Keyed

namespace Json
open Keyed

theorem inner_induction {motive : Json → Prop} (null : motive .null) (bool : ∀ b, motive (.bool b))
    (int : ∀ i, motive (.int i)) (large : ∀ n, motive (.large n)) (float : ∀ x, motive (.float x))
    (str : ∀ s, motive (.str s))
    (array : ∀ items, (∀ item ∈ items, motive item) → motive (.array items))
    (object : ∀ members, (∀ member ∈ members, motive member.2) → motive (.object members)) :
    (json : Json) → motive json
  | .null => null
  | .bool b => bool b
  | .int i => int i
  | .large n => large n
  | .float x => float x
  | .str s => str s
  | .array items => array items fun item _ => inner_induction null bool int large float str array object item
  | .object members => object members fun member inside =>
      have smaller := List.sizeOf_lt_of_mem inside
      have inner : sizeOf member.2 < sizeOf member := by
        cases member
        simp only [Prod.mk.sizeOf_spec]
        omega
      inner_induction null bool int large float str array object member.2

-- No object inside repeats a name.
inductive Single : Json → Prop where
  | null : Single .null
  | bool : Single (.bool b)
  | int : Single (.int i)
  | large : Single (.large n)
  | float : Single (.float x)
  | str : Single (.str s)
  | array : (∀ item ∈ items, Single item) → Single (.array items)
  | object : Distinct members → (∀ member ∈ members, Single member.2) → Single (.object members)

-- The same tree with the members of its objects in another order, at any depth.
inductive Reordered : Json → Json → Prop where
  | null : Reordered .null .null
  | bool : Reordered (.bool b) (.bool b)
  | int : Reordered (.int i) (.int i)
  | large : Reordered (.large n) (.large n)
  | float : Reordered (.float x) (.float x)
  | str : Reordered (.str s) (.str s)
  | array : List.Forall₂ Reordered items others → Reordered (.array items) (.array others)
  | object : keys members = keys moved → List.Forall₂ (fun member other => Reordered member.2 other.2) members moved →
      moved.Perm others → Reordered (.object members) (.object others)

mutual

-- Of members that repeat a name only the last is kept, at any depth.
def settled : Json → Json
  | .array items => .array (settledItems items)
  | .object members => .object (settledMembers members)
  | json => json

def settledItems : List Json → List Json
  | [] => []
  | item :: rest => settled item :: settledItems rest

def settledMembers : List (String × Json) → List (String × Json)
  | [] => []
  | (name, member) :: rest =>
      if rest.any (·.1 == name) then settledMembers rest else (name, settled member) :: settledMembers rest

end

theorem single_object : (object members).Single ↔ Distinct members ∧ ∀ member ∈ members, member.2.Single := by
  constructor
  · intro single
    cases single with | object distinct all => exact ⟨distinct, all⟩
  · intro both
    exact .object both.1 both.2

theorem reordered_object : Reordered (.object members) (.object others) ↔
    ∃ moved, List.Forall₂ (Under Reordered) members moved ∧ moved.Perm others := by
  constructor
  · intro reordered
    cases reordered with
    | object names values moves => exact ⟨_, under_iff.mpr ⟨names, values⟩, moves⟩
  · intro both
    obtain ⟨moved, related, moves⟩ := both
    obtain ⟨names, values⟩ := under_iff.mp related
    exact .object names values moves

theorem sortedItems_map (items : List Json) : sortedItems items = items.map sorted := by
  induction items with
  | nil => rfl
  | cons item rest ih => rw [sortedItems, ih, List.map_cons]

theorem settledItems_map (items : List Json) : settledItems items = items.map settled := by
  induction items with
  | nil => rfl
  | cons item rest ih => rw [settledItems, ih, List.map_cons]

theorem get?_sortInto (members : Keyed Json) (name key : String) (json : Json) :
    get? (sortInto members name json) key = if name = key then some json else get? members key := by
  induction members with
  | nil => rfl
  | cons member rest ih =>
      obtain ⟨other, old⟩ := member
      unfold sortInto
      split
      · rename_i same
        subst same
        by_cases found : name = key <;> simp [get?, found]
      · rename_i apart
        split
        · rfl
        · by_cases found : name = key
          · subst found
            simp [get?, ih, Ne.symm apart]
          · simp [get?, ih, found]

theorem mem_sortInto (inside : entry ∈ sortInto members name json) : entry ∈ members ∨ entry = (name, json) := by
  induction members with
  | nil => exact .inr (List.mem_singleton.mp inside)
  | cons member rest ih =>
      obtain ⟨other, old⟩ := member
      unfold sortInto at inside
      split at inside
      · rcases List.mem_cons.mp inside with new | later
        · exact .inr new
        · exact .inl (List.mem_cons_of_mem _ later)
      · split at inside
        · rcases List.mem_cons.mp inside with new | old
          · exact .inr new
          · exact .inl old
        · rcases List.mem_cons.mp inside with rfl | later
          · exact .inl List.mem_cons_self
          · exact (ih later).imp (List.mem_cons_of_mem _) id

theorem sortInto_ascending (ascending : Ascending members) (name : String) (json : Json) :
    Ascending (sortInto members name json) := by
  induction members with
  | nil => exact List.pairwise_singleton _ _
  | cons member rest ih =>
      obtain ⟨other, old⟩ := member
      obtain ⟨least, later⟩ := List.pairwise_cons.mp ascending
      unfold sortInto
      split
      · rename_i same
        subst same
        exact List.pairwise_cons.mpr ⟨least, later⟩
      · rename_i apart
        split
        · rename_i before
          refine List.pairwise_cons.mpr ⟨?_, ascending⟩
          intro entry inside
          rcases List.mem_cons.mp inside with rfl | behind
          · exact before
          · exact lt_trans before (least entry behind)
        · rename_i behind
          have after : other < name := lt_of_le_of_ne (not_lt.mp behind) (Ne.symm apart)
          refine List.pairwise_cons.mpr ⟨?_, ih later⟩
          intro entry inside
          rcases mem_sortInto inside with old | rfl
          · exact least entry old
          · exact after

theorem sortedMembers_ascending (ascending : Ascending done) (members : Keyed Json) :
    Ascending (sortedMembers done members) := by
  induction members generalizing done with
  | nil => exact ascending
  | cons member rest ih => exact ih (sortInto_ascending ascending _ _)

theorem get?_sortedMembers (done members : Keyed Json) (key : String) :
    get? (sortedMembers done members) key = ((get? members.reverse key).map sorted).or (get? done key) := by
  induction members generalizing done with
  | nil => rfl
  | cons member rest ih =>
      obtain ⟨name, json⟩ := member
      rw [sortedMembers, ih, get?_sortInto, List.reverse_cons, get?_append]
      by_cases same : name = key <;> cases get? rest.reverse key <;> simp [get?, same]

theorem get?_settledMembers (members : Keyed Json) (key : String) :
    get? (settledMembers members) key = (get? members.reverse key).map settled := by
  induction members with
  | nil => rfl
  | cons member rest ih =>
      obtain ⟨name, json⟩ := member
      have present : rest.any (·.1 == name) = (get? rest.reverse name).isSome := by
        rw [Bool.eq_iff_iff, Option.isSome_iff_ne_none, ne_eq, get?_eq_none, not_not, any_name]
        simp [keys]
      rw [settledMembers, present, List.reverse_cons, get?_append]
      cases found : get? rest.reverse name with
      | some last =>
          rw [Option.isSome_some, if_pos rfl, ih]
          by_cases same : name = key
          · subst same
            simp [found]
          · simp [get?, same]
      | none =>
          rw [Option.isSome_none, if_neg (by decide)]
          by_cases same : name = key
          · subst same
            simp [get?, found]
          · simp [get?, same, ih]

theorem mem_settledMembers (inside : entry ∈ settledMembers members) :
    ∃ member ∈ members, entry = (member.1, member.2.settled) := by
  induction members with
  | nil => cases inside
  | cons member rest ih =>
      obtain ⟨name, json⟩ := member
      rw [settledMembers] at inside
      split at inside
      · obtain ⟨found, there, same⟩ := ih inside
        exact ⟨found, List.mem_cons_of_mem _ there, same⟩
      · rcases List.mem_cons.mp inside with rfl | later
        · exact ⟨_, List.mem_cons_self, rfl⟩
        · obtain ⟨found, there, same⟩ := ih later
          exact ⟨found, List.mem_cons_of_mem _ there, same⟩

theorem settledMembers_distinct (members : Keyed Json) : Distinct (settledMembers members) := by
  induction members with
  | nil => exact List.nodup_nil
  | cons member rest ih =>
      obtain ⟨name, json⟩ := member
      rw [settledMembers]
      split
      · exact ih
      · rename_i last
        refine List.nodup_cons.mpr ⟨?_, ih⟩
        intro again
        obtain ⟨entry, inside, same⟩ := List.mem_map.mp again
        obtain ⟨member, there, rfl⟩ := mem_settledMembers inside
        exact last ((any_name rest name).mpr (List.mem_map.mpr ⟨member, there, same⟩))

theorem settled_single (json : Json) : json.settled.Single := by
  induction json using inner_induction with
  | array items ih =>
      rw [settled, settledItems_map]
      exact .array (List.forall_mem_map.mpr ih)
  | object members ih =>
      refine .object (settledMembers_distinct members) ?_
      intro entry inside
      obtain ⟨member, there, rfl⟩ := mem_settledMembers inside
      exact ih member there
  | _ => constructor

theorem settledMembers_eq (distinct : Distinct members) (kept : ∀ member ∈ members, member.2.settled = member.2) :
    settledMembers members = members := by
  induction members with
  | nil => rfl
  | cons member rest ih =>
      obtain ⟨name, json⟩ := member
      obtain ⟨fresh, distinct⟩ := List.nodup_cons.mp distinct
      obtain ⟨first, others⟩ := List.forall_mem_cons.mp kept
      rw [settledMembers, if_neg fun again => fresh ((any_name rest name).mp again), first, ih distinct others]

theorem settled_eq {json : Json} (single : json.Single) : json.settled = json := by
  induction single with
  | array _ ih =>
      rw [settled, settledItems_map]
      exact congrArg array ((List.map_congr_left ih).trans (List.map_id _))
  | object distinct _ ih => exact congrArg object (settledMembers_eq distinct ih)
  | _ => rfl

theorem sorted_settled (json : Json) : json.settled.sorted = json.sorted := by
  induction json using inner_induction with
  | array items ih =>
      rw [settled, settledItems_map, sorted, sorted, sortedItems_map, sortedItems_map, List.map_map]
      exact congrArg array (List.map_congr_left ih)
  | object members ih =>
      rw [settled, sorted, sorted]
      refine congrArg object (Ascending.ext ?_ ?_ ?_)
      · exact sortedMembers_ascending .nil _
      · exact sortedMembers_ascending .nil _
      · intro key
        have kept := get?_perm (List.reverse_perm (settledMembers members)).symm (settledMembers_distinct members) key
        rw [get?_sortedMembers, get?_sortedMembers, ← kept, get?_settledMembers]
        cases found : get? members.reverse key with
        | none => rfl
        | some json =>
            have inside := List.mem_reverse.mp (mem_of_get? found)
            simp only [Option.map_some, ih _ inside]
  | _ => rfl

theorem Reordered.single (reordered : Reordered json other) (single : json.Single) : other.Single := by
  induction json using inner_induction generalizing other with
  | array items ih =>
      cases reordered with
      | array related =>
          cases single with
          | array all =>
              refine .array ?_
              intro item inside
              obtain ⟨old, there, moved⟩ := forall₂_left (List.Forall₂.flip related) inside
              exact ih old there moved (all old there)
  | object members ih =>
      cases reordered with
      | object names values moves =>
          obtain ⟨distinct, all⟩ := single_object.mp single
          unfold Distinct at distinct
          rw [names] at distinct
          refine single_object.mpr ⟨Distinct.perm moves distinct, ?_⟩
          intro entry inside
          obtain ⟨old, there, moved⟩ := forall₂_left (List.Forall₂.flip values) (moves.mem_iff.mpr inside)
          exact ih old there moved (all old there)
  | _ => cases reordered; constructor

theorem get?_sorted (distinct : Distinct members) (key : String) :
    get? (sortedMembers [] members) key = (get? members key).map sorted := by
  rw [get?_sortedMembers, ← get?_perm (List.reverse_perm members).symm distinct, get?, Option.or_none]

theorem reordered_sorted (single : json.Single) : Reordered json json.sorted := by
  induction json using inner_induction with
  | array items ih =>
      cases single with
      | array all =>
          rw [sorted, sortedItems_map]
          refine .array (List.forall₂_map_right_iff.mpr (List.forall₂_same.mpr ?_))
          exact fun item inside => ih item inside (all item inside)
  | object members ih =>
      obtain ⟨distinct, all⟩ := single_object.mp single
      have ascending : Ascending (sortedMembers [] members) := sortedMembers_ascending .nil _
      have moved : Distinct (members.map fun member => (member.1, member.2.sorted)) := by
        unfold Distinct keys
        rwa [List.map_map]
      refine reordered_object.mpr ⟨members.map fun member => (member.1, member.2.sorted), ?_, ?_⟩
      · refine List.forall₂_map_right_iff.mpr (List.forall₂_same.mpr ?_)
        exact fun member inside => ⟨rfl, ih member inside (all member inside)⟩
      · refine (List.perm_ext_iff_of_nodup moved.of_map ascending.distinct.of_map).mpr ?_
        rintro ⟨key, json⟩
        rw [← get?_eq_some moved, ← get?_eq_some ascending.distinct, get?_values, get?_sorted distinct]
  | _ => constructor

theorem sorted_eq (reordered : Reordered json other) (single : json.Single) : json.sorted = other.sorted := by
  induction json using inner_induction generalizing other with
  | array items ih =>
      cases reordered with
      | array related =>
          cases single with
          | array all =>
              have each := forall₂_step (fun item inside _ _ moved => ih item inside moved (all item inside)) related
              rw [sorted, sorted, sortedItems_map, sortedItems_map]
              rw [← List.forall₂_map_right_iff, ← List.forall₂_map_left_iff, List.forall₂_eq_eq_eq] at each
              exact congrArg array each
  | object members ih =>
      have after := reordered.single single
      cases reordered with
      | object names values moves =>
      obtain ⟨distinct, all⟩ := single_object.mp single
      obtain ⟨last, _⟩ := single_object.mp after
      rw [sorted, sorted]
      refine congrArg object (Ascending.ext (sortedMembers_ascending .nil _) (sortedMembers_ascending .nil _) ?_)
      intro key
      rw [get?_sorted distinct, get?_sorted last, ← get?_perm moves (Distinct.perm moves.symm last)]
      have related := under_iff.mpr ⟨names, values⟩
      have found := get?_under (r := fun json other => json.sorted = other.sorted)
        (forall₂_step (fun member inside _ _ both => ⟨both.1, ih member inside both.2 (all member inside)⟩) related) key
      generalize get? members key = first at found ⊢
      generalize get? _ key = second at found ⊢
      cases found with
      | some same => exact congrArg some same
      | none => rfl
  | _ => cases reordered; rfl

theorem Reordered.symm (reordered : Reordered json other) : Reordered other json := by
  induction json using inner_induction generalizing other with
  | array items ih =>
      cases reordered with
      | array related =>
          exact .array (List.Forall₂.flip (forall₂_step (fun item inside _ _ => ih item inside) related))
  | object members ih =>
      cases reordered with
      | object names values moves =>
          have related := under_iff.mpr ⟨names, values⟩
          have returned : List.Forall₂ (Under Reordered) _ members := List.Forall₂.flip
            (forall₂_step (fun member inside _ _ both => ⟨both.1.symm, ih member inside both.2⟩) related)
          exact reordered_object.mpr (List.perm_comp_forall₂ moves.symm returned)
  | _ => cases reordered; constructor

end Json

end KeywordConfig
