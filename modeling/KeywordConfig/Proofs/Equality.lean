import KeywordConfig.Constraint
import Mathlib.Data.List.Nodup
import Mathlib.Data.List.Perm.Basic
import Mathlib.Tactic.MkIffOfInductiveProp

namespace KeywordConfig

section

variable {r : α → β → Prop} {s : β → γ → Prop} {t : α → γ → Prop}

theorem forall₂_step {q : α → β → Prop} (each : ∀ a ∈ as, ∀ b ∈ bs, q a b → r a b)
    (related : List.Forall₂ q as bs) : List.Forall₂ r as bs := by
  induction related with
  | nil => exact .nil
  | cons here _ ih =>
      refine .cons (each _ List.mem_cons_self _ List.mem_cons_self here) (ih ?_)
      intro a member b inside
      exact each a (List.mem_cons_of_mem _ member) b (List.mem_cons_of_mem _ inside)

theorem forall₂_comp (each : ∀ a ∈ as, ∀ b c, r a b → s b c → t a c)
    (first : List.Forall₂ r as bs) (second : List.Forall₂ s bs cs) : List.Forall₂ t as cs := by
  induction first generalizing cs with
  | nil => cases second; exact .nil
  | cons here _ ih =>
      cases second with
      | cons there later =>
          obtain ⟨step, steps⟩ := List.forall_mem_cons.mp each
          exact .cons (step _ _ here there) (ih steps later)

theorem forall₂_left (related : List.Forall₂ r as bs) (member : a ∈ as) : ∃ b ∈ bs, r a b := by
  induction related with
  | nil => cases member
  | cons here _ ih =>
      rcases List.mem_cons.mp member with rfl | later
      · exact ⟨_, List.mem_cons_self, here⟩
      · obtain ⟨b, inside, found⟩ := ih later
        exact ⟨b, List.mem_cons_of_mem _ inside, found⟩

theorem forall₂_choose (each : ∀ a ∈ as, ∃ b ∈ bs, r a b) : ∃ chosen, List.Forall₂ r as chosen ∧ chosen ⊆ bs := by
  induction as with
  | nil => exact ⟨[], .nil, List.nil_subset _⟩
  | cons a as ih =>
      obtain ⟨⟨b, inside, here⟩, others⟩ := List.forall_mem_cons.mp each
      obtain ⟨chosen, related, within⟩ := ih others
      exact ⟨b :: chosen, .cons here related, List.cons_subset.mpr ⟨inside, within⟩⟩

end

namespace Keyed

theorem get?_eq_some {entries : Keyed α} (distinct : Distinct entries) :
    get? entries key = some value ↔ (key, value) ∈ entries := by
  refine ⟨mem_of_get?, ?_⟩
  intro member
  induction entries with
  | nil => cases member
  | cons entry rest ih =>
      obtain ⟨name, first⟩ := entry
      obtain ⟨fresh, later⟩ := List.nodup_cons.mp distinct
      rcases List.mem_cons.mp member with same | inside
      · cases same
        simp [get?]
      · have apart : name ≠ key := fun same => fresh (List.mem_map.mpr ⟨_, inside, same.symm⟩)
        simp [get?, apart, ih later inside]

-- Entries of one key, with values that are related.
def Under (r : α → β → Prop) (entry : String × α) (other : String × β) : Prop :=
  entry.1 = other.1 ∧ r entry.2 other.2

theorem under_iff {r : α → β → Prop} {entries : Keyed α} {others : Keyed β} :
    List.Forall₂ (Under r) entries others ↔
    keys entries = keys others ∧ List.Forall₂ (fun entry other => r entry.2 other.2) entries others := by
  unfold Under keys
  rw [← List.forall₂_eq_eq_eq, List.forall₂_map_left_iff, List.forall₂_map_right_iff]
  constructor
  · intro both
    exact ⟨both.imp fun _ _ => And.left, both.imp fun _ _ => And.right⟩
  · intro both
    exact both.1.mp (fun _ _ => And.intro) both.2

end Keyed

namespace Value

theorem inner_induction {motive : Value → Prop} (null : motive .null) (bool : ∀ b, motive (.bool b))
    (int : ∀ i, motive (.int i)) (float : ∀ x, motive (.float x)) (str : ∀ s, motive (.str s))
    (list : ∀ items, (∀ item ∈ items, motive item) → motive (.list items))
    (map : ∀ entries, (∀ entry ∈ entries, motive entry.2) → motive (.map entries)) : (v : Value) → motive v
  | .null => null
  | .bool b => bool b
  | .int i => int i
  | .float x => float x
  | .str s => str s
  | .list items => list items fun item _ => inner_induction null bool int float str list map item
  | .map entries => map entries fun entry member =>
      have smaller := List.sizeOf_lt_of_mem member
      have inner : sizeOf entry.2 < sizeOf entry := by
        cases entry
        simp only [Prod.mk.sizeOf_spec]
        omega
      inner_induction null bool int float str list map entry.2

@[mk_iff]
inductive Alike (floats : Float → Float → Prop) : Value → Value → Prop where
  | null : Alike floats .null .null
  | bool : Alike floats (.bool b) (.bool b)
  | int : Alike floats (.int i) (.int i)
  | float : floats x y → Alike floats (.float x) (.float y)
  | str : Alike floats (.str s) (.str s)
  | list : List.Forall₂ (Alike floats) items others → Alike floats (.list items) (.list others)
  | map : Keyed.keys entries = Keyed.keys moved →
      List.Forall₂ (fun entry other => Alike floats entry.2 other.2) entries moved → moved.Perm others →
      Alike floats (.map entries) (.map others)

-- Equality by content: floats are equal as numbers, and keys may stand in any order.
def Equal : Value → Value → Prop := Alike fun x y => (x == y) = true

-- The same value with the keys of its mappings in another order, at any depth.
def Reordered : Value → Value → Prop := Alike Eq

theorem alike_list {floats : Float → Float → Prop} :
    Alike floats (.list items) (.list others) ↔ List.Forall₂ (Alike floats) items others := by
  constructor
  · intro alike
    cases alike with | list related => exact related
  · exact .list

theorem alike_map {floats : Float → Float → Prop} : Alike floats (.map entries) (.map others) ↔
    ∃ moved, List.Forall₂ (Keyed.Under (Alike floats)) entries moved ∧ moved.Perm others := by
  constructor
  · intro alike
    cases alike with
    | map keys values moves => exact ⟨_, Keyed.under_iff.mpr ⟨keys, values⟩, moves⟩
  · intro both
    obtain ⟨moved, related, moves⟩ := both
    obtain ⟨keys, values⟩ := Keyed.under_iff.mp related
    exact .map keys values moves

theorem Alike.symm {r s : Float → Float → Prop} (back : ∀ x y, r x y → s y x) (alike : Alike r a b) : Alike s b a := by
  induction a using inner_induction generalizing b with
  | null => cases alike; exact .null
  | bool => cases alike; exact .bool
  | int => cases alike; exact .int
  | str => cases alike; exact .str
  | float => cases alike with | float related => exact .float (back _ _ related)
  | list items ih =>
      cases alike with
      | list related => exact .list (List.Forall₂.flip (forall₂_step (fun item member _ _ => ih item member) related))
  | map entries ih =>
      cases alike with | map keys values moves =>
      have related := Keyed.under_iff.mpr ⟨keys, values⟩
      have returned := List.Forall₂.flip (R := Keyed.Under (Alike s))
        (forall₂_step (fun entry member _ _ both => ⟨both.1.symm, ih entry member both.2⟩) related)
      exact alike_map.mpr (List.perm_comp_forall₂ moves.symm returned)

theorem Alike.trans {r s t : Float → Float → Prop} (both : ∀ x y z, r x y → s y z → t x z)
    (first : Alike r a b) (second : Alike s b c) : Alike t a c := by
  induction a using inner_induction generalizing b c with
  | null => cases first; cases second; exact .null
  | bool => cases first; cases second; exact .bool
  | int => cases first; cases second; exact .int
  | str => cases first; cases second; exact .str
  | float =>
      cases first with | float here =>
      cases second with | float there => exact .float (both _ _ _ here there)
  | list items ih =>
      cases first with | list here =>
      cases second with
      | list there =>
          exact .list (forall₂_comp (fun item member b c (one : Alike r item b) (two : Alike s b c) =>
            ih item member one two) here there)
  | map entries ih =>
      cases first with | map keys values moves =>
      cases second with | map others found further =>
      -- The second step can be taken before the first reordering, which is then followed by the second.
      obtain ⟨middle, there, again⟩ := List.perm_comp_forall₂ moves (Keyed.under_iff.mpr ⟨others, found⟩)
      have along : List.Forall₂ (Keyed.Under (Alike t)) entries middle :=
        forall₂_comp (fun entry member _ _ one two => ⟨one.1.trans two.1, ih entry member one.2 two.2⟩)
          (Keyed.under_iff.mpr ⟨keys, values⟩) there
      exact alike_map.mpr ⟨middle, along, again.trans further⟩

theorem sameItems_iff : sameItems items others = true ↔ List.Forall₂ (fun a b => same a b = true) items others := by
  induction items generalizing others with
  | nil => cases others <;> simp [sameItems]
  | cons item items ih => cases others <;> simp [sameItems, ih]

theorem sameEntries_iff {entries others : Mapping} (distinct : Keyed.Distinct others) :
    sameEntries entries others = true ↔
      ∀ entry ∈ entries, ∃ other ∈ others, Keyed.Under (fun a b => same a b = true) entry other := by
  induction entries with
  | nil => simp [sameEntries]
  | cons entry entries ih =>
      obtain ⟨key, value⟩ := entry
      rw [sameEntries, Bool.and_eq_true, ih, List.forall_mem_cons]
      refine and_congr_left' ?_
      constructor
      · intro held
        split at held
        · rename_i found stands
          exact ⟨(key, found), Keyed.mem_of_get? stands, rfl, held⟩
        · cases held
      · rintro ⟨⟨name, found⟩, inside, rfl, held⟩
        simp only [(Keyed.get?_eq_some distinct).mpr inside, held]

-- As many entries, each with a partner: with no key twice, that is the same entries in some order.
theorem paired_iff {r : α → β → Prop} {entries : Keyed α} {others : Keyed β} (distinct : Keyed.Distinct entries) :
    (entries.length = others.length ∧ ∀ entry ∈ entries, ∃ other ∈ others, Keyed.Under r entry other) ↔
      ∃ moved, List.Forall₂ (Keyed.Under r) entries moved ∧ moved.Perm others := by
  constructor
  · intro both
    obtain ⟨length, partners⟩ := both
    obtain ⟨moved, related, within⟩ := forall₂_choose partners
    have keys : Keyed.keys entries = Keyed.keys moved := (Keyed.under_iff.mp related).1
    have apart : moved.Nodup := by
      rw [Keyed.Distinct, keys] at distinct
      exact List.Nodup.of_map Prod.fst distinct
    have all : others.length ≤ moved.length := Nat.le_of_eq (length.symm.trans related.length_eq)
    exact ⟨moved, related, (List.subperm_of_subset apart within).perm_of_length_le all⟩
  · intro both
    obtain ⟨moved, related, moves⟩ := both
    refine ⟨related.length_eq.trans moves.length_eq, ?_⟩
    intro entry member
    obtain ⟨other, inside, under⟩ := forall₂_left related member
    exact ⟨other, moves.mem_iff.mp inside, under⟩

theorem proper_list : (Value.list items).Proper ↔ ∀ item ∈ items, item.Proper := by
  constructor
  · intro proper
    cases proper with | list all => exact all
  · exact .list

theorem proper_map : (Value.map entries).Proper ↔ Keyed.Distinct entries ∧ ∀ entry ∈ entries, entry.2.Proper := by
  constructor
  · intro proper
    cases proper with | map distinct all => exact ⟨distinct, all⟩
  · intro both
    exact .map both.1 both.2

theorem same_iff (proper : a.Proper) (other : b.Proper) : same a b = true ↔ Equal a b := by
  unfold Equal
  induction a using inner_induction generalizing b with
  | null => cases b <;> rw [alike_iff] <;> simp [same]
  | bool =>
      rw [alike_iff]
      cases b with
      | bool => simpa [same] using eq_comm
      | _ => simp [same]
  | int =>
      rw [alike_iff]
      cases b with
      | int => simpa [same] using eq_comm
      | _ => simp [same]
  | str =>
      rw [alike_iff]
      cases b with
      | str => simpa [same] using eq_comm
      | _ => simp [same]
  | float => cases b <;> rw [alike_iff] <;> simp [same]
  | list items ih =>
      cases b with
      | list others =>
          rw [proper_list] at proper other
          rw [same, sameItems_iff, alike_list]
          have each (item) (member : item ∈ items) (found) (inside : found ∈ others) :=
            ih item member (proper item member) (other found inside)
          exact ⟨forall₂_step fun item member found inside => (each item member found inside).mp,
            forall₂_step fun item member found inside => (each item member found inside).mpr⟩
      | _ => rw [alike_iff]; simp [same]
  | map entries ih =>
      cases b with
      | map others =>
          rw [proper_map] at proper other
          rw [same, Bool.and_eq_true, beq_iff_eq, sameEntries_iff other.1, paired_iff proper.1, alike_map]
          refine exists_congr fun moved => and_congr_left fun moves => ?_
          have each (entry) (member : entry ∈ entries) (found) (inside : found ∈ moved) :=
            ih entry member (proper.2 entry member) (other.2 found (moves.mem_iff.mp inside))
          constructor
          · exact forall₂_step fun entry member found inside both =>
              ⟨both.1, (each entry member found inside).mp both.2⟩
          · exact forall₂_step fun entry member found inside both =>
              ⟨both.1, (each entry member found inside).mpr both.2⟩
      | _ => rw [alike_iff]; simp [same]

-- What is alike to a value in which no key stands twice is such a value itself.
theorem Alike.proper {r : Float → Float → Prop} (alike : Alike r a b) (proper : b.Proper) : a.Proper := by
  induction a using inner_induction generalizing b with
  | list items ih =>
      cases alike with
      | list related =>
          rw [proper_list] at proper ⊢
          intro item member
          obtain ⟨other, inside, here⟩ := forall₂_left related member
          exact ih item member here (proper other inside)
  | map entries ih =>
      cases alike with
      | map keys values moves =>
          rw [proper_map] at proper ⊢
          have distinct : Keyed.Distinct entries := by
            rw [Keyed.Distinct, keys]
            exact (moves.map Prod.fst).nodup_iff.mpr proper.1
          refine ⟨distinct, ?_⟩
          intro entry member
          obtain ⟨other, inside, here⟩ := forall₂_left values member
          exact ih entry member here (proper.2 other (moves.mem_iff.mp inside))
  | _ => cases alike; constructor

theorem Reordered.symm (reordered : Reordered a b) : Reordered b a := Alike.symm (fun _ _ => Eq.symm) reordered

theorem Reordered.equal (first : Reordered a b) (second : Reordered c d) (equal : Equal a c) : Equal b d := by
  have early : Equal b c := by
    refine Alike.trans ?_ first.symm equal
    rintro _ x y rfl held
    exact held
  refine Alike.trans ?_ early second
  rintro x y _ held rfl
  exact held

end Value

end KeywordConfig
