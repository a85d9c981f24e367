import KeywordConfig.Registry.Decode
import KeywordConfig.Proofs.MemberOrder
import Mathlib.Data.List.Pairwise

namespace KeywordConfig

-- Both give a result, and the results are related, or neither does.
def Concur (r : α → β → Prop) : Except ε α → Except ε β → Prop
  | .ok a, .ok b => r a b
  | .error _, .error _ => True
  | _, _ => False

namespace Concur

variable {r : α → β → Prop}

theorem bind {s : γ → δ → Prop} {first : Except ε α} {second : Except ε β} {f : α → Except ε γ}
    {g : β → Except ε δ} (agree : Concur r first second) (next : ∀ a b, r a b → Concur s (f a) (g b)) :
    Concur s (first.bind f) (second.bind g) := by
  cases first <;> cases second
  · trivial
  · cases agree
  · cases agree
  · exact next _ _ agree

theorem map {s : γ → δ → Prop} {first : Except ε α} {second : Except ε β} {f : α → γ} {g : β → δ}
    (agree : Concur r first second) (next : ∀ a b, r a b → s (f a) (g b)) :
    Concur s (first.map f) (second.map g) := by
  cases first <;> cases second
  · trivial
  · cases agree
  · cases agree
  · exact next _ _ agree

theorem mapError {first : Except ε α} {second : Except ε β} (agree : Concur r first second) (f g : ε → ε') :
    Concur r (first.mapError f) (second.mapError g) := by
  cases first <;> cases second <;> exact agree

theorem trans {s : β → γ → Prop} {t : α → γ → Prop} {first : Except ε α} {second : Except ε β}
    {third : Except ε γ} (both : ∀ a b c, r a b → s b c → t a c) (one : Concur r first second)
    (two : Concur s second third) : Concur t first third := by
  cases first <;> cases second <;> cases third
  all_goals first | trivial | cases one | cases two | skip
  exact both _ _ _ one two

theorem same (result : Except ε α) : Concur Eq result result := by
  cases result
  · trivial
  · rfl

theorem ok_iff {first : Except ε α} {second : Except ε β} (agree : Concur r first second) :
    (∃ a, first = .ok a) ↔ ∃ b, second = .ok b := by
  cases first <;> cases second
  · exact iff_of_false nofun nofun
  · cases agree
  · cases agree
  · exact iff_of_true ⟨_, rfl⟩ ⟨_, rfl⟩

end Concur

-- The same rule, but for the values that it lists, which are equal in content.
structure Rule.Same (rule other : Rule) : Prop where
  name : rule.name = other.name
  kind : rule.kind = other.kind
  oneOf : Option.Rel (List.Forall₂ fun a b => a.same b = true) rule.oneOf other.oneOf

structure Constraint.Same (c d : Constraint) : Prop where
  required : List.Forall₂ Rule.Same c.required d.required
  optional : List.Forall₂ Rule.Same c.optional d.optional
  kind : c.kind = d.kind
  oneOf : Option.Rel (List.Forall₂ fun a b => a.same b = true) c.oneOf d.oneOf
  predicate : c.predicate = d.predicate

structure Options.Same (o p : Options) : Prop where
  allowBlock : o.allowBlock = p.allowBlock
  cumulative : o.cumulative = p.cumulative
  nested : o.nested = p.nested
  requireParent : o.requireParent = p.requireParent
  validate : Option.Rel Constraint.Same o.validate p.validate

structure Declaration.Same (d e : Declaration) : Prop where
  kind : d.kind = e.kind
  options : d.toOptions.Same e.toOptions

namespace Json
open Keyed Value

theorem toEntries_map (members : List (String × Json)) :
    toEntries members = members.map fun member => (member.1, member.2.toValue) := by
  induction members with
  | nil => rfl
  | cons member rest ih => rw [toEntries, ih, List.map_cons]

theorem toValues_map (items : List Json) : toValues items = items.map toValue := by
  induction items with
  | nil => rfl
  | cons item rest ih => rw [toValues, ih, List.map_cons]

theorem toValue_object (distinct : Distinct members) :
    toValue (.object members) = .map (members.map fun member => (member.1, member.2.toValue)) := by
  rw [toValue, toEntries_map, ofList_eq]
  unfold Distinct keys
  rwa [List.map_map]

theorem toValue_proper (json : Json) : json.toValue.Proper := by
  induction json using inner_induction with
  | array items ih =>
      rw [toValue, toValues_map]
      exact .list (List.forall_mem_map.mpr ih)
  | object members ih =>
      rw [toValue, toEntries_map]
      refine .map (ofList_distinct _) ?_
      intro entry inside
      rcases mem_merge inside with none | inside
      · cases none
      · obtain ⟨member, there, rfl⟩ := List.mem_map.mp inside
        exact ih member there
  | _ => constructor

-- No object inside repeats a name, and every float is equal to itself.
inductive Tame : Json → Prop where
  | null : Tame .null
  | bool : Tame (.bool b)
  | int : Tame (.int i)
  | large : (floatOfNat n.toNat == floatOfNat n.toNat) = true → Tame (.large n)
  | float : (x == x) = true → Tame (.float x)
  | str : Tame (.str s)
  | array : (∀ item ∈ items, Tame item) → Tame (.array items)
  | object : Distinct members → (∀ member ∈ members, Tame member.2) → Tame (.object members)

theorem tame_object : (object members).Tame ↔ Distinct members ∧ ∀ member ∈ members, member.2.Tame := by
  constructor
  · intro tame
    cases tame with | object distinct all => exact ⟨distinct, all⟩
  · intro both
    exact .object both.1 both.2

theorem Tame.single {json : Json} (tame : json.Tame) : json.Single := by
  induction tame with
  | array _ ih => exact .array ih
  | object distinct _ ih => exact .object distinct ih
  | _ => constructor

theorem Reordered.equal (reordered : Reordered json other) (tame : json.Tame) : Equal json.toValue other.toValue := by
  unfold Equal
  induction json using inner_induction generalizing other with
  | array items ih =>
      cases reordered with
      | array related =>
          cases tame with
          | array all =>
              rw [toValue, toValue, toValues_map, toValues_map]
              refine .list (List.forall₂_map_left_iff.mpr (List.forall₂_map_right_iff.mpr ?_))
              exact forall₂_step (fun item inside _ _ moved => ih item inside moved (all item inside)) related
  | object members ih =>
      have after := reordered.single tame.single
      cases reordered with
      | object names values moves =>
      obtain ⟨distinct, all⟩ := tame_object.mp tame
      obtain ⟨last, _⟩ := single_object.mp after
      rw [toValue_object distinct, toValue_object last]
      refine alike_map.mpr ⟨_, ?_, moves.map _⟩
      refine List.forall₂_map_left_iff.mpr (List.forall₂_map_right_iff.mpr ?_)
      exact forall₂_step (fun member inside _ _ both => ⟨both.1, ih member inside both.2 (all member inside)⟩)
        (under_iff.mpr ⟨names, values⟩)
  | float =>
      cases reordered
      cases tame with | float equal => exact .float equal
  | large =>
      cases reordered
      cases tame with | large equal => exact .float equal
  | _ => cases reordered; constructor

end Json

namespace Decode
open Keyed Json

variable {r : α → α → Prop} {decode : Decoder α}

-- The order of members does not matter to a decoder.
def Blind (r : α → α → Prop) (decode : Decoder α) : Prop :=
  ∀ json other, json.Tame → json.Reordered other → Concur r (decode json) (decode other)

theorem bool_blind : Blind Eq bool := by
  intro json other _ reordered
  cases reordered with
  | bool => rfl
  | _ => trivial

theorem string_blind : Blind Eq string := by
  intro json other _ reordered
  cases reordered with
  | str => rfl
  | _ => trivial

theorem value_blind : Blind (fun a b => a.same b = true) value := fun json other tame reordered =>
  (Value.same_iff json.toValue_proper other.toValue_proper).mpr (reordered.equal tame)

theorem mapM_agree (each : List.Forall₂ (fun json other => Concur r (decode json) (decode other)) items others) :
    Concur (List.Forall₂ r) (items.mapM decode) (others.mapM decode) := by
  induction each with
  | nil => exact List.Forall₂.nil
  | cons here _ ih =>
      rw [List.mapM_cons, List.mapM_cons]
      exact here.bind fun _ _ first => ih.bind fun _ _ later => List.Forall₂.cons first later

theorem list_blind (blind : Blind r decode) : Blind (List.Forall₂ r) (list decode) := by
  intro json other tame reordered
  cases reordered with
  | array related =>
      cases tame with
      | array all => exact mapM_agree (forall₂_step (fun item inside _ _ => blind item _ (all item inside)) related)
  | _ => trivial

theorem nullable_blind (blind : Blind r decode) : Blind (Option.Rel r) (nullable decode) := by
  intro json other tame reordered
  have inner := (blind json other tame reordered).map fun _ _ => Option.Rel.some
  cases reordered with
  | null => exact Option.Rel.none
  | _ => exact inner

theorem variant_blind (known : Keyed α) : Blind Eq (variant known) := by
  intro json other _ reordered
  cases reordered with
  | str => exact Concur.same _
  | @object _ _ others names values moves =>
      -- an object of one member has no other order, and one of more or fewer members is refused
      cases under_iff.mpr ⟨names, values⟩ with
      | nil => rw [List.nil_perm.mp moves]; trivial
      | @cons member found rest behind here later =>
          cases later with
          | nil =>
              obtain ⟨name, content⟩ := member
              obtain ⟨_, moved⟩ := found
              obtain ⟨rfl, here⟩ := here
              cases List.singleton_perm.mp moves
              cases found : variant.named known name with
              | error => simp [variant, found, Concur]
              | ok a => cases here <;> simp [variant, found, Concur]
          | cons =>
              have length := moves.length_eq
              rcases others with _ | ⟨first, _ | ⟨second, others⟩⟩
              · simp at length
              · simp at length
              · trivial
  | _ => trivial

-- What two members of a record change is changed in either order.
def Apart (m n : Member σ) : Prop :=
  ∀ json other change alter, m.change json = .ok change → n.change other = .ok alter →
    ∀ record, change (alter record) = alter (change record)

instance : Std.Symm (Apart (σ := σ)) where
  symm _ _ apart json other change alter first second record :=
    (apart other json alter change second first record).symm

theorem apart_members {decode : Decoder α} {other : Decoder β} {set : α → σ → σ} {put : β → σ → σ}
    (either : ∀ a b record, set a (put b record) = put b (set a record)) :
    Apart (member name decode set) (member key other put) := by
  intro json written change alter first second record
  unfold member at first second
  cases decoded : decode json with
  | error => simp [decoded, Except.map] at first
  | ok a =>
      cases found : other written with
      | error => simp [found, Except.map] at second
      | ok b =>
          simp only [decoded, found, Except.map, Except.ok.injEq] at first second
          subst first second
          exact either a b record

theorem ruleMembers_apart : ruleMembers.Pairwise Apart := by
  simp only [ruleMembers, List.pairwise_cons, List.forall_mem_cons, List.not_mem_nil, IsEmpty.forall_iff,
    implies_true, List.Pairwise.nil, and_true]
  refine ⟨⟨?_, ?_⟩, ?_⟩ <;> exact apart_members fun _ _ _ => rfl

theorem constraintMembers_apart : constraintMembers.Pairwise Apart := by
  simp only [constraintMembers, List.pairwise_cons, List.forall_mem_cons, List.not_mem_nil, IsEmpty.forall_iff,
    implies_true, List.Pairwise.nil, and_true]
  refine ⟨⟨?_, ?_, ?_⟩, ⟨?_, ?_⟩, ?_⟩ <;> exact apart_members fun _ _ _ => rfl

theorem declarationMembers_apart : declarationMembers.Pairwise Apart := by
  simp only [declarationMembers, List.pairwise_cons, List.forall_mem_cons, List.not_mem_nil, IsEmpty.forall_iff,
    implies_true, List.Pairwise.nil, and_true]
  refine ⟨⟨?_, ?_, ?_, ?_, ?_⟩, ⟨?_, ?_, ?_, ?_⟩, ⟨?_, ?_, ?_⟩, ⟨?_, ?_⟩, ?_⟩ <;> exact apart_members fun _ _ _ => rfl

def taken (known : List (Member σ)) (entry : String × Json) : Except Malformed (σ → σ) :=
  match known.find? (·.name == entry.1) with
  | none => .error (.unknownMember entry.1 (known.map Member.name))
  | some m => m.change entry.2

variable {known : List (Member σ)} {record start : σ}

-- The record of members, when no name is looked for among those before it.
def filled (known : List (Member σ)) (record : σ) : List (String × Json) → Except Malformed σ
  | [] => .ok record
  | entry :: rest => (taken known entry).bind fun change => filled known (change record) rest

theorem ofMembers_filled (distinct : Distinct members) (fresh : ∀ name ∈ keys members, name ∉ seen) :
    ofMembers known record seen members = filled known record members := by
  induction members generalizing record seen with
  | nil => rfl
  | cons entry rest ih =>
      obtain ⟨name, json⟩ := entry
      obtain ⟨once, inner⟩ := List.nodup_cons.mp distinct
      obtain ⟨new, later⟩ := List.forall_mem_cons.mp fresh
      have unseen : seen.contains name = false := by simpa using new
      have apart : ∀ other ∈ keys rest, other ∉ name :: seen := by
        intro other there
        apply List.not_mem_cons_of_ne_of_not_mem
        · exact fun same => once (same ▸ there)
        · exact later other there
      rw [ofMembers, filled, taken, unseen]
      cases known.find? (·.name == name) with
      | none => rfl
      | some m =>
          dsimp only
          cases m.change json with
          | error => rfl
          | ok change => exact ih inner apart

theorem taken_apart (apart : known.Pairwise Apart) {entry other : String × Json} (named : entry.1 ≠ other.1)
    (first : taken known entry = .ok change) (second : taken known other = .ok alter) (record : σ) :
    change (alter record) = alter (change record) := by
  unfold taken at first second
  split at first
  · cases first
  · rename_i m found
    split at second
    · cases second
    · rename_i n there
      have name : m.name = entry.1 := by simpa using List.find?_some found
      have name' : n.name = other.1 := by simpa using List.find?_some there
      have different : m ≠ n := by
        rintro rfl
        exact named (name.symm.trans name')
      exact apart.forall (List.mem_of_find?_eq_some found) (List.mem_of_find?_eq_some there) different _ _ _ _
        first second record

theorem filled_perm (apart : known.Pairwise Apart) (distinct : Distinct members) (moves : members.Perm others) :
    Concur Eq (filled known record members) (filled known record others) := by
  induction moves generalizing record with
  | nil => exact Concur.same _
  | cons entry _ ih =>
      rw [filled, filled]
      refine (Concur.same _).bind ?_
      rintro change _ rfl
      exact ih (List.nodup_cons.mp distinct).2
  | swap entry other rest =>
      have fresh := (List.nodup_cons.mp distinct).1
      have named : other.1 ≠ entry.1 := fun same => fresh (List.mem_cons.mpr (.inl same))
      simp only [filled]
      cases first : taken known other with
      | error => cases taken known entry <;> trivial
      | ok change =>
          cases second : taken known entry with
          | error => trivial
          | ok alter =>
              have either := taken_apart apart named first second record
              simp only [Except.bind, either]
              exact Concur.same _
  | trans first second ih ih' =>
      refine Concur.trans ?_ (ih distinct) (ih' (Distinct.perm first distinct))
      rintro _ _ _ rfl rfl
      rfl

variable {q : σ → σ → Prop}

-- A member whose decoder is blind, and what it changes keeps records related.
def Keeps (q : σ → σ → Prop) (m : Member σ) : Prop :=
  Blind (fun change alter => ∀ record other, q record other → q (change record) (alter other)) m.change

theorem keeps_member {set : α → σ → σ} (blind : Blind r decode)
    (kept : ∀ a b, r a b → ∀ record other, q record other → q (set a record) (set b other)) :
    Keeps q (member name decode set) :=
  fun json other tame reordered => (blind json other tame reordered).map kept

theorem filled_under (keeps : ∀ m ∈ known, Keeps q m) (tame : ∀ entry ∈ members, entry.2.Tame)
    (related : List.Forall₂ (Under Json.Reordered) members others) (start : q record other) :
    Concur q (filled known record members) (filled known other others) := by
  induction related generalizing record other with
  | nil => exact start
  | @cons entry moved rest behind here later ih =>
      obtain ⟨first, rest⟩ := List.forall_mem_cons.mp tame
      rw [filled, filled]
      refine Concur.bind
        (r := fun change alter => ∀ record other, q record other → q (change record) (alter other)) ?_ ?_
      · unfold taken
        rw [← here.1]
        split
        · trivial
        · rename_i m found
          exact keeps m (List.mem_of_find?_eq_some found) _ _ first here.2
      · exact fun change alter both => ih rest (both _ _ start)

theorem ofMembers_blind (apart : known.Pairwise Apart) (keeps : ∀ m ∈ known, Keeps q m) (distinct : Distinct members)
    (tame : ∀ entry ∈ members, entry.2.Tame) (related : List.Forall₂ (Under Json.Reordered) members moved)
    (moves : moved.Perm others) (start : q record other) :
    Concur q (ofMembers known record [] members) (ofMembers known other [] others) := by
  have middle : Distinct moved := by
    unfold Distinct
    rwa [← (under_iff.mp related).1]
  rw [ofMembers_filled distinct (by simp), ofMembers_filled (Distinct.perm moves middle) (by simp)]
  refine Concur.trans ?_ (filled_under keeps tame related start) (filled_perm apart middle moves)
  rintro _ _ _ same rfl
  exact same

theorem ofItems_blind (keeps : ∀ m ∈ known, Keeps q m) (tame : ∀ item ∈ items, item.Tame)
    (related : List.Forall₂ Json.Reordered items others) (length : Nat) (start : q record other) :
    Concur q (ofItems known record length items) (ofItems known other length others) := by
  induction related generalizing known record other with
  | nil =>
      rw [ofItems, ofItems]
      exact start
  | @cons item moved _ _ here _ ih =>
      obtain ⟨first, rest⟩ := List.forall_mem_cons.mp tame
      cases known with
      | nil => trivial
      | cons m later =>
          obtain ⟨kept, keeps⟩ := List.forall_mem_cons.mp keeps
          have agree := kept _ _ first here
          rw [ofItems, ofItems]
          cases change : m.change item <;> cases alter : m.change moved <;> rw [change, alter] at agree
          · trivial
          · cases agree
          · cases agree
          · exact ih keeps rest (agree _ _ start)

theorem record_blind (apart : known.Pairwise Apart) (keeps : ∀ m ∈ known, Keeps q m) (start : q first first)
    (what : String) : Blind q (Decode.record what known first) := by
  intro json other tame reordered
  cases reordered with
  | @array items others related =>
      cases tame with
      | array all =>
          have agree := ofItems_blind keeps all related others.length start
          change Concur q (ofItems known first items.length items) (ofItems known first others.length others)
          rwa [related.length_eq]
  | object names values moves =>
      obtain ⟨distinct, all⟩ := tame_object.mp tame
      exact ofMembers_blind apart keeps distinct all (under_iff.mpr ⟨names, values⟩) moves start
  | _ => trivial

theorem rel_eq {a b : Option α} (same : Option.Rel Eq a b) : a = b := by
  cases same with
  | some same => exact congrArg some same
  | none => rfl

theorem ruleMembers_keep : ∀ m ∈ ruleMembers, Keeps Rule.Same m := by
  simp only [ruleMembers, List.forall_mem_cons, List.not_mem_nil, IsEmpty.forall_iff, implies_true, and_true]
  refine ⟨keeps_member string_blind ?_, keeps_member (nullable_blind (list_blind value_blind)) ?_,
    keeps_member (nullable_blind (variant_blind _)) ?_⟩
  · exact fun _ _ same _ _ related => { related with name := same }
  · exact fun _ _ same _ _ related => { related with oneOf := same }
  · exact fun _ _ same _ _ related => { related with kind := rel_eq same }

theorem rule_blind : Blind Rule.Same rule := by
  intro json other tame reordered
  cases reordered with
  | str => exact ⟨rfl, rfl, .none⟩
  | @object members moved others names values moves =>
      obtain ⟨distinct, all⟩ := tame_object.mp tame
      have related := under_iff.mpr ⟨names, values⟩
      have middle : Distinct moved := by
        unfold Distinct
        rwa [← names]
      have found := get?_under related "name"
      rw [get?_perm moves middle] at found
      unfold rule
      dsimp only
      generalize get? members "name" = first at found ⊢
      generalize get? others "name" = second at found ⊢
      cases found with
      | none => trivial
      | some here =>
          cases here with
          | @str name =>
              let kept : String × Json → Bool := fun entry => (ruleMembers.map Member.name).contains entry.1
              have same : List.Forall₂ (Under Json.Reordered) (members.filter kept) (moved.filter kept) := by
                refine List.rel_filter ?_ related
                intro entry other under
                have alike : kept entry = kept other := congrArg (ruleMembers.map Member.name).contains under.1
                exact Bool.eq_iff_iff.mp alike
              refine Concur.mapError ?_ _ _
              refine ofMembers_blind ruleMembers_apart ruleMembers_keep ?_ ?_ same (moves.filter kept) ⟨rfl, rfl, .none⟩
              · exact List.Nodup.sublist (List.filter_sublist.map _) distinct
              · exact fun entry inside => all entry (List.mem_of_mem_filter inside)
          | _ => trivial
  | _ => trivial

theorem constraintMembers_keep : ∀ m ∈ constraintMembers, Keeps Constraint.Same m := by
  simp only [constraintMembers, List.forall_mem_cons, List.not_mem_nil, IsEmpty.forall_iff, implies_true, and_true]
  refine ⟨keeps_member (list_blind rule_blind) ?_, keeps_member (list_blind rule_blind) ?_,
    keeps_member (nullable_blind (list_blind value_blind)) ?_, keeps_member (nullable_blind (variant_blind _)) ?_⟩
  · exact fun _ _ same _ _ related => { related with required := same }
  · exact fun _ _ same _ _ related => { related with optional := same }
  · exact fun _ _ same _ _ related => { related with oneOf := same }
  · exact fun _ _ same _ _ related => { related with kind := rel_eq same }

theorem constraint_blind : Blind Constraint.Same constraint :=
  record_blind constraintMembers_apart constraintMembers_keep ⟨.nil, .nil, rfl, .none, rfl⟩ _

structure Draft.Same (d e : Draft) : Prop where
  kind : d.kind = e.kind
  options : d.toOptions.Same e.toOptions

theorem declarationMembers_keep : ∀ m ∈ declarationMembers, Keeps Draft.Same m := by
  simp only [declarationMembers, List.forall_mem_cons, List.not_mem_nil, IsEmpty.forall_iff, implies_true, and_true]
  refine ⟨keeps_member (variant_blind _) ?_, keeps_member bool_blind ?_, keeps_member bool_blind ?_,
    keeps_member bool_blind ?_, keeps_member (list_blind string_blind) ?_,
    keeps_member (nullable_blind constraint_blind) ?_⟩
  · exact fun _ _ same _ _ related => { related with kind := congrArg some same }
  · exact fun _ _ same _ _ related => { related with options := { related.options with allowBlock := same } }
  · exact fun _ _ same _ _ related => { related with options := { related.options with cumulative := same } }
  · exact fun _ _ same _ _ related => { related with options := { related.options with nested := same } }
  · exact fun _ _ same _ _ related => { related with options := { related.options with
      requireParent := List.forall₂_eq_eq_eq ▸ same } }
  · exact fun _ _ same _ _ related => { related with options := { related.options with validate := same } }

theorem declaration_blind : Blind Declaration.Same declaration := by
  intro json other tame reordered
  have start : Draft.Same {} {} := ⟨rfl, rfl, rfl, rfl, rfl, .none⟩
  have drafts := record_blind declarationMembers_apart declarationMembers_keep start "struct RawSpec" json other
    tame reordered
  unfold declaration
  generalize Decode.record "struct RawSpec" declarationMembers {} json = first at drafts ⊢
  generalize Decode.record "struct RawSpec" declarationMembers {} other = second at drafts ⊢
  cases first <;> cases second
  · trivial
  · cases drafts
  · cases drafts
  · rename_i draft moved
    obtain ⟨kind, options⟩ := drafts
    dsimp only
    rw [← kind]
    cases draft.kind with
    | none => trivial
    | some kind => exact ⟨rfl, options⟩

end Decode

end KeywordConfig
