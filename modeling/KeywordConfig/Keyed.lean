namespace KeywordConfig

abbrev Keyed (α : Type) := List (String × α)

namespace Keyed

def keys (entries : Keyed α) : List String := entries.map Prod.fst

def get? : Keyed α → String → Option α
  | [], _ => none
  | (name, value) :: rest, key => if name = key then some value else get? rest key

def has (entries : Keyed α) (key : String) : Bool := (get? entries key).isSome

def insert : Keyed α → String → α → Keyed α
  | [], key, value => [(key, value)]
  | (name, old) :: rest, key, value =>
      if name = key then (name, value) :: rest else (name, old) :: insert rest key value

-- Later writes win and keep the place of the first.
def merge (into source : Keyed α) : Keyed α :=
  source.foldl (fun entries entry => insert entries entry.1 entry.2) into

def ofList (entries : List (String × α)) : Keyed α := merge [] entries

-- No name twice. Everything built by `insert` from the empty list has this.
def Distinct (entries : Keyed α) : Prop := (keys entries).Nodup

theorem get?_insert (entries : Keyed α) (key other : String) (value : α) :
    get? (insert entries key value) other = if key = other then some value else get? entries other := by
  induction entries with
  | nil => simp [insert, get?]
  | cons entry rest ih =>
      obtain ⟨name, old⟩ := entry
      by_cases same : name = key
      · subst same
        by_cases found : name = other <;> simp [insert, get?, found]
      · by_cases found : name = other
        · subst found
          simp [insert, get?, same, Ne.symm same]
        · simp [insert, get?, same, found, ih]

theorem get?_eq_none (entries : Keyed α) (key : String) :
    get? entries key = none ↔ key ∉ keys entries := by
  induction entries with
  | nil => simp [get?, keys]
  | cons entry rest ih =>
      obtain ⟨name, value⟩ := entry
      simp only [keys] at ih
      by_cases same : name = key
      · simp [get?, keys, same]
      · simp [get?, keys, same, ih, Ne.symm same]

theorem keys_insert (entries : Keyed α) (key : String) (value : α) :
    keys (insert entries key value) =
      if key ∈ keys entries then keys entries else keys entries ++ [key] := by
  induction entries with
  | nil => simp [insert, keys]
  | cons entry rest ih =>
      obtain ⟨name, old⟩ := entry
      simp only [keys] at ih
      by_cases same : name = key
      · simp [insert, keys, same]
      · have apart : key ≠ name := fun equal => same equal.symm
        by_cases present : key ∈ rest.map Prod.fst <;>
          simp_all [insert, keys]

theorem insert_new {entries : Keyed α} (absent : key ∉ keys entries) (value : α) :
    insert entries key value = entries ++ [(key, value)] := by
  induction entries with
  | nil => rfl
  | cons entry rest ih =>
      obtain ⟨apart, others⟩ := List.ne_and_not_mem_of_not_mem_cons absent
      rw [insert, if_neg fun same => apart same.symm, ih others]
      rfl

theorem insert_distinct (entries : Keyed α) (key : String) (value : α) (distinct : Distinct entries) :
    Distinct (insert entries key value) := by
  unfold Distinct
  rw [keys_insert]
  split
  · exact distinct
  · rename_i absent
    exact List.nodup_append.mpr ⟨distinct, by simp, by
      intro a member b last equal
      rw [List.mem_singleton] at last
      exact absent (last ▸ equal ▸ member)⟩

theorem merge_distinct (into source : Keyed α) (distinct : Distinct into) :
    Distinct (merge into source) := by
  unfold merge
  induction source generalizing into with
  | nil => exact distinct
  | cons entry rest ih => exact ih _ (insert_distinct _ _ _ distinct)

theorem ofList_distinct (entries : List (String × α)) : Distinct (ofList entries) :=
  merge_distinct _ _ List.nodup_nil

theorem mem_of_get? {entries : Keyed α} (found : get? entries key = some value) : (key, value) ∈ entries := by
  induction entries with
  | nil => cases found
  | cons entry rest ih =>
      obtain ⟨name, first⟩ := entry
      by_cases same : name = key
      · simp only [get?, same, if_true, Option.some.injEq] at found
        simp [same, found]
      · simp only [get?, same, if_false] at found
        exact List.mem_cons_of_mem _ (ih found)

theorem mem_insert {entries : Keyed α} (member : entry ∈ insert entries key value) :
    entry ∈ entries ∨ entry = (key, value) := by
  induction entries with
  | nil => exact .inr (by simpa [insert] using member)
  | cons first rest ih =>
      obtain ⟨name, old⟩ := first
      by_cases same : name = key
      · simp only [insert, same, if_true, List.mem_cons] at member ⊢
        rcases member with new | later
        · exact .inr new
        · exact .inl (.inr later)
      · simp only [insert, same, if_false, List.mem_cons] at member ⊢
        rcases member with rfl | later
        · exact .inl (.inl rfl)
        · rcases ih later with old | new
          · exact .inl (.inr old)
          · exact .inr new

theorem mem_merge {into source : Keyed α} (member : entry ∈ merge into source) :
    entry ∈ into ∨ entry ∈ source := by
  induction source generalizing into with
  | nil => exact .inl member
  | cons first rest ih =>
      rcases ih member with inserted | later
      · rcases mem_insert inserted with old | rfl
        · exact .inl old
        · exact .inr List.mem_cons_self
      · exact .inr (List.mem_cons_of_mem _ later)

theorem has_insert (entries : Keyed α) (key other : String) (value : α) :
    has (insert entries key value) other = (decide (key = other) || has entries other) := by
  unfold has
  rw [get?_insert]
  by_cases same : key = other <;> simp [same]

theorem has_merge (into source : Keyed α) (key : String) :
    has (merge into source) key = (has into key || has source key) := by
  induction source generalizing into with
  | nil => simp [merge, has, get?]
  | cons first rest ih =>
      obtain ⟨name, value⟩ := first
      have step : has (merge into ((name, value) :: rest)) key = has (merge (insert into name value) rest) key := rfl
      rw [step, ih, has_insert]
      by_cases same : name = key
      · simp [has, get?, same]
      · simp [has, get?, same]

end Keyed

end KeywordConfig
