import KeywordConfig.Document

namespace KeywordConfig

namespace Keyed

def allUnder (pairs : List (String × α)) (key : String) : List α :=
  (pairs.filter fun pair => pair.1 = key).map Prod.snd

def grouped (combine : String → List α → β) (pairs : List (String × α)) : Keyed β :=
  (pairs.map Prod.fst).eraseDups.map fun key => (key, combine key (allUnder pairs key))

theorem nodup_eraseDups (names : List String) : names.eraseDups.Nodup := by
  match names with
  | [] => simp
  | name :: rest =>
      have shorter : (rest.filter fun other => !other == name).length < rest.length + 1 :=
        Nat.lt_add_one_of_le (List.length_filter_le _ rest)
      rw [List.eraseDups_cons, List.nodup_cons]
      exact ⟨by simp, nodup_eraseDups _⟩
termination_by names.length

theorem eraseDups_concat (names : List String) (name : String) :
    (names ++ [name]).eraseDups =
      if name ∈ names then names.eraseDups else names.eraseDups ++ [name] := by
  rw [List.eraseDups_append]
  by_cases member : name ∈ names <;> simp [List.removeAll, List.eraseDups_cons, member]

theorem get?_map (names : List String) (f : String → α) (key : String) :
    get? (names.map fun name => (name, f name)) key = if key ∈ names then some (f key) else none := by
  induction names with
  | nil => simp [get?]
  | cons name rest ih =>
      by_cases same : name = key
      · simp [get?, same]
      · have apart : key ≠ name := Ne.symm same
        simp [get?, same, apart, ih]

theorem insert_map {names : List String} (nodup : names.Nodup) (f : String → α) (key : String) (value : α) :
    insert (names.map fun name => (name, f name)) key value =
      if key ∈ names then names.map fun name => (name, if name = key then value else f name)
      else names.map (fun name => (name, f name)) ++ [(key, value)] := by
  induction names with
  | nil => simp [insert]
  | cons name rest ih =>
      obtain ⟨absent, nodup⟩ := List.nodup_cons.mp nodup
      by_cases same : name = key
      · subst same
        -- The name stands nowhere else, so the rest is the same on both sides.
        have unchanged : ∀ other ∈ rest, (other, f other) = (other, if other = name then value else f other) := by
          intro other member
          have apart : other ≠ name := fun equal => absent (equal ▸ member)
          simp [apart]
        simp [insert, List.map_congr_left unchanged]
      · have apart : key ≠ name := Ne.symm same
        by_cases member : key ∈ rest <;> simp [insert, same, apart, member, ih nodup]

theorem allUnder_concat (pairs : List (String × α)) (key name : String) (a : α) :
    allUnder (pairs ++ [(key, a)]) name = allUnder pairs name ++ (if key = name then [a] else []) := by
  by_cases same : key = name <;> simp [allUnder, same]

theorem allUnder_absent {pairs : List (String × α)} (absent : key ∉ pairs.map Prod.fst) :
    allUnder pairs key = [] := by
  rw [allUnder, List.map_eq_nil_iff, List.filter_eq_nil_iff]
  intro pair member same
  exact absent (List.mem_map.mpr ⟨pair, member, by simpa using same⟩)

theorem get?_grouped (combine : String → List α → β) (pairs : List (String × α)) (key : String) :
    get? (grouped combine pairs) key =
      if key ∈ pairs.map Prod.fst then some (combine key (allUnder pairs key)) else none := by
  rw [grouped, get?_map]
  simp only [List.mem_eraseDups]

theorem grouped_concat (combine : String → List α → β) (pairs : List (String × α)) (key : String) (a : α) :
    grouped combine (pairs ++ [(key, a)]) =
      insert (grouped combine pairs) key (combine key (allUnder pairs key ++ [a])) := by
  have others : ∀ name ∈ (pairs.map Prod.fst).eraseDups, (name, combine name (allUnder (pairs ++ [(key, a)]) name)) =
      (name, if name = key then combine key (allUnder pairs key ++ [a]) else combine name (allUnder pairs name)) := by
    intro name _
    by_cases same : name = key
    · subst same
      simp [allUnder_concat]
    · simp [allUnder_concat, same, Ne.symm same]
  simp only [grouped]
  rw [insert_map (nodup_eraseDups _), List.map_append, List.map_singleton, eraseDups_concat]
  by_cases member : key ∈ pairs.map Prod.fst
  · simp only [List.mem_eraseDups, member, if_true]
    exact List.map_congr_left others
  · have unchanged : ∀ name ∈ (pairs.map Prod.fst).eraseDups,
        (name, combine name (allUnder (pairs ++ [(key, a)]) name)) = (name, combine name (allUnder pairs name)) := by
      intro name known
      have apart : key ≠ name := fun equal => member (List.mem_eraseDups.mp (equal ▸ known))
      simp [allUnder_concat, apart]
    simp only [List.mem_eraseDups, member, if_false, List.map_append, List.map_singleton]
    rw [List.map_congr_left unchanged, allUnder_concat, if_pos rfl]

end Keyed

theorem Value.visit_grouped {combine : String → List γ → Value} {pairs : List (String × γ)}
    (missing : combine key [] = start)
    (changed : change (combine key (Keyed.allUnder pairs key)) =
      (result, combine key (Keyed.allUnder pairs key ++ [a]))) :
    Value.visit (Keyed.grouped combine pairs) key start change =
      (result, Keyed.grouped combine (pairs ++ [(key, a)])) := by
  have found : (Keyed.get? (Keyed.grouped combine pairs) key).getD start =
      combine key (Keyed.allUnder pairs key) := by
    rw [Keyed.get?_grouped]
    by_cases member : key ∈ pairs.map Prod.fst
    · simp only [if_pos member, Option.getD_some]
    · simp only [if_neg member, Option.getD_none]
      rw [Keyed.allUnder_absent member, missing]
  unfold Value.visit
  rw [found, changed, Keyed.grouped_concat]

end KeywordConfig
