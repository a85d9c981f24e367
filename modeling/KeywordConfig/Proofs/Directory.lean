import KeywordConfig.CommandLine.Directory

namespace KeywordConfig.CommandLine

def Plain (name : String) : Prop := name ≠ "" ∧ '/' ∉ name.toList

namespace Route

end Route

theorem bind_ok {x : Except ε α} {f : α → Except ε β} (made : x >>= f = .ok b) :
    ∃ a, x = .ok a ∧ f a = .ok b := by
  cases x with
  | error e => cases made
  | ok a => exact ⟨a, rfl, made⟩

namespace Directory

variable {d : Directory}

theorem holds_iff : d.holds names ↔ names = [] ∨ ∃ path ∈ Keyed.keys d, names <+: Route.names path := by
  simp [Directory.holds, Keyed.keys]

theorem holds_prefix (holds : d.holds names) (above : other <+: names) : d.holds other := by
  rcases holds_iff.mp holds with rfl | ⟨path, member, inside⟩
  · exact holds_iff.mpr (.inl (List.prefix_nil.mp above))
  · exact holds_iff.mpr (.inr ⟨path, member, above.trans inside⟩)

-- A place that names lead to from directory to directory, be there something or not.
structure Near (d : Directory) (p : Place) : Prop where
  plain : ∀ name ∈ p.names, Plain name
  around : p.base = .here → ∀ other, other <+: p.names → other ≠ p.names → d.holds other

structure Stands (d : Directory) (p : Place) : Prop where
  plain : ∀ name ∈ p.names, Plain name
  held : p.base = .here → d.holds p.names

theorem stands_start (d : Directory) (base : Base) : Stands d { base } := ⟨by simp, fun _ => rfl⟩

theorem Stands.near (stands : Stands d p) : Near d p :=
  ⟨stands.plain, fun here _ above _ => holds_prefix (stands.held here) above⟩

theorem Stands.parent (stands : Stands d p) : Stands d p.parent := by
  obtain ⟨base, names⟩ := p
  have shorter : ∀ name ∈ names.dropLast, Plain name :=
    fun name member => stands.plain name (List.dropLast_subset _ member)
  have above : base = .here → d.holds names.dropLast :=
    fun here => holds_prefix (stands.held here) (List.dropLast_prefix _)
  cases base with
  | here =>
      cases names with
      | nil => exact stands_start d .above
      | cons => exact ⟨shorter, above⟩
  | above | root => cases names <;> exact ⟨shorter, above⟩

theorem Stands.child (stands : Stands d p) (plain : Plain name) : Near d (p.child name) := by
  constructor
  · intro other member
    rcases List.mem_append.mp member with before | last
    · exact stands.plain other before
    · rwa [List.mem_singleton.mp last]
  · intro here other above proper
    rcases List.prefix_concat_iff.mp above with same | before
    · exact absurd same proper
    · exact holds_prefix (stands.held here) before

theorem Stands.step (stands : Stands d p) (plain : Plain name) (stepped : p.step name = .ok next) :
    Near d next := by
  unfold Place.step at stepped
  split at stepped
  · cases stepped
    exact stands.near
  · split at stepped
    · cases stepped
      exact stands.parent.near
    · split at stepped <;> cases stepped
      exact stands.child plain

theorem Near.stands (near : Near d p) (directory : d.node p = .directory) : Stands d p := by
  obtain ⟨base, names⟩ := p
  refine ⟨near.plain, ?_⟩
  intro here
  cases here
  simp only [node] at directory
  split at directory
  · cases directory
  · split at directory
    · assumption
    · cases directory

end Directory

end KeywordConfig.CommandLine
