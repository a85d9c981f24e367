import KeywordConfig.Proofs.Soundness

namespace KeywordConfig.Script
open Grammar

mutual

theorem value_complete : IsValue room tokens value rest → ∀ hole, hole.depth + room ≤ limit →
    Accepts limit (fill hole value) rest calls → Accepts limit (.value hole) tokens calls
  | .literal literal, _, _, behind => value_iff.mpr (.inl ⟨_, _, _, _, rfl, literal, behind⟩)
  | .list elements, hole, fits, behind => by
      have deeper : hole.depth < limit := by omega
      have inside := elements_complete elements [] hole (by omega) behind
      exact value_iff.mpr (.inr (.inl ⟨_, _, _, rfl, rfl, deeper, inside⟩))
  | .map entries, hole, fits, behind => by
      have deeper : hole.depth < limit := by omega
      have inside := entries_complete entries [] hole (by omega) behind
      exact value_iff.mpr (.inr (.inr ⟨_, _, _, rfl, rfl, deeper, inside⟩))

theorem elements_complete : IsElements room tokens more rest → ∀ items hole,
    hole.depth + 1 + room ≤ limit →
    Accepts limit (fill hole (.list (items.reverse ++ more))) rest calls →
    Accepts limit (.item items hole) tokens calls
  | .none newlines, items, hole, _, behind => by
      rw [List.append_nil] at behind
      exact item_iff.mpr ⟨_, newlines, .inl ⟨_, _, _, rfl, rfl, behind⟩⟩
  | .last newlines value gap, items, hole, fits, behind => by
      refine item_iff.mpr ⟨_, newlines, .inr ?_⟩
      apply value_complete value (.item items hole) fits
      rw [← List.reverse_cons] at behind
      exact afterItem_iff.mpr ⟨_, gap, .inr ⟨_, _, _, rfl, rfl, behind⟩⟩
  | .more newlines value gap elements, items, hole, fits, behind => by
      refine item_iff.mpr ⟨_, newlines, .inr ?_⟩
      apply value_complete value (.item items hole) fits
      have again := elements_complete elements (_ :: items) hole fits (by simpa using behind)
      exact afterItem_iff.mpr ⟨_, gap, .inl ⟨_, _, _, rfl, rfl, again⟩⟩

theorem entry_complete : IsEntry room tokens entry rest → ∀ entries hole,
    hole.depth + 1 + room ≤ limit →
    Accepts limit (.afterEntry (Keyed.insert entries entry.1 entry.2) hole) rest calls →
    (∃ key, Starts (· = .label key) (Accepts limit (.entry entries key hole) · calls) tokens) ∨
      Accepts limit (.value (.key entries hole)) tokens calls
  | .label newlines value, entries, hole, fits, behind => by
      have inside := value_complete value (.entry entries _ hole) fits behind
      exact .inl ⟨_, _, _, _, rfl, rfl, entry_iff.mpr ⟨_, newlines, inside⟩⟩
  | .arrow key newlines value, entries, hole, fits, behind => by
      have inside := value_complete value (.entry entries _ hole) fits behind
      apply Or.inr
      apply value_complete key (.key entries hole) fits
      exact afterKey_iff.mpr ⟨_, _, _, rfl, rfl, entry_iff.mpr ⟨_, newlines, inside⟩⟩

theorem entries_complete : IsEntries room tokens more rest → ∀ entries hole,
    hole.depth + 1 + room ≤ limit →
    Accepts limit (fill hole (.map (Keyed.merge entries more))) rest calls →
    Accepts limit (.key entries hole) tokens calls
  | .none newlines, entries, hole, _, behind =>
      key_iff.mpr ⟨_, newlines, .inl ⟨_, _, _, rfl, rfl, behind⟩⟩
  | .last newlines entry gap, entries, hole, fits, behind => by
      refine key_iff.mpr ⟨_, newlines, .inr ?_⟩
      apply entry_complete entry entries hole fits
      exact afterEntry_iff.mpr ⟨_, gap, .inr ⟨_, _, _, rfl, rfl, behind⟩⟩
  | .more newlines entry gap isEntries, entries, hole, fits, behind => by
      refine key_iff.mpr ⟨_, newlines, .inr ?_⟩
      apply entry_complete entry entries hole fits
      have again := entries_complete isEntries _ hole fits behind
      exact afterEntry_iff.mpr ⟨_, gap, .inl ⟨_, _, _, rfl, rfl, again⟩⟩

end

theorem argument_complete (form : IsArgument room tokens argument rest)
    (fits : a.body.depth + room ≤ limit) (added : a.add argument = some more)
    (behind : Accepts limit (.afterArgument more) rest calls) : AcceptsArgument limit a tokens calls := by
  cases form with
  | value value =>
      apply Or.inr
      apply value_complete value (.argument a _) fits
      exact positional_iff.mpr (.inr ⟨more, added, behind⟩)
  | label value =>
      cases added
      exact .inl ⟨_, _, _, _, rfl, rfl, value_complete value (.pair a _) fits behind⟩
  | arrow key value =>
      cases added
      apply Or.inr
      apply value_complete key (.argument a _) fits
      have named := value_complete value (.pair a _) fits behind
      exact positional_iff.mpr (.inl ⟨_, _, _, rfl, rfl, named⟩)

theorem arguments_complete (form : IsArguments parens room tokens arguments rest)
    (same : a.parens = parens) (fits : a.body.depth + room ≤ limit)
    (added : a.addAll arguments = some more) (gap : Gap parens rest after)
    (ends : AcceptsEnd limit more after calls) : AcceptsArgument limit a tokens calls := by
  induction form generalizing a with
  | last argument =>
      rw [Arguments.addAll_cons] at added
      obtain ⟨next, one, others⟩ := Option.bind_eq_some_iff.mp added
      obtain ⟨_, _, parens⟩ := Arguments.add_around one
      cases others
      apply argument_complete argument fits one
      exact afterArgument_iff.mpr ⟨_, by rwa [parens, same], .inr ends⟩
  | more argument between newlines _ ih =>
      rw [Arguments.addAll_cons] at added
      obtain ⟨next, one, others⟩ := Option.bind_eq_some_iff.mp added
      obtain ⟨body, _, parens⟩ := Arguments.add_around one
      have again := ih (parens.trans same) (body ▸ fits) others gap
      apply argument_complete argument fits one
      refine afterArgument_iff.mpr ⟨_, by rwa [parens, same], .inl ⟨_, _, _, rfl, rfl, ?_⟩⟩
      exact argument_iff.mpr ⟨_, newlines, again⟩

theorem tail_complete (form : IsTail room tokens tail rest) (fits : body.depth + room ≤ limit)
    (behind : AcceptsBlock limit body head tail rest calls) :
    Accepts limit (.keyword body head) tokens calls := by
  cases form with
  | nothing => exact keyword_iff.mpr (.inr (.inr behind))
  | empty newlines =>
      refine keyword_iff.mpr (.inl ⟨_, _, _, rfl, rfl, ?_⟩)
      exact firstArgument_iff.mpr ⟨_, newlines, .inl ⟨_, _, _, rfl, rfl, arguments_iff.mpr behind⟩⟩
  | parens newlines arguments close gathers =>
      obtain ⟨more, added, rfl⟩ := (gathers_iff body head true).mp gathers
      obtain ⟨around, named, parens⟩ := Arguments.addAll_around added
      have ends (line : Nat) : AcceptsEnd limit more (⟨.rightParen, line⟩ :: rest) calls := by
        simp only [AcceptsEnd, around, named, parens, if_true]
        exact ⟨_, _, _, rfl, rfl, arguments_iff.mpr behind⟩
      refine keyword_iff.mpr (.inl ⟨_, _, _, rfl, rfl, firstArgument_iff.mpr ⟨_, newlines, .inr ?_⟩⟩)
      exact arguments_complete arguments rfl fits added (gap_parens.mpr close) (ends _)
  | plain brace opener closer arguments gathers =>
      obtain ⟨more, added, rfl⟩ := (gathers_iff body head false).mp gathers
      obtain ⟨around, named, parens⟩ := Arguments.addAll_around added
      have ends : AcceptsEnd limit more rest calls := by
        simpa [AcceptsEnd, around, named, parens] using behind
      refine keyword_iff.mpr (.inr (.inl ⟨_, _, _, rfl, ⟨brace, opener, closer⟩, ?_⟩))
      exact arguments_complete arguments rfl fits added (gap_plain.mpr rfl) ends

mutual

theorem call_complete : IsCall room tokens call rest → ∀ body : Body, body.depth + room ≤ limit →
    (∀ keyword, Accepts limit (.separator (body.push call) keyword) rest calls) →
    ∃ head behind, IsHead tokens head behind ∧ Accepts limit (.keyword body head) behind calls
  | .unblocked head tail, body, fits, behind =>
      ⟨_, _, head, tail_complete tail fits (.inr (behind _))⟩
  | .block head tail opens param inner shuts, body, fits, behind => by
      refine ⟨_, _, head, tail_complete tail fits (.inl ⟨_, _, _, _, rfl, opens, by omega, ?_⟩)⟩
      refine blockStart_iff.mpr ⟨_, _, param, body_complete inner _ ?_ ?_⟩
      · simp only [Opening.body, Body.depth]
        omega
      · simp only [Opening.body, Body.extend_block, completes_block, List.append_nil, List.reverse_reverse]
        exact ⟨_, _, _, rfl, shuts, behind _⟩

theorem body_complete : IsBody room tokens more rest → ∀ body : Body, body.depth + room ≤ limit →
    Completes limit (body.extend more) rest calls → Accepts limit (.statement body) tokens calls
  | .none separators, body, _, completes => statement_iff.mpr ⟨_, separators, .inl completes⟩
  | .last separators call, body, fits, completes => by
      have accepts := call_complete call body fits fun keyword => separator_iff.mpr (.inl completes)
      exact statement_iff.mpr ⟨_, separators, .inr accepts⟩
  | .more separators call separator others, body, fits, completes => by
      have again := body_complete others (body.push _) (by rwa [Body.depth_push]) completes
      have accepts := call_complete call body fits fun keyword =>
        separator_iff.mpr (.inr ⟨_, _, _, rfl, separator, again⟩)
      exact statement_iff.mpr ⟨_, separators, .inr accepts⟩

end

theorem script_complete (form : IsScript room tokens calls) (fits : room ≤ limit) :
    Accepts limit (.statement (.script [])) tokens calls := by
  obtain ⟨line, isBody⟩ := form
  refine body_complete isBody (.script []) (by simpa [Body.depth] using fits) ?_
  rw [Body.extend_script, completes_script]
  exact ⟨_, _, _, rfl, rfl, rfl, by simp⟩

end KeywordConfig.Script
