import KeywordConfig.Proofs.Reading

namespace KeywordConfig
open Grammar

namespace Body

def extend (body : Body) (calls : List Call) : Body := calls.foldl (fun body call => body.push call) body

theorem depth_push (body : Body) (call : Call) : (body.push call).depth = body.depth := by
  cases body <;> rfl

theorem extend_script : (script done).extend calls = .script (calls.reverse ++ done) := by
  induction calls generalizing done with
  | nil => rfl
  | cons call rest ih =>
      rw [List.reverse_cons, List.append_assoc]
      exact ih

theorem extend_block : (block closer param done around head args).extend calls =
    .block closer param (calls.reverse ++ done) around head args := by
  induction calls generalizing done with
  | nil => rfl
  | cons call rest ih =>
      rw [List.reverse_cons, List.append_assoc]
      exact ih

end Body

namespace Script

theorem deeper_room {depth room limit : Nat} (spare : depth + room = limit) (deeper : depth < limit) :
    ∃ less, room = less + 1 ∧ depth + 1 + less = limit :=
  ⟨room - 1, by omega, by omega⟩

mutual

theorem value_sound (spare : hole.depth + room = limit)
    (accepts : Accepts limit (.value hole) tokens calls) :
    ∃ value rest, IsValue room tokens value rest ∧ Accepts limit (fill hole value) rest calls := by
  rcases value_iff.mp accepts with ⟨value, _, line, rest, rfl, literal, behind⟩ |
    ⟨_, line, inner, same, rfl, deeper, inside⟩ | ⟨_, line, inner, same, rfl, deeper, inside⟩
  · exact ⟨value, rest, .literal literal, behind⟩
  · obtain ⟨room, rfl, within⟩ := deeper_room spare deeper
    have shorter : inner.length < tokens.length := by simp [same]
    obtain ⟨items, rest, elements, behind⟩ := elements_sound within inside
    exact ⟨.list items, rest, same ▸ .list elements, behind⟩
  · obtain ⟨room, rfl, within⟩ := deeper_room spare deeper
    have shorter : inner.length < tokens.length := by simp [same]
    obtain ⟨entries, rest, isEntries, behind⟩ := entries_sound within inside
    exact ⟨.map (Keyed.ofList entries), rest, same ▸ .map isEntries, behind⟩
termination_by 3 * tokens.length
decreasing_by all_goals omega

theorem elements_sound (spare : hole.depth + 1 + room = limit)
    (accepts : Accepts limit (.item items hole) tokens calls) :
    ∃ more rest, IsElements room tokens more rest ∧
      Accepts limit (fill hole (.list (items.reverse ++ more))) rest calls := by
  obtain ⟨start, newlines, ⟨_, line, rest, rfl, rfl, behind⟩ | first⟩ := item_iff.mp accepts
  · exact ⟨[], rest, .none newlines, by simpa using behind⟩
  · have ahead := newlines.length_le
    obtain ⟨value, after, isValue, behind⟩ := value_sound spare first
    have shorter := isValue.shorter
    obtain ⟨stop, gap, ⟨_, line, next, rfl, rfl, again⟩ | ⟨_, line, rest, rfl, rfl, behind⟩⟩ :=
      afterItem_iff.mp behind
    · have left := gap.length_le
      obtain ⟨more, rest, elements, behind⟩ := elements_sound spare again
      exact ⟨value :: more, rest, .more newlines isValue gap elements, by simpa using behind⟩
    · exact ⟨[value], rest, .last newlines isValue gap, by simpa using behind⟩
termination_by 3 * tokens.length + 2
decreasing_by all_goals simp only [List.length_cons] at *; omega

theorem entry_sound (spare : hole.depth + 1 + room = limit)
    (accepts : (∃ key, Starts (· = .label key) (Accepts limit (.entry entries key hole) · calls) tokens) ∨
      Accepts limit (.value (.key entries hole)) tokens calls) :
    ∃ entry rest, IsEntry room tokens entry rest ∧
      Accepts limit (.afterEntry (Keyed.insert entries entry.1 entry.2) hole) rest calls := by
  rcases accepts with ⟨key, _, line, inner, same, rfl, inside⟩ | first
  · have shorter : inner.length < tokens.length := by simp [same]
    obtain ⟨start, newlines, inside⟩ := entry_iff.mp inside
    have ahead := newlines.length_le
    obtain ⟨value, rest, isValue, behind⟩ := value_sound spare inside
    exact ⟨(key, value), rest, same ▸ .label newlines isValue, behind⟩
  · obtain ⟨key, after, isKey, behind⟩ := value_sound spare first
    obtain ⟨_, line, next, rfl, rfl, inside⟩ := afterKey_iff.mp behind
    have shorter := isKey.shorter
    obtain ⟨start, newlines, inside⟩ := entry_iff.mp inside
    have ahead := newlines.length_le
    obtain ⟨value, rest, isValue, behind⟩ := value_sound spare inside
    exact ⟨(key.text, value), rest, .arrow isKey newlines isValue, behind⟩
termination_by 3 * tokens.length + 1
decreasing_by all_goals simp only [List.length_cons] at *; omega

theorem entries_sound (spare : hole.depth + 1 + room = limit)
    (accepts : Accepts limit (.key entries hole) tokens calls) :
    ∃ more rest, IsEntries room tokens more rest ∧
      Accepts limit (fill hole (.map (Keyed.merge entries more))) rest calls := by
  obtain ⟨start, newlines, ⟨_, line, rest, rfl, rfl, behind⟩ | first⟩ := key_iff.mp accepts
  · exact ⟨[], rest, .none newlines, behind⟩
  · have ahead := newlines.length_le
    obtain ⟨entry, after, isEntry, behind⟩ := entry_sound spare first
    have shorter := isEntry.shorter
    obtain ⟨stop, gap, ⟨_, line, next, rfl, rfl, again⟩ | ⟨_, line, rest, rfl, rfl, behind⟩⟩ :=
      afterEntry_iff.mp behind
    · have left := gap.length_le
      obtain ⟨more, rest, isEntries, behind⟩ := entries_sound spare again
      exact ⟨entry :: more, rest, .more newlines isEntry gap isEntries, behind⟩
    · exact ⟨[entry], rest, .last newlines isEntry gap, behind⟩
termination_by 3 * tokens.length + 2
decreasing_by all_goals simp only [List.length_cons] at *; omega

end

theorem argument_sound (spare : a.body.depth + room = limit)
    (accepts : AcceptsArgument limit a tokens calls) :
    ∃ argument rest more, IsArgument room tokens argument rest ∧ a.add argument = some more ∧
      Accepts limit (.afterArgument more) rest calls := by
  rcases accepts with ⟨key, _, line, inner, rfl, rfl, inside⟩ | first
  · obtain ⟨value, rest, isValue, behind⟩ := value_sound spare inside
    exact ⟨.named key value, rest, _, .label isValue, rfl, behind⟩
  · obtain ⟨value, after, isValue, behind⟩ := value_sound spare first
    rcases positional_iff.mp behind with ⟨_, line, inner, rfl, rfl, inside⟩ | ⟨more, added, behind⟩
    · obtain ⟨named, rest, isNamed, behind⟩ := value_sound spare inside
      exact ⟨.named value.text named, rest, _, .arrow isValue isNamed, rfl, behind⟩
    · exact ⟨.positional value, after, more, .value isValue, added, behind⟩

theorem arguments_sound (spare : a.body.depth + room = limit)
    (accepts : AcceptsArgument limit a tokens calls) :
    ∃ arguments rest more after, IsArguments a.parens room tokens arguments rest ∧
      a.addAll arguments = some more ∧ Gap a.parens rest after ∧ AcceptsEnd limit more after calls := by
  obtain ⟨argument, behind, more, isArgument, added, accepts⟩ := argument_sound spare accepts
  have shorter := isArgument.shorter
  obtain ⟨body, head, parens⟩ := Arguments.add_around added
  obtain ⟨after, gap, ⟨_, line, next, rfl, rfl, again⟩ | ends⟩ := afterArgument_iff.mp accepts
  · have left := gap.length_le
    obtain ⟨start, newlines, accepts⟩ := argument_iff.mp again
    have ahead := newlines.length_le
    obtain ⟨arguments, rest, all, after, isArguments, others, gap', ends⟩ :=
      arguments_sound (body ▸ spare) accepts
    rw [parens] at gap isArguments gap'
    have together : a.addAll (argument :: arguments) = some all := by
      rw [Arguments.addAll_cons, added]
      exact others
    exact ⟨argument :: arguments, rest, all, after, .more isArgument gap newlines isArguments,
      together, gap', ends⟩
  · have alone : a.addAll [argument] = some more := by
      rw [Arguments.addAll_cons, added]
      rfl
    exact ⟨[argument], behind, more, after, .last isArgument, alone, parens ▸ gap, ends⟩
termination_by tokens.length
decreasing_by
  simp only [List.length_cons] at left
  omega

theorem tail_sound (spare : body.depth + room = limit)
    (accepts : Accepts limit (.keyword body head) tokens calls) :
    ∃ tail rest, IsTail room tokens tail rest ∧ AcceptsBlock limit body head tail rest calls := by
  rcases keyword_iff.mp accepts with ⟨_, line, inner, rfl, rfl, inside⟩ |
    ⟨token, line, inner, rfl, ⟨brace, opener, closer⟩, first⟩ | behind
  · obtain ⟨start, newlines, ⟨_, close, rest, rfl, rfl, behind⟩ | first⟩ := firstArgument_iff.mp inside
    · exact ⟨some [], rest, .empty newlines, arguments_iff.mp behind⟩
    · obtain ⟨arguments, after, more, stop, isArguments, added, gap, ends⟩ := arguments_sound spare first
      have gathers := (gathers_iff body head true).mpr ⟨more, added, rfl⟩
      obtain ⟨around, named, parens⟩ := Arguments.addAll_around added
      simp only [AcceptsEnd, around, named, parens, if_true] at ends
      obtain ⟨_, close, rest, rfl, rfl, behind⟩ := ends
      exact ⟨some more.all, rest, .parens newlines isArguments (gap_parens.mp gap) gathers,
        arguments_iff.mp behind⟩
  · obtain ⟨arguments, after, more, stop, isArguments, added, gap, ends⟩ := arguments_sound spare first
    have gathers := (gathers_iff body head false).mpr ⟨more, added, rfl⟩
    obtain ⟨around, named, parens⟩ := Arguments.addAll_around added
    obtain rfl := gap_plain.mp gap
    simp only [AcceptsEnd, around, named, parens] at ends
    exact ⟨some more.all, stop, .plain brace opener closer isArguments gathers, ends⟩
  · exact ⟨none, tokens, .nothing, behind⟩

mutual

theorem body_sound (spare : body.depth + room = limit)
    (accepts : Accepts limit (.statement body) tokens calls) :
    ∃ more rest, IsBody room tokens more rest ∧ Completes limit (body.extend more) rest calls := by
  obtain ⟨start, separators, completes | ⟨head, behind, isHead, accepts⟩⟩ := statement_iff.mp accepts
  · exact ⟨[], start, .none separators, completes⟩
  · have ahead := separators.length_le
    obtain ⟨call, after, keyword, isCall, accepts⟩ := call_sound spare isHead accepts
    have shorter := isCall.shorter
    rcases separator_iff.mp accepts with completes | ⟨token, line, next, rfl, separator, again⟩
    · exact ⟨[call], after, .last separators isCall, completes⟩
    · have left : next.length < start.length := Nat.lt_of_succ_lt shorter
      have same : (body.push call).depth + room = limit := by rwa [Body.depth_push]
      obtain ⟨more, rest, isBody, completes⟩ := body_sound same again
      exact ⟨call :: more, rest, .more separators isCall separator isBody, completes⟩
termination_by 2 * tokens.length + 1
decreasing_by all_goals omega

theorem call_sound (spare : body.depth + room = limit) (isHead : IsHead tokens head behind)
    (accepts : Accepts limit (.keyword body head) behind calls) :
    ∃ call rest keyword, IsCall room tokens call rest ∧
      Accepts limit (.separator (body.push call) keyword) rest calls := by
  obtain ⟨tail, after, isTail, ⟨closer, opener, line, inside, rfl, opens, deeper, accepts⟩ | accepts⟩ :=
    tail_sound spare accepts
  · obtain ⟨room, rfl, within⟩ := deeper_room spare deeper
    obtain ⟨param, start, isParam, accepts⟩ := blockStart_iff.mp accepts
    have first := isHead.shorter
    have second : inside.length < behind.length := isTail.length_le
    have third := isParam.length_le
    obtain ⟨more, _, isBody, completes⟩ := body_sound within accepts
    simp only [Opening.body, Body.extend_block, completes_block, List.append_nil,
      List.reverse_reverse] at completes
    obtain ⟨last, close, rest, rfl, shuts, behind⟩ := completes
    exact ⟨_, rest, _, .block isHead isTail opens isParam isBody shuts, behind⟩
  · exact ⟨_, after, _, .unblocked isHead isTail, accepts⟩
termination_by 2 * tokens.length
decreasing_by omega

end

theorem script_sound (accepts : Accepts limit (.statement (.script [])) tokens calls) :
    IsScript limit tokens calls := by
  obtain ⟨more, _, isBody, completes⟩ := body_sound (Nat.zero_add limit) accepts
  simp only [Body.extend_script, completes_script, List.append_nil, List.reverse_reverse] at completes
  obtain ⟨_, line, _, rfl, rfl, rfl, rfl⟩ := completes
  exact ⟨line, isBody⟩

end Script

end KeywordConfig
