import KeywordConfig.Proofs.ReadingBack

namespace KeywordConfig.Json

section

variable (word : α → List Lexeme)

-- Parts with a comma behind each; they stand last first.
def listed : List α → List Lexeme
  | [] => []
  | part :: before => listed before ++ word part ++ [.comma]

-- Parts with commas between them.
def separated : List α → List Lexeme
  | [] => []
  | part :: rest => word part ++ rest.flatMap fun part => .comma :: word part

theorem separated_append (front : List α) (part : α) :
    separated word (front ++ [part]) = (if front.isEmpty then [] else separated word front ++ [.comma]) ++ word part := by
  cases front with
  | nil => simp [separated]
  | cons first rest => simp [separated]

theorem listed_separated (before : List α) :
    listed word before = if before.isEmpty then [] else separated word before.reverse ++ [.comma] := by
  induction before with
  | nil => rfl
  | cons part before ih => simp [listed, ih, separated_append]

theorem separated_reverse (part : α) (before : List α) :
    separated word (part :: before).reverse = listed word before ++ word part := by
  rw [List.reverse_cons, separated_append, listed_separated, List.isEmpty_reverse]

end

def memberWord (member : String × Json) : List Lexeme := .scalar (.str member.1) :: .colon :: words member.2

theorem itemWords_flatMap (items : List Json) : itemWords items = items.flatMap fun item => .comma :: words item := by
  induction items with
  | nil => rfl
  | cons item items ih => rw [itemWords, ih, List.flatMap_cons, List.cons_append]

theorem memberWords_flatMap (members : List (String × Json)) :
    memberWords members = members.flatMap fun member => .comma :: memberWord member := by
  induction members with
  | nil => rfl
  | cons member members ih =>
      rw [memberWords, ih, List.flatMap_cons]
      rfl

theorem words_array (items : List Json) :
    words (.array items) = .openArray :: (separated words items ++ [.closeArray]) := by
  cases items with
  | nil => rfl
  | cons item items => rw [words, itemWords_flatMap, separated, List.append_assoc]

theorem words_object (members : List (String × Json)) :
    words (.object members) = .openObject :: (separated memberWord members ++ [.closeObject]) := by
  cases members with
  | nil => rfl
  | cons member members => rw [words, memberWords_flatMap, separated, memberWord, List.append_assoc]; rfl

-- What a lexeme that is no mark holds: a value without inner ones.
inductive Scalar : Json → Prop where
  | null : Scalar .null
  | bool : Scalar (.bool b)
  | int : Scalar (.int i)
  | large : Scalar (.large n)
  | float : Scalar (.float x)
  | str : Scalar (.str s)

def Lexeme.Plain : Lexeme → Prop
  | .scalar json => Scalar json
  | _ => True

def Around.front : Around → List Lexeme
  | .top => []
  | .array items around => around.front ++ .openArray :: listed words items
  | .object members name around =>
      around.front ++ .openObject :: (listed memberWord members ++ [.scalar (.str name), .colon])

def Spot.front : Spot → List Lexeme
  | .value around => around.front
  | .firstItem around => around.front ++ [.openArray]
  | .afterItem items around => around.front ++ .openArray :: separated words items.reverse
  | .firstName around => around.front ++ [.openObject]
  | .name members around => around.front ++ .openObject :: listed memberWord members
  | .colon members key around =>
      around.front ++ .openObject :: (listed memberWord members ++ [.scalar (.str key)])
  | .afterMember members around => around.front ++ .openObject :: separated memberWord members.reverse
  | .finished json => words json

-- What is open keeps to a limit, and so does what has been read inside of it.
def Around.Fits (limit : Nat) : Around → Prop
  | .top => True
  | .array items around => around.Fits limit ∧ around.depth < limit ∧ ∀ item ∈ items, item.nesting + around.depth < limit
  | .object members _ around =>
      around.Fits limit ∧ around.depth < limit ∧ ∀ member ∈ members, member.2.nesting + around.depth < limit

def Spot.Fits (limit : Nat) : Spot → Prop
  | .value around => around.Fits limit
  | .firstItem around => (Around.array [] around).Fits limit
  | .afterItem items around => items ≠ [] ∧ (Around.array items around).Fits limit
  | .firstName around => (Around.object [] "" around).Fits limit
  | .name members around => (Around.object members "" around).Fits limit
  | .colon members key around => (Around.object members key around).Fits limit
  | .afterMember members around => members ≠ [] ∧ (Around.object members "" around).Fits limit
  | .finished json => json.nesting ≤ limit

theorem itemsNesting_lt {items : List Json} (room : d < limit) (each : ∀ item ∈ items, item.nesting + d < limit) :
    itemsNesting items + d < limit := by
  induction items with
  | nil => simpa [itemsNesting] using room
  | cons item items ih =>
      obtain ⟨first, others⟩ := List.forall_mem_cons.mp each
      have rest := ih others
      rw [itemsNesting]
      omega

theorem membersNesting_lt {members : List (String × Json)} (room : d < limit)
    (each : ∀ member ∈ members, member.2.nesting + d < limit) : membersNesting members + d < limit := by
  induction members with
  | nil => simpa [membersNesting] using room
  | cons member members ih =>
      obtain ⟨first, others⟩ := List.forall_mem_cons.mp each
      have rest := ih others
      rw [membersNesting]
      omega

def Spot.Follows (limit : Nat) (next spot : Spot) (lexeme : Lexeme) : Prop :=
  next.front = spot.front ++ [lexeme] ∧ next.Fits limit

theorem put_front (json : Json) (around : Around) : (put json around).front = around.front ++ words json := by
  cases around with
  | top => rfl
  | array items around => simp only [put, Spot.front, Around.front, separated_reverse, List.append_assoc, List.cons_append]
  | object members name around =>
      simp only [put, Spot.front, Around.front, separated_reverse, memberWord, List.append_assoc, List.cons_append,
        List.nil_append]

theorem put_fits (fits : around.Fits limit) (room : json.nesting + around.depth ≤ limit) : (put json around).Fits limit := by
  cases around with
  | top => exact room
  | array items around =>
      obtain ⟨outer, depth, each⟩ := fits
      exact ⟨List.cons_ne_nil _ _, outer, depth, List.forall_mem_cons.mpr ⟨room, each⟩⟩
  | object members name around =>
      obtain ⟨outer, depth, each⟩ := fits
      exact ⟨List.cons_ne_nil _ _, outer, depth, List.forall_mem_cons.mpr ⟨room, each⟩⟩

theorem enter_some (entered : enter (some limit) around spot = some next) : next = spot ∧ around.depth < limit := by
  unfold enter at entered
  split at entered
  · cases entered
  · rename_i room
    exact ⟨(Option.some.inj entered).symm, by simpa using room⟩

theorem Around.Fits.depth (fits : Around.Fits limit around) : around.depth ≤ limit := by
  cases around with
  | top => exact Nat.zero_le _
  | array => exact fits.2.1
  | object => exact fits.2.1

theorem readValue_follows (fits : Around.Fits limit around) (plain : lexeme.Plain)
    (read : readValue (some limit) around lexeme = some next) : next.Follows limit (.value around) lexeme := by
  cases lexeme with
  | scalar json =>
      cases Option.some.inj read
      have alone : words json = [.scalar json] ∧ json.nesting = 0 := by cases plain <;> exact ⟨rfl, rfl⟩
      refine ⟨?_, put_fits fits ?_⟩
      · rw [put_front, alone.1]
        rfl
      · rw [alone.2, Nat.zero_add]
        exact fits.depth
  | openArray =>
      obtain ⟨rfl, room⟩ := enter_some read
      exact ⟨rfl, fits, room, nofun⟩
  | openObject =>
      obtain ⟨rfl, room⟩ := enter_some read
      exact ⟨rfl, fits, room, nofun⟩
  | _ => cases read

theorem readName_follows (fits : (Around.object members "" around).Fits limit)
    (read : readName members around lexeme = some next) :
    next.Follows limit (.name members around) lexeme := by
  unfold readName at read
  split at read
  · cases read
    exact ⟨by simp [Spot.front], fits⟩
  · cases read

theorem close_array (fits : (Around.array items around).Fits limit) :
    (put (.array items.reverse) around).front = around.front ++ .openArray :: separated words items.reverse ++ [.closeArray] ∧
      (put (.array items.reverse) around).Fits limit := by
  obtain ⟨outer, room, each⟩ := fits
  refine ⟨by rw [put_front, words_array]; simp, put_fits outer ?_⟩
  have inner := itemsNesting_lt room fun item inside => each item (List.mem_reverse.mp inside)
  rw [nesting]
  omega

theorem close_object (fits : (Around.object members "" around).Fits limit) :
    (put (.object members.reverse) around).front =
      around.front ++ .openObject :: separated memberWord members.reverse ++ [.closeObject] ∧
      (put (.object members.reverse) around).Fits limit := by
  obtain ⟨outer, room, each⟩ := fits
  refine ⟨by rw [put_front, words_object]; simp, put_fits outer ?_⟩
  have inner := membersNesting_lt room fun member inside => each member (List.mem_reverse.mp inside)
  rw [nesting]
  omega

theorem step_follows (fits : spot.Fits limit) (plain : lexeme.Plain) (moved : step (some limit) spot lexeme = some next) :
    next.Follows limit spot lexeme := by
  cases spot with
  | value around => exact readValue_follows fits plain moved
  | firstItem around =>
      cases lexeme with
      | closeArray =>
          cases moved
          exact close_array fits
      | _ => exact readValue_follows fits plain moved
  | afterItem items around =>
      obtain ⟨filled, fits⟩ := fits
      cases lexeme with
      | comma =>
          cases moved
          refine ⟨?_, fits⟩
          simp [Spot.front, Around.front, listed_separated, filled]
      | closeArray =>
          cases moved
          exact close_array fits
      | _ => cases moved
  | firstName around =>
      cases lexeme with
      | closeObject =>
          cases moved
          exact close_object fits
      | _ => exact readName_follows fits moved
  | name members around => exact readName_follows fits moved
  | colon members name around =>
      cases lexeme with
      | colon =>
          cases moved
          exact ⟨by simp [Spot.front, Around.front], fits⟩
      | _ => cases moved
  | afterMember members around =>
      obtain ⟨filled, fits⟩ := fits
      cases lexeme with
      | comma =>
          cases moved
          refine ⟨?_, fits⟩
          simp [Spot.front, listed_separated, filled]
      | closeObject =>
          cases moved
          exact close_object fits
      | _ => cases moved
  | finished => cases moved

theorem build_front (fits : spot.Fits limit) (plain : ∀ lexeme ∈ coming, lexeme.Plain)
    (built : build (some limit) spot coming = some json) :
    words json = spot.front ++ coming ∧ json.nesting ≤ limit := by
  induction coming generalizing spot with
  | nil =>
      cases spot with
      | finished =>
          cases built
          exact ⟨(List.append_nil _).symm, fits⟩
      | _ => cases built
  | cons lexeme rest ih =>
      obtain ⟨first, others⟩ := List.forall_mem_cons.mp plain
      obtain ⟨next, moved, later⟩ := Option.bind_eq_some_iff.mp built
      obtain ⟨front, fits⟩ := step_follows fits first moved
      have whole := ih fits others later
      rwa [front, List.append_assoc] at whole

end KeywordConfig.Json
