import WorkflowScope.Command.Provider
import WorkflowScope.Proofs.Command.Lines
import WorkflowScope.Proofs.Query.Descent

/-!
# The command at a position

The command at a position is found by going down to the entry that the caret touches, all commands
by collecting the entries of the enable path. The first never gives a command that the second does
not, whatever the tree is like.
-/

namespace WorkflowScope.CommandProvider

variable {provider : CommandProvider} {snapshot : Snapshot} {offset : Nat} {pair : Entry}

/-- All that is known of an entry of the enable path that a caret touches. -/
theorem entryAt?_eq_some (found : provider.entryAt? snapshot offset = some pair) :
    ∃ located, snapshot.locate offset = some located ∧
      provider.enablePath.accepts located.path = true ∧
      located.element.pair? = some pair ∧ pair.value.span.contains offset = true := by
  simp only [entryAt?, Option.bind_eq_bind, Option.bind_eq_some_iff] at found
  obtain ⟨located, here, found⟩ := found
  split at found
  · cases found
  · next fits =>
      obtain ⟨other, isPair, found⟩ := Option.bind_eq_some_iff.1 found
      split at found
      · next touched =>
          obtain rfl := Option.some.inj found
          exact ⟨located, here, by simpa using fits, isPair, touched⟩
      · cases found

/-- The lines of a document that has been read are those of its text. -/
theorem index_of_snapshot? {document : Document}
    (read : provider.snapshot? document = some snapshot) :
    snapshot.index = .ofText document.text.toList := by
  simp only [snapshot?, Document.snapshot, Snapshot.ofText] at read
  split at read
  · cases tree : Snapshot.tree document.text.toList with
    | error fault => simp [tree, Except.toOption, bind, Except.bind] at read
    | ok root =>
        simp only [tree, Except.toOption, bind, Except.bind, Option.some.injEq] at read
        rw [← read]
  · cases read

/-- The entry that a caret touches is one that the enable path collects. -/
theorem mem_collect_of_entryAt? (found : provider.entryAt? snapshot offset = some pair) :
    ∃ collected ∈ snapshot.root.collect provider.enablePath, collected.pair = pair := by
  obtain ⟨located, here, fits, isPair, -⟩ := entryAt?_eq_some found
  obtain ⟨keys, path, member⟩ := Node.mem_entries_of_locate here isPair
  rw [path, KeyPath.accepts_ofKeys] at fits
  exact ⟨⟨keys, pair⟩, Node.mem_collect_iff.2 ⟨member, fits⟩, rfl⟩

theorem mem_commandsIn_of_commandIn? {position : Position} {range : Range}
    (found : provider.commandIn? snapshot position = some range) :
    range ∈ provider.commandsIn snapshot ∧ range.contains position = true := by
  simp only [commandIn?, Option.bind_eq_bind, Option.bind_eq_some_iff] at found
  obtain ⟨pair, entry, command, first, same⟩ := found
  obtain rfl := Option.some.inj same
  obtain ⟨collected, member, rfl⟩ := mem_collect_of_entryAt? entry
  have touched : command.contains position = true := by simpa using List.find?_some first
  refine ⟨?_, touched⟩
  simp only [commandsIn, Node.collectValues, List.mem_flatMap, List.mem_map]
  exact ⟨_, ⟨collected, member, rfl⟩, command, List.mem_of_find?_eq_some first, rfl⟩

/-- The command at a position is one of all commands of the document, and the position lies on it. -/
theorem mem_commands_of_commandAt? {document : Document} {position : Position} {range : Range}
    (found : provider.commandAt? document position = some range) :
    range ∈ provider.commands document ∧ range.contains position = true := by
  simp only [commandAt?, Option.bind_eq_bind, Option.bind_eq_some_iff] at found
  obtain ⟨snapshot, read, found⟩ := found
  rw [commands, read]
  exact mem_commandsIn_of_commandIn? found

/-- A workflow whose only job runs two commands in a literal block. -/
def twoCommands : Document :=
  { path := ".github/workflows/ci.yml"
    text := "jobs:\n  a:\n    steps:\n    - run: |\n        x\n        y\n" }

def stepCommands : CommandProvider :=
  ⟨⟨[.key "jobs", .wildcard, .key "steps", .key "run"]⟩, .standard⟩

theorem mem_commands_twoCommands :
    stepCommands.commandAt? twoCommands ⟨5, 8⟩ = some ⟨⟨5, 8⟩, ⟨5, 9⟩⟩ ∧
      (⟨⟨5, 8⟩, ⟨5, 9⟩⟩ : Range) ∈ stepCommands.commands twoCommands ∧
      Range.contains ⟨⟨5, 8⟩, ⟨5, 9⟩⟩ ⟨5, 8⟩ = true := by
  have found : stepCommands.commandAt? twoCommands ⟨5, 8⟩ = some ⟨⟨5, 8⟩, ⟨5, 9⟩⟩ := by
    decide +kernel
  exact ⟨found, mem_commands_of_commandAt? found⟩

/-! ## Every command is found -/

/-- A caret in the value of a collected entry is in an entry of the enable path, if the tree is well
placed. -/
theorem entryAt?_of_mem_collect {text : List Char} (placed : snapshot.root.WellPlaced text)
    {collected : Collected} (member : collected ∈ snapshot.root.collect provider.enablePath)
    {scalar : Scalar} (value : collected.pair.value = .scalar scalar)
    (touched : scalar.span.contains offset = true) :
    provider.entryAt? snapshot offset = some collected.pair := by
  obtain ⟨inTree, fits⟩ := Node.mem_collect_iff.1 member
  obtain ⟨child, inRoot, below⟩ := snapshot.root.holds_of_mem_entries inTree
  obtain ⟨within, behind, -, -⟩ := (placed _ (.child inRoot below)).value _ rfl
  have inValue := Span.contains_eq_true.1 touched
  simp only [value, Node.span] at within behind
  have found := Node.locate_of_mem_entries
    (fun inner holds => ⟨(placed inner holds).nested, (placed inner holds).forward⟩) inTree
    (Nat.lt_of_lt_of_le behind inValue.1) (Nat.le_trans inValue.2 within.stop_le)
  have itself : Found.inEntry offset collected.pair = ⟨.pair collected.pair, []⟩ := by
    simp [Found.inEntry, value, Node.descendInside]
  rw [itself, List.append_nil] at found
  simp [entryAt?, Snapshot.locate, found, KeyPath.accepts_ofKeys, fits, Element.pair?, value,
    Node.span, inValue]

section Commands

variable {text : List Char} (plain : '\r' ∉ text) (small : text.length < 0x80000000)
  (index : snapshot.index = .ofText text) {scalar : Scalar}
  (raw : scalar.raw.toList = scalar.span.slice text)
  (forward : scalar.span.start ≤ scalar.span.stop) (bound : scalar.span.stop ≤ text.length)
  {position : Position}

include plain small index raw forward bound

/-- The offset of a position on a command lies in the span of the command, and in that of the value
that holds it. -/
theorem contains_offsetAt_of_contains {command : CommandRange}
    (member : command ∈ CommandRange.ofValue snapshot (.scalar scalar))
    (inside : command.contains position = true) :
    command.span.contains (snapshot.offsetAt position) = true ∧
      scalar.span.contains (snapshot.offsetAt position) = true := by
  obtain ⟨inSpans, range⟩ := CommandRange.mem_ofValue.1 member
  obtain ⟨within, ordered⟩ := CommandRange.mem_spansOf_within raw forward inSpans
  simp only [CommandRange.contains, range, Snapshot.rangeOf, index] at inside
  have touched := LineIndex.contains_offsetAt plain small ordered
    (Nat.le_trans within.stop_le bound) inside
  rw [Snapshot.offsetAt, index]
  exact ⟨touched, within.contains touched⟩

/-- A position lies on at most one of the commands of a value, so the first that it lies on is the
only one. -/
theorem find?_ofValue {command : CommandRange}
    (member : command ∈ CommandRange.ofValue snapshot (.scalar scalar))
    (inside : command.contains position = true) :
    (CommandRange.ofValue snapshot (.scalar scalar)).find? (·.contains position) = some command := by
  cases first : (CommandRange.ofValue snapshot (.scalar scalar)).find? (·.contains position) with
  | none =>
      have missing := List.find?_eq_none.1 first command member
      exact absurd inside missing
  | some other =>
      have inOther := List.mem_of_find?_eq_some first
      have onOther : other.contains position = true := by simpa using List.find?_some first
      have same : other.span = command.span :=
        CommandRange.eq_of_apart (CommandRange.spansOf_apart (.scalar scalar))
          (CommandRange.mem_ofValue.1 inOther).1 (CommandRange.mem_ofValue.1 member).1
          (contains_offsetAt_of_contains plain small index raw forward bound inOther onOther).1
          (contains_offsetAt_of_contains plain small index raw forward bound member inside).1
      have sameRange : other.range = command.range := by
        rw [(CommandRange.mem_ofValue.1 inOther).2, same, (CommandRange.mem_ofValue.1 member).2]
      obtain ⟨span, range⟩ := other
      simp only at same sameRange
      rw [same, sameRange]

end Commands

/-- In a document whose tree is well placed in a text without carriage returns, asking at a position
of a command gives that command, for every entry of the enable path. -/
theorem commandAt?_of_mem_collect {document : Document} {position : Position}
    {collected : Collected} {command : CommandRange}
    (read : provider.snapshot? document = some snapshot)
    (plain : '\r' ∉ document.text.toList) (small : document.text.toList.length < 0x80000000)
    (placed : snapshot.root.WellPlaced document.text.toList)
    (member : collected ∈ snapshot.root.collect provider.enablePath)
    (inValue : command ∈ CommandRange.ofValue snapshot collected.pair.value)
    (inside : command.contains position = true) :
    provider.commandAt? document position = some command.range := by
  have index : snapshot.index = .ofText document.text.toList := index_of_snapshot? read
  obtain ⟨inTree, -⟩ := Node.mem_collect_iff.1 member
  obtain ⟨child, inRoot, below⟩ := snapshot.root.holds_of_mem_entries inTree
  obtain ⟨-, -, bounded, value⟩ := placed _ (.child inRoot below)
  obtain ⟨within, -, forward, raw⟩ := value _ rfl
  have bound := Nat.le_trans within.stop_le bounded
  cases value : collected.pair.value with
  | mapping span pairs => simp [value, CommandRange.ofValue, CommandRange.spansOf] at inValue
  | sequence span items => simp [value, CommandRange.ofValue, CommandRange.spansOf] at inValue
  | scalar scalar =>
      rw [value] at inValue forward bound raw
      have raw := raw scalar rfl
      have touched := (contains_offsetAt_of_contains plain small index raw forward bound inValue
        inside).2
      have first := find?_ofValue plain small index raw forward bound inValue inside
      have entry := entryAt?_of_mem_collect placed member value touched
      simp [commandAt?, read, commandIn?, entry, value, first]

theorem commandAt?_twoCommands :
    ∃ snapshot collected command,
      stepCommands.snapshot? twoCommands = some snapshot ∧
      snapshot.root.WellPlaced twoCommands.text.toList ∧
      collected ∈ snapshot.root.collect stepCommands.enablePath ∧
      command ∈ CommandRange.ofValue snapshot collected.pair.value ∧
      command.contains ⟨5, 8⟩ = true ∧
      stepCommands.commandAt? twoCommands ⟨5, 8⟩ = some command.range := by
  have checked : (stepCommands.snapshot? twoCommands).any (fun snapshot =>
      decide (snapshot.root.WellPlaced twoCommands.text.toList) &&
        (snapshot.root.collect stepCommands.enablePath).any fun collected =>
          (CommandRange.ofValue snapshot collected.pair.value).any (·.contains ⟨5, 8⟩)) = true := by
    decide +kernel
  simp only [Option.any_eq_true, Bool.and_eq_true, decide_eq_true_eq, List.any_eq_true] at checked
  obtain ⟨snapshot, read, placed, collected, member, command, inValue, inside⟩ := checked
  exact ⟨snapshot, collected, command, read, placed, member, inValue, inside,
    commandAt?_of_mem_collect read (by decide +kernel) (by decide +kernel) placed member inValue
      inside⟩

end WorkflowScope.CommandProvider
