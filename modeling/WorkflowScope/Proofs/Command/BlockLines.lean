import WorkflowScope.Proofs.Command.Lines

/-!
# The lines of a literal block

A literal block has one command on each line behind its header. A line is cut into its indentation,
its command and the carriage returns at its end, so that nothing which is written on the line is
lost and nothing of the indentation is kept. As every command has a line of its own, no position
lies on two of them.
-/

namespace WorkflowScope

theorem Span.slice_append_middle (before content after : List Char) :
    slice ⟨before.length, before.length + content.length⟩ (before ++ (content ++ after)) =
      content := by
  simp [slice, length]

namespace CommandRange

open Text

/-! ## One line -/

/-- A line is cut into its indentation, its command and the carriage returns at its end. -/
structure Cut (line indent content returns : List Char) : Prop where
  joined : line = indent ++ (content ++ returns)
  indented : ∀ c ∈ indent, c = ' ' ∨ c = '\t'
  returned : ∀ c ∈ returns, c = '\r'
  unindented : ∀ c ∈ content.head?, c ≠ ' ' ∧ c ≠ '\t'
  trimmed : content.getLast? ≠ some '\r'

/-- The span of a line is that of its command. -/
theorem exists_cut (line : List Char) :
    ∃ indent content returns, Cut line indent content returns ∧
      ∀ offset, lineSpan offset line =
        ⟨offset + indent.length, offset + indent.length + content.length⟩ := by
  let blank := fun c => c == ' ' || c == '\t'
  let rest := line.dropWhile blank
  have indentation : line.takeWhile blank ++ rest = line := List.takeWhile_append_dropWhile
  have ending : (rest.reverse.dropWhile (· == '\r')).reverse ++
      (rest.reverse.takeWhile (· == '\r')).reverse = rest := by
    rw [← List.reverse_append, List.takeWhile_append_dropWhile, List.reverse_reverse]
  refine ⟨line.takeWhile blank, (rest.reverse.dropWhile (· == '\r')).reverse,
    (rest.reverse.takeWhile (· == '\r')).reverse, ⟨?_, ?_, ?_, ?_, ?_⟩, ?_⟩
  · rw [ending, indentation]
  · intro c member
    simpa [blank] using List.all_eq_true.1 List.all_takeWhile c member
  · intro c member
    simpa using List.all_eq_true.1 List.all_takeWhile c (List.mem_reverse.1 member)
  · intro c first
    -- The command starts as the rest of the line does, which is no longer blank.
    have start : rest.head? = some c := by
      rw [← ending, List.head?_append, Option.mem_def.1 first, Option.some_or]
    have written := List.head?_dropWhile_not blank line
    rw [show (line.dropWhile blank).head? = some c from start] at written
    simpa [blank] using written
  · rw [List.getLast?_reverse]
    intro last
    have written := List.head?_dropWhile_not (· == '\r') rest.reverse
    rw [last] at written
    simp at written
  · intro offset
    have length := congrArg List.length indentation
    rw [List.length_append] at length
    have indented : line.length - rest.length = (line.takeWhile blank).length := by omega
    rw [lineSpan, List.length_reverse]
    show Span.mk (offset + (line.length - rest.length)) _ = _
    rw [indented]

/-- A span of a text starts on a line, does not go beyond it, and has neither indentation in front
nor carriage returns at its end. -/
structure StandsOn (text : List Char) (line : Nat) (span : Span) : Prop where
  line_eq : (text.take span.start).count '\n' = line
  feedless : '\n' ∉ span.slice text
  unindented : ∀ c ∈ (span.slice text).head?, c ≠ ' ' ∧ c ≠ '\t'
  trimmed : (span.slice text).getLast? ≠ some '\r'

theorem standsOn_lineSpan {line : List Char} (plain : '\n' ∉ line) (before after : List Char) :
    StandsOn (before ++ (line ++ after)) (before.count '\n') (lineSpan before.length line) := by
  obtain ⟨indent, content, returns, cut, span⟩ := exists_cut line
  have placed : before ++ (line ++ after) =
      (before ++ indent) ++ (content ++ (returns ++ after)) := by
    simp [cut.joined]
  have slice : (lineSpan before.length line).slice (before ++ (line ++ after)) = content := by
    rw [span, placed, ← List.length_append]
    exact Span.slice_append_middle _ _ _
  rw [cut.joined] at plain
  simp only [List.mem_append, not_or] at plain
  constructor
  · rw [span, placed, ← List.length_append, List.take_left, List.count_append,
      List.count_eq_zero.2 plain.1, Nat.add_zero]
  · rw [slice]
    exact plain.2.1
  · rw [slice]
    exact cut.unindented
  · rw [slice]
    exact cut.trimmed

/-- All that is written on a line belongs to its command. -/
theorem lineSpan_covers {own : List Char} {i : Nat} {c : Char} (found : own[i]? = some c)
    (written : c ∉ [' ', '\t', '\r', '\n']) (offset : Nat) :
    (lineSpan offset own).start ≤ offset + i ∧ offset + i < (lineSpan offset own).stop := by
  obtain ⟨indent, content, returns, cut, span⟩ := exists_cut own
  simp only [List.mem_cons, List.not_mem_nil, or_false, not_or] at written
  rw [span]
  rw [cut.joined] at found
  have behind : indent.length ≤ i := by
    apply Nat.not_lt.1
    intro inIndent
    rw [List.getElem?_append_left inIndent] at found
    rcases cut.indented c (List.mem_of_getElem? found) with space | tab
    · exact written.1 space
    · exact written.2.1 tab
  rw [List.getElem?_append_right behind] at found
  have before : i - indent.length < content.length := by
    apply Nat.not_le.1
    intro inReturns
    rw [List.getElem?_append_right inReturns] at found
    exact written.2.2.1 (cut.returned c (List.mem_of_getElem? found))
  constructor <;> simp only <;> omega

/-! ## All lines -/

theorem count_behind_line {line : List Char} (plain : '\n' ∉ line) (before : List Char) :
    (before ++ (line ++ ['\n'])).count '\n' = before.count '\n' + 1 := by
  simp [List.count_eq_zero.2 plain]

theorem getElem?_behind_line (line rest : List Char) (i : Nat) :
    (line ++ '\n' :: rest)[line.length + i + 1]? = rest[i]? := by
  have later : line.length + i + 1 - line.length = i + 1 := by omega
  rw [List.getElem?_append_right (by omega), later, List.getElem?_cons_succ]

theorem lineSpans_cons_cons (offset : Nat) (line next : List Char) (rest : List (List Char)) :
    lineSpans offset (line :: next :: rest) =
      lineSpan offset line :: lineSpans (offset + line.length + 1) (next :: rest) :=
  rfl

theorem length_lineSpans (offset : Nat) (lines : List (List Char)) :
    (lineSpans offset lines).length =
      lines.length - if lines.getLast? = some [] then 1 else 0 := by
  induction lines generalizing offset with
  | nil => rfl
  | cons line rest ih =>
      cases rest with
      | nil => cases line <;> simp [lineSpans]
      | cons next rest =>
          rw [lineSpans_cons_cons, List.length_cons, ih, List.getLast?_cons_cons, List.length_cons]
          split <;> simp

/-- Lines that follow a text have their commands one after the other on the lines behind it. -/
theorem standsOn_lineSpans {lines : List (List Char)} (plain : ∀ line ∈ lines, '\n' ∉ line)
    (before after : List Char) {k : Nat} {span : Span}
    (found : (lineSpans before.length lines)[k]? = some span) :
    StandsOn (before ++ (joinLines lines ++ after)) (before.count '\n' + k) span := by
  induction lines generalizing before k with
  | nil => cases found
  | cons line rest ih =>
      have own := plain line List.mem_cons_self
      cases rest with
      | nil =>
          rw [lineSpans] at found
          split at found
          · cases found
          · obtain ⟨rfl, rfl⟩ : k = 0 ∧ lineSpan before.length line = span := by
              simpa [List.getElem?_singleton] using found
            exact standsOn_lineSpan own before after
      | cons next rest =>
          rw [lineSpans_cons_cons] at found
          cases k with
          | zero =>
              obtain rfl := Option.some.inj found
              rw [joinLines, List.append_assoc]
              exact standsOn_lineSpan own before _
          | succ k =>
              have later := ih (fun line member => plain line (List.mem_cons_of_mem _ member))
                (before ++ (line ++ ['\n'])) (by simpa [Nat.add_assoc] using found)
              rw [count_behind_line own, Nat.add_assoc, Nat.add_comm 1] at later
              simpa [joinLines] using later

theorem lineSpans_cover {lines : List (List Char)} {i : Nat} {c : Char}
    (found : (joinLines lines)[i]? = some c) (written : c ∉ [' ', '\t', '\r', '\n'])
    (offset : Nat) :
    ∃ span ∈ lineSpans offset lines, span.start ≤ offset + i ∧ offset + i < span.stop := by
  induction lines generalizing i offset with
  | nil => cases found
  | cons line rest ih =>
      cases rest with
      | nil =>
          rw [joinLines] at found
          cases line with
          | nil => cases found
          | cons first line =>
              exact ⟨_, List.mem_singleton_self _, lineSpan_covers found written offset⟩
      | cons next rest =>
          rw [joinLines] at found
          rw [lineSpans_cons_cons]
          rcases Nat.lt_trichotomy i line.length with inLine | atFeed | later
          · rw [List.getElem?_append_left inLine] at found
            exact ⟨_, List.mem_cons_self, lineSpan_covers found written offset⟩
          · rw [atFeed, List.getElem?_append_right (Nat.le_refl _), Nat.sub_self] at found
            obtain rfl := Option.some.inj found
            simp at written
          · obtain ⟨distance, rfl⟩ := Nat.exists_eq_add_of_lt later
            rw [getElem?_behind_line] at found
            obtain ⟨span, member, start, stop⟩ := ih found (offset + line.length + 1)
            exact ⟨span, List.mem_cons_of_mem _ member, by omega, by omega⟩

/-! ## The lines of a block -/

/-- A block is its header alone, or the header and the lines behind it. -/
theorem blockSpans_cases (raw : List Char) :
    ('\n' ∉ raw ∧ ∀ offset, blockSpans offset raw = []) ∨
    ∃ header lines, lines ≠ [] ∧ raw = header ++ '\n' :: joinLines lines ∧ '\n' ∉ header ∧
      (∀ line ∈ lines, '\n' ∉ line) ∧ splitLines raw = header :: lines ∧
      ∀ offset, blockSpans offset raw = lineSpans (offset + header.length + 1) lines := by
  obtain ⟨header, lines, cut⟩ := List.exists_cons_of_ne_nil (splitLines_ne_nil raw)
  have plain : ∀ line ∈ header :: lines, '\n' ∉ line := by
    rw [← cut]
    exact fun line member => not_mem_of_mem_splitLines member
  have joined := joinLines_splitLines raw
  rw [cut] at joined
  cases lines with
  | nil =>
      refine .inl ⟨?_, fun offset => by simp [blockSpans, cut, lineSpans]⟩
      rw [← joined]
      exact plain header List.mem_cons_self
  | cons next rest =>
      refine .inr ⟨header, next :: rest, List.cons_ne_nil _ _, joined.symm,
        plain header List.mem_cons_self,
        fun line member => plain line (List.mem_cons_of_mem _ member), cut,
        fun offset => by simp [blockSpans, cut]⟩

/-- A block has as many commands as lines behind its header. -/
theorem length_blockSpans (offset : Nat) (raw : List Char) :
    (blockSpans offset raw).length =
      raw.count '\n' - if raw.getLast? = some '\n' then 1 else 0 := by
  rcases blockSpans_cases raw with ⟨plain, none⟩ | ⟨header, lines, more, -, -, -, cut, spans⟩
  · simp [none, List.count_eq_zero.2 plain]
  · have written : raw ≠ [] := by
      rintro rfl
      rw [splitLines] at cut
      exact more (List.cons.inj cut).2.symm
    have counted := length_splitLines raw
    have last := getLast?_splitLines_eq_nil_iff raw
    rw [cut, List.length_cons] at counted
    rw [cut, List.getLast?_cons_of_ne_nil more, or_iff_right written] at last
    rw [spans, length_lineSpans, Nat.add_right_cancel counted]
    simp only [last]

theorem standsOn_blockSpans (before raw after : List Char) {k : Nat} {span : Span}
    (found : (blockSpans before.length raw)[k]? = some span) :
    StandsOn (before ++ (raw ++ after)) (before.count '\n' + (k + 1)) span := by
  rcases blockSpans_cases raw with ⟨-, none⟩ | ⟨header, lines, -, joined, own, plain, -, spans⟩
  · rw [none] at found
    cases found
  · have later := @standsOn_lineSpans lines plain (before ++ (header ++ ['\n'])) after k span
      (by simpa [spans, Nat.add_assoc] using found)
    rw [count_behind_line own, Nat.add_assoc, Nat.add_comm 1] at later
    simpa [joined] using later

theorem blockSpans_cover {raw : List Char} {i : Nat} {c : Char} (found : raw[i]? = some c)
    (behind : '\n' ∈ raw.take i) (written : c ∉ [' ', '\t', '\r', '\n']) (offset : Nat) :
    ∃ span ∈ blockSpans offset raw, span.start ≤ offset + i ∧ offset + i < span.stop := by
  rcases blockSpans_cases raw with ⟨plain, -⟩ | ⟨header, lines, -, joined, own, -, -, spans⟩
  · exact absurd (List.mem_of_mem_take behind) plain
  · have later : header.length < i := by
      apply Nat.not_le.1
      intro inHeader
      rw [joined, List.take_append_of_le_length inHeader] at behind
      exact own (List.mem_of_mem_take behind)
    obtain ⟨distance, rfl⟩ := Nat.exists_eq_add_of_lt later
    rw [joined, getElem?_behind_line] at found
    obtain ⟨span, member, start, stop⟩ := lineSpans_cover found written (offset + header.length + 1)
    rw [spans]
    exact ⟨span, member, by omega, by omega⟩

/-! ## The commands of a block -/

theorem StandsOn.stop_line {text : List Char} {line : Nat} {span : Span}
    (stands : StandsOn text line span) (forward : span.start ≤ span.stop) :
    (text.take span.stop).count '\n' = line := by
  have split : text.take span.stop = text.take span.start ++ span.slice text := by
    rw [Span.slice, Span.length, ← List.take_add, Nat.add_sub_cancel' forward]
  rw [split, List.count_append, stands.line_eq, List.count_eq_zero.2 stands.feedless, Nat.add_zero]

/-- Of commands with lines of their own no two hold the same position. -/
theorem eq_of_contains {commands : List CommandRange} {line : Nat}
    (lines : ∀ k command, commands[k]? = some command →
      command.range.start.line = line + (k + 1) ∧ command.range.stop.line = line + (k + 1))
    {i j : Nat} {first second : CommandRange} (atFirst : commands[i]? = some first)
    (atSecond : commands[j]? = some second) {position : Position}
    (onFirst : first.contains position = true) (onSecond : second.contains position = true) :
    i = j := by
  have on (k : Nat) (command : CommandRange) (found : commands[k]? = some command)
      (inside : command.contains position = true) : position.line = line + (k + 1) := by
    obtain ⟨start, stop⟩ := lines k command found
    simp only [contains, Range.contains, Bool.and_eq_true, Position.le_iff] at inside
    omega
  have same := (on i first atFirst onFirst).symm.trans (on j second atSecond onSecond)
  omega

section Block

variable {snapshot : Snapshot} {text : List Char} {scalar : Scalar} {commands : List CommandRange}
  (bound : scalar.span.stop ≤ text.length) (raw : scalar.raw.toList = scalar.span.slice text)
  (block : scalar.raw.toList.head? = some '|')
  (given : ofValue snapshot (.scalar scalar) = commands)

include raw block in
theorem start_lt_stop : scalar.span.start < scalar.span.stop := by
  apply Nat.not_le.1
  intro reversed
  rw [raw, Span.slice, Span.length, Nat.sub_eq_zero_of_le reversed] at block
  cases block

include block in
theorem spansOf_block :
    spansOf (.scalar scalar) = blockSpans scalar.span.start scalar.raw.toList := by
  simp only [spansOf, block, if_true]

include bound raw block given

theorem standsOn_of_getElem? {k : Nat} {command : CommandRange}
    (found : commands[k]? = some command) :
    StandsOn text ((text.take scalar.span.start).count '\n' + (k + 1)) command.span := by
  have forward := Nat.le_of_lt (start_lt_stop raw block)
  have placed : text =
      text.take scalar.span.start ++ (scalar.raw.toList ++ text.drop scalar.span.stop) := by
    rw [raw, Span.slice, Span.length, ← List.append_assoc, ← List.take_add,
      Nat.add_sub_cancel' forward, List.take_append_drop]
  have length : (text.take scalar.span.start).length = scalar.span.start :=
    List.length_take_of_le (Nat.le_trans forward bound)
  rw [← given, getElem?_ofValue, spansOf_block block, ← length] at found
  have stands := standsOn_blockSpans _ _ (text.drop scalar.span.stop) found.1
  rwa [← placed] at stands

/-- The command with number `k`, from zero, stands on the line `k + 1` behind the header. -/
theorem lines_of_getElem? (index : snapshot.index = .ofText text)
    (small : text.length < 0x80000000) {k : Nat} {command : CommandRange}
    (found : commands[k]? = some command) :
    command.range.start.line = (snapshot.rangeOf scalar.span).start.line + (k + 1) ∧
      command.range.stop.line = (snapshot.rangeOf scalar.span).start.line + (k + 1) := by
  have forward := Nat.le_of_lt (start_lt_stop raw block)
  have stands := standsOn_of_getElem? bound raw block given found
  rw [← given, getElem?_ofValue] at found
  obtain ⟨within, ordered⟩ := mem_spansOf_within raw forward (List.mem_of_getElem? found.1)
  have stop := Nat.le_trans within.stop_le bound
  simp only [found.2, Snapshot.rangeOf, index, LineIndex.rangeOf]
  rw [LineIndex.line_positionAt small (Nat.le_trans ordered stop),
    LineIndex.line_positionAt small stop,
    LineIndex.line_positionAt small (Nat.le_trans forward bound)]
  exact ⟨stands.line_eq, stands.stop_line ordered⟩

omit bound raw in
/-- All that is written behind the header belongs to one command. -/
theorem existsUnique_covering {i : Nat} {c : Char} (found : scalar.raw.toList[i]? = some c)
    (behind : '\n' ∈ scalar.raw.toList.take i) (written : c ∉ [' ', '\t', '\r', '\n']) :
    ∃! command, command ∈ commands ∧
      command.span.start ≤ scalar.span.start + i ∧ scalar.span.start + i < command.span.stop := by
  subst given
  obtain ⟨span, member, start, stop⟩ := blockSpans_cover found behind written scalar.span.start
  rw [← spansOf_block block] at member
  refine ⟨⟨span, snapshot.rangeOf span⟩, ⟨mem_ofValue.2 ⟨member, rfl⟩, start, stop⟩, ?_⟩
  rintro ⟨other, range⟩ ⟨inOther, otherStart, otherStop⟩
  obtain ⟨inSpans, same⟩ := mem_ofValue.1 inOther
  simp only at inSpans same otherStart otherStop
  obtain rfl : other = span := eq_of_apart (spansOf_apart _) inSpans member
    (Span.contains_eq_true.2 ⟨otherStart, Nat.le_of_lt otherStop⟩)
    (Span.contains_eq_true.2 ⟨start, Nat.le_of_lt stop⟩)
  rw [same]

end Block

/-- The commands of a literal block that stands in a text. There is one for each line behind the
header, on that line; they follow one another in the block, and a command neither goes beyond its
line nor has indentation in front or carriage returns at its end. All that is written behind the
header belongs to one command, and no position lies on two. -/
theorem ofValue_partitions_block {snapshot : Snapshot} {scalar : Scalar}
    {commands : List CommandRange} (index : snapshot.index = .ofText snapshot.text.toList)
    (small : snapshot.text.toList.length < 0x80000000)
    (bound : scalar.span.stop ≤ snapshot.text.toList.length)
    (raw : scalar.raw.toList = scalar.span.slice snapshot.text.toList)
    (block : scalar.raw.toList.head? = some '|')
    (given : ofValue snapshot (.scalar scalar) = commands) :
    (commands.length = scalar.raw.toList.count '\n' -
      if scalar.raw.toList.getLast? = some '\n' then 1 else 0) ∧
    (∀ k command, commands[k]? = some command →
      command.range.start.line = (snapshot.rangeOf scalar.span).start.line + (k + 1) ∧
      command.range.stop.line = (snapshot.rangeOf scalar.span).start.line + (k + 1)) ∧
    commands.Pairwise (fun first second => first.span.stop < second.span.start) ∧
    (∀ command ∈ commands,
      command.span.Within scalar.span ∧ command.span.start ≤ command.span.stop ∧
      '\n' ∉ command.span.slice snapshot.text.toList ∧
      (∀ c ∈ (command.span.slice snapshot.text.toList).head?, c ≠ ' ' ∧ c ≠ '\t') ∧
      (command.span.slice snapshot.text.toList).getLast? ≠ some '\r') ∧
    (∀ i c, scalar.raw.toList[i]? = some c → '\n' ∈ scalar.raw.toList.take i →
      c ∉ [' ', '\t', '\r', '\n'] →
      ∃! command, command ∈ commands ∧
        command.span.start ≤ scalar.span.start + i ∧ scalar.span.start + i < command.span.stop) ∧
    ∀ (i j : Nat) (first second : CommandRange) (position : Position),
      commands[i]? = some first → commands[j]? = some second →
      first.contains position = true → second.contains position = true → i = j := by
  have lines := fun k command =>
    @lines_of_getElem? _ _ _ _ bound raw block given index small k command
  refine ⟨?_, lines, ?_, ?_, ?_, ?_⟩
  · rw [← given, ofValue, List.length_map, spansOf_block block, length_blockSpans]
  · rw [← given, ofValue, List.pairwise_map]
    exact spansOf_apart (.scalar scalar)
  · intro command member
    obtain ⟨k, found⟩ := List.mem_iff_getElem?.1 member
    have stands := standsOn_of_getElem? bound raw block given found
    rw [← given, mem_ofValue] at member
    obtain ⟨within, ordered⟩ :=
      mem_spansOf_within raw (Nat.le_of_lt (start_lt_stop raw block)) member.1
    exact ⟨within, ordered, stands.feedless, stands.unindented, stands.trimmed⟩
  · intro i c found behind written
    exact existsUnique_covering block given found behind written
  · intro i j first second position atFirst atSecond onFirst onSecond
    exact eq_of_contains lines atFirst atSecond onFirst onSecond

/-- A block with a carriage return, a blank line, wide characters and no line feed at its end. -/
def mixedBlock : Scalar :=
  { span := ⟨5, 18⟩, value := "é\n\n😀 b", raw := "|\n  é\r\n\n  😀 b", style := .literal }

/-- The text in which the block stands, as the value of its only entry. -/
def mixedLines : Snapshot :=
  { text := "run: |\n  é\r\n\n  😀 b"
    index := .ofText "run: |\n  é\r\n\n  😀 b".toList
    root := .mapping ⟨0, 18⟩ [⟨⟨0, 18⟩, ⟨⟨0, 3⟩, "run"⟩, .scalar mixedBlock⟩] }

theorem ofValue_mixedBlock :
    (ofValue mixedLines (.scalar mixedBlock)).map (·.span) = [⟨9, 10⟩, ⟨12, 12⟩, ⟨15, 18⟩] ∧
    (ofValue mixedLines (.scalar mixedBlock)).length = 3 ∧
    (∃! command, command ∈ ofValue mixedLines (.scalar mixedBlock) ∧
      command.span.start ≤ 17 ∧ 17 < command.span.stop) ∧
    ∀ k command, (ofValue mixedLines (.scalar mixedBlock))[k]? = some command →
      command.range.start.line = k + 1 ∧ command.range.stop.line = k + 1 := by
  obtain ⟨length, lines, -, -, covered, -⟩ := @ofValue_partitions_block mixedLines mixedBlock _ rfl
    (by decide) (by decide) (by decide) (by decide) rfl
  refine ⟨by decide, length, covered 12 'b' (by decide) (by decide) (by decide), ?_⟩
  intro k command found
  have header : (mixedLines.rangeOf mixedBlock.span).start.line = 0 := by decide
  have line := lines k command found
  rwa [header, Nat.zero_add] at line

end CommandRange

end WorkflowScope
