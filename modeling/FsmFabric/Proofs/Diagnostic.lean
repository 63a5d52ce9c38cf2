import FsmFabric.Diagnostic
import FsmFabric.Proofs.Reading
import Mathlib.Data.List.Forall2
import Mathlib.Data.List.Induction
import Mathlib.Data.List.TakeWhile
import Mathlib.Data.Nat.Find

/-!
# Where a diagnostic points

A text is cut at the last place between two characters that is not past the offset. The line breaks
before the cut count the lines above, and what stands between the last of them and the next one is
the line that is shown. The same holds for the text of a diagnostic itself: whatever stands in its
file name, the caret line has the same label as the line that it points into.
-/

namespace FsmFabric.Diagnostic

open Reading

def lines (text : String) : List (List Char) := text.toList.splitOn '\n'

/-- The last byte not past an offset at which a character starts or the text ends. -/
def boundary (source : String) (offset : Nat) : Nat :=
  Nat.findGreatest (fun byte => String.Pos.Raw.IsValid source ⟨byte⟩)
    (min offset source.utf8ByteSize)

/-! ## The cut -/

theorem countBefore_eq_add (counted offset : Nat) (text : List Char) :
    countBefore counted offset text = counted + countBefore 0 offset text := by
  induction text generalizing counted offset with
  | nil => rfl
  | cons c rest ih =>
    rw [countBefore, countBefore]
    split
    · rw [ih, ih (0 + 1), Nat.zero_add, Nat.add_assoc]
    · rfl

theorem countBefore_cons_of_le {c : Char} {offset : Nat} (fits : c.utf8Size ≤ offset)
    (rest : List Char) :
    countBefore 0 offset (c :: rest) = countBefore 0 (offset - c.utf8Size) rest + 1 := by
  rw [countBefore, if_pos fits, countBefore_eq_add, Nat.add_comm]

theorem utf8ByteSize_take_countBefore_le (offset : Nat) (text : List Char) :
    (String.ofList (text.take (countBefore 0 offset text))).utf8ByteSize ≤ offset := by
  induction text generalizing offset with
  | nil => exact Nat.zero_le offset
  | cons c rest ih =>
    by_cases fits : c.utf8Size ≤ offset
    · rw [countBefore_cons_of_le fits, List.take_succ_cons, utf8ByteSize_ofList_cons]
      have := ih (offset - c.utf8Size)
      omega
    · rw [countBefore, if_neg fits]
      exact Nat.zero_le offset

/-- No longer part from the front ends at or before the offset. -/
theorem utf8ByteSize_take_le {offset k : Nat} {text : List Char}
    (fits : (String.ofList (text.take k)).utf8ByteSize ≤ offset) :
    (String.ofList (text.take k)).utf8ByteSize ≤
      (String.ofList (text.take (countBefore 0 offset text))).utf8ByteSize := by
  induction text generalizing offset k with
  | nil => rw [List.take_nil, List.take_nil]
  | cons c rest ih =>
    cases k with
    | zero => exact Nat.zero_le _
    | succ k =>
      rw [List.take_succ_cons, utf8ByteSize_ofList_cons] at fits ⊢
      have first : c.utf8Size ≤ offset := by omega
      rw [countBefore_cons_of_le first, List.take_succ_cons, utf8ByteSize_ofList_cons]
      exact Nat.add_le_add_left (ih (by omega)) _

theorem cut_append (offset : Nat) (text : List Char) :
    (cut offset text).1 ++ (cut offset text).2 = text := by
  rw [cut, List.splitAt_eq]
  exact List.take_append_drop _ text

theorem utf8ByteSize_cut (source : String) (offset : Nat) :
    (String.ofList (cut offset source.toList).1).utf8ByteSize = boundary source offset := by
  rw [cut, List.splitAt_eq]
  refine (Nat.findGreatest_eq_iff.2 ⟨?_, fun _ => ?_, fun byte past inside valid => ?_⟩).symm
  · refine Nat.le_min.2 ⟨utf8ByteSize_take_countBefore_le offset _, ?_⟩
    exact String.Pos.Raw.IsValid.le_utf8ByteSize
      (String.Pos.Raw.isValid_iff_exists_take_toList.2 ⟨_, rfl⟩)
  · exact String.Pos.Raw.isValid_iff_exists_take_toList.2 ⟨_, rfl⟩
  · obtain ⟨k, rfl⟩ := String.Pos.Raw.isValid_iff_exists_take_toList.1 valid
    have most := utf8ByteSize_take_le (Nat.le_trans inside (Nat.min_le_left _ _))
    exact Nat.not_lt.2 most past

/-! ## Lines -/

theorem lastLine_concat (before : List Char) (c : Char) :
    lastLine (before ++ [c]) = if c = '\n' then [] else lastLine before ++ [c] := by
  by_cases stop : c = '\n' <;> simp [lastLine, stop]

theorem newline_not_mem_lastLine (before : List Char) : '\n' ∉ lastLine before := by
  rw [lastLine, List.mem_reverse]
  intro member
  simpa using List.mem_takeWhile_imp member

/-- A text is its full lines, each with its line break, and the last line. -/
theorem exists_above (before : List Char) :
    ∃ above : List (List Char), above.length = before.count '\n' ∧ (∀ line ∈ above, '\n' ∉ line) ∧
      before = above.flatMap (· ++ ['\n']) ++ lastLine before := by
  induction before using List.reverseRecOn with
  | nil => exact ⟨[], rfl, fun _ member => absurd member List.not_mem_nil, rfl⟩
  | append_singleton before c ih =>
    obtain ⟨above, count, free, parts⟩ := ih
    rw [lastLine_concat]
    by_cases stop : c = '\n'
    · subst stop
      refine ⟨above ++ [lastLine before], by simp [count], ?_, ?_⟩
      · intro line member
        rcases List.mem_append.1 member with earlier | last
        · exact free line earlier
        · rw [List.mem_singleton.1 last]
          exact newline_not_mem_lastLine before
      · rw [if_pos rfl, List.flatMap_append, List.flatMap_singleton, List.append_nil,
          ← List.append_assoc, ← parts]
    · have none : [c].count '\n' = 0 := List.count_eq_zero.2 (by simpa using Ne.symm stop)
      refine ⟨above, by rw [count, List.count_append, none, Nat.add_zero], free, ?_⟩
      rw [if_neg stop, ← List.append_assoc, ← parts]

/-- The line that holds a place, when the text before and after the place is given. -/
def lineAround (before after : List Char) : List Char :=
  lastLine before ++ after.takeWhile (· != '\n')

theorem newline_not_mem_lineAround (before after : List Char) :
    '\n' ∉ lineAround before after := by
  rw [lineAround, List.mem_append, not_or]
  exact ⟨newline_not_mem_lastLine before, fun member => by
    simpa using List.mem_takeWhile_imp member⟩

theorem exists_below (before after : List Char) :
    ∃ below, (lastLine before ++ after).splitOn '\n' = lineAround before after :: below := by
  have free := newline_not_mem_lineAround before after
  have parts : after.takeWhile (· != '\n') ++ after.dropWhile (· != '\n') = after :=
    List.takeWhile_append_dropWhile
  cases rest : after.dropWhile (· != '\n') with
  | nil =>
    rw [rest, List.append_nil] at parts
    refine ⟨[], ?_⟩
    rw [lineAround, parts] at free ⊢
    exact List.splitOn_eq_singleton free
  | cons c below =>
    have stop : c = '\n' := by
      have first := List.head?_dropWhile_not (· != '\n') after
      rw [rest] at first
      simpa using first
    rw [rest, stop] at parts
    refine ⟨below.splitOn '\n', ?_⟩
    rw [← List.splitOn_append_cons_self_of_not_mem free, lineAround, List.append_assoc, parts]

/-- A place in a text lies in the line that as many line breaks precede as precede the place. -/
theorem exists_lines (before after : List Char) :
    ∃ above below, above.length = before.count '\n' ∧
      before = above.flatMap (· ++ ['\n']) ++ lastLine before ∧
      (before ++ after).splitOn '\n' = above ++ lineAround before after :: below := by
  obtain ⟨above, count, free, parts⟩ := exists_above before
  obtain ⟨below, rest⟩ := exists_below before after
  refine ⟨above, below, count, parts, ?_⟩
  rw [← rest, ← splitOn_flatMap free, ← List.append_assoc, ← parts]

/-! ## The text of a diagnostic -/

def position (d : Diagnostic) : List Char :=
  (":" ++ toString d.line ++ ":" ++ toString d.column ++ ": ").toList

theorem newline_not_mem_position (d : Diagnostic) : '\n' ∉ d.position := by
  have digits (n : Nat) : '\n' ∉ (toString n).toList := by
    rw [Nat.toString_eq_repr, Nat.toList_repr]
    exact (writes_toDigits (show 1 < 10 by decide) n).not_mem (by decide) (by decide)
  show '\n' ∉ (":" ++ toString d.line ++ ":" ++ toString d.column ++ ": ").toList
  simp only [String.toList_append, List.mem_append, digits, or_false, not_or]
  decide

/-- What stands in front of the lines of the text, without the lines that a file name may have. -/
def label (d : Diagnostic) : List Char := lastLine d.file.toList ++ d.position

theorem newline_not_mem_label (d : Diagnostic) : '\n' ∉ d.label := by
  rw [label, List.mem_append, not_or]
  exact ⟨newline_not_mem_lastLine _, d.newline_not_mem_position⟩

theorem toList_text (d : Diagnostic) :
    d.text.toList =
      d.file.toList ++ d.position ++ ("error parsing config".toList ++ '\n' ::
        (d.file.toList ++ d.position ++ (d.sourceLine.toList ++ '\n' ::
          (d.file.toList ++ d.position ++ (d.pointer.toList ++ '\n' ::
            (d.file.toList ++ d.position ++ ("error: ".toList ++ d.message.toList))))))) := by
  show (let place := d.file ++ ":" ++ toString d.line ++ ":" ++ toString d.column ++ ": "
    place ++ "error parsing config\n" ++ place ++ d.sourceLine ++ "\n" ++ place ++ d.pointer ++
      "\n" ++ place ++ "error: " ++ d.message).toList = _
  have stop : "\n".toList = ['\n'] := rfl
  have first : "error parsing config\n".toList = "error parsing config".toList ++ ['\n'] := rfl
  simp only [position, String.toList_append, stop, first, List.append_assoc, List.nil_append,
    List.cons_append]

/-- A label splits off the same lines wherever it stands. -/
theorem exists_labelled (d : Diagnostic) :
    ∃ above : List (List Char), above.length = d.file.toList.count '\n' ∧
      (∀ rest, (d.file.toList ++ d.position ++ rest).splitOn '\n' =
        above ++ (d.label ++ rest).splitOn '\n') := by
  obtain ⟨above, count, free, parts⟩ := exists_above d.file.toList
  refine ⟨above, count, fun rest => ?_⟩
  rw [← splitOn_flatMap free, label, ← List.append_assoc, ← List.append_assoc, ← parts]

/-- The lines of the text: those of a file name with line breaks come before each of the four. -/
theorem exists_lines_text {d : Diagnostic} (source : '\n' ∉ d.sourceLine.toList)
    (caret : '\n' ∉ d.pointer.toList) :
    ∃ above : List (List Char), above.length = d.file.toList.count '\n' ∧
      lines d.text =
        above ++ (d.label ++ "error parsing config".toList) ::
          (above ++ (d.label ++ d.sourceLine.toList) ::
            (above ++ (d.label ++ d.pointer.toList) ::
              (above ++ (d.label ++ ("error: ".toList ++ d.message.toList)).splitOn '\n'))) := by
  obtain ⟨above, count, split⟩ := d.exists_labelled
  have line {body : List Char} (free : '\n' ∉ body) (rest : List Char) :
      (d.file.toList ++ d.position ++ (body ++ '\n' :: rest)).splitOn '\n' =
        above ++ (d.label ++ body) :: rest.splitOn '\n' := by
    rw [split, ← List.append_assoc, List.splitOn_append_cons_self_of_not_mem]
    rw [List.mem_append, not_or]
    exact ⟨d.newline_not_mem_label, free⟩
  refine ⟨above, count, ?_⟩
  rw [lines, toList_text, line (by decide), line source, line caret, split]

/-! ## The place of a diagnostic -/

/-- The diagnostic names a line of the text by its number. What precedes the byte in the text is the
lines above and the characters of this line before the column. -/
structure PointsAt (d : Diagnostic) (source : String) (byte : Nat) : Prop where
  place : ∃ above below before after,
    lines source = above ++ d.sourceLine.toList :: below ∧ d.line = above.length + 1 ∧
    source = before ++ after ∧ before.utf8ByteSize = byte ∧
    before.toList = above.flatMap (· ++ ['\n']) ++ d.sourceLine.toList.take (d.column - 1)
  column_pos : 1 ≤ d.column
  column_le : d.column ≤ d.sourceLine.length + 1

/-- The text shows the line and, under the same label, a caret below the column. -/
structure ShowsCaret (d : Diagnostic) (blanks : List Char) : Prop where
  pointer : d.pointer.toList = blanks ++ ['^']
  length : blanks.length = d.column - 1
  under : List.Forall₂ (fun blank c => blank = if c = '\t' then '\t' else ' ') blanks
    (d.sourceLine.toList.take (d.column - 1))
  shown : ∃ above : List (List Char), above.length = d.file.toList.count '\n' ∧
    lines d.text =
      above ++ (d.label ++ "error parsing config".toList) ::
        (above ++ (d.label ++ d.sourceLine.toList) ::
          (above ++ (d.label ++ (blanks ++ ['^'])) ::
            (above ++ (d.label ++ ("error: ".toList ++ d.message.toList)).splitOn '\n')))

theorem toList_sourceLine_locate (file source : String) (offset : Nat) (message : String) :
    (locate file source offset message).sourceLine.toList =
      lineAround (cut offset source.toList).1 (cut offset source.toList).2 :=
  String.toList_ofList

theorem pointsAt_locate (file source : String) (offset : Nat) (message : String) :
    (locate file source offset message).PointsAt source (boundary source offset) := by
  have parts := cut_append offset source.toList
  obtain ⟨above, below, count, before, split⟩ :=
    exists_lines (cut offset source.toList).1 (cut offset source.toList).2
  have shown := toList_sourceLine_locate file source offset message
  have column : (locate file source offset message).column =
      (lastLine (cut offset source.toList).1).length + 1 := rfl
  refine ⟨⟨above, below, String.ofList (cut offset source.toList).1,
    String.ofList (cut offset source.toList).2, ?_, ?_, ?_, utf8ByteSize_cut source offset, ?_⟩,
    Nat.le_add_left 1 _, ?_⟩
  · rw [lines, shown, ← split, parts]
  · rw [count, locate]
  · rw [← String.ofList_append, parts, String.ofList_toList]
  · rw [String.toList_ofList, shown, column, Nat.add_sub_cancel, lineAround, List.take_left,
      ← before]
  · rw [← String.length_toList, shown, column, lineAround, List.length_append]
    exact Nat.add_le_add_right (Nat.le_add_right _ _) 1

def blanks (d : Diagnostic) : List Char :=
  (d.sourceLine.toList.take (d.column - 1)).map fun c => if c == '\t' then c else ' '

theorem showsCaret_blanks {d : Diagnostic} (free : '\n' ∉ d.sourceLine.toList)
    (inside : d.column ≤ d.sourceLine.length + 1) : d.ShowsCaret d.blanks := by
  have pointer : d.pointer.toList = d.blanks ++ ['^'] := by
    show (String.ofList d.blanks ++ "^").toList = _
    rw [String.toList_append, String.toList_ofList]
    rfl
  have caret : '\n' ∉ d.pointer.toList := by
    rw [pointer, blanks, List.mem_append, List.mem_map, not_or]
    refine ⟨?_, by decide⟩
    rintro ⟨c, -, same⟩
    split at same
    · next tab => exact absurd ((beq_iff_eq.1 tab).symm.trans same) (by decide)
    · exact absurd same (by decide)
  refine ⟨pointer, ?_, ?_, pointer ▸ exists_lines_text free caret⟩
  · rw [blanks, List.length_map, List.length_take, String.length_toList]
    omega
  · rw [blanks, List.forall₂_map_left_iff, List.forall₂_same]
    intro c _
    by_cases tab : c = '\t' <;> simp [tab]

/-- A diagnostic points at the character that holds its byte, or at the end of the text, and its
caret stands under that character. -/
theorem locate_points_at_boundary (file source : String) (offset : Nat) (message : String) :
    (locate file source offset message).PointsAt source (boundary source offset) ∧
      ∃ blanks, (locate file source offset message).ShowsCaret blanks := by
  have points := pointsAt_locate file source offset message
  have free : '\n' ∉ (locate file source offset message).sourceLine.toList := by
    rw [toList_sourceLine_locate]
    exact newline_not_mem_lineAround _ _
  exact ⟨points, _, showsCaret_blanks free points.column_le⟩

end FsmFabric.Diagnostic
