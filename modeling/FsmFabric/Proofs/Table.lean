import FsmFabric.Table
import FsmFabric.Proofs.Reading
import Mathlib.Algebra.Ring.Nat
import Mathlib.Data.List.Forall2
import Mathlib.Data.List.GetD
import Mathlib.Order.Bounds.Basic

/-!
# The shape of tables

The widths are found line by line, and a line may add columns to those before it. In the end there
are as many columns as the longest line has cells, and each is as wide as its largest cell in bytes.
A cell never has more characters than bytes, so every cell can be filled up to the width of its
column, and the separators stand at sums of widths that no longer depend on the line.
-/

namespace FsmFabric.Table

open Reading

/-! ## Column widths -/

/-- As many columns as the longest line has cells, each as wide as its largest cell in bytes. -/
structure Fits (ws : List Nat) (lines : List (List String)) : Prop where
  columns : IsGreatest {n | ∃ cells ∈ lines, cells.length = n} ws.length
  width : ∀ k, IsGreatest {n | ∃ cells ∈ lines, (cells.getD k "").utf8ByteSize = n} (ws.getD k 0)

theorem widen_nil (xs : List Nat) : widen xs [] = xs := by simp [widen]

theorem nil_widen (ys : List Nat) : widen [] ys = ys := by simp [widen]

theorem widen_cons (x y : Nat) (xs ys : List Nat) :
    widen (x :: xs) (y :: ys) = max x y :: widen xs ys := by
  simp [widen]

theorem length_widen (xs ys : List Nat) : (widen xs ys).length = max xs.length ys.length := by
  induction xs generalizing ys with
  | nil => rw [nil_widen, List.length_nil, Nat.zero_max]
  | cons x xs ih =>
    cases ys with
    | nil => rw [widen_nil, List.length_nil, Nat.max_zero]
    | cons y ys =>
      rw [widen_cons, List.length_cons, ih, List.length_cons, List.length_cons, Nat.succ_max_succ]

theorem getD_widen (xs ys : List Nat) (k : Nat) :
    (widen xs ys).getD k 0 = max (xs.getD k 0) (ys.getD k 0) := by
  induction xs generalizing ys k with
  | nil => rw [nil_widen, List.getD_nil, Nat.zero_max]
  | cons x xs ih =>
    cases ys with
    | nil => rw [widen_nil, List.getD_nil, Nat.max_zero]
    | cons y ys =>
      rw [widen_cons]
      cases k with
      | zero => rfl
      | succ k => exact ih ys k

theorem getD_map_utf8ByteSize (cells : List String) (k : Nat) :
    (cells.map String.utf8ByteSize).getD k 0 = (cells.getD k "").utf8ByteSize :=
  List.getD_map cells "" String.utf8ByteSize

theorem isGreatest_concat {measure : List String → Nat} {lines : List (List String)} {most : Nat}
    (greatest : IsGreatest {n | ∃ cells ∈ lines, measure cells = n} most) (row : List String) :
    IsGreatest {n | ∃ cells ∈ lines ++ [row], measure cells = n} (max most (measure row)) := by
  have same : {n | ∃ cells ∈ lines ++ [row], measure cells = n} =
      insert (measure row) {n | ∃ cells ∈ lines, measure cells = n} := by
    ext n
    simp [or_and_right, exists_or, or_comm, eq_comm]
  rw [same, max_comm]
  exact greatest.insert (measure row)

/-- One more line widens the columns just enough. -/
theorem Fits.widen {ws : List Nat} {lines : List (List String)} (fits : Fits ws lines)
    (row : List String) :
    Fits (widen ws (row.map String.utf8ByteSize)) (lines ++ [row]) where
  columns := by
    rw [length_widen, List.length_map]
    exact isGreatest_concat fits.columns row
  width k := by
    rw [getD_widen, getD_map_utf8ByteSize]
    exact isGreatest_concat (fits.width k) row

theorem fits_headers (headers : List String) :
    Fits (headers.map String.utf8ByteSize) [headers] where
  columns := by simp [IsGreatest, upperBounds]
  width k := by
    rw [getD_map_utf8ByteSize]
    simp [IsGreatest, upperBounds]

theorem fits_widths (t : Table) : Fits t.widths (t.headers :: t.rows) := by
  have run (rows : List (List String)) {ws : List Nat} {lines : List (List String)}
      (fits : Fits ws lines) :
      Fits (rows.foldl (fun ws row => widen ws (row.map String.utf8ByteSize)) ws)
        (lines ++ rows) := by
    induction rows generalizing ws lines with
    | nil => rwa [List.append_nil]
    | cons row rows ih =>
      rw [List.foldl_cons, List.append_cons]
      exact ih (fits.widen row)
  exact run t.rows (fits_headers t.headers)

/-! ## Lines with posts -/

/-- Where a post stands when the columns have these widths, with a blank on each side of a cell. -/
def edge (ws : List Nat) (k : Nat) : Nat := ((ws.take k).map (· + 3)).sum

theorem edge_succ {ws : List Nat} {k : Nat} (inside : k < ws.length) :
    edge ws (k + 1) = edge ws k + (ws.getD k 0 + 3) := by
  rw [edge, List.take_succ_eq_append_getElem inside, List.map_append, List.sum_append,
    List.map_singleton, List.sum_singleton, List.getD_eq_getElem _ _ inside, edge]

/-- Parts of a line between posts. -/
def fenced (post : Char) (parts : List (List Char)) : List Char :=
  post :: parts.flatMap (· ++ [post])

theorem fenced_cons (post : Char) (part : List Char) (parts : List (List Char)) :
    fenced post (part :: parts) = (post :: part) ++ fenced post parts := by
  simp [fenced]

theorem drop_edge_fenced (post : Char) {parts : List (List Char)} {ws : List Nat}
    (fit : parts.map List.length = ws.map (· + 2)) (k : Nat) :
    (fenced post parts).drop (edge ws k) = fenced post (parts.drop k) := by
  induction k generalizing parts ws with
  | zero => rfl
  | succ k ih =>
    cases ws with
    | nil =>
      rw [List.map_nil, List.map_eq_nil_iff] at fit
      subst fit
      rfl
    | cons w ws =>
      cases parts with
      | nil => cases fit
      | cons part parts =>
        rw [List.map_cons, List.map_cons, List.cons.injEq] at fit
        have first : edge (w :: ws) (k + 1) = (post :: part).length + edge ws k := by
          simp only [edge, List.take_succ_cons, List.map_cons, List.sum_cons, List.length_cons]
          omega
        rw [first, fenced_cons, List.drop_length_add_append, ih fit.2, List.drop_succ_cons]

/-- The line has a post at every edge, and between two of them stands the part of that column. -/
structure Posted (post : Char) (ws : List Nat) (part : Nat → List Char) (text : List Char) :
    Prop where
  length : text.length = edge ws ws.length + 1
  post : ∀ k ≤ ws.length, text[edge ws k]? = some post
  part : ∀ k < ws.length,
    (text.drop (edge ws k + 1)).take (edge ws (k + 1) - (edge ws k + 1)) = part k

theorem posted_fenced (post : Char) {ws : List Nat} {part : Nat → List Char}
    (fit : ∀ k < ws.length, (part k).length = ws.getD k 0 + 2) :
    Posted post ws part (fenced post ((List.range ws.length).map part)) := by
  have lengths : ((List.range ws.length).map part).map List.length = ws.map (· + 2) := by
    refine List.ext_getElem (by simp) fun k _ inside => ?_
    rw [List.length_map] at inside
    have same := fit k inside
    rw [List.getD_eq_getElem _ _ inside] at same
    simpa using same
  have cut (k : Nat) := drop_edge_fenced post lengths k
  refine ⟨?_, fun k _ => ?_, fun k inside => ?_⟩
  · have none : ((List.range ws.length).map part).drop ws.length = [] :=
      List.drop_eq_nil_of_le (by simp)
    have last := congrArg List.length (cut ws.length)
    have one : (fenced post []).length = 1 := rfl
    rw [none, List.length_drop, one] at last
    omega
  · have first := congrArg (·[0]?) (cut k)
    simpa only [List.getElem?_drop, Nat.add_zero, fenced, List.getElem?_cons_zero] using first
  · have parts : ((List.range ws.length).map part).drop k =
        part k :: ((List.range ws.length).map part).drop (k + 1) := by
      rw [List.drop_eq_getElem_cons (by simpa using inside)]
      simp
    have width : edge ws (k + 1) - (edge ws k + 1) = (part k).length := by
      rw [edge_succ inside, fit k inside]
      omega
    rw [← List.drop_drop, cut, width, parts, fenced_cons, List.cons_append, List.drop_succ_cons,
      List.drop_zero, List.take_left]

/-! ## Lines of a table -/

/-- A cell at the right of its column, or blanks where a line has no cell. -/
def cellPart (ws : List Nat) (cells : List String) (k : Nat) : List Char :=
  ' ' :: (List.replicate (ws.getD k 0 - (cells.getD k "").length) ' ' ++
    (cells.getD k "").toList ++ [' '])

def rulePart (ws : List Nat) (k : Nat) : List Char := List.replicate (ws.getD k 0 + 2) '-'

theorem map_eq_map_range {α : Type} (f : Nat → α) (ws : List Nat) :
    ws.map f = (List.range ws.length).map fun k => f (ws.getD k 0) := by
  refine List.ext_getElem (by simp) fun k inside _ => ?_
  rw [List.length_map] at inside
  simp [List.getElem?_eq_getElem inside]

theorem zipWith_eq_map_range {α : Type} (f : Nat → String → α) (ws : List Nat)
    (cells : List String) :
    ws.zipWith f (cells ++ List.replicate (ws.length - cells.length) "") =
      (List.range ws.length).map fun k => f (ws.getD k 0) (cells.getD k "") := by
  induction ws generalizing cells with
  | nil => rfl
  | cons w ws ih =>
    rw [List.length_cons, List.range_succ_eq_map, List.map_cons, List.map_map]
    cases cells with
    | nil => exact congrArg (f w "" :: ·) (ih [])
    | cons cell cells =>
      rw [List.length_cons, Nat.add_sub_add_right, List.cons_append, List.zipWith_cons_cons, ih]
      rfl

theorem toList_rule (ws : List Nat) :
    (rule ws).toList = fenced '+' ((List.range ws.length).map (rulePart ws)) ++ ['\n'] := by
  have parts := map_eq_map_range (fun w => List.replicate (w + 2) '-') ws
  show ("+" ++ String.join (ws.map fun w => String.ofList (List.replicate (w + 2) '-') ++ "+") ++
    "\n").toList = _
  simp only [String.toList_append, String.toList_join, List.flatMap_map, String.toList_ofList]
  rw [fenced, show rulePart ws = fun k => List.replicate (ws.getD k 0 + 2) '-' from rfl, ← parts,
    List.flatMap_map]
  rfl

theorem toList_line (ws : List Nat) (cells : List String) :
    (line ws cells).toList =
      fenced '|' ((List.range ws.length).map (cellPart ws cells)) ++ ['\n'] := by
  have parts := zipWith_eq_map_range (fun w cell => " " ++ alignRight w cell ++ " |") ws cells
  show ("|" ++ String.join (ws.zipWith (fun w cell => " " ++ alignRight w cell ++ " |")
    (cells ++ List.replicate (ws.length - cells.length) "")) ++ "\n").toList = _
  have cell (w : Nat) (text : String) : (" " ++ alignRight w text ++ " |").toList =
      ' ' :: (List.replicate (w - text.length) ' ' ++ text.toList ++ [' ']) ++ ['|'] := by
    simp [alignRight]
  rw [parts]
  simp only [String.toList_append, String.toList_join, List.flatMap_map, cell]
  rw [fenced, List.flatMap_map]
  rfl

theorem length_rulePart (ws : List Nat) (k : Nat) : (rulePart ws k).length = ws.getD k 0 + 2 :=
  List.length_replicate

theorem length_cellPart {ws : List Nat} {cells : List String} {k : Nat}
    (short : (cells.getD k "").utf8ByteSize ≤ ws.getD k 0) :
    (cellPart ws cells k).length = ws.getD k 0 + 2 := by
  have := length_le_utf8ByteSize (cells.getD k "")
  simp only [cellPart, List.length_cons, List.length_append, List.length_replicate,
    String.length_toList, List.length_nil]
  omega

theorem newline_not_mem_fenced {post : Char} {parts : List (List Char)} (other : post ≠ '\n')
    (free : ∀ part ∈ parts, '\n' ∉ part) : '\n' ∉ fenced post parts := by
  rw [fenced, List.mem_cons, List.mem_flatMap, not_or]
  refine ⟨Ne.symm other, ?_⟩
  rintro ⟨part, listed, inside⟩
  rcases List.mem_append.1 inside with here | last
  · exact free part listed here
  · exact other (List.mem_singleton.1 last).symm

/-- What holds of all cells and of the empty one holds in every column. -/
theorem getD_of_forall {holds : String → Prop} {cells : List String} (empty : holds "")
    (each : ∀ cell ∈ cells, holds cell) (k : Nat) : holds (cells.getD k "") := by
  rw [List.getD_eq_getElem?_getD]
  cases found : cells[k]? with
  | none => exact empty
  | some cell => exact each cell (List.mem_of_getElem? found)

theorem newline_not_mem_cellPart (ws : List Nat) {cells : List String}
    (free : ∀ cell ∈ cells, '\n' ∉ cell.toList) (k : Nat) : '\n' ∉ cellPart ws cells k := by
  have here : '\n' ∉ (cells.getD k "").toList := getD_of_forall List.not_mem_nil free k
  have blank : ¬ '\n' = ' ' := by decide
  rw [cellPart]
  simp only [List.mem_cons, List.mem_append, List.mem_replicate, List.not_mem_nil, here, blank,
    and_false, or_false, not_false_iff]

/-! ## The text of a table -/

def Narrow (t : Table) : Prop :=
  ∀ cells ∈ t.headers :: t.rows, ∀ cell ∈ cells, cell.utf8ByteSize ≤ maxWidth

def Unbroken (t : Table) : Prop :=
  ∀ cells ∈ t.headers :: t.rows, ∀ cell ∈ cells, '\n' ∉ cell.toList

theorem Fits.forall_le_iff {ws : List Nat} {lines : List (List String)} (fits : Fits ws lines)
    (bound : Nat) :
    (∀ w ∈ ws, w ≤ bound) ↔ ∀ cells ∈ lines, ∀ cell ∈ cells, cell.utf8ByteSize ≤ bound := by
  constructor
  · intro narrow cells listed cell member
    obtain ⟨k, inside, rfl⟩ := List.getElem_of_mem member
    have column : k < ws.length := Nat.lt_of_lt_of_le inside (fits.columns.2 ⟨cells, listed, rfl⟩)
    have most := (fits.width k).2 ⟨cells, listed, rfl⟩
    rw [List.getD_eq_getElem _ _ inside, List.getD_eq_getElem _ _ column] at most
    exact Nat.le_trans most (narrow _ (List.getElem_mem column))
  · intro narrow w member
    obtain ⟨k, column, rfl⟩ := List.getElem_of_mem member
    obtain ⟨cells, listed, size⟩ := (fits.width k).1
    rw [← List.getD_eq_getElem _ 0 column, ← size]
    exact getD_of_forall (Nat.zero_le bound) (narrow cells listed) k

theorem render_eq_ok {t : Table} {text : String} :
    t.render = .ok text ↔ t.Narrow ∧
      rule t.widths ++ line t.widths t.headers ++ rule t.widths ++
        String.join (t.rows.map (line t.widths)) ++ rule t.widths = text := by
  rw [Narrow, ← t.fits_widths.forall_le_iff, render]
  cases found : t.widths.find? fun w => maxWidth < w with
  | some w =>
    have wide : maxWidth < w := by simpa using List.find?_some found
    constructor
    · intro rendered
      cases rendered
    · rintro ⟨narrow, -⟩
      exact absurd (narrow w (List.mem_of_find?_eq_some found)) (Nat.not_le.2 wide)
  | none =>
    have narrow : ∀ w ∈ t.widths, w ≤ maxWidth := by simpa using List.find?_eq_none.1 found
    constructor
    · intro rendered
      exact ⟨narrow, Except.ok.inj rendered⟩
    · rintro ⟨-, rfl⟩
      rfl

/-- The lines of a table: posts stand at the same places in all of them, and the cells of a line
stand between its posts, at the right of their columns. -/
structure Shape (t : Table) (ws : List Nat) (border header : List Char) (rows : List (List Char)) :
    Prop where
  fits : Fits ws (t.headers :: t.rows)
  border : Posted '+' ws (rulePart ws) border
  header : Posted '|' ws (cellPart ws t.headers) header
  rows : List.Forall₂ (fun cells row => Posted '|' ws (cellPart ws cells) row) t.rows rows

/-- The lines in the order in which they are printed. -/
def printed (border header : List Char) (rows : List (List Char)) : List (List Char) :=
  border :: header :: border :: (rows ++ [border])

def borderOf (ws : List Nat) : List Char := fenced '+' ((List.range ws.length).map (rulePart ws))

def lineOf (ws : List Nat) (cells : List String) : List Char :=
  fenced '|' ((List.range ws.length).map (cellPart ws cells))

theorem shape_of_fits {t : Table} {ws : List Nat} (fits : Fits ws (t.headers :: t.rows)) :
    Shape t ws (borderOf ws) (lineOf ws t.headers) (t.rows.map (lineOf ws)) := by
  have posted (cells : List String) (listed : cells ∈ t.headers :: t.rows) :
      Posted '|' ws (cellPart ws cells) (lineOf ws cells) :=
    posted_fenced '|' fun k _ => length_cellPart ((fits.width k).2 ⟨cells, listed, rfl⟩)
  refine ⟨fits, posted_fenced '+' fun k _ => length_rulePart ws k,
    posted _ List.mem_cons_self, ?_⟩
  rw [List.forall₂_map_right_iff, List.forall₂_same]
  exact fun cells listed => posted cells (List.mem_cons_of_mem _ listed)

theorem toList_of_render {t : Table} {text : String} (rendered : t.render = .ok text) :
    text.toList = (printed (borderOf t.widths) (lineOf t.widths t.headers)
      (t.rows.map (lineOf t.widths))).flatMap (· ++ ['\n']) := by
  rw [← (render_eq_ok.1 rendered).2]
  simp only [String.toList_append, String.toList_join, toList_rule, toList_line, List.flatMap_map,
    printed, borderOf, lineOf, List.flatMap_cons, List.flatMap_append, List.flatMap_nil,
    List.append_nil, List.append_assoc]

theorem newline_not_mem_printed {t : Table} (ws : List Nat) (unbroken : t.Unbroken) :
    ∀ line ∈ printed (borderOf ws) (lineOf ws t.headers) (t.rows.map (lineOf ws)),
      '\n' ∉ line := by
  have border : '\n' ∉ borderOf ws := newline_not_mem_fenced (by decide) fun part member => by
    obtain ⟨k, -, rfl⟩ := List.mem_map.1 member
    simp [rulePart, List.mem_replicate]
  have cells (cells : List String) (listed : cells ∈ t.headers :: t.rows) :
      '\n' ∉ lineOf ws cells := newline_not_mem_fenced (by decide) fun part member => by
    obtain ⟨k, -, rfl⟩ := List.mem_map.1 member
    exact newline_not_mem_cellPart ws (unbroken cells listed) k
  obtain ⟨header, rows⟩ := List.forall_mem_cons.1 cells
  simp only [printed, List.forall_mem_cons, List.forall_mem_append, List.forall_mem_map]
  exact ⟨border, header, border, rows, border, List.forall_mem_nil _⟩

end FsmFabric.Table
