import FsmFabric.Proofs.Chip.Resolve
import FsmFabric.Proofs.Image.Listing
import FsmFabric.Proofs.Table

/-!
# The columns of a listing

The table of an image has one column for the index, one for each multiplexer or one alone for each
field, in the order of the layout, and one for the whole word. Headings and cells are found by
separate walks over the fields. Both come out as a function of the same list of columns, so a row
has as many cells as there are headings.
-/

namespace FsmFabric

/-! ## Words -/

theorem WordLayout.wordOffset_eq_ok {l : WordLayout} {index offset : Nat} :
    l.wordOffset index = .ok offset ↔
      index < l.words ∧ l.startOf index < Checked.limit ∧ offset = l.startOf index := by
  simp only [wordOffset, bind_eq_ok, Checked.sub_eq_ok, Checked.mul, Checked.within_eq_ok]
  constructor
  · rintro ⟨_, ⟨below, rfl⟩, _, ⟨left, rfl⟩, inRange, rfl⟩
    exact ⟨by omega, inRange, rfl⟩
  · rintro ⟨inside, inRange, rfl⟩
    exact ⟨_, ⟨by omega, rfl⟩, _, ⟨by omega, rfl⟩, inRange, rfl⟩

/-- There is such a word, and an index for each of its bits. -/
structure WordLayout.HasWord (l : WordLayout) (index : Nat) : Prop where
  inside : index < l.words
  start : l.startOf index < Checked.limit
  fits : Checked.Fits (l.startOf index) l.width

theorem Image.word_eq_ok {image : Image} {index : Nat} {word : Mask} :
    image.word index = .ok word ↔ image.layout.HasWord index ∧ word = image.wordAt index := by
  rw [Image.word]
  split
  · next inside =>
    simp only [bind_eq_ok, WordLayout.wordOffset_eq_ok, (Bits.shows_ofMask _).extract_eq_ok]
    constructor
    · rintro ⟨_, ⟨_, start, rfl⟩, fits, rfl⟩
      exact ⟨⟨inside, start, fits⟩, rfl⟩
    · rintro ⟨held, rfl⟩
      exact ⟨_, ⟨inside, held.start, rfl⟩, held.fits, rfl⟩
  · next outside =>
    constructor
    · intro read
      cases read
    · intro read
      exact absurd read.1.inside outside

/-- All words can be read if the top one can. -/
theorem WordLayout.forall_hasWord_iff (l : WordLayout) :
    (∀ index < l.words, l.HasWord index) ↔ l.words * l.width ≤ Checked.limit := by
  constructor
  · intro each
    by_cases some : 0 < l.words ∧ 0 < l.width
    · have last := (each 0 some.1).fits (l.width - 1) (by omega)
      have top : l.startOf 0 + l.width = l.words * l.width := by
        rw [startOf, Nat.sub_zero, Nat.sub_one_mul]
        exact Nat.sub_add_cancel (Nat.le_mul_of_pos_left _ some.1)
      omega
    · have none : l.words * l.width = 0 := by
        rw [Nat.mul_eq_zero]
        omega
      omega
  · intro small index inside
    have below := startOf_add_le inside
    refine ⟨inside, ?_, fun i lt => by omega⟩
    -- words without bits all start at the bottom, however many there are
    by_cases empty : l.width = 0
    · rw [startOf, empty, Nat.mul_zero]
      decide
    · omega

/-! ## Columns -/

inductive Column where
  | index
  /-- The selection of a multiplexer in a field. -/
  | select (field : Field) (mux : Nat)
  /-- A whole field, and how many of its role precede it. -/
  | single (field : Field) (n : Nat)
  | word

namespace Image

def fieldColumns (image : Image) (field : Field) (n : Nat) : List Column :=
  if field.role = .mux then (List.range image.muxes.count).map (.select field)
  else [.single field n]

/-- The columns of fields, when the fields before these are given. -/
def columnsAfter (image : Image) (before : List Field) : List Field → List Column
  | [] => []
  | field :: rest =>
    image.fieldColumns field (before.filter fun f => f.role == field.role).length ++
      image.columnsAfter (before ++ [field]) rest

def columns (image : Image) : List Column :=
  .index :: (image.columnsAfter [] image.layout.fields ++ [.word])

def heading (image : Image) : Column → String
  | .index => "ST"
  | .select _ mux => "Mux" ++ toString mux
  | .single field n =>
    match field.role with
    | .jmp => lettered "Jmp" n
    | .out => if n + 1 = image.layout.countOf .out then "Out" else lettered "Out" n
    | .cfg => lettered "Cfg" n
    | _ => "Inc"
  | .word => "STEW"

def cell (image : Image) (index : Nat) : Column → String
  | .index => hexNumber index 1
  | .select field mux =>
    ((image.wordAt index).extract (field.offset + mux * image.muxes.selectBits)
      image.muxes.selectBits).hex
  | .single field _ => ((image.wordAt index).extract field.offset field.width).hex
  | .word => (image.wordAt index).hex

/-- All positions that are read for a column are in range. -/
def Reaches (image : Image) : Column → Prop
  | .select field mux =>
    field.offset + mux * image.muxes.selectBits < Checked.limit ∧
      Checked.Fits (field.offset + mux * image.muxes.selectBits) image.muxes.selectBits
  | .single field _ => Checked.Fits field.offset field.width
  | .index | .word => True

variable {image : Image} {index : Nat} {field : Field}

theorem fieldColumns_mux (image : Image) (n : Nat) (mux : field.role = .mux) :
    image.fieldColumns field n = (List.range image.muxes.count).map (.select field) :=
  if_pos mux

theorem fieldColumns_single (image : Image) (n : Nat) (alone : field.role ≠ .mux) :
    image.fieldColumns field n = [.single field n] :=
  if_neg alone

theorem selectCell_eq_ok {mux : Nat} {found : String} :
    (do
      let bits := image.muxes.selectBits
      let offset ← Checked.add field.offset (← Checked.mul mux bits)
      return (← (Bits.ofMask (image.wordAt index)).extract offset bits).hex : Except Fault _) =
        .ok found ↔
      image.Reaches (.select field mux) ∧ found = image.cell index (.select field mux) := by
  simp only [bind_eq_ok, pure_eq_ok, Checked.add, Checked.mul, Checked.within_eq_ok,
    (Bits.shows_ofMask _).extract_eq_ok]
  constructor
  · rintro ⟨_, ⟨_, rfl⟩, _, ⟨inRange, rfl⟩, _, ⟨fits, rfl⟩, rfl⟩
    exact ⟨⟨inRange, fits⟩, rfl⟩
  · rintro ⟨⟨inRange, fits⟩, rfl⟩
    exact ⟨_, ⟨by omega, rfl⟩, _, ⟨inRange, rfl⟩, _, ⟨fits, rfl⟩, rfl⟩

theorem singleCell_eq_ok {found : List String} (n : Nat) :
    (do return [(← (Bits.ofMask (image.wordAt index)).extract field.offset field.width).hex] :
      Except Fault _) = .ok found ↔
      image.Reaches (.single field n) ∧ found = [image.cell index (.single field n)] := by
  simp only [bind_eq_ok, pure_eq_ok, (Bits.shows_ofMask _).extract_eq_ok]
  constructor
  · rintro ⟨_, ⟨fits, rfl⟩, rfl⟩
    exact ⟨fits, rfl⟩
  · rintro ⟨fits, rfl⟩
    exact ⟨_, ⟨fits, rfl⟩, rfl⟩

theorem cells_eq_ok {found : List String} (n : Nat) :
    image.cells (Bits.ofMask (image.wordAt index)) field = .ok found ↔
      (∀ column ∈ image.fieldColumns field n, image.Reaches column) ∧
        found = (image.fieldColumns field n).map (image.cell index) := by
  by_cases mux : field.role = .mux
  · rw [image.fieldColumns_mux n mux, List.forall_mem_map, List.map_map, cells, mux]
    simp only [List.mem_range]
    exact tabulate_eq_ok_iff fun mux _ text => selectCell_eq_ok
  · rw [image.fieldColumns_single n mux, List.forall_mem_singleton, List.map_singleton, cells]
    split
    · next same => exact absurd same mux
    · exact singleCell_eq_ok n

/-- The cells of fields, one field after the other. -/
theorem mapM_cells_eq_ok (image : Image) (index : Nat) (before fields : List Field)
    {found : List String} :
    (∃ parts, fields.mapM (image.cells (Bits.ofMask (image.wordAt index))) = .ok parts ∧
      parts.flatten = found) ↔
      (∀ column ∈ image.columnsAfter before fields, image.Reaches column) ∧
        found = (image.columnsAfter before fields).map (image.cell index) := by
  induction fields generalizing before found with
  | nil =>
    rw [columnsAfter, List.mapM_nil]
    constructor
    · rintro ⟨_, done, rfl⟩
      cases done
      exact ⟨fun _ member => absurd member List.not_mem_nil, rfl⟩
    · rintro ⟨-, rfl⟩
      exact ⟨[], rfl, rfl⟩
  | cons field rest ih =>
    rw [columnsAfter, List.forall_mem_append, List.map_append, List.mapM_cons]
    simp only [bind_eq_ok, pure_eq_ok,
      cells_eq_ok (before.filter fun f => f.role == field.role).length]
    constructor
    · rintro ⟨_, ⟨_, ⟨here, rfl⟩, parts, mapped, rfl⟩, rfl⟩
      obtain ⟨later, same⟩ := (ih (before ++ [field])).1 ⟨parts, mapped, rfl⟩
      exact ⟨⟨here, later⟩, by rw [List.flatten_cons, same]⟩
    · rintro ⟨⟨here, later⟩, rfl⟩
      obtain ⟨parts, mapped, same⟩ := (ih (before ++ [field])).2 ⟨later, rfl⟩
      exact ⟨_, ⟨_, ⟨here, rfl⟩, parts, mapped, rfl⟩, by rw [List.flatten_cons, same]⟩

theorem row_eq_ok {found : List String} :
    image.row index = .ok found ↔
      (image.layout.HasWord index ∧ ∀ column ∈ image.columns, image.Reaches column) ∧
        found = image.columns.map (image.cell index) := by
  have reaches : (∀ column ∈ image.columns, image.Reaches column) ↔
      ∀ column ∈ image.columnsAfter [] image.layout.fields, image.Reaches column := by
    simp [columns, Reaches, or_imp, forall_and]
  have texts : image.columns.map (image.cell index) = [hexNumber index 1] ++
      (image.columnsAfter [] image.layout.fields).map (image.cell index) ++
        [(image.wordAt index).hex] := by
    simp [columns, cell]
  simp only [row, bind_eq_ok, pure_eq_ok, word_eq_ok, reaches, texts]
  constructor
  · rintro ⟨_, ⟨held, rfl⟩, parts, mapped, rfl⟩
    obtain ⟨each, same⟩ := (image.mapM_cells_eq_ok index [] _).1 ⟨parts, mapped, rfl⟩
    exact ⟨⟨held, each⟩, by rw [same]⟩
  · rintro ⟨⟨held, each⟩, rfl⟩
    obtain ⟨parts, mapped, same⟩ := (image.mapM_cells_eq_ok index [] _).2 ⟨each, rfl⟩
    exact ⟨_, ⟨held, rfl⟩, parts, mapped, by rw [same]⟩

/-! ## Headings -/

theorem headings_eq_ok {before n : Nat} {found : List String} :
    image.headings before field.role n = .ok found ↔
      (field.role = .mux → (before + image.muxes.count) * headingBytes < 2 ^ 63) ∧
        found = (image.fieldColumns field n).map image.heading := by
  by_cases mux : field.role = .mux
  · rw [image.fieldColumns_mux n mux, List.map_map, mux, headings, bind_eq_ok]
    constructor
    · rintro ⟨_, room, done⟩
      exact ⟨fun _ => Checked.room_eq_ok.1 room, (Except.ok.inj done).symm⟩
    · rintro ⟨room, rfl⟩
      exact ⟨(), Checked.room_eq_ok.2 (room rfl), rfl⟩
  · have alone : image.headings before field.role n = .ok [image.heading (.single field n)] := by
      rw [heading]
      cases role : field.role with
      | mux => exact absurd role mux
      | out =>
        show Except.ok (if _ then _ else _) = _
        split <;> rfl
      | inc => rfl
      | jmp => rfl
      | cfg => rfl
    rw [alone, image.fieldColumns_single n mux, List.map_singleton]
    constructor
    · intro same
      exact ⟨fun found => absurd found mux, (Except.ok.inj same).symm⟩
    · rintro ⟨-, rfl⟩
      rfl

/-- Headings are put behind those of the fields before. Memory must have room for them whenever
a field brings in those of all multiplexers. -/
theorem headingsAfter_eq_ok {before fields : List Field} {found all : List String} :
    image.headingsAfter found before fields = .ok all ↔
      (∀ front field rest, fields = front ++ field :: rest → field.role = .mux →
        (found.length + (image.columnsAfter before front).length + image.muxes.count) *
          headingBytes < 2 ^ 63) ∧
        all = found ++ (image.columnsAfter before fields).map image.heading := by
  induction fields generalizing found before all with
  | nil =>
    rw [headingsAfter, columnsAfter, List.map_nil, List.append_nil]
    constructor
    · intro same
      refine ⟨fun front field rest cut => ?_, (Except.ok.inj same).symm⟩
      simp at cut
    · rintro ⟨-, rfl⟩
      rfl
  | cons field rest ih =>
    simp only [headingsAfter, bind_eq_ok, headings_eq_ok, ih, columnsAfter, List.map_append,
      ← List.append_assoc]
    constructor
    · rintro ⟨_, ⟨here, rfl⟩, later, rfl⟩
      refine ⟨fun front other behind cut mux => ?_, rfl⟩
      -- the field in question is this one, or one of those that follow
      cases front with
      | nil =>
        obtain ⟨rfl, rfl⟩ := List.cons.inj cut
        exact here mux
      | cons first front =>
        obtain ⟨rfl, shorter⟩ := List.cons.inj cut
        have room := later front other behind shorter mux
        rw [List.length_append, List.length_map] at room
        rwa [columnsAfter, List.length_append, ← Nat.add_assoc]
    · rintro ⟨room, rfl⟩
      refine ⟨_, ⟨fun mux => room [] field rest rfl mux, rfl⟩,
        fun front other behind cut mux => ?_, rfl⟩
      have there := room (field :: front) other behind (congrArg (field :: ·) cut) mux
      rw [columnsAfter, List.length_append, ← Nat.add_assoc] at there
      rwa [List.length_append, List.length_map]

/-! ## The listing -/

def listing (image : Image) : Table :=
  ⟨image.columns.map image.heading,
    (List.range image.layout.words).map fun index => image.columns.map (image.cell index)⟩

/-- Memory has room for the headings, and all positions that are read are in range. -/
structure Listable (image : Image) : Prop where
  room : ∀ front field rest, image.layout.fields = front ++ field :: rest → field.role = .mux →
    (1 + (image.columnsAfter [] front).length + image.muxes.count) * headingBytes < 2 ^ 63
  words : image.layout.words * image.layout.width ≤ Checked.limit
  fields : 0 < image.layout.words → ∀ column ∈ image.columns, image.Reaches column

theorem rows_eq_ok {rows : List (List String)} :
    tabulate image.row 0 image.layout.words = .ok rows ↔
      (image.layout.words * image.layout.width ≤ Checked.limit ∧
        (0 < image.layout.words → ∀ column ∈ image.columns, image.Reaches column)) ∧
      rows = image.listing.rows := by
  rw [← WordLayout.forall_hasWord_iff, tabulate_eq_ok_iff fun index _ found => row_eq_ok]
  refine and_congr ⟨fun each => ?_, fun ⟨words, fields⟩ index inside => ?_⟩ Iff.rfl
  · exact ⟨fun index inside => (each index inside).1, fun some => (each 0 some).2⟩
  · exact ⟨words index inside, fields (Nat.lt_of_le_of_lt (Nat.zero_le _) inside)⟩

theorem renderList_eq_ok {text : String} :
    image.renderList = .ok text ↔ image.Listable ∧ image.listing.render = .ok text := by
  have headers : ["ST"] ++ (image.columnsAfter [] image.layout.fields).map image.heading ++
      ["STEW"] = image.listing.headers := by
    simp [listing, columns, heading]
  simp only [renderList, bind_eq_ok, headingsAfter_eq_ok, rows_eq_ok]
  constructor
  · rintro ⟨_, ⟨room, rfl⟩, _, ⟨⟨words, fields⟩, rfl⟩, rendered⟩
    rw [headers] at rendered
    exact ⟨⟨room, words, fields⟩, rendered⟩
  · rintro ⟨listable, rendered⟩
    exact ⟨_, ⟨listable.room, rfl⟩, _, ⟨⟨listable.words, listable.fields⟩, rfl⟩,
      by rwa [headers]⟩

end Image

/-- A table is printed if no cell is too wide. Then all of its lines are equally long, with posts at
the same places, and the cells stand between them. The listing of an image is such a table, with a
cell under each heading in every row. -/
theorem tables_are_aligned (t : Table) (image : Image) :
    ((∃ text, t.render = .ok text) ↔ t.Narrow) ∧
    (∀ text, t.render = .ok text → ∃ ws border header rows,
      t.Shape ws border header rows ∧
      text.toList = (Table.printed border header rows).flatMap (· ++ ['\n']) ∧
      (t.Unbroken → Reading.pieces? '\n' text.toList = some (Table.printed border header rows))) ∧
    (∀ text, image.renderList = .ok text ↔
      image.Listable ∧ image.listing.render = .ok text) ∧
    (∀ row ∈ image.listing.rows, row.length = image.listing.headers.length) := by
  refine ⟨?_, fun text rendered => ?_, fun text => Image.renderList_eq_ok, fun row listed => ?_⟩
  · exact ⟨fun ⟨_, rendered⟩ => (Table.render_eq_ok.1 rendered).1,
      fun narrow => ⟨_, Table.render_eq_ok.2 ⟨narrow, rfl⟩⟩⟩
  · have lines := Table.toList_of_render rendered
    refine ⟨_, _, _, _, Table.shape_of_fits t.fits_widths, lines, fun unbroken => ?_⟩
    rw [lines]
    exact Reading.pieces?_flatMap (Table.newline_not_mem_printed t.widths unbroken)
  · obtain ⟨index, -, rfl⟩ := List.mem_map.1 listed
    rw [Image.listing, List.length_map, List.length_map]

/-- A header with more bytes than characters, and rows that are too short and too long. -/
def Table.ragged : Table := ⟨["é", "B"], [["1"], ["abc", "é", "x|y"]]⟩

/-- Two words with fields of all roles in no order, two of them with the selections. -/
def Image.shuffled : Image :=
  { bits := Mask.ofOnes 24 [0, 5, 13, 18, 23],
    layout := ⟨2, 12, [⟨.cfg, 8, 4⟩, ⟨.mux, 0, 4⟩, ⟨.out, 4, 2⟩, ⟨.inc, 6, 1⟩, ⟨.mux, 4, 4⟩,
      ⟨.jmp, 1, 3⟩, ⟨.out, 10, 4⟩]⟩,
    muxes := ⟨2, 2⟩ }

theorem tables_are_aligned_ragged :
    Table.ragged.Narrow ∧ Table.ragged.Unbroken ∧ Image.shuffled.Listable ∧
    (∃ ws border header rows, Table.ragged.Shape ws border header rows ∧
      Table.printed border header rows =
        ["+-----+----+-----+", "|   é |  B |     |", "+-----+----+-----+", "|   1 |    |     |",
          "| abc |  é | x|y |", "+-----+----+-----+"].map String.toList) ∧
    Image.shuffled.listing.headers =
      ["ST", "CfgA", "Mux0", "Mux1", "OutA", "Inc", "Mux0", "Mux1", "JmpA", "Out", "STEW"] ∧
    ∀ row ∈ Image.shuffled.listing.rows, row.length = 11 := by
  obtain ⟨narrow, shape, listing, rows⟩ := tables_are_aligned Table.ragged Image.shuffled
  have rendered : Table.ragged.render = .ok ("+-----+----+-----+\n|   é |  B |     |\n" ++
      "+-----+----+-----+\n|   1 |    |     |\n| abc |  é | x|y |\n+-----+----+-----+\n") := by
    decide +kernel
  have unbroken : Table.ragged.Unbroken := by
    unfold Table.Unbroken
    decide
  obtain ⟨ws, border, header, lines, shaped, -, split⟩ := shape _ rendered
  refine ⟨narrow.1 ⟨_, rendered⟩, unbroken, ((listing _).1 rfl).1,
    ⟨ws, border, header, lines, shaped, Option.some.inj ((split unbroken).symm.trans ?_)⟩, rfl,
    rows⟩
  decide +kernel

/-- One word of 65536 digits. -/
def Image.wideWord : Image :=
  { bits := Mask.blank 262141, layout := ⟨1, 262141, []⟩, muxes := ⟨1, 1⟩ }

def Table.wideHeader : Table := ⟨[String.ofList (List.replicate 65536 'x')], []⟩

/-- A cell of more than 65535 bytes stops the table, although the word is printed elsewhere. -/
theorem wide_cells_stop_tables :
    (Table.wideHeader.Unbroken ∧ ¬ ∃ text, Table.wideHeader.render = .ok text) ∧
    (∃ tab, Image.wideWord.renderTab = .ok tab) ∧
      ¬ ∃ text, Image.wideWord.renderList = .ok text := by
  have bytes : 65536 ≤ (String.ofList (List.replicate 65536 'x')).utf8ByteSize := by
    have least := Reading.length_le_utf8ByteSize (String.ofList (List.replicate 65536 'x'))
    rwa [← String.length_toList, String.toList_ofList, List.length_replicate] at least
  have digits : 65536 ≤ (Image.wideWord.wordAt 0).hex.utf8ByteSize := by
    have least := Reading.length_le_utf8ByteSize (Image.wideWord.wordAt 0).hex
    have size : (Image.wideWord.wordAt 0).size = 262141 := Image.wideWord.size_wordAt 0
    rwa [← String.length_toList, Mask.toList_hex (by omega), Mask.nibbles, List.length_map,
      List.length_reverse, List.length_range, size] at least
  refine ⟨⟨?_, ?_⟩, ?_, ?_⟩
  · intro cells listed cell member
    obtain rfl := List.mem_singleton.1 listed
    obtain rfl := List.mem_singleton.1 member
    rw [String.toList_ofList, List.mem_replicate]
    decide
  · rintro ⟨text, rendered⟩
    have narrow := (Table.render_eq_ok.1 rendered).1 _ List.mem_cons_self _ List.mem_cons_self
    rw [Table.maxWidth] at narrow
    omega
  · obtain ⟨tab, rendered, -⟩ : ∃ tab, Image.wideWord.renderTab = .ok tab ∧ _ :=
      Image.exists_renderTab (by decide) (by decide)
    exact ⟨tab, rendered⟩
  · rintro ⟨text, rendered⟩
    have drawn := (Image.renderList_eq_ok.1 rendered).2
    have row : Image.wideWord.columns.map (Image.wideWord.cell 0) ∈ Image.wideWord.listing.rows :=
      List.mem_map.2 ⟨0, List.mem_range.2 Nat.one_pos, rfl⟩
    have cell : (Image.wideWord.wordAt 0).hex ∈
        Image.wideWord.columns.map (Image.wideWord.cell 0) :=
      List.mem_map.2 ⟨.word, by simp [Image.columns], rfl⟩
    have narrow := (Table.render_eq_ok.1 drawn).1 _ (List.mem_cons_of_mem _ row) _ cell
    rw [Table.maxWidth] at narrow
    omega

end FsmFabric
