import Yazi.Adapter.Sixel

/-!
# What the emitted sixels paint

Each part of the text is a step of the interpreter: a definition, a run, a line, all lines. A run
paints a strip of one row, the runs of a line a whole row, and the separators take the next line
to the next row of the band or to the next band.
-/
namespace Yazi.Adapter.Sixel
open Yazi.Base Yazi.Base.Sixel Yazi.Shared

/-! ### Numbers and runs -/

@[simp] theorem collect_number (s : Screen) (introducer : Introducer) (done : List Nat) (n : Nat) :
    (s.collect introducer done 0).feeds (Decimal.write n) = s.collect introducer done n := by
  have all : ∀ b ∈ Decimal.write n, 0x30 ≤ b ∧ b ≤ 0x39 := by
    intro b member
    have digit := Decimal.isDigit_of_mem_write member
    simpa [Decimal.isDigit] using digit
  rw [Screen.collect_digits s introducer done 0 all, Decimal.value_write]

@[simp] theorem feeds_text_colour (s : Screen) :
    s.feeds (text "#") = s.settle.collect .colour [] 0 := rfl

@[simp] theorem feeds_text_repetition (s : Screen) :
    s.feeds (text "!") = s.settle.collect .repetition [] 0 := rfl

@[simp] theorem feeds_text_separator (s : Screen) : s.feeds (text ";") = s.separator := rfl

/-- The byte of a row sets its bit alone. -/
theorem sixel_bit (y : Nat) :
    (0x3f : UInt8) ≤ sixel y ∧ sixel y ≤ 0x7e ∧ (sixel y).toNat - 0x3f = 2 ^ (y % 6) := by
  have each : ∀ bit < 6, (0x3f : UInt8) ≤ (0x3f : UInt8) + UInt8.ofNat (1 <<< bit) ∧
      (0x3f : UInt8) + UInt8.ofNat (1 <<< bit) ≤ 0x7e ∧
      ((0x3f : UInt8) + UInt8.ofNat (1 <<< bit)).toNat - 0x3f = 2 ^ bit := by decide
  exact each (y % 6) (Nat.mod_lt y (by decide))

/-- Dots of these colours side by side in a row, from a column on. -/
def strip (column row : Nat) (colours : List UInt8) : List Dot :=
  (colours.zipIdx column).map fun (colour, x) => (x, row, colour.toNat)

theorem strip_append (column row : Nat) (a b : List UInt8) :
    strip column row (a ++ b) = strip column row a ++ strip (column + a.length) row b := by
  simp [strip, List.zipIdx_append]

theorem strip_replicate (column row count : Nat) (colour : UInt8) :
    strip column row (List.replicate count colour) =
      (List.range' column count).map fun x => (x, row, colour.toNat) := by
  induction count generalizing column with
  | zero => rfl
  | succ count ih =>
    rw [List.replicate_succ, List.range'_succ, List.map_cons, ← ih]
    rfl

/-- The screen after a strip: settled, further right, with the strip painted. -/
structure Drawn (s t : Screen) (row : Nat) (colours : List UInt8) : Prop where
  ground : t.pending = .ground
  column : t.column = s.column + colours.length
  band : t.band = s.band
  palette : t.palette = s.settle.palette
  painted : t.painted = s.painted ++ strip s.column row colours

theorem Drawn.trans {s t u : Screen} {row : Nat} {a b : List UInt8} (first : Drawn s t row a)
    (rest : Drawn t u row b) : Drawn s u row (a ++ b) := by
  constructor
  · exact rest.ground
  · rw [rest.column, first.column, List.length_append, Nat.add_assoc]
  · exact rest.band.trans first.band
  · rw [rest.palette, Screen.settle_of_ground first.ground, first.palette]
  · rw [rest.painted, first.painted, first.column, strip_append, List.append_assoc]

/-- The colour that a run begins with. -/
theorem settle_select (s : Screen) (n : Nat) :
    (s.settle.collect .colour [] n).settle = { s.settle with register := n, pending := .ground } :=
  rfl

/-- A screen whose next sixel with the bit of a row draws in that row. -/
theorem paint_drawn (s : Screen) (y : Nat) (colour : UInt8) (count : Nat) (inside : s.band = y / 6) :
    Drawn s (Screen.paint { s.settle with register := colour.toNat, pending := .ground } count
      (2 ^ (y % 6))) y (List.replicate count colour) := by
  have row : 6 * s.band + y % 6 = y := by omega
  constructor
  · rfl
  · simp [Screen.paint]
  · simp [Screen.paint]
  · rfl
  · rw [Screen.paint]
    dsimp only
    rw [flatMap_dots rfl (Nat.mod_lt y (by decide)), Screen.settle_painted, Screen.settle_column,
      Screen.settle_band, row, strip_replicate]

/-- A run paints as many columns as it counts. -/
theorem run_drawn (s : Screen) (y : Nat) (last : UInt8) {repeated : Nat} (nonzero : 0 < repeated)
    (inside : s.band = y / 6) :
    Drawn s (s.feeds (run last repeated (sixel y))) y (List.replicate repeated last) := by
  obtain ⟨low, high, bit⟩ := sixel_bit y
  have drawn := paint_drawn s y last repeated inside
  rw [← settle_select] at drawn
  unfold run
  split
  · next more =>
    -- The count is collected after the colour has taken effect.
    simp only [Screen.feeds_append, feeds_text_colour, feeds_text_repetition, collect_number,
      Screen.feeds_cons, Screen.feeds_nil]
    rw [Screen.feed_sixel _ low high, bit]
    have count : max 1 repeated = repeated := Nat.max_eq_right nonzero
    change Drawn s (Screen.paint _ (max 1 repeated) _) y _
    rw [count]
    exact drawn
  · next single =>
    have one : repeated = 1 := by omega
    subst one
    simp only [Screen.feeds_append, feeds_text_colour, collect_number, Screen.feeds_cons,
      Screen.feeds_nil]
    rw [Screen.feed_sixel _ low high, bit]
    exact drawn

/-! ### Lines -/

/-- What the loop writes for the pixels that are left, together with those of the run that is
not yet written, paints them one after the other. -/
theorem line_drawn {index : Nat → Except Error UInt8} {colour : Nat → UInt8} (y : Nat)
    (xs : List Nat) (indexed : ∀ x ∈ xs, index x = .ok (colour x)) (last : UInt8) (repeated : Nat)
    (nonempty : 0 < repeated + xs.length) (buf : Bytes) :
    ∃ rest, line index (sixel y) xs last repeated buf = .ok (buf ++ rest) ∧
      ∀ s : Screen, s.band = y / 6 →
        Drawn s (s.feeds rest) y (List.replicate repeated last ++ xs.map colour) := by
  induction xs generalizing last repeated buf with
  | nil =>
    refine ⟨run last repeated (sixel y), rfl, fun s inside => ?_⟩
    rw [List.map_nil, List.append_nil]
    exact run_drawn s y last nonempty inside
  | cons x xs ih =>
    have here := indexed x (List.mem_cons_self ..)
    have others : ∀ x ∈ xs, index x = .ok (colour x) := fun x member =>
      indexed x (List.mem_cons_of_mem _ member)
    unfold line
    rw [here]
    dsimp only
    split
    · next joined =>
      obtain ⟨rest, written, drawn⟩ :=
        ih others (colour x) (repeated + 1) (by omega) buf
      refine ⟨rest, written, fun s inside => ?_⟩
      -- The run goes on, or begins here: its pixels all have the colour of this one.
      have same : List.replicate repeated last ++ (x :: xs).map colour =
          List.replicate (repeated + 1) (colour x) ++ xs.map colour := by
        rw [List.map_cons, List.replicate_succ', List.append_assoc, List.singleton_append]
        rcases joined with equal | zero
        · rw [equal]
        · rw [zero, List.replicate_zero, List.replicate_zero]
      rw [same]
      exact drawn s inside
    · next ended =>
      obtain ⟨-, some⟩ := not_or.mp ended
      obtain ⟨rest, written, drawn⟩ :=
        ih others (colour x) 1 (by omega) (buf ++ run last repeated (sixel y))
      refine ⟨run last repeated (sixel y) ++ rest, ?_, fun s inside => ?_⟩
      · rw [written, List.append_assoc]
      · have first := run_drawn s y last (Nat.pos_of_ne_zero some) inside
        have second := drawn _ (first.band.trans inside)
        rw [Screen.feeds_append]
        exact first.trans second

/-- All dots of so many rows. -/
def rows (colours : Nat → List UInt8) (ys : List Nat) : List Dot :=
  ys.flatMap fun y => strip 0 y (colours y)

/-- The separators lead from row to row: the loop over the lines paints them all. -/
theorem lines_painted {img : DynamicImage} {qo : QuantizeOutput} {colour : Nat → Nat → UInt8}
    (wide : 0 < img.width) (count first : Nat)
    (indexed : ∀ y ∈ List.range' first count, ∀ x < img.width,
      index img qo y x = .ok (colour y x)) (buf : Bytes) :
    ∃ rest, lines img qo (List.range' first count) buf = .ok (buf ++ rest) ∧
      ∀ s : Screen, s.column = 0 → s.band = first / 6 →
        (s.feeds rest).settle.palette = s.settle.palette ∧
        (s.feeds rest).painted = s.painted ++
          rows (fun y => (List.range img.width).map (colour y)) (List.range' first count) := by
  induction count generalizing first buf with
  | zero => exact ⟨[], by rw [List.append_nil]; rfl, fun s _ _ => ⟨rfl, by simp [rows]⟩⟩
  | succ count ih =>
    obtain ⟨row, written, drawn⟩ := line_drawn first (List.range img.width)
      (fun x member => indexed first (by simp) x (List.mem_range.mp member)) 0 0
      (by rw [List.length_range]; omega) buf
    rw [List.range'_succ, lines, written]
    dsimp only
    have others : ∀ y ∈ List.range' (first + 1) count, ∀ x < img.width,
        index img qo y x = .ok (colour y x) := by
      intro y member
      apply indexed y
      rw [List.range'_succ]
      exact List.mem_cons_of_mem _ member
    -- After the separators the screen stands at the beginning of the next row.
    have separated : ∃ marks, (if first % 6 = 5 then buf ++ row ++ text "$" ++ text "-"
          else buf ++ row ++ text "$") = buf ++ (row ++ marks) ∧
        ∀ t : Screen, t.pending = .ground → t.band = first / 6 →
          (t.feeds marks).column = 0 ∧ (t.feeds marks).band = (first + 1) / 6 ∧
            (t.feeds marks).painted = t.painted ∧
            (t.feeds marks).settle.palette = t.palette := by
      split
      · next last =>
        refine ⟨text "$" ++ text "-", by simp, fun t ground band => ?_⟩
        have marks : t.feeds (text "$" ++ text "-") =
            { t with column := 0, band := t.band + 1, pending := .ground } := by
          cases t
          cases ground
          rfl
        rw [marks]
        refine ⟨rfl, ?_, rfl, rfl⟩
        dsimp only
        omega
      · next inner =>
        refine ⟨text "$", by simp, fun t ground band => ?_⟩
        have marks : t.feeds (text "$") = { t with column := 0 } := by
          cases t
          cases ground
          rfl
        rw [marks]
        refine ⟨rfl, ?_, rfl, ?_⟩
        · dsimp only
          omega
        · have settled : Screen.settle { t with column := 0 } = { t with column := 0 } :=
            Screen.settle_of_ground ground
          rw [settled]
    obtain ⟨marks, appended, next⟩ := separated
    obtain ⟨rest, finished, painted⟩ := ih (first + 1) others (buf ++ (row ++ marks))
    refine ⟨row ++ marks ++ rest, ?_, fun s column band => ?_⟩
    · rw [appended, finished, List.append_assoc]
    · have line := drawn s band
      obtain ⟨column', band', kept, palette⟩ := next _ line.ground (line.band.trans band)
      obtain ⟨palettes, dots⟩ := painted _ column' band'
      simp only [Screen.feeds_append]
      constructor
      · rw [palettes, palette, line.palette]
      · rw [dots, kept, line.painted, column, List.append_assoc]
        rfl

/-! ### The whole text -/

/-- What a register is defined as: red, green and blue of a hundred. -/
def entry (i : Nat) (c : Srgb) : Nat × List Nat :=
  (i, [2, percent c.red, percent c.green, percent c.blue])

theorem feeds_define (s : Screen) (i : Nat) (c : Srgb) :
    s.feeds (define i c) = s.settle.collect .colour [i, 2, percent c.red, percent c.green]
      (percent c.blue) := by
  have two : ∀ t : Screen, t.feeds (text ";2;") = (t.separator.digit 2).separator := fun _ => rfl
  simp [define, two]

/-- The definitions fill the palette and paint nothing. -/
theorem feeds_definitions (s : Screen) (shift : Nat) (palette : List Srgb) :
    let t := s.feeds (definitions shift palette)
    t.settle.palette =
        s.settle.palette ++ palette.zipIdx.map (fun (c, i) => entry (i + shift) c) ∧
      t.column = s.column ∧ t.band = s.band ∧ t.painted = s.painted := by
  unfold definitions
  generalize palette.zipIdx = numbered
  induction numbered generalizing s with
  | nil => exact ⟨(List.append_nil _).symm, rfl, rfl, rfl⟩
  | cons first numbered ih =>
    obtain ⟨c, i⟩ := first
    rw [List.flatMap_cons, Screen.feeds_append]
    obtain ⟨palette, column, band, painted⟩ := ih (s.feeds (define (i + shift) c))
    rw [feeds_define] at palette column band painted ⊢
    refine ⟨?_, column.trans s.settle_column, band.trans s.settle_band,
      painted.trans s.settle_painted⟩
    have defined : (s.settle.collect .colour
          ([i + shift, 2, percent c.red, percent c.green] : List Nat) (percent c.blue)).settle.palette =
        s.settle.palette ++ [entry (i + shift) c] := rfl
    rw [palette, defined, List.map_cons, List.append_assoc]
    rfl

/-- What the quantizer promises: an index for each colour, into a palette that is no larger
than was asked for. -/
def Faithful (wu : Quantizer) : Prop :=
  ∀ colors size qo, wu colors size = .ok qo → qo.indices.length = colors.length ∧
    (∀ i ∈ qo.indices, i.toNat < qo.palette.length) ∧ qo.palette.length ≤ size

/-- The register of a pixel: that of its colour, or the first one where it is transparent. -/
def register (img : DynamicImage) (qo : QuantizeOutput) (x y : Nat) : Nat :=
  if img.hasAlpha ∧ (img.getPixel x y).alpha = 0 then 0
  else (qo.indices.getD (y * img.width + x) 0).toNat + img.hasAlpha.toNat

/-- A register of the source is a byte, and the sum that gives it does not overflow. -/
theorem index_eq {wu : Quantizer} (faithful : Faithful wu) {img : DynamicImage}
    {qo : QuantizeOutput} (quantified : quantify wu img = .ok qo) {x y : Nat} (left : x < img.width)
    (above : y < img.height) : index img qo y x = .ok (UInt8.ofNat (register img qo x y)) ∧
      register img qo x y < 256 := by
  obtain ⟨long, indexed, sized⟩ := faithful _ _ _ quantified
  have pixels : qo.indices.length = img.height * img.width := by
    simp [long, List.length_flatMap]
  have inside : y * img.width + x < qo.indices.length := by
    rw [pixels]
    calc y * img.width + x < y * img.width + img.width := by omega
      _ = (y + 1) * img.width := (Nat.succ_mul ..).symm
      _ ≤ img.height * img.width := Nat.mul_le_mul_right _ above
  have small := indexed _ (List.getElem_mem inside)
  have sum : (qo.indices[y * img.width + x]).toNat + img.hasAlpha.toNat < 256 := by
    cases alpha : img.hasAlpha <;> simp only [alpha, Bool.toNat_true, Bool.toNat_false] at sized ⊢ <;>
      omega
  unfold index register
  split
  · next clear =>
    have alpha : img.hasAlpha = true := by
      by_contra none
      have solid := img.solid (Bool.eq_false_iff.mpr none) x y
      rw [clear] at solid
      cases solid
    rw [if_pos ⟨alpha, clear⟩]
    exact ⟨rfl, by decide⟩
  · next visible =>
    rw [if_neg fun both => visible both.2, List.getElem?_eq_getElem inside,
      List.getD_eq_getElem _ _ inside]
    dsimp only
    rw [if_pos sum, UInt8.ofNat_add, UInt8.ofNat_toNat]
    exact ⟨rfl, sum⟩

theorem mem_rows {colours : Nat → Nat → UInt8} {width height x y r : Nat} :
    (x, y, r) ∈ rows (fun y => (List.range width).map (colours y)) (List.range' 0 height) ↔
      x < width ∧ y < height ∧ r = (colours y x).toNat := by
  simp only [rows, strip, List.mem_flatMap, List.mem_map, Prod.mk.injEq, Prod.exists]
  constructor
  · rintro ⟨row, inside, colour, column, member, rfl, rfl, rfl⟩
    have here := List.mem_zipIdx_iff_getElem?.mp member
    obtain ⟨left, same⟩ := List.getElem?_eq_some_iff.mp here
    simp only [List.length_map, List.length_range] at left
    simp only [List.getElem_map, List.getElem_range] at same
    rw [same]
    exact ⟨left, by simpa using inside, rfl⟩
  · rintro ⟨left, above, rfl⟩
    refine ⟨y, by simpa using above, colours y x, x, ?_, rfl, rfl, rfl⟩
    apply List.mem_zipIdx_iff_getElem?.mpr
    simp [left]

/-- Interpreting the sixels of an image defines the registers of its palette, paints every pixel
with the register of its colour, and paints nothing else. -/
theorem encode_paints {wu : Quantizer} (faithful : Faithful wu) (w : Wrapping)
    {img : DynamicImage} (wide : 0 < img.width) (high : 0 < img.height) {qo : QuantizeOutput}
    (quantified : quantify wu img = .ok qo) :
    ∃ data, encode wu w img = .ok (w.wrap data) ∧
      (interpret data).palette =
        qo.palette.zipIdx.map (fun (c, i) => entry (i + img.hasAlpha.toNat) c) ∧
      ∀ x y r, (x, y, r) ∈ (interpret data).painted ↔
        x < img.width ∧ y < img.height ∧ r = register img qo x y := by
  have indexed : ∀ y ∈ List.range' 0 img.height, ∀ x < img.width,
      index img qo y x = .ok (UInt8.ofNat (register img qo x y)) := by
    intro y member x left
    exact (index_eq faithful quantified left (by simpa using member)).1
  obtain ⟨rest, written, drawn⟩ := lines_painted wide img.height 0 indexed
    (text "\"1;1;" ++ Decimal.write img.width ++ text ";" ++ Decimal.write img.height ++
      definitions img.hasAlpha.toNat qo.palette)
  -- The header leaves the screen at its first column and band.
  have raster : (({} : Screen).feeds (text "\"1;1;" ++ Decimal.write img.width ++ text ";" ++
      Decimal.write img.height)) =
        ({} : Screen).collect .raster [1, 1, img.width] img.height := by
    have opened : ({} : Screen).feeds (text "\"1;1;") =
        ({} : Screen).collect .raster [1, 1] 0 := rfl
    simp [opened]
  obtain ⟨palette, column, band, painted⟩ := feeds_definitions
    (({} : Screen).collect .raster [1, 1, img.width] img.height) img.hasAlpha.toNat qo.palette
  obtain ⟨palettes, dots⟩ := drawn _ column band
  refine ⟨text "\"1;1;" ++ Decimal.write img.width ++ text ";" ++ Decimal.write img.height ++
    definitions img.hasAlpha.toNat qo.palette ++ rest, ?_, ?_, ?_⟩
  · rw [encode, if_neg (by omega), quantified]
    dsimp only
    rw [data, List.range_eq_range', written]
  · rw [interpret, Screen.feeds_append, Screen.feeds_append, raster, palettes, palette]
    rfl
  · intro x y r
    have blank : (({} : Screen).collect .raster [1, 1, img.width] img.height).painted = [] := rfl
    rw [interpret, Screen.settle_painted, Screen.feeds_append, Screen.feeds_append, raster, dots,
      painted, blank, List.nil_append, mem_rows]
    refine and_congr_right fun left => and_congr_right fun above => ?_
    have small := (index_eq faithful quantified left above).2
    rw [UInt8.toNat_ofNat', Nat.mod_eq_of_lt small]

/-- Two red pixels, the second of them transparent. -/
def reds : DynamicImage where
  width := 2
  height := 1
  hasAlpha := true
  getPixel x _ := ⟨⟨255, 0, 0⟩, if x = 0 then 255 else 0⟩
  solid := nofun

/-- A quantizer for images of one colour. -/
def plain : Quantizer
  | color :: colors, _ + 1 => .ok ⟨List.replicate (colors.length + 1) 0, [color]⟩
  | _, _ => .error .quantizer

theorem encode_paints_reds :
    Faithful plain ∧ ∃ data, encode plain ⟨[], [0x1b], []⟩ reds =
        .ok (Wrapping.wrap ⟨[], [0x1b], []⟩ data) ∧
      (0, 0, 1) ∈ (interpret data).painted ∧ (1, 0, 0) ∈ (interpret data).painted ∧
      (1, 0, 1) ∉ (interpret data).painted ∧ (0, 1, 0) ∉ (interpret data).painted := by
  have faithful : Faithful plain := by
    intro colors size qo made
    unfold plain at made
    split at made
    · cases made
      refine ⟨List.length_replicate, ?_, ?_⟩
      · intro i member
        rw [List.eq_of_mem_replicate member]
        exact Nat.one_pos
      · exact Nat.succ_le_succ (Nat.zero_le _)
    · cases made
  obtain ⟨data, encoded, -, painted⟩ :=
    @encode_paints plain faithful ⟨[], [0x1b], []⟩ reds (by decide) (by decide) _ rfl
  refine ⟨faithful, data, encoded, ?_, ?_, ?_, ?_⟩
  all_goals
    rw [painted]
    decide

end Yazi.Adapter.Sixel
