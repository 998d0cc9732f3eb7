import LightningLob.CsvLoading

/-! # Files that are written load as what was written

    A writer of the documented format, with all that the format leaves open:
    LF or CRLF line ends, a header row or none, blank lines, and the last
    column of a GTC row written, empty or missing. -/

namespace LightningLob

/-! ## Section 1: The writer -/

/-- A number in decimal. -/
def decimalText (value : Int) : List Char :=
  (if value < 0 then ['-'] else []) ++ Nat.toDigits 10 value.natAbs

def sideText : Side → List Char
  | .buy => ['B', 'U', 'Y']
  | .sell => ['S', 'E', 'L', 'L']

def typeText : OrderType → List Char
  | .limit => ['L', 'I', 'M', 'I', 'T']
  | .market => ['M', 'A', 'R', 'K', 'E', 'T']

/-- How the last column of a GTC row is written. -/
inductive TifColumn where
  | written
  | empty
  | dropped
  deriving DecidableEq, Repr

/-- The fields after the quantity. -/
def tifFields : TimeInForce → TifColumn → List (List Char)
  | .gtc, .written => [['G', 'T', 'C']]
  | .gtc, .empty => [[]]
  | .gtc, .dropped => []
  | .ioc, _ => [['I', 'O', 'C']]
  | .fok, _ => [['F', 'O', 'K']]

/-- The end of a line. -/
def lineEnd (crlf : Bool) : List Char := if crlf then ['\r', '\n'] else ['\n']

/-- Blank lines, with the line end of each. -/
def blankLines (ends : List Bool) : List Char := ends.flatMap lineEnd

/-- A row of a file, with the blank lines before it. -/
structure CsvRow where
  request : OrderRequest
  timestamp : UInt64
  tif : TifColumn
  crlf : Bool
  blanks : List Bool
  deriving DecidableEq, Repr

namespace CsvRow

def fields (row : CsvRow) : List (List Char) :=
  [decimalText row.request.clientOrderId.toNat, decimalText row.timestamp.toNat,
    decimalText row.request.symbol.toNat, sideText row.request.side, typeText row.request.type,
    decimalText row.request.price, decimalText row.request.quantity] ++
  tifFields row.request.timeInForce row.tif

def line (row : CsvRow) : List Char := [','].intercalate row.fields

def text (row : CsvRow) : List Char := blankLines row.blanks ++ (row.line ++ lineEnd row.crlf)

/-- The requests the format has room for: it has no participants and no FOK,
    and prices and quantities are 64-bit. -/
structure Documented (row : CsvRow) : Prop where
  participant : row.request.participantId = 0
  not_fok : row.request.timeInForce ≠ .fok
  price : -2 ^ 63 ≤ row.request.price ∧ row.request.price ≤ 2 ^ 63 - 1
  quantity : -2 ^ 63 ≤ row.request.quantity ∧ row.request.quantity ≤ 2 ^ 63 - 1

end CsvRow

/-- The header row. -/
def headerLine : List Char :=
  "order_id,timestamp_ns,symbol_id,side,type,price,quantity,time_in_force".toList

/-- A file: perhaps a header, after blank lines, then the rows, then blank
    lines. -/
def writeCsv (header : Option (List Bool × Bool)) (rows : List CsvRow) (blanks : List Bool) :
    List Char :=
  (match header with
    | none => []
    | some (ends, crlf) => blankLines ends ++ (headerLine ++ lineEnd crlf)) ++
  (rows.flatMap CsvRow.text ++ blankLines blanks)

/-! ## Section 2: Numbers -/

/-- **Numbers** read back as they were. -/
theorem decimalOf_decimalText (T : IntegerType) (value : Int) (hlow : T.lowest ≤ value)
    (hhigh : value ≤ T.highest) (hsign : value < 0 → T.signed = true) :
    decimalOf T (decimalText value) = some value := by
  have hall : (Nat.toDigits 10 value.natAbs).all Char.isDigit = true :=
    List.all_eq_true.mpr fun c hc => Nat.isDigit_of_mem_toDigits (by decide) (by decide) hc
  have hsignOf : signOf T (decimalText value) =
      (decide (value < 0), Nat.toDigits 10 value.natAbs) := by
    by_cases hneg : value < 0
    · simp [signOf, decimalText, hneg, hsign hneg]
    · have hhead : ¬ (T.signed = true ∧ (Nat.toDigits 10 value.natAbs).head? = some '-') := by
        rintro ⟨-, hhead⟩
        exact absurd (List.all_eq_true.mp hall '-' (List.mem_of_head? hhead)) (by decide)
      simp [signOf, decimalText, hneg, hhead]
  have hvalue : valueOf (decide (value < 0)) (Nat.toDigits 10 value.natAbs) = value := by
    unfold valueOf
    rw [Nat.ofDigitChars_ten_toDigits]
    simp only [decide_eq_true_eq]
    split <;> omega
  unfold decimalOf
  rw [hsignOf]
  simp only [hvalue]
  rw [if_pos ⟨⟨Nat.toDigits_ne_nil, hall⟩, hlow, hhigh⟩]

/-! ## Section 3: Fields and lines -/

/-- A character that neither ends a field nor a line. -/
def Plain (c : Char) : Prop := c ≠ ',' ∧ c ≠ '\n' ∧ c ≠ '\r'

instance : DecidablePred Plain := fun c =>
  inferInstanceAs (Decidable (c ≠ ',' ∧ c ≠ '\n' ∧ c ≠ '\r'))

theorem plain_of_isDigit {c : Char} (h : c.isDigit = true) : Plain c := by
  refine ⟨?_, ?_, ?_⟩ <;> rintro rfl <;> exact absurd h (by decide)

theorem plain_decimalText (value : Int) : ∀ c ∈ decimalText value, Plain c := by
  intro c hc
  rcases List.mem_append.mp hc with hc | hc
  · split at hc
    · rw [List.mem_singleton.mp hc]
      decide
    · cases hc
  · exact plain_of_isDigit (Nat.isDigit_of_mem_toDigits (by decide) (by decide) hc)

theorem plain_tifFields (tif : TimeInForce) (column : TifColumn) :
    ∀ field ∈ tifFields tif column, ∀ c ∈ field, Plain c := by
  cases tif <;> cases column <;> simp [tifFields, Plain]

theorem plain_intercalate {fields : List (List Char)} (h : ∀ field ∈ fields, ∀ c ∈ field, Plain c) :
    ∀ c ∈ [','].intercalate fields, c = ',' ∨ Plain c := by
  induction fields with
  | nil => simp
  | cons field fields ih =>
    have hrest := ih fun f hf => h f (by simp [hf])
    have hfield := h field (by simp)
    cases fields with
    | nil => exact fun c hc => .inr (hfield c (by simpa using hc))
    | cons next fields =>
      intro c hc
      rw [List.intercalate_cons_cons, List.mem_append, List.mem_append] at hc
      rcases hc with (hc | hc) | hc
      · exact .inr (hfield c hc)
      · exact .inl (List.mem_singleton.mp hc)
      · exact hrest c hc

namespace CsvRow

variable {row : CsvRow}

theorem plain_fields (row : CsvRow) : ∀ field ∈ row.fields, ∀ c ∈ field, Plain c := by
  intro field hfield
  rcases List.mem_append.mp hfield with hfield | hfield
  · simp only [List.mem_cons, List.not_mem_nil, or_false] at hfield
    rcases hfield with rfl | rfl | rfl | rfl | rfl | rfl | rfl
    · exact plain_decimalText _
    · exact plain_decimalText _
    · exact plain_decimalText _
    · cases row.request.side <;> simp [sideText, Plain]
    · cases row.request.type <;> simp [typeText, Plain]
    · exact plain_decimalText _
    · exact plain_decimalText _
  · exact plain_tifFields _ _ field hfield

/-- The fields of a row are found again. -/
theorem splitOn_line (row : CsvRow) : row.line.splitOn ',' = row.fields :=
  List.splitOn_intercalate ','
    (fun field hfield hmem => (row.plain_fields field hfield _ hmem).1 rfl) (by simp [fields])

/-- **Rows** read back as they were. -/
theorem Documented.rowOf_line (h : row.Documented) : rowOf row.line = some row.request := by
  obtain ⟨hparticipant, hfok, hprice, hquantity⟩ := h
  obtain ⟨⟨id, symbol, participant, side, type, price, quantity, tif⟩, timestamp, column, _, _⟩ :=
    row
  simp only at hparticipant hfok hprice hquantity
  have hid := decimalOf_decimalText .uint64 id.toNat (Int.natCast_nonneg _)
    (by have hlt := id.toNat_lt; simp only [IntegerType.uint64]; omega) (by omega)
  have htime := decimalOf_decimalText .uint64 timestamp.toNat (Int.natCast_nonneg _)
    (by have hlt := timestamp.toNat_lt; simp only [IntegerType.uint64]; omega) (by omega)
  have hsymbol := decimalOf_decimalText .uint32 symbol.toNat (Int.natCast_nonneg _)
    (by have hlt := symbol.toNat_lt; simp only [IntegerType.uint32]; omega) (by omega)
  have hprice' := decimalOf_decimalText .int64 price hprice.1 hprice.2 fun _ => rfl
  have hquantity' := decimalOf_decimalText .int64 quantity hquantity.1 hquantity.2 fun _ => rfl
  have hside : sideOf (sideText side) = some side := by cases side <;> rfl
  have htype : typeOf (typeText type) = some type := by cases type <;> rfl
  unfold rowOf
  rw [splitOn_line]
  simp only [fields, List.cons_append, List.nil_append, requestOf, hid, htime, hsymbol, hside,
    htype, hprice', hquantity', Option.bind_eq_bind, Option.bind_some]
  -- what the last column says, and how
  cases tif with
  | fok => exact absurd rfl hfok
  | ioc => simp [tifFields, tifOf, hparticipant]
  | gtc => cases column <;> simp [tifFields, tifOf, hparticipant]

/-- A row's line starts with the digits of its order id. -/
theorem startsWithDigit_line (row : CsvRow) : startsWithDigit row.line = true := by
  obtain ⟨c, cs, hdigits⟩ := List.exists_cons_of_ne_nil
    (Nat.toDigits_ne_nil (n := row.request.clientOrderId.toNat) (b := 10))
  have hid : decimalText row.request.clientOrderId.toNat = c :: cs := by
    simp [decimalText, hdigits]
  have hdigit : c.isDigit = true :=
    Nat.isDigit_of_mem_toDigits (by decide) (by decide) (hdigits ▸ List.mem_cons_self)
  unfold line fields
  rw [hid, List.cons_append, List.cons_append, List.intercalate_cons_cons]
  exact hdigit

/-- A row's line has nothing of a line end in it. -/
theorem line_plain (row : CsvRow) : '\n' ∉ row.line ∧ '\r' ∉ row.line := by
  have hline := plain_intercalate row.plain_fields
  refine ⟨fun h => ?_, fun h => ?_⟩
  · rcases hline _ h with hc | hc
    · cases hc
    · exact hc.2.1 rfl
  · rcases hline _ h with hc | hc
    · cases hc
    · exact hc.2.2 rfl

end CsvRow

/-- A text without a line end in it is one line. -/
theorem linesOf_line (text : List Char) (hn : '\n' ∉ text) (crlf : Bool) (rest : List Char) :
    linesOf (text ++ lineEnd crlf ++ rest) =
      (text ++ if crlf then ['\r'] else []) :: linesOf rest := by
  cases crlf with
  | true =>
    have hnot : '\n' ∉ text ++ ['\r'] := by simpa using hn
    simpa [lineEnd] using linesOf_append_cons hnot rest
  | false => simpa [lineEnd] using linesOf_append_cons hn rest

theorem stripCr_line {text : List Char} (hr : '\r' ∉ text) (crlf : Bool) :
    stripCr (text ++ if crlf then ['\r'] else []) = text := by
  cases crlf with
  | true => simp [stripCr]
  | false =>
    have hlast : text.getLast? ≠ some '\r' := fun h => hr (List.mem_of_getLast? h)
    simp [stripCr, hlast]

section files

variable {firstLine : Bool} {rest : List Char}

theorem rowsFrom_blankLines (firstLine : Bool) (ends : List Bool) (rest : List Char) :
    rowsFrom firstLine (linesOf (blankLines ends ++ rest)) = rowsFrom firstLine (linesOf rest) := by
  induction ends with
  | nil => rfl
  | cons crlf ends ih =>
    have hline := linesOf_line [] (by simp) crlf (blankLines ends ++ rest)
    rw [List.nil_append] at hline
    rw [blankLines, List.flatMap_cons, List.append_assoc, ← blankLines, hline]
    rw [rowsFrom_blank (stripCr_line (by simp) crlf), ih]

theorem rowsFrom_line (row : CsvRow) :
    rowsFrom firstLine (linesOf (row.text ++ rest)) =
      row.line :: rowsFrom false (linesOf rest) := by
  obtain ⟨hn, hr⟩ := row.line_plain
  have hstrip := stripCr_line hr row.crlf
  have hne : row.line ≠ [] := by
    intro hnil
    have hdigit := row.startsWithDigit_line
    rw [hnil] at hdigit
    cases hdigit
  rw [CsvRow.text, List.append_assoc, rowsFrom_blankLines, linesOf_line _ hn,
    rowsFrom_row (by rw [hstrip]; exact hne) (by rw [hstrip, row.startsWithDigit_line]; simp),
    hstrip]

theorem rowsFrom_rows (rows : List CsvRow) (blanks : List Bool) :
    rowsFrom firstLine (linesOf (rows.flatMap CsvRow.text ++ blankLines blanks)) =
      rows.map CsvRow.line := by
  induction rows generalizing firstLine with
  | nil =>
    have hblank := rowsFrom_blankLines firstLine blanks []
    rw [List.append_nil] at hblank
    rw [List.flatMap_nil, List.nil_append, hblank]
    cases firstLine <;> rfl
  | cons row rows ih => rw [List.flatMap_cons, List.append_assoc, rowsFrom_line, ih, List.map_cons]

theorem rowsOf_writeCsv (header : Option (List Bool × Bool)) (rows : List CsvRow)
    (blanks : List Bool) : rowsOf (writeCsv header rows blanks) = rows.map CsvRow.line := by
  show rowsFrom true (linesOf (writeCsv header rows blanks)) = _
  cases header with
  | none => exact rowsFrom_rows rows blanks
  | some x =>
    obtain ⟨ends, crlf⟩ := x
    have hn : '\n' ∉ headerLine := by decide
    have hr : '\r' ∉ headerLine := by decide
    have hstrip := stripCr_line hr crlf
    rw [writeCsv, List.append_assoc, rowsFrom_blankLines, linesOf_line _ hn,
      rowsFrom_header (by rw [hstrip]; decide) rfl (by rw [hstrip]; decide), rowsFrom_rows]

end files

/-! ## Section 4: Round trip -/

/-- **Round trip**: every file written in the documented format, in whatever
    layout, loads as the requests that were written. -/
theorem csv_round_trip (path : String) (header : Option (List Bool × Bool)) (rows : List CsvRow)
    (blanks : List Bool) (hrows : ∀ row ∈ rows, row.Documented) :
    loadCsv path (some (writeCsv header rows blanks)) = .ok (rows.map CsvRow.request) := by
  have hrequests : (rows.map CsvRow.line).mapM cutRowOf = some (rows.map CsvRow.request) := by
    induction rows with
    | nil => rfl
    | cons row rows ih =>
      have hrow := cutRowOf_of_rowOf (hrows row (by simp)).rowOf_line
      rw [List.map_cons, List.map_cons, List.mapM_cons, hrow, ih fun r hr => hrows r (by simp [hr])]
      rfl
  have hload := loadCsv_toOption path (writeCsv header rows blanks)
  rw [rowsOf_writeCsv, hrequests] at hload
  cases hcsv : loadCsv path (some (writeCsv header rows blanks)) with
  | error message =>
    rw [hcsv] at hload
    cases hload
  | ok requests =>
    rw [hcsv] at hload
    exact congrArg Except.ok (Option.some.inj hload)

/-- A header, blank lines, both line ends, the lowest price and the last column
    dropped. -/
theorem csv_round_trip_mixed :
    loadCsv "orders.csv" (some (writeCsv (some ([true], false))
      [⟨⟨18446744073709551615, 1, 0, .buy, .limit, -2 ^ 63, 10, .gtc⟩, 1000, .dropped, true, []⟩,
       ⟨⟨2, 1, 0, .sell, .market, 0, 2 ^ 63 - 1, .ioc⟩, 0, .written, false, [false, true]⟩]
        [true])) =
      .ok [⟨18446744073709551615, 1, 0, .buy, .limit, -2 ^ 63, 10, .gtc⟩,
        ⟨2, 1, 0, .sell, .market, 0, 2 ^ 63 - 1, .ioc⟩] := by
  refine csv_round_trip "orders.csv" _ _ _ ?_
  simp only [List.forall_mem_cons, List.not_mem_nil, false_imp_iff, implies_true, and_true]
  exact ⟨⟨rfl, by decide, by decide, by decide⟩, ⟨rfl, by decide, by decide, by decide⟩⟩

end LightningLob
