import LightningLob.Replay
import Mathlib.Data.List.TakeWhile

/-! # Which files load

    What a well-formed file is, in terms of whole fields, against what
    `load_csv` takes.  `parse_number` does not look where the number ends, so
    the two differ on rows in which text follows a number: such a row loads as
    if that text were not there. -/

namespace LightningLob

/-! ## Section 1: Well-formed rows -/

/-- The sign of a numeric field, and the rest of it: only a signed type takes
    a minus. -/
def signOf (T : IntegerType) (field : List Char) : Bool × List Char :=
  if T.signed ∧ field.head? = some '-' then (true, field.drop 1) else (false, field)

/-- The number that a sign and digits stand for. -/
def valueOf (negative : Bool) (digits : List Char) : Int :=
  if negative then -(Nat.ofDigitChars 10 digits 0) else Nat.ofDigitChars 10 digits 0

/-- The number a whole field stands for, if it is a decimal integer in range of
    the type. -/
def decimalOf (T : IntegerType) (field : List Char) : Option Int :=
  let (negative, text) := signOf T field
  if (text ≠ [] ∧ text.all Char.isDigit) ∧
      T.lowest ≤ valueOf negative text ∧ valueOf negative text ≤ T.highest then
    some (valueOf negative text)
  else
    none

def sideOf (field : List Char) : Option Side :=
  if field = ['B', 'U', 'Y'] then some .buy
  else if field = ['S', 'E', 'L', 'L'] then some .sell
  else none

def typeOf (field : List Char) : Option OrderType :=
  if field = ['L', 'I', 'M', 'I', 'T'] then some .limit
  else if field = ['M', 'A', 'R', 'K', 'E', 'T'] then some .market
  else none

def tifOf (field : List Char) : Option TimeInForce :=
  if field = ['G', 'T', 'C'] ∨ field = [] then some .gtc
  else if field = ['I', 'O', 'C'] then some .ioc
  else none

/-- The request that the fields of a well-formed row stand for. -/
def requestOf : List (List Char) → Option OrderRequest
  | orderId :: timestamp :: symbol :: side :: type :: price :: quantity :: rest => do
      let clientOrderId ← decimalOf .uint64 orderId
      let _ ← decimalOf .uint64 timestamp
      let symbol ← decimalOf .uint32 symbol
      let side ← sideOf side
      let type ← typeOf type
      let price ← decimalOf .int64 price
      let quantity ← decimalOf .int64 quantity
      let timeInForce ← match rest with
        | [] => some .gtc
        | tif :: _ => tifOf tif
      pure {
        clientOrderId := UInt64.ofNat clientOrderId.toNat
        symbol := UInt32.ofNat symbol.toNat
        side := side
        type := type
        price := price
        quantity := quantity
        timeInForce := timeInForce }
  | _ => none

/-- The request of a well-formed row. -/
def rowOf (line : List Char) : Option OrderRequest := requestOf (line.splitOn ',')

/-- A numeric field up to the end of the number it starts with. -/
def leadingNumber (T : IntegerType) (field : List Char) : List Char :=
  let (negative, text) := signOf T field
  (if negative then ['-'] else []) ++ text.takeWhile Char.isDigit

/-- The fields of a row with what follows the numbers cut off. -/
def cutNumbers : List (List Char) → List (List Char)
  | orderId :: timestamp :: symbol :: side :: type :: price :: quantity :: rest =>
      leadingNumber .uint64 orderId :: leadingNumber .uint64 timestamp ::
      leadingNumber .uint32 symbol :: side :: type :: leadingNumber .int64 price ::
      leadingNumber .int64 quantity :: rest
  | fields => fields

/-- The request of a row that is well-formed once what follows its numbers is
    cut off. -/
def cutRowOf (line : List Char) : Option OrderRequest := requestOf (cutNumbers (line.splitOn ','))

/-! ## Section 2: The rows of a file -/

/-- The lines of a file; the text after the last line end is one if there is
    any. -/
def linesOf (content : List Char) : List (List Char) :=
  let pieces := content.splitOn '\n'
  if pieces.getLast? = some [] then pieces.dropLast else pieces

/-- The non-blank lines, without their CR. -/
def nonBlank (lines : List (List Char)) : List (List Char) :=
  (lines.map stripCr).filter (· ≠ [])

/-- The rows among the non-blank lines; the first may be a header. -/
def withoutHeader : List (List Char) → List (List Char)
  | [] => []
  | line :: lines => if startsWithDigit line then line :: lines else lines

/-- The rows of a file. -/
def rowsOf (content : List Char) : List (List Char) := withoutHeader (nonBlank (linesOf content))

/-! ## Section 3: Fields -/

/-- What comes before the first delimiter and what comes after it. -/
theorem eq_of_idxOf? {line : List Char} {delim : Char} {pos : Nat}
    (h : line.idxOf? delim = some pos) :
    line = line.take pos ++ delim :: line.drop (pos + 1) ∧ delim ∉ line.take pos := by
  obtain ⟨hlt, heq, hbefore⟩ := List.idxOf?_eq_some_iff.mp h
  refine ⟨?_, fun hmem => ?_⟩
  · rw [← heq, List.getElem_cons_drop, List.take_append_drop]
  · obtain ⟨j, hj, hget⟩ := List.getElem_of_mem hmem
    rw [List.length_take] at hj
    rw [List.getElem_take] at hget
    exact hbefore j (by omega) hget

/-- With enough rounds the loop splits at every delimiter. -/
theorem splitLoop_eq (delim : Char) : ∀ (fuel : Nat) (line : List Char), line.length < fuel →
    splitLoop delim fuel line = line.splitOn delim := by
  intro fuel
  induction fuel with
  | zero => intro line h; exact absurd h (Nat.not_lt_zero _)
  | succ fuel ih =>
    intro line hlen
    cases hpos : line.idxOf? delim with
    | none =>
      have hnot : delim ∉ line := List.idxOf?_eq_none_iff.mp hpos
      simp only [splitLoop, hpos, List.splitOn_eq_singleton hnot]
    | some pos =>
      obtain ⟨heq, hnot⟩ := eq_of_idxOf? hpos
      have hshort : (line.drop (pos + 1)).length < fuel := by
        have hlength := congrArg List.length heq
        rw [List.length_append, List.length_cons] at hlength
        omega
      have hsplit := List.splitOn_append_cons_self_of_not_mem hnot (line.drop (pos + 1))
      rw [← heq] at hsplit
      simp only [splitLoop, hpos, ih _ hshort, hsplit]

theorem split_eq (line : List Char) (delim : Char) : split line delim = line.splitOn delim :=
  splitLoop_eq delim _ line (Nat.lt_succ_self _)

/-- Cutting a field off keeps its sign. -/
theorem signOf_leadingNumber (T : IntegerType) (field : List Char) :
    signOf T (leadingNumber T field) =
      ((signOf T field).1, (signOf T field).2.takeWhile Char.isDigit) := by
  by_cases hneg : T.signed = true ∧ field.head? = some '-'
  · simp [signOf, leadingNumber, hneg]
  · have hdigit : ¬ (T.signed = true ∧ (field.takeWhile Char.isDigit).head? = some '-') := by
      rintro ⟨-, hhead⟩
      exact absurd (List.mem_takeWhile_imp (List.mem_of_head? hhead)) (by decide)
    simp [signOf, leadingNumber, if_neg hneg, if_neg hdigit]

/-- `from_chars` in terms of sign and digits. -/
theorem fromChars_eq (T : IntegerType) (field : List Char) : fromChars T field =
    if (signOf T field).2.takeWhile Char.isDigit = [] then
      .error .invalidArgument
    else if valueOf (signOf T field).1 ((signOf T field).2.takeWhile Char.isDigit) < T.lowest ∨
        T.highest < valueOf (signOf T field).1 ((signOf T field).2.takeWhile Char.isDigit) then
      .error .resultOutOfRange
    else
      .ok (valueOf (signOf T field).1 ((signOf T field).2.takeWhile Char.isDigit),
        (signOf T field).2.dropWhile Char.isDigit) := by
  unfold fromChars signOf
  by_cases hneg : T.signed = true ∧ field.head? = some '-'
  · simp only [if_pos hneg, decide_eq_true hneg]
    rfl
  · simp only [if_neg hneg, decide_eq_false hneg]
    rfl

/-- **Numbers**: a field is read as the number it starts with. -/
theorem parseNumber_toOption (T : IntegerType) (field : List Char) :
    (parseNumber T field).toOption = decimalOf T (leadingNumber T field) := by
  unfold parseNumber decimalOf
  rw [fromChars_eq, signOf_leadingNumber]
  simp only
  generalize (signOf T field).1 = negative
  generalize htext : (signOf T field).2.takeWhile Char.isDigit = digits
  have hall : digits.all Char.isDigit = true := by
    rw [← htext]
    exact List.all_eq_true.mpr fun c hc => List.mem_takeWhile_imp hc
  generalize valueOf negative digits = value
  by_cases hnil : digits = []
  · simp [hnil, Except.toOption]
  by_cases hrange : value < T.lowest ∨ T.highest < value
  · have hout : ¬ (T.lowest ≤ value ∧ value ≤ T.highest) := by omega
    simp [hnil, hrange, hout, Except.toOption]
  · have hin : T.lowest ≤ value ∧ value ≤ T.highest := by omega
    simp [hnil, hrange, hall, hin, Except.toOption]

/-- A field that is a number as a whole has nothing to cut off. -/
theorem leadingNumber_of_decimalOf {T : IntegerType} {field : List Char} {value : Int}
    (h : decimalOf T field = some value) : leadingNumber T field = field := by
  have hdigits : (signOf T field).2.takeWhile Char.isDigit = (signOf T field).2 := by
    unfold decimalOf at h
    simp only [Option.ite_none_right_eq_some] at h
    exact List.takeWhile_eq_self_iff.mpr (List.all_eq_true.mp h.1.1.2)
  unfold leadingNumber
  simp only [hdigits]
  unfold signOf
  by_cases hneg : T.signed = true ∧ field.head? = some '-'
  · obtain ⟨text, rfl⟩ := List.head?_eq_some_iff.mp hneg.2
    simp [hneg]
  · simp [hneg]

/-! ## Section 4: Rows -/

theorem toOption_bind {α β : Type} (x : Except String α) (f : α → Except String β) :
    (x >>= f).toOption = x.toOption >>= fun a => (f a).toOption := by
  cases x <;> rfl

theorem parseSide_toOption (field : List Char) : (parseSide field).toOption = sideOf field := by
  unfold parseSide sideOf
  split_ifs <;> rfl

theorem parseType_toOption (field : List Char) : (parseType field).toOption = typeOf field := by
  unfold parseType typeOf
  split_ifs <;> rfl

theorem parseTif_toOption (field : List Char) : (parseTif field).toOption = tifOf field := by
  unfold parseTif tifOf
  split_ifs <;> rfl

/-- **Rows**: a row is read as if nothing followed its numbers. -/
theorem parseRow_toOption (line : List Char) : (parseRow line).toOption = cutRowOf line := by
  unfold parseRow cutRowOf
  rw [split_eq]
  rcases line.splitOn ',' with _ | ⟨orderId, _ | ⟨timestamp, _ | ⟨symbol, _ | ⟨side, _ | ⟨type, _ |
    ⟨price, _ | ⟨quantity, rest⟩⟩⟩⟩⟩⟩⟩
  case cons.cons.cons.cons.cons.cons.cons =>
    cases rest with
    | nil =>
      simp only [cutNumbers, requestOf, toOption_bind, parseNumber_toOption, parseSide_toOption,
        parseType_toOption]
      rfl
    | cons tif rest =>
      simp only [cutNumbers, requestOf, toOption_bind, parseNumber_toOption, parseSide_toOption,
        parseType_toOption, parseTif_toOption]
      rfl
  all_goals rfl

/-- A well-formed row stays what it is when nothing is cut off. -/
theorem cutRowOf_of_rowOf {line : List Char} {request : OrderRequest}
    (h : rowOf line = some request) : cutRowOf line = some request := by
  unfold rowOf at h
  unfold cutRowOf
  suffices hcut : cutNumbers (line.splitOn ',') = line.splitOn ',' by rw [hcut, h]
  revert h
  rcases line.splitOn ',' with _ | ⟨orderId, _ | ⟨timestamp, _ | ⟨symbol, _ | ⟨side, _ | ⟨type, _ |
    ⟨price, _ | ⟨quantity, rest⟩⟩⟩⟩⟩⟩⟩
  case cons.cons.cons.cons.cons.cons.cons =>
    intro h
    simp only [requestOf, Option.bind_eq_bind, Option.bind_eq_some_iff] at h
    obtain ⟨_, hid, _, htime, _, hsymbol, _, -, _, -, _, hprice, _, hquantity, -⟩ := h
    simp only [cutNumbers, leadingNumber_of_decimalOf hid, leadingNumber_of_decimalOf htime,
      leadingNumber_of_decimalOf hsymbol, leadingNumber_of_decimalOf hprice,
      leadingNumber_of_decimalOf hquantity]
  all_goals exact fun _ => rfl

/-! ## Section 5: Lines -/

/-- A line end ends a line. -/
theorem linesOf_append_cons {line : List Char} (h : '\n' ∉ line) (rest : List Char) :
    linesOf (line ++ '\n' :: rest) = line :: linesOf rest := by
  -- there is always a piece after a line end
  obtain ⟨piece, pieces, hrest⟩ := List.exists_cons_of_ne_nil (List.splitOn_ne_nil '\n' rest)
  unfold linesOf
  rw [List.splitOn_append_cons_self_of_not_mem h, hrest]
  simp only [List.getLast?_cons_cons, List.dropLast_cons_cons]
  split_ifs <;> rfl

/-- One `getline` takes the first line off. -/
theorem linesOf_eq (content : List Char) : linesOf content =
    match getline content with
    | none => []
    | some (line, rest) => line :: linesOf rest := by
  unfold getline
  by_cases hnil : content = []
  · rw [if_pos hnil, hnil]
    rfl
  rw [if_neg hnil]
  simp only
  cases hdrop : content.dropWhile (· ≠ '\n') with
  | nil =>
    -- the last line has no line end
    have hnot : '\n' ∉ content := by
      intro hmem
      simpa using List.dropWhile_eq_nil_iff.mp hdrop '\n' hmem
    have hall : content.takeWhile (· ≠ '\n') = content :=
      List.takeWhile_eq_self_iff.mpr fun c hc => by
        simpa using fun h : c = '\n' => hnot (h ▸ hc)
    rw [hall]
    unfold linesOf
    rw [List.splitOn_eq_singleton hnot]
    simp [hnil]
  | cons c rest =>
    have hc : c = '\n' := by
      have hhead := List.head?_dropWhile_not (fun c => decide (c ≠ '\n')) content
      rw [hdrop] at hhead
      simpa using hhead
    subst hc
    have hsplit := List.takeWhile_append_dropWhile (p := fun c => decide (c ≠ '\n')) (l := content)
    rw [hdrop] at hsplit
    have hnot : '\n' ∉ content.takeWhile (fun c => decide (c ≠ '\n')) := by
      intro hmem
      simpa using List.mem_takeWhile_imp hmem
    have hlines := linesOf_append_cons hnot rest
    rw [hsplit] at hlines
    exact hlines

/-- The rows among the lines of the rest of a file, the first of which may be a
    header only as long as no non-blank line was seen. -/
def rowsFrom (firstLine : Bool) (lines : List (List Char)) : List (List Char) :=
  if firstLine then withoutHeader (nonBlank lines) else nonBlank lines

section rows

variable {firstLine : Bool} {line : List Char} {lines : List (List Char)}

theorem nonBlank_cons_blank (h : stripCr line = []) :
    nonBlank (line :: lines) = nonBlank lines := by
  simp [nonBlank, h]

theorem nonBlank_cons (h : stripCr line ≠ []) :
    nonBlank (line :: lines) = stripCr line :: nonBlank lines := by
  simp [nonBlank, h]

theorem rowsFrom_blank (h : stripCr line = []) :
    rowsFrom firstLine (line :: lines) = rowsFrom firstLine lines := by
  unfold rowsFrom
  rw [nonBlank_cons_blank h]

theorem rowsFrom_header (h : stripCr line ≠ []) (hfirst : firstLine = true)
    (hdigit : ¬ startsWithDigit (stripCr line) = true) :
    rowsFrom firstLine (line :: lines) = rowsFrom false lines := by
  simp [rowsFrom, nonBlank_cons h, withoutHeader, hfirst, hdigit]

theorem rowsFrom_row (h : stripCr line ≠ [])
    (hrow : ¬ (firstLine = true ∧ ¬ startsWithDigit (stripCr line) = true)) :
    rowsFrom firstLine (line :: lines) = stripCr line :: rowsFrom false lines := by
  cases firstLine with
  | false => simp [rowsFrom, nonBlank_cons h]
  | true =>
    have hdigit : startsWithDigit (stripCr line) = true := by simpa using hrow
    simp [rowsFrom, nonBlank_cons h, withoutHeader, hdigit]

end rows

/-- A line that is read shortens the input. -/
theorem getline_length {input line rest : List Char} (h : getline input = some (line, rest)) :
    rest.length < input.length := by
  unfold getline at h
  split at h
  · cases h
  · next hne =>
    obtain ⟨-, rfl⟩ := Prod.mk.inj (Option.some.inj h)
    have hpos := List.length_pos_iff.mpr hne
    have hle := (List.dropWhile_sublist (fun c => decide (c ≠ '\n')) (l := input)).length_le
    rw [List.length_drop]
    omega

/-- **The loop** reads the rows of the rest of the file, in order. -/
theorem loadLoop_toOption : ∀ (fuel : Nat) (firstLine : Bool) (input : List Char)
    (orders : List OrderRequest), input.length < fuel →
    (loadLoop fuel firstLine input orders).toOption =
      ((rowsFrom firstLine (linesOf input)).mapM cutRowOf).map (orders ++ ·) := by
  intro fuel
  induction fuel with
  | zero => intro _ input _ h; exact absurd h (Nat.not_lt_zero _)
  | succ fuel ih =>
    intro firstLine input orders hlen
    rw [linesOf_eq, loadLoop]
    cases hline : getline input with
    | none => cases firstLine <;> simp [rowsFrom, nonBlank, withoutHeader, Except.toOption]
    | some x =>
      obtain ⟨line, rest⟩ := x
      have hshort : rest.length < fuel := by
        have hlt := getline_length hline
        omega
      simp only
      by_cases hblank : stripCr line = []
      · rw [if_pos hblank, ih firstLine rest orders hshort, rowsFrom_blank hblank]
      rw [if_neg hblank]
      by_cases hheader : firstLine = true ∧ ¬ startsWithDigit (stripCr line) = true
      · rw [if_pos hheader, ih false rest orders hshort,
          rowsFrom_header hblank hheader.1 hheader.2]
      rw [if_neg hheader, rowsFrom_row hblank hheader, toOption_bind, parseRow_toOption,
        List.mapM_cons]
      cases cutRowOf (stripCr line) with
      | none => rfl
      | some request =>
        simp only [Option.bind_eq_bind, Option.bind_some, ih false rest _ hshort]
        cases (rowsFrom false (linesOf rest)).mapM cutRowOf with
        | none => rfl
        | some requests => simp

/-! ## Section 6: Files -/

/-- **What loads**: the rows that are well-formed once what follows their
    numbers is cut off. -/
theorem loadCsv_toOption (path : String) (content : List Char) :
    (loadCsv path (some content)).toOption = (rowsOf content).mapM cutRowOf := by
  have hloop := loadLoop_toOption (content.length + 1) true content [] (Nat.lt_succ_self _)
  simpa [loadCsv, rowsFrom, rowsOf] using hloop

theorem mapM_eq_none {α β : Type} {f : α → Option β} {as : List α} :
    as.mapM f = none ↔ ∃ a ∈ as, f a = none := by
  induction as with
  | nil => simp
  | cons a as ih =>
    rw [List.mapM_cons]
    cases hf : f a with
    | none => simp [hf]
    | some b =>
      cases hfs : as.mapM f with
      | none => simpa [hf, hfs] using ih.mp hfs
      | some bs =>
        have hsome := mt ih.mpr (by simp [hfs])
        simpa [hf, hfs] using hsome

theorem mapM_congr {α β : Type} {f g : α → Option β} {as : List α} (h : ∀ a ∈ as, f a = g a) :
    as.mapM f = as.mapM g := by
  induction as with
  | nil => rfl
  | cons a as ih =>
    rw [List.mapM_cons, List.mapM_cons, h a (by simp), ih fun b hb => h b (by simp [hb])]

/-- The file loads exactly if it is well-formed, and as what it says. -/
def LoadsExactly (path : String) (content : List Char) : Prop :=
  match (rowsOf content).mapM rowOf with
  | some requests => loadCsv path (some content) = .ok requests
  | none => ∃ message, loadCsv path (some content) = .error message

theorem loadsExactly_iff (path : String) (content : List Char) :
    LoadsExactly path content ↔ (rowsOf content).mapM cutRowOf = (rowsOf content).mapM rowOf := by
  unfold LoadsExactly
  rw [← loadCsv_toOption path]
  cases (rowsOf content).mapM rowOf with
  | none => cases loadCsv path (some content) <;> simp [Except.toOption]
  | some requests => cases loadCsv path (some content) <;> simp [Except.toOption]

/-- **Loading**: `load_csv` takes exactly the well-formed files, and as what
    they say, except for files with a row that is ill-formed, but only because
    text follows the number in a numeric field, and no other ill-formed row. -/
theorem load_csv_exact_iff (path : String) (content : List Char) :
    LoadsExactly path content ↔
      (∀ line ∈ rowsOf content, rowOf line ≠ none) ∨
        ∃ line ∈ rowsOf content, cutRowOf line = none := by
  rw [loadsExactly_iff]
  constructor
  · intro h
    by_cases hall : ∀ line ∈ rowsOf content, rowOf line ≠ none
    · exact .inl hall
    · push Not at hall
      rw [mapM_eq_none.mpr hall] at h
      exact .inr (mapM_eq_none.mp h)
  · rintro (hall | hcut)
    · refine mapM_congr fun line hline => ?_
      obtain ⟨request, hrow⟩ := Option.ne_none_iff_exists'.mp (hall line hline)
      rw [hrow, cutRowOf_of_rowOf hrow]
    · have hrow : ∃ line ∈ rowsOf content, rowOf line = none := by
        obtain ⟨line, hline, hnone⟩ := hcut
        refine ⟨line, hline, Option.eq_none_iff_forall_ne_some.mpr fun request hrow => ?_⟩
        rw [cutRowOf_of_rowOf hrow] at hnone
        cases hnone
      rw [mapM_eq_none.mpr hcut, mapM_eq_none.mpr hrow]

/-- A decimal price loads, as the integer in front of its point. -/
theorem decimal_price_loads :
    loadCsv "orders.csv" (some "1,1000,1,BUY,LIMIT,100.5,10,GTC\n".toList) =
        .ok [⟨1, 1, 0, .buy, .limit, 100, 10, .gtc⟩] ∧
      ¬ LoadsExactly "orders.csv" "1,1000,1,BUY,LIMIT,100.5,10,GTC\n".toList := by
  rw [loadsExactly_iff]
  decide +kernel

end LightningLob
