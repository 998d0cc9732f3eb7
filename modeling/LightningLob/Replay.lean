import LightningLob.Types

/-! # Loading orders from a CSV file

    `replay.hpp` and `replay.cpp`: one order for each line, with the columns

      order_id,timestamp_ns,symbol_id,side,type,price,quantity,time_in_force

    of which the last may be missing.  A `std::string` is a list of characters
    here, one for each byte, and an exception is the text it carries. -/

namespace LightningLob

/-! ## Section 1: The standard library -/

/-- `std::getline` on the rest of the input: the line and what follows it, or
    nothing at the end.  The last line may lack its line end. -/
def getline (input : List Char) : Option (List Char × List Char) :=
  if input = [] then
    none
  else
    some (input.takeWhile (· ≠ '\n'), (input.dropWhile (· ≠ '\n')).drop 1)

/-- The integer type a number is read into. -/
structure IntegerType where
  signed : Bool
  lowest : Int
  highest : Int
  deriving DecidableEq, Repr

namespace IntegerType

def uint64 : IntegerType := ⟨false, 0, 2 ^ 64 - 1⟩

def uint32 : IntegerType := ⟨false, 0, 2 ^ 32 - 1⟩

def int64 : IntegerType := ⟨true, -2 ^ 63, 2 ^ 63 - 1⟩

end IntegerType

/-- The errors of `std::from_chars`. -/
inductive Errc where
  | invalidArgument
  | resultOutOfRange
  deriving DecidableEq, Repr

/-- `std::from_chars` in base ten: the value of the leading number and the text
    from `ptr` on.  Only a signed type has a sign, and only a minus; blanks and
    a plus are not skipped. -/
def fromChars (T : IntegerType) (field : List Char) : Except Errc (Int × List Char) :=
  let negative : Bool := T.signed ∧ field.head? = some '-'
  let text := if negative then field.drop 1 else field
  let digits := text.takeWhile Char.isDigit
  let magnitude : Int := Nat.ofDigitChars 10 digits 0
  let value := if negative then -magnitude else magnitude
  if digits = [] then
    .error .invalidArgument
  else if value < T.lowest ∨ T.highest < value then
    .error .resultOutOfRange
  else
    .ok (value, text.dropWhile Char.isDigit)

/-! ## Section 2: Fields -/

/-- The loop of `split`, `rest` being the line from `start` on.  Every round
    but the last moves `start` past a delimiter. -/
def splitLoop (delim : Char) : Nat → List Char → List (List Char)
  | 0, _ => []
  | fuel + 1, rest =>
      match rest.idxOf? delim with
      | none => [rest]
      | some pos => rest.take pos :: splitLoop delim fuel (rest.drop (pos + 1))

/-- `split`. -/
def split (line : List Char) (delim : Char) : List (List Char) :=
  splitLoop delim (line.length + 1) line

/-- `parse_number`: where the number ends is not looked at. -/
def parseNumber (T : IntegerType) (field : List Char) : Except String Int :=
  match fromChars T field with
  | .error _ =>
      .error ("OrderReplay: failed to parse numeric field: '" ++ String.ofList field ++ "'")
  | .ok (value, _) => .ok value

/-- `parse_side`. -/
def parseSide (field : List Char) : Except String Side :=
  if field = ['B', 'U', 'Y'] then
    .ok .buy
  else if field = ['S', 'E', 'L', 'L'] then
    .ok .sell
  else
    .error ("OrderReplay: invalid side field: '" ++ String.ofList field ++ "'")

/-- `parse_type`. -/
def parseType (field : List Char) : Except String OrderType :=
  if field = ['L', 'I', 'M', 'I', 'T'] then
    .ok .limit
  else if field = ['M', 'A', 'R', 'K', 'E', 'T'] then
    .ok .market
  else
    .error ("OrderReplay: invalid type field: '" ++ String.ofList field ++ "'")

/-- `parse_tif`: an empty field is the default. -/
def parseTif (field : List Char) : Except String TimeInForce :=
  if field = ['G', 'T', 'C'] ∨ field = [] then
    .ok .gtc
  else if field = ['I', 'O', 'C'] then
    .ok .ioc
  else
    .error ("OrderReplay: invalid time_in_force field: '" ++ String.ofList field ++ "'")

/-! ## Section 3: Rows and files -/

/-- The request of a row.  The timestamp is read and dropped; a ninth field and
    those after it are not looked at. -/
def parseRow (line : List Char) : Except String OrderRequest :=
  match split line ',' with
  | orderId :: timestamp :: symbol :: side :: type :: price :: quantity :: rest => do
      let clientOrderId ← parseNumber .uint64 orderId
      let _ ← parseNumber .uint64 timestamp
      let symbol ← parseNumber .uint32 symbol
      let side ← parseSide side
      let type ← parseType type
      let price ← parseNumber .int64 price
      let quantity ← parseNumber .int64 quantity
      let timeInForce ← match rest with
        | [] => pure .gtc
        | tif :: _ => parseTif tif
      pure {
        clientOrderId := UInt64.ofNat clientOrderId.toNat
        symbol := UInt32.ofNat symbol.toNat
        side := side
        type := type
        price := price
        quantity := quantity
        timeInForce := timeInForce }
  | _ => .error ("OrderReplay: malformed CSV line (need >= 7 fields): " ++ String.ofList line)

/-- Tolerates CRLF line endings: one trailing CR is dropped. -/
def stripCr (line : List Char) : List Char :=
  if line.getLast? = some '\r' then line.dropLast else line

/-- The line starts with a digit; a header row does not. -/
def startsWithDigit (line : List Char) : Bool := line.head?.any Char.isDigit

/-- The loop of `load_csv` over the rest of the file.  Every round takes a line,
    so the length of the file bounds the rounds. -/
def loadLoop : Nat → Bool → List Char → List OrderRequest → Except String (List OrderRequest)
  | 0, _, _, orders => .ok orders
  | fuel + 1, firstLine, input, orders =>
      match getline input with
      | none => .ok orders
      | some (line, input) =>
          let line := stripCr line
          if line = [] then
            loadLoop fuel firstLine input orders
          else if firstLine ∧ ¬ startsWithDigit line then
            loadLoop fuel false input orders
          else do
            let request ← parseRow line
            loadLoop fuel false input (orders ++ [request])

/-- `load_csv`: `file` is the content of the file at the path, if it opens. -/
def loadCsv (path : String) (file : Option (List Char)) : Except String (List OrderRequest) :=
  match file with
  | none => .error ("OrderReplay: could not open file: " ++ path)
  | some content => loadLoop (content.length + 1) true content []

end LightningLob
