import LightningLob.CsvRoundTrip
import LightningLob.ReplayRuns

/-! # The sample data

    `scripts/generate_sample_data.py` writes a random order flow to a file, for
    the replay mode of `main.cpp` and for the benchmarks.  Whatever is drawn,
    the file loads row by row, and no order of it is rejected. -/

namespace LightningLob

/-! ## Section 1: The generator -/

/-- What is drawn for a row: the step of the mid price, whether to buy, whether
    it is a Market order, the offset from the mid and whether it is IOC if it is
    a Limit order, which quantity, and the time to the next row. -/
structure Draw where
  walk : Int
  walk_range : -3 ≤ walk ∧ walk ≤ 3
  buy : Bool
  market : Bool
  offset : Int
  offset_range : -15 ≤ offset ∧ offset ≤ 15
  ioc : Bool
  quantity : Fin 8
  gap : Nat
  gap_range : 500 ≤ gap ∧ gap ≤ 50000

/-- A row before it is written. -/
structure SampleRow where
  orderId : Nat
  timestampNs : Nat
  side : Side
  orderType : OrderType
  price : Int
  quantity : Int
  tif : TimeInForce
  deriving DecidableEq, Repr

/-- The quantities that are drawn from. -/
def sampleQuantities : List Int := [1, 5, 10, 10, 20, 25, 50, 100]

/-- The mid price walks, gently drawn back, and not too low.  (Division by a
    positive number rounds down in both languages.) -/
def nextMid (midPrice : Int) (draw : Draw) : Int :=
  let midPrice := midPrice + draw.walk
  let midPrice := midPrice + (10000 - midPrice) / 200
  max midPrice 100

def sampleRow (orderId timestampNs : Nat) (midPrice : Int) (draw : Draw) : SampleRow where
  orderId := orderId
  timestampNs := timestampNs
  side := if draw.buy then .buy else .sell
  orderType := if draw.market then .market else .limit
  price := if draw.market then 0 else max (midPrice + draw.offset) 1
  quantity := sampleQuantities.getD draw.quantity 0
  tif := if draw.market then .ioc else if draw.ioc then .ioc else .gtc

/-- The loop of `generate`. -/
def generateFrom (orderId timestampNs : Nat) (midPrice : Int) : List Draw → List SampleRow
  | [] => []
  | draw :: draws =>
      let midPrice := nextMid midPrice draw
      let timestampNs := timestampNs + draw.gap
      sampleRow orderId timestampNs midPrice draw ::
        generateFrom (orderId + 1) timestampNs midPrice draws

/-- `generate`, with the random draws of each row. -/
def generate (draws : List Draw) : List SampleRow :=
  generateFrom 1 1700000000000000000 10000 draws

/-- `writerow` of Python's `csv.writer`: the fields of these rows need no
    quotes, and its lines end with CRLF. -/
def writeRow (fields : List (List Char)) : List Char :=
  [','].intercalate fields ++ ['\r', '\n']

def tifText : TimeInForce → List Char
  | .gtc => ['G', 'T', 'C']
  | .ioc => ['I', 'O', 'C']
  | .fok => ['F', 'O', 'K']

def SampleRow.fields (row : SampleRow) : List (List Char) :=
  [decimalText row.orderId, decimalText row.timestampNs, decimalText 1, sideText row.side,
    typeText row.orderType, decimalText row.price, decimalText row.quantity, tifText row.tif]

def sampleHeader : List (List Char) :=
  ["order_id".toList, "timestamp_ns".toList, "symbol_id".toList, "side".toList, "type".toList,
    "price".toList, "quantity".toList, "time_in_force".toList]

/-- The file that the script writes. -/
def sampleFile (rows : List SampleRow) : List Char :=
  writeRow sampleHeader ++ rows.flatMap fun row => writeRow row.fields

/-! ## Section 2: What is generated -/

/-- What the script promises of the mid price. -/
def MidInRange (midPrice : Int) : Prop := 100 ≤ midPrice ∧ midPrice ≤ 10603

/-- **The walk stays**: the pull towards the middle outweighs the steps. -/
theorem MidInRange.next {midPrice : Int} (h : MidInRange midPrice) (draw : Draw) :
    MidInRange (nextMid midPrice draw) := by
  obtain ⟨hlow, hhigh⟩ := h
  have hwalk := draw.walk_range
  unfold MidInRange nextMid
  simp only
  omega

/-- A row as the loader should read it. -/
def SampleRow.request (row : SampleRow) : OrderRequest where
  clientOrderId := UInt64.ofNat row.orderId
  symbol := 1
  side := row.side
  type := row.orderType
  price := row.price
  quantity := row.quantity
  timeInForce := row.tif

/-- What holds of every row. -/
structure SampleRow.Regular (row : SampleRow) : Prop where
  price : (row.orderType = .market ∧ row.price = 0) ∨
    (row.orderType = .limit ∧ 1 ≤ row.price ∧ row.price ≤ 10618)
  quantity : 1 ≤ row.quantity ∧ row.quantity ≤ 100
  tif : row.tif ≠ .fok

theorem regular_sampleRow {midPrice : Int} (h : MidInRange midPrice) (orderId timestampNs : Nat)
    (draw : Draw) : (sampleRow orderId timestampNs midPrice draw).Regular := by
  obtain ⟨hlow, hhigh⟩ := h
  have hoffset := draw.offset_range
  refine ⟨?_, ?_, ?_⟩
  · unfold sampleRow
    cases draw.market with
    | true => exact .inl ⟨rfl, rfl⟩
    | false =>
      refine .inr ⟨rfl, ?_⟩
      simp only [Bool.false_eq_true, if_false]
      omega
  · show 1 ≤ sampleQuantities.getD draw.quantity 0 ∧ sampleQuantities.getD draw.quantity 0 ≤ 100
    generalize draw.quantity = i
    revert i
    decide
  · unfold sampleRow
    simp only
    split
    · decide
    · split <;> decide

theorem length_generateFrom (orderId timestampNs : Nat) (midPrice : Int) (draws : List Draw) :
    (generateFrom orderId timestampNs midPrice draws).length = draws.length := by
  induction draws generalizing orderId timestampNs midPrice with
  | nil => rfl
  | cons draw draws ih => rw [generateFrom, List.length_cons, List.length_cons, ih]

/-- The ids count up, and the timestamps stay within the gaps. -/
structure SampleRow.Within (row : SampleRow) (orderId timestampNs count : Nat) : Prop where
  regular : row.Regular
  orderId : orderId ≤ row.orderId ∧ row.orderId < orderId + count
  timestampNs : row.timestampNs ≤ timestampNs + 50000 * count

theorem within_generateFrom {draws : List Draw} : ∀ {orderId timestampNs : Nat} {midPrice : Int},
    MidInRange midPrice → ∀ row ∈ generateFrom orderId timestampNs midPrice draws,
      row.Within orderId timestampNs draws.length := by
  induction draws with
  | nil =>
    intro orderId timestampNs midPrice _ row hrow
    cases hrow
  | cons draw draws ih =>
    intro orderId timestampNs midPrice h row hrow
    have hgap := draw.gap_range
    rcases List.mem_cons.mp hrow with rfl | hrow
    · refine ⟨regular_sampleRow (h.next draw) _ _ draw, ⟨Nat.le_refl _, ?_⟩, ?_⟩
      · simp only [sampleRow, List.length_cons]
        omega
      · simp only [sampleRow, List.length_cons]
        omega
    · obtain ⟨hregular, hid, htime⟩ := ih (h.next draw) row hrow
      rw [List.length_cons]
      exact ⟨hregular, by omega, by omega⟩

theorem increasing_generateFrom {draws : List Draw} : ∀ {orderId timestampNs : Nat}
    {midPrice : Int}, MidInRange midPrice →
    (generateFrom orderId timestampNs midPrice draws).Pairwise
      fun a b => a.orderId < b.orderId := by
  induction draws with
  | nil => exact fun _ => .nil
  | cons draw draws ih =>
    intro orderId timestampNs midPrice h
    refine List.Pairwise.cons ?_ (ih (h.next draw))
    intro row hrow
    exact (within_generateFrom (h.next draw) row hrow).orderId.1

/-! ## Section 3: The file loads -/

/-- The row in the documented format. -/
def SampleRow.csvRow (row : SampleRow) : CsvRow :=
  ⟨row.request, UInt64.ofNat row.timestampNs, .written, true, []⟩

/-- The numbers of the row fit the types they are read into. -/
structure SampleRow.Fits (row : SampleRow) : Prop where
  regular : row.Regular
  orderId : row.orderId < 2 ^ 64
  timestampNs : row.timestampNs < 2 ^ 64

theorem SampleRow.Fits.documented {row : SampleRow} (h : row.Fits) : row.csvRow.Documented where
  participant := rfl
  not_fok := h.regular.tif
  price := by
    show -2 ^ 63 ≤ row.price ∧ row.price ≤ 2 ^ 63 - 1
    rcases h.regular.price with ⟨-, hprice⟩ | ⟨-, hlow, hhigh⟩ <;> omega
  quantity := by
    have hquantity := h.regular.quantity
    show -2 ^ 63 ≤ row.quantity ∧ row.quantity ≤ 2 ^ 63 - 1
    omega

theorem SampleRow.Fits.text_eq {row : SampleRow} (h : row.Fits) :
    row.csvRow.text = writeRow row.fields := by
  have hid : (UInt64.ofNat row.orderId).toNat = row.orderId := UInt64.toNat_ofNat_of_lt' h.orderId
  have htime : (UInt64.ofNat row.timestampNs).toNat = row.timestampNs :=
    UInt64.toNat_ofNat_of_lt' h.timestampNs
  have htif : tifFields row.tif .written = [tifText row.tif] := by
    cases row.tif <;> rfl
  unfold CsvRow.text CsvRow.line CsvRow.fields SampleRow.csvRow SampleRow.request writeRow
    SampleRow.fields
  simp only [hid, htime, htif]
  rfl

/-- The script writes the documented format. -/
theorem sampleFile_eq {rows : List SampleRow} (h : ∀ row ∈ rows, row.Fits) :
    sampleFile rows = writeCsv (some ([], true)) (rows.map SampleRow.csvRow) [] := by
  have hheader : writeRow sampleHeader = headerLine ++ lineEnd true := by decide
  have hrows : (rows.map SampleRow.csvRow).flatMap CsvRow.text =
      rows.flatMap fun row => writeRow row.fields := by
    rw [List.flatMap_map]
    exact List.flatMap_congr fun row hrow => (h row hrow).text_eq
  unfold sampleFile writeCsv
  rw [hheader, hrows]
  simp [blankLines]

/-- A file whose rows read one by one loads as these. -/
theorem loadCsv_of_rows {path : String} {content : List Char} {requests : List OrderRequest}
    (h : (rowsOf content).mapM cutRowOf = some requests) :
    loadCsv path (some content) = .ok requests := by
  have hload := loadCsv_toOption path content
  rw [h] at hload
  cases hcsv : loadCsv path (some content) with
  | error message =>
    rw [hcsv] at hload
    cases hload
  | ok loaded =>
    rw [hcsv] at hload
    exact congrArg Except.ok (Option.some.inj hload)

theorem mapM_cutRowOf {rows : List SampleRow} (h : ∀ row ∈ rows, row.Fits) :
    ((rows.map SampleRow.csvRow).map CsvRow.line).mapM cutRowOf =
      some (rows.map SampleRow.request) := by
  induction rows with
  | nil => rfl
  | cons row rows ih =>
    have hrow := cutRowOf_of_rowOf (h row (by simp)).documented.rowOf_line
    have hrest := ih fun r hr => h r (by simp [hr])
    rw [List.map_cons, List.map_cons, List.mapM_cons, hrow, hrest]
    rfl

/-- **Loading**: the file loads as the rows that were generated. -/
theorem loadCsv_sampleFile (path : String) {rows : List SampleRow} (h : ∀ row ∈ rows, row.Fits) :
    loadCsv path (some (sampleFile rows)) = .ok (rows.map SampleRow.request) := by
  apply loadCsv_of_rows
  rw [sampleFile_eq h, rowsOf_writeCsv]
  exact mapM_cutRowOf h

/-! ## Section 4: No order is rejected -/

/-- Nothing speaks against the request but, perhaps, its id. -/
structure OrderRequest.Acceptable (minPrice maxPrice : UInt32 → Int) (request : OrderRequest) :
    Prop extends request.Replayable minPrice maxPrice where
  named : request.clientOrderId ≠ 0
  quantity : 0 < request.quantity ∧ request.quantity < 2 ^ 63
  price : request.type = .limit → 0 < request.price

/-- Default limits and a position of zero let every quantity through. -/
theorem pooledVerdict_eq_none (traded : Bool) (side : Side) {quantity : Int} (hq : 0 < quantity)
    (hq' : quantity < 2 ^ 63) :
    RiskManager.pooledVerdict .int64 traded side quantity = .none := by
  unfold RiskManager.pooledVerdict
  split
  · rw [SymbolParticipantState.check_eq_none_iff]
    refine ⟨(SymbolParticipantState.within_default_iff rfl (by decide) (by decide) side hq hq').mpr
      ?_, by decide⟩
    show ¬ BottomsOut side 0 quantity
    unfold BottomsOut
    cases side with
    | buy => simp only; omega
    | sell => simp only; omega
  · rfl

section accepting

variable {k : Approach} {minPrice maxPrice : UInt32 → Int} {n bound : Nat} {e : MatchingEngine k}
  {t : ReplayEngine} {request : OrderRequest}

/-- The status of a reply that is a report. -/
def Reply.rejected (reply : Reply) : Bool :=
  match reply.answer with
  | .report report => report.status = .rejected
  | .flag _ | .done => true

/-- An acceptable order under a new id is not rejected. -/
theorem ReplayEngine.submit_accepted {r : RefBook} (hr : t.books request.symbol.toNat = some r)
    (h : request.Acceptable minPrice maxPrice)
    (hrange : request.type = .limit → r.inRange request.price = true)
    (hnew : ∀ o ∈ r.all, o.id ≠ request.clientOrderId.toNat) :
    (t.submit .int64 request).1.rejected = false := by
  have hverdict := pooledVerdict_eq_none (t.traded request.symbol.toNat) request.side h.quantity.1
    h.quantity.2
  have hreject : r.rejectReason (request.toOrder request.clientOrderId.toNat 0) = none := by
    refine RefBook.rejectReason_eq_none.mpr ⟨h.quantity.1, ?_, ?_⟩
    · exact fun htype => ⟨h.price htype, hrange htype⟩
    · exact RefBook.find_eq_none.mpr (.inr hnew)
  obtain ⟨-, hstatus⟩ := RefBook.addOrder_reported .int64 (fun _ => 0) hreject
  unfold submit Reply.rejected
  simp only [hr, if_pos h.named, hverdict]
  exact decide_eq_false hstatus

/-- Books stay. -/
theorem ReplayEngine.submit_books (pf : Platform) (t : ReplayEngine) (request : OrderRequest)
    {s : SymbolId} (h : (t.books s).isSome = true) :
    ((t.submit pf request).2.books s).isSome = true := by
  unfold submit
  split
  · exact h
  · simp only
    split
    · exact h
    · simp only
      by_cases hs : s = request.symbol.toNat
      · subst hs
        rw [Function.update_self]
        rfl
      · rw [Function.update_of_ne hs]
        exact h

/-- A replay under way of acceptable orders under increasing ids. -/
structure Increasing (minPrice maxPrice : UInt32 → Int) (n bound : Nat)
    (as : List (OrderRequest × Clock)) (e : MatchingEngine k) (t : ReplayEngine) : Prop where
  replays : Replays .int64 minPrice maxPrice n (fun i => i < bound) e t
  orders : ∀ a ∈ as, a.1.Acceptable minPrice maxPrice
  listed : ∀ a ∈ as, (t.books a.1.symbol.toNat).isSome = true
  above : ∀ a ∈ as, bound ≤ a.1.clientOrderId.toNat
  increasing : as.Pairwise fun a b => a.1.clientOrderId.toNat < b.1.clientOrderId.toNat
  room : n + as.length < 2 ^ 32

theorem Increasing.step {a : OrderRequest × Clock} {as : List (OrderRequest × Clock)}
    (h : Increasing minPrice maxPrice n bound (a :: as) e t) :
    ∃ reply e', e.submitted .int64 a = some (reply, e') ∧ reply.rejected = false ∧
      Increasing minPrice maxPrice (n + 1) (a.1.clientOrderId.toNat + 1) as e'
        (t.submit .int64 a.1).2 := by
  have haccept := h.orders a (by simp)
  have habove := h.above a (by simp)
  have hroom := h.room
  rw [List.length_cons] at hroom
  have hassign : (e.assignId a.1).1 = a.1.clientOrderId := congrArg Prod.fst (if_pos haccept.named)
  have hids : ∀ i, i < bound → i < a.1.clientOrderId.toNat + 1 := by omega
  obtain ⟨reply, e', hrun, hreply, hreplays⟩ := h.replays.submitOrder haccept.toReplayable
    (by omega) (by rw [hassign]; exact haccept.named) hids
    (by rw [hassign]; exact Nat.lt_succ_self _) a.2
  -- the ids that rest are below the new one
  obtain ⟨r, hr⟩ := Option.isSome_iff_exists.mp (h.listed a (by simp))
  obtain ⟨-, hnone⟩ | ⟨b, r', -, hr', hshows⟩ := rel_cases (h.replays.books a.1.symbol.toNat)
  · rw [hnone] at hr
    cases hr
  obtain rfl := Option.some.inj (hr.symm.trans hr')
  have haccepted : (t.submit .int64 a.1).1.rejected = false := by
    refine ReplayEngine.submit_accepted hr haccept (fun htype => ?_) fun o ho => ?_
    · rw [hshows.band a.1.symbol rfl]
      exact decide_eq_true (haccept.inBand htype)
    · exact Nat.ne_of_lt (Nat.lt_of_lt_of_le (hshows.named o ho) habove)
  have hincreasing := List.pairwise_cons.mp h.increasing
  refine ⟨reply, e', hrun, ?_, hreplays, fun b hb => h.orders b (by simp [hb]),
    fun b hb => t.submit_books .int64 a.1 (h.listed b (by simp [hb])), hincreasing.1,
    hincreasing.2, by omega⟩
  rw [← hreply] at haccepted
  exact haccepted

end accepting

theorem ReplayStats.tally_accepted (stats : ReplayStats) {status : OrderStatus}
    (h : status ≠ .rejected) :
    (stats.tally status).total = stats.total ∧
      (stats.tally status).accepted = stats.accepted + 1 ∧
      (stats.tally status).rejected = stats.rejected := by
  unfold tally
  cases status with
  | rejected => exact absurd rfl h
  | new | partiallyFilled | filled | cancelled => exact ⟨rfl, rfl, rfl⟩

/-- A replay in which nothing is rejected. -/
theorem foldl_count_accepted {replies : List Reply} : ∀ stats : ReplayStats,
    (∀ reply ∈ replies, reply.rejected = false) →
    (replies.foldl ReplayStats.count stats).total = stats.total ∧
      (replies.foldl ReplayStats.count stats).accepted = stats.accepted + replies.length ∧
      (replies.foldl ReplayStats.count stats).rejected = stats.rejected := by
  induction replies with
  | nil => exact fun _ _ => ⟨rfl, rfl, rfl⟩
  | cons reply replies ih =>
    intro stats h
    have hreply := h reply (by simp)
    obtain ⟨htotal, haccepted, hrejected⟩ := ih (stats.count reply) fun x hx => h x (by simp [hx])
    have hcount : (stats.count reply).total = stats.total ∧
        (stats.count reply).accepted = stats.accepted + 1 ∧
        (stats.count reply).rejected = stats.rejected := by
      unfold Reply.rejected at hreply
      unfold ReplayStats.count
      cases hanswer : reply.answer with
      | report report =>
        rw [hanswer] at hreply
        exact stats.tally_accepted (of_decide_eq_false hreply)
      | flag | done =>
        rw [hanswer] at hreply
        cases hreply
    rw [List.foldl_cons, List.length_cons, htotal, haccepted, hrejected]
    exact ⟨hcount.1, by omega, hcount.2.2⟩

/-- The step of a replay in which every order is accepted. -/
def ReplayEngine.accept (t : ReplayEngine) (request : OrderRequest) : Bool × ReplayEngine :=
  (true, (t.submit .int64 request).2)

theorem ReplayEngine.accepts_all (orders : List OrderRequest) : ∀ t : ReplayEngine,
    ∀ accepted ∈ (Runs.execSpec ReplayEngine.accept t orders).1, accepted = true := by
  induction orders with
  | nil => simp [Runs.execSpec]
  | cons request orders ih =>
    intro t accepted hmem
    rcases List.mem_cons.mp hmem with rfl | hmem
    · rfl
    · exact ih _ accepted hmem

/-- **Acceptance**: a replay of acceptable orders under increasing ids rejects
    none of them. -/
theorem Increasing.replay {k : Approach} {minPrice maxPrice : UInt32 → Int} {n bound : Nat}
    {e : MatchingEngine k} {t : ReplayEngine} {orders : List (OrderRequest × Clock)}
    (h : Increasing minPrice maxPrice n bound orders e t) :
    ∃ stats trades e', e.replay .int64 orders = some (stats, trades, e') ∧
      stats.total = orders.length ∧ stats.accepted = orders.length ∧ stats.rejected = 0 := by
  have hstep : ∀ (a : OrderRequest × Clock) (as : List (OrderRequest × Clock))
      (e : MatchingEngine k) (t : ReplayEngine),
      (∃ n bound, Increasing minPrice maxPrice n bound (a :: as) e t) →
      ∃ reply e', e.submitted .int64 a = some (reply, e') ∧
        (!Reply.rejected reply) = (t.accept a.1).1 ∧
        ∃ n bound, Increasing minPrice maxPrice n bound as e' (t.accept a.1).2 := by
    rintro a as e t ⟨n, bound, h⟩
    obtain ⟨reply, e', hsubmit, haccepted, h'⟩ := h.step
    exact ⟨reply, e', hsubmit, by rw [haccepted]; rfl, _, _, h'⟩
  obtain ⟨replies, e', hrun, hreplies, -⟩ := Runs.exec_simulates_rest Prod.fst
    (fun reply => !Reply.rejected reply)
    (fun as (e : MatchingEngine k) t => ∃ n bound, Increasing minPrice maxPrice n bound as e t)
    hstep orders e t ⟨n, bound, h⟩
  have haccepted : ∀ reply ∈ replies, reply.rejected = false := by
    intro reply hreply
    have hmem : (!Reply.rejected reply) ∈ replies.map fun reply => !Reply.rejected reply :=
      List.mem_map_of_mem hreply
    rw [hreplies] at hmem
    simpa using ReplayEngine.accepts_all _ t _ hmem
  let stats : ReplayStats := { total := orders.length }
  obtain ⟨htotal, hcount, hrejected⟩ : (replies.foldl ReplayStats.count stats).total = _ ∧ _ :=
    foldl_count_accepted _ haccepted
  refine ⟨_, _, e', MatchingEngine.replayLoop_of_exec .int64 _ _ hrun, htotal, ?_, hrejected⟩
  rw [hcount, Runs.length_of_exec hrun]
  exact Nat.zero_add _

/-! ## Section 5: From the script to the statistics -/

/-- The symbol that the replay mode of `main.cpp` registers. -/
def replaySymbol : Listing := ⟨1, 1, 200000, 4096, .none⟩

theorem registers_replaySymbol : replaySymbol.call.Registers .int64 := by
  obtain ⟨ids, hids⟩ : ∃ ids, IdIndexMap.create 4096 = some ids :=
    Option.isSome_iff_exists.mp (by decide)
  have hrange : (validateAndComputeRange 1 200000).filter (· ≤ kMaxLevels) = some 200000 := by
    decide
  intro k
  cases k with
  | map =>
    show (OrderBookMap.create .int64 1 1 200000 4096 .none).isSome = true
    simp [OrderBookMap.create, hids]
  | vector =>
    show (OrderBookVector.create .int64 1 1 200000 4096 .none).isSome = true
    simp [OrderBookVector.create, hids]
  | array =>
    show (OrderBookArray.create .int64 1 1 200000 4096 .none).isSome = true
    simp [OrderBookArray.create, hrange, hids]

/-- A generated row is an acceptable order. -/
theorem SampleRow.Fits.acceptable {row : SampleRow} (h : row.Fits) (hid : 0 < row.orderId) :
    row.request.Acceptable (fun _ => 1) (fun _ => 200000) where
  unattributed := rfl
  inBand := by
    intro htype
    rcases h.regular.price with ⟨hmarket, -⟩ | ⟨-, hlow, hhigh⟩
    · exact absurd (hmarket.symm.trans htype) (by decide)
    · show 1 ≤ row.price ∧ row.price ≤ 200000
      omega
  named := by
    intro hzero
    have hid' : (UInt64.ofNat row.orderId).toNat = row.orderId :=
      UInt64.toNat_ofNat_of_lt' h.orderId
    rw [show UInt64.ofNat row.orderId = 0 from hzero] at hid'
    exact Nat.ne_of_lt hid hid'
  quantity := by
    have hquantity := h.regular.quantity
    show 0 < row.quantity ∧ row.quantity < 2 ^ 63
    omega
  price := by
    intro htype
    rcases h.regular.price with ⟨hmarket, -⟩ | ⟨-, hlow, -⟩
    · exact absurd (hmarket.symm.trans htype) (by decide)
    · exact hlow

/-- The rows of a file of fewer than `2 ^ 32` rows. -/
theorem fits_generate {draws : List Draw} (hcount : draws.length < 2 ^ 32) :
    ∀ row ∈ generate draws, row.Fits ∧ 0 < row.orderId := by
  intro row hrow
  obtain ⟨hregular, hid, htime⟩ := within_generateFrom (by unfold MidInRange; decide) row hrow
  exact ⟨⟨hregular, by omega, by omega⟩, by omega⟩

theorem length_requests (draws : List Draw) :
    ((generate draws).map SampleRow.request).length = draws.length := by
  rw [List.length_map]
  exact length_generateFrom _ _ _ draws

/-- The requests of the file are under increasing ids. -/
theorem increasing_requests {draws : List Draw} (hcount : draws.length < 2 ^ 32) :
    ((generate draws).map SampleRow.request).Pairwise fun a b =>
      a.clientOrderId.toNat < b.clientOrderId.toNat := by
  have hids : ∀ row ∈ generate draws, row.request.clientOrderId.toNat = row.orderId :=
    fun row hmem => UInt64.toNat_ofNat_of_lt' (fits_generate hcount row hmem).1.orderId
  rw [List.pairwise_map]
  refine List.Pairwise.imp_of_mem ?_ (increasing_generateFrom (by unfold MidInRange; decide))
  intro a b ha hb hlt
  rw [hids a ha, hids b hb]
  exact hlt

/-- The replay of the file, before its first order. -/
theorem increasing_generate (k : Approach) {draws : List Draw} (hcount : draws.length < 2 ^ 32)
    {clocks : List Clock} (hclocks : clocks.length = draws.length) :
    Increasing (fun _ => 1) (fun _ => 200000) 0 0
      (((generate draws).map SampleRow.request).zip clocks)
      (MatchingEngine.listing .int64 k [replaySymbol]) (ReplayEngine.listing [replaySymbol]) := by
  have hlistings : ∀ l ∈ [replaySymbol], l.call.InBands (fun _ => 1) (fun _ => 200000) ∧
      l.call.Registers .int64 := by
    intro l hl
    rw [List.mem_singleton.mp hl]
    exact ⟨⟨rfl, rfl⟩, registers_replaySymbol⟩
  have hlength := length_requests draws
  have hfst : (((generate draws).map SampleRow.request).zip clocks).map Prod.fst =
      (generate draws).map SampleRow.request :=
    List.map_fst_zip (by omega)
  -- every order of the replay is that of a row
  have hrow : ∀ a ∈ ((generate draws).map SampleRow.request).zip clocks,
      ∃ row ∈ generate draws, row.request = a.1 := by
    intro a ha
    have hmem : a.1 ∈ (generate draws).map SampleRow.request := hfst ▸ List.mem_map_of_mem ha
    exact List.mem_map.mp hmem
  refine ⟨(Fresh.listing .int64 k hlistings).replays _, ?_, ?_, fun _ _ => Nat.zero_le _, ?_, ?_⟩
  · intro a ha
    obtain ⟨row, hmem, heq⟩ := hrow a ha
    obtain ⟨hfits, hpos⟩ := fits_generate hcount row hmem
    rw [← heq]
    exact hfits.acceptable hpos
  · intro a ha
    obtain ⟨row, -, heq⟩ := hrow a ha
    rw [← heq]
    rfl
  · have hincreasing := increasing_requests hcount
    rw [← hfst, List.pairwise_map] at hincreasing
    exact hincreasing
  · rw [List.length_zip, hlength]
    omega

/-- **The pipeline**: whatever is drawn, the file that the script writes loads,
    row by row, and replaying it as `main.cpp` does, over any kind of book and
    at any clock, rejects no order. -/
theorem sample_data_replays (path : String) (draws : List Draw) (hcount : draws.length < 2 ^ 32) :
    ∃ orders, loadCsv path (some (sampleFile (generate draws))) = .ok orders ∧
      orders = (generate draws).map SampleRow.request ∧ orders.length = draws.length ∧
      ∀ (k : Approach) (clocks : List Clock), clocks.length = draws.length →
        ∃ stats trades e', (MatchingEngine.listing .int64 k [replaySymbol]).replay .int64
            (orders.zip clocks) = some (stats, trades, e') ∧
          stats.total = draws.length ∧ stats.accepted = draws.length ∧ stats.rejected = 0 := by
  have hlength := length_requests draws
  refine ⟨_, loadCsv_sampleFile path fun row hrow => (fits_generate hcount row hrow).1, rfl,
    hlength, fun k clocks hclocks => ?_⟩
  obtain ⟨stats, trades, e', hreplay, htotal, haccepted, hrejected⟩ :=
    (increasing_generate k hcount hclocks).replay
  have hzip : (((generate draws).map SampleRow.request).zip clocks).length = draws.length := by
    rw [List.length_zip, hlength, hclocks, Nat.min_self]
  exact ⟨stats, trades, e', hreplay, htotal.trans hzip, haccepted.trans hzip, hrejected⟩

/-- Two rows: the mid price falls, an order to buy rests, and a Market order
    sells into it. -/
theorem sample_data_replays_two_rows :
    ∃ orders : List OrderRequest, orders.length = 2 ∧
      loadCsv "sample.csv" (some (sampleFile (generate
        [⟨-3, by decide, true, false, 15, by decide, false, 7, 500, by decide⟩,
          ⟨0, by decide, false, true, 0, by decide, false, 0, 50000, by decide⟩]))) = .ok orders ∧
      ∃ stats trades e', (MatchingEngine.listing .int64 .array [replaySymbol]).replay .int64
        (orders.zip [fun _ => 5, fun _ => 6]) = some (stats, trades, e') ∧ stats.rejected = 0 := by
  obtain ⟨orders, hload, -, hlength, hreplay⟩ := sample_data_replays "sample.csv"
    [⟨-3, by decide, true, false, 15, by decide, false, 7, 500, by decide⟩,
      ⟨0, by decide, false, true, 0, by decide, false, 0, 50000, by decide⟩] (by decide)
  obtain ⟨stats, trades, e', hrun, -, -, hrejected⟩ := hreplay .array [fun _ => 5, fun _ => 6] rfl
  exact ⟨orders, hlength, hload, stats, trades, e', hrun, hrejected⟩

end LightningLob
