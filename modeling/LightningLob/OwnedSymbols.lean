import LightningLob.ReplayRuns
import LightningLob.SymbolIsolation
import LightningLob.ThreadedDemo

/-! # Symbols with one producer

    Producers race for the engine, so what happens to a symbol that several of
    them trade depends on the schedule.  A symbol that only one of them trades
    does not notice the others: its book and the replies to its orders are
    those of a replay of that producer's orders alone. -/

namespace LightningLob

open Gateway (Event handledOn handlerCalls)

namespace SharedGateway

/-! ## Section 1: What was handled for a symbol -/

/-- The replies to the orders of a symbol. -/
def repliesOn (symbol : UInt32) (evs : List Event) (replies : List Reply) : List Reply :=
  ((((handlerCalls evs).map Prod.snd).zip replies).filter fun x => x.1.symbol = symbol).map Prod.snd

section handled

variable {symbol : UInt32} {evs : List Event} {p : Nat}

/-- A lane's requests are the handler's calls for it. -/
theorem handledOn_eq (lane : Nat) (evs : List Event) :
    handledOn lane evs = ((handlerCalls evs).filter fun x => x.1 = lane).map Prod.snd := by
  induction evs with
  | nil => rfl
  | cons ev evs ih =>
    cases ev with
    | handled l request =>
      by_cases hl : l = lane
      · simpa [handledOn, handlerCalls, hl] using ih
      · simpa [handledOn, handlerCalls, hl] using ih
    | _ => simpa [handledOn, handlerCalls] using ih

/-- If one lane alone is called with a symbol, the calls with that symbol are
    those of the lane. -/
theorem filter_handlerCalls
    (honly : ∀ x ∈ handlerCalls evs, x.2.symbol = symbol → x.1 = p) :
    ((handlerCalls evs).map Prod.snd).filter (fun request => request.symbol = symbol) =
      (handledOn p evs).filter fun request => request.symbol = symbol := by
  rw [handledOn_eq, List.filter_map, List.filter_map, List.filter_filter]
  refine congrArg _ (List.filter_congr fun x hx => ?_)
  have := honly x hx
  simp only [Function.comp_apply]
  by_cases hs : x.2.symbol = symbol
  · simp [hs, this hs]
  · simp [hs]

/-- What the handler is called with comes from its lane. -/
theorem mem_handledOn {x : Nat × OrderRequest} (hx : x ∈ handlerCalls evs) :
    x.2 ∈ handledOn x.1 evs := by
  rw [handledOn_eq]
  exact List.mem_map_of_mem (List.mem_filter.mpr ⟨hx, by simp⟩)

/-- What was handled was submitted. -/
theorem submitted_of_handled {σ : Type} {capacity : Capacity} {handle : σ → OrderRequest → Run σ}
    {n : Nat} {requests : Nat → List OrderRequest} {engine : σ} {s : State σ}
    (h : Delivers capacity handle n requests engine evs s) {x : Nat × OrderRequest}
    (hx : x ∈ handlerCalls evs) (hlane : x.1 < n) : x.2 ∈ requests x.1 := by
  have hfirst : handledOn x.1 evs <+: requests x.1 := (h.in_order x.1).trans (h.accepted x.1 hlane)
  exact hfirst.mem (mem_handledOn hx)

end handled

section submitting

variable {symbol : UInt32} {clocks : Nat → Clock}

theorem submit_symbol {request : OrderRequest} :
    (EngineCall.submit request).symbol = symbol.toNat ↔ request.symbol = symbol :=
  UInt32.toNat_inj

/-- The calls for a symbol, each at the clock it happened to get. -/
theorem filter_submissions (symbol : UInt32) (clocks : Nat → Clock)
    (requests : List OrderRequest) : ∀ i : Nat,
    ∃ orders : List (OrderRequest × Clock),
      orders.map Prod.fst = requests.filter (fun request => request.symbol = symbol) ∧
      (submissions clocks i requests).filter (fun a => a.1.symbol = symbol.toNat) =
        orders.map fun a => (.submit a.1, a.2) := by
  induction requests with
  | nil => exact fun _ => ⟨[], rfl, rfl⟩
  | cons request rest ih =>
    intro i
    obtain ⟨orders, hfst, hcalls⟩ := ih (i + 1)
    by_cases hs : request.symbol = symbol
    · refine ⟨(request, clocks i) :: orders, ?_, ?_⟩
      · rw [List.map_cons, hfst, List.filter_cons_of_pos (by simpa using hs)]
      · rw [submissions, List.filter_cons_of_pos (by simpa using submit_symbol.mpr hs), hcalls,
          List.map_cons]
    · refine ⟨orders, ?_, ?_⟩
      · rw [hfst, List.filter_cons_of_neg (by simpa using hs)]
      · rw [submissions, List.filter_cons_of_neg (by simpa using mt submit_symbol.mp hs), hcalls]

/-- The replies to these calls. -/
theorem filter_replies (requests : List OrderRequest) : ∀ (i : Nat) (replies : List Reply),
    (((submissions clocks i requests).zip replies).filter
        fun x => x.1.1.symbol = symbol.toNat).map Prod.snd =
      ((requests.zip replies).filter fun x => x.1.symbol = symbol).map Prod.snd := by
  induction requests with
  | nil => exact fun _ _ => rfl
  | cons request rest ih =>
    intro i replies
    cases replies with
    | nil => rfl
    | cons reply replies =>
      rw [submissions, List.zip_cons_cons, List.zip_cons_cons]
      by_cases hs : request.symbol = symbol
      · rw [List.filter_cons_of_pos (by simpa using submit_symbol.mpr hs), List.map_cons, ih,
          List.filter_cons_of_pos (by simpa using hs), List.map_cons]
      · rw [List.filter_cons_of_neg (by simpa using mt submit_symbol.mp hs), ih,
          List.filter_cons_of_neg (by simpa using hs)]

/-- The calls submit the requests. -/
theorem mem_submissions {a : EngineCall × Clock} (requests : List OrderRequest) : ∀ {i : Nat},
    a ∈ submissions clocks i requests → ∃ request ∈ requests, a.1 = .submit request := by
  induction requests with
  | nil => exact fun h => absurd h (List.not_mem_nil)
  | cons request rest ih =>
    intro i h
    rcases List.mem_cons.mp h with rfl | h
    · exact ⟨request, List.mem_cons_self, rfl⟩
    · obtain ⟨request', hmem, heq⟩ := ih h
      exact ⟨request', List.mem_cons_of_mem _ hmem, heq⟩

end submitting

/-! ## Section 2: The engine -/

/-- Adding symbols leaves an engine whose orders are all accounted for. -/
theorem attributed_listing (pf : Platform) (k : Approach) (listings : List Listing) :
    (MatchingEngine.listing pf k listings).Attributed pf := by
  have hfold : ∀ e : MatchingEngine k, e.Attributed pf →
      (listings.foldl (fun e l => e.addSymbol pf l.symbol.toNat l.minPrice l.maxPrice
        l.orderCapacityHint l.stpPolicy) e).Attributed pf := by
    induction listings with
    | nil => exact fun _ h => h
    | cons l listings ih =>
      intro e h
      obtain ⟨reply, e', hcall, h', -⟩ := h.call (l.call, fun _ => 0)
      obtain ⟨-, rfl⟩ := Prod.mk.inj (Option.some.inj hcall)
      exact ih _ h'
  exact hfold _ (.initial pf k {})

section engine

variable {k : Approach} {pf : Platform} {listings : List Listing} {clocks : Nat → Clock}
  {evs : List Event} {s : State (List Reply × MatchingEngine k)}

/-- What a run of the handler leaves at a symbol is what a run of the orders for
    it leaves, each at the clock it was handled at. -/
theorem exec_symbol (symbol : UInt32) (hids : ∀ x ∈ handlerCalls evs, x.2.clientOrderId ≠ 0)
    (hexec : Runs.exec (MatchingEngine.call pf) (MatchingEngine.listing pf k listings)
      (submissions clocks 0 ((handlerCalls evs).map Prod.snd)) = some s.engine) :
    ∃ orders e', orders.map Prod.fst =
        ((handlerCalls evs).map Prod.snd).filter (fun request => request.symbol = symbol) ∧
      Runs.exec (MatchingEngine.submitted pf) (MatchingEngine.listing pf k listings) orders =
        some (repliesOn symbol evs s.engine.1, e') ∧
      s.engine.2.observe.books symbol.toNat = e'.observe.books symbol.toNat := by
  obtain ⟨orders, hfst, hcalls⟩ := filter_submissions symbol clocks
    ((handlerCalls evs).map Prod.snd) 0
  have hok : ∀ a ∈ submissions clocks 0 ((handlerCalls evs).map Prod.snd), a.1.BringsId := by
    intro a ha
    obtain ⟨request, hmem, heq⟩ := mem_submissions _ ha
    obtain ⟨x, hx, rfl⟩ := List.mem_map.mp hmem
    rw [heq]
    exact hids x hx
  obtain ⟨ws, e₁, vs, e₂, hws, hvs, hreplies, hpart⟩ := (MatchingEngine.isolated pf k).exec_filter
    symbol.toNat _ _ _ (attributed_listing pf k listings) hok rfl
  obtain ⟨hws', hengine⟩ := Prod.mk.inj (Option.some.inj (hexec.symm.trans hws))
  rw [hcalls, Runs.exec_map] at hvs
  rw [filter_replies] at hreplies
  refine ⟨orders, e₂, hfst, ?_, ?_⟩
  · rw [repliesOn, hws', hreplies]
    exact hvs
  · show (s.engine.2.books symbol.toNat).map _ = (e₂.books symbol.toNat).map _
    rw [hengine, show e₂.books symbol.toNat = e₁.books symbol.toNat from
      congrArg SymbolPart.book hpart]

end engine

/-! ## Section 3: Every run -/

/-- **A symbol with one producer is not raced for**: list any symbols, and let
    one producer alone submit orders for `symbol`, whatever the others submit
    for theirs.  In every run of the demo, over every kind of book, the replies
    to these orders are those of a replay of them alone, as far as it has come,
    and when the drain loop exits all of them are, and the book shows what it
    shows after that replay, in depths of no more levels than a vector of them
    can hold.  Every request brings an id, so that none is assigned one. -/
theorem owned_symbol_is_deterministic (pf : Platform) (minPrice maxPrice : UInt32 → Int)
    (listings : List Listing)
    (hlistings : ∀ l ∈ listings, l.call.InBands minPrice maxPrice ∧ l.call.Registers pf)
    (symbol : UInt32) (orders : List OrderRequest)
    (horders : ∀ request ∈ orders, request.Replayable minPrice maxPrice)
    (hcount : orders.length < 2 ^ 32) (k₀ : Approach) (clocks₀ : List Clock)
    (hclocks₀ : clocks₀.length = orders.length) :
    ∃ replies e₀, Runs.exec (MatchingEngine.submitted pf) (MatchingEngine.listing pf k₀ listings)
        (orders.zip clocks₀) = some (replies, e₀) ∧
      ∀ (k : Approach) (capacity : Capacity) (n owner : Nat) (requests : Nat → List OrderRequest)
        (clocks : Nat → Clock) (actions : List Action) (evs : List Event)
        (s : State (List Reply × MatchingEngine k)), owner < n →
        (requests owner).filter (fun request => request.symbol = symbol) = orders →
        (∀ p < n, p ≠ owner → ∀ request ∈ requests p, request.symbol ≠ symbol) →
        (∀ p < n, ∀ request ∈ requests p, request.clientOrderId ≠ 0) →
        Runs.exec (step capacity .source (submitTo pf clocks) n)
          (start n requests ([], MatchingEngine.listing pf k listings)) actions = some (evs, s) →
        (repliesOn symbol evs s.engine.1).map Reply.untimed <+: replies.map Reply.untimed ∧
          (s.consumer = .done →
            (repliesOn symbol evs s.engine.1).map Reply.untimed = replies.map Reply.untimed ∧
            (s.engine.2.observe.upTo kMaxViews).books symbol.toNat =
              (e₀.observe.upTo kMaxViews).books symbol.toNat) := by
  obtain ⟨replies, e₀, hrun₀, hreplies₀, hviews₀⟩ :=
    exec_submitted_zip pf k₀ hlistings horders hcount hclocks₀
  refine ⟨replies, e₀, hrun₀, ?_⟩
  intro k capacity n owner requests clocks actions evs s howner howned hothers hids hrun
  obtain ⟨hkept, hworked⟩ := kept_of_exec CounterOrders.synchronize_source hrun
  have h := hkept.delivers hworked
  have hexec := exec_handled h
  have hsubmitted : ∀ x ∈ handlerCalls evs, x.2 ∈ requests x.1 := fun x hx =>
    submitted_of_handled h hx (hworked.lanes x hx)
  have honly : ∀ x ∈ handlerCalls evs, x.2.symbol = symbol → x.1 = owner := by
    intro x hx hs
    by_contra hne
    exact hothers x.1 (hworked.lanes x hx) hne x.2 (hsubmitted x hx) hs
  obtain ⟨handled, e', hfst, hhandled, hbooks⟩ := exec_symbol symbol
    (fun x hx => hids x.1 (hworked.lanes x hx) x.2 (hsubmitted x hx)) hexec
  rw [filter_handlerCalls honly] at hfst
  have hfirst : handled.map Prod.fst <+: orders := by
    rw [hfst, ← howned]
    exact ((h.in_order owner).trans (h.accepted owner howner)).filter _
  obtain ⟨replies', e'', hrun', hreplies', hviews'⟩ := exec_submitted_listing pf k hlistings
    handled
    (fun a ha => horders a.1 (hfirst.subset (List.mem_map_of_mem ha)))
    (by
      have hle := hfirst.length_le
      rw [List.length_map] at hle
      omega)
  obtain ⟨rfl, rfl⟩ := Prod.mk.inj (Option.some.inj (hhandled.symm.trans hrun'))
  rw [hreplies', hreplies₀]
  refine ⟨?_, fun hdone => ?_⟩
  · obtain ⟨rest, hrest⟩ := hfirst
    rw [← hrest, Runs.execSpec_append_fst]
    exact List.prefix_append ..
  · have hall : handled.map Prod.fst = orders := by
      rw [hfst, ((h.exited hdone).1 owner howner).2, howned]
    refine ⟨by rw [hall], ?_⟩
    rw [show (s.engine.2.observe.upTo kMaxViews).books symbol.toNat =
      (e'.observe.upTo kMaxViews).books symbol.toNat from
        congrArg (Option.map (Observation.upTo kMaxViews)) hbooks, hviews', hviews₀, hall]

/-- The orders of two producers, each with a symbol of its own. -/
def ownSymbols (p : Nat) : List OrderRequest :=
  if p = 0 then
    [⟨1, 1, 0, .sell, .limit, 100, 5, .gtc⟩, ⟨2, 1, 0, .buy, .limit, 100, 3, .gtc⟩]
  else
    [⟨1, 2, 0, .buy, .limit, 100, 5, .gtc⟩]

/-- The producers take turns. -/
def twoProducers : List Action :=
  [.producer 0 0, .producer 1 0, .producer 0 0, .producer 1 0, .producer 1 0, .matcher 0,
   .producer 0 0, .producer 1 0, .matcher 0, .producer 0 0, .producer 1 0, .matcher 1,
   .producer 0 1, .matcher 0, .producer 0 0, .matcher 0, .producer 0 1, .matcher 0, .producer 0 1,
   .matcher 1, .producer 0 0, .matcher 0, .producer 0 0, .matcher 0, .producer 0 0, .matcher 0,
   .matcher 2, .matcher 1, .matcher 2, .matcher 1, .matcher 1, .matcher 1, .matcher 2, .matcher 0,
   .matcher 0, .matcher 0, .matcher 2, .matcher 2, .matcher 2, .matcher 1, .matcher 1, .matcher 0]

/-- Lanes for one order: an order of the second producer is handled between the
    two of the first. -/
theorem owned_symbol_is_deterministic_two_producers :
    ∃ (replies : List Reply) (e₀ : MatchingEngine .array) (evs : List Event)
      (s : State (List Reply × MatchingEngine .map)),
      Runs.exec (MatchingEngine.submitted .int64)
        (MatchingEngine.listing .int64 .array [⟨1, 90, 110, 4, .none⟩, ⟨2, 90, 110, 4, .none⟩])
        ((ownSymbols 0).zip [fun _ => 7, fun _ => 8]) = some (replies, e₀) ∧
      s.consumer = .done ∧ (handlerCalls evs).map Prod.fst = [0, 1, 0] ∧
      (repliesOn 1 evs s.engine.1).map Reply.untimed = replies.map Reply.untimed ∧
      (s.engine.2.observe.upTo kMaxViews).books 1 = (e₀.observe.upTo kMaxViews).books 1 := by
  have hsome : ∀ k : Approach, (k.create .int64 1 90 110 4 .none).isSome = true ∧
      (k.create .int64 2 90 110 4 .none).isSome = true := by
    intro k
    cases k <;> decide +kernel
  obtain ⟨replies, e₀, hrun₀, hall⟩ := owned_symbol_is_deterministic .int64 (fun _ => 90)
    (fun _ => 110) [⟨1, 90, 110, 4, .none⟩, ⟨2, 90, 110, 4, .none⟩]
    (by simpa [Listing.call, EngineCall.InBands, EngineCall.Registers, forall_and] using hsome)
    1 (ownSymbols 0)
    (by
      intro request hmem
      simp only [ownSymbols, if_pos, List.mem_cons, List.not_mem_nil, or_false] at hmem
      rcases hmem with rfl | rfl <;> exact ⟨rfl, fun _ => ⟨by decide, by decide⟩⟩)
    (by decide) .array [fun _ => 7, fun _ => 8] rfl
  obtain ⟨evs, s, hrun, hdone, hlanes⟩ := Runs.exists_exec_of_any
    (step ⟨2, by decide, by decide⟩ .source (submitTo .int64 fun _ _ => 0) 2)
    (start 2 ownSymbols ([], MatchingEngine.listing .int64 .map
      [⟨1, 90, 110, 4, .none⟩, ⟨2, 90, 110, 4, .none⟩]))
    twoProducers
    (fun evs s => s.consumer = .done ∧ (handlerCalls evs).map Prod.fst = [0, 1, 0])
    (by decide +kernel)
  obtain ⟨-, hcomplete⟩ := hall .map ⟨2, by decide, by decide⟩ 2 0 ownSymbols (fun _ _ => 0)
    twoProducers evs s (by decide) (by decide) (by decide) (by decide) hrun
  obtain ⟨hreplies, hbook⟩ := hcomplete hdone
  exact ⟨replies, e₀, evs, s, hrun₀, hdone, hlanes, hreplies, hbook⟩

end SharedGateway

end LightningLob
