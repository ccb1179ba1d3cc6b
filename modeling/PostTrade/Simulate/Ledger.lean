import PostTrade.Simulate.Drift

/-!
# The book of a run, from its messages

The simulator keeps its book with counters and dictionaries that it changes as it goes.  Here the
book is written down from the messages alone: `tradedOf` are the messages a run trades on, and
`ledger` and `positionLedger` are the fills and positions they lead to, where each row looks back at
the trades before it.  `book_of_run` says that this is the book of every run.
-/

set_option autoImplicit false

namespace PostTrade

namespace Simulator

/-! ## The messages a run trades on -/

/-- The number of empty reads in a row that the reads end with. -/
def idleStreak (reads : List (List (Tick × Draws))) : ℕ :=
  (reads.reverse.takeWhile List.isEmpty).length

theorem idleStreak_concat (reads : List (List (Tick × Draws))) (batch : List (Tick × Draws)) :
    idleStreak (reads ++ [batch]) = if batch = [] then idleStreak reads + 1 else 0 := by
  rw [idleStreak, List.reverse_append, List.reverse_singleton, List.singleton_append,
    List.takeWhile_cons]
  cases batch with
  | nil => rfl
  | cons msg batch => rfl

/-- The reads end with so many empty ones that `max_idle_reads` ends the run.  It takes one at
least. -/
def tooIdle (m : ℤ) (reads : List (List (Tick × Draws))) : Bool :=
  decide (max 1 m ≤ (idleStreak reads : ℤ))

/-- The reads up to the first that is one idle read too many, when `past` came before them. -/
def awakeAfter (past : List (List (Tick × Draws))) (maxIdleReads : Option ℤ)
    (reads : List (List (Tick × Draws))) : List (List (Tick × Draws)) :=
  match maxIdleReads with
  | none => reads
  | some m => (reads.inits.find? fun l ↦ tooIdle m (past ++ l)).getD reads

/-- The messages that are traded on, where nothing stops the run. -/
def traded (config : SimulatorConfig) (messages : List (Tick × Draws)) : List (Tick × Draws) :=
  messages.filter fun m ↦ m.2.tradeRoll < config.tradeProbability

/-- As many of them as `max_fills` still allows after `emitted` fills.  A run always makes one. -/
def allowed {α : Type*} (maxFills : Option ℤ) (emitted : ℕ) (l : List α) : List α :=
  match maxFills with
  | none => l
  | some m => l.take ((max 1 m).toNat - emitted)

/-- The messages a run trades on. -/
def tradedOf (config : SimulatorConfig) (maxFills maxIdleReads : Option ℤ)
    (reads : List (List (Tick × Draws))) : List (Tick × Draws) :=
  allowed maxFills 0 (traded config (awakeAfter [] maxIdleReads reads).flatten)

section Traded

variable {config : SimulatorConfig} {maxFills maxIdleReads : Option ℤ} {emitted : ℕ}
  {past reads : List (List (Tick × Draws))} {batch : List (Tick × Draws)}

theorem tooIdle_concat {m : ℤ} :
    tooIdle m (past ++ [batch]) = true ↔ batch = [] ∧ m ≤ (idleStreak past : ℤ) + 1 := by
  rw [tooIdle, decide_eq_true_eq, idleStreak_concat]
  split
  · rename_i hempty
    rw [Nat.cast_add_one]
    exact ⟨fun h ↦ ⟨hempty, by omega⟩, fun h ↦ by omega⟩
  · rename_i hsome
    rw [Nat.cast_zero]
    exact ⟨fun h ↦ by omega, fun h ↦ absurd h.1 hsome⟩

theorem awakeAfter_cons (hgo : ∀ m ∈ maxIdleReads, tooIdle m past = false) :
    awakeAfter past maxIdleReads (batch :: reads) =
      batch :: if maxIdleReads.any fun m ↦ tooIdle m (past ++ [batch]) then []
        else awakeAfter (past ++ [batch]) maxIdleReads reads := by
  cases maxIdleReads with
  | none => rfl
  | some m =>
    have hpast := hgo m rfl
    have hshift : ((fun l ↦ tooIdle m (past ++ l)) ∘ List.cons batch)
        = fun l ↦ tooIdle m (past ++ [batch] ++ l) := by
      funext l
      simp
    rw [awakeAfter, List.inits_cons, List.find?_cons_of_neg (by simp [hpast]), List.find?_map,
      hshift, Option.any_some]
    split
    · rename_i hstop
      have hfirst : reads.inits.find? (fun l ↦ tooIdle m (past ++ [batch] ++ l)) = some [] := by
        cases reads with
        | nil => simpa using hstop
        | cons b reads => simpa using hstop
      rw [hfirst]
      rfl
    · rw [awakeAfter]
      cases reads.inits.find? fun l ↦ tooIdle m (past ++ [batch] ++ l) with
      | none => rfl
      | some l => rfl

theorem allowed_cons {α : Type*} {a : α} {l : List α}
    (hroom : ∀ m ∈ maxFills, emitted < (max 1 m).toNat) :
    allowed maxFills emitted (a :: l) =
      a :: if maxFills.any fun m ↦ decide (m ≤ ((emitted + 1 : ℕ) : ℤ)) then []
        else allowed maxFills (emitted + 1) l := by
  cases maxFills with
  | none => rfl
  | some m =>
    have hlt := hroom m rfl
    obtain ⟨n, hn⟩ := Nat.exists_eq_add_of_lt hlt
    have hleft : (max 1 m).toNat - emitted = n + 1 := by omega
    rw [allowed, hleft, List.take_succ_cons, Option.any_some]
    split
    · rename_i hstop
      have hle := of_decide_eq_true hstop
      have hnone : n = 0 := by omega
      rw [hnone, List.take_zero]
    · rw [allowed, show (max 1 m).toNat - (emitted + 1) = n by omega]

theorem room_succ (hroom : ∀ m ∈ maxFills, emitted < (max 1 m).toNat)
    (hgo : ¬ (maxFills.any fun m ↦ decide (m ≤ ((emitted + 1 : ℕ) : ℤ))) = true) :
    ∀ m ∈ maxFills, emitted + 1 < (max 1 m).toNat := by
  rintro m rfl
  have hlt := hroom m rfl
  have hle : ¬ m ≤ ((emitted + 1 : ℕ) : ℤ) := by simpa using hgo
  omega

/-- The trades of one batch, with what may come after it. -/
theorem allowed_batchEvents (msgs more : List (Tick × Draws))
    (hroom : ∀ m ∈ maxFills, emitted < (max 1 m).toNat) :
    let made := trades (batchEvents config maxFills emitted msgs).1
    let stopped := (batchEvents config maxFills emitted msgs).2
    allowed maxFills emitted (traded config msgs ++ more) =
        made ++ (if stopped then [] else allowed maxFills (emitted + made.length) more) ∧
      (stopped = false → ∀ m ∈ maxFills, emitted + made.length < (max 1 m).toNat) := by
  induction msgs generalizing emitted with
  | nil => exact ⟨rfl, fun _ ↦ hroom⟩
  | cons msg rest ih =>
    obtain ⟨tick, draws⟩ := msg
    rw [batchEvents]
    by_cases htrade : draws.tradeRoll < config.tradeProbability
    · have htraded : traded config ((tick, draws) :: rest) = (tick, draws) :: traded config rest :=
        List.filter_cons_of_pos (by simpa using htrade)
      rw [if_pos htrade, htraded, List.cons_append, allowed_cons hroom]
      split
      · exact ⟨rfl, fun h ↦ Bool.noConfusion h⟩
      · rename_i hgo
        obtain ⟨hmade, hleft⟩ := ih (room_succ hroom hgo)
        have hcount : ∀ n, emitted + 1 + n = emitted + (n + 1) := fun n ↦ by omega
        rw [hmade]
        simp only [hcount] at hleft ⊢
        exact ⟨rfl, hleft⟩
    · have htraded : traded config ((tick, draws) :: rest) = traded config rest :=
        List.filter_cons_of_neg (by simpa using htrade)
      rw [if_neg htrade, htraded]
      exact ih hroom

/-- The trades of a run that has `past` behind it and `emitted` fills made. -/
theorem trades_eventsFrom (idle : ℤ) (hidle : idle = idleStreak past)
    (hgo : ∀ m ∈ maxIdleReads, tooIdle m past = false)
    (hroom : ∀ m ∈ maxFills, emitted < (max 1 m).toNat) :
    trades (eventsFrom config maxFills maxIdleReads emitted idle reads) =
      allowed maxFills emitted (traded config (awakeAfter past maxIdleReads reads).flatten) := by
  induction reads generalizing emitted idle past with
  | nil =>
    have hnone : awakeAfter past maxIdleReads [] = [] := by
      cases maxIdleReads with
      | none => rfl
      | some m =>
        rw [awakeAfter, List.inits, List.find?_cons_of_neg (by simpa using hgo m rfl)]
        rfl
    rw [hnone]
    cases maxFills with
    | none => rfl
    | some m => exact List.take_nil.symm
  | cons batch reads ih =>
    rw [awakeAfter_cons hgo]
    cases batch with
    | nil =>
      have hstop : (maxIdleReads.any fun m ↦ tooIdle m (past ++ [[]]))
          = maxIdleReads.any fun m ↦ decide (m ≤ idle + 1) := by
        congr 1
        funext m
        rw [Bool.eq_iff_iff, tooIdle_concat, decide_eq_true_eq, hidle]
        exact ⟨fun h ↦ h.2, fun h ↦ ⟨rfl, h⟩⟩
      rw [eventsFrom, hstop]
      split
      · cases maxFills with
        | none => rfl
        | some m => exact List.take_nil.symm
      · rename_i hstay
        rw [← hstop] at hstay
        refine ih (idle + 1) ?_ ?_ hroom
        · rw [idleStreak_concat, if_pos rfl, hidle]
          rfl
        · intro m hm
          rw [Option.any_eq_true] at hstay
          exact Bool.eq_false_iff.mpr fun h ↦ hstay ⟨m, hm, h⟩
    | cons msg batch =>
      have hawake : ∀ m, tooIdle m (past ++ [msg :: batch]) = false := fun m ↦
        Bool.eq_false_iff.mpr fun h ↦ by simpa using (tooIdle_concat.mp h).1
      have hgo' : (maxIdleReads.any fun m ↦ tooIdle m (past ++ [msg :: batch])) = false := by
        simp [hawake]
      have hstreak : (0 : ℤ) = idleStreak (past ++ [msg :: batch]) := by
        rw [idleStreak_concat, if_neg (List.cons_ne_nil _ _)]
        rfl
      rw [eventsFrom, hgo', if_neg Bool.false_ne_true, List.flatten_cons, traded,
        List.filter_append]
      obtain ⟨hmade, hleft⟩ := @allowed_batchEvents config maxFills emitted (msg :: batch)
        (traded config (awakeAfter (past ++ [msg :: batch]) maxIdleReads reads).flatten) hroom
      have hcounts : (filledIds (batchEvents config maxFills emitted (msg :: batch)).1).length
          = (trades (batchEvents config maxFills emitted (msg :: batch)).1).length := by
        rw [← map_trades, List.length_map]
      rw [← hcounts] at hmade hleft
      refine Eq.trans ?_ hmade.symm
      rcases hbatch : batchEvents config maxFills emitted (msg :: batch) with ⟨events, stopped⟩
      rw [hbatch] at hleft
      cases stopped with
      | true => exact (List.append_nil _).symm
      | false =>
        dsimp only
        rw [trades, List.filterMap_append]
        exact congrArg _ (ih 0 hstreak (fun m _ ↦ hawake m) (hleft rfl))

/-- **The messages a run trades on**: those drawn to be, in the reads up to the idle ones that end
the run, as many as `max_fills` allows. -/
theorem trades_eventsOf :
    trades (eventsOf config maxFills maxIdleReads reads)
      = tradedOf config maxFills maxIdleReads reads := by
  refine trades_eventsFrom 0 rfl (fun m _ ↦ ?_) fun m _ ↦ ?_
  · exact decide_eq_false (by rw [show idleStreak [] = 0 from rfl]; omega)
  · omega

end Traded

/-! ## The book the trades lead to -/

/-- The trades of one symbol. -/
def tradesIn (symbol : Str) (trades : List (Tick × Draws)) : List (Tick × Draws) :=
  trades.filter fun trade ↦ trade.1.symbol = symbol

/-- The fill a trade leads to, after the trades `earlier`: it is numbered among those of its symbol,
and sells when the price has fallen since the last of them. -/
def fillOf (config : SimulatorConfig) (earlier : List (Tick × Draws)) (trade : Tick × Draws) :
    Fill where
  fillId := trade.2.fillId
  orderId := "sim-order-".toList ++ (Nat.repr (earlier.length + 1)).toList
  symbol := trade.1.symbol
  sequence := (tradesIn trade.1.symbol earlier).length + 1
  price := trade.1.price
  quantity := trade.2.quantity
  side :=
    if (tradesIn trade.1.symbol earlier).getLast?.any fun last ↦ trade.1.price < last.1.price then
      .sell
    else .buy
  timestamp :=
    if trade.2.anomalyType config = some .unmatchedFill then
      trade.1.exchangeTimestamp + minutes trade.2.shift
    else trade.1.exchangeTimestamp
  isPlantedAnomaly := (trade.2.anomalyType config).isSome
  anomalyType := trade.2.anomalyType config

/-- The fills the trades lead to. -/
def ledger (config : SimulatorConfig) (trades : List (Tick × Draws)) : List Fill :=
  trades.mapIdx fun k trade ↦ fillOf config (trades.take k) trade

/-- What the fills add up to in the symbol. -/
def netQuantity (symbol : Str) (fills : List Fill) : ℚ :=
  ((fills.filter fun f ↦ f.symbol = symbol).map Fill.signedQty).sum

/-- The position recorded after a trade: none after an unmatched fill, and one that is off by the
drift where the trade plants one. -/
def positionOf (config : SimulatorConfig) (earlier : List (Tick × Draws)) (trade : Tick × Draws) :
    Option Position :=
  if trade.2.anomalyType config = some .unmatchedFill then none
  else
    some
      { symbol := trade.1.symbol
        quantity := netQuantity trade.1.symbol (ledger config (earlier ++ [trade])) +
          if trade.2.anomalyType config = some .positionDrift then trade.2.drift else 0
        avgPrice := trade.1.price
        lastUpdated := trade.1.exchangeTimestamp
        lastFillId := some trade.2.fillId }

/-- The positions the trades lead to. -/
def positionLedger (config : SimulatorConfig) (trades : List (Tick × Draws)) : List Position :=
  (trades.mapIdx fun k trade ↦ positionOf config (trades.take k) trade).reduceOption

section Book

variable {config : SimulatorConfig} {earlier : List (Tick × Draws)} {s : Simulator} {tick : Tick}
  {draws : Draws}

/-- Looking back at the trades before it, a row is not changed by the trades after it. -/
theorem mapIdx_take_concat {α β : Type*} (f : List α → α → β) (l : List α) (a : α) :
    ((l ++ [a]).mapIdx fun k b ↦ f ((l ++ [a]).take k) b)
      = (l.mapIdx fun k b ↦ f (l.take k) b) ++ [f l a] := by
  rw [List.mapIdx_concat, List.take_left']
  · congr 1
    refine List.ext_getElem? fun k ↦ ?_
    rw [List.getElem?_mapIdx, List.getElem?_mapIdx]
    rcases lt_or_ge k l.length with hk | hk
    · rw [List.take_append_of_le_length hk.le]
    · rw [List.getElem?_eq_none hk]
      rfl
  · rfl

theorem ledger_concat (trade : Tick × Draws) :
    ledger config (earlier ++ [trade])
      = ledger config earlier ++ [fillOf config earlier trade] :=
  mapIdx_take_concat (fillOf config) earlier trade

theorem positionLedger_concat (trade : Tick × Draws) :
    positionLedger config (earlier ++ [trade])
      = positionLedger config earlier ++ (positionOf config earlier trade).toList := by
  rw [positionLedger, mapIdx_take_concat (positionOf config), List.reduceOption_append,
    List.reduceOption_singleton, positionLedger]

theorem tradesIn_concat (symbol : Str) (trade : Tick × Draws) :
    tradesIn symbol (earlier ++ [trade]) =
      if trade.1.symbol = symbol then tradesIn symbol earlier ++ [trade]
      else tradesIn symbol earlier := by
  rw [tradesIn, List.filter_append, List.filter_singleton]
  by_cases h : trade.1.symbol = symbol
  · simp [h, tradesIn]
  · simp [h, tradesIn]

theorem map_fillId_ledger (config : SimulatorConfig) (trades : List (Tick × Draws)) :
    (ledger config trades).map Fill.fillId = trades.map fun trade ↦ trade.2.fillId := by
  induction trades using List.reverseRecOn with
  | nil => rfl
  | append_singleton trades trade ih =>
    rw [ledger_concat, List.map_append, ih, List.map_append]
    rfl

/-! ## The simulator keeps that book -/

/-- The simulator has made these trades: its stores hold what they lead to, and its counters and
dictionaries are what looking back at them gives. -/
structure Made (config : SimulatorConfig) (trades : List (Tick × Draws)) (s : Simulator) :
    Prop where
  fills : s.bookStore.fills = ledger config trades
  positions : s.bookStore.positions = positionLedger config trades
  orderIds : s.orderIds = trades.length + 1
  emitted : s.fillsEmitted = trades.length
  sequences : ∀ symbol, s.fillSequences symbol = (tradesIn symbol trades).length + 1
  lastPrice : ∀ symbol,
    s.lastPrice symbol = (tradesIn symbol trades).getLast?.map fun trade ↦ trade.1.price
  truePosition : ∀ symbol,
    (s.truePosition symbol).getD 0 = netQuantity symbol (ledger config trades)

theorem made_nil (config : SimulatorConfig) (tickStore : TickStore) :
    Made config [] { tickStore, bookStore := {} } where
  fills := rfl
  positions := rfl
  orderIds := rfl
  emitted := rfl
  sequences := fun _ ↦ rfl
  lastPrice := fun _ ↦ rfl
  truePosition := fun _ ↦ rfl

/-- The new fill is the one the trades before it lead to. -/
theorem Made.newFill_eq (h : Made config earlier s) :
    s.newFill config draws tick = fillOf config earlier (tick, draws) := by
  have hside : (tick.price ≥ (s.lastPrice tick.symbol).getD tick.price) ↔
      ¬ ((tradesIn tick.symbol earlier).getLast?.any fun last ↦ tick.price < last.1.price)
        = true := by
    rw [h.lastPrice]
    cases (tradesIn tick.symbol earlier).getLast? with
    | none => simp
    | some last => simp
  rw [newFill, fillOf, h.orderIds, h.sequences, if_congr hside rfl rfl, ite_not]

/-- What settling a fill leaves alone. -/
theorem settleFill_memory (config : SimulatorConfig) (draws : Draws) (tick : Tick)
    (s : Simulator) :
    let s' := s.settleFill config draws tick
    s'.orderIds = s.orderIds ∧ s'.fillsEmitted = s.fillsEmitted ∧
      s'.fillSequences = s.fillSequences ∧ s'.lastPrice = s.lastPrice ∧
      s'.truePosition = s.truePosition ∧ s'.bookStore.fills = s.bookStore.fills := by
  intro s'
  simp only [s', settleFill]
  split
  · exact ⟨rfl, rfl, rfl, rfl, rfl, rfl⟩
  · exact ⟨rfl, rfl, rfl, rfl, rfl, rfl⟩
  · rw [plantSequenceGap]
    split
    · exact ⟨rfl, rfl, rfl, rfl, rfl, rfl⟩
    · dsimp only
      split
      · exact ⟨rfl, rfl, rfl, rfl, rfl, rfl⟩
      · exact ⟨rfl, rfl, rfl, rfl, rfl, rfl⟩
  · exact ⟨rfl, rfl, rfl, rfl, rfl, rfl⟩

/-- The position that settling a fill records. -/
theorem positions_settleFill (config : SimulatorConfig) (draws : Draws) (tick : Tick)
    (s : Simulator) :
    (s.settleFill config draws tick).bookStore.positions = s.bookStore.positions ++
      if draws.anomalyType config = some .unmatchedFill then []
      else
        [{ symbol := tick.symbol
           quantity := (s.truePosition tick.symbol).getD 0 +
             if draws.anomalyType config = some .positionDrift then draws.drift else 0
           avgPrice := (s.avgPrice tick.symbol).getD 0
           lastUpdated := tick.exchangeTimestamp
           lastFillId := some draws.fillId }] := by
  rw [settleFill]
  split
  · rename_i htype
    rw [if_pos htype]
    exact (List.append_nil _).symm
  · rename_i htype
    rw [htype]
    rfl
  · rename_i htype
    rw [(plantSequenceGap_frame draws _ _ _).2.1, htype, if_neg (by decide), if_neg (by decide),
      add_zero]
    rfl
  · rename_i htype
    rw [htype, if_neg (by decide), if_neg (by decide), add_zero]
    rfl

theorem netQuantity_concat (symbol : Str) (fills : List Fill) (fill : Fill) :
    netQuantity symbol (fills ++ [fill]) =
      if fill.symbol = symbol then netQuantity symbol fills + fill.signedQty
      else netQuantity symbol fills := by
  rw [netQuantity, List.filter_append, List.filter_singleton]
  by_cases h : fill.symbol = symbol
  · simp [h, netQuantity]
  · simp [h, netQuantity]

/-- **One more trade.** -/
theorem Made.generateFill (h : Made config earlier s)
    (hfresh : draws.fillId ∉ earlier.map fun trade ↦ trade.2.fillId) :
    Made config (earlier ++ [(tick, draws)]) (s.generateFill config draws tick) := by
  rw [← map_fillId_ledger config, ← h.fills] at hfresh
  have hbook := bookFill_bookStore config draws tick hfresh
  obtain ⟨horders, hemitted, hseqs, hprice, htrue, hfills⟩ :=
    settleFill_memory config draws tick (s.bookFill config draws tick)
  have hquantity : ∀ symbol, ((s.bookFill config draws tick).truePosition symbol).getD 0
      = netQuantity symbol (ledger config (earlier ++ [(tick, draws)])) := by
    intro symbol
    have hupdate : (s.bookFill config draws tick).truePosition
        = Function.update s.truePosition tick.symbol
          (some ((s.truePosition tick.symbol).getD 0 + (s.newFill config draws tick).signedQty)) :=
      rfl
    rw [hupdate, ledger_concat, netQuantity_concat, ← h.newFill_eq, newFill_symbol]
    by_cases hsymbol : tick.symbol = symbol
    · subst hsymbol
      rw [Function.update_self, if_pos rfl, ← h.truePosition]
      rfl
    · rw [Function.update_of_ne (Ne.symm hsymbol), if_neg hsymbol, h.truePosition]
  refine ⟨?_, ?_, ?_, ?_, fun symbol ↦ ?_, fun symbol ↦ ?_, fun symbol ↦ ?_⟩
  · rw [Simulator.generateFill, hfills, hbook, h.fills, h.newFill_eq, ledger_concat]
  · have hprice : (s.bookFill config draws tick).avgPrice tick.symbol = some tick.price :=
      Function.update_self _ _ _
    rw [Simulator.generateFill, positions_settleFill, hbook, h.positions, positionLedger_concat,
      hquantity, hprice, positionOf]
    split
    · rfl
    · rfl
  · rw [Simulator.generateFill, horders, List.length_append]
    exact congrArg (· + 1) h.orderIds
  · rw [Simulator.generateFill, hemitted, List.length_append]
    exact congrArg (· + 1) h.emitted
  · have hupdate : (s.bookFill config draws tick).fillSequences
        = Function.update s.fillSequences tick.symbol (s.fillSequences tick.symbol + 1) := rfl
    rw [Simulator.generateFill, hseqs, hupdate, tradesIn_concat]
    by_cases hsymbol : tick.symbol = symbol
    · subst hsymbol
      rw [Function.update_self, if_pos rfl, h.sequences, List.length_append, Nat.cast_add]
      rfl
    · rw [Function.update_of_ne (Ne.symm hsymbol), if_neg hsymbol, h.sequences]
  · have hupdate : (s.bookFill config draws tick).lastPrice
        = Function.update s.lastPrice tick.symbol (some tick.price) := rfl
    rw [Simulator.generateFill, hprice, hupdate, tradesIn_concat]
    by_cases hsymbol : tick.symbol = symbol
    · subst hsymbol
      rw [Function.update_self, if_pos rfl, List.getLast?_concat]
      rfl
    · rw [Function.update_of_ne (Ne.symm hsymbol), if_neg hsymbol, h.lastPrice]
  · rw [Simulator.generateFill, htrue, hquantity]

/-- A tick that is seen changes nothing in the book. -/
theorem Made.trackSequence (h : Made config earlier s) :
    Made config earlier (s.trackSequence tick) :=
  ⟨h.fills, h.positions, h.orderIds, h.emitted, h.sequences, h.lastPrice, h.truePosition⟩

/-- The events of a run make their trades. -/
theorem Made.foldl (h : Made config earlier s) (events : List Event)
    (hfresh : ((earlier ++ trades events).map fun trade ↦ trade.2.fillId).Nodup) :
    Made config (earlier ++ trades events) (events.foldl (Event.apply config) s) := by
  induction events generalizing earlier s with
  | nil => simpa using h
  | cons event rest ih =>
    cases event with
    | seen tick => exact ih h.trackSequence hfresh
    | filled tick draws =>
      have hnew : draws.fillId ∉ earlier.map fun trade ↦ trade.2.fillId := by
        rw [trades_filled, List.map_append, List.nodup_append] at hfresh
        exact fun hmem ↦ hfresh.2.2 _ hmem draws.fillId List.mem_cons_self rfl
      rw [trades_filled, List.append_cons] at hfresh ⊢
      exact ih (h.generateFill hnew) hfresh

end Book

/-- **The book of a run.**  A run from an empty book, with fresh fill ids, leaves the fills and the
positions that its messages lead to, and returns how many fills there are.  It trades on the
messages drawn to be traded on, up to the read that is one idle read too many, and stops at
`max_fills` but not before the first. -/
theorem book_of_run (config : SimulatorConfig) (maxFills maxIdleReads : Option ℤ)
    (reads : List (List (Tick × Draws))) (tickStore : TickStore)
    (hfresh : (reads.flatten.map fun m ↦ m.2.fillId).Nodup) :
    let final := run config maxFills maxIdleReads reads { tickStore, bookStore := {} }
    let trades := tradedOf config maxFills maxIdleReads reads
    final.bookStore.fills = ledger config trades ∧
      final.bookStore.positions = positionLedger config trades ∧
      final.fillsEmitted = trades.length := by
  intro final made
  have hevents : trades (eventsOf config maxFills maxIdleReads reads) = made := trades_eventsOf
  have hnodup : (made.map fun trade ↦ trade.2.fillId).Nodup := by
    rw [← hevents, map_trades]
    exact (eventsOf_spec config maxFills maxIdleReads reads).filled.nodup hfresh
  have hmade := (made_nil config tickStore).foldl
    (eventsOf config maxFills maxIdleReads reads) (by rwa [List.nil_append, hevents])
  rw [List.nil_append, hevents, ← run_eq] at hmade
  exact ⟨hmade.fills, hmade.positions, hmade.emitted⟩

/-! ### Three messages and two fills -/

/-- The simulator that is to make two fills buys, sees a lower price and sells, and has no eye for
the third message. -/
def twoFillReads : List (List (Tick × Draws)) :=
  [[(btcTick 1 0, driftDraws)], [],
    [({ btcTick 1 0 with price := 99 },
        { driftDraws with fillId := "f2".toList, anomalyRoll := 1 }),
      (btcTick 1 0, { driftDraws with fillId := "f3".toList })]]

theorem book_of_run_two :
    let final := run {} (some 2) none twoFillReads { tickStore := [], bookStore := {} }
    final.bookStore.fills.map (fun f ↦ (f.fillId, f.sequence, f.side))
        = [("f1".toList, 1, .buy), ("f2".toList, 2, .sell)] ∧
      final.fillsEmitted = 2 := by
  obtain ⟨hfills, -, hemitted⟩ := book_of_run {} (some 2) none twoFillReads [] (by decide)
  refine ⟨?_, ?_⟩
  · rw [hfills]
    decide +kernel
  · rw [hemitted]
    decide +kernel

end Simulator

end PostTrade
