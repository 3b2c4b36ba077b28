import MatchingEngine.Engine
import MatchingEngine.Crossing
import MatchingEngine.LevelIndex

/-!
# Invariants of every engine run

`Inv e`: every registered book is valid, every order in the book of symbol `s` is of symbol
`s` and is routed to `s` by `orderToSymbol_`, and its id was handed out already. One lemma per
call (`Inv.submitOrder`, `Inv.cancelOrder`, `Inv.modifyOrder`) and `Inv.run` by induction on
the run. The same shape gives `Positive` books (when quantities are positive) and uncrossed
books (for runs without `modifyOrder`).

The routing half of `Inv` is what makes an engine-level cancel or modify reach exactly the
book where the id rests (`Inv.cancelOrder_iff`), and change nothing else: no other book, and
in that book no other order, its place in the queue or its key in `orderMap_`
(`Inv.onlyTouches_cancelOrder`, `Inv.onlyTouches_modifyOrder`).
-/

namespace MatchingEngine

namespace MatchingEngineCore

open OrderBook

variable {e : MatchingEngineCore}

/-- What each registered book keeps, relative to its engine: it is valid, every order in it
has its symbol and is routed to it, and every id in it was handed out already. -/
structure BookInv (e : MatchingEngineCore) (s : Symbol) (b : OrderBook) : Prop where
  valid : b.Valid
  routed : ∀ x ∈ b.entries, x.2.symbol = s ∧ e.orderToSymbol x.2.orderId = some s
  fresh : ∀ x ∈ b.entries, x.2.orderId < e.nextOrderId

/-- Every registered book keeps `BookInv`. -/
def Inv (e : MatchingEngineCore) : Prop :=
  ∀ s b, e.orderBooks s = some b → BookInv e s b

/-- `BookInv` reads only the routes and the id counter of the engine. -/
theorem BookInv.congr {e' : MatchingEngineCore} {s : Symbol} {b : OrderBook} (h : BookInv e s b)
    (h1 : e'.orderToSymbol = e.orderToSymbol) (h2 : e'.nextOrderId = e.nextOrderId) :
    BookInv e' s b :=
  ⟨h.valid, h1 ▸ h.routed, h2 ▸ h.fresh⟩

theorem BookInv.empty (e : MatchingEngineCore) (s : Symbol) : BookInv e s (.empty s) :=
  ⟨Valid.empty s, by simp [OrderBook.entries, OrderBook.empty],
    by simp [OrderBook.entries, OrderBook.empty]⟩

theorem Inv.bookFor (h : e.Inv) (s : Symbol) : BookInv e s (e.bookFor s) := by
  unfold MatchingEngineCore.bookFor
  cases hb : e.orderBooks s with
  | none => exact BookInv.empty e s
  | some b => exact h s b hb

theorem inv_init : init.Inv := fun _ _ h => by simp [init] at h

/-- Writing one book back keeps `Inv` when it, and every other book, keeps `BookInv` in the
new engine. -/
theorem inv_update {e' : MatchingEngineCore} {s : Symbol} {b : OrderBook}
    (hbooks : e'.orderBooks = Function.update e.orderBooks s (some b)) (hb : BookInv e' s b)
    (hother : ∀ s' b', s' ≠ s → e.orderBooks s' = some b' → BookInv e' s' b') : e'.Inv := by
  intro s' b' h
  rw [hbooks] at h
  by_cases hs : s' = s
  · subst hs
    obtain rfl : b = b' := by simpa using h
    exact hb
  · rw [Function.update_noteq hs] at h
    exact hother s' b' hs h

/-- An id rests only in the book its symbol routes to. -/
theorem Inv.route_of_mem (h : e.Inv) {s : Symbol} {b : OrderBook} (hb : e.orderBooks s = some b)
    {x : Price × Order} (hx : x ∈ b.entries) : e.orderToSymbol x.2.orderId = some s :=
  ((h s b hb).routed x hx).2

/-- An id routed to `s₀` is in no level of another book. -/
theorem Inv.not_mem_level (h : e.Inv) {i : OrderId} {s₀ s : Symbol}
    (hs : e.orderToSymbol i = some s₀) (hss : s ≠ s₀) {b : OrderBook}
    (hb : e.orderBooks s = some b) {t : Side} {l : Price × PriceLevel} (hl : l ∈ b.levels t) :
    i ∉ l.2.orders.map (·.orderId) := by
  intro hm
  have hi : i ∈ b.restingIds := (restingIds_perm b t).mem_iff.mpr (List.mem_append_left _
    ((Levels.level_ids_sublist (Prod.mk.eta (p := l) ▸ hl)).subset hm))
  obtain ⟨x, hx, rfl⟩ := List.mem_map.mp hi
  exact hss (Option.some.inj ((h.route_of_mem hb hx).symm.trans hs))

theorem Inv.submitOrder (h : e.Inv) (symbol : Symbol) (side : Side) (type : OrderType)
    (price : Price) (quantity : Quantity) (stopPrice : Price) :
    (e.submitOrder symbol side type price quantity stopPrice).1.Inv := by
  rw [submitOrder_eq]
  dsimp only
  have hb := h.bookFor symbol
  have hfresh : e.nextOrderId ∉ (e.bookFor symbol).restingIds := fun hi => by
    obtain ⟨x, hx, hid⟩ := List.mem_map.mp hi
    exact absurd (hb.fresh x hx) (by simp [hid])
  refine inv_update rfl ⟨(hb.valid.matchOrder hfresh).1, fun x hx => ?_, fun x hx => ?_⟩
    fun s' b' hs h' => ?_
  · dsimp only
    rcases hb.valid.origin_matchOrder _ hx with ⟨y, hy, h1, h2⟩ | ⟨h1, h2⟩
    · obtain ⟨hs, hr⟩ := hb.routed y hy
      refine ⟨h2.trans hs, ?_⟩
      rw [h1, Function.update_noteq (Nat.ne_of_lt (hb.fresh y hy)), hr]
    · exact ⟨h2, by rw [h1]; simp [Order.new]⟩
  · rcases hb.valid.origin_matchOrder _ hx with ⟨y, hy, h1, -⟩ | ⟨h1, -⟩
    · exact h1 ▸ Nat.lt_succ_of_lt (hb.fresh y hy)
    · simp [h1, Order.new]
  · obtain ⟨hv, hr, hf⟩ := h s' b' h'
    refine ⟨hv, fun x hx => ⟨(hr x hx).1, ?_⟩, fun x hx => Nat.lt_succ_of_lt (hf x hx)⟩
    dsimp only
    rw [Function.update_noteq (Nat.ne_of_lt (hf x hx)), (hr x hx).2]

/-- After `submitOrder`, `getOrder` finds the new id only for a `LIMIT` or stop order that
still has something left: every other new order has traded its whole quantity or is not one
that rests. -/
theorem Inv.getOrder_submitOrder (h : e.Inv) (symbol : Symbol) (side : Side) (type : OrderType)
    (price : Price) (quantity : Quantity) (stopPrice : Price) {o : Order}
    (ho : (e.submitOrder symbol side type price quantity stopPrice).1.getOrder
      (e.submitOrder symbol side type price quantity stopPrice).2.orderId = some o) :
    0 < (e.submitOrder symbol side type price quantity stopPrice).2.order.remainingQuantity ∧
      (type = .limit ∨ type = .stopLoss ∨ type = .stopLimit) := by
  rw [submitOrder_eq] at ho ⊢
  dsimp only at ho ⊢
  have hb := h.bookFor symbol
  set b := e.bookFor symbol
  set n := Order.new e.nextOrderId symbol side type price quantity stopPrice
  have hfresh : e.nextOrderId ∉ b.restingIds := fun hi => by
    obtain ⟨x, hx, hid⟩ := List.mem_map.mp hi
    exact absurd (hb.fresh x hx) (by simp [hid])
  simp only [getOrder, Function.update_same, OrderBook.getOrder] at ho
  split at ho
  · next hm =>
    have hr := ((hb.valid.matchOrder hfresh).1.mem_orderMap _).mp hm
    rcases matchOrder_cases b n with ⟨hbk, -⟩ | ⟨hbk, -⟩ | ⟨-, -, hpos, -, ht⟩
    · exact absurd (hbk ▸ hr) hfresh
    · exact absurd (hb.valid.mem_sweep_restingIds n (hbk ▸ hr)) hfresh
    · exact ⟨by rw [matchOrder_order_of_rests b ht]; exact hpos, ht⟩
  · simp at ho

theorem Inv.cancelOrder (h : e.Inv) (i : OrderId) : (e.cancelOrder i).1.Inv := by
  by_cases hr : ∃ s b, e.orderToSymbol i = some s ∧ e.orderBooks s = some b
  · obtain ⟨s, b, hs, hb⟩ := hr
    rw [cancelOrder_of_route hs hb]
    have hB := h s b hb
    -- forgetting `i` changes the route of no other id
    have hot : ∀ j ≠ i, (if (b.cancelOrder i).2 then Function.update e.orderToSymbol i none
        else e.orderToSymbol) j = e.orderToSymbol j := fun j hj => by
      split <;> simp [Function.update_noteq hj]
    refine inv_update rfl ⟨(hB.valid.cancelOrder i).1, fun x hx => ?_, fun x hx => ?_⟩
      fun s' b' hs' hb' => ?_
    · obtain ⟨hx, hne⟩ := hB.valid.origin_cancelOrder i hx
      exact ⟨(hB.routed x hx).1, (hot _ hne).trans (hB.routed x hx).2⟩
    · exact hB.fresh _ (hB.valid.origin_cancelOrder i hx).1
    · obtain ⟨hv, hr, hf⟩ := h s' b' hb'
      refine ⟨hv, fun x hx => ⟨(hr x hx).1, (hot _ fun hid => hs' ?_).trans (hr x hx).2⟩, hf⟩
      exact Option.some.inj ((hr x hx).2.symm.trans (hid ▸ hs))
  · rw [cancelOrder_of_no_route (no_route hr)]
    exact h

theorem Inv.modifyOrder (h : e.Inv) (i : OrderId) (p : Price) (q : Quantity) :
    (e.modifyOrder i p q).1.Inv := by
  by_cases hr : ∃ s b, e.orderToSymbol i = some s ∧ e.orderBooks s = some b
  · obtain ⟨s, b, hs, hb⟩ := hr
    rw [modifyOrder_of_route hs hb]
    have hB := h s b hb
    refine inv_update rfl ⟨(hB.valid.modifyOrder i p q).1, fun x hx => ?_, fun x hx => ?_⟩
      fun s' b' _ hb' => (h s' b' hb').congr rfl rfl
    · obtain ⟨y, hy, h1, h2⟩ := hB.valid.origin_modifyOrder i p q hx
      exact ⟨h2.trans (hB.routed y hy).1, h1 ▸ (hB.routed y hy).2⟩
    · obtain ⟨y, hy, h1, -⟩ := hB.valid.origin_modifyOrder i p q hx
      exact h1 ▸ hB.fresh y hy
  · rw [modifyOrder_of_no_route (no_route hr)]
    exact h

theorem Inv.step (h : e.Inv) : ∀ r, (e.step r).Inv
  | .submitOrder symbol side type price quantity stopPrice =>
    h.submitOrder symbol side type price quantity stopPrice
  | .cancelOrder i => h.cancelOrder i
  | .modifyOrder i p q => h.modifyOrder i p q

theorem Inv.run : ∀ {e : MatchingEngineCore}, e.Inv → ∀ rs, (e.run rs).Inv
  | _, h, [] => h
  | _, h, r :: rs => Inv.run (h.step r) rs

/-! ## Routing: what a cancel or a modify reaches -/

/-- An engine-level cancel succeeds exactly when the id rests in some book. -/
theorem Inv.cancelOrder_iff (h : e.Inv) (i : OrderId) :
    (e.cancelOrder i).2 = true ↔ ∃ s b, e.orderBooks s = some b ∧ i ∈ b.restingIds := by
  constructor
  · intro hc
    by_cases hr : ∃ s b, e.orderToSymbol i = some s ∧ e.orderBooks s = some b
    · obtain ⟨s, b, hs, hb⟩ := hr
      rw [cancelOrder_of_route hs hb, cancelOrder_snd] at hc
      exact ⟨s, b, hb, ((h s b hb).valid.mem_orderMap i).mp (of_decide_eq_true hc)⟩
    · rw [cancelOrder_of_no_route (no_route hr)] at hc
      exact absurd hc Bool.false_ne_true
  · rintro ⟨s, b, hb, hi⟩
    obtain ⟨x, hx, rfl⟩ := List.mem_map.mp hi
    rw [cancelOrder_of_route (h.route_of_mem hb hx) hb, cancelOrder_snd]
    exact decide_eq_true (((h s b hb).valid.mem_orderMap _).mpr hi)

/-- From `e` to `e'` no book changed but the one where `i` rests. In that one every other
order is as it was and where it was in its queue (the entries without `i`'s are the same list),
and `orderMap_` is as it was but for `i`. -/
def OnlyTouches (e e' : MatchingEngineCore) (i : OrderId) : Prop :=
  ∀ s, e'.orderBooks s = e.orderBooks s ∨
    ∃ b b', e.orderBooks s = some b ∧ e'.orderBooks s = some b' ∧ i ∈ b.restingIds ∧
      (∀ t, (Levels.entries (b'.levels t)).filter (·.2.orderId != i) =
        (Levels.entries (b.levels t)).filter (·.2.orderId != i)) ∧
      b'.orderMap.erase i = b.orderMap.erase i

/-- Writing back, in place of a valid book, one that is the same when `i` is not indexed and
keeps the frame of `i` otherwise, touches only where `i` rests. -/
theorem onlyTouches_of_update {e' : MatchingEngineCore} {b b' : OrderBook} {s₀ : Symbol}
    {i : OrderId} (hb : e.orderBooks s₀ = some b) (hv : b.Valid)
    (he' : e'.orderBooks = Function.update e.orderBooks s₀ (some b'))
    (hkeep : i ∉ b.orderMap → b' = b)
    (hframe : ∀ t, (Levels.entries (b'.levels t)).filter (·.2.orderId != i) =
      (Levels.entries (b.levels t)).filter (·.2.orderId != i))
    (hmap : b'.orderMap.erase i = b.orderMap.erase i) :
    OnlyTouches e e' i := by
  intro s
  rw [he']
  by_cases hss : s = s₀
  · subst hss
    by_cases hi : i ∈ b.restingIds
    · exact .inr ⟨b, b', hb, Function.update_same _ _ _, hi, hframe, hmap⟩
    · left
      rw [hkeep fun hm => hi ((hv.mem_orderMap i).mp hm)]
      simp [hb]
  · exact .inl (Function.update_noteq hss _ _)

theorem Inv.onlyTouches_cancelOrder (h : e.Inv) (i : OrderId) :
    OnlyTouches e (e.cancelOrder i).1 i := by
  by_cases hr : ∃ s b, e.orderToSymbol i = some s ∧ e.orderBooks s = some b
  · obtain ⟨s, b, hs, hb⟩ := hr
    have hv := (h s b hb).valid
    rw [cancelOrder_of_route hs hb]
    exact onlyTouches_of_update hb hv rfl (fun hm => by rw [cancelOrder_of_not_mem hm])
      (hv.filter_cancelOrder_entries i) (hv.erase_cancelOrder_orderMap i)
  · rw [cancelOrder_of_no_route (no_route hr)]
    exact fun _ => .inl rfl

theorem Inv.onlyTouches_modifyOrder (h : e.Inv) (i : OrderId) (p : Price) (q : Quantity) :
    OnlyTouches e (e.modifyOrder i p q).1 i := by
  by_cases hr : ∃ s b, e.orderToSymbol i = some s ∧ e.orderBooks s = some b
  · obtain ⟨s, b, hs, hb⟩ := hr
    have hv := (h s b hb).valid
    rw [modifyOrder_of_route hs hb]
    exact onlyTouches_of_update hb hv rfl (fun hm => by rw [modifyOrder_of_not_mem hm])
      (hv.filter_modifyOrder_entries i p q) (by rw [OrderBook.modifyOrder_orderMap])
  · rw [modifyOrder_of_no_route (no_route hr)]
    exact fun _ => .inl rfl

/-! ## Positive books and uncrossed books -/

/-- A call whose quantity, if it carries one, is positive. -/
def Request.Positive : Request → Prop
  | .submitOrder _ _ _ _ quantity _ => 0 < quantity
  | .cancelOrder _ => True
  | .modifyOrder _ _ newQuantity => 0 < newQuantity

instance : DecidablePred Request.Positive
  | .submitOrder _ _ _ _ quantity _ => inferInstanceAs (Decidable (0 < quantity))
  | .cancelOrder _ => inferInstanceAs (Decidable True)
  | .modifyOrder _ _ newQuantity => inferInstanceAs (Decidable (0 < newQuantity))

/-- Whether a call is a `modifyOrder`. -/
def Request.isModify : Request → Bool
  | .modifyOrder .. => true
  | _ => false

/-- Every registered book has something left in each resting order. -/
def PositiveBooks (e : MatchingEngineCore) : Prop :=
  ∀ s b, e.orderBooks s = some b → b.Positive

/-- No registered book is crossed. -/
def Uncrossed (e : MatchingEngineCore) : Prop :=
  ∀ s b, e.orderBooks s = some b → b.NoCross

theorem PositiveBooks.bookFor (h : e.PositiveBooks) (s : Symbol) : (e.bookFor s).Positive := by
  unfold MatchingEngineCore.bookFor
  cases hb : e.orderBooks s with
  | none => intro t x hx; simp at hx
  | some b => exact h s b hb

theorem Uncrossed.bookFor (h : e.Uncrossed) (s : Symbol) : (e.bookFor s).NoCross := by
  unfold MatchingEngineCore.bookFor
  cases hb : e.orderBooks s with
  | none => intro p hp; simp [OrderBook.empty] at hp
  | some b => exact h s b hb

theorem PositiveBooks.step (hi : e.Inv) (h : e.PositiveBooks) :
    ∀ r, r.Positive → (e.step r).PositiveBooks
  | .submitOrder .., _ => fun s b' hb' => by
    rcases submitOrder_orderBooks hb' with ⟨-, rfl⟩ | ⟨-, hb⟩
    · exact Positive.matchOrder (hi.bookFor _).valid (h.bookFor _) _
    · exact h s b' hb
  | .cancelOrder i, _ => fun s b' hb' => by
    rcases cancelOrder_orderBooks hb' with hb | ⟨b, hb, rfl⟩
    · exact h s b' hb
    · exact (h s b hb).cancelOrder (hi s b hb).valid i
  | .modifyOrder i p q, hq => fun s b' hb' => by
    rcases modifyOrder_orderBooks hb' with hb | ⟨b, hb, rfl⟩
    · exact h s b' hb
    · exact (h s b hb).modifyOrder (hi s b hb).valid i p hq

theorem PositiveBooks.run : ∀ {e : MatchingEngineCore}, e.Inv → e.PositiveBooks →
    ∀ rs, (∀ r ∈ rs, r.Positive) → (e.run rs).PositiveBooks
  | _, _, h, [], _ => h
  | _, hi, h, r :: rs, hrs => PositiveBooks.run (hi.step r)
      (h.step hi r (hrs r (List.mem_cons_self _ _))) rs fun r' h' => hrs r' (List.mem_cons_of_mem _ h')

/-- Every resting order of every registered book has at most its quantity left. -/
def BoundedBooks (e : MatchingEngineCore) : Prop :=
  ∀ s b, e.orderBooks s = some b → b.Bounded

theorem BoundedBooks.bookFor (h : e.BoundedBooks) (s : Symbol) : (e.bookFor s).Bounded := by
  unfold MatchingEngineCore.bookFor
  cases hb : e.orderBooks s with
  | none => intro t x hx; simp at hx
  | some b => exact h s b hb

theorem BoundedBooks.step (hi : e.Inv) (h : e.BoundedBooks) : ∀ r, (e.step r).BoundedBooks
  | .submitOrder .. => fun s b' hb' => by
    rcases submitOrder_orderBooks hb' with ⟨-, rfl⟩ | ⟨-, hb⟩
    · exact Bounded.matchOrder (hi.bookFor _).valid (h.bookFor _) (Quantity.le_iff.mpr le_rfl)
    · exact h s b' hb
  | .cancelOrder i => fun s b' hb' => by
    rcases cancelOrder_orderBooks hb' with hb | ⟨b, hb, rfl⟩
    · exact h s b' hb
    · exact (h s b hb).cancelOrder (hi s b hb).valid i
  | .modifyOrder i p q => fun s b' hb' => by
    rcases modifyOrder_orderBooks hb' with hb | ⟨b, hb, rfl⟩
    · exact h s b' hb
    · exact (h s b hb).modifyOrder (hi s b hb).valid i p q

/-- Over every run from a state with bounded books, every book stays bounded. -/
theorem BoundedBooks.run : ∀ {e : MatchingEngineCore}, e.Inv → e.BoundedBooks →
    ∀ rs, (e.run rs).BoundedBooks
  | _, _, h, [] => h
  | _, hi, h, r :: rs => BoundedBooks.run (hi.step r) (h.step hi r) rs

/-- Against positive books every call emits positive trades. -/
theorem PositiveBooks.tradesOf_pos (h : e.PositiveBooks) :
    ∀ r, ∀ t ∈ e.tradesOf r, 0 < t.quantity
  | .submitOrder symbol side type price quantity stopPrice => by
    simp only [tradesOf, submitOrder_eq]
    exact (h.bookFor symbol).trades_pos _
  | .cancelOrder _ => by simp [tradesOf]
  | .modifyOrder .. => by simp [tradesOf]

theorem Uncrossed.step (hi : e.Inv) (h : e.Uncrossed) :
    ∀ r, r.isModify = false → (e.step r).Uncrossed
  | .submitOrder .., _ => fun s b' hb' => by
    rcases submitOrder_orderBooks hb' with ⟨-, rfl⟩ | ⟨-, hb⟩
    · exact NoCross.matchOrder (hi.bookFor _).valid (h.bookFor _) _
    · exact h s b' hb
  | .cancelOrder i, _ => fun s b' hb' => by
    rcases cancelOrder_orderBooks hb' with hb | ⟨b, hb, rfl⟩
    · exact h s b' hb
    · exact (h s b hb).cancelOrder (hi s b hb).valid i
  | .modifyOrder .., hm => nomatch hm

theorem Uncrossed.run : ∀ {e : MatchingEngineCore}, e.Inv → e.Uncrossed →
    ∀ rs, (∀ r ∈ rs, r.isModify = false) → (e.run rs).Uncrossed
  | _, _, h, [], _ => h
  | _, hi, h, r :: rs, hrs => Uncrossed.run (hi.step r)
      (h.step hi r (hrs r (List.mem_cons_self _ _))) rs fun r' h' => hrs r' (List.mem_cons_of_mem _ h')

/-! ## Every run -/

/-- After any run of submits and cancels, on any symbols, no book is crossed: a side is empty
or every bid key is below every ask key. -/
theorem run_books_uncrossed (rs : List Request) (hrs : ∀ r ∈ rs, r.isModify = false) :
    ∀ s b, (init.run rs).orderBooks s = some b →
      b.bids = [] ∨ b.asks = [] ∨ ∀ p ∈ Levels.keys b.bids, ∀ q ∈ Levels.keys b.asks, p < q :=
  fun s b hb => .inr (.inr (Uncrossed.run inv_init (fun _ _ h => by simp [init] at h) rs hrs s b hb))

theorem run_books_uncrossed_example :
    (∀ r ∈ [Request.submitOrder "AAA" .buy .limit 99 5 0,
      .submitOrder "AAA" .sell .limit 101 5 0, .cancelOrder 1], r.isModify = false) ∧
    ∀ s b, (init.run [.submitOrder "AAA" .buy .limit 99 5 0,
        .submitOrder "AAA" .sell .limit 101 5 0, .cancelOrder 1]).orderBooks s = some b →
      b.bids = [] ∨ b.asks = [] ∨ ∀ p ∈ Levels.keys b.bids, ∀ q ∈ Levels.keys b.asks, p < q :=
  ⟨by decide, run_books_uncrossed _ (by decide)⟩

/-- After any run, every book has no empty level, holds buys in `bids_` and sells in `asks_`
each at its price, indexes exactly the ids that appear once in its levels, and rests only
active orders; with positive quantities, every resting order has something left and every
call emits positive trades. -/
theorem run_books_well_formed (rs : List Request) :
    (∀ s b, (init.run rs).orderBooks s = some b →
      (∀ t, ∀ l ∈ b.levels t, l.2.orders ≠ []) ∧
      (∀ t, ∀ x ∈ Levels.entries (b.levels t), x.2.side = t ∧ x.1 = x.2.price) ∧
      (∀ i, i ∈ b.orderMap ↔ b.restingIds.count i = 1) ∧
      (∀ x ∈ b.entries, x.2.isActive) ∧
      ((∀ r ∈ rs, r.Positive) → ∀ x ∈ b.entries, 0 < x.2.remainingQuantity)) ∧
    ((∀ r ∈ rs, r.Positive) → ∀ r, ∀ t ∈ (init.run rs).tradesOf r, 0 < t.quantity) := by
  have hi := inv_init.run rs
  have hpos : (∀ r ∈ rs, r.Positive) → (init.run rs).PositiveBooks :=
    PositiveBooks.run inv_init (fun _ _ h => by simp [init] at h) rs
  refine ⟨fun s b hb => ?_, fun hrs => (hpos hrs).tradesOf_pos⟩
  have hv := (hi s b hb).valid
  refine ⟨fun t => (hv.wf t).nonempty, fun t x hx => ?_, fun i => ?_, fun x hx => ?_,
    fun hrs x hx => ?_⟩
  · exact ⟨((hv.wf t).placed x hx).1, ((hv.wf t).placed x hx).2.symm⟩
  · rw [hv.mem_orderMap]
    exact ⟨List.count_eq_one_of_mem hv.nodup, fun h => List.count_pos_iff.mp (by omega)⟩
  · obtain ⟨t, hx⟩ := mem_entries_iff.mp hx
    exact (hv.wf t).active x hx
  · obtain ⟨t, hx⟩ := mem_entries_iff.mp hx
    exact hpos hrs s b hb t x hx

/-- After any run, every order resting in the book of symbol `s` is of symbol `s` and routed
to `s`; so a cancel succeeds exactly when the id rests in some book, and a cancel or a
modify changes no book but that one, and in it no other order, nor its place in the queue,
nor another key of `orderMap_`. -/
theorem run_orders_routed (rs : List Request) :
    (∀ s b, (init.run rs).orderBooks s = some b → ∀ x ∈ b.entries,
      (init.run rs).orderToSymbol x.2.orderId = some s ∧ x.2.symbol = s) ∧
    (∀ i, ((init.run rs).cancelOrder i).2 = true ↔
      ∃ s b, (init.run rs).orderBooks s = some b ∧ i ∈ b.restingIds) ∧
    (∀ i, OnlyTouches (init.run rs) ((init.run rs).cancelOrder i).1 i) ∧
    (∀ i p q, OnlyTouches (init.run rs) ((init.run rs).modifyOrder i p q).1 i) := by
  have hi := inv_init.run rs
  exact ⟨fun s b hb x hx => ((hi s b hb).routed x hx).symm, hi.cancelOrder_iff,
    hi.onlyTouches_cancelOrder, hi.onlyTouches_modifyOrder⟩

/-! ## Resting an order and cancelling it again -/

/-- On every book a run reaches, resting an order whose id the book holds nowhere (neither in
`orderMap_` nor in a level's index) and then cancelling that id answers true and gives the
book back exactly: the same levels with the same aggregates, lists and indices, and the same
`orderMap_`. -/
theorem run_addOrder_cancelOrder (rs : List Request) (symbol : Symbol) (o : Order)
    (hm : o.orderId ∉ ((init.run rs).bookFor symbol).orderMap)
    (hl : ∀ s, ∀ e ∈ ((init.run rs).bookFor symbol).levels s, o.orderId ∉ e.2.orderMap) :
    (((init.run rs).bookFor symbol).addOrder o).cancelOrder o.orderId =
      ((init.run rs).bookFor symbol, true) :=
  OrderBook.cancelOrder_addOrder_of_fresh ((inv_init.run rs).bookFor symbol).valid hm hl

/-- A sell of 5 at 10 resting on `AAA`. -/
def oneSell : List Request := [.submitOrder "AAA" .sell .limit 10 5 0]

/-- A second sell at 10, with the next id, joins that level and is cancelled again. -/
theorem run_addOrder_cancelOrder_one_sell :
    (Order.new 2 "AAA" .sell .limit 10 2).orderId ∉ ((init.run oneSell).bookFor "AAA").orderMap ∧
      (∀ s, ∀ e ∈ ((init.run oneSell).bookFor "AAA").levels s,
        (Order.new 2 "AAA" .sell .limit 10 2).orderId ∉ e.2.orderMap) ∧
      (((init.run oneSell).bookFor "AAA").addOrder (Order.new 2 "AAA" .sell .limit 10 2)).cancelOrder
          (Order.new 2 "AAA" .sell .limit 10 2).orderId = ((init.run oneSell).bookFor "AAA", true) :=
  have hl : ∀ s, ∀ e ∈ ((init.run oneSell).bookFor "AAA").levels s,
      (Order.new 2 "AAA" .sell .limit 10 2).orderId ∉ e.2.orderMap := fun s => by
    cases s <;> decide
  ⟨by decide, hl, run_addOrder_cancelOrder oneSell "AAA" _ (by decide) hl⟩

end MatchingEngineCore

end MatchingEngine
