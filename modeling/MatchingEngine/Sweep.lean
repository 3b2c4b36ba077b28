import MatchingEngine.OrderBook

/-!
# What a sweep does — `executeMatches`

The facts about `matchQueue` and `executeMatches` that every book-level theorem uses, each
proved once, by induction along the two loops:

* `executeMatches_entries`: the swept side loses a prefix of its entries (best price first,
  FIFO within a level), and at most the next entry is partially filled in place;
  `orderMap_` loses exactly the ids of the consumed prefix.
* `executeMatches_trades`: the `j`-th trade is against the `j`-th entry of the side, at that
  entry's price, and every trade but the last takes the whole of what the entry had left.
* `executeMatches_residual`: a taker with something left after the sweep has exhausted
  every level its price allows — what is left of the side is beyond its limit.

Arithmetic facts about one fill are isolated in `fill_min_*`.
-/

namespace MatchingEngine

namespace Order

/-- One of the two sides of a `min`-sized fill is used up. -/
theorem fill_min_exhausts (o r : Order) :
    (r.fill (min o.remainingQuantity r.remainingQuantity)).remainingQuantity = 0 ∨
      (o.fill (min o.remainingQuantity r.remainingQuantity)).remainingQuantity = 0 := by
  simp only [Quantity.eq_zero_iff, fill_remaining_toNat, Quantity.toNat_min]
  omega

/-- If the resting order survives a `min`-sized fill, the taker is used up. -/
theorem fill_min_of_not_isFilled {o r : Order}
    (h : ¬ (r.fill (min o.remainingQuantity r.remainingQuantity)).isFilled) :
    ¬ 0 < (o.fill (min o.remainingQuantity r.remainingQuantity)).remainingQuantity := by
  rcases fill_min_exhausts o r with h' | h'
  · exact absurd ((isFilled_iff _).mpr (by simpa using h')) h
  · simp [h']

/-- If the resting order is used up by a `min`-sized fill, the fill was all of it. -/
theorem fill_min_of_isFilled {o r : Order}
    (h : (r.fill (min o.remainingQuantity r.remainingQuantity)).isFilled) :
    min o.remainingQuantity r.remainingQuantity = r.remainingQuantity := by
  simp only [isFilled_iff, fill_remaining_toNat, Quantity.toNat_min] at h
  rw [Quantity.eq_iff, Quantity.toNat_min]
  omega

end Order

@[simp] theorem fillTrade_fill (symbol : Symbol) (o r : Order) (q q' : Quantity) :
    fillTrade symbol (o.fill q') r q = fillTrade symbol o r q := rfl

theorem fillTrade_congr (symbol : Symbol) {o o' : Order} (r : Order) (q : Quantity)
    (hs : o'.side = o.side) (hi : o'.orderId = o.orderId) :
    fillTrade symbol o' r q = fillTrade symbol o r q := by
  simp [fillTrade, hs, hi]

namespace OrderBook

variable {symbol : Symbol}

/-! ## The queue pass -/

theorem matchQueue_of_zero {o : Order} (h : ¬ 0 < o.remainingQuantity) (rs : List Order)
    (m : List OrderId) : matchQueue symbol o rs m = ⟨o, rs, m, []⟩ := by
  cases rs <;> simp [matchQueue, h]

/-- Any field a fill leaves alone is the same on the taker after the queue pass. -/
theorem matchQueue_taker {α : Type} (f : Order → α) (hf : ∀ o q, f (o.fill q) = f o) :
    ∀ (o : Order) (rs : List Order) (m : List OrderId), f (matchQueue symbol o rs m).taker = f o
  | o, [], m => rfl
  | o, r :: rs, m => by
    simp only [matchQueue]
    split
    · split <;> simp only [matchQueue_taker f hf _ rs, hf]
    · rfl

/-- A taker that still has something left after the pass has emptied the queue, one trade
per order. -/
theorem matchQueue_drained :
    ∀ {o : Order} {rs : List Order} {m : List OrderId},
      0 < (matchQueue symbol o rs m).taker.remainingQuantity →
      (matchQueue symbol o rs m).orders = [] ∧
        (matchQueue symbol o rs m).trades.length = rs.length
  | o, [], m, _ => ⟨rfl, rfl⟩
  | o, r :: rs, m, h => by
    simp only [matchQueue] at h ⊢
    split at h
    · next ho =>
      simp only [ho, if_true]
      split at h
      · next hf =>
        simp only [hf, if_true]
        have := matchQueue_drained h
        exact ⟨this.1, by simp [this.2]⟩
      · next hf =>
        have hz := Order.fill_min_of_not_isFilled hf
        rw [matchQueue_of_zero hz] at h
        exact absurd h hz
    · exact absurd h ‹_›

/-- The queue pass consumes a prefix of the queue, unlinking exactly those ids from
`orderMap_`, and at most partially fills the order after it. -/
theorem matchQueue_shape :
    ∀ {o : Order} {rs : List Order} {m : List OrderId}, m.Nodup →
      ∃ k, (matchQueue symbol o rs m).orderMap =
          m.filter (fun i => i ∉ (rs.take k).map (·.orderId)) ∧
        ((matchQueue symbol o rs m).orders = rs.drop k ∨
          ∃ r rest q, rs.drop k = r :: rest ∧
            (matchQueue symbol o rs m).orders = r.fill q :: rest ∧
            (r.fill q).remainingQuantity ≠ 0)
  | o, [], m, _ => ⟨0, by simp [matchQueue]⟩
  | o, r :: rs, m, hm => by
    simp only [matchQueue]
    split
    · split
      · obtain ⟨k, h1, h2⟩ := @matchQueue_shape (o.fill _) rs _ (hm.erase r.orderId)
        refine ⟨k + 1, ?_, h2⟩
        rw [h1, hm.erase_eq_filter, List.filter_filter]
        simp only [List.take_succ_cons, List.map_cons, List.mem_cons, not_or]
        congr 1; funext i; by_cases h : i = r.orderId <;> simp [h]
      · next hf =>
        rw [matchQueue_of_zero (Order.fill_min_of_not_isFilled hf)]
        refine ⟨0, by simp, .inr ⟨r, rs, _, rfl, rfl, ?_⟩⟩
        simpa [Order.isFilled_iff] using hf
    · exact ⟨0, by simp, .inl rfl⟩

/-- The `j`-th trade of the pass is against the `j`-th order of the queue, and it takes all
that order had unless it is the last trade and leaves the taker with nothing. -/
theorem matchQueue_trades :
    ∀ {o : Order} {rs : List Order} {m : List OrderId} {j : Nat} {t : Trade},
      (matchQueue symbol o rs m).trades[j]? = some t →
      ∃ r, rs[j]? = some r ∧ t = fillTrade symbol o r t.quantity ∧
        (j + 1 < (matchQueue symbol o rs m).trades.length ∨
            0 < (matchQueue symbol o rs m).taker.remainingQuantity →
          t.quantity = r.remainingQuantity)
  | o, [], m, j, t, h => by simp [matchQueue] at h
  | o, r :: rs, m, j, t, h => by
    simp only [matchQueue] at h ⊢
    split at h
    · next ho =>
      simp only [ho, if_true]
      split at h
      · next hf =>
        simp only [hf, if_true]
        cases j with
        | zero =>
          simp only [List.getElem?_cons_zero, Option.some.injEq] at h
          subst h
          exact ⟨r, List.getElem?_cons_zero, rfl, fun _ => Order.fill_min_of_isFilled hf⟩
        | succ j =>
          obtain ⟨r', h1, h2, h3⟩ := matchQueue_trades (by simpa using h)
          exact ⟨r', by simpa using h1, by simpa using h2, fun hc => h3 (by simpa using hc)⟩
      · next hf =>
        have hz := Order.fill_min_of_not_isFilled hf
        simp only [hf, Bool.false_eq_true, if_false, matchQueue_of_zero hz] at h ⊢
        cases j with
        | zero =>
          simp only [List.getElem?_cons_zero, Option.some.injEq] at h
          subst h
          refine ⟨r, List.getElem?_cons_zero, rfl, fun hc => ?_⟩
          simp only [List.length_singleton, lt_self_iff_false, false_or] at hc
          exact absurd hc hz
        | succ j => simp at h
    · simp at h

/-- Against orders that all have something left, every trade of the pass is positive. -/
theorem matchQueue_trades_pos :
    ∀ {o : Order} {rs : List Order} {m : List OrderId},
      (∀ r ∈ rs, 0 < r.remainingQuantity) →
      ∀ t ∈ (matchQueue symbol o rs m).trades, 0 < t.quantity
  | o, [], m, _, t, ht => by simp [matchQueue] at ht
  | o, r :: rs, m, hr, t, ht => by
    simp only [matchQueue] at ht
    split at ht
    · next ho =>
      have hpos : 0 < min o.remainingQuantity r.remainingQuantity := by
        have := hr r (List.mem_cons_self _ _)
        simp only [Quantity.lt_iff, UInt64.toNat_zero, Quantity.toNat_min] at ho this ⊢
        omega
      have hrs : ∀ r ∈ rs, 0 < r.remainingQuantity := fun r h => hr r (List.mem_cons_of_mem _ h)
      split at ht <;>
        rcases List.mem_cons.mp ht with rfl | ht
      · exact hpos
      · exact matchQueue_trades_pos hrs t ht
      · exact hpos
      · exact matchQueue_trades_pos hrs t ht
    · simp at ht

/-- Every trade of the pass is at the price of an order of the queue. -/
theorem matchQueue_trade_price :
    ∀ {o : Order} {rs : List Order} {m : List OrderId} {t : Trade},
      t ∈ (matchQueue symbol o rs m).trades → ∃ r ∈ rs, t.price = r.price
  | o, [], m, t, ht => by simp [matchQueue] at ht
  | o, r :: rs, m, t, ht => by
    simp only [matchQueue] at ht
    split at ht
    · have hrest : t ∈ (matchQueue symbol (o.fill (min o.remainingQuantity r.remainingQuantity))
          rs (m.erase r.orderId)).trades ∨
          t ∈ (matchQueue symbol (o.fill (min o.remainingQuantity r.remainingQuantity))
            rs m).trades → ∃ r' ∈ r :: rs, t.price = r'.price := by
        rintro (h | h) <;> obtain ⟨r', hr', h'⟩ := matchQueue_trade_price h <;>
          exact ⟨r', List.mem_cons_of_mem _ hr', h'⟩
      split at ht <;> rcases List.mem_cons.mp ht with rfl | ht
      · exact ⟨r, List.mem_cons_self _ _, rfl⟩
      · exact hrest (.inl ht)
      · exact ⟨r, List.mem_cons_self _ _, rfl⟩
      · exact hrest (.inr ht)
    · simp at ht

/-- The orders the pass leaves are, by id, a sublist of the queue. -/
theorem matchQueue_ids_sublist :
    ∀ (o : Order) (rs : List Order) (m : List OrderId),
      List.Sublist ((matchQueue symbol o rs m).orders.map (·.orderId)) (rs.map (·.orderId))
  | o, [], m => by simp [matchQueue]
  | o, r :: rs, m => by
    simp only [matchQueue]
    split
    · split
      · exact (matchQueue_ids_sublist _ rs _).cons _
      · simpa using matchQueue_ids_sublist _ rs _
    · exact List.Sublist.refl _

/-! ## The level pass -/

variable {levelSide : Side}

theorem executeMatches_of_zero {o : Order} (h : ¬ 0 < o.remainingQuantity) (ls : Levels)
    (m : List OrderId) : executeMatches levelSide symbol o ls m = ⟨o, ls, m, []⟩ := by
  rcases ls with _ | ⟨⟨p, l⟩, ls⟩ <;> simp [executeMatches, h]

/-- One level of the sweep, for a taker with something left that may trade at the level:
either the level's queue is drained and the sweep goes on, or the taker is used up there. -/
theorem executeMatches_cons {o : Order} {p : Price} {l : PriceLevel} {ls : Levels}
    {m : List OrderId} (ho : 0 < o.remainingQuantity) (hb : ¬ priceBreak levelSide o p) :
    executeMatches levelSide symbol o ((p, l) :: ls) m =
      if (matchQueue symbol o l.orders m).orders = [] then
        { executeMatches levelSide symbol (matchQueue symbol o l.orders m).taker ls
            (matchQueue symbol o l.orders m).orderMap with
          trades := (matchQueue symbol o l.orders m).trades ++
            (executeMatches levelSide symbol (matchQueue symbol o l.orders m).taker ls
              (matchQueue symbol o l.orders m).orderMap).trades }
      else ⟨(matchQueue symbol o l.orders m).taker,
        (p, { l with orders := (matchQueue symbol o l.orders m).orders }) :: ls,
        (matchQueue symbol o l.orders m).orderMap, (matchQueue symbol o l.orders m).trades⟩ := by
  simp only [executeMatches, ho, hb, if_true, if_false, List.isEmpty_iff]
  split
  · rfl
  · next hne =>
    have hz : ¬ 0 < (matchQueue symbol o l.orders m).taker.remainingQuantity :=
      fun h => hne (matchQueue_drained h).1
    simp [executeMatches_of_zero hz]

/-- Any field a fill leaves alone is the same on the taker after the sweep. -/
theorem executeMatches_taker {α : Type} (f : Order → α) (hf : ∀ o q, f (o.fill q) = f o) :
    ∀ (o : Order) (ls : Levels) (m : List OrderId),
      f (executeMatches levelSide symbol o ls m).taker = f o
  | o, [], m => rfl
  | o, (p, l) :: ls, m => by
    by_cases ho : 0 < o.remainingQuantity
    · by_cases hb : priceBreak levelSide o p
      · simp [executeMatches, ho, hb]
      · rw [executeMatches_cons ho hb]
        split
        · rw [executeMatches_taker f hf, matchQueue_taker f hf]
        · exact matchQueue_taker f hf _ _ _
    · rw [executeMatches_of_zero ho]

/-- A property of the taker that every fill keeps holds of the taker after the queue pass. -/
theorem matchQueue_taker_of (P : Order → Prop) (hP : ∀ o q, P o → P (o.fill q)) :
    ∀ {o : Order} {rs : List Order} {m : List OrderId}, P o → P (matchQueue symbol o rs m).taker
  | o, [], m, h => h
  | o, r :: rs, m, h => by
    simp only [matchQueue]
    split
    · split <;> exact matchQueue_taker_of P hP (hP _ _ h)
    · exact h

/-- A property of the taker that every fill keeps holds of the taker after the sweep. -/
theorem executeMatches_taker_of (P : Order → Prop) (hP : ∀ o q, P o → P (o.fill q)) :
    ∀ {o : Order} {ls : Levels} {m : List OrderId}, P o →
      P (executeMatches levelSide symbol o ls m).taker
  | o, [], m, h => h
  | o, (p, l) :: ls, m, h => by
    by_cases ho : 0 < o.remainingQuantity
    · by_cases hb : priceBreak levelSide o p
      · simpa [executeMatches, ho, hb] using h
      · rw [executeMatches_cons ho hb]
        have hq := @matchQueue_taker_of symbol P hP o l.orders m h
        split
        · exact executeMatches_taker_of P hP hq
        · exact hq
    · rwa [executeMatches_of_zero ho]

/-- The sweep only erases levels: the keys left are a sublist of the keys before. -/
theorem executeMatches_keys :
    ∀ (o : Order) (ls : Levels) (m : List OrderId),
      List.Sublist (Levels.keys (executeMatches levelSide symbol o ls m).levels) (Levels.keys ls)
  | o, [], m => List.Sublist.slnil
  | o, (p, l) :: ls, m => by
    by_cases ho : 0 < o.remainingQuantity
    · by_cases hb : priceBreak levelSide o p
      · simp [executeMatches, ho, hb]
      · rw [executeMatches_cons ho hb]
        split
        · exact (executeMatches_keys _ ls _).cons _
        · exact List.Sublist.refl _
    · rw [executeMatches_of_zero ho]

/-- A level left by the sweep is a level it found, with the same index and
`totalQuantity_`, and (by id) a sublist of its queue, never empty unless it was. -/
theorem mem_executeMatches_levels :
    ∀ {o : Order} {ls : Levels} {m : List OrderId} {e : Price × PriceLevel},
      e ∈ (executeMatches levelSide symbol o ls m).levels →
      ∃ l, (e.1, l) ∈ ls ∧ e.2.orderMap = l.orderMap ∧ e.2.totalQuantity = l.totalQuantity ∧
        List.Sublist (e.2.orders.map (·.orderId)) (l.orders.map (·.orderId)) ∧
        (e.2.orders = [] → l.orders = [])
  | o, [], m, e, h => by simp [executeMatches] at h
  | o, (p, l) :: ls, m, e, h => by
    have here : ∀ {e}, e ∈ (p, l) :: ls → ∃ l', (e.1, l') ∈ (p, l) :: ls ∧
        e.2.orderMap = l'.orderMap ∧ e.2.totalQuantity = l'.totalQuantity ∧
        List.Sublist (e.2.orders.map (·.orderId)) (l'.orders.map (·.orderId)) ∧
        (e.2.orders = [] → l'.orders = []) :=
      fun {e} he => ⟨e.2, he, rfl, rfl, List.Sublist.refl _, id⟩
    by_cases ho : 0 < o.remainingQuantity
    · by_cases hb : priceBreak levelSide o p
      · simp only [executeMatches, ho, hb, if_true] at h
        exact here h
      · rw [executeMatches_cons ho hb] at h
        split at h
        · obtain ⟨l', hl', h1⟩ := mem_executeMatches_levels h
          exact ⟨l', List.mem_cons_of_mem _ hl', h1⟩
        · next hne =>
          rcases List.mem_cons.mp h with rfl | h
          · exact ⟨l, List.mem_cons_self _ _, rfl, rfl, matchQueue_ids_sublist _ _ _,
              fun h' => absurd h' hne⟩
          · exact here (List.mem_cons_of_mem _ h)
    · rw [executeMatches_of_zero ho] at h
      exact here h

/-- With nothing consumed, `orderMap_` keeps every id. -/
theorem filter_not_mem_take_zero (m : List OrderId) (xs : List (Price × Order)) :
    m.filter (fun i => i ∉ (xs.take 0).map (·.2.orderId)) = m := by
  simp

/-- The sweep consumes a prefix of the side's entries (best price first, FIFO within a
level), unlinking exactly those ids from `orderMap_`, and at most partially fills the
entry after it. -/
theorem executeMatches_shape :
    ∀ {o : Order} {ls : Levels} {m : List OrderId}, m.Nodup →
      ∃ k, (executeMatches levelSide symbol o ls m).orderMap =
          m.filter (fun i => i ∉ ((Levels.entries ls).take k).map (·.2.orderId)) ∧
        (Levels.entries (executeMatches levelSide symbol o ls m).levels =
            (Levels.entries ls).drop k ∨
          ∃ x rest q, (Levels.entries ls).drop k = x :: rest ∧
            Levels.entries (executeMatches levelSide symbol o ls m).levels =
              (x.1, x.2.fill q) :: rest ∧
            (x.2.fill q).remainingQuantity ≠ 0)
  | o, [], m, _ => ⟨0, (filter_not_mem_take_zero m _).symm, .inl rfl⟩
  | o, (p, l) :: ls, m, hm => by
    by_cases ho : 0 < o.remainingQuantity
    · by_cases hb : priceBreak levelSide o p
      · simp only [executeMatches, ho, hb, if_true]
        exact ⟨0, (filter_not_mem_take_zero m _).symm, .inl rfl⟩
      · rw [executeMatches_cons ho hb]
        obtain ⟨k₁, h₁, h₂⟩ := @matchQueue_shape symbol o l.orders _ hm
        have hlen : (l.orders.map fun o => (p, o)).length = l.orders.length := List.length_map _ _
        split
        · next hnil =>
          -- the level is drained: all of it is in the consumed prefix
          have hk : l.orders.length ≤ k₁ := by
            rcases h₂ with h₂ | ⟨r, rest, q, -, h₂, -⟩
            · exact List.drop_eq_nil_iff.mp (h₂ ▸ hnil)
            · simp [hnil] at h₂
          obtain ⟨k₂, h₃, h₄⟩ := @executeMatches_shape
            (matchQueue symbol o l.orders m).taker ls _ (h₁ ▸ hm.filter _)
          refine ⟨l.orders.length + k₂, ?_, ?_⟩
          · rw [h₃, h₁, List.filter_filter, List.take_of_length_le hk, Levels.entries_cons,
              ← hlen, List.take_append]
            congr 1; funext i
            simp only [List.map_append, List.map_map, Function.comp_def, List.mem_append,
              List.map_take, not_or, Bool.decide_and]
            exact Bool.and_comm _ _
          · rw [Levels.entries_cons, ← hlen, List.drop_append]
            exact h₄
        · next hne =>
          have hk : k₁ ≤ l.orders.length := by
            rcases h₂ with h₂ | ⟨r, rest, q, h₂, -, -⟩
            · by_contra hk
              exact hne (h₂.trans (List.drop_of_length_le (by omega)))
            · by_contra hk
              simp [List.drop_of_length_le (Nat.le_of_not_le hk)] at h₂
          refine ⟨k₁, ?_, ?_⟩
          · rw [h₁, Levels.entries_cons, List.take_append_of_le_length (by simpa using hk)]
            simp [Function.comp_def]
          · simp only [Levels.entries_cons]
            rw [List.drop_append_of_le_length (by simpa using hk), ← List.map_drop]
            rcases h₂ with h₂ | ⟨r, rest, q, h₂, h₃, h₄⟩
            · exact .inl (by rw [h₂])
            · exact .inr ⟨(p, r), rest.map (p, ·) ++ Levels.entries ls, q, by simp [h₂],
                by simp [h₃], h₄⟩
    · rw [executeMatches_of_zero ho]
      exact ⟨0, (filter_not_mem_take_zero m _).symm, .inl rfl⟩

/-- A pass that stopped with the taker used up emits nothing further. -/
theorem executeMatches_trades_eq_nil_of_zero {o : Order} (h : ¬ 0 < o.remainingQuantity)
    (ls : Levels) (m : List OrderId) : (executeMatches levelSide symbol o ls m).trades = [] := by
  rw [executeMatches_of_zero h]

/-- The `j`-th trade of the sweep is against the `j`-th entry of the side, at its price,
and every trade but the last takes all that entry had left. -/
theorem executeMatches_trades :
    ∀ {o : Order} {ls : Levels} {m : List OrderId} {j : Nat} {t : Trade},
      (executeMatches levelSide symbol o ls m).trades[j]? = some t →
      ∃ x, (Levels.entries ls)[j]? = some x ∧ t = fillTrade symbol o x.2 t.quantity ∧
        (j + 1 < (executeMatches levelSide symbol o ls m).trades.length →
          t.quantity = x.2.remainingQuantity)
  | o, [], m, j, t, h => by simp [executeMatches] at h
  | o, (p, l) :: ls, m, j, t, h => by
    by_cases ho : 0 < o.remainingQuantity
    · by_cases hb : priceBreak levelSide o p
      · simp [executeMatches, ho, hb] at h
      · rw [executeMatches_cons ho hb] at h ⊢
        have hside := @matchQueue_taker symbol _ Order.side (fun _ _ => rfl) o l.orders m
        have hid := @matchQueue_taker symbol _ Order.orderId (fun _ _ => rfl) o l.orders m
        -- the trades of this level, read off the queue pass
        have hlevel : ∀ {t}, (matchQueue symbol o l.orders m).trades[j]? = some t →
            ∃ x, (Levels.entries ((p, l) :: ls))[j]? = some x ∧
              t = fillTrade symbol o x.2 t.quantity ∧
              (j + 1 < (matchQueue symbol o l.orders m).trades.length ∨
                0 < (matchQueue symbol o l.orders m).taker.remainingQuantity →
                t.quantity = x.2.remainingQuantity) := by
          intro t ht
          obtain ⟨r, hr, h1, h2⟩ := matchQueue_trades ht
          have hj := (List.getElem?_eq_some_iff.mp hr).1
          refine ⟨(p, r), ?_, h1, h2⟩
          rw [Levels.entries_cons, List.getElem?_append_left (by simpa using hj)]
          simp [hr]
        by_cases hnil : (matchQueue symbol o l.orders m).orders = []
        · rw [if_pos hnil] at h ⊢
          by_cases hj : j < (matchQueue symbol o l.orders m).trades.length
          · rw [List.getElem?_append_left hj] at h
            obtain ⟨x, h1, h2, h3⟩ := hlevel h
            refine ⟨x, h1, h2, fun hlt => h3 ?_⟩
            by_cases hpos : 0 < (matchQueue symbol o l.orders m).taker.remainingQuantity
            · exact .inr hpos
            · rw [executeMatches_trades_eq_nil_of_zero hpos] at hlt
              exact .inl (by simpa using hlt)
          · rw [List.getElem?_append_right (by omega)] at h
            have hpos : 0 < (matchQueue symbol o l.orders m).taker.remainingQuantity := by
              by_contra hz
              rw [executeMatches_trades_eq_nil_of_zero hz] at h
              simp at h
            have hlen := (matchQueue_drained hpos).2
            obtain ⟨x, h1, h2, h3⟩ := executeMatches_trades h
            refine ⟨x, ?_, h2.trans (fillTrade_congr _ _ _ hside hid), fun hlt => h3 ?_⟩
            · rw [Levels.entries_cons, List.getElem?_append_right (by simp; omega)]
              simpa [hlen] using h1
            · simp only [List.length_append] at hlt
              omega
        · rw [if_neg hnil] at h ⊢
          obtain ⟨x, h1, h2, h3⟩ := hlevel h
          exact ⟨x, h1, h2, fun hlt => h3 (.inl hlt)⟩
    · simp [executeMatches_of_zero ho] at h

/-- A taker with something left after the sweep has used every level its price allows:
each level still on the swept side is one the price check stops it at. -/
theorem executeMatches_residual :
    ∀ {o : Order} {ls : Levels} {m : List OrderId}, Levels.Sorted levelSide ls →
      0 < (executeMatches levelSide symbol o ls m).taker.remainingQuantity →
      ∀ e ∈ (executeMatches levelSide symbol o ls m).levels, priceBreak levelSide o e.1
  | o, [], m, _, _, e, he => by simp [executeMatches] at he
  | o, (p, l) :: ls, m, hs, hpos, e, he => by
    by_cases ho : 0 < o.remainingQuantity
    · by_cases hb : priceBreak levelSide o p
      · simp only [executeMatches, ho, hb, if_true] at he
        rcases List.mem_cons.mp he with rfl | he
        · exact hb
        · exact ⟨hb.1, hb.2.1, Side.better_trans hb.2.2
            (Levels.Sorted.head_better hs (Levels.mem_keys.mpr ⟨e.2, he⟩))⟩
      · rw [executeMatches_cons ho hb] at hpos he
        by_cases hnil : (matchQueue symbol o l.orders m).orders = []
        · rw [if_pos hnil] at hpos he
          have h := executeMatches_residual (Levels.sorted_cons.mp hs).2 hpos e he
          have ht := @matchQueue_taker symbol _ (fun o => (o.type, o.side, o.price))
            (fun _ _ => rfl) o l.orders m
          simp only [Prod.mk.injEq] at ht
          simpa [priceBreak, ht] using h
        · rw [if_neg hnil] at hpos
          exact absurd (matchQueue_drained hpos).1 hnil
    · rw [executeMatches_of_zero ho] at hpos
      exact absurd hpos ho

/-- Against a side whose entries all have something left, every trade is positive. -/
theorem executeMatches_trades_pos :
    ∀ {o : Order} {ls : Levels} {m : List OrderId},
      (∀ x ∈ Levels.entries ls, 0 < x.2.remainingQuantity) →
      ∀ t ∈ (executeMatches levelSide symbol o ls m).trades, 0 < t.quantity
  | o, [], m, _, t, ht => by simp [executeMatches] at ht
  | o, (p, l) :: ls, m, hpos, t, ht => by
    have hl : ∀ r ∈ l.orders, 0 < r.remainingQuantity :=
      fun r hr => hpos (p, r) (by simp [hr])
    have hls : ∀ x ∈ Levels.entries ls, 0 < x.2.remainingQuantity :=
      fun x hx => hpos x (by simp [hx])
    by_cases ho : 0 < o.remainingQuantity
    · by_cases hb : priceBreak levelSide o p
      · simp [executeMatches, ho, hb] at ht
      · rw [executeMatches_cons ho hb] at ht
        split at ht
        · rcases List.mem_append.mp ht with ht | ht
          · exact matchQueue_trades_pos hl t ht
          · exact executeMatches_trades_pos hls t ht
        · exact matchQueue_trades_pos hl t ht
    · simp [executeMatches_of_zero ho] at ht

/-- The ids of the swept side lose a prefix, and `orderMap_` loses exactly those ids. -/
theorem executeMatches_ids {o : Order} {ls : Levels} {m : List OrderId} (hm : m.Nodup) :
    ∃ k, (executeMatches levelSide symbol o ls m).orderMap =
        m.filter (fun i => i ∉ ((Levels.entries ls).map (·.2.orderId)).take k) ∧
      (Levels.entries (executeMatches levelSide symbol o ls m).levels).map (·.2.orderId) =
        ((Levels.entries ls).map (·.2.orderId)).drop k := by
  obtain ⟨k, h1, h2⟩ := @executeMatches_shape symbol levelSide o ls _ hm
  refine ⟨k, by rw [h1, List.map_take], ?_⟩
  rcases h2 with h2 | ⟨x, rest, q, h3, h4, -⟩
  · rw [h2, List.map_drop]
  · rw [h4, ← List.map_drop, h3]
    rfl

/-- An entry left by the sweep was on the side before, at the same key, untouched or
partially filled. -/
theorem mem_executeMatches_entries {o : Order} {ls : Levels} {m : List OrderId} (hm : m.Nodup)
    {x' : Price × Order} (hx : x' ∈ Levels.entries (executeMatches levelSide symbol o ls m).levels) :
    ∃ x ∈ Levels.entries ls, x'.1 = x.1 ∧
      (x'.2 = x.2 ∨ ∃ q, x'.2 = x.2.fill q ∧ (x.2.fill q).remainingQuantity ≠ 0) := by
  obtain ⟨k, -, h2⟩ := @executeMatches_shape symbol levelSide o ls _ hm
  rcases h2 with h2 | ⟨x, rest, q, h3, h4, h5⟩
  · rw [h2] at hx
    exact ⟨x', List.mem_of_mem_drop hx, rfl, .inl rfl⟩
  · rw [h4] at hx
    have hrest : ∀ y ∈ rest, y ∈ Levels.entries ls := fun y hy =>
      List.mem_of_mem_drop (h3 ▸ List.mem_cons_of_mem _ hy)
    rcases List.mem_cons.mp hx with rfl | hx
    · exact ⟨x, List.mem_of_mem_drop (h3 ▸ List.mem_cons_self _ _), rfl, .inr ⟨q, rfl, h5⟩⟩
    · exact ⟨x', hrest x' hx, rfl, .inl rfl⟩

end OrderBook

end MatchingEngine
