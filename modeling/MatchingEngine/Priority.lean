import MatchingEngine.BookInv

/-!
# Price-time priority — the queue order of every level

The C++ keeps no timestamp in the matching path: time priority is only the order of a level's
`std::list`. To say what that order means we carry a ghost list `post` of ids, oldest posting
first (a submission appends the new id; a `modifyOrder` that finds its order moves the id to
the end). `Queued post b` says every level of `b` lists its orders in the order of `post`.
Each operation keeps it (`Queued.addOrder`, `Queued.sweep`, `Queued.cancelOrder`,
`Queued.modifyOrder`, `Queued.matchOrder`), with `post` growing as the engine posts.

From it, `before_of_priority`: on a well-formed side, an order with a better price, or the same
price and an earlier posting, comes earlier in `entries`, the order the sweep consumes in.
`sweep_priority` then reads the priority rule off `executeMatches_trades`: every such order is
used up by an earlier trade of the same sweep.
-/

namespace MatchingEngine

open scoped List

/-! ## Two entries of a list -/

/-- In a list without duplicates two elements come in one order only. -/
theorem pair_sublist_asymm {α : Type} {a b : α} :
    ∀ {l : List α}, l.Nodup → [a, b] <+ l → ¬ [b, a] <+ l
  | [], _, h, _ => by simp at h
  | c :: l, hl, h, h' => by
    have hc := List.nodup_cons.mp hl
    rcases List.sublist_cons_iff.mp h with h₁ | ⟨r, hr, hs⟩ <;>
      rcases List.sublist_cons_iff.mp h' with h₂ | ⟨r', hr', hs'⟩
    · exact pair_sublist_asymm hc.2 h₁ h₂
    · obtain ⟨rfl, -⟩ := List.cons.inj hr'
      exact hc.1 (h₁.subset (by simp : b ∈ [a, b]))
    · obtain ⟨rfl, -⟩ := List.cons.inj hr
      exact hc.1 (h₂.subset (by simp : a ∈ [b, a]))
    · obtain ⟨rfl, rfl⟩ := List.cons.inj hr
      obtain ⟨rfl, -⟩ := List.cons.inj hr'
      exact hc.1 (by simpa using hs)

/-- Two members of a list are equal or come in some order. -/
theorem pair_sublist_total {α : Type} {a b : α} :
    ∀ {l : List α}, a ∈ l → b ∈ l → a = b ∨ [a, b] <+ l ∨ [b, a] <+ l
  | [], ha, _ => by simp at ha
  | c :: l, ha, hb => by
    rcases List.mem_cons.mp ha with rfl | ha' <;> rcases List.mem_cons.mp hb with rfl | hb'
    · exact .inl rfl
    · exact .inr (.inl (List.cons_sublist_cons.mpr (List.singleton_sublist.mpr hb')))
    · exact .inr (.inr (List.cons_sublist_cons.mpr (List.singleton_sublist.mpr ha')))
    · rcases pair_sublist_total ha' hb' with h | h | h
      · exact .inl h
      · exact .inr (.inl (h.cons _))
      · exact .inr (.inr (h.cons _))

/-- The order of two members of `l` can be read off any duplicate-free list that lists their
images in the order of `l`. -/
theorem pair_sublist_of_map {α β : Type} {f : α → β} {l : List α} {post : List β}
    (hl : List.Sublist (l.map f) post) (hp : post.Nodup) {a b : α} (ha : a ∈ l) (hb : b ∈ l)
    (h : [f a, f b] <+ post) : [a, b] <+ l := by
  rcases pair_sublist_total ha hb with rfl | h' | h'
  · exact absurd h (List.nodup_iff_sublist.mp hp (f a))
  · exact h'
  · exact absurd ((h'.map f).trans hl) (pair_sublist_asymm hp h)

/-- A pair in order sits at two indices in order. -/
theorem exists_getElem?_of_pair_sublist {α : Type} {a b : α} :
    ∀ {l : List α}, [a, b] <+ l → ∃ i j : Nat, i < j ∧ l[i]? = some a ∧ l[j]? = some b
  | [], h => by simp at h
  | c :: l, h => by
    rcases List.sublist_cons_iff.mp h with h | ⟨r, hr, hs⟩
    · obtain ⟨i, j, hij, hi, hj⟩ := exists_getElem?_of_pair_sublist h
      exact ⟨i + 1, j + 1, by omega, by simpa using hi, by simpa using hj⟩
    · obtain ⟨rfl, rfl⟩ := List.cons.inj hr
      obtain ⟨j, hj⟩ := List.getElem?_of_mem (List.singleton_sublist.mp hs)
      exact ⟨0, j + 1, by omega, List.getElem?_cons_zero, by simpa using hj⟩

/-! ## The queue order invariant -/

namespace OrderBook

open Levels (ids)

/-- Every level of the book queues its orders in the order of `post`. -/
def Queued (post : List OrderId) (b : OrderBook) : Prop :=
  ∀ s, ∀ e ∈ b.levels s, List.Sublist (e.2.orders.map (·.orderId)) post

variable {post : List OrderId} {b : OrderBook}

theorem Queued.mono (h : Queued post b) {post' : List OrderId} (hp : post <+ post') :
    Queued post' b :=
  fun s e he => (h s e he).trans hp

theorem Queued.empty (post : List OrderId) (symbol : Symbol) : Queued post (empty symbol) := by
  simp [Queued]

/-- Appending an order to its level keeps the queues in posting order once its id is posted
last. -/
theorem Queued.addOrder (h : Queued post b) (o : Order) :
    Queued (post ++ [o.orderId]) (b.addOrder o) := by
  intro s e he
  by_cases hs : s = o.side
  · subst hs
    simp only [OrderBook.addOrder, levels_mk, levels_setLevels] at he
    rcases Levels.mem_update he with he | ⟨-, he | ⟨l, hl, he⟩⟩
    · exact (h _ e he).trans (List.sublist_append_left _ _)
    · simp [he, PriceLevel.addOrder, PriceLevel.empty]
    · simpa [he] using (h _ _ hl).append_right [o.orderId]
  · simp only [OrderBook.addOrder, levels_mk, levels_setLevels_of_ne _ hs] at he
    exact (h s e he).trans (List.sublist_append_left _ _)

/-- The sweep only drops orders from the front of queues and fills them in place. -/
theorem Queued.sweep (h : Queued post b) (o : Order) : Queued post (b.sweep o).1 := by
  intro s e he
  by_cases hs : s = o.side.opposite
  · subst hs
    simp only [OrderBook.sweep, levels_mk, levels_setLevels] at he
    obtain ⟨l, hl, -, -, hsub, -⟩ := mem_executeMatches_levels he
    exact hsub.trans (h _ _ hl)
  · simp only [OrderBook.sweep, levels_mk, levels_setLevels_of_ne _ hs] at he
    exact h s e he

/-- Unlinking from a level leaves a sublist of its queue. -/
theorem removeOrder_ids_sublist (l : PriceLevel) (i : OrderId) :
    List.Sublist ((l.removeOrder i).orders.map (·.orderId)) (l.orders.map (·.orderId)) := by
  rcases PriceLevel.removeOrder_orders l i with h | h <;> rw [h]
  exact (List.eraseP_sublist _).map _

theorem Queued.removeOrder {s : Side} {p : Price} {i : OrderId}
    (h : ∀ e ∈ b.levels s, List.Sublist (e.2.orders.map (·.orderId)) post) :
    ∀ e ∈ (b.levels s).removeOrder p i, List.Sublist (e.2.orders.map (·.orderId)) post := by
  intro e he
  rcases Levels.mem_removeOrder he with he | ⟨-, l, hl, he, -⟩
  · exact h e he
  · rw [he]
    exact (removeOrder_ids_sublist l i).trans (h _ hl)

theorem Queued.cancelOrder (hv : b.Valid) (h : Queued post b) (i : OrderId) :
    Queued post (b.cancelOrder i).1 := by
  by_cases hi : i ∈ b.orderMap
  · obtain ⟨o, hf, rfl, -⟩ := hv.findResting hi
    rw [cancelOrder_of_findResting hi hf]
    intro s e he
    by_cases hs : s = o.side
    · subst hs
      simp only [levels_mk, levels_setLevels] at he
      exact Queued.removeOrder (h _) e he
    · simp only [levels_mk, levels_setLevels_of_ne _ hs] at he
      exact h s e he
  · rwa [cancelOrder_of_not_mem hi]

/-- A queue without `i` that follows `post` follows `post` with `i` moved to the end. -/
theorem sublist_erase_append {L : List OrderId} {i : OrderId} (h : L <+ post) (hi : i ∉ L) :
    L <+ post.erase i ++ [i] :=
  (List.erase_of_not_mem hi ▸ h.erase i).trans (List.sublist_append_left _ _)

/-- `modifyOrder` moves the order to the back of its new level: the queues follow `post` with
the id moved to the end. -/
theorem Queued.modifyOrder (hv : b.Valid) (h : Queued post b) (i : OrderId) (p : Price)
    (q : Quantity) : Queued (post.erase i ++ [i]) (b.modifyOrder i p q).1 := by
  by_cases hi : i ∈ b.orderMap
  · obtain ⟨o, hf, rfl, -⟩ := hv.findResting hi
    have hout := hv.not_mem_unlinked hi hf
    rw [modifyOrder_of_findResting hi hf]
    intro s e he
    by_cases hs : s = o.side
    · subst hs
      simp only [levels_mk, levels_setLevels] at he
      rcases Levels.mem_update he with he | ⟨-, he | ⟨l, hl, he⟩⟩
      · exact sublist_erase_append (Queued.removeOrder (h _) e he)
          (hout o.side e (by simpa using he))
      · simp [he, PriceLevel.addOrder, PriceLevel.empty]
      · rw [he]
        simpa using (List.erase_of_not_mem (hout o.side _ (by simpa using hl)) ▸
          (Queued.removeOrder (h _) _ hl).erase o.orderId)
    · simp only [levels_mk, levels_setLevels_of_ne _ hs] at he
      exact sublist_erase_append (h s e he)
        (hout s e (by simpa [levels_setLevels_of_ne _ hs] using he))
  · rw [modifyOrder_of_not_mem hi]
    intro s e he
    have hnot : i ∉ e.2.orders.map (·.orderId) := fun hm =>
      hi ((hv.mem_orderMap i).mpr ((restingIds_perm b s).mem_iff.mpr
        (List.mem_append_left _ ((Levels.level_ids_sublist (Prod.mk.eta (p := e) ▸ he)).subset
          hm))))
    exact sublist_erase_append (h s e he) hnot

/-- Matching a taker whose id is posted last keeps the queues in posting order. -/
theorem Queued.matchOrder (h : Queued post b) (o : Order) :
    Queued (post ++ [o.orderId]) (b.matchOrder o).book := by
  have hs := (h.sweep o).mono (List.sublist_append_left post [o.orderId])
  rcases matchOrder_cases b o with ⟨he, -⟩ | ⟨he, -⟩ | ⟨he, -⟩ <;> rw [he]
  · exact h.mono (List.sublist_append_left _ _)
  · exact hs
  · simpa [sweep_taker Order.orderId (fun _ _ => rfl) b o] using (h.sweep o).addOrder
      (b.sweep o).2.1

/-! ## Priority of the sweep -/

/-- The orders resting on side `s`, best price first, oldest first within a level. -/
def resting (b : OrderBook) (s : Side) : List Order := (Levels.entries (b.levels s)).map (·.2)

/-- On side `s`, `x` has priority over `y`: a better price, or the same price and an earlier
last posting in `post`. -/
def Priority (s : Side) (post : List OrderId) (x y : Order) : Prop :=
  s.better x.price y.price ∨ (x.price = y.price ∧ [x.orderId, y.orderId] <+ post)

/-- On a sorted side whose entries sit at their prices and whose queues follow `post`, an
order with priority over another comes earlier in `entries`. -/
theorem before_of_priority {s : Side} {post : List OrderId} (hp : post.Nodup) :
    ∀ {ls : Levels}, ls.Sorted s → (∀ x ∈ Levels.entries ls, x.2.price = x.1) →
      (∀ e ∈ ls, List.Sublist (e.2.orders.map (·.orderId)) post) →
      ∀ {x y : Price × Order}, x ∈ Levels.entries ls → y ∈ Levels.entries ls →
        Priority s post x.2 y.2 → [x, y] <+ Levels.entries ls
  | [], _, _, _, x, _, hx, _, _ => by simp at hx
  | (p, l) :: ls, hs, hplace, hq, x, y, hx, hy, h => by
    have hs' := Levels.sorted_cons.mp hs
    have hx' := hplace x hx
    have hy' := hplace y hy
    rw [Levels.entries_cons, List.mem_append] at hx hy
    rw [Levels.entries_cons]
    rcases hx with hx | hx <;> rcases hy with hy | hy
    · -- both in this level: same price, so the queue order decides
      obtain ⟨ox, hox, rfl⟩ := List.mem_map.mp hx
      obtain ⟨oy, hoy, rfl⟩ := List.mem_map.mp hy
      rcases h with h | ⟨-, h⟩
      · rw [hx', hy'] at h
        exact absurd h (s.better_irrefl p)
      · exact List.sublist_append_of_sublist_left
          ((pair_sublist_of_map (hq _ (List.mem_cons_self _ _)) hp hox hoy h).map _)
    · exact (List.singleton_sublist.mpr hx).append (List.singleton_sublist.mpr hy)
    · -- `x` is at a worse level than `y`: no priority
      obtain ⟨oy, -, rfl⟩ := List.mem_map.mp hy
      have hb := hs'.1 _ (Levels.key_mem_keys hx)
      rcases h with h | ⟨h, -⟩
      · rw [hx', hy'] at h
        exact absurd hb (Side.better_asymm h)
      · rw [hx', hy'] at h
        exact absurd (h ▸ hb) (s.better_irrefl _)
    · exact List.sublist_append_of_sublist_right (before_of_priority hp hs'.2
        (fun x hx => hplace x (by simp [hx])) (fun e he => hq e (List.mem_cons_of_mem _ he))
        hx hy h)

/-- Price-time priority of one sweep: when its `j`-th trade is against the resting order `x`,
every order of the swept side with priority over `x` was used up by an earlier trade. -/
theorem Valid.sweep_priority {b : OrderBook} (hv : b.Valid) {post : List OrderId}
    (hq : b.Queued post) (hp : post.Nodup) (o : Order) {j : Nat} {t : Trade}
    (ht : (b.sweep o).2.2[j]? = some t) {x x' : Price × Order}
    (hx : x ∈ Levels.entries (b.levels o.side.opposite)) (hxt : t.counterparty o.side = x.2.orderId)
    (hx' : x' ∈ Levels.entries (b.levels o.side.opposite))
    (hpr : Priority o.side.opposite post x'.2 x.2) :
    ∃ i < j, ∃ t', (b.sweep o).2.2[i]? = some t' ∧ t'.counterparty o.side = x'.2.orderId ∧
      t'.quantity = x'.2.remainingQuantity := by
  have hw := hv.wf o.side.opposite
  have hn : (Levels.entries (b.levels o.side.opposite)).Nodup := hw.nodup.of_map _
  have htr : (b.sweep o).2.2 = (executeMatches o.side.opposite b.symbol o
      (b.levels o.side.opposite) b.orderMap).trades := rfl
  rw [htr] at ht ⊢
  obtain ⟨y, hy, hty, -⟩ := executeMatches_trades ht
  -- the `j`-th entry is `x` itself: ids do not repeat
  have hyx : y = x := List.inj_on_of_nodup_map hw.nodup (List.getElem?_mem hy) hx
    (by rw [hty, counterparty_fillTrade] at hxt; exact hxt)
  subst hyx
  obtain ⟨i, j', hij, hi, hj⟩ := exists_getElem?_of_pair_sublist (before_of_priority hp hw.sorted
    (fun z hz => ((hw.placed z hz).2)) (hq _) hx' hx hpr)
  have hjj : j' = j := List.getElem?_inj (List.getElem?_eq_some_iff.mp hj).1 hn (hj.trans hy.symm)
  subst hjj
  have hlen : i < (executeMatches o.side.opposite b.symbol o (b.levels o.side.opposite)
      b.orderMap).trades.length := by
    have := (List.getElem?_eq_some_iff.mp ht).1
    omega
  obtain ⟨z, hz, h1, h2⟩ := executeMatches_trades (List.getElem?_eq_getElem hlen)
  have hzx : z = x' := Option.some.inj (hz.symm.trans hi)
  subst hzx
  refine ⟨i, hij, _, List.getElem?_eq_getElem hlen, ?_,
    h2 (by have := (List.getElem?_eq_some_iff.mp ht).1; omega)⟩
  rw [h1, counterparty_fillTrade]

end OrderBook

end MatchingEngine
