import MatchingEngine.EngineInv
import MatchingEngine.Priority

/-!
# Price-time priority across engine runs

Along a run the engine posts ids: a submission posts its new id, a `modifyOrder` that finds
its order re-posts it. `postings` replays a run and keeps the ids by last posting, oldest
first. `PostInv` says every level of every book queues its orders in that order; it holds
from the start and every call keeps it (`PostInv.step`, `PostInv.run`), with
`Queued.matchOrder`, `Queued.cancelOrder` and `Queued.modifyOrder` doing the work in the
book that changes. `submitOrder_price_time_priority` then applies `Valid.sweep_priority` to
the book a submission matches into.
-/

namespace MatchingEngine

namespace MatchingEngineCore

open OrderBook

variable {e : MatchingEngineCore} {post : List OrderId}

/-- How a call changes the posting order: a submission posts its new id last, and a modify
that finds its order re-posts the id last. -/
def postStep (e : MatchingEngineCore) (post : List OrderId) : Request → List OrderId
  | .submitOrder .. => post ++ [e.nextOrderId]
  | .cancelOrder _ => post
  | .modifyOrder i p q => if (e.modifyOrder i p q).2 then post.erase i ++ [i] else post

/-- The posting order after a run from `e`, starting from `post`. -/
def postings : MatchingEngineCore → List OrderId → List Request → List OrderId
  | _, post, [] => post
  | e, post, r :: rs => postings (e.step r) (postStep e post r) rs

/-- The ids by last posting, oldest first, along a run from the start. -/
def lastPostings (rs : List Request) : List OrderId := postings init [] rs

/-- Every level of every book queues its orders by last posting; ids are posted once each,
and only ids already handed out. -/
structure PostInv (e : MatchingEngineCore) (post : List OrderId) : Prop where
  queued : ∀ s b, e.orderBooks s = some b → b.Queued post
  nodup : post.Nodup
  lt : ∀ i ∈ post, i < e.nextOrderId

theorem PostInv.bookFor (h : PostInv e post) (s : Symbol) : (e.bookFor s).Queued post := by
  unfold MatchingEngineCore.bookFor
  cases hb : e.orderBooks s with
  | none => exact Queued.empty post s
  | some b => exact h.queued s b hb

theorem PostInv.submitOrder (h : PostInv e post) (symbol : Symbol) (side : Side)
    (type : OrderType) (price : Price) (quantity : Quantity) (stopPrice : Price) :
    PostInv (e.submitOrder symbol side type price quantity stopPrice).1 (post ++ [e.nextOrderId]) := by
  refine ⟨fun s b' hb' => ?_, List.nodup_append.mpr ⟨h.nodup, List.nodup_singleton _, ?_⟩,
    fun i hi' => ?_⟩
  · rcases submitOrder_orderBooks hb' with ⟨-, rfl⟩ | ⟨-, hb⟩
    · exact (h.bookFor symbol).matchOrder _
    · exact (h.queued s b' hb).mono (List.sublist_append_left _ _)
  · exact List.disjoint_singleton.mpr fun hm => Nat.lt_irrefl _ (h.lt _ hm)
  · rw [submitOrder_nextOrderId]
    rcases List.mem_append.mp hi' with hi' | hi'
    · exact Nat.lt_succ_of_lt (h.lt i hi')
    · rw [List.mem_singleton.mp hi']
      exact Nat.lt_succ_self _

theorem PostInv.cancelOrder (hi : e.Inv) (h : PostInv e post) (i : OrderId) :
    PostInv (e.cancelOrder i).1 post := by
  refine ⟨fun s b' hb' => ?_, h.nodup, by simpa using h.lt⟩
  rcases cancelOrder_orderBooks hb' with hb | ⟨b, hb, rfl⟩
  · exact h.queued s b' hb
  · exact (h.queued s b hb).cancelOrder (hi s b hb).valid i

theorem PostInv.modifyOrder (hi : e.Inv) (h : PostInv e post) (i : OrderId) (p : Price)
    (q : Quantity) :
    PostInv (e.modifyOrder i p q).1
      (if (e.modifyOrder i p q).2 then post.erase i ++ [i] else post) := by
  by_cases hr : ∃ s b, e.orderToSymbol i = some s ∧ e.orderBooks s = some b
  · obtain ⟨s₀, b, hs, hb⟩ := hr
    have hv := (hi s₀ b hb).valid
    rw [modifyOrder_of_route hs hb, modifyOrder_snd]
    by_cases hm : i ∈ b.orderMap
    · rw [decide_eq_true hm, if_pos rfl]
      obtain ⟨x, hx, rfl⟩ := List.mem_map.mp ((hv.mem_orderMap _).mp hm)
      refine ⟨fun s b' hb' => ?_, ?_, fun j hj => ?_⟩
      · dsimp only at hb'
        by_cases hss : s = s₀
        · subst hss
          obtain rfl : (b.modifyOrder x.2.orderId p q).1 = b' := by simpa using hb'
          exact (h.queued s b hb).modifyOrder hv _ p q
        · -- `i` rests in `b` only, so every other queue follows `post` with `i` moved last
          rw [Function.update_noteq hss] at hb'
          exact fun t l hl => sublist_erase_append (h.queued s b' hb' t l hl)
            (hi.not_mem_level hs hss hb' hl)
      · exact List.nodup_append.mpr ⟨h.nodup.erase _, List.nodup_singleton _,
          List.disjoint_singleton.mpr (h.nodup.not_mem_erase)⟩
      · rcases List.mem_append.mp hj with hj | hj
        · exact h.lt j (List.mem_of_mem_erase hj)
        · rw [List.mem_singleton.mp hj]
          exact (hi s₀ b hb).fresh x hx
    · rw [decide_eq_false hm, if_neg Bool.false_ne_true, modifyOrder_of_not_mem hm]
      refine ⟨fun s b' hb' => ?_, h.nodup, h.lt⟩
      dsimp only at hb'
      rw [← hb, Function.update_eq_self] at hb'
      exact h.queued s b' hb'
  · rw [modifyOrder_of_no_route (no_route hr)]
    exact h

theorem PostInv.step (hi : e.Inv) (h : PostInv e post) :
    ∀ r, PostInv (e.step r) (postStep e post r)
  | .submitOrder symbol side type price quantity stopPrice =>
    h.submitOrder symbol side type price quantity stopPrice
  | .cancelOrder i => h.cancelOrder hi i
  | .modifyOrder i p q => h.modifyOrder hi i p q

theorem PostInv.run : ∀ {e : MatchingEngineCore} {post : List OrderId}, e.Inv → PostInv e post →
    ∀ rs, PostInv (e.run rs) (postings e post rs)
  | _, _, _, h, [] => h
  | _, _, hi, h, r :: rs => PostInv.run (hi.step r) (h.step hi r) rs

/-- Price-time priority over every run: in a submission after any run, when the `j`-th trade
is against the resting order `r`, every order resting on `r`'s side of that book with a better
price, or the same price and an earlier last posting, was used up by an earlier trade. -/
theorem submitOrder_price_time_priority (rs : List Request) (symbol : Symbol) (side : Side)
    (type : OrderType) (price : Price) (quantity : Quantity) (stopPrice : Price) {j : Nat}
    {t : Trade}
    (ht : ((init.run rs).submitOrder symbol side type price quantity stopPrice).2.trades[j]? =
      some t)
    {r r' : Order} (hr : r ∈ ((init.run rs).bookFor symbol).resting side.opposite)
    (hrt : t.counterparty side = r.orderId)
    (hr' : r' ∈ ((init.run rs).bookFor symbol).resting side.opposite)
    (hpr : Priority side.opposite (lastPostings rs) r' r) :
    ∃ i < j, ∃ t', ((init.run rs).submitOrder symbol side type price quantity
        stopPrice).2.trades[i]? = some t' ∧
      t'.counterparty side = r'.orderId ∧ t'.quantity = r'.remainingQuantity := by
  have hi := inv_init.run rs
  have hp := PostInv.run inv_init ⟨fun _ _ h => by simp [init] at h, List.nodup_nil, by simp⟩ rs
  have hv := (hi.bookFor symbol).valid
  rw [submitOrder_eq] at ht ⊢
  dsimp only at ht ⊢
  obtain ⟨x, hx, rfl⟩ := List.mem_map.mp hr
  obtain ⟨x', hx', rfl⟩ := List.mem_map.mp hr'
  rcases matchOrder_cases ((init.run rs).bookFor symbol)
      (Order.new (init.run rs).nextOrderId symbol side type price quantity stopPrice) with
    ⟨-, h, -⟩ | ⟨-, h, -⟩ | ⟨-, h, -⟩ <;> rw [h] at ht ⊢
  · simp at ht
  all_goals exact hv.sweep_priority (hp.bookFor symbol) hp.nodup _ ht hx hrt hx' hpr

/-- Two sells of 5 at 100, then a buy of 10 at 100: its second trade is against order 2, so
order 1, posted before it at the same price, was used up by the first trade. -/
theorem submitOrder_priority_two_sells :
    ∃ i < 1, ∃ t', ((init.run [.submitOrder "AAA" .sell .limit 100 5 0,
        .submitOrder "AAA" .sell .limit 100 5 0]).submitOrder "AAA" .buy .limit 100 10 0).2.trades[i]? =
        some t' ∧ t'.counterparty .buy = 1 ∧ t'.quantity = 5 :=
  @submitOrder_price_time_priority _ "AAA" .buy .limit 100 10 0 1 ⟨3, 2, "AAA", 100, 5⟩
    (by decide) ⟨2, "AAA", .sell, .limit, 100, 5, 5, 0, .pending⟩
    ⟨1, "AAA", .sell, .limit, 100, 5, 5, 0, .pending⟩ (by decide) rfl (by decide)
    (.inr ⟨rfl, by decide⟩)

end MatchingEngineCore

end MatchingEngine
