import MatchingEngine.BookFrame

/-!
# No crossed book — `matchLimitOrder` rests only what cannot trade

`NoCross b`: every bid key is below every ask key. Cancels only delete keys, and a sweep only
erases levels of the side it sweeps; the one operation that adds a key and can cross is the
resting of a residual in `matchLimitOrder`. There `executeMatches_residual` applies: a taker
with something left has exhausted every level its price allows, and whatever is left of the
other side is beyond its price (`sweep_residual`). A stop order sweeps with no price check at
all, so it rests only into an empty other side.

`modifyOrder` re-posts without matching and can cross the book; it is not covered.
-/

namespace MatchingEngine

namespace OrderBook

open Levels (keys)

variable {b : OrderBook}

/-- No bid key reaches an ask key. -/
def NoCross (b : OrderBook) : Prop :=
  ∀ p ∈ keys b.bids, ∀ q ∈ keys b.asks, p < q

/-- The book is uncrossed when one side's keys are all better, for the other side's
comparator, than that other side's keys. -/
theorem NoCross.of_side {s : Side}
    (h : ∀ p ∈ keys (b.levels s), ∀ q ∈ keys (b.levels s.opposite), s.opposite.better p q) :
    b.NoCross := by
  intro p hp q hq
  cases s
  · exact h p hp q hq
  · exact h q hq p hp

theorem NoCross.side (h : b.NoCross) (s : Side) :
    ∀ p ∈ keys (b.levels s), ∀ q ∈ keys (b.levels s.opposite), s.opposite.better p q := by
  intro p hp q hq
  cases s
  · exact h p hp q hq
  · exact h q hq p hp

/-- Deleting keys keeps the book uncrossed. -/
theorem NoCross.of_keys {b' : OrderBook} (h : b.NoCross)
    (hk : ∀ s, ∀ q ∈ keys (b'.levels s), q ∈ keys (b.levels s)) : b'.NoCross :=
  fun p hp q hq => h p (hk .buy p hp) q (hk .sell q hq)

theorem keys_sweep (o : Order) (s : Side) : ∀ q ∈ keys ((b.sweep o).1.levels s),
    q ∈ keys (b.levels s) := by
  intro q hq
  by_cases hs : s = o.side.opposite
  · subst hs
    simp only [OrderBook.sweep, levels_mk, levels_setLevels] at hq
    exact (executeMatches_keys o _ _).subset hq
  · simpa [OrderBook.sweep, levels_setLevels_of_ne _ hs] using hq

theorem keys_addOrder (o : Order) {s : Side} {q : Price} (hq : q ∈ keys ((b.addOrder o).levels s)) :
    (s = o.side ∧ q = o.price) ∨ q ∈ keys (b.levels s) := by
  by_cases hs : s = o.side
  · subst hs
    simp only [OrderBook.addOrder, levels_mk, levels_setLevels] at hq
    exact (Levels.keys_update_subset hq).imp_left fun h => ⟨rfl, h⟩
  · simp only [OrderBook.addOrder, levels_mk, levels_setLevels_of_ne _ hs] at hq
    exact .inr hq

/-- What is left of the swept side, when the taker is not used up, is beyond its price. -/
theorem Valid.sweep_residual (hv : b.Valid) (o : Order)
    (hpos : 0 < (b.sweep o).2.1.remainingQuantity) :
    ∀ q ∈ keys ((b.sweep o).1.levels o.side.opposite), priceBreak o.side.opposite o q := by
  intro q hq
  simp only [OrderBook.sweep, levels_mk, levels_setLevels] at hq
  obtain ⟨l, hl⟩ := Levels.mem_keys.mp hq
  exact executeMatches_residual (hv.wf _).sorted hpos (q, l) hl

theorem NoCross.sweep (h : b.NoCross) (o : Order) : (b.sweep o).1.NoCross :=
  h.of_keys (keys_sweep o)

theorem NoCross.cancelOrder (hv : b.Valid) (h : b.NoCross) (i : OrderId) :
    (b.cancelOrder i).1.NoCross := by
  refine h.of_keys fun s q hq => ?_
  obtain ⟨l, hl⟩ := Levels.mem_keys.mp hq
  obtain ⟨x, hx⟩ := List.exists_mem_of_ne_nil _ ((Levels.WF.nonempty ((hv.cancelOrder i).1.wf s)) _ hl)
  have := ((hv.mem_cancelOrder_entries i).mp
    ((Levels.mem_entries (x := (q, x))).mpr ⟨l, hl, hx⟩)).1
  exact Levels.key_mem_keys this

/-- Matching keeps the book uncrossed: only a residual rests, and only where nothing is left
that it could trade with. -/
theorem NoCross.matchOrder (hv : b.Valid) (h : b.NoCross) (o : Order) :
    (b.matchOrder o).book.NoCross := by
  rcases matchOrder_cases b o with ⟨he, -⟩ | ⟨he, -⟩ | ⟨he, -, hpos, -, -⟩ <;> rw [he]
  · exact h
  · exact h.sweep o
  · have hp := sweep_taker Order.price (fun _ _ => rfl) b o
    have hs := sweep_taker Order.side (fun _ _ => rfl) b o
    refine NoCross.of_side (s := o.side) fun p hp' q hq => ?_
    rw [← hs, levels_addOrder_opposite] at hq
    rw [← hs] at hp'
    rcases keys_addOrder _ hp' with ⟨-, rfl⟩ | hp'
    · rw [hs] at hq
      exact hp ▸ (hv.sweep_residual o hpos q hq).2.2
    · rw [hs] at hp' hq
      exact (h.sweep o).side o.side p hp' q hq

end OrderBook

end MatchingEngine
