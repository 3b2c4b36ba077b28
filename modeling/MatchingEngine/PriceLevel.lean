import MatchingEngine.Order

/-!
# Price levels and the two sides of a book — `PriceLevel`, `std::map<Price, PriceLevel>`

A `PriceLevel` (`OrderBook.h`) is a FIFO list of resting orders with an id index into it and
a running `totalQuantity_`. A side of a book is a `std::map` from price to level, iterated
best price first: `Levels` is that map as its entries in iteration order, and `Side.better`
is its comparator.

Mirroring notes vs the C++:
- `price_` is dropped: no function of the core reads a level's own price, only the map key.
- The id index `orderMap_` maps an id to a list iterator. It is kept as its key list: the
  iterator of a key points at the order with that id, which `find?` locates. A key whose
  node `executeMatches` has erased (see `Sweep.lean`) dangles in the C++; dereferencing it
  is undefined behaviour, and the model then only drops the key.
- `std::map::operator[]` default-constructs a missing level at its sorted place; `update`
  is that followed by the caller's change to the level.

The view used by every invariant is `entries`: the resting orders of a side in iteration
order, each with the key of its level. `update_addOrder_entries` and
`removeOrder_entries` say exactly where the two mutations insert or delete one entry.
-/

namespace MatchingEngine

/-- `class PriceLevel`, without `price_`. -/
structure PriceLevel where
  totalQuantity : Quantity
  orders : List Order
  orderMap : List OrderId
  deriving DecidableEq, Repr, Inhabited

namespace PriceLevel

/-- A freshly constructed level. -/
def empty : PriceLevel := ⟨0, [], []⟩

/-- `PriceLevel::addOrder`: append, index, and add the remaining quantity (wrapping). -/
def addOrder (l : PriceLevel) (o : Order) : PriceLevel where
  totalQuantity := l.totalQuantity + o.remainingQuantity
  orders := l.orders ++ [o]
  orderMap := l.orderMap.insert o.orderId

/-- `PriceLevel::removeOrder`: if the id is indexed, subtract the order's current remaining
quantity (wrapping), unlink it and drop the key; otherwise nothing. -/
def removeOrder (l : PriceLevel) (orderId : OrderId) : PriceLevel :=
  if orderId ∈ l.orderMap then
    match l.orders.find? (·.orderId == orderId) with
    | some o =>
      { totalQuantity := l.totalQuantity - o.remainingQuantity
        orders := l.orders.eraseP (·.orderId == orderId)
        orderMap := l.orderMap.erase orderId }
    | none => { l with orderMap := l.orderMap.erase orderId }
  else l

/-- `PriceLevel::getOrder`. -/
def getOrder (l : PriceLevel) (orderId : OrderId) : Option Order :=
  if orderId ∈ l.orderMap then l.orders.find? (·.orderId == orderId) else none

/-- `PriceLevel::isEmpty`. -/
def isEmpty (l : PriceLevel) : Bool := l.orders.isEmpty

@[simp] theorem addOrder_orders (l : PriceLevel) (o : Order) :
    (l.addOrder o).orders = l.orders ++ [o] := rfl

theorem mem_addOrder_orderMap {l : PriceLevel} {o : Order} {i : OrderId} :
    i ∈ (l.addOrder o).orderMap ↔ i = o.orderId ∨ i ∈ l.orderMap := by
  simp [addOrder, List.mem_insert_iff]

@[simp] theorem isEmpty_iff (l : PriceLevel) : l.isEmpty ↔ l.orders = [] := by
  simp [isEmpty]

/-- What `removeOrder` does to the list: the first order with the id goes, or nothing. -/
theorem removeOrder_orders (l : PriceLevel) (orderId : OrderId) :
    (l.removeOrder orderId).orders = l.orders ∨
      (l.removeOrder orderId).orders = l.orders.eraseP (·.orderId == orderId) := by
  unfold removeOrder
  split
  · split
    · exact .inr rfl
    · exact .inl rfl
  · exact .inl rfl

/-- With the id indexed and an order carrying it in the list, that order is unlinked. -/
theorem removeOrder_orders_of_mem {l : PriceLevel} {o : Order} (hi : o.orderId ∈ l.orderMap)
    (ho : o ∈ l.orders) :
    (l.removeOrder o.orderId).orders = l.orders.eraseP (·.orderId == o.orderId) := by
  unfold removeOrder
  rw [if_pos hi]
  split
  · rfl
  · next h =>
    exact absurd (List.find?_eq_none.mp h o ho) (by simp)

theorem mem_removeOrder_orderMap {l : PriceLevel} {i j : OrderId}
    (h : i ∈ (l.removeOrder j).orderMap) : i ∈ l.orderMap := by
  unfold removeOrder at h
  split at h
  · split at h <;> exact List.mem_of_mem_erase h
  · exact h

theorem mem_removeOrder_orderMap_of_ne {l : PriceLevel} {i j : OrderId} (hij : i ≠ j)
    (h : i ∈ l.orderMap) : i ∈ (l.removeOrder j).orderMap := by
  unfold removeOrder
  split
  · split <;> exact (List.mem_erase_of_ne hij).mpr h
  · exact h

end PriceLevel

/-- One side of a book: a `std::map<Price, PriceLevel, Compare>` as its entries in
iteration order. -/
abbrev Levels := List (Price × PriceLevel)

namespace Levels

/-- `levels[p]` (creating the level at its sorted place if absent), then `f` on it. -/
def update (s : Side) (p : Price) (f : PriceLevel → PriceLevel) : Levels → Levels
  | [] => [(p, f .empty)]
  | (q, l) :: ls =>
    if q = p then (q, f l) :: ls
    else if s.better p q then (p, f .empty) :: (q, l) :: ls
    else (q, l) :: update s p f ls

/-- `levels.find(p)`, `removeOrder` on the level found, and `levels.erase` of it when that
left it empty — the shared body of `OrderBook::cancelOrder` and `modifyOrder`. -/
def removeOrder (p : Price) (orderId : OrderId) : Levels → Levels
  | [] => []
  | (q, l) :: ls =>
    if q = p then
      if (l.removeOrder orderId).isEmpty then ls else (q, l.removeOrder orderId) :: ls
    else (q, l) :: removeOrder p orderId ls

/-- The keys, best first. -/
def keys (ls : Levels) : List Price := ls.map (·.1)

/-- The resting orders of the side in iteration order, each with its level's key. -/
def entries (ls : Levels) : List (Price × Order) :=
  ls.flatMap fun e => e.2.orders.map fun o => (e.1, o)

/-- The map is ordered by the side's comparator (and so has no repeated key). -/
def Sorted (s : Side) (ls : Levels) : Prop := ls.keys.Pairwise s.better

@[simp] theorem keys_nil : keys [] = [] := rfl
@[simp] theorem keys_cons (e : Price × PriceLevel) (ls : Levels) :
    keys (e :: ls) = e.1 :: keys ls := rfl
@[simp] theorem entries_nil : entries [] = [] := rfl
@[simp] theorem entries_cons (e : Price × PriceLevel) (ls : Levels) :
    entries (e :: ls) = e.2.orders.map (fun o => (e.1, o)) ++ entries ls := by
  simp [entries]

theorem mem_entries {ls : Levels} {x : Price × Order} :
    x ∈ entries ls ↔ ∃ l, (x.1, l) ∈ ls ∧ x.2 ∈ l.orders := by
  simp only [entries, List.mem_flatMap, List.mem_map]
  constructor
  · rintro ⟨⟨p, l⟩, hl, o, ho, rfl⟩; exact ⟨l, hl, ho⟩
  · rintro ⟨l, hl, ho⟩; exact ⟨(x.1, l), hl, x.2, ho, rfl⟩

theorem sorted_cons {s : Side} {p : Price} {l : PriceLevel} {ls : Levels} :
    Sorted s ((p, l) :: ls) ↔ (∀ q ∈ keys ls, s.better p q) ∧ Sorted s ls := by
  simp [Sorted]

theorem mem_keys {ls : Levels} {p : Price} : p ∈ keys ls ↔ ∃ l, (p, l) ∈ ls := by
  simp [keys]

theorem key_mem_keys {ls : Levels} {x : Price × Order} (h : x ∈ entries ls) : x.1 ∈ keys ls :=
  let ⟨l, hl, _⟩ := mem_entries.mp h
  mem_keys.mpr ⟨l, hl⟩

theorem Sorted.nodup {s : Side} {ls : Levels} (h : Sorted s ls) : (keys ls).Nodup :=
  h.imp Side.better_ne

/-- In a sorted side, a key in the tail is worse than the head's. -/
theorem Sorted.head_better {s : Side} {p q : Price} {l : PriceLevel} {ls : Levels}
    (h : Sorted s ((p, l) :: ls)) (hq : q ∈ keys ls) : s.better p q :=
  (sorted_cons.mp h).1 q hq

/-! ### `update` -/

/-- Every level of `update s p f ls` was there already, or is `f` of the level at `p`. -/
theorem mem_update {s : Side} {p : Price} {f : PriceLevel → PriceLevel} :
    ∀ {ls : Levels} {e : Price × PriceLevel}, e ∈ update s p f ls →
      e ∈ ls ∨ (e.1 = p ∧ (e.2 = f .empty ∨ ∃ l, (p, l) ∈ ls ∧ e.2 = f l))
  | [], e, h => by simp_all [update]
  | (q, l) :: ls, e, h => by
    simp only [update] at h
    split at h
    · next hq =>
      subst hq
      rcases List.mem_cons.mp h with rfl | h
      · exact .inr ⟨rfl, .inr ⟨l, List.mem_cons_self _ _, rfl⟩⟩
      · exact .inl (List.mem_cons_of_mem _ h)
    · split at h
      · rcases List.mem_cons.mp h with rfl | h
        · exact .inr ⟨rfl, .inl rfl⟩
        · exact .inl h
      · rcases List.mem_cons.mp h with rfl | h
        · exact .inl (List.mem_cons_self _ _)
        · rcases mem_update h with h | ⟨h1, h2 | ⟨l', hl', h2⟩⟩
          · exact .inl (List.mem_cons_of_mem _ h)
          · exact .inr ⟨h1, .inl h2⟩
          · exact .inr ⟨h1, .inr ⟨l', List.mem_cons_of_mem _ hl', h2⟩⟩

theorem keys_update_subset {s : Side} {p : Price} {f : PriceLevel → PriceLevel} {ls : Levels}
    {q : Price} (h : q ∈ keys (update s p f ls)) : q = p ∨ q ∈ keys ls := by
  obtain ⟨l, hl⟩ := mem_keys.mp h
  rcases mem_update hl with h | ⟨h, -⟩
  · exact .inr (mem_keys.mpr ⟨l, h⟩)
  · exact .inl h

theorem Sorted.update {s : Side} {p : Price} {f : PriceLevel → PriceLevel} :
    ∀ {ls : Levels}, Sorted s ls → Sorted s (update s p f ls)
  | [], _ => by simp [Levels.update, Sorted]
  | (q, l) :: ls, h => by
    have hs := sorted_cons.mp h
    simp only [Levels.update]
    split
    · next hq => subst hq; exact sorted_cons.mpr hs
    · next hq =>
      split
      · next hb =>
        refine sorted_cons.mpr ⟨fun k hk => ?_, h⟩
        rcases List.mem_cons.mp hk with rfl | hk
        · exact hb
        · exact Side.better_trans hb (hs.1 k hk)
      · next hb =>
        refine sorted_cons.mpr ⟨fun k hk => ?_, hs.2.update⟩
        rcases keys_update_subset hk with rfl | hk
        · exact ((s.better_total hq).resolve_right hb)
        · exact hs.1 k hk

/-- Where `levels[p].addOrder(o)` puts the new entry: after every entry at `p` or a better
key, before every entry at a worse one. -/
theorem update_addOrder_entries (s : Side) (p : Price) (o : Order) :
    ∀ {ls : Levels}, Sorted s ls → ∃ A B, entries ls = A ++ B ∧
      entries (update s p (·.addOrder o) ls) = A ++ (p, o) :: B ∧
      (∀ x ∈ A, x.1 = p ∨ s.better x.1 p) ∧ ∀ x ∈ B, s.better p x.1
  | [], _ => ⟨[], [], by simp [Levels.update, PriceLevel.empty]⟩
  | (q, l) :: ls, h => by
    have hs := sorted_cons.mp h
    simp only [Levels.update]
    split
    · next hq =>
      subst hq
      refine ⟨l.orders.map (q, ·), entries ls, by simp, by simp, ?_, ?_⟩
      · simp
      · exact fun x hx => hs.1 _ (key_mem_keys hx)
    · next hq =>
      split
      · next hb =>
        refine ⟨[], entries ((q, l) :: ls), rfl, by simp [PriceLevel.empty], by simp, ?_⟩
        intro x hx
        rcases List.mem_cons.mp (key_mem_keys hx) with hk | hk
        · rw [hk]; exact hb
        · exact Side.better_trans hb (hs.1 _ hk)
      · next hb =>
        obtain ⟨A, B, h1, h2, hA, hB⟩ := update_addOrder_entries s p o hs.2
        refine ⟨l.orders.map (q, ·) ++ A, B, by simp [h1], by simp [h2], ?_, hB⟩
        intro x hx
        rcases List.mem_append.mp hx with hx | hx
        · obtain ⟨o', -, rfl⟩ := List.mem_map.mp hx
          exact .inr ((s.better_total hq).resolve_right hb)
        · exact hA x hx

/-! ### `removeOrder` -/

theorem mem_removeOrder {p : Price} {i : OrderId} :
    ∀ {ls : Levels} {e : Price × PriceLevel}, e ∈ removeOrder p i ls →
      e ∈ ls ∨ (e.1 = p ∧ ∃ l, (p, l) ∈ ls ∧ e.2 = l.removeOrder i ∧ e.2.orders ≠ [])
  | [], e, h => by simp [removeOrder] at h
  | (q, l) :: ls, e, h => by
    simp only [removeOrder] at h
    split at h
    · next hq =>
      subst hq
      split at h
      · exact .inl (List.mem_cons_of_mem _ h)
      · next he =>
        rcases List.mem_cons.mp h with rfl | h
        · exact .inr ⟨rfl, l, List.mem_cons_self _ _, rfl, by simpa using he⟩
        · exact .inl (List.mem_cons_of_mem _ h)
    · rcases List.mem_cons.mp h with rfl | h
      · exact .inl (List.mem_cons_self _ _)
      · rcases mem_removeOrder h with h | ⟨h1, l', hl', h2⟩
        · exact .inl (List.mem_cons_of_mem _ h)
        · exact .inr ⟨h1, l', List.mem_cons_of_mem _ hl', h2⟩

theorem keys_removeOrder_sublist (p : Price) (i : OrderId) :
    ∀ ls : Levels, List.Sublist (keys (removeOrder p i ls)) (keys ls)
  | [] => List.Sublist.slnil
  | (q, l) :: ls => by
    simp only [removeOrder]
    split
    · split
      · exact List.sublist_cons_self _ _
      · exact List.Sublist.refl _
    · exact (keys_removeOrder_sublist p i ls).cons₂ _

theorem Sorted.removeOrder {s : Side} {p : Price} {i : OrderId} {ls : Levels}
    (h : Sorted s ls) : Sorted s (removeOrder p i ls) :=
  h.sublist (keys_removeOrder_sublist p i ls)

/-- Cancelling an order that rests, indexed, at `p` deletes exactly its entry. -/
theorem removeOrder_entries_of_mem {p : Price} {l : PriceLevel} {o : Order} :
    ∀ {ls : Levels}, (keys ls).Nodup → ((entries ls).map (·.2.orderId)).Nodup →
      (p, l) ∈ ls → o ∈ l.orders → o.orderId ∈ l.orderMap →
      ∃ A B, entries ls = A ++ (p, o) :: B ∧ entries (removeOrder p o.orderId ls) = A ++ B
  | [], _, _, hl, _, _ => by simp at hl
  | (q, l') :: ls, hk, hn, hl, ho, hi => by
    simp only [keys_cons, List.nodup_cons] at hk
    simp only [entries_cons, List.map_append, List.map_map] at hn
    simp only [removeOrder]
    split
    · next hq =>
      subst hq
      have hll : l' = l := by
        rcases List.mem_cons.mp hl with h | h
        · exact (Prod.mk.inj h).2.symm
        · exact absurd (mem_keys.mpr ⟨l, h⟩) hk.1
      subst hll
      have hn' := (List.nodup_append.mp hn).1
      obtain ⟨a, l₁, l₂, -, ha, hsplit, herase⟩ :=
        List.exists_of_eraseP ho (p := (·.orderId == o.orderId)) (by simp)
      have hao : a = o := List.inj_on_of_nodup_map (by simpa [Function.comp_def] using hn')
        (by rw [hsplit]; simp) ho (by simpa using ha)
      subst hao
      have hrm := PriceLevel.removeOrder_orders_of_mem hi ho
      refine ⟨l₁.map (q, ·), l₂.map (q, ·) ++ entries ls, by simp [hsplit], ?_⟩
      split
      · next he =>
        have : l₁ ++ l₂ = [] := by rw [← herase, ← hrm]; simpa using he
        simp [List.append_eq_nil.mp this]
      · simp [hrm, herase]
    · next hq =>
      have hl' : (p, l) ∈ ls := by
        rcases List.mem_cons.mp hl with h | h
        · exact absurd (Prod.mk.inj h).1.symm hq
        · exact h
      obtain ⟨A, B, h1, h2⟩ :=
        removeOrder_entries_of_mem hk.2 (List.nodup_append.mp hn).2.1 hl' ho hi
      exact ⟨l'.orders.map (q, ·) ++ A, B, by simp [h1], by simp [h2]⟩

end Levels

end MatchingEngine
