import MatchingEngine.Engine
import MatchingEngine.Priority

/-!
# Concurrent `submitOrder` calls

`MatchingEngineCore::submitOrder` is not one atomic step. Its shared-state steps are: the
`nextOrderId_++` of an atomic counter; in `getOrCreateOrderBook`, the `find` on
`orderBooks_` and, on a miss, the insertion of a new book (neither under a lock); the write
of `orderToSymbol_` under `mutex_`; and `matchOrder`, under the book's own mutex. Each
thread is a program counter between those steps, and a schedule is the list of threads to
step.

A book replaced in `orderBooks_` is destroyed by its `unique_ptr`; here books live in a heap
addressed by handle, and a replaced book stays there, unreachable from the registry. Two
first submits that both miss the lookup each create a book, and the second insertion
replaces the first: an order that rested in the first is in no registered book
(`first_submits_lose_order`).

Each `matchOrder` runs whole under the book's mutex, so whatever the schedule a book ends
as the sequential replay of the orders matched into it, in the order those steps ran
(`run_books_replay`). That order is not the order of the ids: a thread can take its id and
be overtaken before it locks the book (`match_order_not_id_order`).
-/

namespace MatchingEngine

namespace Concurrent

open OrderBook

/-- The arguments of one `submitOrder` call. -/
structure Call where
  symbol : Symbol
  side : Side
  type : OrderType
  price : Price
  quantity : Quantity
  stopPrice : Price
  deriving DecidableEq, Repr

/-- The order a call builds around the id it was given. -/
def Call.order (c : Call) (orderId : OrderId) : Order :=
  Order.new orderId c.symbol c.side c.type c.price c.quantity c.stopPrice

/-- How far a call has got: before its id; holding its id; having missed the lookup; holding
its book's handle; having recorded the id's symbol; returned. -/
inductive Pc
  | start
  | allocated (orderId : OrderId)
  | missed (orderId : OrderId)
  | hasBook (orderId : OrderId) (book : Nat)
  | tracked (orderId : OrderId) (book : Nat)
  | done (orderId : OrderId)
  deriving DecidableEq, Repr

/-- The id a call holds, once it has taken one. -/
def Pc.orderId? : Pc → Option OrderId
  | .start => none
  | .allocated i | .missed i | .hasBook i _ | .tracked i _ | .done i => some i

structure Thread where
  call : Call
  pc : Pc
  deriving DecidableEq, Repr

/-- The engine as the threads share it: `orderBooks_` maps a symbol to the handle of its
book in `books`. -/
structure State where
  orderBooks : Symbol → Option Nat
  books : List OrderBook
  orderToSymbol : OrderId → Option Symbol
  nextOrderId : OrderId
  threads : List Thread

/-- A fresh engine with one pending call per thread. -/
def State.init (calls : List Call) : State :=
  ⟨fun _ => none, [], fun _ => none, 1, calls.map (⟨·, .start⟩)⟩

namespace State

/-- Thread `t` takes its next shared step; a returned or absent thread does nothing. -/
def step (s : State) (t : Nat) : State :=
  match s.threads[t]? with
  | none => s
  | some ⟨call, pc⟩ =>
    let goto (pc' : Pc) := s.threads.set t ⟨call, pc'⟩
    match pc with
    | .start =>
      { s with nextOrderId := s.nextOrderId + 1, threads := goto (.allocated s.nextOrderId) }
    | .allocated i =>
      match s.orderBooks call.symbol with
      | some h => { s with threads := goto (.hasBook i h) }
      | none => { s with threads := goto (.missed i) }
    | .missed i =>
      { s with
        orderBooks := Function.update s.orderBooks call.symbol (some s.books.length)
        books := s.books ++ [.empty call.symbol]
        threads := goto (.hasBook i s.books.length) }
    | .hasBook i h =>
      { s with
        orderToSymbol := Function.update s.orderToSymbol i (some call.symbol)
        threads := goto (.tracked i h) }
    | .tracked i h =>
      match s.books[h]? with
      | some b =>
        { s with books := s.books.set h (b.matchOrder (call.order i)).book, threads := goto (.done i) }
      | none => s
    | .done _ => s

/-- The threads' steps in the order of the schedule. -/
def run (s : State) (sched : List Nat) : State := sched.foldl step s

/-- The match thread `t`'s next step makes, if that step is a `matchOrder`: the book's handle
and the order. -/
def matchOf (s : State) (t : Nat) : List (Nat × Order) :=
  match s.threads[t]? with
  | some ⟨call, .tracked i h⟩ => if (s.books[h]?).isSome then [(h, call.order i)] else []
  | _ => []

/-- The matches of a schedule, in the order they ran. -/
def matchLog : State → List Nat → List (Nat × Order)
  | _, [] => []
  | s, t :: ts => s.matchOf t ++ (s.step t).matchLog ts

@[simp] theorem run_nil (s : State) : s.run [] = s := rfl

@[simp] theorem run_cons (s : State) (t : Nat) (ts : List Nat) :
    s.run (t :: ts) = (s.step t).run ts := rfl

/-- What a step does to the books: nothing, one `matchOrder` on a book that exists (the match
the step makes), or a new empty book at the end of the heap. -/
theorem step_books (s : State) (t : Nat) :
    ((s.step t).books = s.books ∧ s.matchOf t = []) ∨
    (∃ h b o, s.books[h]? = some b ∧ (s.step t).books = s.books.set h (b.matchOrder o).book ∧
      s.matchOf t = [(h, o)]) ∨
    (∃ symbol, (s.step t).books = s.books ++ [.empty symbol] ∧ s.matchOf t = []) := by
  unfold step matchOf
  rcases s.threads[t]? with _ | ⟨call, pc⟩
  · exact .inl ⟨rfl, rfl⟩
  · cases pc with
    | allocated i => dsimp only; split <;> exact .inl ⟨rfl, rfl⟩
    | missed i => exact .inr (.inr ⟨call.symbol, rfl, rfl⟩)
    | tracked i h =>
      dsimp only
      cases hb : s.books[h]? with
      | none => exact .inl ⟨rfl, rfl⟩
      | some b => exact .inr (.inl ⟨h, b, _, hb, rfl, rfl⟩)
    | _ => exact .inl ⟨rfl, rfl⟩

/-! ## Ids

`nextOrderId_` is a `std::atomic`, and `nextOrderId_++` one atomic step: under any
interleaving the calls hold distinct ids, all below the counter. -/

/-- The id thread `t` holds, if it has taken one. -/
def idOf (s : State) (t : Nat) : Option OrderId := s.threads[t]?.bind (·.pc.orderId?)

/-- What a step does to the threads: nothing, or it moves thread `t` on, keeping its id or,
from `start`, giving it the counter's value. -/
theorem step_threads (s : State) (t : Nat) :
    ((s.step t).threads = s.threads ∧ (s.step t).nextOrderId = s.nextOrderId) ∨
    ∃ call pc pc', s.threads[t]? = some ⟨call, pc⟩ ∧
      (s.step t).threads = s.threads.set t ⟨call, pc'⟩ ∧
      ((pc'.orderId? = pc.orderId? ∧ (s.step t).nextOrderId = s.nextOrderId) ∨
        (pc = .start ∧ pc' = .allocated s.nextOrderId ∧
          (s.step t).nextOrderId = s.nextOrderId + 1)) := by
  unfold step
  rcases hth : s.threads[t]? with _ | ⟨call, pc⟩
  · exact .inl ⟨rfl, rfl⟩
  · cases pc with
    | start => exact .inr ⟨call, .start, _, rfl, rfl, .inr ⟨rfl, rfl, rfl⟩⟩
    | allocated i => dsimp only; split <;> exact .inr ⟨call, _, _, rfl, rfl, .inl ⟨rfl, rfl⟩⟩
    | tracked i h =>
      dsimp only
      split
      · exact .inr ⟨call, _, _, rfl, rfl, .inl ⟨rfl, rfl⟩⟩
      · exact .inl ⟨rfl, rfl⟩
    | done i => exact .inl ⟨rfl, rfl⟩
    | _ => exact .inr ⟨call, _, _, rfl, rfl, .inl ⟨rfl, rfl⟩⟩

theorem idOf_set {s : State} {t : Nat} {th : Thread} (hth : s.threads[t]? = some th)
    (th' : Thread) (u : Nat) :
    (s.threads.set t th')[u]?.bind (·.pc.orderId?) =
      if t = u then th'.pc.orderId? else s.idOf u := by
  rw [List.getElem?_set]
  split
  · rw [if_pos (List.getElem?_eq_some_iff.mp hth).1]
    rfl
  · rfl

/-- The calls hold distinct ids, all below the counter. -/
structure IdsFresh (s : State) : Prop where
  inj : ∀ t u i, s.idOf t = some i → s.idOf u = some i → t = u
  lt : ∀ t i, s.idOf t = some i → i < s.nextOrderId

theorem IdsFresh.step {s : State} (h : s.IdsFresh) (t : Nat) : (s.step t).IdsFresh := by
  rcases s.step_threads t with ⟨ht, hn⟩ | ⟨call, pc, pc', hth, ht, ⟨hid, hn⟩ | ⟨rfl, rfl, hn⟩⟩
  · have he : (s.step t).idOf = s.idOf := funext fun u => by rw [idOf, ht]; rfl
    exact ⟨he ▸ h.inj, he ▸ hn ▸ h.lt⟩
  · have he : (s.step t).idOf = s.idOf := funext fun u => by
      rw [idOf, ht, idOf_set hth]
      split
      · subst u
        rw [hid, idOf, hth]
        rfl
      · rfl
    exact ⟨he ▸ h.inj, he ▸ hn ▸ h.lt⟩
  · -- the new id is the counter's value, above every id held before
    have he : ∀ u i, (s.step t).idOf u = some i →
        (t = u ∧ i = s.nextOrderId) ∨ (t ≠ u ∧ s.idOf u = some i ∧ i < s.nextOrderId) := by
      intro u i hu
      rw [idOf, ht, idOf_set hth] at hu
      split at hu
      · exact .inl ⟨‹_›, (Option.some_injective _ hu).symm⟩
      · exact .inr ⟨‹_›, hu, h.lt u i hu⟩
    refine ⟨fun u v i hu hv => ?_, fun u i hu => ?_⟩
    · rcases he u i hu with ⟨rfl, hi⟩ | ⟨-, hu', hlt⟩ <;>
        rcases he v i hv with ⟨rfl, hi'⟩ | ⟨-, hv', hlt'⟩
      · rfl
      · exact absurd (hi ▸ hlt') (Nat.lt_irrefl _)
      · exact absurd (hi' ▸ hlt) (Nat.lt_irrefl _)
      · exact h.inj u v i hu' hv'
    · rw [hn]
      rcases he u i hu with ⟨-, rfl⟩ | ⟨-, -, hlt⟩
      exacts [Nat.lt_succ_self _, Nat.lt_succ_of_lt hlt]

theorem IdsFresh.run {s : State} (h : s.IdsFresh) : ∀ sched, (s.run sched).IdsFresh
  | [] => h
  | t :: ts => (h.step t).run ts

/-- Under any interleaving of `submitOrder` calls on a fresh engine, no two calls hold the
same id, and every id held is below the counter. -/
theorem run_ids_fresh (calls : List Call) (sched : List Nat) :
    ((State.init calls).run sched).IdsFresh := by
  refine IdsFresh.run ⟨fun t _ i ht _ => ?_, fun t i ht => ?_⟩ sched <;>
  · simp only [idOf, State.init, List.getElem?_map] at ht
    cases hc : calls[t]? <;> simp [hc, Pc.orderId?] at ht

/-- A returned call stays returned. -/
theorem step_done {s : State} {t : Nat} {call : Call} {i : OrderId}
    (h : s.threads[t]? = some ⟨call, .done i⟩) (u : Nat) :
    (s.step u).threads[t]? = some ⟨call, .done i⟩ := by
  by_cases hu : u = t
  · subst hu
    rw [step, h]
    exact h
  · rcases s.step_threads u with ⟨ht, -⟩ | ⟨c, pc, pc', -, ht, -⟩ <;> rw [ht]
    · exact h
    · rw [List.getElem?_set_ne hu]
      exact h

theorem run_done {s : State} {t : Nat} {call : Call} {i : OrderId}
    (h : s.threads[t]? = some ⟨call, .done i⟩) :
    ∀ sched, (s.run sched).threads[t]? = some ⟨call, .done i⟩
  | [] => h
  | u :: us => run_done (step_done h u) us

/-- Every match of a schedule is the order of a call that has returned, built around the id
that call holds. -/
theorem matchLog_returned : ∀ (s : State) (sched : List Nat), ∀ m ∈ s.matchLog sched,
    ∃ (t : Nat) (call : Call), (s.run sched).threads[t]? = some ⟨call, .done m.2.orderId⟩ ∧
      m.2 = call.order m.2.orderId
  | _, [] => by simp [matchLog]
  | s, t :: ts => by
    intro m hm
    rw [matchLog, List.mem_append] at hm
    rcases hm with hm | hm
    · unfold matchOf at hm
      rcases hth : s.threads[t]? with _ | ⟨call, pc⟩ <;> rw [hth] at hm
      · simp at hm
      · cases pc with
        | tracked i h =>
          dsimp only at hm
          split at hm
          · next hb =>
            obtain rfl := List.mem_singleton.mp hm
            obtain ⟨b, hb⟩ := Option.isSome_iff_exists.mp hb
            refine ⟨t, call, run_done ?_ ts, rfl⟩
            rw [step, hth]
            dsimp only
            rw [hb]
            exact List.getElem?_set_self (List.getElem?_eq_some_iff.mp hth).1
          · simp at hm
        | _ => simp at hm
    · exact matchLog_returned (s.step t) ts m hm

end State

/-- `matchOrder` of each order in turn, as one thread would call it. -/
def replay (b : OrderBook) (os : List Order) : OrderBook :=
  os.foldl (fun b o => (b.matchOrder o).book) b

/-- The orders matched into the book with handle `h`. -/
def matchesOn (h : Nat) (ms : List (Nat × Order)) : List Order :=
  ms.filterMap fun m => if m.1 = h then some m.2 else none

@[simp] theorem matchesOn_nil (h : Nat) : matchesOn h [] = [] := rfl

@[simp] theorem matchesOn_cons (h h' : Nat) (o : Order) (ms : List (Nat × Order)) :
    matchesOn h ((h', o) :: ms) = if h' = h then o :: matchesOn h ms else matchesOn h ms := by
  by_cases hh : h' = h <;> simp [matchesOn, hh]

/-- A replay queues each level in the order of the matches. -/
theorem Queued.replay {post : List OrderId} {b : OrderBook} (hq : b.Queued post) :
    ∀ os, (replay b os).Queued (post ++ os.map (·.orderId))
  | [] => by simpa [replay] using hq
  | o :: os => by
    simpa [replay] using Queued.replay (hq.matchOrder o) os

/-- A book that exists ends as the replay of the matches made into it. -/
theorem run_books_of_mem : ∀ {s : State} {h : Nat} {b : OrderBook} (sched : List Nat),
    s.books[h]? = some b →
      (s.run sched).books[h]? = some (replay b (matchesOn h (s.matchLog sched)))
  | _, _, _, [], hb => by simpa [State.matchLog, replay] using hb
  | s, h, b, t :: ts, hbh => by
    simp only [State.run_cons, State.matchLog]
    rcases s.step_books t with ⟨hb, hm⟩ | ⟨h₀, b₀, o, hb₀, hb, hm⟩ | ⟨symbol, hb, hm⟩
    · rw [hm, List.nil_append]
      exact run_books_of_mem ts (hb ▸ hbh)
    · rw [hm, List.singleton_append, matchesOn_cons]
      by_cases hh : h₀ = h
      · subst hh
        obtain rfl : b = b₀ := Option.some_injective _ (hbh.symm.trans hb₀)
        rw [if_pos rfl]
        exact run_books_of_mem ts
          (by rw [hb, List.getElem?_set_self (List.getElem?_eq_some_iff.mp hb₀).1])
      · rw [if_neg hh]
        exact run_books_of_mem ts (by rw [hb, List.getElem?_set_ne hh, hbh])
    · rw [hm, List.nil_append]
      exact run_books_of_mem ts
        (by rw [hb, List.getElem?_append_left (List.getElem?_eq_some_iff.mp hbh).1, hbh])

/-- A book created on the way ends as the replay, from an empty book, of the matches made
into it. -/
theorem run_books_of_new : ∀ {s : State} {h : Nat} {b : OrderBook} (sched : List Nat),
    s.books.length ≤ h → (s.run sched).books[h]? = some b →
      ∃ symbol, b = replay (.empty symbol) (matchesOn h (s.matchLog sched))
  | _, _, _, [], hh, hb => by simp [List.getElem?_eq_none hh] at hb
  | s, h, b, t :: ts, hh, hbh => by
    simp only [State.run_cons, State.matchLog] at hbh ⊢
    rcases s.step_books t with ⟨hb, hm⟩ | ⟨h₀, b₀, o, hb₀, hb, hm⟩ | ⟨symbol, hb, hm⟩
    · rw [hm, List.nil_append]
      exact run_books_of_new ts (hb ▸ hh) hbh
    · have hlt : h₀ < s.books.length := (List.getElem?_eq_some_iff.mp hb₀).1
      rw [hm, List.singleton_append, matchesOn_cons, if_neg (by omega)]
      exact run_books_of_new ts (by rwa [hb, List.length_set]) hbh
    · rw [hm, List.nil_append]
      rcases Nat.lt_or_eq_of_le hh with hh | rfl
      · exact run_books_of_new ts (by simpa [hb] using hh) hbh
      · have hnew := run_books_of_mem ts
          (by rw [hb]; exact List.getElem?_concat_length s.books (.empty symbol))
        exact ⟨symbol, Option.some_injective _ (hbh.symm.trans hnew)⟩

/-- Whatever the schedule, each match is one returned call's `matchOrder`, with the id that
call took, and every book is the replay of the matches made into it, in the order they ran:
from the book it was, or, for a book created on the way, from an empty book, and then its
levels queue the ids in the order of those matches. -/
theorem run_books_replay (s : State) (sched : List Nat) (h : Nat) :
    (∀ m ∈ s.matchLog sched, ∃ (t : Nat) (call : Call),
      (s.run sched).threads[t]? = some ⟨call, .done m.2.orderId⟩ ∧
        m.2 = call.order m.2.orderId) ∧
    (∀ b, s.books[h]? = some b →
      (s.run sched).books[h]? = some (replay b (matchesOn h (s.matchLog sched)))) ∧
    (s.books.length ≤ h → ∀ b, (s.run sched).books[h]? = some b →
      ∃ symbol, b = replay (.empty symbol) (matchesOn h (s.matchLog sched)) ∧
        b.Queued ((matchesOn h (s.matchLog sched)).map (·.orderId))) := by
  refine ⟨State.matchLog_returned s sched, fun b => run_books_of_mem sched, fun hh b hb => ?_⟩
  obtain ⟨symbol, rfl⟩ := run_books_of_new sched hh hb
  exact ⟨symbol, rfl, by simpa using Queued.replay (Queued.empty [] symbol) _⟩

/-- Two first submits on a symbol with no book, a resting buy and a resting sell: both take
their ids and miss the lookup; the first creates a book, records its id and rests its order
there; the second creates another book, replacing the first in `orderBooks_`, and rests its
order in it. -/
def firstSubmitsRace : State :=
  (State.init [⟨"AAA", .buy, .limit, 100, 10, 0⟩, ⟨"AAA", .sell, .limit, 200, 5, 0⟩]).run
    [0, 1, 0, 1, 0, 0, 0, 1, 1, 1]

/-- Both calls have returned; order 1 still rests, in a book no symbol leads to, while
`orderToSymbol_` routes it to the registered book, which holds order 2 only. -/
theorem first_submits_lose_order :
    firstSubmitsRace.threads.map (·.pc) = [.done 1, .done 2] ∧
      firstSubmitsRace.orderBooks "AAA" = some 1 ∧ firstSubmitsRace.orderToSymbol 1 = some "AAA" ∧
      firstSubmitsRace.books.map (·.orderMap) = [[1], [2]] := by
  decide

/-- Two buys at one price on a fresh symbol: the first thread takes id 1, the second id 2 and
runs through to its match before the first locks the book. The level queues 2 before 1. -/
theorem match_order_not_id_order :
    let s₀ := State.init [⟨"AAA", .buy, .limit, 100, 10, 0⟩, ⟨"AAA", .buy, .limit, 100, 10, 0⟩]
    let sched := [0, 1, 1, 1, 1, 1, 0, 0, 0]
    (s₀.matchLog sched).map (·.2.orderId) = [2, 1] ∧
      (s₀.run sched).books.map (fun b => b.bids.map fun e => (e.1, e.2.orders.map (·.orderId))) =
        [[(100, [2, 1])]] := by
  decide

end Concurrent

end MatchingEngine
