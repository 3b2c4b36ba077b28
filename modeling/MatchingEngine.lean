import MatchingEngine.Order
import MatchingEngine.PriceLevel
import MatchingEngine.OrderBook
import MatchingEngine.Sweep
import MatchingEngine.BookInv
import MatchingEngine.Priority
import MatchingEngine.BookFrame
import MatchingEngine.SweepSpec
import MatchingEngine.LevelIndex
import MatchingEngine.Crossing
import MatchingEngine.Engine
import MatchingEngine.EngineInv
import MatchingEngine.EnginePriority
import MatchingEngine.Drift
import MatchingEngine.Aggregates
import MatchingEngine.MarketData
import MatchingEngine.Wire
import MatchingEngine.Concurrent
import MatchingEngine.Server
import MatchingEngine.Codec
