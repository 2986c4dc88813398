import MoonCore.Binance.Connector
import MoonCore.Core.State

/-!
# The core's pump

`core::main`. One pump takes the connector's events in order, folds each into the read-model
and only then broadcasts it, so the read-model is the fold of everything published so far.
`core` is the connector and the read-model run together.
-/

namespace MoonCore

variable {D : Type*} [LinearOrder D] [Zero D] [Add D]

/-- The connector, with its events folded into the read-model as they are published. -/
def core : Machine (Connector D × MarketState D) (Input D) (List (Event D)) :=
  Connector.machine.pipe MarketState.apply

/-- The core before the first input. -/
def coreStart (bucketing : Bucketing) (capacity : ℕ) (cooldownMs : ℤ) :
    Connector D × MarketState D :=
  (.new bucketing capacity cooldownMs, .new)

theorem core_next (s : Connector D × MarketState D) (input : Input D) :
    core.next s input =
      ((s.1.step input).1, (s.1.step input).2.foldl MarketState.apply s.2) := rfl

/-- One step of the core, seen by the books. -/
theorem core_next_books (s : Connector D × MarketState D) (input : Input D) :
    (core.next s input).2.books = (s.1.step input).2.foldl foldBooks s.2.books := by
  rw [core_next, MarketState.foldl_apply_books]

/-- One step of the core, seen by the bars. -/
theorem core_next_candles (s : Connector D × MarketState D) (input : Input D) :
    (core.next s input).2.candles = (s.1.step input).2.foldl (foldBars history) s.2.candles := by
  rw [core_next, MarketState.foldl_apply_candles]

/-- The connector runs as it does alone. -/
theorem core_run_fst (s : Connector D × MarketState D) (inputs : List (Input D)) :
    (core.run s inputs).1 = Connector.machine.run s.1 inputs :=
  Machine.pipe_run_fst _ _ _ _

/-- The read-model is the fold of everything published. -/
theorem core_run_snd (s : Connector D × MarketState D) (inputs : List (Input D)) :
    (core.run s inputs).2 = (s.1.published inputs).foldl MarketState.apply s.2 :=
  Machine.pipe_run_snd _ _ _ _

end MoonCore
