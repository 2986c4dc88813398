import Mathlib.Data.Int.Notation
import Mathlib.Data.List.Dedup
import MoonCore.Domain.Ids

/-!
# Subscriptions

What a terminal can ask for, and the keys a list of subscriptions names: each once, in
order.
-/

namespace MoonCore

/-- What to stream for an instrument. -/
inductive Subscription where
  | trades (symbol : Symbol)
  | book (symbol : Symbol)
  | candles (symbol : Symbol) (intervalMs : ℤ)
  deriving DecidableEq

/-- The instrument this subscription concerns. -/
def Subscription.symbol : Subscription → Symbol
  | trades s | book s => s
  | candles s _ => s

/-- The keys of the subscribed instruments, sorted and without repeats. -/
def subscribedKeys (subs : List Subscription) : List String :=
  ((subs.map fun s => s.symbol.key).mergeSort (· ≤ ·)).dedup

@[simp]
theorem mem_subscribedKeys {subs : List Subscription} {key : String} :
    key ∈ subscribedKeys subs ↔ ∃ s ∈ subs, s.symbol.key = key := by
  rw [subscribedKeys, List.mem_dedup, List.mem_mergeSort, List.mem_map]

theorem nodup_subscribedKeys (subs : List Subscription) : (subscribedKeys subs).Nodup :=
  List.nodup_dedup _

end MoonCore
