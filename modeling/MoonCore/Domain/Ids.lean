import Mathlib.Data.List.Basic

/-!
# Venue, market and instrument identity

`Symbol.key`, the text `exchange:market:raw`, is what every map of the program is keyed by:
the connector's books, the read-model, the terminal's panels. It identifies the symbol
(`Symbol.key_injective`) whatever the venue puts into the raw ticker, because the two parts
in front of it never contain the separator.
-/

namespace MoonCore

/-- A trading venue with a connector. -/
inductive ExchangeId where
  | binance
  | bybit
  deriving DecidableEq, Repr

/-- The venue's name in keys and on the wire. -/
def ExchangeId.asStr : ExchangeId → String
  | .binance => "binance"
  | .bybit => "bybit"

/-- Which market of a venue an instrument belongs to. -/
inductive MarketKind where
  | spot
  | linearPerp
  | inversePerp
  deriving DecidableEq, Repr

/-- The market's name in keys and on the wire. -/
def MarketKind.asStr : MarketKind → String
  | .spot => "spot"
  | .linearPerp => "linear_perp"
  | .inversePerp => "inverse_perp"

/-- A fully qualified instrument: venue, market and the venue's own ticker. -/
structure Symbol where
  exchange : ExchangeId
  market : MarketKind
  raw : String
  deriving DecidableEq, Repr

/-- Stable key for maps: `binance:linear_perp:BTCUSDT`. -/
def Symbol.key (s : Symbol) : String :=
  s.exchange.asStr ++ ":" ++ s.market.asStr ++ ":" ++ s.raw

/-- The instrument of the fixed runs in this development. -/
def btcusdt : Symbol := ⟨.binance, .linearPerp, "BTCUSDT"⟩

theorem ExchangeId.asStr_injective : Function.Injective ExchangeId.asStr := by
  intro e e' h
  cases e <;> cases e' <;> first | rfl | exact absurd h (by decide)

theorem MarketKind.asStr_injective : Function.Injective MarketKind.asStr := by
  intro m m' h
  cases m <;> cases m' <;> first | rfl | exact absurd h (by decide)

/-- The characters of a key: the two fixed parts, each closed by a separator, then the raw
ticker. -/
theorem Symbol.toList_key (s : Symbol) :
    s.key.toList =
      s.exchange.asStr.toList ++ ':' :: (s.market.asStr.toList ++ ':' :: s.raw.toList) := by
  simp [Symbol.key, String.toList_append]

/-- Two texts cut at their first separator agree part by part. -/
private theorem append_sep_inj {α : Type*} {c : α} {as bs as' bs' : List α} (h : c ∉ as)
    (h' : c ∉ as') (heq : as ++ c :: bs = as' ++ c :: bs') : as = as' ∧ bs = bs' := by
  induction as generalizing as' with
  | nil =>
    cases as' with
    | nil => exact ⟨rfl, (List.cons.inj heq).2⟩
    | cons a as' => exact absurd (List.cons.inj heq).1 fun hc => h' (hc ▸ List.mem_cons_self)
  | cons a as ih =>
    cases as' with
    | nil => exact absurd (List.cons.inj heq).1 fun hc => h (hc ▸ List.mem_cons_self)
    | cons a' as' =>
      obtain ⟨rfl, hrest⟩ := List.cons.inj heq
      obtain ⟨rfl, rfl⟩ :=
        ih (List.not_mem_of_not_mem_cons h) (List.not_mem_of_not_mem_cons h') hrest
      exact ⟨rfl, rfl⟩

/-- **Keys identify symbols**, any raw text included. -/
theorem Symbol.key_injective : Function.Injective Symbol.key := by
  intro s s' h
  have hchars := congrArg String.toList h
  rw [Symbol.toList_key, Symbol.toList_key] at hchars
  have hex : ∀ e : ExchangeId, ':' ∉ e.asStr.toList := by intro e; cases e <;> decide
  have hmk : ∀ m : MarketKind, ':' ∉ m.asStr.toList := by intro m; cases m <;> decide
  obtain ⟨he, hrest⟩ := append_sep_inj (hex _) (hex _) hchars
  obtain ⟨hm, hr⟩ := append_sep_inj (hmk _) (hmk _) hrest
  cases s
  cases s'
  simp only [Symbol.mk.injEq]
  exact ⟨ExchangeId.asStr_injective (String.toList_inj.mp he),
    MarketKind.asStr_injective (String.toList_inj.mp hm), String.toList_inj.mp hr⟩

@[simp]
theorem Symbol.key_inj {s s' : Symbol} : s.key = s'.key ↔ s = s' := Symbol.key_injective.eq_iff

end MoonCore
