import Mathlib.Data.List.AList
import Mathlib.Data.String.Basic
import MoonCore.Domain.Instrument
import MoonCore.ForMathlib.BinarySearch
import MoonCore.ForMathlib.SortDedup

/-!
# The venue's instrument list

`wire::catalogue`. A `Catalogue` carries what its pages rely on: every market's list is strictly
sorted by name. A page is then the first `INSTRUMENTS_PAGE` instruments after the cursor, with a
cursor of its own exactly when more follow (`Catalogue.page_eq`).
-/

namespace MoonCore

/-- Instruments in one page. -/
def instrumentsPage : ℕ := 2000

/-- What changed when a venue's list was refreshed. -/
structure Changed where
  added : List Symbol
  removed : List Symbol
  /-- Still listed, but something about it moved. -/
  altered : List Symbol

namespace Changed

/-- Whether nothing moved. -/
def isEmpty (self : Changed) : Bool :=
  self.added.isEmpty && self.removed.isEmpty && self.altered.isEmpty

end Changed

/-- One page of the catalogue. -/
structure Page (D : Type*) where
  exchange : ExchangeId
  market : MarketKind
  items : List (Instrument D)
  /-- Where to resume. `none` means this was the last page. -/
  cursor : Option String
  rev : ℕ

/-- The venue's name of an instrument. -/
def Instrument.name {D : Type*} (i : Instrument D) : String := i.symbol.raw

/-- Every instrument the core knows about, by market, each market's list sorted by name. -/
structure Catalogue (D : Type*) where
  byMarket : AList fun _ : ExchangeId × MarketKind => List (Instrument D)
  rev : ℕ
  sorted : ∀ key all, byMarket.lookup key = some all → (all.map Instrument.name).Pairwise (· < ·)

namespace Catalogue

variable {D : Type*}

/-- A catalogue before the first answer of a venue. -/
def new : Catalogue D where
  byMarket := ∅
  rev := 0
  sorted := by simp

/-- `sort_by` and `dedup_by`: sorted by name, the first of each name. -/
def tidy (incoming : List (Instrument D)) : List (Instrument D) :=
  (incoming.mergeSort fun a b => a.name ≤ b.name).destutter fun a b => a.name ≠ b.name

/-- A tidied list is strictly sorted by name. -/
theorem sorted_tidy (incoming : List (Instrument D)) :
    ((tidy incoming).map Instrument.name).Pairwise (· < ·) :=
  sorted_destutter_mergeSort Instrument.name incoming

/-- Put a market's list in place. -/
def setMarket (self : Catalogue D) (key : ExchangeId × MarketKind) (all : List (Instrument D))
    (hall : (all.map Instrument.name).Pairwise (· < ·)) (rev : ℕ) : Catalogue D where
  byMarket := self.byMarket.insert key all
  rev := rev
  sorted key' all' h := by
    by_cases hkey : key' = key
    · subst hkey
      rw [AList.lookup_insert, Option.some.injEq] at h
      exact h ▸ hall
    · rw [AList.lookup_insert_ne hkey] at h
      exact self.sorted key' all' h

variable [DecidableEq D]

/-- Whether the terms a trader cares about are unchanged. -/
def sameTerms (a b : Instrument D) : Bool :=
  a.tickSize = b.tickSize && a.stepSize = b.stepSize && a.minQty = b.minQty &&
    a.minNotional = b.minNotional && a.trading = b.trading && a.base = b.base &&
    a.quote_ = b.quote_ && a.marginAsset = b.marginAsset

/-- Replace one market's list, reporting what moved. -/
def replace (self : Catalogue D) (exchange : ExchangeId) (market : MarketKind)
    (incoming : List (Instrument D)) : Catalogue D × Changed :=
  let listed := tidy incoming
  let previous := (self.byMarket.lookup (exchange, market)).getD []
  let before (name : String) := previous.find? fun i => i.name = name
  let changed : Changed := {
    added := (listed.filter fun i => (before i.name).isNone).map Instrument.symbol
    altered :=
      (listed.filter fun i => (before i.name).any fun old => !sameTerms old i).map Instrument.symbol
    removed :=
      (previous.filter fun old => listed.all fun i => i.name ≠ old.name).map Instrument.symbol }
  let rev := if changed.isEmpty then self.rev else self.rev + 1
  (self.setMarket (exchange, market) listed (sorted_tidy incoming) rev, changed)

omit [DecidableEq D]

/-- One page, starting after `cursor`. -/
def page (self : Catalogue D) (exchange : ExchangeId) (market : MarketKind)
    (cursor : Option String) : Option (Page D) :=
  match self.byMarket.lookup (exchange, market) with
  | none => none
  | some all =>
    let start :=
      match cursor with
      | none => 0
      | some after => partitionPoint (fun i => i.name ≤ after) all
    let end_ := min (start + instrumentsPage) all.length
    let items := (all.drop start).take (end_ - start)
    let next := if end_ < all.length then items.getLast?.map Instrument.name else none
    some ⟨exchange, market, items, next, self.rev⟩

/-- The instrument of a symbol. -/
def get (self : Catalogue D) (symbol : Symbol) : Option (Instrument D) :=
  match self.byMarket.lookup (symbol.exchange, symbol.market) with
  | none => none
  | some all =>
    match binarySearchBy (fun i => compare i.name symbol.raw) all with
    | .ok at_ => all[at_]?
    | .error _ => none

/-- What a market lists after a cursor. -/
def after (cursor : Option String) (all : List (Instrument D)) : List (Instrument D) :=
  all.filter fun i => cursor.all (· < i.name)

/-- **A page.** The first instruments after the cursor, by name, with a cursor of its own exactly
when more follow. -/
theorem page_eq {self : Catalogue D} {exchange : ExchangeId} {market : MarketKind}
    {all : List (Instrument D)} (hall : self.byMarket.lookup (exchange, market) = some all)
    (cursor : Option String) :
    self.page exchange market cursor =
      some ⟨exchange, market, (after cursor all).take instrumentsPage,
        if instrumentsPage < (after cursor all).length then
          ((after cursor all).take instrumentsPage).getLast?.map Instrument.name
        else none, self.rev⟩ := by
  have hsorted := List.pairwise_map.mp (self.sorted _ _ hall)
  have hcut : ∀ start, start ≤ all.length → all.drop start = after cursor all →
      (all.drop start).take (min (start + instrumentsPage) all.length - start) =
        (after cursor all).take instrumentsPage ∧
      (min (start + instrumentsPage) all.length < all.length ↔
        instrumentsPage < (after cursor all).length) := by
    intro start hle hafter
    have hlength : (after cursor all).length = all.length - start := by
      rw [← hafter, List.length_drop]
    refine ⟨?_, by omega⟩
    rw [hafter, List.take_eq_take_iff, hlength]
    omega
  cases cursor with
  | none =>
    obtain ⟨htake, hmore⟩ := hcut 0 (Nat.zero_le _) (by simp [after])
    simp only [page, hall, htake, hmore]
  | some c =>
    have hsplit : all.Pairwise fun x y => decide (y.name ≤ c) → decide (x.name ≤ c) := by
      refine hsorted.imp fun {x y} hxy hy => ?_
      rw [decide_eq_true_eq] at hy ⊢
      exact hxy.le.trans hy
    have hafter : all.drop (partitionPoint (fun i => decide (i.name ≤ c)) all) =
        after (some c) all := by
      rw [drop_partitionPoint hsplit]
      refine List.filter_congr fun i _ => ?_
      rw [Option.all_some, ← decide_not, decide_eq_decide, not_le]
    obtain ⟨htake, hmore⟩ := hcut _ (partitionPoint_spec hsplit).1 hafter
    simp only [page, hall, htake, hmore]

theorem page_eq_none {self : Catalogue D} {exchange : ExchangeId} {market : MarketKind}
    (h : self.byMarket.lookup (exchange, market) = none) (cursor : Option String) :
    self.page exchange market cursor = none := by
  simp only [page, h]

theorem mem_after {cursor : Option String} {all : List (Instrument D)} {i : Instrument D} :
    i ∈ after cursor all ↔ i ∈ all ∧ ∀ c, cursor = some c → c < i.name := by
  rw [after, List.mem_filter]
  cases cursor <;> simp

end Catalogue

end MoonCore
