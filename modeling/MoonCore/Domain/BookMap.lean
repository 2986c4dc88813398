import Mathlib.Logic.Function.Basic
import MoonCore.Domain.Market

/-!
# The book as two maps from prices to quantities

What `OrderBook::apply` is for, without the sorted vectors: a side is a finite map from prices
to quantities, a level of a delta sets the quantity at its price, or removes the price when
the quantity is zero, and a delta is accepted when it extends the book (`BookMap.apply`).
`levelAt_applySide` says that the merge of `domain::market` is the left fold of those updates
on a well-formed side, and `toMap_apply` that the book refines its pair of maps.
-/

namespace MoonCore

variable {D : Type*} [LinearOrder D] [Zero D]

/-- The map a side denotes: the quantity of the level standing at a price. -/
def levelAt (side : List (BookLevel D)) (price : D) : Option D :=
  (side.find? fun lvl => lvl.price = price).map BookLevel.qty

/-- One level of a delta as an update of the map: set, or remove on zero. -/
def setLevel (levels : D → Option D) (upd : BookLevel D) : D → Option D :=
  Function.update levels upd.price (if upd.qty = 0 then none else some upd.qty)

/-- A book with its sides as maps. -/
structure BookMap (D : Type*) where
  bids : D → Option D
  asks : D → Option D
  lastUpdateId : ℕ
  synced : Bool

/-- What a delta does to the maps. -/
def BookMap.apply (self : BookMap D) (delta : BookDelta D) : BookMap D × ApplyOutcome :=
  if delta.lastUpdateId ≤ self.lastUpdateId then (self, .stale)
  else if (if self.synced then delta.prevUpdateId = self.lastUpdateId
      else delta.prevUpdateId ≤ self.lastUpdateId) then
    ({ bids := delta.bids.foldl setLevel self.bids
       asks := delta.asks.foldl setLevel self.asks
       lastUpdateId := delta.lastUpdateId
       synced := true }, .applied)
  else (self, .gap self.lastUpdateId delta.prevUpdateId)

/-- The maps a book denotes. -/
def OrderBook.toMap (self : OrderBook D) : BookMap D where
  bids := levelAt self.bids
  asks := levelAt self.asks
  lastUpdateId := self.lastUpdateId
  synced := self.synced

/-- Both sides strictly sorted best first, without zero quantities. -/
structure OrderBook.WellFormed (book : OrderBook D) : Prop where
  bids : SideWellFormed true book.bids
  asks : SideWellFormed false book.asks

section Side

variable {descending : Bool} {side : List (BookLevel D)}

/-- On a well-formed side the map is the quantity shown, and no entry where that is zero. -/
theorem levelAt_eq (h : SideWellFormed descending side) (p : D) :
    levelAt side p = if qtyAt side p = 0 then none else some (qtyAt side p) := by
  have hqty : qtyAt side p = (levelAt side p).getD 0 := rfl
  rcases hlvl : levelAt side p with - | q
  · rw [hqty, hlvl, Option.getD_none, if_pos rfl]
  · obtain ⟨lvl, hfind, hq⟩ := Option.map_eq_some_iff.mp hlvl
    have hnz : q ≠ 0 := hq ▸ h.nonzero lvl (List.mem_of_find?_eq_some hfind)
    rw [hqty, hlvl, Option.getD_some, if_neg hnz]

/-- Merging one level is one update of the map. -/
theorem levelAt_applyLevel (h : SideWellFormed descending side) (upd : BookLevel D) :
    levelAt (applyLevel side upd descending) = setLevel (levelAt side) upd := by
  funext p
  rw [levelAt_eq h.applyLevel, h.qtyAt_applyLevel, setLevel]
  by_cases hp : upd.price = p
  · subst hp
    rw [if_pos rfl, Function.update_self]
  · rw [if_neg hp, Function.update_of_ne (Ne.symm hp), levelAt_eq h]

/-- Merging levels is their left fold, repeated prices included. -/
theorem levelAt_applySide (h : SideWellFormed descending side) (updates : List (BookLevel D)) :
    levelAt (applySide side updates descending) = updates.foldl setLevel (levelAt side) := by
  induction updates generalizing side with
  | nil => rfl
  | cons upd rest ih =>
    rw [List.foldl_cons, ← levelAt_applyLevel h]
    exact ih h.applyLevel

end Side

namespace OrderBook

variable {self : OrderBook D} {delta : BookDelta D}

theorem WellFormed.extend (h : self.WellFormed) (delta : BookDelta D) :
    (self.extend delta).WellFormed :=
  ⟨h.bids.applySide delta.bids, h.asks.applySide delta.asks⟩

/-- The book refines its maps: same outcome, and the maps of the book afterwards are the maps
updated. -/
theorem toMap_apply (h : self.WellFormed) (delta : BookDelta D) :
    ((self.apply delta).1.toMap, (self.apply delta).2) = self.toMap.apply delta := by
  have hid : self.toMap.lastUpdateId = self.lastUpdateId := rfl
  have hsync : self.toMap.synced = self.synced := rfl
  rw [BookMap.apply, hid, hsync]
  obtain ⟨hle, happly⟩ | ⟨hext, happly⟩ | ⟨hlt, hnot, happly⟩ := self.apply_cases delta
  · rw [happly, if_pos hle]
  · rw [happly, if_neg hext.1.not_ge, if_pos hext.2]
    have hbids : (self.extend delta).toMap.bids = delta.bids.foldl setLevel self.toMap.bids :=
      levelAt_applySide h.bids delta.bids
    have hasks : (self.extend delta).toMap.asks = delta.asks.foldl setLevel self.toMap.asks :=
      levelAt_applySide h.asks delta.asks
    rw [← hbids, ← hasks]
    rfl
  · rw [happly, if_neg hlt.not_ge, if_neg fun hc => hnot ⟨hlt, hc⟩]

/-- **Applying a delta is a finite-map update.** A delta is applied exactly when it is newer and
chains onto the book, or onto a snapshot from at or before it; then both sides stay well
formed, read as maps they are the left fold of the delta's levels, and the book has taken the
delta's id and is synced. Any other delta leaves the book as it is. -/
theorem apply_spec (h : self.WellFormed) (delta : BookDelta D) :
    ((self.apply delta).2 = .applied ↔ self.lastUpdateId < delta.lastUpdateId ∧
      if self.synced then delta.prevUpdateId = self.lastUpdateId
      else delta.prevUpdateId ≤ self.lastUpdateId) ∧
    ((self.apply delta).2 = .applied →
      (self.apply delta).1.WellFormed ∧
      levelAt (self.apply delta).1.bids = delta.bids.foldl setLevel (levelAt self.bids) ∧
      levelAt (self.apply delta).1.asks = delta.asks.foldl setLevel (levelAt self.asks) ∧
      self.lastUpdateId < (self.apply delta).1.lastUpdateId ∧
      (self.apply delta).1.lastUpdateId = delta.lastUpdateId ∧
      (self.apply delta).1.synced = true) ∧
    ((self.apply delta).2 ≠ .applied → (self.apply delta).1 = self) := by
  obtain ⟨hle, happly⟩ | ⟨hext, happly⟩ | ⟨hlt, hnot, happly⟩ := self.apply_cases delta
  · rw [happly]
    exact ⟨iff_of_false (by simp) fun hc => hc.1.not_ge hle, by simp, fun _ => rfl⟩
  · rw [happly]
    exact ⟨iff_of_true rfl hext, fun _ => ⟨h.extend delta, levelAt_applySide h.bids delta.bids,
      levelAt_applySide h.asks delta.asks, hext.1, rfl, rfl⟩, fun hne => absurd rfl hne⟩
  · rw [happly]
    exact ⟨iff_of_false (by simp) hnot, by simp, fun _ => rfl⟩

/-- Two bids, best first, and one ask. -/
def twoBids : OrderBook ℤ where
  symbol := some btcusdt
  bids := [⟨100, 2⟩, ⟨99, 1⟩]
  asks := [⟨101, 4⟩]
  lastUpdateId := 5
  ts := 0
  synced := true

/-- A delta that removes a bid, sets it again and names an ask price the book does not have. -/
def churn : BookDelta ℤ where
  symbol := btcusdt
  prevUpdateId := 5
  lastUpdateId := 7
  bids := [⟨99, 0⟩, ⟨98, 3⟩, ⟨99, 6⟩]
  asks := [⟨102, 0⟩]
  ts := 1

theorem apply_spec_twoBids : twoBids.WellFormed ∧
    (twoBids.apply churn).2 = .applied ∧ (twoBids.apply churn).1.WellFormed ∧
    levelAt (twoBids.apply churn).1.bids 99 = some 6 := by
  have hwf : twoBids.WellFormed :=
    ⟨⟨by simp [twoBids, Better], by simp [twoBids]⟩, ⟨by simp [twoBids], by simp [twoBids]⟩⟩
  obtain ⟨happlied, hspec, -⟩ := apply_spec hwf churn
  have happ : (twoBids.apply churn).2 = .applied := happlied.mpr (by decide)
  obtain ⟨hafter, hbids, -⟩ := hspec happ
  refine ⟨hwf, happ, hafter, ?_⟩
  rw [hbids]
  decide

end OrderBook

end MoonCore
