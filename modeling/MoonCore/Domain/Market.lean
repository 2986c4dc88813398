import Mathlib.Order.Lattice
import MoonCore.Domain.Order
import MoonCore.ForMathlib.BinarySearch
import MoonCore.ForMathlib.SortedAssoc

/-!
# Public market data: the tape, the book and candles

The types of `domain::market` and the rule by which a book absorbs a delta. Prices and
quantities are elements of a type `D` of decimals of which the book uses the order and the
zero only.

A side of a book is a list of levels, best first; `OrderBook.apply` merges absolute levels
into it by binary search. On a side that is strictly sorted and holds no zero
(`SideWellFormed`) the merge is a pointwise update of the map from prices to quantities the
side denotes: `SideWellFormed.qtyAt_applySide` says which, `SideWellFormed.applySide` that the
side stays well formed, and `SideWellFormed.ext` that the map determines the side.
-/

namespace MoonCore

/-- A trade printed on the public tape. -/
structure PublicTrade (D : Type*) where
  symbol : Symbol
  price : D
  qty : D
  takerSide : Side
  ts : Timestamp
  /-- Venue trade id. -/
  id : ℕ
  deriving DecidableEq

/-- One level of a book. -/
structure BookLevel (D : Type*) where
  price : D
  qty : D
  deriving DecidableEq

/-- A local order book plus the sequence bookkeeping needed to know it is still correct. -/
structure OrderBook (D : Type*) where
  symbol : Option Symbol
  /-- Best bid first. -/
  bids : List (BookLevel D)
  /-- Best ask first. -/
  asks : List (BookLevel D)
  /-- Venue sequence number of the last applied update. -/
  lastUpdateId : ℕ
  ts : Timestamp
  /-- False until a delta has been chained onto the snapshot. -/
  synced : Bool
  deriving DecidableEq

/-- One incremental book update as published by the venue. -/
structure BookDelta (D : Type*) where
  symbol : Symbol
  prevUpdateId : ℕ
  lastUpdateId : ℕ
  /-- Absolute levels; a zero quantity removes the level. -/
  bids : List (BookLevel D)
  asks : List (BookLevel D)
  ts : Timestamp
  deriving DecidableEq

/-- Outcome of feeding a delta into the book. -/
inductive ApplyOutcome where
  | applied
  | stale
  | gap (expected got : ℕ)
  deriving DecidableEq, Repr

/-- How a candle series is cut into bars. -/
inductive Bucketing where
  /-- One bar per fixed slice of the clock. -/
  | time (intervalMs : ℤ)
  /-- One bar per fixed number of prints. -/
  | ticks (count : ℕ)
  deriving DecidableEq, Repr

/-- A finished or forming candle. -/
structure Candle (D : Type*) where
  symbol : Symbol
  openTime : Timestamp
  bucketing : Bucketing
  /-- Prints folded into this bar so far, a 32-bit counter. -/
  trades : ℕ
  open_ : D
  high : D
  low : D
  close : D
  volume : D
  /-- False while the candle is still forming. -/
  closed : Bool
  deriving DecidableEq

variable {D : Type*} [LinearOrder D] [Zero D]

/-- Order of two prices on a side: ascending for asks, descending for bids. -/
def cmpPrice (a b : D) (descending : Bool) : Ordering :=
  if descending then compare b a else compare a b

/-- Merge one absolute level into a side. -/
def applyLevel (side : List (BookLevel D)) (upd : BookLevel D) (descending : Bool) :
    List (BookLevel D) :=
  match binarySearchBy (fun lvl : BookLevel D => cmpPrice lvl.price upd.price descending) side with
  | .ok pos =>
    if upd.qty = 0 then side.eraseIdx pos
    else side.modify pos fun lvl => { lvl with qty := upd.qty }
  | .error pos => if upd.qty ≠ 0 then side.insertIdx pos upd else side

/-- Merge absolute levels into one side, dropping levels the venue zeroed out. -/
def applySide (side updates : List (BookLevel D)) (descending : Bool) : List (BookLevel D) :=
  updates.foldl (fun side upd => applyLevel side upd descending) side

namespace OrderBook

/-- Apply an incremental update, reporting staleness and sequence gaps. -/
def apply (self : OrderBook D) (delta : BookDelta D) : OrderBook D × ApplyOutcome :=
  if delta.lastUpdateId ≤ self.lastUpdateId then (self, .stale)
  else
    -- attaching to a snapshot tolerates an overlap; a chained book does not
    let continues :=
      if self.synced then delta.prevUpdateId = self.lastUpdateId
      else delta.prevUpdateId ≤ self.lastUpdateId
    if ¬ continues then (self, .gap self.lastUpdateId delta.prevUpdateId)
    else
      ({ self with
          bids := applySide self.bids delta.bids true
          asks := applySide self.asks delta.asks false
          lastUpdateId := delta.lastUpdateId
          ts := delta.ts
          synced := true }, .applied)

/-- The delta extends the book: it is newer, and it names the book's id as its predecessor,
or one the book already contains while the book is still attaching. -/
def Extends (delta : BookDelta D) (self : OrderBook D) : Prop :=
  self.lastUpdateId < delta.lastUpdateId ∧
    if self.synced then delta.prevUpdateId = self.lastUpdateId
    else delta.prevUpdateId ≤ self.lastUpdateId

instance (delta : BookDelta D) (self : OrderBook D) : Decidable (Extends delta self) := by
  unfold Extends
  infer_instance

/-- The book after a delta that extends it. -/
def extend (self : OrderBook D) (delta : BookDelta D) : OrderBook D :=
  { self with
    bids := applySide self.bids delta.bids true
    asks := applySide self.asks delta.asks false
    lastUpdateId := delta.lastUpdateId
    ts := delta.ts
    synced := true }

/-- Everything `apply` can do: leave a newer book alone, extend the book, or report a gap
and leave the book alone. -/
theorem apply_cases (self : OrderBook D) (delta : BookDelta D) :
    (delta.lastUpdateId ≤ self.lastUpdateId ∧ self.apply delta = (self, .stale)) ∨
    (Extends delta self ∧ self.apply delta = (self.extend delta, .applied)) ∨
    (self.lastUpdateId < delta.lastUpdateId ∧ ¬ Extends delta self ∧
      self.apply delta = (self, .gap self.lastUpdateId delta.prevUpdateId)) := by
  rcases Nat.lt_or_ge self.lastUpdateId delta.lastUpdateId with hlt | hge
  · by_cases hext : Extends delta self
    · exact .inr (.inl ⟨hext, by simp [apply, extend, Nat.not_le.mpr hlt, hext.2]⟩)
    · refine .inr (.inr ⟨hlt, hext, ?_⟩)
      have hcont := fun hc => hext ⟨hlt, hc⟩
      simp only [apply, if_neg (Nat.not_le.mpr hlt), if_pos hcont]
  · exact .inl ⟨hge, by simp only [apply, if_pos hge]⟩

@[simp]
theorem extend_symbol (self : OrderBook D) (delta : BookDelta D) :
    (self.extend delta).symbol = self.symbol := rfl

@[simp]
theorem extend_lastUpdateId (self : OrderBook D) (delta : BookDelta D) :
    (self.extend delta).lastUpdateId = delta.lastUpdateId := rfl

@[simp]
theorem extend_synced (self : OrderBook D) (delta : BookDelta D) :
    (self.extend delta).synced = true := rfl

end OrderBook

/-! ### A side as a map from prices to quantities -/

/-- Best first on a side: descending for bids, ascending for asks. -/
def Better (descending : Bool) (a b : D) : Prop := if descending then b < a else a < b

instance (descending : Bool) : IsStrictOrder D (Better descending) where
  irrefl a := by cases descending <;> simp [Better]
  trans a b c := by
    cases descending <;> simp only [Better, Bool.false_eq_true, if_true, if_false]
    · exact lt_trans
    · exact fun hab hbc => lt_trans hbc hab

/-- A well-formed side: strictly sorted best first, no zero quantity. -/
abbrev SideWellFormed (descending : Bool) (side : List (BookLevel D)) : Prop :=
  SortedAssoc (Better descending) BookLevel.price BookLevel.qty side

/-- The quantity a side shows at a price, zero where it shows none. -/
abbrev qtyAt (side : List (BookLevel D)) (price : D) : D :=
  lookup BookLevel.price BookLevel.qty side price

/-- A level with a fresh price in the middle of a side. -/
theorem qtyAt_middle {as bs : List (BookLevel D)} {lvl : BookLevel D}
    (h : ∀ a ∈ as, a.price ≠ lvl.price) (p : D) :
    qtyAt (as ++ lvl :: bs) p = if lvl.price = p then lvl.qty else qtyAt (as ++ bs) p :=
  lookup_middle h p

section CmpPrice

omit [Zero D]

theorem cmpPrice_eq_eq {a b : D} {descending : Bool} :
    cmpPrice a b descending = .eq ↔ a = b := by
  cases descending
  · exact compare_eq_iff_eq
  · exact compare_eq_iff_eq.trans eq_comm

theorem cmpPrice_eq_lt {a b : D} {descending : Bool} :
    cmpPrice a b descending = .lt ↔ Better descending a b := by
  cases descending <;> simp [cmpPrice, Better, compare_lt_iff_lt]

theorem cmpPrice_eq_gt {a b : D} {descending : Bool} :
    cmpPrice a b descending = .gt ↔ Better descending b a := by
  cases descending <;> simp [cmpPrice, Better, compare_gt_iff_gt]

end CmpPrice

namespace SideWellFormed

variable {descending : Bool} {side : List (BookLevel D)} {upd : BookLevel D}

/-- The side's map determines the side. -/
theorem ext {side' : List (BookLevel D)} (h : SideWellFormed descending side)
    (h' : SideWellFormed descending side') (heq : ∀ p, qtyAt side p = qtyAt side' p) :
    side = side' := by
  refine SortedAssoc.ext (fun a b hp hq => ?_) h h' heq
  cases a
  cases b
  simp only at hp hq
  rw [hp, hq]

/-- The comparator of the merge splits a sorted side. -/
theorem splits (h : SideWellFormed descending side) (p : D) :
    Splits (fun lvl : BookLevel D => cmpPrice lvl.price p descending) side := by
  refine h.sorted.imp fun {a b} hab => ⟨fun hb => ?_, fun ha => ?_⟩
  · rw [cmpPrice_eq_lt]
    rw [Ne, cmpPrice_eq_gt] at hb
    rcases lt_trichotomy b.price p with hlt | heq | hgt <;>
      cases descending <;> simp only [Better, Bool.false_eq_true, if_true, if_false] at * <;> grind
  · rw [cmpPrice_eq_gt]
    rw [Ne, cmpPrice_eq_lt] at ha
    rcases lt_trichotomy a.price p with hlt | heq | hgt <;>
      cases descending <;> simp only [Better, Bool.false_eq_true, if_true, if_false] at * <;> grind

/-- What merging one level into a well-formed side does: the side splits at the level's
price, and the level stands there afterwards unless its quantity is zero. -/
theorem applyLevel_cases (h : SideWellFormed descending side) (upd : BookLevel D) :
    ∃ as bs, (side = as ++ bs ∨ ∃ old, old.price = upd.price ∧ side = as ++ old :: bs) ∧
      (∀ a ∈ as, Better descending a.price upd.price) ∧
      (∀ b ∈ bs, Better descending upd.price b.price) ∧
      applyLevel side upd descending = if upd.qty = 0 then as ++ bs else as ++ upd :: bs := by
  simp only [applyLevel]
  rcases hs : binarySearchBy (fun lvl : BookLevel D => cmpPrice lvl.price upd.price descending) side
    with pos | pos
  · obtain ⟨hpos, hbefore, hafter⟩ := binarySearchBy_error (h.splits upd.price) hs
    refine ⟨side.take pos, side.drop pos, .inl (List.take_append_drop pos side).symm,
      fun a ha => cmpPrice_eq_lt.mp (hbefore a ha), fun b hb => cmpPrice_eq_gt.mp (hafter b hb), ?_⟩
    by_cases hq : upd.qty = 0
    · simp [hq]
    · simp [hq, insertIdx_eq_take_append_cons_drop hpos]
  · obtain ⟨hpos, hhit⟩ := binarySearchBy_ok hs
    have hprice : side[pos].price = upd.price := cmpPrice_eq_eq.mp hhit
    have hsplit : side = side.take pos ++ side[pos] :: side.drop (pos + 1) := by
      rw [← List.drop_eq_getElem_cons hpos, List.take_append_drop]
    have hsort := h.sorted
    rw [hsplit] at hsort
    obtain ⟨-, hcons, hleft⟩ := List.pairwise_append.mp hsort
    refine ⟨side.take pos, side.drop (pos + 1), .inr ⟨side[pos], hprice, hsplit⟩, fun a ha => ?_,
      fun b hb => ?_, ?_⟩
    · exact hprice ▸ hleft a ha _ List.mem_cons_self
    · exact hprice ▸ (List.pairwise_cons.mp hcons).1 b hb
    · by_cases hq : upd.qty = 0
      · simp [hq, List.eraseIdx_eq_take_drop_succ]
      · have hupd : ({ side[pos] with qty := upd.qty } : BookLevel D) = upd := by
          cases upd
          simp only [BookLevel.mk.injEq, and_true]
          exact hprice
        simp only [if_neg hq, List.modify_eq_take_cons_drop hpos, hupd]

/-- Merging one level keeps a side well formed. -/
theorem applyLevel (h : SideWellFormed descending side) :
    SideWellFormed descending (applyLevel side upd descending) := by
  obtain ⟨as, bs, hside, has, hbs, heq⟩ := h.applyLevel_cases upd
  have hrest : SideWellFormed descending (as ++ bs) := by
    rcases hside with rfl | ⟨old, -, rfl⟩
    · exact h
    · exact SortedAssoc.remove h
  rw [heq]
  split_ifs with hq
  · exact hrest
  · exact SortedAssoc.insert hrest has hbs hq

/-- Merging one level sets the quantity at its price and no other. -/
theorem qtyAt_applyLevel (h : SideWellFormed descending side) (p : D) :
    qtyAt (MoonCore.applyLevel side upd descending) p =
      if upd.price = p then upd.qty else qtyAt side p := by
  obtain ⟨as, bs, hside, has, hbs, heq⟩ := h.applyLevel_cases upd
  have hne : ∀ a ∈ as, a.price ≠ upd.price := fun a ha hp => irrefl _ (hp ▸ has a ha)
  have hne' : ∀ b ∈ bs, b.price ≠ upd.price := fun b hb hp => irrefl _ (hp ▸ hbs b hb)
  have hrest : upd.price ≠ p → qtyAt side p = qtyAt (as ++ bs) p := by
    intro hp
    rcases hside with rfl | ⟨old, hold, rfl⟩
    · rfl
    · rw [qtyAt_middle (fun a ha => hold ▸ hne a ha), if_neg (hold ▸ hp)]
  rw [heq]
  by_cases hp : upd.price = p
  · rw [if_pos hp]
    split_ifs with hq
    · rw [hq, ← hp]
      exact lookup_eq_zero fun a ha => (List.mem_append.mp ha).elim (hne a) (hne' a)
    · rw [qtyAt_middle hne, if_pos hp]
  · rw [if_neg hp, hrest hp]
    split_ifs with hq
    · rfl
    · rw [qtyAt_middle hne, if_neg hp]

/-- Merging levels keeps a side well formed. -/
theorem applySide (h : SideWellFormed descending side) (updates : List (BookLevel D)) :
    SideWellFormed descending (applySide side updates descending) := by
  induction updates generalizing side with
  | nil => exact h
  | cons upd rest ih => exact ih h.applyLevel

/-- A merge of absolute levels, read pointwise: where the updates agree with `f` and cover
every price at which the side differs from `f`, the merged side shows `f`. -/
theorem qtyAt_applySide (h : SideWellFormed descending side) {updates : List (BookLevel D)}
    {f : D → D} (hupd : ∀ upd ∈ updates, upd.qty = f upd.price)
    (hcover : ∀ p, qtyAt side p ≠ f p → ∃ upd ∈ updates, upd.price = p) (p : D) :
    qtyAt (MoonCore.applySide side updates descending) p = f p := by
  induction updates generalizing side with
  | nil =>
    by_contra hne
    obtain ⟨upd, hmem, -⟩ := hcover p hne
    exact absurd hmem List.not_mem_nil
  | cons upd rest ih =>
    refine ih h.applyLevel (fun u hu => hupd u (List.mem_cons_of_mem _ hu)) fun q hq => ?_
    rw [h.qtyAt_applyLevel] at hq
    split_ifs at hq with hp
    · exact absurd (by rw [hupd upd List.mem_cons_self, hp]) hq
    · obtain ⟨u, hu, hup⟩ := hcover q hq
      rcases List.mem_cons.mp hu with rfl | hu
      · exact absurd hup hp
      · exact ⟨u, hu, hup⟩

end SideWellFormed

end MoonCore
