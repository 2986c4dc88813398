import MoonCore.Machine.Run
import MoonCore.Wire.Catalogue

/-!
# Refreshing a market

A venue answers with the instruments of one market, in any order and with names repeated, and the
catalogue replaces what it listed. After any number of answers, `Catalogue.replace_exact` says what
one more leaves listed, what it reports as moved, and what `get` finds.
-/

namespace MoonCore

/-- A venue's answer: instruments of one market. -/
structure Refresh (D : Type*) where
  exchange : ExchangeId
  market : MarketKind
  items : List (Instrument D)
  ofMarket : ∀ i ∈ items, i.symbol.exchange = exchange ∧ i.symbol.market = market

namespace Catalogue

variable {D : Type*}

/-- What a market lists, if it was ever populated. -/
def listing (self : Catalogue D) (exchange : ExchangeId) (market : MarketKind) :
    List (Instrument D) :=
  (self.byMarket.lookup (exchange, market)).getD []

/-- What every market lists are its own instruments. -/
def OfMarkets (self : Catalogue D) : Prop :=
  ∀ exchange market, ∀ i ∈ self.listing exchange market,
    i.symbol.exchange = exchange ∧ i.symbol.market = market

/-- A tidied list holds the first instrument of each name. -/
theorem mem_tidy {incoming : List (Instrument D)} {i : Instrument D} :
    i ∈ tidy incoming ↔ incoming.find? (fun j => j.name = i.name) = some i := by
  have hfirst := find?_destutter_mergeSort Instrument.name incoming i.name
  rw [← hfirst]
  exact ((find?_key_eq_some_iff Instrument.name (sorted_tidy incoming)).trans
    (and_iff_left rfl)).symm

/-- What a market lists is strictly sorted by name. -/
theorem sorted_listing (self : Catalogue D) (exchange : ExchangeId) (market : MarketKind) :
    ((self.listing exchange market).map Instrument.name).Pairwise (· < ·) := by
  rw [listing]
  cases hall : self.byMarket.lookup (exchange, market) with
  | none => exact List.Pairwise.nil
  | some all => exact self.sorted _ _ hall

/-! ### The difference of two lists of one market -/

section Difference

variable {exchange : ExchangeId} {market : MarketKind}

/-- An instrument of a market is told from the others of it by its name. -/
theorem symbol_eq {i : Instrument D}
    (hi : i.symbol.exchange = exchange ∧ i.symbol.market = market) :
    i.symbol = ⟨exchange, market, i.name⟩ := by
  obtain ⟨rfl, rfl⟩ := hi
  rfl

theorem symbol_eq_iff {i j : Instrument D}
    (hi : i.symbol.exchange = exchange ∧ i.symbol.market = market)
    (hj : j.symbol.exchange = exchange ∧ j.symbol.market = market) :
    i.symbol = j.symbol ↔ i.name = j.name := by
  rw [symbol_eq hi, symbol_eq hj, Symbol.mk.injEq]
  simp only [true_and]

variable {all : List (Instrument D)}

/-- An instrument's symbol is in a list of its market if the name is. -/
theorem mem_symbols_iff (hall : ∀ i ∈ all, i.symbol.exchange = exchange ∧ i.symbol.market = market)
    {i : Instrument D} (hi : i.symbol.exchange = exchange ∧ i.symbol.market = market) :
    i.symbol ∈ all.map Instrument.symbol ↔ ∃ j ∈ all, j.name = i.name := by
  rw [List.mem_map]
  exact exists_congr fun j => and_congr_right fun hj => symbol_eq_iff (hall j hj) hi

/-- What a filter keeps if it asks whether the symbol is missing elsewhere. -/
theorem mem_symbols_filter {p : Instrument D → Bool} {symbols : List Symbol}
    (hp : ∀ i ∈ all, (p i = true ↔ i.symbol ∉ symbols)) (symbol : Symbol) :
    symbol ∈ (all.filter p).map Instrument.symbol ↔
      symbol ∈ all.map Instrument.symbol ∧ symbol ∉ symbols := by
  simp only [List.mem_map, List.mem_filter]
  constructor
  · rintro ⟨i, ⟨hi, hpi⟩, rfl⟩
    exact ⟨⟨i, hi, rfl⟩, (hp i hi).mp hpi⟩
  · rintro ⟨⟨i, hi, rfl⟩, hnot⟩
    exact ⟨i, ⟨hi, (hp i hi).mpr hnot⟩, rfl⟩

/-- Of a list sorted by name, a filter keeps no symbol twice. -/
theorem nodup_symbols_filter (hall : (all.map Instrument.name).Pairwise (· < ·))
    (p : Instrument D → Bool) : ((all.filter p).map Instrument.symbol).Nodup := by
  have hnodup : (all.map Instrument.symbol).Nodup :=
    List.pairwise_map.mpr ((List.pairwise_map.mp hall).imp
      fun hlt heq => hlt.ne (congrArg Symbol.raw heq))
  exact hnodup.sublist (List.filter_sublist.map _)

variable [DecidableEq D]

/-- The terms are all there is to an instrument but its symbol. -/
theorem sameTerms_iff {i j : Instrument D} (h : i.symbol = j.symbol) :
    sameTerms i j = true ↔ i = j := by
  constructor
  · intro hterms
    simp only [sameTerms, Bool.and_eq_true, decide_eq_true_eq] at hterms
    obtain ⟨⟨⟨⟨⟨⟨⟨htick, hstep⟩, hqty⟩, hnotional⟩, htrading⟩, hbase⟩, hquote⟩, hmargin⟩ := hterms
    cases i
    cases j
    simp_all only
  · rintro rfl
    simp only [sameTerms, decide_true, Bool.and_self]

end Difference

/-! ### One answer -/

/-- The answer of a market has only its own instruments. -/
theorem ofMarket_tidy (answer : Refresh D) : ∀ i ∈ tidy answer.items,
    i.symbol.exchange = answer.exchange ∧ i.symbol.market = answer.market :=
  fun i hi => answer.ofMarket i (List.mem_of_find?_eq_some (mem_tidy.mp hi))

variable [DecidableEq D]

/-- A catalogue that takes answers. -/
def machine : Machine (Catalogue D) (Refresh D) Changed where
  step self answer := self.replace answer.exchange answer.market answer.items

/-- What replacing one market's list does. -/
structure Replaced (self next : Catalogue D) (answer : Refresh D) (changed : Changed) : Prop where
  populated : next.byMarket.lookup (answer.exchange, answer.market) =
    some (next.listing answer.exchange answer.market)
  sorted : ((next.listing answer.exchange answer.market).map Instrument.name).Pairwise (· < ·)
  /-- The first instrument of each name is listed, and nothing else. -/
  first : ∀ i, i ∈ next.listing answer.exchange answer.market ↔
    answer.items.find? (fun j => j.name = i.name) = some i
  added : ∀ symbol, symbol ∈ changed.added ↔
    symbol ∈ (next.listing answer.exchange answer.market).map Instrument.symbol ∧
      symbol ∉ (self.listing answer.exchange answer.market).map Instrument.symbol
  removed : ∀ symbol, symbol ∈ changed.removed ↔
    symbol ∈ (self.listing answer.exchange answer.market).map Instrument.symbol ∧
      symbol ∉ (next.listing answer.exchange answer.market).map Instrument.symbol
  altered : ∀ symbol, symbol ∈ changed.altered ↔
    ∃ old ∈ self.listing answer.exchange answer.market,
      ∃ i ∈ next.listing answer.exchange answer.market,
        old.symbol = symbol ∧ i.symbol = symbol ∧ old ≠ i
  nodup : (changed.added ++ changed.removed ++ changed.altered).Nodup
  others : ∀ key, key ≠ (answer.exchange, answer.market) →
    next.byMarket.lookup key = self.byMarket.lookup key
  rev : next.rev =
    if changed.added = [] ∧ changed.removed = [] ∧ changed.altered = [] then self.rev
    else self.rev + 1
  get : ∀ symbol i, next.get symbol = some i ↔
    i ∈ next.listing symbol.exchange symbol.market ∧ i.symbol = symbol

omit [DecidableEq D] in
/-- `get` finds what is listed. -/
theorem get_eq_some_iff {self : Catalogue D} (hself : self.OfMarkets) (symbol : Symbol)
    (i : Instrument D) :
    self.get symbol = some i ↔
      i ∈ self.listing symbol.exchange symbol.market ∧ i.symbol = symbol := by
  -- in its own market an instrument is sought by its name
  have hsymbol : i ∈ self.listing symbol.exchange symbol.market →
      (i.symbol = symbol ↔ i.name = symbol.raw) := by
    intro hi
    rw [symbol_eq (hself _ _ i hi), Symbol.mk.injEq]
    exact ⟨fun h => h.2.2, fun h => ⟨rfl, rfl, h⟩⟩
  have hsorted := self.sorted_listing symbol.exchange symbol.market
  rw [and_congr_right hsymbol, ← binarySearchBy_compare hsorted, get, listing]
  cases self.byMarket.lookup (symbol.exchange, symbol.market) with
  | none => simp
  | some all =>
    simp only [Option.getD_some]
    cases binarySearchBy (fun i => compare i.name symbol.raw) all <;> simp

variable (self : Catalogue D) (answer : Refresh D)

theorem lookup_next (key : ExchangeId × MarketKind) :
    (machine.next self answer).byMarket.lookup key =
      if key = (answer.exchange, answer.market) then some (tidy answer.items)
      else self.byMarket.lookup key := by
  split_ifs with hkey
  · rw [hkey]
    exact AList.lookup_insert _
  · exact AList.lookup_insert_ne hkey

theorem listing_next :
    (machine.next self answer).listing answer.exchange answer.market = tidy answer.items := by
  rw [listing, lookup_next, if_pos rfl, Option.getD_some]

theorem listing_next_of_ne {exchange : ExchangeId} {market : MarketKind}
    (h : (exchange, market) ≠ (answer.exchange, answer.market)) :
    (machine.next self answer).listing exchange market = self.listing exchange market := by
  rw [listing, lookup_next, if_neg h, listing]

/-- Every market keeps to its own instruments. -/
theorem OfMarkets.next {self : Catalogue D} (hself : self.OfMarkets) (answer : Refresh D) :
    (machine.next self answer).OfMarkets := by
  intro exchange market
  by_cases hkey : (exchange, market) = (answer.exchange, answer.market)
  · obtain ⟨rfl, rfl⟩ := Prod.mk.inj hkey
    rw [listing_next]
    exact ofMarket_tidy answer
  · rw [listing_next_of_ne self answer hkey]
    exact hself exchange market

theorem ofMarkets_run (answers : List (Refresh D)) :
    (machine.run (.new : Catalogue D) answers).OfMarkets := by
  refine machine.run_invariant (fun _ answer hself => hself.next answer) ?_ answers
  intro exchange market i hi
  cases hi

/-! ### What is reported -/

theorem mem_added {self : Catalogue D} (hself : self.OfMarkets) (answer : Refresh D)
    (symbol : Symbol) :
    symbol ∈ (machine.out self answer).added ↔
      symbol ∈ (tidy answer.items).map Instrument.symbol ∧
        symbol ∉ (self.listing answer.exchange answer.market).map Instrument.symbol := by
  have hprevious := hself answer.exchange answer.market
  have hnew : ∀ i ∈ tidy answer.items,
      (((self.listing answer.exchange answer.market).find? fun j => j.name = i.name).isNone =
        true ↔ i.symbol ∉ (self.listing answer.exchange answer.market).map Instrument.symbol) := by
    intro i hi
    rw [mem_symbols_iff hprevious (ofMarket_tidy answer i hi), Option.isNone_iff_eq_none,
      List.find?_eq_none]
    simp
  change symbol ∈ ((tidy answer.items).filter fun i =>
    ((self.listing answer.exchange answer.market).find? fun j => j.name = i.name).isNone).map
      Instrument.symbol ↔ _
  exact mem_symbols_filter hnew symbol

theorem mem_removed {self : Catalogue D} (hself : self.OfMarkets) (answer : Refresh D)
    (symbol : Symbol) :
    symbol ∈ (machine.out self answer).removed ↔
      symbol ∈ (self.listing answer.exchange answer.market).map Instrument.symbol ∧
        symbol ∉ (tidy answer.items).map Instrument.symbol := by
  have hprevious := hself answer.exchange answer.market
  have hgone : ∀ old ∈ self.listing answer.exchange answer.market,
      (((tidy answer.items).all fun i => decide (i.name ≠ old.name)) = true ↔
        old.symbol ∉ (tidy answer.items).map Instrument.symbol) := by
    intro old hold
    rw [mem_symbols_iff (ofMarket_tidy answer) (hprevious old hold), List.all_eq_true]
    simp
  change symbol ∈ ((self.listing answer.exchange answer.market).filter fun old =>
    (tidy answer.items).all fun i => i.name ≠ old.name).map Instrument.symbol ↔ _
  exact mem_symbols_filter hgone symbol

theorem mem_altered {self : Catalogue D} (hself : self.OfMarkets) (answer : Refresh D)
    (symbol : Symbol) :
    symbol ∈ (machine.out self answer).altered ↔
      ∃ old ∈ self.listing answer.exchange answer.market, ∃ i ∈ tidy answer.items,
        old.symbol = symbol ∧ i.symbol = symbol ∧ old ≠ i := by
  have hprevious := hself answer.exchange answer.market
  have hsorted := self.sorted_listing answer.exchange answer.market
  change symbol ∈ ((tidy answer.items).filter fun i =>
    ((self.listing answer.exchange answer.market).find? fun j => j.name = i.name).any
      fun old => !sameTerms old i).map Instrument.symbol ↔ _
  simp only [List.mem_map, List.mem_filter, Option.any_eq_true,
    find?_key_eq_some_iff Instrument.name hsorted]
  constructor
  · rintro ⟨i, ⟨hi, old, ⟨hold, hname⟩, hterms⟩, rfl⟩
    have hsame := (symbol_eq_iff (hprevious old hold) (ofMarket_tidy answer i hi)).mpr hname
    refine ⟨old, hold, i, hi, hsame, rfl, ?_⟩
    rwa [Ne, ← sameTerms_iff hsame, Bool.not_eq_true, ← Bool.not_eq_true']
  · rintro ⟨old, hold, i, hi, rfl, hsame, hne⟩
    refine ⟨i, ⟨hi, old, ⟨hold, congrArg Symbol.raw hsame.symm⟩, ?_⟩, hsame⟩
    rwa [Bool.not_eq_true', ← Bool.not_eq_true, sameTerms_iff hsame.symm]

/-- No symbol is reported twice. -/
theorem nodup_reported {self : Catalogue D} (hself : self.OfMarkets) (answer : Refresh D) :
    ((machine.out self answer).added ++ (machine.out self answer).removed ++
      (machine.out self answer).altered).Nodup := by
  have hadded : (machine.out self answer).added.Nodup :=
    nodup_symbols_filter (sorted_tidy answer.items) _
  have hremoved : (machine.out self answer).removed.Nodup :=
    nodup_symbols_filter (self.sorted_listing answer.exchange answer.market) _
  have haltered : (machine.out self answer).altered.Nodup :=
    nodup_symbols_filter (sorted_tidy answer.items) _
  refine (hadded.append hremoved ?_).append haltered ?_
  · intro symbol hin hout
    exact ((mem_removed hself answer symbol).mp hout).2 ((mem_added hself answer symbol).mp hin).1
  · intro symbol hmoved halt
    obtain ⟨old, hold, i, hi, rfl, hsame, -⟩ := (mem_altered hself answer symbol).mp halt
    rcases List.mem_append.mp hmoved with hin | hout
    · exact ((mem_added hself answer _).mp hin).2 (List.mem_map_of_mem hold)
    · exact ((mem_removed hself answer _).mp hout).2 (hsame ▸ List.mem_map_of_mem hi)

/-- **The exact difference.** After any answers, one more leaves the first instrument of each of its
names listed, strictly sorted; what is reported as added, removed and altered is what is new, gone,
and listed on other terms, each once; other markets stay; the revision grows by one exactly if
anything is reported; and `get` finds what is listed. -/
theorem replace_exact (answers : List (Refresh D)) (answer : Refresh D) :
    Replaced (machine.run .new answers) (machine.run .new (answers ++ [answer])) answer
      (machine.out (machine.run .new answers) answer) := by
  have hself := ofMarkets_run answers
  rw [machine.run_concat]
  generalize machine.run (.new : Catalogue D) answers = self at hself ⊢
  have hlisting := listing_next self answer
  refine
    { populated := ?_
      sorted := sorted_listing _ _ _
      first := fun i => ?_
      added := ?_
      removed := ?_
      altered := ?_
      nodup := nodup_reported hself answer
      others := fun key hkey => ?_
      rev := ?_
      get := get_eq_some_iff (hself.next answer) }
  · rw [hlisting, lookup_next, if_pos rfl]
  · rw [hlisting]
    exact mem_tidy
  · rw [hlisting]
    exact mem_added hself answer
  · rw [hlisting]
    exact mem_removed hself answer
  · rw [hlisting]
    exact mem_altered hself answer
  · rw [lookup_next, if_neg hkey]
  · change (if (machine.out self answer).isEmpty then self.rev else self.rev + 1) = _
    simp only [Changed.isEmpty, Bool.and_eq_true, List.isEmpty_iff, and_assoc]

end Catalogue

end MoonCore
