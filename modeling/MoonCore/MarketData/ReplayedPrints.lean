import MoonCore.MarketData.Bars

/-!
# Prints that are sent twice

A venue resends prints after a reconnect, and a print carries its venue id so that repeats can
be told. The candles do not look at it: a repeat is folded like any other print, and is
without effect only where the series absorbs it anyway (`CandleSet.Absorbs`): behind the
forming bar by the clock, and by the number of prints only in a series full of copies of its
own one-print bar. `onTrade_fst_eq_self_iff` says that these are all the prints that change
nothing, `replayed_prints_iff` what that means for a tape with repeats.
-/

namespace MoonCore

variable {D : Type*}

/-- Two prints the venue gave one id. -/
def PublicTrade.SamePrint (a b : PublicTrade D) : Prop := a.symbol = b.symbol ∧ a.id = b.id

instance (a b : PublicTrade D) : Decidable (a.SamePrint b) := inferInstanceAs (Decidable (_ ∧ _))

/-- No earlier print has the id of this one. -/
def firstPrint (earlier : List (PublicTrade D)) (trade : PublicTrade D) : Bool :=
  earlier.all fun e => ¬ e.SamePrint trade

theorem firstPrint_eq_false_iff {earlier : List (PublicTrade D)} {trade : PublicTrade D} :
    firstPrint earlier trade = false ↔ ∃ e ∈ earlier, e.SamePrint trade := by
  simp [firstPrint]

/-- The tape as it was before anything was sent twice. -/
def withoutRepeats (tape : List (PublicTrade D)) : List (PublicTrade D) :=
  filterAfter firstPrint tape

namespace CandleSet

/-- The series of the print's symbol takes it without a change. -/
def Absorbs (self : CandleSet D) (trade : PublicTrade D) : Prop :=
  match self.bucketing with
  | .time intervalMs => ∃ current, (self.series trade.symbol.key).getLast? = some current ∧
      wrapI64 (trade.ts - trade.ts % intervalMs) < current.openTime
  | .ticks count => count = 1 ∧ (self.series trade.symbol.key).length = self.capacity ∧
      ∀ bar ∈ self.series trade.symbol.key, bar = Candle.opening trade trade.ts (.ticks count)

theorem put_eq_self_iff {self : CandleSet D} {key : String} {series : List (Candle D)} :
    self.put key series = self ↔ series = self.series key := by
  constructor
  · intro h
    have hseries := congrFun (congrArg CandleSet.series h) key
    rwa [put_series, if_pos rfl] at hseries
  · rintro rfl
    rw [put, Function.update_eq_self]

variable {self : CandleSet D} {trade : PublicTrade D}

/-- Rolling a series over leaves it as it is only where it is full of closed copies of the bar
that is opened. -/
theorem roll_fst_eq_self_iff {init : List (Candle D)} {last : Candle D} {openTime : Timestamp}
    (h : self.series trade.symbol.key = init ++ [last]) :
    (self.roll trade openTime).1 = self ↔
      (init ++ [last]).length = self.capacity ∧
        last = Candle.opening trade openTime self.bucketing ∧
        ∀ bar ∈ init, bar = { last with closed := true } := by
  have hcap := self.capacity_pos
  rw [roll_concat h, put_eq_self_iff, h, pushBounded_eq_concat hcap]
  constructor
  · intro heq
    obtain ⟨hinit, hlast⟩ := List.append_inj' heq rfl
    obtain ⟨hlen, hcopies⟩ := rtake_concat_eq_self_iff.mp hinit
    refine ⟨?_, (List.singleton_inj.mp hlast).symm, hcopies⟩
    rw [List.length_append, List.length_singleton]
    omega
  · rintro ⟨hlen, hlast, hcopies⟩
    rw [List.length_append, List.length_singleton] at hlen
    rw [rtake_concat_eq_self_iff.mpr ⟨by omega, hcopies⟩, hlast]

/-- Rolling over a tick series whose last bar has no room for the print. -/
theorem roll_ticks_fst_eq_self_iff {count : ℕ} (hpos : 0 < count)
    (hb : self.bucketing = .ticks count) {init : List (Candle D)} {last : Candle D}
    (hlast : self.series trade.symbol.key = init ++ [last])
    (hroom : ¬ (!last.closed && decide (last.trades < count)) = true) :
    (self.roll trade trade.ts).1 = self ↔
      count = 1 ∧ (init ++ [last]).length = self.capacity ∧
        ∀ bar ∈ init ++ [last], bar = Candle.opening trade trade.ts (.ticks count) := by
  rw [roll_fst_eq_self_iff hlast, hb]
  constructor
  · rintro ⟨hlen, rfl, hcopies⟩
    -- the bar is the one the print opens and has no room, so it holds one print only
    have hone : count = 1 := by
      have hfull : ¬ (!decide (1 ≥ count) && decide (1 < count)) = true := hroom
      simp only [Bool.and_eq_true, Bool.not_eq_true', decide_eq_true_eq, decide_eq_false_iff_not]
        at hfull
      omega
    subst hone
    refine ⟨rfl, hlen, fun bar hbar => ?_⟩
    obtain hbar | hbar := List.mem_append.mp hbar
    · exact hcopies bar hbar
    · exact List.mem_singleton.mp hbar
  · rintro ⟨rfl, hlen, hall⟩
    have hopen := hall last (by simp)
    refine ⟨hlen, hopen, fun bar hbar => ?_⟩
    rw [hall bar (List.mem_append_left _ hbar), hopen]
    rfl

/-- A bar that has counted a print is not the bar it was. -/
theorem ne_of_counted {bar bar' : Candle D} (h : bar'.trades = (bar.trades + 1) % 2 ^ 32) :
    bar' ≠ bar := by
  rintro rfl
  omega

variable [LinearOrder D] [Add D]

theorem foldTime_fst_eq_self_iff {intervalMs : ℤ} :
    (self.foldTime trade intervalMs).1 = self ↔
      ∃ current, (self.series trade.symbol.key).getLast? = some current ∧
        wrapI64 (trade.ts - trade.ts % intervalMs) < current.openTime := by
  rcases List.eq_nil_or_concat' (self.series trade.symbol.key) with hnil | ⟨init, last, hlast⟩
  · simp only [foldTime, hnil, List.getLast?_nil, roll_nil hnil, put_eq_self_iff,
      pushBounded_nil self.capacity_pos]
    simp
  · simp only [foldTime, hlast, List.getLast?_concat, setBack_concat, Option.some.injEq,
      exists_eq_left']
    split_ifs with hlt heq
    · exact iff_of_true rfl hlt
    · refine iff_of_false (fun h => ?_) hlt
      rw [put_eq_self_iff, hlast] at h
      exact ne_of_counted (rfl : (last.extend trade).trades = _) (by simpa using h)
    · refine iff_of_false (fun h => heq ?_) hlt
      rw [((roll_fst_eq_self_iff hlast).mp h).2.1]
      rfl

theorem foldTicks_fst_eq_self_iff {count : ℕ} (hpos : 0 < count)
    (hb : self.bucketing = .ticks count) :
    (self.foldTicks trade count).1 = self ↔
      count = 1 ∧ (self.series trade.symbol.key).length = self.capacity ∧
        ∀ bar ∈ self.series trade.symbol.key,
          bar = Candle.opening trade trade.ts (.ticks count) := by
  have hcap := self.capacity_pos
  rcases List.eq_nil_or_concat' (self.series trade.symbol.key) with hnil | ⟨init, last, hlast⟩
  · simp only [foldTicks, hnil, List.getLast?_nil, roll_nil hnil, put_eq_self_iff,
      pushBounded_nil hcap]
    refine iff_of_false (by simp) fun h => ?_
    exact absurd h.2.1 (by simp [hcap.ne])
  · simp only [foldTicks, hlast, List.getLast?_concat, setBack_concat]
    -- a forming bar with room is not the full bar of one print
    have hforming : (!last.closed && decide (last.trades < count)) = true →
        ¬ (count = 1 ∧ (init ++ [last]).length = self.capacity ∧
          ∀ bar ∈ init ++ [last], bar = Candle.opening trade trade.ts (.ticks count)) := by
      rintro hroom ⟨rfl, -, hall⟩
      rw [hall last (by simp)] at hroom
      exact absurd hroom (by simp [Candle.opening, Bucketing.completeAtOne])
    split_ifs with hroom hfull
    · refine iff_of_false (fun h => ?_) (hforming hroom)
      rw [put_eq_self_iff, hlast] at h
      have heq : { last.extend trade with closed := true } = last := by simpa using h
      exact ne_of_counted rfl heq
    · refine iff_of_false (fun h => ?_) (hforming hroom)
      rw [put_eq_self_iff, hlast] at h
      exact ne_of_counted (rfl : (last.extend trade).trades = _) (by simpa using h)
    · exact roll_ticks_fst_eq_self_iff hpos hb hlast hroom

/-- The prints that change nothing. -/
theorem onTrade_fst_eq_self_iff (hcount : ∀ count, self.bucketing = .ticks count → 0 < count) :
    (self.onTrade trade).1 = self ↔ self.Absorbs trade := by
  rcases hb : self.bucketing with intervalMs | count
  · simp only [onTrade, Absorbs, hb]
    exact foldTime_fst_eq_self_iff
  · simp only [onTrade, Absorbs, hb]
    exact foldTicks_fst_eq_self_iff (hcount count hb) hb

/-- A set is built with bars of at least one print. -/
theorem ticks_pos_of_new {bucketing : Bucketing} {capacity count : ℕ}
    {tape : List (PublicTrade D)}
    (h : (machine.run (new bucketing capacity : CandleSet D) tape).bucketing = .ticks count) :
    0 < count := by
  rw [bucketing_run] at h
  cases bucketing with
  | time intervalMs => exact absurd h Bucketing.noConfusion
  | ticks n =>
    have hclamp : max n 1 = count := Bucketing.ticks.inj h
    omega

/-- Repeats leave no mark on the candles, after any part of a tape, exactly if every repeat
meets a series that absorbs it. -/
theorem replayed_prints_iff (bucketing : Bucketing) (capacity : ℕ)
    (tape : List (PublicTrade D)) :
    (∀ pre, pre <+: tape →
        machine.run (new bucketing capacity) pre =
          machine.run (new bucketing capacity) (withoutRepeats pre)) ↔
      ∀ pre trade post, tape = pre ++ trade :: post → (∃ e ∈ pre, e.SamePrint trade) →
        (machine.run (new bucketing capacity) pre).Absorbs trade := by
  refine (Machine.forall_prefix_run_filterAfter_iff machine firstPrint _ tape).trans ?_
  refine forall₃_congr fun pre trade post => imp_congr_right fun _ =>
    imp_congr firstPrint_eq_false_iff ?_
  exact onTrade_fst_eq_self_iff fun count hb => ticks_pos_of_new hb

/-- A print resent while its bar is forming is counted again, and an early print of a tick bar
resent later opens or fills a bar of its own. -/
theorem replayed_prints_counted :
    withoutRepeats [onePrint 5 1, onePrint 5 1] = [onePrint 5 1] ∧
    machine.run (new (.time 1000) 5) [onePrint 5 1, onePrint 5 1] ≠
      machine.run (new (.time 1000) 5) [onePrint 5 1] ∧
    withoutRepeats [onePrint 5 1, onePrint 6 2, onePrint 5 1] = [onePrint 5 1, onePrint 6 2] ∧
    machine.run (new (.ticks 2) 5) [onePrint 5 1, onePrint 6 2, onePrint 5 1] ≠
      machine.run (new (.ticks 2) 5) [onePrint 5 1, onePrint 6 2] := by
  refine ⟨by decide, fun h => ?_, by decide, fun h => ?_⟩
  · have hseries := congrFun (congrArg CandleSet.series h) btcusdt.key
    exact absurd hseries (by decide)
  · have hseries := congrFun (congrArg CandleSet.series h) btcusdt.key
    exact absurd hseries (by decide)

end CandleSet

end MoonCore
