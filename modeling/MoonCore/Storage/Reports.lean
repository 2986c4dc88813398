import Mathlib.Algebra.BigOperators.Group.List.Basic
import Mathlib.Algebra.Group.Int.Defs
import Mathlib.Algebra.Group.Prod
import Mathlib.Algebra.Order.Ring.Cast
import Mathlib.Algebra.Order.Ring.Int
import Mathlib.Algebra.Order.Ring.Rat
import Mathlib.Data.Nat.Notation

/-!
# Reports agree with their parts

`storage::read::period_summary`: one query over `deals`, folded into counts and a total. A period
is half open, so consecutive periods share no moment and leave none out
(`countP_subPeriods`), and whatever adds up over rows adds up over periods
(`perm_selected_subPeriods`). `period_summary_parts` says so of the figures of a report.

The decimal type is a library's. `ReportDecimals` holds the operations a report uses, and `Exact`
what exact arithmetic and its own printing promise of them.
-/

namespace MoonCore

/-- The decimal operations of a report. -/
structure ReportDecimals (D : Type*) where
  /-- `Decimal::ZERO`, which is also `Decimal::default()`. -/
  zero : D
  add : D → D → D
  isSignNegative : D → Bool
  isZero : D → Bool
  /-- `to_string` -/
  text : D → String
  parse : String → Option D
  /-- The number a decimal stands for. -/
  number : D → ℚ

/-- The arithmetic is exact, and a printed decimal is read as the same number. A zero may have
either sign. -/
structure ReportDecimals.Exact {D : Type*} (ops : ReportDecimals D) : Prop where
  number_zero : ops.number ops.zero = 0
  number_add : ∀ a b, ops.number (ops.add a b) = ops.number a + ops.number b
  isZero_iff : ∀ a, ops.isZero a ↔ ops.number a = 0
  isSignNegative_iff : ∀ a, ops.number a ≠ 0 → (ops.isSignNegative a ↔ ops.number a < 0)
  parse_text : ∀ a, ∃ b, ops.parse (ops.text a) = some b ∧ ops.number b = ops.number a

/-- A row of `deals`, with the two checks its table makes of a closed one. -/
structure Deal where
  coreUid : ℤ
  phase : String
  realized : Option String
  closedAt : Option ℤ
  /-- `CHECK (phase <> 'closed' OR closed_at IS NOT NULL)` -/
  closedAt_check : phase ≠ "closed" ∨ closedAt ≠ none
  /-- `CHECK (phase <> 'closed' OR realized IS NOT NULL)` -/
  realized_check : phase ≠ "closed" ∨ realized ≠ none

/-- Aggregates a report screen asks for. -/
structure PeriodSummary where
  deals : ℤ
  realized : String
  wins : ℤ
  losses : ℤ
  deriving DecidableEq

/-- `WHERE core_uid = ?1 AND closed_at >= ?2 AND closed_at < ?3 AND phase = 'closed'`. No
comparison holds of NULL. -/
def Deal.selected (coreUid fromMs toMs : ℤ) (deal : Deal) : Bool :=
  deal.coreUid = coreUid ∧ deal.closedAt.any (fun t => fromMs ≤ t ∧ t < toMs) ∧
    deal.phase = "closed"

section

variable {D : Type*} (ops : ReportDecimals D)

/-- One row of the answer, read as text. -/
def PeriodSummary.row (acc : PeriodSummary × D) (text : String) : PeriodSummary × D :=
  let (summary, total) := acc
  let value := (ops.parse text).getD ops.zero
  let counted := { summary with deals := summary.deals + 1 }
  let counted :=
    if ops.isSignNegative value && !ops.isZero value then
      { counted with losses := counted.losses + 1 }
    else if !ops.isZero value then { counted with wins := counted.wins + 1 }
    else counted
  (counted, ops.add total value)

/-- What `period_summary` makes of the rows of its query; a NULL cannot be read as text. -/
def summarize (rows : List (Option String)) : Option PeriodSummary :=
  let start : PeriodSummary × D := (⟨0, "0", 0, 0⟩, ops.zero)
  (rows.foldlM (fun acc (row : Option String) => row.map (PeriodSummary.row ops acc)) start).map
    fun (summary, total) => { summary with realized := ops.text total }

/-- Everything closed within a period, for one core. The query has no ORDER BY: its rows come in
some order. -/
def IsPeriodSummary (table : List Deal) (coreUid fromMs toMs : ℤ) (summary : PeriodSummary) :
    Prop :=
  ∃ rows : List Deal, rows.Perm (table.filter (Deal.selected coreUid fromMs toMs)) ∧
    summarize ops (rows.map Deal.realized) = some summary

/-- The number a realized text is read as. -/
def ReportDecimals.amount (text : String) : ℚ := ops.number ((ops.parse text).getD ops.zero)

/-- How many deals a report counts, how many it counts as won and as lost, and its total. -/
def PeriodSummary.figures (summary : PeriodSummary) : ℤ × ℤ × ℤ × ℚ :=
  (summary.deals, summary.wins, summary.losses, ops.amount summary.realized)

/-- The same of some deals. -/
def dealFigures (rows : List Deal) : ℤ × ℤ × ℤ × ℚ :=
  let amounts := rows.map fun deal => ops.amount (deal.realized.getD "")
  (rows.length, amounts.countP (0 < ·), amounts.countP (· < 0), amounts.sum)

end

variable {D : Type*} {ops : ReportDecimals D}

/-! ### What the fold adds up to -/

theorem dealFigures_append (rows later : List Deal) :
    dealFigures ops (rows ++ later) = dealFigures ops rows + dealFigures ops later := by
  simp [dealFigures]

theorem dealFigures_perm {rows other : List Deal} (h : rows.Perm other) :
    dealFigures ops rows = dealFigures ops other := by
  have hamounts := h.map fun deal : Deal => ops.amount (deal.realized.getD "")
  simp only [dealFigures, h.length_eq, hamounts.countP_eq, hamounts.sum_eq]

variable (ops) in
/-- The figures of the fold so far. -/
def accFigures (acc : PeriodSummary × D) : ℤ × ℤ × ℤ × ℚ :=
  (acc.1.deals, acc.1.wins, acc.1.losses, ops.number acc.2)

/-- A row adds its own figures. A zero is neither a win nor a loss, whichever its sign. -/
theorem accFigures_row (hops : ops.Exact) (acc : PeriodSummary × D) {deal : Deal} {text : String}
    (h : deal.realized = some text) :
    accFigures ops (PeriodSummary.row ops acc text) =
      accFigures ops acc + dealFigures ops [deal] := by
  have hamount : ops.amount (deal.realized.getD "") =
      ops.number ((ops.parse text).getD ops.zero) := by rw [h]; rfl
  simp only [accFigures, dealFigures, PeriodSummary.row, hops.number_add, List.map_cons,
    List.map_nil, hamount, List.sum_singleton, List.length_singleton]
  generalize (ops.parse text).getD ops.zero = value
  have hzero := hops.isZero_iff value
  rcases lt_trichotomy (ops.number value) 0 with hneg | heq | hpos
  · have hsign := (hops.isSignNegative_iff value hneg.ne).mpr hneg
    have hnonzero : ops.isZero value = false := by simpa using mt hzero.mp hneg.ne
    simp [hsign, hnonzero, hneg, hneg.not_gt]
  · simp [hzero.mpr heq, heq]
  · have hsign : ops.isSignNegative value = false := by
      simpa using mt (hops.isSignNegative_iff value hpos.ne').mp hpos.not_gt
    have hnonzero : ops.isZero value = false := by simpa using mt hzero.mp hpos.ne'
    simp [hsign, hnonzero, hpos, hpos.not_gt]

/-- The fold over rows none of which is NULL. -/
theorem foldlM_row (hops : ops.Exact) {rows : List Deal}
    (hrows : ∀ deal ∈ rows, deal.realized ≠ none) (acc : PeriodSummary × D) :
    ∃ after, (rows.map Deal.realized).foldlM
        (fun acc (row : Option String) => row.map (PeriodSummary.row ops acc)) acc = some after ∧
      accFigures ops after = accFigures ops acc + dealFigures ops rows := by
  induction rows generalizing acc with
  | nil => exact ⟨acc, rfl, (add_zero _).symm⟩
  | cons deal rows ih =>
    obtain ⟨hdeal, hrest⟩ := List.forall_mem_cons.mp hrows
    obtain ⟨text, htext⟩ := Option.ne_none_iff_exists'.mp hdeal
    obtain ⟨after, hafter, hfigures⟩ := ih hrest (PeriodSummary.row ops acc text)
    refine ⟨after, ?_, ?_⟩
    · rw [List.map_cons, List.foldlM_cons, htext]
      exact hafter
    · rw [hfigures, accFigures_row hops acc htext, add_assoc, ← dealFigures_append,
        List.singleton_append]

/-- A printed decimal is read as it was. -/
theorem amount_text (hops : ops.Exact) (d : D) : ops.amount (ops.text d) = ops.number d := by
  obtain ⟨read, hread, hnumber⟩ := hops.parse_text d
  rw [ReportDecimals.amount, hread, Option.getD_some, hnumber]

/-- A report of rows none of which is NULL has their figures. -/
theorem summarize_spec (hops : ops.Exact) {rows : List Deal}
    (hrows : ∀ deal ∈ rows, deal.realized ≠ none) :
    ∃ summary, summarize ops (rows.map Deal.realized) = some summary ∧
      summary.figures ops = dealFigures ops rows := by
  obtain ⟨⟨summary, total⟩, hfold, hfigures⟩ :=
    foldlM_row hops hrows (⟨0, "0", 0, 0⟩, ops.zero)
  refine ⟨{ summary with realized := ops.text total }, by rw [summarize, hfold]; rfl, ?_⟩
  have htotal := amount_text hops total
  have hstart : accFigures ops (⟨0, "0", 0, 0⟩, ops.zero) = 0 := by
    simp only [accFigures, hops.number_zero]
    rfl
  rw [hstart, zero_add] at hfigures
  rw [← hfigures]
  simp only [PeriodSummary.figures, accFigures, htotal]

/-! ### Consecutive periods -/

/-- A closed deal of this core that was closed in this period. -/
def Deal.ClosedIn (coreUid fromMs toMs : ℤ) (deal : Deal) : Prop :=
  deal.coreUid = coreUid ∧ deal.phase = "closed" ∧
    ∃ t, deal.closedAt = some t ∧ fromMs ≤ t ∧ t < toMs

theorem Deal.selected_iff {coreUid fromMs toMs : ℤ} {deal : Deal} :
    deal.selected coreUid fromMs toMs ↔ deal.ClosedIn coreUid fromMs toMs := by
  rw [Deal.selected, Deal.ClosedIn, decide_eq_true_iff]
  cases deal.closedAt with
  | none => simp
  | some t => simp [and_comm]

instance {coreUid fromMs toMs : ℤ} {deal : Deal} : Decidable (deal.ClosedIn coreUid fromMs toMs) :=
  decidable_of_iff _ Deal.selected_iff

/-- The report of a period is of the deals closed in it, which paid this much: how many there are,
how many won, how many lost, and what they paid together. -/
structure PeriodSummary.Tells (ops : ReportDecimals D) (table : List Deal) (amount : Deal → ℚ)
    (coreUid fromMs toMs : ℤ) (summary : PeriodSummary) : Prop where
  deals : summary.deals = table.countP fun deal => deal.ClosedIn coreUid fromMs toMs
  wins : summary.wins =
    table.countP fun deal => deal.ClosedIn coreUid fromMs toMs ∧ 0 < amount deal
  losses : summary.losses =
    table.countP fun deal => deal.ClosedIn coreUid fromMs toMs ∧ amount deal < 0
  realized : ops.amount summary.realized =
    ((table.filter fun deal => deal.ClosedIn coreUid fromMs toMs).map amount).sum

/-- What the table promises of a deal the query selects. -/
theorem Deal.realized_ne_none {coreUid fromMs toMs : ℤ} {deal : Deal}
    (h : deal.selected coreUid fromMs toMs) : deal.realized ≠ none :=
  deal.realized_check.resolve_left fun hphase => hphase (Deal.selected_iff.mp h).2.1

/-- Every period has a report, and its figures are those of the deals closed in it. -/
theorem IsPeriodSummary.figures_eq (hops : ops.Exact) {table : List Deal}
    {coreUid fromMs toMs : ℤ} {summary : PeriodSummary}
    (h : IsPeriodSummary ops table coreUid fromMs toMs summary) :
    summary.figures ops = dealFigures ops (table.filter (Deal.selected coreUid fromMs toMs)) := by
  obtain ⟨rows, hperm, hsummary⟩ := h
  have hrows : ∀ deal ∈ rows, deal.realized ≠ none := fun deal hdeal =>
    Deal.realized_ne_none (List.mem_filter.mp (hperm.subset hdeal)).2
  obtain ⟨other, hother, hfigures⟩ := summarize_spec hops hrows
  rw [hsummary] at hother
  obtain rfl := Option.some.inj hother
  rw [hfigures, dealFigures_perm hperm]

/-- A report tells of the deals closed in its period what they were paid. -/
theorem IsPeriodSummary.tells (hops : ops.Exact) {table : List Deal} {paid : Deal → D}
    (hpaid : ∀ deal ∈ table, deal.phase = "closed" → deal.realized = some (ops.text (paid deal)))
    {coreUid fromMs toMs : ℤ} {summary : PeriodSummary}
    (h : IsPeriodSummary ops table coreUid fromMs toMs summary) :
    summary.Tells ops table (fun deal => ops.number (paid deal)) coreUid fromMs toMs := by
  -- The query's WHERE filter is the condition in words.
  have hselected : (fun deal : Deal => decide (deal.ClosedIn coreUid fromMs toMs)) =
      Deal.selected coreUid fromMs toMs := by
    funext deal
    rw [Bool.eq_iff_iff, decide_eq_true_iff, Deal.selected_iff]
  have hamounts : (table.filter (Deal.selected coreUid fromMs toMs)).map
      (fun deal => ops.amount (deal.realized.getD "")) =
        (table.filter (Deal.selected coreUid fromMs toMs)).map
          fun deal => ops.number (paid deal) := by
    refine List.map_congr_left fun deal hdeal => ?_
    obtain ⟨hmem, hclosed⟩ := List.mem_filter.mp hdeal
    rw [hpaid deal hmem (Deal.selected_iff.mp hclosed).2.1, Option.getD_some, amount_text hops]
  -- Wins and losses are both counted over the amounts of the selected rows.
  have hcount (p : ℚ → Prop) [DecidablePred p] :
      ((table.filter (Deal.selected coreUid fromMs toMs)).map
        fun deal => ops.number (paid deal)).countP (p ·) = table.countP fun deal =>
          decide (deal.ClosedIn coreUid fromMs toMs ∧ p (ops.number (paid deal))) := by
    rw [List.countP_map, List.countP_filter, ← hselected]
    congr 1
    funext deal
    rw [Function.comp_apply, Bool.decide_and, Bool.and_comm]
  have hfigures := h.figures_eq hops
  simp only [PeriodSummary.figures, dealFigures, hamounts, Prod.mk.injEq] at hfigures
  obtain ⟨hdeals, hwins, hlosses, htotal⟩ := hfigures
  refine ⟨?_, ?_, ?_, ?_⟩
  · rw [hdeals, hselected, List.countP_eq_length_filter]
  · rw [hwins, hcount]
  · rw [hlosses, hcount]
  · rw [htotal, hselected]

/-- The consecutive periods that begin at some moment and are cut at these. -/
def subPeriods : ℤ → List ℤ → List (ℤ × ℤ)
  | _, [] => []
  | fromMs, toMs :: cuts => (fromMs, toMs) :: subPeriods toMs cuts

/-- Two consecutive periods select what the whole one does. -/
theorem perm_selected_append (table : List Deal) (coreUid : ℤ) {a b c : ℤ} (hab : a ≤ b)
    (hbc : b ≤ c) :
    (table.filter (Deal.selected coreUid a b) ++ table.filter (Deal.selected coreUid b c)).Perm
      (table.filter (Deal.selected coreUid a c)) := by
  have hsplit := List.filter_append_perm (Deal.selected coreUid a b)
    (table.filter (Deal.selected coreUid a c))
  rw [List.filter_filter, List.filter_filter] at hsplit
  have hfirst : (fun deal => Deal.selected coreUid a b deal && Deal.selected coreUid a c deal) =
      Deal.selected coreUid a b := by
    funext deal
    rw [Bool.eq_iff_iff, Bool.and_eq_true, Deal.selected_iff, Deal.selected_iff]
    refine and_iff_left_of_imp ?_
    rintro ⟨huid, hphase, t, ht, hat, htb⟩
    exact ⟨huid, hphase, t, ht, hat, htb.trans_le hbc⟩
  have hsecond : (fun deal => (!Deal.selected coreUid a b deal) &&
      Deal.selected coreUid a c deal) = Deal.selected coreUid b c := by
    funext deal
    rw [Bool.eq_iff_iff, Bool.and_eq_true, Bool.not_eq_true', ← Bool.not_eq_true,
      Deal.selected_iff, Deal.selected_iff, Deal.selected_iff]
    constructor
    · rintro ⟨hnot, huid, hphase, t, ht, hat, htc⟩
      exact ⟨huid, hphase, t, ht, not_lt.mp fun htb => hnot ⟨huid, hphase, t, ht, hat, htb⟩, htc⟩
    · rintro ⟨huid, hphase, t, ht, hbt, htc⟩
      refine ⟨?_, huid, hphase, t, ht, hab.trans hbt, htc⟩
      rintro ⟨-, -, other, hother, -, hlt⟩
      obtain rfl := Option.some.inj (ht.symm.trans hother)
      exact absurd hbt (not_le.mpr hlt)
  rwa [hfirst, hsecond] at hsplit

/-- What a period selects is what its parts select. -/
theorem perm_selected_subPeriods (table : List Deal) (coreUid : ℤ) {a c : ℤ} {cuts : List ℤ}
    (hcuts : (a :: cuts).Pairwise (· ≤ ·)) (hlast : (a :: cuts).getLast? = some c) :
    ((subPeriods a cuts).flatMap fun part =>
        table.filter (Deal.selected coreUid part.1 part.2)).Perm
      (table.filter (Deal.selected coreUid a c)) := by
  induction cuts generalizing a with
  | nil =>
    obtain rfl : a = c := Option.some.inj hlast
    have hempty : table.filter (Deal.selected coreUid a a) = [] := by
      refine List.filter_eq_nil_iff.mpr fun deal _ hselected => ?_
      obtain ⟨-, -, t, -, hat, hta⟩ := Deal.selected_iff.mp hselected
      exact absurd hat (not_le.mpr hta)
    rw [hempty]
    exact .refl _
  | cons b cuts ih =>
    obtain ⟨hfirst, hrest⟩ := List.pairwise_cons.mp hcuts
    have hlastRest : (b :: cuts).getLast? = some c := by rwa [List.getLast?_cons_cons] at hlast
    have hbc : b ≤ c := by
      obtain rfl | hmem := List.mem_cons.mp (List.mem_of_getLast? hlastRest)
      · exact le_rfl
      · exact (List.pairwise_cons.mp hrest).1 c hmem
    rw [subPeriods, List.flatMap_cons]
    exact ((ih hrest hlastRest).append_left _).trans
      (perm_selected_append table coreUid (hfirst b List.mem_cons_self) hbc)

/-- A deal is selected as many times by the parts of a period as by the period. -/
theorem countP_subPeriods (deal : Deal) (coreUid : ℤ) {a c : ℤ} {cuts : List ℤ}
    (hcuts : (a :: cuts).Pairwise (· ≤ ·)) (hlast : (a :: cuts).getLast? = some c) :
    (subPeriods a cuts).countP (fun part => deal.selected coreUid part.1 part.2) =
      if deal.selected coreUid a c then 1 else 0 := by
  have hlength (parts : List (ℤ × ℤ)) :
      (parts.flatMap fun part => [deal].filter (Deal.selected coreUid part.1 part.2)).length =
        parts.countP fun part => deal.selected coreUid part.1 part.2 := by
    induction parts with
    | nil => rfl
    | cons part parts ih =>
      rw [List.flatMap_cons, List.length_append, ih, List.countP_cons, Nat.add_comm]
      congr 1
      by_cases h : deal.selected coreUid part.1 part.2 <;> simp [h]
  rw [← hlength, (perm_selected_subPeriods [deal] coreUid hcuts hlast).length_eq]
  by_cases h : deal.selected coreUid a c <;> simp [h]

/-- The figures of reports over some periods add up to those of the deals they select. -/
theorem sum_figures (hops : ops.Exact) {table : List Deal} {coreUid : ℤ}
    {periods : List (ℤ × ℤ)} {summaries : List PeriodSummary}
    (h : List.Forall₂ (fun part => IsPeriodSummary ops table coreUid part.1 part.2) periods
      summaries) :
    (summaries.map (PeriodSummary.figures ops)).sum = dealFigures ops
      (periods.flatMap fun part => table.filter (Deal.selected coreUid part.1 part.2)) := by
  induction h with
  | nil => rfl
  | cons hfirst _ ih =>
    rw [List.map_cons, List.sum_cons, ih, hfirst.figures_eq hops, List.flatMap_cons,
      dealFigures_append]

/-- Figures add up one by one. -/
theorem sum_map_figures (parts : List PeriodSummary) :
    (parts.map (PeriodSummary.figures ops)).sum =
      ((parts.map PeriodSummary.deals).sum, (parts.map PeriodSummary.wins).sum,
        (parts.map PeriodSummary.losses).sum,
        (parts.map fun part => ops.amount part.realized).sum) := by
  induction parts with
  | nil => rfl
  | cons part parts ih =>
    simp only [List.map_cons, List.sum_cons, ih]
    rfl

/-- **Reports agree with their parts.** For every table, every core and every cut of a period into
consecutive ones, and in whatever order the rows of each query come: the counts and the total of
the whole report are the sums of those of the parts; the whole report and each of the parts tells
exactly of the closed deals of the core with their closing time in its period; and such a deal of
the whole period is selected by exactly one part, and no other deal by any. -/
theorem period_summary_parts (hops : ops.Exact) {table : List Deal} {coreUid a c : ℤ}
    {cuts : List ℤ} (hcuts : (a :: cuts).Pairwise (· ≤ ·))
    (hlast : (a :: cuts).getLast? = some c) {paid : Deal → D}
    (hpaid : ∀ deal ∈ table, deal.phase = "closed" → deal.realized = some (ops.text (paid deal)))
    {whole : PeriodSummary} (hwhole : IsPeriodSummary ops table coreUid a c whole)
    {parts : List PeriodSummary}
    (hparts : List.Forall₂ (fun part => IsPeriodSummary ops table coreUid part.1 part.2)
      (subPeriods a cuts) parts) :
    whole.deals = (parts.map PeriodSummary.deals).sum ∧
      whole.wins = (parts.map PeriodSummary.wins).sum ∧
      whole.losses = (parts.map PeriodSummary.losses).sum ∧
      ops.amount whole.realized = (parts.map fun part => ops.amount part.realized).sum ∧
      whole.Tells ops table (fun deal => ops.number (paid deal)) coreUid a c ∧
      List.Forall₂ (fun part =>
          PeriodSummary.Tells ops table (fun deal => ops.number (paid deal)) coreUid part.1 part.2)
        (subPeriods a cuts) parts ∧
      (∀ deal : Deal, deal.ClosedIn coreUid a c →
        (subPeriods a cuts).countP (fun part => deal.selected coreUid part.1 part.2) = 1) ∧
      ∀ deal : Deal, ¬ deal.ClosedIn coreUid a c →
        (subPeriods a cuts).countP (fun part => deal.selected coreUid part.1 part.2) = 0 := by
  have hfigures := hwhole.figures_eq hops
  have hsum := sum_figures hops hparts
  rw [dealFigures_perm (perm_selected_subPeriods table coreUid hcuts hlast), ← hfigures,
    sum_map_figures] at hsum
  simp only [PeriodSummary.figures, Prod.mk.injEq] at hsum
  obtain ⟨hdeals, hwins, hlosses, htotal⟩ := hsum
  refine ⟨hdeals.symm, hwins.symm, hlosses.symm, htotal.symm, hwhole.tells hops hpaid,
    hparts.imp fun part summary h => h.tells hops hpaid, fun deal hdeal => ?_, fun deal hdeal => ?_⟩
  · rw [countP_subPeriods deal coreUid hcuts hlast, if_pos (Deal.selected_iff.mpr hdeal)]
  · rw [countP_subPeriods deal coreUid hcuts hlast, if_neg (mt Deal.selected_iff.mp hdeal)]

/-! ### Whole amounts -/

/-- Decimals without a digit after the point, as they are printed. -/
def wholeDecimals : ReportDecimals ℤ where
  zero := 0
  add := (· + ·)
  isSignNegative n := n < 0
  isZero n := n = 0
  text n := n.repr
  parse text :=
    match text.toList with
    | '-' :: digits => some (-(Nat.ofDigitChars 10 digits 0 : ℤ))
    | digits => some (Nat.ofDigitChars 10 digits 0 : ℤ)
  number n := n

theorem parse_repr (n : ℕ) : wholeDecimals.parse n.repr = some (n : ℤ) := by
  have hdigits := Nat.toList_repr (n := n)
  simp only [wholeDecimals, hdigits]
  split
  · next digits hminus =>
    have hdigit : '-'.isDigit := by
      refine Nat.isDigit_of_mem_toDigits (b := 10) (n := n) (by decide) (by decide) ?_
      rw [hminus]
      exact List.mem_cons_self
    exact absurd hdigit (by decide)
  · rw [Nat.ofDigitChars_ten_toDigits]

theorem parse_minus_repr (n : ℕ) : wholeDecimals.parse ("-" ++ n.repr) = some (-(n : ℤ)) := by
  have hdigits : ("-" ++ n.repr).toList = '-' :: Nat.toDigits 10 n := by
    rw [String.toList_append, Nat.toList_repr]
    rfl
  simp only [wholeDecimals, hdigits]
  rw [Nat.ofDigitChars_ten_toDigits]

theorem wholeDecimals_exact : wholeDecimals.Exact where
  number_zero := Int.cast_zero
  number_add := Int.cast_add
  isZero_iff a := by simp [wholeDecimals]
  isSignNegative_iff a _ := decide_eq_true_iff.trans Int.cast_lt_zero.symm
  parse_text a := by
    refine ⟨a, ?_, rfl⟩
    change wholeDecimals.parse a.repr = some a
    rw [Int.repr_eq_if]
    split_ifs with h
    · rw [parse_repr, Int.toNat_of_nonneg h]
    · rw [parse_minus_repr, Int.toNat_of_nonneg (by omega), neg_neg]

/-- A gain, a loss and an open deal. -/
def threeDeals : List Deal :=
  [⟨0, "closed", some "7", some 1000, .inr nofun, .inr nofun⟩,
    ⟨0, "closed", some "-5", some 2000, .inr nofun, .inr nofun⟩,
    ⟨0, "open", none, none, .inl (by decide), .inl (by decide)⟩]

/-- What each of them paid. -/
def paidOfThree (deal : Deal) : ℤ := if deal.closedAt = some 1000 then 7 else -5

/-- The three deals over three seconds, and over the first half and the second. -/
theorem period_summary_parts_threeDeals :
    PeriodSummary.Tells wholeDecimals threeDeals
      (fun deal => wholeDecimals.number (paidOfThree deal))
        0 0 3000 ⟨2, "2", 1, 1⟩ ∧
      List.Forall₂ (fun part => PeriodSummary.Tells wholeDecimals threeDeals
          (fun deal => wholeDecimals.number (paidOfThree deal)) 0 part.1 part.2)
        [(0, 1500), (1500, 3000)] [⟨1, "7", 1, 0⟩, ⟨1, "-5", 0, 1⟩] := by
  have hcuts : [(0 : ℤ), 1500, 3000].Pairwise (· ≤ ·) := by decide
  have hlast : [(0 : ℤ), 1500, 3000].getLast? = some 3000 := rfl
  have hpaid : ∀ deal ∈ threeDeals, deal.phase = "closed" →
      deal.realized = some (wholeDecimals.text (paidOfThree deal)) := by decide +kernel
  have hwhole : IsPeriodSummary wholeDecimals threeDeals 0 0 3000 ⟨2, "2", 1, 1⟩ :=
    ⟨_, .refl _, by decide +kernel⟩
  have hfirst : IsPeriodSummary wholeDecimals threeDeals 0 0 1500 ⟨1, "7", 1, 0⟩ :=
    ⟨_, .refl _, by decide +kernel⟩
  have hsecond : IsPeriodSummary wholeDecimals threeDeals 0 1500 3000 ⟨1, "-5", 0, 1⟩ :=
    ⟨_, .refl _, by decide +kernel⟩
  obtain ⟨-, -, -, -, htells, hparts, -⟩ := period_summary_parts wholeDecimals_exact hcuts hlast
    hpaid hwhole (.cons hfirst (.cons hsecond .nil))
  exact ⟨htells, hparts⟩

end MoonCore
