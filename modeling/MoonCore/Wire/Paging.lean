import MoonCore.Machine.Run
import MoonCore.Wire.Catalogue

/-!
# Walking a market page by page

A terminal asks for the pages of one market, each from the cursor of the one before, while the lists
of any markets are replaced between its requests. `Walk.paging` is what it may rely on: names in
strictly increasing order, everything that stayed listed, and an end.
-/

namespace MoonCore

/-- A terminal's progress through a market. -/
structure Walk (D : Type*) where
  /-- The cursor of the last page. -/
  cursor : Option String
  /-- The last page had no cursor, or there was no page at all. -/
  ended : Bool
  /-- The instruments delivered so far. -/
  got : List (Instrument D)

namespace Walk

variable {D : Type*} [DecidableEq D]

/-- A walk that has read nothing. -/
def start : Walk D := ⟨none, false, []⟩

/-- What happens around a walk: a list is replaced, or the next page is asked for. -/
inductive Op (D : Type*) where
  | replace (exchange : ExchangeId) (market : MarketKind) (incoming : List (Instrument D))
  | next

/-- Whether a page is asked for. -/
def Op.isNext : Op D → Bool
  | .next => true
  | .replace .. => false

/-- A walk of one market over a changing catalogue. -/
def machine (exchange : ExchangeId) (market : MarketKind) :
    Machine (Catalogue D × Walk D) (Op D) (Option (Page D)) where
  step st
    | .replace e m incoming => (((st.1.replace e m incoming).1, st.2), none)
    | .next =>
      if st.2.ended then (st, none)
      else
        match st.1.page exchange market st.2.cursor with
        | none => ((st.1, { st.2 with ended := true }), none)
        | some page =>
          ((st.1, ⟨page.cursor, page.cursor.isNone, st.2.got ++ page.items⟩), some page)

section Run

variable (exchange : ExchangeId) (market : MarketKind)

/-- What the walked market lists. -/
def listed (catalogue : Catalogue D) : List (Instrument D) :=
  (catalogue.byMarket.lookup (exchange, market)).getD []

/-- What one request of a page can do. -/
theorem next_cases (st : Catalogue D × Walk D) :
    (st.2.ended = true ∧ (machine exchange market).step st .next = (st, none)) ∨
    (st.2.ended = false ∧ listed exchange market st.1 = [] ∧
      (machine exchange market).step st .next = ((st.1, { st.2 with ended := true }), none)) ∨
    ∃ page : Page D, st.2.ended = false ∧
      page.items =
        (Catalogue.after st.2.cursor (listed exchange market st.1)).take instrumentsPage ∧
      page.cursor =
        (if instrumentsPage < (Catalogue.after st.2.cursor (listed exchange market st.1)).length
          then page.items.getLast?.map Instrument.name else none) ∧
      (machine exchange market).step st .next =
        ((st.1, ⟨page.cursor, page.cursor.isNone, st.2.got ++ page.items⟩), some page) := by
  cases hended : st.2.ended with
  | true => exact .inl ⟨rfl, by simp only [machine, hended, if_true]⟩
  | false =>
    refine .inr ?_
    cases hlist : st.1.byMarket.lookup (exchange, market) with
    | none =>
      refine .inl ⟨rfl, by rw [listed, hlist, Option.getD_none], ?_⟩
      simp only [machine, hended, Bool.false_eq_true, if_false, Catalogue.page_eq_none hlist]
    | some all =>
      have hlisted : listed exchange market st.1 = all := by rw [listed, hlist, Option.getD_some]
      rw [hlisted]
      refine .inr ⟨⟨exchange, market, (Catalogue.after st.2.cursor all).take instrumentsPage,
        if instrumentsPage < (Catalogue.after st.2.cursor all).length then
          ((Catalogue.after st.2.cursor all).take instrumentsPage).getLast?.map Instrument.name
        else none, st.1.rev⟩, rfl, rfl, rfl, ?_⟩
      simp only [machine, hended, Bool.false_eq_true, if_false, Catalogue.page_eq hlist]

omit [DecidableEq D]

theorem sorted_listed (catalogue : Catalogue D) :
    ((listed exchange market catalogue).map Instrument.name).Pairwise (· < ·) := by
  rw [listed]
  cases hlist : catalogue.byMarket.lookup (exchange, market) with
  | none => exact List.Pairwise.nil
  | some all => exact catalogue.sorted _ _ hlist

theorem sorted_after (cursor : Option String) (catalogue : Catalogue D) :
    ((Catalogue.after cursor (listed exchange market catalogue)).map Instrument.name).Pairwise
      (· < ·) :=
  (sorted_listed exchange market catalogue).sublist (List.filter_sublist.map _)

variable {exchange market} {rest items : List (Instrument D)} {cursor : Option String} {c : String}

/-- A page without a cursor is all that is left. -/
theorem items_eq_of_cursor_none (hitems : items = rest.take instrumentsPage)
    (hcursor : cursor = if instrumentsPage < rest.length then items.getLast?.map Instrument.name
      else none) (hnone : cursor = none) : items = rest := by
  rw [hnone] at hcursor
  split at hcursor
  · rename_i hmore
    rw [eq_comm, Option.map_eq_none_iff, List.getLast?_eq_none_iff, hitems] at hcursor
    have hpage : 0 < instrumentsPage := by decide
    have hlength := congrArg List.length hcursor
    rw [List.length_take, List.length_nil] at hlength
    omega
  · rename_i hall
    rw [hitems, List.take_of_length_le (by omega)]

/-- A page with a cursor ends with it, and holds all that is left up to it. -/
theorem exists_last_of_cursor_some (hsorted : (rest.map Instrument.name).Pairwise (· < ·))
    (hitems : items = rest.take instrumentsPage)
    (hcursor : cursor = if instrumentsPage < rest.length then items.getLast?.map Instrument.name
      else none) (hsome : cursor = some c) :
    ∃ last, items.getLast? = some last ∧ last.name = c ∧ ∀ i ∈ rest, i.name ≤ c → i ∈ items := by
  rw [hsome] at hcursor
  split at hcursor
  · obtain ⟨last, hlast, rfl⟩ := Option.map_eq_some_iff.mp hcursor.symm
    refine ⟨last, hlast, rfl, fun i hi hle => ?_⟩
    rw [← List.take_append_drop instrumentsPage rest, ← hitems, List.mem_append] at hi
    refine hi.resolve_right fun hlater => ?_
    rw [← List.take_append_drop instrumentsPage rest, ← hitems, List.map_append,
      List.pairwise_append] at hsorted
    have hless := hsorted.2.2 last.name (List.mem_map_of_mem (List.mem_of_getLast? hlast)) i.name
      (List.mem_map_of_mem hlater)
    exact absurd hle (not_le.mpr hless)
  · exact absurd hcursor (by simp)

end Run

/-! ### What a walk keeps -/

/-- The names delivered so far. -/
def names (self : Walk D) : List String := self.got.map Instrument.name

/-- The names come in order, and the cursor is the last of them. -/
structure Ordered (walk : Walk D) : Prop where
  sorted : walk.names.Pairwise (· < ·)
  cursor_eq : walk.ended = false → walk.cursor = walk.names.getLast?

/-- A name is delivered once the walk has passed it. -/
def Covers (name : String) (self : Walk D) : Prop :=
  (self.ended = true → name ∈ self.names) ∧
    ∀ c, self.ended = false → self.cursor = some c → name ≤ c → name ∈ self.names

omit [DecidableEq D] in
theorem ordered_start : (start : Walk D).Ordered := ⟨List.Pairwise.nil, fun _ => rfl⟩

omit [DecidableEq D] in
theorem covers_start (name : String) : Covers name (start : Walk D) :=
  ⟨fun h => absurd h Bool.false_ne_true, fun c _ h => absurd h (by simp [start])⟩

section Step

variable {exchange : ExchangeId} {market : MarketKind} {st : Catalogue D × Walk D}

omit [DecidableEq D] in
/-- In an ordered walk, what is left comes after everything delivered. -/
theorem Ordered.lt_of_mem_after {self : Walk D} (h : self.Ordered) (hended : self.ended = false)
    {all : List (Instrument D)} {i : Instrument D} (hi : i ∈ Catalogue.after self.cursor all)
    {name : String} (hname : name ∈ self.names) : name < i.name := by
  obtain ⟨-, hlater⟩ := Catalogue.mem_after.mp hi
  cases hlast : self.names.getLast? with
  | none =>
    rw [List.getLast?_eq_none_iff.mp hlast] at hname
    exact absurd hname List.not_mem_nil
  | some last =>
    have hless := hlater last ((h.cursor_eq hended).trans hlast)
    obtain ⟨before, heq⟩ := List.getLast?_eq_some_iff.mp hlast
    have hsorted := h.sorted
    rw [heq, List.pairwise_append] at hsorted
    rw [heq, List.mem_append, List.mem_singleton] at hname
    obtain hbefore | rfl := hname
    · exact (hsorted.2.2 name hbefore last (List.mem_singleton_self _)).trans hless
    · exact hless

theorem Ordered.next (h : st.2.Ordered) (op : Op D) :
    ((machine exchange market).next st op).2.Ordered := by
  cases op with
  | replace e m incoming => exact h
  | next =>
    rw [Machine.next]
    obtain ⟨-, hstep⟩ | ⟨-, -, hstep⟩ | ⟨page, hended, hitems, hcursor, hstep⟩ :=
      next_cases exchange market st
    · rw [hstep]
      exact h
    · rw [hstep]
      exact ⟨h.sorted, fun hnot => absurd hnot (by simp)⟩
    · rw [hstep]
      have hafter := sorted_after exchange market st.2.cursor st.1
      have hsub : page.items.Sublist
          (Catalogue.after st.2.cursor (listed exchange market st.1)) :=
        hitems ▸ List.take_sublist _ _
      refine ⟨?_, fun hmore => ?_⟩
      · rw [names, List.map_append, List.pairwise_append]
        refine ⟨h.sorted, hafter.sublist (hsub.map _), fun name hname later hlater => ?_⟩
        obtain ⟨i, hi, rfl⟩ := List.mem_map.mp hlater
        exact h.lt_of_mem_after hended (hsub.subset hi) hname
      · obtain ⟨c, hc⟩ := Option.isSome_iff_exists.mp (by simpa using hmore)
        obtain ⟨last, hlast, rfl, -⟩ := exists_last_of_cursor_some hafter hitems hcursor hc
        simp only [names, List.map_append, List.getLast?_append, List.getLast?_map, hlast, hc,
          Option.map_some, Option.some_or]

/-- A page delivers every listed name it passes. -/
theorem Covers.next {name : String} (h : Covers name st.2) (op : Op D)
    (hlisted : op = .next → st.2.ended = false →
      name ∈ (listed exchange market st.1).map Instrument.name) :
    Covers name ((machine exchange market).next st op).2 := by
  cases op with
  | replace e m incoming => exact h
  | next =>
    rw [Machine.next]
    obtain ⟨-, hstep⟩ | ⟨hended, hnone, hstep⟩ | ⟨page, hended, hitems, hcursor, hstep⟩ :=
      next_cases exchange market st
    · rw [hstep]
      exact h
    · have hmem := hlisted rfl hended
      rw [hnone] at hmem
      exact absurd hmem List.not_mem_nil
    · rw [hstep]
      obtain ⟨i, hi, rfl⟩ := List.mem_map.mp (hlisted rfl hended)
      -- Either the walk has passed the name before, or it is among what is left.
      have hleft : i.name ∈ st.2.names ∨
          i ∈ Catalogue.after st.2.cursor (listed exchange market st.1) := by
        cases hc : st.2.cursor with
        | none => exact .inr (Catalogue.mem_after.mpr ⟨hi, fun c h => absurd h (by simp)⟩)
        | some c =>
          by_cases hpassed : i.name ≤ c
          · exact .inl (h.2 c hended hc hpassed)
          · refine .inr (Catalogue.mem_after.mpr ⟨hi, fun c' h' => ?_⟩)
            rw [Option.some.injEq] at h'
            exact h' ▸ not_le.mp hpassed
      have hgot : ∀ hpage : i ∈ Catalogue.after st.2.cursor (listed exchange market st.1) →
          i ∈ page.items,
          i.name ∈ names ⟨page.cursor, page.cursor.isNone, st.2.got ++ page.items⟩ := by
        intro hpage
        rw [names, List.map_append, List.mem_append]
        exact hleft.imp_right fun h => List.mem_map_of_mem (hpage h)
      constructor
      · intro hlast
        have hnone : page.cursor = none := by simpa using hlast
        exact hgot fun h => items_eq_of_cursor_none hitems hcursor hnone ▸ h
      · intro c _ hc hle
        obtain ⟨last, -, -, hupto⟩ := exists_last_of_cursor_some
          (sorted_after exchange market st.2.cursor st.1) hitems hcursor hc
        exact hgot fun h => hupto i h hle

/-- No page is longer than `INSTRUMENTS_PAGE`. -/
theorem length_items_le (op : Op D) {page : Page D}
    (hout : (machine exchange market).out st op = some page) :
    page.items.length ≤ instrumentsPage := by
  cases op with
  | replace e m incoming => exact absurd hout (by simp [Machine.out, machine])
  | next =>
    rw [Machine.out] at hout
    obtain ⟨-, hstep⟩ | ⟨-, -, hstep⟩ | ⟨page', -, hitems, -, hstep⟩ :=
      next_cases exchange market st
    · exact absurd (hstep ▸ hout) (by simp)
    · exact absurd (hstep ▸ hout) (by simp)
    · rw [hstep, Option.some.injEq] at hout
      rw [← hout, hitems]
      exact List.length_take_le _ _

/-- In a sorted list, the last name is the greatest. -/
theorem exists_getLast_ge {names : List String} (h : names.Pairwise (· < ·)) {name : String}
    (hmem : name ∈ names) : ∃ last, names.getLast? = some last ∧ name ≤ last := by
  have hne : names ≠ [] := List.ne_nil_of_mem hmem
  refine ⟨names.getLast hne, List.getLast?_eq_some_getLast hne, ?_⟩
  exact (h.imp le_of_lt).rel_getLast hmem

/-- A page has no cursor only where nothing is listed after the last delivered name. -/
theorem Ordered.le_last (h : st.2.Ordered) {page : Page D}
    (hout : (machine exchange market).out st .next = some page) (hnone : page.cursor = none)
    {i : Instrument D} (hi : i ∈ listed exchange market st.1) :
    ∃ last, ((st.2.got ++ page.items).map Instrument.name).getLast? = some last ∧
      i.name ≤ last := by
  have hnext := @Ordered.next D _ exchange market st h .next
  rw [Machine.out] at hout
  rw [Machine.next] at hnext
  obtain ⟨-, hstep⟩ | ⟨-, -, hstep⟩ | ⟨page', hended, hitems, hcursor, hstep⟩ :=
    next_cases exchange market st
  · exact absurd (hstep ▸ hout) (by simp)
  · exact absurd (hstep ▸ hout) (by simp)
  · rw [hstep, Option.some.injEq] at hout
    rw [hstep] at hnext
    subst hout
    -- Some delivered name is at or after the instrument's.
    obtain ⟨name, hname, hle⟩ : ∃ name ∈ (st.2.got ++ page'.items).map Instrument.name,
        i.name ≤ name := by
      rw [List.map_append]
      by_cases hleft : i ∈ Catalogue.after st.2.cursor (listed exchange market st.1)
      · refine ⟨i.name, List.mem_append_right _ (List.mem_map_of_mem ?_), le_rfl⟩
        exact items_eq_of_cursor_none hitems hcursor hnone ▸ hleft
      · obtain ⟨c, hc, hpassed⟩ : ∃ c, st.2.cursor = some c ∧ i.name ≤ c := by
          by_contra hnot
          refine hleft (Catalogue.mem_after.mpr ⟨hi, fun c hc => ?_⟩)
          exact not_le.mp fun hle => hnot ⟨c, hc, hle⟩
        have hlast := (h.cursor_eq hended).symm.trans hc
        exact ⟨c, List.mem_append_left _ (List.mem_of_getLast? hlast), hpassed⟩
    obtain ⟨last, hlast, hge⟩ := exists_getLast_ge hnext.sorted hname
    exact ⟨last, hlast, hle.trans hge⟩

omit [DecidableEq D] in
/-- Passing a name leaves less of an unchanged list. -/
theorem length_after_lt {all : List (Instrument D)} {cursor : Option String} {last : Instrument D}
    (hlast : last ∈ Catalogue.after cursor all) :
    (Catalogue.after (some last.name) all).length < (Catalogue.after cursor all).length := by
  have hpassed := (Catalogue.mem_after.mp hlast).2
  have hfilter : Catalogue.after (some last.name) all =
      (Catalogue.after cursor all).filter fun i => last.name < i.name := by
    rw [Catalogue.after, Catalogue.after, List.filter_filter]
    refine List.filter_congr fun i _ => ?_
    cases cursor with
    | none => simp
    | some c =>
      rw [Option.all_some, Option.all_some, ← Bool.decide_and, decide_eq_decide]
      exact ⟨fun h => ⟨h, (hpassed c rfl).trans h⟩, And.left⟩
  rw [hfilter, List.length_filter_lt_length_iff_exists]
  exact ⟨last, hlast, by simp⟩

/-- What is left of a walk over an unchanged list. -/
def left (all : List (Instrument D)) (self : Walk D) : ℕ :=
  if self.ended then 0 else (Catalogue.after self.cursor all).length + 1

/-- A page leaves less of an unchanged list, until the walk has ended. -/
theorem left_next_lt {all : List (Instrument D)} (hall : listed exchange market st.1 = all)
    (hended : st.2.ended = false) :
    left all ((machine exchange market).next st .next).2 < left all st.2 := by
  have hbefore : left all st.2 = (Catalogue.after st.2.cursor all).length + 1 := by
    rw [left, if_neg (by simp [hended])]
  rw [hbefore, Machine.next]
  obtain ⟨htrue, -⟩ | ⟨-, -, hstep⟩ | ⟨page, -, hitems, hcursor, hstep⟩ :=
    next_cases exchange market st
  · exact absurd htrue (by simp [hended])
  · rw [hstep, left, if_pos rfl]
    exact Nat.succ_pos _
  · rw [hstep, left]
    dsimp only
    split
    · exact Nat.succ_pos _
    · rename_i hmore
      obtain ⟨c, hc⟩ : ∃ c, page.cursor = some c :=
        Option.ne_none_iff_exists'.mp (by simpa using hmore)
      obtain ⟨last, hlast, rfl, -⟩ := exists_last_of_cursor_some
        (sorted_after exchange market st.2.cursor st.1) hitems hcursor hc
      have hmem := List.mem_of_mem_take (hitems ▸ List.mem_of_getLast? hlast)
      rw [hall] at hmem
      rw [hc]
      exact Nat.succ_lt_succ (length_after_lt hmem)

end Step

/-! ### Whole walks -/

section Walks

variable (exchange : ExchangeId) (market : MarketKind)

/-- Once the list stays as it is, enough requests end the walk. -/
theorem ended_of_unchanged {st : Catalogue D × Walk D} {later : List (Op D)}
    (hsame : (machine exchange market).Along (fun st op => listed exchange market
      ((machine exchange market).next st op).1 = listed exchange market st.1) st later)
    (hlong : (listed exchange market st.1).length + 1 < later.countP Op.isNext) :
    ((machine exchange market).run st later).2.ended = true := by
  refine Machine.Along.reaches_of_measure
    (fun st' => listed exchange market st'.1 = listed exchange market st.1)
    (fun st' => st'.2.ended = true) Op.isNext
    (fun st' => left (listed exchange market st.1) st'.2) ?_ ?_ ?_ ?_ hsame rfl ?_
  · exact fun st' op hsame hlist => hsame.trans hlist
  · rintro st' op - - hended
    cases op with
    | replace e m incoming => exact hended
    | next =>
      obtain ⟨-, hstep⟩ | ⟨hnot, -⟩ | ⟨page, hnot, -⟩ := next_cases exchange market st'
      · rw [Machine.next, hstep]
        exact hended
      · exact absurd hended (by simp [hnot])
      · exact absurd hended (by simp [hnot])
  · rintro st' op - hlist hended
    cases op with
    | replace e m incoming => exact le_rfl
    | next => exact (left_next_lt hlist (by simpa using hended)).le
  · rintro st' op - hlist hended hop
    cases op with
    | replace e m incoming => exact absurd hop (by simp [Op.isNext])
    | next => exact left_next_lt hlist (by simpa using hended)
  · refine lt_of_le_of_lt ?_ hlong
    rw [left]
    split
    · exact Nat.zero_le _
    · exact Nat.succ_le_succ (List.length_filter_le _ _)

/-- **Paging under refresh.** Over every walk of one market from any catalogue, with any lists
replaced between its pages: the names come in strictly increasing order; a walk that has ended has
delivered once every name that was listed at each of its requests; nothing is delivered twice; no
page is longer than `INSTRUMENTS_PAGE`; a page has no cursor only where nothing is listed after the
last delivered name; and once the market's list stays as it is, the walk ends. -/
theorem paging (catalogue : Catalogue D) (ops : List (Op D)) :
    let walk := (machine exchange market).run (catalogue, start)
    (walk ops).2.names.Pairwise (· < ·) ∧
    (∀ name, (∀ pre post, ops = pre ++ .next :: post → (walk pre).2.ended = false →
        name ∈ (listed exchange market (walk pre).1).map Instrument.name) →
      (walk ops).2.ended = true → (walk ops).2.names.count name = 1) ∧
    (walk ops).2.names.Nodup ∧
    (∀ asked ∈ (machine exchange market).trace (catalogue, start) ops, ∀ page,
      asked.2 = some page → page.items.length ≤ instrumentsPage) ∧
    (∀ pre post page, ops = pre ++ .next :: post →
      (machine exchange market).out (walk pre) .next = some page → page.cursor = none →
        ∀ i ∈ listed exchange market (walk pre).1,
          ∃ last, (((walk pre).2.got ++ page.items).map Instrument.name).getLast? = some last ∧
            i.name ≤ last) ∧
    ∀ later, (machine exchange market).Along (fun st op => listed exchange market
        ((machine exchange market).next st op).1 = listed exchange market st.1) (walk ops) later →
      (listed exchange market (walk ops).1).length + 1 < later.countP Op.isNext →
        (walk (ops ++ later)).2.ended = true := by
  intro walk
  have hordered : ∀ ops, (walk ops).2.Ordered := fun ops =>
    Machine.run_invariant (I := fun st : Catalogue D × Walk D => st.2.Ordered)
      (fun _ op h => h.next op) ordered_start ops
  have hnodup : (walk ops).2.names.Nodup := (hordered ops).sorted.imp fun h => h.ne
  refine ⟨(hordered ops).sorted, fun name hlisted hended => ?_, hnodup, ?_, ?_, ?_⟩
  · have hguard : (machine exchange market).Along (fun st op => op = .next →
        st.2.ended = false → name ∈ (listed exchange market st.1).map Instrument.name)
          (catalogue, start) ops := by
      rw [Machine.along_iff_forall_split]
      rintro pre op post hsplit rfl
      exact hlisted pre post hsplit
    have hcovers : Covers name (walk ops).2 :=
      hguard.run_invariant (I := fun st : Catalogue D × Walk D => Covers name st.2)
        (fun _ op hop h => h.next op hop) (covers_start name)
    exact List.count_eq_one_of_mem hnodup (hcovers.1 hended)
  · intro asked hasked page hpage
    obtain ⟨pre, post, -, hout⟩ := Machine.mem_trace_iff.mp hasked
    exact length_items_le asked.1 (hout.symm.trans hpage)
  · intro pre post page _ hout hnone i hi
    exact (hordered pre).le_last hout hnone hi
  · intro later hsame hlong
    have hend := ended_of_unchanged exchange market hsame hlong
    rwa [← Machine.run_append] at hend

end Walks

end Walk

end MoonCore
