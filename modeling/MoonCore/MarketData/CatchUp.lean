import MoonCore.MarketData.Fold

/-!
# A series that catches up with another

The read-model and a terminal fold bars by the same rule, keep different numbers of them, and the
terminal is handed the read-model's bars whenever it asks, on top of whatever it already has and
before updates that are older than what it was handed.

`Behind bars shown` says that `shown` has got as far as one of `bars` and misses nothing of `bars`
before it; only its last bar may be an older state of that bar. `EndsWith bars shown` says that it
has caught up. Folding `bars` themselves catches up (`Behind.catchUp`), folding again what `bars`
was folded from changes nothing in the end (`EndsWith.again`), and on the way `shown` stays behind.
-/

namespace MoonCore

variable {D : Type*} {depth : ℕ} {bars shown : List (Candle D)}

/-! ### One key at a time -/

/-- The bar an event carries for a key. -/
def Event.candleIn (key : String) (self : Event D) : Option (Candle D) :=
  match self.payload with
  | .market (.candle candle) => if candle.symbol.key = key then some candle else none
  | _ => none

/-- What an event carries for a key is filed under it. -/
theorem Event.candleIn_eq_some {key : String} {event : Event D} {candle : Candle D}
    (h : event.candleIn key = some candle) :
    event.payload = .market (.candle candle) ∧ candle.symbol.key = key := by
  rw [Event.candleIn] at h
  split at h
  · rename_i candle' hpayload
    split_ifs at h with hkey
    obtain rfl := Option.some.inj h
    exact ⟨hpayload, hkey⟩
  · cases h

/-- Bars are folded key by key. -/
theorem foldBars_apply (depth : ℕ) (bars : Bars D) (event : Event D) (key : String) :
    foldBars depth bars event key =
      ((event.candleIn key).toList).foldl (foldBar depth) (bars key) := by
  rcases event with ⟨ts, market | account | health⟩
  · cases market with
    | candle candle =>
      simp only [foldBars, Function.update_apply, Event.candleIn]
      by_cases hkey : candle.symbol.key = key
      · simp only [hkey, if_true, Option.toList_some, List.foldl_cons, List.foldl_nil]
      · simp only [hkey, Ne.symm hkey, if_false, Option.toList_none, List.foldl_nil]
    | _ => rfl
  · rfl
  · rfl

theorem foldl_foldBars_apply (depth : ℕ) (bars : Bars D) (events : List (Event D))
    (key : String) :
    events.foldl (foldBars depth) bars key =
      (events.filterMap (Event.candleIn key)).foldl (foldBar depth) (bars key) := by
  induction events generalizing bars with
  | nil => rfl
  | cons event events ih =>
    rw [List.foldl_cons, ih, foldBars_apply, List.filterMap_cons]
    cases event.candleIn key <;> rfl

/-! ### Behind, and caught up -/

/-- Bars that open one after the other. -/
abbrev InTime (bars : List (Candle D)) : Prop :=
  bars.Pairwise fun a b => a.openTime < b.openTime

/-- The last bars shown are these; where there are none, nothing is shown. -/
structure EndsWith (bars shown : List (Candle D)) : Prop where
  suffix : bars <:+ shown
  nil : bars = [] → shown = []

/-- Nothing of these bars is missing up to the last one shown. -/
inductive Behind (bars : List (Candle D)) : List (Candle D) → Prop
  | nil : Behind bars []
  /-- What is shown is older than all of them. -/
  | before {init rest : List (Candle D)} {last next : Candle D} (hbars : bars = next :: rest)
      (hopen : last.openTime < next.openTime) : Behind bars (init ++ [last])
  /-- The last one shown is one of them, perhaps in an older state. -/
  | within {init past rest : List (Candle D)} {last bar : Candle D}
      (hbars : bars = past ++ bar :: rest) (hopen : bar.openTime = last.openTime)
      (hpast : past <:+ init) : Behind bars (init ++ [last])

/-- Where nothing is shown of no bars, nothing is shown. -/
theorem Behind.eq_nil (h : Behind ([] : List (Candle D)) shown) : shown = [] := by
  cases h with
  | nil => rfl
  | before hbars => cases hbars
  | within hbars => simp at hbars

/-- To have the first bars at the end is to be behind the others. -/
theorem behind_of_prefix {past : List (Candle D)} (hfront : past <+: bars)
    (hback : past <:+ shown) (hpast : past ≠ []) : Behind bars shown := by
  obtain ⟨init, bar, rfl⟩ := (List.eq_nil_or_concat past).resolve_left hpast
  rw [List.concat_eq_append] at hfront hback
  obtain ⟨rest, rfl⟩ := hfront
  obtain ⟨older, rfl⟩ := hback
  rw [← List.append_assoc]
  exact .within (by rw [List.append_assoc, List.singleton_append]) rfl (List.suffix_append _ _)

theorem EndsWith.behind (h : EndsWith bars shown) : Behind bars shown := by
  by_cases hbars : bars = []
  · rw [h.nil hbars]
    exact .nil
  · exact behind_of_prefix List.prefix_rfl h.suffix hbars

/-! ### What the rule keeps -/

/-- The last bars of a longer history end a history that ends with it. -/
theorem rtake_suffix_rtake {α : Type*} {as bs : List α} (h : as <:+ bs) {m n : ℕ} (hmn : m ≤ n) :
    as.rtake m <:+ bs.rtake n := by
  have hleft : as.rtake m <:+ bs := (rtake_suffix as m).trans h
  have hle := h.length_le
  refine List.suffix_of_suffix_length_le hleft (rtake_suffix bs n) ?_
  simp only [List.rtake, List.length_drop]
  omega

/-- One more bar for both: whoever had caught up still has. -/
theorem EndsWith.fold {m n : ℕ} (h : EndsWith bars shown) (hm : 0 < m) (hmn : m ≤ n)
    (candle : Candle D) : EndsWith (foldBar m bars candle) (foldBar n shown candle) := by
  obtain ⟨⟨older, rfl⟩, hnil⟩ := h
  rcases List.eq_nil_or_concat bars with rfl | ⟨init, last, rfl⟩
  · rw [List.append_nil] at hnil ⊢
    rw [hnil rfl, foldBar_nil, foldBar_nil, pushBounded_nil hm, pushBounded_nil (hm.trans_le hmn)]
    exact ⟨List.suffix_rfl, by simp⟩
  · rw [List.concat_eq_append, ← List.append_assoc]
    rcases lt_trichotomy candle.openTime last.openTime with hlt | heq | hgt
    · rw [foldBar_drop hlt, foldBar_drop hlt, List.append_assoc]
      exact ⟨List.suffix_append _ _, by simp⟩
    · rw [foldBar_redraw heq, foldBar_redraw heq, List.append_assoc]
      exact ⟨List.suffix_append _ _, by simp⟩
    · rw [foldBar_append hgt, foldBar_append hgt]
      constructor
      · refine rtake_suffix_rtake ?_ hmn
        simp only [List.append_assoc]
        exact List.suffix_append _ _
      · rw [pushBounded_eq_concat hm]
        simp

/-- Bars stay in time. -/
theorem InTime.fold (h : InTime bars) (candle : Candle D) :
    InTime (foldBar depth bars candle) := by
  rcases List.eq_nil_or_concat bars with rfl | ⟨init, last, rfl⟩
  · exact (List.pairwise_singleton _ candle).sublist (pushBounded_suffix depth [] candle).sublist
  · rw [List.concat_eq_append] at h ⊢
    have hinit := (List.pairwise_append.mp h).1
    have hlast : ∀ a ∈ init, a.openTime < last.openTime := fun a ha =>
      (List.pairwise_append.mp h).2.2 a ha last (List.mem_singleton_self last)
    have hconcat : ∀ {front : List (Candle D)}, InTime front →
        (∀ a ∈ front, a.openTime < candle.openTime) → InTime (front ++ [candle]) :=
      fun hfront hbefore => List.pairwise_append.mpr ⟨hfront, List.pairwise_singleton _ _,
        fun a ha b hb => List.mem_singleton.mp hb ▸ hbefore a ha⟩
    rcases lt_trichotomy candle.openTime last.openTime with hlt | heq | hgt
    · rwa [foldBar_drop hlt]
    · rw [foldBar_redraw heq]
      exact hconcat hinit fun a ha => heq ▸ hlast a ha
    · rw [foldBar_append hgt]
      refine List.Pairwise.sublist (pushBounded_suffix depth _ candle).sublist (hconcat h ?_)
      intro a ha
      rcases List.mem_append.mp ha with hold | hnew
      · exact (hlast a hold).trans hgt
      · exact List.mem_singleton.mp hnew ▸ hgt

/-- Dropping bars from the front leaves nobody further behind. -/
theorem Behind.drop (h : Behind bars shown) (hbars : InTime bars) {k : ℕ}
    (hk : k < bars.length) : Behind (bars.drop k) shown := by
  cases h with
  | nil => exact .nil
  | @before init rest last next hsplit hopen =>
    obtain ⟨first, later, hdrop⟩ := List.exists_cons_of_ne_nil (List.length_pos_iff.mp
      (by rw [List.length_drop]; omega : 0 < (bars.drop k).length))
    refine .before hdrop ?_
    have hmem : first ∈ bars := List.mem_of_mem_drop (hdrop ▸ List.mem_cons_self)
    rw [hsplit] at hmem hbars
    rcases List.mem_cons.mp hmem with rfl | hlater
    · exact hopen
    · exact hopen.trans ((List.pairwise_cons.mp hbars).1 first hlater)
  | @within init past rest last bar hsplit hopen hpast =>
    subst hsplit
    rcases Nat.lt_or_ge past.length k with hlt | hle
    · obtain ⟨j, rfl⟩ := Nat.exists_eq_add_of_lt hlt
      have hdrop : (past ++ bar :: rest).drop (past.length + j + 1) = rest.drop j := by
        rw [Nat.add_assoc, List.drop_append, List.drop_of_length_le (Nat.le_add_right _ _),
          Nat.add_sub_cancel_left, List.nil_append, List.drop_succ_cons]
      rw [hdrop]
      have hj : j < rest.length := by
        rw [List.length_append, List.length_cons] at hk
        omega
      obtain ⟨first, later, hrest⟩ := List.exists_cons_of_ne_nil (List.length_pos_iff.mp
        (by rw [List.length_drop]; omega : 0 < (rest.drop j).length))
      refine .before hrest (hopen ▸ ?_)
      have hfirst : first ∈ rest := List.mem_of_mem_drop (hrest ▸ List.mem_cons_self)
      exact (List.pairwise_cons.mp (List.pairwise_append.mp hbars).2.1).1 first hfirst
    · rw [List.drop_append_of_le_length hle]
      exact .within rfl hopen ((List.drop_suffix k past).trans hpast)

/-- A newer bar leaves nobody less behind. -/
theorem Behind.fold (h : Behind bars shown) (hbars : InTime bars) (hdepth : 0 < depth)
    (candle : Candle D) : Behind (foldBar depth bars candle) shown := by
  rcases List.eq_nil_or_concat bars with rfl | ⟨front, final, rfl⟩
  · rw [h.eq_nil]
    exact .nil
  · rw [List.concat_eq_append] at h hbars ⊢
    rcases lt_trichotomy candle.openTime final.openTime with hlt | heq | hgt
    · rwa [foldBar_drop hlt]
    · rw [foldBar_redraw heq]
      cases h with
      | nil => exact .nil
      | @before init rest last next hsplit hopen =>
        cases front with
        | nil =>
          obtain ⟨rfl, rfl⟩ : final = next ∧ [] = rest := by simpa using hsplit
          exact .before rfl (heq ▸ hopen)
        | cons first front =>
          obtain ⟨rfl, -⟩ := List.cons_eq_cons.mp hsplit
          exact .before rfl hopen
      | @within init past rest last bar hsplit hopen hpast =>
        rcases List.eq_nil_or_concat rest with rfl | ⟨mid, last', rfl⟩
        · obtain ⟨rfl, hfinal⟩ := List.append_inj' hsplit rfl
          obtain rfl : final = bar := by simpa using hfinal
          exact .within rfl (heq.trans hopen) hpast
        · rw [List.concat_eq_append, ← List.cons_append, ← List.append_assoc] at hsplit
          obtain ⟨rfl, -⟩ := List.append_inj' hsplit rfl
          exact .within (by rw [List.append_assoc, List.cons_append]) hopen hpast
    · rw [foldBar_append hgt, pushBounded, List.rtake]
      have hlonger : Behind (front ++ [final] ++ [candle]) shown := by
        cases h with
        | nil => exact .nil
        | @before init rest last next hsplit hopen =>
          exact .before (by rw [hsplit, List.cons_append]) hopen
        | @within init past rest last bar hsplit hopen hpast =>
          exact .within (by rw [hsplit, List.append_assoc, List.cons_append]) hopen hpast
      have htime : InTime (front ++ [final] ++ [candle]) := by
        have hfold := @InTime.fold D (front ++ [final] ++ [candle]).length _ hbars candle
        rwa [foldBar_append hgt, pushBounded, List.rtake, Nat.sub_self, List.drop_zero] at hfold
      refine hlonger.drop htime ?_
      simp only [List.length_append, List.length_singleton]
      omega

theorem foldBar_length_le {series : List (Candle D)} (h : series.length ≤ depth)
    (candle : Candle D) : (foldBar depth series candle).length ≤ depth := by
  rcases List.eq_nil_or_concat series with rfl | ⟨init, last, rfl⟩
  · rw [foldBar_nil, pushBounded, List.rtake, List.length_drop]
    omega
  · rw [List.concat_eq_append] at h ⊢
    rcases lt_trichotomy candle.openTime last.openTime with hlt | heq | hgt
    · rwa [foldBar_drop hlt]
    · rw [foldBar_redraw heq]
      simpa using h
    · rw [foldBar_append hgt, pushBounded, List.rtake, List.length_drop]
      omega

theorem mem_foldBar {series : List (Candle D)} {candle bar : Candle D}
    (h : bar ∈ foldBar depth series candle) : bar ∈ series ∨ bar = candle := by
  rcases List.eq_nil_or_concat series with rfl | ⟨init, last, rfl⟩
  · exact .inr (by simpa using (pushBounded_suffix depth [] candle).subset h)
  · rw [List.concat_eq_append] at h ⊢
    rcases lt_trichotomy candle.openTime last.openTime with hlt | heq | hgt
    · rw [foldBar_drop hlt] at h
      exact .inl h
    · rw [foldBar_redraw heq] at h
      rcases List.mem_append.mp h with hold | hnew
      · exact .inl (List.mem_append_left _ hold)
      · exact .inr (List.mem_singleton.mp hnew)
    · rw [foldBar_append hgt] at h
      rcases List.mem_append.mp ((pushBounded_suffix depth _ candle).subset h) with hold | hnew
      · exact .inl hold
      · exact .inr (List.mem_singleton.mp hnew)

/-- What folding bars into nothing leaves. -/
structure SeriesOf (depth : ℕ) (updates bars : List (Candle D)) : Prop where
  inTime : InTime bars
  length_le : bars.length ≤ depth
  subset : bars ⊆ updates

theorem seriesOf_foldl (depth : ℕ) (updates : List (Candle D)) :
    SeriesOf depth updates (updates.foldl (foldBar depth) []) := by
  induction updates using List.reverseRecOn with
  | nil => exact ⟨.nil, Nat.zero_le _, List.nil_subset _⟩
  | append_singleton updates candle ih =>
    rw [List.foldl_append, List.foldl_cons, List.foldl_nil]
    refine ⟨ih.inTime.fold candle, foldBar_length_le ih.length_le candle, fun bar hbar => ?_⟩
    rcases mem_foldBar hbar with hold | rfl
    · exact List.mem_append_left _ (ih.subset hold)
    · exact List.mem_append_right _ (List.mem_singleton_self bar)

/-! ### Being handed the bars themselves -/

/-- Bars older than the last one shown are dropped. -/
theorem foldl_foldBar_drop {init late : List (Candle D)} {last : Candle D}
    (h : ∀ candle ∈ late, candle.openTime < last.openTime) :
    late.foldl (foldBar depth) (init ++ [last]) = init ++ [last] := by
  induction late with
  | nil => rfl
  | cons candle late ih =>
    rw [List.foldl_cons, foldBar_drop (h candle List.mem_cons_self)]
    exact ih fun c hc => h c (List.mem_cons_of_mem candle hc)

/-- Bars that open one after the other, and after the last one shown, are all appended. -/
theorem suffix_foldl_foldBar {past rest : List (Candle D)} {last : Candle D}
    (htime : InTime (last :: rest)) (hshown : past ++ [last] <:+ shown)
    (hlen : (past ++ last :: rest).length ≤ depth) :
    past ++ last :: rest <:+ rest.foldl (foldBar depth) shown := by
  induction rest generalizing past last shown with
  | nil => exact hshown
  | cons candle rest ih =>
    have hopen : last.openTime < candle.openTime :=
      (List.pairwise_cons.mp htime).1 candle List.mem_cons_self
    have hpushed : past ++ [last] ++ [candle] <:+ foldBar depth shown candle := by
      obtain ⟨older, rfl⟩ := hshown
      rw [← List.append_assoc, foldBar_append hopen, List.append_assoc older]
      have hall : (past ++ [last] ++ [candle]).rtake (past ++ [last] ++ [candle]).length =
          past ++ [last] ++ [candle] := by
        rw [List.rtake, Nat.sub_self, List.drop_zero]
      rw [← hall]
      refine rtake_suffix_rtake ?_ ?_
      · rw [List.append_assoc older]
        exact List.suffix_append _ _
      · simp only [List.length_append, List.length_cons, List.length_nil] at hlen ⊢
        omega
    have hmore := ih (List.pairwise_cons.mp htime).2 hpushed
      (by rwa [List.append_assoc, List.singleton_append])
    rwa [List.append_assoc, List.singleton_append] at hmore

/-- Handing over the first of the bars either changes nothing or shows them all. -/
theorem Behind.handed (h : Behind bars shown) (hbars : InTime bars) (hlen : bars.length ≤ depth)
    {handed : List (Candle D)} (hfront : handed <+: bars) :
    (handed.foldl (foldBar depth) shown = shown ∧ (handed = bars → bars = [])) ∨
      (handed ≠ [] ∧ handed <:+ handed.foldl (foldBar depth) shown) := by
  have hshort : handed.length ≤ depth := hfront.length_le.trans hlen
  have htime : InTime handed := hbars.sublist hfront.sublist
  cases handed with
  | nil => exact .inl ⟨rfl, Eq.symm⟩
  | cons first handed =>
    have hdepth : 0 < depth := Nat.zero_lt_of_lt (Nat.lt_of_succ_le hshort)
    -- the first of them is appended, and the others after it
    have hall : [first] <:+ foldBar depth shown first →
        (first :: handed ≠ [] ∧
          first :: handed <:+ (first :: handed).foldl (foldBar depth) shown) :=
      fun hfirst => ⟨List.cons_ne_nil _ _, by
        simpa using @suffix_foldl_foldBar D depth _ [] _ _ htime hfirst hshort⟩
    cases h with
    | nil =>
      refine .inr (hall ?_)
      rw [foldBar_nil, pushBounded_nil hdepth]
    | @before init rest last next hsplit hopen =>
      have hnext : first = next := by
        obtain ⟨later, hlater⟩ := hfront
        rw [hsplit, List.cons_append] at hlater
        exact (List.cons_eq_cons.mp hlater).1
      refine .inr (hall ?_)
      rw [foldBar_append (hnext ▸ hopen), pushBounded_eq_concat hdepth]
      exact List.suffix_append _ _
    | @within init past rest last bar hsplit hopen hpast =>
      have holder : ∀ candle ∈ past, candle.openTime < last.openTime := fun candle hmem => by
        rw [hsplit] at hbars
        exact hopen ▸ (List.pairwise_append.mp hbars).2.2 candle hmem bar List.mem_cons_self
      have hnone : first :: handed <+: past →
          (first :: handed).foldl (foldBar depth) (init ++ [last]) = init ++ [last] ∧
            (first :: handed = bars → bars = []) := by
        intro hpast'
        refine ⟨foldl_foldBar_drop fun candle hmem => holder candle (hpast'.subset hmem), ?_⟩
        intro heq
        have hlength := hpast'.length_le
        rw [heq, hsplit, List.length_append, List.length_cons] at hlength
        omega
      obtain ⟨later, hlater⟩ := hfront
      rw [hsplit] at hlater
      rcases List.append_eq_append_iff.mp hlater with ⟨more, hmore, -⟩ | ⟨own, hown, hrest⟩
      · exact .inl (hnone ⟨more, hmore.symm⟩)
      · cases own with
        | nil => exact .inl (hnone (by rw [hown, List.append_nil]))
        | cons bar' own =>
          obtain ⟨rfl, rfl⟩ := List.cons_eq_cons.mp hrest
          refine .inr ⟨List.cons_ne_nil _ _, ?_⟩
          rw [hown] at htime hshort ⊢
          rw [List.foldl_append, foldl_foldBar_drop holder, List.foldl_cons, foldBar_redraw hopen]
          refine suffix_foldl_foldBar (List.pairwise_append.mp htime).2.1 ?_ hshort
          exact List.suffix_append_self_iff.mpr hpast

/-- On the way nothing is missed. -/
theorem Behind.handing (h : Behind bars shown) (hbars : InTime bars) (hlen : bars.length ≤ depth)
    {handed : List (Candle D)} (hfront : handed <+: bars) :
    Behind bars (handed.foldl (foldBar depth) shown) := by
  rcases h.handed hbars hlen hfront with ⟨hsame, -⟩ | ⟨hne, hback⟩
  · rwa [hsame]
  · exact behind_of_prefix hfront hback hne

/-- Whoever is handed all of the bars has caught up. -/
theorem Behind.catchUp (h : Behind bars shown) (hbars : InTime bars) (hlen : bars.length ≤ depth) :
    EndsWith bars (bars.foldl (foldBar depth) shown) := by
  rcases h.handed hbars hlen List.prefix_rfl with ⟨-, hnil⟩ | ⟨hne, hback⟩
  · obtain rfl := hnil rfl
    rw [h.eq_nil]
    exact ⟨List.suffix_rfl, fun _ => rfl⟩
  · exact ⟨hback, fun hbars => absurd hbars hne⟩

/-! ### Being handed what the bars were made of -/

/-- Updates that open no new bar leave the latest state of the last one. -/
theorem foldl_foldBar_redraw {init updates : List (Candle D)} {last : Candle D}
    (h : ∀ candle ∈ updates, candle.openTime ≤ last.openTime) :
    updates.foldl (foldBar depth) (init ++ [last]) =
      init ++ [(updates.filter fun candle => candle.openTime = last.openTime).getLastD last] := by
  induction updates generalizing last with
  | nil => rfl
  | cons candle updates ih =>
    have hrest : ∀ c ∈ updates, c.openTime ≤ last.openTime :=
      fun c hc => h c (List.mem_cons_of_mem candle hc)
    rcases (h candle List.mem_cons_self).lt_or_eq with hlt | heq
    · rw [List.foldl_cons, foldBar_drop hlt, ih hrest,
        List.filter_cons_of_neg (by simpa using hlt.ne)]
    · rw [List.foldl_cons, foldBar_redraw heq, ih (heq ▸ hrest), heq,
        List.filter_cons_of_pos (by simpa using heq), List.getLastD_cons]

theorem foldBar_ne_nil (hdepth : 0 < depth) (series : List (Candle D)) (candle : Candle D) :
    foldBar depth series candle ≠ [] := by
  rcases List.eq_nil_or_concat series with rfl | ⟨init, last, rfl⟩
  · rw [foldBar_nil, pushBounded_nil hdepth]
    exact List.cons_ne_nil _ _
  · rw [List.concat_eq_append]
    rcases lt_trichotomy candle.openTime last.openTime with hlt | heq | hgt
    · rw [foldBar_drop hlt]
      simp
    · rw [foldBar_redraw heq]
      simp
    · rw [foldBar_append hgt, pushBounded_eq_concat hdepth]
      simp

/-- Where there are no bars, nothing was folded. -/
theorem eq_nil_of_foldl_foldBar (hdepth : 0 < depth) {updates later : List (Candle D)}
    (h : (updates ++ later).foldl (foldBar depth) [] = []) : later = [] := by
  rcases List.eq_nil_or_concat later with hlater | ⟨front, final, rfl⟩
  · exact hlater
  · rw [List.concat_eq_append, ← List.append_assoc, List.foldl_append] at h
    exact absurd h (foldBar_ne_nil hdepth _ final)

/-- The last bar of a series is the latest state of it that was folded. -/
theorem last_foldl_foldBar (hdepth : 0 < depth) (updates later : List (Candle D))
    {init : List (Candle D)} {last : Candle D}
    (h : (updates ++ later).foldl (foldBar depth) [] = init ++ [last]) :
    (∀ candle ∈ later, candle.openTime ≤ last.openTime) ∧
      (later.filter fun candle => candle.openTime = last.openTime).getLastD last = last := by
  induction later using List.reverseRecOn generalizing init last with
  | nil => exact ⟨by simp, rfl⟩
  | append_singleton later candle ih =>
    rw [← List.append_assoc, List.foldl_append, List.foldl_cons, List.foldl_nil] at h
    rcases List.eq_nil_or_concat ((updates ++ later).foldl (foldBar depth) []) with
      hnone | ⟨front, final, hfinal⟩
    · obtain rfl := eq_nil_of_foldl_foldBar hdepth hnone
      rw [hnone, foldBar_nil, pushBounded_nil hdepth, ← List.nil_append [candle]] at h
      obtain rfl : candle = last := by simpa using (List.append_inj' h rfl).2
      exact ⟨by simp, by simp⟩
    · rw [List.concat_eq_append] at hfinal
      obtain ⟨hle, hlatest⟩ := ih hfinal
      rw [hfinal] at h
      have hnew : candle = last → (∀ c ∈ later, c.openTime ≤ candle.openTime) →
          (∀ c ∈ later ++ [candle], c.openTime ≤ last.openTime) ∧
            ((later ++ [candle]).filter fun c => c.openTime = last.openTime).getLastD last =
              last := by
        rintro rfl hbefore
        rw [List.filter_append, List.filter_cons_of_pos (by simp), List.filter_nil,
          List.getLastD_concat]
        refine ⟨fun c hc => ?_, rfl⟩
        rcases List.mem_append.mp hc with hold | hself
        · exact hbefore c hold
        · exact (congrArg Candle.openTime (List.mem_singleton.mp hself)).le
      rcases lt_trichotomy candle.openTime final.openTime with hlt | heq | hgt
      · rw [foldBar_drop hlt] at h
        obtain rfl : final = last := by simpa using (List.append_inj' h rfl).2
        rw [List.filter_append, List.filter_cons_of_neg (by simpa using hlt.ne), List.filter_nil,
          List.append_nil]
        refine ⟨fun c hc => ?_, hlatest⟩
        rcases List.mem_append.mp hc with hold | hself
        · exact hle c hold
        · exact List.mem_singleton.mp hself ▸ hlt.le
      · rw [foldBar_redraw heq] at h
        exact hnew (by simpa using (List.append_inj' h rfl).2) fun c hc => heq ▸ hle c hc
      · rw [foldBar_append hgt, pushBounded_eq_concat hdepth] at h
        exact hnew (by simpa using (List.append_inj' h rfl).2) fun c hc => (hle c hc).trans hgt.le

/-- Whoever has caught up with a series, and then sees the last of what it was folded from, is not
behind on the way and has caught up again at the end. -/
theorem EndsWith.again {shallow : ℕ} (h : EndsWith bars shown) (hdepth : 0 < shallow)
    {updates later : List (Candle D)}
    (hbars : (updates ++ later).foldl (foldBar shallow) [] = bars) :
    (∀ seen, seen <+: later → Behind bars (seen.foldl (foldBar depth) shown)) ∧
      later.foldl (foldBar depth) shown = shown := by
  obtain ⟨⟨older, rfl⟩, hnil⟩ := h
  rcases List.eq_nil_or_concat bars with rfl | ⟨init, last, rfl⟩
  · obtain rfl := eq_nil_of_foldl_foldBar hdepth hbars
    refine ⟨fun seen hseen => ?_, rfl⟩
    rw [List.prefix_nil.mp hseen, hnil rfl]
    exact .nil
  · rw [List.concat_eq_append] at hbars ⊢
    obtain ⟨hle, hlatest⟩ := last_foldl_foldBar hdepth updates later hbars
    refine ⟨fun seen hseen => ?_, ?_⟩
    · rw [← List.append_assoc, foldl_foldBar_redraw fun c hc => hle c (hseen.subset hc)]
      refine .within rfl ?_ (List.suffix_append _ _)
      have hmem : (seen.filter fun c => c.openTime = last.openTime).getLastD last ∈
          last :: seen.filter fun c => c.openTime = last.openTime := by
        rcases List.eq_nil_or_concat (seen.filter fun c => c.openTime = last.openTime) with
          hnone | ⟨front, final, hfinal⟩
        · rw [hnone]
          exact List.mem_cons_self
        · rw [hfinal, List.concat_eq_append, List.getLastD_concat]
          simp
      rcases List.mem_cons.mp hmem with hlast | hseen
      · rw [hlast]
      · exact (of_decide_eq_true (List.mem_filter.mp hseen).2).symm
    · rw [← List.append_assoc, foldl_foldBar_redraw hle, hlatest]

end MoonCore
