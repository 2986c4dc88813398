import Mathlib.Data.List.SplitBy
import Mathlib.Order.Lattice
import MoonCore.ForMathlib.FilterAfter

/-!
# Cutting a list into consecutive groups

Two ways to cut a list, each defined without a state and followed through the addition of one
element at the end:

* by a key in a linear order: the elements that do not fall behind an earlier one (`inOrder`),
  cut where the key changes (`groupsOf`). `groupsOf_concat` says what one more element does;
* by length: groups of exactly `n`, the last one possibly shorter (`chunks`, `chunks_concat`).

Nothing here is about a particular program.
-/

namespace MoonCore

variable {α κ : Type*}

/-! ### By a key -/

section ByKey

variable [LinearOrder κ] (key : α → κ)

/-- The elements whose key is at least that of every element before them. -/
def inOrder (l : List α) : List α :=
  filterAfter (fun earlier a => earlier.all fun b => key b ≤ key a) l

/-- The elements in order, cut where the key changes. -/
def groupsOf (l : List α) : List (List α) :=
  (inOrder key l).splitBy fun a b => key a = key b

/-- Nonempty groups of one key each, in increasing order of the keys. -/
structure IsGrouping (gs : List (List α)) : Prop where
  nil_notMem : [] ∉ gs
  same : ∀ g ∈ gs, ∀ a ∈ g, ∀ b ∈ g, key a = key b
  increasing : gs.Pairwise fun g h => ∀ a ∈ g, ∀ b ∈ h, key a < key b

variable {key}

theorem inOrder_concat (l : List α) (a : α) :
    inOrder key (l ++ [a]) = inOrder key l ++ if ∀ b ∈ l, key b ≤ key a then [a] else [] := by
  simp only [inOrder, filterAfter_concat, List.all_eq_true, decide_eq_true_eq]

/-- Every key is at most that of an element in order. -/
theorem exists_le_mem_inOrder (key : α → κ) {l : List α} {a : α} (h : a ∈ l) :
    ∃ b ∈ inOrder key l, key a ≤ key b := by
  induction l using List.reverseRecOn generalizing a with
  | nil => exact absurd h List.not_mem_nil
  | append_singleton l c ih =>
    rw [inOrder_concat]
    obtain hmem | hmem := List.mem_append.mp h
    · obtain ⟨b, hb, hle⟩ := ih hmem
      exact ⟨b, List.mem_append_left _ hb, hle⟩
    · obtain rfl := List.mem_singleton.mp hmem
      by_cases hlate : ∀ b ∈ l, key b ≤ key a
      · exact ⟨a, List.mem_append_right _ (by rw [if_pos hlate]; simp), le_rfl⟩
      · push Not at hlate
        obtain ⟨c, hc, hlt⟩ := hlate
        obtain ⟨b, hb, hle⟩ := ih hc
        exact ⟨b, List.mem_append_left _ hb, hlt.le.trans hle⟩

theorem IsGrouping.nil : IsGrouping key [] := ⟨by simp, by simp, List.Pairwise.nil⟩

/-- The last group grows by an element of its key. -/
theorem IsGrouping.extend {gs : List (List α)} {g : List α} {a : α} (h : IsGrouping key (gs ++ [g]))
    (ha : ∀ b ∈ g, key b = key a) : IsGrouping key (gs ++ [g ++ [a]]) := by
  obtain ⟨hnil, hsame, hinc⟩ := h
  obtain ⟨hgs, -, hlast⟩ := List.pairwise_append.mp hinc
  have hgrown : ∀ b ∈ g ++ [a], key b = key a := by
    intro b hb
    obtain hb | hb := List.mem_append.mp hb
    · exact ha b hb
    · rw [List.mem_singleton.mp hb]
  refine ⟨?_, fun g' hg' => ?_, List.pairwise_append.mpr ⟨hgs, List.pairwise_singleton _ _, ?_⟩⟩
  · simp only [List.mem_append, List.mem_singleton, not_or] at hnil ⊢
    exact ⟨hnil.1, by simp⟩
  · obtain hmem | hmem := List.mem_append.mp hg'
    · exact hsame g' (List.mem_append_left _ hmem)
    · obtain rfl := List.mem_singleton.mp hmem
      exact fun b hb c hc => (hgrown b hb).trans (hgrown c hc).symm
  · intro g' hg' h' hh' b hb c hc
    obtain rfl := List.mem_singleton.mp hh'
    obtain ⟨d, hd⟩ := List.exists_mem_of_ne_nil g fun hg => hnil (by simp [hg])
    rw [hgrown c hc, ← ha d hd]
    exact hlast g' hg' g List.mem_cons_self b hb d hd

/-- A greater key opens the next group. -/
theorem IsGrouping.concat {gs : List (List α)} {a : α} (h : IsGrouping key gs)
    (ha : ∀ g ∈ gs, ∀ b ∈ g, key b < key a) : IsGrouping key (gs ++ [[a]]) := by
  obtain ⟨hnil, hsame, hinc⟩ := h
  refine ⟨by simp [hnil], fun g hg => ?_, List.pairwise_append.mpr
    ⟨hinc, List.pairwise_singleton _ _, fun g hg h' hh' b hb c hc => ?_⟩⟩
  · obtain hg | hg := List.mem_append.mp hg
    · exact hsame g hg
    · rw [List.mem_singleton.mp hg]
      simp
  · obtain rfl := List.mem_singleton.mp hh'
    rw [List.mem_singleton.mp hc]
    exact ha g hg b hb

/-- A grouping is recovered from its elements. -/
theorem IsGrouping.splitBy_flatten {gs : List (List α)} (h : IsGrouping key gs) :
    gs.flatten.splitBy (fun a b => key a = key b) = gs := by
  obtain ⟨hnil, hsame, hinc⟩ := h
  refine List.splitBy_flatten hnil (fun g hg => ?_) ?_
  · refine List.Pairwise.isChain (List.pairwise_iff_forall_sublist.mpr fun {a b} hab => ?_)
    have ha : a ∈ g := hab.subset (by simp)
    have hb : b ∈ g := hab.subset (by simp)
    simpa using hsame g hg a ha b hb
  · refine List.Pairwise.isChain (hinc.imp_of_mem fun {g g'} hg hg' hlt => ?_)
    have hne : g ≠ [] := fun h => hnil (h ▸ hg)
    have hne' : g' ≠ [] := fun h => hnil (h ▸ hg')
    refine ⟨hne, hne', ?_⟩
    simpa using (hlt _ (List.getLast_mem hne) _ (List.head_mem hne')).ne

/-- Elements in order are grouped, whatever the list. -/
theorem exists_isGrouping (key : α → κ) (l : List α) :
    ∃ gs, IsGrouping key gs ∧ gs.flatten = inOrder key l := by
  induction l using List.reverseRecOn with
  | nil => exact ⟨[], .nil, rfl⟩
  | append_singleton l a ih =>
    obtain ⟨gs, hgs, hflat⟩ := ih
    rw [inOrder_concat, ← hflat]
    split_ifs with hle
    · have hle' : ∀ g ∈ gs, ∀ b ∈ g, key b ≤ key a := fun g hg b hb =>
        hle b (mem_of_mem_filterAfter (hflat ▸ List.mem_flatten_of_mem hg hb))
      obtain rfl | ⟨init, g, rfl⟩ := List.eq_nil_or_concat' gs
      · exact ⟨[[a]], .concat hgs (by simp), rfl⟩
      · by_cases hsame : ∀ b ∈ g, key b = key a
        · exact ⟨init ++ [g ++ [a]], hgs.extend hsame, by simp⟩
        · refine ⟨init ++ [g] ++ [[a]], hgs.concat fun g' hg' b hb => ?_, by simp⟩
          -- one element of the last group lies below, so all elements of all groups do
          push Not at hsame
          obtain ⟨c, hc, hne⟩ := hsame
          have hlt : key c < key a := lt_of_le_of_ne (hle' g (by simp) c hc) hne
          obtain hg' | hg' := List.mem_append.mp hg'
          · exact ((List.pairwise_append.mp hgs.increasing).2.2 g' hg' g (by simp) b hb c hc).trans
              hlt
          · rw [List.mem_singleton.mp hg'] at hb
            rwa [hgs.same g (by simp) b hb c hc]
    · exact ⟨gs, hgs, by simp⟩

theorem isGrouping_groupsOf (key : α → κ) (l : List α) : IsGrouping key (groupsOf key l) := by
  obtain ⟨gs, hgs, hflat⟩ := exists_isGrouping key l
  rw [groupsOf, ← hflat, hgs.splitBy_flatten]
  exact hgs

theorem flatten_groupsOf (key : α → κ) (l : List α) :
    (groupsOf key l).flatten = inOrder key l := List.flatten_splitBy _ _

@[simp]
theorem groupsOf_nil : groupsOf key ([] : List α) = [] := rfl

@[simp]
theorem groupsOf_singleton (a : α) : groupsOf key [a] = [[a]] := rfl

theorem groupsOf_ne_nil {l : List α} (h : l ≠ []) : groupsOf key l ≠ [] := by
  obtain ⟨a, ha⟩ := List.exists_mem_of_ne_nil l h
  obtain ⟨b, hb, -⟩ := exists_le_mem_inOrder key ha
  rw [groupsOf, Ne, List.splitBy_eq_nil]
  exact List.ne_nil_of_mem hb

/-- **One more element** is dropped if it falls behind the last group, joins that group if it
has its key, and opens a group otherwise. -/
theorem groupsOf_concat {l : List α} {gs : List (List α)} {g : List α} {b : α}
    (h : groupsOf key l = gs ++ [g]) (hb : b ∈ g) (a : α) :
    groupsOf key (l ++ [a]) =
      if key a < key b then gs ++ [g] else if key a = key b then gs ++ [g ++ [a]]
      else gs ++ [g] ++ [[a]] := by
  have hgrouping : IsGrouping key (gs ++ [g]) := h ▸ isGrouping_groupsOf key l
  have hflat : inOrder key l = (gs ++ [g]).flatten := by rw [← flatten_groupsOf, h]
  have hbelow : ∀ g' ∈ gs ++ [g], ∀ c ∈ g', key c ≤ key b := by
    intro g' hg' c hc
    obtain hg' | hg' := List.mem_append.mp hg'
    · exact ((List.pairwise_append.mp hgrouping.increasing).2.2 g' hg' g (by simp) c hc b hb).le
    · rw [List.mem_singleton.mp hg'] at hc
      exact (hgrouping.same g (by simp) c hc b hb).le
  -- What was dropped was behind something that was kept, so nothing is later than `b`.
  have hmax : ∀ c ∈ l, key c ≤ key b := by
    intro c hc
    obtain ⟨d, hd, hle⟩ := exists_le_mem_inOrder key hc
    rw [hflat] at hd
    obtain ⟨g', hg', hd⟩ := List.mem_flatten.mp hd
    exact hle.trans (hbelow g' hg' d hd)
  have hmem : b ∈ l := mem_of_mem_filterAfter (hflat ▸ List.mem_flatten_of_mem (by simp) hb)
  rw [groupsOf, inOrder_concat, hflat]
  -- `inOrder` keeps the element exactly if nothing is later: two of the six cases are empty.
  split_ifs with hle hlt heq hlt heq
  · exact absurd (hle b hmem) (not_le.mpr hlt)
  · have hjoin : (gs ++ [g]).flatten ++ [a] = (gs ++ [g ++ [a]]).flatten := by simp
    rw [hjoin]
    refine (hgrouping.extend fun c hc => ?_).splitBy_flatten
    exact (hgrouping.same g (by simp) c hc b hb).trans heq.symm
  · have hopen : (gs ++ [g]).flatten ++ [a] = (gs ++ [g] ++ [[a]]).flatten := by simp
    rw [hopen]
    have hgt : key b < key a := lt_of_le_of_ne (not_lt.mp hlt) (Ne.symm heq)
    exact (hgrouping.concat fun g' hg' c hc => (hbelow g' hg' c hc).trans_lt hgt).splitBy_flatten
  · rw [List.append_nil]
    exact hgrouping.splitBy_flatten
  · exact absurd (fun c hc => (hmax c hc).trans heq.ge) hle
  · exact absurd (fun c hc => (hmax c hc).trans (not_lt.mp hlt)) hle

/-- Copies of one element are one group. -/
theorem groupsOf_replicate (key : α → κ) (a : α) (n : ℕ) :
    groupsOf key (List.replicate (n + 1) a) = [List.replicate (n + 1) a] := by
  induction n with
  | zero => rfl
  | succ n ih =>
    have hlast : groupsOf key (List.replicate (n + 1) a) = [] ++ [List.replicate (n + 1) a] := ih
    have hmem : a ∈ List.replicate (n + 1) a := List.mem_replicate.mpr ⟨by omega, rfl⟩
    rw [List.replicate_succ', groupsOf_concat hlast hmem a, if_neg (lt_irrefl _), if_pos rfl,
      List.nil_append]

end ByKey

/-! ### By length -/

/-- Consecutive groups of `n`, the last one possibly shorter. -/
def chunks (n : ℕ) (l : List α) : List (List α) :=
  (List.range ((l.length + n - 1) / n)).map fun i => (l.drop (i * n)).take n

/-- Nonempty groups of at most `n`, all but the last of exactly `n`. -/
structure IsChunking (n : ℕ) (gs : List (List α)) : Prop where
  nil_notMem : [] ∉ gs
  length_le : ∀ g ∈ gs, g.length ≤ n
  full : ∀ g ∈ gs.dropLast, g.length = n

variable {n : ℕ}

@[simp]
theorem chunks_nil (hn : 0 < n) : chunks n ([] : List α) = [] := by
  rw [chunks, List.length_nil, Nat.zero_add, Nat.div_eq_of_lt (Nat.sub_lt hn Nat.one_pos)]
  rfl

theorem chunks_of_length_le {l : List α} (hl : l ≠ []) (h : l.length ≤ n) : chunks n l = [l] := by
  have hpos := List.length_pos_of_ne_nil hl
  have hone : (l.length + n - 1) / n = 1 :=
    Nat.div_eq_of_lt_le (by omega) (by omega)
  rw [chunks, hone, List.range_one, List.map_singleton, Nat.zero_mul, List.drop_zero,
    List.take_of_length_le h]

theorem chunks_append {l : List α} (hn : 0 < n) (h : l.length = n) (m : List α) :
    chunks n (l ++ m) = l :: chunks n m := by
  have hcount : ((l ++ m).length + n - 1) / n = (m.length + n - 1) / n + 1 := by
    rw [List.length_append, h, show n + m.length + n - 1 = m.length + n - 1 + n by omega,
      Nat.add_div_right _ hn]
  rw [chunks, hcount, List.range_succ_eq_map, List.map_cons, List.map_map, chunks]
  congr 1
  · rw [Nat.zero_mul, List.drop_zero, List.take_left' h]
  · refine List.map_congr_left fun i _ => ?_
    have hdrop : (i + 1) * n = l.length + i * n := by rw [h, Nat.succ_mul, Nat.add_comm]
    rw [Function.comp_apply, hdrop, List.drop_append, List.drop_eq_nil_of_le (by omega),
      List.nil_append, Nat.add_sub_cancel_left]

/-- A chunking is recovered from its elements. -/
theorem IsChunking.chunks_flatten {gs : List (List α)} (hn : 0 < n) (h : IsChunking n gs) :
    chunks n gs.flatten = gs := by
  induction gs with
  | nil => exact chunks_nil hn
  | cons g gs ih =>
    obtain ⟨hnil, hle, hfull⟩ := h
    simp only [List.mem_cons, not_or] at hnil
    rcases gs with - | ⟨g', gs⟩
    · rw [List.flatten_cons, List.flatten_nil, List.append_nil]
      exact chunks_of_length_le (Ne.symm hnil.1) (hle g List.mem_cons_self)
    · rw [List.flatten_cons, chunks_append hn (hfull g (by simp)), ih]
      refine ⟨by simpa using hnil.2, fun g hg => hle g (List.mem_cons_of_mem _ hg), fun g hg => ?_⟩
      exact hfull g (by rw [List.dropLast_cons_cons]; exact List.mem_cons_of_mem _ hg)

theorem IsChunking.nil : IsChunking n ([] : List (List α)) := ⟨by simp, by simp, by simp⟩

/-- A last group with room takes the next element. -/
theorem IsChunking.extend {gs : List (List α)} {g : List α} (h : IsChunking n (gs ++ [g]))
    (hroom : g.length < n) (a : α) : IsChunking n (gs ++ [g ++ [a]]) := by
  obtain ⟨hnil, hle, hfull⟩ := h
  rw [List.dropLast_concat] at hfull
  refine ⟨?_, fun g' hg' => ?_, by rwa [List.dropLast_concat]⟩
  · simp only [List.mem_append, List.mem_singleton, not_or] at hnil ⊢
    exact ⟨hnil.1, by simp⟩
  · obtain hg' | hg' := List.mem_append.mp hg'
    · exact hle g' (List.mem_append_left _ hg')
    · rw [List.mem_singleton.mp hg', List.length_append, List.length_singleton]
      exact hroom

/-- After full groups the next element opens one. -/
theorem IsChunking.concat {gs : List (List α)} (hn : 0 < n) (h : IsChunking n gs)
    (hfull : ∀ g ∈ gs, g.length = n) (a : α) : IsChunking n (gs ++ [[a]]) := by
  refine ⟨by simp [h.nil_notMem], fun g hg => ?_, by rwa [List.dropLast_concat]⟩
  obtain hg | hg := List.mem_append.mp hg
  · exact h.length_le g hg
  · rw [List.mem_singleton.mp hg, List.length_singleton]
    exact hn

theorem exists_isChunking (hn : 0 < n) (l : List α) :
    ∃ gs, IsChunking n gs ∧ gs.flatten = l := by
  induction l using List.reverseRecOn with
  | nil => exact ⟨[], .nil, rfl⟩
  | append_singleton l a ih =>
    obtain ⟨gs, hgs, rfl⟩ := ih
    obtain rfl | ⟨init, g, rfl⟩ := List.eq_nil_or_concat' gs
    · exact ⟨[[a]], .concat hn hgs (by simp) a, rfl⟩
    · have hinit := hgs.full
      rw [List.dropLast_concat] at hinit
      rcases Nat.lt_or_ge g.length n with hroom | hroom
      · exact ⟨init ++ [g ++ [a]], hgs.extend hroom a, by simp⟩
      · refine ⟨init ++ [g] ++ [[a]], hgs.concat hn (fun g' hg' => ?_) a, by simp⟩
        obtain hg' | hg' := List.mem_append.mp hg'
        · exact hinit g' hg'
        · rw [List.mem_singleton.mp hg']
          exact Nat.le_antisymm (hgs.length_le g (by simp)) hroom

theorem isChunking_chunks (hn : 0 < n) (l : List α) : IsChunking n (chunks n l) := by
  obtain ⟨gs, hgs, rfl⟩ := exists_isChunking hn l
  rw [hgs.chunks_flatten hn]
  exact hgs

theorem flatten_chunks (hn : 0 < n) (l : List α) : (chunks n l).flatten = l := by
  obtain ⟨gs, hgs, rfl⟩ := exists_isChunking hn l
  rw [hgs.chunks_flatten hn]

/-- The last group has room unless the groups before it use up all that there is. -/
theorem length_lt_iff_not_dvd (hn : 0 < n) {l : List α} {gs : List (List α)} {g : List α}
    (h : chunks n l = gs ++ [g]) : g.length < n ↔ ¬ n ∣ l.length := by
  have hgs : IsChunking n (gs ++ [g]) := h ▸ isChunking_chunks hn l
  have hle := hgs.length_le g (by simp)
  have hpos : 0 < g.length := List.length_pos_of_ne_nil fun hg => hgs.nil_notMem (by simp [hg])
  have hfull : gs.map List.length = List.replicate gs.length n := by
    refine List.eq_replicate_iff.mpr ⟨List.length_map _, List.forall_mem_map.mpr fun c hc => ?_⟩
    exact hgs.full c (by rwa [List.dropLast_concat])
  have hlength : l.length = gs.length * n + g.length := by
    rw [← flatten_chunks hn l, h, List.flatten_concat, List.length_append, List.length_flatten,
      hfull, List.sum_replicate_nat]
  rw [hlength, Nat.dvd_add_right (Nat.dvd_mul_left n gs.length)]
  constructor
  · exact fun hlt hdvd => absurd (Nat.le_of_dvd hpos hdvd) (Nat.not_le.mpr hlt)
  · exact fun hndvd => lt_of_le_of_ne hle fun heq => hndvd (heq ▸ Nat.dvd_refl n)

/-- **One more element** joins the last group while that has room, and opens a group
otherwise. -/
theorem chunks_concat (hn : 0 < n) {l : List α} {gs : List (List α)} {g : List α}
    (h : chunks n l = gs ++ [g]) (a : α) :
    chunks n (l ++ [a]) = if g.length < n then gs ++ [g ++ [a]] else gs ++ [g] ++ [[a]] := by
  have hgs : IsChunking n (gs ++ [g]) := h ▸ isChunking_chunks hn l
  have hflat : l = (gs ++ [g]).flatten := by rw [← h, flatten_chunks hn]
  have hinit := hgs.full
  rw [List.dropLast_concat] at hinit
  split_ifs with hroom
  · have hjoin : l ++ [a] = (gs ++ [g ++ [a]]).flatten := by simp [hflat]
    rw [hjoin, (hgs.extend hroom a).chunks_flatten hn]
  · have hopen : l ++ [a] = (gs ++ [g] ++ [[a]]).flatten := by simp [hflat]
    rw [hopen]
    refine (hgs.concat hn (fun g' hg' => ?_) a).chunks_flatten hn
    obtain hg' | hg' := List.mem_append.mp hg'
    · exact hinit g' hg'
    · rw [List.mem_singleton.mp hg']
      exact Nat.le_antisymm (hgs.length_le g (by simp)) (not_lt.mp hroom)

end MoonCore
