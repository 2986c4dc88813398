import Mathlib.Algebra.Group.Nat.Defs
import Mathlib.Data.List.Dedup
import Mathlib.Data.List.AList
import Mathlib.Data.List.Perm.Subperm
import MoonCore.Domain.Ids
import MoonCore.Machine.Run

/-!
# Short identifiers for instruments

`domain::registry`. Ids are given in the order instruments are first interned, and never taken
back. A `SymbolRegistry` carries what ties its vector to its map: the vector has no symbol twice
and the map holds exactly the positions of the vector. The position is narrowed to 32 bits, so
below `2 ^ 32` symbols an id names one instrument (`SymbolRegistry.interned`).
-/

namespace MoonCore

/-- An instrument's short form within one epoch. -/
structure SymbolId where
  val : UInt32
  deriving DecidableEq

/-- `SymbolId(len as u32)` -/
def SymbolId.ofIndex (i : ℕ) : SymbolId := ⟨UInt32.ofNat i⟩

/-- Why an id means nothing here. -/
inductive ResolveError where
  | foreignEpoch (id : SymbolId) (issued current : UInt64)
  | unknown (id : SymbolId)
  deriving DecidableEq

/-- The core's assignment of short ids to instruments. -/
structure SymbolRegistry where
  epoch : UInt64
  /-- Index is the id; the vector is append-only. -/
  symbols : List Symbol
  byKey : AList fun _ : String => SymbolId
  nodup : symbols.Nodup
  indexed : ∀ s id, byKey.lookup s.key = some id ↔
    ∃ i, symbols[i]? = some s ∧ SymbolId.ofIndex i = id

namespace SymbolId

theorem toNat_ofIndex {i : ℕ} (h : i < 2 ^ 32) : (ofIndex i).val.toNat = i :=
  UInt32.toNat_ofNat_of_lt' h

end SymbolId

namespace SymbolRegistry

/-- A registry of a core that has just started. -/
def new (epoch : UInt64) : SymbolRegistry where
  epoch := epoch
  symbols := []
  byKey := ∅
  nodup := List.nodup_nil
  indexed := by simp

/-- A symbol is in the vector exactly when its key is in the map. -/
theorem lookup_byKey_eq_none_iff (self : SymbolRegistry) (s : Symbol) :
    self.byKey.lookup s.key = none ↔ s ∉ self.symbols := by
  rw [Option.eq_none_iff_forall_ne_some, List.mem_iff_getElem?]
  constructor
  · rintro h ⟨i, hi⟩
    exact h _ ((self.indexed s _).mpr ⟨i, hi, rfl⟩)
  · intro h id hid
    obtain ⟨i, hi, -⟩ := (self.indexed s id).mp hid
    exact h ⟨i, hi⟩

/-- A symbol that is appended gets its position, and every other keeps its own. -/
private theorem indexed_concat (self : SymbolRegistry) {symbol : Symbol}
    (h : symbol ∉ self.symbols) (s : Symbol) (id : SymbolId) :
    (self.byKey.insert symbol.key (SymbolId.ofIndex self.symbols.length)).lookup s.key = some id ↔
      ∃ i, (self.symbols ++ [symbol])[i]? = some s ∧ SymbolId.ofIndex i = id := by
  by_cases hs : s = symbol
  · subst hs
    rw [AList.lookup_insert, Option.some.injEq]
    constructor
    · rintro rfl
      exact ⟨self.symbols.length, by simp, rfl⟩
    · rintro ⟨i, hi, rfl⟩
      rw [List.getElem?_append] at hi
      split at hi
      · exact absurd (List.mem_of_getElem? hi) h
      · obtain ⟨hlt, -⟩ := List.getElem?_eq_some_iff.mp hi
        rw [List.length_singleton] at hlt
        congr 1
        omega
  · rw [AList.lookup_insert_ne (by simpa using hs), self.indexed]
    refine exists_congr fun i => and_congr_left fun _ => ?_
    rw [List.getElem?_append]
    split
    · rfl
    · have hout : self.symbols[i]? = none := List.getElem?_eq_none (by omega)
      rw [hout]
      constructor
      · intro hnone
        exact absurd hnone (by simp)
      · intro hsome
        exact absurd (List.mem_singleton.mp (List.mem_of_getElem? hsome)) hs

/-- Id for a symbol, assigning one if it has none. -/
def intern (self : SymbolRegistry) (symbol : Symbol) : SymbolRegistry × SymbolId :=
  match hkey : self.byKey.lookup symbol.key with
  | some id => (self, id)
  | none =>
    let id := SymbolId.ofIndex self.symbols.length
    have hnew : symbol ∉ self.symbols := (self.lookup_byKey_eq_none_iff symbol).mp hkey
    ({ epoch := self.epoch
       symbols := self.symbols ++ [symbol]
       byKey := self.byKey.insert symbol.key id
       nodup := List.nodup_append.mpr ⟨self.nodup, List.nodup_singleton _, fun _ ha _ hb heq =>
         hnew (List.mem_singleton.mp hb ▸ heq ▸ ha)⟩
       indexed := self.indexed_concat hnew }, id)

/-- Id for a symbol, without assigning one. -/
def lookup (self : SymbolRegistry) (symbol : Symbol) : Option SymbolId :=
  self.byKey.lookup symbol.key

/-- Resolve an id issued under `theirEpoch`. The epoch is checked first. -/
def resolve (self : SymbolRegistry) (id : SymbolId) (theirEpoch : UInt64) :
    Except ResolveError Symbol :=
  if theirEpoch ≠ self.epoch then .error (.foreignEpoch id theirEpoch self.epoch)
  else
    match self.symbols[id.val.toNat]? with
    | some symbol => .ok symbol
    | none => .error (.unknown id)

/-- Everything issued so far, for the start-of-session handover. -/
def assignments (self : SymbolRegistry) : List (Symbol × SymbolId) :=
  self.symbols.zipIdx.map fun entry => (entry.1, SymbolId.ofIndex entry.2)

/-- `intern`, call after call. -/
def machine : Machine SymbolRegistry Symbol SymbolId where
  step := intern

variable {self : SymbolRegistry} {s symbol : Symbol} {id : SymbolId}

theorem lookup_eq_some_iff :
    self.lookup s = some id ↔ ∃ i, self.symbols[i]? = some s ∧ SymbolId.ofIndex i = id :=
  self.indexed s id

/-! ### One call -/

/-- What `intern` can do: nothing to a known symbol, and one more at the end otherwise. -/
theorem intern_cases (self : SymbolRegistry) (symbol : Symbol) :
    (self.intern symbol).1 = self ∧ self.lookup symbol = some (self.intern symbol).2 ∨
      self.lookup symbol = none ∧ (self.intern symbol).1.epoch = self.epoch ∧
        (self.intern symbol).1.symbols = self.symbols ++ [symbol] ∧
        (self.intern symbol).2 = SymbolId.ofIndex self.symbols.length := by
  rw [intern, lookup]
  split
  · exact .inl ⟨rfl, by assumption⟩
  · exact .inr ⟨by assumption, rfl, rfl, rfl⟩

@[simp]
theorem epoch_intern (self : SymbolRegistry) (symbol : Symbol) :
    (self.intern symbol).1.epoch = self.epoch := by
  obtain ⟨h, -⟩ | ⟨-, h, -⟩ := self.intern_cases symbol
  · rw [h]
  · exact h

/-- Ids are never recycled. -/
theorem symbols_prefix_intern (self : SymbolRegistry) (symbol : Symbol) :
    self.symbols <+: (self.intern symbol).1.symbols := by
  obtain ⟨h, -⟩ | ⟨-, -, h, -⟩ := self.intern_cases symbol
  · rw [h]
  · rw [h]
    exact List.prefix_append _ _

/-- The id a symbol has, it keeps. -/
theorem lookup_intern_of_some (h : self.lookup s = some id) (symbol : Symbol) :
    (self.intern symbol).1.lookup s = some id := by
  obtain ⟨i, hi, hid⟩ := lookup_eq_some_iff.mp h
  obtain ⟨hlt, rfl⟩ := List.getElem?_eq_some_iff.mp hi
  have hkept := List.prefix_iff_getElem?.mp (self.symbols_prefix_intern symbol) i hlt
  exact lookup_eq_some_iff.mpr ⟨i, hkept, hid⟩

/-- The symbol just interned has the id that was answered. -/
@[simp]
theorem lookup_intern_self (self : SymbolRegistry) (symbol : Symbol) :
    (self.intern symbol).1.lookup symbol = some (self.intern symbol).2 := by
  obtain ⟨h, hid⟩ | ⟨-, -, h, hid⟩ := self.intern_cases symbol
  · rw [h, hid]
  · refine lookup_eq_some_iff.mpr ⟨self.symbols.length, ?_, hid.symm⟩
    rw [h]
    simp

/-- Nothing but the symbol just interned is new. -/
theorem lookup_of_intern (h : (self.intern symbol).1.lookup s = some id) :
    s = symbol ∧ id = (self.intern symbol).2 ∨ self.lookup s = some id := by
  by_cases hs : s = symbol
  · subst hs
    rw [lookup_intern_self, Option.some.injEq] at h
    exact .inl ⟨rfl, h.symm⟩
  · refine .inr ?_
    obtain ⟨heq, -⟩ | ⟨-, -, happ, -⟩ := self.intern_cases symbol
    · rwa [heq] at h
    · obtain ⟨i, hi, hid⟩ := lookup_eq_some_iff.mp h
      rw [happ, List.getElem?_append] at hi
      split at hi
      · exact lookup_eq_some_iff.mpr ⟨i, hi, hid⟩
      · exact absurd (List.mem_singleton.mp (List.mem_of_getElem? hi)) hs

/-! ### Whole runs -/

/-- What has been answered is what the registry holds. -/
def Issued (epoch : UInt64) (self : SymbolRegistry) (answers : List (Symbol × SymbolId)) : Prop :=
  self.epoch = epoch ∧ ∀ s id, (s, id) ∈ answers ↔ self.lookup s = some id

theorem issued_new (epoch : UInt64) : Issued epoch (new epoch) [] :=
  ⟨rfl, fun s id => by simp [lookup, new]⟩

theorem Issued.intern {epoch : UInt64} {answers : List (Symbol × SymbolId)}
    (h : Issued epoch self answers) (symbol : Symbol) :
    Issued epoch (machine.next self symbol) (answers ++ [(symbol, machine.out self symbol)]) := by
  refine ⟨(self.epoch_intern symbol).trans h.1, fun s id => ?_⟩
  rw [List.mem_append, h.2, List.mem_singleton, Prod.mk.injEq]
  constructor
  · rintro (hold | ⟨rfl, rfl⟩)
    · exact lookup_intern_of_some hold symbol
    · exact self.lookup_intern_self s
  · intro hnow
    obtain hnew | hold := lookup_of_intern hnow
    · exact .inr hnew
    · exact .inl hold

theorem issued_run (epoch : UInt64) (calls : List Symbol) :
    Issued epoch (machine.run (new epoch) calls) (machine.trace (new epoch) calls) :=
  Machine.run_invariant_trace (fun _ _ symbol h => h.intern symbol) (issued_new epoch) calls

/-- Only what was interned is in the registry. -/
theorem mem_symbols_run {epoch : UInt64} {calls : List Symbol}
    (h : s ∈ (machine.run (new epoch) calls).symbols) : s ∈ calls := by
  have hstep : ∀ (self : SymbolRegistry) (t : List (Symbol × SymbolId)) (symbol : Symbol),
      (∀ s ∈ self.symbols, s ∈ t.map Prod.fst) → ∀ s ∈ (machine.next self symbol).symbols,
        s ∈ (t ++ [(symbol, machine.out self symbol)]).map Prod.fst := by
    intro self t symbol hself s hs
    rw [List.map_append, List.mem_append]
    obtain ⟨heq, -⟩ | ⟨-, -, happ, -⟩ := self.intern_cases symbol
    · exact .inl (hself s (heq ▸ hs))
    · have hs' : s ∈ self.symbols ++ [symbol] := happ ▸ hs
      exact (List.mem_append.mp hs').imp (hself s) fun hone => by simpa using hone
  have hmem := Machine.run_invariant_trace (J := fun self t => ∀ s ∈ self.symbols,
    s ∈ t.map Prod.fst) hstep (s := new epoch) (t := []) (by simp [new]) calls s h
  rwa [List.nil_append, Machine.map_fst_trace] at hmem

/-- There are no more ids than different symbols that were interned. -/
theorem length_symbols_run_le (epoch : UInt64) (calls : List Symbol) :
    (machine.run (new epoch) calls).symbols.length ≤ calls.dedup.length := by
  refine (List.subperm_of_subset (nodup _) fun s hs => ?_).length_le
  exact List.mem_dedup.mpr (mem_symbols_run hs)

/-- What a registry with fewer than `2 ^ 32` symbols answers about the ids it gave. -/
theorem resolve_of_lookup (hlen : self.symbols.length < 2 ^ 32) (h : self.lookup s = some id) :
    self.resolve id self.epoch = .ok s := by
  obtain ⟨i, hi, rfl⟩ := lookup_eq_some_iff.mp h
  obtain ⟨hlt, -⟩ := List.getElem?_eq_some_iff.mp hi
  rw [resolve, if_neg (by simp), SymbolId.toNat_ofIndex (by omega), hi]

theorem resolve_of_ne {epoch : UInt64} (h : epoch ≠ self.epoch) (id : SymbolId) :
    self.resolve id epoch = .error (.foreignEpoch id epoch self.epoch) :=
  if_pos h

/-- An id that no symbol has is unknown. -/
theorem resolve_of_forall_lookup_ne (h : ∀ s, self.lookup s ≠ some id) :
    self.resolve id self.epoch = .error (.unknown id) := by
  rw [resolve, if_neg (by simp)]
  cases hat : self.symbols[id.val.toNat]? with
  | none => rfl
  | some s =>
    refine absurd (lookup_eq_some_iff.mpr ⟨_, hat, ?_⟩) (h s)
    rw [SymbolId.ofIndex, UInt32.ofNat_toNat]

theorem getElem?_assignments (self : SymbolRegistry) (i : ℕ) :
    self.assignments[i]? = self.symbols[i]?.map fun s => (s, SymbolId.ofIndex i) := by
  rw [assignments, List.getElem?_map, List.getElem?_zipIdx]
  cases self.symbols[i]? <;> simp

theorem mem_assignments {entry : Symbol × SymbolId} :
    entry ∈ self.assignments ↔ self.lookup entry.1 = some entry.2 := by
  rw [List.mem_iff_getElem?, lookup_eq_some_iff]
  refine exists_congr fun i => ?_
  rw [getElem?_assignments, Option.map_eq_some_iff]
  constructor
  · rintro ⟨s, hs, rfl⟩
    exact ⟨hs, rfl⟩
  · rintro ⟨hs, hid⟩
    exact ⟨entry.1, hs, Prod.ext rfl hid⟩

theorem nodup_assignments (self : SymbolRegistry) : self.assignments.Nodup := by
  refine List.Nodup.of_map Prod.fst ?_
  have hfst : self.assignments.map Prod.fst = self.symbols := by
    rw [assignments, List.map_map]
    exact List.zipIdx_map_fst 0 self.symbols
  rw [hfst]
  exact self.nodup

/-- Different symbols have different ids. -/
theorem eq_of_lookup_eq {t : Symbol} (hlen : self.symbols.length < 2 ^ 32)
    (hs : self.lookup s = some id) (ht : self.lookup t = some id) : s = t := by
  have hboth := (resolve_of_lookup hlen hs).symm.trans (resolve_of_lookup hlen ht)
  exact Except.ok.inj hboth

/-- **The symbol registry.** Keys identify symbols, and over every run of `intern` calls of fewer
than `2 ^ 32` instruments the ids answered identify them, resolve to them under the registry's
own epoch only, and are listed by position. -/
theorem interned (epoch : UInt64) (calls : List Symbol) (hfew : calls.dedup.length < 2 ^ 32) :
    let answers := machine.trace (new epoch) calls
    let registry := machine.run (new epoch) calls
    Function.Injective Symbol.key ∧
    (∀ a ∈ answers, ∀ b ∈ answers, a.1 = b.1 ↔ a.2 = b.2) ∧
    (∀ a ∈ answers, registry.resolve a.2 epoch = .ok a.1) ∧
    (∀ id theirs, theirs ≠ epoch →
      registry.resolve id theirs = .error (.foreignEpoch id theirs epoch)) ∧
    (∀ id, (∀ a ∈ answers, a.2 ≠ id) → registry.resolve id epoch = .error (.unknown id)) ∧
    registry.assignments.Nodup ∧ (∀ a, a ∈ registry.assignments ↔ a ∈ answers) ∧
    ∀ i (a : Symbol × SymbolId), registry.assignments[i]? = some a → a.2.val.toNat = i := by
  intro answers registry
  obtain ⟨hepoch, hheld⟩ := issued_run epoch calls
  have hlen : registry.symbols.length < 2 ^ 32 :=
    (length_symbols_run_le epoch calls).trans_lt hfew
  refine ⟨Symbol.key_injective, ?_, ?_, ?_, ?_, nodup_assignments _, ?_, ?_⟩
  · rintro ⟨s, id⟩ ha ⟨t, id'⟩ hb
    have hs := (hheld s id).mp ha
    have ht := (hheld t id').mp hb
    constructor
    · rintro rfl
      exact Option.some.inj (hs.symm.trans ht)
    · rintro rfl
      exact eq_of_lookup_eq hlen hs ht
  · rintro ⟨s, id⟩ ha
    rw [← hepoch]
    exact resolve_of_lookup hlen ((hheld s id).mp ha)
  · intro id theirs hne
    rw [← hepoch] at hne ⊢
    exact resolve_of_ne hne id
  · intro id hnever
    rw [← hepoch]
    exact resolve_of_forall_lookup_ne fun s hs => hnever (s, id) ((hheld s id).mpr hs) rfl
  · intro a
    rw [mem_assignments, ← hheld]
  · intro i a ha
    rw [getElem?_assignments, Option.map_eq_some_iff] at ha
    obtain ⟨s, hs, rfl⟩ := ha
    obtain ⟨hlt, -⟩ := List.getElem?_eq_some_iff.mp hs
    exact SymbolId.toNat_ofIndex (by omega)

/-- Two instruments, one of them interned twice. -/
theorem interned_two :
    (machine.run (new 7) [btcusdt, ⟨.binance, .spot, "BTCUSDT"⟩, btcusdt]).resolve
      (machine.out (new 7) btcusdt) 7 = .ok btcusdt :=
  (interned 7 [btcusdt, ⟨.binance, .spot, "BTCUSDT"⟩, btcusdt] (by decide)).2.2.1
    (btcusdt, machine.out (new 7) btcusdt) List.mem_cons_self

end SymbolRegistry

end MoonCore
