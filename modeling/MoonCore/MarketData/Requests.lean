import Mathlib.Data.List.Chain
import MoonCore.MarketData.Resync

/-!
# When snapshots are asked for

Two fields of an entry gate its snapshot requests: when the last one was made, and whether it
is still outstanding. `BookSet.Requests` says which calls make a request, `entryFor_next` what
each call does to the two fields; everything else here is read off the answers of a run.

* `requestTimes`, the times at which snapshots of a symbol were asked for. Two neighbours are a
  cooldown apart exactly in the runs in which no full buffer and no deadline of an outstanding
  request opened the gate early (`BookSet.spaced_iff_along_inTime`).
* No entry waits for ever: `BookSet.never_wedged` says after which time the next delta asks once
  more, whatever happened before.
-/

namespace MoonCore

namespace Entry

variable {D : Type*}

/-- The last request keeps the entry from making another. -/
def Blocked (self : Entry D) (now : Timestamp) (cooldownMs : ℤ) : Prop :=
  ∃ ts, self.requestedAt = some ts ∧
    ts.ageMillisFrom now < if self.awaiting then requestDeadlineMs else cooldownMs

/-- A request is made exactly when the last one does not forbid it. -/
theorem requestSnapshot_cases (self : Entry D) (now : Timestamp) (cooldownMs : ℤ) :
    (self.Blocked now cooldownMs ∧ self.requestSnapshot now cooldownMs = (self, .nothing)) ∨
      (¬ self.Blocked now cooldownMs ∧ self.requestSnapshot now cooldownMs =
        ({ self with awaiting := true, requestedAt := some now }, .snapshot self.symbol)) := by
  rcases hreq : self.requestedAt with - | ts
  · refine .inr ⟨fun ⟨ts, hts, _⟩ => absurd (hreq.symm.trans hts) (by simp), ?_⟩
    simp [requestSnapshot, hreq]
  · have hblocked : self.Blocked now cooldownMs ↔
        ts.ageMillisFrom now < if self.awaiting then requestDeadlineMs else cooldownMs := by
      simp [Blocked, hreq]
    rw [hblocked]
    rcases hawait : self.awaiting with - | -
    · by_cases hage : ts.ageMillisFrom now < cooldownMs
      · exact .inl ⟨by simpa using hage, by simp [requestSnapshot, hreq, hawait, hage]⟩
      · exact .inr ⟨by simpa using hage, by simp [requestSnapshot, hreq, hawait, hage]⟩
    · by_cases hage : ts.ageMillisFrom now < requestDeadlineMs
      · exact .inl ⟨by simpa using hage, by simp [requestSnapshot, hreq, hawait, hage]⟩
      · exact .inr ⟨by simpa using hage, by simp [requestSnapshot, hreq, hawait, hage]⟩

/-- Holding a delta for replay and asking for a snapshot: the request is made when the buffer
starts over or the last request does not forbid it, and otherwise the gate stays as it is. -/
theorem buffer_requestSnapshot_cases (self : Entry D) (delta : BookDelta D) (now : Timestamp)
    (cooldownMs : ℤ) :
    ((maxBuffered ≤ self.buffered.length ∨ ¬ self.Blocked now cooldownMs) ∧
      ((self.buffer delta).requestSnapshot now cooldownMs).2 = .snapshot self.symbol ∧
      ((self.buffer delta).requestSnapshot now cooldownMs).1.requestedAt = some now ∧
      ((self.buffer delta).requestSnapshot now cooldownMs).1.awaiting = true) ∨
    (self.buffered.length < maxBuffered ∧ self.Blocked now cooldownMs ∧
      ((self.buffer delta).requestSnapshot now cooldownMs).2 = .nothing ∧
      ((self.buffer delta).requestSnapshot now cooldownMs).1.requestedAt = self.requestedAt ∧
      ((self.buffer delta).requestSnapshot now cooldownMs).1.awaiting = self.awaiting) := by
  by_cases hfull : maxBuffered ≤ self.buffered.length
  · have hbuf : self.buffer delta =
        { self with buffered := [delta], awaiting := false, requestedAt := none } := if_pos hfull
    rw [hbuf]
    obtain ⟨⟨ts, hts, -⟩, -⟩ | ⟨-, heq⟩ := requestSnapshot_cases
      { self with buffered := [delta], awaiting := false, requestedAt := none } now cooldownMs
    · exact absurd hts (by simp)
    · exact .inl ⟨.inl hfull, by rw [heq], by rw [heq], by rw [heq]⟩
  · have hbuf : self.buffer delta = { self with buffered := self.buffered ++ [delta] } :=
      if_neg hfull
    rw [hbuf]
    obtain ⟨hblocked, heq⟩ | ⟨hopen, heq⟩ := requestSnapshot_cases
      { self with buffered := self.buffered ++ [delta] } now cooldownMs
    · exact .inr ⟨not_le.mp hfull, hblocked, by rw [heq], by rw [heq], by rw [heq]⟩
    · exact .inl ⟨.inr hopen, by rw [heq], by rw [heq], by rw [heq]⟩

end Entry

/-- The clock reading a call is made at. -/
def BookOp.time {D : Type*} : BookOp D → Option Timestamp
  | .delta _ now => some now
  | .snapshot _ now => some now
  | _ => none

namespace BookSet

variable {D : Type*} [LinearOrder D] [Zero D] {self : BookSet D} {symbol : Symbol}

/-- The delta finds no book it belongs to: there is none, or it leaves a gap on the one there
is. -/
def Waits (self : BookSet D) (delta : BookDelta D) : Prop :=
  ∀ b, (self.entryFor delta.symbol).book = some b →
    b.lastUpdateId < delta.lastUpdateId ∧ ¬ OrderBook.Extends delta b

/-- The call asks for a snapshot of the symbol, at the given time. -/
def Requests (self : BookSet D) (symbol : Symbol) (time : Timestamp) : BookOp D → Prop
  | .delta delta now => delta.symbol = symbol ∧ now = time ∧ self.Waits delta ∧
      (maxBuffered ≤ (self.entryFor symbol).buffered.length ∨
        ¬ (self.entryFor symbol).Blocked now self.cooldownMs)
  | _ => False

omit [LinearOrder D] [Zero D] in
theorem Requests.time_unique {time time' : Timestamp} {op : BookOp D}
    (h : self.Requests symbol time op) (h' : self.Requests symbol time' op) : time = time' := by
  cases op with
  | delta => exact h.2.1.symm.trans h'.2.1
  | snapshot => exact h.elim
  | failed => exact h.elim
  | reset => exact h.elim

/-- The call reports the outcome of a fetch for the symbol. -/
def Answers (symbol : Symbol) : BookOp D → Prop
  | .snapshot snapshot _ => snapshot.symbol = some symbol
  | .failed failed => failed = symbol
  | _ => False

/-- The time of the request an answer makes for a symbol. -/
def requestOf (symbol : Symbol) : BookOp D × BookAnswer D → Option Timestamp
  | (.delta _ now, .outcome outcome) => if outcome.need = .snapshot symbol then some now else none
  | _ => none

/-- The times at which snapshots of a symbol were asked for. -/
def requestTimes (symbol : Symbol) (trace : List (BookOp D × BookAnswer D)) : List Timestamp :=
  trace.filterMap (requestOf symbol)

omit [LinearOrder D] [Zero D] in
theorem entryFor_insert (self : BookSet D) (key : Symbol) (entry : Entry D) (symbol : Symbol) :
    (self.insert key.key entry).entryFor symbol =
      if symbol = key then entry else self.entryFor symbol := by
  simp only [entryFor, insert_entries, Symbol.key_inj]
  split_ifs <;> rfl

theorem symbol_entryFor (h : Every Kept self) (symbol : Symbol) :
    (self.entryFor symbol).symbol = symbol :=
  Symbol.key_injective (h.entryFor (stable_kept.fresh symbol)).key_eq

/-- A delta that waits is held for replay and asks for a snapshot if it may. -/
theorem onDelta_of_waits {delta : BookDelta D} (h : self.Waits delta) (now : Timestamp) :
    self.onDelta delta now =
      (self.insert delta.symbol.key (({ self.entryFor delta.symbol with book := none }.buffer
          delta).requestSnapshot now self.cooldownMs).1,
        ⟨(({ self.entryFor delta.symbol with book := none }.buffer delta).requestSnapshot now
          self.cooldownMs).2, false, false⟩) := by
  rcases hbook : (self.entryFor delta.symbol).book with - | b
  · have heta : { self.entryFor delta.symbol with book := none } = self.entryFor delta.symbol := by
      rw [← hbook]
    simp only [onDelta, hbook, heta]
  · obtain ⟨hlt, hnot⟩ := h b hbook
    rcases b.apply_cases delta with ⟨hle, -⟩ | ⟨hext, -⟩ | ⟨-, -, heq⟩
    · exact absurd hle (not_le.mpr hlt)
    · exact absurd hext hnot
    · simp only [onDelta, hbook, heq]

/-- A delta that finds its book leaves the request bookkeeping alone. -/
theorem onDelta_of_not_waits {delta : BookDelta D} (h : ¬ self.Waits delta) (now : Timestamp) :
    ∃ entry, (self.onDelta delta now).1 = self.insert delta.symbol.key entry ∧
      entry.requestedAt = (self.entryFor delta.symbol).requestedAt ∧
      entry.awaiting = (self.entryFor delta.symbol).awaiting ∧
      (self.onDelta delta now).2.need = .nothing := by
  rcases self.onDelta_cases delta now with ⟨-, hno | ⟨b, hb, hgap⟩, -⟩ | ⟨b, -, -, heq⟩ |
    ⟨b, -, -, heq⟩
  · exact absurd (fun b hb => absurd (hno.symm.trans hb) (by simp)) h
  · refine absurd (fun b' hb' => ?_) h
    obtain rfl := Option.some.inj (hb.symm.trans hb')
    exact hgap
  · exact ⟨{ self.entryFor delta.symbol with book := some (b.extend delta), updatedAt := now },
      by rw [heq], rfl, rfl, by rw [heq]⟩
  · exact ⟨_, by rw [heq], rfl, rfl, by rw [heq]⟩

/-- The call asks for a snapshot of the symbol: it stamps the entry and leaves it waiting for an
answer. -/
def Asks (self : BookSet D) (symbol : Symbol) (op : BookOp D) : Prop :=
  ∃ now, self.Requests symbol now op ∧ requestOf symbol (op, machine.out self op) = some now ∧
    ((machine.next self op).entryFor symbol).requestedAt = some now ∧
    ((machine.next self op).entryFor symbol).awaiting = true

/-- The call does not ask for a snapshot of the symbol: unless it is a reset it keeps the stamp,
it starts no wait, and the wait does not outlast an outcome that it reports. -/
def LeavesGate (self : BookSet D) (symbol : Symbol) (op : BookOp D) : Prop :=
  (∀ now, ¬ self.Requests symbol now op) ∧
    requestOf symbol (op, machine.out self op) = none ∧
    (((machine.next self op).entryFor symbol).requestedAt = (self.entryFor symbol).requestedAt ∨
      op = .reset ∧ ((machine.next self op).entryFor symbol).requestedAt = none) ∧
    (((machine.next self op).entryFor symbol).awaiting = true →
      (self.entryFor symbol).awaiting = true ∧ ¬ Answers symbol op)

theorem gate_delta_of_waits (h : Every Kept self) (symbol : Symbol) {delta : BookDelta D}
    (hwait : self.Waits delta) (now : Timestamp) :
    self.Asks symbol (.delta delta now) ∨ self.LeavesGate symbol (.delta delta now) := by
  have hnext : machine.next self (.delta delta now) = (self.onDelta delta now).1 := rfl
  have hout : machine.out self (.delta delta now) = .outcome (self.onDelta delta now).2 := rfl
  have hself : (self.entryFor delta.symbol).symbol = delta.symbol := symbol_entryFor h _
  have hcases := Entry.buffer_requestSnapshot_cases
    { self.entryFor delta.symbol with book := none } delta now self.cooldownMs
  rw [Asks, LeavesGate, hnext, hout, onDelta_of_waits hwait now, entryFor_insert]
  by_cases hsym : symbol = delta.symbol
  · subst hsym
    rw [if_pos rfl]
    obtain ⟨hopen, hneed, hstamp, hawait⟩ | ⟨hroom, hblocked, hneed, hstamp, hawait⟩ := hcases
    · refine .inl ⟨now, ⟨rfl, rfl, hwait, hopen⟩, ?_, hstamp, hawait⟩
      rw [requestOf, hneed, if_pos (congrArg Need.snapshot hself)]
    · refine .inr ⟨?_, ?_, .inl hstamp, fun hw => ⟨hawait.symm.trans hw, id⟩⟩
      · rintro t ⟨-, rfl, -, hfull | hopen⟩
        · exact absurd hfull (not_le.mpr hroom)
        · exact hopen hblocked
      · rw [requestOf, hneed, if_neg (by simp)]
  · rw [if_neg hsym]
    refine .inr ⟨fun t hreq => hsym hreq.1.symm, ?_, .inl rfl, fun hw => ⟨hw, id⟩⟩
    obtain ⟨-, hneed, -⟩ | ⟨-, -, hneed, -⟩ := hcases
    · rw [requestOf, hneed, if_neg fun heq => hsym ((Need.snapshot.inj heq).symm.trans hself)]
    · rw [requestOf, hneed, if_neg (by simp)]

theorem gate_delta_of_not_waits (symbol : Symbol) {delta : BookDelta D}
    (hwait : ¬ self.Waits delta) (now : Timestamp) :
    self.LeavesGate symbol (.delta delta now) := by
  obtain ⟨entry, hnext, hstamp, hawait, hneed⟩ := onDelta_of_not_waits hwait now
  have hnext' : machine.next self (.delta delta now) = self.insert delta.symbol.key entry :=
    hnext
  have hout : machine.out self (.delta delta now) = .outcome (self.onDelta delta now).2 := rfl
  refine ⟨fun t hreq => hwait hreq.2.2.1, ?_, ?_⟩
  · rw [hout, requestOf, hneed, if_neg (by simp)]
  · rw [hnext', entryFor_insert]
    split_ifs with hsym
    · rw [hsym]
      exact ⟨.inl hstamp, fun hw => ⟨hawait.symm.trans hw, id⟩⟩
    · exact ⟨.inl rfl, fun hw => ⟨hw, id⟩⟩

section Answered

omit [LinearOrder D] [Zero D]

/-- An entry that is not there waits for nothing. -/
theorem awaiting_of_entries_eq_none (h : self.entries symbol.key = none) :
    (self.entryFor symbol).awaiting = false := by
  rw [entryFor, h]
  rfl

/-- An entry is replaced by one with its stamp whose wait is over. -/
theorem entryFor_insert_answered {key : Symbol} {entry after : Entry D}
    (hent : self.entries key.key = some entry) (hstamp : after.requestedAt = entry.requestedAt)
    (hawait : after.awaiting = false) (symbol : Symbol) :
    ((self.insert key.key after).entryFor symbol).requestedAt =
        (self.entryFor symbol).requestedAt ∧
      (((self.insert key.key after).entryFor symbol).awaiting = true →
        (self.entryFor symbol).awaiting = true ∧ symbol ≠ key) := by
  rw [entryFor_insert]
  split_ifs with hsym
  · subst hsym
    refine ⟨?_, fun hw => absurd (hawait.symm.trans hw) (by simp)⟩
    rw [hstamp, entryFor, hent, Option.getD_some]
  · exact ⟨rfl, fun hw => ⟨hw, hsym⟩⟩

theorem gate_snapshotFailed (self : BookSet D) (failed symbol : Symbol) :
    ((self.snapshotFailed failed).entryFor symbol).requestedAt =
        (self.entryFor symbol).requestedAt ∧
      (((self.snapshotFailed failed).entryFor symbol).awaiting = true →
        (self.entryFor symbol).awaiting = true ∧ symbol ≠ failed) := by
  rcases hent : self.entries failed.key with - | entry
  · have hsame : self.snapshotFailed failed = self := by simp only [snapshotFailed, hent]
    rw [hsame]
    refine ⟨rfl, fun hw => ⟨hw, ?_⟩⟩
    rintro rfl
    exact absurd (hw.symm.trans (awaiting_of_entries_eq_none hent)) (by simp)
  · have hset : self.snapshotFailed failed =
        self.insert failed.key { entry with awaiting := false } := by
      simp only [snapshotFailed, hent]
    rw [hset]
    have hkept : ({ entry with awaiting := false } : Entry D).requestedAt = entry.requestedAt := rfl
    exact entryFor_insert_answered hent hkept rfl symbol

end Answered

theorem gate_installSnapshot (self : BookSet D) (snapshot : OrderBook D) (now : Timestamp)
    (symbol : Symbol) :
    ((self.installSnapshot snapshot now).1.entryFor symbol).requestedAt =
        (self.entryFor symbol).requestedAt ∧
      (((self.installSnapshot snapshot now).1.entryFor symbol).awaiting = true →
        (self.entryFor symbol).awaiting = true ∧ snapshot.symbol ≠ some symbol) := by
  rcases self.installSnapshot_cases snapshot now with ⟨hnone, heq⟩ | ⟨key, entry, hkey, hent, hset⟩
  · rw [heq]
    refine ⟨rfl, fun hw => ⟨hw, fun hans => ?_⟩⟩
    exact absurd (hw.symm.trans (awaiting_of_entries_eq_none (hnone symbol hans))) (by simp)
  · -- joined or not, the entry keeps its stamp and its wait is over
    obtain ⟨after, hafter, hstamp, hawait⟩ : ∃ after,
        (self.installSnapshot snapshot now).1 = self.insert key.key after ∧
        after.requestedAt = entry.requestedAt ∧ after.awaiting = false := by
      obtain ⟨-, heq⟩ | ⟨b, -, heq⟩ := hset
      · exact ⟨_, congrArg Prod.fst heq, rfl, rfl⟩
      · exact ⟨_, congrArg Prod.fst heq, rfl, rfl⟩
    obtain ⟨hkept, hwait⟩ := entryFor_insert_answered hent hstamp hawait symbol
    rw [hafter, hkey]
    exact ⟨hkept, fun hw => ⟨(hwait hw).1, fun hans => (hwait hw).2 (Option.some.inj hans).symm⟩⟩

/-- **What a call does to the gate of a symbol.** -/
theorem entryFor_next (h : Every Kept self) (symbol : Symbol) (op : BookOp D) :
    self.Asks symbol op ∨ self.LeavesGate symbol op := by
  cases op with
  | delta delta now =>
    by_cases hwait : self.Waits delta
    · exact gate_delta_of_waits h symbol hwait now
    · exact .inr (gate_delta_of_not_waits symbol hwait now)
  | snapshot snapshot now =>
    obtain ⟨hstamp, hawait⟩ := self.gate_installSnapshot snapshot now symbol
    exact .inr ⟨fun _ => id, rfl, .inl hstamp, hawait⟩
  | failed failed =>
    obtain ⟨hstamp, hawait⟩ := self.gate_snapshotFailed failed symbol
    refine .inr ⟨fun _ => id, rfl, .inl hstamp, fun hw => ⟨(hawait hw).1, fun hans => ?_⟩⟩
    exact (hawait hw).2 (show failed = symbol from hans).symm
  | reset =>
    refine .inr ⟨fun _ => id, rfl, .inr ⟨rfl, rfl⟩, fun hw => ?_⟩
    exact absurd (hw.symm.trans (awaiting_of_entries_eq_none rfl)) (by simp)

/-! ### Runs -/

omit [LinearOrder D] [Zero D] in
@[simp]
theorem insert_cooldownMs (self : BookSet D) (key : String) (entry : Entry D) :
    (self.insert key entry).cooldownMs = self.cooldownMs := rfl

/-- No call changes the cooldown. -/
@[simp]
theorem cooldownMs_next (self : BookSet D) (op : BookOp D) :
    (machine.next self op).cooldownMs = self.cooldownMs := by
  cases op with
  | delta delta now =>
    change (self.onDelta delta now).1.cooldownMs = _
    rcases self.onDelta_cases delta now with ⟨entry, -, -, heq, -⟩ | ⟨b, -, -, heq⟩ |
      ⟨b, -, -, heq⟩ <;> rw [heq, insert_cooldownMs]
  | snapshot snapshot now =>
    change (self.installSnapshot snapshot now).1.cooldownMs = _
    rcases self.installSnapshot_cases snapshot now with ⟨-, heq⟩ | ⟨key, entry, -, -, ⟨-, heq⟩ |
      ⟨b, -, heq⟩⟩ <;> rw [heq]
    · exact insert_cooldownMs _ _ _
    · exact insert_cooldownMs _ _ _
  | failed failed =>
    change (self.snapshotFailed failed).cooldownMs = _
    rcases self.snapshotFailed_cases failed with heq | ⟨entry, -, heq⟩ <;> rw [heq]
    exact insert_cooldownMs _ _ _
  | reset => rfl

theorem cooldownMs_run (cooldownMs : ℤ) (ops : List (BookOp D)) :
    (machine.run (new cooldownMs : BookSet D) ops).cooldownMs = cooldownMs := by
  refine Machine.run_invariant (I := fun s : BookSet D => s.cooldownMs = cooldownMs)
    (fun s op hs => ?_) rfl ops
  rw [cooldownMs_next, hs]

/-- The requests of a run extended by one call. -/
theorem requestTimes_concat (s : BookSet D) (ops : List (BookOp D)) (op : BookOp D)
    (symbol : Symbol) :
    requestTimes symbol (machine.trace s (ops ++ [op])) =
      requestTimes symbol (machine.trace s ops) ++
        (requestOf symbol (op, machine.out (machine.run s ops) op)).toList := by
  rw [requestTimes, Machine.trace_append, List.filterMap_append, Machine.trace_cons,
    Machine.trace_nil, requestTimes]
  rcases hreq : requestOf symbol (op, machine.out (machine.run s ops) op) with - | t <;> simp [hreq]

/-- The stamp of an entry is the last request of its symbol; a reset may have wiped it. -/
theorem getLast?_requestTimes (cooldownMs : ℤ) (ops : List (BookOp D)) (symbol : Symbol) :
    (∀ t, ((machine.run (new cooldownMs) ops).entryFor symbol).requestedAt = some t →
      (requestTimes symbol (machine.trace (new cooldownMs) ops)).getLast? = some t) ∧
    (.reset ∉ ops → ((machine.run (new cooldownMs) ops).entryFor symbol).requestedAt =
      (requestTimes symbol (machine.trace (new cooldownMs) ops)).getLast?) := by
  induction ops using List.reverseRecOn with
  | nil => exact ⟨fun t ht => absurd ht (by simp [new, entryFor, Entry.fresh]), fun _ => rfl⟩
  | append_singleton ops op ih =>
    have hkept := kept_run (D := D) cooldownMs ops
    rw [Machine.run_concat, requestTimes_concat, List.getLast?_append]
    obtain ⟨now, -, hreq, hstamp, -⟩ | ⟨-, hreq, hstamp, -⟩ := entryFor_next hkept symbol op
    · rw [hreq, hstamp]
      exact ⟨fun t ht => ht, fun _ => rfl⟩
    · rw [hreq, Option.toList_none, List.getLast?_nil, Option.none_or]
      obtain hstamp | ⟨rfl, hstamp⟩ := hstamp
      · rw [hstamp]
        exact ⟨ih.1, fun hno => ih.2 fun hmem => hno (List.mem_append_left _ hmem)⟩
      · rw [hstamp]
        exact ⟨fun t ht => absurd ht (by simp), fun hno => absurd (by simp) hno⟩

omit [LinearOrder D] [Zero D] in
/-- A request is stamped with the clock of its call. -/
theorem time_of_requestOf {op : BookOp D} {answer : BookAnswer D} {t : Timestamp}
    (h : requestOf symbol (op, answer) = some t) : op.time = some t := by
  cases op with
  | delta delta now =>
    cases answer with
    | outcome outcome =>
      rw [requestOf] at h
      split_ifs at h
      exact h
    | installed => exact absurd h (by simp [requestOf])
    | done => exact absurd h (by simp [requestOf])
  | snapshot => exact absurd h (by simp [requestOf])
  | failed => exact absurd h (by simp [requestOf])
  | reset => exact absurd h (by simp [requestOf])

theorem mem_times_of_mem_requestTimes {s : BookSet D} {ops : List (BookOp D)} {t : Timestamp}
    (h : t ∈ requestTimes symbol (machine.trace s ops)) : t ∈ ops.filterMap BookOp.time := by
  obtain ⟨⟨op, answer⟩, hmem, hreq⟩ := List.mem_filterMap.mp h
  refine List.mem_filterMap.mpr ⟨op, ?_, time_of_requestOf hreq⟩
  rw [← machine.map_fst_trace s ops]
  exact List.mem_map_of_mem hmem

/-! ### The rate of requests -/

/-- The gate does not open early for this call: where the delta waits and the last request is
younger than the cooldown, the buffer has room and no request has been outstanding for the
deadline. -/
def InTime (self : BookSet D) : BookOp D → Prop
  | .delta delta now => self.Waits delta → ∀ ts,
      (self.entryFor delta.symbol).requestedAt = some ts → now - ts < self.cooldownMs →
      (self.entryFor delta.symbol).buffered.length < maxBuffered ∧
        ((self.entryFor delta.symbol).awaiting = true →
          ts.ageMillisFrom now < requestDeadlineMs)
  | _ => True

omit [LinearOrder D] [Zero D] in
/-- One call, made no earlier than the last request: the gate is in time exactly when no request
of the call comes within the cooldown. -/
theorem inTime_iff {op : BookOp D} (hle : ∀ symbol ts now,
      (self.entryFor symbol).requestedAt = some ts → op.time = some now → ts ≤ now) :
    self.InTime op ↔ ∀ symbol ts now, (self.entryFor symbol).requestedAt = some ts →
      self.Requests symbol now op → self.cooldownMs ≤ now - ts := by
  cases op with
  | delta delta now =>
    constructor
    · rintro h symbol ts now' hts ⟨rfl, rfl, hwait, hopen⟩
      by_contra hlt
      obtain ⟨hroom, hdeadline⟩ := h hwait ts hts (not_le.mp hlt)
      obtain hfull | hopen := hopen
      · exact absurd hfull (not_le.mpr hroom)
      · refine hopen ⟨ts, hts, ?_⟩
        rcases hawait : (self.entryFor delta.symbol).awaiting with - | -
        · -- nothing is outstanding: the age, wrapped or not, is within the cooldown
          have hage : ts.ageMillisFrom now ≤ now - ts :=
            wrapI64_le_self (Int.sub_nonneg_of_le (hle _ _ _ hts rfl))
          rw [if_neg (by simp)]
          exact lt_of_le_of_lt hage (not_le.mp hlt)
        · rw [if_pos rfl]
          exact hdeadline hawait
    · intro h hwait ts hts hlt
      have hnot : ¬ self.Requests delta.symbol now (.delta delta now) := fun hreq =>
        absurd (h delta.symbol ts now hts hreq) (not_le.mpr hlt)
      have hshut : ¬ (maxBuffered ≤ (self.entryFor delta.symbol).buffered.length ∨
          ¬ (self.entryFor delta.symbol).Blocked now self.cooldownMs) :=
        fun hopen => hnot ⟨rfl, rfl, hwait, hopen⟩
      obtain ⟨hroom, hblocked⟩ := not_or.mp hshut
      refine ⟨not_le.mp hroom, fun hawait => ?_⟩
      obtain ⟨ts', hts', hage⟩ := not_not.mp hblocked
      obtain rfl := Option.some.inj (hts.symm.trans hts')
      rwa [hawait, if_pos rfl] at hage
  | snapshot => exact iff_of_true trivial fun _ _ _ _ hreq => hreq.elim
  | failed => exact iff_of_true trivial fun _ _ _ _ hreq => hreq.elim
  | reset => exact iff_of_true trivial fun _ _ _ _ hreq => hreq.elim

/-- Two snapshots of one symbol are asked for at least a cooldown apart. -/
def Spaced (cooldownMs : ℤ) (symbol : Symbol) (trace : List (BookOp D × BookAnswer D)) : Prop :=
  (requestTimes symbol trace).IsChain fun before after => cooldownMs ≤ after - before

/-- One more call keeps the requests of a symbol apart exactly when the one it makes, if it makes
one, comes a cooldown after the entry's stamp. -/
theorem spaced_concat_iff (cooldownMs : ℤ) {ops : List (BookOp D)} (hno : BookOp.reset ∉ ops)
    (op : BookOp D) (symbol : Symbol) :
    Spaced cooldownMs symbol (machine.trace (new cooldownMs) (ops ++ [op])) ↔
      Spaced cooldownMs symbol (machine.trace (new cooldownMs) ops) ∧
        ∀ ts now, ((machine.run (new cooldownMs) ops).entryFor symbol).requestedAt = some ts →
          (machine.run (new cooldownMs) ops).Requests symbol now op → cooldownMs ≤ now - ts := by
  have hkept := kept_run (D := D) cooldownMs ops
  rw [Spaced, requestTimes_concat, List.isChain_append,
    ← (getLast?_requestTimes cooldownMs ops symbol).2 hno, Spaced]
  refine and_congr_right fun _ => ?_
  obtain ⟨now, hreq, htime, -⟩ | ⟨hnone, htime, -⟩ := entryFor_next hkept symbol op
  · rw [htime]
    constructor
    · rintro ⟨-, hchain⟩ ts now' hts hreq'
      obtain rfl := hreq.time_unique hreq'
      exact hchain ts hts now rfl
    · intro h
      refine ⟨List.isChain_singleton _, fun ts hts now' hnow => ?_⟩
      obtain rfl := Option.some.inj hnow
      exact h ts now hts hreq
  · rw [htime]
    exact iff_of_true ⟨List.isChain_nil, fun _ _ _ hnow => absurd hnow (by simp)⟩
      fun _ now' _ hreq => absurd hreq (hnone now')

/-- **When requests are rate limited**: in a run at a clock that does not go back and without a
reset, exactly when the gate opens early for none of its calls. -/
theorem spaced_iff_along_inTime (cooldownMs : ℤ) {ops : List (BookOp D)}
    (hno : BookOp.reset ∉ ops) (hclock : (ops.filterMap BookOp.time).Pairwise (· ≤ ·)) :
    (∀ symbol, Spaced cooldownMs symbol (machine.trace (new cooldownMs) ops)) ↔
      machine.Along InTime (new cooldownMs) ops := by
  induction ops using List.reverseRecOn with
  | nil => simp [Spaced, requestTimes]
  | append_singleton ops op ih =>
    have hno' : BookOp.reset ∉ ops := fun hmem => hno (List.mem_append_left _ hmem)
    rw [List.filterMap_append, List.pairwise_append] at hclock
    obtain ⟨hclock, -, hlast⟩ := hclock
    have hstamp := fun symbol => (getLast?_requestTimes cooldownMs ops symbol).2 hno'
    -- the stamp of an entry is the time of an earlier call
    have hle : ∀ symbol ts now,
        ((machine.run (new cooldownMs) ops).entryFor symbol).requestedAt = some ts →
        op.time = some now → ts ≤ now := by
      intro symbol ts now hts hnow
      rw [hstamp] at hts
      refine hlast ts (mem_times_of_mem_requestTimes (List.mem_of_getLast? hts)) now ?_
      simp [hnow]
    rw [Machine.along_append, Machine.along_cons, and_iff_left (Machine.along_nil _),
      ← ih hno' hclock, inTime_iff hle, cooldownMs_run, ← forall_and]
    exact forall_congr' fun symbol => spaced_concat_iff cooldownMs hno' op symbol

theorem spaced_iff_along_inTime_answered :
    (∀ symbol, Spaced defaultResyncCooldownMs symbol
        (machine.trace (new defaultResyncCooldownMs) answeredTwice)) ↔
      machine.Along InTime (new defaultResyncCooldownMs) answeredTwice :=
  spaced_iff_along_inTime defaultResyncCooldownMs (by simp [answeredTwice]) (by decide)

/-- A backlog of one update of the fixed runs, all of it within one millisecond. -/
def backlog (n : ℕ) : List (BookOp ℤ) := List.replicate n (.delta (bareDelta 5 6) 0)

/-- Up to the limit the backlog is held, and waits for the one snapshot asked for. -/
theorem entryFor_backlog (cooldownMs : ℤ) {n : ℕ} (h : n < maxBuffered) :
    (machine.run (new cooldownMs) (backlog (n + 1))).entryFor btcusdt =
      ⟨btcusdt, none, List.replicate (n + 1) (bareDelta 5 6), true, some 0, 0⟩ := by
  have hnext : ∀ s : BookSet ℤ, (s.entryFor btcusdt).book = none →
      (machine.next s (.delta (bareDelta 5 6) 0)).entryFor btcusdt =
        (({ s.entryFor btcusdt with book := none }.buffer (bareDelta 5 6)).requestSnapshot 0
          s.cooldownMs).1 := by
    intro s hs
    have hwait : s.Waits (bareDelta 5 6) := fun b hb => absurd (hs.symm.trans hb) (by simp)
    have hdelta : machine.next s (.delta (bareDelta 5 6) 0) = (s.onDelta (bareDelta 5 6) 0).1 := rfl
    rw [hdelta, onDelta_of_waits hwait]
    exact (entryFor_insert s btcusdt _ btcusdt).trans (if_pos rfl)
  induction n with
  | zero => exact hnext (new cooldownMs) rfl
  | succ n ih =>
    have hent := ih (by omega)
    have hroom : ¬ (List.replicate (n + 1) (bareDelta 5 6)).length ≥ maxBuffered := by
      rw [List.length_replicate]
      omega
    rw [backlog, List.replicate_succ', Machine.run_concat, ← backlog, hnext _ (by rw [hent]), hent,
      Entry.buffer, if_neg hroom, ← List.replicate_succ']
    rfl

/-- The update that does not fit the buffer asks at once, and the deadline of an outstanding
request cuts a longer cooldown short. -/
theorem not_spaced :
    ¬ Spaced defaultResyncCooldownMs btcusdt
      (machine.trace (new defaultResyncCooldownMs) (backlog (maxBuffered + 1))) ∧
    ¬ Spaced 20000 btcusdt (machine.trace (new 20000)
      [.delta (bareDelta 5 6) 0, .delta (bareDelta 6 7) 10000]) := by
  constructor
  · have hent := entryFor_backlog defaultResyncCooldownMs (n := 4095) (by decide)
    have hno : (BookOp.reset : BookOp ℤ) ∉ backlog maxBuffered := fun hmem =>
      absurd (List.eq_of_mem_replicate hmem) (by simp)
    rw [backlog, List.replicate_succ', ← backlog, spaced_concat_iff defaultResyncCooldownMs hno]
    rintro ⟨-, hspaced⟩
    have hwithin := hspaced 0 0 (by rw [show maxBuffered = 4095 + 1 from rfl, hent]) ⟨rfl, rfl,
      fun b hb => ?_, .inl ?_⟩
    · exact absurd hwithin (by decide)
    · rw [show maxBuffered = 4095 + 1 from rfl] at hb
      exact absurd (congrArg Entry.book hent ▸ hb) (by simp)
    · rw [show maxBuffered = 4095 + 1 from rfl, hent]
      exact List.length_replicate.ge
  · have htimes : requestTimes btcusdt (machine.trace (new 20000)
        [.delta (bareDelta 5 6) 0, .delta (bareDelta 6 7) 10000]) = [0, 10000] := by decide
    rw [Spaced, htimes, List.isChain_pair]
    decide

/-! ### The gate opens again -/

/-- Without a request of its symbol an entry starts no wait, and after a reported outcome it is
not waiting any more. -/
theorem awaiting_run {self : BookSet D} (h : Every Kept self) {ops : List (BookOp D)}
    (hnone : requestTimes symbol (machine.trace self ops) = [])
    (hwait : ((machine.run self ops).entryFor symbol).awaiting = true) :
    (self.entryFor symbol).awaiting = true ∧ ∀ op ∈ ops, ¬ Answers symbol op := by
  induction ops generalizing self with
  | nil => exact ⟨hwait, by simp⟩
  | cons op ops ih =>
    have hsplit : requestOf symbol (op, machine.out self op) = none ∧
        requestTimes symbol (machine.trace (machine.next self op) ops) = [] := by
      rw [requestTimes, Machine.trace_cons, List.filterMap_cons] at hnone
      rcases hreq : requestOf symbol (op, machine.out self op) with - | t
      · rw [hreq] at hnone
        exact ⟨rfl, hnone⟩
      · rw [hreq] at hnone
        exact absurd hnone (by simp)
    obtain ⟨hawait, hrest⟩ := ih (stable_kept.step trivial h) hsplit.2 hwait
    obtain ⟨now, -, hreq, -⟩ | ⟨-, -, -, hkeep⟩ := entryFor_next h symbol op
    · exact absurd (hsplit.1.symm.trans hreq) (by simp)
    · obtain ⟨hbefore, hans⟩ := hkeep hawait
      exact ⟨hbefore, List.forall_mem_cons.mpr ⟨hans, hrest⟩⟩

/-- Where nothing blocks an entry without a book, the next delta asks. -/
theorem need_of_not_blocked {self : BookSet D} (h : Every Kept self) {delta : BookDelta D}
    {now : Timestamp} (hbook : (self.entryFor delta.symbol).book = none)
    (hopen : ¬ (self.entryFor delta.symbol).Blocked now self.cooldownMs) :
    (self.onDelta delta now).2.need = .snapshot delta.symbol := by
  have hwait : self.Waits delta := fun b hb => absurd (hbook.symm.trans hb) (by simp)
  have hself : (self.entryFor delta.symbol).symbol = delta.symbol := symbol_entryFor h _
  rw [onDelta_of_waits hwait]
  obtain ⟨-, hneed, -⟩ | ⟨-, hblocked, -⟩ := Entry.buffer_requestSnapshot_cases
    { self.entryFor delta.symbol with book := none } delta now self.cooldownMs
  · rw [hneed]
    exact congrArg Need.snapshot hself
  · exact absurd hblocked hopen

/-- Milliseconds since the epoch that fit an `i64`: what the clock of the callers reads. -/
def EpochMs (t : ℤ) : Prop := 0 ≤ t ∧ t < 2 ^ 63

/-- The age of one clock reading at another does not wrap. -/
theorem ageMillisFrom_eq {ts now : ℤ} (hts : EpochMs ts) (hnow : EpochMs now) :
    Timestamp.ageMillisFrom ts now = now - ts := by
  obtain ⟨hts, hts'⟩ := hts
  obtain ⟨hnow, hnow'⟩ := hnow
  exact wrapI64_of_isI64 ⟨by omega, by omega⟩

section Reopened

variable {cooldownMs : ℤ} {ops : List (BookOp D)} {delta : BookDelta D} {now : Timestamp}

/-- After the longer of the two bounds nothing blocks an entry, whether it waits or not. -/
theorem asks_after_deadline
    (hclock : ∀ op ∈ ops, ∀ t, op.time = some t → EpochMs t) (hnow : EpochMs now)
    (hbook : ((machine.run (new cooldownMs) ops).entryFor delta.symbol).book = none)
    (hlast : ∀ t, (requestTimes delta.symbol (machine.trace (new cooldownMs) ops)).getLast? =
      some t → max cooldownMs requestDeadlineMs ≤ now - t) :
    ((machine.run (new cooldownMs) ops).onDelta delta now).2.need = .snapshot delta.symbol := by
  have hkept := kept_run (D := D) cooldownMs ops
  refine need_of_not_blocked hkept hbook ?_
  rintro ⟨ts, hts, hage⟩
  have hreq := (getLast?_requestTimes cooldownMs ops delta.symbol).1 ts hts
  obtain ⟨op, hop, htime⟩ := List.mem_filterMap.mp
    (mem_times_of_mem_requestTimes (List.mem_of_getLast? hreq))
  obtain ⟨hcool, hdeadline⟩ := Int.max_le.mp (hlast ts hreq)
  rw [ageMillisFrom_eq (hclock op hop ts htime) hnow, cooldownMs_run] at hage
  split_ifs at hage <;> omega

/-- Once the last request has been answered or has failed, the cooldown alone blocks an entry. -/
theorem asks_after_answer
    (hclock : ∀ op ∈ ops, ∀ t, op.time = some t → EpochMs t) (hnow : EpochMs now)
    (hbook : ((machine.run (new cooldownMs) ops).entryFor delta.symbol).book = none)
    {pre post : List (BookOp D)} {op : BookOp D} {t : Timestamp} (hops : ops = pre ++ op :: post)
    (hreq : requestOf delta.symbol (op, machine.out (machine.run (new cooldownMs) pre) op) = some t)
    (hsince : requestTimes delta.symbol
      (machine.trace (machine.run (new cooldownMs) (pre ++ [op])) post) = [])
    (hanswer : ∃ answer ∈ post, Answers delta.symbol answer) (hcool : cooldownMs ≤ now - t) :
    ((machine.run (new cooldownMs) ops).onDelta delta now).2.need = .snapshot delta.symbol := by
  have hkept := kept_run (D := D) cooldownMs
  have hsplit : ops = (pre ++ [op]) ++ post := by
    rw [hops, List.append_assoc, List.singleton_append]
  refine need_of_not_blocked (hkept ops) hbook ?_
  rintro ⟨ts, hts, hage⟩
  -- the stamp is the request's, and nobody is waiting
  have hlast := (getLast?_requestTimes cooldownMs ops delta.symbol).1 ts hts
  have hts' : ts = t := by
    rw [hsplit, Machine.trace_append, requestTimes, List.filterMap_append] at hlast
    rw [requestTimes] at hsince
    rw [hsince, List.append_nil] at hlast
    have hconcat := requestTimes_concat (new cooldownMs) pre op delta.symbol
    rw [requestTimes] at hconcat
    rw [hconcat, hreq, Option.toList_some, List.getLast?_concat] at hlast
    exact (Option.some.inj hlast).symm
  have hidle : ((machine.run (new cooldownMs) ops).entryFor delta.symbol).awaiting = false := by
    by_contra hwait
    rw [Bool.not_eq_false, hsplit, Machine.run_append] at hwait
    obtain ⟨answer, hmem, hans⟩ := hanswer
    exact (awaiting_run (hkept _) hsince hwait).2 answer hmem hans
  have hmem : op ∈ ops := by simp [hops]
  rw [hts', ageMillisFrom_eq (hclock op hmem t (time_of_requestOf hreq)) hnow, cooldownMs_run,
    hidle, if_neg (by simp)] at hage
  omega

/-- A delta past a book that is still attaching joins it to the stream or leaves a gap. -/
theorem attaches_or_rebuilds {self : BookSet D} {b : OrderBook D}
    (hbook : (self.entryFor delta.symbol).book = some b) (hsync : b.synced = false)
    (hlt : b.lastUpdateId < delta.lastUpdateId) :
    ((self.onDelta delta now).2.attached = true ∧
        (self.onDelta delta now).1.book delta.symbol.key = some (b.extend delta)) ∨
      ((self.onDelta delta now).1.entryFor delta.symbol).book = none := by
  rcases self.onDelta_cases delta now with ⟨entry, -, hw, hnext, -⟩ | ⟨b', hb', -, heq⟩ |
    ⟨b', hb', hle, -⟩
  · right
    rw [hnext, entryFor_insert, if_pos rfl]
    exact hw.book
  · left
    obtain rfl := Option.some.inj (hbook.symm.trans hb')
    rw [heq, hsync, book_insert, if_pos rfl]
    exact ⟨rfl, rfl⟩
  · obtain rfl := Option.some.inj (hbook.symm.trans hb')
    exact absurd hle (not_le.mpr hlt)

end Reopened

/-- **A book is never wedged.** In every reachable state, at a clock that counts from the epoch:
an entry without a book asks again at the first delta past both bounds, and past the cooldown
once its last request was answered or failed; and an entry whose book is still attaching joins
or is rebuilt at the first delta past the book's id. -/
theorem never_wedged (cooldownMs : ℤ) {ops : List (BookOp D)}
    (hclock : ∀ op ∈ ops, ∀ t, op.time = some t → EpochMs t) (delta : BookDelta D)
    {now : Timestamp} (hnow : EpochMs now) :
    (((machine.run (new cooldownMs) ops).entryFor delta.symbol).book = none →
      ((∀ t, (requestTimes delta.symbol (machine.trace (new cooldownMs) ops)).getLast? = some t →
          max cooldownMs requestDeadlineMs ≤ now - t) ∨
        ∃ pre op post t, ops = pre ++ op :: post ∧
          requestOf delta.symbol (op, machine.out (machine.run (new cooldownMs) pre) op) = some t ∧
          requestTimes delta.symbol
            (machine.trace (machine.run (new cooldownMs) (pre ++ [op])) post) = [] ∧
          (∃ answer ∈ post, Answers delta.symbol answer) ∧ cooldownMs ≤ now - t) →
      ((machine.run (new cooldownMs) ops).onDelta delta now).2.need = .snapshot delta.symbol) ∧
    ∀ b, ((machine.run (new cooldownMs) ops).entryFor delta.symbol).book = some b →
      b.synced = false → b.lastUpdateId < delta.lastUpdateId →
      (((machine.run (new cooldownMs) ops).onDelta delta now).2.attached = true ∧
          ((machine.run (new cooldownMs) ops).onDelta delta now).1.book delta.symbol.key =
            some (b.extend delta)) ∨
        (((machine.run (new cooldownMs) ops).onDelta delta now).1.entryFor
          delta.symbol).book = none := by
  refine ⟨fun hbook => ?_, fun b hbook hsync hlt => attaches_or_rebuilds hbook hsync hlt⟩
  rintro (hlast | ⟨pre, op, post, t, hops, hreq, hsince, hanswer, hcool⟩)
  · exact asks_after_deadline hclock hnow hbook hlast
  · exact asks_after_answer hclock hnow hbook hops hreq hsince hanswer hcool

theorem never_wedged_failed :
    ((machine.run (new defaultResyncCooldownMs) [.delta (bareDelta 5 6) 0, .failed btcusdt]).onDelta
      (bareDelta 6 7) 1000).2.need = .snapshot btcusdt := by
  have hclock : ∀ op ∈ [BookOp.delta (bareDelta 5 6) 0, .failed btcusdt], ∀ t,
      op.time = some t → EpochMs t := by simp [BookOp.time, EpochMs]
  have hnow : EpochMs 1000 := ⟨by decide, by decide⟩
  refine (never_wedged defaultResyncCooldownMs hclock (bareDelta 6 7) hnow).1 (by decide) (.inr ?_)
  exact ⟨[], .delta (bareDelta 5 6) 0, [.failed btcusdt], 0, rfl, by decide, by decide,
    ⟨.failed btcusdt, by simp, rfl⟩, by decide⟩

end BookSet

end MoonCore
