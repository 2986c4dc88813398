import MoonCore.Exchange.Limits

/-!
# The limiter in 32-bit arithmetic

`exchange::limits` once more, with the widths of its integers. What an unchecked addition or
multiplication of two `u32` makes of the exact result is a parameter: `Wrapping.machine u32` is the
limiter as a release build runs it, `Wrapping.machine id` the same code in exact integers. The
number of spans a window turns over by is cut to 32 bits, and a charge saturates, in both.

Nothing overflows and no wrapped sum lets a request out in the runs whose checks fit 32 bits when
they are computed exactly: `Wrapping.along_sound`. Runs with moderate limits, weights and counts
are among them (`Wrapping.along_fits_of_moderate`); there it is the limiter of `Exchange.Limits`
(`Wrapping.trace_eq_of_moderate`).
-/

namespace MoonCore

/-- What a `u32` keeps of a number. -/
def u32 (n : ℕ) : ℕ := n % 2 ^ 32

theorem u32_of_lt {n : ℕ} (h : n < 2 ^ 32) : u32 n = n := Nat.mod_eq_of_lt h

theorem u32_le (n : ℕ) : u32 n ≤ n := Nat.mod_le _ _

namespace Wrapping

/-! ### The limiter -/

/-- `Window::roll`: turn over, by whole spans. -/
def rollWindow (window : Window) (now : ℕ) : Window :=
  if window.span ≤ now - window.started then
    let elapsed := now - window.started
    let spans := elapsed / max window.span 1
    { window with started := window.started + window.span * u32 spans, used := 0 }
  else window

/-- `Window::charge`, a saturating addition. -/
def chargeWindow (window : Window) (cost : ℕ) : Window :=
  { window with used := min (window.used + cost) (2 ^ 32 - 1) }

variable (wrap : ℕ → ℕ)

/-- `Window::wait_for`: how long until `cost` would fit, or zero if it fits now. -/
def waitFor (window : Window) (cost now : ℕ) : ℕ :=
  if wrap (window.used + cost) ≤ window.limit then 0 else window.started + window.span - now

/-- The weight a limiter holds back. -/
def headroom (limiter : RateLimiter) : ℕ :=
  max (wrap (limiter.weight.limit * limiter.headroomPermille) / 1000) 1

/-- Inflate a cost by the headroom. -/
def withHeadroom (limiter : RateLimiter) (weight : ℕ) : ℕ := wrap (weight + headroom wrap limiter)

/-- Start again the windows that are over. -/
def roll (limiter : RateLimiter) (now : ℕ) : RateLimiter :=
  { limiter with
    weight := rollWindow limiter.weight now
    orders10s := rollWindow limiter.orders10s now
    orders1m := rollWindow limiter.orders1m now
    orders1d := rollWindow limiter.orders1d now }

/-- The budgets a request draws on, with the wait for each. -/
def budgets (limiter : RateLimiter) (kind : Kind) (weight now : ℕ) : List (String × ℕ) :=
  ("weight", waitFor wrap limiter.weight (withHeadroom wrap limiter weight) now) ::
    match kind with
    | .request => []
    | .order =>
      [("orders_10s", waitFor wrap limiter.orders10s 1 now),
        ("orders_1m", waitFor wrap limiter.orders1m 1 now),
        ("orders_1d", waitFor wrap limiter.orders1d 1 now)]

/-- Take the cost of a request off every window it counts in. -/
def charge (limiter : RateLimiter) (kind : Kind) (weight : ℕ) : RateLimiter :=
  let charged := { limiter with weight := chargeWindow limiter.weight weight }
  match kind with
  | .request => charged
  | .order =>
    { charged with
      orders10s := chargeWindow charged.orders10s 1
      orders1m := chargeWindow charged.orders1m 1
      orders1d := chargeWindow charged.orders1d 1 }

/-- Ask whether a request may go out, charging it if so. -/
def check (limiter : RateLimiter) (kind : Kind) (weight now : ℕ) : RateLimiter × Decision :=
  let limiter := roll limiter now
  match longestWait ((budgets wrap limiter kind weight now).filter fun budget => budget.2 ≠ 0) with
  | some (budget, wait) => ({ limiter with deferred := limiter.deferred + 1 }, .wait wait budget)
  | none => (charge limiter kind weight, .send)

/-- Adopt the venue's own count of the weight used this minute, only upward. -/
def observeUsed (limiter : RateLimiter) (venueUsed now : ℕ) : RateLimiter :=
  let limiter := roll limiter now
  if limiter.weight.used < venueUsed then
    { limiter with weight := { limiter.weight with used := venueUsed } }
  else limiter

/-- One call on the limiter; only a check is answered. -/
def step (limiter : RateLimiter) : Inquiry → RateLimiter × Option Decision
  | .check kind weight now =>
    let (limiter, decision) := check wrap limiter kind weight now
    (limiter, some decision)
  | .observeUsed venueUsed now => (observeUsed limiter venueUsed now, none)
  | .observeRejection retryAfter now => (limiter.observeRejection retryAfter now, none)

/-- A limiter, stepping on what it is asked and told. -/
def machine : Machine RateLimiter Inquiry (Option Decision) := ⟨step wrap⟩

variable {wrap} {limiter : RateLimiter} {kind : Kind} {weight now : ℕ}

theorem next_check : (machine wrap).next limiter (.check kind weight now) =
    (check wrap limiter kind weight now).1 := rfl

theorem next_observeUsed (venueUsed : ℕ) :
    (machine wrap).next limiter (.observeUsed venueUsed now) =
      observeUsed limiter venueUsed now := rfl

theorem next_observeRejection (retryAfter : Option ℕ) :
    (machine wrap).next limiter (.observeRejection retryAfter now) =
      limiter.observeRejection retryAfter now := rfl

theorem out_check : (machine wrap).out limiter (.check kind weight now) =
    some (check wrap limiter kind weight now).2 := rfl

/-- What a check does: it sends and charges where every budget has room, and otherwise charges
nothing and says how long the budget with the longest wait needs. -/
theorem check_cases (wrap : ℕ → ℕ) (limiter : RateLimiter) (kind : Kind) (weight now : ℕ) :
    ((∀ budget ∈ budgets wrap (roll limiter now) kind weight now, budget.2 = 0) ∧
      check wrap limiter kind weight now = (charge (roll limiter now) kind weight, .send)) ∨
    ∃ for_ budget, (budget, for_) ∈ budgets wrap (roll limiter now) kind weight now ∧ for_ ≠ 0 ∧
      (∀ other ∈ budgets wrap (roll limiter now) kind weight now, other.2 ≤ for_) ∧
      check wrap limiter kind weight now =
        ({ roll limiter now with deferred := limiter.deferred + 1 }, .wait for_ budget) := by
  rw [check]
  cases hlongest : longestWait ((budgets wrap (roll limiter now) kind weight now).filter
      fun budget => budget.2 ≠ 0) with
  | none => exact .inl ⟨longestWait_filter_eq_none.mp hlongest, rfl⟩
  | some longest =>
    obtain ⟨hmem, hle⟩ := longestWait_eq_some hlongest
    rw [List.mem_filter, decide_eq_true_eq] at hmem
    refine .inr ⟨longest.2, longest.1, hmem.1, hmem.2, fun other hother => ?_, rfl⟩
    rcases eq_or_ne other.2 0 with hzero | hwait
    · rw [hzero]
      exact Nat.zero_le _
    · exact hle other (List.mem_filter.mpr ⟨hother, decide_eq_true hwait⟩)

/-! ### Overflow -/

/-- The windows of the three order limits. -/
def orderWindows (limiter : RateLimiter) : List Window :=
  [limiter.orders10s, limiter.orders1m, limiter.orders1d]

/-- No addition or multiplication of a check overflows. -/
structure NoOverflow (limiter : RateLimiter) (kind : Kind) (weight now : ℕ) : Prop where
  limit_mul : limiter.weight.limit * limiter.headroomPermille < 2 ^ 32
  weight_add : weight + headroom u32 limiter < 2 ^ 32
  used_add : (rollWindow limiter.weight now).used + withHeadroom u32 limiter weight < 2 ^ 32
  orders_add : kind = .order →
    ∀ window ∈ orderWindows limiter, (rollWindow window now).used + 1 < 2 ^ 32

/-- A check does not overflow, and sends only what fits the limit with the headroom, in exact
integers. -/
def Sound (limiter : RateLimiter) : Inquiry → Prop
  | .check kind weight now => NoOverflow limiter kind weight now ∧
      ((check u32 limiter kind weight now).2 = .send →
        (rollWindow limiter.weight now).used + weight + headroom id limiter ≤
          limiter.weight.limit)
  | _ => True

/-- A check comes before the weight window is out of date by more spans than a `u32` counts. -/
def Recent (limiter : RateLimiter) : Inquiry → Prop
  | .check _ _ now => (now - limiter.weight.started) / limiter.weight.span < 2 ^ 32
  | _ => True

/-- What a check asks for is, on top of the headroom and of what its windows count, in the range of
a `u32`, and so is a fiftyfold of the limit. -/
def Fits (limiter : RateLimiter) : Inquiry → Prop
  | .check kind weight now =>
      limiter.weight.limit * limiter.headroomPermille < 2 ^ 32 ∧
      weight + ((rollWindow limiter.weight now).used + headroom id limiter) < 2 ^ 32 ∧
      (kind = .order →
        ∀ window ∈ orderWindows limiter, (rollWindow window now).used < 2 ^ 32 - 1)
  | _ => True

theorem rollWindow_limit (window : Window) (now : ℕ) :
    (rollWindow window now).limit = window.limit := by
  rw [rollWindow]
  split_ifs <;> rfl

theorem rollWindow_span (window : Window) (now : ℕ) :
    (rollWindow window now).span = window.span := by
  rw [rollWindow]
  split_ifs <;> rfl

theorem rollWindow_used_le (window : Window) (now : ℕ) :
    (rollWindow window now).used ≤ window.used := by
  rw [rollWindow]
  split_ifs
  · exact Nat.zero_le _
  · exact le_rfl

theorem headroom_roll (wrap : ℕ → ℕ) (limiter : RateLimiter) (now : ℕ) :
    headroom wrap (roll limiter now) = headroom wrap limiter := by
  rw [headroom, headroom, roll, rollWindow_limit]

theorem headroom_eq (h : limiter.weight.limit * limiter.headroomPermille < 2 ^ 32) :
    headroom u32 limiter = headroom id limiter := by
  rw [headroom, headroom, u32_of_lt h, id_eq]

theorem withHeadroom_eq (h : limiter.weight.limit * limiter.headroomPermille < 2 ^ 32)
    (hweight : weight + headroom id limiter < 2 ^ 32) :
    withHeadroom u32 limiter weight = weight + headroom id limiter := by
  rw [withHeadroom, headroom_eq h, u32_of_lt hweight]

theorem noOverflow_iff :
    NoOverflow limiter kind weight now ↔ Fits limiter (.check kind weight now) := by
  constructor
  · rintro ⟨hmul, hweight, hused, horders⟩
    rw [headroom_eq hmul] at hweight
    rw [withHeadroom_eq hmul hweight] at hused
    exact ⟨hmul, by omega, fun hkind window hwindow => by
      have hroom := horders hkind window hwindow
      omega⟩
  · rintro ⟨hmul, hused, horders⟩
    have hweight : weight + headroom id limiter < 2 ^ 32 := by omega
    refine ⟨hmul, by rwa [headroom_eq hmul], ?_, fun hkind window hwindow => ?_⟩
    · rw [withHeadroom_eq hmul hweight]
      omega
    · have hroom := horders hkind window hwindow
      omega

/-- Where the sums fit, the budgets are the exact ones. -/
theorem budgets_eq (h : Fits limiter (.check kind weight now)) :
    budgets u32 (roll limiter now) kind weight now =
      budgets id (roll limiter now) kind weight now := by
  obtain ⟨hmul, hused, horders⟩ := h
  have hmul' : (roll limiter now).weight.limit * (roll limiter now).headroomPermille < 2 ^ 32 := by
    rw [roll, rollWindow_limit]
    exact hmul
  have hweight : weight + headroom id (roll limiter now) < 2 ^ 32 := by
    rw [headroom_roll]
    omega
  -- The weight window is asked with the headroom, the order windows with one order each.
  have hsame : waitFor u32 (roll limiter now).weight
      (withHeadroom u32 (roll limiter now) weight) now =
      waitFor id (roll limiter now).weight (withHeadroom id (roll limiter now) weight) now := by
    have hfits : (roll limiter now).weight.used + (weight + headroom id (roll limiter now)) <
        2 ^ 32 := by
      rw [headroom_roll, roll]
      dsimp only
      omega
    rw [withHeadroom_eq hmul' hweight, waitFor, waitFor, u32_of_lt hfits, withHeadroom, id_eq,
      id_eq]
  cases kind with
  | request => simp only [budgets, hsame]
  | order =>
    have hone : ∀ window ∈ orderWindows limiter,
        waitFor u32 (rollWindow window now) 1 now = waitFor id (rollWindow window now) 1 now := by
      intro window hwindow
      have hroom := horders rfl window hwindow
      rw [waitFor, waitFor, u32_of_lt (by omega), id_eq]
    simp only [orderWindows, List.forall_mem_cons] at hone
    obtain ⟨h10s, h1m, h1d, -⟩ := hone
    simp only [budgets, hsame]
    rw [roll, h10s, h1m, h1d]

theorem check_eq (h : Fits limiter (.check kind weight now)) :
    check u32 limiter kind weight now = check id limiter kind weight now := by
  rw [check, check, budgets_eq h]

/-- Where the sums of an inquiry fit, it is answered as in exact integers. -/
theorem step_eq {inquiry : Inquiry} (h : Fits limiter inquiry) :
    (machine u32).next limiter inquiry = (machine id).next limiter inquiry := by
  cases inquiry with
  | check kind weight now => rw [next_check, next_check, check_eq h]
  | observeUsed venueUsed now => rw [next_observeUsed, next_observeUsed]
  | observeRejection retryAfter now => rw [next_observeRejection, next_observeRejection]

/-- A window that is not that far out of date ends after the instant it is rolled to. -/
theorem lt_end_rollWindow {window : Window} (hspan : 0 < window.span)
    (hrecent : (now - window.started) / window.span < 2 ^ 32) :
    now < (rollWindow window now).started + window.span := by
  rw [rollWindow]
  split_ifs with hover
  · dsimp only
    rw [Nat.max_eq_left hspan, u32_of_lt hrecent]
    have hmod := Nat.mod_lt (now - window.started) hspan
    have hdiv := Nat.div_add_mod (now - window.started) window.span
    omega
  · omega

/-- A wait of zero for a window that has not ended is room in it. -/
theorem fits_of_waitFor {window : Window} {cost : ℕ}
    (hwait : waitFor wrap window cost now = 0) (hend : now < window.started + window.span) :
    wrap (window.used + cost) ≤ window.limit := by
  rw [waitFor] at hwait
  split_ifs at hwait with hfits
  · exact hfits
  · omega

theorem sound_of_fits {inquiry : Inquiry} (hfits : Fits limiter inquiry)
    (hrecent : Recent limiter inquiry) (hspan : 0 < limiter.weight.span) :
    Sound limiter inquiry := by
  cases inquiry with
  | check kind weight now =>
    refine ⟨noOverflow_iff.mpr hfits, fun hsend => ?_⟩
    rw [check_eq hfits] at hsend
    rcases check_cases id limiter kind weight now with ⟨hroom, -⟩ | ⟨for_, budget, -, -, -, hcheck⟩
    · have hroom := fits_of_waitFor (hroom _ List.mem_cons_self) ?_
      · rw [withHeadroom, headroom_roll, roll, rollWindow_limit, id_eq, id_eq] at hroom
        rw [Nat.add_assoc]
        exact hroom
      · rw [roll, rollWindow_span]
        exact lt_end_rollWindow hspan hrecent
    · rw [hcheck] at hsend
      cases hsend
  | observeUsed venueUsed now => trivial
  | observeRejection retryAfter now => trivial

/-- The limits and spans of the four windows, and the headroom. -/
def settings (limiter : RateLimiter) : List (ℕ × ℕ) × ℕ :=
  (limiter.windows.map fun window => (window.limit, window.span), limiter.headroomPermille)

theorem settings_roll (limiter : RateLimiter) (now : ℕ) :
    settings (roll limiter now) = settings limiter := by
  simp only [settings, RateLimiter.windows, roll, List.map_cons, List.map_nil, rollWindow_limit,
    rollWindow_span]

/-- No call changes the settings. -/
theorem settings_next (wrap : ℕ → ℕ) (limiter : RateLimiter) (inquiry : Inquiry) :
    settings ((machine wrap).next limiter inquiry) = settings limiter := by
  cases inquiry with
  | check kind weight now =>
    rw [next_check, ← settings_roll limiter now]
    rcases check_cases wrap limiter kind weight now with ⟨-, hcheck⟩ | ⟨_, _, -, -, -, hcheck⟩
    · rw [hcheck]
      cases kind <;> rfl
    · rw [hcheck]
      rfl
  | observeUsed venueUsed now =>
    rw [next_observeUsed, ← settings_roll limiter now, observeUsed]
    split_ifs <;> rfl
  | observeRejection retryAfter now => cases retryAfter <;> rfl

theorem settings_run (wrap : ℕ → ℕ) (limiter : RateLimiter) (inquiries : List Inquiry) :
    settings ((machine wrap).run limiter inquiries) = settings limiter :=
  Machine.run_invariant (I := fun s => settings s = settings limiter)
    (fun s inquiry hs => (settings_next wrap s inquiry).trans hs) rfl inquiries

theorem span_eq_of_settings {other : RateLimiter} (h : settings limiter = settings other) :
    limiter.weight.span = other.weight.span :=
  (Prod.mk.inj (List.cons.inj (Prod.mk.inj h).1).1).2

/-- **The arithmetic of the limiter.** In a run whose checks all fit when they are computed in exact
integers, and come in time, no addition or multiplication overflows and nothing is sent that exceeds
the limit with its headroom. In a run that is so, all of them fit. -/
theorem along_sound (profile : Profile) (origin : ℕ) (inquiries : List Inquiry) :
    ((machine id).Along (fun limiter inquiry => Fits limiter inquiry ∧ Recent limiter inquiry)
        (.new profile origin) inquiries →
      (machine u32).Along Sound (.new profile origin) inquiries) ∧
    ((machine u32).Along Sound (.new profile origin) inquiries →
      (machine id).Along Fits (.new profile origin) inquiries) := by
  constructor
  · intro h
    have hpos : 0 < 60 * second := by decide
    have hspan := h.imp_of_invariant (I := fun limiter => 0 < limiter.weight.span)
      (fun limiter inquiry hspan _ => by
        rwa [span_eq_of_settings (settings_next id limiter inquiry)])
      (fun limiter inquiry hspan hfits => And.intro hfits hspan) hpos
    refine ((Machine.along_congr (fun _ _ => Iff.rfl) fun limiter inquiry hboth => ?_).mpr
      hspan).mono fun limiter inquiry ⟨⟨hfits, hrecent⟩, hspan⟩ =>
        sound_of_fits hfits hrecent hspan
    exact step_eq hboth.1.1
  · intro h
    refine (Machine.along_congr (fun _ _ => Iff.rfl) fun _ _ hfits => step_eq hfits).mp
      (h.mono fun limiter inquiry hsound => ?_)
    cases inquiry with
    | check kind weight now => exact noOverflow_iff.mp hsound.1
    | observeUsed venueUsed now => trivial
    | observeRejection retryAfter now => trivial

/-! ### Moderate inputs -/

/-- What is asked and told stays below a bound. -/
def AtMost (most : ℕ) : Inquiry → Prop
  | .check _ weight _ => weight ≤ most
  | .observeUsed venueUsed _ => venueUsed ≤ most
  | .observeRejection _ _ => True

/-- Limits, weights and counts far enough from the largest `u32`. -/
structure Moderate (profile : Profile) (most : ℕ) (inquiries : List Inquiry) : Prop where
  limit_mul : profile.weightPerMinute * defaultHeadroomPermille < 2 ^ 32
  room : max profile.weightPerMinute most + most + profile.headroom < 2 ^ 32
  orders : ∀ limit ∈ [profile.ordersPer10s, profile.ordersPerMinute, profile.ordersPerDay],
    limit < 2 ^ 32 - 1
  inputs : ∀ inquiry ∈ inquiries, AtMost most inquiry ∧ inquiry.now < 2 ^ 32 * (60 * second)

/-- What the windows of a moderate run count. -/
structure Low (profile : Profile) (most : ℕ) (limiter : RateLimiter) : Prop where
  limit_eq : limiter.weight.limit = profile.weightPerMinute
  span_eq : limiter.weight.span = 60 * second
  permille_eq : limiter.headroomPermille = defaultHeadroomPermille
  used_le : limiter.weight.used ≤ max profile.weightPerMinute most
  orders : ∀ window ∈ orderWindows limiter, 0 < window.span ∧ window.limit < 2 ^ 32 - 1 ∧
    window.used ≤ max window.limit 1

/-- A cost that need not wait fits the window, or is the first in it. -/
theorem used_charge_le {window : Window} {cost full : ℕ} (hspan : 0 < window.span)
    (hcost : cost ≤ full)
    (hwait : waitFor id (rollWindow window now) full now = 0) :
    (chargeWindow (rollWindow window now) cost).used ≤ max window.limit cost := by
  refine (Nat.min_le_left _ _).trans ?_
  rw [waitFor] at hwait
  split_ifs at hwait with hfits
  · rw [id_eq, rollWindow_limit] at hfits
    omega
  · -- a window that was not rolled has not ended
    rw [rollWindow] at hwait ⊢
    split_ifs at hwait ⊢ with hover
    · dsimp only
      omega
    · omega

theorem Low.roll {profile : Profile} {most : ℕ} (h : Low profile most limiter) (now : ℕ) :
    Low profile most (roll limiter now) where
  limit_eq := (rollWindow_limit _ _).trans h.limit_eq
  span_eq := (rollWindow_span _ _).trans h.span_eq
  permille_eq := h.permille_eq
  used_le := (rollWindow_used_le _ _).trans h.used_le
  orders := by
    have hrolled : ∀ window, 0 < window.span ∧ window.limit < 2 ^ 32 - 1 ∧
        window.used ≤ max window.limit 1 → 0 < (rollWindow window now).span ∧
        (rollWindow window now).limit < 2 ^ 32 - 1 ∧
        (rollWindow window now).used ≤ max (rollWindow window now).limit 1 := by
      rintro window ⟨hspan, hlimit, hused⟩
      rw [rollWindow_span, rollWindow_limit]
      exact ⟨hspan, hlimit, (rollWindow_used_le _ _).trans hused⟩
    have horders := h.orders
    simp only [orderWindows, List.forall_mem_cons] at horders ⊢
    exact ⟨hrolled _ horders.1, hrolled _ horders.2.1, hrolled _ horders.2.2.1, by simp⟩

/-- A request that is let out leaves the windows low. -/
theorem Low.check {profile : Profile} {most : ℕ} (h : Low profile most limiter) (kind : Kind)
    (hweight : weight ≤ most) (now : ℕ) :
    Low profile most (check id limiter kind weight now).1 := by
  have hrolled := h.roll now
  rcases check_cases id limiter kind weight now with ⟨hroom, hcheck⟩ | ⟨_, _, -, -, -, hcheck⟩
  -- sent: there was room in every window it is taken off
  · have hused : (chargeWindow (rollWindow limiter.weight now) weight).used ≤
        max profile.weightPerMinute most := by
      have hspan : 0 < limiter.weight.span := by
        rw [h.span_eq]
        decide
      have hle : weight ≤ withHeadroom id (Wrapping.roll limiter now) weight :=
        Nat.le_add_right _ _
      have hcharged := used_charge_le hspan hle (hroom _ List.mem_cons_self)
      rw [h.limit_eq] at hcharged
      omega
    rw [hcheck]
    cases kind with
    | request => exact ⟨hrolled.limit_eq, hrolled.span_eq, h.permille_eq, hused, hrolled.orders⟩
    | order =>
      refine ⟨hrolled.limit_eq, hrolled.span_eq, h.permille_eq, hused, ?_⟩
      have hcharged : ∀ window ∈ orderWindows limiter,
          waitFor id (rollWindow window now) 1 now = 0 →
          0 < (chargeWindow (rollWindow window now) 1).span ∧
          (chargeWindow (rollWindow window now) 1).limit < 2 ^ 32 - 1 ∧
          (chargeWindow (rollWindow window now) 1).used ≤
            max (chargeWindow (rollWindow window now) 1).limit 1 := by
        intro window hwindow hwait
        obtain ⟨hspan, hlimit, -⟩ := h.orders window hwindow
        have hused := used_charge_le hspan le_rfl hwait
        rw [← rollWindow_span window now] at hspan
        rw [← rollWindow_limit window now] at hlimit hused
        exact ⟨hspan, hlimit, hused⟩
      simp only [budgets, List.forall_mem_cons] at hroom
      obtain ⟨-, h10s, h1m, h1d, -⟩ := hroom
      simp only [orderWindows, List.forall_mem_cons] at hcharged ⊢
      exact ⟨hcharged.1 h10s, hcharged.2.1 h1m, hcharged.2.2.1 h1d, by simp⟩
  · rw [hcheck]
    exact ⟨hrolled.limit_eq, hrolled.span_eq, h.permille_eq, hrolled.used_le, hrolled.orders⟩

theorem Low.next {profile : Profile} {most : ℕ} (h : Low profile most limiter) {inquiry : Inquiry}
    (hmost : AtMost most inquiry) : Low profile most ((machine id).next limiter inquiry) := by
  cases inquiry with
  | check kind weight now => exact h.check kind hmost now
  | observeUsed venueUsed now =>
    have hrolled := h.roll now
    rw [next_observeUsed, observeUsed]
    split_ifs
    · exact ⟨hrolled.limit_eq, hrolled.span_eq, hrolled.permille_eq,
        le_trans hmost (le_max_right _ _), hrolled.orders⟩
    · exact hrolled
  | observeRejection retryAfter now =>
    have hfull : limiter.weight.limit ≤ max profile.weightPerMinute most := by
      rw [h.limit_eq]
      exact le_max_left _ _
    cases retryAfter <;> exact ⟨h.limit_eq, h.span_eq, h.permille_eq, hfull, h.orders⟩

theorem Low.fits {profile : Profile} {most : ℕ} (h : Low profile most limiter)
    (hmul : profile.weightPerMinute * defaultHeadroomPermille < 2 ^ 32)
    (hroom : max profile.weightPerMinute most + most + profile.headroom < 2 ^ 32)
    {inquiry : Inquiry} (hmost : AtMost most inquiry) : Fits limiter inquiry := by
  cases inquiry with
  | check kind weight now =>
    refine ⟨by rwa [h.limit_eq, h.permille_eq], ?_, fun _ window hwindow => ?_⟩
    · have hused := (rollWindow_used_le limiter.weight now).trans h.used_le
      have hweight : weight ≤ most := hmost
      have hheadroom : headroom id limiter = profile.headroom := by
        rw [headroom, h.limit_eq, h.permille_eq]
        rfl
      rw [hheadroom]
      omega
    · obtain ⟨-, hlimit, hused⟩ := h.orders window hwindow
      have hle := rollWindow_used_le window now
      omega
  | observeUsed venueUsed now => trivial
  | observeRejection retryAfter now => trivial

/-- A moderate run fits, so that the limiter computes in it what exact integers would give. -/
theorem along_fits_of_moderate {profile : Profile} {most origin : ℕ} {inquiries : List Inquiry}
    (h : Moderate profile most inquiries) :
    (machine id).Along (fun limiter inquiry => Fits limiter inquiry ∧ Recent limiter inquiry)
      (.new profile origin) inquiries := by
  refine (Machine.along_of_forall_mem h.inputs _).imp_of_invariant (I := Low profile most)
    (fun limiter inquiry hlow hinput => hlow.next hinput.1)
    (fun limiter inquiry hlow hinput => ⟨hlow.fits h.limit_mul h.room hinput.1, ?_⟩) ?_
  · cases inquiry with
    | check kind weight now =>
      have hpos : 0 < 60 * second := by decide
      rw [Recent, hlow.span_eq, Nat.div_lt_iff_lt_mul hpos]
      exact (Nat.sub_le _ _).trans_lt hinput.2
    | observeUsed venueUsed now => trivial
    | observeRejection retryAfter now => trivial
  · have hspans : ∀ span ∈ [10 * second, 60 * second, 86400 * second], 0 < span := by decide
    have horders := h.orders
    simp only [List.forall_mem_cons] at hspans horders
    refine ⟨rfl, rfl, rfl, Nat.zero_le _, ?_⟩
    simp only [orderWindows, List.forall_mem_cons]
    exact ⟨⟨hspans.1, horders.1, Nat.zero_le _⟩, ⟨hspans.2.1, horders.2.1, Nat.zero_le _⟩,
      ⟨hspans.2.2.1, horders.2.2.1, Nat.zero_le _⟩, by simp⟩

/-! ### The limiter in natural numbers -/

/-- Nothing is cut off by the widths of the integers: the sums fit, and no window is out of date by
more spans than a `u32` counts. -/
def Whole (limiter : RateLimiter) (inquiry : Inquiry) : Prop :=
  Fits limiter inquiry ∧ ∀ window ∈ limiter.windows,
    (inquiry.now - window.started) / max window.span 1 < 2 ^ 32

theorem roll_eq (h : ∀ window ∈ limiter.windows,
    (now - window.started) / max window.span 1 < 2 ^ 32) :
    roll limiter now = limiter.roll now := by
  have hwindow {window : Window} (hspans : (now - window.started) / max window.span 1 < 2 ^ 32) :
      rollWindow window now = window.roll now := by
    rw [rollWindow, Window.roll]
    dsimp only
    rw [u32_of_lt hspans]
  simp only [RateLimiter.windows, List.forall_mem_cons] at h
  obtain ⟨hweight, h10s, h1m, h1d, -⟩ := h
  rw [roll, RateLimiter.roll, hwindow hweight, hwindow h10s, hwindow h1m, hwindow h1d]

theorem charge_eq (hweight : limiter.weight.used + weight < 2 ^ 32)
    (horders : kind = .order → ∀ window ∈ orderWindows limiter, window.used + 1 < 2 ^ 32) :
    charge limiter kind weight = limiter.charge kind weight := by
  have hwindow {window : Window} {cost : ℕ} (hroom : window.used + cost < 2 ^ 32) :
      chargeWindow window cost = window.charge cost := by
    rw [chargeWindow, Window.charge, Nat.min_eq_left (by omega)]
  cases kind with
  | request => rw [charge, RateLimiter.charge, hwindow hweight]
  | order =>
    have hrooms := horders rfl
    simp only [orderWindows, List.forall_mem_cons] at hrooms
    obtain ⟨h10s, h1m, h1d, -⟩ := hrooms
    simp only [charge, RateLimiter.charge, hwindow hweight, hwindow h10s, hwindow h1m, hwindow h1d]

/-- A check of which nothing is cut off is the one of the limiter in natural numbers. -/
theorem check_eq_limiter (h : Whole limiter (.check kind weight now)) :
    check u32 limiter kind weight now = limiter.check kind weight now := by
  obtain ⟨hfits, hspans⟩ := h
  have hroll : roll limiter now = limiter.roll now := roll_eq hspans
  have hbudgets := budgets_eq hfits
  obtain ⟨-, hused, horders⟩ := hfits
  have hcharge : charge (roll limiter now) kind weight = (roll limiter now).charge kind weight := by
    refine charge_eq ?_ fun hkind => ?_
    · change (rollWindow limiter.weight now).used + weight < 2 ^ 32
      omega
    · have hrooms := horders hkind
      simp only [orderWindows, List.forall_mem_cons] at hrooms ⊢
      obtain ⟨h10s, h1m, h1d, -⟩ := hrooms
      exact ⟨Nat.add_lt_of_lt_sub h10s, Nat.add_lt_of_lt_sub h1m, Nat.add_lt_of_lt_sub h1d, by simp⟩
  rw [check, hbudgets, hcharge, hroll]
  rfl

theorem step_eq_limiter {inquiry : Inquiry} (h : Whole limiter inquiry) :
    step u32 limiter inquiry = limiter.step inquiry := by
  cases inquiry with
  | check kind weight now => rw [step, RateLimiter.step, check_eq_limiter h]
  | observeUsed venueUsed now =>
    have hroll : roll limiter now = limiter.roll now := roll_eq h.2
    rw [step, RateLimiter.step, observeUsed, RateLimiter.observeUsed, hroll]
  | observeRejection retryAfter now => rfl

/-- **Where nothing is cut off, the release build is the limiter in natural numbers.** A run of
moderate inputs, within the time in which no window turns over more spans than a `u32` counts, is
answered by both alike. -/
theorem trace_eq_of_moderate {profile : Profile} {most origin : ℕ} {inquiries : List Inquiry}
    (h : Moderate profile most inquiries)
    (htimes : ∀ inquiry ∈ inquiries, inquiry.now < 2 ^ 32 * (10 * second)) :
    (machine u32).trace (.new profile origin) inquiries =
      RateLimiter.machine.trace (.new profile origin) inquiries := by
  -- The sums fit along the exact machine, hence along the wrapping one, which goes the same way.
  have hwhole : (machine u32).Along Whole (.new profile origin) inquiries := by
    have hfits : (machine u32).Along Fits (.new profile origin) inquiries :=
      (Machine.along_congr (fun _ _ => Iff.rfl) fun _ _ hfits => step_eq hfits).mpr
        ((along_fits_of_moderate h).mono fun _ _ hboth => hboth.1)
    refine ((Machine.along_and.mpr ⟨hfits, Machine.along_of_forall_mem htimes _⟩).imp_of_invariant
      (I := fun s => settings s = settings (.new profile origin))
      (fun s inquiry hs _ => (settings_next u32 s inquiry).trans hs)
      (fun s inquiry hs hboth => ⟨hboth.1, fun window hwindow => ?_⟩) rfl)
    -- No call changes a span, and the shortest one is ten seconds.
    have hspan : 10 * second ≤ window.span := by
      have hspans : ∀ setting ∈ (settings s).1, 10 * second ≤ setting.2 := by
        rw [hs]
        simp [settings, RateLimiter.windows, RateLimiter.new, Window.new, second]
      exact hspans _ (List.mem_map_of_mem hwindow)
    have hpos : 0 < 10 * second := by decide
    rw [Nat.max_eq_left (by omega), Nat.div_lt_iff_lt_mul (by omega)]
    calc inquiry.now - window.started ≤ inquiry.now := Nat.sub_le _ _
      _ < 2 ^ 32 * (10 * second) := hboth.2
      _ ≤ 2 ^ 32 * window.span := Nat.mul_le_mul_left _ hspan
  exact ((Machine.along_congr (fun _ _ => Iff.rfl) fun _ _ hwhole =>
    congrArg Prod.fst (step_eq_limiter hwhole)).mp hwhole).trace_congr
      fun _ _ hwhole => step_eq_limiter hwhole

/-- After a response that reports the largest count there is, a request of weight 1 goes out: the
sum with its headroom wraps to 300. -/
theorem not_sound_max :
    ¬ Sound ((machine u32).run (.new .binanceSpot 0) [.observeUsed 4294967295 0])
      (.check .request 1 0) ∧
    (machine u32).out ((machine u32).run (.new .binanceSpot 0) [.observeUsed 4294967295 0])
      (.check .request 1 0) = some .send ∧
    6000 < 4294967295 + 1 + headroom id (.new .binanceSpot 0) := by
  refine ⟨fun hsound => ?_, by decide, by decide⟩
  exact absurd (hsound.2 (by decide)) (by decide)

end Wrapping

end MoonCore
