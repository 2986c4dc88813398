import Mathlib.Data.List.Sort
import MoonCore.ForMathlib.AlignedWindow
import MoonCore.Machine.Run

/-!
# Staying inside what the venue will accept

`exchange::limits`. The venue counts weight and orders inside wall-clock windows; a `RateLimiter`
keeps the same four counters and refuses locally what would exceed one of them. Instants are
nanoseconds, and the `u32` counters and `u128` spans are natural numbers.

`RateLimiter.Within` says that each counter is a `Tally` of what was sent; it holds after every
run without a rejection (`RateLimiter.Within.run`), and `RateLimiter.limits_respected` reads the
venue's limits off it.
-/

namespace MoonCore

/-- A second, in nanoseconds. -/
def second : ℕ := 1000000000

/-- One counted window. -/
structure Window where
  limit : ℕ
  span : ℕ
  used : ℕ
  /-- When the current window began. -/
  started : ℕ
  deriving DecidableEq

namespace Window

/-- A window that starts now, with nothing used. -/
def new (limit span now : ℕ) : Window := ⟨limit, span, 0, now⟩

/-- Turn over, by whole spans. -/
def roll (window : Window) (now : ℕ) : Window :=
  if window.span ≤ now - window.started then
    let elapsed := now - window.started
    let spans := elapsed / max window.span 1
    { window with started := window.started + window.span * spans, used := 0 }
  else window

/-- How long until `cost` would fit, or zero if it fits now. -/
def waitFor (window : Window) (cost now : ℕ) : ℕ :=
  if window.used + cost ≤ window.limit then 0 else window.started + window.span - now

/-- So much more is used. -/
def charge (window : Window) (cost : ℕ) : Window := { window with used := window.used + cost }

end Window

/-- What kind of budget a request draws on. -/
inductive Kind where
  /-- Anything that is not an order. -/
  | request
  /-- Placing, amending or cancelling. -/
  | order
  deriving DecidableEq

/-- The venue's published limits. -/
structure Profile where
  weightPerMinute : ℕ
  ordersPer10s : ℕ
  ordersPerMinute : ℕ
  ordersPerDay : ℕ
  deriving DecidableEq

namespace Profile

/-- What Binance allows on spot. -/
def binanceSpot : Profile := ⟨6000, 100, 1200, 200000⟩

/-- What Binance allows on the linear futures. -/
def binanceUsdm : Profile := ⟨2400, 300, 1200, 200000⟩

end Profile

/-- Whether to send now, and if not, when. -/
inductive Decision where
  /-- Inside every budget. -/
  | send
  /-- Would exceed one. -/
  | wait (for_ : ℕ) (budget : String)
  deriving DecidableEq

/-- One venue's budgets. -/
structure RateLimiter where
  weight : Window
  orders10s : Window
  orders1m : Window
  orders1d : Window
  /-- How much of the weight to leave unused. -/
  headroomPermille : ℕ
  /-- Requests refused locally. -/
  deferred : ℕ
  deriving DecidableEq

/-- Five per cent held back. -/
def defaultHeadroomPermille : ℕ := 50

/-- The weight a profile's limiter holds back. -/
def Profile.headroom (profile : Profile) : ℕ :=
  max (profile.weightPerMinute * defaultHeadroomPermille / 1000) 1

/-- What is asked of a limiter, or told to it. -/
inductive Inquiry where
  | check (kind : Kind) (weight now : ℕ)
  | observeUsed (venueUsed now : ℕ)
  | observeRejection (retryAfter : Option ℕ) (now : ℕ)
  deriving DecidableEq

/-- The instant a call is given. -/
def Inquiry.now : Inquiry → ℕ
  | .check _ _ now => now
  | .observeUsed _ now => now
  | .observeRejection _ now => now

/-- Anything but a rejection. -/
def Inquiry.Calm : Inquiry → Prop
  | .observeRejection _ _ => False
  | _ => True

/-- The longest wait; of equal ones, the last. -/
def longestWait (budgets : List (String × ℕ)) : Option (String × ℕ) :=
  budgets.foldl (fun longest budget =>
    match longest with
    | none => some budget
    | some other => if other.2 ≤ budget.2 then some budget else some other) none

namespace RateLimiter

/-- A limiter for these limits, on which nothing was spent yet. -/
def new (profile : Profile) (now : ℕ) : RateLimiter where
  weight := .new profile.weightPerMinute (60 * second) now
  orders10s := .new profile.ordersPer10s (10 * second) now
  orders1m := .new profile.ordersPerMinute (60 * second) now
  orders1d := .new profile.ordersPerDay (86400 * second) now
  headroomPermille := defaultHeadroomPermille
  deferred := 0

/-- Start again the windows that are over. -/
def roll (limiter : RateLimiter) (now : ℕ) : RateLimiter :=
  { limiter with
    weight := limiter.weight.roll now
    orders10s := limiter.orders10s.roll now
    orders1m := limiter.orders1m.roll now
    orders1d := limiter.orders1d.roll now }

/-- Inflate a cost by the headroom. -/
def withHeadroom (limiter : RateLimiter) (weight : ℕ) : ℕ :=
  weight + max (limiter.weight.limit * limiter.headroomPermille / 1000) 1

/-- The budgets a request draws on, with the wait for each. -/
def budgets (limiter : RateLimiter) (kind : Kind) (weight now : ℕ) : List (String × ℕ) :=
  ("weight", limiter.weight.waitFor (limiter.withHeadroom weight) now) ::
    match kind with
    | .request => []
    | .order =>
      [("orders_10s", limiter.orders10s.waitFor 1 now),
        ("orders_1m", limiter.orders1m.waitFor 1 now),
        ("orders_1d", limiter.orders1d.waitFor 1 now)]

/-- Take the cost of a request off every window it counts in. -/
def charge (limiter : RateLimiter) (kind : Kind) (weight : ℕ) : RateLimiter :=
  let charged := { limiter with weight := limiter.weight.charge weight }
  match kind with
  | .request => charged
  | .order =>
    { charged with
      orders10s := charged.orders10s.charge 1
      orders1m := charged.orders1m.charge 1
      orders1d := charged.orders1d.charge 1 }

/-- Ask whether a request may go out, charging it if so. -/
def check (limiter : RateLimiter) (kind : Kind) (weight now : ℕ) : RateLimiter × Decision :=
  let limiter := limiter.roll now
  match longestWait ((limiter.budgets kind weight now).filter fun budget => budget.2 ≠ 0) with
  | some (budget, wait) => ({ limiter with deferred := limiter.deferred + 1 }, .wait wait budget)
  | none => (limiter.charge kind weight, .send)

/-- Adopt the venue's own count of the weight used this minute, only upward. -/
def observeUsed (limiter : RateLimiter) (venueUsed now : ℕ) : RateLimiter :=
  let limiter := limiter.roll now
  if limiter.weight.used < venueUsed then
    { limiter with weight := { limiter.weight with used := venueUsed } }
  else limiter

/-- The venue rejected a request for rate limiting anyway. -/
def observeRejection (limiter : RateLimiter) (retryAfter : Option ℕ) (now : ℕ) : RateLimiter :=
  let spent := { limiter with weight := { limiter.weight with used := limiter.weight.limit } }
  match retryAfter with
  | none => spent
  | some after =>
    -- push the window's end out to where the venue says it is
    let endsAt := now + after
    let started := if spent.weight.span ≤ endsAt then endsAt - spent.weight.span else now
    { spent with weight := { spent.weight with started := started } }

/-- One call on the limiter; only a check is answered. -/
def step (limiter : RateLimiter) : Inquiry → RateLimiter × Option Decision
  | .check kind weight now =>
    let (limiter, decision) := limiter.check kind weight now
    (limiter, some decision)
  | .observeUsed venueUsed now => (limiter.observeUsed venueUsed now, none)
  | .observeRejection retryAfter now => (limiter.observeRejection retryAfter now, none)

/-- A limiter, stepping on what it is asked and told. -/
def machine : Machine RateLimiter Inquiry (Option Decision) := ⟨step⟩

end RateLimiter

/-! ### What was sent -/

/-- A request that a check let out. -/
structure Sent where
  kind : Kind
  weight : ℕ
  now : ℕ
  deriving DecidableEq

/-- What a request counts as an order. -/
def Sent.orders (sent : Sent) : ℕ :=
  match sent.kind with
  | .request => 0
  | .order => 1

/-- What an inquiry that was answered so has sent. -/
def Inquiry.sends : Inquiry → Option Decision → List Sent
  | .check kind weight now, some .send => [⟨kind, weight, now⟩]
  | _, _ => []

/-- What a run sends, oldest first. -/
def RateLimiter.sent (limiter : RateLimiter) (inquiries : List Inquiry) : List Sent :=
  (machine.trace limiter inquiries).flatMap fun asked => asked.1.sends asked.2

/-! ### One window -/

/-- A window counts what was sent, and has let no more than `cap` out in any of its spans. -/
structure Window.Counts (cost : Sent → ℕ) (origin limit span cap now : ℕ) (sent : List Sent)
    (window : Window) : Prop where
  limit_eq : window.limit = limit
  span_eq : window.span = span
  tally : ∃ index, window.started = origin + index * span ∧
    Tally Sent.now cost origin span cap index window.used now sent

namespace Window.Counts

variable {cost : Sent → ℕ} {origin limit span cap now : ℕ} {sent : List Sent} {window : Window}

theorem new (cost : Sent → ℕ) (origin limit span cap : ℕ) (hspan : 0 < span) :
    (Window.new limit span origin).Counts cost origin limit span cap origin [] where
  limit_eq := rfl
  span_eq := rfl
  tally := ⟨0, by rw [Nat.zero_mul]; rfl, .start hspan⟩

/-- A window that turns over lands on the boundary of the span that contains the present. -/
theorem roll (h : window.Counts cost origin limit span cap now sent) (hspan : 0 < span)
    {later : ℕ} (hlater : now ≤ later) :
    (window.roll later).Counts cost origin limit span cap later sent := by
  obtain ⟨hlimit, rfl, index, hstarted, htally⟩ := h
  have hcontains := htally.contains
  rw [InWindow, Nat.succ_mul] at hcontains
  rw [Window.roll]
  split_ifs with hover
  · refine ⟨hlimit, rfl, index + (later - window.started) / window.span, ?_, ?_⟩
    · have hspans : (later - window.started) / max window.span 1 =
          (later - window.started) / window.span := by rw [Nat.max_eq_left hspan]
      calc window.started + window.span * ((later - window.started) / max window.span 1)
          = origin + index * window.span +
              (later - window.started) / window.span * window.span := by
            rw [hspans, Nat.mul_comm, hstarted]
        _ = origin + (index + (later - window.started) / window.span) * window.span := by
            rw [Nat.add_mul, Nat.add_assoc]
    · have hturns : 0 < (later - window.started) / window.span := Nat.div_pos hover hspan
      refine htally.turn (by omega) ?_
      rw [hstarted]
      exact inWindow_advance hspan (by omega)
  · refine ⟨hlimit, rfl, index, hstarted, htally.later hlater ?_⟩
    rw [Nat.succ_mul]
    omega

/-- In a window that contains the present, what does not fit has to wait. -/
theorem fits_of_waitFor (h : window.Counts cost origin limit span cap now sent) {c : ℕ}
    (hwait : window.waitFor c now = 0) : window.used + c ≤ limit := by
  obtain ⟨hlimit, hspan, index, hstarted, htally⟩ := h
  have hcontains := htally.contains.2
  rw [Nat.succ_mul] at hcontains
  rw [Window.waitFor] at hwait
  split_ifs at hwait with hfits
  · rwa [← hlimit]
  · omega

theorem charge (h : window.Counts cost origin limit span cap now sent) {entry : Sent}
    (htime : entry.now = now) (hfits : window.used + cost entry ≤ cap) :
    (window.charge (cost entry)).Counts cost origin limit span cap now (sent ++ [entry]) := by
  obtain ⟨hlimit, hspan, index, hstarted, htally⟩ := h
  exact ⟨hlimit, hspan, index, hstarted, htally.charge htime hfits⟩

theorem free (h : window.Counts cost origin limit span cap now sent) {entry : Sent}
    (htime : entry.now = now) (hcost : cost entry = 0) :
    window.Counts cost origin limit span cap now (sent ++ [entry]) := by
  obtain ⟨hlimit, hspan, index, hstarted, htally⟩ := h
  exact ⟨hlimit, hspan, index, hstarted, htally.free htime hcost⟩

theorem raise (h : window.Counts cost origin limit span cap now sent) {used : ℕ}
    (hused : window.used ≤ used) :
    ({ window with used := used } : Window).Counts cost origin limit span cap now sent := by
  obtain ⟨hlimit, hspan, index, hstarted, htally⟩ := h
  exact ⟨hlimit, hspan, index, hstarted, htally.raise hused⟩

theorem spentIn_le (h : window.Counts cost origin limit span cap now sent) (n : ℕ) :
    spentIn Sent.now cost origin span n sent ≤ cap := by
  obtain ⟨-, -, index, -, htally⟩ := h
  exact htally.bounded n

end Window.Counts

/-! ### The longest wait -/

/-- Nothing has to be waited for exactly when every budget has room. -/
theorem longestWait_eq_none {budgets : List (String × ℕ)} : longestWait budgets = none ↔
    budgets = [] := by
  constructor
  · intro h
    induction budgets using List.reverseRecOn with
    | nil => rfl
    | append_singleton budgets budget _ =>
      rw [longestWait, List.foldl_append, List.foldl_cons, List.foldl_nil] at h
      split at h
      · cases h
      · split_ifs at h
  · rintro rfl
    rfl

/-- The longest wait is one of the waits, and no other is longer. -/
theorem longestWait_eq_some {budgets : List (String × ℕ)} {longest : String × ℕ}
    (h : longestWait budgets = some longest) :
    longest ∈ budgets ∧ ∀ budget ∈ budgets, budget.2 ≤ longest.2 := by
  induction budgets using List.reverseRecOn generalizing longest with
  | nil => cases h
  | append_singleton budgets last ih =>
    rw [longestWait, List.foldl_append, List.foldl_cons, List.foldl_nil, ← longestWait] at h
    cases hbefore : longestWait budgets with
    | none =>
      rw [hbefore] at h
      obtain rfl := Option.some.inj h
      rw [longestWait_eq_none.mp hbefore]
      simp
    | some other =>
      rw [hbefore] at h
      obtain ⟨hmem, hle⟩ := ih hbefore
      simp only [List.forall_mem_append, List.forall_mem_singleton]
      dsimp only at h
      split_ifs at h with hlast
      · obtain rfl := Option.some.inj h
        exact ⟨by simp, fun budget hb => (hle budget hb).trans hlast, le_rfl⟩
      · obtain rfl := Option.some.inj h
        exact ⟨List.mem_append_left _ hmem, hle, (not_le.mp hlast).le⟩

theorem longestWait_filter_eq_none {budgets : List (String × ℕ)} :
    longestWait (budgets.filter fun budget => budget.2 ≠ 0) = none ↔
      ∀ budget ∈ budgets, budget.2 = 0 := by
  rw [longestWait_eq_none, List.filter_eq_nil_iff]
  simp

namespace RateLimiter

/-! ### The four windows -/

/-- What a check does: it sends and charges where every budget has room, and otherwise charges
nothing. -/
theorem check_cases (limiter : RateLimiter) (kind : Kind) (weight now : ℕ) :
    ((∀ budget ∈ (limiter.roll now).budgets kind weight now, budget.2 = 0) ∧
      limiter.check kind weight now = ((limiter.roll now).charge kind weight, .send)) ∨
    ∃ for_ budget, limiter.check kind weight now =
      ({ limiter.roll now with deferred := limiter.deferred + 1 }, .wait for_ budget) := by
  rw [check]
  cases hlongest : longestWait
      (((limiter.roll now).budgets kind weight now).filter fun budget => budget.2 ≠ 0) with
  | none => exact .inl ⟨longestWait_filter_eq_none.mp hlongest, rfl⟩
  | some longest => exact .inr ⟨longest.2, longest.1, rfl⟩

/-- The four windows count what was sent since `origin`. -/
structure Within (profile : Profile) (origin now : ℕ) (sent : List Sent) (limiter : RateLimiter) :
    Prop where
  weight : limiter.weight.Counts Sent.weight origin profile.weightPerMinute (60 * second)
    (profile.weightPerMinute - profile.headroom) now sent
  orders10s : limiter.orders10s.Counts Sent.orders origin profile.ordersPer10s (10 * second)
    profile.ordersPer10s now sent
  orders1m : limiter.orders1m.Counts Sent.orders origin profile.ordersPerMinute (60 * second)
    profile.ordersPerMinute now sent
  orders1d : limiter.orders1d.Counts Sent.orders origin profile.ordersPerDay (86400 * second)
    profile.ordersPerDay now sent
  headroom : limiter.headroomPermille = defaultHeadroomPermille

variable {profile : Profile} {origin now : ℕ} {log : List Sent} {limiter : RateLimiter}

theorem within_new (profile : Profile) (origin : ℕ) :
    Within profile origin origin [] (new profile origin) where
  weight := .new _ _ _ _ _ (by decide)
  orders10s := .new _ _ _ _ _ (by decide)
  orders1m := .new _ _ _ _ _ (by decide)
  orders1d := .new _ _ _ _ _ (by decide)
  headroom := rfl

theorem Within.roll (h : Within profile origin now log limiter) {later : ℕ} (hlater : now ≤ later) :
    Within profile origin later log (limiter.roll later) where
  weight := h.weight.roll (by decide) hlater
  orders10s := h.orders10s.roll (by decide) hlater
  orders1m := h.orders1m.roll (by decide) hlater
  orders1d := h.orders1d.roll (by decide) hlater
  headroom := h.headroom

theorem Within.withHeadroom_eq (h : Within profile origin now log limiter) (weight : ℕ) :
    limiter.withHeadroom weight = weight + profile.headroom := by
  rw [withHeadroom, h.weight.limit_eq, h.headroom, Profile.headroom]

/-- A request for which every budget has room is counted by the budgets it draws on. -/
theorem Within.charge (h : Within profile origin now log limiter) {kind : Kind} {weight : ℕ}
    (hroom : ∀ budget ∈ limiter.budgets kind weight now, budget.2 = 0) :
    Within profile origin now (log ++ [⟨kind, weight, now⟩]) (limiter.charge kind weight) := by
  have hweight : limiter.weight.used + weight ≤ profile.weightPerMinute - profile.headroom := by
    have hfits := h.weight.fits_of_waitFor (hroom _ List.mem_cons_self)
    rw [h.withHeadroom_eq] at hfits
    omega
  have hcharged : (limiter.weight.charge weight).Counts Sent.weight origin
      profile.weightPerMinute (60 * second) (profile.weightPerMinute - profile.headroom) now
      (log ++ [⟨kind, weight, now⟩]) :=
    h.weight.charge rfl hweight
  cases kind with
  | request =>
    exact
      { weight := hcharged
        orders10s := h.orders10s.free rfl rfl
        orders1m := h.orders1m.free rfl rfl
        orders1d := h.orders1d.free rfl rfl
        headroom := h.headroom }
  | order =>
    simp only [budgets, List.forall_mem_cons] at hroom
    obtain ⟨-, h10s, h1m, h1d, -⟩ := hroom
    exact
      { weight := hcharged
        orders10s := h.orders10s.charge rfl (h.orders10s.fits_of_waitFor h10s)
        orders1m := h.orders1m.charge rfl (h.orders1m.fits_of_waitFor h1m)
        orders1d := h.orders1d.charge rfl (h.orders1d.fits_of_waitFor h1d)
        headroom := h.headroom }

theorem Within.observeUsed (h : Within profile origin now log limiter) {later : ℕ}
    (hlater : now ≤ later) (venueUsed : ℕ) :
    Within profile origin later log (limiter.observeUsed venueUsed later) := by
  have hrolled := h.roll hlater
  rw [RateLimiter.observeUsed]
  dsimp only
  split_ifs with hused
  · exact
      { weight := hrolled.weight.raise hused.le
        orders10s := hrolled.orders10s
        orders1m := hrolled.orders1m
        orders1d := hrolled.orders1d
        headroom := hrolled.headroom }
  · exact hrolled

theorem Within.next (h : Within profile origin now log limiter) {inquiry : Inquiry}
    (hcalm : inquiry.Calm) (hlater : now ≤ inquiry.now) :
    Within profile origin inquiry.now (log ++ inquiry.sends (machine.out limiter inquiry))
      (machine.next limiter inquiry) := by
  cases inquiry with
  | check kind weight now' =>
    have hrolled : Within profile origin now' log (limiter.roll now') := h.roll hlater
    change Within profile origin now'
      (log ++ (Inquiry.check kind weight now').sends (some (limiter.check kind weight now').2))
      (limiter.check kind weight now').1
    rcases check_cases limiter kind weight now' with ⟨hroom, hcheck⟩ | ⟨for_, budget, hcheck⟩
    · rw [hcheck]
      exact hrolled.charge hroom
    · rw [hcheck]
      have hnothing : log ++ (Inquiry.check kind weight now').sends (some (.wait for_ budget)) =
          log := List.append_nil log
      rw [hnothing]
      exact
        { weight := hrolled.weight
          orders10s := hrolled.orders10s
          orders1m := hrolled.orders1m
          orders1d := hrolled.orders1d
          headroom := hrolled.headroom }
  | observeUsed venueUsed now' =>
    rw [Inquiry.sends, List.append_nil]
    · exact h.observeUsed hlater venueUsed
    · nofun
  | observeRejection retryAfter now' => exact hcalm.elim

/-- **Run lemma.** At times that do not go back, every run without a rejection keeps the four
windows counting what it sends. -/
theorem Within.run (h : Within profile origin now log limiter) {inquiries : List Inquiry}
    (hcalm : ∀ inquiry ∈ inquiries, inquiry.Calm)
    (htimes : (now :: inquiries.map Inquiry.now).Pairwise (· ≤ ·)) :
    ∃ later ∈ now :: inquiries.map Inquiry.now,
      Within profile origin later (log ++ limiter.sent inquiries)
        (machine.run limiter inquiries) := by
  induction inquiries generalizing now log limiter with
  | nil =>
    refine ⟨now, List.mem_cons_self, ?_⟩
    rwa [sent, Machine.trace_nil, List.flatMap_nil, List.append_nil]
  | cons inquiry inquiries ih =>
    obtain ⟨hfirst, hrest⟩ := List.forall_mem_cons.mp hcalm
    obtain ⟨hnow, hlater⟩ := List.pairwise_cons.mp htimes
    have hstep := h.next hfirst (hnow _ List.mem_cons_self)
    obtain ⟨later, hmem, hwithin⟩ := ih hstep hrest hlater
    refine ⟨later, List.mem_cons_of_mem _ hmem, ?_⟩
    rwa [sent, Machine.trace_cons, List.flatMap_cons, ← List.append_assoc]

/-! ### The result -/

/-- The four windows. -/
def windows (limiter : RateLimiter) : List Window :=
  [limiter.weight, limiter.orders10s, limiter.orders1m, limiter.orders1d]

end RateLimiter

/-- A window that starts a whole number of spans after `origin` and contains `now`. -/
def Window.AlignedAt (origin now : ℕ) (window : Window) : Prop :=
  (∃ n, window.started = origin + n * window.span) ∧
    window.started ≤ now ∧ now < window.started + window.span

theorem Window.Counts.alignedAt {cost : Sent → ℕ} {origin limit span cap now : ℕ}
    {sent : List Sent} {window : Window}
    (h : window.Counts cost origin limit span cap now sent) : window.AlignedAt origin now := by
  obtain ⟨-, rfl, index, hstarted, htally⟩ := h
  have hcontains := htally.contains
  rw [InWindow, Nat.succ_mul] at hcontains
  exact ⟨⟨index, hstarted⟩, by omega, by omega⟩

namespace RateLimiter

theorem Within.alignedAt {profile : Profile} {origin now : ℕ} {log : List Sent}
    {limiter : RateLimiter} (h : Within profile origin now log limiter) :
    ∀ window ∈ limiter.windows, window.AlignedAt origin now := by
  simp only [windows, List.forall_mem_cons, List.not_mem_nil, false_imp_iff, implies_true,
    and_true]
  exact ⟨h.weight.alignedAt, h.orders10s.alignedAt, h.orders1m.alignedAt, h.orders1d.alignedAt⟩

/-- A check that does not send leaves the windows as turning them over does. -/
theorem windows_check_of_wait {limiter : RateLimiter} {kind : Kind} {weight now for_ : ℕ}
    {budget : String} (h : (limiter.check kind weight now).2 = .wait for_ budget) :
    (limiter.check kind weight now).1.windows = (limiter.roll now).windows := by
  rcases check_cases limiter kind weight now with ⟨-, hcheck⟩ | ⟨for_, budget, hcheck⟩
  · rw [hcheck] at h
    cases h
  · rw [hcheck]
    rfl

/-- No run without a rejection sends more than the venue accepts in any of its windows. After
every call each of the four windows starts a whole number of spans after the first instant and
contains the present one, and a check that has to wait has charged nothing to any of them. -/
theorem limits_respected (profile : Profile) (origin : ℕ) (inquiries : List Inquiry)
    (hcalm : ∀ inquiry ∈ inquiries, inquiry.Calm)
    (htimes : (origin :: inquiries.map Inquiry.now).Pairwise (· ≤ ·)) :
    let sent := (new profile origin).sent inquiries
    (∀ n, spentIn Sent.now Sent.weight origin (60 * second) n sent ≤
        profile.weightPerMinute - profile.headroom) ∧
      (∀ n, spentIn Sent.now Sent.orders origin (10 * second) n sent ≤ profile.ordersPer10s) ∧
      (∀ n, spentIn Sent.now Sent.orders origin (60 * second) n sent ≤
        profile.ordersPerMinute) ∧
      (∀ n, spentIn Sent.now Sent.orders origin (86400 * second) n sent ≤
        profile.ordersPerDay) ∧
      ∀ pre inquiry post, inquiries = pre ++ inquiry :: post →
        let before := machine.run (new profile origin) pre
        (∀ window ∈ (machine.next before inquiry).windows,
            window.AlignedAt origin inquiry.now) ∧
          ∀ kind weight now for_ budget, inquiry = .check kind weight now →
            machine.out before inquiry = some (.wait for_ budget) →
              (machine.next before inquiry).windows = (before.roll now).windows := by
  have hnew := within_new profile origin
  obtain ⟨later, -, hwithin⟩ := hnew.run hcalm htimes
  rw [List.nil_append] at hwithin
  refine ⟨hwithin.weight.spentIn_le, hwithin.orders10s.spentIn_le, hwithin.orders1m.spentIn_le,
    hwithin.orders1d.spentIn_le, ?_⟩
  rintro pre inquiry post rfl
  rw [List.map_append, ← List.cons_append, List.pairwise_append] at htimes
  obtain ⟨hpre, hpost⟩ := List.forall_mem_append.mp hcalm
  obtain ⟨now, hnow, hbefore⟩ := hnew.run hpre htimes.1
  have hle : now ≤ inquiry.now := htimes.2.2 now hnow inquiry.now List.mem_cons_self
  refine ⟨(hbefore.next (hpost inquiry List.mem_cons_self) hle).alignedAt, ?_⟩
  rintro kind weight now' for_ budget rfl hwait
  exact windows_check_of_wait (Option.some.inj hwait)

/-- An order, and a request the venue's own count leaves no room for. -/
theorem limits_respected_corrected :
    spentIn Sent.now Sent.weight 0 (60 * second) 0
      ((new .binanceSpot 0).sent [.check .order 5 0, .observeUsed 5900 1, .check .request 5 2]) ≤
        6000 - Profile.binanceSpot.headroom :=
  (limits_respected .binanceSpot 0
    [.check .order 5 0, .observeUsed 5900 1, .check .request 5 2]
    (by simp [Inquiry.Calm]) (by simp [Inquiry.now])).1 0

end RateLimiter

end MoonCore
