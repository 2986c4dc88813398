import MoonCore.Exchange.Wrapping

/-!
# The announced wait is exact

A check that has to wait says for how long: until the last of the windows without room turns over.
The same check, made before that, waits still, and made then, is sent (`Wrapping.wait_exact`).
-/

namespace MoonCore

namespace Wrapping

variable {wrap : ℕ → ℕ} {limiter : RateLimiter} {kind : Kind} {weight now t for_ : ℕ}

/-- Before its end, a window that was rolled is not rolled again. -/
theorem rollWindow_of_lt {window : Window} (hspan : 0 < window.span)
    (ht : t < window.started + window.span) : rollWindow window t = window := by
  rw [rollWindow, if_neg]
  omega

/-- From its end on, it is empty. -/
theorem rollWindow_used_of_le {window : Window} (ht : window.started + window.span ≤ t) :
    (rollWindow window t).used = 0 := by
  rw [rollWindow, if_pos]
  omega

/-- A window that has to wait holds out until its end. -/
theorem waitFor_of_lt {window : Window} {cost : ℕ} (hspan : 0 < window.span)
    (hwait : waitFor wrap window cost now = for_) (hfor : for_ ≠ 0) (hnow : now ≤ t)
    (ht : t < now + for_) : waitFor wrap (rollWindow window t) cost t ≠ 0 := by
  rw [waitFor] at hwait
  split_ifs at hwait with hfits
  · exact absurd hwait.symm hfor
  · have hend : t < window.started + window.span := by omega
    rw [rollWindow_of_lt hspan hend, waitFor, if_neg hfits]
    omega

/-- A window that has to wait for no longer has room when the wait is over. -/
theorem waitFor_at_end {window : Window} {cost : ℕ} (hwrap : ∀ n, wrap n ≤ n)
    (hspan : 0 < window.span) (hcost : cost ≤ window.limit)
    (hwait : waitFor wrap window cost now ≤ for_) :
    waitFor wrap (rollWindow window (now + for_)) cost (now + for_) = 0 := by
  rcases Nat.lt_or_ge (now + for_) (window.started + window.span) with hlt | hge
  · -- the window is as it was, and did not have to wait
    rw [rollWindow_of_lt hspan hlt]
    rw [waitFor] at hwait ⊢
    split_ifs at hwait ⊢ with hfits
    · rfl
    · omega
  · have hle : wrap (0 + cost) ≤ window.limit := by
      rw [Nat.zero_add]
      exact (hwrap cost).trans hcost
    rw [waitFor, rollWindow_used_of_le hge, rollWindow_limit, if_pos hle]

/-- The windows a request draws on, with what it costs each. -/
def draws (wrap : ℕ → ℕ) (limiter : RateLimiter) (kind : Kind) (weight : ℕ) :
    List (String × Window × ℕ) :=
  ("weight", limiter.weight, withHeadroom wrap limiter weight) ::
    match kind with
    | .request => []
    | .order =>
      [("orders_10s", limiter.orders10s, 1), ("orders_1m", limiter.orders1m, 1),
        ("orders_1d", limiter.orders1d, 1)]

theorem budgets_eq_map (wrap : ℕ → ℕ) (limiter : RateLimiter) (kind : Kind) (weight now : ℕ) :
    budgets wrap limiter kind weight now =
      (draws wrap limiter kind weight).map fun draw =>
        (draw.1, waitFor wrap draw.2.1 draw.2.2 now) := by
  cases kind <;> rfl

theorem draws_roll (wrap : ℕ → ℕ) (limiter : RateLimiter) (kind : Kind) (weight t : ℕ) :
    draws wrap (roll limiter t) kind weight =
      (draws wrap limiter kind weight).map fun draw =>
        (draw.1, rollWindow draw.2.1 t, draw.2.2) := by
  have hcost : withHeadroom wrap (roll limiter t) weight = withHeadroom wrap limiter weight := by
    rw [withHeadroom, withHeadroom, headroom_roll]
  cases kind <;> simp only [draws, hcost, List.map_cons, List.map_nil] <;> rfl

/-- A check by the windows it draws on: it is sent if none of them has to wait, and waits for the
longest of them otherwise. -/
theorem check_cases_draws (wrap : ℕ → ℕ) (limiter : RateLimiter) (kind : Kind) (weight now : ℕ) :
    ((∀ draw ∈ draws wrap (roll limiter now) kind weight,
        waitFor wrap draw.2.1 draw.2.2 now = 0) ∧
      (check wrap limiter kind weight now).2 = .send) ∨
    ∃ for_ budget, for_ ≠ 0 ∧
      (∃ draw ∈ draws wrap (roll limiter now) kind weight,
        waitFor wrap draw.2.1 draw.2.2 now = for_) ∧
      (∀ draw ∈ draws wrap (roll limiter now) kind weight,
        waitFor wrap draw.2.1 draw.2.2 now ≤ for_) ∧
      check wrap limiter kind weight now =
        ({ roll limiter now with deferred := limiter.deferred + 1 }, .wait for_ budget) := by
  have hcases := check_cases wrap limiter kind weight now
  rw [budgets_eq_map] at hcases
  rcases hcases with ⟨hroom, hcheck⟩ | ⟨for_, budget, hmem, hfor, hle, hcheck⟩
  · exact .inl ⟨fun draw hdraw => hroom _ (List.mem_map_of_mem hdraw), by rw [hcheck]⟩
  · obtain ⟨draw, hdraw, heq⟩ := List.mem_map.mp hmem
    exact .inr ⟨for_, budget, hfor, ⟨draw, hdraw, (Prod.mk.inj heq).2⟩,
      fun draw hdraw => hle _ (List.mem_map_of_mem hdraw), hcheck⟩

/-- The wait of a limiter whose windows have a span each, and limits that the request does not
exceed by itself. -/
theorem check_after_wait {budget : String} (hwrap : ∀ n, wrap n ≤ n)
    (hdraws : ∀ draw ∈ draws wrap (roll limiter now) kind weight,
      0 < draw.2.1.span ∧ draw.2.2 ≤ draw.2.1.limit)
    (hwait : (check wrap limiter kind weight now).2 = .wait for_ budget) :
    (∀ t, now ≤ t → t < now + for_ → ∃ later other,
      (check wrap (check wrap limiter kind weight now).1 kind weight t).2 = .wait later other) ∧
    (check wrap (check wrap limiter kind weight now).1 kind weight (now + for_)).2 = .send := by
  rcases check_cases_draws wrap limiter kind weight now with
    ⟨-, hsend⟩ | ⟨for', budget', hfor, ⟨longest, hmem, hlongest⟩, hle, hcheck⟩
  · rw [hsend] at hwait
    cases hwait
  rw [hcheck] at hwait ⊢
  obtain ⟨rfl, rfl⟩ := Decision.wait.inj hwait
  generalize hwaited : ({ roll limiter now with deferred := limiter.deferred + 1 } : RateLimiter) =
    waited
  have hrolled : ∀ t, draws wrap (roll waited t) kind weight =
      (draws wrap (roll limiter now) kind weight).map fun draw =>
        (draw.1, rollWindow draw.2.1 t, draw.2.2) := by
    intro t
    rw [draws_roll, ← hwaited]
    rfl
  constructor
  · -- the window that was waited for has no room before its end
    intro t hnow ht
    rcases check_cases_draws wrap waited kind weight t with
      ⟨hroom, -⟩ | ⟨later, other, -, -, -, hlater⟩
    · rw [hrolled, List.forall_mem_map] at hroom
      exact absurd (hroom longest hmem)
        (waitFor_of_lt (hdraws longest hmem).1 hlongest hfor hnow ht)
    · exact ⟨later, other, by rw [hlater]⟩
  · -- every window has room at the end of the longest wait
    rcases check_cases_draws wrap waited kind weight (now + for') with
      ⟨-, hsend⟩ | ⟨later, other, hlater, ⟨draw, hdraw, hdraws'⟩, -, -⟩
    · exact hsend
    · rw [hrolled] at hdraw
      obtain ⟨before, hbefore, rfl⟩ := List.mem_map.mp hdraw
      obtain ⟨hspan, hcost⟩ := hdraws before hbefore
      rw [waitFor_at_end hwrap hspan hcost (hle before hbefore)] at hdraws'
      exact absurd hdraws'.symm hlater

/-- With the settings of a profile, a request whose weight with the headroom is within the limit,
and an order where every window of them allows one, exceed no limit by themselves. -/
theorem draws_within {profile : Profile} {origin : ℕ}
    (hsettings : settings limiter = settings (.new profile origin))
    (hweight : weight + profile.headroom ≤ profile.weightPerMinute)
    (h10s : 1 ≤ profile.ordersPer10s) (h1m : 1 ≤ profile.ordersPerMinute)
    (h1d : 1 ≤ profile.ordersPerDay) :
    ∀ draw ∈ draws u32 limiter kind weight, 0 < draw.2.1.span ∧ draw.2.2 ≤ draw.2.1.limit := by
  simp only [settings, RateLimiter.windows, RateLimiter.new, Window.new, List.map_cons,
    List.map_nil, Prod.mk.injEq, List.cons.injEq] at hsettings
  obtain ⟨⟨⟨hlimit, hspan⟩, ⟨hlimit10s, hspan10s⟩, ⟨hlimit1m, hspan1m⟩, ⟨hlimit1d, hspan1d⟩, -⟩,
    hpermille⟩ := hsettings
  have hcost : withHeadroom u32 limiter weight ≤ limiter.weight.limit := by
    have hheadroom : headroom u32 limiter ≤ profile.headroom := by
      rw [headroom, Profile.headroom, hlimit, hpermille]
      exact max_le_max (Nat.div_le_div_right (u32_le _)) le_rfl
    calc withHeadroom u32 limiter weight ≤ weight + headroom u32 limiter := u32_le _
      _ ≤ weight + profile.headroom := Nat.add_le_add_left hheadroom _
      _ ≤ profile.weightPerMinute := hweight
      _ = limiter.weight.limit := hlimit.symm
  have hminute : 0 < 60 * second := by decide
  have hten : 0 < 10 * second := by decide
  have hday : 0 < 86400 * second := by decide
  intro draw hdraw
  cases kind with
  | request =>
    rw [draws, List.mem_singleton] at hdraw
    rw [hdraw]
    exact ⟨by rwa [hspan], hcost⟩
  | order =>
    simp only [draws, List.mem_cons, List.not_mem_nil, or_false] at hdraw
    rcases hdraw with rfl | rfl | rfl | rfl
    · exact ⟨by rwa [hspan], hcost⟩
    · exact ⟨by rwa [hspan10s], by rwa [hlimit10s]⟩
    · exact ⟨by rwa [hspan1m], by rwa [hlimit1m]⟩
    · exact ⟨by rwa [hspan1d], by rwa [hlimit1d]⟩

/-- **The announced wait is exact.** After any run, if a check has to wait for a time, and its
weight with the headroom is within the limit, and an order is allowed in every window of them, then
until that time is over the same check has to wait, and when it is over, it is sent. -/
theorem wait_exact (profile : Profile) (origin : ℕ) (inquiries : List Inquiry) {kind : Kind}
    {weight now for_ : ℕ} {budget : String}
    (hwait : (check u32 ((machine u32).run (.new profile origin) inquiries) kind weight now).2 =
      .wait for_ budget)
    (hweight : weight + profile.headroom ≤ profile.weightPerMinute)
    (h10s : 1 ≤ profile.ordersPer10s) (h1m : 1 ≤ profile.ordersPerMinute)
    (h1d : 1 ≤ profile.ordersPerDay) :
    let limiter :=
      (check u32 ((machine u32).run (.new profile origin) inquiries) kind weight now).1
    (∀ t, now ≤ t → t < now + for_ →
      ∃ later other, (check u32 limiter kind weight t).2 = .wait later other) ∧
    (check u32 limiter kind weight (now + for_)).2 = .send := by
  have hsettings := settings_run u32 (.new profile origin) inquiries
  generalize (machine u32).run (.new profile origin) inquiries = limiter at hsettings hwait ⊢
  refine check_after_wait u32_le (fun draw hdraw => ?_) hwait
  rw [draws_roll] at hdraw
  obtain ⟨before, hbefore, rfl⟩ := List.mem_map.mp hdraw
  dsimp only
  rw [rollWindow_span, rollWindow_limit]
  exact draws_within hsettings hweight h10s h1m h1d before hbefore

/-- The spot limiter told of a spent minute at its first instant: a request has to wait for the
minute, and not longer. -/
theorem wait_exact_spent :
    let limiter := (check u32 ((machine u32).run (.new .binanceSpot 0) [.observeUsed 6000 0])
      .request 1 0).1
    (∀ t, 0 ≤ t → t < 0 + 60000000000 →
      ∃ later other, (check u32 limiter .request 1 t).2 = .wait later other) ∧
    (check u32 limiter .request 1 (0 + 60000000000)).2 = .send := by
  have hwait : (check u32 ((machine u32).run (.new .binanceSpot 0) [.observeUsed 6000 0])
      .request 1 0).2 = .wait 60000000000 "weight" := by decide
  exact wait_exact .binanceSpot 0 [.observeUsed 6000 0] hwait (by decide) (by decide) (by decide)
    (by decide)

end Wrapping

end MoonCore
