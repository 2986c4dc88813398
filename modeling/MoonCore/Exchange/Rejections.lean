import MoonCore.Exchange.Waits

/-!
# What a rejection by the venue does

The venue refuses a request until the end of its own hint, or of the minute it counts in. The
limiter takes the whole weight window as spent, and moves its end to the hint's, if there is one. It
honours the rejection as long as the window is the present one, or is moved; no later hint brings
the end forward; and no sum of a check overflows (`Wrapping.rejection_honoured`). A window that is
out of date turns over at the very next check, and a hint that ends earlier replaces the one before
(`Wrapping.sends_of_outdated`, `Wrapping.sends_at_hintEnd`).
-/

namespace MoonCore

namespace Wrapping

variable {limiter : RateLimiter} {retryAfter : Option ℕ} {kind : Kind} {weight now t until_ : ℕ}

/-- The end of the span of a window that contains an instant. -/
def windowEnd (window : Window) (now : ℕ) : ℕ :=
  window.started + window.span * ((now - window.started) / window.span + 1)

/-- Until when a rejection forbids to send. -/
def refusedUntil (limiter : RateLimiter) (now : ℕ) : Option ℕ → ℕ
  | some after => now + after
  | none => windowEnd limiter.weight now

/-- Where a hint puts the end of a window of this span. -/
def hintEnd (span now after : ℕ) : ℕ := if span ≤ now + after then now + after else now + span

/-- The rejection has a hint, or finds the weight window containing its instant. -/
def Current (limiter : RateLimiter) (now : ℕ) (retryAfter : Option ℕ) : Prop :=
  retryAfter = none → now < limiter.weight.started + limiter.weight.span

/-- A check whose sums are in range, or a hint that does not end before the rejection. -/
def Keeps (until_ : ℕ) (limiter : RateLimiter) : Inquiry → Prop
  | .check _ weight _ => limiter.weight.used + (weight + headroom u32 limiter) < 2 ^ 32
  | .observeRejection (some after) now => until_ ≤ hintEnd limiter.weight.span now after
  | _ => True

/-- The weight window is spent until an instant. -/
structure Spent (until_ : ℕ) (limiter : RateLimiter) : Prop where
  span_pos : 0 < limiter.weight.span
  limit_le : limiter.weight.limit ≤ limiter.weight.used
  end_ge : until_ ≤ limiter.weight.started + limiter.weight.span

/-- What a rejection does to the weight window. -/
theorem observeRejection_weight (limiter : RateLimiter) (retryAfter : Option ℕ) (now : ℕ) :
    (limiter.observeRejection retryAfter now).weight.used = limiter.weight.limit ∧
      (limiter.observeRejection retryAfter now).weight.limit = limiter.weight.limit ∧
      (limiter.observeRejection retryAfter now).weight.span = limiter.weight.span ∧
      (limiter.observeRejection retryAfter now).weight.started + limiter.weight.span =
        match retryAfter with
        | none => limiter.weight.started + limiter.weight.span
        | some after => hintEnd limiter.weight.span now after := by
  cases retryAfter with
  | none => exact ⟨rfl, rfl, rfl, rfl⟩
  | some after =>
    refine ⟨rfl, rfl, rfl, ?_⟩
    simp only [RateLimiter.observeRejection, hintEnd]
    split_ifs <;> omega

theorem le_hintEnd (span now after : ℕ) : now + after ≤ hintEnd span now after := by
  rw [hintEnd]
  split_ifs <;> omega

/-- The window that contains an instant ends where it is to end. -/
theorem windowEnd_eq {window : Window} (hspan : 0 < window.span)
    (hnow : now < window.started + window.span) :
    windowEnd window now = window.started + window.span := by
  rw [windowEnd, Nat.div_eq_of_lt (by omega), Nat.zero_add, Nat.mul_one]

/-- A rejection spends the weight window until its end. -/
theorem spent_of_current (hspan : 0 < limiter.weight.span)
    (hcurrent : Current limiter now retryAfter) :
    Spent (refusedUntil limiter now retryAfter) (limiter.observeRejection retryAfter now) := by
  obtain ⟨hused, hlimit, hspan', hend⟩ := observeRejection_weight limiter retryAfter now
  refine ⟨by rwa [hspan'], by rw [hused, hlimit], ?_⟩
  rw [hspan', hend]
  cases retryAfter with
  | none => exact (windowEnd_eq hspan (hcurrent rfl)).le
  | some after => exact le_hintEnd _ _ _

/-- A spent window lets no request out before its end. -/
theorem Spent.check (h : Spent until_ limiter) (ht : t < until_)
    (hkeeps : Keeps until_ limiter (.check kind weight t)) :
    ∃ for_ budget, Wrapping.check u32 limiter kind weight t =
      ({ roll limiter t with deferred := limiter.deferred + 1 }, .wait for_ budget) := by
  rcases check_cases u32 limiter kind weight t with ⟨hroom, -⟩ | ⟨for_, budget, -, -, -, hcheck⟩
  · have hwait := hroom _ List.mem_cons_self
    have hsame : (roll limiter t).weight = limiter.weight :=
      rollWindow_of_lt h.span_pos (ht.trans_le h.end_ge)
    have hcost : withHeadroom u32 (roll limiter t) weight = weight + headroom u32 limiter := by
      rw [withHeadroom, headroom_roll, u32_of_lt]
      exact lt_of_le_of_lt (Nat.le_add_left _ _) hkeeps
    have hpos : 1 ≤ headroom u32 limiter := le_max_right _ _
    have hfull := h.limit_le
    have hend := h.end_ge
    -- what is asked for comes on top of a whole limit
    rw [hsame, hcost, waitFor, u32_of_lt hkeeps, if_neg (by omega)] at hwait
    omega
  · exact ⟨for_, budget, hcheck⟩

theorem Spent.of_weight {other : RateLimiter} (h : Spent until_ limiter)
    (hweight : other.weight = limiter.weight) : Spent until_ other := by
  refine ⟨?_, ?_, ?_⟩
  · rw [hweight]
    exact h.span_pos
  · rw [hweight]
    exact h.limit_le
  · rw [hweight]
    exact h.end_ge

/-- **Every call** before the end of a rejection that keeps it leaves the window spent until
then. -/
theorem Spent.next (h : Spent until_ limiter) {inquiry : Inquiry} (ht : inquiry.now < until_)
    (hkeeps : Keeps until_ limiter inquiry) :
    Spent until_ ((machine u32).next limiter inquiry) := by
  have hsame : ∀ u, u < until_ → rollWindow limiter.weight u = limiter.weight :=
    fun u hu => rollWindow_of_lt h.span_pos (hu.trans_le h.end_ge)
  cases inquiry with
  | check kind weight now =>
    have hnow : now < until_ := ht
    obtain ⟨for_, budget, hcheck⟩ := h.check hnow hkeeps
    rw [next_check, hcheck]
    exact h.of_weight (hsame now ht)
  | observeUsed venueUsed now =>
    have hweight : (roll limiter now).weight = limiter.weight := hsame now ht
    rw [next_observeUsed, observeUsed]
    dsimp only
    split_ifs with hmore
    · rw [hweight] at hmore ⊢
      exact ⟨h.span_pos, h.limit_le.trans hmore.le, h.end_ge⟩
    · exact h.of_weight hweight
  | observeRejection retryAfter now =>
    obtain ⟨hused, hlimit, hspan, hend⟩ := observeRejection_weight limiter retryAfter now
    rw [next_observeRejection]
    refine ⟨by rw [hspan]; exact h.span_pos, by rw [hused, hlimit], ?_⟩
    rw [hspan, hend]
    cases retryAfter with
    | none => exact h.end_ge
    | some after => exact hkeeps

theorem Spent.out_ne_send (h : Spent until_ limiter) {inquiry : Inquiry}
    (ht : inquiry.now < until_) (hkeeps : Keeps until_ limiter inquiry) :
    (machine u32).out limiter inquiry ≠ some .send := by
  cases inquiry with
  | check kind weight now =>
    have hnow : now < until_ := ht
    obtain ⟨for_, budget, hcheck⟩ := h.check hnow hkeeps
    rw [out_check, hcheck]
    simp
  | observeUsed venueUsed now => exact (Option.some_ne_none Decision.send).symm
  | observeRejection retryAfter now => exact (Option.some_ne_none Decision.send).symm

/-- From a spent window on, nothing is sent before its end. -/
theorem Spent.along (h : Spent until_ limiter) {inquiries : List Inquiry}
    (htimes : (inquiries.map Inquiry.now).Pairwise (· ≤ ·))
    (hkeeps : (machine u32).Along
      (fun limiter inquiry => inquiry.now < until_ → Keeps until_ limiter inquiry)
      limiter inquiries) :
    (machine u32).Along (fun limiter inquiry => inquiry.now < until_ →
      (machine u32).out limiter inquiry ≠ some .send) limiter inquiries := by
  induction inquiries generalizing limiter with
  | nil => trivial
  | cons inquiry inquiries ih =>
    rw [List.map_cons, List.pairwise_cons] at htimes
    by_cases hnow : inquiry.now < until_
    · have hkeep := hkeeps.1 hnow
      exact ⟨fun _ => h.out_ne_send hnow hkeep, ih (h.next hnow hkeep) htimes.2 hkeeps.2⟩
    · -- the rejection is over, and stays so
      refine ⟨fun hbefore => absurd hbefore hnow, ?_⟩
      have hover : ∀ later ∈ inquiries, ¬ later.now < until_ := fun later hlater =>
        not_lt.mpr ((not_lt.mp hnow).trans (htimes.1 _ (List.mem_map_of_mem hlater)))
      exact (Machine.along_of_forall_mem hover _).mono fun _ _ hnot hbefore => absurd hbefore hnot

/-- **A rejection is honoured** in every run after it at instants that do not decrease: nothing is
sent before its end, if it has a hint or finds the weight window containing its instant, and
everything asked and told before its end keeps it. -/
theorem rejection_honoured (profile : Profile) (origin : ℕ) (past : List Inquiry)
    (retryAfter : Option ℕ) (now : ℕ) (inquiries : List Inquiry)
    (htimes : (inquiries.map Inquiry.now).Pairwise (· ≤ ·))
    (hcurrent : Current ((machine u32).run (.new profile origin) past) now retryAfter)
    (hkeeps : (machine u32).Along
      (fun limiter inquiry =>
        inquiry.now < refusedUntil ((machine u32).run (.new profile origin) past) now retryAfter →
          Keeps (refusedUntil ((machine u32).run (.new profile origin) past) now retryAfter)
            limiter inquiry)
      ((machine u32).run (.new profile origin) (past ++ [.observeRejection retryAfter now]))
      inquiries) :
    (machine u32).Along
      (fun limiter inquiry =>
        inquiry.now < refusedUntil ((machine u32).run (.new profile origin) past) now retryAfter →
          (machine u32).out limiter inquiry ≠ some .send)
      ((machine u32).run (.new profile origin) (past ++ [.observeRejection retryAfter now]))
      inquiries := by
  have hspan : 0 < ((machine u32).run (.new profile origin) past).weight.span := by
    rw [span_eq_of_settings (settings_run u32 (.new profile origin) past)]
    change 0 < 60 * second
    decide
  have hspent := spent_of_current hspan hcurrent
  rw [Machine.run_concat] at hkeeps ⊢
  have hnext : Spent _ ((machine u32).next _ (.observeRejection retryAfter now)) := hspent
  exact hnext.along htimes hkeeps

/-- A rejection without a hint, in the first minute, and checks before and after its end. -/
theorem rejection_honoured_minute :
    (machine u32).Along
      (fun limiter inquiry =>
        inquiry.now < refusedUntil (.new .binanceSpot 0) (30 * second) none →
          (machine u32).out limiter inquiry ≠ some .send)
      ((machine u32).run (.new .binanceSpot 0) ([] ++ [.observeRejection none (30 * second)]))
      [.check .request 1 (59 * second), .check .request 1 (60 * second)] := by
  refine rejection_honoured .binanceSpot 0 [] none (30 * second)
    [.check .request 1 (59 * second), .check .request 1 (60 * second)] (by decide)
    (fun _ => by decide) ⟨fun _ => ?_, fun hbefore => absurd hbefore (by decide), trivial⟩
  rw [Keeps]
  decide

/-! ### Rejections that are not honoured -/

/-- A request that fits an empty window goes out when the window is out of date. -/
theorem check_of_outdated (hend : limiter.weight.started + limiter.weight.span ≤ t)
    (hfits : weight + headroom u32 limiter ≤ limiter.weight.limit) :
    (check u32 limiter .request weight t).2 = .send := by
  rcases check_cases u32 limiter .request weight t with
    ⟨-, hcheck⟩ | ⟨for_, budget, hmem, hfor, -, -⟩
  · rw [hcheck]
  · obtain ⟨-, rfl⟩ := Prod.mk.inj (List.mem_singleton.mp hmem)
    have hroom : u32 ((rollWindow limiter.weight t).used +
        withHeadroom u32 (roll limiter t) weight) ≤ (rollWindow limiter.weight t).limit := by
      rw [rollWindow_used_of_le hend, rollWindow_limit, withHeadroom, headroom_roll, Nat.zero_add]
      exact (u32_le _).trans ((u32_le _).trans hfits)
    exact absurd (if_pos hroom) hfor

/-- A rejection without a hint that finds the weight window out of date is forgotten at once. -/
theorem sends_of_outdated (hspan : 0 < limiter.weight.span) (hcurrent : ¬ Current limiter now none)
    (hfits : weight + headroom u32 limiter ≤ limiter.weight.limit) :
    now < refusedUntil limiter now none ∧
      (check u32 (limiter.observeRejection none now) .request weight now).2 = .send := by
  have hend : limiter.weight.started + limiter.weight.span ≤ now := by
    simpa [Current] using hcurrent
  refine ⟨?_, check_of_outdated hend hfits⟩
  have hmod := Nat.mod_lt (now - limiter.weight.started) hspan
  have hdiv := Nat.div_add_mod (now - limiter.weight.started) limiter.weight.span
  rw [refusedUntil, windowEnd, Nat.mul_succ]
  omega

/-- A hint replaces the end of the window, whatever an earlier rejection said. -/
theorem sends_at_hintEnd {after : ℕ}
    (hfits : weight + headroom u32 limiter ≤ limiter.weight.limit) :
    (check u32 (limiter.observeRejection (some after) now) .request weight
      (hintEnd limiter.weight.span now after)).2 = .send := by
  obtain ⟨-, hlimit, hspan, hend⟩ := observeRejection_weight limiter (some after) now
  refine check_of_outdated (by rw [hspan, hend]) ?_
  rw [hlimit]
  exact hfits

/-- A rejection without a hint a second after the minute is over, and a request at the same
instant; a hint of ten minutes, a hint of one second a second later, and a request when that is
over. Both requests go out. -/
theorem rejection_not_honoured :
    (61 * second < refusedUntil (.new .binanceSpot 0) (61 * second) none ∧
      (machine u32).out ((machine u32).run (.new .binanceSpot 0)
        [.observeRejection none (61 * second)]) (.check .request 1 (61 * second)) =
          some .send) ∧
    (1002 * second < refusedUntil (.new .binanceSpot (1000 * second)) (1000 * second)
        (some (600 * second)) ∧
      (machine u32).out ((machine u32).run (.new .binanceSpot (1000 * second))
        [.observeRejection (some (600 * second)) (1000 * second),
          .observeRejection (some second) (1001 * second)])
        (.check .request 1 (1002 * second)) = some .send) := by
  decide

end Wrapping

end MoonCore
