import MoonCore.Machine.Run

/-!
# One machine seen through another

A machine of many parties is often, for each party, a smaller machine that ignores what the
others do. `Machine.Tracks M N R own` says so of a relation between their states: an input of `M`
either is not the smaller machine's business (`own` is `none`) and keeps the relation, or moves
both. `Machine.Views M N view own` is the case where the relation is a function, the view.

Tracking turns runs into runs (`Tracks.run`, `Views.run`), so whatever is known of every run of `N`
is known of what each party sees. Nothing here is about a particular program.
-/

namespace MoonCore

namespace Machine

variable {σ τ α β ω ρ : Type*} {M : Machine σ α ω} {N : Machine τ β ρ} {view : σ → τ}
  {own : α → Option β}

/-- Every step of `M` is, up to the relation, a step of `N` or nothing. -/
structure Tracks (M : Machine σ α ω) (N : Machine τ β ρ) (R : σ → τ → Prop) (own : α → Option β) :
    Prop where
  mine : ∀ s t a b, R s t → own a = some b → R (M.next s a) (N.next t b)
  others : ∀ s t a, R s t → own a = none → R (M.next s a) t

/-- Related states stay related along a run of `M` and the run of `N` on its own inputs. -/
theorem Tracks.run {R : σ → τ → Prop} (h : Tracks M N R own) {s : σ} {t : τ} (hst : R s t)
    (as : List α) : R (M.run s as) (N.run t (as.filterMap own)) := by
  induction as generalizing s t with
  | nil => exact hst
  | cons a as ih =>
    cases hown : own a with
    | none =>
      rw [List.filterMap_cons_none hown]
      exact ih (h.others s t a hst hown)
    | some b =>
      rw [List.filterMap_cons_some hown]
      exact ih (h.mine s t a b hst hown)

/-- Every step of `M` is, in the view, a step of `N` or nothing. -/
structure Views (M : Machine σ α ω) (N : Machine τ β ρ) (view : σ → τ) (own : α → Option β) :
    Prop where
  mine : ∀ s a b, own a = some b → view (M.next s a) = N.next (view s) b
  others : ∀ s a, own a = none → view (M.next s a) = view s

/-- A view tracks. -/
theorem Views.tracks (h : Views M N view own) : Tracks M N (fun s t => view s = t) own where
  mine s _ a b hst hown := hst ▸ h.mine s a b hown
  others s _ a hst hown := (h.others s a hown).trans hst

/-- A run of `M` is, in the view, the run of `N` on the viewer's own inputs. -/
theorem Views.run (h : Views M N view own) (s : σ) (as : List α) :
    view (M.run s as) = N.run (view s) (as.filterMap own) :=
  h.tracks.run rfl as

end Machine

end MoonCore
