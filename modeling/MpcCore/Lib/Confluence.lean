import Mathlib.Data.List.Count
import Mathlib.Tactic.Common

/-! # Systems whose events commute

A system with deterministic events (`step`), of which any two different ones that can happen in a
state can happen in either order, with one result (`Commutes`).

* `Commutes.residuals`: two runs from one state meet again when each makes up for the events of the
  other that it has not had.
* `Commutes.unique`: two runs that cannot be continued end in one state, after the same events.
* `Commutes.completes`: when one run cannot be continued, every run from its start is at most as long
  and can be continued to its end. -/

section

variable {α ε : Type} (step : α → ε → Option α)

/-- The given events one after the other. -/
def runEvents (s : α) : List ε → Option α
  | [] => some s
  | ev :: evs => (step s ev).bind fun s' => runEvents s' evs

/-- No event can happen. -/
def Final (s : α) : Prop := ∀ ev, step s ev = none

/-- Two different events that can happen can happen in either order, with one result. -/
def Commutes : Prop :=
  ∀ s a b ev ev', ev ≠ ev' → step s ev = some a → step s ev' = some b →
    ∃ c, step a ev' = some c ∧ step b ev = some c

variable {step} {s a b : α} {ev : ε} {evs evs' : List ε}

theorem runEvents_cons_eq_some : runEvents step s (ev :: evs) = some b ↔
    ∃ a, step s ev = some a ∧ runEvents step a evs = some b := by
  rw [runEvents, Option.bind_eq_some_iff]

theorem Final.run_eq (h : Final step s) (hrun : runEvents step s evs = some a) : evs = [] ∧ a = s := by
  cases evs with
  | nil => exact ⟨rfl, (Option.some.inj hrun).symm⟩
  | cons ev evs =>
      obtain ⟨s', hs, -⟩ := runEvents_cons_eq_some.mp hrun
      rw [h ev] at hs
      cases hs

variable [DecidableEq ε]

theorem Commutes.strip (hc : Commutes step) (hrun : runEvents step s evs = some a) (hs : step s ev = some b) :
    ∃ c, runEvents step b (evs.erase ev) = some c ∧ runEvents step a ([ev].diff evs) = some c := by
  induction evs generalizing s b with
  | nil =>
      obtain rfl := Option.some.inj hrun
      exact ⟨b, rfl, runEvents_cons_eq_some.mpr ⟨b, hs, rfl⟩⟩
  | cons e evs ih =>
      obtain ⟨s₁, h1, hrest⟩ := runEvents_cons_eq_some.mp hrun
      by_cases he : e = ev
      · subst he
        obtain rfl := Option.some.inj (h1.symm.trans hs)
        refine ⟨a, ?_, ?_⟩
        · rw [List.erase_cons_head]
          exact hrest
        · rw [List.diff_cons, List.erase_cons_head, List.nil_diff]
          rfl
      · obtain ⟨d, hd, hd'⟩ := hc s s₁ b e ev he h1 hs
        obtain ⟨c, hc₁, hc₂⟩ := ih hrest hd
        refine ⟨c, ?_, ?_⟩
        · rw [List.erase_cons_tail (by simpa using he)]
          exact runEvents_cons_eq_some.mpr ⟨d, hd', hc₁⟩
        · rw [List.diff_cons, List.erase_of_not_mem (by simpa using he)]
          exact hc₂

/-- **Two runs from one state** meet again, each after the events of the other that it has not had. -/
theorem Commutes.residuals (hc : Commutes step) (ha : runEvents step s evs = some a)
    (hb : runEvents step s evs' = some b) :
    ∃ c, runEvents step a (evs'.diff evs) = some c ∧ runEvents step b (evs.diff evs') = some c := by
  induction evs' generalizing s evs a with
  | nil =>
      obtain rfl := Option.some.inj hb
      refine ⟨a, ?_, ha⟩
      rw [List.nil_diff]
      rfl
  | cons ev evs' ih =>
      obtain ⟨s₁, h1, hrest⟩ := runEvents_cons_eq_some.mp hb
      obtain ⟨a', ha₁, ha₂⟩ := hc.strip ha h1
      obtain ⟨c, hc₁, hc₂⟩ := ih ha₁ hrest
      refine ⟨c, ?_, ?_⟩
      · by_cases hmem : ev ∈ evs
        · rw [List.cons_diff_of_mem hmem] at ha₂ ⊢
          rw [List.nil_diff] at ha₂
          obtain rfl := Option.some.inj ha₂
          exact hc₁
        · rw [List.cons_diff_of_not_mem hmem] at ha₂ ⊢
          rw [List.erase_of_not_mem hmem] at hc₁
          obtain ⟨a'', hstep, hend⟩ := runEvents_cons_eq_some.mp ha₂
          rw [List.nil_diff] at hend
          obtain rfl := Option.some.inj hend
          exact runEvents_cons_eq_some.mpr ⟨a'', hstep, hc₁⟩
      · rw [List.diff_cons]
        exact hc₂

theorem Commutes.completes (hc : Commutes step) (ha : runEvents step s evs = some a) (hfinal : Final step a)
    (hb : runEvents step s evs' = some b) :
    runEvents step b (evs.diff evs') = some a ∧ (evs' ++ evs.diff evs').Perm evs := by
  obtain ⟨c, hac, hbc⟩ := hc.residuals ha hb
  obtain ⟨hnil, rfl⟩ := hfinal.run_eq hac
  refine ⟨hbc, List.subperm_append_diff_self_of_count_le fun e _ => ?_⟩
  have hcount := List.count_diff e evs' evs
  rw [hnil, List.count_nil] at hcount
  omega

/-- **Two runs that cannot be continued** end in one state, after the same events. -/
theorem Commutes.unique (hc : Commutes step) (ha : runEvents step s evs = some a) (hfinal : Final step a)
    (hb : runEvents step s evs' = some b) (hfinal' : Final step b) : a = b ∧ evs.Perm evs' := by
  obtain ⟨hrun, hperm⟩ := hc.completes ha hfinal hb
  obtain ⟨hnil, rfl⟩ := hfinal'.run_eq hrun
  rw [hnil, List.append_nil] at hperm
  exact ⟨rfl, hperm.symm⟩

end
