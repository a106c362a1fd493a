import LogosChain.Base.Except
import Mathlib.Data.List.Induction

/-!
# Runs of a labelled system

An invariant that each step keeps holds at the end of a run (`Run.invariant`), and so does one that
also reads the labels shown so far (`Run.history`).
-/

namespace Base

variable {σ ι : Type}

/-- A run from one state to another that shows the labels, oldest first. -/
inductive Run (step : σ → ι → σ → Prop) : σ → List ι → σ → Prop where
  | nil (s : σ) : Run step s [] s
  | snoc {s t u : σ} {ls : List ι} {l : ι} : Run step s ls t → step t l u → Run step s (ls ++ [l]) u

namespace Run

variable {step : σ → ι → σ → Prop} {s t u : σ} {ls ls' : List ι}

theorem append (h₁ : Run step s ls t) (h₂ : Run step t ls' u) : Run step s (ls ++ ls') u := by
  induction h₂ with
  | nil => simpa using h₁
  | snoc _ hs ih => rw [← List.append_assoc]; exact .snoc ih hs

theorem of_append (h : Run step s (ls ++ ls') u) : ∃ t, Run step s ls t ∧ Run step t ls' u := by
  induction ls' using List.reverseRecOn generalizing u with
  | nil => exact ⟨u, by simpa using h, .nil u⟩
  | append_singleton ls' l ih =>
    rw [← List.append_assoc] at h
    generalize hall : ls ++ ls' ++ [l] = all at h
    cases h with
    | nil => simp at hall
    | snoc hrun hstep =>
      obtain ⟨rfl, heq⟩ := List.append_inj' hall rfl
      cases heq
      obtain ⟨t, h1, h2⟩ := ih hrun
      exact ⟨t, h1, .snoc h2 hstep⟩

theorem of_nil (h : Run step s [] t) : t = s := by
  generalize hnil : [] = ls at h
  cases h with
  | nil => rfl
  | snoc => simp at hnil

theorem of_cons {l : ι} (h : Run step s (l :: ls) u) : ∃ t, step s l t ∧ Run step t ls u := by
  obtain ⟨t, h1, h2⟩ := of_append (show Run step s ([l] ++ ls) u from h)
  refine ⟨t, ?_, h2⟩
  generalize hone : [l] = ls' at h1
  cases h1 with
  | nil => cases hone
  | snoc hrun hstep =>
    obtain ⟨rfl, heq⟩ := List.append_inj' (show [] ++ [l] = _ from hone) rfl
    cases heq
    exact of_nil hrun ▸ hstep

/-- What holds at the start and each step keeps holds at the end. -/
theorem invariant {I : σ → Prop} (h : Run step s ls t) (h0 : I s)
    (hstep : ∀ s l t, I s → step s l t → I t) : I t := by
  induction h with
  | nil => exact h0
  | snoc _ hs ih => exact hstep _ _ _ ih hs

/-- The same for a property of the state and of the labels so far. -/
theorem history {I : List ι → σ → Prop} (h : Run step s ls t) (h0 : I [] s)
    (hstep : ∀ ls s l t, I ls s → step s l t → I (ls ++ [l]) t) : I ls t := by
  induction h with
  | nil => exact h0
  | snoc _ hs ih => exact hstep _ _ _ _ ih hs

theorem foldl {α : Type} {f : σ → α → σ} {label : α → ι} (h : ∀ s a, step s (label a) (f s a))
    (s : σ) (l : List α) : Run step s (l.map label) (l.foldl f s) := by
  induction l generalizing s with
  | nil => exact .nil s
  | cons a l ih => exact (Run.snoc (.nil s) (h s a)).append (ih (f s a))

theorem of_foldlM {ε : Type} {f : σ → ι → Except ε σ} (h : ls.foldlM f s = .ok t) :
    Run (fun s l t => f s l = .ok t) s ls t := by
  induction ls generalizing s with
  | nil =>
    rw [foldlM_nil_ok h]
    exact .nil s
  | cons l ls ih =>
    obtain ⟨u, hfirst, hrest⟩ := foldlM_cons_ok h
    exact (Run.snoc (.nil s) hfirst).append (ih hrest)

theorem mono {step' : σ → ι → σ → Prop} (h : Run step s ls t)
    (hsub : ∀ s l t, step s l t → step' s l t) : Run step' s ls t := by
  induction h with
  | nil => exact .nil _
  | snoc _ hs ih => exact .snoc ih (hsub _ _ _ hs)

end Run

variable {κ : Type} {step : σ → ι → σ → Prop} {f : σ → κ → Option (ι × σ)}

/-- Takes inputs as long as each of them gives a step. -/
def exec (f : σ → κ → Option (ι × σ)) : σ → List κ → Option (List ι × σ)
  | s, [] => some ([], s)
  | s, i :: is => (f s i).bind fun r => (exec f r.2 is).map fun q => (r.1 :: q.1, q.2)

/-- What inputs lead to is a run, if each of them gives a step. -/
theorem exec_run (hf : ∀ s i l t, f s i = some (l, t) → step s l t) {s t : σ} {is : List κ}
    {ls : List ι} (h : exec f s is = some (ls, t)) : Run step s ls t := by
  induction is generalizing s ls with
  | nil => cases h; exact .nil _
  | cons i is ih =>
    obtain ⟨⟨l, u⟩, h1, h2⟩ := Option.bind_eq_some_iff.mp h
    obtain ⟨⟨ls', t'⟩, h3, h4⟩ := Option.map_eq_some_iff.mp h2
    cases h4
    exact (Run.snoc (.nil s) (hf _ _ _ _ h1)).append (ih h3)

/-- Running inputs gives a run, with what is computed from it. -/
theorem exists_run_of_exec {α : Type} (hf : ∀ s i l t, f s i = some (l, t) → step s l t) {s : σ}
    {l : List κ} (g : List ι × σ → α) {a : α} (h : (exec f s l).map g = some a) :
    ∃ ls t, Run step s ls t ∧ g (ls, t) = a := by grind [exec_run, Option.map_eq_some_iff]

end Base
