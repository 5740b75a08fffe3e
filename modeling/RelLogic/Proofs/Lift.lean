import RelLogic.Proofs.Correspondence
import RelLogic.Session.Call

/-!
# Searches in a larger monad

A goal can be searched in a monad that can do more than its primitive goals need: a session runs its goals as acts,
and an equation does nothing there but record events.  Such a search is the search in the smaller monad, lifted as a
whole (`Goal.search_map_lift`), so a session searches a goal over equations as it is searched on its own
(`Goal.search_ofEquations`).
-/

namespace RelLogic

namespace Goal

/-- If the primitive goals are run as before but in a larger monad, so is every goal over them. -/
theorem search_map_lift {m n : Type → Type} [Monad m] [Monad n] [LawfulMonad m] [LawfulMonad n] [MonadLiftT m n]
    [LawfulMonadLiftT m n] {σ π π' : Type} {f : π → π'} {run : π → Search m σ} {run' : π' → Search n σ}
    (hrun : ∀ p s, run' (f p) s = liftM (run p s)) (g : Goal π) (s : σ) :
    (g.map f).search run' s = liftM (g.search run s) := by
  have hprim : ∀ p s, (Correspondence.lift m n).Holds (List.map id) (run p s) (run' (f p) (id s)) := by
    intro p s
    simp [Correspondence.lift, hrun]
  simpa [Correspondence.lift] using (Correspondence.lift m n).search hprim g s

/-- A session searches a goal over equations, whatever its history, as the goal is searched on its own. -/
theorem search_ofEquations (history : History) (fuel : Nat) (g : Goal Equation) (s : Subst) :
    (g.ofEquations.search (Literal.search history fuel) s : Act (List Subst)) =
      liftM (g.search (Equation.search fuel) s) := by
  refine search_map_lift (fun e s => ?_) g s
  cases fuel <;> rfl

end Goal

end RelLogic
