import RelLogic.Term.Printer

/-!
# Events

What a computation does is recorded as events, in the order in which they happen. A traced computation
(`Traced`) keeps the events of its past, the latest first, and may have no result.
-/

namespace RelLogic

/-- What can be recorded. -/
inductive Event
  | created (x : Var)
  | extended (x : Var) (t : Term)
  | clash (u v : Term)
  /-- A search from the empty substitution ended with this many solutions. -/
  | solutions (count : Nat)
  deriving DecidableEq

/-- The line that records an event: its weight, then a sentence. -/
def Event.render : Event → String
  | .created x => "TRACE new logic variable " ++ x.label ++ "#" ++ toString x.id
  | .extended x t => "TRACE extend " ++ x.label ++ " := " ++ t.render
  | .clash u v => "TRACE unify clash: " ++ u.render ++ " =/= " ++ v.render
  | .solutions n => "DEBUG run produced " ++ toString n ++ " solution(s)"

/-- A computation that records events, the latest first, and may have no result. -/
abbrev Traced := StateT (List Event) Option

/-- Records one event. -/
def Traced.record (e : Event) : Traced Unit :=
  fun past => some ((), e :: past)

end RelLogic
