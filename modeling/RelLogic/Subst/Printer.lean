import RelLogic.Subst.Basic
import RelLogic.Term.Printer

/-!
# The written form of substitutions

The bindings stand between braces in the order in which they were made, each as the label of the variable, a
colon and the term as it was given.
-/

namespace RelLogic

/-- The written form of a binding. -/
def renderBinding (b : Var × Term) : String :=
  b.1.label ++ ": " ++ b.2.render

/-- The written form of a substitution. -/
def Subst.render (s : Subst) : String :=
  "\x7b" ++ ", ".intercalate (s.bindings.reverse.map renderBinding) ++ "\x7d"

end RelLogic
