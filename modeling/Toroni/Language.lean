import Mathlib.Init

/-! The two implementations, and what their handlers catch. -/
namespace Toroni

inductive Language
  | cpp
  | java
  deriving DecidableEq

inductive Thrown
  | exception
  | error
  deriving DecidableEq

/-- `catch (...)` catches everything, `catch (Exception e)` no `Error`. -/
def Language.catches : Language → Thrown → Bool
  | .cpp, _ => true
  | .java, thrown => thrown == .exception

end Toroni
