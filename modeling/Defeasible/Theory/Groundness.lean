/-! A record of whether something is ground, made when it is first asked for. -/

namespace Defeasible

inductive Groundness
  | unknown
  | ground
  | nonGround
  deriving DecidableEq, Inhabited

namespace Groundness

def ofBool : Bool → Groundness
  | true => .ground
  | false => .nonGround

def settle (g : Groundness) (compute : Unit → Bool) : Bool × Groundness :=
  match g with
  | .ground => (true, .ground)
  | .nonGround => (false, .nonGround)
  | .unknown =>
    let isGround := compute ()
    (isGround, ofBool isGround)

end Groundness

end Defeasible
