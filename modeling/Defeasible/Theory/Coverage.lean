import Defeasible.DefaultRule
import Defeasible.StableSort
import Defeasible.Theory.Drowning

/-! The rules that a theory covers: it implies their consequent, given their antecedent. The rules are
shared out among workers, and a worker stops at its first failure. -/

namespace Defeasible.Theory

/-- Whether a consequent has a chance: it cannot fail, or one of its literals occurs among those of the
theory or in the antecedent. -/
def mayImply (literals : LiteralSet) (r : DefaultRule) : Bool :=
  r.consequent.isTautology || r.consequent.toList.any fun l => literals.has l || r.antecedent.has l

def coveredShare (t : Theory) (literals : LiteralSet) : List DefaultRule → Query (List DefaultRule)
  | [] => return []
  | r :: rs => do
    let covered ← if mayImply literals r then t.implies r.evidence r.consequent else pure false
    let others ← coveredShare t literals rs
    return if covered then r :: others else others

def shares (size : Nat) : (fuel : Nat) → List DefaultRule → List (List DefaultRule)
  | 0, _ => []
  | _ + 1, [] => []
  | fuel + 1, r :: rs => (r :: rs).take size :: shares size fuel ((r :: rs).drop size)

def attemptAll {α : Type} : List (Query α) → Query (List (Except Error α))
  | [] => return []
  | q :: qs => fun s =>
    let (result, s) := q.run s
    match (attemptAll qs).run s with
    | (.ok results, s) => (.ok (result :: results), s)
    | (.error e, s) => (.error e, s)

/-- The first failure among results; a fault comes before any other. -/
def failure? {α : Type} (results : List (Except Error α)) : Option Error :=
  let errors := results.filterMap fun
    | .error e => some e
    | .ok _ => none
  (errors.find? fun
    | .fault _ => true
    | _ => false).or errors.head?

def covered (t : Theory) (examples : List DefaultRule) : Query (List DefaultRule) := do
  let t := (← t.withoutDrowned).settle
  if examples.isEmpty then return []
  let workers := max t.settings.workers.value 1
  let size := (examples.length + workers - 1) / workers
  let literals := OrdSet.ofList (t.clauses.flatMap Clause.toList)
  let results ← attemptAll ((shares size examples.length examples).map (t.coveredShare literals))
  match failure? results with
  | some e => throw e
  | none =>
    let found := results.flatMap fun
      | .ok rs => rs
      | .error _ => []
    return stableSort (fun r s => (compare r.text s.text).isLE) found

end Defeasible.Theory
