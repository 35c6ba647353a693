import Defeasible.Search.Solve
import Defeasible.StableSort

/-! Valuations that satisfy hard clauses and falsify soft clauses of least total weight. Each soft
clause is joined with a relaxation atom of its own, so that the clause has to hold only where its atom
is false. The search goes through the soft clauses, heaviest first: it first assumes that the clause
holds, and then gives it up at the price of its weight. -/

namespace Defeasible.Search

structure SoftClause where
  literals : List Lit
  weight : Nat
  relaxation : Atom
  deriving DecidableEq

structure Optimizer where
  state : State
  /-- The atoms up to this one are not relaxation atoms. -/
  atomCount : Nat
  soft : List SoftClause

structure Costed where
  model : List Lit
  cost : Nat
  deriving DecidableEq

inductive Optimum
  | optimal (best : Costed)
  | infeasible
  | timeUp
  deriving DecidableEq

namespace Optimizer

def addSoft (state : State) : List (List Lit × Nat) → Except Fault (List SoftClause × State)
  | [] => .ok ([], state)
  | (literals, weight) :: rest =>
    let (relaxation, state) := state.newAtom
    match state.addClause (literals ++ [⟨relaxation, true⟩]) with
    | .error e => .error e
    | .ok state => match addSoft state rest with
      | .error e => .error e
      | .ok (soft, state) => .ok (⟨literals, weight, relaxation⟩ :: soft, state)

def new (settings : Settings) (atomCount : Nat) (hard : List (List Lit))
    (soft : List (List Lit × Nat)) : Except Fault Optimizer :=
  match ((State.new settings).newAtoms atomCount).addClauses hard with
  | .error e => .error e
  | .ok state => match addSoft state soft with
    | .error e => .error e
    | .ok (soft, state) => .ok ⟨state, atomCount, stableSort (fun a b => b.weight ≤ a.weight) soft⟩

def addHard (o : Optimizer) (clause : List Lit) : Except Fault Optimizer :=
  match o.state.addClause clause with
  | .error e => .error e
  | .ok state => .ok { o with state }

def addAllHard (o : Optimizer) : List (List Lit) → Except Fault Optimizer
  | [] => .ok o
  | clause :: clauses => match o.addHard clause with
    | .error e => .error e
    | .ok o => addAllHard o clauses

def costOf (soft : List SoftClause) (state : State) : Nat :=
  let falsified := soft.filter fun s => !s.literals.any fun l => state.litValue? l = some true
  falsified.foldr (fun s cost => s.weight + cost) 0

def modelOf (atomCount : Nat) (state : State) : List Lit :=
  state.valuation.filter fun l => l.atom ≤ atomCount

def improve (atomCount : Nat) (soft : List SoftClause) (state : State) (best : Option Costed) :
    Option Costed :=
  let cost := costOf soft state
  match best with
  | some found => if cost < found.cost then some ⟨modelOf atomCount state, cost⟩ else best
  | none => some ⟨modelOf atomCount state, cost⟩

/-- Searches the soft clauses that are left, where `committed` is the weight given up already. The
answer tells whether the time is up. -/
def branch (atomCount : Nat) (soft : List SoftClause) (deadline : Deadline) :
    (rest : List SoftClause) → State → (assumptions : List Lit) → (committed : Nat) →
    (best : Option Costed) → Except Error Bool × State × Option Costed
  | rest, state, assumptions, committed, best =>
    if best.any fun found => found.cost ≤ committed then (.ok false, state, best)
    else match state.solve assumptions deadline with
      | (.error e, state) => (.error e, state, best)
      | (.ok .timeUp, state) => (.ok true, state, best)
      | (.ok .unsatisfiable, state) => (.ok false, state, best)
      | (.ok .assumptionConflict, state) => (.ok false, state, best)
      | (.ok .satisfiable, state) =>
        let cost := costOf soft state
        let best := improve atomCount soft state best
        if cost = committed then (.ok false, state, best)
        else match rest with
          | [] => (.ok false, state, best)
          | s :: rest =>
            match branch atomCount soft deadline rest state (assumptions ++ [⟨s.relaxation, false⟩])
                committed best with
            | (.error e, state, best) => (.error e, state, best)
            | (.ok true, state, best) => (.ok true, state, best)
            | (.ok false, state, best) =>
              branch atomCount soft deadline rest state assumptions (committed + s.weight) best

def optimize (o : Optimizer) (deadline : Deadline) : Except Error Optimum × Optimizer :=
  match branch o.atomCount o.soft deadline o.soft o.state [] 0 none with
  | (.error e, state, _) => (.error e, { o with state })
  | (.ok true, state, _) => (.ok .timeUp, { o with state })
  | (.ok false, state, none) => (.ok .infeasible, { o with state })
  | (.ok false, state, some best) => (.ok (.optimal best), { o with state })

end Optimizer

end Defeasible.Search
