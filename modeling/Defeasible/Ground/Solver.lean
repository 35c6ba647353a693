import Defeasible.Ground.Numbering
import Defeasible.Search.Optimizer

/-! Models of ground clauses. A solver numbers the literals of the clauses it is made from, and takes
further clauses only over these. The search for models and the optimizer are made when they are first
needed and kept; clauses given later wait until the next use of each. -/

namespace Defeasible

open Search

abbrev Witness := LiteralSet

/-- The time in nanoseconds since the start of a solve, at each look at it. -/
abbrev Stopwatch := Nat → Nat

/-- The least limit that ends at no time of a clock: a clock counts seconds in 63 bits, and has run for
a minute when a solve starts. -/
def Stopwatch.horizon : Nat := (Nat.pow 2 63 - 60) * 1000000000

def Stopwatch.deadline (watch : Stopwatch) : Option Nat → Except Fault Deadline
  | none => .ok .never
  | some limit =>
    if limit < horizon then .ok fun check => limit < watch check else .error .overflow

inductive OnDemand (α : Type)
  | unbuilt
  | built (engine : α) (pending : List (List Lit))

def OnDemand.push {α : Type} (clause : List Lit) : OnDemand α → OnDemand α
  | .unbuilt => .unbuilt
  | .built engine pending => .built engine (pending ++ [clause])

structure Solver where
  settings : Settings
  numbering : Numbering
  hard : Array (List Lit)
  soft : List (List Lit × Nat)
  search : OnDemand State := .unbuilt
  optimizer : OnDemand Optimizer := .unbuilt

namespace Solver

def registerSoft (numbering : Numbering) : List (Clause × Nat) → Except EngineError Numbering
  | [] => .ok numbering
  | (clause, weight) :: rest =>
    if weight = 0 then .error .zeroWeight
    else match numbering.registerClause clause with
      | (.error e, _) => .error e
      | (.ok (), numbering) => registerSoft numbering rest

def new (hard : List Clause) (soft : List (Clause × Nat)) (settings : Settings) :
    Except EngineError Solver := do
  let numbering ← (← registerSoft {} soft).registerClauses hard
  let hard ← hard.mapM numbering.clause
  let soft ← soft.mapM fun (clause, weight) => do return (← numbering.clause clause, weight)
  return { settings, numbering, hard := hard.toArray, soft }

def addClause (s : Solver) (c : Clause) : Except EngineError Solver :=
  match s.numbering.clause c with
  | .error e => .error e
  | .ok clause => .ok { s with
    hard := s.hard.push clause
    search := s.search.push clause
    optimizer := s.optimizer.push clause }

def currentSearch (s : Solver) : Except Fault State :=
  match s.search with
  | .unbuilt => ((State.new s.settings).newAtoms s.numbering.size).addClauses s.hard.toList
  | .built state pending => state.addClauses pending

def currentOptimizer (s : Solver) : Except Fault Optimizer :=
  match s.optimizer with
  | .unbuilt => Optimizer.new s.settings s.numbering.size s.hard.toList s.soft
  | .built optimizer pending => optimizer.addAllHard pending

def witness (numbering : Numbering) (model : List Lit) : Witness :=
  .ofList ((model.filter (·.polarity)).filterMap fun l => numbering.literal? l.atom)

/-- A model of the hard clauses that makes the assumptions true, if there is one. The assumptions are
forgotten afterwards. -/
def solveAssuming (s : Solver) (assumptions : List Literal) (watch : Stopwatch) :
    Except Error (Option Witness) × Solver :=
  match s.numbering.lits assumptions with
  | .error e => (.error (.engine e), s)
  | .ok assumptions => match s.currentSearch with
    | .error e => (.error (.fault e), s)
    | .ok state => match watch.deadline s.settings.solveLimit? with
      | .error e => (.error (.fault e), s)
      | .ok deadline =>
        let (report, state) := state.solve assumptions deadline
        let answer := match report with
          | .error e => .error e
          | .ok .satisfiable => .ok (some (witness s.numbering state.valuation))
          | .ok .unsatisfiable => .ok none
          | .ok .assumptionConflict => .ok none
          | .ok .timeUp => .error (.engine .timeUp)
        (answer, { s with search := .built state [] })

def solve (s : Solver) (watch : Stopwatch) : Except Error (Option Witness) × Solver :=
  s.solveAssuming [] watch

/-- A model of the hard clauses that falsifies soft clauses of least total weight. There is none also
if the time is up. -/
def optimize (s : Solver) (watch : Stopwatch) : Except Error (Option Witness) × Solver :=
  match s.currentOptimizer with
  | .error e => (.error (.fault e), s)
  | .ok optimizer => match watch.deadline s.settings.optimisationLimit? with
    | .error e => (.error (.fault e), s)
    | .ok deadline =>
      let (optimum, optimizer) := optimizer.optimize deadline
      let answer := match optimum with
        | .error e => .error e
        | .ok (.optimal best) => .ok (some (witness s.numbering best.model))
        | .ok .infeasible => .ok none
        | .ok .timeUp => .ok none
      (answer, { s with optimizer := .built optimizer [] })

end Solver

end Defeasible
