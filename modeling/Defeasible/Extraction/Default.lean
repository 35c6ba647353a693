import Defeasible.Closure
import Defeasible.Extraction.Bound

/-! The default rules that a theory implies, by the length of their antecedents. A rule is kept if its
consequent does not follow already from the closure of the shorter rules. -/

namespace Defeasible.Theory

def simpleDefaults (t : Theory) (c : Clause) : List Literal → Query (List DefaultRule)
  | [] => return []
  | l :: ls => do
    let evidence := OrdSet.ofList (c.without l).negated
    let holds ← t.impliesLiteral evidence l
    let others ← simpleDefaults t c ls
    return if holds then ⟨⟨evidence⟩, .unit l⟩ :: others else others

def impliedLiterals (t : Theory) (evidence : Evidence) : (atoms : List Literal) → Query LiteralSet
  | [] => return ∅
  | atom :: atoms => do
    if evidence.has atom || evidence.has atom.negate then impliedLiterals t evidence atoms
    else if ← t.impliesLiteral evidence atom then
      return (← impliedLiterals t evidence atoms).insert atom
    else if ← t.impliesLiteral evidence atom.negate then
      return (← impliedLiterals t evidence atoms).insert atom.negate
    else impliedLiterals t evidence atoms

def candidates (b : Bound) (vocabulary : LiteralSet) : OrdSet LiteralSet :=
  .ofList ((vocabulary.toList.flatMap fun atom => [atom, atom.negate]).filterMap fun l =>
    if !b.upper.has l && !b.lower.has l.negate then some (b.lower.insert l) else none)

def storeEach (t : Theory) (vocabulary : LiteralSet) : List LiteralSet → BoundTable → Query BoundTable
  | [], bounds => return bounds
  | candidate :: cs, bounds => do
    if bounds.inside candidate then storeEach t vocabulary cs bounds
    else
      let implied ← t.impliedLiterals candidate vocabulary.toList
      storeEach t vocabulary cs (bounds.store candidate (implied ∪ candidate))

def storeCandidates (t : Theory) (vocabulary : LiteralSet) (previous : List Bound) (bounds : BoundTable) :
    Query BoundTable :=
  previous.foldlM (fun bounds b => t.storeEach vocabulary (candidates b vocabulary).toList bounds) bounds

def defaultOf (lower : LiteralSet) (l : Literal) : DefaultRule := ⟨⟨lower⟩, .unit l⟩

def closureStrata (settings : Settings) (rules : OrdSet DefaultRule) : Query (List ClauseSet) := do
  return ((← rationalClosure settings rules).map Theory.strata).getD []

def news (t : Theory) (hardRules : ClauseSet) (shorter : List ClauseSet) (b : Bound) :
    Query (List Literal) := do
  let known := { (ofStrata shorter).withHardRules hardRules with settings := t.settings, cached := t.cached }
  let known := known.removeFalsified b.lower
  b.implied.toList.filterM fun l => do return !(← known.impliesLiteral b.lower l)

def extractFrom (t : Theory) (hardRules : ClauseSet) (vocabulary : LiteralSet) :
    (lengths : Nat) → (length : Nat) → BoundTable → OrdSet DefaultRule → Query (OrdSet DefaultRule)
  | 0, _, _, defaults => return defaults
  | lengths + 1, length, bounds, defaults => do
    let shorter ← closureStrata t.settings defaults
    let bounds ← t.storeCandidates vocabulary (bounds.ofLength (length - 1)) bounds
    let found ← (bounds.ofLength length).mapM fun b => do
      return (← t.news hardRules shorter b).map (defaultOf b.lower)
    extractFrom t hardRules vocabulary lengths (length + 1) bounds (defaults ∪ .ofList found.flatten)

/-- The default rules of a theory with antecedents up to a length, that do not follow from shorter ones
and the hard rules. -/
def extract (t : Theory) (hardRules : ClauseSet) (maxLength : Nat) : Query (OrdSet DefaultRule) := do
  let t := t.settle
  let implied ← t.impliedLiterals ∅ t.atoms.toList
  let bounds := ({} : BoundTable).store ∅ implied
  extractFrom t hardRules t.atoms maxLength 1 bounds (.ofList (implied.toList.map (defaultOf ∅)))

end Defeasible.Theory
