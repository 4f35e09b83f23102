import ContextFree.Chain.Elimination
import ContextFree.Language.Saturation
import ContextFree.Nullable.Variants
import ContextFree.Rewriting.Search
import ContextFree.Session.Request

/-!
# ContextFree — sessions

A session keeps a current grammar, the one it started from, and the nullable names and pairs that
were computed last. Requests are answered one after the other; one that is refused changes nothing.

Main statement: `run_of_refused` — after a refusal the session is the one there was before.
-/

namespace ContextFree

/-- What a session keeps between requests. -/
structure Session where
  start : Grammar
  current : Grammar
  nullable : SortedSet Name
  pairs : SortedSet Arc

namespace Session

def begin (g : Grammar) : Session :=
  ⟨g, g, ∅, ∅⟩

def namesOr (session : Session) (names : Option (SortedSet Name)) : SortedSet Name :=
  names.getD session.nullable

def pairsFrom (session : Session) : PairSource → SortedSet Arc
  | .given pairs => pairs
  | .working => session.pairs
  | .diagonal => Arc.diagonal session.current.generators

def rules (session : Session) : List Rule :=
  session.current.rules.toList

/-- An answer that is a new current grammar. -/
def replace (session : Session) (g : Grammar) : Answer × Session :=
  (.grammar g, { session with current := g })

def keepNullable (session : Session) (names : SortedSet Name) : Answer × Session :=
  (.names names, { session with nullable := names })

def keepPairs (session : Session) (pairs : SortedSet Arc) : Answer × Session :=
  (.pairs pairs, { session with pairs })

/-- The answer of a search, if it was settled. -/
def settled (levels : Nat) : Option Bool → Logged Refusal Answer
  | some value => pure (.truth value)
  | none => Logged.fail (.unsettled levels)

/-- The forms in ascending order, repetitions kept. -/
def sortForms (forms : List Form) : List Form :=
  forms.mergeSort fun a b => (compare a b).isLE

/-- Answers a request and says what the session is afterwards. A search without a limit goes down
so many levels. -/
def perform (levels : Nat) (session : Session) : Request → Logged Refusal (Answer × Session)
  | .describe => answer (.grammarReport session.current.report)
  | .rulesFor head => answer (.rules (session.current.rulesFor head))
  | .mentioned rules => answer (.names (Rule.mentioned rules))
  | .withRules rules => pure (session.replace (session.current.withRules rules))
  | .equal none => answer (.truth (session.current = session.start))
  | .equal (some other) => do
    let other ← (Logged.ofExcept other.load).mapError .build
    answer (.truth (session.current = other))
  | .symbols form => answer (.formReport (Form.report form))
  | .rule rule => answer (.ruleReport rule.report)
  | .iterate start steps bound => do
    let step := fun (k : Nat) current => steps.getD (k - 1) current
    let rounds ← (Closure.iterate start step bound).mapError .closure
    answer (.nameSets rounds.toList)
  | .isNullable form names => answer (.truth (Form.isNullable (session.namesOr names) form))
  | .addNullables names =>
    pure (session.keepNullable (session.current.addNullables (session.namesOr names)))
  | .computeNullable => do
    let names ← session.current.computeNullable.mapError .closure
    return session.keepNullable names
  | .nullableTrace => do
    let rows ← session.current.nullableTrace.mapError .closure
    answer (.nullableRows rows)
  | .variants form names =>
    answer (.forms (Form.variants (session.namesOr names) form).toList)
  | .eliminateNullable names => do
    let g ← session.current.eliminateNullable (session.namesOr names)
    return session.replace g
  | .eliminateNullableRules => do
    let g ← session.current.eliminateNullableRules.mapError .closure
    return session.replace g
  | .extendPairs source chains => do
    let pairs := session.pairsFrom (source.getD .working)
    match chains with
    | none => return session.keepPairs (session.current.extendPairs pairs)
    | some chains =>
      let pairs ← (Logged.ofExcept (Rule.extendPairs chains pairs)).mapError .chain
      return session.keepPairs pairs
  | .computeUnitPairs => do
    let pairs ← session.current.computeUnitPairs.mapError .pairClosure
    return session.keepPairs pairs
  | .unitPairTable => do
    let table ← session.current.unitPairTable.mapError .pairClosure
    answer (.pairTable table)
  | .eliminateUnitRules none => do
    let g ← session.current.eliminateUnitRules.mapError .pairClosure
    return session.replace g
  | .eliminateUnitRules (some source) => do
    let g ← session.current.eliminateChains (session.pairsFrom source)
    return session.replace g
  | .rewrite form => answer (.forms (sortForms (Rewriting.rewrite session.rules form)))
  | .derives source target limit => do
    let found ← settled levels (Rewriting.derives? session.rules source target limit levels)
    answer found
  | .derivesEmpty head limit => do
    let found ← settled levels
      (Rewriting.derives? session.rules [.nonterminal head] [] limit levels)
    answer found
  | .derivedWords limit => answer (.wordTable (session.current.derivedWords limit))
  | .language limit => answer (.words (session.current.language limit))
  | .chainGraph => answer (.chainGraph session.current.chainGraph)
  | .drawing source =>
    -- Every node gets a position, wherever that is.
    let pairs := source.map session.pairsFrom
    answer (.drawing (session.current.chainGraph.drawing ChainGraph.nodes pairs))
where
  answer (a : Answer) : Logged Refusal (Answer × Session) :=
    pure (a, session)

/-- The answer to a request, with what was reported, and the session afterwards. -/
def run (levels : Nat) (session : Session) (request : Request) :
    Logged Refusal Answer × Session :=
  let result := perform levels session request
  match result.outcome with
  | .ok (answer, session) => (⟨result.events, .ok answer⟩, session)
  | .error refusal => (⟨result.events, .error refusal⟩, session)

/-- The answers to requests made one after the other. -/
def runAll (levels : Nat) : Session → List Request → List (Logged Refusal Answer)
  | _, [] => []
  | session, request :: rest =>
    let (answer, session) := run levels session request
    answer :: runAll levels session rest

/-- A request that is refused changes nothing. -/
theorem run_of_refused {levels : Nat} {session : Session} {request : Request} {refusal : Refusal}
    (h : (perform levels session request).outcome = .error refusal) :
    (run levels session request).2 = session := by
  simp only [run, h]

end Session

end ContextFree
