import ContextFree.Chain.Drawing
import ContextFree.Chain.UnitPairs
import ContextFree.Grammar.Samples
import ContextFree.Grammar.Text
import ContextFree.Language.Table
import ContextFree.Nullable.Names

/-!
# ContextFree — requests and answers

What can be asked of a session with a current grammar, what it answers, and why it may refuse.
-/

namespace ContextFree

inductive GrammarSource
  | sample (sample : Sample)
  | plain (goal : Name) (terminals : SortedSet Name) (rules : List PlainRule)
  /-- A grammar as it stands, with nothing checked and nothing added. -/
  | given (grammar : Grammar)

def GrammarSource.load : GrammarSource → Except BuildError Grammar
  | .sample s => s.build
  | .plain goal terminals rules => Grammar.build goal terminals rules
  | .given grammar => .ok grammar

inductive PairSource
  | given (pairs : SortedSet Arc)
  /-- The pairs that the session keeps. -/
  | working
  | diagonal

/-- What can be asked. Where nullable names or pairs are left out, those that the session keeps
are meant, unless the request says otherwise. -/
inductive Request
  | describe
  | rulesFor (head : Name)
  | mentioned (rules : List Rule)
  | withRules (rules : SortedSet Rule)
  /-- Compares with another grammar, or with the one the session started from. -/
  | equal (other : Option GrammarSource)
  | symbols (form : Form)
  | rule (rule : Rule)
  /-- Closes a set under a step that gives these sets in turn, and then changes nothing. -/
  | iterate (start : SortedSet Name) (steps : List (SortedSet Name)) (bound : Int)
  | isNullable (form : Form) (names : Option (SortedSet Name))
  | addNullables (names : Option (SortedSet Name))
  | computeNullable
  | nullableTrace
  | variants (form : Form) (names : Option (SortedSet Name))
  | eliminateNullable (names : Option (SortedSet Name))
  | eliminateNullableRules
  /-- Extends pairs by one round, with the grammar's chain rules if none are given. -/
  | extendPairs (pairs : Option PairSource) (chains : Option (List Rule))
  | computeUnitPairs
  | unitPairTable
  /-- Replaces chain rules along the pairs, by default the grammar's unit pairs. -/
  | eliminateUnitRules (pairs : Option PairSource)
  | rewrite (form : Form)
  | derives (source target : Form) (limit : Int)
  | derivesEmpty (head : Name) (limit : Int)
  | derivedWords (limit : Int)
  | language (limit : Int)
  | chainGraph
  /-- Draws the chain graph, with pairs on top if any are given. -/
  | drawing (pairs : Option PairSource)

/-- A rule with its text and its shape. -/
structure RuleReport where
  rule : Rule
  text : String
  isEmpty : Bool
  isChain : Bool

def Rule.report (r : Rule) : RuleReport :=
  ⟨r, r.render, r.isEmpty, r.isChain⟩

/-- A grammar with all that can be read off it. -/
structure GrammarReport where
  grammar : Grammar
  text : String
  generators : SortedSet Name
  terminals : SortedSet Name
  chainRules : SortedSet Rule
  rules : List RuleReport

def Grammar.report (g : Grammar) : GrammarReport :=
  ⟨g, g.render, g.generators, g.terminals, g.chainRules, g.rules.toList.map Rule.report⟩

/-- The symbols of a form compared with each other. -/
structure FormReport where
  texts : List String
  /-- For each symbol, which symbols of the form it equals. -/
  equal : List (List Bool)
  distinct : Nat
  terminalCount : Nat

def Form.report (form : Form) : FormReport where
  texts := form.map Symbol.render
  equal := form.map fun s => form.map fun t => s = t
  distinct := (SortedSet.ofList form).size
  terminalCount := Form.terminalCount form

inductive Answer
  | truth (value : Bool)
  | names (names : SortedSet Name)
  | nameSets (sets : List (SortedSet Name))
  | rules (rules : SortedSet Rule)
  | grammar (grammar : Grammar)
  | grammarReport (report : GrammarReport)
  | ruleReport (report : RuleReport)
  | formReport (report : FormReport)
  | nullableRows (rows : SortedSet NullableRow)
  | forms (forms : List Form)
  | pairs (pairs : SortedSet Arc)
  | pairTable (table : PairTable)
  | words (words : SortedSet Word)
  | wordTable (table : WordTable)
  | chainGraph (graph : ChainGraph)
  | drawing (calls : List DrawingCall)

inductive Refusal
  | build (error : BuildError)
  | closure (fault : Fault Name)
  | pairClosure (fault : Fault Arc)
  | chain (error : ChainError)
  /-- A search without a limit was cut off before it was settled. -/
  | unsettled (levels : Nat)

/-- The complaint to whoever made the request. Lost elements are listed in ascending order, so that
one refusal always reads the same. -/
def Refusal.message : Refusal → String
  | .build error => error.message
  | .closure fault => fault.message Name.quoted SortedSet.toList
  | .pairClosure fault =>
    fault.message (fun p => "(" ++ p.source.quoted ++ ", " ++ p.target.quoted ++ ")")
      SortedSet.toList
  | .chain error => error.message
  | .unsettled levels => "The search was not settled within " ++ toString levels ++ " levels"

end ContextFree
