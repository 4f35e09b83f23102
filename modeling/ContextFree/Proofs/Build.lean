import ContextFree.Grammar.Build
import ContextFree.Proofs.FirstFailing
import Mathlib.Logic.Basic

/-!
# ContextFree — what plain rules make

Plain rules make a grammar unless one of them is headed by a terminal; the first such rule is the
one complained about. Otherwise each name in a body has the role that the list of terminals gives
it, and nothing but the roles is added: forgetting them gives the plain rules back. A name that no
body uses has no role to get, so the terminals that are in use are as good a list as the one that
was given.

Main statements: `Grammar.build_eq_ok` (when a grammar is made, and which), `Grammar.build_eq_error`
(when none is made, and why), `Grammar.mem_rules_of_build` (the roles in its rules),
`Grammar.build_terminals` (the terminals in use make the same grammar) and
`Grammar.build_gives_roles_only`.
-/

namespace ContextFree

variable {terminals : SortedSet Name}

/-- A name becomes a terminal if it is listed as one. -/
theorem Symbol.classify_eq_terminal {v w : Name} :
    classify terminals v = .terminal w ↔ v = w ∧ w ∈ terminals := by
  unfold classify
  split <;> grind

theorem Symbol.classify_eq_nonterminal {v w : Name} :
    classify terminals v = .nonterminal w ↔ v = w ∧ w ∉ terminals := by
  unfold classify
  split <;> grind

/-- The role is all that is added to a name. -/
@[simp] theorem Symbol.name_classify (v : Name) : (classify terminals v).name = v := by
  unfold classify
  split <;> rfl

/-- The rule with the role of each name, whatever heads it. -/
def PlainRule.labelled (terminals : SortedSet Name) (r : PlainRule) : Rule :=
  ⟨r.head, r.body.map (Symbol.classify terminals)⟩

@[simp] theorem PlainRule.head_labelled (r : PlainRule) : (r.labelled terminals).head = r.head :=
  rfl

@[simp] theorem PlainRule.terminal_mem_labelled {r : PlainRule} {v : Name} :
    .terminal v ∈ (r.labelled terminals).body ↔ v ∈ r.body ∧ v ∈ terminals := by
  simp only [labelled, List.mem_map, Symbol.classify_eq_terminal, ← and_assoc, exists_and_right,
    exists_eq_right]

@[simp] theorem PlainRule.nonterminal_mem_labelled {r : PlainRule} {v : Name} :
    .nonterminal v ∈ (r.labelled terminals).body ↔ v ∈ r.body ∧ v ∉ terminals := by
  simp only [labelled, List.mem_map, Symbol.classify_eq_nonterminal, ← and_assoc, exists_and_right,
    exists_eq_right]

/-- Roles that were given can be forgotten. -/
@[simp] theorem PlainRule.plain_labelled (r : PlainRule) : (r.labelled terminals).plain = r := by
  simp [labelled, Rule.plain, Function.comp_def]

/-- The roles depend on which names of the body are terminals, and on no others. -/
theorem PlainRule.labelled_congr {terminals' : SortedSet Name} {r : PlainRule}
    (h : ∀ v ∈ r.body, v ∈ terminals ↔ v ∈ terminals') :
    r.labelled terminals = r.labelled terminals' := by
  have hbody : r.body.map (Symbol.classify terminals) =
      r.body.map (Symbol.classify terminals') := by
    refine List.map_congr_left fun v hv => ?_
    simp only [Symbol.classify, h v hv]
  rw [labelled, labelled, hbody]

/-- A rule is given its roles unless it is headed by a terminal. -/
theorem PlainRule.classify_eq_ok {r : PlainRule} {s : Rule} :
    r.classify terminals = .ok s ↔ r.head ∉ terminals ∧ r.labelled terminals = s := by
  unfold classify
  split
  · next h => exact ⟨fun heq => (nomatch heq), fun hs => absurd h hs.1⟩
  · next h => exact ⟨fun heq => ⟨h, Except.ok.inj heq⟩, fun hs => congrArg Except.ok hs.2⟩

/-- A rule that is headed by a terminal is refused, and the complaint names its head. -/
theorem PlainRule.classify_eq_error {r : PlainRule} {e : BuildError} :
    r.classify terminals = .error e ↔ r.head ∈ terminals ∧ e = .terminalHead r.head := by
  unfold classify
  split
  · next h =>
    exact ⟨fun heq => ⟨h, (Except.error.inj heq).symm⟩, fun hs => congrArg Except.error hs.2.symm⟩
  · next h => exact ⟨fun heq => (nomatch heq), fun hs => absurd hs.1 h⟩

/-- Rules are given roles if none of them is headed by a terminal. -/
theorem PlainRule.mapM_classify_eq_ok {rules : List PlainRule} {labelled : List Rule} :
    rules.mapM (classify terminals) = .ok labelled ↔
      (∀ r ∈ rules, r.head ∉ terminals) ∧ rules.map (PlainRule.labelled terminals) = labelled := by
  induction rules generalizing labelled with
  | nil =>
    rw [List.mapM_nil, List.map_nil]
    exact ⟨fun h => ⟨fun _ hr => absurd hr List.not_mem_nil, Except.ok.inj h⟩,
      fun h => congrArg Except.ok h.2⟩
  | cons r rules ih =>
    rw [List.mapM_cons, List.forall_mem_cons, List.map_cons]
    -- The rules are tried in turn, so either the first is refused or one of the others.
    cases hfirst : r.classify terminals with
    | error e =>
      refine ⟨fun h => (nomatch h), fun h => ?_⟩
      rw [classify_eq_ok.2 ⟨h.1.1, rfl⟩] at hfirst
      cases hfirst
    | ok s =>
      obtain ⟨hhead, rfl⟩ := classify_eq_ok.1 hfirst
      cases hrest : rules.mapM (classify terminals) with
      | error e =>
        refine ⟨fun h => (nomatch h), fun h => ?_⟩
        rw [ih.2 ⟨h.1.2, rfl⟩] at hrest
        cases hrest
      | ok rest =>
        obtain ⟨hheads, rfl⟩ := ih.1 hrest
        exact ⟨fun h => ⟨⟨hhead, hheads⟩, Except.ok.inj h⟩, fun h => congrArg Except.ok h.2⟩

namespace Grammar

variable {goal : Name} {rules : List PlainRule} {g : Grammar}

/-- A grammar is made if no rule is headed by a terminal. Its rules are the plain ones with their
roles, and its universe is the goal and what the rules mention. -/
theorem build_eq_ok : build goal terminals rules = .ok g ↔
    (∀ r ∈ rules, r.head ∉ terminals) ∧
      ⟨insert goal (Rule.mentioned (rules.map (PlainRule.labelled terminals))), goal,
        .ofList (rules.map (PlainRule.labelled terminals))⟩ = g := by
  unfold build
  cases hrules : rules.mapM (PlainRule.classify terminals) with
  | error e =>
    refine ⟨fun h => (nomatch h), fun h => ?_⟩
    rw [PlainRule.mapM_classify_eq_ok.2 ⟨h.1, rfl⟩] at hrules
    cases hrules
  | ok labelled =>
    obtain ⟨hheads, rfl⟩ := PlainRule.mapM_classify_eq_ok.1 hrules
    exact ⟨fun h => ⟨hheads, Except.ok.inj h⟩, fun h => congrArg Except.ok h.2⟩

/-- No grammar is made if some rule is headed by a terminal, and the complaint names the first one.
-/
theorem build_eq_error {e : BuildError} : build goal terminals rules = .error e ↔
    ∃ r, IsFirst (fun s => s.head ∈ terminals) rules r ∧ e = .terminalHead r.head := by
  unfold build
  rw [bind_pure_eq_error]
  exact mapM_eq_error fun _ _ => PlainRule.classify_eq_error

/-- The goal is the given one, also if it is listed as a terminal. -/
theorem goal_of_build (hbuild : build goal terminals rules = .ok g) : g.goal = goal := by
  obtain ⟨-, rfl⟩ := build_eq_ok.1 hbuild
  rfl

/-- The universe is the goal and the nonterminals of the rules. -/
theorem mem_nonterminals_of_build (hbuild : build goal terminals rules = .ok g) {v : Name} :
    v ∈ g.nonterminals ↔ v = goal ∨ ∃ r ∈ g.rules, r.head = v ∨ .nonterminal v ∈ r.body := by
  obtain ⟨-, rfl⟩ := build_eq_ok.1 hbuild
  simp only [SortedSet.mem_insert, Rule.mem_mentioned, SortedSet.mem_ofList]

/-- In the rules of a grammar that was made the roles are those that the list of terminals gives. -/
theorem mem_rules_of_build (hbuild : build goal terminals rules = .ok g) {r : Rule}
    (hr : r ∈ g.rules) : r.head ∉ terminals ∧
      ∀ v, (.nonterminal v ∈ r.body → v ∉ terminals) ∧ (.terminal v ∈ r.body → v ∈ terminals) := by
  obtain ⟨hheads, rfl⟩ := build_eq_ok.1 hbuild
  obtain ⟨plain, hplain, rfl⟩ := List.mem_map.1 (SortedSet.mem_ofList.1 hr)
  exact ⟨hheads plain hplain, fun v => ⟨fun hv => (PlainRule.nonterminal_mem_labelled.1 hv).2,
    fun hv => (PlainRule.terminal_mem_labelled.1 hv).2⟩⟩

theorem not_both_roles_of_build (hbuild : build goal terminals rules = .ok g) {v : Name}
    (hterminal : ∃ r ∈ g.rules, .terminal v ∈ r.body) :
    ¬ ∃ r ∈ g.rules, r.head = v ∨ .nonterminal v ∈ r.body := by
  obtain ⟨s, hs, hv⟩ := hterminal
  have hlisted : v ∈ terminals := ((mem_rules_of_build hbuild hs).2 v).2 hv
  rintro ⟨r, hr, hv⟩
  obtain ⟨hhead, hroles⟩ := mem_rules_of_build hbuild hr
  rcases hv with rfl | hv
  · exact hhead hlisted
  · exact (hroles v).1 hv hlisted

/-! ## Only the roles are new

Every part of a grammar that was made is described by the plain rules and the list of terminals. Two
plain inputs that agree on the description make the same grammar, so the rules may come in another
order, and the list may be cut down to the terminals in use. -/

/-- Forgetting the roles gives back the plain rules that the grammar was made from. -/
theorem exists_plain_eq_of_build (hbuild : build goal terminals rules = .ok g) {r : PlainRule} :
    (∃ s ∈ g.rules, s.plain = r) ↔ r ∈ rules := by
  obtain ⟨-, rfl⟩ := build_eq_ok.1 hbuild
  simp

/-- The universe in terms of the plain rules. -/
theorem mem_nonterminals_of_build_iff (hbuild : build goal terminals rules = .ok g) {v : Name} :
    v ∈ g.nonterminals ↔ v = goal ∨ ∃ r ∈ rules, v = r.head ∨ v ∈ r.body ∧ v ∉ terminals := by
  obtain ⟨-, rfl⟩ := build_eq_ok.1 hbuild
  simp [Rule.mem_mentioned, @eq_comm _ v]

/-- A name is in use as a terminal if it is listed as one and some body has it. -/
theorem mem_terminals_of_build_iff (hbuild : build goal terminals rules = .ok g) {v : Name} :
    v ∈ g.terminals ↔ v ∈ terminals ∧ ∃ r ∈ rules, v ∈ r.body := by
  obtain ⟨-, rfl⟩ := build_eq_ok.1 hbuild
  simp only [mem_terminals, SortedSet.mem_ofList, List.mem_map, exists_exists_and_eq_and,
    PlainRule.terminal_mem_labelled]
  constructor
  · rintro ⟨r, hr, hv, hlisted⟩
    exact ⟨hlisted, r, hr, hv⟩
  · rintro ⟨hlisted, r, hr, hv⟩
    exact ⟨r, hr, hv, hlisted⟩

/-- Neither the order of the plain rules nor how often they are repeated makes a difference. -/
theorem build_congr (hbuild : build goal terminals rules = .ok g) {rules' : List PlainRule}
    (h : ∀ r, r ∈ rules' ↔ r ∈ rules) : build goal terminals rules' = .ok g := by
  obtain ⟨hheads, rfl⟩ := build_eq_ok.1 hbuild
  refine build_eq_ok.2 ⟨fun r hr => hheads r ((h r).1 hr), ?_⟩
  have hrules : ∀ s, s ∈ rules'.map (PlainRule.labelled terminals) ↔
      s ∈ rules.map (PlainRule.labelled terminals) := by
    simp [h]
  congr 1
  · exact SortedSet.ext_mem fun v => by simp only [SortedSet.mem_insert, Rule.mem_mentioned, hrules]
  · exact SortedSet.ext_mem fun s => by rw [SortedSet.mem_ofList, SortedSet.mem_ofList, hrules]

/-- The terminals in use make the same grammar as the list that was given. -/
theorem build_terminals (hbuild : build goal terminals rules = .ok g) :
    build goal g.terminals rules = .ok g := by
  have hlisted : ∀ v, v ∈ g.terminals → v ∈ terminals :=
    fun v hv => ((mem_terminals_of_build_iff hbuild).1 hv).1
  have hroles : ∀ r ∈ rules, r.labelled g.terminals = r.labelled terminals := by
    refine fun r hr => PlainRule.labelled_congr fun v hv => ⟨hlisted v, fun hterminal => ?_⟩
    exact (mem_terminals_of_build_iff hbuild).2 ⟨hterminal, r, hr, hv⟩
  obtain ⟨hheads, hmade⟩ := build_eq_ok.1 hbuild
  refine build_eq_ok.2 ⟨fun r hr hhead => hheads r hr (hlisted _ hhead), ?_⟩
  rw [List.map_congr_left hroles]
  exact hmade

/-- **Plain rules get roles and nothing else.** No grammar is made just if some rule is headed by a
listed terminal, and the complaint names the first such rule. Otherwise a grammar is made, with the
given goal. Forgetting the roles in its rules gives the plain rules; no name occurs in them both as
a terminal and as a nonterminal or head; its universe is the goal, the heads, and the names in
bodies that are not listed. The plain rules make the same grammar in any order and with any
repetitions, and so do the rules of the grammar with their roles forgotten, given the terminals that
are in use. -/
theorem build_gives_roles_only (goal : Name) (terminals : SortedSet Name) (rules : List PlainRule) :
    ((∃ e, build goal terminals rules = .error e) ↔ ∃ r ∈ rules, r.head ∈ terminals) ∧
      (∀ e, build goal terminals rules = .error e ↔
        ∃ r, IsFirst (fun s => s.head ∈ terminals) rules r ∧ e = .terminalHead r.head) ∧
      ((∀ r ∈ rules, r.head ∉ terminals) →
        ∃ g, build goal terminals rules = .ok g ∧ g.goal = goal ∧
          (∀ r, (∃ s ∈ g.rules, s.plain = r) ↔ r ∈ rules) ∧
          (∀ v, (∃ r ∈ g.rules, .terminal v ∈ r.body) →
            ¬ ∃ r ∈ g.rules, r.head = v ∨ .nonterminal v ∈ r.body) ∧
          (∀ v, v ∈ g.nonterminals ↔
            v = goal ∨ ∃ r ∈ rules, v = r.head ∨ v ∈ r.body ∧ v ∉ terminals) ∧
          (∀ rules', (∀ r, r ∈ rules' ↔ r ∈ rules) → build goal terminals rules' = .ok g) ∧
          ∀ rules', (∀ r, r ∈ rules' ↔ ∃ s ∈ g.rules, s.plain = r) →
            build goal g.terminals rules' = .ok g) := by
  refine ⟨?_, fun e => build_eq_error, fun hheads => ?_⟩
  · simp only [build_eq_error, ← exists_isFirst_iff]
    exact ⟨fun ⟨_, r, hr, _⟩ => ⟨r, hr⟩, fun ⟨r, hr⟩ => ⟨_, r, hr, rfl⟩⟩
  · obtain ⟨g, hbuild⟩ : ∃ g, build goal terminals rules = .ok g :=
      ⟨_, build_eq_ok.2 ⟨hheads, rfl⟩⟩
    refine ⟨g, hbuild, goal_of_build hbuild, fun r => exists_plain_eq_of_build hbuild,
      fun v => not_both_roles_of_build hbuild, fun v => mem_nonterminals_of_build_iff hbuild,
      fun rules' h => build_congr hbuild h, fun rules' h => ?_⟩
    -- The rules with their roles forgotten are the plain ones in another order.
    exact build_congr (build_terminals hbuild) fun r =>
      (h r).trans (exists_plain_eq_of_build hbuild)

/-- A rule that is repeated and an empty one. -/
def repeatedRule : List PlainRule :=
  [⟨.text "S", [.text "A", .text "a"]⟩, ⟨.text "A", []⟩, ⟨.text "S", [.text "A", .text "a"]⟩]

/-- The goal is listed as a terminal, and so is a name that is not in use. The rules make the same
grammar backwards, and with the terminals that are in use. -/
theorem repeatedRule_rebuilt :
    (∀ r ∈ repeatedRule, r.head ∉ SortedSet.ofList [Name.text "a", .text "b"]) ∧
      ∃ g, build (.text "a") (.ofList [.text "a", .text "b"]) repeatedRule = .ok g ∧
        g.rules.size = 2 ∧ g.terminals = {.text "a"} ∧ .text "a" ∈ g.nonterminals ∧
        build (.text "a") (.ofList [.text "a", .text "b"]) repeatedRule.reverse = .ok g ∧
        build (.text "a") {.text "a"} (g.rules.toList.map Rule.plain) = .ok g := by
  have hheads : ∀ r ∈ repeatedRule, r.head ∉ SortedSet.ofList [Name.text "a", .text "b"] := by
    decide +kernel
  obtain ⟨-, -, hmade⟩ :=
    build_gives_roles_only (.text "a") (.ofList [.text "a", .text "b"]) repeatedRule
  obtain ⟨g, hbuild, -, -, -, hnonterminals, hreordered, hrebuilt⟩ := hmade hheads
  have hterminals : g.terminals = {.text "a"} := by
    obtain ⟨-, rfl⟩ := build_eq_ok.1 hbuild
    decide +kernel
  have hsize : g.rules.size = 2 := by
    obtain ⟨-, rfl⟩ := build_eq_ok.1 hbuild
    decide +kernel
  have hplain := hrebuilt (g.rules.toList.map Rule.plain) (by simp [SortedSet.mem_toList])
  rw [hterminals] at hplain
  exact ⟨hheads, g, hbuild, hsize, hterminals, (hnonterminals _).2 (.inl rfl),
    hreordered _ (by simp), hplain⟩

end Grammar

end ContextFree
