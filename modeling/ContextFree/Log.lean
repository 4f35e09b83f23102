/-!
# ContextFree — what a pass reports

Passes report what they do while they run: each round of a closure, the size of each answer, and
how many rules went in and came out. `Logged` carries these events beside the outcome, and a pass
that fails keeps what was reported before it did.

Main statements: `events_bind_ok`, `outcome_bind_ok` and their `error` partners say what running
one pass after another reports and answers. How passes are grouped makes no difference
(`bind_assoc`).
-/

namespace ContextFree

/-- Something a pass reports. -/
inductive Event
  /-- A round of a closure took effect: its number, the elements there are now, the room left. -/
  | round (index size : Nat) (measure : Int)
  | nullableSolved (count rounds : Nat)
  | emptyRulesReplaced (before after : Nat)
  | pairsSolved (count rounds : Nat)
  | chainRulesReplaced (before after : Nat)
deriving DecidableEq

/-- Which part of the library an event comes from. -/
inductive Reporter
  | closure
  | nullable
  | chain
deriving DecidableEq

namespace Event

def reporter : Event → Reporter
  | .round .. => .closure
  | .nullableSolved .. | .emptyRulesReplaced .. => .nullable
  | .pairsSolved .. | .chainRulesReplaced .. => .chain

def message : Event → String
  | .round index size measure =>
    "round " ++ toString index ++ ": " ++ toString size ++ " elements, measure " ++
      toString measure
  | .nullableSolved count rounds =>
    toString count ++ " nullable nonterminals after " ++ toString rounds ++ " rounds"
  | .emptyRulesReplaced before after =>
    "nullable elimination: " ++ toString before ++ " rules -> " ++ toString after ++ " rules"
  | .pairsSolved count rounds =>
    toString count ++ " unit pairs after " ++ toString rounds ++ " rounds"
  | .chainRulesReplaced before after =>
    "unit rule elimination: " ++ toString before ++ " rules -> " ++ toString after ++ " rules"

end Event

/-- An outcome with the events reported on the way to it, earliest first. -/
structure Logged (ε α : Type) where
  events : List Event
  outcome : Except ε α

namespace Logged

variable {ε ε' α β : Type}

def report (event : Event) : Logged ε Unit :=
  ⟨[event], .ok ()⟩

def fail (error : ε) : Logged ε α :=
  ⟨[], .error error⟩

/-- An outcome on the way to which nothing was reported. -/
def ofExcept (outcome : Except ε α) : Logged ε α :=
  ⟨[], outcome⟩

/-- The same events, with a failure described in other terms. -/
def mapError (f : ε → ε') (x : Logged ε α) : Logged ε' α :=
  ⟨x.events, x.outcome.mapError f⟩

/-- After a success the second part runs and its events follow; after a failure it does not. -/
def bind (x : Logged ε α) (f : α → Logged ε β) : Logged ε β :=
  match x.outcome with
  | .ok a => ⟨x.events ++ (f a).events, (f a).outcome⟩
  | .error e => ⟨x.events, .error e⟩

instance : Monad (Logged ε) where
  pure a := ⟨[], .ok a⟩
  bind := bind

@[simp] theorem events_pure (a : α) : (pure a : Logged ε α).events = [] :=
  rfl

@[simp] theorem outcome_pure (a : α) : (pure a : Logged ε α).outcome = .ok a :=
  rfl

/-- Events and outcome stay as they are under the identity. With `pure_bind` and `bind_assoc` this
makes `Logged` a lawful monad. -/
theorem id_map (x : Logged ε α) : id <$> x = x := by
  obtain ⟨events, outcome⟩ := x
  cases outcome <;> simp [Functor.map, bind]

/-- A value that is given reports nothing, so what follows it makes the whole report. -/
theorem pure_bind (a : α) (f : α → Logged ε β) : pure a >>= f = f a := by
  simp [Bind.bind, bind]

/-- Events are appended, so it makes no difference how passes in a row are grouped. By cases on the
first failure, behind which nothing runs. -/
theorem bind_assoc {γ : Type} (x : Logged ε α) (f : α → Logged ε β) (k : β → Logged ε γ) :
    x >>= f >>= k = x >>= fun a => f a >>= k := by
  obtain ⟨events, outcome⟩ := x
  cases outcome with
  | error e => rfl
  | ok a =>
    cases hf : (f a).outcome with
    | error e => simp only [Bind.bind, bind, hf]
    | ok b => simp only [Bind.bind, bind, hf, List.append_assoc]

instance : LawfulMonad (Logged ε) :=
  .mk' _ id_map pure_bind bind_assoc

/-- After a success the events of both parts are reported, in their order. -/
theorem events_bind_ok {x : Logged ε α} {a : α} (h : x.outcome = .ok a) (f : α → Logged ε β) :
    (x >>= f).events = x.events ++ (f a).events := by
  simp only [Bind.bind, bind, h]

/-- After a success the second part decides the outcome. -/
theorem outcome_bind_ok {x : Logged ε α} {a : α} (h : x.outcome = .ok a) (f : α → Logged ε β) :
    (x >>= f).outcome = (f a).outcome := by
  simp only [Bind.bind, bind, h]

/-- After a failure the second part reports nothing, since it does not run. -/
theorem events_bind_error {x : Logged ε α} {e : ε} (h : x.outcome = .error e)
    (f : α → Logged ε β) : (x >>= f).events = x.events := by
  simp only [Bind.bind, bind, h]

theorem outcome_bind_error {x : Logged ε α} {e : ε} (h : x.outcome = .error e)
    (f : α → Logged ε β) : (x >>= f).outcome = .error e := by
  simp only [Bind.bind, bind, h]

end Logged

end ContextFree
