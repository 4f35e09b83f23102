import ContextFree.Name
import ContextFree.Text.Printable

/-!
# ContextFree — quoted names

How a name is quoted inside a complaint, so that blanks and control characters in it can be seen:
a number in decimal, a text between quotes with what cannot be printed escaped.

Main statement: `printable_quoted` — whatever stands in a text, quoting it leaves only characters
that can be printed.
-/

namespace ContextFree

namespace Text

/-- The character for a digit of a base up to sixteen, in lower case. -/
def hexDigit (n : Nat) : Char :=
  if n < 10 then Char.ofNat ('0'.toNat + n) else Char.ofNat ('a'.toNat + (n - 10))

/-- The last `width` hexadecimal digits of a number, with zeros in front if there are fewer. -/
def hexDigits : (width : Nat) → Nat → List Char
  | 0, _ => []
  | width + 1, n => hexDigits width (n / 16) ++ [hexDigit (n % 16)]

/-- The code point after a mark that tells how many digits it has: two, four or eight. -/
def escape (c : Char) : List Char :=
  if c.toNat < 0x100 then '\\' :: 'x' :: hexDigits 2 c.toNat
  else if c.toNat < 0x10000 then '\\' :: 'u' :: hexDigits 4 c.toNat
  else '\\' :: 'U' :: hexDigits 8 c.toNat

/-- One character inside quotes of the given kind. -/
def quoteChar (quote c : Char) : List Char :=
  if c = '\\' then ['\\', '\\']
  else if c = quote then ['\\', c]
  else if c = '\t' then ['\\', 't']
  else if c = '\n' then ['\\', 'n']
  else if c = '\r' then ['\\', 'r']
  else if isUnprintable c then escape c
  else [c]

/-- Single quotes, unless they stand in the text and double quotes do not. -/
def quoteFor (cs : List Char) : Char :=
  if '\'' ∈ cs ∧ '"' ∉ cs then '"' else '\''

/-- The text between quotes, each character as it can be shown there. -/
def quoted (s : String) : String :=
  let quote := quoteFor s.toList
  String.ofList (quote :: s.toList.flatMap (quoteChar quote) ++ [quote])

/-! ## What is quoted can be printed

An escape is written in letters, digits and the backslash, so it never calls for an escape itself.
-/

/-- The backslash opens an escape, so it must be one of the characters that can be printed. -/
theorem printable_backslash : isUnprintable '\\' = false :=
  isUnprintable_eq_false (by decide) (by decide)

/-- A digit is a character of ASCII. -/
theorem printable_hexDigit {n : Nat} (h : n < 16) : isUnprintable (hexDigit n) = false := by
  have hall : ∀ n < 16, 0x20 ≤ (hexDigit n).toNat ∧ (hexDigit n).toNat < 0x7f := by decide
  exact isUnprintable_eq_false (hall n h).1 (hall n h).2

/-- However many digits are asked for, each of them is a digit. -/
theorem printable_hexDigits (width n : Nat) : ∀ c ∈ hexDigits width n, isUnprintable c = false := by
  induction width generalizing n with
  | zero => simp [hexDigits]
  | succ width ih =>
    intro c hc
    rw [hexDigits, List.mem_append, List.mem_singleton] at hc
    obtain hc | rfl := hc
    · exact ih (n / 16) c hc
    · exact printable_hexDigit (Nat.mod_lt n (by decide))

/-- What follows the backslash decides: a mark, and perhaps more. -/
theorem printable_marked {mark : Char} {rest : List Char} (hmark : isUnprintable mark = false)
    (hrest : ∀ c ∈ rest, isUnprintable c = false) :
    ∀ c ∈ '\\' :: mark :: rest, isUnprintable c = false :=
  List.forall_mem_cons.2 ⟨printable_backslash, List.forall_mem_cons.2 ⟨hmark, hrest⟩⟩

/-- The escape of a character can be printed, whichever of the three lengths it has. -/
theorem printable_escape (c : Char) : ∀ d ∈ escape c, isUnprintable d = false := by
  unfold escape
  split
  · exact printable_marked (isUnprintable_eq_false (by decide) (by decide))
      (printable_hexDigits 2 c.toNat)
  split
  · exact printable_marked (isUnprintable_eq_false (by decide) (by decide))
      (printable_hexDigits 4 c.toNat)
  · exact printable_marked (isUnprintable_eq_false (by decide) (by decide))
      (printable_hexDigits 8 c.toNat)

/-- Only the last two cases depend on the ranges: the character is escaped, or it can be printed as
it stands. -/
theorem printable_quoteChar {quote : Char} (hquote : isUnprintable quote = false) (c : Char) :
    ∀ d ∈ quoteChar quote c, isUnprintable d = false := by
  have hpair {mark : Char} (hmark : isUnprintable mark = false) :
      ∀ d ∈ ['\\', mark], isUnprintable d = false :=
    printable_marked hmark fun d hd => absurd hd List.not_mem_nil
  unfold quoteChar
  split
  · exact hpair printable_backslash
  split
  · next hsame => exact hpair (by rwa [hsame])
  split
  · exact hpair (isUnprintable_eq_false (by decide) (by decide))
  split
  · exact hpair (isUnprintable_eq_false (by decide) (by decide))
  split
  · exact hpair (isUnprintable_eq_false (by decide) (by decide))
  split
  · exact printable_escape c
  · next hprintable =>
      intro d hd
      rw [List.mem_singleton.1 hd]
      exact Bool.eq_false_iff.2 hprintable

/-- Either kind of quote can be printed. -/
theorem printable_quoteFor (cs : List Char) : isUnprintable (quoteFor cs) = false := by
  unfold quoteFor
  split
  · exact isUnprintable_eq_false (by decide) (by decide)
  · exact isUnprintable_eq_false (by decide) (by decide)

/-- **Whatever stands in a text, quoting it leaves only characters that can be printed**, so a
complaint about a name shows all that is in the name. -/
theorem printable_quoted (s : String) : ∀ c ∈ (quoted s).toList, isUnprintable c = false := by
  have hquote := printable_quoteFor s.toList
  intro c hc
  simp only [quoted, String.toList_ofList, List.cons_append, List.mem_cons, List.mem_append,
    List.mem_flatMap, List.not_mem_nil, or_false] at hc
  rcases hc with rfl | ⟨d, -, hc⟩ | rfl
  · exact hquote
  · exact printable_quoteChar hquote d c hc
  · exact hquote

end Text

/-- A number in decimal, a text between quotes. -/
def Name.quoted : Name → String
  | .number n => toString n
  | .text s => Text.quoted s

end ContextFree
