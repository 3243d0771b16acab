import JsonAxes.Proofs.Standard.Texts
import JsonAxes.Proofs.Value.Writers

/-!
# What is known of other programs

Other programs write values as text and read texts as values, and what exactly they do is their own
affair. This much is known of them: what is written is made of literals of the standard
(`Exchange.Writer.WritesStandard`), and a standard text that is read at all is read part by part
(`Exchange.ReadsStandard`). Neither says that the one fits the other, nor that either fits what a
text denotes.
-/

set_option autoImplicit false

namespace JsonAxes

/-! ## Parts of texts -/

namespace Standard

/-- Whether a part stands for a character, whatever parts come behind it. -/
def Part.StandsFor (p : Part) (c : Char) : Prop := ∀ ps, resolved (p :: ps) = c :: resolved ps

end Standard

/-- Whether a numeral is that of an integer: it has neither a fraction nor an exponent, and zero has
no sign. -/
structure Numeral.Spells (n : Numeral) (i : Int) : Prop where
  fraction : n.fraction? = none
  exponent : n.exponent? = none
  natAbs : Number.digitsValue n.whole.chars = i.natAbs
  negative : n.negative = decide (i < 0)

namespace Exchange

open Standard

/-! ## Writers of standard text -/

namespace Writer

/-- Whether the standard forbids a character in a string literal as it is. -/
def MustEscape (c : Char) : Prop := c = '"' ∨ c = '\\' ∨ c < ' '

/-- What is known of a program that writes values as text. -/
structure WritesStandard (w : Writer (List Char)) : Prop where
  null : w.null = nullText
  bool (b : Bool) : w.bool b = boolText b
  integer (i : Int) : w.integer i = integerText i
  /-- A finite number is written as a numeral of the standard that goes back to the number. -/
  float (n : Number) (h : n.isFinite = true) :
    ∃ x : Numeral, x.IsStandard ∧ x.text = w.float n ∧ x.number = n
  nullsNonFinite : w.NullsNonFinite
  /-- Only characters that have to be escaped are. -/
  string : ∃ escape : Char → List Char,
    (∀ s : String, w.string s = '"' :: (s.toList.flatMap escape ++ ['"']))
    ∧ (∀ c, MustEscape c → ∃ p : Part, p.text = escape c ∧ p.StandsFor c)
    ∧ ∀ c, ¬ MustEscape c → escape c = [c]
  array (texts : List (List Char)) : w.array texts = bracketed '[' ']' texts
  object (ms : List (String × List Char)) :
    w.object ms = bracketed '\x7b' '\x7d' (ms.map fun m => w.string m.1 ++ ':' :: m.2)

end Writer

/-! ## Readers of standard text -/

/-- What is known of a program that reads texts as values, of the texts that it does not refuse. -/
structure ReadsStandard (read : String → Option Exchange) : Prop where
  /-- White space around a text does not count. -/
  padded {before cs behind : List Char} {x : Standard} (hbefore : IsBlank before)
    (hx : Written x cs) (hbehind : IsBlank behind) :
    read (String.ofList (before ++ (cs ++ behind))) = read (String.ofList cs)
  null {y : Exchange} (h : read (String.ofList nullText) = some y) : y = .null
  bool {b : Bool} {y : Exchange} (h : read (String.ofList (boolText b)) = some y) : y = .bool b
  /-- A string has its escapes resolved, and there is no surrogate without its partner. -/
  string {ps : List Part} {y : Exchange} (h : read (String.ofList (literal ps)) = some y) :
    IsPaired ps ∧ y = .string (literalValue ps)
  /-- A number is an integer only if it is spelled as one. -/
  number {n : Numeral} {y : Exchange} (hn : n.IsStandard)
    (h : read (String.ofList n.text) = some y) :
    (∃ i, n.Spells i ∧ y = .integer i) ∨ ∃ z, y = .float z
  emptyArray {gap : List Char} {y : Exchange} (hgap : IsBlank gap)
    (h : read (String.ofList ('[' :: (gap ++ [']']))) = some y) : y = .array []
  /-- The elements of an array are what is read of their texts. -/
  array {texts : List (List Char)} {y : Exchange} (hne : texts ≠ [])
    (htexts : ∀ cs ∈ texts, IsPadded cs)
    (h : read (String.ofList (bracketed '[' ']' texts)) = some y) :
    ∃ ys, y = .array ys ∧ texts.Forall₂ (fun cs y => read (String.ofList cs) = some y) ys
  emptyObject {gap : List Char} {y : Exchange} (hgap : IsBlank gap)
    (h : read (String.ofList ('\x7b' :: (gap ++ ['\x7d']))) = some y) : y = .object []
  /-- Members are set one after another, each to what is read of the text of its value. -/
  object {entries : List Entry} {y : Exchange} (hne : entries ≠ [])
    (hentries : ∀ e ∈ entries, e.IsPadded)
    (h : read (String.ofList (bracketed '\x7b' '\x7d' (entries.map Entry.chars))) = some y) :
    ∃ ns, y = .object (Members.ofList ns) ∧ entries.Forall₂ (fun e n => IsPaired e.key
      ∧ n.1 = literalValue e.key ∧ read (String.ofList e.text) = some n.2) ns

end Exchange

end JsonAxes
