import JsonAxes.Proofs.Outer.Writer
import JsonAxes.Proofs.Standard.Reading

/-!
# Exchange texts are standard texts

Whatever the spellings of a program that writes values (`Exchange.Writer.WritesStandard`), what is
written of a value keeps to the grammar of the standard, without white space, and denotes the value
that is exchanged, with all its members as they come
(`Exchange.Writer.WritesStandard.exists_written`). So the text is read as that value
(`Value.ofText?_written`).
-/

set_option autoImplicit false

namespace JsonAxes

namespace Standard

open Exchange

/-! ## String literals -/

/-- Where each character is written as a part that stands for it, a string is a literal that stands
for the string. -/
theorem exists_literal {escape : Char → List Char}
    (h : ∀ c, ∃ p : Part, p.text = escape c ∧ p.StandsFor c) (s : String) :
    ∃ ps, literal ps = '"' :: (s.toList.flatMap escape ++ ['"']) ∧ literalValue ps = s := by
  obtain ⟨ps, hbody, hresolved⟩ :
      ∃ ps, body ps = s.toList.flatMap escape ∧ resolved ps = s.toList := by
    induction s.toList with
    | nil => exact ⟨[], rfl, rfl⟩
    | cons c cs ih =>
        obtain ⟨p, htext, hp⟩ := h c
        obtain ⟨ps, hbody, hresolved⟩ := ih
        refine ⟨p :: ps, ?_, ?_⟩
        · rw [body_cons, htext, hbody, List.flatMap_cons]
        · rw [hp, hresolved]
  refine ⟨ps, ?_, ?_⟩
  · rw [literal, hbody]
  · rw [literalValue, hresolved, String.ofList_toList]

end Standard

/-! ## Numbers -/

open Exchange in
/-- What is written for an integer is a standard numeral of its number. -/
theorem Numeral.exists_integer (i : Int) :
    ∃ x : Numeral, x.IsStandard ∧ x.text = integerText i ∧ x.number = .ofInt i := by
  obtain ⟨n, hn⟩ : ∃ n, n = i.natAbs := ⟨_, rfl⟩
  have hchars : (NumberFormat.padded 0 n 0).chars = Nat.toDigits 10 n := List.append_nil _
  obtain ⟨x, hx⟩ : ∃ x : Numeral, x = ⟨i < 0, NumberFormat.padded 0 n 0, none, none⟩ := ⟨_, rfl⟩
  refine ⟨x, ?_, ?_, ?_⟩
  · rw [hx]
    by_cases hzero : n = 0
    · rw [hzero]
      exact .inl rfl
    · exact .inr (NumberFormat.head?_padded hzero 0)
  · rw [hx, text, body, hchars, hn, integerText]
    simp [fractionText, exponentText]
  · have hvalue : Number.digitsValue (NumberFormat.padded 0 n 0).chars = n := by
      rw [NumberFormat.digitsValue_padded, Nat.pow_zero, Nat.mul_one]
    have hdecimal : x.decimal = ⟨n, 0⟩ := by
      simp [hx, decimal, fractionChars, exponentValue, hvalue]
    rw [number, hdecimal, hx, hn]
    rfl

namespace Exchange

open Standard

namespace Writer

/-! ## What is written -/

namespace WritesStandard

variable {w : Writer (List Char)}

/-- What is written for a string is a literal that stands for it. -/
theorem exists_string (hw : w.WritesStandard) (s : String) :
    ∃ ps, literal ps = w.string s ∧ literalValue ps = s := by
  obtain ⟨escape, hstring, hescaped, hplain⟩ := hw.string
  have hpart : ∀ c, ∃ p : Part, p.text = escape c ∧ p.StandsFor c := by
    intro c
    by_cases hc : MustEscape c
    · exact hescaped c hc
    · have hallowed := hc
      rw [MustEscape, not_or, not_or, Char.not_lt] at hallowed
      refine ⟨.plain c ⟨hallowed.2.2, hallowed.1, hallowed.2.1⟩, ?_, fun _ => rfl⟩
      rw [hplain c hc]
      rfl
  rw [hstring]
  exact Standard.exists_literal hpart s

/-- What is written for a number is a numeral of what is exchanged in its place, or null. -/
theorem exists_number (hw : w.WritesStandard) (n : Number) :
    ∃ x : Standard, Written x (w.number n) ∧ x.listed = Value.exchangedNumber n
      ∧ x.Numerals fun n => n.number.isFinite = true := by
  rw [number, Value.exchangedNumber, ofNumber]
  cases hwhole : integerOf? n with
  | some i =>
      obtain ⟨x, hx, htext, hnumber⟩ := Numeral.exists_integer i
      have hi : n.toInt? = some i := (Option.filter_eq_some_iff.mp hwhole).1
      refine ⟨.number x, ?_, congrArg Value.number hnumber, ?_⟩
      · show Written (.number x) (w.integer i)
        rw [hw.integer, ← htext]
        exact .number x hx
      · show x.number.isFinite = true
        rw [hnumber, Number.ofInt_of_toInt? hi]
        split
        · rfl
        · exact Number.isFinite_of_toInt? hi
  | none =>
      by_cases hfinite : n.isFinite = true
      · obtain ⟨x, hx, htext, hnumber⟩ := hw.float n hfinite
        rw [if_pos hfinite]
        refine ⟨.number x, htext ▸ .number x hx, congrArg Value.number hnumber, ?_⟩
        show x.number.isFinite = true
        rw [hnumber, hfinite]
      · rw [if_neg hfinite]
        refine ⟨.null, ?_, rfl, trivial⟩
        show Written .null (w.float n)
        rw [hw.nullsNonFinite n (Bool.eq_false_iff.mpr hfinite), hw.null]
        exact .null

mutual

/-- **What is written keeps to the standard.** It is a text of the standard grammar that denotes
what is exchanged. -/
theorem exists_written (hw : w.WritesStandard) (v : Value) :
    ∃ x : Standard, Written x (v.writtenBy w) ∧ x.listed = v.exchanged
      ∧ x.Numerals fun n => n.number.isFinite = true := by
  cases v with
  | string s =>
      obtain ⟨ps, htext, hvalue⟩ := exists_string hw s
      rw [Value.writtenBy, ← htext]
      exact ⟨.string ps, .string ps, congrArg Value.string hvalue, trivial⟩
  | number n => exact exists_number hw n
  | bool b =>
      rw [Value.writtenBy, hw.bool]
      exact ⟨.bool b, .bool b, rfl, trivial⟩
  | null =>
      rw [Value.writtenBy, hw.null]
      exact ⟨.null, .null, rfl, trivial⟩
  | array vs =>
      rw [Value.writtenBy, hw.array]
      cases vs with
      | nil => exact ⟨.array [], .emptyArray isBlank_nil, rfl, trivial⟩
      | cons v vs =>
          obtain ⟨x, hx, hlisted, hfinite⟩ := exists_written hw v
          obtain ⟨xs, hxs, hlisteds, hfinites⟩ := exists_writtenElements hw vs
          refine ⟨.array (x :: xs), ?_, ?_, hfinite, hfinites⟩
          · rw [Value.elementsWrittenBy, bracketed_cons]
            exact .array hx.padded hxs
          · rw [listed, listedElements, hlisted, hlisteds]
            rfl
  | object ms =>
      rw [Value.writtenBy, hw.object]
      cases ms with
      | nil => exact ⟨.object [], .emptyObject isBlank_nil, rfl, trivial⟩
      | cons m ms =>
          obtain ⟨key, v⟩ := m
          obtain ⟨ps, htext, hkey⟩ := exists_string hw key
          obtain ⟨x, hx, hlisted, hfinite⟩ := exists_written hw v
          obtain ⟨xs, hxs, hlisteds, hfinites⟩ := exists_writtenMembers hw ms
          refine ⟨.object ((ps, x) :: xs), ?_, ?_, trivial, hfinite, hfinites⟩
          · rw [Value.membersWrittenBy, List.map_cons, bracketed_cons, ← htext]
            exact .object (.mk isBlank_nil isBlank_nil hx.padded) hxs
          · rw [listed, listedMembers, hkey, hlisted, hlisteds]
            rfl

theorem exists_writtenElements (hw : w.WritesStandard) (vs : List Value) :
    ∃ xs, WrittenElements xs ((Value.elementsWrittenBy w vs).flatMap (',' :: ·))
      ∧ listedElements xs = toElements (ofElements vs)
      ∧ AllElements (fun _ => True) (fun n => n.number.isFinite = true) xs := by
  cases vs with
  | nil => exact ⟨[], .nil, rfl, trivial⟩
  | cons v vs =>
      obtain ⟨x, hx, hlisted, hfinite⟩ := exists_written hw v
      obtain ⟨xs, hxs, hlisteds, hfinites⟩ := exists_writtenElements hw vs
      refine ⟨x :: xs, ?_, ?_, hfinite, hfinites⟩
      · rw [Value.elementsWrittenBy, List.flatMap_cons]
        exact .cons hx.padded hxs
      · rw [listedElements, hlisted, hlisteds]
        rfl

theorem exists_writtenMembers (hw : w.WritesStandard) (ms : List (String × Value)) :
    ∃ xs, WrittenMembers xs
        (((Value.membersWrittenBy w ms).map fun m => w.string m.1 ++ ':' :: m.2).flatMap
          (',' :: ·))
      ∧ listedMembers xs = toMembers (Exchange.ofMembers ms)
      ∧ AllMembers (fun _ => True) (fun n => n.number.isFinite = true) xs := by
  cases ms with
  | nil => exact ⟨[], .nil, rfl, trivial⟩
  | cons m ms =>
      obtain ⟨key, v⟩ := m
      obtain ⟨ps, htext, hkey⟩ := exists_string hw key
      obtain ⟨x, hx, hlisted, hfinite⟩ := exists_written hw v
      obtain ⟨xs, hxs, hlisteds, hfinites⟩ := exists_writtenMembers hw ms
      refine ⟨(ps, x) :: xs, ?_, ?_, trivial, hfinite, hfinites⟩
      · rw [Value.membersWrittenBy, List.map_cons, List.flatMap_cons, ← htext]
        exact .cons (.mk isBlank_nil isBlank_nil hx.padded) hxs
      · rw [listedMembers, hkey, hlisted, hlisteds]
        rfl

end

/-- A value is read from what is written of it, white space behind it included, as what was
exchanged, if as many containers may be open at once as it nests. -/
theorem ofText?_writtenBy (hw : w.WritesStandard) (v : Value.Keyed) {behind : List Char}
    (hbehind : IsBlank behind) {limit : Nat} (h : v.value.nesting ≤ limit) :
    Value.ofText? limit (String.ofList (v.value.writtenBy w ++ behind))
      = .ok v.value.exchanged := by
  obtain ⟨x, hx, hlisted, hfinite⟩ := hw.exists_written v.value
  have hnesting : x.listed.nesting ≤ limit := by rwa [hlisted, Value.nesting_exchanged]
  have hread := (Padded.mk isBlank_nil hx hbehind).ofText? hfinite hnesting
  rwa [List.nil_append, Standard.value, hlisted, Value.merged_exchanged v.value v.distinct] at hread

end WritesStandard

end Writer

end Exchange

namespace Value

open Exchange Standard

/-- **What other programs write of a value is read as the value.** Whatever writes values in the
spellings of the standard, the text is read, if as many containers may be open at once as the value
nests, and gives the value with its members in order and its strings and numbers as they were, but
for null in place of numbers that are not finite and for the sign of zeros. -/
theorem ofText?_written {w : Writer (List Char)} (hw : w.WritesStandard) (v : Keyed) {limit : Nat}
    (h : v.value.nesting ≤ limit) :
    ofText? limit (String.ofList (v.value.writtenBy w))
      = .ok (v.value.withNumbers settledNumber) := by
  have hread := hw.ofText?_writtenBy v isBlank_nil h
  rwa [List.append_nil, exchanged_eq_settled] at hread

/-- A value with a control character that is escaped and one that is not, a number with an exponent,
one without a spelling, and a negative zero. -/
def spellings : Keyed where
  value := .object [("\x01\x7f\u00e9", .array [.number (.ofNat (10 ^ 21)), .number .nan]),
    ("", .number (.ofParts true 0))]
  distinct := by decide

theorem ofText?_written_spellings :
    (Outer.writer.WritesStandard ∧ spellings.value.nesting = 2)
    ∧ ofText? 2 (String.ofList (spellings.value.writtenBy Outer.writer)) = .ok (.object
      [("\x01\x7f\u00e9", .array [.number (.ofNat (10 ^ 21)), .null]), ("", .number .zero)]) := by
  have hwriter := Outer.writesStandard_writer
  have hnesting : spellings.value.nesting = 2 := rfl
  exact ⟨⟨hwriter, hnesting⟩, ofText?_written hwriter spellings (Nat.le_of_eq hnesting)⟩

end Value

end JsonAxes
