import JsonAxes.Proofs.Number.Nearest
import JsonAxes.Proofs.Outer.Reader
import JsonAxes.Proofs.Standard.Reading

/-!
# What standard texts are read as

A standard text is read as the value that it denotes, and where another program that reads standard
text accepts the text as well, what it makes of it has that value
(`Standard.ofText?_reads_standard`). What a text denotes is said in parts: a numeral denotes the
number nearest to it (`Numeral.isNearest_number`), a pair of surrogates the character with their
code and any other surrogate what stands for a malformed character
(`Standard.toNat_charOf_pairCode`, `Standard.charOf_of_isSurrogate`), and an object has each key
once (`Standard.exists_value_object`).

That the other program agrees is shown part by part, along the grammar
(`Standard.hereditary_agrees`), from what is known of it about each kind of part.
-/

set_option autoImplicit false

namespace JsonAxes

/-! ## Numerals -/

/-- The number of a numeral, if it is finite, has its sign and is nearest to it. -/
theorem Numeral.isNearest_number {n : Numeral} (h : n.number.isFinite = true) :
    n.number.isNegative = n.negative
    ∧ Number.IsNearest n.decimal.value n.number.magnitude := by
  have hmagnitude : n.number.magnitude = n.decimal.round := Number.magnitude_ofDecimal _ _
  refine ⟨Number.isNegative_ofDecimal _ _, ?_⟩
  have hfinite : n.number.magnitude < Number.infinity := of_decide_eq_true h
  rw [hmagnitude] at hfinite ⊢
  exact Decimal.isNearest_round hfinite

/-- There is no other number with the sign of a numeral that is nearest to it. -/
theorem Numeral.eq_number_of_isNearest {n : Numeral} {z : Number}
    (h : n.number.isFinite = true) (hnegative : z.isNegative = n.negative)
    (hnearest : Number.IsNearest n.decimal.value z.magnitude) : z = n.number := by
  obtain ⟨hnegative', hnearest'⟩ := isNearest_number h
  rw [← z.ofParts_isNegative_magnitude, ← n.number.ofParts_isNegative_magnitude,
    hnearest.unique hnearest', hnegative, hnegative']

/-- An integer has the number of the numerals that spell it. -/
theorem Numeral.ofInt_of_spells {n : Numeral} {i : Int} (h : n.Spells i) :
    Number.ofInt i = n.number := by
  have hdecimal : n.decimal = ⟨i.natAbs, 0⟩ := by
    simp [decimal, h.fraction, h.exponent, fractionChars, exponentValue, h.natAbs]
  rw [number, hdecimal, h.negative, Number.ofInt]

/-- Whether what a reader makes of a numeral, if not an integer, has its sign and is nearest to
it. -/
def Numeral.IsRoundedBy (read : String → Option Exchange) (n : Numeral) : Prop :=
  ∀ z, read (String.ofList n.text) = some (.float z) →
    z.isNegative = n.negative ∧ Number.IsNearest n.decimal.value z.magnitude

namespace Standard

/-! ## Escapes by number -/

/-- Four digits spell a 16-bit unit. -/
theorem Digits.unit_lt (u : Digits) : u.unit < 0x10000 :=
  Text.hexNumber_lt u.isHexDigit_a u.isHexDigit_b u.isHexDigit_c u.isHexDigit_d

theorem toNat_charOf {code : Nat} (h : code.isValidChar) : (charOf code).toNat = code := by
  have hchar : Text.charOfCode? code = some (Char.ofNatAux code h) := dif_pos h
  have hcode : (Char.ofNatAux code h).toNat = code := rfl
  rw [charOf, hchar, Option.getD_some, hcode]

/-- A unit that is no surrogate denotes the character with its code. -/
theorem toNat_charOf_unit (u : Digits) (hhigh : Text.isHighSurrogate u.unit = false)
    (hlow : Text.isLowSurrogate u.unit = false) : (charOf u.unit).toNat = u.unit := by
  have hunit := u.unit_lt
  rw [← Bool.not_eq_true, Text.isHighSurrogate_iff] at hhigh
  rw [← Bool.not_eq_true, Text.isLowSurrogate_iff] at hlow
  apply toNat_charOf
  rw [Nat.isValidChar]
  omega

/-- A pair of surrogates denotes the character with their code. -/
theorem toNat_charOf_pairCode {u v : Digits} (h : isPair u v = true) :
    (charOf (Text.pairCode u.unit v.unit)).toNat = Text.pairCode u.unit v.unit := by
  rw [isPair, Bool.and_eq_true] at h
  exact toNat_charOf (Text.isValidChar_pairCode h.1 h.2)

/-- A surrogate by itself denotes no character. -/
theorem charOf_of_isSurrogate {code : Nat}
    (h : Text.isHighSurrogate code = true ∨ Text.isLowSurrogate code = true) :
    charOf code = Text.replacement := by
  rw [Text.isHighSurrogate_iff, Text.isLowSurrogate_iff] at h
  have hinvalid : ¬ code.isValidChar := by
    rw [Nat.isValidChar]
    omega
  have hchar : Text.charOfCode? code = none := dif_neg hinvalid
  rw [charOf, hchar, Option.getD_none]

/-! ## Containers -/

theorem listedElements_eq_map (xs : List Standard) : listedElements xs = xs.map listed := by
  induction xs with
  | nil => rfl
  | cons x xs ih => exact congrArg (x.listed :: ·) ih

theorem listedMembers_eq_map (ms : List (List Part × Standard)) :
    listedMembers ms = ms.map fun m => (literalValue m.1, m.2.listed) := by
  induction ms with
  | nil => rfl
  | cons m ms ih => exact congrArg ((literalValue m.1, m.2.listed) :: ·) ih

theorem value_array (xs : List Standard) : (array xs).value = .array (xs.map value) := by
  refine congrArg Value.array ?_
  rw [listedElements_eq_map, Value.mergedElements_eq_map, List.map_map]
  rfl

theorem value_object (ms : List (List Part × Standard)) :
    (object ms).value
      = .object (Members.ofList (ms.map fun m => (literalValue m.1, m.2.value))) := by
  refine congrArg (fun members => Value.object (Members.ofList members)) ?_
  rw [listedMembers_eq_map, Value.mergedMembers_eq_map, List.map_map]
  rfl

/-- An object has each key once, at its first place and with its last value. -/
theorem exists_value_object (ms : List (List Part × Standard)) :
    ∃ ns, (object ms).value = .object ns
      ∧ Members.keys ns = (ms.map fun m => literalValue m.1).eraseDups
      ∧ ∀ key, Members.get? key ns
        = (ms.reverse.map fun m => (literalValue m.1, m.2.value)).lookup key := by
  refine ⟨_, value_object ms, ?_, ?_⟩
  · rw [Members.keys_ofList, Members.keys, List.map_map]
    rfl
  · intro key
    rw [Members.get?_ofList, List.map_reverse]

end Standard

namespace Exchange

theorem toMembers_set (key : String) (x : Exchange) (ms : List (String × Exchange)) :
    toMembers (Members.set key x ms) = Members.set key x.toValue (toMembers ms) := by
  induction ms with
  | nil => rfl
  | cons m ms ih =>
      obtain ⟨k, y⟩ := m
      rw [Members.set, toMembers, Members.set]
      split
      · rfl
      · rw [toMembers, ih]

/-- It makes no difference whether members are merged before they are exchanged or afterwards. -/
theorem toMembers_ofList (ms : List (String × Exchange)) :
    toMembers (Members.ofList ms) = Members.ofList (toMembers ms) := by
  have hall : ∀ before : List (String × Exchange),
      toMembers (Members.setAll before ms) = Members.setAll (toMembers before) (toMembers ms) := by
    induction ms with
    | nil => exact fun _ => rfl
    | cons m ms ih =>
        intro before
        obtain ⟨k, y⟩ := m
        have hbefore := ih (Members.set k y before)
        rw [toMembers_set] at hbefore
        exact hbefore
  exact hall []

end Exchange

namespace Standard

/-! ## Values that agree -/

section Agreement

variable {read : String → Option Exchange}

/-- Whether what a reader has made of a text agrees with what the text denotes. -/
structure Agrees (read : String → Option Exchange) (x : Standard) (y : Exchange) : Prop where
  pairs : x.HasPairs
  value : (x.Numerals fun n => n.number.isFinite = true) →
    x.Numerals (Numeral.IsRoundedBy read) → y.toValue = x.value

theorem agrees_array {xs : List Standard} {ys : List Exchange} (h : xs.Forall₂ (Agrees read) ys) :
    Agrees read (.array xs) (.array ys) := by
  suffices helements : AllElements IsPaired (fun _ => True) xs
      ∧ (AllElements (fun _ => True) (fun n => n.number.isFinite = true) xs →
        AllElements (fun _ => True) (Numeral.IsRoundedBy read) xs →
        Exchange.toElements ys = Value.mergedElements (listedElements xs)) from
    ⟨helements.1, fun hfinite hrounded => congrArg Value.array (helements.2 hfinite hrounded)⟩
  induction h with
  | nil => exact ⟨trivial, fun _ _ => rfl⟩
  | cons hx _ ih =>
      refine ⟨⟨hx.pairs, ih.1⟩, ?_⟩
      rintro ⟨hfinite, hfinites⟩ ⟨hrounded, hroundeds⟩
      exact congrArg₂ List.cons (hx.value hfinite hrounded) (ih.2 hfinites hroundeds)

theorem agrees_object {ms : List (List Part × Standard)} {ns : List (String × Exchange)}
    (h : ms.Forall₂ (fun m n => IsPaired m.1 ∧ n.1 = literalValue m.1 ∧ Agrees read m.2 n.2) ns) :
    Agrees read (.object ms) (.object (Members.ofList ns)) := by
  suffices hmembers : AllMembers IsPaired (fun _ => True) ms
      ∧ (AllMembers (fun _ => True) (fun n => n.number.isFinite = true) ms →
        AllMembers (fun _ => True) (Numeral.IsRoundedBy read) ms →
        Exchange.toMembers ns = Value.mergedMembers (listedMembers ms)) by
    refine ⟨hmembers.1, fun hfinite hrounded => ?_⟩
    rw [Exchange.toValue, Exchange.toMembers_ofList, hmembers.2 hfinite hrounded]
    rfl
  induction h with
  | nil => exact ⟨trivial, fun _ _ => rfl⟩
  | @cons m n _ _ hmember _ ih =>
      obtain ⟨key, x⟩ := m
      obtain ⟨k, y⟩ := n
      obtain ⟨hpaired, rfl, hx⟩ := hmember
      refine ⟨⟨hpaired, hx.pairs, ih.1⟩, ?_⟩
      rintro ⟨-, hfinite, hfinites⟩ ⟨-, hrounded, hroundeds⟩
      exact congrArg₂ (fun v vs => (literalValue key, v) :: vs) (hx.value hfinite hrounded)
        (ih.2 hfinites hroundeds)

/-- What a reader makes of a numeral agrees with it. -/
theorem agrees_number {n : Numeral} {y : Exchange}
    (hy : read (String.ofList n.text) = some y)
    (hnumber : (∃ i, n.Spells i ∧ y = .integer i) ∨ ∃ z, y = .float z) :
    Agrees read (.number n) y := by
  refine ⟨trivial, fun hfinite hrounded => ?_⟩
  rcases hnumber with ⟨i, hi, rfl⟩ | ⟨z, rfl⟩
  · exact congrArg Value.number (Numeral.ofInt_of_spells hi)
  · obtain ⟨hnegative, hnearest⟩ := hrounded z hy
    exact congrArg Value.number (Numeral.eq_number_of_isNearest hfinite hnegative hnearest)

/-- Two lists that stand against a third one stand against each other. -/
theorem forall₂_comp {α β γ : Type} {R : α → β → Prop} {S : β → γ → Prop} {T : α → γ → Prop}
    {xs : List α} {ys : List β} {zs : List γ} (hR : xs.Forall₂ R ys) (hS : ys.Forall₂ S zs)
    (h : ∀ x y z, R x y → S y z → T x z) : xs.Forall₂ T zs := by
  induction hR generalizing zs with
  | nil =>
      cases hS
      exact .nil
  | cons hxy _ ih =>
      cases hS with
      | cons hyz hS => exact .cons (h _ _ _ hxy hyz) (ih hS)

theorem agrees_of_paddedWith (hread : Exchange.ReadsStandard read) {x : Standard}
    {cs : List Char} {y : Exchange}
    (h : PaddedWith (fun x cs => ∀ y, read (String.ofList cs) = some y → Agrees read x y) x cs)
    (hy : read (String.ofList cs) = some y) : Agrees read x y := by
  obtain ⟨before, core, behind, hbefore, hbehind, hx, hagrees, rfl⟩ := h.exists_written
  rw [hread.padded hbefore hx hbehind] at hy
  exact hagrees y hy

/-- What a program that reads standard text makes of one agrees with what the text denotes. -/
theorem hereditary_agrees (hread : Exchange.ReadsStandard read) :
    Hereditary fun x cs => ∀ y, read (String.ofList cs) = some y → Agrees read x y where
  string ps y hy := by
    obtain ⟨hpaired, rfl⟩ := hread.string hy
    exact ⟨hpaired, fun _ _ => rfl⟩
  number n hn y hy := agrees_number hy (hread.number hn hy)
  bool b y hy := by
    rw [hread.bool hy]
    exact ⟨trivial, fun _ _ => rfl⟩
  null y hy := by
    rw [hread.null hy]
    exact ⟨trivial, fun _ _ => rfl⟩
  emptyArray hgap y hy := by
    rw [hread.emptyArray hgap hy]
    exact agrees_array .nil
  array hne h y hy := by
    obtain ⟨ys, rfl, hys⟩ := hread.array hne (forall_of_forall₂ h fun _ _ => PaddedWith.isPadded) hy
    exact agrees_array (forall₂_comp h hys fun _ _ _ => agrees_of_paddedWith hread)
  emptyObject hgap y hy := by
    rw [hread.emptyObject hgap hy]
    exact agrees_object .nil
  object hne h y hy := by
    obtain ⟨ns, rfl, hns⟩ :=
      hread.object hne (forall_of_forall₂ h fun _ _ => EntryWith.isPadded) hy
    refine agrees_object (forall₂_comp h hns ?_)
    rintro m e n he ⟨hpaired, hkey, hvalue⟩
    rw [he.key] at hpaired hkey
    exact ⟨hpaired, hkey, agrees_of_paddedWith hread he.text hvalue⟩

end Agreement

/-! ## Standard texts -/

/-- **Standard texts are read.** A text of the standard grammar is read as what it denotes, unless
it nests too deep or a numeral of it is too large; and where another program that reads standard
text accepts it, no surrogate in it is by itself, and the program makes the same value of it if its
arithmetic finds the nearest numbers. What a text denotes is said by the other parts of the
statement. -/
theorem ofText?_reads_standard {x : Standard} {cs : List Char} (h : Padded x cs)
    (hfinite : x.Numerals fun n => n.number.isFinite = true) {limit : Nat}
    (hnesting : x.listed.nesting ≤ limit) :
    Value.ofText? limit (String.ofList cs) = .ok x.value
    ∧ (∀ read, Exchange.ReadsStandard read → ∀ y, read (String.ofList cs) = some y →
      x.HasPairs ∧ (x.Numerals (Numeral.IsRoundedBy read) → y.toValue = x.value))
    ∧ (∀ n : Numeral, n.number.isFinite = true → n.number.isNegative = n.negative
      ∧ Number.IsNearest n.decimal.value n.number.magnitude)
    ∧ (∀ u v : Digits, isPair u v = true →
      (charOf (Text.pairCode u.unit v.unit)).toNat = Text.pairCode u.unit v.unit)
    ∧ (∀ u : Digits, Text.isHighSurrogate u.unit = true ∨ Text.isLowSurrogate u.unit = true →
      charOf u.unit = Text.replacement)
    ∧ (∀ u : Digits, Text.isHighSurrogate u.unit = false → Text.isLowSurrogate u.unit = false →
      (charOf u.unit).toNat = u.unit)
    ∧ (∀ xs : List Standard, (array xs).value = .array (xs.map value))
    ∧ ∀ ms : List (List Part × Standard), ∃ ns, (object ms).value = .object ns
      ∧ Members.keys ns = (ms.map fun m => literalValue m.1).eraseDups
      ∧ ∀ key, Members.get? key ns
        = (ms.reverse.map fun m => (literalValue m.1, m.2.value)).lookup key := by
  refine ⟨h.ofText? hfinite hnesting, ?_, fun n => Numeral.isNearest_number,
    fun u v => toNat_charOf_pairCode, fun u => charOf_of_isSurrogate, toNat_charOf_unit,
    value_array, exists_value_object⟩
  intro read hread y hy
  have hagrees := agrees_of_paddedWith hread ((hereditary_agrees hread).padded h) hy
  exact ⟨hagrees.pairs, hagrees.value hfinite⟩

/-- A numeral with all its parts. -/
def fullNumeral : Numeral :=
  ⟨true, ⟨['2'], by decide, List.all_eq_true.mp rfl⟩,
    some ⟨['5'], by decide, List.all_eq_true.mp rfl⟩,
    some ⟨'E', .inr rfl, none, ⟨['0'], by decide, List.all_eq_true.mp rfl⟩⟩⟩

theorem isRoundedBy_fullNumeral : fullNumeral.IsRoundedBy Outer.reader := by
  intro z hz
  have hfloat : ((Outer.reader (String.ofList fullNumeral.text)).bind fun y =>
      match y with
      | .float z => some z
      | _ => none) = some fullNumeral.number := by decide +kernel
  rw [hz] at hfloat
  cases hfloat
  exact Numeral.isNearest_number (by decide)

/-- An object that has one key twice, spelled in two ways, and behind it an array with a pair of
surrogates and a number. -/
def keyTwice : Standard :=
  .object
    [([.plain 'a' (by decide)], .null),
      ([.unit ⟨'0', '0', '6', '1', rfl, rfl, rfl, rfl⟩],
        .array
          [.string [.plain 'é' (by decide), .unit ⟨'d', '8', '3', 'D', rfl, rfl, rfl, rfl⟩,
              .unit ⟨'d', 'e', '0', '0', rfl, rfl, rfl, rfl⟩],
            .number fullNumeral])]

/-- A text of the object. -/
def keyTwiceText : String := "\x7b \"a\":null,\"\\u0061\" :[\"é\\ud83D\\ude00\",-2.5E0]\x7d\n"

/-- A surrogate by itself. -/
def loneSurrogate : Standard := .string [.unit ⟨'d', '8', '0', '0', rfl, rfl, rfl, rfl⟩]

/-- Both readers make the same of the object; the other one refuses the lone surrogate. -/
theorem ofText?_reads_standard_surrogates :
    Exchange.ReadsStandard Outer.reader
    ∧ (∃ y, Value.ofText? Value.defaultNesting keyTwiceText = .ok y.toValue
      ∧ Outer.reader keyTwiceText = some y
      ∧ y.toValue
        = .object [("a", .array [.string "é😀", .number (.ofDecimal true ⟨25, -1⟩)])])
    ∧ Value.ofText? Value.defaultNesting "\"\\ud800\"" = .ok (.string "\uFFFD")
    ∧ Outer.reader "\"\\ud800\"" = none := by
  have hblank : IsBlank [] := nofun
  have hspace : IsBlank [' '] := by simp [IsBlank]
  have hline : IsBlank ['\n'] := by simp [IsBlank]
  refine ⟨Outer.readsStandard_reader, ?_, ?_⟩
  · have hstandard : fullNumeral.IsStandard := .inr (by decide)
    obtain ⟨cs, hcs, htext⟩ : ∃ cs, Padded keyTwice cs ∧ String.ofList cs = keyTwiceText :=
      ⟨_, .mk hblank (.object (.mk hspace hblank (.mk hblank .null hblank))
        (.cons (.mk hblank hspace (.mk hblank (.array (.mk hblank (.string _) hblank)
          (.cons (.mk hblank (.number _ hstandard) hblank) .nil)) hblank)) .nil)) hline, rfl⟩
    have hnumber : fullNumeral.number.isFinite = true := by decide
    have hnesting : keyTwice.listed.nesting ≤ Value.defaultNesting := by decide
    have hread := ofText?_reads_standard hcs
      ⟨trivial, trivial, trivial, ⟨trivial, hnumber, trivial⟩, trivial⟩ hnesting
    rw [htext] at hread
    have hsome : (Outer.reader keyTwiceText).isSome = true := by
      decide +kernel
    obtain ⟨y, hy⟩ := Option.isSome_iff_exists.mp hsome
    have hvalue : y.toValue = keyTwice.value := by
      apply (hread.2.1 Outer.reader Outer.readsStandard_reader y hy).2
      exact ⟨trivial, trivial, trivial, ⟨trivial, isRoundedBy_fullNumeral, trivial⟩, trivial⟩
    refine ⟨y, ?_, hy, hvalue⟩
    rw [hvalue]
    exact hread.1
  · obtain ⟨cs, hcs, htext⟩ : ∃ cs, Padded loneSurrogate cs ∧ String.ofList cs = "\"\\ud800\"" :=
      ⟨_, .mk hblank (.string _) hblank, rfl⟩
    have hnesting : loneSurrogate.listed.nesting ≤ Value.defaultNesting := by decide
    have hread := ofText?_reads_standard hcs trivial hnesting
    rw [htext] at hread
    refine ⟨hread.1, ?_⟩
    apply Option.eq_none_iff_forall_ne_some.mpr
    intro y hy
    obtain ⟨hlone, -⟩ := (hread.2.1 Outer.reader Outer.readsStandard_reader y hy).1
    exact absurd hlone (by decide)

end Standard

end JsonAxes
