import JsonAxes.Proofs.Token.Writing
import JsonAxes.Proofs.Value.Signs

/-!
# Layouts and white space

Layouts that escape the same characters print the same signs and differ in the white space in front
of them. So what they print is the same text once the white space outside of string literals is
taken out, which is what is printed without any; and as numbers never stand side by side, it is cut
into the same tokens (`Value.print_spacing`).
-/

set_option autoImplicit false

namespace JsonAxes

namespace Token

/-- Whether a text is cut into tokens of some kinds and texts. -/
def LexesAs (text : String) (forms : List (Kind × String)) : Prop :=
  ∃ ts, lex text = .ok ts ∧ ts.map (fun t => (t.kind, t.text)) = forms

theorem isGap_of_blank {cs : List Char} (h : ∀ c ∈ cs, c = '\n' ∨ c = ' ') : IsGap false cs := by
  induction cs with
  | nil => exact .nil
  | cons c cs ih =>
      obtain ⟨hc, hcs⟩ := List.forall_mem_cons.mp h
      refine .blank ?_ (ih hcs)
      rcases hc with rfl | rfl
      · rfl
      · rfl

end Token

namespace Layout

open Text Token Value

/-- Without white space printed text is what is printed in the compact layout. -/
theorem withoutBlanks_valueText (l : Layout) (v : Value) :
    withoutBlanks (l.valueText 0 v) = l.tight.valueText 0 v := by
  calc withoutBlanks (l.valueText 0 v)
      = (v.pieces .tight 0).flatMap fun p => withoutBlanks (l.pieceText p) := by
        rw [valueText_eq_flatMap, withoutBlanks_flatMap l.endsOutside_pieceText]
    _ = (v.pieces .tight 0).flatMap l.tight.pieceText := by
        simp only [withoutBlanks_pieceText, ← pieceText_tight]
    _ = l.tight.valueText 0 v := (valueText_eq_flatMap l.tight 0 v).symm

/-! ## Numbers do not stand side by side -/

def Sign.isNumber : Sign → Bool
  | .number _ => true
  | _ => false

theorem Sign.isNumber_of_kind {s : Sign} (h : s.kind = .number) : s.isNumber = true := by
  cases s with
  | number n => rfl
  | _ => cases h

/-- Whether of two pieces, one behind the other, one is no number. -/
def Piece.Apart (p q : Piece) : Prop := p.sign.isNumber = true → q.sign.isNumber = false

/-- Whether some pieces may stand behind any others: the first is no number. -/
structure Follow (ps : List Piece) : Prop where
  isChain : ps.IsChain Piece.Apart
  head : ∀ p ∈ ps.head?, p.sign.isNumber = false

variable {p : Piece} {ps qs : List Piece}

/-- What is no number may stand in front of any pieces. -/
theorem isChain_mark (hp : p.sign.isNumber = false) (hps : ps.IsChain Piece.Apart) :
    (p :: ps).IsChain Piece.Apart := by
  refine List.isChain_cons.mpr ⟨fun q _ hnumber => ?_, hps⟩
  rw [hp] at hnumber
  cases hnumber

theorem follow_cons (hp : p.sign.isNumber = false) (hps : ps.IsChain Piece.Apart) :
    Follow (p :: ps) := by
  constructor
  · exact isChain_mark hp hps
  · rintro q ⟨⟩
    exact hp

theorem follow_singleton (hp : p.sign.isNumber = false) : Follow [p] := follow_cons hp .nil

/-- Any pieces may stand in front of those. -/
theorem Follow.append (hqs : Follow qs) (hps : ps.IsChain Piece.Apart) :
    (ps ++ qs).IsChain Piece.Apart :=
  hps.append hqs.isChain fun _ _ q hq _ => hqs.head q hq

mutual

theorem isChain_pieces (slot : Slot) (depth : Nat) (v : Value) :
    (v.pieces slot depth).IsChain Piece.Apart := by
  cases v with
  | array vs =>
      cases vs with
      | nil =>
          rw [pieces]
          exact isChain_mark rfl (.singleton _)
      | cons v vs =>
          have hclose : Follow [⟨.edge, depth, .arrayClose⟩] := follow_singleton rfl
          have hbehind := follow_elementPieces (depth + 1) vs hclose
          rw [pieces]
          exact isChain_mark rfl (hbehind.append (isChain_pieces .edge (depth + 1) v))
  | object ms =>
      cases ms with
      | nil =>
          rw [pieces]
          exact isChain_mark rfl (.singleton _)
      | cons m ms =>
          obtain ⟨key, v⟩ := m
          have hclose : Follow [⟨.edge, depth, .objectClose⟩] := follow_singleton rfl
          have hbehind := follow_memberPieces (depth + 1) ms hclose
          have hvalue := hbehind.append (isChain_pieces .value (depth + 1) v)
          rw [pieces]
          exact isChain_mark rfl (isChain_mark rfl (isChain_mark rfl hvalue))
  | _ => exact .singleton _

theorem follow_elementPieces (depth : Nat) (vs : List Value) {behind : List Piece}
    (h : Follow behind) : Follow (elementPieces depth vs ++ behind) := by
  cases vs with
  | nil => exact h
  | cons v vs =>
      have hbehind := follow_elementPieces depth vs h
      rw [elementPieces, List.cons_append, List.append_assoc]
      exact follow_cons rfl (hbehind.append (isChain_pieces .element depth v))

theorem follow_memberPieces (depth : Nat) (ms : List (String × Value)) {behind : List Piece}
    (h : Follow behind) : Follow (memberPieces depth ms ++ behind) := by
  cases ms with
  | nil => exact h
  | cons m ms =>
      obtain ⟨key, v⟩ := m
      have hvalue := (follow_memberPieces depth ms h).append (isChain_pieces .value depth v)
      rw [memberPieces, List.cons_append, List.cons_append, List.cons_append, List.append_assoc]
      exact follow_cons rfl (isChain_mark rfl (isChain_mark rfl hvalue))

end

/-! ## Tokens -/

theorem isGap_slotText (l : Layout) (depth : Nat) (slot : Slot) :
    IsGap false (l.slotText depth slot) := isGap_of_blank fun _ => mem_slotText

/-- A piece as the lexeme of its sign, with the white space in front of it as a gap. -/
def Piece.spaced (l : Layout) (f : Sign → Lexeme) (p : Piece) : Spaced :=
  ⟨l.slotText p.depth p.slot, f p.sign, l.isGap_slotText p.depth p.slot⟩

/-- What is printed is cut into the lexemes of its signs. -/
theorem lexesAs_print {l : Layout} {f : Sign → Lexeme}
    (hwritten : ∀ s, (f s).written = l.signText s) (hkind : ∀ s, (f s).kind = s.kind) (v : Value) :
    LexesAs (v.print l) ((v.pieces .tight 0).map fun p =>
      ((f p.sign).kind, String.ofList (f p.sign).text)) := by
  have hchain : ((v.pieces .tight 0).map (Piece.spaced l f)).IsChain Spaced.Apart := by
    apply List.isChain_map_of_isChain _ _ (isChain_pieces .tight 0 v)
    intro p q hapart hp hq _
    have hp' := Sign.isNumber_of_kind ((hkind p.sign).symm.trans hp)
    have hq' := Sign.isNumber_of_kind ((hkind q.sign).symm.trans hq)
    rw [hapart hp'] at hq'
    cases hq'
  have htext : ((v.pieces .tight 0).map (Piece.spaced l f)).flatMap Spaced.written
      = l.valueText 0 v := by
    have hpiece : ∀ p : Piece, (p.spaced l f).written = l.pieceText p :=
      fun p => congrArg (l.slotText p.depth p.slot ++ ·) (hwritten p.sign)
    rw [List.flatMap_map, valueText_eq_flatMap]
    exact List.flatMap_congr fun p _ => hpiece p
  obtain ⟨ts, last, hdrain, hts⟩ := Lexer.exists_drain_written hchain .nil 0
  rw [htext, List.append_nil] at hdrain
  rw [List.map_map] at hts
  refine ⟨ts, ?_, hts⟩
  rw [Token.lex, Lexer.ofText, Value.print, String.toList_ofList, hdrain]

end Layout

namespace Value

open Text Token Layout

/-- **Switches and indentation change white space only.** Whatever value is printed in two layouts
that escape the same characters, the texts are the same without the spaces and line feeds outside of
string literals, namely what the compact layout prints; and all three are cut into tokens of the
same kinds and texts. -/
theorem print_spacing (v : Value) {l l' : Layout} (h : l.asciiOnly = l'.asciiOnly) :
    (withoutBlanks (v.print l).toList = (v.print l.tight).toList
      ∧ withoutBlanks (v.print l').toList = (v.print l.tight).toList)
    ∧ ∃ forms, LexesAs (v.print l) forms ∧ LexesAs (v.print l') forms
      ∧ LexesAs (v.print l.tight) forms := by
  have htight : l'.tight = l.tight := by
    rw [tight, tight, h]
  have hblanks : ∀ m : Layout, withoutBlanks (v.print m).toList = (v.print m.tight).toList := by
    intro m
    rw [print, print, String.toList_ofList, String.toList_ofList, withoutBlanks_valueText]
  -- the lexemes of the signs are the same in all three layouts
  choose f hf using l.exists_lexeme
  have hlexes : ∀ m : Layout, m.asciiOnly = l.asciiOnly →
      LexesAs (v.print m) ((v.pieces .tight 0).map fun p =>
        ((f p.sign).kind, String.ofList (f p.sign).text)) := by
    intro m hm
    apply lexesAs_print _ fun s => (hf s).2
    intro s
    rw [(hf s).1, signText_congr hm]
  refine ⟨⟨hblanks l, ?_⟩, _, hlexes l rfl, hlexes l' h.symm, hlexes l.tight rfl⟩
  rw [hblanks l', htight]

/-- A value with a space and a bracket in a key. -/
def bracketInKey : Value := .object [(" [", .array [.bool true, .array [], .null])]

theorem print_spacing_bracketInKey :
    (withoutBlanks (bracketInKey.print .pretty).toList
        = "\x7b\" [\":[true,[],null]\x7d".toList
      ∧ withoutBlanks (bracketInKey.print { lineBreakAfterKey := true, indent := 3 }).toList
        = "\x7b\" [\":[true,[],null]\x7d".toList)
    ∧ ∃ forms, LexesAs (bracketInKey.print .pretty) forms
      ∧ LexesAs (bracketInKey.print { lineBreakAfterKey := true, indent := 3 }) forms
      ∧ LexesAs "\x7b\" [\":[true,[],null]\x7d" forms := by
  have hescaped : Layout.pretty.asciiOnly
      = ({ lineBreakAfterKey := true, indent := 3 } : Layout).asciiOnly := rfl
  exact print_spacing bracketInKey hescaped

end Value

end JsonAxes
