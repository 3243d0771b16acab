import JsonAxes.Proofs.Standard.Literal
import JsonAxes.Proofs.Value.Acceptance
import JsonAxes.Proofs.Value.Canonical

/-!
# Reading standard texts

A piece of a standard text can be put in front of any other that does not go on a numeral: it can be
escaped and opens with tokens of its own (`Standard.Front`). Put together along the grammar, the
tokens of a text spell what it denotes (`Standard.Written.exists_front`), so that it is read as
that.
-/

set_option autoImplicit false

namespace JsonAxes

namespace Standard

open Token Lexer

/-! ## Pieces in front of a text -/

/-- A text that can be escaped and that opens with some tokens. -/
structure Front (cs : List Char) (ts : List Token) : Prop where
  closed : IsClosed cs
  opens : Opens cs ts

variable {as bs cs : List Char} {ts us : List Token}

theorem Front.append (ha : Front as ts) (hb : Front bs us) (hends : EndsNumeral bs) :
    Front (as ++ bs) (ts ++ us) := by
  refine ⟨ha.closed.append hb.closed, ?_⟩
  intro rest ws hrest hyields
  rw [List.append_assoc, List.append_assoc]
  exact ha.opens _ _ (hends.append hrest) (hb.opens rest ws hrest hyields)

/-- A token in front of which nothing has to be known of what stands behind it. -/
theorem Front.cons {t : Token} {piece : List Char} (hclosed : IsClosed piece)
    (hcuts : ∀ rest, CutsInto (piece ++ rest) (IsSingle t.kind t.text.toList) rest)
    (h : Front cs ts) : Front (piece ++ cs) (t :: ts) := by
  refine ⟨hclosed.append h.closed, ?_⟩
  intro rest ws hrest hyields
  rw [List.append_assoc]
  exact .cons (hcuts _) (h.opens rest ws hrest hyields)

theorem front_nil : Front [] [] := ⟨⟨trivial, rfl⟩, opens_nil⟩

/-- White space in front of a text. -/
theorem Front.blank {gap : List Char} (h : Front cs ts) (hgap : IsBlank gap) :
    Front (gap ++ cs) ts := by
  have hblank : ∀ c ∈ gap, Token.isBlank c = true := hgap.all (by decide)
  constructor
  · refine IsClosed.append (isClosed_of_notMem fun hmem => ?_) h.closed
    exact absurd (hgap _ hmem) (by decide)
  · intro rest ws hrest hyields
    rw [List.append_assoc]
    exact (h.opens rest ws hrest hyields).skipped
      fun offset => isSkipped_of_blank hblank offset (cs ++ rest)

theorem front_blank (h : IsBlank cs) : Front cs [] := by
  have hfront := front_nil.blank h
  rwa [List.append_nil] at hfront

/-- A structural character. -/
theorem Front.mark {c : Char} (h : Front cs ts) (hc : singleKind c ≠ .unknown) :
    Front (c :: cs) (⟨singleKind c, String.ofList [c], default⟩ :: ts) := by
  have hclosed : IsClosed [c] := by
    apply isClosed_of_notMem
    intro hmem
    rw [← List.mem_singleton.mp hmem] at hc
    exact hc rfl
  have hcuts : ∀ rest, CutsInto ([c] ++ rest)
      (IsSingle (singleKind c) (String.ofList [c]).toList) rest := by
    intro rest
    rw [← isSingle_ofList]
    exact cutsInto_mark hc rest
  exact .cons hclosed hcuts h

theorem Front.literal (h : Front cs ts) (ps : List Part) :
    Front (literal ps ++ cs) (⟨.string, String.ofList (body ps), default⟩ :: ts) := by
  refine Front.cons (isClosed_literal ps) ?_ h
  intro rest
  have hcuts := cutsInto_string (isPiece_body ps) rest
  rw [isSingle_ofList] at hcuts
  simpa [Standard.literal] using hcuts

theorem front_numeral (n : Numeral) :
    Front n.text [⟨.number, String.ofList n.text, default⟩] := by
  constructor
  · exact isClosed_of_notMem n.backslash_notMem_text
  · intro rest ws hrest hyields
    have hcuts := cutsInto_numeral n hrest
    rw [isSingle_ofList] at hcuts
    exact .cons hcuts hyields

theorem front_word {kind : Kind} {word : String} (h : '\\' ∉ word.toList)
    (hcuts : ∀ rest, CutsInto (word.toList ++ rest) (IsSingle kind word.toList) rest) :
    Front word.toList [⟨kind, word, default⟩] := by
  have hcons : Front (word.toList ++ []) [⟨kind, word, default⟩] :=
    .cons (isClosed_of_notMem h) hcuts front_nil
  rwa [List.append_nil] at hcons

/-! ## Along the grammar -/

theorem WrittenElements.endsNumeral {xs : List Standard} (h : WrittenElements xs cs) :
    EndsNumeral cs := by
  cases h with
  | nil => exact endsNumeral_nil
  | cons => exact endsNumeral_cons (by decide) _

theorem WrittenMembers.endsNumeral {ms : List (List Part × Standard)}
    (h : WrittenMembers ms cs) : EndsNumeral cs := by
  cases h with
  | nil => exact endsNumeral_nil
  | cons => exact endsNumeral_cons (by decide) _

theorem stringOf_literal (ps : List Part) (span : Span) :
    Reader.stringOf ⟨.string, String.ofList (body ps), span⟩ = .ok (literalValue ps) := by
  rw [Reader.stringOf, String.toList_ofList, unescape_body]
  rfl

mutual

/-- The tokens that a text opens with spell what it is made of. -/
theorem Written.exists_front {x : Standard} {cs : List Char} (h : Written x cs)
    (hx : x.Numerals fun n => n.number.isFinite = true) :
    ∃ ts, x.listed.SpelledBy ts ∧ Front cs ts :=
  match h, hx with
  | .string ps, _ => by
      have hfront := Front.literal front_nil ps
      rw [List.append_nil] at hfront
      exact ⟨_, .string rfl (stringOf_literal ps default), hfront⟩
  | .number n _, hn => by
      refine ⟨_, .number rfl (Reader.numberOf_eq_ok_iff.mpr ⟨?_, hn⟩), front_numeral n⟩
      rw [String.toList_ofList]
      exact Numeral.ofText?_text n
  | .bool true, _ => ⟨_, .bool rfl rfl, front_word (by decide) cutsInto_true⟩
  | .bool false, _ => ⟨_, .bool rfl rfl, front_word (by decide) cutsInto_false⟩
  | .null, _ => ⟨_, .null rfl rfl, front_word (by decide) cutsInto_null⟩
  | .emptyArray hgap, _ => by
      have hclose := Front.mark (c := ']') front_nil (by decide)
      exact ⟨_, .emptyArray rfl rfl, .mark (hclose.blank hgap) (by decide)⟩
  | .array hpadded hmore, ⟨hx, hxs⟩ => by
      obtain ⟨ts, hts, hfront⟩ := hpadded.exists_front hx
      obtain ⟨us, hus, hfronts⟩ := hmore.exists_front hxs
      have hclose := Front.mark (c := ']') front_nil (by decide)
      have hends := endsNumeral_cons (c := ']') (by decide) []
      have hbehind := hfronts.append hclose hends
      have hinside := hfront.append hbehind (hmore.endsNumeral.append hends)
      exact ⟨_, .array rfl hts hus rfl, .mark hinside (by decide)⟩
  | .emptyObject hgap, _ => by
      have hclose := Front.mark (c := '\x7d') front_nil (by decide)
      exact ⟨_, .emptyObject rfl rfl, .mark (hclose.blank hgap) (by decide)⟩
  | .object hmember hmore, ⟨_, hx, hxs⟩ => by
      obtain ⟨k, d, ts, hk, hkey, hd, hts, hfront⟩ := hmember.exists_front hx
      obtain ⟨us, hus, hfronts⟩ := hmore.exists_front hxs
      have hclose := Front.mark (c := '\x7d') front_nil (by decide)
      have hends := endsNumeral_cons (c := '\x7d') (by decide) []
      have hbehind := hfronts.append hclose hends
      have hinside := hfront.append hbehind (hmore.endsNumeral.append hends)
      exact ⟨_, .object rfl hk hkey hd hts hus rfl, .mark hinside (by decide)⟩

theorem Padded.exists_front {x : Standard} {cs : List Char} (h : Padded x cs)
    (hx : x.Numerals fun n => n.number.isFinite = true) :
    ∃ ts, x.listed.SpelledBy ts ∧ Front cs ts :=
  match h, hx with
  | .mk hbefore hwritten hbehind, hx => by
      obtain ⟨ts, hts, hfront⟩ := hwritten.exists_front hx
      have hrest := hfront.append (front_blank hbehind) hbehind.endsNumeral
      rw [List.append_nil] at hrest
      exact ⟨ts, hts, hrest.blank hbefore⟩

theorem WrittenElements.exists_front {xs : List Standard} {cs : List Char}
    (h : WrittenElements xs cs)
    (hxs : AllElements (fun _ => True) (fun n => n.number.isFinite = true) xs) :
    ∃ ts, Value.ElementsSpelledBy (listedElements xs) ts ∧ Front cs ts :=
  match h, hxs with
  | .nil, _ => ⟨[], .nil, front_nil⟩
  | .cons hpadded hmore, ⟨hx, hxs⟩ => by
      obtain ⟨ts, hts, hfront⟩ := hpadded.exists_front hx
      obtain ⟨us, hus, hfronts⟩ := hmore.exists_front hxs
      exact ⟨_, .cons rfl hts hus, .mark (hfront.append hfronts hmore.endsNumeral) (by decide)⟩

theorem WrittenMember.exists_front {key : List Part} {x : Standard} {cs : List Char}
    (h : WrittenMember key x cs) (hx : x.Numerals fun n => n.number.isFinite = true) :
    ∃ k d ts, k.kind = .string ∧ Reader.stringOf k = .ok (literalValue key) ∧ d.kind = .colon
      ∧ x.listed.SpelledBy ts ∧ Front cs (k :: d :: ts) :=
  match h, hx with
  | .mk hbefore hbehind hpadded, hx => by
      obtain ⟨ts, hts, hfront⟩ := hpadded.exists_front hx
      have hcolon := hfront.mark (c := ':') (by decide)
      exact ⟨_, _, ts, rfl, stringOf_literal key default, rfl, hts,
        ((hcolon.blank hbehind).literal key).blank hbefore⟩

theorem WrittenMembers.exists_front {ms : List (List Part × Standard)} {cs : List Char}
    (h : WrittenMembers ms cs)
    (hms : AllMembers (fun _ => True) (fun n => n.number.isFinite = true) ms) :
    ∃ ts, Value.MembersSpelledBy (listedMembers ms) ts ∧ Front cs ts :=
  match h, hms with
  | .nil, _ => ⟨[], .nil, front_nil⟩
  | .cons hmember hmore, ⟨_, hx, hxs⟩ => by
      obtain ⟨k, d, ts, hk, hkey, hd, hts, hfront⟩ := hmember.exists_front hx
      obtain ⟨us, hus, hfronts⟩ := hmore.exists_front hxs
      exact ⟨_, .cons rfl hk hkey hd hts hus,
        .mark (hfront.append hfronts hmore.endsNumeral) (by decide)⟩

end

/-- A standard text, white space on either side included, is read as what it denotes. -/
theorem Padded.ofText? {x : Standard} {cs : List Char} (h : Padded x cs)
    (hfinite : x.Numerals fun n => n.number.isFinite = true) {limit : Nat}
    (hnesting : x.listed.nesting ≤ limit) :
    Value.ofText? limit (String.ofList cs) = .ok x.value := by
  obtain ⟨ts, hts, hfront⟩ := h.exists_front hfinite
  have hyields := hfront.opens [] [] endsNumeral_nil yields_nil
  rw [List.append_nil, List.append_nil] at hyields
  rw [Value.ofText?_eq_ok_iff, String.toList_ofList]
  refine ⟨hfront.closed.escapable, Value.ofCanonical?_of_yields hyields ?_⟩
  exact (Value.ofTokens?_of_spelledBy hts limit).1 hnesting

end Standard

end JsonAxes
