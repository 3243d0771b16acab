import JsonAxes.Proofs.Token.Comment

/-!
# Runs of the lexer

What the next token is, by what is skipped in front of it and by the character it begins with, and
what a run of the lexer consists of, by its first step.
-/

set_option autoImplicit false

namespace JsonAxes.Lexer

open Token

/-! ## The next token -/

theorem next_of_skipTrivia_error {offset : Nat} {cs : List Char} {e : ReadError}
    (h : skipTrivia offset cs = .error e) :
    next ⟨offset, cs⟩ = (some (.error e), ⟨offset, []⟩) := by
  simp only [next, h]

theorem next_of_skipTrivia_nil {offset offset' : Nat} {cs : List Char}
    (h : skipTrivia offset cs = .ok (offset', [])) :
    next ⟨offset, cs⟩ = (none, ⟨offset', []⟩) := by
  simp only [next, h]

theorem next_of_tokenAt_ok {offset start : Nat} {cs rest : List Char} {c : Char} {t : Token}
    {l : Lexer} (h : skipTrivia offset cs = .ok (start, c :: rest))
    (ht : tokenAt start c rest = .ok (t, l)) : next ⟨offset, cs⟩ = (some (.ok t), l) := by
  simp only [next, h, ht]

theorem next_of_tokenAt_error {offset start : Nat} {cs rest : List Char} {c : Char}
    {e : ReadError} (h : skipTrivia offset cs = .ok (start, c :: rest))
    (ht : tokenAt start c rest = .error e) :
    next ⟨offset, cs⟩ = (some (.error e), ⟨start, []⟩) := by
  simp only [next, h, ht]

/-- Where text is skipped, the next token is the one behind it. -/
theorem next_of_skipTrivia {offset start : Nat} {cs rest : List Char}
    (h : skipTrivia offset cs = .ok (start, rest)) : next ⟨offset, cs⟩ = next ⟨start, rest⟩ := by
  have hrest := skipTrivia_of_empty (first_of_skipTrivia h) start
  cases rest with
  | nil => simp only [next, h, hrest]
  | cons c rest => simp only [next, h, hrest]

theorem exists_of_next_eq_none {offset : Nat} {cs : List Char} {l : Lexer}
    (h : next ⟨offset, cs⟩ = (none, l)) :
    ∃ offset', skipTrivia offset cs = .ok (offset', []) := by
  unfold next at h
  split at h
  · cases h
  · next offset' hskip => exact ⟨offset', hskip⟩
  · split at h
    · cases h
    · cases h

theorem exists_of_next_eq_ok {offset : Nat} {cs : List Char} {t : Token} {l : Lexer}
    (h : next ⟨offset, cs⟩ = (some (.ok t), l)) :
    ∃ start c rest, skipTrivia offset cs = .ok (start, c :: rest)
      ∧ tokenAt start c rest = .ok (t, l) := by
  unfold next at h
  split at h
  · cases h
  · cases h
  · next start c rest hskip =>
    split at h
    · cases h
    · next ht =>
      cases h
      exact ⟨start, c, rest, hskip, ht⟩

/-- A character that begins no token is one that nobody takes. -/
theorem tokenAt_of_unknown {c : Char} (hquote : c ≠ '"') (hnumber : ¬ (c = '-' ∨ c.isDigit = true))
    (hletter : c ∉ ['t', 'f', 'n']) (hslash : c ≠ '/') (hkind : singleKind c = .unknown)
    (offset : Nat) (rest : List Char) :
    tokenAt offset c rest = .ok (covering .unknown offset [c] rest) := by
  simp only [List.mem_cons, List.not_mem_nil, or_false, not_or] at hletter
  obtain ⟨ht, hf, hn⟩ := hletter
  rw [tokenAt, if_neg hquote, if_neg hnumber, if_neg ht, if_neg hf, if_neg hn, if_neg hslash, hkind]

/-! ## A run by its first step -/

theorem drain_of_error {l l' : Lexer} {e : ReadError} (h : l.next = (some (.error e), l')) :
    l.drain = ⟨[], some e, l'⟩ := by
  rw [drain]
  split
  · next h' =>
    rw [h] at h'
    cases h'
  · next h' =>
    rw [h] at h'
    cases h'
    rfl
  · next h' =>
    rw [h] at h'
    cases h'

/-- A run depends on the next token only. -/
theorem drain_congr {l l' : Lexer} (h : l.next = l'.next) : l.drain = l'.drain := by
  rcases hnext : l'.next with ⟨_ | _ | t, behind⟩
  · rw [drain_of_none hnext, drain_of_none (h.trans hnext)]
  · rw [drain_of_error hnext, drain_of_error (h.trans hnext)]
  · rw [drain_of_ok hnext, drain_of_ok (h.trans hnext)]

/-- A run without an error ends where there is no token, or goes on behind its first token. -/
theorem next_of_drain {l last : Lexer} {ts : List Token} (h : l.drain = ⟨ts, none, last⟩) :
    (ts = [] ∧ ∃ l', l.next = (none, l'))
    ∨ ∃ t us l', ts = t :: us ∧ l.next = (some (.ok t), l') ∧ l'.drain = ⟨us, none, last⟩ := by
  rcases hnext : l.next with ⟨_ | _ | t, behind⟩
  · rw [drain_of_none hnext] at h
    cases h
    exact .inl ⟨rfl, last, rfl⟩
  · rw [drain_of_error hnext] at h
    cases h
  · rw [drain_of_ok hnext] at h
    obtain ⟨hts, herror, hfinal⟩ := Output.mk.inj h
    refine .inr ⟨t, behind.drain.tokens, behind, hts.symm, rfl, ?_⟩
    rw [← herror, ← hfinal]

/-- As every token takes text, there are no more tokens than characters. -/
theorem length_tokens_drain_le (l : Lexer) : l.drain.tokens.length ≤ l.rest.length := by
  fun_induction drain l with
  | case1 => exact Nat.zero_le _
  | case2 => exact Nat.zero_le _
  | case3 l t behind hnext hlt output ih => exact Nat.lt_of_le_of_lt ih hlt

end JsonAxes.Lexer

theorem JsonAxes.Token.length_of_lex {text : String} {ts : List Token} (h : lex text = .ok ts) :
    ts.length ≤ text.toList.length := by
  simp only [lex] at h
  split at h
  · cases h
    exact Lexer.length_tokens_drain_le _
  · cases h
