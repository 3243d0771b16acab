import JsonAxes.Proofs.Text.Escapable
import JsonAxes.Token.Lexer

/-!
# What has no canonical form

A character that has to be escaped may not stand directly behind a run of backslashes of odd length
(`Canonical.Misplaced`), because the last backslash of such a run begins an escape. A text has a
canonical form exactly if no character in it is misplaced, and the first one that is will be
objected to (`Canonical.ofText_exact`).

The length of a whole run says the same as the bit that is carried along from character to
character (`Canonical.begun_iff`). What is canonical already is left alone, so that nothing changes
any more when a canonical form is taken again.
-/

set_option autoImplicit false

namespace JsonAxes.Canonical

/-! ## Misplaced characters -/

/-- Whether a character may not stand behind some others: it has to be escaped, and they end in a
run of backslashes that is whole and of odd length. -/
def Misplaced (before : List Char) (c : Char) : Prop :=
  isCanonical c = false ∧ ∃ front run, before = front ++ List.replicate run '\\'
    ∧ front.getLast? ≠ some '\\' ∧ run % 2 = 1

/-- Whether a character in a text may not stand where it does. -/
def HasMisplaced (cs : List Char) : Prop :=
  ∃ before c rest, cs = before ++ c :: rest ∧ Misplaced before c

/-- A text ends in a whole run of backslashes, which may be empty. -/
theorem exists_run (cs : List Char) :
    ∃ front run, cs = front ++ List.replicate run '\\' ∧ front.getLast? ≠ some '\\' := by
  induction cs using List.reverseRecOn with
  | nil => exact ⟨[], 0, rfl, nofun⟩
  | append_singleton cs c ih =>
      by_cases hc : c = '\\'
      · obtain ⟨front, run, rfl, hfront⟩ := ih
        refine ⟨front, run + 1, ?_, hfront⟩
        rw [hc, List.append_assoc, List.replicate_succ']
      · refine ⟨cs ++ [c], 0, (List.append_nil _).symm, ?_⟩
        rw [List.getLast?_concat]
        exact fun h => hc (Option.some.inj h)

/-- Whether an escape is begun is the parity of the run of backslashes. -/
theorem begun_append_replicate {front : List Char} (hfront : front.getLast? ≠ some '\\')
    (run : Nat) : begun false (front ++ List.replicate run '\\') = (run % 2 == 1) := by
  have hstart : begun false front = false := by
    rcases List.eq_nil_or_concat' front with rfl | ⟨init, c, rfl⟩
    · rfl
    · apply begun_concat
      rintro rfl
      exact hfront (List.getLast?_concat)
  induction run with
  | zero => rw [List.replicate_zero, List.append_nil, hstart]; rfl
  | succ run ih =>
      rw [List.replicate_succ', ← List.append_assoc, begun_append, ih, begun, List.foldl_cons,
        List.foldl_nil, beq_self_eq_true, Bool.true_and]
      rcases Nat.mod_two_eq_zero_or_one run with h | h <;> simp [Nat.add_mod, h]

theorem begun_iff (cs : List Char) :
    begun false cs = true ↔ ∃ front run, cs = front ++ List.replicate run '\\'
      ∧ front.getLast? ≠ some '\\' ∧ run % 2 = 1 := by
  constructor
  · intro h
    obtain ⟨front, run, rfl, hfront⟩ := exists_run cs
    rw [begun_append_replicate hfront, beq_iff_eq] at h
    exact ⟨front, run, rfl, hfront, h⟩
  · rintro ⟨front, run, rfl, hfront, hrun⟩
    rw [begun_append_replicate hfront, beq_iff_eq]
    exact hrun

theorem misplaced_iff (before : List Char) (c : Char) :
    Misplaced before c ↔ isCanonical c = false ∧ begun false before = true := by
  rw [Misplaced, begun_iff]

/-- A text can be escaped if no character in it is misplaced. -/
theorem escapable_iff (cs : List Char) : Escapable false cs ↔ ¬ HasMisplaced cs := by
  -- from the right: each character is looked at behind all that stands in front of it
  induction cs using List.reverseRecOn with
  | nil =>
      refine iff_of_true trivial ?_
      rintro ⟨before, c, rest, hsplit, -⟩
      simp at hsplit
  | append_singleton cs c ih =>
      have hlast : HasMisplaced (cs ++ [c]) ↔ HasMisplaced cs ∨ Misplaced cs c := by
        constructor
        · rintro ⟨before, d, rest, hsplit, hd⟩
          rcases List.eq_nil_or_concat' rest with rfl | ⟨rest, e, rfl⟩
          · obtain ⟨rfl, hcd⟩ := List.append_inj' hsplit rfl
            rw [List.singleton_inj] at hcd
            exact .inr (hcd ▸ hd)
          · rw [← List.cons_append, ← List.append_assoc] at hsplit
            exact .inl ⟨before, d, rest, (List.append_inj' hsplit rfl).1, hd⟩
        · rintro (⟨before, d, rest, rfl, hd⟩ | hc)
          · exact ⟨before, d, rest ++ [c], by rw [List.append_assoc, List.cons_append], hd⟩
          · exact ⟨cs, c, [], rfl, hc⟩
      rw [escapable_append, ih, hlast, not_or, misplaced_iff, Escapable, Escapable, and_true]
      refine and_congr_right fun _ => ?_
      cases isCanonical c <;> simp

/-! ## Canonical characters -/

theorem isCanonical_of_mem_charEscape {c d : Char} (h : d ∈ Text.charEscape c) :
    isCanonical d = true := by
  rcases Text.eq_of_mem_charEscape h with rfl | rfl | ⟨n, hn, rfl⟩
  · rfl
  · rfl
  · exact (isCanonical_of_isHexDigit (Text.isHexDigit_hexDigit hn)).1

theorem isCanonical_of_mem_form {cs : List Char} {d : Char} (h : d ∈ form cs) :
    isCanonical d = true := by
  obtain ⟨_, -, hd⟩ := List.mem_flatMap.mp h
  split at hd
  · next hc =>
    rw [List.mem_singleton.mp hd]
    exact hc
  · exact isCanonical_of_mem_charEscape hd

/-- The canonical form of a text is the text itself only if it is canonical. -/
theorem form_eq_self_iff (cs : List Char) : form cs = cs ↔ ∀ c ∈ cs, isCanonical c = true :=
  ⟨fun h _ hc => isCanonical_of_mem_form (h.symm ▸ hc), form_of_all⟩

/-- Canonical characters are ASCII, so each takes one byte. -/
theorem utf8Size_of_isCanonical {c : Char} (h : isCanonical c = true) : c.utf8Size = 1 := by
  rw [Char.utf8Size_eq_one_iff]
  simp only [isCanonical, Bool.or_eq_true, Bool.and_eq_true, decide_eq_true_eq, beq_iff_eq] at h
  rcases h with (((((⟨-, hhigh⟩ | rfl) | rfl) | rfl) | rfl) | rfl) | rfl
  · exact UInt32.le_trans hhigh (by decide)
  all_goals decide

theorem utf8Length_of_isCanonical {cs : List Char} (h : ∀ c ∈ cs, isCanonical c = true) :
    Text.utf8Length cs = cs.length := by
  induction cs with
  | nil => rfl
  | cons c cs ih =>
      rw [Text.utf8Length_cons, utf8Size_of_isCanonical (h c List.mem_cons_self),
        ih fun d hd => h d (List.mem_cons_of_mem c hd), List.length_cons, Nat.add_comm]

/-! ## What is objected to -/

/-- An escape that is begun was begun by a backslash. -/
theorem exists_concat_of_begun {cs : List Char} (h : begun false cs = true) :
    ∃ before, cs = before ++ ['\\'] := by
  rcases List.eq_nil_or_concat' cs with rfl | ⟨before, c, rfl⟩
  · cases h
  · by_cases hc : c = '\\'
    · exact ⟨before, by rw [hc]⟩
    · rw [begun_concat false before hc] at h
      cases h

/-- The first misplaced character is objected to, with the backslash in front of it. -/
theorem exists_misplaced_of_ofText_eq_error {text : String} {e : ReadError}
    (h : ofText text = .error e) :
    ∃ before c rest, text.toList = (before ++ ['\\']) ++ c :: rest
      ∧ Misplaced (before ++ ['\\']) c ∧ ¬ HasMisplaced (before ++ ['\\'])
      ∧ e = .malformedEscape (String.ofList ['\\', c])
        (Lexer.spanOf (Text.utf8Length (form before)) ('\\' :: Text.charEscape c)) := by
  rw [ofText, ofChars_eq, Text.map_eq_error_iff] at h
  obtain ⟨front, c, rest, hsplit, hescapable, hbegun, hc, rfl⟩ := exists_of_ofCharsFrom_eq_error h
  obtain ⟨before, rfl⟩ := exists_concat_of_begun hbegun
  refine ⟨before, c, rest, hsplit, (misplaced_iff _ c).mpr ⟨hc, hbegun⟩,
    (escapable_iff _).mp hescapable, ?_⟩
  have hform : (form (before ++ ['\\'])).length = (form before).length + 1 := by
    rw [form_append, List.length_append]
    rfl
  rw [hform, Lexer.spanOf, Text.utf8Length_cons,
    utf8Length_of_isCanonical fun _ => isCanonical_of_mem_form,
    utf8Length_of_isCanonical fun _ => isCanonical_of_mem_charEscape,
    utf8Size_of_isCanonical rfl]
  congr 2 <;> omega

/-- **A text has a canonical form exactly if nothing in it is misplaced.** Otherwise the first
misplaced character is objected to, at the place that its escape would have, from the backslash in
front of it on, behind the canonical form of what stands there. The canonical form is the text with
all that is not canonical escaped; it is the text itself if and only if that is canonical, and it is
its own canonical form. -/
theorem ofText_exact (text : String) :
    ((∃ e, ofText text = .error e) ↔ HasMisplaced text.toList)
    ∧ (∀ e, ofText text = .error e → ∃ before c rest,
      text.toList = (before ++ ['\\']) ++ c :: rest
      ∧ Misplaced (before ++ ['\\']) c ∧ ¬ HasMisplaced (before ++ ['\\'])
      ∧ e = .malformedEscape (String.ofList ['\\', c])
        (Lexer.spanOf (Text.utf8Length (form before)) ('\\' :: Text.charEscape c)))
    ∧ ∀ canonical, ofText text = .ok canonical →
      canonical = String.ofList (form text.toList)
      ∧ (∀ c ∈ canonical.toList, isCanonical c = true)
      ∧ (isUnchanged text = true ↔ ∀ c ∈ text.toList, isCanonical c = true)
      ∧ (isUnchanged text = true ↔ canonical = text)
      ∧ isUnchanged canonical = true ∧ ofText canonical = .ok canonical := by
  refine ⟨⟨?_, ?_⟩, fun e => exists_misplaced_of_ofText_eq_error, fun canonical h => ?_⟩
  · rintro ⟨e, he⟩
    obtain ⟨before, c, rest, hsplit, hc, -, -⟩ := exists_misplaced_of_ofText_eq_error he
    exact ⟨before ++ ['\\'], c, rest, hsplit, hc⟩
  · intro hmisplaced
    have hnot : ¬ Escapable false text.toList :=
      fun h => (escapable_iff _).mp h hmisplaced
    obtain ⟨escape, span, herror⟩ := exists_ofText_eq_error hnot
    exact ⟨_, herror⟩
  · obtain ⟨-, rfl⟩ := (ofText_eq_ok_iff text canonical).mp h
    have hall : ∀ c ∈ (String.ofList (form text.toList)).toList, isCanonical c = true := by
      rw [String.toList_ofList]
      exact fun _ => isCanonical_of_mem_form
    have hunchanged : isUnchanged text = true ↔ ∀ c ∈ text.toList, isCanonical c = true :=
      List.all_eq_true
    have hcanonical : isUnchanged (String.ofList (form text.toList)) = true :=
      List.all_eq_true.mpr hall
    refine ⟨rfl, hall, hunchanged, ?_, hcanonical, ofText_of_isUnchanged hcanonical⟩
    rw [hunchanged, ← form_eq_self_iff, ← String.toList_inj, String.toList_ofList]

/-- The second of three backslashes begins no escape, but the third does. -/
theorem ofText_exact_oddRun :
    (ofText "\\\\\\😀" = .error (.malformedEscape "\\😀" ⟨2, 15⟩)
      ∧ HasMisplaced "\\\\\\😀".toList)
    ∧ ofText "\\\\é" = .ok "\\\\\\u00e9" ∧ isUnchanged "\\\\é" = false
    ∧ ofText "\\\\\\u00e9" = .ok "\\\\\\u00e9" := by
  have herror : ofText "\\\\\\😀" = .error (.malformedEscape "\\😀" ⟨2, 15⟩) := by decide
  have hok : ofText "\\\\é" = .ok "\\\\\\u00e9" := by decide
  obtain ⟨hfails, -⟩ := ofText_exact "\\\\\\😀"
  obtain ⟨-, -, hform⟩ := ofText_exact "\\\\é"
  obtain ⟨-, -, -, hsame, -, hagain⟩ := hform _ hok
  refine ⟨⟨herror, hfails.mp ⟨_, herror⟩⟩, hok, ?_, hagain⟩
  rw [← Bool.not_eq_true, hsame]
  decide

end JsonAxes.Canonical
