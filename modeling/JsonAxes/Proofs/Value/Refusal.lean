import JsonAxes.Proofs.Value.Acceptance

/-!
# What is objected to at a token

Whatever has been read, there are a few objections only that can be made to a token
(`Reader.Objection`): it is not what comes next, it opens one container too many, or its own text is
not as its kind wants it.
-/

set_option autoImplicit false

namespace JsonAxes.Reader

open Token
open Text (map_eq_error_iff)

/-- The objections that can be made to a token. -/
inductive Objection (limit : Nat) (t : Token) : ReadError → Prop
  | unexpected (r : Reader) : Objection limit t (r.refuse t.display t.span)
  | tooDeep (hkind : t.kind = .objectOpen ∨ t.kind = .arrayOpen) :
      Objection limit t (.nestingTooDeep limit t.span)
  | string {e : ReadError} (hkind : t.kind = .string) (h : stringOf t = .error e) :
      Objection limit t e
  | number {e : ReadError} (hkind : t.kind = .number) (h : numberOf t = .error e) :
      Objection limit t e
  | bool {e : ReadError} (hkind : t.kind = .bool) (h : boolOf t = .error e) :
      Objection limit t e
  | null {e : ReadError} (hkind : t.kind = .null) (h : nullOf t = .error e) :
      Objection limit t e

variable {limit : Nat} {t : Token} {e : ReadError}

theorem Objection.of_enter {outer : List OpenContainer} {inside : Reader}
    (hkind : t.kind = .objectOpen ∨ t.kind = .arrayOpen)
    (h : enter limit t outer inside = .error e) : Objection limit t e := by
  unfold enter at h
  split at h
  · cases h
  · cases h
    exact .tooDeep hkind

theorem Objection.of_beginValue? {outer : List OpenContainer}
    (h : beginValue? limit t outer = some (.error e)) : Objection limit t e := by
  unfold beginValue? at h
  split at h
  · next hk => exact .string hk (map_eq_error_iff.mp (Option.some.inj h))
  · next hk => exact .number hk (map_eq_error_iff.mp (Option.some.inj h))
  · next hk => exact .bool hk (map_eq_error_iff.mp (Option.some.inj h))
  · next hk => exact .null hk (map_eq_error_iff.mp (Option.some.inj h))
  · next hk => exact .of_enter (.inl hk) (Option.some.inj h)
  · next hk => exact .of_enter (.inr hk) (Option.some.inj h)
  · cases h

/-- A token that does not begin a value is refused where one has to come. -/
theorem Objection.of_getD {r : Reader} {outer : List OpenContainer}
    (h : (beginValue? limit t outer).getD (.error (r.refuse t.display t.span)) = .error e) :
    Objection limit t e := by
  cases hvalue : beginValue? limit t outer with
  | none =>
      rw [hvalue] at h
      cases h
      exact .unexpected r
  | some x =>
      rw [hvalue] at h
      exact .of_beginValue? (hvalue.trans (congrArg some h))

/-- Nothing else is objected to at a token. -/
theorem Objection.of_step {r : Reader} (h : r.step limit t = .error e) : Objection limit t e := by
  -- besides beginning a value, a token is refused as the wrong one, or its key is broken
  have hrefused : ∀ r : Reader, r.refuse t.display t.span = e → Objection limit t e := by
    rintro r rfl
    exact .unexpected r
  have hkey : ∀ f : String → Reader, t.kind = .string → (stringOf t).map f = .error e →
      Objection limit t e :=
    fun f hk hmap => .string hk (map_eq_error_iff.mp hmap)
  cases r with
  | value outer => exact .of_getD h
  | firstElement outer =>
      simp only [step] at h
      split at h
      · cases h
      · exact .of_getD h
  | afterElement elements outer =>
      simp only [step] at h
      split at h
      · cases h
      · split at h
        · cases h
        · exact hrefused _ (Except.error.inj h)
  | firstKey outer =>
      simp only [step] at h
      split at h
      · next hk => exact hkey _ hk h
      · split at h
        · cases h
        · exact hrefused _ (Except.error.inj h)
  | nextKey members outer =>
      simp only [step] at h
      split at h
      · next hk => exact hkey _ hk h
      · exact hrefused _ (Except.error.inj h)
  | colon members key outer =>
      simp only [step] at h
      split at h
      · cases h
      · exact hrefused _ (Except.error.inj h)
  | afterMember members outer =>
      simp only [step] at h
      split at h
      · cases h
      · split at h
        · cases h
        · exact hrefused _ (Except.error.inj h)
  | done v => exact hrefused _ (Except.error.inj h)

/-! ## Texts of literals -/

theorem eq_of_numberOf_eq_error (h : numberOf t = .error e) :
    e = .numberOutOfRange t.text t.span
      ∨ Number.ofText? t.text.toList = none ∧ e = .unknownToken t.text t.span := by
  unfold numberOf at h
  split at h
  · next hnone =>
    cases h
    exact .inr ⟨hnone, rfl⟩
  · split at h
    · cases h
    · cases h
      exact .inl rfl

end JsonAxes.Reader
