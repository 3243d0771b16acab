import JsonAxes.Proofs.Text.Lossy
import JsonAxes.Proofs.Token.Outline
import JsonAxes.Proofs.Value.Read
import JsonAxes.Proofs.Value.Refusal

/-!
# The nesting limit

The containers that are open are as many as brackets were opened and not closed
(`Reader.openCount_of_run`). A limit is asked for at opening brackets only, and there it is compared
with that number (`Reader.Takes`). So a reader under a limit does what one without does, up to the
first bracket that would open a container within as many as the limit allows: that bracket is the
error (`Value.ofTokens?_limit`). A limit of as many containers as there are tokens is none.
-/

set_option autoImplicit false

namespace JsonAxes

namespace Token

/-- How many of some tokens open a container. -/
def openings (ts : List Token) : Nat := ts.countP (·.kind.opens)

/-- How many of some tokens close a container. -/
def closings (ts : List Token) : Nat := ts.countP (·.kind.closes)

end Token

/-- Whether an error is about nesting. -/
def ReadError.isTooDeep : ReadError → Bool
  | nestingTooDeep .. => true
  | _ => false

namespace Reader

variable {limit d : Nat} {r r' : Reader} {t : Token} {ts : List Token} {e : ReadError}
  {outer : List OpenContainer}

/-! ## Errors that have nothing to do with nesting -/

theorem isTooDeep_refuse (r : Reader) (got : String) (span : Span) :
    (r.refuse got span).isTooDeep = false := by
  cases r <;> rfl

theorem isTooDeep_of_stringOf (h : stringOf t = .error e) : e.isTooDeep = false := by
  obtain ⟨front, bad, -, -, -, rfl⟩ :=
    Text.exists_stray_of_unescape_eq_error (Text.map_eq_error_iff.mp h)
  rw [Text.strayError]
  cases bad.tail.head? <;> rfl

theorem isTooDeep_of_numberOf (h : numberOf t = .error e) : e.isTooDeep = false := by
  obtain rfl | ⟨-, rfl⟩ := eq_of_numberOf_eq_error h <;> rfl

theorem isTooDeep_of_boolOf (h : boolOf t = .error e) : e.isTooDeep = false := by
  unfold boolOf at h
  split at h
  · cases h
  · split at h
    · cases h
    · cases h
      rfl

theorem isTooDeep_of_nullOf (h : nullOf t = .error e) : e.isTooDeep = false := by
  unfold nullOf at h
  split at h
  · cases h
  · cases h
    rfl

/-! ## Open containers -/

/-- How many containers are open. -/
def openCount : Reader → Nat
  | value outer => outer.length
  | firstElement outer => outer.length + 1
  | afterElement _ outer => outer.length + 1
  | firstKey outer => outer.length + 1
  | nextKey _ outer => outer.length + 1
  | colon _ _ outer => outer.length + 1
  | afterMember _ outer => outer.length + 1
  | done _ => 0

@[simp] theorem openCount_complete (v : Value) (outer : List OpenContainer) :
    (complete v outer).openCount = outer.length := by
  cases outer with
  | nil => rfl
  | cons c outer => cases c <;> rfl

/-- What a reader does with a token, whatever the limit: it opens a container if there is room for
one, or does something that the limit has no part in. -/
inductive Takes (r : Reader) (t : Token) : Prop where
  | opens (hkind : t.kind.opens = true) (inside : Reader)
      (hcount : inside.openCount = r.openCount + 1)
      (hstep : ∀ limit, r.step limit t
        = if r.openCount < limit then .ok inside else .error (.nestingTooDeep limit t.span))
  | passes (r' : Reader) (hkind : t.kind.opens = false)
      (hcount : r'.openCount + (if t.kind.closes then 1 else 0) = r.openCount)
      (hstep : ∀ limit, r.step limit t = .ok r')
  | fails (e : ReadError) (hdeep : e.isTooDeep = false)
      (hstep : ∀ limit, r.step limit t = .error e)

/-- A token that is not what comes next. -/
theorem Takes.of_refuse (hstep : ∀ limit, r.step limit t = .error (r.refuse t.display t.span)) :
    r.Takes t := .fails _ (isTooDeep_refuse r t.display t.span) hstep

/-- A token whose text has to be resolved passes or fails. -/
theorem Takes.of_map {α : Type} {x : Except ReadError α} {f : α → Reader}
    (hstep : ∀ limit, r.step limit t = x.map f) (hdeep : ∀ e, x = .error e → e.isTooDeep = false)
    (hopens : t.kind.opens = false) (hcloses : t.kind.closes = false)
    (hcount : ∀ a, (f a).openCount = r.openCount) : r.Takes t := by
  cases x with
  | error e => exact .fails e (hdeep e rfl) hstep
  | ok a =>
      refine .passes (f a) hopens ?_ hstep
      rw [hcloses, hcount]
      rfl

/-- A key passes or fails. -/
theorem Takes.of_key {f : String → Reader} (hkind : t.kind = .string)
    (hstep : ∀ limit, r.step limit t = (stringOf t).map f)
    (hcount : ∀ key, (f key).openCount = r.openCount) : r.Takes t :=
  .of_map hstep (fun _ => isTooDeep_of_stringOf) (by rw [hkind]; rfl) (by rw [hkind]; rfl) hcount

/-- A bracket opens a container where a value may come. -/
theorem Takes.of_enter {inside : Reader}
    (hstep : ∀ limit, r.step limit t = enter limit t outer inside)
    (hopens : t.kind.opens = true) (houter : r.openCount = outer.length)
    (hcount : inside.openCount = outer.length + 1) : r.Takes t := by
  refine .opens hopens inside (houter ▸ hcount) fun limit => ?_
  rw [hstep, enter, houter]

/-- What is done with a token where a value may come. -/
theorem Takes.of_beginValue?
    (hstep : ∀ limit, r.step limit t
      = (beginValue? limit t outer).getD (.error (r.refuse t.display t.span)))
    (hcount : r.openCount = outer.length) : r.Takes t := by
  have hcomplete : ∀ v, (complete v outer).openCount = r.openCount := by simp [hcount]
  simp only [beginValue?] at hstep
  cases hkind : t.kind with
  | string =>
      rw [hkind] at hstep
      exact .of_key hkind hstep fun s => hcomplete (.string s)
  | number =>
      rw [hkind] at hstep
      exact .of_map hstep (fun _ => isTooDeep_of_numberOf) (by rw [hkind]; rfl) (by rw [hkind]; rfl)
        fun n => hcomplete (.number n)
  | bool =>
      rw [hkind] at hstep
      exact .of_map hstep (fun _ => isTooDeep_of_boolOf) (by rw [hkind]; rfl) (by rw [hkind]; rfl)
        fun b => hcomplete (.bool b)
  | null =>
      rw [hkind] at hstep
      exact .of_map hstep (fun _ => isTooDeep_of_nullOf) (by rw [hkind]; rfl) (by rw [hkind]; rfl)
        fun _ => hcomplete .null
  | objectOpen =>
      rw [hkind] at hstep
      exact .of_enter hstep (by rw [hkind]; rfl) hcount rfl
  | arrayOpen =>
      rw [hkind] at hstep
      exact .of_enter hstep (by rw [hkind]; rfl) hcount rfl
  | objectClose | arrayClose | colon | comma | unknown =>
      rw [hkind] at hstep
      exact .of_refuse hstep

/-- A token that leaves as many containers open. -/
theorem Takes.of_mark (hstep : ∀ limit, r.step limit t = .ok r') (hopens : t.kind.opens = false)
    (hcloses : t.kind.closes = false) (hcount : r'.openCount = r.openCount) : r.Takes t := by
  refine .passes r' hopens ?_ hstep
  rw [hcloses, hcount]
  rfl

/-- A bracket that closes the innermost container. -/
theorem Takes.of_close {v : Value} (hstep : ∀ limit, r.step limit t = .ok (complete v outer))
    (hopens : t.kind.opens = false) (hcloses : t.kind.closes = true)
    (hcount : r.openCount = outer.length + 1) : r.Takes t := by
  refine .passes _ hopens ?_ hstep
  rw [openCount_complete, hcloses, hcount]
  rfl

/-- Whatever the reader, these are the things it does. -/
theorem takes (r : Reader) (t : Token) : r.Takes t := by
  cases r with
  | value outer => exact .of_beginValue? (fun _ => rfl) rfl
  | firstElement outer =>
      by_cases hclose : t.kind = .arrayClose
      · exact .of_close (fun _ => if_pos hclose) (by rw [hclose]; rfl) (by rw [hclose]; rfl) rfl
      · exact .of_beginValue? (fun _ => if_neg hclose) rfl
  | afterElement elements outer =>
      by_cases hcomma : t.kind = .comma
      · exact .of_mark (fun _ => if_pos hcomma) (by rw [hcomma]; rfl) (by rw [hcomma]; rfl) rfl
      · by_cases hclose : t.kind = .arrayClose
        · exact .of_close (fun _ => (if_neg hcomma).trans (if_pos hclose)) (by rw [hclose]; rfl)
            (by rw [hclose]; rfl) rfl
        · exact .of_refuse fun _ => (if_neg hcomma).trans (if_neg hclose)
  | firstKey outer =>
      by_cases hstring : t.kind = .string
      · exact .of_key hstring (fun _ => if_pos hstring) fun _ => rfl
      · by_cases hclose : t.kind = .objectClose
        · exact .of_close (fun _ => (if_neg hstring).trans (if_pos hclose)) (by rw [hclose]; rfl)
            (by rw [hclose]; rfl) rfl
        · exact .of_refuse fun _ => (if_neg hstring).trans (if_neg hclose)
  | nextKey members outer =>
      by_cases hstring : t.kind = .string
      · exact .of_key hstring (fun _ => if_pos hstring) fun _ => rfl
      · exact .of_refuse fun _ => if_neg hstring
  | colon members key outer =>
      by_cases hcolon : t.kind = .colon
      · exact .of_mark (fun _ => if_pos hcolon) (by rw [hcolon]; rfl) (by rw [hcolon]; rfl) rfl
      · exact .of_refuse fun _ => if_neg hcolon
  | afterMember members outer =>
      by_cases hcomma : t.kind = .comma
      · exact .of_mark (fun _ => if_pos hcomma) (by rw [hcomma]; rfl) (by rw [hcomma]; rfl) rfl
      · by_cases hclose : t.kind = .objectClose
        · exact .of_close (fun _ => (if_neg hcomma).trans (if_pos hclose)) (by rw [hclose]; rfl)
            (by rw [hclose]; rfl) rfl
        · exact .of_refuse fun _ => (if_neg hcomma).trans (if_neg hclose)
  | done v => exact .of_refuse fun _ => rfl

/-! ## Brackets and open containers -/

/-- A token that is taken changes the number of open containers by what it opens and closes. -/
theorem openCount_of_step (h : r.step limit t = .ok r') :
    r'.openCount + Token.closings [t] = r.openCount + Token.openings [t] := by
  cases r.takes t with
  | opens hkind inside hcount hstep =>
      have hcloses : t.kind.closes = false := by
        cases hk : t.kind <;> rw [hk] at hkind <;> first | rfl | cases hkind
      rw [hstep] at h
      split at h
      · cases h
        simp [Token.openings, Token.closings, hkind, hcloses, hcount]
      · cases h
  | passes r'' hkind hcount hstep =>
      rw [hstep] at h
      cases h
      simp only [Token.openings, Token.closings, List.countP_cons, List.countP_nil, hkind,
        Nat.zero_add]
      rw [hcount]
      rfl
  | fails e _ hstep =>
      rw [hstep] at h
      cases h

theorem openings_cons (t : Token) (ts : List Token) :
    Token.openings (t :: ts) = Token.openings [t] + Token.openings ts := by
  simp only [Token.openings, List.countP_cons, List.countP_nil]
  omega

theorem closings_cons (t : Token) (ts : List Token) :
    Token.closings (t :: ts) = Token.closings [t] + Token.closings ts := by
  simp only [Token.closings, List.countP_cons, List.countP_nil]
  omega

/-- The open containers are the brackets opened and not closed. -/
theorem openCount_of_run (h : r.run limit ts = .ok r') :
    r'.openCount + Token.closings ts = r.openCount + Token.openings ts := by
  induction ts generalizing r with
  | nil =>
      cases h
      rfl
  | cons t ts ih =>
      rw [run_cons] at h
      cases hstep : r.step limit t with
      | error e =>
          rw [hstep] at h
          cases h
      | ok r'' =>
          rw [hstep] at h
          have hfirst := openCount_of_step hstep
          have hrest := ih h
          rw [openings_cons, closings_cons]
          omega

end Reader

namespace Value

/-- A value opens as many containers as it closes. -/
theorem SpelledBy.openings_eq {v : Value} {ts : List Token} (h : v.SpelledBy ts) :
    Token.openings ts = Token.closings ts := by
  have hreaches := Reader.reaches_value h [] (Nat.zero_le v.nesting)
  rw [List.length_nil, Nat.zero_add, Reader.Reaches, if_pos (Nat.le_refl _)] at hreaches
  have hcount := Reader.openCount_of_run hreaches
  rw [Reader.openCount_complete] at hcount
  simp only [Reader.openCount, List.length_nil] at hcount
  omega

end Value

namespace Reader

variable {limit d : Nat} {r r' : Reader} {t : Token} {ts : List Token} {e : ReadError}

/-! ## One container too many -/

/-- Whether a reader under a limit takes the token at an index of some tokens, and this opens a
container within so many that are open already. -/
structure OpensAt (limit d : Nat) (r : Reader) (ts : List Token) (i : Nat) (t : Token) : Prop where
  token : ts[i]? = some t
  opens : t.kind.opens = true
  taken : ∃ r', r.run limit (ts.take (i + 1)) = .ok r'
  inside : r.openCount + Token.openings (ts.take i) = Token.closings (ts.take i) + d

theorem run_singleton (limit : Nat) (r : Reader) (t : Token) :
    r.run limit [t] = r.step limit t := by
  rw [run_cons]
  cases r.step limit t <;> rfl

theorem opensAt_zero_iff {u : Token} : OpensAt limit d r (t :: ts) 0 u
    ↔ t = u ∧ t.kind.opens = true ∧ (∃ r', r.step limit t = .ok r') ∧ r.openCount = d := by
  have hrun : r.run limit ((t :: ts).take 1) = r.step limit t := run_singleton limit r t
  constructor
  · rintro ⟨htoken, hopens, htaken, hinside⟩
    cases htoken
    rw [hrun] at htaken
    exact ⟨rfl, hopens, htaken, by simpa [Token.openings, Token.closings] using hinside⟩
  · rintro ⟨rfl, hopens, htaken, rfl⟩
    refine ⟨rfl, hopens, hrun ▸ htaken, ?_⟩
    simp [Token.openings, Token.closings]

/-- What opens behind a token that was taken opens for the reader that this leaves. -/
theorem opensAt_succ_iff {u : Token} {i : Nat} (h : r.step limit t = .ok r') :
    OpensAt limit d r (t :: ts) (i + 1) u ↔ OpensAt limit d r' ts i u := by
  have hcount := openCount_of_step h
  have hrun : ∀ us, r.run limit (t :: us) = r'.run limit us := fun us => by
    rw [run_cons, h]
    rfl
  constructor
  · rintro ⟨htoken, hopens, htaken, hinside⟩
    rw [List.take_succ_cons, hrun] at htaken
    rw [List.take_succ_cons, openings_cons, closings_cons] at hinside
    exact ⟨htoken, hopens, htaken, by omega⟩
  · rintro ⟨htoken, hopens, htaken, hinside⟩
    refine ⟨htoken, hopens, ?_, ?_⟩
    · rwa [List.take_succ_cons, hrun]
    · rw [List.take_succ_cons, openings_cons, closings_cons]
      omega

theorem not_opensAt_of_error {u : Token} {i : Nat} (h : r.step limit t = .error e) :
    ¬ OpensAt limit d r (t :: ts) i u := by
  rintro ⟨-, -, ⟨r', htaken⟩, -⟩
  rw [List.take_succ_cons, run_cons, h] at htaken
  cases htaken

/-- Whether a run under a limit fails at the first bracket that opens a container within as many as
the limit allows, and is the same as under another limit where there is no such bracket. -/
structure FailsFirst (limit d : Nat) (r : Reader) (ts : List Token) : Prop where
  error : ∀ i t, OpensAt limit d r ts i t → (∀ j < i, ∀ u, ¬ OpensAt limit d r ts j u) →
    r.run d ts = .error (.nestingTooDeep d t.span)
  same : (∀ i t, ¬ OpensAt limit d r ts i t) → r.run d ts = r.run limit ts

/-- A token that is taken under both limits leaves it to those behind it. -/
theorem FailsFirst.cons (h : FailsFirst limit d r' ts) (hstep : r.step d t = .ok r')
    (hstep' : r.step limit t = .ok r') (hzero : ∀ u, ¬ OpensAt limit d r (t :: ts) 0 u) :
    FailsFirst limit d r (t :: ts) := by
  have hrun : r.run d (t :: ts) = r'.run d ts := by rw [run_cons, hstep]; rfl
  have hrun' : r.run limit (t :: ts) = r'.run limit ts := by rw [run_cons, hstep']; rfl
  constructor
  · intro i u hopens hbefore
    cases i with
    | zero => exact absurd hopens (hzero u)
    | succ i =>
        rw [hrun]
        refine h.error i u ((opensAt_succ_iff hstep').mp hopens) fun j hj w hw => ?_
        exact hbefore (j + 1) (Nat.succ_lt_succ hj) w ((opensAt_succ_iff hstep').mpr hw)
  · intro hnot
    rw [hrun, hrun']
    exact h.same fun i u hu => hnot (i + 1) u ((opensAt_succ_iff hstep').mpr hu)

/-- A bracket that opens a container within as many as are allowed is the first that does. -/
theorem FailsFirst.of_full {inside : Reader} (hkind : t.kind.opens = true)
    (hstep : r.step d t = .error (.nestingTooDeep d t.span)) (hstep' : r.step limit t = .ok inside)
    (hfull : r.openCount = d) : FailsFirst limit d r (t :: ts) := by
  have hzero : OpensAt limit d r (t :: ts) 0 t :=
    opensAt_zero_iff.mpr ⟨rfl, hkind, ⟨inside, hstep'⟩, hfull⟩
  constructor
  · intro i u hopens hbefore
    cases i with
    | zero =>
        obtain ⟨rfl, -⟩ := opensAt_zero_iff.mp hopens
        rw [run_cons, hstep]
        rfl
    | succ i => exact absurd hzero (hbefore 0 (Nat.succ_pos i) t)
  · intro hnot
    exact absurd hzero (hnot 0 t)

/-- No more containers are open than a limit allows, whenever a run under the limit goes on. So it
takes what a run under a larger limit takes, until one more is to be opened. -/
theorem failsFirst (hd : r.openCount ≤ d) (hlimit : r.openCount + ts.length ≤ limit) :
    FailsFirst limit d r ts := by
  induction ts generalizing r with
  | nil =>
      refine ⟨fun i t h => ?_, fun _ => rfl⟩
      have htoken := h.token
      rw [List.getElem?_nil] at htoken
      cases htoken
  | cons t ts ih =>
      rw [List.length_cons] at hlimit
      cases r.takes t with
      | opens hkind inside hcount hstep =>
          have hstep' : r.step limit t = .ok inside := by rw [hstep, if_pos (by omega)]
          by_cases hfull : r.openCount = d
          · have herror : r.step d t = .error (.nestingTooDeep d t.span) := by
              rw [hstep, if_neg (by omega)]
            exact .of_full hkind herror hstep' hfull
          · have hroom : r.step d t = .ok inside := by rw [hstep, if_pos (by omega)]
            have hinside : FailsFirst limit d inside ts := ih (by omega) (by omega)
            refine hinside.cons hroom hstep' fun u hu => ?_
            exact hfull (opensAt_zero_iff.mp hu).2.2.2
      | passes r' hkind hcount hstep =>
          have hrest : FailsFirst limit d r' ts := ih (by omega) (by omega)
          refine hrest.cons (hstep d) (hstep limit) fun u hu => ?_
          have hopens := (opensAt_zero_iff.mp hu).2.1
          rw [hkind] at hopens
          cases hopens
      | fails e _ hstep =>
          refine ⟨fun i u hu => absurd hu (not_opensAt_of_error (hstep limit)), fun _ => ?_⟩
          rw [run_cons, run_cons, hstep, hstep]
          rfl

/-- As many containers as there are tokens are never too many. -/
theorem isTooDeep_of_run (hlimit : r.openCount + ts.length ≤ limit)
    (h : r.run limit ts = .error e) : e.isTooDeep = false := by
  induction ts generalizing r with
  | nil => cases h
  | cons t ts ih =>
      rw [List.length_cons] at hlimit
      rw [run_cons] at h
      cases r.takes t with
      | opens hkind inside hcount hstep =>
          rw [hstep, if_pos (by omega)] at h
          exact ih (by omega) h
      | passes r' hkind hcount hstep =>
          rw [hstep] at h
          exact ih (by omega) h
      | fails e' hdeep hstep =>
          rw [hstep] at h
          cases h
          exact hdeep

theorem isTooDeep_of_finish {last : Nat} (h : r.finish last = .error e) : e.isTooDeep = false := by
  cases r <;> cases h <;> rfl

end Reader

namespace Value

open Reader (OpensAt)

/-- **A nesting limit only adds errors of nesting too deep.** Compare a reading under a limit with
one of the same tokens under a limit of as many containers as there are tokens, which is never too
few. If the latter opens a container while as many are open as the limit allows, the former fails
at the first bracket that does so, whatever comes of the latter; otherwise both have the same
outcome, be it a value or an error. What is open are the brackets opened and not closed, and a value
closes as many as it opens: so siblings do not add up, and with room for the deepest of the elements
an array is read however many they are. -/
theorem ofTokens?_limit (d limit : Nat) (ts : List Token) (hlimit : ts.length ≤ limit) :
    (∀ i t, OpensAt limit d .start ts i t → (∀ j < i, ∀ u, ¬ OpensAt limit d .start ts j u) →
      ofTokens? d ts = .error (.nestingTooDeep d t.span))
    ∧ ((∀ i t, ¬ OpensAt limit d .start ts i t) → ofTokens? d ts = ofTokens? limit ts)
    ∧ (∀ most span, ofTokens? limit ts ≠ .error (.nestingTooDeep most span))
    ∧ (∀ (v : Value) (us : List Token), v.SpelledBy us → Token.openings us = Token.closings us)
    ∧ ∀ (vs : List Value) (us : List Token), (array vs).SpelledBy us →
      (∀ v ∈ vs, v.nesting < d) → 0 < d → ofTokens? d us = .ok (array vs).merged := by
  have hstart : Reader.start.openCount + ts.length ≤ limit := by
    rw [Reader.start, Reader.openCount, List.length_nil, Nat.zero_add]
    exact hlimit
  have hfails := Reader.failsFirst (Nat.zero_le d) hstart
  refine ⟨fun i t hopens hbefore => ?_, fun hnot => ?_, fun most span h => ?_,
    fun v us => SpelledBy.openings_eq, fun vs us hvs hnesting hd => ?_⟩
  · rw [ofTokens?, hfails.error i t hopens hbefore]
    rfl
  · rw [ofTokens?, ofTokens?, hfails.same hnot]
  · rw [ofTokens?] at h
    cases hrun : Reader.start.run limit ts with
    | error e =>
        rw [hrun] at h
        cases h
        cases Reader.isTooDeep_of_run hstart hrun
    | ok r =>
        rw [hrun] at h
        cases Reader.isTooDeep_of_finish h
  · obtain ⟨n, rfl⟩ := Nat.exists_eq_add_one.mpr hd
    refine (ofTokens?_of_spelledBy hvs _).1 (Nat.succ_le_succ ?_)
    exact elementsNesting_le_iff.mpr fun v hv => Nat.le_of_lt_succ (hnesting v hv)

/-- The tokens of `[[], [[\x7d`: two arrays within one, the second of them with a third within. -/
def unclosed : List Token :=
  [⟨.arrayOpen, "[", ⟨0, 1⟩⟩, ⟨.arrayOpen, "[", ⟨1, 2⟩⟩, ⟨.arrayClose, "]", ⟨2, 3⟩⟩,
    ⟨.comma, ",", ⟨3, 4⟩⟩, ⟨.arrayOpen, "[", ⟨5, 6⟩⟩, ⟨.arrayOpen, "[", ⟨6, 7⟩⟩,
    ⟨.objectClose, "\x7d", ⟨7, 8⟩⟩]

/-- Three brackets are opened before the one within two others, but one of them was closed. -/
theorem ofTokens?_limit_unclosed :
    unclosed.length ≤ 7
    ∧ ofTokens? 7 unclosed = .error (.expected "`]`" "`\x7d`" ⟨7, 8⟩)
    ∧ ofTokens? 2 unclosed = .error (.nestingTooDeep 2 ⟨6, 7⟩)
    ∧ ofTokens? 3 unclosed = ofTokens? 7 unclosed := by
  have hopens : OpensAt 7 2 .start unclosed 5 ⟨.arrayOpen, "[", ⟨6, 7⟩⟩ :=
    ⟨rfl, rfl, ⟨_, rfl⟩, rfl⟩
  -- behind which brackets how many containers are open
  have hopen : ∀ d i u, OpensAt 7 d .start unclosed i u →
      (i, d) ∈ [(0, 0), (1, 1), (4, 1), (5, 2)] := by
    intro d i u hu
    obtain ⟨hlength, htoken⟩ := List.getElem?_eq_some_iff.mp hu.token
    have hkind := hu.opens
    have hinside : Token.openings (unclosed.take i) = Token.closings (unclosed.take i) + d :=
      (Nat.zero_add _).symm.trans hu.inside
    have hall : ∀ i : Fin 7, unclosed[i].kind.opens = true →
        (i.val, Token.openings (unclosed.take i) - Token.closings (unclosed.take i))
          ∈ [(0, 0), (1, 1), (4, 1), (5, 2)] := by decide
    rw [← htoken] at hkind
    have hmem := hall ⟨i, hlength⟩ hkind
    rwa [hinside, Nat.add_sub_cancel_left] at hmem
  have hbefore : ∀ j < 5, ∀ u, ¬ OpensAt 7 2 .start unclosed j u := by
    intro j hj u hu
    have hmem := hopen 2 j u hu
    simp at hmem
    omega
  have hnone : ∀ i u, ¬ OpensAt 7 3 .start unclosed i u := by
    intro i u hu
    have hmem := hopen 3 i u hu
    simp at hmem
  refine ⟨by decide, rfl, (ofTokens?_limit 2 7 unclosed (by decide)).1 5 _ hopens hbefore, ?_⟩
  exact (ofTokens?_limit 3 7 unclosed (by decide)).2.1 hnone

end Value

end JsonAxes
