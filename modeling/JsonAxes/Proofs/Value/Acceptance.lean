import JsonAxes.Proofs.Text.WellEscaped
import JsonAxes.Proofs.Value.Grammar
import JsonAxes.Proofs.Value.Printed
import Mathlib.Data.List.Induction

/-!
# What the reader accepts

The reader accepts the tokens that spell a value and no others. That
it takes what spells a value is shown where the grammar is. For the other direction,
`Reader.Awaits` writes down what a reader has still to be given: a reader in front of a value needs
tokens that spell one, and what closes the open containers behind it. Whatever a reader takes in one
step is the front of what it was waiting for (`Reader.awaits_of_step`), so a reader that comes to a
value was given what it was waiting for from the start.

The grammar is unambiguous, and no value's tokens go on to be another's (`Value.SpelledBy.unique`).
-/

set_option autoImplicit false

namespace JsonAxes

namespace Value

/-! ## No two derivations -/

/-- The kind of the token that a value begins with. -/
def opening : Value → Token.Kind
  | .string _ => .string
  | .number _ => .number
  | .bool _ => .bool
  | .null => .null
  | .array _ => .arrayOpen
  | .object _ => .objectOpen

theorem SpelledBy.exists_cons {v : Value} {ts : List Token} (h : v.SpelledBy ts) :
    ∃ t us, ts = t :: us ∧ t.kind = v.opening := by
  cases h with
  | string hk _ => exact ⟨_, _, rfl, hk⟩
  | number hk _ => exact ⟨_, _, rfl, hk⟩
  | bool hk _ => exact ⟨_, _, rfl, hk⟩
  | null hk _ => exact ⟨_, _, rfl, hk⟩
  | emptyArray ha _ => exact ⟨_, _, rfl, ha⟩
  | array ha _ _ _ => exact ⟨_, _, rfl, ha⟩
  | emptyObject ha _ => exact ⟨_, _, rfl, ha⟩
  | object ha _ _ _ _ _ _ => exact ⟨_, _, rfl, ha⟩

/-- A bracket that closes an array begins no value. -/
theorem SpelledBy.ne_arrayClose {v : Value} {ts rest rest' : List Token} {b : Token}
    (h : v.SpelledBy ts) (hb : b.kind = .arrayClose) : ts ++ rest ≠ b :: rest' := by
  obtain ⟨t, us, rfl, ht⟩ := h.exists_cons
  intro heq
  rw [(List.cons.inj heq).1, hb] at ht
  cases v <;> cases ht

mutual

/-- Tokens that spell a value do not spell another, and nor do they with more behind them. -/
theorem SpelledBy.unique {v w : Value} {ts us rest rest' : List Token} (hv : v.SpelledBy ts)
    (hw : w.SpelledBy us) (h : ts ++ rest = us ++ rest') : v = w ∧ ts = us := by
  -- the first token tells what kind of value both are
  have hopening : v.opening = w.opening := by
    obtain ⟨t, ts, rfl, ht⟩ := hv.exists_cons
    obtain ⟨u, us, rfl, hu⟩ := hw.exists_cons
    rw [← ht, ← hu, (List.cons.inj h).1]
  cases hv with
  | string _ hs =>
      cases w <;> cases hopening
      cases hw with
      | string _ hs' =>
          obtain ⟨rfl, -⟩ := List.cons.inj h
          cases hs.symm.trans hs'
          exact ⟨rfl, rfl⟩
  | number _ hn =>
      cases w <;> cases hopening
      cases hw with
      | number _ hn' =>
          obtain ⟨rfl, -⟩ := List.cons.inj h
          cases hn.symm.trans hn'
          exact ⟨rfl, rfl⟩
  | bool _ hb =>
      cases w <;> cases hopening
      cases hw with
      | bool _ hb' =>
          obtain ⟨rfl, -⟩ := List.cons.inj h
          cases hb.symm.trans hb'
          exact ⟨rfl, rfl⟩
  | null _ _ =>
      cases w <;> cases hopening
      cases hw with
      | null _ _ =>
          obtain ⟨rfl, -⟩ := List.cons.inj h
          exact ⟨rfl, rfl⟩
  | emptyArray _ hb =>
      cases w <;> cases hopening
      cases hw with
      | emptyArray _ _ =>
          simp only [List.cons_append, List.nil_append, List.cons.injEq] at h
          obtain ⟨rfl, rfl, -⟩ := h
          exact ⟨rfl, rfl⟩
      | array _ hv' _ _ =>
          simp only [List.cons_append, List.append_assoc, List.cons.injEq] at h
          exact absurd h.2.symm (hv'.ne_arrayClose hb)
  | array _ hv hvs hb =>
      cases w <;> cases hopening
      cases hw with
      | emptyArray _ hb' =>
          simp only [List.cons_append, List.append_assoc, List.cons.injEq] at h
          exact absurd h.2 (hv.ne_arrayClose hb')
      | array _ hv' hvs' hb' =>
          simp only [List.cons_append, List.append_assoc, List.cons.injEq] at h
          obtain ⟨rfl, h⟩ := h
          obtain ⟨rfl, rfl⟩ := hv.unique hv' h
          obtain ⟨rfl, rfl⟩ := hvs.unique hvs' hb hb' (List.append_cancel_left h)
          obtain ⟨rfl, -⟩ := List.cons.inj (List.append_cancel_left (List.append_cancel_left h))
          exact ⟨rfl, rfl⟩
  | emptyObject _ hb =>
      cases w <;> cases hopening
      cases hw with
      | emptyObject _ _ =>
          simp only [List.cons_append, List.nil_append, List.cons.injEq] at h
          obtain ⟨rfl, rfl, -⟩ := h
          exact ⟨rfl, rfl⟩
      | object _ hk _ _ _ _ _ =>
          simp only [List.cons_append, List.cons.injEq] at h
          rw [← h.2.1, hb] at hk
          cases hk
  | object _ hk hkey hd hv hms hb =>
      cases w <;> cases hopening
      cases hw with
      | emptyObject _ hb' =>
          simp only [List.cons_append, List.cons.injEq] at h
          rw [h.2.1, hb'] at hk
          cases hk
      | object _ _ hkey' _ hv' hms' hb' =>
          simp only [List.cons_append, List.append_assoc, List.cons.injEq] at h
          obtain ⟨rfl, rfl, rfl, h⟩ := h
          cases hkey.symm.trans hkey'
          obtain ⟨rfl, rfl⟩ := hv.unique hv' h
          obtain ⟨rfl, rfl⟩ := hms.unique hms' hb hb' (List.append_cancel_left h)
          obtain ⟨rfl, -⟩ := List.cons.inj (List.append_cancel_left (List.append_cancel_left h))
          exact ⟨rfl, rfl⟩

/-- Nor do tokens that spell elements up to a closing bracket spell others up to another. -/
theorem ElementsSpelledBy.unique {vs ws : List Value} {ts us rest rest' : List Token} {b b' : Token}
    (hvs : ElementsSpelledBy vs ts) (hws : ElementsSpelledBy ws us) (hb : b.kind = .arrayClose)
    (hb' : b'.kind = .arrayClose) (h : ts ++ b :: rest = us ++ b' :: rest') :
    vs = ws ∧ ts = us := by
  cases hvs with
  | nil =>
      cases hws with
      | nil => exact ⟨rfl, rfl⟩
      | cons hc _ _ =>
          rw [← (List.cons.inj h).1, hb] at hc
          cases hc
  | cons hc hv hvs =>
      cases hws with
      | nil =>
          rw [(List.cons.inj h).1, hb'] at hc
          cases hc
      | cons _ hv' hvs' =>
          simp only [List.cons_append, List.append_assoc, List.cons.injEq] at h
          obtain ⟨rfl, h⟩ := h
          obtain ⟨rfl, rfl⟩ := hv.unique hv' h
          obtain ⟨rfl, rfl⟩ := hvs.unique hvs' hb hb' (List.append_cancel_left h)
          exact ⟨rfl, rfl⟩

theorem MembersSpelledBy.unique {ms ns : List (String × Value)} {ts us rest rest' : List Token}
    {b b' : Token} (hms : MembersSpelledBy ms ts) (hns : MembersSpelledBy ns us)
    (hb : b.kind = .objectClose) (hb' : b'.kind = .objectClose)
    (h : ts ++ b :: rest = us ++ b' :: rest') : ms = ns ∧ ts = us := by
  cases hms with
  | nil =>
      cases hns with
      | nil => exact ⟨rfl, rfl⟩
      | cons hc _ _ _ _ _ =>
          rw [← (List.cons.inj h).1, hb] at hc
          cases hc
  | cons hc hk hkey hd hv hms =>
      cases hns with
      | nil =>
          rw [(List.cons.inj h).1, hb'] at hc
          cases hc
      | cons _ _ hkey' _ hv' hms' =>
          simp only [List.cons_append, List.append_assoc, List.cons.injEq] at h
          obtain ⟨rfl, rfl, rfl, h⟩ := h
          cases hkey.symm.trans hkey'
          obtain ⟨rfl, rfl⟩ := hv.unique hv' h
          obtain ⟨rfl, rfl⟩ := hms.unique hms' hb hb' (List.append_cancel_left h)
          exact ⟨rfl, rfl⟩

end

end Value

namespace Reader

open Value
open Text (map_eq_ok_iff)

/-! ## What a reader has still to be given -/

/-- Whether so many containers within one another fit where so many are open already; a value
without containers fits anywhere. -/
def Fits (limit isOpen nesting : Nat) : Prop := nesting = 0 ∨ isOpen + nesting ≤ limit

variable {limit : Nat} {v : Value} {outer : List OpenContainer} {ts : List Token} {t : Token}

/-- Whether some tokens, behind a value that is complete, close the containers open around it so
that the whole becomes `v`. -/
def Closes (limit : Nat) (v : Value) : List OpenContainer → Value → List Token → Prop
  | [], w, ts => w = v ∧ ts = []
  | .array before :: outer, w, ts =>
    ∃ vs us b rest, ElementsSpelledBy vs us ∧ b.kind = .arrayClose ∧ ts = us ++ b :: rest
      ∧ Fits limit (outer.length + 1) (elementsNesting vs)
      ∧ Closes limit v outer (.array ((w :: before).reverse ++ mergedElements vs)) rest
  | .object before key :: outer, w, ts =>
    ∃ ms us b rest, MembersSpelledBy ms us ∧ b.kind = .objectClose ∧ ts = us ++ b :: rest
      ∧ Fits limit (outer.length + 1) (membersNesting ms)
      ∧ Closes limit v outer (.object ((before.set key w).setAll (mergedMembers ms))) rest

/-- Whether some tokens spell a value and then close the containers open around it. -/
def AwaitsValue (limit : Nat) (v : Value) (outer : List OpenContainer) (ts : List Token) : Prop :=
  ∃ (w : Value) (us rest : List Token), w.SpelledBy us ∧ ts = us ++ rest
    ∧ Fits limit outer.length w.nesting ∧ Closes limit v outer w.merged rest

/-- Whether some tokens, behind a key, are a colon and what a value needs. -/
def AwaitsColon (limit : Nat) (v : Value) (members : Members Value) (key : String)
    (outer : List OpenContainer) (ts : List Token) : Prop :=
  ∃ d rest, d.kind = .colon ∧ ts = d :: rest
    ∧ AwaitsValue limit v (.object members key :: outer) rest

/-- Whether some tokens are a key and what is needed behind it. -/
def AwaitsKey (limit : Nat) (v : Value) (members : Members Value)
    (outer : List OpenContainer) (ts : List Token) : Prop :=
  ∃ k key rest, k.kind = .string ∧ stringOf k = .ok key ∧ ts = k :: rest
    ∧ AwaitsColon limit v members key outer rest

/-- Whether some tokens take a reader to the value `v`. -/
def Awaits (limit : Nat) (v : Value) : Reader → List Token → Prop
  | value outer, ts => AwaitsValue limit v outer ts
  | firstElement outer, ts =>
    (∃ b rest, b.kind = .arrayClose ∧ ts = b :: rest ∧ Closes limit v outer (.array []) rest)
      ∨ AwaitsValue limit v (.array [] :: outer) ts
  | afterElement elements outer, ts =>
    ∃ vs us b rest, ElementsSpelledBy vs us ∧ b.kind = .arrayClose ∧ ts = us ++ b :: rest
      ∧ Fits limit (outer.length + 1) (elementsNesting vs)
      ∧ Closes limit v outer (.array (elements.reverse ++ mergedElements vs)) rest
  | firstKey outer, ts =>
    (∃ b rest, b.kind = .objectClose ∧ ts = b :: rest ∧ Closes limit v outer (.object []) rest)
      ∨ AwaitsKey limit v [] outer ts
  | nextKey members outer, ts => AwaitsKey limit v members outer ts
  | colon members key outer, ts => AwaitsColon limit v members key outer ts
  | afterMember members outer, ts =>
    ∃ ms us b rest, MembersSpelledBy ms us ∧ b.kind = .objectClose ∧ ts = us ++ b :: rest
      ∧ Fits limit (outer.length + 1) (membersNesting ms)
      ∧ Closes limit v outer (.object (members.setAll (mergedMembers ms))) rest
  | done w, ts => w = v ∧ ts = []

theorem awaits_complete {w : Value} :
    Awaits limit v (complete w outer) ts ↔ Closes limit v outer w ts := by
  rcases outer with _ | ⟨_ | _, outer⟩ <;> exact Iff.rfl

/-! ## One token -/

theorem Fits.max {isOpen m n : Nat} (hm : Fits limit isOpen m) (hn : Fits limit isOpen n) :
    Fits limit isOpen (max m n) := by
  unfold Fits at hm hn ⊢
  omega

theorem Fits.inside {isOpen n : Nat} (h : Fits limit (isOpen + 1) n) (hroom : isOpen < limit) :
    Fits limit isOpen (n + 1) := by
  unfold Fits at h ⊢
  omega

/-- A comma and what begins another element are what is needed behind an element. -/
theorem awaits_comma_element {elements : List Value} (ht : t.kind = .comma)
    (h : AwaitsValue limit v (.array elements :: outer) ts) :
    Awaits limit v (afterElement elements outer) (t :: ts) := by
  obtain ⟨w, us, _, hw, rfl, hfits, vs, us', b, rest, hvs, hb, rfl, hfits', hcloses⟩ := h
  refine ⟨w :: vs, t :: (us ++ us'), b, rest, .cons ht hw hvs, hb, ?_, hfits.max hfits', ?_⟩
  · simp only [List.cons_append, List.append_assoc]
  · rw [mergedElements]
    simpa only [List.reverse_cons, List.append_assoc, List.singleton_append] using hcloses

theorem awaits_comma_member {members : Members Value} (ht : t.kind = .comma)
    (h : AwaitsKey limit v members outer ts) :
    Awaits limit v (afterMember members outer) (t :: ts) := by
  obtain ⟨k, key, _, hk, hkey, rfl, d, _, hd, rfl, w, us, _, hw, rfl, hfits,
    ms, us', b, rest, hms, hb, rfl, hfits', hcloses⟩ := h
  refine ⟨(key, w) :: ms, t :: k :: d :: (us ++ us'), b, rest, .cons ht hk hkey hd hw hms, hb, ?_,
    hfits.max hfits', hcloses⟩
  simp only [List.cons_append, List.append_assoc]

/-- An opening bracket and what is needed behind it are an array and what is needed behind it. -/
theorem awaitsValue_arrayOpen (ht : t.kind = .arrayOpen) (hroom : outer.length < limit)
    (h : Awaits limit v (firstElement outer) ts) : AwaitsValue limit v outer (t :: ts) := by
  rcases h with ⟨b, rest, hb, rfl, hcloses⟩ | h
  · exact ⟨.array [], [t, b], rest, .emptyArray ht hb, rfl, .inr hroom, hcloses⟩
  · obtain ⟨w, us, _, hw, rfl, hfits, vs, us', b, rest, hvs, hb, rfl, hfits', hcloses⟩ := h
    refine ⟨.array (w :: vs), t :: (us ++ (us' ++ [b])), rest, .array ht hw hvs hb, ?_,
      (hfits.max hfits').inside hroom, hcloses⟩
    simp only [List.cons_append, List.append_assoc, List.nil_append]

theorem awaitsValue_objectOpen (ht : t.kind = .objectOpen) (hroom : outer.length < limit)
    (h : Awaits limit v (firstKey outer) ts) : AwaitsValue limit v outer (t :: ts) := by
  rcases h with ⟨b, rest, hb, rfl, hcloses⟩ | h
  · exact ⟨.object [], [t, b], rest, .emptyObject ht hb, rfl, .inr hroom, hcloses⟩
  · obtain ⟨k, key, _, hk, hkey, rfl, d, _, hd, rfl, w, us, _, hw, rfl, hfits,
      ms, us', b, rest, hms, hb, rfl, hfits', hcloses⟩ := h
    refine ⟨.object ((key, w) :: ms), t :: k :: d :: (us ++ (us' ++ [b])), rest,
      .object ht hk hkey hd hw hms hb, ?_, (hfits.max hfits').inside hroom, hcloses⟩
    simp only [List.cons_append, List.append_assoc, List.nil_append]

theorem eq_of_enter {r inside : Reader} (h : enter limit t outer inside = .ok r) :
    outer.length < limit ∧ inside = r := by
  unfold enter at h
  split at h
  · next hroom => exact ⟨hroom, Except.ok.inj h⟩
  · cases h

/-- A token that begins a value is the front of what a reader in front of a value was waiting
for. -/
theorem awaitsValue_of_beginValue? {r : Reader} (h : beginValue? limit t outer = some (.ok r))
    (hr : Awaits limit v r ts) : AwaitsValue limit v outer (t :: ts) := by
  have hscalar : ∀ w : Value, w.SpelledBy [t] → w.nesting = 0 → Closes limit v outer w.merged ts →
      AwaitsValue limit v outer (t :: ts) :=
    fun w hw hnesting hcloses => ⟨w, [t], ts, hw, rfl, .inl hnesting, hcloses⟩
  unfold beginValue? at h
  split at h <;> try cases h
  · next hk =>
    obtain ⟨s, hs, rfl⟩ := map_eq_ok_iff.mp (Option.some.inj h)
    exact hscalar (.string s) (.string hk hs) rfl (awaits_complete.mp hr)
  · next hk =>
    obtain ⟨n, hn, rfl⟩ := map_eq_ok_iff.mp (Option.some.inj h)
    exact hscalar (.number n) (.number hk hn) rfl (awaits_complete.mp hr)
  · next hk =>
    obtain ⟨b, hb, rfl⟩ := map_eq_ok_iff.mp (Option.some.inj h)
    exact hscalar (.bool b) (.bool hk hb) rfl (awaits_complete.mp hr)
  · next hk =>
    obtain ⟨_, hnull, rfl⟩ := map_eq_ok_iff.mp (Option.some.inj h)
    exact hscalar .null (.null hk hnull) rfl (awaits_complete.mp hr)
  · next hk =>
    obtain ⟨hroom, rfl⟩ := eq_of_enter (Option.some.inj h)
    exact awaitsValue_objectOpen hk hroom hr
  · next hk =>
    obtain ⟨hroom, rfl⟩ := eq_of_enter (Option.some.inj h)
    exact awaitsValue_arrayOpen hk hroom hr

theorem getD_eq_ok_iff {α ε : Type} {x : Option (Except ε α)} {e : ε} {a : α} :
    x.getD (.error e) = .ok a ↔ x = some (.ok a) := by
  cases x with
  | none => exact ⟨nofun, nofun⟩
  | some y => exact Option.some_inj.symm

theorem awaitsKey_of_string {members : Members Value} {r : Reader} (ht : t.kind = .string)
    (h : ((stringOf t).map fun key => colon members key outer) = .ok r)
    (hr : Awaits limit v r ts) : AwaitsKey limit v members outer (t :: ts) := by
  obtain ⟨key, hkey, rfl⟩ := map_eq_ok_iff.mp h
  exact ⟨t, key, ts, ht, hkey, rfl, hr⟩

/-- What a reader takes in one step is the front of what it was waiting for. -/
theorem awaits_of_step {r r' : Reader} (h : r.step limit t = .ok r') (hr : Awaits limit v r' ts) :
    Awaits limit v r (t :: ts) := by
  cases r with
  | value outer => exact awaitsValue_of_beginValue? (getD_eq_ok_iff.mp h) hr
  | firstElement outer =>
      simp only [Reader.step] at h
      split at h
      · next hk =>
        cases h
        exact .inl ⟨t, ts, hk, rfl, awaits_complete.mp hr⟩
      · exact .inr (awaitsValue_of_beginValue? (getD_eq_ok_iff.mp h) hr)
  | afterElement elements outer =>
      simp only [Reader.step] at h
      split at h
      · next hk =>
        cases h
        exact awaits_comma_element hk hr
      · split at h
        · next hk =>
          cases h
          refine ⟨[], [], t, ts, .nil, hk, rfl, .inl rfl, ?_⟩
          rw [mergedElements, List.append_nil]
          exact awaits_complete.mp hr
        · cases h
  | firstKey outer =>
      simp only [Reader.step] at h
      split at h
      · next hk => exact .inr (awaitsKey_of_string hk h hr)
      · split at h
        · next hk =>
          cases h
          exact .inl ⟨t, ts, hk, rfl, awaits_complete.mp hr⟩
        · cases h
  | nextKey members outer =>
      simp only [Reader.step] at h
      split at h
      · next hk => exact awaitsKey_of_string hk h hr
      · cases h
  | colon members key outer =>
      simp only [Reader.step] at h
      split at h
      · next hk =>
        cases h
        exact ⟨t, ts, hk, rfl, hr⟩
      · cases h
  | afterMember members outer =>
      simp only [Reader.step] at h
      split at h
      · next hk =>
        cases h
        exact awaits_comma_member hk hr
      · split at h
        · next hk =>
          cases h
          exact ⟨[], [], t, ts, .nil, hk, rfl, .inl rfl, awaits_complete.mp hr⟩
        · cases h
  | done w => cases h

/-- A reader that comes to a value was given what it was waiting for. -/
theorem awaits_of_run {r : Reader} (h : r.run limit ts = .ok (.done v)) : Awaits limit v r ts := by
  induction ts generalizing r with
  | nil =>
      cases h
      exact ⟨rfl, rfl⟩
  | cons t ts ih =>
      rw [run_cons] at h
      cases hstep : r.step limit t with
      | error e =>
          rw [hstep] at h
          cases h
      | ok r' =>
          rw [hstep] at h
          exact awaits_of_step hstep (ih h)

/-! ## Tokens of one value -/

theorem exists_stringOf_iff : (∃ s, stringOf t = .ok s) ↔ Text.WellEscaped t.text.toList :=
  Text.exists_map_eq_ok_iff.trans (Text.exists_unescape_iff _ _)

theorem numberOf_eq_ok_iff {n : Number} :
    numberOf t = .ok n ↔ Number.ofText? t.text.toList = some n ∧ n.isFinite = true := by
  unfold numberOf
  cases Number.ofText? t.text.toList with
  | none => exact ⟨nofun, nofun⟩
  | some m =>
      dsimp only
      split
      · next hm =>
        rw [Except.ok.injEq, Option.some_inj]
        exact ⟨fun h => ⟨h, h ▸ hm⟩, And.left⟩
      · next hm =>
        refine ⟨nofun, fun ⟨h, hn⟩ => absurd ?_ hm⟩
        rwa [Option.some.inj h]

theorem boolOf_eq_ok_iff {b : Bool} :
    boolOf t = .ok b ↔ t.text = if b then "true" else "false" := by
  unfold boolOf
  split
  · next h =>
    rw [h]
    cases b <;> decide
  · split
    · next h =>
      rw [h]
      cases b <;> decide
    · next htrue hfalse =>
      cases b
      · exact ⟨nofun, fun h => absurd h hfalse⟩
      · exact ⟨nofun, fun h => absurd h htrue⟩

theorem nullOf_eq_ok_iff : nullOf t = .ok () ↔ t.text = "null" := by
  unfold nullOf
  split
  · next h => exact iff_of_true rfl h
  · next h => exact iff_of_false nofun h

end Reader

/-! ## Repeated keys -/

namespace Members

variable {α : Type}

theorem ofList_concat (pairs : List (String × α)) (key : String) (a : α) :
    ofList (pairs ++ [(key, a)]) = (ofList pairs).set key a := by
  rw [ofList, setAll, List.foldl_append]
  rfl

/-- Each key stands once, at the place where it came first. -/
theorem keys_ofList (pairs : List (String × α)) :
    keys (ofList pairs) = (keys pairs).eraseDups := by
  induction pairs using List.reverseRecOn with
  | nil => rfl
  | append_singleton pairs m ih =>
      obtain ⟨key, a⟩ := m
      have hkeys : keys (pairs ++ [(key, a)]) = keys pairs ++ [key] := List.map_append
      rw [ofList_concat, keys_set, ih, hkeys, List.eraseDups_append]
      by_cases hkey : key ∈ keys pairs
      · rw [if_pos (List.mem_eraseDups.mpr hkey)]
        simp [List.removeAll, hkey]
      · have hremove : [key].removeAll (keys pairs) = [key] := by simp [List.removeAll, hkey]
        rw [if_neg (hkey ∘ List.mem_eraseDups.mp), hremove]
        rfl

/-- The value at a key is the one that came last. -/
theorem get?_ofList (key : String) (pairs : List (String × α)) :
    get? key (ofList pairs) = pairs.reverse.lookup key := by
  induction pairs using List.reverseRecOn with
  | nil => rfl
  | append_singleton pairs m ih =>
      obtain ⟨k, a⟩ := m
      rw [ofList_concat, get?_set, ih, List.reverse_append, List.reverse_singleton,
        List.singleton_append, List.lookup_cons]
      by_cases hk : k = key
      · rw [if_pos hk, hk, beq_self_eq_true]
      · rw [if_neg hk, beq_false_of_ne (Ne.symm hk)]

end Members

namespace Value

open Reader

theorem mergedMembers_eq_map (ms : List (String × Value)) :
    mergedMembers ms = ms.map fun m => (m.1, m.2.merged) := by
  induction ms with
  | nil => rfl
  | cons m ms ih => exact congrArg ((m.1, m.2.merged) :: ·) ih

theorem mergedElements_eq_map (vs : List Value) : mergedElements vs = vs.map merged := by
  induction vs with
  | nil => rfl
  | cons v vs ih => exact congrArg (v.merged :: ·) ih

theorem lookup_map_merged (key : String) (ms : List (String × Value)) :
    (ms.map fun m => (m.1, m.2.merged)).lookup key = (ms.lookup key).map merged := by
  induction ms with
  | nil => rfl
  | cons m ms ih =>
      rw [List.map_cons, List.lookup_cons, List.lookup_cons, ih]
      cases key == m.1 <;> rfl

/-- Where an object is spelled, the value has each key once, at its first place and with its last
value. -/
theorem exists_merged_object (ms : List (String × Value)) :
    ∃ ns, (object ms).merged = object ns ∧ Members.keys ns = (Members.keys ms).eraseDups
      ∧ ∀ key, Members.get? key ns = (ms.reverse.lookup key).map merged := by
  have hkeys : Members.keys (mergedMembers ms) = Members.keys ms := by
    rw [mergedMembers_eq_map, Members.keys, List.map_map]
    rfl
  refine ⟨Members.ofList (mergedMembers ms), rfl, ?_, fun key => ?_⟩
  · rw [Members.keys_ofList, hkeys]
  · rw [Members.get?_ofList, mergedMembers_eq_map, ← List.map_reverse, lookup_map_merged]

/-! ## The tokens that are accepted -/

theorem exists_spelledBy_of_ofTokens? {limit : Nat} {ts : List Token} {v : Value}
    (h : ofTokens? limit ts = .ok v) :
    ∃ w : Value, w.SpelledBy ts ∧ w.nesting ≤ limit ∧ v = w.merged := by
  unfold ofTokens? at h
  cases hrun : start.run limit ts with
  | error e =>
      rw [hrun] at h
      cases h
  | ok r =>
      rw [hrun] at h
      cases r with
      | done u =>
          cases h
          obtain ⟨w, us, _, hw, rfl, hfits, rfl, rfl⟩ := awaits_of_run hrun
          rw [List.append_nil]
          refine ⟨w, hw, ?_, rfl⟩
          rcases hfits with hfits | hfits
          · exact hfits ▸ Nat.zero_le limit
          · rwa [List.length_nil, Nat.zero_add] at hfits
      | _ => cases h

/-- The reader accepts the tokens that spell a value and no others: a single derivation of the
grammar stands behind what it accepts, in which the texts of strings, numbers, booleans and nulls
are as they have to be, and the value is that of the derivation, the members of each object
merged. -/
theorem ofTokens?_reads_grammar :
    (∀ (limit : Nat) (ts : List Token) (v : Value), ofTokens? limit ts = .ok v ↔
      ∃ w : Value, w.SpelledBy ts ∧ w.nesting ≤ limit ∧ v = w.merged)
    ∧ (∀ (v w : Value) (ts us rest rest' : List Token), v.SpelledBy ts → w.SpelledBy us →
      ts ++ rest = us ++ rest' → v = w ∧ ts = us)
    ∧ (∀ t : Token, (∃ s, stringOf t = .ok s) ↔ Text.WellEscaped t.text.toList)
    ∧ (∀ (t : Token) (n : Number), numberOf t = .ok n ↔
      Number.ofText? t.text.toList = some n ∧ n.isFinite = true)
    ∧ (∀ (t : Token) (b : Bool), boolOf t = .ok b ↔ t.text = if b then "true" else "false")
    ∧ (∀ t : Token, nullOf t = .ok () ↔ t.text = "null")
    ∧ (∀ vs : List Value, (array vs).merged = array (vs.map merged))
    ∧ ∀ ms : List (String × Value), ∃ ns, (object ms).merged = object ns
      ∧ Members.keys ns = (Members.keys ms).eraseDups
      ∧ ∀ key, Members.get? key ns = (ms.reverse.lookup key).map merged := by
  refine ⟨fun limit ts v => ⟨exists_spelledBy_of_ofTokens?, ?_⟩,
    fun v w ts us rest rest' => SpelledBy.unique, fun t => exists_stringOf_iff,
    fun t n => numberOf_eq_ok_iff, fun t b => boolOf_eq_ok_iff, fun t => nullOf_eq_ok_iff,
    fun vs => congrArg array (mergedElements_eq_map vs), exists_merged_object⟩
  rintro ⟨w, hw, hnesting, rfl⟩
  exact (ofTokens?_of_spelledBy hw limit).1 hnesting

/-- The tokens of an object that has one key twice, spelled in two ways. -/
def repeatedKey : List Token :=
  [⟨.objectOpen, "\x7b", ⟨0, 1⟩⟩, ⟨.string, "a", ⟨1, 4⟩⟩, ⟨.colon, ":", ⟨4, 5⟩⟩,
    ⟨.arrayOpen, "[", ⟨5, 6⟩⟩, ⟨.bool, "true", ⟨6, 10⟩⟩, ⟨.arrayClose, "]", ⟨10, 11⟩⟩,
    ⟨.comma, ",", ⟨11, 12⟩⟩, ⟨.string, "\\u0061", ⟨12, 20⟩⟩, ⟨.colon, ":", ⟨20, 21⟩⟩,
    ⟨.null, "null", ⟨21, 25⟩⟩, ⟨.objectClose, "\x7d", ⟨25, 26⟩⟩]

theorem ofTokens?_reads_grammar_repeatedKey :
    (object [("a", array [bool true]), ("a", null)]).SpelledBy repeatedKey
    ∧ ofTokens? 2 repeatedKey = .ok (object [("a", null)]) := by
  have helement : (array [bool true]).SpelledBy
      [⟨.arrayOpen, "[", ⟨5, 6⟩⟩, ⟨.bool, "true", ⟨6, 10⟩⟩, ⟨.arrayClose, "]", ⟨10, 11⟩⟩] :=
    .array rfl (.bool rfl rfl) .nil rfl
  have hspelled : (object [("a", array [bool true]), ("a", null)]).SpelledBy repeatedKey :=
    .object rfl rfl (by decide +kernel) rfl helement
      (.cons rfl rfl (by decide +kernel) rfl (.null rfl rfl) .nil) rfl
  exact ⟨hspelled, (ofTokens?_reads_grammar.1 2 repeatedKey _).mpr ⟨_, hspelled, by decide, rfl⟩⟩

end Value

end JsonAxes
