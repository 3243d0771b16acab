import JsonAxes.Descent.Parser
import JsonAxes.Proofs.Descent.Unescape

/-!
# Reading by descent is reading

The reader that calls itself for every container does nothing that is not allowed, if the spans of
the tokens leave room for their texts (`Descent.parse_faultless`). It is shown to come to what the
reader comes to that takes one token after another and has its open containers in a list.

The call that reads a value returns to whoever made it, while the other reader goes on by itself. So
a call is compared together with what is done behind it: if that is what the other reader does with
the value complete (`Completes`), then the call is what it does in front of the value (`Agrees`).
The induction is on the number of tokens that are left, and `Within` is kept along it: the counter
is the number of open containers.
-/

set_option autoImplicit false

namespace JsonAxes.Descent

open Outcome
open Reader (complete stringOf)

/-! ## Going on -/

/-- Whether the span of a token leaves room for its text, so that no offset in it takes more than 64
bits. -/
def HasRoom (t : Token) : Prop := t.span.lo + 1 + Text.utf8Length t.text.toList < UInt64.size

/-- Whether so many containers are open in a state, with tokens left whose spans leave room. -/
structure Within (depth : Nat) (s : State) : Prop where
  depth_eq : s.depth = depth
  room : ∀ t ∈ s.left, HasRoom t

variable {limit last most : Nat} {outer : List OpenContainer} {s : State} {t : Token}

theorem Within.bump {depth : Nat} (h : Within depth s) : Within depth s.bump :=
  ⟨h.depth_eq, fun t ht => h.room t (List.mem_of_mem_tail ht)⟩

theorem Within.hasRoom {depth : Nat} (h : Within depth s) (ht : s.peek? = some t) : HasRoom t :=
  h.room t (List.mem_of_mem_head? ht)

theorem State.kind?_eq_some_iff {kind : Token.Kind} :
    s.kind? = some kind ↔ ∃ t, s.peek? = some t ∧ t.kind = kind := Option.map_eq_some_iff

theorem State.kind_ne {kind : Token.Kind} (h : s.kind? ≠ some kind) (hpeek : s.peek? = some t) :
    t.kind ≠ kind := fun ht => h (kind?_eq_some_iff.mpr ⟨t, hpeek, ht⟩)

/-- What comes of a reader that goes on with some tokens. -/
def resume (limit last : Nat) (r : Reader) (ts : List Token) : Outcome Value :=
  ofRead ((r.run limit ts).bind (·.finish last))

/-- A reader at the end. -/
theorem resume_of_none (r : Reader) (hs : s.peek? = none) :
    resume limit last r s.left = ofRead (r.finish last) := by
  rw [resume, List.head?_eq_none_iff.mp hs]
  rfl

/-- A reader takes what stands next and goes on behind it. -/
theorem resume_of_some (r : Reader) (hs : s.peek? = some t) :
    resume limit last r s.left
      = ofRead (r.step limit t) >>= fun r' => resume limit last r' s.bump.left := by
  have hleft : s.left = t :: s.bump.left := List.eq_cons_of_mem_head? hs
  rw [resume, hleft, Reader.run_cons]
  cases r.step limit t with
  | error e => rfl
  | ok r' => rfl

/-- A reader that takes what stands next. -/
theorem resume_of_ok {r r' : Reader} (hs : s.peek? = some t) (h : r.step limit t = .ok r') :
    resume limit last r s.left = resume limit last r' s.bump.left := by
  rw [resume_of_some r hs, h]
  rfl

/-- A reader that refuses what stands next. -/
theorem resume_of_refuse {r : Reader} {wanted : String}
    (hrefuse : ∀ got span, r.refuse got span = .expected wanted got span)
    (hstep : ∀ t, s.peek? = some t → r.step limit t = .error (r.refuse t.display t.span))
    (hfinish : r.finish last = .error (r.refuse "end of input" (.point last))) :
    resume limit last r s.left = refuseFound last wanted s := by
  rw [refuseFound, State.found]
  cases hs : s.peek? with
  | none =>
      rw [resume_of_none r hs, hfinish, hrefuse]
      rfl
  | some t =>
      rw [resume_of_some r hs, hstep t hs, hrefuse]
      rfl

/-- Whether what is done with a value, and with what is left behind it, is what a reader does that
has the value complete. -/
def Completes (limit last : Nat) (outer : List OpenContainer)
    (next : Behind Value most → Outcome Value) : Prop :=
  ∀ r, Within outer.length r.state →
    next r = resume limit last (complete r.result outer) r.state.left

/-- Whether reading a value in a state is what a reader does that has to be given one. -/
def Agrees (limit last : Nat) (s : State) : Prop :=
  ∀ outer next, Within outer.length s → Completes limit last outer next →
    (value limit last s >>= next) = resume limit last (.value outer) s.left

/-! ## Brackets -/

theorem expect_of_kind {kind : Token.Kind} (hs : s.peek? = some t) (h : t.kind = kind) :
    expect last kind s = pure ⟨t, s.bump, State.length_bump_lt hs⟩ := by
  rw [expect]
  split
  · next u hu =>
    cases hs.symm.trans hu
    exact if_pos h
  · next hnone => cases hs.symm.trans hnone

theorem expect_of_ne {kind : Token.Kind} (h : s.kind? ≠ some kind) :
    expect last kind s = refuseFound last kind.description s := by
  rw [expect]
  split
  · next t hpeek => exact if_neg (State.kind_ne h hpeek)
  · rfl

/-- What comes of closing a container, which is complete then. -/
def closed (limit last : Nat) (kind : Token.Kind) (v : Value) (outer : List OpenContainer)
    (s : State) : Outcome Value :=
  if s.kind? = some kind then resume limit last (complete v outer) s.bump.left
  else refuseFound last kind.description s

/-- The counter goes down for a container that was counted. -/
theorem close_eq {kind : Token.Kind} {v : Value} {next : Behind Value most → Outcome Value}
    (hs : Within (outer.length + 1) s) (hnext : Completes limit last outer next)
    (hle : s.left.length ≤ most) :
    (expect last kind s >>= fun r => ascend r.state.depth >>= fun depth =>
      next ⟨v, ⟨r.state.left, depth⟩, Nat.lt_of_lt_of_le r.lt hle⟩)
      = closed limit last kind v outer s := by
  by_cases hkind : s.kind? = some kind
  · obtain ⟨t, hpeek, ht⟩ := State.kind?_eq_some_iff.mp hkind
    have hascend : ascend s.bump.depth = pure outer.length := by
      rw [ascend, hs.bump.depth_eq, sub_of_le (Nat.le_add_left _ _), Nat.add_sub_cancel]
    rw [expect_of_kind hpeek ht, pure_bind, hascend, pure_bind, closed, if_pos hkind]
    exact hnext _ ⟨rfl, hs.bump.room⟩
  · rw [expect_of_ne hkind, closed, if_neg hkind]
    rfl

/-- A reader that takes nothing but a closing bracket. -/
theorem resume_eq_closed {r : Reader} {kind : Token.Kind} {v : Value}
    (hrefuse : ∀ got span, r.refuse got span = .expected kind.description got span)
    (hclose : ∀ t, t.kind = kind → r.step limit t = .ok (complete v outer))
    (hstep : ∀ t, s.peek? = some t → t.kind ≠ kind →
      r.step limit t = .error (r.refuse t.display t.span))
    (hfinish : r.finish last = .error (r.refuse "end of input" (.point last))) :
    resume limit last r s.left = closed limit last kind v outer s := by
  by_cases hkind : s.kind? = some kind
  · obtain ⟨t, hpeek, ht⟩ := State.kind?_eq_some_iff.mp hkind
    rw [closed, if_pos hkind, resume_of_ok hpeek (hclose t ht)]
  · rw [closed, if_neg hkind]
    exact resume_of_refuse hrefuse (fun t hpeek => hstep t hpeek (State.kind_ne hkind hpeek))
      hfinish

/-- A reader that could take a mark as well, but does not find it. -/
theorem resume_eq_closed_of_ne {r : Reader} {mark kind : Token.Kind} {v : Value}
    {f : Token → Except ReadError Reader} (h : s.kind? ≠ some mark) (hne : kind ≠ mark)
    (hrefuse : ∀ got span, r.refuse got span = .expected kind.description got span)
    (hstep : ∀ t, r.step limit t = if t.kind = mark then f t
      else if t.kind = kind then .ok (complete v outer)
      else .error (r.refuse t.display t.span))
    (hfinish : r.finish last = .error (r.refuse "end of input" (.point last))) :
    resume limit last r s.left = closed limit last kind v outer s := by
  refine resume_eq_closed hrefuse (fun t ht => ?_) (fun t hpeek ht => ?_) hfinish
  · rw [hstep, if_neg (ht ▸ hne), if_pos ht]
  · rw [hstep, if_neg (State.kind_ne h hpeek), if_neg ht]

/-! ## Members -/

theorem key?_of_string (hs : s.peek? = some t) (ht : t.kind = .string) (hroom : HasRoom t) :
    key? s = ofRead (stringOf t) >>= fun text =>
      pure ⟨some text, s.bump, Nat.lt_succ_of_le s.length_bump_le⟩ := by
  rw [key?, hs]
  simp only [ht, if_true, unescape_eq hroom]

theorem key?_of_ne (h : s.kind? ≠ some .string) :
    key? s = pure ⟨none, s, Nat.lt_succ_self _⟩ := by
  rw [key?]
  cases hpeek : s.peek? with
  | none => rfl
  | some t => exact if_neg (State.kind_ne h hpeek)

/-- Whether what is done with members, and with what is left behind them, is to close the object. -/
def ClosesObject (limit last : Nat) (outer : List OpenContainer)
    (next : Behind (Members Value) most → Outcome Value) : Prop :=
  ∀ r, Within (outer.length + 1) r.state →
    next r = closed limit last .objectClose (.object r.result) outer r.state

/-- Whether reading members behind a comma is what a reader does that has to be given a key. -/
def AgreesOnMembers (limit last : Nat) (outer : List OpenContainer) (s : State) : Prop :=
  ∀ before next, Within (outer.length + 1) s → ClosesObject limit last outer next →
    (members limit last false before s >>= next)
      = resume limit last (.nextKey before outer) s.left

/-- Behind a key. -/
theorem behindKey_eq {before : Members Value} {key : String}
    {next : Behind (Members Value) most → Outcome Value} (hs : Within (outer.length + 1) s)
    (hvalue : ∀ s', s'.left.length < s.left.length → Agrees limit last s')
    (hmembers : ∀ s', s'.left.length < s.left.length → AgreesOnMembers limit last outer s')
    (hnext : ClosesObject limit last outer next)
    (hlt : ∀ (p : Behind Token s.left.length) (q : Behind Value (p.state.left.length + 1)),
      q.state.left.length < most)
    (hle : ∀ (p : Behind Token s.left.length) (q : Behind Value (p.state.left.length + 1)),
      q.state.bump.left.length + 1 ≤ most) :
    (expect last .colon s >>= fun p => value limit last p.state >>= fun q =>
      (if q.state.kind? = some .comma then
        members limit last false (before.set key q.result) q.state.bump >>= fun r =>
          pure (r.mono (hle p q))
      else pure ⟨before.set key q.result, q.state, hlt p q⟩) >>= next)
      = resume limit last (.colon before key outer) s.left := by
  by_cases hcolon : s.kind? = some .colon
  · obtain ⟨t, hpeek, ht⟩ := State.kind?_eq_some_iff.mp hcolon
    have hshorter := State.length_bump_lt_of_kind? hcolon
    have hstep : (Reader.colon before key outer).step limit t
        = .ok (.value (.object before key :: outer)) := if_pos ht
    rw [expect_of_kind hpeek ht, pure_bind, resume_of_ok hpeek hstep]
    refine hvalue s.bump hshorter (.object before key :: outer) _ hs.bump fun q hq => ?_
    show _ = resume limit last (.afterMember (before.set key q.result) outer) q.state.left
    by_cases hcomma : q.state.kind? = some .comma
    · obtain ⟨c, hpeek', hc⟩ := State.kind?_eq_some_iff.mp hcomma
      have hshorter' : q.state.bump.left.length < s.left.length := by
        have hbump := State.length_bump_le q.state
        have hq := q.lt
        omega
      have hstep' : (Reader.afterMember (before.set key q.result) outer).step limit c
          = .ok (.nextKey (before.set key q.result) outer) := if_pos hc
      simp only [if_pos hcomma, bind_assoc, pure_bind]
      rw [resume_of_ok hpeek' hstep']
      exact hmembers q.state.bump hshorter' _ _ hq.bump fun r hr => hnext _ hr
    · simp only [if_neg hcomma, pure_bind]
      refine (hnext _ hq).trans (Eq.symm ?_)
      exact resume_eq_closed_of_ne hcomma (by decide) (fun _ _ => rfl) (fun _ => rfl) rfl
  · rw [expect_of_ne hcolon]
    refine (resume_of_refuse (fun _ _ => rfl) (fun t hpeek => ?_) rfl).symm
    exact if_neg (State.kind_ne hcolon hpeek)

/-- A key that stands next is read, and then what stands behind it. -/
theorem members_of_string {first : Bool} {before : Members Value}
    {next : Behind (Members Value) (s.left.length + 1) → Outcome Value}
    (hs : Within (outer.length + 1) s)
    (hvalue : ∀ s', s'.left.length < s.left.length → Agrees limit last s')
    (hmembers : ∀ s', s'.left.length < s.left.length → AgreesOnMembers limit last outer s')
    (hnext : ClosesObject limit last outer next)
    (hpeek : s.peek? = some t) (ht : t.kind = .string) :
    (members limit last first before s >>= next)
      = ofRead ((stringOf t).map fun key => Reader.colon before key outer) >>= fun r =>
          resume limit last r s.bump.left := by
  have hshorter := s.length_bump_le
  rw [members, key?_of_string hpeek ht (hs.hasRoom hpeek), ofRead_map]
  simp only [bind_assoc, pure_bind]
  refine bind_congr fun key => ?_
  exact behindKey_eq hs.bump (fun s' hlt => hvalue s' (by omega))
    (fun s' hlt => hmembers s' (by omega)) hnext _ _

/-- Behind a comma there has to be a key. -/
theorem agreesOnMembers (hvalue : ∀ s', s'.left.length < most → Agrees limit last s')
    (hs : s.left.length ≤ most) : AgreesOnMembers limit last outer s := by
  obtain ⟨n, hn⟩ : ∃ n, n = s.left.length := ⟨_, rfl⟩
  induction n using Nat.strongRecOn generalizing s with
  | ind n ih =>
    subst hn
    intro before next hwithin hnext
    by_cases hstring : s.kind? = some .string
    · obtain ⟨t, hpeek, ht⟩ := State.kind?_eq_some_iff.mp hstring
      have hstep : (Reader.nextKey before outer).step limit t
          = (stringOf t).map fun key => .colon before key outer := if_pos ht
      rw [members_of_string hwithin (fun s' hlt => hvalue s' (by omega))
        (fun s' hlt => ih _ hlt (by omega) rfl) hnext hpeek ht, resume_of_some _ hpeek, hstep]
    · rw [members, key?_of_ne hstring, pure_bind]
      refine (resume_of_refuse (fun _ _ => rfl) (fun t hpeek => ?_) rfl).symm
      exact if_neg (State.kind_ne hstring hpeek)

/-- The first key may be missing. -/
theorem firstMembers_eq {next : Behind (Members Value) (s.left.length + 1) → Outcome Value}
    (hs : Within (outer.length + 1) s)
    (hvalue : ∀ s', s'.left.length < s.left.length → Agrees limit last s')
    (hnext : ClosesObject limit last outer next) :
    (members limit last true [] s >>= next) = resume limit last (.firstKey outer) s.left := by
  by_cases hstring : s.kind? = some .string
  · obtain ⟨t, hpeek, ht⟩ := State.kind?_eq_some_iff.mp hstring
    have hstep : (Reader.firstKey outer).step limit t
        = (stringOf t).map fun key => .colon [] key outer := if_pos ht
    rw [members_of_string hs hvalue (fun s' hlt => agreesOnMembers hvalue (Nat.le_of_lt hlt)) hnext
      hpeek ht, resume_of_some _ hpeek, hstep]
  · rw [members, key?_of_ne hstring, pure_bind]
    refine (hnext _ hs).trans (Eq.symm ?_)
    exact resume_eq_closed_of_ne hstring (by decide) (fun _ _ => rfl) (fun _ => rfl) rfl

/-! ## Elements -/

/-- Whether what is done with elements, and with what is left behind them, is to close the array. -/
def ClosesArray (limit last : Nat) (outer : List OpenContainer)
    (next : Behind (List Value) most → Outcome Value) : Prop :=
  ∀ r, Within (outer.length + 1) r.state →
    next r = closed limit last .arrayClose (.array r.result) outer r.state

/-- Elements are read as long as there are commas, and then the array is closed. -/
theorem elements_eq {before : List Value}
    {next : Behind (List Value) (s.left.length + 1) → Outcome Value}
    (hs : Within (outer.length + 1) s)
    (hvalue : ∀ s', s'.left.length < s.left.length → Agrees limit last s')
    (hnext : ClosesArray limit last outer next) :
    (elements limit last before s >>= next)
      = resume limit last (.afterElement before outer) s.left := by
  obtain ⟨n, hn⟩ : ∃ n, n = s.left.length := ⟨_, rfl⟩
  induction n using Nat.strongRecOn generalizing s before with
  | ind n ih =>
    subst hn
    rw [elements]
    by_cases hcomma : s.kind? = some .comma
    · obtain ⟨t, hpeek, ht⟩ := State.kind?_eq_some_iff.mp hcomma
      have hshorter := State.length_bump_lt_of_kind? hcomma
      have hstep : (Reader.afterElement before outer).step limit t
          = .ok (.value (.array before :: outer)) := if_pos ht
      rw [dif_pos hcomma, resume_of_ok hpeek hstep]
      simp only [bind_assoc, pure_bind]
      refine hvalue s.bump hshorter (.array before :: outer) _ hs.bump fun r hr => ?_
      have hlt : r.state.left.length < s.left.length := Nat.lt_of_lt_of_le r.lt hshorter
      exact ih _ hlt hr (fun s' h => hvalue s' (Nat.lt_trans h hlt)) (fun q hq => hnext _ hq) rfl
    · rw [dif_neg hcomma, pure_bind]
      refine (hnext _ hs).trans (Eq.symm ?_)
      exact resume_eq_closed_of_ne hcomma (by decide) (fun _ _ => rfl) (fun _ => rfl) rfl

/-! ## Values -/

/-- Counting a container is asking for room for it. -/
theorem descend_bind {inside : Reader} {next : Nat → Outcome Value}
    (hs : Within outer.length s)
    (hnext : Within (outer.length + 1) { s with depth := outer.length + 1 } →
      next (outer.length + 1) = resume limit last inside s.left) :
    (descend limit t s.depth >>= next)
      = ofRead (Reader.enter limit t outer inside) >>= fun r => resume limit last r s.left := by
  rw [descend, Reader.enter, hs.depth_eq]
  by_cases hroom : outer.length < limit
  · rw [if_neg (by omega), if_pos hroom, pure_bind, ofRead_ok, pure_bind]
    exact hnext ⟨rfl, hs.room⟩
  · rw [if_pos (by omega), if_neg hroom]
    rfl

theorem object_eq {next : Behind Value (s.left.length + 1) → Outcome Value}
    (hs : Within outer.length s)
    (hvalue : ∀ s', s'.left.length < s.left.length → Agrees limit last s')
    (hnext : Completes limit last outer next) (hpeek : s.peek? = some t)
    (ht : t.kind = .objectOpen) :
    (object limit last s >>= next)
      = ofRead (Reader.enter limit t outer (.firstKey outer)) >>= fun r =>
          resume limit last r s.bump.left := by
  have hshorter := State.length_bump_lt hpeek
  rw [object, expect_of_kind hpeek ht]
  simp only [bind_assoc, pure_bind]
  refine descend_bind hs.bump fun hs₁ => ?_
  refine firstMembers_eq hs₁ (fun s' hlt => hvalue s' (Nat.lt_trans hlt hshorter)) fun r hr => ?_
  have hlt : r.state.left.length < s.left.length := Nat.lt_of_lt_of_le r.lt hshorter
  exact close_eq hr hnext (Nat.le_succ_of_le (Nat.le_of_lt hlt))

/-- What may be done behind the place of a value that may be missing. -/
theorem value?_of_none
    (h : s.peek?.bind (Reader.beginValue? limit · outer) = none) :
    value? limit last s = pure ⟨none, s, Nat.lt_succ_self _⟩ := by
  rw [value?]
  cases hpeek : s.peek? with
  | none => rfl
  | some t =>
      have hnone := Option.bind_eq_none_iff.mp h t hpeek
      simp only [Reader.beginValue?] at hnone
      cases ht : t.kind with
      | string | number | bool | null | objectOpen | arrayOpen =>
          rw [ht] at hnone
          cases hnone
      | _ => simp only [ht]

/-- Whether what is done with a value that may be missing is what a reader does, if it is there. -/
def CompletesSome (limit last : Nat) (outer : List OpenContainer)
    (next : Behind (Option Value) most → Outcome Value) : Prop :=
  Completes limit last outer fun r : Behind Value most => next ⟨some r.result, r.state, r.lt⟩

/-- A scalar is complete at once. -/
theorem scalar_eq {α : Type} {x : Except ReadError α} {f : α → Value}
    {next : Behind (Option Value) most → Outcome Value} (hs : Within outer.length s)
    (hnext : CompletesSome limit last outer next)
    (hlt : s.bump.left.length < most) :
    ((ofRead x >>= fun a => pure ⟨some (f a), s.bump, hlt⟩) >>= next)
      = ofRead (x.map fun a => complete (f a) outer) >>= fun r =>
          resume limit last r s.bump.left := by
  rw [ofRead_map]
  simp only [bind_assoc, pure_bind]
  refine bind_congr fun a => ?_
  exact hnext ⟨f a, s.bump, hlt⟩ hs.bump

/-- Whether reading a value that may be missing is what a reader does with a token that begins
one. -/
def AgreesIfBegun (limit last : Nat) (s : State) : Prop :=
  ∀ outer next x, Within outer.length s → CompletesSome limit last outer next →
    s.peek?.bind (Reader.beginValue? limit · outer) = some x →
    (value? limit last s >>= next) = ofRead x >>= fun r => resume limit last r s.bump.left

theorem agrees_of_ifBegun (h : AgreesIfBegun limit last s) : Agrees limit last s := by
  intro outer next hs hnext
  rw [value]
  simp only [bind_assoc]
  cases hx : s.peek?.bind (Reader.beginValue? limit · outer) with
  | some x =>
      obtain ⟨t, hpeek, hbegin⟩ := Option.bind_eq_some_iff.mp hx
      have hstep : (Reader.value outer).step limit t = x := by
        rw [Reader.step, hbegin]
        rfl
      rw [resume_of_some _ hpeek, hstep]
      refine h outer _ x hs (fun r hr => ?_) hx
      simp only [pure_bind]
      exact hnext r hr
  | none =>
      have hrefuse : resume limit last (.value outer) s.left
          = refuse (.expectedValue (s.found last).1 (s.found last).2) := by
        rw [State.found]
        cases hpeek : s.peek? with
        | none => exact resume_of_none _ hpeek
        | some t =>
            rw [resume_of_some _ hpeek, Reader.step, Option.bind_eq_none_iff.mp hx t hpeek]
            rfl
      rw [value?_of_none hx, pure_bind, hrefuse]
      rfl

/-- The first element may be missing. -/
theorem array_eq {next : Behind Value (s.left.length + 1) → Outcome Value}
    (hs : Within outer.length s)
    (hbegun : ∀ s', s'.left.length < s.left.length → AgreesIfBegun limit last s')
    (hnext : Completes limit last outer next) (hpeek : s.peek? = some t)
    (ht : t.kind = .arrayOpen) :
    (array limit last s >>= next)
      = ofRead (Reader.enter limit t outer (.firstElement outer)) >>= fun r =>
          resume limit last r s.bump.left := by
  have hshorter := State.length_bump_lt hpeek
  rw [array, expect_of_kind hpeek ht]
  simp only [bind_assoc, pure_bind]
  refine descend_bind hs.bump fun hs₁ => ?_
  cases hx : s.bump.peek?.bind (Reader.beginValue? limit · (.array [] :: outer)) with
  | some x =>
      obtain ⟨t', hpeek', hbegin⟩ := Option.bind_eq_some_iff.mp hx
      have hne : t'.kind ≠ .arrayClose := by
        intro h
        rw [Reader.beginValue?, h] at hbegin
        cases hbegin
      have hstep : (Reader.firstElement outer).step limit t' = x := by
        rw [Reader.step, if_neg hne, hbegin]
        rfl
      rw [resume_of_some _ hpeek', hstep]
      refine hbegun ⟨s.bump.left, outer.length + 1⟩ hshorter (.array [] :: outer) _ x hs₁
        (fun r hr => ?_) hx
      have hlt : r.state.left.length < s.left.length := Nat.lt_of_lt_of_le r.lt hshorter
      simp only [bind_assoc, pure_bind]
      refine elements_eq hr (fun s' hlt' => agrees_of_ifBegun (hbegun s' (Nat.lt_trans hlt' hlt)))
        fun q hq => ?_
      have hlt' : q.state.left.length < s.left.length := Nat.lt_of_lt_of_le q.lt hlt
      exact close_eq hq hnext (Nat.le_succ_of_le (Nat.le_of_lt hlt'))
  | none =>
      have hnone : value? limit last ⟨s.bump.left, outer.length + 1⟩
          = pure ⟨none, ⟨s.bump.left, outer.length + 1⟩, Nat.lt_succ_self _⟩ := value?_of_none hx
      rw [hnone]
      simp only [bind_assoc, pure_bind]
      refine (close_eq hs₁ hnext (Nat.le_succ_of_le (Nat.le_of_lt hshorter))).trans ?_
      refine (resume_eq_closed (fun _ _ => rfl) (fun t' ht' => ?_) (fun t' hpeek' ht' => ?_)
        rfl).symm
      · exact if_pos ht'
      · rw [Reader.step, if_neg ht', Option.bind_eq_none_iff.mp hx t' hpeek']
        rfl

/-- Every value is read as the reader reads it that has its open containers in a list. -/
theorem agreesIfBegun (limit last : Nat) (s : State) : AgreesIfBegun limit last s := by
  obtain ⟨n, hn⟩ : ∃ n, n = s.left.length := ⟨_, rfl⟩
  induction n using Nat.strongRecOn generalizing s with
  | ind n ih =>
    subst hn
    intro outer next x hs hnext hx
    obtain ⟨t, hpeek, hbegin⟩ := Option.bind_eq_some_iff.mp hx
    have hbegun : ∀ s', s'.left.length < s.left.length → AgreesIfBegun limit last s' :=
      fun s' hlt => ih _ hlt s' rfl
    rw [value?, hpeek]
    rw [Reader.beginValue?] at hbegin
    cases ht : t.kind with
    | string =>
        simp only [ht, Option.some_inj] at hbegin ⊢
        rw [← hbegin, unescape_eq (hs.hasRoom hpeek)]
        exact scalar_eq hs hnext _
    | number | bool | null =>
        simp only [ht, Option.some_inj] at hbegin ⊢
        rw [← hbegin]
        exact scalar_eq hs hnext _
    | objectOpen =>
        simp only [ht, Option.some_inj, bind_assoc, pure_bind] at hbegin ⊢
        rw [← hbegin]
        exact object_eq hs (fun s' hlt => agrees_of_ifBegun (hbegun s' hlt)) hnext hpeek ht
    | arrayOpen =>
        simp only [ht, Option.some_inj, bind_assoc, pure_bind] at hbegin ⊢
        rw [← hbegin]
        exact array_eq hs hbegun hnext hpeek ht
    | _ =>
        rw [ht] at hbegin
        cases hbegin

/-! ## Whole lists of tokens -/

/-- Tokens are read as the reader reads them that has its open containers in a list. -/
theorem parse_eq {limit : Nat} {ts : List Token} (h : ∀ t ∈ ts, HasRoom t) :
    parse limit ts = ofRead (Value.ofTokens? limit ts) := by
  rw [parse]
  refine agrees_of_ifBegun (agreesIfBegun limit _ ⟨ts, 0⟩) [] _ ⟨rfl, h⟩ fun r _ => ?_
  show _ = resume limit _ (.done r.result) r.state.left
  cases hpeek : r.state.peek? with
  | none =>
      rw [resume_of_none _ hpeek]
      simp only [hpeek]
      rfl
  | some t =>
      rw [resume_of_some _ hpeek]
      simp only [hpeek]
      rfl

/-- **Tokens put together by hand do no harm.** No tokens bring the reader to a fault, as long as
their spans leave room for their texts below 2^64: there is a value or an error, the one that comes
of reading with the open containers in a list. So every piece that is cut out of a text stands in it
between whole characters, every span has its ends in order, and the counter never goes below zero,
for all of these come upon a fault otherwise. -/
theorem parse_faultless (limit : Nat) (ts : List Token)
    (h : ∀ t ∈ ts, t.span.lo + 1 + Text.utf8Length t.text.toList < UInt64.size) :
    ((∃ v, parse limit ts = pure v) ∨ ∃ e, parse limit ts = refuse e)
    ∧ Faultless (parse limit ts)
    ∧ parse limit ts = ofRead (Value.ofTokens? limit ts)
    ∧ (∀ cs lo hi, Faultless (slice cs lo hi) ↔ ∃ a piece b, cs = a ++ (piece ++ b)
        ∧ Text.utf8Length a = lo ∧ lo + Text.utf8Length piece = hi)
    ∧ (∀ lo hi, Faultless (span lo hi) ↔ lo ≤ hi)
    ∧ (∀ m n, Faultless (sub m n) ↔ n ≤ m)
    ∧ ∀ m n, Faultless (add m n) ↔ m + n < UInt64.size := by
  have hparse : parse limit ts = ofRead (Value.ofTokens? limit ts) := parse_eq h
  refine ⟨?_, ?_, hparse, fun _ _ _ => faultless_slice_iff, fun _ _ => faultless_span_iff,
    fun _ _ => faultless_sub_iff, fun _ _ => faultless_add_iff⟩
  · rw [hparse]
    cases Value.ofTokens? limit ts with
    | ok v => exact .inl ⟨v, rfl⟩
    | error e => exact .inr ⟨e, rfl⟩
  · rw [hparse]
    exact faultless_ofRead _

/-- An array in which an escape breaks off in front of two characters of two bytes each. Six bytes
are to be shown, but the sixth is in the middle of the second one. -/
def truncated : List Token :=
  [⟨.arrayOpen, "[", ⟨0, 1⟩⟩, ⟨.string, "\\u1éé", ⟨1, 10⟩⟩, ⟨.comma, ",", ⟨10, 11⟩⟩]

theorem parse_faultless_truncated :
    (∀ t ∈ truncated, t.span.lo + 1 + Text.utf8Length t.text.toList < UInt64.size)
    ∧ parse 1 truncated = refuse (.malformedEscape "\\u1éé" ⟨2, 9⟩)
    ∧ Faultless (parse 1 truncated) := by
  have hroom : ∀ t ∈ truncated, t.span.lo + 1 + Text.utf8Length t.text.toList < UInt64.size := by
    decide
  obtain ⟨-, hfaultless, hparse, -⟩ := parse_faultless 1 truncated hroom
  have hstring : stringOf ⟨.string, "\\u1éé", ⟨1, 10⟩⟩
      = .error (.malformedEscape "\\u1éé" ⟨2, 9⟩) := by
    decide +kernel
  have herror : Value.ofTokens? 1 truncated = .error (.malformedEscape "\\u1éé" ⟨2, 9⟩) := by
    show ((Except.map _ (stringOf _)).bind _).bind _ = _
    rw [hstring]
    rfl
  rw [herror] at hparse
  exact ⟨hroom, hparse, hfaultless⟩

end JsonAxes.Descent
