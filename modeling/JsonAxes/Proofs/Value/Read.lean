import JsonAxes.Proofs.Encoding.Size
import JsonAxes.Proofs.Token.Runs
import JsonAxes.Proofs.Tree.Preorder
import JsonAxes.Proofs.Value.Acceptance
import JsonAxes.Proofs.Value.Numbers
import Mathlib.Algebra.Order.BigOperators.Group.List
import Mathlib.Algebra.Order.Ring.Nat
import Mathlib.Data.List.Nodup
import Mathlib.Data.List.Perm.Subperm

/-!
# What values are read

A value that is read has each key of its objects once and only finite numbers, it nests no deeper
than the reader allows, and there are no more values in it than tokens
(`Value.isRead_of_ofTokens?`), which are no more than twelve times as many as the bytes of a text
(`Value.isRead_of_ofBytes?`). All of this holds of its parts as well.
-/

set_option autoImplicit false

namespace JsonAxes

/-! ## Members -/

namespace Members

variable {α : Type}

theorem mem_of_mem_ofList {m : String × α} {pairs : List (String × α)} (h : m ∈ ofList pairs) :
    m ∈ pairs := by
  have hset : ∀ {key : String} {a : α} {members : Members α},
      m ∈ members.set key a → m = (key, a) ∨ m ∈ members := by
    intro key a members hm
    induction members with
    | nil => exact .inl (List.mem_singleton.mp hm)
    | cons first rest ih =>
        obtain ⟨k, b⟩ := first
        rw [set] at hm
        split at hm
        · next hkey =>
          rw [hkey] at hm
          exact (List.mem_cons.mp hm).imp_right (List.mem_cons_of_mem _)
        · rcases List.mem_cons.mp hm with rfl | hm
          · exact .inr List.mem_cons_self
          · exact (ih hm).imp_right (List.mem_cons_of_mem _)
  induction pairs using List.reverseRecOn with
  | nil => exact h
  | append_singleton pairs last ih =>
      obtain ⟨key, a⟩ := last
      rw [ofList_concat] at h
      rcases hset h with rfl | hm
      · exact List.mem_append_right pairs List.mem_cons_self
      · exact List.mem_append_left _ (ih hm)

theorem nodup_keys_ofList (pairs : List (String × α)) : (keys (ofList pairs)).Nodup := by
  induction pairs using List.reverseRecOn with
  | nil => exact List.nodup_nil
  | append_singleton pairs last ih =>
      rw [ofList_concat]
      exact nodup_keys_set _ _ ih

end Members

namespace Value

/-! ## Parts of a value -/

/-- A proof for all values goes from the values in a container to the container. -/
theorem induction_parts {motive : Value → Prop}
    (scalar : ∀ v, v.isContainer = false → motive v)
    (array : ∀ vs, (∀ v ∈ vs, motive v) → motive (.array vs))
    (object : ∀ ms : List (String × Value), (∀ m ∈ ms, motive m.2) → motive (.object ms))
    (v : Value) : motive v :=
  match v with
  | .string s => scalar (.string s) rfl
  | .number n => scalar (.number n) rfl
  | .bool b => scalar (.bool b) rfl
  | .null => scalar .null rfl
  | .array vs => array vs fun v _ => induction_parts scalar array object v
  | .object ms => object ms fun m _ => induction_parts scalar array object m.2
  termination_by sizeOf v
  decreasing_by
    · next hv =>
      have hlt := List.sizeOf_lt_of_mem hv
      simp only [Value.array.sizeOf_spec]
      omega
    · next hm =>
      have hlt := List.sizeOf_lt_of_mem hm
      obtain ⟨key, v⟩ := m
      simp only [Value.object.sizeOf_spec, Prod.mk.sizeOf_spec] at hlt ⊢
      omega

theorem elementsHaveDistinctKeys_iff {vs : List Value} :
    elementsHaveDistinctKeys vs = true ↔ ∀ v ∈ vs, v.hasDistinctKeys = true := by
  induction vs with
  | nil => simp [elementsHaveDistinctKeys]
  | cons v vs ih => rw [elementsHaveDistinctKeys, Bool.and_eq_true, ih, List.forall_mem_cons]

theorem membersHaveDistinctKeys_iff {ms : List (String × Value)} :
    membersHaveDistinctKeys ms = true ↔ ∀ m ∈ ms, m.2.hasDistinctKeys = true := by
  induction ms with
  | nil => simp [membersHaveDistinctKeys]
  | cons m ms ih => rw [membersHaveDistinctKeys, Bool.and_eq_true, ih, List.forall_mem_cons]

theorem elementsAllNumbers_iff {P : Number → Prop} {vs : List Value} :
    ElementsAllNumbers P vs ↔ ∀ v ∈ vs, v.AllNumbers P := by
  induction vs with
  | nil => simp [ElementsAllNumbers]
  | cons v vs ih => rw [ElementsAllNumbers, ih, List.forall_mem_cons]

theorem membersAllNumbers_iff {P : Number → Prop} {ms : List (String × Value)} :
    MembersAllNumbers P ms ↔ ∀ m ∈ ms, m.2.AllNumbers P := by
  induction ms with
  | nil => simp [MembersAllNumbers]
  | cons m ms ih => rw [MembersAllNumbers, ih, List.forall_mem_cons]

theorem elementsNesting_le_iff {vs : List Value} {n : Nat} :
    elementsNesting vs ≤ n ↔ ∀ v ∈ vs, v.nesting ≤ n := by
  induction vs with
  | nil => simp [elementsNesting]
  | cons v vs ih => rw [elementsNesting, Nat.max_le, ih, List.forall_mem_cons]

theorem membersNesting_le_iff {ms : List (String × Value)} {n : Nat} :
    membersNesting ms ≤ n ↔ ∀ m ∈ ms, m.2.nesting ≤ n := by
  induction ms with
  | nil => simp [membersNesting]
  | cons m ms ih => rw [membersNesting, Nat.max_le, ih, List.forall_mem_cons]

theorem countElements_eq_sum (vs : List Value) : countElements vs = (vs.map count).sum := by
  induction vs with
  | nil => rfl
  | cons v vs ih => rw [countElements, ih, List.map_cons, List.sum_cons]

theorem countMembers_eq_sum (ms : List (String × Value)) :
    countMembers ms = (ms.map fun m => m.2.count).sum := by
  induction ms with
  | nil => rfl
  | cons m ms ih => rw [countMembers, ih, List.map_cons, List.sum_cons]

theorem hasDistinctKeys_of_not_isContainer {v : Value} (h : v.isContainer = false) :
    v.hasDistinctKeys = true := by
  cases v with
  | array vs => cases h
  | object ms => cases h
  | _ => rfl

/-! ## What is read -/

/-- What every value has that is read with so much nesting allowed from a text of so many tokens. -/
structure IsRead (limit size : Nat) (v : Value) : Prop where
  keys : v.hasDistinctKeys = true
  finite : v.AllNumbers fun n => n.isFinite = true
  nesting_le : v.nesting ≤ limit
  count_le : v.count ≤ size

section Parts

variable {limit limit' size size' : Nat}

theorem IsRead.mono {v : Value} (h : v.IsRead limit size) (hlimit : limit ≤ limit')
    (hsize : size ≤ size') : v.IsRead limit' size' :=
  ⟨h.keys, h.finite, Nat.le_trans h.nesting_le hlimit, Nat.le_trans h.count_le hsize⟩

/-- What holds of an array holds of its elements. -/
theorem IsRead.of_mem_elements {v : Value} {vs : List Value} (h : (array vs).IsRead limit size)
    (hv : v ∈ vs) : v.IsRead limit size := by
  have hnesting := elementsNesting_le_iff.mp (Nat.le_of_succ_le h.nesting_le)
  have hcount : v.count ≤ countElements vs := by
    rw [countElements_eq_sum]
    exact List.le_sum_of_mem (List.mem_map_of_mem hv)
  exact ⟨elementsHaveDistinctKeys_iff.mp h.keys v hv, elementsAllNumbers_iff.mp h.finite v hv,
    hnesting v hv, Nat.le_trans hcount (Nat.le_of_succ_le h.count_le)⟩

/-- What holds of an object holds of the values of its members. -/
theorem IsRead.of_mem_members {m : String × Value} {ms : List (String × Value)}
    (h : (object ms).IsRead limit size) (hm : m ∈ ms) : m.2.IsRead limit size := by
  have hkeys := h.keys
  rw [hasDistinctKeys, Bool.and_eq_true] at hkeys
  have hnesting := membersNesting_le_iff.mp (Nat.le_of_succ_le h.nesting_le)
  have hcount : m.2.count ≤ countMembers ms := by
    rw [countMembers_eq_sum]
    exact List.le_sum_of_mem (List.mem_map_of_mem (f := fun m : String × Value => m.2.count) hm)
  exact ⟨membersHaveDistinctKeys_iff.mp hkeys.2 m hm, membersAllNumbers_iff.mp h.finite m hm,
    hnesting m hm, Nat.le_trans hcount (Nat.le_of_succ_le h.count_le)⟩

/-- A container holds fewer values than it is, itself included. -/
theorem lt_count_of_size? {v : Value} {n : Nat} (h : v.size? = some n) : n < v.count := by
  cases v with
  | array vs =>
      cases h
      have hle := List.length_le_sum_of_one_le (vs.map count) <|
        List.forall_mem_map.mpr fun w _ => Document.count_pos w
      rw [List.length_map, ← countElements_eq_sum] at hle
      exact Nat.lt_succ_of_le hle
  | object ms =>
      cases h
      have hle := List.length_le_sum_of_one_le (ms.map fun m => m.2.count) <|
        List.forall_mem_map.mpr fun m _ => Document.count_pos m.2
      rw [List.length_map, ← countMembers_eq_sum] at hle
      exact Nat.lt_succ_of_le hle
  | _ => cases h

end Parts

/-! ## Merging -/

/-- Of the members with one key the last is kept, and nothing else is added. -/
theorem countMembers_ofList_le (ms : List (String × Value)) :
    countMembers (Members.ofList ms) ≤ countMembers ms := by
  have hnodup : (Members.ofList ms).Nodup :=
    List.Nodup.of_map _ (Members.nodup_keys_ofList ms)
  have hsubset : Members.ofList ms ⊆ ms := fun _ => Members.mem_of_mem_ofList
  obtain ⟨kept, hperm, hsub⟩ := List.subperm_of_subset hnodup hsubset
  rw [countMembers_eq_sum, countMembers_eq_sum, ← (hperm.map _).sum_eq]
  exact (hsub.map _).sum_le_sum fun _ _ => Nat.zero_le _

/-- Where all numbers are finite, merging leaves a value like those that are read. -/
theorem isRead_merged (v : Value) (h : v.AllNumbers fun n => n.isFinite = true) :
    v.merged.IsRead v.nesting v.count := by
  induction v using induction_parts with
  | scalar v hv =>
      rw [merged_of_not_isContainer hv]
      exact ⟨hasDistinctKeys_of_not_isContainer hv, h, Nat.le_refl _, Nat.le_refl _⟩
  | array vs ih =>
      have hread : ∀ v ∈ vs, v.merged.IsRead v.nesting v.count := fun v hv =>
        ih v hv (elementsAllNumbers_iff.mp h v hv)
      rw [merged, mergedElements_eq_map]
      refine ⟨elementsHaveDistinctKeys_iff.mpr ?_, elementsAllNumbers_iff.mpr ?_,
        Nat.succ_le_succ (elementsNesting_le_iff.mpr ?_), Nat.succ_le_succ ?_⟩
      · exact List.forall_mem_map.mpr fun v hv => (hread v hv).keys
      · exact List.forall_mem_map.mpr fun v hv => (hread v hv).finite
      · refine List.forall_mem_map.mpr fun v hv => ?_
        exact Nat.le_trans (hread v hv).nesting_le (elementsNesting_le_iff.mp (Nat.le_refl _) v hv)
      · rw [countElements_eq_sum, countElements_eq_sum, List.map_map]
        exact List.sum_le_sum fun v hv => (hread v hv).count_le
  | object ms ih =>
      have hread : ∀ m ∈ ms, m.2.merged.IsRead m.2.nesting m.2.count := fun m hm =>
        ih m hm (membersAllNumbers_iff.mp h m hm)
      -- each member that is kept has the merged value of a member that was there
      have hmerged : ∀ m ∈ Members.ofList (mergedMembers ms), ∃ n ∈ ms, m.2 = n.2.merged := by
        intro m hm
        have hmem := Members.mem_of_mem_ofList hm
        rw [mergedMembers_eq_map] at hmem
        obtain ⟨n, hn, rfl⟩ := List.mem_map.mp hmem
        exact ⟨n, hn, rfl⟩
      rw [merged, ofMembers]
      refine ⟨?_, membersAllNumbers_iff.mpr ?_, Nat.succ_le_succ (membersNesting_le_iff.mpr ?_),
        Nat.succ_le_succ ?_⟩
      · rw [hasDistinctKeys, Bool.and_eq_true, decide_eq_true_iff]
        refine ⟨Members.nodup_keys_ofList _, membersHaveDistinctKeys_iff.mpr fun m hm => ?_⟩
        obtain ⟨n, hn, heq⟩ := hmerged m hm
        exact heq ▸ (hread n hn).keys
      · intro m hm
        obtain ⟨n, hn, heq⟩ := hmerged m hm
        exact heq ▸ (hread n hn).finite
      · intro m hm
        obtain ⟨n, hn, heq⟩ := hmerged m hm
        have hle := membersNesting_le_iff.mp (Nat.le_refl _) n hn
        exact heq ▸ Nat.le_trans (hread n hn).nesting_le hle
      · refine Nat.le_trans (countMembers_ofList_le _) ?_
        rw [countMembers_eq_sum, countMembers_eq_sum, mergedMembers_eq_map, List.map_map]
        exact List.sum_le_sum fun m hm => (hread m hm).count_le

/-! ## Tokens -/

theorem isFinite_of_numberOf {t : Token} {n : Number} (h : Reader.numberOf t = .ok n) :
    n.isFinite = true := (Reader.numberOf_eq_ok_iff.mp h).2

mutual

/-- The numbers that tokens spell are finite, and every value takes a token. -/
theorem SpelledBy.finite_and_count_le {v : Value} {ts : List Token} (h : v.SpelledBy ts) :
    v.AllNumbers (fun n => n.isFinite = true) ∧ v.count ≤ ts.length :=
  match h with
  | .string _ _ => ⟨trivial, Nat.le_refl _⟩
  | .number _ hn => ⟨isFinite_of_numberOf hn, Nat.le_refl _⟩
  | .bool _ _ => ⟨trivial, Nat.le_refl _⟩
  | .null _ _ => ⟨trivial, Nat.le_refl _⟩
  | .emptyArray _ _ => ⟨trivial, Nat.le_succ 1⟩
  | .array _ hv hvs _ => by
      obtain ⟨hfinite, hcount⟩ := hv.finite_and_count_le
      obtain ⟨hfinites, hcounts⟩ := hvs.finite_and_count_le
      refine ⟨⟨hfinite, hfinites⟩, ?_⟩
      simp only [count, countElements, List.length_cons, List.length_append]
      omega
  | .emptyObject _ _ => ⟨trivial, Nat.le_succ 1⟩
  | .object _ _ _ _ hv hms _ => by
      obtain ⟨hfinite, hcount⟩ := hv.finite_and_count_le
      obtain ⟨hfinites, hcounts⟩ := hms.finite_and_count_le
      refine ⟨⟨hfinite, hfinites⟩, ?_⟩
      simp only [count, countMembers, List.length_cons, List.length_append]
      omega

theorem ElementsSpelledBy.finite_and_count_le {vs : List Value} {ts : List Token}
    (h : ElementsSpelledBy vs ts) :
    ElementsAllNumbers (fun n => n.isFinite = true) vs ∧ countElements vs ≤ ts.length :=
  match h with
  | .nil => ⟨trivial, Nat.le_refl _⟩
  | .cons _ hv hvs => by
      obtain ⟨hfinite, hcount⟩ := hv.finite_and_count_le
      obtain ⟨hfinites, hcounts⟩ := hvs.finite_and_count_le
      refine ⟨⟨hfinite, hfinites⟩, ?_⟩
      simp only [countElements, List.length_cons, List.length_append]
      omega

theorem MembersSpelledBy.finite_and_count_le {ms : List (String × Value)} {ts : List Token}
    (h : MembersSpelledBy ms ts) :
    MembersAllNumbers (fun n => n.isFinite = true) ms ∧ countMembers ms ≤ ts.length :=
  match h with
  | .nil => ⟨trivial, Nat.le_refl _⟩
  | .cons _ _ _ _ hv hms => by
      obtain ⟨hfinite, hcount⟩ := hv.finite_and_count_le
      obtain ⟨hfinites, hcounts⟩ := hms.finite_and_count_le
      refine ⟨⟨hfinite, hfinites⟩, ?_⟩
      simp only [countMembers, List.length_cons, List.length_append]
      omega

end

theorem isRead_of_ofTokens? {limit : Nat} {ts : List Token} {v : Value}
    (h : ofTokens? limit ts = .ok v) : v.IsRead limit ts.length := by
  obtain ⟨w, hw, hnesting, rfl⟩ := exists_spelledBy_of_ofTokens? h
  obtain ⟨hfinite, hcount⟩ := hw.finite_and_count_le
  exact (isRead_merged w hfinite).mono hnesting hcount

/-- **What is read from bytes.** A value that is read from some bytes has each key of its objects
once and only finite numbers, nests no deeper than is allowed, and has no more parts than twelve for
each byte. -/
theorem isRead_of_ofBytes? {limit : Nat} {bytes : List UInt8} {v : Value}
    (h : ofBytes? limit bytes = .ok v) : v.IsRead limit (12 * bytes.length) := by
  rw [ofBytes?] at h
  cases htext : Canonical.ofBytes bytes with
  | error e =>
      rw [htext] at h
      cases h
  | ok text =>
      rw [htext] at h
      cases hlex : Token.lex text with
      | error e =>
          simp only [Except.bind, ofCanonical?, hlex] at h
          cases h
      | ok ts =>
          simp only [Except.bind, ofCanonical?, hlex] at h
          have hlength := Canonical.length_of_ofBytes htext
          have htokens := Nat.le_trans (Token.length_of_lex hlex) hlength
          exact (isRead_of_ofTokens? h).mono (Nat.le_refl _) htokens

end Value

end JsonAxes
