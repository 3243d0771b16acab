import JsonAxes.Text.EditDistance
import Mathlib.Order.Bounds.Basic

/-!
# Edits

An edit inserts a character into a text, deletes one, or puts one in the place of another
(`IsEdit`). The edit distance of two texts is the least number of edits, one after the other, that
take one to the other (`editDistance?_isLeast`).

This number obeys a recursion on both texts (`distance`): no edit of the first text lowers it by
more than one (`distance_le_of_isEdit`), and that many edits are enough (`edits_distance`). The rows
of the table grow at the end of a text, where the recursion takes its beginning away. So a row holds
the distances of fronts read backwards (`Row.Holds`), which is the same, as edits may be read
backwards too (`distance_reverse`). What a row is written over makes no difference to it
(`holds_fillRow`).
-/

set_option autoImplicit false

namespace JsonAxes.Text

/-! ## Edits and what they take a text to -/

/-- Whether a single edit takes a text to another. -/
inductive IsEdit : List Char → List Char → Prop where
  | insertion (front behind : List Char) (c : Char) :
      IsEdit (front ++ behind) (front ++ c :: behind)
  | deletion (front behind : List Char) (c : Char) :
      IsEdit (front ++ c :: behind) (front ++ behind)
  | substitution (front behind : List Char) (c d : Char) :
      IsEdit (front ++ c :: behind) (front ++ d :: behind)

/-- Whether so many edits, one after the other, take a text to another. -/
inductive Edits : Nat → List Char → List Char → Prop where
  | nil (xs : List Char) : Edits 0 xs xs
  | cons {n : Nat} {xs ys zs : List Char} (h : IsEdit xs ys) (hs : Edits n ys zs) :
      Edits (n + 1) xs zs

variable {xs ys : List Char} {n : Nat}

/-- An edit stays one behind a further character. -/
theorem IsEdit.behind (h : IsEdit xs ys) (c : Char) : IsEdit (c :: xs) (c :: ys) := by
  cases h with
  | insertion front behind d => exact .insertion (c :: front) behind d
  | deletion front behind d => exact .deletion (c :: front) behind d
  | substitution front behind d e => exact .substitution (c :: front) behind d e

theorem Edits.behind (h : Edits n xs ys) (c : Char) : Edits n (c :: xs) (c :: ys) := by
  induction h with
  | nil xs => exact .nil (c :: xs)
  | cons h _ ih => exact .cons (h.behind c) ih

/-- Read backwards, an edit is one. -/
theorem IsEdit.reverse (h : IsEdit xs ys) : IsEdit xs.reverse ys.reverse := by
  cases h with
  | insertion front behind c => simpa using insertion behind.reverse front.reverse c
  | deletion front behind c => simpa using deletion behind.reverse front.reverse c
  | substitution front behind c d => simpa using substitution behind.reverse front.reverse c d

theorem Edits.min {m : Nat} (hm : Edits m xs ys) (hn : Edits n xs ys) : Edits (min m n) xs ys := by
  rcases Nat.le_total m n with hle | hle
  · rwa [Nat.min_eq_left hle]
  · rwa [Nat.min_eq_right hle]

theorem Edits.reverse (h : Edits n xs ys) : Edits n xs.reverse ys.reverse := by
  induction h with
  | nil xs => exact .nil xs.reverse
  | cons h _ ih => exact .cons h.reverse ih

/-! ## The least number of edits -/

/-- The distance of two texts, by their first characters: one of them is put in the place of the
other, or is deleted, or is inserted. -/
def distance : List Char → List Char → Nat
  | [], ys => ys.length
  | x :: xs, [] => (x :: xs).length
  | x :: xs, y :: ys =>
    min (distance xs ys + if x = y then 0 else 1)
      (min (distance xs (y :: ys)) (distance (x :: xs) ys) + 1)
  termination_by xs ys => xs.length + ys.length

theorem distance_nil_left (ys : List Char) : distance [] ys = ys.length := by
  rw [distance]

theorem distance_nil_right (xs : List Char) : distance xs [] = xs.length := by
  cases xs with
  | nil => exact distance_nil_left []
  | cons x xs => rw [distance]

/-- As many edits as the distance are enough. -/
theorem edits_distance (xs ys : List Char) : Edits (distance xs ys) xs ys := by
  induction xs, ys using distance.induct with
  | case1 ys =>
      rw [distance_nil_left]
      induction ys with
      | nil => exact .nil []
      | cons y ys ih => exact .cons (.insertion [] [] y) (ih.behind y)
  | case2 x xs =>
      rw [distance_nil_right]
      induction xs generalizing x with
      | nil => exact .cons (.deletion [] [] x) (.nil [])
      | cons x' xs ih => exact .cons (.deletion [] (x' :: xs) x) (ih x')
  | case3 x xs y ys hboth hdeleted hinserted =>
      have hsubstituted : Edits (distance xs ys + if x = y then 0 else 1) (x :: xs) (y :: ys) := by
        by_cases hxy : x = y
        · subst hxy
          rw [if_pos rfl]
          exact hboth.behind x
        · rw [if_neg hxy]
          exact .cons (.substitution [] xs x y) (hboth.behind y)
      have hbehind : Edits (min (distance xs (y :: ys)) (distance (x :: xs) ys) + 1)
          (x :: xs) (y :: ys) := by
        rw [← Nat.add_min_add_right]
        exact .min (.cons (.deletion [] xs x) hdeleted)
          (.cons (.insertion [] (x :: xs) y) (hinserted.behind y))
      rw [distance]
      exact .min hsubstituted hbehind

/-- A character less in the first text is one edit more at most. -/
theorem distance_cons_left_le (x : Char) (xs ys : List Char) :
    distance (x :: xs) ys ≤ distance xs ys + 1 := by
  cases ys with
  | nil => rw [distance_nil_right, distance_nil_right, List.length_cons]
  | cons y ys =>
      rw [distance]
      omega

theorem distance_cons_right_le (xs : List Char) (y : Char) (ys : List Char) :
    distance xs (y :: ys) ≤ distance xs ys + 1 := by
  cases xs with
  | nil => rw [distance_nil_left, distance_nil_left, List.length_cons]
  | cons x xs =>
      rw [distance]
      omega

/-- Whether the distance from a text is nowhere larger by more than one than from another. -/
def IsNear (xs ys : List Char) : Prop := ∀ zs, distance xs zs ≤ distance ys zs + 1

theorem isNear_insertion (c : Char) (xs : List Char) : IsNear xs (c :: xs) := by
  intro zs
  induction zs with
  | nil =>
      rw [distance_nil_right, distance_nil_right, List.length_cons]
      omega
  | cons z zs ih =>
      have hle := distance_cons_right_le xs z zs
      rw [distance]
      omega

theorem isNear_substitution (c d : Char) (xs : List Char) : IsNear (c :: xs) (d :: xs) := by
  intro zs
  induction zs with
  | nil =>
      rw [distance_nil_right, distance_nil_right, List.length_cons, List.length_cons]
      omega
  | cons z zs ih =>
      rw [distance, distance]
      split <;> split <;> omega

theorem IsNear.behind (h : IsNear xs ys) (c : Char) : IsNear (c :: xs) (c :: ys) := by
  intro zs
  induction zs with
  | nil =>
      have hnil := h []
      rw [distance_nil_right, distance_nil_right] at hnil
      rw [distance_nil_right, distance_nil_right, List.length_cons, List.length_cons]
      omega
  | cons z zs ih =>
      have hboth := h zs
      have hdeleted := h (z :: zs)
      rw [distance, distance]
      omega

/-- No edit of the first text lowers the distance by more than one. -/
theorem distance_le_of_isEdit (h : IsEdit xs ys) : IsNear xs ys := by
  have hfront : ∀ {front xs ys : List Char}, IsNear xs ys → IsNear (front ++ xs) (front ++ ys) := by
    intro front xs ys h
    induction front with
    | nil => exact h
    | cons c front ih => exact ih.behind c
  cases h with
  | insertion front behind c => exact hfront (isNear_insertion c behind)
  | deletion front behind c => exact hfront (distance_cons_left_le c behind)
  | substitution front behind c d => exact hfront (isNear_substitution c d behind)

theorem distance_le_of_edits (h : Edits n xs ys) : distance xs ys ≤ n := by
  induction h with
  | nil xs =>
      induction xs with
      | nil => rw [distance_nil_left, List.length_nil]
      | cons x xs ih =>
          rw [distance, if_pos rfl]
          omega
  | @cons n xs ys zs h _ ih =>
      have hle := distance_le_of_isEdit h zs
      omega

/-- The distance is the least number of edits that take one text to the other. -/
theorem isLeast_distance (xs ys : List Char) : IsLeast {n | Edits n xs ys} (distance xs ys) :=
  ⟨edits_distance xs ys, fun _ => distance_le_of_edits⟩

/-- Texts that are read backwards are as far from each other. -/
theorem distance_reverse (xs ys : List Char) :
    distance xs.reverse ys.reverse = distance xs ys := by
  have hedits : {n | Edits n xs.reverse ys.reverse} = {n | Edits n xs ys} := by
    ext n
    refine ⟨fun h => ?_, Edits.reverse⟩
    have hback := Edits.reverse h
    rwa [List.reverse_reverse, List.reverse_reverse] at hback
  have hleast := isLeast_distance xs.reverse ys.reverse
  rw [hedits] at hleast
  exact hleast.unique (isLeast_distance xs ys)

/-- Two texts are at least as far from each other as their lengths. -/
theorem length_sub_le_distance (xs ys : List Char) :
    max (xs.length - ys.length) (ys.length - xs.length) ≤ distance xs ys := by
  induction xs, ys using distance.induct with
  | case1 ys =>
      rw [distance_nil_left, List.length_nil]
      omega
  | case2 x xs =>
      rw [distance_nil_right, List.length_nil]
      omega
  | case3 x xs y ys hboth hdeleted hinserted =>
      rw [distance]
      simp only [List.length_cons] at *
      omega

/-! ## Rows -/

/-- What every round of a loop keeps holds when the loop is done. -/
theorem fold_keeps {α : Type} {n : Nat} {f : (i : Nat) → i < n → α → α} {init : α}
    (P : Nat → α → Prop) (hinit : P 0 init)
    (hstep : ∀ (i : Nat) (hi : i < n) (a : α), P i a → P (i + 1) (f i hi a)) :
    P n (n.fold f init) := by
  induction n with
  | zero => exact hinit
  | succ n ih =>
      rw [Nat.fold_succ]
      exact hstep n (Nat.lt_succ_self n) _ (ih fun i hi a => hstep i (Nat.lt_succ_of_lt hi) a)

/-- Whether the entries of a row up to an index are the distances from a text to the fronts of
another, both read backwards. -/
def Row.Holds {ys : List Char} (xs : List Char) (k : Nat) (row : Row ys) : Prop :=
  ∀ (j : Nat) (hj : j < ys.length + 1), j ≤ k → row[j] = distance xs (ys.take j).reverse

theorem holds_start (ys : List Char) : (Rows.start ys).above.Holds [] ys.length := by
  intro j hj hle
  rw [distance_nil_left, List.length_reverse, List.length_take, Nat.min_eq_left hle]
  exact Vector.getElem_range hj

/-- Below a row that holds, the row of one more character holds, whatever it is written over. -/
theorem holds_fillRow {xs ys : List Char} {above : Row ys} (h : above.Holds xs ys.length)
    (x : Char) (row : Row ys) :
    (fillRow x (xs.length + 1) ys above row).Holds (x :: xs) ys.length := by
  refine fold_keeps (fun k (row : Row ys) => row.Holds (x :: xs) k) ?_ ?_
  · intro j hj hle
    obtain rfl : j = 0 := Nat.le_zero.mp hle
    rw [Vector.getElem_set_self, List.take_zero, List.reverse_nil, distance_nil_right,
      List.length_cons]
  · intro i hi row hrow j hj hle
    by_cases hlast : j = i + 1
    · subst hlast
      have hfront : (ys.take (i + 1)).reverse = ys[i] :: (ys.take i).reverse := by
        rw [List.take_succ_eq_append_getElem hi, List.reverse_append, List.reverse_singleton,
          List.singleton_append]
      rw [Vector.getElem_set_self, h i (by omega) (by omega), h (i + 1) hj (by omega),
        hrow i (by omega) (Nat.le_refl i), hfront, distance]
    · rw [Vector.getElem_set_ne (by omega) (by omega) (by omega)]
      exact hrow j hj (by omega)

/-- What one character keeps, all of them keep: the row that is left is the one of the characters
that were gone through. -/
theorem holds_foldl_next (xs front : List Char) {ys : List Char} {rows : Rows ys}
    (h : rows.above.Holds front.reverse ys.length) :
    ((xs.zipIdx front.length).foldl Rows.next rows).above.Holds (front ++ xs).reverse
      ys.length := by
  induction xs generalizing front rows with
  | nil => rwa [List.append_nil]
  | cons x xs ih =>
      have hfilled := holds_fillRow h x rows.spare
      rw [List.length_reverse] at hfilled
      have hnext : (rows.next (x, front.length)).above.Holds (front ++ [x]).reverse ys.length := by
        rw [List.reverse_append, List.reverse_singleton, List.singleton_append]
        exact hfilled
      have hrest := ih (front ++ [x]) hnext
      rw [List.length_append, List.append_assoc] at hrest
      exact hrest

theorem holds_lastRow (xs ys : List Char) : (lastRow xs ys).Holds xs.reverse ys.length :=
  holds_foldl_next xs [] (holds_start ys)

/-! ## The distance within a limit -/

/-- The distance is found if it is within the limit. Where the lengths of the texts settle the
question, they settle it rightly. -/
theorem editDistance?_eq (limit : Nat) (xs ys : List Char) :
    editDistance? limit xs ys
      = if distance xs ys ≤ limit then some (distance xs ys) else none := by
  have hlength := length_sub_le_distance xs ys
  have hlast := holds_lastRow xs ys ys.length (Nat.lt_succ_self _) (Nat.le_refl _)
  rw [List.take_length, distance_reverse] at hlast
  rw [editDistance?, hlast]
  by_cases hlimit : limit < max (xs.length - ys.length) (ys.length - xs.length)
  · rw [if_pos hlimit, if_neg (by omega)]
  · rw [if_neg hlimit]

/-- **The edit distance is the least number of edits.** A distance between two texts is found within
a limit exactly if it is within the limit and the least number of insertions, deletions and
substitutions of single characters that take one text to the other; none is found exactly if no
number of them up to the limit does. -/
theorem editDistance?_isLeast (limit : Nat) (a b : String) :
    (∀ d, editDistance? limit a.toList b.toList = some d
      ↔ d ≤ limit ∧ IsLeast {n | Edits n a.toList b.toList} d)
    ∧ (editDistance? limit a.toList b.toList = none
      ↔ ∀ n, Edits n a.toList b.toList → limit < n) := by
  have hleast := isLeast_distance a.toList b.toList
  rw [editDistance?_eq]
  constructor
  · intro d
    constructor
    · intro h
      obtain ⟨hle, hd⟩ := Option.ite_none_right_eq_some.mp h
      rw [← Option.some.inj hd]
      exact ⟨hle, hleast⟩
    · rintro ⟨hle, hd⟩
      rw [hd.unique hleast] at hle ⊢
      exact if_pos hle
  · constructor
    · intro h n hn
      have hlimit : ¬ distance a.toList b.toList ≤ limit := fun hle => by
        rw [if_pos hle] at h
        cases h
      have hle := hleast.2 hn
      omega
    · intro h
      exact if_neg (Nat.not_le.mpr (h _ hleast.1))

/-- A letter and its accented form are one substitution apart, whatever they take in bytes. -/
example : editDistance? 1 "é".toList "e".toList = some 1 := by decide

end JsonAxes.Text
