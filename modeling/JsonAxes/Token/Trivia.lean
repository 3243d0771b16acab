import JsonAxes.ReadError
import JsonAxes.Text.Units

/-!
# White space and comments

Between tokens there may be white space, block comments and line comments. A line comment begins
with `#` or two slashes and ends before a line feed, or with the text; a block comment that is
not closed is an error.

`Gap.first` takes one piece of this off a text, and its pieces put together are the text
(`append_of_first`); `skipTrivia` takes off all there is.
-/

set_option autoImplicit false

namespace JsonAxes.Token

/-- Whether a character is white space between tokens. -/
def isBlank (c : Char) : Bool :=
  c == ' ' || c == '\t' || c == '\r' || c == '\n' || c == '\x08' || c == '\x0b' || c == '\x0c'

/-- The inside of the block comment whose opening has been taken off, and what follows its end. -/
def blockComment? : List Char → Option (List Char × List Char)
  | [] => none
  | c :: rest =>
    match c, rest with
    | '*', '/' :: after => some ([], after)
    | _, _ => (blockComment? rest).map fun (inside, after) => (c :: inside, after)

/-- What stands at the front of a text, where a token may follow. -/
inductive Gap where
  /-- Nothing to skip. -/
  | empty
  /-- A white space character or a comment, and the text behind it. -/
  | piece (skipped rest : List Char)
  /-- A block comment without an end. -/
  | unclosed
  deriving DecidableEq, Repr

/-- A line comment: everything before the next line feed. -/
def Gap.line (cs : List Char) : Gap :=
  .piece (cs.takeWhile (· != '\n')) (cs.dropWhile (· != '\n'))

/-- The first piece of white space or comment. -/
def Gap.first : List Char → Gap
  | [] => .empty
  | c :: rest =>
    if isBlank c then .piece [c] rest
    else if c = '#' then .line (c :: rest)
    else if c = '/' then
      match rest with
      | '/' :: _ => .line (c :: rest)
      | '*' :: body =>
        match blockComment? body with
        | some (inside, after) => .piece ('/' :: '*' :: inside ++ ['*', '/']) after
        | none => .unclosed
      -- a slash alone is no comment; whoever looks for a token will refuse it
      | _ => .empty
    else .empty

/-! ## A piece is the front of its text -/

theorem append_of_blockComment? {cs inside after : List Char}
    (h : blockComment? cs = some (inside, after)) : inside ++ '*' :: '/' :: after = cs := by
  induction cs generalizing inside with
  | nil => cases h
  | cons c rest ih =>
    unfold blockComment? at h
    split at h
    · cases h; rfl
    · obtain ⟨p, hp, he⟩ := Option.map_eq_some_iff.mp h
      cases he
      simp [ih hp]

theorem Gap.append_of_line {cs skipped rest : List Char} (h : Gap.line cs = .piece skipped rest) :
    skipped ++ rest = cs := by
  cases h
  exact List.takeWhile_append_dropWhile

theorem Gap.ne_nil_of_line {c : Char} {cs skipped rest : List Char} (hc : c ≠ '\n')
    (h : Gap.line (c :: cs) = .piece skipped rest) : skipped ≠ [] := by
  cases h
  simp [hc]

theorem Gap.append_of_first {cs skipped rest : List Char}
    (h : Gap.first cs = .piece skipped rest) : skipped ++ rest = cs ∧ skipped ≠ [] := by
  unfold Gap.first at h
  split at h
  · cases h
  · split at h
    · cases h; simp
    · split at h
      · next hc => exact ⟨append_of_line h, ne_nil_of_line (by simp [hc]) h⟩
      · split at h
        · next hc =>
          subst hc
          split at h
          · exact ⟨append_of_line h, ne_nil_of_line (by decide) h⟩
          · split at h
            · next hb => cases h; simp [← append_of_blockComment? hb]
            · cases h
          · cases h
        · cases h

/-! ## Skipping -/

/-- Skips white space and comments from a byte offset on; gives the offset and the text of what
follows. -/
def skipTrivia (offset : Nat) (cs : List Char) : Except ReadError (Nat × List Char) :=
  match h : Gap.first cs with
  | .empty => .ok (offset, cs)
  | .piece skipped rest =>
    have : rest.length < cs.length := by
      have ⟨happ, hne⟩ := Gap.append_of_first h
      have := List.length_pos_iff.mpr hne
      simp [← happ]
      omega
    skipTrivia (offset + Text.utf8Length skipped) rest
  | .unclosed => .error (.unterminatedComment ⟨offset, offset + Text.utf8Length cs⟩)
  termination_by cs.length

/-- What follows is the end of the text. -/
theorem exists_append_of_skipTrivia {offset offset' : Nat} {cs rest : List Char}
    (h : skipTrivia offset cs = .ok (offset', rest)) : ∃ skipped, skipped ++ rest = cs := by
  fun_induction skipTrivia offset cs with
  | case1 => cases h; exact ⟨[], rfl⟩
  | case2 offset cs skipped rest' hf _ ih =>
    obtain ⟨more, hmore⟩ := ih h
    exact ⟨skipped ++ more, by simp [hmore, (Gap.append_of_first hf).1]⟩
  | case3 => cases h

end JsonAxes.Token
