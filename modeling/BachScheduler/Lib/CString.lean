import Mathlib.Data.List.TakeDrop
import Mathlib.Data.List.TakeWhile
import Mathlib.Tactic.Common

/-!
# Strings of C

A buffer is a list of characters, and a string in it ends at the first NUL.  `strtok_r` ends
each token that it finds by a NUL in the buffer and remembers where to go on, so a scan of a
string is a scan of the tokens of what it was at first.
-/

namespace BachScheduler.CString

/-- The character that ends a string. -/
def nul : Char := '\x00'

/-- The string at a position of a buffer. -/
def strAt (buffer : List Char) (pos : Nat) : List Char :=
  (buffer.drop pos).takeWhile (· ≠ nul)

/-- `strtok_r` from the position where it is to start or to go on: the position of the token,
the position to go on from, and the buffer. -/
def strtokR (delim : Char → Bool) (buffer : List Char) (pos : Nat) : Option Nat × Nat × List Char :=
  let str := strAt buffer pos
  let start := pos + (str.takeWhile delim).length
  let rest := str.dropWhile delim
  if rest = [] then
    (none, start, buffer)
  else
    let stop := start + (rest.takeWhile fun c => !delim c).length
    if stop = start + rest.length then
      (some start, stop, buffer)
    else
      (some start, stop + 1, buffer.set stop nul)

/-- The tokens of a string: the non-empty pieces between delimiters. -/
def tokens (delim : Char → Bool) (str : List Char) : List (List Char) :=
  (str.splitOnP delim).filter (· ≠ [])

/-- The string at a position of a buffer is `str`, and `post` follows its NUL. -/
structure Holds (buffer : List Char) (pos : Nat) (str post : List Char) : Prop where
  drop : buffer.drop pos = str ++ nul :: post
  no_nul : nul ∉ str

section Tokens

variable {delim : Char → Bool} {str token : List Char} {sep : Char}

@[simp] theorem tokens_nil : tokens delim [] = [] := rfl

/-- Leading delimiters are passed over. -/
theorem tokens_delim (isDelim : delim sep) : tokens delim (sep :: str) = tokens delim str := by
  have split := List.splitOnP_append_cons (p := delim) [] str isDelim
  rw [List.nil_append, List.splitOnP_nil] at split
  rw [tokens, split]
  rfl

theorem tokens_delims {seps : List Char} (allDelims : ∀ c ∈ seps, delim c) :
    tokens delim (seps ++ str) = tokens delim str := by
  induction seps with
  | nil => rfl
  | cons sep seps ih =>
      rw [List.cons_append, tokens_delim (allDelims sep List.mem_cons_self)]
      exact ih fun c member => allDelims c (List.mem_cons_of_mem _ member)

theorem tokens_single (nonempty : token ≠ []) (plain : ∀ c ∈ token, delim c = false) :
    tokens delim token = [token] := by
  rw [tokens, List.splitOnP_eq_singleton plain]
  simp [nonempty]

/-- The first token ends at a delimiter. -/
theorem tokens_cons (nonempty : token ≠ []) (plain : ∀ c ∈ token, delim c = false)
    (isDelim : delim sep) : tokens delim (token ++ sep :: str) = token :: tokens delim str := by
  rw [tokens, List.splitOnP_append_cons (p := delim) token str isDelim,
    List.splitOnP_eq_singleton plain]
  simp [nonempty, tokens]

theorem intercalate_cons_cons (sep : Char) (piece next : List Char) (pieces : List (List Char)) :
    [sep].intercalate (piece :: next :: pieces) = piece ++ sep :: [sep].intercalate
    (next :: pieces) := by
  rw [List.intercalate_cons_cons, List.append_assoc, List.singleton_append]

/-- What is joined consists of separators and of what is in the pieces. -/
theorem mem_intercalate {pieces : List (List Char)} {c : Char}
    (member : c ∈ [sep].intercalate pieces) :
    c = sep ∨ ∃ piece ∈ pieces, c ∈ piece := by
  induction pieces with
  | nil => simp at member
  | cons piece pieces ih =>
      cases pieces with
      | nil => exact .inr ⟨piece, List.mem_cons_self, by simpa using member⟩
      | cons next pieces =>
          rw [intercalate_cons_cons, List.mem_append, List.mem_cons] at member
          rcases member with inside | rfl | rest
          · exact .inr ⟨piece, List.mem_cons_self, inside⟩
          · exact .inl rfl
          · rcases ih rest with same | ⟨other, among, inside⟩
            · exact .inl same
            · exact .inr ⟨other, List.mem_cons_of_mem _ among, inside⟩

/-- Pieces that are joined are the tokens again. -/
theorem tokens_intercalate {pieces : List (List Char)} (isDelim : delim sep)
    (plain : ∀ piece ∈ pieces, piece ≠ [] ∧ ∀ c ∈ piece, delim c = false) :
    tokens delim ([sep].intercalate pieces) = pieces := by
  induction pieces with
  | nil => rfl
  | cons piece pieces ih =>
      have first := plain piece List.mem_cons_self
      cases pieces with
      | nil => simpa using tokens_single first.1 first.2
      | cons next pieces =>
          have rest := ih fun piece member => plain piece (List.mem_cons_of_mem _ member)
          rw [intercalate_cons_cons, tokens_cons first.1 first.2 isDelim, rest]

/-- A string has no token, or one that ends with it, or one that ends at a delimiter. -/
theorem scan_cases (delim : Char → Bool) (str : List Char) :
    (∀ c ∈ str, delim c) ∨
      ∃ seps token, (∀ c ∈ seps, delim c) ∧ token ≠ [] ∧ (∀ c ∈ token, delim c = false) ∧
        (str = seps ++ token ∨ ∃ sep str', delim sep ∧ str = seps ++ (token ++ sep :: str')) := by
  have whole := List.takeWhile_append_dropWhile (p := delim) (l := str)
  have allDelims (c : Char) (member : c ∈ str.takeWhile delim) :
      delim c := List.mem_takeWhile_imp member
  cases rest : str.dropWhile delim with
  | nil =>
      left
      rw [rest, List.append_nil] at whole
      exact fun c member => allDelims c (whole.symm ▸ member)
  | cons first last =>
      right
      have plain : delim first = false := by
        have head := List.head?_dropWhile_not delim str
        rw [rest] at head
        simpa using head
      refine ⟨str.takeWhile delim, first :: last.takeWhile fun c => !delim c, allDelims,
        List.cons_ne_nil _ _, ?_, ?_⟩
      · intro c member
        rcases List.mem_cons.mp member with rfl | inside
        · exact plain
        · simpa using List.mem_takeWhile_imp inside
      · have split := List.takeWhile_append_dropWhile (p := fun c => !delim c) (l := last)
        rw [rest] at whole
        cases after : last.dropWhile fun c => !delim c with
        | nil =>
            left
            rw [after, List.append_nil] at split
            rw [split, whole]
        | cons sep str' =>
            right
            have isDelim : delim sep := by
              have head := List.head?_dropWhile_not (fun c => !delim c) last
              rw [after] at head
              simpa using head
            rw [after] at split
            exact ⟨sep, str', isDelim, by rw [List.cons_append, split, whole]⟩

/-- Tokens take up the string. -/
theorem length_tokens_le (delim : Char → Bool) (str : List Char) :
    (tokens delim str).length ≤ str.length := by
  induction size : str.length using Nat.strongRecOn generalizing str with
  | ind n ih =>
      rcases scan_cases delim str with all | ⟨seps, token, delims, nonempty, plain, ending⟩
      · have none_left : tokens delim (str ++ []) = tokens delim [] := tokens_delims all
        rw [List.append_nil] at none_left
        simp [none_left]
      have positive := List.length_pos_iff.mpr nonempty
      rcases ending with rfl | ⟨sep, str', isDelim, rfl⟩
      · rw [tokens_delims delims, tokens_single nonempty plain]
        rw [List.length_append] at size
        simp only [List.length_singleton]
        omega
      · rw [tokens_delims delims, tokens_cons nonempty plain isDelim, List.length_cons]
        simp only [List.length_append, List.length_cons] at size
        have rest := ih str'.length (by omega) str' rfl
        omega

end Tokens

section Scan

variable {delim : Char → Bool} {buffer str post token : List Char} {pos : Nat}

theorem Holds.strAt (holds : Holds buffer pos str post) : strAt buffer pos = str := by
  rw [CString.strAt, holds.drop, List.takeWhile_append_of_pos]
  · simp
  · intro c member
    have differs : c ≠ nul := fun same => holds.no_nul (same ▸ member)
    simpa using differs

theorem Holds.behind (holds : Holds buffer pos str post) :
    buffer.drop (pos + str.length) = nul :: post := by
  rw [← List.drop_drop, holds.drop, List.drop_left]

/-- The end of a string holds the rest of it. -/
theorem Holds.suffix {first last : List Char} (holds : Holds buffer pos (first ++ last) post) :
    Holds buffer (pos + first.length) last post where
  drop := by rw [← List.drop_drop, holds.drop, List.append_assoc, List.drop_left]
  no_nul member := holds.no_nul (List.mem_append_right _ member)

theorem Holds.congr {buffer' : List Char} {n : Nat} (holds : Holds buffer pos str post)
    (same : buffer'.drop n = buffer.drop n) (before : n ≤ pos) : Holds buffer' pos str post where
  drop := by
    obtain ⟨k, rfl⟩ := Nat.exists_eq_add_of_le before
    rw [← List.drop_drop, same, List.drop_drop, holds.drop]
  no_nul := holds.no_nul

theorem Holds.length_lt (holds : Holds buffer pos str post) : str.length < buffer.length := by
  have lengths := congrArg List.length holds.drop
  simp only [List.length_drop, List.length_append, List.length_cons] at lengths
  omega

/-- What `strtok_r` makes of a string that it has split. -/
theorem strtokR_eq {seps rest : List Char} (holds : Holds buffer pos (seps ++ rest) post)
    (allDelims : ∀ c ∈ seps, delim c) (first : ∀ c, rest.head? = some c → delim c = false) :
    strtokR delim buffer pos =
      if rest = [] then (none, pos + seps.length, buffer)
      else
        let stop := pos + seps.length + (rest.takeWhile fun c => !delim c).length
        if stop = pos + seps.length + rest.length then (some (pos + seps.length), stop, buffer)
        else (some (pos + seps.length), stop + 1, buffer.set stop nul) := by
  have noMore : rest.takeWhile delim = [] ∧ rest.dropWhile delim = rest := by
    cases rest with
    | nil => exact ⟨rfl, rfl⟩
    | cons c rest => simp [first c rfl]
  have taken : (seps ++ rest).takeWhile delim = seps := by
    rw [List.takeWhile_append_of_pos allDelims, noMore.1, List.append_nil]
  have dropped : (seps ++ rest).dropWhile delim = rest := by
    rw [List.dropWhile_append_of_pos allDelims, noMore.2]
  rw [strtokR, holds.strAt, taken, dropped]

/-- A string without delimiters is found whole, and the buffer stays as it is. -/
theorem strtokR_plain (holds : Holds buffer pos str post) (nonempty : str ≠ [])
    (plain : ∀ c ∈ str, delim c = false) :
    strtokR delim buffer pos = (some pos, pos + str.length, buffer) := by
  have holds' : Holds buffer pos ([] ++ str) post := holds
  have first (c : Char) (head : str.head? = some c) : delim c = false :=
    plain c (List.mem_of_head? head)
  have whole : (str.takeWhile fun c => !delim c) = str :=
    List.takeWhile_eq_self_iff.mpr fun c member => by simp [plain c member]
  rw [strtokR_eq holds' (by simp) first, if_neg nonempty, whole]
  simp

/-- What follows the last token is passed over. -/
theorem strtokR_none (holds : Holds buffer pos str post) (none_left : tokens delim str = []) :
    ∃ save, strtokR delim buffer pos = (none, save, buffer) := by
  have allDelims : ∀ c ∈ str, delim c := by
    rcases scan_cases delim str with all | ⟨seps, token, delims, nonempty, plain, ending⟩
    · exact all
    · exfalso
      rcases ending with rfl | ⟨sep, str', isDelim, rfl⟩
      · rw [tokens_delims delims, tokens_single nonempty plain] at none_left
        contradiction
      · rw [tokens_delims delims, tokens_cons nonempty plain isDelim] at none_left
        contradiction
  have holds' : Holds buffer pos (str ++ []) post := by rwa [List.append_nil]
  exact ⟨_, by rw [strtokR_eq holds' allDelims (by simp), if_pos rfl]⟩

/-- The next token is found, and the string goes on behind it with the other tokens. -/
theorem strtokR_some (holds : Holds buffer pos str post) {others : List (List Char)}
    (found : tokens delim str = token :: others) :
    ∃ start save buffer' post' str',
      strtokR delim buffer pos = (some start, save, buffer') ∧
        Holds buffer' start token post' ∧ pos ≤ start ∧ start + token.length ≤ save ∧
        Holds buffer' save str' post ∧ save + str'.length = pos + str.length ∧
        tokens delim str' = others := by
  rcases scan_cases delim str with all | ⟨seps, token', delims, nonempty, plain, ending⟩
  · have none_left : tokens delim (str ++ []) = tokens delim [] := tokens_delims all
    rw [List.append_nil, found] at none_left
    contradiction
  have first (tail : List Char) (c : Char) (head : (token' ++ tail).head? = some c) :
      delim c = false := by
    cases token' with
    | nil => contradiction
    | cons d token' =>
        obtain rfl : d = c := by simpa using head
        exact plain d List.mem_cons_self
  have some_ (tail : List Char) : token' ++ tail ≠ [] := by simp [nonempty]
  rcases ending with rfl | ⟨sep, str', isDelim, rfl⟩
  · rw [tokens_delims delims, tokens_single nonempty plain] at found
    obtain ⟨rfl, rfl⟩ := List.cons.inj found
    have whole : (token'.takeWhile fun c => !delim c) = token' :=
      List.takeWhile_eq_self_iff.mpr fun c member => by simp [plain c member]
    have first' := first []
    rw [List.append_nil] at first'
    have ended := holds.suffix
    have last : Holds buffer (pos + seps.length) (token' ++ []) post := by rwa [List.append_nil]
    refine ⟨pos + seps.length, _, buffer, post, [], ?_, ended, by omega, le_refl _, last.suffix,
      ?_, rfl⟩
    · rw [strtokR_eq holds delims first', if_neg nonempty, whole]
      simp
    · simp only [List.length_append, List.length_nil]
      omega
  · rw [tokens_delims delims, tokens_cons nonempty plain isDelim] at found
    obtain ⟨rfl, rfl⟩ := List.cons.inj found
    have whole : ((token' ++ sep :: str').takeWhile fun c => !delim c) = token' := by
      rw [List.takeWhile_append_of_pos fun c member => by simp [plain c member]]
      simp [isDelim]
    have more : ¬ pos + seps.length + token'.length =
        pos + seps.length + (token' ++ sep :: str').length := by
      simp only [List.length_append, List.length_cons]
      omega
    have after := holds.suffix
    refine ⟨pos + seps.length, pos + seps.length + token'.length + 1,
      buffer.set (pos + seps.length + token'.length) nul, str' ++ nul :: post, str', ?_, ⟨?_, ?_⟩,
      by omega, by omega, ⟨?_, ?_⟩, ?_, rfl⟩
    · rw [strtokR_eq holds delims (first _), if_neg (some_ _), whole, if_neg more]
    · rw [List.drop_set, if_neg (by omega), after.drop, List.append_assoc, Nat.add_sub_cancel_left,
        List.set_append_right _ _ (le_refl _), Nat.sub_self]
      rfl
    · exact fun member => after.no_nul (List.mem_append_left _ member)
    · have rest := after.suffix.drop
      rw [List.cons_append] at rest
      rw [List.drop_set_of_lt (by omega), ← List.drop_drop, rest]
      rfl
    · exact fun member => after.no_nul (List.mem_append_right _ (List.mem_cons_of_mem _ member))
    · simp only [List.length_append, List.length_cons]
      omega

/-- A string stays as it is if a NUL is stored behind it. -/
theorem Holds.set {stop : Nat} (holds : Holds buffer pos str post)
    (behind : pos + str.length < stop) :
    ∃ post', Holds (buffer.set stop nul) pos str post' := by
  obtain ⟨gap, rfl⟩ : ∃ gap, stop = pos + str.length + 1 + gap :=
    ⟨stop - (pos + str.length + 1), by omega⟩
  refine ⟨post.set gap nul, ?_, holds.no_nul⟩
  rw [List.drop_set, if_neg (by omega), holds.drop, List.set_append_right _ _ (by omega),
    show pos + str.length + 1 + gap - pos - str.length = gap + 1 by omega, List.set_cons_succ]

/-- What lies before the position is not touched. -/
theorem strtokR_keeps {p : Nat} (holds : Holds buffer p token post)
    (before : p + token.length ≤ pos) :
    ∃ post', Holds (strtokR delim buffer pos).2.2 p token post' := by
  have positive (nonempty : (CString.strAt buffer pos).dropWhile delim ≠ []) :
      0 < (((CString.strAt buffer pos).dropWhile delim).takeWhile fun c => !delim c).length := by
    cases rest : (CString.strAt buffer pos).dropWhile delim with
    | nil => exact absurd rest nonempty
    | cons c rest' =>
        have head := List.head?_dropWhile_not delim (CString.strAt buffer pos)
        rw [rest] at head
        have plain : delim c = false := by simpa using head
        rw [List.takeWhile_cons_of_pos (by simp [plain])]
        exact Nat.succ_pos _
  rw [strtokR]
  dsimp only
  split
  · exact ⟨post, holds⟩
  · next nonempty =>
      have some_ := positive nonempty
      split
      · exact ⟨post, holds⟩
      · exact holds.set (by omega)

/-- A string that `strtok_r` is splitting: the tokens that were found, with their positions, and
the tokens to come. -/
structure Splitting (delim : Char → Bool) (buffer : List Char) (pos : Nat)
    (found : List (Nat × List Char)) (others : List (List Char)) : Prop where
  rest : ∃ str post, Holds buffer pos str post ∧ tokens delim str = others
  found : ∀ token ∈ found, token.1 + token.2.length ≤ pos ∧
    ∃ post, Holds buffer token.1 token.2 post

theorem Splitting.start (holds : Holds buffer pos str post) :
    Splitting delim buffer pos [] (tokens delim str) where
  rest := ⟨str, post, holds, rfl⟩
  found := by simp

/-- The next call finds the next token, and the ones before it stay. -/
theorem Splitting.next {found : List (Nat × List Char)} {others : List (List Char)}
    (splitting : Splitting delim buffer pos found (token :: others)) :
    ∃ start save buffer', strtokR delim buffer pos = (some start, save, buffer') ∧
      Splitting delim buffer' save ((start, token) :: found) others := by
  obtain ⟨str, post, holds, rest⟩ := splitting.rest
  obtain ⟨start, save, buffer', post', str', scanned, holdsToken, after, before,
      holds', -, rest'⟩ :=
    strtokR_some holds rest
  refine ⟨start, save, buffer', scanned, ⟨str', post, holds', rest'⟩, ?_⟩
  rw [List.forall_mem_cons]
  refine ⟨⟨before, post', holdsToken⟩, fun earlier member => ?_⟩
  obtain ⟨inside, post'', holdsEarlier⟩ := splitting.found earlier member
  have kept : ∃ post', Holds (strtokR delim buffer pos).2.2 earlier.1 earlier.2 post' :=
    strtokR_keeps holdsEarlier inside
  rw [scanned] at kept
  exact ⟨by omega, kept⟩

end Scan

end BachScheduler.CString
