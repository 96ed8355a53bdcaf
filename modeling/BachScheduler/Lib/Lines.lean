import Mathlib.Data.List.Basic
import Mathlib.Tactic.Common

/-!
# Reading a file by lines

`fgets` reads up to the next newline, or as much as its buffer holds.  Lines that fit into the
buffer are read as they stand in the file.
-/

namespace BachScheduler.CString

/-- `fgets` with room for so many characters: the line, and what is left of the file. -/
def fgets : Nat → List Char → List Char × List Char
  | 0, file => ([], file)
  | _ + 1, [] => ([], [])
  | room + 1, c :: file =>
      if c = '\n' then
        ([c], file)
      else
        let (line, rest) := fgets room file
        (c :: line, rest)

/-- The lines that `fgets` returns up to the end of the file, in at most `fuel` calls. -/
def readLines (room : Nat) : Nat → List Char → List (List Char)
  | 0, _ => []
  | _ + 1, [] => []
  | fuel + 1, file => (fgets room file).1 :: readLines room fuel (fgets room file).2

/-- The lines that `fgets` returns up to the end of the file. -/
def fileLines (room : Nat) (file : List Char) : List (List Char) :=
  readLines room file.length file

variable {room fuel : Nat} {line file : List Char}

theorem readLines_cons (c : Char) : readLines room (fuel + 1) (c :: file) =
    (fgets room (c :: file)).1 :: readLines room fuel (fgets room (c :: file)).2 := rfl

/-- A line that fits is read whole. -/
theorem fgets_line (plain : '\n' ∉ line) (fits : line.length < room) :
    fgets room (line ++ '\n' :: file) = (line ++ ['\n'], file) := by
  induction line generalizing room with
  | nil =>
      obtain ⟨room, rfl⟩ : ∃ n, room = n + 1 :=
        ⟨room - 1, by simp only [List.length_nil] at fits; omega⟩
      rfl
  | cons c line ih =>
      rw [List.mem_cons, not_or] at plain
      rw [List.length_cons] at fits
      obtain ⟨room, rfl⟩ : ∃ n, room = n + 1 := ⟨room - 1, by omega⟩
      rw [List.cons_append, fgets, if_neg (Ne.symm plain.1), ih plain.2 (by omega)]
      rfl

/-- A call takes something off the file. -/
theorem length_fgets_lt (some_ : file ≠ []) (positive : 0 < room) :
    (fgets room file).2.length < file.length := by
  have rest_le (room : Nat) (file : List Char) : (fgets room file).2.length ≤ file.length := by
    induction room generalizing file with
    | zero => exact Nat.le_refl _
    | succ room ih =>
        cases file with
        | nil => exact Nat.le_refl _
        | cons c file =>
            rw [fgets]
            split
            · simp
            · exact Nat.le_succ_of_le (ih file)
  obtain ⟨room, rfl⟩ : ∃ n, room = n + 1 := ⟨room - 1, by omega⟩
  cases file with
  | nil => exact absurd rfl some_
  | cons c file =>
      rw [fgets, List.length_cons]
      split
      · exact Nat.lt_succ_self _
      · exact Nat.lt_succ_of_le (rest_le room file)

/-- Any number of calls that suffices gives the same lines. -/
theorem readLines_eq (positive : 0 < room) (enough : file.length ≤ fuel) :
    readLines room fuel file = fileLines room file := by
  induction size : file.length using Nat.strongRecOn generalizing file fuel with
  | ind n ih =>
      cases file with
      | nil => cases fuel <;> rfl
      | cons c file =>
          rw [List.length_cons] at size enough
          obtain ⟨fuel, rfl⟩ : ∃ n, fuel = n + 1 := ⟨fuel - 1, by omega⟩
          have less := length_fgets_lt (List.cons_ne_nil c file) positive
          rw [List.length_cons] at less
          rw [fileLines, List.length_cons, readLines_cons, readLines_cons,
            ih _ (by omega) (by omega : _ ≤ fuel) rfl,
              ih _ (by omega) (by omega : _ ≤ file.length) rfl]

/-- The first line of a file, if it fits, and the others. -/
theorem fileLines_cons (plain : '\n' ∉ line) (fits : line.length < room) :
    fileLines room (line ++ '\n' :: file) = (line ++ ['\n']) :: fileLines room file := by
  have positive : 0 < room := by omega
  have length : (line ++ '\n' :: file).length = line.length + file.length + 1 := by
    simp only [List.length_append, List.length_cons]
    omega
  cases whole : line ++ '\n' :: file with
  | nil => exact absurd whole (by simp)
  | cons c rest =>
      rw [fileLines, ← whole, length]
      have step : readLines room (line.length + file.length + 1) (line ++ '\n' :: file) =
          (line ++ ['\n']) :: readLines room (line.length + file.length) file := by
        have first : fgets room (line ++ '\n' :: file) = (line ++ ['\n'], file) :=
          fgets_line plain fits
        rw [whole] at first ⊢
        rw [readLines_cons, first]
      rw [step, readLines_eq positive (by omega)]

/-- A file of lines that fit is read as these lines. -/
theorem fileLines_flatMap {lines : List (List Char)}
    (fit : ∀ line ∈ lines, '\n' ∉ line ∧ line.length < room) :
    fileLines room (lines.flatMap fun line => line ++ ['\n']) = lines.map fun line =>
      line ++ ['\n'] := by
  induction lines with
  | nil => rfl
  | cons line lines ih =>
      have first := fit line List.mem_cons_self
      rw [List.flatMap_cons, List.append_assoc, List.singleton_append,
        fileLines_cons first.1 first.2, ih fun line member =>
          fit line (List.mem_cons_of_mem _ member), List.map_cons]

end BachScheduler.CString
