import BachScheduler.Lib.Decimal
import Mathlib.Algebra.BigOperators.Group.List.Basic
import Mathlib.Data.BitVec

/-!
# Lists of cpus on the command line

`__parse_intlist` splits its argument at commas and each token at dashes, in one buffer.  The
bounds of a range go through the two cells of `temp`, which keep what an earlier token left in
them.  Where the code leaves an array, counts past the largest `int` or reads a bound that is
not of the current token, the model stops and says so.
-/

namespace BachScheduler

open CString

/-- The ways in which `__parse_intlist` does not return, or not as it should. -/
inductive IntlistFault where
  | rejected
  | tempOverrun
  | staleBound
  | intsOverrun
  | overflow
  | noFuel
  deriving DecidableEq, Repr

/-- The largest `int`. -/
def largestInt : Int := 2 ^ 31 - 1

/-- The conversion of a `long` to `unsigned int`, and of that to `int`. -/
def toInt (value : Int) : Int :=
  (BitVec.ofInt 32 value).toInt

/-- `temp`: its cells with the number of the token that was last stored from. -/
abbrev Temp := Nat → Option (Nat × Int)

section Operations

/-- `parse_int`, which exits unless the whole string is a number. -/
def parseInt (s : List Char) : Except IntlistFault Int :=
  let (ret, endptr) := strtol s
  if endptr ≠ [] then .error .rejected else .ok ret

/-- `ints[i++] = value`. -/
def storeInt (intsSize : Nat) (ints : List Int) (value : Int) : Except IntlistFault (List Int) :=
  if ints.length < intsSize then .ok (ints ++ [value]) else .error .intsOverrun

/-- The loop over the subtokens of the token with number `nr`. -/
def subtokenLoop (nr : Nat) : Nat → List Char → Nat → Temp → Nat →
    Except IntlistFault (List Char × Temp × Nat)
  | 0, _, _, _, _ => .error .noFuel
  | fuel + 1, s, saveptr2, temp, j =>
      match strtokR (· = '-') s saveptr2 with
      | (none, _, s) => .ok (s, temp, j)
      | (some subtoken, saveptr2, s) => do
          let value ← parseInt (strAt s subtoken)
          if 2 ≤ j then
            .error .tempOverrun
          else
            subtokenLoop nr fuel s saveptr2
              (Function.update temp j (some (nr, toInt value))) (j + 1)

/-- A bound of a range, which is to come from the token with number `nr`. -/
def rangeBound (nr : Nat) (cell : Option (Nat × Int)) : Except IntlistFault Int :=
  match cell with
  | some (writer, value) => if writer = nr then .ok value else .error .staleBound
  | none => .error .staleBound

/-- The loop over a range. -/
def rangeLoop (intsSize : Nat) (last : Int) : Nat → Int → List Int → Except IntlistFault (List Int)
  | 0, _, _ => .error .noFuel
  | fuel + 1, k, ints =>
      if k ≤ last then do
        let ints ← storeInt intsSize ints k
        if k = largestInt then .error .overflow else rangeLoop intsSize last fuel (k + 1) ints
      else
        .ok ints

/-- The body of the loop over the tokens. -/
def storeToken (intsSize nr : Nat) (s : List Char) (token : Nat) (temp : Temp) (ints : List Int) :
    Except IntlistFault (List Char × Temp × List Int) := do
  let (s, temp, j) ← subtokenLoop nr (s.length + 1) s token temp 0
  if j = 1 then do
    let value ← parseInt (strAt s token)
    let ints ← storeInt intsSize ints (toInt value)
    .ok (s, temp, ints)
  else do
    let k ← rangeBound nr (temp 0)
    let last ← rangeBound nr (temp 1)
    let ints ← rangeLoop intsSize last (intsSize + 2) k ints
    .ok (s, temp, ints)

/-- The loop over the tokens. -/
def tokenLoop (intsSize : Nat) : Nat → Nat → List Char → Nat → Temp → List Int →
    Except IntlistFault (List Int)
  | 0, _, _, _, _, _ => .error .noFuel
  | fuel + 1, nr, s, saveptr1, temp, ints =>
      match strtokR (· = ',') s saveptr1 with
      | (none, _, _) => .ok ints
      | (some token, saveptr1, s) => do
          let (s, temp, ints) ← storeToken intsSize nr s token temp ints
          tokenLoop intsSize fuel (nr + 1) s saveptr1 temp ints

/-- `__parse_intlist`: what it stores into `ints`. -/
def parseIntlistInto (str : List Char) (intsSize : Nat) : Except IntlistFault (List Int) :=
  let s := strAt str 0 ++ [nul]
  tokenLoop intsSize (s.length + 1) 0 s 0 (fun _ => none) []

/-- `parse_intlist`: the array that it returns, and `*ints_nr_ptr`. -/
def parseIntlist (str : List Char) (maxInts : Nat) : Except IntlistFault (List Int × Nat) := do
  let ints ← parseIntlistInto str maxInts
  .ok (ints, ints.length)

end Operations

example : parseIntlist ['0', '-', '2', ',', '7'] 4 = .ok ([0, 1, 2, 7], 4) := by decide +kernel
example : parseIntlist ['0', '-', '2', ',', '-', ',', '7'] 7 = .error .staleBound := by
  decide +kernel

section Subtokens

variable {nr fuel pos j : Nat} {s str post : List Char} {temp : Temp}

/-- What the loop over the subtokens does with the pieces between the dashes. -/
def readSubtokens (nr : Nat) : List (List Char) → Temp → Nat → Except IntlistFault (Temp × Nat)
  | [], temp, j => .ok (temp, j)
  | subtoken :: subtokens, temp, j => do
      let value ← parseInt subtoken
      if 2 ≤ j then
        .error .tempOverrun
      else
        readSubtokens nr subtokens (Function.update temp j (some (nr, toInt value))) (j + 1)

/-- The loop reads the subtokens of the token, and stays within the token. -/
theorem subtokenLoop_eq (holds : Holds s pos str post)
    (enough : (tokens (· = '-') str).length < fuel) :
    (∃ fault, readSubtokens nr (tokens (· = '-') str) temp j = .error fault ∧
        subtokenLoop nr fuel s pos temp j = .error fault) ∨
      ∃ temp' j' s', readSubtokens nr (tokens (· = '-') str) temp j = .ok (temp', j') ∧
        subtokenLoop nr fuel s pos temp j = .ok (s', temp', j') ∧
        s'.drop (pos + str.length) = s.drop (pos + str.length) := by
  induction fuel generalizing s pos str temp j with
  | zero => omega
  | succ fuel ih =>
      cases found : tokens (· = '-') str with
      | nil =>
          obtain ⟨save, scanned⟩ := strtokR_none holds found
          exact .inr ⟨temp, j, s, rfl, by rw [subtokenLoop, scanned], rfl⟩
      | cons subtoken subtokens =>
          obtain ⟨start, save, s', post', str', scanned, holdsToken, -, -, holds', ends, rest⟩ :=
            strtokR_some holds found
          rw [found, List.length_cons, ← rest] at enough
          cases parsed : parseInt subtoken with
          | error fault =>
              refine .inl ⟨fault, by simp [readSubtokens, parsed, bind, Except.bind], ?_⟩
              simp [subtokenLoop, scanned, holdsToken.strAt, parsed, bind, Except.bind]
          | ok value =>
              by_cases full : 2 ≤ j
              · refine .inl
                  ⟨.tempOverrun, by simp [readSubtokens, parsed, full, bind, Except.bind], ?_⟩
                simp [subtokenLoop, scanned, holdsToken.strAt, parsed, full, bind, Except.bind]
              · have next : (∃ fault, readSubtokens nr (tokens (· = '-') str')
                    (Function.update temp j (some (nr, toInt value))) (j + 1) = .error fault ∧ _) ∨
                      _ :=
                  ih holds' (by omega)
                have behind : s'.drop (pos + str.length) = s.drop (pos + str.length) := by
                  rw [← ends, holds'.behind, ends, holds.behind]
                rw [ends, behind, rest] at next
                simpa [readSubtokens, subtokenLoop, scanned, holdsToken.strAt, parsed, full, bind,
                  Except.bind] using next

theorem length_subtokens_lt (holds : Holds s pos str post) :
    (tokens (· = '-') str).length < s.length + 1 := by
  have few := length_tokens_le (· = '-') str
  have inside := holds.length_lt
  omega

theorem subtokenLoop_failed {fault : IntlistFault} (holds : Holds s pos str post)
    (read : readSubtokens nr (tokens (· = '-') str) temp j = .error fault) :
    subtokenLoop nr (s.length + 1) s pos temp j = .error fault := by
  rcases subtokenLoop_eq holds (length_subtokens_lt holds) with
    ⟨fault', read', looped⟩ | ⟨temp', j', s', read', -⟩ <;> rw [read] at read' <;> cases read'
  exact looped

theorem subtokenLoop_returned {temp' : Temp} {j' : Nat} (holds : Holds s pos str post)
    (read : readSubtokens nr (tokens (· = '-') str) temp j = .ok (temp', j')) :
    ∃ s', subtokenLoop nr (s.length + 1) s pos temp j = .ok (s', temp', j') ∧
      s'.drop (pos + str.length) = s.drop (pos + str.length) := by
  rcases subtokenLoop_eq holds (length_subtokens_lt holds) with
    ⟨fault', read', -⟩ | ⟨temp', j', s', read', looped⟩ <;> rw [read] at read' <;> cases read'
  exact ⟨s', looped⟩

/-- A token without dashes is its own subtoken. -/
theorem subtokenLoop_plain {value : Int} (holds : Holds s pos str post) (nonempty : str ≠ [])
    (plain : '-' ∉ str) (parsed : parseInt str = .ok value) (enough : 1 < fuel) :
    subtokenLoop nr fuel s pos temp 0 =
      .ok (s, Function.update temp 0 (some (nr, toInt value)), 1) := by
  obtain ⟨fuel, rfl⟩ : ∃ n, fuel = n + 2 := ⟨fuel - 2, by omega⟩
  have holds' : Holds s pos (str ++ []) post := by rwa [List.append_nil]
  have scanned : strtokR (· = '-') s pos = (some pos, pos + str.length, s) :=
    strtokR_plain holds nonempty fun c member => decide_eq_false fun same => plain (same ▸ member)
  have ended : ∃ save, strtokR (· = '-') s (pos + str.length) = (none, save, s) :=
    strtokR_none holds'.suffix rfl
  obtain ⟨save, ended⟩ := ended
  simp [subtokenLoop, scanned, holds.strAt, parsed, ended, bind, Except.bind]

end Subtokens

section Ranges

variable {intsSize fuel : Nat} {first last : Int} {ints : List Int}

/-- The numbers from `first` to `last`. -/
def ascending (first last : Int) : List Int :=
  (List.range (last - first + 1).toNat).map fun k : Nat => first + k

theorem ascending_cons (le : first ≤ last) :
    ascending first last = first :: ascending (first + 1) last := by
  have more : (last - first + 1).toNat = (last - (first + 1) + 1).toNat + 1 := by omega
  rw [ascending, ascending, more, List.range_succ_eq_map, List.map_cons, List.map_map]
  congr 1
  · simp
  · apply List.map_congr_left
    intro k _
    simp only [Function.comp_apply]
    omega

@[simp] theorem length_ascending : (ascending first last).length = (last - first + 1).toNat := by
  simp [ascending]

/-- A range that fits is stored. -/
theorem rangeLoop_ok (bounded : last < largestInt)
    (room : ints.length + (last - first + 1).toNat ≤ intsSize)
    (enough : (last - first + 1).toNat < fuel) :
    rangeLoop intsSize last fuel first ints = .ok (ints ++ ascending first last) := by
  induction fuel generalizing first ints with
  | zero => omega
  | succ fuel ih =>
      by_cases le : first ≤ last
      · have stored : storeInt intsSize ints first = .ok (ints ++ [first]) :=
          if_pos (by omega : ints.length < intsSize)
        have below : first ≠ largestInt := by omega
        have length : (ints ++ [first]).length = ints.length + 1 := by simp
        have next : rangeLoop intsSize last fuel (first + 1) (ints ++ [first]) =
            .ok (ints ++ [first] ++ ascending (first + 1) last) := ih (by omega) (by omega)
        simp [rangeLoop, le, stored, below, next, ascending_cons le, bind, Except.bind]
      · have none_left : (last - first + 1).toNat = 0 := by omega
        simp [rangeLoop, le, ascending, none_left]

/-- A range that does not fit, or ends with the largest `int`, is not. -/
theorem rangeLoop_fails (le : first ≤ last) (bounded : last ≤ largestInt)
    (room : ints.length ≤ intsSize)
    (large : last = largestInt ∨ intsSize < ints.length + (last - first + 1).toNat)
    (enough : intsSize - ints.length + 1 < fuel) :
    ∃ fault, rangeLoop intsSize last fuel first ints = .error fault ∧ fault ≠ .rejected := by
  induction fuel generalizing first ints with
  | zero => omega
  | succ fuel ih =>
      by_cases full : ints.length < intsSize
      · have stored : storeInt intsSize ints first = .ok (ints ++ [first]) := if_pos full
        by_cases atMax : first = largestInt
        · subst atMax
          exact ⟨.overflow, by simp [rangeLoop, le, stored, bind, Except.bind], by decide⟩
        · have length : (ints ++ [first]).length = ints.length + 1 := by simp
          have next : ∃ fault, rangeLoop intsSize last fuel (first + 1) (ints ++ [first]) =
              .error fault ∧
              fault ≠ .rejected := ih (by omega) (by omega) (by omega) (by omega)
          simpa [rangeLoop, le, stored, atMax, bind, Except.bind] using next
      · exact ⟨.intsOverrun, by simp [rangeLoop, le, storeInt, full, bind, Except.bind], by decide⟩

end Ranges

section Safety

variable {intsSize nr fuel pos : Nat} {s str post token : List Char} {temp : Temp} {ints : List Int}

/-- The bound that a subtoken stands for. -/
def boundOf (subtoken : List Char) : Int :=
  toInt (strtol subtoken).1

/-- The token is a number, or a range that does not end with the largest `int`. -/
def TokenFits (token : List Char) : Prop :=
  match tokens (· = '-') token with
  | [_] => True
  | [first, last] => boundOf first ≤ boundOf last → boundOf last < largestInt
  | _ => False

/-- How many numbers a token stands for. -/
def tokenCount (token : List Char) : Nat :=
  match tokens (· = '-') token with
  | [_] => 1
  | [first, last] => (boundOf last - boundOf first + 1).toNat
  | _ => 0

theorem toInt_le (value : Int) : toInt value ≤ largestInt := by
  have small := (BitVec.ofInt 32 value).toInt_lt
  unfold toInt largestInt
  omega

theorem parseInt_cases (subtoken : List Char) :
    parseInt subtoken = .error .rejected ∨ parseInt subtoken = .ok (strtol subtoken).1 := by
  unfold parseInt
  split
  split
  · exact .inl rfl
  · next equal _ => exact .inr (by rw [equal])

/-- The cells of `temp` were stored from tokens before the one with number `nr`. -/
def Earlier (nr : Nat) (temp : Temp) : Prop :=
  ∀ i writer value, temp i = some (writer, value) → writer < nr

theorem Earlier.store (earlier : Earlier (nr + 1) temp) (j : Nat) (value : Int) :
    Earlier (nr + 1) (Function.update temp j (some (nr, value))) := by
  intro i writer value' cell
  by_cases here : i = j
  · rw [here, Function.update_self, Option.some_inj, Prod.mk.injEq] at cell
    omega
  · rw [Function.update_of_ne here] at cell
    exact earlier i writer value' cell

theorem Earlier.next (earlier : Earlier nr temp) : Earlier (nr + 1) temp :=
  fun i writer value cell => Nat.lt_succ_of_lt (earlier i writer value cell)

/-- A bound that was not read from the token is stale. -/
theorem rangeBound_stale (earlier : Earlier nr temp) (i : Nat) :
    rangeBound nr (temp i) = .error .staleBound := by
  unfold rangeBound
  cases cell : temp i with
  | none => rfl
  | some stored => exact if_neg (Nat.ne_of_lt (earlier i stored.1 stored.2 cell))

/-- How the body of the loop ends for a token: the token is rejected, its numbers are stored
with nothing behind it touched, or the code goes wrong since the token does not fit. -/
inductive TokenEnds (intsSize nr : Nat) (s : List Char) (pos : Nat) (token : List Char)
    (ints : List Int) : Except IntlistFault (List Char × Temp × List Int) → Prop
  | rejected : TokenEnds intsSize nr s pos token ints (.error .rejected)
  | stored {s' : List Char} {temp' : Temp} {ints' : List Int} (fits : TokenFits token)
      (room : ints'.length ≤ intsSize) (length : ints'.length = ints.length + tokenCount token)
      (behind : s'.drop (pos + token.length) = s.drop (pos + token.length))
      (earlier : Earlier (nr + 1) temp') :
      TokenEnds intsSize nr s pos token ints (.ok (s', temp', ints'))
  | wrong {fault : IntlistFault} (other : fault ≠ .rejected)
      (unfit : ¬ (TokenFits token ∧ ints.length + tokenCount token ≤ intsSize)) :
      TokenEnds intsSize nr s pos token ints (.error fault)

/-- A token that is its only subtoken. -/
theorem storeToken_single {s' : List Char} {temp' : Temp} {subtoken : List Char}
    (found : tokens (· = '-') token = [subtoken]) (room : ints.length ≤ intsSize)
    (looped : subtokenLoop nr (s.length + 1) s pos temp 0 = .ok (s', temp', 1))
    (behind : s'.drop (pos + token.length) = s.drop (pos + token.length))
    (earlier : Earlier (nr + 1) temp') :
    TokenEnds intsSize nr s pos token ints (storeToken intsSize nr s pos temp ints) := by
  have one : tokenCount token = 1 := by rw [tokenCount, found]
  rcases parseInt_cases (strAt s' pos) with parsed | parsed
  · have run : storeToken intsSize nr s pos temp ints = .error .rejected := by
      simp [storeToken, looped, parsed, bind, Except.bind]
    exact run ▸ .rejected
  · by_cases full : ints.length < intsSize
    · have run : storeToken intsSize nr s pos temp ints =
          .ok (s', temp', ints ++ [toInt (strtol (strAt s' pos)).1]) := by
        simp [storeToken, looped, parsed, storeInt, full, bind, Except.bind]
      have length : (ints ++ [toInt (strtol (strAt s' pos)).1]).length = ints.length + 1 := by simp
      rw [run]
      exact .stored (by simp [TokenFits, found]) (by omega) (by omega) behind earlier
    · have run : storeToken intsSize nr s pos temp ints = .error .intsOverrun := by
        simp [storeToken, looped, parsed, storeInt, full, bind, Except.bind]
      rw [run]
      exact .wrong (by decide) (by omega)

/-- A token with two subtokens. -/
theorem storeToken_range {s' : List Char} {temp' : Temp} {first last : List Char}
    (found : tokens (· = '-') token = [first, last]) (room : ints.length ≤ intsSize)
    (looped : subtokenLoop nr (s.length + 1) s pos temp 0 = .ok (s', temp', 2))
    (low : temp' 0 = some (nr, boundOf first)) (high : temp' 1 = some (nr, boundOf last))
    (behind : s'.drop (pos + token.length) = s.drop (pos + token.length))
    (earlier : Earlier (nr + 1) temp') :
    TokenEnds intsSize nr s pos token ints (storeToken intsSize nr s pos temp ints) := by
  have count : tokenCount token = (boundOf last - boundOf first + 1).toNat := by
    rw [tokenCount, found]
  have fits : TokenFits token ↔ (boundOf first ≤ boundOf last → boundOf last < largestInt) := by
    rw [TokenFits, found]
  have bounded : boundOf last ≤ largestInt := toInt_le _
  have run : storeToken intsSize nr s pos temp ints =
      (rangeLoop intsSize (boundOf last) (intsSize + 2) (boundOf first) ints).map
        fun ints => (s', temp', ints) := by
    cases stored : rangeLoop intsSize (boundOf last) (intsSize + 2) (boundOf first) ints <;>
      simp [storeToken, looped, low, high, rangeBound, stored, bind, Except.bind, Except.map]
  rw [run]
  by_cases good : (boundOf first ≤ boundOf last → boundOf last < largestInt) ∧
      ints.length + (boundOf last - boundOf first + 1).toNat ≤ intsSize
  · by_cases le : boundOf first ≤ boundOf last
    · rw [rangeLoop_ok (good.1 le) good.2 (by omega)]
      refine .stored (fits.mpr good.1) ?_ ?_ behind earlier <;>
        rw [List.length_append, length_ascending] <;> omega
    · have skipped : rangeLoop intsSize (boundOf last) (intsSize + 2) (boundOf first) ints =
          .ok ints := by
        simp [rangeLoop, le]
      rw [skipped]
      exact .stored (fits.mpr good.1) room (by omega) behind earlier
  · have le : boundOf first ≤ boundOf last := by
      by_contra less
      exact good ⟨fun le => absurd le less, by omega⟩
    obtain ⟨fault, failed, other⟩ := rangeLoop_fails le bounded room (by omega)
      (by omega : intsSize - ints.length + 1 < intsSize + 2)
    rw [failed]
    exact .wrong other fun within => good ⟨fits.mp within.1, by omega⟩

section Reading

variable {subtoken : List Char} {subtokens : List (List Char)} {j : Nat}

theorem readSubtokens_rejected (parsed : parseInt subtoken = .error .rejected) :
    readSubtokens nr (subtoken :: subtokens) temp j = .error .rejected := by
  rw [readSubtokens, parsed]
  rfl

theorem readSubtokens_next (parsed : parseInt subtoken = .ok (strtol subtoken).1) (less : j < 2) :
    readSubtokens nr (subtoken :: subtokens) temp j =
      readSubtokens nr subtokens (Function.update temp j (some (nr, boundOf subtoken)))
        (j + 1) := by
  rw [readSubtokens, parsed]
  exact if_neg (by omega)

theorem readSubtokens_two (nr : Nat) (temp : Temp) {first last : List Char}
    (low : parseInt first = .ok (strtol first).1) (high : parseInt last = .ok (strtol last).1) :
    readSubtokens nr [first, last] temp 0 =
      .ok (Function.update (Function.update temp 0 (some (nr, boundOf first))) 1
        (some (nr, boundOf last)), 2) := by
  rw [readSubtokens_next low (by decide), readSubtokens_next high (by decide)]
  rfl

/-- Only two bounds fit into `temp`. -/
theorem readSubtokens_third (first second : List Char) :
    readSubtokens nr (first :: second :: subtoken :: subtokens) temp 0 = .error .rejected ∨
      readSubtokens nr (first :: second :: subtoken :: subtokens) temp 0 = .error .tempOverrun := by
  rcases parseInt_cases first with parsed | parsed
  · exact .inl (readSubtokens_rejected parsed)
  rcases parseInt_cases second with parsed' | parsed'
  · exact .inl (by rw [readSubtokens_next parsed (by decide), readSubtokens_rejected parsed'])
  rw [readSubtokens_next parsed (by decide), readSubtokens_next parsed' (by decide)]
  rcases parseInt_cases subtoken with parsed'' | parsed''
  · exact .inl (readSubtokens_rejected parsed'')
  · right
    rw [readSubtokens, parsed'']
    rfl

end Reading

theorem storeToken_ends (holds : Holds s pos token post) (earlier : Earlier nr temp)
    (room : ints.length ≤ intsSize) :
    TokenEnds intsSize nr s pos token ints (storeToken intsSize nr s pos temp ints) := by
  have failed {fault : IntlistFault}
      (read : readSubtokens nr (tokens (· = '-') token) temp 0 = .error fault) :
      storeToken intsSize nr s pos temp ints = .error fault := by
    simp [storeToken, subtokenLoop_failed holds read, bind, Except.bind]
  match found : tokens (· = '-') token with
  | [] =>
      -- without a subtoken, the bounds are what earlier tokens have left
      have read : readSubtokens nr (tokens (· = '-') token) temp 0 = .ok (temp, 0) := by
        rw [found]
        rfl
      obtain ⟨s', looped, -⟩ := subtokenLoop_returned holds read
      have run : storeToken intsSize nr s pos temp ints = .error .staleBound := by
        simp [storeToken, looped, rangeBound_stale earlier, bind, Except.bind]
      rw [run]
      exact .wrong (by decide) fun within => by simp [TokenFits, found] at within
  | [subtoken] =>
      rcases parseInt_cases subtoken with parsed | parsed
      · exact failed (by rw [found, readSubtokens_rejected parsed]) ▸ .rejected
      · have read : readSubtokens nr (tokens (· = '-') token) temp 0 =
            .ok (Function.update temp 0 (some (nr, boundOf subtoken)), 1) := by
          rw [found, readSubtokens_next parsed (by decide)]
          rfl
        obtain ⟨s', looped, behind⟩ := subtokenLoop_returned holds read
        exact storeToken_single found room looped behind (earlier.next.store 0 _)
  | [first, last] =>
      rcases parseInt_cases first with parsed | parsed
      · exact failed (by rw [found, readSubtokens_rejected parsed]) ▸ .rejected
      rcases parseInt_cases last with parsed' | parsed'
      · exact failed (by
          rw [found, readSubtokens_next parsed (by decide), readSubtokens_rejected parsed']) ▸
            .rejected
      · have read := readSubtokens_two nr temp parsed parsed'
        rw [← found] at read
        obtain ⟨s', looped, behind⟩ := subtokenLoop_returned holds read
        exact storeToken_range found room looped (by simp) (by simp) behind
          ((earlier.next.store 0 _).store 1 _)
  | first :: second :: third :: others =>
      rcases readSubtokens_third first second with read | read
      · exact failed (by rw [found, read]) ▸ .rejected
      · rw [failed (by rw [found, read])]
        exact .wrong (by decide) fun within => by simp [TokenFits, found] at within

/-- The tokens of a list all fit, and so do their numbers. -/
def ListFits (str : List Char) (intsSize : Nat) : Prop :=
  (∀ token ∈ tokens (· = ',') (strAt str 0), TokenFits token) ∧
    ((tokens (· = ',') (strAt str 0)).map tokenCount).sum ≤ intsSize

/-- The loop goes through a list exactly if the rest of it fits. -/
theorem tokenLoop_iff (holds : Holds s pos str post) (enough : (tokens (· = ',') str).length < fuel)
    (earlier : Earlier nr temp) (room : ints.length ≤ intsSize)
    (kept : tokenLoop intsSize fuel nr s pos temp ints ≠ .error .rejected) :
    (∃ stored, tokenLoop intsSize fuel nr s pos temp ints = .ok stored ∧ stored.length ≤ intsSize) ↔
      (∀ token ∈ tokens (· = ',') str, TokenFits token) ∧
        ints.length + ((tokens (· = ',') str).map tokenCount).sum ≤ intsSize := by
  induction fuel generalizing nr s pos str temp ints with
  | zero => omega
  | succ fuel ih =>
      cases found : tokens (· = ',') str with
      | nil =>
          obtain ⟨save, scanned⟩ := strtokR_none holds found
          simp [tokenLoop, scanned, room]
      | cons token others =>
          obtain ⟨start, save, s', post', str', scanned, holdsToken, -, after, holds', -, rest⟩ :=
            strtokR_some holds found
          have round : tokenLoop intsSize (fuel + 1) nr s pos temp ints =
              storeToken intsSize nr s' start temp ints >>= fun result =>
                tokenLoop intsSize fuel (nr + 1) result.1 save result.2.1 result.2.2 := by
            rw [tokenLoop, scanned]
          have ends := storeToken_ends holdsToken earlier room
          rw [round] at kept ⊢
          rw [found, List.length_cons, ← rest] at enough
          rw [List.forall_mem_cons, List.map_cons, List.sum_cons, ← rest]
          cases stored : storeToken intsSize nr s' start temp ints with
          | error fault =>
              rw [stored] at ends kept
              cases ends with
              | rejected => exact absurd rfl kept
              | wrong other unfit =>
                  constructor
                  · rintro ⟨stored, run, -⟩
                    contradiction
                  · rintro ⟨⟨fits, -⟩, sums⟩
                    exact absurd ⟨fits, by omega⟩ unfit
          | ok result =>
              rw [stored] at ends kept
              cases ends with
              | stored fits room' length behind earlier' =>
                  have next := ih (holds'.congr behind after) (by omega) earlier' room' kept
                  change
                    (∃ stored, tokenLoop intsSize fuel (nr + 1) _ save _ _ = .ok stored ∧ _) ↔ _
                  rw [next, length, Nat.add_assoc]
                  exact ⟨fun ⟨all, sums⟩ => ⟨⟨fits, all⟩, sums⟩, fun ⟨⟨_, all⟩, sums⟩ =>
                    ⟨all, sums⟩⟩

theorem copy_holds (str : List Char) : Holds (strAt str 0 ++ [nul]) 0 (strAt str 0) [] where
  drop := rfl
  no_nul member := by simpa using List.mem_takeWhile_imp member

/-- On an argument that `parse_int` does not reject, `__parse_intlist` returns, stays within
its arrays and takes bounds only from the current token exactly if each token between commas is
a number or a range, no range ends with the largest `int`, and their numbers fit into `ints`. -/
theorem parseIntlistInto_iff (str : List Char) (intsSize : Nat)
    (kept : parseIntlistInto str intsSize ≠ .error .rejected) :
    (∃ ints, parseIntlistInto str intsSize = .ok ints ∧ ints.length ≤ intsSize) ↔
      ListFits str intsSize := by
  have holds := copy_holds str
  have enough : (tokens (· = ',') (strAt str 0)).length < (strAt str 0 ++ [nul]).length + 1 := by
    have few := length_tokens_le (· = ',') (strAt str 0)
    have inside := holds.length_lt
    omega
  have none_stored : Earlier 0 fun _ => none := by
    intro i writer value cell
    contradiction
  have loop := tokenLoop_iff holds enough none_stored (Nat.zero_le intsSize) kept
  rw [List.length_nil, Nat.zero_add] at loop
  exact loop

theorem parseIntlistInto_iff_two :
    (∃ ints, parseIntlistInto ['0', '-', '1', ',', '7'] 3 = .ok ints ∧ ints.length ≤ 3) ↔
      ListFits ['0', '-', '1', ',', '7'] 3 :=
  parseIntlistInto_iff _ _ (by decide +kernel)

/-- A third bound is stored behind `temp`. -/
theorem parseIntlistInto_overruns :
    ¬ ∀ (str : List Char) (intsSize : Nat), parseIntlistInto str intsSize ≠ .error .rejected →
      ∃ ints, parseIntlistInto str intsSize = .ok ints ∧ ints.length ≤ intsSize := by
  intro safe
  obtain ⟨ints, run, -⟩ := safe ['1', '-', '2', '-', '3'] 128 (by decide +kernel)
  have overrun : parseIntlistInto ['1', '-', '2', '-', '3'] 128 = .error .tempOverrun := by
    decide +kernel
  rw [run] at overrun
  contradiction

end Safety

section RoundTrip

/-- An item of a list of cpus: a number, or a range, below the largest `int`. -/
inductive CpuItem where
  | single (n : Nat) (small : (n : Int) < largestInt)
  | range (first last : Nat) (ordered : first ≤ last) (small : (last : Int) < largestInt)

namespace CpuItem

/-- How an item is written. -/
def render : CpuItem → List Char
  | single n _ => decimal n
  | range first last _ _ => decimal first ++ '-' :: decimal last

/-- The numbers that an item stands for. -/
def numbers : CpuItem → List Int
  | single n _ => [(n : Int)]
  | range first last _ _ => ascending first last

end CpuItem

/-- A list of cpus as it is written. -/
def renderCpus (items : List CpuItem) : List Char :=
  [','].intercalate (items.map CpuItem.render)

section Numbers

variable {n : Nat} {c : Char}

theorem natural_digits (member : c ∈ decimal n) : c.isDigit := by
  rcases mem_decimal member with ⟨-, negative⟩ | digit
  · omega
  · exact digit

theorem strtol_natural (small : (n : Int) < largestInt) : strtol (decimal n) = ((n : Int), []) := by
  unfold largestInt at small
  have read : strtol (decimal n ++ []) = ((n : Int), []) :=
    strtol_decimal (by omega) (by omega) (by simp)
  rwa [List.append_nil] at read

theorem parseInt_natural (small : (n : Int) < largestInt) : parseInt (decimal n) = .ok n := by
  simp [parseInt, strtol_natural small]

theorem toInt_small (small : (n : Int) < largestInt) : toInt n = n := by
  unfold largestInt at small
  rw [toInt, BitVec.toInt_ofInt]
  exact Int.bmod_eq_of_le (by omega) (by omega)

theorem boundOf_natural (small : (n : Int) < largestInt) : boundOf (decimal n) = n := by
  rw [boundOf, strtol_natural small, toInt_small small]

theorem dash_natural : '-' ∉ decimal n :=
  fun member => absurd (natural_digits member) (by decide)

end Numbers

variable {intsSize nr fuel pos : Nat} {s str post : List Char} {temp : Temp} {ints : List Int}

/-- The body of the loop stores the numbers of an item. -/
theorem storeToken_item (item : CpuItem) (holds : Holds s pos item.render post)
    (room : ints.length + item.numbers.length ≤ intsSize) :
    ∃ s' temp', storeToken intsSize nr s pos temp ints = .ok (s', temp', ints ++ item.numbers) ∧
      s'.drop (pos + item.render.length) = s.drop (pos + item.render.length) := by
  cases item with
  | single n small =>
      have nonempty := List.length_pos_iff.mpr (decimal_ne_nil n)
      have inside := holds.length_lt
      have looped : subtokenLoop nr (s.length + 1) s pos temp 0 =
          .ok (s, Function.update temp 0 (some (nr, toInt n)), 1) :=
        subtokenLoop_plain holds (decimal_ne_nil n) dash_natural (parseInt_natural small)
          (by simp only [CpuItem.render] at inside; omega)
      have stored : storeInt intsSize ints n = .ok (ints ++ [(n : Int)]) := if_pos (by
        simp only [CpuItem.numbers, List.length_singleton] at room
        omega)
      refine ⟨s, Function.update temp 0 (some (nr, toInt n)), ?_, rfl⟩
      simp only [storeToken, looped, bind, Except.bind, if_true, holds.strAt, CpuItem.render,
        parseInt_natural small, toInt_small small, stored, CpuItem.numbers]
  | range first last ordered small =>
      have small' : (first : Int) < largestInt := by omega
      have plain (n : Nat) : ∀ c ∈ decimal n, decide (c = '-') = false :=
        fun c member => decide_eq_false fun same => dash_natural (same ▸ member)
      have found : tokens (· = '-') (CpuItem.range first last ordered small).render =
          [decimal first, decimal last] := by
        rw [CpuItem.render, tokens_cons (decimal_ne_nil first) (plain first) rfl,
          tokens_single (decimal_ne_nil last) (plain last)]
      have parsed (n : Nat) (small : (n : Int) < largestInt) :
          parseInt (decimal n) = .ok (strtol (decimal n)).1 := by
        rw [parseInt_natural small, strtol_natural small]
      have read := readSubtokens_two nr temp (parsed _ small') (parsed _ small)
      rw [← found] at read
      obtain ⟨s', looped, behind⟩ := subtokenLoop_returned holds read
      rw [boundOf_natural small, boundOf_natural small'] at looped
      simp only [CpuItem.numbers, length_ascending] at room
      have stored : rangeLoop intsSize last (intsSize + 2) first ints =
          .ok (ints ++ ascending first last) :=
        rangeLoop_ok small room (by omega)
      refine ⟨s', Function.update (Function.update temp 0 (some (nr, (first : Int)))) 1
        (some (nr, (last : Int))), ?_, behind⟩
      simp [storeToken, looped, rangeBound, stored, CpuItem.numbers, bind, Except.bind]

/-- The loop stores the numbers of all items. -/
theorem tokenLoop_items (items : List CpuItem) (holds : Holds s pos str post)
    (found : tokens (· = ',') str = items.map CpuItem.render) (enough : items.length < fuel)
    (room : ints.length + (items.flatMap CpuItem.numbers).length ≤ intsSize) :
    tokenLoop intsSize fuel nr s pos temp ints = .ok (ints ++ items.flatMap CpuItem.numbers) := by
  induction items generalizing fuel nr s pos str temp ints with
  | nil =>
      obtain ⟨fuel, rfl⟩ : ∃ n, fuel = n + 1 := ⟨fuel - 1, by omega⟩
      obtain ⟨save, scanned⟩ := strtokR_none holds found
      simp [tokenLoop, scanned]
  | cons item items ih =>
      obtain ⟨fuel, rfl⟩ : ∃ n, fuel = n + 1 := ⟨fuel - 1, by omega⟩
      obtain ⟨start, save, s', post', str', scanned, holdsToken, -, after, holds', -, rest⟩ :=
        strtokR_some holds found
      rw [List.flatMap_cons, List.length_append] at room
      have round : ∃ s'' temp', storeToken intsSize nr s' start temp ints =
          .ok (s'', temp', ints ++ item.numbers) ∧ _ := storeToken_item item holdsToken (by omega)
      obtain ⟨s'', temp', stored, behind⟩ := round
      have next : tokenLoop intsSize fuel (nr + 1) s'' save temp' (ints ++ item.numbers) =
          .ok (ints ++ item.numbers ++ items.flatMap CpuItem.numbers) :=
        ih (holds'.congr behind after) rest (by rw [List.length_cons] at enough; omega)
          (by rw [List.length_append]; omega)
      simp [tokenLoop, scanned, stored, next, bind, Except.bind]

/-- Items are not empty and have no comma in them. -/
theorem render_plain (item : CpuItem) :
    item.render ≠ [] ∧ ∀ c ∈ item.render, decide (c = ',') = false := by
  have digit {n : Nat} {c : Char} (member : c ∈ decimal n) : c ≠ ',' := by
    rintro rfl
    exact absurd (natural_digits member) (by decide)
  cases item with
  | single n small => exact ⟨decimal_ne_nil n, fun c member => decide_eq_false (digit member)⟩
  | range first last ordered small =>
      refine ⟨List.append_ne_nil_of_right_ne_nil _ (List.cons_ne_nil _ _), fun c member => ?_⟩
      rcases List.mem_append.mp member with inside | inside
      · exact decide_eq_false (digit inside)
      · rcases List.mem_cons.mp inside with rfl | inside
        · rfl
        · exact decide_eq_false (digit inside)

theorem strAt_renderCpus (items : List CpuItem) :
    strAt (renderCpus items) 0 = renderCpus items := by
  have digit {n : Nat} (member : nul ∈ decimal n) : False :=
    absurd (natural_digits member) (by decide)
  have no_nul : nul ∉ renderCpus items := by
    intro member
    rcases mem_intercalate member with comma | ⟨piece, among, inside⟩
    · exact absurd comma (by decide)
    · obtain ⟨item, -, rfl⟩ := List.mem_map.mp among
      cases item with
      | single n small => exact digit inside
      | range first last ordered small =>
          rcases List.mem_append.mp inside with inside | inside
          · exact digit inside
          · exact digit ((List.mem_cons.mp inside).resolve_left (by decide))
  rw [strAt, List.drop_zero]
  refine List.takeWhile_eq_self_iff.mpr fun c member => ?_
  have differs : c ≠ nul := fun same => no_nul (same ▸ member)
  simpa using differs

/-- `parse_intlist` reads back a list of cpus. -/
theorem parseIntlist_renderCpus (items : List CpuItem) (maxInts : Nat)
    (room : (items.flatMap CpuItem.numbers).length ≤ maxInts) :
    parseIntlist (renderCpus items) maxInts =
      .ok (items.flatMap CpuItem.numbers, (items.flatMap CpuItem.numbers).length) := by
  have holds := copy_holds (renderCpus items)
  have found : tokens (· = ',') (strAt (renderCpus items) 0) = items.map CpuItem.render := by
    rw [strAt_renderCpus]
    refine tokens_intercalate rfl fun piece among => ?_
    obtain ⟨item, -, rfl⟩ := List.mem_map.mp among
    exact render_plain item
  have enough : items.length < (strAt (renderCpus items) 0 ++ [nul]).length + 1 := by
    have few := length_tokens_le (· = ',') (strAt (renderCpus items) 0)
    rw [found, List.length_map] at few
    rw [List.length_append]
    omega
  have loop : parseIntlistInto (renderCpus items) maxInts =
      .ok ([] ++ items.flatMap CpuItem.numbers) :=
    tokenLoop_items items holds found enough (by simpa using room)
  simp [parseIntlist, loop, bind, Except.bind]

theorem parseIntlist_renderCpus_two :
    parseIntlist (renderCpus [.range 0 2 (by decide) (by decide), .single 7 (by decide)]) 4 =
      .ok ([0, 1, 2, 7], 4) :=
  parseIntlist_renderCpus [.range 0 2 (by decide) (by decide), .single 7 (by decide)] 4 (by decide)

end RoundTrip

end BachScheduler
