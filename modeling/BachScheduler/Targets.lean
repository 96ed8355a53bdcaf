import BachScheduler.IntList
import BachScheduler.Lib.Lines
import BachScheduler.State
import Mathlib.Algebra.Ring.Rat

/-!
# The file of targets

`read_instr_from_file` and `read_times_from_file` scan each line for the id of a program and its
target and store the target, whatever `sscanf` has found.  The variables keep what earlier lines
left in them, so the model remembers from which line a variable was read.
-/

namespace BachScheduler

open CString

/-- What `sscanf` has stored: nothing, the id, or the id and the target. -/
inductive TargetScan (β : Type) where
  | nothing
  | id (id : Int)
  | both (id : Int) (value : β)

/-- `id` and `instr`, with the number of the line that each was read from. -/
structure TargetCells (β : Type) where
  id : Option (Nat × Int)
  instr : Option (Nat × β)

/-- One `target_instr[id] = instr`, with the lines that `id` and `instr` were read from. -/
structure TargetStore (β : Type) where
  idLine : Nat
  id : Int
  instrLine : Nat
  instr : β

/-- The ways in which the loop leaves what C defines. -/
inductive TargetFault where
  | uninitialised
  | outOfBounds
  deriving DecidableEq, Repr

section Operations

variable {β : Type}

/-- The text of a format: spaces match any number of spaces, other characters themselves. -/
def scanText : List Char → List Char → Option (List Char)
  | [], str => some str
  | c :: format, str =>
      if isspace c then
        scanText format (str.dropWhile isspace)
      else
        match str with
        | d :: rest => if d = c then scanText format rest else none
        | [] => none

/-- `sscanf` with the format `id: %d, label: %…`; `convert` is the last conversion. -/
def scanTarget (label : List Char) (convert : List Char → Option β) (buffer : List Char) :
    TargetScan β :=
  match (scanText ['i', 'd', ':', ' '] (strAt buffer 0)).bind scanNumber with
  | none => .nothing
  | some (id, rest) =>
      match (scanText (',' :: ' ' :: label ++ [':', ' ']) rest).bind convert with
      | none => .id (toInt id)
      | some value => .both (toInt id) value

/-- The variables after `sscanf` has read the line with number `nr`. -/
def TargetCells.scan (nr : Nat) (cells : TargetCells β) : TargetScan β → TargetCells β
  | .nothing => cells
  | .id id => { cells with id := some (nr, id) }
  | .both id value => ⟨some (nr, id), some (nr, value)⟩

/-- The loop over the lines of the file, from the line with number `nr` on: the targets, and
the stores that were made. -/
def readTargets (progsInit : Nat) (scan : List Char → TargetScan β) :
    List (List Char) → Nat → TargetCells β → (Int → β) →
      Except TargetFault ((Int → β) × List (TargetStore β))
  | [], _, _, target => .ok (target, [])
  | buffer :: lines, nr, cells, target =>
      let cells := cells.scan nr (scan buffer)
      match cells.id, cells.instr with
      | some (idLine, id), some (instrLine, instr) =>
          if 0 ≤ id ∧ id < progsInit then do
            let (target, stores) ←
              readTargets progsInit scan lines (nr + 1) cells (Function.update target id instr)
            .ok (target, ⟨idLine, id, instrLine, instr⟩ :: stores)
          else
            .error .outOfBounds
      | _, _ => .error .uninitialised

/-- A function that reads a file of targets, with targets of zero at first. -/
def readTargetFile [Zero β] (progsInit : Nat) (scan : List Char → TargetScan β)
    (targetF : List Char) : Except TargetFault ((Int → β) × List (TargetStore β)) :=
  readTargets progsInit scan (fileLines 1023 targetF) 0 ⟨none, none⟩ fun _ => 0

/-- `sscanf` of `read_instr_from_file`. -/
def scanInstr : List Char → TargetScan Word64 :=
  scanTarget ['i', 'n', 's', 't', 'r'] fun str => (scanNumber str).map fun scanned =>
    BitVec.ofInt 64 scanned.1

/-- `read_instr_from_file`. -/
def readInstrFromFile (progsInit : Nat) (targetF : List Char) :
    Except TargetFault ((Int → Word64) × List (TargetStore Word64)) :=
  readTargetFile progsInit scanInstr targetF

/-- `sscanf` of `read_times_from_file`, with the conversion of a number to `double`. -/
def scanTimes (strtod : List Char → Option Rat) : List Char → TargetScan Rat :=
  scanTarget ['t', 'i', 'm', 'e', 's'] strtod

/-- `read_times_from_file`. -/
def readTimesFromFile (strtod : List Char → Option Rat) (progsInit : Nat) (targetF : List Char) :
    Except TargetFault ((Int → Rat) × List (TargetStore Rat)) :=
  readTargetFile progsInit (scanTimes strtod) targetF

end Operations

section Specification

variable {β : Type}

/-- A line that gives the target of a program. -/
def wellFormedLine (progsInit : Nat) (scan : List Char → TargetScan β) (line : List Char) :
    Option (Int × β) :=
  match scan line with
  | .both id value => if 0 ≤ id ∧ id < progsInit then some (id, value) else none
  | _ => none

/-- The target that the last well-formed line for `i` gives, or else the one from before. -/
def lastTarget (progsInit : Nat) (scan : List Char → TargetScan β) (lines : List (List Char))
    (i : Int) (before : β) : β :=
  (((lines.filterMap (wellFormedLine progsInit scan)).filter (·.1 = i)).getLast?.map
    Prod.snd).getD before

/-- The file is read: each store is to the target of a program, with an id and a target from
one line, and the targets are those of the last well-formed lines. -/
def ReadsTargets [Zero β] (progsInit : Nat) (scan : List Char → TargetScan β)
    (targetF : List Char) : Prop :=
  ∃ target stores, readTargetFile progsInit scan targetF = .ok (target, stores) ∧
    (∀ store ∈ stores, 0 ≤ store.id ∧ store.id < progsInit ∧ store.idLine = store.instrLine) ∧
    ∀ i, 0 ≤ i → i < progsInit → target i = lastTarget progsInit scan (fileLines 1023 targetF) i 0

/-- Each line gives the target of a program, or nothing; the first one gives a target. -/
def LinesFit (progsInit : Nat) (scan : List Char → TargetScan β) (lines : List (List Char)) :
    Prop :=
  (∀ line ∈ lines, (wellFormedLine progsInit scan line).isSome ∨ scan line = .nothing) ∧
    ∀ line, lines.head? = some line → scan line ≠ .nothing

end Specification

section Loop

variable {β : Type} {progsInit nr : Nat} {scan : List Char → TargetScan β} {line : List Char}
variable {lines : List (List Char)} {cells : TargetCells β} {target target' : Int → β}
variable {stores : List (TargetStore β)}

/-- A round of the loop that C defines stores what the variables hold. -/
theorem readTargets_cons_iff :
    readTargets progsInit scan (line :: lines) nr cells target = .ok (target', stores) ↔
      ∃ idLine id instrLine instr rest,
        cells.scan nr (scan line) = ⟨some (idLine, id), some (instrLine, instr)⟩ ∧
        (0 ≤ id ∧ id < progsInit) ∧
        readTargets progsInit scan lines (nr + 1) ⟨some (idLine, id), some (instrLine, instr)⟩
          (Function.update target id instr) = .ok (target', rest) ∧
        stores = ⟨idLine, id, instrLine, instr⟩ :: rest := by
  rw [readTargets]
  rcases cells.scan nr (scan line) with ⟨_ | ⟨idLine, id⟩, _ | ⟨instrLine, instr⟩⟩
  · simp
  · simp
  · simp
  · by_cases inside : 0 ≤ id ∧ id < progsInit
    · cases run : readTargets progsInit scan lines (nr + 1)
        ⟨some (idLine, id), some (instrLine, instr)⟩
        (Function.update target id instr) with
      | error fault =>
          simp only [inside, and_self, if_true, run, bind, Except.bind]
          constructor
          · intro impossible
            contradiction
          · rintro ⟨_, _, _, _, rest, same, -, run', -⟩
            cases same
            rw [run] at run'
            contradiction
      | ok result =>
          simp only [inside, and_self, if_true, run, bind, Except.bind, Except.ok.injEq,
            Prod.mk.injEq]
          constructor
          · rintro ⟨rfl, rfl⟩
            exact ⟨idLine, id, instrLine, instr, result.2, rfl, inside, run, rfl⟩
          · rintro ⟨_, _, _, _, rest, same, -, run', rfl⟩
            cases same
            rw [run] at run'
            cases run'
            exact ⟨rfl, rfl⟩
    · simp only [inside, if_false]
      constructor
      · intro impossible
        contradiction
      · rintro ⟨_, _, _, _, rest, same, inside', -⟩
        cases same
        exact absurd inside' inside

theorem lastTarget_cons_some {id i : Int} {value before : β}
    (wellFormed : wellFormedLine progsInit scan line = some (id, value)) :
    lastTarget progsInit scan (line :: lines) i before =
      lastTarget progsInit scan lines i (if id = i then value else before) := by
  unfold lastTarget
  rw [List.filterMap_cons_some wellFormed]
  by_cases here : id = i
  · rw [List.filter_cons_of_pos (by simpa using here), List.getLast?_cons, if_pos here]
    cases (List.filter (·.1 = i) (lines.filterMap (wellFormedLine progsInit scan))).getLast? <;> rfl
  · rw [List.filter_cons_of_neg (by simpa using here), if_neg here]

theorem lastTarget_cons_none {i : Int} {before : β} (nothing : scan line = .nothing) :
    lastTarget progsInit scan (line :: lines) i before =
      lastTarget progsInit scan lines i before := by
  have unformed : wellFormedLine progsInit scan line = none := by rw [wellFormedLine, nothing]
  rw [lastTarget, List.filterMap_cons_none unformed, lastTarget]

/-- The variables were read from one line, and their target is stored. -/
def Settled (progsInit : Nat) (cells : TargetCells β) (target : Int → β) : Prop :=
  ∃ k id value, cells = ⟨some (k, id), some (k, value)⟩ ∧ (0 ≤ id ∧ id < progsInit) ∧
    target id = value

/-- A line that is scanned whole, or not at all once the variables are set, is stored. -/
theorem readTargets_fits
    (fits : ∀ line ∈ lines, (wellFormedLine progsInit scan line).isSome ∨ scan line = .nothing)
    (start : Settled progsInit cells target ∨ ∀ line, lines.head? = some line →
      scan line ≠ .nothing) :
    ∃ target' stores, readTargets progsInit scan lines nr cells target = .ok (target', stores) ∧
      (∀ store ∈ stores, 0 ≤ store.id ∧ store.id < progsInit ∧ store.idLine = store.instrLine) ∧
      ∀ i, target' i = lastTarget progsInit scan lines i (target i) := by
  induction lines generalizing nr cells target with
  | nil => exact ⟨target, [], rfl, by simp, fun i => rfl⟩
  | cons line lines ih =>
      rw [List.forall_mem_cons] at fits
      rcases fits.1 with wellFormed | nothing
      · obtain ⟨⟨id, value⟩, wellFormed⟩ := Option.isSome_iff_exists.mp wellFormed
        obtain ⟨scanned, inside⟩ : scan line = .both id value ∧ 0 ≤ id ∧ id < progsInit := by
          unfold wellFormedLine at wellFormed
          split at wellFormed
          · next scanned =>
              split at wellFormed
              · next inside =>
                  cases wellFormed
                  exact ⟨scanned, inside⟩
              · contradiction
          · contradiction
        have settled : Settled progsInit ⟨some (nr, id), some (nr, value)⟩
            (Function.update target id value) :=
          ⟨nr, id, value, rfl, inside, Function.update_self ..⟩
        obtain ⟨target', stores, run, good, last⟩ := @ih (nr + 1) _ _ fits.2 (.inl settled)
        refine ⟨target', ⟨nr, id, nr, value⟩ :: stores, readTargets_cons_iff.mpr
          ⟨nr, id, nr, value, stores, by rw [scanned]; rfl, inside, run, rfl⟩, ?_, fun i => ?_⟩
        · exact List.forall_mem_cons.mpr ⟨⟨inside.1, inside.2, rfl⟩, good⟩
        · rw [last, lastTarget_cons_some wellFormed]
          by_cases here : id = i
          · rw [here, Function.update_self, if_pos rfl]
          · rw [Function.update_of_ne (Ne.symm here), if_neg here]
      · obtain ⟨k, id, value, rfl, inside, stored⟩ := start.resolve_right fun first =>
          first line rfl nothing
        have settled : Settled progsInit ⟨some (k, id), some (k, value)⟩ target :=
          ⟨k, id, value, rfl, inside, stored⟩
        obtain ⟨target', stores, run, good, last⟩ := @ih (nr + 1) _ _ fits.2 (.inl settled)
        have same : Function.update target id value = target := by
          rw [← stored]
          exact Function.update_eq_self id target
        refine ⟨target', ⟨k, id, k, value⟩ :: stores, readTargets_cons_iff.mpr
          ⟨k, id, k, value, stores, by rw [nothing]; rfl, inside, by rw [same, run], rfl⟩,
            ?_, fun i => ?_⟩
        · exact List.forall_mem_cons.mpr ⟨⟨inside.1, inside.2, rfl⟩, good⟩
        · rw [last, lastTarget_cons_none nothing]

/-- If each store has its id and its target from one line, the lines fit. -/
theorem fits_of_readTargets
    (earlier : ∀ k value, cells.instr = some (k, value) → k < nr)
    (run : readTargets progsInit scan lines nr cells target = .ok (target', stores))
    (good : ∀ store ∈ stores, store.idLine = store.instrLine) :
    (∀ line ∈ lines, (wellFormedLine progsInit scan line).isSome ∨ scan line = .nothing) ∧
      (cells.id = none → ∀ line, lines.head? = some line → scan line ≠ .nothing) := by
  induction lines generalizing nr cells target stores with
  | nil => simp
  | cons line lines ih =>
      obtain ⟨idLine, id, instrLine, instr, rest, held, inside, run', rfl⟩ :=
        readTargets_cons_iff.mp run
      rw [List.forall_mem_cons] at good ⊢
      have held_lt : instrLine < nr + 1 := by
        cases scanned : scan line with
        | nothing =>
            rw [scanned] at held
            have := earlier instrLine instr (by rw [show cells = _ from held])
            omega
        | id id' =>
            rw [scanned, TargetCells.scan, TargetCells.mk.injEq] at held
            have := earlier instrLine instr held.2
            omega
        | both id' value =>
            rw [scanned, TargetCells.scan, TargetCells.mk.injEq, Option.some_inj, Option.some_inj,
              Prod.mk.injEq, Prod.mk.injEq] at held
            omega
      have later := ih (by rintro k value ⟨⟩; exact held_lt) run' good.2
      refine ⟨⟨?_, later.1⟩, ?_⟩
      · cases scanned : scan line with
        | nothing => exact .inr rfl
        | id id' =>
            -- the target is from an earlier line
            rw [scanned, TargetCells.scan, TargetCells.mk.injEq, Option.some_inj,
              Prod.mk.injEq] at held
            have before := earlier instrLine instr held.2
            have same : idLine = instrLine := good.1
            omega
        | both id' value =>
            rw [scanned, TargetCells.scan, TargetCells.mk.injEq, Option.some_inj, Option.some_inj,
              Prod.mk.injEq, Prod.mk.injEq] at held
            left
            rw [wellFormedLine, scanned]
            dsimp only
            rw [if_pos (held.1.2 ▸ inside)]
            rfl
      · intro unset first isFirst nothing
        obtain rfl : line = first := by simpa using isFirst
        rw [nothing, TargetCells.scan] at held
        rw [held] at unset
        contradiction

end Loop

section Files

variable {β : Type} [Zero β]

theorem readsTargets_iff (progsInit : Nat) (scan : List Char → TargetScan β) (targetF : List Char) :
    ReadsTargets progsInit scan targetF ↔ LinesFit progsInit scan (fileLines 1023 targetF) := by
  constructor
  · rintro ⟨target, stores, run, good, -⟩
    have fits := fits_of_readTargets (by simp) run fun store member => (good store member).2.2
    exact ⟨fits.1, fits.2 rfl⟩
  · rintro ⟨fits, first⟩
    obtain ⟨target, stores, run, good, last⟩ :=
      @readTargets_fits _ _ 0 _ _ ⟨none, none⟩ (fun _ => (0 : β)) fits (.inr first)
    exact ⟨target, stores, run, good, fun i _ _ => last i⟩

/-- Each of the two functions reads its file exactly if every line of it is scanned whole, with
the id of a program, or not at all after a first line that is. -/
theorem readTargetFiles_iff (progsInit : Nat) (targetF : List Char)
    (strtod : List Char → Option Rat) :
    (ReadsTargets progsInit scanInstr targetF ↔
      LinesFit progsInit scanInstr (fileLines 1023 targetF)) ∧
      (ReadsTargets progsInit (scanTimes strtod) targetF ↔
        LinesFit progsInit (scanTimes strtod) (fileLines 1023 targetF)) :=
  ⟨readsTargets_iff progsInit scanInstr targetF,
    readsTargets_iff progsInit (scanTimes strtod) targetF⟩

/-- A blank line is stored from variables that were never set. -/
theorem readTargetFiles_blank :
    ¬ ∀ (progsInit : Nat) (targetF : List Char), 1 ≤ progsInit →
      ReadsTargets progsInit scanInstr targetF := by
  intro reads
  obtain ⟨target, stores, run, -⟩ := reads 1 ['\n'] (le_refl 1)
  cases run

end Files

end BachScheduler
