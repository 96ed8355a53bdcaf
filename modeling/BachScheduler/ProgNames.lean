import BachScheduler.Lib.CString
import Mathlib.Logic.Function.Basic

/-!
# The names of the programs

`sched_add_prog` copies the name of a program out of its command, once per slot, and from the
slot into the `prog_data`.  The blocks are modelled with their sizes, so that a copy that leaves
its source is a fault.
-/

namespace BachScheduler

open CString

/-- `total_progs`. -/
abbrev TotalProgs := Int → Option (List Char)

section Operations

/-- `WORK_DIR`. -/
def workDir : List Char := ['.', '.', '/', 'b', 'i', 'n', '/']

/-- The bytes that `memcpy` reads from a block, if they lie in it. -/
def readBlock (block : List Char) (pos n : Nat) : Option (List Char) :=
  if pos + n ≤ block.length then some ((block.drop pos).take n) else none

/-- `size` in `sched_add_prog`, when the names are copied. -/
def copySize (cmd : List Char) : Int :=
  let size1 : Int := workDir.length
  let size : Int := (strAt cmd 0).length
  let size := size - size1 + 1
  let i := size - 18
  if i ≠ 0 then size - i else size

/-- The names that `sched_add_prog` stores for a program with `init_id = i`: the slots, and
`pd->prg`. -/
def TotalProgs.schedAddProg (totalProgs : TotalProgs) (i : Int) (cmd : List Char) :
    Option (TotalProgs × List Char) := do
  let size := copySize cmd
  let total ←
    match totalProgs i with
    | none => do
        let name ← readBlock cmd workDir.length (size - 1).toNat
        some (name ++ [nul])
    | some total => some total
  let name ← readBlock total 0 (size - 1).toNat
  some (Function.update totalProgs i (some total), name ++ [nul])

/-- The name that `linux_add_prog` stores. -/
def TotalProgs.linuxAddProg (totalProgs : TotalProgs) (i : Int) (cmd : List Char) :
    Option TotalProgs :=
  let size1 : Int := workDir.length
  let size : Int := (strAt cmd 0).length
  let size := size - size1 + 1
  match totalProgs i with
  | none => do
      let name ← readBlock cmd workDir.length (size - 1).toNat
      some (Function.update totalProgs i (some (name ++ [nul])))
  | some _ => some totalProgs

end Operations

section Runs

/-- A command that starts with `WORK_DIR`. -/
structure Command where
  name : List Char
  no_nul : nul ∉ name

/-- The block that `parse_line` or `strdup` allocates for a command. -/
def Command.cmd (command : Command) : List Char :=
  workDir ++ command.name ++ [nul]

/-- Programs are added, each with the command of its slot: the slots, and `pd->prg` of each. -/
def schedAddProgs (command : Int → Command) :
    List Int → TotalProgs → Option (TotalProgs × List (Int × List Char))
  | [], totalProgs => some (totalProgs, [])
  | i :: progs, totalProgs => do
      let (totalProgs, prg) ← totalProgs.schedAddProg i (command i).cmd
      let (totalProgs, prgs) ← schedAddProgs command progs totalProgs
      some (totalProgs, (i, prg) :: prgs)

/-- Programs are added under the `linux` policy. -/
def linuxAddProgs (command : Int → Command) : List Int → TotalProgs → Option TotalProgs
  | [], totalProgs => some totalProgs
  | i :: progs, totalProgs => do
      let totalProgs ← totalProgs.linuxAddProg i (command i).cmd
      linuxAddProgs command progs totalProgs

/-- From empty slots on, no copy leaves its source, each name that is stored is that of its program,
up to 17 characters, and a name of at most 17 characters is stored as under `linux`. -/
def AddsNames (command : Int → Command) (progs : List Int) : Prop :=
  ∃ totalProgs prgs linuxProgs, schedAddProgs command progs (fun _ => none) =
    some (totalProgs, prgs) ∧
    linuxAddProgs command progs (fun _ => none) = some linuxProgs ∧
    prgs.map Prod.fst = progs ∧ (∀ prg ∈ prgs, strAt prg.2 0 = (command prg.1).name.take 17) ∧
    ∀ i ∈ progs, (totalProgs i).map (strAt · 0) = some ((command i).name.take 17) ∧
      ((command i).name.length ≤ 17 →
        (totalProgs i).map (strAt · 0) = (linuxProgs i).map (strAt · 0))

end Runs

section Copies

variable {command : Int → Command} {progs : List Int} {totalProgs : TotalProgs}

theorem cmd_holds (command : Command) : Holds command.cmd 0 (workDir ++ command.name) [] where
  drop := rfl
  no_nul member := by
    rcases List.mem_append.mp member with inside | inside
    · exact absurd inside (by decide)
    · exact command.no_nul inside

/-- The size is 18, whatever the command is. -/
theorem copySize_eq (cmd : List Char) : copySize cmd = 18 := by
  unfold copySize
  dsimp only
  split
  · omega
  · omega

/-- What is read from the name of a command on. -/
theorem readBlock_cmd (command : Command) (n : Nat) :
    readBlock command.cmd workDir.length n =
      if n ≤ command.name.length + 1 then some ((command.name ++ [nul]).take n) else none := by
  have rest : command.cmd.drop workDir.length = command.name ++ [nul] := by
    rw [Command.cmd, List.append_assoc, List.drop_left]
  have length : command.cmd.length = workDir.length + (command.name.length + 1) := by
    simp only [Command.cmd, List.length_append, List.length_singleton]
    omega
  rw [readBlock, rest, length]
  simp only [Nat.add_le_add_iff_left]

/-- The block that a slot holds after a name of at least 16 characters was stored. -/
def Command.block (command : Command) : List Char :=
  (command.name ++ [nul]).take 17 ++ [nul]

theorem strAt_block (command : Command) : strAt command.block 0 = command.name.take 17 := by
  have no_nul := command.no_nul
  by_cases long : 17 ≤ command.name.length
  · rw [Command.block, List.take_append_of_le_length long]
    exact (⟨rfl, fun member => no_nul (List.mem_of_mem_take member)⟩ : Holds _ 0 _ []).strAt
  · have whole : (command.name ++ [nul]).take 17 = command.name ++ [nul] := by
      rw [List.take_of_length_le]
      rw [List.length_append, List.length_singleton]
      omega
    rw [Command.block, whole, List.take_of_length_le (by omega), List.append_assoc]
    exact (⟨rfl, no_nul⟩ : Holds _ 0 command.name [nul]).strAt

/-- Every slot that is set holds the block of its command, whose name is long. -/
def Slots (command : Int → Command) (totalProgs : TotalProgs) : Prop :=
  ∀ i total, totalProgs i = some total → total = (command i).block ∧ 16 ≤ (command i).name.length

/-- `sched_add_prog` stays within the command exactly if the name is long. -/
theorem schedAddProg_eq (slots : Slots command totalProgs) (i : Int) :
    totalProgs.schedAddProg i (command i).cmd =
      if 16 ≤ (command i).name.length then
        some (Function.update totalProgs i (some (command i).block), (command i).block)
      else none := by
  have copy (long : 16 ≤ (command i).name.length) :
      readBlock (command i).block 0 17 = some (((command i).name ++ [nul]).take 17) := by
    have size : (((command i).name ++ [nul]).take 17).length = 17 := by
      rw [List.length_take, List.length_append, List.length_singleton]
      omega
    rw [readBlock, Command.block, List.length_append, size, if_pos (by simp), List.drop_zero,
      List.take_append_of_le_length (by omega), List.take_take, Nat.min_self]
  rw [TotalProgs.schedAddProg, copySize_eq]
  dsimp only
  rw [show ((18 : Int) - 1).toNat = 17 from rfl]
  cases slot : totalProgs i with
  | none =>
      dsimp only
      rw [readBlock_cmd]
      by_cases long : 16 ≤ (command i).name.length
      · have copied := copy long
        rw [Command.block] at copied
        rw [if_pos (by omega), if_pos long]
        simp only [bind, Option.bind, copied]
        rfl
      · rw [if_neg (by omega), if_neg long]
        rfl
  | some total =>
      obtain ⟨rfl, long⟩ := slots i total slot
      rw [if_pos long]
      simp only [bind, Option.bind, copy long]
      rfl

theorem Slots.update (slots : Slots command totalProgs) {i : Int}
    (long : 16 ≤ (command i).name.length) :
    Slots command (Function.update totalProgs i (some (command i).block)) := by
  intro j total
  by_cases here : j = i
  · subst here
    rw [Function.update_self, Option.some_inj]
    rintro rfl
    exact ⟨rfl, long⟩
  · rw [Function.update_of_ne here]
    exact slots j total

/-- A run in which no copy leaves its source has only long names. -/
theorem long_of_schedAddProgs {result : TotalProgs × List (Int × List Char)}
    (slots : Slots command totalProgs)
    (run : schedAddProgs command progs totalProgs = some result) :
    ∀ i ∈ progs, 16 ≤ (command i).name.length := by
  induction progs generalizing totalProgs result with
  | nil => simp
  | cons i progs ih =>
      rw [schedAddProgs, schedAddProg_eq slots] at run
      by_cases long : 16 ≤ (command i).name.length
      · rw [if_pos long] at run
        simp only [bind, Option.bind] at run
        split at run
        · contradiction
        · next rest later => exact List.forall_mem_cons.mpr ⟨long, ih (slots.update long) later⟩
      · rw [if_neg long] at run
        contradiction

/-- With long names every copy stays within its source, and the names are stored. -/
theorem schedAddProgs_long (slots : Slots command totalProgs)
    (long : ∀ i ∈ progs, 16 ≤ (command i).name.length) :
    ∃ totalProgs' prgs, schedAddProgs command progs totalProgs = some (totalProgs', prgs) ∧
      prgs.map Prod.fst = progs ∧ (∀ prg ∈ prgs, prg.2 = (command prg.1).block) ∧
      (∀ i ∈ progs, totalProgs' i = some (command i).block) ∧
      ∀ i, totalProgs i = some (command i).block → totalProgs' i = some (command i).block := by
  induction progs generalizing totalProgs with
  | nil => exact ⟨totalProgs, [], rfl, rfl, by simp, by simp, fun _ set => set⟩
  | cons i progs ih =>
      rw [List.forall_mem_cons] at long
      obtain ⟨totalProgs', prgs, run, ids, names, stored, kept⟩ := ih (slots.update long.1) long.2
      refine ⟨totalProgs', (i, (command i).block) :: prgs, ?_, by rw [List.map_cons, ids],
        List.forall_mem_cons.mpr ⟨rfl, names⟩,
        List.forall_mem_cons.mpr ⟨kept i (Function.update_self ..), stored⟩, fun j set => kept j ?_⟩
      · rw [schedAddProgs, schedAddProg_eq slots, if_pos long.1]
        simp only [bind, Option.bind, run]
      · by_cases here : j = i
        · rw [here, Function.update_self]
        · rw [Function.update_of_ne here, set]

/-- `linux_add_prog` never leaves the command, and stores the whole name. -/
theorem linuxAddProg_none (i : Int) (unset : totalProgs i = none) :
    totalProgs.linuxAddProg i (command i).cmd =
      some (Function.update totalProgs i (some ((command i).name ++ [nul]))) := by
  have size : ((strAt (command i).cmd 0).length : Int) - (workDir.length : Int) + 1 - 1 =
      (command i).name.length := by
    rw [(cmd_holds (command i)).strAt, List.length_append]
    omega
  rw [TotalProgs.linuxAddProg, unset]
  dsimp only
  rw [size, Int.toNat_natCast, readBlock_cmd, if_pos (Nat.le_succ _), List.take_left]
  rfl

theorem linuxAddProgs_stores
    (slots : ∀ i total, totalProgs i = some total → total = (command i).name ++ [nul]) :
    ∃ linuxProgs, linuxAddProgs command progs totalProgs = some linuxProgs ∧
      (∀ i ∈ progs, linuxProgs i = some ((command i).name ++ [nul])) ∧
      ∀ i total, totalProgs i = some total → linuxProgs i = some total := by
  induction progs generalizing totalProgs with
  | nil => exact ⟨totalProgs, rfl, by simp, fun _ _ set => set⟩
  | cons i progs ih =>
      cases slot : totalProgs i with
      | some total =>
          obtain ⟨linuxProgs, run, stored, kept⟩ := ih slots
          refine ⟨linuxProgs, ?_, List.forall_mem_cons.mpr ⟨?_, stored⟩, kept⟩
          · simpa [linuxAddProgs, TotalProgs.linuxAddProg, slot] using run
          · rw [kept i total slot, slots i total slot]
      | none =>
          have slots' : ∀ j total, Function.update totalProgs i (some ((command i).name ++ [nul]))
              j = some total →
              total = (command j).name ++ [nul] := by
            intro j total
            by_cases here : j = i
            · subst here
              rw [Function.update_self, Option.some_inj]
              exact Eq.symm
            · rw [Function.update_of_ne here]
              exact slots j total
          obtain ⟨linuxProgs, run, stored, kept⟩ := ih slots'
          refine ⟨linuxProgs, ?_, List.forall_mem_cons.mpr ⟨?_, stored⟩, fun j total set =>
            kept j total ?_⟩
          · rw [linuxAddProgs, linuxAddProg_none i slot]
            exact run
          · exact kept i _ (Function.update_self ..)
          · by_cases here : j = i
            · rw [here, slot] at set
              contradiction
            · rw [Function.update_of_ne here, set]

end Copies

/-- The names are added as they are to be exactly if each name has at least 16 characters. -/
theorem schedAddProg_iff (command : Int → Command) (progs : List Int) :
    AddsNames command progs ↔ ∀ i ∈ progs, 16 ≤ (command i).name.length := by
  have start : Slots command fun _ => none := by
    intro i total set
    contradiction
  constructor
  · rintro ⟨totalProgs, prgs, _, run, -⟩
    exact long_of_schedAddProgs start run
  · intro long
    obtain ⟨totalProgs, prgs, run, ids, names, stored, -⟩ := schedAddProgs_long start long
    have linuxStart : ∀ i total, (fun _ : Int => none) i = some total →
        total = (command i).name ++ [nul] := by
      intro i total set
      contradiction
    obtain ⟨linuxProgs, linuxRun, linuxStored, -⟩ :=
      @linuxAddProgs_stores command progs _ linuxStart
    refine ⟨totalProgs, prgs, linuxProgs, run, linuxRun, ids, fun prg member => ?_, fun i member =>
      ?_⟩
    · rw [names prg member, strAt_block]
    · have linuxName : strAt ((command i).name ++ [nul]) 0 = (command i).name :=
        (⟨rfl, (command i).no_nul⟩ : Holds _ 0 (command i).name []).strAt
      rw [stored i member, linuxStored i member, Option.map_some, Option.map_some,
        strAt_block, linuxName]
      exact ⟨rfl, fun short => by rw [List.take_of_length_le short]⟩

/-- The copy of a name of one character reads behind the command. -/
theorem schedAddProg_short : ¬ ∀ (command : Int → Command) (progs : List Int),
    AddsNames command progs := by
  intro adds
  obtain ⟨_, _, _, run, -⟩ := adds (fun _ => ⟨['a'], by decide⟩) [0]
  cases run

end BachScheduler
