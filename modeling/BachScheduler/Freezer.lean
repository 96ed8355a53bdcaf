import BachScheduler.Lib.Decimal
import BachScheduler.Lib.Simulation
import Mathlib.Logic.Function.Basic

/-!
# The freezer

Each program has a group in the freezer of the kernel, a directory with a file for its tasks and
a file for its state.  All paths are put together in one static buffer, which keeps what earlier
calls have left in it.  The calls nevertheless act on the groups of the programs that they are
given, and on no others.
-/

namespace BachScheduler

open CString Simulation

/-- `FRZR_THAWED` and the other states that `frzr_getstate` returns. -/
inductive GroupState where
  | thawed
  | frozen
  | freezing
  | uninitialized
  deriving DecidableEq, Repr

section Kernel

/-- A group of the freezer. -/
structure Group where
  state : GroupState
  tasks : List Int
  deriving DecidableEq, Repr

/-- What a path leads to. -/
inductive FrzrNode where
  | group (name : List Char)
  | tasks (name : List Char)
  | state (name : List Char)
  deriving DecidableEq, Repr

/-- The kernel passes over doubled slashes.  Only the groups right below the freezer are
modelled. -/
def resolve (path : List Char) : Option FrzrNode :=
  match tokens (· = '/') path with
  | [dir, freezer, name] =>
      if dir = "dev".toList ∧ freezer = "freezer".toList then some (.group name) else none
  | [dir, freezer, name, file] =>
      if dir = "dev".toList ∧ freezer = "freezer".toList then
        if file = "tasks".toList then some (.tasks name)
        else if file = "freezer.state".toList then some (.state name)
        else none
      else none
  | _ => none

/-- The names of the states, in the code and in the kernel. -/
def frzrStates : GroupState → List Char
  | .thawed => "THAWED".toList
  | .frozen => "FROZEN".toList
  | .freezing => "FREEZING".toList
  | .uninitialized => "UNINITIALIZED".toList

/-- What becomes of a group when a text is written to the file of its state. -/
def Group.write (group : Group) (text : List Char) : Option Group :=
  if text = frzrStates .thawed then some { group with state := .thawed }
  else if text = frzrStates .frozen then
    some { group with state := if group.tasks = [] ∨
      group.state = .frozen then .frozen else .freezing }
  else none

end Kernel

section Operations

/-- `exit(1)`, or an assertion that fails. -/
inductive FrzrStop where
  | exit
  | assertion
  deriving DecidableEq, Repr

/-- `frzr_path`, the groups by their names, and for each write to come, of a pid or of a state,
whether the kernel refuses it. -/
structure FrzrSt where
  path : List Char
  groups : List Char → Option Group
  refused : List Bool

abbrev Frzr := EStateM FrzrStop FrzrSt

/-- `FRZR_PATH_LEN`. -/
def frzrPathLen : Nat := 128

/-- `FRZR_PATH_PREFIX_LEN`. -/
def frzrPathPrefixLen : Nat := 13

/-- The prefix of all paths. -/
def frzrPrefix : List Char := "/dev/freezer/".toList

/-- `frzr_path` at first. -/
def FrzrSt.start (refused : List Bool) : FrzrSt where
  path := frzrPrefix ++ List.replicate (frzrPathLen - frzrPathPrefixLen) nul
  groups _ := none
  refused := refused

/-- A string is stored into a buffer. -/
def storeStr (buffer : List Char) (pos : Nat) (str : List Char) : List Char :=
  buffer.take pos ++ str ++ buffer.drop (pos + str.length)

/-- `snprintf` of one string to a position of a buffer, with room for `size` characters. -/
def snprintf (buffer : List Char) (pos size : Nat) (str : List Char) : List Char × Nat :=
  (if size = 0 then buffer else storeStr buffer pos (str.take (size - 1) ++ [nul]), str.length)

/-- `frzr_setpath`. -/
def frzrSetpath (id : List Char) (prfxLen : Nat) : Frzr Nat := do
  let sufxLen := frzrPathLen - prfxLen
  let st ← get
  let (path, ret) := snprintf st.path prfxLen sufxLen id
  set { st with path := path }
  if sufxLen ≤ ret then
    throw .exit
  else
    return ret

/-- `mkdir`, of the path in the buffer. -/
def frzrMkdir : Frzr Unit := do
  let st ← get
  match resolve (strAt st.path 0) with
  | some (.group name) =>
      if (st.groups name).isSome then
        throw .exit
      else
        set { st with groups := Function.update st.groups name (some ⟨.thawed, []⟩) }
  | _ => throw .exit

/-- `open`, of the path in the buffer: the file of a group, or nothing if there is none. -/
def FrzrSt.file (st : FrzrSt) : Option FrzrNode :=
  match resolve (strAt st.path 0) with
  | some (.tasks name) => if (st.groups name).isSome then some (.tasks name) else none
  | some (.state name) => if (st.groups name).isSome then some (.state name) else none
  | _ => none

/-- `frzr_init`.  The kernel reads the pid from the text that is written; where it refuses the
write, the new group stays behind without a task. -/
def frzrInit (pid : Int) (id : List Char) : Frzr Unit := do
  let prfxLen := frzrPathPrefixLen
  let len ← frzrSetpath id prfxLen
  let prfxLen := prfxLen + len
  frzrMkdir
  let _ ← frzrSetpath "/tasks".toList prfxLen
  match (← get).file with
  | some (.tasks name) =>
      let buff := decimal pid
      let st ← get
      let refuses := st.refused.headD false
      let refused := st.refused.tail
      if refuses then do
        set { st with refused := refused }
        throw .exit
      else
        set { st with
          groups := Function.update st.groups name
            ((st.groups name).map fun group : Group =>
              { group with tasks := group.tasks ++ [atol buff] })
          refused := refused }
  | _ => throw .exit

/-- `frzr_shut`.  The kernel keeps a group that has tasks. -/
def frzrShut (id : List Char) : Frzr Unit := do
  let _ ← frzrSetpath id frzrPathPrefixLen
  let st ← get
  match resolve (strAt st.path 0) with
  | some (.group name) =>
      match st.groups name with
      | some group =>
          if group.tasks = [] then
            set { st with groups := Function.update st.groups name none }
          else
            throw .exit
      | none => throw .exit
  | _ => throw .exit

/-- The loop behind `write_state`, with the tries that are left. -/
def frzrWriteState (name : List Char) (stateStr : List Char) : Nat → Frzr Unit
  | 0 => throw .exit
  | retry + 1 => do
      let st ← get
      let refuses := st.refused.headD false
      let refused := st.refused.tail
      match (st.groups name).bind (·.write stateStr), refuses with
      | some group, false =>
          set { st with groups := Function.update st.groups name (some group), refused := refused }
      | _, _ => do
          set { st with refused := refused }
          frzrWriteState name stateStr retry

/-- `frzr_setstate`. -/
def frzrSetstateOf (id : List Char) (state : GroupState) : Frzr Unit := do
  if state ≠ .thawed ∧ state ≠ .frozen then
    throw .assertion
  else do
    let prfxLen := frzrPathPrefixLen
    let len ← frzrSetpath id prfxLen
    let prfxLen := prfxLen + len
    let _ ← frzrSetpath "/freezer.state".toList prfxLen
    match (← get).file with
    | some (.state name) => frzrWriteState name (frzrStates state) 2
    | _ => throw .exit

/-- The states in the order of the enumeration. -/
def groupStates : List GroupState :=
  [.thawed, .frozen, .freezing, .uninitialized]

/-- What `frzr_getstate` makes of what it has read into its buffer, in front of what was there. -/
def parseState (text rest : List Char) : Option GroupState :=
  let buff := text ++ rest
  let buff := if buff[text.length - 1]? = some '\n' then buff.set (text.length - 1) nul else buff
  groupStates.find? fun state => frzrStates state = strAt buff 0

/-- `frzr_getstate`, where `rest` is what lies behind the text in its buffer. -/
def frzrGetstate (id rest : List Char) : Frzr GroupState := do
  let prfxLen := frzrPathPrefixLen
  let len ← frzrSetpath id prfxLen
  let prfxLen := prfxLen + len
  let _ ← frzrSetpath "/freezer.state".toList prfxLen
  match (← get).file with
  | some (.state name) =>
      let st ← get
      match st.groups name with
      | some group =>
          match parseState (frzrStates group.state ++ ['\n']) rest with
          | some state => return state
          | none => throw .assertion
      | none => return .uninitialized
  | _ => return .uninitialized

/-- `snprintf(ret->idpath, AFF_MAX_PATH, "/AFF_%d", ret->id)`. -/
def idpath (id : Int) : List Char :=
  ("/AFF_".toList ++ decimal id).take 31

end Operations

section Paths

variable {st : FrzrSt} {pre id rest name : List Char} {prfxLen : Nat}

/-- The buffer has its length, and begins with a string that is kept. -/
structure Begins (path pre : List Char) : Prop where
  split : ∃ rest, path = pre ++ rest
  length : path.length = frzrPathLen

/-- A string that fits is put behind what is kept, whatever was there. -/
theorem frzrSetpath_run (begins : Begins st.path pre)
    (fits : pre.length + id.length < frzrPathLen) :
    ∃ later, frzrSetpath id pre.length st =
      .ok id.length { st with path := pre ++ id ++ nul :: later } ∧
      (pre ++ id ++ nul :: later).length = frzrPathLen := by
  obtain ⟨⟨rest, split⟩, length⟩ := begins
  have room : id.length < frzrPathLen - pre.length := by omega
  refine ⟨rest.drop (id.length + 1), ?_, ?_⟩
  · have stored : (snprintf st.path pre.length (frzrPathLen - pre.length) id) =
        (pre ++ id ++ nul :: rest.drop (id.length + 1), id.length) := by
      have whole : id.take (frzrPathLen - pre.length - 1) = id := List.take_of_length_le (by omega)
      have some_ : frzrPathLen - pre.length ≠ 0 := by omega
      simp [snprintf, some_, whole, storeStr, split, List.drop_append]
    have ran : frzrSetpath id pre.length st =
        (if frzrPathLen - pre.length ≤
          (snprintf st.path pre.length (frzrPathLen - pre.length) id).2 then
          throw .exit
        else
          return (snprintf st.path pre.length (frzrPathLen - pre.length) id).2 : Frzr Nat)
          { st with path := (snprintf st.path pre.length (frzrPathLen - pre.length) id).1 } := rfl
    rw [ran, stored, if_neg (Nat.not_le.mpr room)]
    rfl
  · rw [split, List.length_append] at length
    simp only [List.length_append, List.length_cons, List.length_drop]
    omega

/-- The path in the buffer ends behind what was put there last. -/
theorem strAt_path {later : List Char} (plain : nul ∉ pre) : strAt (pre ++ nul :: later) 0 = pre :=
  have holds : Holds (pre ++ nul :: later) 0 pre later := ⟨rfl, plain⟩
  holds.strAt

/-- What begins with a path begins with the first part of it. -/
theorem Begins.shorten {path : List Char} (begins : Begins path (pre ++ id)) : Begins path pre := by
  obtain ⟨⟨rest, split⟩, length⟩ := begins
  exact ⟨⟨id ++ rest, by rw [split, List.append_assoc]⟩, length⟩

/-- The name of a group is one component of a path. -/
structure IsName (name : List Char) : Prop where
  nonempty : name ≠ []
  plain : ∀ c ∈ name, c ≠ '/' ∧ c ≠ nul

/-- The characters of a text are checked one after the other. -/
theorem forall_of_all {p : Char → Prop} [DecidablePred p] {text : List Char}
    (checked : (text.all fun c => decide (p c)) = true) : ∀ c ∈ text, p c :=
  fun c member => of_decide_eq_true (List.all_eq_true.mp checked c member)

theorem tokens_below (str : List Char) :
    tokens (· = '/') (frzrPrefix ++ '/' :: str) = "dev".toList :: "freezer".toList :: tokens
      (· = '/') str := by
  have spelled : frzrPrefix ++ '/' :: str =
      '/' :: ("dev".toList ++ '/' :: ("freezer".toList ++ '/' :: '/' :: str)) := rfl
  rw [spelled, tokens_delim (by decide),
    tokens_cons (by decide) (forall_of_all (by decide)) (by decide),
      tokens_cons (by decide) (forall_of_all (by decide)) (by decide), tokens_delim (by decide)]

theorem resolve_group (isName : IsName name) :
    resolve (frzrPrefix ++ '/' :: name) = some (.group name) := by
  have plain : ∀ c ∈ name, decide (c = '/') = false := fun c member =>
    decide_eq_false (isName.plain c member).1
  rw [resolve, tokens_below, tokens_single isName.nonempty plain]
  simp

theorem tokens_file {file : List Char} (isName : IsName name) (isFile : IsName file) :
    tokens (· = '/') (frzrPrefix ++ '/' :: (name ++ '/' :: file)) =
      ["dev".toList, "freezer".toList, name, file] := by
  have plain : ∀ c ∈ name, decide (c = '/') = false := fun c member =>
    decide_eq_false (isName.plain c member).1
  have plain' : ∀ c ∈ file, decide (c = '/') = false := fun c member =>
    decide_eq_false (isFile.plain c member).1
  rw [tokens_below, tokens_cons isName.nonempty plain (by decide),
    tokens_single isFile.nonempty plain']

theorem isName_tasks : IsName "tasks".toList := ⟨by decide, forall_of_all (by decide)⟩

theorem isName_state : IsName "freezer.state".toList := ⟨by decide, forall_of_all (by decide)⟩

theorem resolve_tasks (isName : IsName name) :
    resolve (frzrPrefix ++ '/' :: name ++ "/tasks".toList) = some (.tasks name) := by
  have spelled : frzrPrefix ++ '/' :: name ++ "/tasks".toList = frzrPrefix ++
      '/' :: (name ++ '/' :: "tasks".toList) := by
    simp
  rw [resolve, spelled, tokens_file isName isName_tasks]
  simp

theorem resolve_state (isName : IsName name) :
    resolve (frzrPrefix ++ '/' :: name ++ "/freezer.state".toList) = some (.state name) := by
  have spelled : frzrPrefix ++ '/' :: name ++ "/freezer.state".toList =
      frzrPrefix ++ '/' :: (name ++ '/' :: "freezer.state".toList) := by
    simp
  rw [resolve, spelled, tokens_file isName isName_state]
  simp

/-- The numbers of programs, and of processes. -/
def InRange (n : Int) : Prop :=
  -2 ^ 31 ≤ n ∧ n < 2 ^ 31

instance (n : Int) : Decidable (InRange n) :=
  inferInstanceAs (Decidable (_ ∧ _))

/-- The name of the group of a program. -/
def groupName (id : Int) : List Char :=
  "AFF_".toList ++ decimal id

theorem length_decimal {n : Int} (inRange : InRange n) : (decimal n).length ≤ 11 := by
  have digits : (Nat.toDigits 10 n.natAbs).length ≤ 10 := by
    rw [Nat.length_toDigits_le_iff (by decide) (by decide)]
    unfold InRange at inRange
    omega
  unfold decimal
  split
  · rw [List.length_cons]
    omega
  · omega

theorem idpath_eq {n : Int} (inRange : InRange n) : idpath n = '/' :: groupName n := by
  have short := length_decimal inRange
  have spelled : "/AFF_".toList ++ decimal n = '/' :: groupName n := rfl
  rw [idpath, spelled, List.take_of_length_le]
  rw [groupName, List.length_cons, List.length_append, show "AFF_".toList.length = 4 from rfl]
  omega

theorem isName_groupName (n : Int) : IsName (groupName n) := by
  constructor
  · simp [groupName]
  · intro c member
    rcases List.mem_append.mp member with fixed | number
    · have letters : ∀ c ∈ "AFF_".toList, c ≠ '/' ∧ c ≠ nul := forall_of_all (by decide)
      exact letters c fixed
    · rcases mem_decimal number with ⟨rfl, -⟩ | digit
      · decide
      · constructor <;> rintro rfl <;> exact absurd digit (by decide)

theorem groupName_inj {m n : Int} (left : InRange m) (right : InRange n)
    (same : groupName m = groupName n) : m = n := by
  have texts : decimal m = decimal n := List.append_cancel_left same
  have read {k : Int} (inRange : InRange k) : (strtol (decimal k)).1 = k := by
    unfold InRange at inRange
    rw [show decimal k = decimal k ++ [] from (List.append_nil _).symm]
    rw [strtol_decimal (by omega) (by omega) (by simp)]
  rw [← read left, texts, read right]

end Paths

section Table

/-- The groups by the numbers of their programs, and the refusals to come. -/
structure FrzrTable where
  groups : Int → Option Group
  refused : List Bool

abbrev Table := EStateM FrzrStop FrzrTable

namespace FrzrTable

/-- A group for a program, with one task, or with none if the kernel does not take it. -/
def init (pid id : Int) : Table Unit := fun table =>
  match table.groups id with
  | some _ => .error .exit table
  | none =>
      let later (tasks : List Int) : FrzrTable :=
        { groups := Function.update table.groups id (some ⟨.thawed, tasks⟩),
          refused := table.refused.tail }
      if table.refused.headD false then .error .exit (later []) else .ok () (later [pid])

/-- The group of a program goes, if it has no tasks. -/
def shut (id : Int) : Table Unit := fun table =>
  match table.groups id with
  | some ⟨_, []⟩ => .ok () { table with groups := Function.update table.groups id none }
  | _ => .error .exit table

/-- The kernel is asked to put a group into the place of another, as often as there are tries. -/
def ask (id : Int) (group : Group) : Nat → Table Unit
  | 0 => fun table => .error .exit table
  | tries + 1 => fun table =>
      if table.refused.headD false then
        ask id group tries { table with refused := table.refused.tail }
      else
        .ok () { groups := Function.update table.groups id (some group), refused :=
          table.refused.tail }

/-- A program is thawed or frozen; the kernel is asked twice. -/
def setstate (id : Int) (state : GroupState) : Table Unit := fun table =>
  if state = .thawed ∨ state = .frozen then
    match table.groups id with
    | some group => ask id ((group.write (frzrStates state)).getD group) 2 table
    | none => .error .exit table
  else .error .assertion table

/-- The state of a program. -/
def getstate (id : Int) : Table GroupState := fun table =>
  .ok (((table.groups id).map Group.state).getD .uninitialized) table

end FrzrTable

/-- The calls of the executor and the applications, for the programs with given numbers, and what
happens in the kernel: the last task of a group stops, and a task ends. -/
inductive FrzrCall where
  | init (pid id : Int)
  | shut (id : Int)
  | setstate (id : Int) (state : GroupState)
  | getstate (id : Int) (rest : List Char)
  | stopped (id : Int)
  | ended (id : Int)
  deriving DecidableEq, Repr

/-- All tasks of a group that is freezing have stopped. -/
def Group.stopped (group : Group) : Group :=
  if group.state = .freezing then { group with state := .frozen } else group

namespace FrzrCall

/-- A call in the code, with the paths of the programs. -/
def run : FrzrCall → Frzr (Option GroupState)
  | .init pid id => do
      frzrInit pid (idpath id)
      return none
  | .shut id => do
      frzrShut (idpath id)
      return none
  | .setstate id state => do
      frzrSetstateOf (idpath id) state
      return none
  | .getstate id rest => do
      let state ← frzrGetstate (idpath id) rest
      return some state
  | .stopped id => do
      modify fun st => { st with
        groups := Function.update st.groups (groupName id)
          ((st.groups (groupName id)).map Group.stopped) }
      return none
  | .ended id => do
      modify fun st => { st with
        groups := Function.update st.groups (groupName id)
          ((st.groups (groupName id)).map fun group => { group with tasks := [] }) }
      return none

/-- What a call is for. -/
def spec : FrzrCall → Table (Option GroupState)
  | .init pid id => do
      FrzrTable.init pid id
      return none
  | .shut id => do
      FrzrTable.shut id
      return none
  | .setstate id state => do
      FrzrTable.setstate id state
      return none
  | .getstate id _ => do
      let state ← FrzrTable.getstate id
      return some state
  | .stopped id => do
      modify fun table => { table with
        groups := Function.update table.groups id ((table.groups id).map Group.stopped) }
      return none
  | .ended id => do
      modify fun table => { table with
        groups := Function.update table.groups id
          ((table.groups id).map fun group => { group with tasks := [] }) }
      return none

/-- The numbers in a call are those of programs and processes. -/
def Allowed : FrzrCall → Prop
  | .init pid id => InRange pid ∧ InRange id
  | .shut id | .setstate id _ | .getstate id _ | .stopped id | .ended id => InRange id

end FrzrCall

instance : DecidablePred FrzrCall.Allowed
  | .init pid id => inferInstanceAs (Decidable (InRange pid ∧ InRange id))
  | .shut id | .setstate id _ | .getstate id _ | .stopped id | .ended id =>
      inferInstanceAs (Decidable (InRange id))

/-- The code and the table are at the same point: the buffer still begins with the prefix, and every
program has the same group. -/
structure FrzrSt.Shows (st : FrzrSt) (table : FrzrTable) : Prop where
  begins : Begins st.path frzrPrefix
  refused : st.refused = table.refused
  groups : ∀ id, InRange id → st.groups (groupName id) = table.groups id

end Table

section Calls

variable {st : FrzrSt} {table : FrzrTable} {id pid : Int} {rest : List Char}

theorem parseState_text (state : GroupState) (rest : List Char) :
    parseState (frzrStates state ++ ['\n']) rest = some state := by
  cases state <;> rfl

namespace FrzrSt

theorem Shows.update {st' : FrzrSt} {table' : FrzrTable} (group : Option Group)
    (shows_ : st.Shows table) (inRange : InRange id) (begins : Begins st'.path frzrPrefix)
    (refused : st'.refused = table'.refused)
    (groups : st'.groups = Function.update st.groups (groupName id) group)
    (groups' : table'.groups = Function.update table.groups id group) : st'.Shows table' := by
  refine ⟨begins, refused, fun other inRange' => ?_⟩
  rw [groups, groups']
  by_cases same : other = id
  · subst same
    rw [Function.update_self, Function.update_self]
  · have apart : groupName other ≠ groupName id := fun names =>
      same (groupName_inj inRange' inRange names)
    rw [Function.update_of_ne apart, Function.update_of_ne same]
    exact shows_.groups other inRange'

theorem plain_path (id : Int) : nul ∉ frzrPrefix ++ '/' :: groupName id := by
  intro member
  rcases List.mem_append.mp member with inPrefix | inName
  · exact absurd inPrefix (by decide)
  · rcases List.mem_cons.mp inName with slash | inName
    · exact absurd slash (by decide)
    · exact ((isName_groupName id).plain nul inName).2 rfl

theorem length_path (inRange : InRange id) : (frzrPrefix ++ '/' :: groupName id).length ≤ 29 := by
  have short := length_decimal inRange
  rw [List.length_append, List.length_cons, groupName, List.length_append,
    show frzrPrefix.length = 13 from rfl, show "AFF_".toList.length = 4 from rfl]
  omega

theorem program_run (st : FrzrSt) (begins : Begins st.path frzrPrefix) (inRange : InRange id) :
    ∃ path, frzrSetpath (idpath id) frzrPathPrefixLen st =
      .ok (idpath id).length { st with path := path } ∧
      Begins path (frzrPrefix ++ '/' :: groupName id) ∧
      strAt path 0 = frzrPrefix ++ '/' :: groupName id := by
  rw [idpath_eq inRange]
  have short := length_path inRange
  rw [List.length_append] at short
  have fits : frzrPrefix.length + ('/' :: groupName id).length < frzrPathLen :=
    Nat.lt_of_le_of_lt short (by decide)
  obtain ⟨later, ran, length⟩ := frzrSetpath_run begins fits
  exact ⟨_, ran, ⟨⟨nul :: later, rfl⟩, length⟩, strAt_path (plain_path id)⟩

theorem file_run (st : FrzrSt) {file : List Char}
    (begins : Begins st.path (frzrPrefix ++ '/' :: groupName id)) (inRange : InRange id)
    (plain : nul ∉ file) (short : file.length ≤ 14) :
    ∃ path, frzrSetpath file (frzrPathPrefixLen + (idpath id).length) st =
      .ok file.length { st with path := path } ∧
      Begins path frzrPrefix ∧
      strAt path 0 = frzrPrefix ++ '/' :: groupName id ++ file := by
  have place : frzrPathPrefixLen + (idpath id).length =
      (frzrPrefix ++ '/' :: groupName id).length := by
    rw [idpath_eq inRange, List.length_append]
    rfl
  have before := length_path inRange
  have fits : (frzrPrefix ++ '/' :: groupName id).length + file.length < frzrPathLen :=
    Nat.lt_of_le_of_lt (Nat.add_le_add before short) (by decide)
  obtain ⟨later, ran, length⟩ := frzrSetpath_run begins fits
  rw [place]
  refine ⟨_, ran, ⟨⟨'/' :: groupName id ++ file ++ nul :: later, by simp⟩, length⟩, strAt_path ?_⟩
  exact fun member => (List.mem_append.mp member).elim (plain_path id) plain

theorem file_tasks (st : FrzrSt)
    (shown : strAt st.path 0 = frzrPrefix ++ '/' :: groupName id ++ "/tasks".toList) :
    st.file = if (st.groups (groupName id)).isSome then some (.tasks (groupName id)) else none := by
  rw [file, shown, resolve_tasks (isName_groupName id)]

theorem file_state (st : FrzrSt)
    (shown : strAt st.path 0 = frzrPrefix ++ '/' :: groupName id ++ "/freezer.state".toList) :
    st.file = if (st.groups (groupName id)).isSome then some (.state (groupName id)) else none := by
  rw [file, shown, resolve_state (isName_groupName id)]

theorem mkdir_run (st : FrzrSt) (shown : strAt st.path 0 = frzrPrefix ++ '/' :: groupName id) :
    frzrMkdir st =
      if (st.groups (groupName id)).isSome then .error .exit st
      else .ok ()
        { st with groups := Function.update st.groups (groupName id) (some ⟨.thawed, []⟩) } := by
  have ran : frzrMkdir st = (match resolve (strAt st.path 0) with
    | some (.group name) =>
        if (st.groups name).isSome then throw .exit
        else set { st with groups := Function.update st.groups name (some ⟨.thawed, []⟩) }
    | _ => throw .exit : Frzr Unit) st := rfl
  rw [ran, shown, resolve_group (isName_groupName id)]
  dsimp only
  split <;> rfl

end FrzrSt

theorem atol_pid {n : Int} (inRange : InRange n) : atol (decimal n) = n := by
  unfold InRange at inRange
  rw [atol, show decimal n = decimal n ++ [] from (List.append_nil _).symm,
    strtol_decimal (by omega) (by omega) (by simp)]

/-- The group that is made for a program is that of the table. -/
theorem init_simulates (pidRange : InRange pid) (inRange : InRange id) :
    Simulates FrzrSt.Shows (frzrInit pid (idpath id)) (FrzrTable.init pid id) := by
  intro st table shows_
  obtain ⟨path, put, begins, shown⟩ := FrzrSt.program_run st shows_.begins inRange
  have groups := shows_.groups id inRange
  have made := FrzrSt.mkdir_run { st with path := path } shown
  unfold frzrInit FrzrTable.init
  rw [bind_ok put]
  cases found : table.groups id with
  | some group =>
      rw [groups, found] at made
      rw [bind_error made]
      exact .error ⟨begins.shorten, shows_.refused, shows_.groups⟩
  | none =>
      rw [groups, found] at made
      rw [bind_ok made]
      obtain ⟨path', put', begins', shown'⟩ := FrzrSt.file_run
        { st with path := path, groups :=
          Function.update st.groups (groupName id) (some ⟨.thawed, []⟩) }
        begins inRange (show nul ∉ "/tasks".toList by decide) (by decide)
      have file := FrzrSt.file_tasks { st with
        path := path', groups := Function.update st.groups (groupName id) (some ⟨.thawed, []⟩) }
          shown'
      rw [if_pos (by simp)] at file
      rw [bind_ok put', bind_get, file]
      dsimp only
      rw [bind_get, shows_.refused]
      cases refuses : table.refused.headD false with
      | true => exact .error (shows_.update (some ⟨.thawed, []⟩) inRange begins' rfl rfl rfl)
      | false =>
          refine .ok (shows_.update (some ⟨.thawed, [pid]⟩) inRange begins' rfl ?_ rfl)
          simp [atol_pid pidRange]

/-- The group that is removed is that of the table. -/
theorem shut_simulates (inRange : InRange id) :
    Simulates FrzrSt.Shows (frzrShut (idpath id)) (FrzrTable.shut id) := by
  intro st table shows_
  obtain ⟨path, put, begins, shown⟩ := FrzrSt.program_run st shows_.begins inRange
  have groups := shows_.groups id inRange
  have stays : FrzrSt.Shows { st with path := path } table :=
    ⟨begins.shorten, shows_.refused, shows_.groups⟩
  unfold frzrShut FrzrTable.shut
  rw [bind_ok put, bind_get]
  dsimp only
  rw [shown, resolve_group (isName_groupName id)]
  dsimp only
  rw [groups]
  cases found : table.groups id with
  | none => exact .error stays
  | some group =>
      obtain ⟨state, tasks⟩ := group
      cases tasks with
      | nil => exact .ok (shows_.update none inRange begins.shorten shows_.refused rfl rfl)
      | cons task more => exact .error stays

/-- The tries to write a state. -/
theorem writeState_simulates {group : Group} {text : List Char} (inRange : InRange id)
    (tries : Nat) :
    ∀ st table, FrzrSt.Shows st table → (table.groups id).bind (·.write text) = some group →
      Matches FrzrSt.Shows (frzrWriteState (groupName id) text tries st)
        (FrzrTable.ask id group tries table) := by
  induction tries with
  | zero => exact fun st table shows_ _ => .error shows_
  | succ tries ih =>
      intro st table shows_ writes
      have groups := shows_.groups id inRange
      unfold frzrWriteState FrzrTable.ask
      rw [bind_get, groups, writes, shows_.refused]
      cases refuses : table.refused.headD false with
      | false => exact .ok (shows_.update (some group) inRange shows_.begins rfl rfl rfl)
      | true => exact ih _ _ ⟨shows_.begins, rfl, shows_.groups⟩ writes

/-- The state that is written is that of the table. -/
theorem setstate_simulates (inRange : InRange id) (state : GroupState) :
    Simulates FrzrSt.Shows (frzrSetstateOf (idpath id) state) (FrzrTable.setstate id state) := by
  intro st table shows_
  unfold frzrSetstateOf FrzrTable.setstate
  by_cases asked : state = .thawed ∨ state = .frozen
  · obtain ⟨path, put, begins, shown⟩ := FrzrSt.program_run st shows_.begins inRange
    obtain ⟨path', put', begins', shown'⟩ := FrzrSt.file_run { st with path := path } begins inRange
      (show nul ∉ "/freezer.state".toList by decide) (by decide)
    have file := FrzrSt.file_state { st with path := path' } shown'
    have stays : FrzrSt.Shows { st with path := path' } table :=
      ⟨begins', shows_.refused, shows_.groups⟩
    rw [if_pos asked, if_neg (by tauto), bind_ok put, bind_ok put', bind_get, file,
      shows_.groups id inRange]
    cases found : table.groups id with
    | none => exact .error stays
    | some group =>
        have writes : ∃ group', group.write (frzrStates state) = some group' := by
          rcases asked with rfl | rfl
          · exact ⟨_, rfl⟩
          · exact ⟨_, rfl⟩
        obtain ⟨group', writes⟩ := writes
        simp only [Option.isSome_some, if_true, writes, Option.getD_some]
        exact writeState_simulates inRange 2 _ table stays (by rw [found]; exact writes)
  · rw [if_neg asked, if_pos (by tauto)]
    exact .error shows_

/-- The state that is read is that of the table. -/
theorem getstate_simulates (inRange : InRange id) (rest : List Char) :
    Simulates FrzrSt.Shows (frzrGetstate (idpath id) rest) (FrzrTable.getstate id) := by
  intro st table shows_
  obtain ⟨path, put, begins, shown⟩ := FrzrSt.program_run st shows_.begins inRange
  obtain ⟨path', put', begins', shown'⟩ := FrzrSt.file_run { st with path := path } begins inRange
    (show nul ∉ "/freezer.state".toList by decide) (by decide)
  have file := FrzrSt.file_state { st with path := path' } shown'
  have stays : FrzrSt.Shows { st with path := path' } table :=
    ⟨begins', shows_.refused, shows_.groups⟩
  unfold frzrGetstate FrzrTable.getstate
  rw [bind_ok put, bind_ok put', bind_get, file, shows_.groups id inRange]
  cases found : table.groups id with
  | none => exact .ok stays
  | some group =>
      have value : (do
          let st ← get
          match st.groups (groupName id) with
          | some group =>
              match parseState (frzrStates group.state ++ ['\n']) rest with
              | some state => return state
              | none => throw .assertion
          | none => return .uninitialized : Frzr GroupState) { st with path := path' } =
          .ok group.state { st with path := path' } := by
        rw [bind_get, shows_.groups id inRange, found]
        dsimp only
        rw [parseState_text]
        rfl
      simp only [Option.isSome_some, if_true]
      rw [value]
      exact .ok stays

/-- Each call does to the groups what it does to the table. -/
theorem call_simulates (call : FrzrCall) (allowed : call.Allowed) :
    Simulates FrzrSt.Shows call.run call.spec := by
  cases call with
  | init pid id => exact (init_simulates allowed.1 allowed.2).bind fun _ => .pure none
  | shut id => exact (shut_simulates allowed).bind fun _ => .pure none
  | setstate id state => exact (setstate_simulates allowed state).bind fun _ => .pure none
  | getstate id rest => exact (getstate_simulates allowed rest).bind fun state => .pure (some state)
  | stopped id =>
      intro st table shows_
      refine .ok (shows_.update _ allowed shows_.begins shows_.refused rfl ?_)
      dsimp only
      rw [shows_.groups id allowed]
  | ended id =>
      intro st table shows_
      refine .ok (shows_.update _ allowed shows_.begins shows_.refused rfl ?_)
      dsimp only
      rw [shows_.groups id allowed]

theorem start_shows (refused : List Bool) :
    (FrzrSt.start refused).Shows ⟨fun _ => none, refused⟩ where
  begins := ⟨⟨_, rfl⟩, rfl⟩
  refused := rfl
  groups _ _ := rfl

/-- Whatever calls are made, and in whatever order, with whatever the buffer still holds of the
paths before and whatever the kernel refuses: the calls return and stop as if each program had its
group in a table, and the groups of the programs are those of the table. -/
theorem freezer_shows_table (calls : List FrzrCall) (allowed : ∀ call ∈ calls, call.Allowed)
    (refused : List Bool) :
    Matches FrzrSt.Shows (Simulates.runCalls FrzrCall.run calls (FrzrSt.start refused))
      (Simulates.runCalls FrzrCall.spec calls ⟨fun _ => none, refused⟩) :=
  Simulates.calls call_simulates calls allowed _ _ (start_shows refused)

/-- A program with a long number freezes itself behind one refusal, and one with a short number is
thawed. -/
def twoPrograms : List FrzrCall :=
  [.init 70 (-2147483648), .setstate (-2147483648) .frozen, .stopped (-2147483648), .init 71 1,
    .setstate 1 .thawed,
    .getstate (-2147483648) ['x'], .getstate 1 [], .getstate 2 []]

theorem freezer_shows_table_two :
    returned (Simulates.runCalls FrzrCall.run twoPrograms (FrzrSt.start [false, true])) =
      some [none, none, none, none, none, some .frozen, some .thawed, some .uninitialized] := by
  have allowed : ∀ call ∈ twoPrograms, call.Allowed := by decide +kernel
  have table :
      returned (Simulates.runCalls FrzrCall.spec twoPrograms ⟨fun _ => none, [false, true]⟩) =
      some [none, none, none, none, none, some .frozen, some .thawed,
        some .uninitialized] := by decide +kernel
  exact (freezer_shows_table twoPrograms allowed [false, true]).returned.trans table

end Calls

end BachScheduler
