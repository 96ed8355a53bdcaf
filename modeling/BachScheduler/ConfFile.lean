import BachScheduler.IntList
import BachScheduler.Lib.Lines
import BachScheduler.Starts

/-!
# The configuration file

`parse_file` reads its file by lines, passes over comments and splits each other line at tabs.
A file that was written for a list of programs is read back as that list, with one event per
program in the heap.
-/

namespace BachScheduler

open CString BinHeap Wp

/-- What `parse_file` keeps besides the state: the commands of the programs.  `executed`, no
variable of the source, notes the programs as `do_execute` gets them. -/
structure ConfFile where
  cmds : ProgPtr → List Char
  executed : List AffProg

namespace ConfFile

section Operations

/-- `parse_line` up to its stores: the fields, and the command. -/
def parseLine (buff : List Char) : Exec (ProgConf × List Char) :=
  let (coresStr, save, buff) := strtokR (· = '\t') buff 0
  let (memStr, save, buff) := strtokR (· = '\t') buff save
  let (thrStr, save, buff) := strtokR (· = '\t') buff save
  let (treStr, save, buff) := strtokR (· = '\t') buff save
  let (tmStr, save, buff) := strtokR (· = '\t') buff save
  let (prgStr, _, buff) := strtokR (· = '\t') buff save
  match tmStr, prgStr, coresStr with
  | some tm, some prg, some cores =>
      match memStr, thrStr, treStr with
      | some mem, some thr, some tre =>
          let conf : ProgConf :=
            { startTime := toInt (atol (strAt buff tm))
              memNeeded := BitVec.ofInt 64 (atol (strAt buff mem))
              thrNeeded := BitVec.ofInt 64 (atol (strAt buff thr))
              thrReal := BitVec.ofInt 64 (atol (strAt buff tre))
              coresNeeded := toInt (atol (strAt buff cores)) }
          return (conf, strAt buff prg)
      | _, _, _ => throw .undefined
  | _, _, _ => throw (.exit 1)

/-- A program for a line, which is then executed. -/
def parseEntry (buff : List Char) (cnt : Nat) (file : ConfFile) : Exec ConfFile := do
  let prog ← affProgAlloc (1000 + cnt)
  let (conf, cmd) ← parseLine buff
  modifyProg prog (BachScheduler.parseLine conf)
  let executed ← readProg prog
  launch prog
  return ⟨Function.update file.cmds prog cmd, file.executed ++ [executed]⟩

/-- The loop of `parse_file` over what `fgets` returns. -/
def parseLines : List (List Char) → Nat → ConfFile → Exec ConfFile
  | [], _, file => return file
  | line :: lines, cnt, file =>
      let buffer := line ++ [nul]
      let len := (strAt buffer 0).length
      if len = 0 then
        throw .undefined
      else if buffer[len - 1]? ≠ some '\n' then
        throw (.exit 1)
      else
        let buff := buffer.set (len - 1) nul
        if buff.head? = some '#' then
          parseLines lines cnt file
        else do
          let file ← parseEntry buff cnt file
          parseLines lines (cnt + 1) file

/-- `parse_file`. -/
def parseFile (text : List Char) : Exec ConfFile :=
  parseLines (fileLines 1023 text) 0 ⟨fun _ => [], []⟩

end Operations

end ConfFile

section Format

/-- A program of the configuration file. -/
structure ProgEntry where
  cores : Word32
  gang : Word32
  core : Word32
  ipcAlone : Word32
  startTime : Word32
  cmd : List Char
  nonempty : cmd ≠ []
  plain : ∀ c ∈ cmd, c ≠ '\t' ∧ c ≠ '\n' ∧ c ≠ nul

/-- The fields of an entry. -/
def ProgEntry.fields (entry : ProgEntry) : List (List Char) :=
  [decimal entry.cores.toInt, decimal entry.gang.toInt, decimal entry.core.toInt,
    decimal entry.ipcAlone.toInt, decimal entry.startTime.toInt, entry.cmd]

/-- A line of the file. -/
inductive ConfLine where
  | prog (entry : ProgEntry)
  | comment (text : List Char)

/-- A line of the file, without its newline. -/
def ConfLine.text : ConfLine → List Char
  | .prog entry => ['\t'].intercalate entry.fields
  | .comment text => '#' :: text

/-- The file. -/
def renderConf (lines : List ConfLine) : List Char :=
  lines.flatMap fun line => line.text ++ ['\n']

/-- The programs of the file. -/
def confEntries (lines : List ConfLine) : List ProgEntry :=
  lines.filterMap fun line =>
    match line with
    | .prog entry => some entry
    | .comment _ => none

/-- A comment is one line, and each line is shorter than 1023 characters. -/
def ConfLine.Fits (line : ConfLine) : Prop :=
  '\n' ∉ line.text ∧ line.text.length < 1023

/-- `prog` has what the entry with number `k` says, and its counters are zero. -/
structure ProgEntry.ReadAs (entry : ProgEntry) (k : Nat) (prog : AffProg) : Prop where
  id : prog.id = 1000 + k
  cores : prog.coresNeeded = entry.cores.toInt
  gang : prog.memNeeded.toInt = entry.gang.toInt
  core : prog.thrNeeded.toInt = entry.core.toInt
  ipcAlone : prog.thrReal.toInt = entry.ipcAlone.toInt
  startTime : prog.startTime = entry.startTime.toInt
  timesCpu : prog.timesCpu = 0
  llcAlone : prog.llcAlone = 0
  sumMemReads : prog.sumMemReads = 0
  memReads : prog.memReads = 0
  ratio : prog.ratio = 0
  instrRetdSum : prog.instrRetdSum = 0
  idealInstr : prog.idealInstr = 0

/-- `entries` were read and executed in a state `first` whose heap held `base`: `st` is the state
now, and its heap holds `ys`. -/
structure ConfFile.Read (first : ExecState) (base : List EvntPtr) (entries : List ProgEntry)
    (file : ConfFile) (st : ExecState) (ys : List EvntPtr) : Prop where
  progsAllocated : st.progsAllocated = first.progsAllocated + entries.length
  eventsAllocated : st.eventsAllocated = first.eventsAllocated + entries.length
  waitingNr : st.waitingNr = first.waitingNr + entries.length
  stored : ∀ k entry, entries[k]? = some entry →
    entry.ReadAs k (st.progs (first.progsAllocated + k)) ∧
    file.cmds (first.progsAllocated + k) = entry.cmd
  allExecuted : file.executed.length = entries.length
  executed : ∀ (k : Nat) entry, entries[k]? = some entry → ∃ prog, file.executed[k]? = some prog ∧
    entry.ReadAs k prog ∧ prog.pid = 0
  starts : ∀ k entry, entries[k]? = some entry → st.events (first.eventsAllocated + k) =
    ⟨.newprog, ⟨entry.startTime.toInt, 0⟩, first.progsAllocated + k⟩
  old : ∀ evnt < first.eventsAllocated, st.events evnt = first.events evnt
  valid : st.eventsHeap.Valid (affEventLeqUl st.events) ys
  gained : ys.Perm (base ++ List.range' first.eventsAllocated entries.length)

/-- The file is read back: `parse_file` returns, and has read and executed the programs of the
file.  The first event of the heap is before all others, and in a heap that was empty it is
the start of a program, and none starts earlier. -/
def ReadsBack (lines : List ConfLine) (st : ExecState) (base : List EvntPtr) : Prop :=
  ∃ file st' ys, ConfFile.parseFile (renderConf lines) st = .ok file st' ∧
    file.Read st base (confEntries lines) st' ys ∧
    ∃ top, heapPeek st'.eventsHeap = some top ∧
      (top = none ↔ base = [] ∧ confEntries lines = []) ∧
      ∀ evnt, top = some evnt →
        evnt ∈ ys ∧ (∀ other ∈ ys, affEventLeqUl st'.events evnt other = true) ∧
        (base = [] → ∀ entry ∈ confEntries lines, (st'.events evnt).tv.sec ≤ entry.startTime.toInt)

end Format

section Line

variable {entry : ProgEntry}

/-- A number in decimal contains no tab, newline or NUL. -/
theorem decimal_plain (n : Int) :
    decimal n ≠ [] ∧ ∀ c ∈ decimal n, c ≠ '\t' ∧ c ≠ '\n' ∧ c ≠ nul := by
  refine ⟨decimal_ne_nil n, fun c member => ?_⟩
  rcases mem_decimal member with ⟨rfl, -⟩ | digit
  · decide
  · refine ⟨?_, ?_, ?_⟩ <;> rintro rfl <;> exact absurd digit (by decide)

theorem fields_plain (entry : ProgEntry) :
    ∀ field ∈ entry.fields, field ≠ [] ∧ ∀ c ∈ field, c ≠ '\t' ∧ c ≠ '\n' ∧ c ≠ nul := by
  simp only [ProgEntry.fields, List.forall_mem_cons, List.not_mem_nil, false_implies,
    implies_true, and_true]
  exact ⟨decimal_plain _, decimal_plain _, decimal_plain _, decimal_plain _, decimal_plain _,
    entry.nonempty,
    entry.plain⟩

/-- The text of an entry contains no newline and no NUL, and does not start as a comment. -/
theorem entry_text (entry : ProgEntry) :
    '\n' ∉ (ConfLine.prog entry).text ∧ nul ∉ (ConfLine.prog entry).text ∧
      ∃ c rest, (ConfLine.prog entry).text = c :: rest ∧ c ≠ '#' := by
  have plain {c : Char} (inside : c ∈ (ConfLine.prog entry).text) : c = '\t' ∨
      c ≠ '\n' ∧ c ≠ nul := by
    rw [ConfLine.text] at inside
    rcases mem_intercalate inside with tab | ⟨field, among, inside⟩
    · exact .inl tab
    · exact .inr ((fields_plain entry field among).2 c inside).2
  refine ⟨fun member => ?_, fun member => ?_, ?_⟩
  · exact absurd (plain member) (by decide)
  · exact absurd (plain member) (by decide)
  · have digits : ∀ c ∈ decimal entry.cores.toInt, c ≠ '#' := by
      intro c member
      rcases mem_decimal member with ⟨rfl, -⟩ | digit
      · decide
      · rintro rfl
        exact absurd digit (by decide)
    simp only [ConfLine.text, ProgEntry.fields, intercalate_cons_cons]
    cases first : decimal entry.cores.toInt with
    | nil => exact absurd first (decimal_ne_nil _)
    | cons c rest =>
        rw [first] at digits
        exact ⟨c, _, rfl, digits c List.mem_cons_self⟩

/-- The fields and the command of an entry, as the program is to get them. -/
def ProgEntry.conf (entry : ProgEntry) : ProgConf where
  coresNeeded := entry.cores.toInt
  memNeeded := BitVec.ofInt 64 entry.gang.toInt
  thrNeeded := BitVec.ofInt 64 entry.core.toInt
  thrReal := BitVec.ofInt 64 entry.ipcAlone.toInt
  startTime := entry.startTime.toInt

theorem toInt_bounds (word : Word32) : -2 ^ 31 ≤ word.toInt ∧ word.toInt < 2 ^ 31 := by
  have low := word.le_toInt
  have high := word.toInt_lt
  omega

theorem atol_decimal (word : Word32) : atol (decimal word.toInt) = word.toInt := by
  have bounds := toInt_bounds word
  have whole : strtol (decimal word.toInt ++ []) = (word.toInt, []) :=
    strtol_decimal (by omega) (by omega) (by simp)
  rw [List.append_nil] at whole
  rw [atol, whole]

theorem toInt_toInt (word : Word32) : toInt word.toInt = word.toInt := by
  rw [toInt, BitVec.ofInt_toInt]

theorem long_toInt (word : Word32) : (BitVec.ofInt 64 word.toInt).toInt = word.toInt := by
  have bounds := toInt_bounds word
  rw [BitVec.toInt_ofInt]
  exact Int.bmod_eq_of_le (by omega) (by omega)

theorem parseLine_entry {buff post : List Char} (entry : ProgEntry) (st : ExecState)
    (holds : Holds buff 0 (ConfLine.prog entry).text post) :
    ConfFile.parseLine buff st = .ok (entry.conf, entry.cmd) st := by
  have fields : tokens (· = '\t') (ConfLine.prog entry).text = entry.fields := by
    rw [ConfLine.text]
    refine tokens_intercalate (by simp) fun field member =>
      ⟨(fields_plain entry field member).1, ?_⟩
    intro c inside
    simpa using ((fields_plain entry field member).2 c inside).1
  have splitting : Splitting (· = '\t') buff 0 [] _ := Splitting.start holds
  rw [fields, ProgEntry.fields] at splitting
  obtain ⟨_, save₁, buff₁, scan₁, splitting₁⟩ := splitting.next
  obtain ⟨_, save₂, buff₂, scan₂, splitting₂⟩ := splitting₁.next
  obtain ⟨_, save₃, buff₃, scan₃, splitting₃⟩ := splitting₂.next
  obtain ⟨_, save₄, buff₄, scan₄, splitting₄⟩ := splitting₃.next
  obtain ⟨_, save₅, buff₅, scan₅, splitting₅⟩ := splitting₄.next
  obtain ⟨_, save₆, buff₆, scan₆, splitting₆⟩ := splitting₅.next
  have reads := splitting₆.found
  simp only [List.forall_mem_cons, List.not_mem_nil, false_implies, implies_true, and_true] at reads
  obtain ⟨⟨-, _, cmd⟩, ⟨-, _, startTime⟩, ⟨-, _, ipcAlone⟩, ⟨-, _, core⟩, ⟨-, _, gang⟩, -, _,
      cores⟩ := reads
  simp only [ConfFile.parseLine, scan₁, scan₂, scan₃, scan₄, scan₅, scan₆, cmd.strAt,
    startTime.strAt, ipcAlone.strAt, core.strAt, gang.strAt, cores.strAt, atol_decimal, toInt_toInt]
  rfl

-- six scans of one buffer are more than unification should ever unfold
attribute [irreducible] ConfFile.parseLine

end Line

section Entry

variable {first st : ExecState} {base ys : List EvntPtr} {entries : List ProgEntry}
    {file : ConfFile}
variable {entry : ProgEntry} {prog : AffProg} {k : Nat}

/-- The program for the entry with number `k`, before it is executed. -/
def ProgEntry.born (entry : ProgEntry) (k : Nat) (fresh : AffProg) : AffProg :=
  parseLine entry.conf { fresh with id := 1000 + k, cpuset := [] }

/-- What `parse_line` stores is what the entry says. -/
theorem ProgEntry.born_readAs (entry : ProgEntry) (k : Nat) (fresh : AffProg) :
    entry.ReadAs k (entry.born k fresh) where
  id := rfl
  cores := rfl
  gang := long_toInt entry.gang
  core := long_toInt entry.core
  ipcAlone := long_toInt entry.ipcAlone
  startTime := rfl
  timesCpu := rfl
  llcAlone := rfl
  sumMemReads := rfl
  memReads := rfl
  ratio := rfl
  instrRetdSum := rfl
  idealInstr := rfl

/-- A program whose process has been created. -/
def AffProg.started (prog : AffProg) (shellPid pid : Nat) (cpuset : List Int) : AffProg :=
  { prog with shellPid := shellPid, freezer := .frozen, pid := pid, cpuset := cpuset }

/-- The process of a program changes none of what its entry says. -/
theorem ProgEntry.ReadAs.started (reads : entry.ReadAs k prog) (shellPid pid : Nat)
    (cpuset : List Int) : entry.ReadAs k (prog.started shellPid pid cpuset) where
  id := reads.id
  cores := reads.cores
  gang := reads.gang
  core := reads.core
  ipcAlone := reads.ipcAlone
  startTime := reads.startTime
  timesCpu := reads.timesCpu
  llcAlone := reads.llcAlone
  sumMemReads := reads.sumMemReads
  memReads := reads.memReads
  ratio := reads.ratio
  instrRetdSum := reads.instrRetdSum
  idealInstr := reads.idealInstr

/-- A program was executed, and its start was put into the heap. -/
structure StartPushed (st : ExecState) (prog : ProgPtr) (ys : List EvntPtr) (st' : ExecState)
    (zs : List EvntPtr) : Prop where
  progs : ∃ shellPid pid cpuset, st'.progs = Function.update st.progs prog
    ((st.progs prog).started shellPid pid cpuset)
  progsAllocated : st'.progsAllocated = st.progsAllocated
  events : st'.events = Function.update st.events st.eventsAllocated
    ⟨.newprog, ⟨(st.progs prog).startTime, 0⟩, prog⟩
  eventsAllocated : st'.eventsAllocated = st.eventsAllocated + 1
  waitingNr : st'.waitingNr = st.waitingNr + 1
  valid : st'.eventsHeap.Valid (affEventLeqUl st'.events) zs
  perm : zs.Perm (st.eventsAllocated :: ys)

/-- `launch` always returns. -/
theorem launch_pushes (prog : ProgPtr) (valid : st.eventsHeap.Valid (affEventLeqUl st.events) ys)
    (allocated : ∀ evnt ∈ ys, evnt < st.eventsAllocated) :
    wp (launch prog) (fun _ st' => ∃ zs, StartPushed st prog ys st' zs) (fun _ _ => False) st := by
  have executes : ∃ st₁, doExecute prog st = .ok () st₁ ∧
      (∃ shellPid pid cpuset, st₁.progs = Function.update st.progs prog
        ((st.progs prog).started shellPid pid cpuset)) ∧
      st₁.progsAllocated = st.progsAllocated ∧ st₁.events = st.events ∧
      st₁.eventsAllocated = st.eventsAllocated ∧ st₁.waitingNr = st.waitingNr ∧
      st₁.eventsHeap = st.eventsHeap := by
    refine ⟨_, rfl, ⟨st.env.forkPid st.reads, st.env.appPid (st.reads + 1),
      (List.range ((st.cpus.length : Int) - 0).toNat).map fun k : Nat =>
        st.cpuAt (0 + (k : Int)), ?_⟩,
      rfl, rfl, rfl, rfl, rfl⟩
    simp only [Function.update_idem, Function.update_self]
    rfl
  obtain ⟨st₁, executed, ⟨shellPid, pid, cpuset, progs⟩, progsAllocated, events,
      eventsAllocated, waitingNr,
    eventsHeap⟩ := executes
  refine Wp.bind_ok executed (Wp.bind_ok rfl (Wp.bind_ok rfl ?_))
  have startTime : (st₁.progs prog).startTime = (st.progs prog).startTime := by
    rw [progs, Function.update_self]
    rfl
  have kept : (st₁.startQueued prog).eventsHeap.Valid
      (affEventLeqUl (st₁.startQueued prog).events) ys := by
    have same : (st₁.startQueued prog).eventsHeap = st.eventsHeap := eventsHeap
    rw [same]
    refine valid.congr fun evnt member => ?_
    have other : evnt ≠ st₁.eventsAllocated := eventsAllocated ▸ (allocated evnt member).ne
    rw [← events]
    exact Function.update_of_ne other _ _
  refine Wp.bind (R := fun _ st₂ => ∃ heap zs,
    heap.Valid (affEventLeqUl (st₁.startQueued prog).events) zs ∧
    zs.Perm (st₁.eventsAllocated :: ys) ∧ st₂ = { st₁.startQueued prog with eventsHeap := heap })
    (eventsHeapPush_spec _ kept fun heap zs valid' perm => ⟨heap, zs, valid', perm, rfl⟩)
      fun _ st₂ pushed => ?_
  obtain ⟨heap, zs, valid', perm, rfl⟩ := pushed
  refine Wp.modify ⟨zs, ⟨shellPid, pid, cpuset, progs⟩, progsAllocated, ?_, ?_, ?_, valid', ?_⟩
  · rw [← startTime, ← events, ← eventsAllocated]
    rfl
  · rw [← eventsAllocated]
    rfl
  · rw [← waitingNr]
    rfl
  · rwa [eventsAllocated] at perm

theorem ConfFile.Read.start (valid : first.eventsHeap.Valid (affEventLeqUl first.events) base)
    (cmds : ProgPtr → List Char) : ConfFile.Read first base [] ⟨cmds, []⟩ first base where
  progsAllocated := rfl
  eventsAllocated := rfl
  waitingNr := by simp
  stored := by simp
  allExecuted := rfl
  executed := by simp
  starts := by simp
  old _ _ := rfl
  valid := valid
  gained := by simp

/-- The state in which a program has got the fields of an entry. -/
def ExecState.parsed (st : ExecState) (entry : ProgEntry) (k : Nat) : ExecState :=
  { st with
    reads := st.reads + 1
    progs := Function.update st.progs st.progsAllocated (entry.born k (st.env.freshProg st.reads))
    progsAllocated := st.progsAllocated + 1 }

/-- The state in which a program has been allocated. -/
def ExecState.allocated (st : ExecState) (k : Nat) : ExecState :=
  { st with
    reads := st.reads + 1
    progs := Function.update st.progs st.progsAllocated
      { st.env.freshProg st.reads with id := 1000 + k, cpuset := [] }
    progsAllocated := st.progsAllocated + 1 }

theorem parsed_run (entry : ProgEntry) (k : Nat) (st : ExecState) :
    modifyProg st.progsAllocated (parseLine entry.conf) (st.allocated k) =
      .ok () (st.parsed entry k) := by
  have progs : Function.update (st.allocated k).progs st.progsAllocated
      (parseLine entry.conf ((st.allocated k).progs st.progsAllocated)) =
        (st.parsed entry k).progs := by
    simp only [ExecState.allocated, ExecState.parsed, Function.update_self, Function.update_idem,
      ProgEntry.born]
  exact congrArg (fun progs => EStateM.Result.ok () { st.allocated k with progs := progs }) progs

theorem ConfFile.Read.snoc (read : file.Read first base entries st ys) {st' : ExecState}
    {zs : List EvntPtr}
    (pushed : StartPushed (st.parsed entry entries.length) st.progsAllocated ys st' zs) :
    ConfFile.Read first base (entries ++ [entry])
      ⟨Function.update file.cmds st.progsAllocated entry.cmd,
        file.executed ++ [entry.born entries.length (st.env.freshProg st.reads)]⟩ st' zs := by
  have atNew (k : Nat) (other : ProgEntry) (found : (entries ++ [entry])[k]? = some other) :
      k = entries.length ∧ other = entry ∨ k < entries.length ∧ entries[k]? = some other := by
    rw [List.getElem?_append] at found
    split at found
    · exact .inr ⟨‹_›, found⟩
    · next outside =>
        obtain ⟨inside, rfl⟩ := List.getElem?_eq_some_iff.mp found
        rw [List.length_singleton] at inside
        exact .inl ⟨by omega, by simp [show k - entries.length = 0 by omega]⟩
  have reads := entry.born_readAs entries.length (st.env.freshProg st.reads)
  have number := read.progsAllocated
  have events := read.eventsAllocated
  obtain ⟨shellPid, pid, cpuset, progs⟩ := pushed.progs
  have unchanged (k : Nat) (inside : k < entries.length) :
      st'.progs (first.progsAllocated + k) = st.progs (first.progsAllocated + k) := by
    have other : first.progsAllocated + k ≠ st.progsAllocated := by omega
    rw [progs, Function.update_of_ne other]
    exact Function.update_of_ne other _ _
  have new : st'.progs st.progsAllocated =
      (entry.born entries.length (st.env.freshProg st.reads)).started shellPid pid cpuset := by
    rw [progs, Function.update_self, ExecState.parsed]
    dsimp only
    rw [Function.update_self]
  have early (evnt : Nat) (before : evnt < st.eventsAllocated) :
      st'.events evnt = st.events evnt := by
    rw [pushed.events]
    exact Function.update_of_ne before.ne _ _
  constructor
  case progsAllocated =>
    have counted : st'.progsAllocated = st.progsAllocated + 1 := pushed.progsAllocated
    rw [List.length_append, List.length_singleton]
    omega
  case eventsAllocated =>
    have counted : st'.eventsAllocated = st.eventsAllocated + 1 := pushed.eventsAllocated
    rw [List.length_append, List.length_singleton]
    omega
  case waitingNr =>
    have counted : st'.waitingNr = st.waitingNr + 1 := pushed.waitingNr
    have before := read.waitingNr
    rw [List.length_append, List.length_singleton]
    omega
  case stored =>
    intro k other found
    rcases atNew k other found with ⟨rfl, rfl⟩ | ⟨inside, found⟩
    · rw [← number, new]
      exact ⟨reads.started shellPid pid cpuset, Function.update_self ..⟩
    · have other : first.progsAllocated + k ≠ st.progsAllocated := by omega
      have stored := read.stored k _ found
      rw [unchanged k inside]
      exact ⟨stored.1, (Function.update_of_ne other _ _).trans stored.2⟩
  case allExecuted => simp [read.allExecuted]
  case executed =>
    intro k other found
    rcases atNew k other found with ⟨rfl, rfl⟩ | ⟨inside, found⟩
    · refine ⟨_, ?_, reads, rfl⟩
      rw [← read.allExecuted, List.getElem?_concat_length]
    · obtain ⟨prog, atK, rest⟩ := read.executed k other found
      exact ⟨prog, by
        rw [List.getElem?_append_left (by rw [read.allExecuted]; exact inside), atK], rest⟩
  case starts =>
    intro k other found
    rcases atNew k other found with ⟨rfl, rfl⟩ | ⟨inside, found⟩
    · rw [← events, ← number, pushed.events]
      simp only [ExecState.parsed, Function.update_self]
      rfl
    · rw [early (first.eventsAllocated + k) (by omega)]
      exact read.starts k other found
  case old =>
    intro (evnt : Nat) before
    rw [early evnt (by omega)]
    exact read.old evnt before
  case valid => exact pushed.valid
  case gained =>
    have perm : zs.Perm (st.eventsAllocated :: ys) := pushed.perm
    rw [List.length_append, List.length_singleton, List.range'_1_concat,
      ← List.append_assoc, ← events]
    exact (perm.trans (read.gained.cons _)).trans (List.perm_append_singleton _ _).symm

theorem parseEntry_reads {buff post : List Char} (read : file.Read first base entries st ys)
    (older : ∀ evnt ∈ base, evnt < first.eventsAllocated)
    (holds : Holds buff 0 (ConfLine.prog entry).text post) :
    wp (ConfFile.parseEntry buff entries.length file)
      (fun file' st' => ∃ zs, file'.Read first base (entries ++ [entry]) st' zs)
      (fun _ _ => False) st := by
  have allocated : ∀ evnt ∈ ys, evnt < st.eventsAllocated := by
    intro evnt member
    rw [read.gained.mem_iff, List.mem_append, List.mem_range'_1] at member
    rw [read.eventsAllocated]
    rcases member with inBase | inNew
    · exact Nat.lt_add_right _ (older evnt inBase)
    · exact inNew.2
  have alloc : affProgAlloc (1000 + entries.length) st =
      .ok st.progsAllocated (st.allocated entries.length) := rfl
  have born : readProg st.progsAllocated (st.parsed entry entries.length) =
      .ok (entry.born entries.length (st.env.freshProg st.reads))
        (st.parsed entry entries.length) := by
    rw [readProg_run, ExecState.parsed]
    dsimp only
    rw [Function.update_self]
  have launches := @launch_pushes (st.parsed entry entries.length) ys st.progsAllocated
    read.valid allocated
  have parses := parseLine_entry entry (st.allocated entries.length) holds
  unfold ConfFile.parseEntry
  refine Wp.bind_ok alloc
    (Wp.bind_ok parses (Wp.bind_ok (parsed_run entry _ st) (Wp.bind_ok born ?_)))
  exact Wp.bind launches fun _ st' ⟨zs, pushed⟩ => Wp.pure ⟨zs, read.snoc pushed⟩

end Entry

section File

variable {first st : ExecState} {base ys : List EvntPtr} {entries : List ProgEntry}
    {file : ConfFile}
variable {text : List Char}

/-- A line as `fgets` leaves it in the buffer, and without its newline. -/
theorem line_buffer (no_nul : nul ∉ text) :
    (strAt (text ++ ['\n'] ++ [nul]) 0).length = text.length + 1 ∧
      (text ++ ['\n'] ++ [nul])[text.length]? = some '\n' ∧
      Holds ((text ++ ['\n'] ++ [nul]).set text.length nul) 0 text [nul] := by
  have whole : Holds (text ++ ['\n'] ++ [nul]) 0 (text ++ ['\n']) [] := by
    refine ⟨rfl, fun member => ?_⟩
    rcases List.mem_append.mp member with inside | inside
    · exact no_nul inside
    · exact absurd inside (by decide)
  refine ⟨by rw [whole.strAt, List.length_append]; rfl, ?_, ?_, no_nul⟩
  · rw [List.append_assoc, List.getElem?_append_right (Nat.le_refl _), Nat.sub_self]
    rfl
  · rw [List.append_assoc, List.set_append_right _ _ (Nat.le_refl _), Nat.sub_self]
    rfl

/-- The loop on a line: a comment is passed over, any other line is an entry. -/
theorem parseLines_cons {c : Char} {rest : List Char} {lines : List (List Char)} {cnt : Nat}
    (no_nul : nul ∉ text) (starts : text = c :: rest) :
    ConfFile.parseLines ((text ++ ['\n']) :: lines) cnt file =
      if c = '#' then ConfFile.parseLines lines cnt file
      else ConfFile.parseEntry ((text ++ ['\n'] ++ [nul]).set text.length nul) cnt
        file >>= fun file =>
        ConfFile.parseLines lines (cnt + 1) file := by
  obtain ⟨length, newline, -⟩ := line_buffer no_nul
  have head : ((text ++ ['\n'] ++ [nul]).set text.length nul).head? = some c := by
    rw [starts]
    rfl
  rw [ConfFile.parseLines]
  dsimp only
  rw [length, if_neg (Nat.succ_ne_zero _), Nat.add_sub_cancel, newline,
    if_neg (not_not.mpr rfl), head]
  simp only [Option.some_inj]

/-- The loop over the lines of a file, from any line on. -/
theorem parseLines_reads (lines : List ConfLine) (no_nul : ∀ line ∈ lines, nul ∉ line.text)
    (read : file.Read first base entries st ys)
    (older : ∀ evnt ∈ base, evnt < first.eventsAllocated) :
    wp (ConfFile.parseLines (lines.map fun line => line.text ++ ['\n']) entries.length file)
      (fun file' st' => ∃ zs, file'.Read first base (entries ++ confEntries lines) st' zs)
      (fun _ _ => False) st := by
  induction lines generalizing entries file st ys with
  | nil => exact Wp.pure ⟨ys, by simpa [confEntries] using read⟩
  | cons line lines ih =>
      rw [List.forall_mem_cons] at no_nul
      rw [List.map_cons]
      cases line with
      | comment text =>
          rw [parseLines_cons no_nul.1 rfl, if_pos rfl]
          exact ih no_nul.2 read
      | prog entry =>
          obtain ⟨-, -, c, rest, starts, differs⟩ := entry_text entry
          rw [parseLines_cons no_nul.1 starts, if_neg differs]
          refine Wp.bind (parseEntry_reads read older (line_buffer no_nul.1).2.2)
            fun file' st' next => ?_
          obtain ⟨zs, read'⟩ := next
          have later := ih no_nul.2 read'
          rw [List.length_append, List.append_assoc] at later
          exact later

theorem text_no_nul {lines : List ConfLine}
    (comments : ∀ text, .comment text ∈ lines → nul ∉ text) :
    ∀ line ∈ lines, nul ∉ line.text := by
  intro line member
  cases line with
  | prog entry => exact (entry_text entry).2.1
  | comment text =>
      rw [ConfLine.text, List.mem_cons, not_or]
      exact ⟨by decide, comments text member⟩

theorem parseEntry_eq {buff post : List Char} {entry : ProgEntry} (rest : ConfFile → Exec Unit)
    (last : Exec Unit) (cnt : Nat) (same : ∀ file, rest file = last)
    (holds : Holds buff 0 (ConfLine.prog entry).text post) :
    ConfFile.parseEntry buff cnt file >>= rest =
      parseFileLine (entry.conf, cnt) >>= fun _ => last := by
  have parses : ConfFile.parseLine buff = Pure.pure (entry.conf, entry.cmd) :=
    funext fun st => parseLine_entry entry st holds
  have reads (prog : ProgPtr) (m : Exec Unit) : (readProg prog >>= fun _ => m) = m := rfl
  simp only [ConfFile.parseEntry, parseFileLine, parses, bind_assoc, pure_bind, same, reads]

theorem parseLines_eq {lines : List ConfLine} (no_nul : ∀ line ∈ lines, nul ∉ line.text) (cnt : Nat)
    (file : ConfFile) :
    (fun _ => ()) <$> ConfFile.parseLines (lines.map fun line => line.text ++ ['\n']) cnt file =
      (((confEntries lines).map ProgEntry.conf).zipIdx cnt).forM parseFileLine := by
  induction lines generalizing cnt file with
  | nil => rfl
  | cons line lines ih =>
      rw [List.forall_mem_cons] at no_nul
      rw [List.map_cons]
      cases line with
      | comment text =>
          rw [parseLines_cons no_nul.1 rfl, if_pos rfl]
          exact ih no_nul.2 cnt file
      | prog entry =>
          obtain ⟨-, -, c, rest, starts, differs⟩ := entry_text entry
          rw [parseLines_cons no_nul.1 starts, if_neg differs, map_bind]
          exact parseEntry_eq _ _ cnt (fun file => ih no_nul.2 (cnt + 1) file)
            (line_buffer no_nul.1).2.2

theorem fileLines_renderConf {lines : List ConfLine} (fits : ∀ line ∈ lines, line.Fits) :
    fileLines 1023 (renderConf lines) = lines.map fun line => line.text ++ ['\n'] := by
  have each : ∀ text ∈ lines.map ConfLine.text, '\n' ∉ text ∧ text.length < 1023 := by
    rw [List.forall_mem_map]
    exact fits
  have whole := fileLines_flatMap each
  rwa [List.flatMap_map, List.map_map] at whole

/-- A file of lines that fit is read back as its programs, if no comment contains a NUL. -/
theorem parseFile_renderConf (lines : List ConfLine) (st : ExecState) (base : List EvntPtr)
    (fits : ∀ line ∈ lines, line.Fits) (comments : ∀ text, .comment text ∈ lines → nul ∉ text)
    (valid : st.eventsHeap.Valid (affEventLeqUl st.events) base)
    (older : ∀ evnt ∈ base, evnt < st.eventsAllocated) : ReadsBack lines st base := by
  have reads := parseLines_reads lines (text_no_nul comments)
    (ConfFile.Read.start valid fun _ => []) older
  rw [List.nil_append, List.length_nil, ← fileLines_renderConf fits] at reads
  cases run : ConfFile.parseFile (renderConf lines) st with
  | error fault st' => exact ((Wp.of_error run).mp reads).elim
  | ok file st' =>
      obtain ⟨ys, read⟩ := (Wp.of_ok run).mp reads
      refine ⟨file, st', ys, run, read, ys.head?, heapPeek_eq read.valid, ?_, fun evnt isTop => ?_⟩
      · have length := read.gained.length_eq
        rw [List.head?_eq_none_iff, ← List.length_eq_zero_iff, length, List.length_append,
          List.length_range',
          Nat.add_eq_zero_iff, List.length_eq_zero_iff, List.length_eq_zero_iff]
      · have least : ∀ other ∈ ys, affEventLeqUl st'.events evnt other = true := by
          intro other member
          obtain ⟨k, atK⟩ := List.mem_iff_getElem?.mp member
          exact read.valid.ordered.root_least (affEventLeqUl_order _)
            (List.head?_eq_getElem? ▸ isTop) k atK
        refine ⟨List.mem_of_head? isTop, least, fun empty entry member => ?_⟩
        obtain ⟨k, atK⟩ := List.mem_iff_getElem?.mp member
        have inside := (List.getElem?_eq_some_iff.mp atK).1
        have pushed : st.eventsAllocated + k ∈ ys := by
          rw [read.gained.mem_iff, empty, List.nil_append, List.mem_range'_1]
          omega
        have first := least _ pushed
        rw [affEventLeqUl_iff, read.starts k entry atK] at first
        dsimp only at first
        omega

/-- The state after reading the file is that after the programs of the file were given. -/
theorem parseFile_eq (lines : List ConfLine) (fits : ∀ line ∈ lines, line.Fits)
    (comments : ∀ text, .comment text ∈ lines → nul ∉ text) :
    (fun _ => ()) <$> ConfFile.parseFile (renderConf lines) = parseFile
    ((confEntries lines).map ProgEntry.conf) := by
  have no_nul := text_no_nul comments
  rw [ConfFile.parseFile, fileLines_renderConf fits]
  exact parseLines_eq no_nul 0 _

/-- The line of a program with an argument that starts after five seconds. -/
def ProgEntry.later : ProgEntry :=
  ⟨1, 2, 3, -4, 5, ['l', 's', ' ', 'x'], by decide, by simp [nul]⟩

/-- The line of a program that starts after three seconds. -/
def ProgEntry.sooner : ProgEntry :=
  ⟨2, 0, 0, 0, 3, ['l', 's'], by decide, by simp [nul]⟩

/-- Two programs with a comment between them, the second of which starts first. -/
theorem parseFile_renderConf_two :
    ReadsBack [.prog .later, .comment [' ', 'x'], .prog .sooner] (.start .still [0]) [] := by
  refine parseFile_renderConf _ _ _ ?_ ?_ (heapInit_valid _) (by simp)
  · simp only [List.forall_mem_cons]
    exact ⟨⟨by decide +kernel, by decide +kernel⟩, ⟨by decide, by decide⟩,
      ⟨by decide +kernel, by decide +kernel⟩, by simp⟩
  · intro text member
    obtain rfl : text = [' ', 'x'] := by simpa using member
    decide

/-- A comment that contains a NUL is taken for a line that is too long. -/
theorem parseFile_nul : ¬ ∀ (lines : List ConfLine) (st : ExecState) (base : List EvntPtr),
      (∀ line ∈ lines, line.Fits) →
      st.eventsHeap.Valid (affEventLeqUl st.events) base →
        (∀ evnt ∈ base, evnt < st.eventsAllocated) →
        ReadsBack lines st base := by
  intro reads
  have fits : ∀ line ∈ [ConfLine.comment [nul]], line.Fits := by
    rw [List.forall_mem_singleton]
    exact ⟨by decide, by decide⟩
  obtain ⟨file, st', ys, run, -⟩ :=
    reads [.comment [nul]] (.start .still [0]) [] fits (heapInit_valid _) (by simp)
  cases run

end File

end BachScheduler
