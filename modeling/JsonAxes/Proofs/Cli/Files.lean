import JsonAxes.Outer.Host
import JsonAxes.Proofs.Cli.File
import Mathlib.Data.List.Basic

/-!
# Files apart from each other

What a run makes of several files is what runs make of each of them alone, one after the other
(`run_eq_alone`): what they print and their messages. Only the names in front of counts and the
closing message depend on how many files there are.

One more file adds what comes of it, whatever came of those in front (`Run.Tally.add`), and so a run
over files is put together from what comes of each (`Run.tally_eq`). Nothing is asked of the host,
but that the command lines of the single runs are read as they are meant.
-/

set_option autoImplicit false

namespace JsonAxes.Cli

/-- The same arguments with one file. -/
def Arguments.withFile (args : Arguments) (name : String) : Arguments :=
  { args with files := [name], files_ne_nil := List.cons_ne_nil name [] }

/-- The messages of a run without the closing message of one that failed. -/
def Outcome.ownMessages (o : Outcome) : List Message :=
  if o.exit = 0 then o.messages else o.messages.dropLast

namespace Run

variable (r : Run) (host : Host)

/-! ## File by file -/

/-- What comes of files behind others is what came of the others and of each of these. -/
theorem tally_eq (t : Tally) (names : List String) :
    r.tally host t names
      = ⟨t.stdout ++ String.join (names.map fun name => (r.file host name).stdout),
          t.messages ++ names.flatMap (fun name => (r.file host name).messages),
          t.failed + names.countP fun name => (r.file host name).failed⟩ := by
  induction names generalizing t with
  | nil => simp [tally, String.join]
  | cons name names ih =>
      rw [tally, ih]
      cases hfailed : (r.file host name).failed <;>
        simp [Tally.add, hfailed, String.append_assoc, Nat.add_assoc, Nat.add_comm 1]

/-- What a run leaves of files, put together from what comes of each. -/
theorem files_eq (names : List String) {failed : Nat}
    (hfailed : failed = names.countP fun name => (r.file host name).failed) :
    r.files host names
      = ⟨if failed = 0 then 0 else 1,
          String.join (names.map fun name => (r.file host name).stdout),
          names.flatMap (fun name => (r.file host name).messages)
            ++ if failed = 0 then [] else [summary failed names.length]⟩ := by
  rw [files, tally_eq]
  simp only [Tally.start, String.empty_append, List.nil_append, Nat.zero_add, ← hfailed]
  split <;> simp

/-! ## One file alone -/

variable (name : String)

/-- What a run leaves of one file alone. -/
theorem files_singleton :
    r.files host [name]
      = ⟨if (r.file host name).failed then 1 else 0, (r.file host name).stdout,
          (r.file host name).messages
            ++ if (r.file host name).failed then [summary 1 1] else []⟩ := by
  rw [files_eq r host [name] rfl]
  cases hfailed : (r.file host name).failed <;> simp [hfailed]

theorem exit_files_singleton_eq_zero_iff :
    (r.files host [name]).exit = 0 ↔ (r.file host name).failed = false := by
  rw [files_singleton]
  cases (r.file host name).failed <;> simp

/-- The messages of one file alone are its own, and one that it failed. -/
theorem messages_files_singleton :
    (r.files host [name]).ownMessages = (r.file host name).messages
    ∧ (r.files host [name]).messages = (r.files host [name]).ownMessages
      ++ (if (r.files host [name]).exit = 0 then [] else [summary 1 1]) := by
  rw [files_singleton, Outcome.ownMessages]
  cases (r.file host name).failed <;> simp

/-- In a run that arguments ask for, names stand in front of counts where there are several
files. -/
theorem lead_ofArguments (args : Arguments) (settings : Settings) (path : Path) :
    (ofArguments args settings path).lead name
      = if args.count = true ∧ 1 < args.files.length then name ++ ": " else "" := by
  rw [lead]
  simp [ofArguments, And.comm]

end Run

/-! ## All files -/

/-- A run of arguments that have been read, with their settings and their path. -/
theorem run_eq_files (host : Host) {argv : List String} {args : Arguments}
    (hargs : host.arguments argv = .ok args) {settings : Settings}
    (hsettings : host.settings args.config = .ok settings) {path : Path}
    (hpath : Path.ofText? args.path = .ok path) :
    run host argv = (Run.ofArguments args settings path).files host args.files := by
  rw [run, hargs]
  simp only [runArguments, hsettings, hpath]

/-- **Files are queried apart from each other.** Let a command line be read, and its settings and
its path, and let there be for each file a command line that asks for the same of this file alone.
What the run prints and its messages are those of the runs on each file alone, in the order of the
files and as often as they are named, but for the names in front of counts, if there are several
files, and for one closing message in place of those of the single runs. The run fails if one of the
single runs does. -/
theorem run_eq_alone (host : Host) {argv : List String} {args : Arguments}
    (hargs : host.arguments argv = .ok args) (alone : String → List String)
    (halone : ∀ name ∈ args.files, host.arguments (alone name) = .ok (args.withFile name))
    {settings : Settings} (hsettings : host.settings args.config = .ok settings) {path : Path}
    (hpath : Path.ofText? args.path = .ok path) :
    let single (name : String) : Outcome := run host (alone name)
    let label (name : String) : String :=
      if args.count = true ∧ 1 < args.files.length ∧ (single name).exit = 0 then name ++ ": "
      else ""
    let failed := args.files.countP fun name => (single name).exit ≠ 0
    (∀ name ∈ args.files,
      (single name).messages
        = (single name).ownMessages ++ (if (single name).exit = 0 then [] else [Run.summary 1 1])
      ∧ (args.count = true → (single name).exit ≠ 0 → (single name).stdout = ""))
    ∧ (run host argv).stdout
        = String.join (args.files.map fun name => label name ++ (single name).stdout)
    ∧ (run host argv).messages = args.files.flatMap (fun name => (single name).ownMessages)
        ++ (if failed = 0 then [] else [Run.summary failed args.files.length])
    ∧ (run host argv).exit = if failed = 0 then 0 else 1 := by
  intro single label failed
  let r := Run.ofArguments args settings path
  -- alone, a file is queried by the same run without names at its counts
  have hsingle : ∀ name ∈ args.files, single name = r.unlabelled.files host [name] :=
    fun name hname => run_eq_files host (halone name hname) hsettings hpath
  have hexit : ∀ name ∈ args.files,
      (single name).exit = 0 ↔ (r.unlabelled.file host name).failed = false := by
    intro name hname
    rw [hsingle name hname, Run.exit_files_singleton_eq_zero_iff]
  have hfailed : failed = args.files.countP fun name => (r.file host name).failed := by
    refine List.countP_congr fun name hname => ?_
    rw [r.file_eq host name, FileOutcome.failed_behind, decide_eq_true_iff, ne_eq,
      hexit name hname, Bool.not_eq_false]
  have hstdout : ∀ name ∈ args.files,
      (r.file host name).stdout = label name ++ (single name).stdout := by
    intro name hname
    rw [hsingle name hname, Run.files_singleton, r.file_eq, FileOutcome.stdout_behind,
      Run.lead_ofArguments]
    simp only [label, hexit name hname]
    cases (r.unlabelled.file host name).failed <;> simp
  have hmessages : ∀ name ∈ args.files,
      (r.file host name).messages = (single name).ownMessages := by
    intro name hname
    rw [hsingle name hname, (r.unlabelled.messages_files_singleton host name).1, r.file_eq,
      FileOutcome.messages_behind]
  have hrun : run host argv = r.files host args.files := run_eq_files host hargs hsettings hpath
  rw [hrun, r.files_eq host args.files hfailed]
  refine ⟨fun name hname => ⟨?_, fun hcount hne => ?_⟩, ?_, ?_, rfl⟩
  · rw [hsingle name hname]
    exact (r.unlabelled.messages_files_singleton host name).2
  · have hgather : (r.unlabelled.json || r.unlabelled.count) = true :=
      Bool.or_eq_true_iff.mpr (.inr hcount)
    rw [hsingle name hname, Run.files_singleton]
    refine r.unlabelled.stdout_of_failed hgather ?_
    rwa [← Bool.not_eq_false, ← hexit name hname]
  · exact congrArg String.join (List.map_congr_left hstdout)
  · rw [List.flatMap_congr hmessages]

/-- A file with two numbers, one that breaks off, and no others. -/
def twoFiles : Outer.Files := fun name =>
  if name = "a.json" then .ok "[1, 2]".toUTF8.toList
  else if name = "b.json" then .ok "[1,".toUTF8.toList
  else .error .notFound

/-- Arguments that name one of the files twice, the other once, and one that is missing. -/
def fourCounts : Arguments where
  config := Arguments.defaultConfig
  ascii := false
  pretty := false
  count := true
  json := false
  path := "child::*"
  files := ["a.json", "b.json", "c.json", "a.json"]
  exclusive := Run.exclusive_of_not_json true
  files_ne_nil := by decide

theorem run_eq_alone_twoFiles :
    let host := Outer.host twoFiles
    let argv := ["--count", "child::*", "a.json", "b.json", "c.json", "a.json"]
    (host.arguments argv = .ok fourCounts
      ∧ (∀ name ∈ fourCounts.files,
        host.arguments ["--count", "child::*", name] = .ok (fourCounts.withFile name))
      ∧ host.settings fourCounts.config = .ok .default
      ∧ Path.ofText? fourCounts.path = .ok (Path.empty.step .child "*"))
    ∧ (run host argv).stdout = "a.json: 2
a.json: 2
"
    ∧ (run host argv).exit = 1 := by
  intro host argv
  have hargs : host.arguments argv = .ok fourCounts := by decide
  have halone : ∀ name ∈ fourCounts.files,
      host.arguments ["--count", "child::*", name] = .ok (fourCounts.withFile name) := by
    decide
  have hsettings : host.settings fourCounts.config = .ok .default := by decide
  have hpath : Path.ofText? fourCounts.path = .ok (Path.empty.step .child "*") := by
    decide +kernel
  obtain ⟨-, hstdout, -, hexit⟩ :=
    run_eq_alone host hargs (fun name => ["--count", "child::*", name]) halone hsettings hpath
  let r := Run.ofArguments (fourCounts.withFile "a.json") .default (Path.empty.step .child "*")
  have hsingle : ∀ name ∈ fourCounts.files, run host ["--count", "child::*", name]
      = ⟨if (r.file host name).failed then 1 else 0, (r.file host name).stdout,
          (r.file host name).messages
            ++ if (r.file host name).failed then [Run.summary 1 1] else []⟩ := by
    intro name hname
    rw [run_eq_files host (halone name hname) hsettings hpath]
    exact r.files_singleton host name
  -- only the first file is searched
  have hcounted : r.file host "a.json" = ⟨"2\n", [], none⟩ := by
    rw [r.file_of_run (by decide +kernel) (n := 10) rfl (by decide +kernel)]
    decide +kernel
  have hbroken : (r.file host "b.json").failed = true ∧ (r.file host "b.json").stdout = "" := by
    decide +kernel
  have hmissing : (r.file host "c.json").failed = true ∧ (r.file host "c.json").stdout = "" := by
    decide
  have ha := hsingle "a.json" (by decide)
  have hb := hsingle "b.json" (by decide)
  have hc := hsingle "c.json" (by decide)
  rw [hcounted] at ha
  rw [hbroken.1, hbroken.2] at hb
  rw [hmissing.1, hmissing.2] at hc
  refine ⟨⟨hargs, halone, hsettings, hpath⟩, hstdout.trans ?_, hexit.trans ?_⟩
  · simp [fourCounts, ha, hb, hc, FileOutcome.failed]
  · simp [fourCounts, ha, hb, hc, FileOutcome.failed]

end JsonAxes.Cli
