import Clausal.Proofs.Command.Observation
import Clausal.Proofs.Solver.Alarm
import Clausal.Proofs.Solver.Rearrangement
import Clausal.Proofs.Sudoku.Notation
import Clausal.Proofs.Sudoku.Solve

namespace Clausal.Command

open Text Sudoku

/-- Options that make the same search without a time limit and differ at most in
    what is checked and reported. -/
structure SolveOptions.SameSearch (options options' : SolveOptions) : Prop where
  unlimited : options.timeout = 0
  unlimited' : options'.timeout = 0
  noPreprocess : options.noPreprocess = options'.noPreprocess

/-- The jobs that solve something, each for any options. -/
inductive Solving : (SolveOptions → Job) → Prop
  | formula (path : Option String) : Solving (.solve path)
  | puzzles (path : String) (writeFormulas : Bool) : Solving (.sudoku path writeFormulas)
  | directory (path : String) : Solving (.dir path)

section Checks

variable {options : Solver.Options} {interrupt : Solver.Interrupt} {f : Formula} {log : Log}
  {s : Solution}

/-- The check of a solution that a solve has found does not fail. -/
theorem verifySolution_of_solve (h : (Solver.solve options interrupt f log).result = .ok s)
    (label : String) : verifySolution f s label = .ok (.modelVerified label s.verdict) := by
  have hf := Solver.wellFormed_of_solve h
  by_cases hverdict : s.verdict = .satisfiable
  · have hverify := (Solver.Answers.of_solve hf h).verify hf hverdict
    rw [verifySolution, if_pos hverdict, hverify]
    rfl
  · rw [verifySolution, if_neg hverdict]
    rfl

/-- The board that a solution of a puzzle stands for is written whether it is
    checked or not. -/
theorem exists_printSolved_eq {σ : Type} (h : Host (StateM σ)) {p : Puzzle} (hp : p.WellFormed)
    (hformula : p.toFormula = .ok f)
    (hsolve : (Solver.solve options interrupt f log).result = .ok s) (label : String) :
    ∃ text, ∀ options, printSolved h p options label s = liftM (h.print text) := by
  simp only [printSolved]
  cases hverdict : s.verdict with
  | unsatisfiable => exact ⟨_, fun _ => rfl⟩
  | unknown => exact ⟨_, fun _ => rfl⟩
  | satisfiable =>
    obtain ⟨t, hdecode, hsolved⟩ := Puzzle.decode_of_solve hp hformula hsolve hverdict
    refine ⟨"Solution:\n" ++ t.render ++ "\n", fun options => ?_⟩
    simp only [hdecode, demandSound, pure_bind, hsolved.solved, ite_self]

end Checks

section Commands

variable {σ φ α : Type} {view : σ → Scene φ} {h : Host (StateM σ)}

/-- Passing on events leaves no trace in what shows. -/
theorem yields_passOn (hh : h.Lawful view) (log : Log) :
    Yields view (passOn h log) (.ok ()) :=
  .bind (.forIn fun e _ => .after (hh.emit e) fun _ => .pure view _) (.pure view ())

/-- Work that reports events ends with its value. -/
theorem yields_withEvents (hh : h.Lawful view) (work : Log → α × Log) :
    Yields view (withEvents h work) (.ok (work (.empty (some .trace))).1) :=
  .bind (yields_passOn hh _) (.pure view _)

/-- Encoding a puzzle ends with its formula or with the error of the encoder. -/
theorem yields_encodePuzzle (hh : h.Lawful view) (p : Puzzle) :
    Yields view (encodePuzzle h p) (p.toFormula.mapError (Failure.map .sudoku)) := by
  rw [encodePuzzle, ← p.toFormulaLogged_fst (.empty (some .trace))]
  exact .bind (yields_withEvents hh _) (.demandSound view _ _)

/-- A time limit of 0 is none, and the clock is not read for it. -/
theorem yields_setAlarm (view : σ → Scene φ) (h : Host (StateM σ)) :
    Yields view (setAlarm h 0) (.ok .silent) :=
  .pure view Solver.Alarm.silent

/-- Without a time limit the alarm never rings, so the solver gives its answer. -/
theorem exists_yields_solveUntil (hh : h.Lawful view) (options : Solver.Options) (f : Formula) :
    ∃ stats, Yields view (solveUntil h .silent options f)
      (.ok ((Solver.solve options .never f (.empty none)).result, stats)) := by
  obtain ⟨result, stats, huniform⟩ := Solver.solve_uniform options .never f
  obtain ⟨_, hempty⟩ := huniform (.empty none)
  refine ⟨stats, .after hh.threshold fun s => ?_⟩
  obtain ⟨log, hlog⟩ := huniform (.empty (h.threshold.run s).1)
  have hsolve : Solver.solveWith (fun _ => Solver.Alarm.silent.rings h.now) options f
      (.empty (h.threshold.run s).1) = pure ⟨result, stats, log⟩ := by
    funext t
    rw [← hlog]
    exact Solver.solveWith_quiet options f _ t
  rw [hsolve, hempty]
  exact .bind (.pure view _) (.bind (yields_passOn hh log) (.pure view _))

/-- A solve without a time limit ends with the answer of the solver, whatever is
    checked and reported. -/
theorem yields_solveAndReport (hh : h.Lawful view) {options : SolveOptions}
    (htimeout : options.timeout = 0) (f : Formula) (label : String) (parseTime : Nat) :
    Yields view (solveAndReport h f options label parseTime)
      ((Solver.solve { preprocess := !options.noPreprocess } .never f
        (.empty none)).result.mapError (Failure.map .structural)) := by
  obtain ⟨stats, hsolve⟩ := exists_yields_solveUntil hh { preprocess := !options.noPreprocess } f
  rw [solveAndReport, htimeout]
  refine .after (hh.emit _) fun _ => .after hh.now fun s => ?_
  refine .bind (yields_setAlarm view h) (.bind hsolve ?_)
  generalize hanswer : (Solver.solve { preprocess := !options.noPreprocess } .never f
    (.empty none)).result = result
  cases result with
  | error failure => exact .throw view _
  | ok solution =>
    refine .bind (.pure view solution) (.after hh.now fun s' => ?_)
    -- Each report on the side goes on with the next, so the last comes first.
    extract_lets solveTime finish printModel printStatistics
    have hmodel : Yields view (printModel ()) (.ok solution) := by
      refine .ite ?_ (.pure view solution)
      cases solution.model? with
      | some model => exact .after (hh.report _) fun _ => .pure view solution
      | none => exact .pure view solution
    have hstatistics : Yields view (printStatistics ()) (.ok solution) :=
      .ite (.after hh.memory fun _ => .after (hh.report _) fun _ => hmodel) hmodel
    refine .after (hh.report _) fun _ => ?_
    rw [verifySolution_of_solve hanswer]
    exact .ite (.bind (.pure view _) (.after (hh.emit _) fun _ => hstatistics)) hstatistics

section Pairs

variable {options options' : SolveOptions}

/-- What can be opened does not depend on what has been reported. -/
theorem indistinguishable_openInput (hh : h.Lawful view) (path : Option String) :
    Indistinguishable view (fun _ => True) (openInput h path) (openInput h path) := by
  apply (Indistinguishable.of_determined (hh.read path)).bind
  intro opened _
  exact (Indistinguishable.demand view nofun opened).weaken

/-- Reading a formula shows nothing and blames no model. -/
theorem indistinguishable_readFormula (hh : h.Lawful view) (source : Source) :
    Indistinguishable view (fun _ => True) (readFormula h source) (readFormula h source) := by
  have hyields : Yields view (readFormula h source) _ :=
    .bind (yields_withEvents hh (Dimacs.parseLogged source)) (.demand view .dimacs _)
  exact (Indistinguishable.of_yields hyields hyields (blameless_mapError nofun _)).weaken

/-- Encoding a puzzle shows nothing and blames no model. -/
theorem indistinguishable_encodePuzzle (hh : h.Lawful view) (p : Puzzle) :
    Indistinguishable view (p.toFormula = .ok ·) (encodePuzzle h p) (encodePuzzle h p) :=
  .of_yields (yields_encodePuzzle hh p) (yields_encodePuzzle hh p)
    (blameless_mapError (map_ne_verification nofun) _)

/-- What a solve checks and reports does not show, and the solution passes the check. -/
theorem indistinguishable_solveAndReport (hh : h.Lawful view) (ho : options.SameSearch options')
    (f : Formula) (label : String) (parseTime parseTime' : Nat) :
    Indistinguishable view
      ((Solver.solve { preprocess := !options.noPreprocess } .never f (.empty none)).result = .ok ·)
      (solveAndReport h f options label parseTime)
      (solveAndReport h f options' label parseTime') := by
  have hyields := yields_solveAndReport hh ho.unlimited f label parseTime
  have hyields' := yields_solveAndReport hh ho.unlimited' f label parseTime'
  rw [← ho.noPreprocess] at hyields'
  exact .of_yields hyields hyields' (blameless_mapError (map_ne_verification nofun) _)

/-- A puzzle is printed, encoded and solved alike under both options. -/
theorem indistinguishable_solvePuzzle (hh : h.Lawful view) (ho : options.SameSearch options')
    {p : Puzzle} (hp : p.WellFormed) (path : String) (writeFormulas : Bool)
    (readTime readTime' number : Nat) :
    Indistinguishable view (fun _ => True)
      (solvePuzzle h path writeFormulas options readTime p number)
      (solvePuzzle h path writeFormulas options' readTime' p number) := by
  unfold solvePuzzle
  have hprint (text : String) := Indistinguishable.of_determined (hh.determined_print text)
  -- The clocks of the two runs need not agree, and then the times for reading differ too.
  refine .bind (hprint _) fun _ _ => .after hh.now fun _ _ => ?_
  refine .bind (indistinguishable_encodePuzzle hh p) fun f hformula => .after hh.now fun _ _ => ?_
  extract_lets parseTime label finish target parseTime' finish'
  have hfinish : Indistinguishable view (fun _ => True) (finish ()) (finish' ()) := by
    apply (indistinguishable_solveAndReport hh ho f label parseTime parseTime').bind
    intro s hsolve
    obtain ⟨text, htext⟩ := exists_printSolved_eq h hp hformula hsolve label
    rw [htext, htext]
    exact hprint text
  refine .ite ?_ hfinish
  refine .bind (.of_determined (hh.write target f.render)) fun written _ => ?_
  exact .bind (.demand view nofun written) fun _ _ => .bind (hprint _) fun _ _ => hfinish

/-- The puzzles of a file are solved alike, one after the other. -/
theorem indistinguishable_solvePuzzles (hh : h.Lawful view) (ho : options.SameSearch options')
    (path : String) (writeFormulas : Bool) :
    Indistinguishable view (fun _ => True) (solvePuzzles h path writeFormulas options)
      (solvePuzzles h path writeFormulas options') := by
  unfold solvePuzzles
  refine .after hh.now fun _ _ => .bind (indistinguishable_openInput hh _) fun source _ => ?_
  refine .bind (.demandSound view nofun (Puzzle.readAll source)) fun puzzles hread => ?_
  refine .after hh.now fun _ _ => ?_
  extract_lets readTime finish readTime' finish'
  refine .ite (.bind (.throw view nofun) fun _ => False.elim) ?_
  refine .bind (.forIn ?_ ()) fun _ _ => .pure view trivial
  rintro ⟨p, number⟩ hmem _
  have hp := Puzzle.wellFormed_of_readAll hread p (List.fst_mem_of_mem_zipIdx hmem)
  exact .bind (indistinguishable_solvePuzzle hh ho hp path writeFormulas readTime readTime' number)
    fun _ _ => .pure view trivial

/-- A formula is read and solved alike, and its solution printed. -/
theorem indistinguishable_solveFormula (hh : h.Lawful view) (ho : options.SameSearch options')
    (path : Option String) :
    Indistinguishable view (fun _ => True) (solveFormula h path options)
      (solveFormula h path options') := by
  unfold solveFormula
  refine .after hh.now fun _ _ => .bind (indistinguishable_openInput hh path) fun source _ => ?_
  refine .bind (indistinguishable_readFormula hh source) fun f _ => .after hh.now fun _ _ => ?_
  refine .bind (indistinguishable_solveAndReport hh ho f _ _ _) fun s _ => ?_
  exact .of_determined (hh.determined_print s.render)

/-- A file of a directory is treated alike, whatever its name ends in. -/
theorem indistinguishable_solveFile (hh : h.Lawful view) (ho : options.SameSearch options')
    (path : String) :
    Indistinguishable view (fun _ => True) (solveFile h path options)
      (solveFile h path options') := by
  unfold solveFile
  split
  · exact indistinguishable_solvePuzzles hh ho path false
  · refine .after hh.now fun _ _ => .bind (.of_determined (hh.read _)) fun opened _ => ?_
    refine .bind (.demand view nofun opened) fun source _ => ?_
    refine .bind (indistinguishable_readFormula hh source) fun f _ => .after hh.now fun _ _ => ?_
    refine .bind (indistinguishable_solveAndReport hh ho f path _ _) fun s _ => ?_
    exact .of_determined (hh.determined_print _)
  · exact .of_determined (hh.emit _).determined

/-- The files below a directory are treated alike, one after the other. -/
theorem indistinguishable_solveDirectory (hh : h.Lawful view) (ho : options.SameSearch options')
    (path : String) :
    Indistinguishable view (fun _ => True) (solveDirectory h path options)
      (solveDirectory h path options') := by
  unfold solveDirectory
  refine .bind (.of_determined (hh.isDirectory path)) fun _ _ => ?_
  refine .ite (.bind (.throw view nofun) fun _ => False.elim) ?_
  refine .bind (.of_determined (hh.filesBelow path)) fun files _ => ?_
  refine .bind (.forIn ?_ ()) fun _ _ => .pure view trivial
  intro file _ _
  exact .bind (indistinguishable_solveFile hh ho file) fun _ _ => .pure view trivial

/-- What a job that solves checks and reports on the side makes no difference to how
    it ends, to its output and to the files it leaves, and no model that it finds
    fails a check. -/
theorem run_independent_of_reports (hh : h.Lawful view) {job : SolveOptions → Job}
    (hjob : Solving job) (ho : options.SameSearch options') {s t : σ} (hview : view s = view t) :
    ((run h (job options)).run.run s).1 = ((run h (job options')).run.run t).1 ∧
      view ((run h (job options)).run.run s).2 = view ((run h (job options')).run.run t).2 ∧
      ∀ label, ((run h (job options)).run.run s).1 ≠ .error (.error (.verification label)) := by
  have hrun : Indistinguishable view (fun _ => True) (run h (job options))
      (run h (job options')) := by
    cases hjob with
    | formula path => exact indistinguishable_solveFormula hh ho path
    | puzzles path writeFormulas => exact indistinguishable_solvePuzzles hh ho path writeFormulas
    | directory path => exact indistinguishable_solveDirectory hh ho path
  obtain ⟨hresult, hblameless, hscene⟩ := hrun s t hview
  refine ⟨hresult, hscene, fun label hverification => ?_⟩
  rw [hverification] at hblameless
  exact hblameless label rfl

/-- Two puzzles of which one has a solution, solved with every check and report on a
    host that logs everything, and with none on a host that logs nothing. -/
theorem run_independent_of_reports_of_two_puzzles :
    let text := "# two\n2 1-0-0-0-0-0-3-0-0-4-0-0-0-0-0-2\n2 1-2-3-0-0-0-0-4-0-0-0-0-0-0-0-0\n"
    let files : FileTree := ⟨[(["two"], text)]⟩
    let ended := (MemoryHost.start files [] (.empty (some .trace))).run
      (.sudoku "two" true { verify := true, stats := true, printSolution := true })
    let ended' := (MemoryHost.start files [] (.empty none)).run (.sudoku "two" true {})
    files.read "two" = .ok (.ofString text) ∧
      (Puzzle.readAll (.ofString text)).map List.length = .ok 2 ∧
      ended.1 = ended'.1 ∧ ended.2.output = ended'.2.output ∧
      ∀ label, ended.1 ≠ .error (.error (.verification label)) := by
  intro text files ended ended'
  have hread : files.read "two" = .ok (.ofString text) := by
    have hnames : FileTree.names "two" = ["two"] := by decide +kernel
    have hend : FileTree.endsInDirectory "two" = false := by decide +kernel
    have hstart : ("two".isEmpty || "two".startsWith "/") = false := by decide +kernel
    simp [FileTree.read, FileTree.find, hnames, hend, hstart, FileTree.follow,
      FileTree.isDirectory, FileTree.text?, files]
  have ho : SolveOptions.SameSearch { verify := true, stats := true, printSolution := true } {} :=
    ⟨rfl, rfl, rfl⟩
  have hscene : (MemoryHost.start files [] (.empty (some .trace))).scene =
    (MemoryHost.start files [] (.empty none)).scene := rfl
  obtain ⟨hresult, hview, hverification⟩ := run_independent_of_reports MemoryHost.host_lawful
    (.puzzles "two" true) ho hscene
  exact ⟨hread, by decide +kernel, hresult, congrArg Scene.output hview, hverification⟩

end Pairs

end Commands

end Clausal.Command
