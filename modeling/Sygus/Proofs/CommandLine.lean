import Sygus.CommandLine
import Sygus.Proofs.Arithmetic.Syntax
import Sygus.Proofs.Hosting
import Sygus.Proofs.Languages

/-!
# What a call of the program comes to

From the outside there is a file, an exit code and a line of output. A call that asks for a program
exits with zero only if it prints one, on a line of its own, that belongs to conditional arithmetic
and is right on every example of the file (`answer_outcome`). This brings together what is
known of each stage: the file has been read as these examples, the search works on them as they
are, the host returns what the search has found at whatever moment it was stopped, and the text of
a program of this grammar has no line feed in it.
-/

namespace Sygus

open Term (Derives)

/-! ## The text of a program is one line -/

theorem Term.newline_not_mem_textOfRest {ts : List Term} (h : ∀ t ∈ ts, '\n' ∉ t.text.toList) :
    '\n' ∉ (textOfRest ts).toList := by
  induction ts with
  | nil => decide
  | cons t ts ih =>
      have ⟨ht, hts⟩ := List.forall_mem_cons.mp h
      simp [textOfRest, ht, ih hts]

theorem Term.newline_not_mem_op {name : String} {ts : List Term} (hname : '\n' ∉ name.toList)
    (h : ∀ t ∈ ts, '\n' ∉ t.text.toList) : '\n' ∉ (op name ts).text.toList := by
  cases ts with
  | nil => exact hname
  | cons t ts =>
      have ⟨ht, hts⟩ := List.forall_mem_cons.mp h
      simp [op, text, Symbol.name, hname, ht, newline_not_mem_textOfRest hts]

namespace Arithmetic

mutual

theorem Expr.newline_not_mem (e : Expr) : '\n' ∉ e.term.text.toList := by
  cases e with
  | ite c this other =>
      exact Term.newline_not_mem_op (by decide)
        (by simp [c.newline_not_mem, this.newline_not_mem, other.newline_not_mem])
  | add l r =>
      exact Term.newline_not_mem_op (by decide) (by simp [l.newline_not_mem, r.newline_not_mem])
  | multiply l r =>
      exact Term.newline_not_mem_op (by decide) (by simp [l.newline_not_mem, r.newline_not_mem])
  | var v => cases v <;> decide
  | numeral n => cases n <;> decide

theorem Cond.newline_not_mem (c : Cond) : '\n' ∉ c.term.text.toList := by
  cases c with
  | lt l r =>
      exact Term.newline_not_mem_op (by decide) (by simp [l.newline_not_mem, r.newline_not_mem])
  | eq l r =>
      exact Term.newline_not_mem_op (by decide) (by simp [l.newline_not_mem, r.newline_not_mem])
  | and l r =>
      exact Term.newline_not_mem_op (by decide) (by simp [l.newline_not_mem, r.newline_not_mem])
  | or l r =>
      exact Term.newline_not_mem_op (by decide) (by simp [l.newline_not_mem, r.newline_not_mem])
  | not c => exact Term.newline_not_mem_op (by decide) (by simp [c.newline_not_mem])

end

end Arithmetic

/-! ## What the searches find -/

/-- Whatever the strategy, and at whatever moment the flag goes up, a program that a run has found is
an expression of conditional arithmetic and right on every example. -/
theorem Settings.solves_of_run {settings : Settings} {examples : List Example} {stop : Stop}
    {fuel : Nat} {r : Run} {p : Program}
    (h : settings.run ⟨.arithmetic, examples⟩ stop fuel = some r) (hp : r.result = .ok (some p)) :
    Derives .arithmetic (.nonTerminal "E") p.root ∧
      ∀ e ∈ examples, p.evaluate e.input = .ok e.output := by
  have breadthFirst : ∀ {m : Manner} {bound : Option Nat},
      BreadthFirst.run m ⟨.arithmetic, examples⟩ bound stop fuel = some r →
      Derives .arithmetic (.nonTerminal "E") p.root ∧
        ∀ e ∈ examples, p.evaluate e.input = .ok e.output := by
    intro m bound h
    have hfound := BreadthFirst.met_and_isValid_of_search h (BreadthFirst.met_initial _ bound) hp
    exact ⟨BreadthFirst.derives_of_run h hp, isValid_iff.mp hfound.2⟩
  obtain ⟨strategy, recalls, bound⟩ := settings
  cases strategy with
  | topDown => exact breadthFirst h
  | constraintBased => exact breadthFirst h
  | divideAndConquer =>
      -- the branching that the search builds its trees with is in this grammar already
      have hbranching : .branching ∈ Grammar.arithmetic.productions := by decide
      have hderives := DivideAndConquer.derives_withBranching_of_run h hp
      exact ⟨hderives.mono (withBranching_subset hbranching),
        DivideAndConquer.evaluate_of_run h hp⟩

namespace CommandLine

variable {args : List String} {file : String} {call : Invocation} {examples : List Example}
  {contents : Option ByteArray} {job : Job} {a : Except Fault Host.Report} {response : Response}
  {report : Host.Report} {p : Program}

/-! ## Files -/

/-- The file can be read, it is text, and the text is that of these examples. -/
def Holds (contents : Option ByteArray) (examples : List Example) : Prop :=
  ∃ bytes text, contents = some bytes ∧ String.fromUTF8? bytes = some text ∧
    Example.readAll text = .ok examples

theorem fromUTF8?_toUTF8 (s : String) : String.fromUTF8? s.toUTF8 = some s :=
  dif_pos s.isValidUTF8

/-- What is run for a call on these examples. -/
def Invocation.jobFor (call : Invocation) (examples : List Example) : Job where
  settings := { strategy := call.strategy.getD .topDown, bound := call.bound }
  problem := ⟨.arithmetic, examples⟩
  timeout := call.timeout
  logLevel := call.logLevel.getD (some .warn)

theorem Holds.prepare_eq (h : Holds contents examples)
    (hstrategy : call.strategy.getD .topDown ≠ .constraintBased) :
    prepare call contents = .ok (call.jobFor examples) := by
  obtain ⟨bytes, text, rfl, htext, hread⟩ := h
  simp only [prepare, htext, hread]
  rfl

/-- A file that is of no use for examples is answered with a complaint. -/
theorem exists_failed_of_not_holds (call : Invocation) (h : ∀ examples, ¬ Holds contents examples) :
    ∃ complaint, prepare call contents = .error (failed complaint) := by
  cases hcontents : contents with
  | none => exact ⟨_, rfl⟩
  | some bytes =>
      cases htext : String.fromUTF8? bytes with
      | none => exact ⟨_, by simp only [prepare, htext]; rfl⟩
      | some text =>
          cases hread : Example.readAll text with
          | error e => exact ⟨_, by simp only [prepare, htext, hread]; rfl⟩
          | ok examples => exact absurd ⟨bytes, text, hcontents, htext, hread⟩ (h examples)

/-! ## Jobs -/

/-- What a host may answer to a job: without a timeout, what the run comes to when nobody raises the
flag; with a timeout, what a caller may return in any order of the steps of worker, caller and
clock. -/
def Hosted (job : Job) (a : Except Fault Host.Report) : Prop :=
  match job.timeout with
  | none => ∃ fuel, Host.run job.settings job.problem none fuel = some a
  | some _ => ∃ s timedOut, Host.Reachable job.settings job.problem s ∧
      s.caller = .returned timedOut a

/-- A deadline that is a number of looks is one way to host a job with a timeout. -/
theorem hosted_of_run {deadline : Option Nat} {fuel : Nat}
    (h : Host.run job.settings job.problem deadline fuel = some a)
    (hdeadline : job.timeout = none → deadline = none) : Hosted job a := by
  rw [Hosted]
  split
  · rename_i htimeout
    obtain rfl := hdeadline htimeout
    exact ⟨fuel, h⟩
  · exact Host.reachable_of_run h

/-- Behind an answer there is a run. -/
theorem Hosted.exists_run (h : Hosted job a) :
    ∃ stop fuel r timedOut, job.settings.run job.problem stop fuel = some r ∧
      a = Host.answer timedOut r ∧ (timedOut = true → job.timeout.isSome = true) := by
  rw [Hosted] at h
  split at h
  · obtain ⟨fuel, h⟩ := h
    rw [Host.run_eq_map, Option.map_eq_some_iff] at h
    obtain ⟨r, hrun, rfl⟩ := h
    exact ⟨_, fuel, r, _, hrun, rfl, by simp⟩
  · rename_i htimeout
    obtain ⟨s, timedOut, hreachable, hcaller⟩ := h
    obtain ⟨r, hworker, rfl⟩ := hreachable.honest.returned timedOut a hcaller
    obtain ⟨deadline, fuel, hrun, -⟩ := hreachable.honest.found r (by rw [hworker]; rfl)
    exact ⟨_, fuel, r, timedOut, hrun, rfl, by simp [htimeout]⟩

/-- A program that a host returns for a call is right, and its text is one line. -/
theorem Hosted.solves (h : Hosted (call.jobFor examples) (.ok report))
    (hp : report.program = some p) :
    '\n' ∉ p.text.toList ∧ Derives .arithmetic (.nonTerminal "E") p.root ∧
      ∀ e ∈ examples, p.evaluate e.input = .ok e.output := by
  obtain ⟨stop, fuel, r, timedOut, hrun, hanswer, -⟩ := h.exists_run
  have hresult := (Host.answer_eq_ok.mp hanswer.symm).1
  rw [hp] at hresult
  have ⟨hderives, hmeets⟩ := Settings.solves_of_run hrun hresult
  obtain ⟨e, he⟩ := Arithmetic.derives_expr_iff.mp hderives
  refine ⟨?_, hderives, hmeets⟩
  rw [Program.text, ← he]
  exact e.newline_not_mem

/-- Time runs out only for a job with a timeout. -/
theorem Hosted.timedOut (h : Hosted job (.ok report)) (hlate : report.timedOut = true) :
    job.timeout.isSome = true := by
  obtain ⟨stop, fuel, r, timedOut, -, hanswer, htimeout⟩ := h.exists_run
  exact htimeout ((Host.answer_eq_ok.mp hanswer.symm).2.1 ▸ hlate)

/-! ## Answers -/

/-- How a call for a program ends, and why, if the host gives no answer to a job that never ends. -/
inductive Outcome (call : Invocation) (contents : Option ByteArray)
    (host : Job → Option (Except Fault Host.Report)) (response : Response) : Prop
  /-- The file cannot be read, is no text, or has a line that is no example. -/
  | unusable (hcontents : ∀ examples, ¬ Holds contents examples) (hcode : response.code = 1)
      (houtput : response.output = "")
  /-- The run has met a fault, such as a variable that an example does not have. -/
  | faulty {examples : List Example} {fault : Fault} (hcontents : Holds contents examples)
      (hhost : host (call.jobFor examples) = some (.error fault)) (hcode : response.code = 1)
      (houtput : response.output = "")
  /-- The deadline has passed, and there is no program. -/
  | timedOut {examples : List Example} {report : Host.Report} (hcontents : Holds contents examples)
      (hhost : host (call.jobFor examples) = some (.ok report)) (hprogram : report.program = none)
      (hlate : report.timedOut = true) (htimeout : call.timeout.isSome = true)
      (hcode : response.code = 1) (houtput : response.output = "<timed out>\n")
  /-- The run has ended without a program. -/
  | nothing {examples : List Example} {report : Host.Report} (hcontents : Holds contents examples)
      (hhost : host (call.jobFor examples) = some (.ok report)) (hprogram : report.program = none)
      (hlate : report.timedOut = false) (hcode : response.code = 1)
      (houtput : response.output = "<no program>\n")
  /-- There is a program, be it in time or not. -/
  | found {examples : List Example} {report : Host.Report} {p : Program}
      (hcontents : Holds contents examples)
      (hhost : host (call.jobFor examples) = some (.ok report)) (hprogram : report.program = some p)
      (hcode : response.code = 0) (houtput : response.output = p.text ++ "\n")

theorem answer_eq (hread : read {} args = some (.synthesize file call))
    (contents : String → Option ByteArray) (host : Job → Option (Except Fault Host.Report)) :
    answer args (fun path => some (contents path)) host
      = match prepare call (contents file) with
        | .error response => some response
        | .ok job => (host job).map (conclude job) := by
  rw [answer, hread]
  dsimp only [bind, Option.bind]
  cases prepare call (contents file) with
  | error response => rfl
  | ok job => cases h : host job <;> simp [h]

/-- **Every answer is one of these.** -/
theorem outcome_of_answer {contents : String → Option ByteArray}
    {host : Job → Option (Except Fault Host.Report)}
    (hread : read {} args = some (.synthesize file call))
    (hstrategy : call.strategy.getD .topDown ≠ .constraintBased)
    (hhost : ∀ job a, host job = some a → Hosted job a)
    (h : answer args (fun path => some (contents path)) host = some response) :
    Outcome call (contents file) host response := by
  rw [answer_eq hread] at h
  by_cases hcontents : ∃ examples, Holds (contents file) examples
  · obtain ⟨examples, hcontents⟩ := hcontents
    rw [hcontents.prepare_eq hstrategy] at h
    obtain ⟨a, ha, rfl⟩ := Option.map_eq_some_iff.mp h
    match a with
    | .error fault => exact .faulty hcontents ha rfl rfl
    | .ok ⟨some p, _, _⟩ => exact .found hcontents ha rfl rfl rfl
    | .ok ⟨none, false, _⟩ => exact .nothing hcontents ha rfl rfl rfl rfl
    | .ok ⟨none, true, _⟩ =>
        exact .timedOut hcontents ha rfl rfl ((hhost _ _ ha).timedOut rfl) rfl rfl
  · have hcontents := not_exists.mp hcontents
    obtain ⟨complaint, hprepare⟩ := exists_failed_of_not_holds call hcontents
    rw [hprepare] at h
    obtain rfl := Option.some.inj h
    exact .unusable hcontents rfl rfl

/--
**The answer to a call for a program is true.**

Take any call for top-down search or divide and conquer, with a depth bound or not and with a timeout
or not, any file, and any host that answers to a job what it may. The call comes to an end unless
the file holds examples and the job on them does not. If it exits with zero, its output is one
line, the text of a complete term that derives from `E` and evaluates to the output on every
example of the file. Otherwise it exits with one, and its output says that there is no program, or
that time ran out, or nothing.
-/
theorem answer_outcome (contents : String → Option ByteArray)
    (host : Job → Option (Except Fault Host.Report))
    (hread : read {} args = some (.synthesize file call))
    (hstrategy : call.strategy.getD .topDown ≠ .constraintBased)
    (hhost : ∀ job a, host job = some a → Hosted job a) :
    ((∃ response, answer args (fun path => some (contents path)) host = some response) ↔
        ∀ examples, Holds (contents file) examples →
          (host (call.jobFor examples)).isSome = true) ∧
      ∀ response, answer args (fun path => some (contents path)) host = some response →
        Outcome call (contents file) host response ∧
        (response.code = 0 → ∃ (examples : List Example) (p : Program),
          Holds (contents file) examples ∧ response.output = p.text ++ "\n" ∧
          '\n' ∉ p.text.toList ∧ p.root.isComplete = true ∧
          Derives .arithmetic (.nonTerminal "E") p.root ∧
          ∀ e ∈ examples, p.evaluate e.input = .ok e.output) ∧
        (response.code ≠ 0 → response.code = 1 ∧
          (response.output = "<no program>\n" ∨ response.output = "<timed out>\n" ∨
            response.output = "")) := by
  refine ⟨⟨?_, fun hends => ?_⟩, fun response h => ?_⟩
  · rintro ⟨response, h⟩ examples hcontents
    rw [answer_eq hread, hcontents.prepare_eq hstrategy] at h
    obtain ⟨a, ha, -⟩ := Option.map_eq_some_iff.mp h
    rw [ha]
    rfl
  · rw [answer_eq hread]
    by_cases hcontents : ∃ examples, Holds (contents file) examples
    · obtain ⟨examples, hcontents⟩ := hcontents
      obtain ⟨a, ha⟩ := Option.isSome_iff_exists.mp (hends examples hcontents)
      rw [hcontents.prepare_eq hstrategy]
      exact ⟨_, Option.map_eq_some_iff.mpr ⟨a, ha, rfl⟩⟩
    · obtain ⟨complaint, hprepare⟩ :=
        exists_failed_of_not_holds call (not_exists.mp hcontents)
      rw [hprepare]
      exact ⟨_, rfl⟩
  · have houtcome := outcome_of_answer hread hstrategy hhost h
    refine ⟨houtcome, ?_⟩
    cases houtcome with
    | unusable _ hcode houtput | faulty _ _ hcode houtput =>
        exact ⟨fun hzero => absurd (hcode.symm.trans hzero) (by decide),
          fun _ => ⟨hcode, .inr (.inr houtput)⟩⟩
    | timedOut _ _ _ _ _ hcode houtput =>
        exact ⟨fun hzero => absurd (hcode.symm.trans hzero) (by decide),
          fun _ => ⟨hcode, .inr (.inl houtput)⟩⟩
    | nothing _ _ _ _ hcode houtput =>
        exact ⟨fun hzero => absurd (hcode.symm.trans hzero) (by decide),
          fun _ => ⟨hcode, .inl houtput⟩⟩
    | @found examples report p hcontents hreport hprogram hcode houtput =>
        have ⟨hline, hderives, hmeets⟩ := (hhost _ _ hreport).solves hprogram
        exact ⟨fun _ => ⟨examples, p, hcontents, houtput, hline, p.complete, hderives, hmeets⟩,
          fun hnonzero => absurd hcode hnonzero⟩

/-- One file, with an example on each of two lines. -/
def oneFile (path : String) : Option ByteArray :=
  if path = "f" then some "x=5, y=1, z=0 -> 5\nx=0, y=9, z=0 -> 9".toUTF8 else none

/-- A host for small jobs. A timeout is a thousand looks. -/
def smallHost (job : Job) : Option (Except Fault Host.Report) :=
  Host.run job.settings job.problem (job.timeout.map fun _ => 1000) 100

theorem hosted_smallHost (h : smallHost job = some a) : Hosted job a :=
  hosted_of_run h fun htimeout => by rw [htimeout]; rfl

/-- A call that finds a program, and one for a file that cannot be read. -/
theorem answer_outcome_found :
    Holds (oneFile "f") Problem.branching.examples ∧
    (∃ response, answer ["f", "-s", "divide-conquer", "-t5", "--max-depth=3"]
        (fun path => some (oneFile path)) smallHost = some response ∧ response.code = 0 ∧
      ∃ (examples : List Example) (p : Program), Holds (oneFile "f") examples ∧
        response.output = p.text ++ "\n" ∧ ∀ e ∈ examples, p.evaluate e.input = .ok e.output) ∧
    ∃ response, answer ["--", "g"] (fun path => some (oneFile path)) smallHost = some response ∧
      response.code ≠ 0 ∧ response.code = 1 := by
  have hexamples : Example.readAll "x=5, y=1, z=0 -> 5\nx=0, y=9, z=0 -> 9"
      = .ok Problem.branching.examples := by rfl
  have hholds : Holds (oneFile "f") Problem.branching.examples :=
    ⟨_, _, rfl, fromUTF8?_toUTF8 _, hexamples⟩
  have hread : read {} ["f", "-s", "divide-conquer", "-t5", "--max-depth=3"]
      = some (.synthesize "f" ⟨some "f", some .divideAndConquer, some 5, some 3, none⟩) := by rfl
  have hread' : read {} ["--", "g"] = some (.synthesize "g" ⟨some "g", none, none, none, none⟩) := by
    rfl
  have hhost : ∀ job a, smallHost job = some a → Hosted job a := fun _ _ => hosted_smallHost
  refine ⟨hholds, ?_, ?_⟩
  · obtain ⟨p, timedOut, events, hreport⟩ : ∃ p timedOut events, smallHost
        (Invocation.jobFor ⟨some "f", some .divideAndConquer, some 5, some 3, none⟩
          Problem.branching.examples) = some (.ok ⟨some p, timedOut, events⟩) := ⟨_, _, _, rfl⟩
    have hanswer := answer_eq hread oneFile smallHost
    rw [hholds.prepare_eq (by decide)] at hanswer
    dsimp only at hanswer
    rw [hreport] at hanswer
    obtain ⟨examples, p', hcontents, houtput, _, _, _, hmeets⟩ :=
      ((answer_outcome oneFile smallHost hread (by decide) hhost).2 _ hanswer).2.1 rfl
    exact ⟨_, hanswer, rfl, examples, p', hcontents, houtput, hmeets⟩
  · have hanswer := answer_eq hread' oneFile smallHost
    have hcode := ((answer_outcome oneFile smallHost hread' (by decide) hhost).2 _ hanswer).2.2
    exact ⟨_, hanswer, by decide, (hcode (by decide)).1⟩

end CommandLine

end Sygus
